import Mathlib.Tactic

/-!
# Ring buffers with free-running counters

A ring of `N` cells read and written through two counters of `w` bits that are
never reduced; a cell is found by reducing a counter modulo `N`. When `N`
divides `2^w` and is smaller, the ring is a queue of at most `N` elements, also
after the counters have wrapped around.
-/

namespace GreenOS.RingBuffer

structure Ring (N w : ℕ) (α : Type*) where
  data : Fin N → α
  head : BitVec w
  tail : BitVec w

section
variable {N w : ℕ} {α : Type*} [NeZero N]

def index (k : BitVec w) : Fin N := Fin.ofNat N k.toNat

def size (r : Ring N w α) : ℕ := (r.tail-r.head).toNat

def contents (r : Ring N w α) : List α :=
  (List.range (size r)).map (fun j => r.data (index (r.head+BitVec.ofNat w j)))

def push (r : Ring N w α) (x : α) : Ring N w α :=
  { r with data := Function.update r.data (index r.tail) x, tail := r.tail+1 }

def pop (r : Ring N w α) : Ring N w α := { r with head := r.head+1 }

def retract (r : Ring N w α) : Ring N w α := { r with tail := r.tail-1 }

def Full (r : Ring N w α) : Prop := r.tail = r.head+BitVec.ofNat w N

section Size
variable {r : Ring N w α}

omit [NeZero N] in
theorem tail_eq : r.tail = r.head+BitVec.ofNat w (size r) := by
  rw [size, BitVec.ofNat_toNat, BitVec.setWidth_eq, BitVec.add_comm, BitVec.sub_add_cancel]

omit [NeZero N] in
theorem size_of_tail {n : ℕ} (hn : n < 2^w) (h : r.tail = r.head+BitVec.ofNat w n) :
    size r = n := by
  rw [size, h, BitVec.add_comm, BitVec.add_sub_cancel, BitVec.toNat_ofNat, Nat.mod_eq_of_lt hn]

omit [NeZero N] in
theorem full_iff (hN : N < 2^w) : Full r ↔ size r = N := by
  constructor
  · exact size_of_tail hN
  · intro h
    have htail := tail_eq (r := r)
    rw [h] at htail
    exact htail

omit [NeZero N] in
theorem empty_iff : r.head = r.tail ↔ size r = 0 := by
  constructor
  · intro h
    rw [size, h, BitVec.sub_self]
    rfl
  · intro h
    have := tail_eq (r := r)
    rw [h] at this
    simpa using this.symm

theorem size_push (x : α) (h : size r+1 < 2^w) : size (push r x) = size r+1 := by
  apply size_of_tail h
  show r.tail+1 = r.head+BitVec.ofNat w (size r+1)
  rw [BitVec.ofNat_add, ← BitVec.add_assoc, ← tail_eq]
  rfl

omit [NeZero N] in
theorem size_pop (h : 0 < size r) : size (pop r) = size r-1 := by
  obtain ⟨n,hn⟩ : ∃ n, size r = n+1 := ⟨size r-1,by omega⟩
  have hlt : size r < 2^w := (r.tail-r.head).isLt
  rw [hn, Nat.add_sub_cancel]
  apply size_of_tail (by omega)
  show r.tail = r.head+1+BitVec.ofNat w n
  rw [tail_eq, hn, BitVec.ofNat_add, BitVec.add_assoc, BitVec.add_comm 1]
  rfl

omit [NeZero N] in
theorem tail_pred (h : 0 < size r) : r.tail-1 = r.head+BitVec.ofNat w (size r-1) := by
  obtain ⟨n,hn⟩ : ∃ n, size r = n+1 := ⟨size r-1,by omega⟩
  rw [tail_eq (r := r), hn, Nat.add_sub_cancel, BitVec.ofNat_add, ← BitVec.add_assoc]
  exact BitVec.add_sub_cancel _ _

omit [NeZero N] in
theorem size_retract (h : 0 < size r) : size (retract r) = size r-1 := by
  have hlt : size r < 2^w := (r.tail-r.head).isLt
  exact size_of_tail (by omega) (tail_pred h)

end Size

theorem index_add (hdvd : N ∣ 2^w) (k : BitVec w) (j : ℕ) :
    (index (k+BitVec.ofNat w j) : Fin N).val = (k.toNat+j)%N := by
  simp only [index, Fin.val_ofNat, BitVec.toNat_add, BitVec.toNat_ofNat, Nat.add_mod_mod,
    Nat.mod_mod_of_dvd _ hdvd]

variable {r : Ring N w α}

theorem index_tail_ne (hdvd : N ∣ 2^w) (hroom : size r < N) {j : ℕ} (hj : j < size r) :
    (index (r.head+BitVec.ofNat w j) : Fin N) ≠ index r.tail := by
  intro heq
  have hval := congrArg Fin.val heq
  rw [tail_eq (r := r), index_add hdvd, index_add hdvd] at hval
  have hmod : r.head.toNat+j ≡ r.head.toNat+size r [MOD N] := hval
  have := Nat.ModEq.add_left_cancel' _ hmod
  have := Nat.ModEq.eq_of_lt_of_lt this (by omega) hroom
  omega

theorem contents_stage (hdvd : N ∣ 2^w) (hroom : size r < N) (x : α) :
    contents { r with data := Function.update r.data (index r.tail) x } = contents r := by
  apply List.map_congr_left
  intro j hj
  exact Function.update_of_ne (index_tail_ne hdvd hroom (List.mem_range.mp hj)) _ _

theorem contents_push (hdvd : N ∣ 2^w) (hN : N < 2^w) (hroom : size r < N) (x : α) :
    contents (push r x) = contents r ++ [x] := by
  rw [contents, size_push x (by omega), List.range_succ, List.map_append,
    ← contents_stage hdvd hroom x]
  congr 1
  have htail : (push r x).head+BitVec.ofNat w (size r) = r.tail :=
    (tail_eq (r := r)).symm
  rw [List.map_singleton, htail]
  exact congrArg (fun y => [y]) (Function.update_self _ _ _)

theorem contents_pop (h : 0 < size r) :
    contents r = r.data (index r.head) :: contents (pop r) := by
  obtain ⟨n,hn⟩ : ∃ n, size r = n+1 := ⟨size r-1,by omega⟩
  rw [contents, contents, size_pop h, hn, Nat.add_sub_cancel, List.range_succ_eq_map,
    List.map_cons, List.map_map]
  congr 1
  · simp
  · apply List.map_congr_left
    intro j _
    show r.data (index (r.head+BitVec.ofNat w (j+1))) =
      r.data (index (r.head+1+BitVec.ofNat w j))
    rw [BitVec.ofNat_add, BitVec.add_assoc, BitVec.add_comm 1]
    rfl

theorem contents_retract (h : 0 < size r) :
    contents r = contents (retract r)++[r.data (index (r.tail-1))] := by
  obtain ⟨n,hn⟩ : ∃ n, size r = n+1 := ⟨size r-1,by omega⟩
  have htail := tail_pred h
  rw [contents, contents, size_retract h, htail, hn, Nat.add_sub_cancel, List.range_succ,
    List.map_append, List.map_singleton]
  rfl

theorem length_contents (r : Ring N w α) : (contents r).length = size r := by
  rw [contents, List.length_map, List.length_range]

end

end GreenOS.RingBuffer
