import GreenOS.MemMove

/-!
# Moving bytes between machine addresses

The two functions `memmove` with pointers of 64 bits and lengths of 32. A pointer
past the last byte of the address space is zero, and each function compares pointers
in its own way. As long as no range wraps, they do what they do with numbers.
-/

namespace GreenOS.WordMove
open MemMove

abbrev Ptr := BitVec 64

def upward (mem : Mem) (d s : Ptr) : ℕ → Mem
  | 0 => mem
  | n+1 => upward (Function.update mem d.toNat (mem s.toNat)) (d+1) (s+1) n

def downward (mem : Mem) (d s : Ptr) : ℕ → Mem
  | 0 => mem
  | n+1 => downward (Function.update mem (d-1).toNat (mem (s-1).toNat)) (d-1) (s-1) n

def Kernel.memmove (mem : Mem) (dst src : Ptr) (n : BitVec 32) : Ptr × Mem :=
  if n = 0 then (dst,mem)
  else if src < dst ∧ src+n.setWidth 64 > dst then
    (dst,downward mem (dst+n.setWidth 64) (src+n.setWidth 64) n.toNat)
  else (dst,upward mem dst src n.toNat)

def User.memmove (mem : Mem) (dst src : Ptr) (n : BitVec 32) : Ptr × Mem :=
  if src > dst then (dst,upward mem dst src n.toInt.toNat)
  else (dst,downward mem (dst+n.signExtend 64) (src+n.signExtend 64) n.toInt.toNat)

section Loops
variable {d s : Ptr} {n : ℕ}

theorem toNat_add (h : d.toNat+n < 2^64) : (d+BitVec.ofNat 64 n).toNat = d.toNat+n := by
  rw [BitVec.toNat_add, BitVec.toNat_ofNat]
  omega

theorem upward_eq (mem : Mem) (hd : d.toNat+n ≤ 2^64) (hs : s.toNat+n ≤ 2^64) :
    upward mem d s n = copyUp mem d.toNat s.toNat n := by
  induction n generalizing mem d s with
  | zero => rfl
  | succ n ih =>
    rw [upward, copyUp]
    cases n with
    | zero => rfl
    | succ n =>
      have hd' : (d+1).toNat = d.toNat+1 := toNat_add (n := 1) (by omega)
      have hs' : (s+1).toNat = s.toNat+1 := toNat_add (n := 1) (by omega)
      rw [ih _ (by omega) (by omega), hd', hs']

theorem downward_eq (mem : Mem) (hd : d.toNat+n ≤ 2^64) (hs : s.toNat+n ≤ 2^64) :
    downward mem (d+BitVec.ofNat 64 n) (s+BitVec.ofNat 64 n) n = copyDown mem (d.toNat+n)
      (s.toNat+n) n := by
  induction n generalizing mem with
  | zero => rfl
  | succ n ih =>
    have hback : ∀ a : Ptr, a+BitVec.ofNat 64 (n+1)-1 = a+BitVec.ofNat 64 n := fun a => by
      rw [BitVec.ofNat_add, ← BitVec.add_assoc]
      exact BitVec.add_sub_cancel _ _
    rw [downward, copyDown, hback, hback, toNat_add (by omega), toNat_add (by omega)]
    exact ih _ (by omega) (by omega)

end Loops

section Functions
variable {dst src : Ptr} {n : ℕ}

theorem Kernel.memmove_eq (mem : Mem) (hn : n < 2^32) (hdst : dst.toNat+n ≤ 2^64)
    (hsrc : src.toNat+n ≤ 2^64) :
    Kernel.memmove mem dst src (.ofNat 32 n) = (dst,moved mem dst.toNat src.toNat n) := by
  have hlen : (BitVec.ofNat 32 n).toNat = n := by rw [BitVec.toNat_ofNat, Nat.mod_eq_of_lt hn]
  have hwide : (BitVec.ofNat 32 n).setWidth 64 = BitVec.ofNat 64 n := by
    apply BitVec.eq_of_toNat_eq
    rw [BitVec.toNat_setWidth, hlen, BitVec.toNat_ofNat]
  have hzero : BitVec.ofNat 32 n = 0 ↔ n = 0 := by
    rw [← BitVec.toNat_inj, hlen]
    rfl
  -- The end of a source below the destination is not past the last address.
  have hover : (src < dst ∧ src+BitVec.ofNat 64 n > dst) ↔
    (src.toNat < dst.toNat ∧ dst.toNat < src.toNat+n) := by
    rw [gt_iff_lt, BitVec.lt_def, BitVec.lt_def]
    refine and_congr_right (fun hlt => ?_)
    rw [toNat_add (by omega)]
  rw [← MemMove.Kernel.memmove_eq, Kernel.memmove, MemMove.Kernel.memmove, hlen, hwide]
  simp only [hzero, hover, downward_eq mem hdst hsrc, upward_eq mem hdst hsrc]
  split_ifs <;> rfl

theorem User.memmove_eq (mem : Mem) (hn : n < 2^31) (hdst : dst.toNat+n ≤ 2^64)
    (hsrc : src.toNat+n ≤ 2^64) :
    User.memmove mem dst src (.ofNat 32 n) = (dst,moved mem dst.toNat src.toNat n) := by
  have hint : (BitVec.ofNat 32 n).toInt = n := by
    rw [BitVec.toInt_eq_toNat_of_lt, BitVec.toNat_ofNat, Nat.mod_eq_of_lt (by omega)]
    rw [BitVec.toNat_ofNat]
    omega
  have hwide : (BitVec.ofNat 32 n).signExtend 64 = BitVec.ofNat 64 n := by
    rw [BitVec.signExtend, hint, BitVec.ofInt_natCast]
  have hmove := MemMove.User.memmove_eq mem dst.toNat src.toNat n
  rw [Int.toNat_natCast] at hmove
  rw [← hmove, User.memmove, MemMove.User.memmove, hint, hwide, Int.toNat_natCast,
    downward_eq mem hdst hsrc,
    upward_eq mem hdst hsrc]
  by_cases h : dst < src
  · rw [if_pos h, if_pos (BitVec.lt_def.mp h)]
  · rw [if_neg h, if_neg (fun h' => h (BitVec.lt_def.mpr h'))]

end Functions

/-- The `n` bytes at `dst` are those that were at `src`, and no other byte has changed. -/
def Moves (mem mem' : Mem) (dst src n : ℕ) : Prop :=
  (∀ i < n, mem' (dst+i) = mem (src+i)) ∧ ∀ a, a < dst ∨ dst+n ≤ a → mem' a = mem a

theorem moves_moved (mem : Mem) (dst src n : ℕ) : Moves mem (moved mem dst src n) dst src n := by
  refine ⟨fun i hi => ?_,fun a ha => ?_⟩
  · rw [moved, if_pos (by omega), Nat.add_sub_cancel_left]
  · rw [moved, if_neg (by omega)]

/-- Both functions move the bytes of ranges that overlap in any way, for each length that their
argument can hold, so they agree wherever both can be called. -/
theorem memmove_overlap_safe (mem : Mem) (dst src : Ptr) (n : ℕ) (hdst : dst.toNat+n ≤ 2^64)
    (hsrc : src.toNat+n ≤ 2^64) :
    (n < 2^32 → Moves mem (Kernel.memmove mem dst src (.ofNat 32 n)).2 dst.toNat src.toNat n) ∧
    (n < 2^31 → Moves mem (User.memmove mem dst src (.ofNat 32 n)).2 dst.toNat src.toNat n) ∧
    (n < 2^31 → Kernel.memmove mem dst src (.ofNat 32 n) = User.memmove mem dst src
      (.ofNat 32 n)) := by
  refine ⟨fun hn => ?_,fun hn => ?_,fun hn => ?_⟩
  · rw [Kernel.memmove_eq mem hn hdst hsrc]
    exact moves_moved mem dst.toNat src.toNat n
  · rw [User.memmove_eq mem hn hdst hsrc]
    exact moves_moved mem dst.toNat src.toNat n
  · rw [Kernel.memmove_eq mem (by omega) hdst hsrc, User.memmove_eq mem hn hdst hsrc]

/-- Four bytes that move up by two, to the end of the address space. -/
theorem memmove_overlap_top :
    Moves (fun a => UInt8.ofNat a) (Kernel.memmove (fun a => UInt8.ofNat a) (-4) (-6) 4).2
      (2^64-4) (2^64-6) 4 :=
  (memmove_overlap_safe _ (-4) (-6) 4 (by decide) (by decide)).1 (by decide)

end GreenOS.WordMove
