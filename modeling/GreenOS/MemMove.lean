import Mathlib.Tactic

/-!
# Moving bytes

The two functions `memmove`, of the kernel and of the user library, over a memory
of bytes.
-/

namespace GreenOS.MemMove
open Function (update update_self update_of_ne)

abbrev Mem := ℕ → UInt8

def copyUp (mem : Mem) (d s : ℕ) : ℕ → Mem
  | 0 => mem
  | n+1 => copyUp (update mem d (mem s)) (d+1) (s+1) n

def copyDown (mem : Mem) (d s : ℕ) : ℕ → Mem
  | 0 => mem
  | n+1 => copyDown (update mem (d-1) (mem (s-1))) (d-1) (s-1) n

def Kernel.memmove (mem : Mem) (dst src n : ℕ) : Mem :=
  if n = 0 then mem
  else if src < dst ∧ dst < src+n then copyDown mem (dst+n) (src+n) n
  else copyUp mem dst src n

def User.memmove (mem : Mem) (dst src : ℕ) (n : ℤ) : Mem :=
  if dst < src then copyUp mem dst src n.toNat
  else copyDown mem (dst+n.toNat) (src+n.toNat) n.toNat

def moved (mem : Mem) (dst src n : ℕ) : Mem := fun i =>
    if dst ≤ i ∧ i < dst+n then mem (src+(i-dst)) else mem i

/-- A loop upwards reads each byte before it is written over, if it writes below where it reads or
does not reach it. -/
theorem copyUp_eq (mem : Mem) (d s n : ℕ) (h : d ≤ s ∨ s+n ≤ d) : copyUp mem d s n =
    moved mem d s n := by
  induction n generalizing mem d s with
  | zero =>
    funext i
    rw [copyUp, moved, if_neg (by omega)]
  | succ n ih =>
    rw [copyUp, ih _ _ _ (by omega)]
    funext i
    unfold moved
    by_cases hi : d+1 ≤ i ∧ i < d+1+n
    · have hne : s+1+(i-(d+1)) ≠ d := by omega
      rw [if_pos hi, if_pos (by omega), update_of_ne hne]
      congr 1
      omega
    · rw [if_neg hi]
      by_cases hd : i = d
      · subst hd
        rw [update_self, if_pos (by omega), Nat.sub_self, Nat.add_zero]
      · rw [update_of_ne hd, if_neg (by omega)]

theorem copyDown_eq (mem : Mem) (d s n : ℕ) (h : s ≤ d ∨ d+n ≤ s) :
    copyDown mem (d+n) (s+n) n = moved mem d s n := by
  induction n generalizing mem with
  | zero =>
    funext i
    rw [copyDown, moved, if_neg (by omega)]
  | succ n ih =>
    rw [copyDown, show d+(n+1)-1 = d+n from rfl, show s+(n+1)-1 = s+n from rfl, ih _ (by omega)]
    funext i
    unfold moved
    by_cases hi : d ≤ i ∧ i < d+n
    · have hne : s+(i-d) ≠ d+n := by omega
      rw [if_pos hi, if_pos (by omega), update_of_ne hne]
    · rw [if_neg hi]
      by_cases hd : i = d+n
      · subst hd
        rw [update_self, if_pos (by omega), Nat.add_sub_cancel_left]
      · rw [update_of_ne hd, if_neg (by omega)]

theorem User.memmove_eq (mem : Mem) (dst src : ℕ) (n : ℤ) :
    User.memmove mem dst src n = moved mem dst src n.toNat := by
  unfold User.memmove
  by_cases h : dst < src
  · rw [if_pos h, copyUp_eq _ _ _ _ (.inl (Nat.le_of_lt h))]
  · rw [if_neg h, copyDown_eq _ _ _ _ (.inl (Nat.le_of_not_lt h))]

theorem Kernel.memmove_eq (mem : Mem) (dst src n : ℕ) : Kernel.memmove mem dst src n =
    moved mem dst src n := by
  unfold Kernel.memmove
  by_cases hn : n = 0
  · funext i
    rw [if_pos hn, moved, if_neg (by omega)]
  · rw [if_neg hn]
    by_cases h : src < dst ∧ dst < src+n
    · rw [if_pos h, copyDown_eq _ _ _ _ (.inl (Nat.le_of_lt h.1))]
    · rw [if_neg h, copyUp_eq _ _ _ _ (by omega)]

def bytes (mem : Mem) (p : ℕ) : ℕ → List UInt8
  | 0 => []
  | n+1 => mem p::bytes mem (p+1) n

section Bytes
variable {mem mem' : Mem} {p n : ℕ}

@[simp] theorem length_bytes : (bytes mem p n).length = n := by
  induction n generalizing p with
  | zero => rfl
  | succ n ih => rw [bytes, List.length_cons, ih]

variable {p' : ℕ} {c : UInt8} {w : List UInt8}

theorem bytes_congr (h : ∀ i < n, mem (p+i) = mem' (p'+i)) : bytes mem p n = bytes mem' p' n := by
  induction n generalizing p p' with
  | zero => rfl
  | succ n ih =>
    have htail : bytes mem (p+1) n = bytes mem' (p'+1) n := by
      apply ih
      intro i hi
      rw [Nat.add_assoc, Nat.add_assoc, Nat.add_comm 1]
      exact h (i+1) (Nat.succ_lt_succ hi)
    rw [bytes, bytes, htail]
    exact congrArg (·::_) (h 0 (Nat.succ_pos n))

theorem bytes_getElem {i : ℕ} (hi : i < (bytes mem p n).length) : (bytes mem p n)[i] =
    mem (p+i) := by
  induction n generalizing p i with
  | zero => exact absurd hi (Nat.not_lt_zero _)
  | succ n ih =>
    cases i with
    | zero => rfl
    | succ i =>
      simp only [bytes, List.getElem_cons_succ, ih]
      rw [Nat.add_assoc, Nat.add_comm 1]

theorem bytes_add (mem : Mem) (p k n : ℕ) : bytes mem p (k+n) =
    bytes mem p k++bytes mem (p+k) n := by
  induction k generalizing p with
  | zero => simp [bytes]
  | succ k ih =>
    rw [Nat.succ_add, bytes, bytes, ih, List.cons_append, Nat.add_assoc p, Nat.add_comm 1]

def Holds (mem : Mem) (p : ℕ) (w : List UInt8) : Prop := bytes mem p w.length = w

theorem holds_cons : Holds mem p (c::w) ↔ mem p = c ∧ Holds mem (p+1) w :=
  List.cons_eq_cons

theorem holds_append {a b : List UInt8} : Holds mem p (a++b) ↔ Holds mem p a ∧
    Holds mem (p+a.length) b := by
  unfold Holds
  rw [List.length_append, bytes_add]
  exact ⟨fun h => List.append_inj h length_bytes,fun h => congrArg₂ (·++·) h.1 h.2⟩

theorem Holds.congr (h : Holds mem p w) (heq : ∀ i < w.length, mem' (p'+i) = mem (p+i)) :
    Holds mem' p' w := (bytes_congr heq).trans h

theorem Holds.update {q : ℕ} (h : Holds mem p w) (hq : q < p ∨ p+w.length ≤ q) :
    Holds (update mem q c) p w := by
  apply h.congr
  intro i hi
  rw [update_of_ne (by omega)]

theorem Holds.moved (h : Holds mem p w) (dst : ℕ) : Holds (moved mem dst p w.length) dst w := by
  apply h.congr
  intro i hi
  unfold MemMove.moved
  rw [if_pos (by omega), Nat.add_sub_cancel_left]

end Bytes

end GreenOS.MemMove
