import Mathlib.Tactic

/-!
# Blocks of bytes and little-endian fields

A block of `n` bytes, the bytes at a range of offsets, and numbers stored in
little-endian order. A read returns what the last write put at its offset, and
is not affected by a write to other offsets.
-/

namespace GreenOS.ByteBlock

abbrev Bytes (n : ℕ) := Fin n → UInt8

section
variable {n : ℕ}

def get (b : Bytes n) (i : ℕ) : UInt8 := if h : i < n then b ⟨i,h⟩ else 0

def splice (b : Bytes n) (o len : ℕ) (f : ℕ → UInt8) : Bytes n :=
  fun j => if o ≤ j.val ∧ j.val < o+len then f (j.val-o) else b j

def zeros : Bytes n := fun _ => 0

theorem get_zeros (i : ℕ) : get (zeros : Bytes n) i = 0 := by
  simp [get, zeros]

theorem get_splice_in (b : Bytes n) {o len i : ℕ} (f : ℕ → UInt8) (hn : o+len ≤ n)
    (hi : i < len) : get (splice b o len f) (o+i) = f i := by
  have h : o+i < n := by omega
  simp [get, splice, h, hi]

theorem get_splice_out (b : Bytes n) {o len i : ℕ} (f : ℕ → UInt8)
    (hi : i < o ∨ o+len ≤ i) : get (splice b o len f) i = get b i := by
  unfold get splice
  split_ifs with h₁ h₂
  · dsimp only at h₂
    omega
  · rfl
  · rfl

end

def le : ℕ → (ℕ → UInt8) → ℕ
  | 0, _ => 0
  | w+1, f => (f 0).toNat+256*le w (fun k => f (k+1))

def byteOf (v k : ℕ) : UInt8 := UInt8.ofNat (v/256^k)

theorem byteOf_succ (v k : ℕ) : byteOf v (k+1) = byteOf (v/256) k := by
  simp [byteOf, pow_succ', Nat.div_div_eq_div_mul]

theorem le_lt (w : ℕ) (f : ℕ → UInt8) : le w f < 256^w := by
  induction w generalizing f with
  | zero => simp [le]
  | succ w ih =>
    have h₁ := ih (fun k => f (k+1))
    have h₂ : (f 0).toNat < 256 := (f 0).toNat_lt
    simp only [le, pow_succ']
    omega

theorem le_congr {w : ℕ} {f g : ℕ → UInt8} (h : ∀ k < w, f k = g k) : le w f = le w g := by
  induction w generalizing f g with
  | zero => rfl
  | succ w ih =>
    simp only [le]
    rw [h 0 (by omega), ih (fun k hk => h (k+1) (by omega))]

theorem le_byteOf (w v : ℕ) : le w (byteOf v) = v % 256^w := by
  induction w generalizing v with
  | zero => simp [le, Nat.mod_one]
  | succ w ih =>
    have hstep : le w (fun k => byteOf v (k+1)) = (v/256) % 256^w := by
      rw [← ih (v/256)]
      exact le_congr (fun k _ => byteOf_succ v k)
    have h0 : (byteOf v 0).toNat = v % 256 := by simp [byteOf]
    simp only [le, hstep, h0, pow_succ']
    rw [Nat.mod_mul]

section
variable {n : ℕ}

def getLE (b : Bytes n) (o w : ℕ) : ℕ := le w (fun k => get b (o+k))

def putLE (b : Bytes n) (o w v : ℕ) : Bytes n := splice b o w (byteOf v)

theorem getLE_splice_out (b : Bytes n) {o len o' w : ℕ} (f : ℕ → UInt8)
    (h : o'+w ≤ o ∨ o+len ≤ o') : getLE (splice b o len f) o' w = getLE b o' w :=
  le_congr (fun k hk => get_splice_out b f (by omega))

theorem getLE_splice_in (b : Bytes n) {o len i w : ℕ} (f : ℕ → UInt8) (hn : o+len ≤ n)
    (hi : i+w ≤ len) : getLE (splice b o len f) (o+i) w = le w (fun k => f (i+k)) := by
  refine le_congr (fun k hk => ?_)
  rw [add_assoc]
  exact get_splice_in b f hn (by omega)

theorem getLE_putLE_same (b : Bytes n) {o w : ℕ} (v : ℕ) (hn : o+w ≤ n) :
    getLE (putLE b o w v) o w = v % 256^w := by
  have := getLE_splice_in b (i := 0) (w := w) (byteOf v) hn (by omega)
  simpa [putLE, le_byteOf] using this

theorem getLE_putLE_other (b : Bytes n) {o w o' w' : ℕ} (v : ℕ)
    (h : o'+w' ≤ o ∨ o+w ≤ o') : getLE (putLE b o w v) o' w' = getLE b o' w' :=
  getLE_splice_out b _ h

theorem getLE_zeros (o w : ℕ) : getLE (zeros : Bytes n) o w = 0 := by
  have h : ∀ w, le w (fun _ => 0) = 0 := by
    intro w
    induction w with
    | zero => rfl
    | succ w ih => simp [le, ih]
  rw [getLE, ← h w]
  exact le_congr (fun k _ => get_zeros (o+k))

end

end GreenOS.ByteBlock
