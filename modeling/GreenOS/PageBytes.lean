import GreenOS.ByteBlock
import GreenOS.PageTable

/-!
# The bytes of a page

A page is kept as 512 words. Byte `k` of it is byte `k%8` of word `k/8`, least
significant byte first; a `memmove` into a page writes the words that its range
meets.
-/

namespace GreenOS.PageBytes
open ByteBlock PageTable

theorem byteOf_le {w j : ℕ} (f : ℕ → UInt8) (hj : j < w) : byteOf (le w f) j = f j := by
  induction w generalizing f j with
  | zero => omega
  | succ w ih =>
    cases j with
    | zero => simp [byteOf, le, UInt8.ofNat_add, UInt8.ofNat_mul]
    | succ j =>
      have hhigh : ((f 0).toNat+256*le w (fun k => f (k+1)))/256 = le w (fun k => f (k+1)) := by
        have := (f 0).toNat_lt
        omega
      rw [byteOf_succ, le, hhigh]
      exact ih _ (by omega)

def pageByte (page : Index → Word) (k : ℕ) : UInt8 :=
  byteOf (page (BitVec.ofNat 9 (k/8))).toNat (k%8)

/-- `memmove` of the bytes `src 0 .. src (len-1)` to offset `o` of a page. -/
def spliceBytes (page : Index → Word) (o len : ℕ) (src : ℕ → UInt8) : Index → Word :=
  fun i => BitVec.ofNat 64 (le 8 fun j =>
    if o ≤ 8*i.toNat+j ∧ 8*i.toNat+j < o+len then src (8*i.toNat+j-o) else byteOf (page i).toNat j)

theorem pageByte_splice (page : Index → Word) (o len : ℕ) (src : ℕ → UInt8) {k : ℕ}
    (hk : k < 4096) :
    pageByte (spliceBytes page o len src) k =
      if o ≤ k ∧ k < o+len then src (k-o) else pageByte page k := by
  have hword : (BitVec.ofNat 9 (k/8)).toNat = k/8 := by
    rw [BitVec.toNat_ofNat]
    omega
  have hsplit : 8*(k/8)+k%8 = k := Nat.div_add_mod k 8
  have hbyte := byteOf_le (w := 8) (j := k%8) (fun j =>
    if o ≤ 8*(k/8)+j ∧ 8*(k/8)+j < o+len then src (8*(k/8)+j-o)
    else byteOf (page (BitVec.ofNat 9 (k/8))).toNat j) (by omega)
  rw [hsplit] at hbyte
  rw [pageByte, spliceBytes, hword, BitVec.toNat_ofNat,
    Nat.mod_eq_of_lt ((le_lt 8 _).trans_eq (by norm_num)), hbyte]
  rfl

theorem page_ext {f g : Index → Word} (h : ∀ k < 4096, pageByte f k = pageByte g k) : f = g := by
  funext i
  have hi := i.isLt
  have hbyte : ∀ (page : Index → Word), ∀ j < 8, pageByte page (8*i.toNat+j) = byteOf
    (page i).toNat j := by
    intro page j hj
    have hdiv : (8*i.toNat+j)/8 = i.toNat := by omega
    have hmod : (8*i.toNat+j)%8 = j := by omega
    rw [pageByte, hdiv, hmod, BitVec.ofNat_toNat, BitVec.setWidth_eq]
  have hword : ∀ w : Word, le 8 (byteOf w.toNat) = w.toNat := by
    intro w
    rw [le_byteOf, Nat.mod_eq_of_lt]
    exact w.isLt.trans_eq (by norm_num)
  apply BitVec.eq_of_toNat_eq
  rw [← hword (f i), ← hword (g i)]
  apply le_congr
  intro j hj
  rw [← hbyte f j hj, ← hbyte g j hj]
  exact h _ (by omega)

theorem pageByte_zero (k : ℕ) : pageByte (fun _ => 0#64) k = 0 := by
  simp [pageByte, byteOf]

end GreenOS.PageBytes
