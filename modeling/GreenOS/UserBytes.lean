import GreenOS.ByteBlock
import GreenOS.ProcTable

/-!
# Copying out to user memory

The memory of the calling process as `copyout` meets it: which pages it finds
writable, a page that `vmfault` maps on demand included, and the byte at each
virtual address. The copy proceeds page by page and stops at the first page it
may not write.
-/

namespace GreenOS.UserBytes
open ByteBlock ProcTable

def pgsize : ℕ := 4096
def maxva : ℕ := 274877906944

structure User where
  writable : ℕ → Bool
  byte : ℕ → UInt8

def store (m : ℕ → UInt8) (a len : ℕ) (f : ℕ → UInt8) : ℕ → UInt8 :=
  fun x => if a ≤ x ∧ x < a+len then f (x-a) else m x

def copyoutLoop : ℕ → ℕ → ℕ → (ℕ → UInt8) → User → ℤ × User
  | 0, _, _, _, u => (0,u)
  | n+1, dstva, len, src, u =>
    if 0 < len then
      let va0 := dstva/pgsize*pgsize
      if maxva ≤ va0 then (-1,u)
      else if u.writable (va0/pgsize) then
        let k := min (pgsize-(dstva-va0)) len
        copyoutLoop n (va0+pgsize) (len-k) (fun i => src (k+i))
          { u with byte := store u.byte dstva k src }
      else (-1,u)
    else (0,u)

def copyout (dstva len : ℕ) (src : ℕ → UInt8) (u : User) : ℤ × User :=
  copyoutLoop (len/pgsize+2) dstva len src u

def Writable (u : User) (a len : ℕ) : Prop :=
  ∀ x, a ≤ x → x < a+len → x < maxva ∧ u.writable (x/pgsize) = true

theorem store_append (m : ℕ → UInt8) (a k len : ℕ) (f : ℕ → UInt8) (h : k ≤ len) :
    store (store m a k f) (a+k) (len-k) (fun i => f (k+i)) = store m a len f := by
  funext x
  unfold store
  by_cases h₁ : a+k ≤ x
  · by_cases h₂ : x < a+len
    · rw [if_pos (by omega), if_pos (by omega)]
      exact congrArg f (by omega)
    · rw [if_neg (by omega), if_neg (by omega), if_neg (by omega)]
  · rw [if_neg (by omega)]
    by_cases h₂ : a ≤ x
    · rw [if_pos (by omega), if_pos (by omega)]
    · rw [if_neg (by omega), if_neg (by omega)]

theorem store_zero (m : ℕ → UInt8) (a : ℕ) (f : ℕ → UInt8) : store m a 0 f = m := by
  funext x
  unfold store
  rw [if_neg (by omega)]

theorem writable_split (u : User) {a len k : ℕ} (hk : k = min (pgsize-a%pgsize) len)
    (hlen : 0 < len) : Writable u a len ↔
      (a/pgsize*pgsize < maxva ∧ u.writable (a/pgsize) = true) ∧
      Writable u (a/pgsize*pgsize+pgsize) (len-k) := by
  unfold Writable pgsize maxva at *
  constructor
  · intro h
    refine ⟨⟨?_,(h a le_rfl (by omega)).2⟩,?_⟩
    · have := (h a le_rfl (by omega)).1
      omega
    · intro x hx hx'
      exact h x (by omega) (by omega)
  · rintro ⟨⟨h₁,h₂⟩,h₃⟩ x hx hx'
    by_cases hin : x < a/4096*4096+4096
    · refine ⟨by omega,?_⟩
      rwa [show x/4096 = a/4096 by omega]
    · exact h₃ x (by omega) (by omega)

theorem copyoutLoop_spec (n dstva len : ℕ) (src : ℕ → UInt8) (u : User)
    (hn : dstva%4096+len ≤ n*4096) :
    (Writable u dstva len ∧
      copyoutLoop n dstva len src u = (0,{ u with byte := store u.byte dstva len src })) ∨
    (¬Writable u dstva len ∧ (copyoutLoop n dstva len src u).1 = -1) := by
  induction n generalizing dstva len src u with
  | zero =>
    obtain rfl : len = 0 := by omega
    refine .inl ⟨fun x _ _ => by omega,?_⟩
    rw [copyoutLoop, store_zero]
  | succ n ih =>
    by_cases hlen : 0 < len
    · have hoff : dstva-dstva/4096*4096 = dstva%4096 := by omega
      have hpage : dstva/4096*4096/4096 = dstva/4096 := by omega
      have hsplit := writable_split u (a := dstva) rfl hlen
      simp only [copyoutLoop, pgsize, hlen, if_true, hoff, hpage] at hsplit ⊢
      by_cases hmax : maxva ≤ dstva/4096*4096
      · exact .inr ⟨fun h => absurd (hsplit.mp h).1.1 (by omega),by simp [hmax]⟩
      by_cases hw : u.writable (dstva/4096) = true
      · rw [if_neg hmax, if_pos hw]
        have hrest := ih (dstva/4096*4096+4096) (len-min (4096-dstva%4096) len)
          (fun i => src (min (4096-dstva%4096) len+i))
          { u with byte := store u.byte dstva (min (4096-dstva%4096) len) src } (by omega)
        have hsame : ∀ a len b, Writable { u with byte := b } a len ↔ Writable u a len :=
          fun _ _ _ => Iff.rfl
        rw [hsame] at hrest
        rcases hrest with ⟨h₁,h₂⟩ | ⟨h₁,h₂⟩
        · refine .inl ⟨hsplit.mpr ⟨⟨by omega,hw⟩,h₁⟩,?_⟩
          rw [h₂]
          -- The next page starts where this one ends, unless nothing is left.
          rcases Nat.lt_or_ge (4096-dstva%4096) len with hlt | hge
          · rw [min_eq_left hlt.le, show dstva/4096*4096+4096 =
              dstva+(4096-dstva%4096) by omega, store_append _ _ _ _ _ hlt.le]
          · rw [min_eq_right hge, Nat.sub_self, store_zero]
        · exact .inr ⟨fun h => h₁ (hsplit.mp h).2,h₂⟩
      · rw [if_neg hmax, if_neg hw]
        exact .inr ⟨fun h => hw (hsplit.mp h).1.2,rfl⟩
    · obtain rfl : len = 0 := by omega
      refine .inl ⟨fun x _ _ => by omega,?_⟩
      simp [copyoutLoop, store_zero]

theorem copyout_spec (dstva len : ℕ) (src : ℕ → UInt8) (u : User) :
    (Writable u dstva len ∧
      copyout dstva len src u = (0,{ u with byte := store u.byte dstva len src })) ∨
    (¬Writable u dstva len ∧ (copyout dstva len src u).1 = -1) := by
  refine copyoutLoop_spec _ dstva len src u ?_
  unfold pgsize
  omega

def intBytes (data : List ℤ) (j : ℕ) : UInt8 :=
  byteOf ((data.getD (j/4) 0)%4294967296).toNat (j%4)

def readInt (u : User) (a : ℕ) : ℤ := int32 (le 4 fun k => u.byte (a+k))

end GreenOS.UserBytes
