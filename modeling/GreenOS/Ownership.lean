import Mathlib.Tactic

/-!
# Exclusive ownership of resources

Places hold references to resources, and an owner is recorded for every
resource. When the record tracks the references, no resource is referenced
twice.
-/

namespace GreenOS.Ownership
open Function (update update_self update_of_ne)

/-- Who has a resource: it is free, set aside for good, in the hands of a running
operation, lost to every place, or referenced from a place. -/
inductive Owner (ι : Type*) where
  | free
  | reserved
  | held
  | lost
  | place (i : ι)

section
variable {ι ρ : Type*} {live : ι → Prop} {null : ρ} {target target' : ι → ρ} {own : ρ → Owner ι}

structure Tracks (live : ι → Prop) (null : ρ) (target : ι → ρ) (own : ρ → Owner ι) : Prop where
  owned : ∀ i, live i → target i ≠ null → own (target i) = .place i
  named : ∀ r i, own r = .place i → live i ∧ target i = r ∧ r ≠ null

def Unplaced (o : Owner ι) : Prop := ∀ i, o ≠ .place i

theorem tracks_injective (h : Tracks live null target own) {i j : ι} (hi : live i) (hj : live j)
    (hn : target i ≠ null) (heq : target i = target j) : i = j := by
  have h₁ := h.owned i hi hn
  have h₂ := h.owned j hj (heq ▸ hn)
  rw [heq, h₂] at h₁
  exact (Owner.place.inj h₁).symm

theorem tracks_congr (h : Tracks live null target own) (heq : ∀ i, live i → target' i = target i) :
    Tracks live null target' own := by
  constructor
  · intro i hi hn
    rw [heq i hi] at hn ⊢
    exact h.owned i hi hn
  · intro r i hr
    have hn := h.named r i hr
    exact ⟨hn.1,(heq i hn.1).trans hn.2.1,hn.2.2⟩

variable [DecidableEq ρ]

theorem tracks_relabel (h : Tracks live null target own) {r : ρ} {o : Owner ι}
    (hr : Unplaced (own r)) (ho : Unplaced o) :
    Tracks live null target (update own r o) := by
  constructor
  · intro i hi hn
    have hi' := h.owned i hi hn
    have hne : target i ≠ r := fun heq => hr i (heq ▸ hi')
    rw [update_of_ne hne, hi']
  · intro r' i hr'
    by_cases heq : r' = r
    · rw [heq, update_self] at hr'
      exact absurd hr' (ho i)
    · rw [update_of_ne heq] at hr'
      exact h.named r' i hr'

theorem tracks_assign (h : Tracks live null target own) {r : ρ} {i : ι} (hi : live i)
    (hr : Unplaced (own r)) (hnull : r ≠ null) (hempty : target i = null) (hset : target' i = r)
    (hother : ∀ j, live j → j ≠ i → target' j = target j) :
    Tracks live null target' (update own r (.place i)) := by
  constructor
  · intro j hj hn
    by_cases hji : j = i
    · rw [hji, hset, update_self]
    · rw [hother j hj hji] at hn ⊢
      have hj' := h.owned j hj hn
      have hne : target j ≠ r := fun heq => hr j (heq ▸ hj')
      rw [update_of_ne hne, hj']
  · intro r' j hr'
    by_cases heq : r' = r
    · rw [heq, update_self] at hr'
      have hji := Owner.place.inj hr'
      rw [← hji, heq]
      exact ⟨hi,hset,hnull⟩
    · rw [update_of_ne heq] at hr'
      have hn := h.named r' j hr'
      have hji : j ≠ i := fun hji => hn.2.2 (by rw [← hn.2.1, hji, hempty])
      exact ⟨hn.1,(hother j hn.1 hji).trans hn.2.1,hn.2.2⟩

end

end GreenOS.Ownership
