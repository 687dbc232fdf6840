import Mathlib.Data.Set.Insert
import Mathlib.Logic.Function.Basic

/-!
# A finite map kept in slots

Numbered slots each hold a key with a value, or nothing. When no key is in two
slots they are a map: filling an empty slot adds a pair to it, and emptying a
slot removes the pair of that key and no other.
-/

namespace GreenOS.SlotMap
open Function (update update_self update_of_ne)

variable {K V : Type} {f : ℕ → Option (K × V)} {e : ℕ} {x : K × V}

def entries (f : ℕ → Option (K × V)) : Set (K × V) := {x | ∃ m, f m = some x}

def Distinct (f : ℕ → Option (K × V)) : Prop :=
  ∀ m m' x x', f m = some x → f m' = some x' → x.1 = x'.1 → m = m'

theorem update_cases {y : K × V} {o : Option (K × V)} {m : ℕ} (h : update f e o m = some y) :
    (m = e ∧ o = some y) ∨ (m ≠ e ∧ f m = some y) := by
  by_cases hm : m = e
  · subst hm
    rw [update_self] at h
    exact .inl ⟨rfl,h⟩
  · rw [update_of_ne hm] at h
    exact .inr ⟨hm,h⟩

theorem entries_set (hempty : f e = none) : entries (update f e (some x)) = insert x
    (entries f) := by
  ext y
  constructor
  · rintro ⟨m,hm⟩
    rcases update_cases hm with ⟨-,heq⟩ | ⟨-,hold⟩
    · exact .inl (Option.some.inj heq).symm
    · exact .inr ⟨m,hold⟩
  · rintro (rfl | ⟨m,hm⟩)
    · exact ⟨e,update_self ..⟩
    · have hne : m ≠ e := by
        rintro rfl
        rw [hempty] at hm
        cases hm
      exact ⟨m,(update_of_ne hne ..).trans hm⟩

theorem entries_clear (h : Distinct f) (he : f e = some x) :
    entries (update f e none) = {y ∈ entries f | y.1 ≠ x.1} := by
  ext y
  constructor
  · rintro ⟨m,hm⟩
    rcases update_cases hm with ⟨-,hnone⟩ | ⟨hne,hold⟩
    · cases hnone
    · exact ⟨⟨m,hold⟩,fun hkey => hne (h m e y x hold he hkey)⟩
  · rintro ⟨⟨m,hm⟩,hkey⟩
    have hne : m ≠ e := by
      rintro rfl
      exact hkey (congrArg Prod.fst (Option.some.inj (hm.symm.trans he)))
    exact ⟨m,(update_of_ne hne ..).trans hm⟩

theorem distinct_set (h : Distinct f) (hnew : ∀ v, (x.1,v) ∉ entries f) :
    Distinct (update f e (some x)) := by
  have hkey : ∀ {m y}, f m = some y → y.1 ≠ x.1 := by
    intro m y hm heq
    exact hnew y.2 (heq ▸ ⟨m,hm⟩)
  intro m m' y y' hm hm' heq
  rcases update_cases hm with ⟨rfl,hy⟩ | ⟨-,hold⟩
  · obtain rfl := Option.some.inj hy
    rcases update_cases hm' with ⟨rfl,-⟩ | ⟨-,hold'⟩
    · rfl
    · exact absurd heq.symm (hkey hold')
  · rcases update_cases hm' with ⟨rfl,hy'⟩ | ⟨-,hold'⟩
    · obtain rfl := Option.some.inj hy'
      exact absurd heq (hkey hold)
    · exact h m m' y y' hold hold' heq

theorem distinct_clear (h : Distinct f) : Distinct (update f e none) := by
  intro m m' y y' hm hm' heq
  rcases update_cases hm with ⟨-,hy⟩ | ⟨-,hold⟩
  · cases hy
  · rcases update_cases hm' with ⟨-,hy'⟩ | ⟨-,hold'⟩
    · cases hy'
    · exact h m m' y y' hold hold' heq

end GreenOS.SlotMap
