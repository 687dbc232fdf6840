import Mathlib.Tactic

/-!
# The entries of a table of optional values

A fixed table has a value in some of its slots. Filling an empty slot adds its
value to the entries, and clearing a slot takes it away.
-/

namespace GreenOS.OptionTable
open Function (update update_self update_of_ne update_eq_self)

variable {n : ℕ} {α : Type*} {f : Fin n → Option α} {p : Fin n} {a : α}

def entries (f : Fin n → Option α) : List α := (List.finRange n).filterMap f

theorem mem_entries : a ∈ entries f ↔ ∃ p, f p = some a := by
  simp [entries]

theorem entries_fill (h : f p = none) (a : α) :
    (entries (update f p (some a))).Perm (a::entries f) := by
  have hperm : (List.finRange n).Perm (p::(List.finRange n).erase p) :=
    List.perm_cons_erase (List.mem_finRange p)
  have hrest : ((List.finRange n).erase p).filterMap (update f p (some a)) =
      ((List.finRange n).erase p).filterMap f := by
    apply List.filterMap_congr
    intro q hq
    have hne : q ≠ p := ((List.nodup_finRange n).mem_erase_iff.mp hq).1
    rw [update_of_ne hne]
  have hnew := hperm.filterMap (update f p (some a))
  have hold := hperm.filterMap f
  rw [List.filterMap_cons_some (update_self ..), hrest] at hnew
  rw [List.filterMap_cons_none h] at hold
  exact hnew.trans (hold.symm.cons a)

theorem entries_clear (h : f p = some a) : (entries f).Perm (a::entries (update f p none)) := by
  have hfill := entries_fill (f := update f p none) (p := p) (update_self ..) a
  rw [Function.update_idem, ← h, update_eq_self] at hfill
  exact hfill

theorem entries_split (f : Fin n → Option α) (p : Fin n) :
    (entries f).Perm ((f p).toList++entries (update f p none)) := by
  cases hp : f p with
  | none =>
    rw [show update f p none = f by rw [← hp, update_eq_self]]
    exact List.Perm.refl _
  | some a => exact entries_clear hp

theorem entries_inj (hnodup : (entries f).Nodup) {q : Fin n} (hp : f p = some a)
    (hq : f q = some a) : p = q := by
  by_contra hne
  have hclear := entries_clear hp
  have hmem : a ∈ entries (update f p none) :=
    mem_entries.mpr ⟨q,by rw [update_of_ne (Ne.symm hne), hq]⟩
  exact (List.nodup_cons.mp (hclear.nodup_iff.mp hnodup)).1 hmem

end GreenOS.OptionTable
