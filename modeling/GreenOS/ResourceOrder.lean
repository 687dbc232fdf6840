import Mathlib.Tactic

/-!
# Resources taken in one order

Agents that hold resources and want further ones. If an agent wants nothing that
does not come after everything it holds, then no chain of agents, each waiting for
the next, comes back to its beginning, and every chain leads to an agent that does
not wait.
-/

namespace GreenOS.ResourceOrder

variable {τ ρ : Type*} (wants : τ → ρ → Prop) (holds : τ → ρ → Prop)

def WaitsFor (a b : τ) : Prop := ∃ r, wants a r ∧ holds b r

variable {wants holds} {ι : Type*} [Preorder ι] {rank : ρ → ι}

theorem waits_ascend (h : ∀ a r r', holds a r → wants a r' → rank r < rank r') {a b : τ}
    (hab : Relation.TransGen (WaitsFor wants holds) a b) :
    ∃ r r', wants a r ∧ holds b r' ∧ rank r ≤ rank r' := by
  induction hab with
  | single hab =>
    obtain ⟨r,hw,hh⟩ := hab
    exact ⟨r,r,hw,hh,le_refl _⟩
  | tail _ hbc ih =>
    obtain ⟨r,r',hw,hh,hle⟩ := ih
    obtain ⟨r'',hw',hh'⟩ := hbc
    exact ⟨r,r'',hw,hh',hle.trans (h _ r' r'' hh hw').le⟩

theorem no_cycle (h : ∀ a r r', holds a r → wants a r' → rank r < rank r') (a : τ) :
    ¬ Relation.TransGen (WaitsFor wants holds) a a := by
  intro hcycle
  obtain ⟨r,r',hw,hh,hle⟩ := waits_ascend h hcycle
  exact absurd (h a r' r hh hw) (not_lt_of_ge hle)

end GreenOS.ResourceOrder
