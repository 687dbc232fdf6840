import Mathlib.Tactic

/-!
# Sequences of writes

A store is a function from addresses to values, and a list of writes changes
it in order. An address keeps its value when no write goes to it, and holds
the written value when exactly one does.
-/

namespace GreenOS.Writes

variable {ι β : Type*} [DecidableEq ι]

def apply (d : ι → β) : List (ι × β) → ι → β
  | [] => d
  | w::ws => apply (Function.update d w.1 w.2) ws

@[simp] theorem apply_nil (d : ι → β) : apply d [] = d := rfl

theorem apply_cons (d : ι → β) (w : ι × β) (ws : List (ι × β)) :
    apply d (w::ws) = apply (Function.update d w.1 w.2) ws := rfl

theorem apply_append (d : ι → β) (ws vs : List (ι × β)) :
    apply d (ws++vs) = apply (apply d ws) vs := by
  induction ws generalizing d with
  | nil => rfl
  | cons w ws ih => exact ih _

theorem apply_other (d : ι → β) (ws : List (ι × β)) (x : ι) (h : ∀ w ∈ ws, w.1 ≠ x) :
    apply d ws x = d x := by
  induction ws generalizing d with
  | nil => rfl
  | cons w ws ih =>
    rw [apply_cons, ih _ (fun v hv => h v (List.mem_cons_of_mem w hv))]
    exact Function.update_of_ne (Ne.symm (h w List.mem_cons_self)) _ _

theorem apply_mem (d : ι → β) (ws : List (ι × β)) (x : ι) (v : β) (h : ∃ w ∈ ws, w.1 = x)
    (hv : ∀ w ∈ ws, w.1 = x → w.2 = v) : apply d ws x = v := by
  induction ws generalizing d with
  | nil => simp at h
  | cons w ws ih =>
    rw [apply_cons]
    by_cases hrest : ∃ u ∈ ws, u.1 = x
    · exact ih _ hrest (fun u hu => hv u (List.mem_cons_of_mem w hu))
    · rw [apply_other _ ws x (fun u hu hux => hrest ⟨u,hu,hux⟩)]
      have hwx : w.1 = x := by
        obtain ⟨u,hu,hux⟩ := h
        rcases List.mem_cons.mp hu with rfl | hu
        · exact hux
        · exact absurd ⟨u,hu,hux⟩ hrest
      rw [← hwx, Function.update_self]
      exact hv w List.mem_cons_self hwx

theorem apply_target (d g : ι → β) (ws : List (ι × β)) (h : ∀ w ∈ ws, w.2 = g w.1) (x : ι) :
    apply d ws x = if ∃ w ∈ ws, w.1 = x then g x else d x := by
  split_ifs with hx
  · exact apply_mem d ws x (g x) hx (fun w hw hwx => hwx ▸ h w hw)
  · exact apply_other d ws x (fun w hw hwx => hx ⟨w,hw,hwx⟩)

end GreenOS.Writes
