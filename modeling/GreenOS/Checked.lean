import GreenOS.Programs

/-!
# Programs checked against what their thread knows

A thread that runs a program keeps an abstract account of what it knows. `pre`
says which commands the account permits, and `post` how an answer changes it. A
program is checked when every command that it can reach is permitted, whatever
the answers are.
-/

namespace GreenOS.Checked
open Programs

universe u

variable {C : Type u} {R : C → Type} {A : Type} {α β : Type}
variable (pre : A → C → Prop) (post : A → (c : C) → R c → A)

def Checks : A → Prog C R α → (α → A → Prop) → Prop
  | a, .pure x, Q => Q x a
  | a, .step c k, Q => pre a c ∧ ∀ r, Checks (post a c r) (k r) Q

variable {pre post}

variable {a : A} {Q : α → A → Prop} {p : Prog C R α} {f : α → Prog C R β}

theorem checks_pure {x : α} (h : Q x a) :
    Checks pre post a (pure x : Prog C R α) Q := h

theorem checks_perform {c : C} {Q : R c → A → Prop} (hp : pre a c)
    (hq : ∀ r, Q r (post a c r)) : Checks pre post a (perform c) Q := ⟨hp,hq⟩

theorem checks_bind {Q : β → A → Prop}
    (h : Checks pre post a p (fun x a' => Checks pre post a' (f x) Q)) :
    Checks pre post a (p >>= f) Q := by
  change Checks pre post a (p.bind f) Q
  induction p generalizing a with
  | pure x => exact h
  | step c k ih => exact ⟨h.1,fun r => ih r (h.2 r)⟩

theorem checks_mono {Q' : α → A → Prop} (h : Checks pre post a p Q)
    (hq : ∀ x a', Q x a' → Q' x a') : Checks pre post a p Q' := by
  induction p generalizing a with
  | pure x => exact hq x a h
  | step c k ih => exact ⟨h.1,fun r => ih r (h.2 r)⟩

theorem checks_then {Q' : β → A → Prop} (hp : Checks pre post a p Q)
    (hf : ∀ x a', Q x a' → Checks pre post a' (f x) Q') : Checks pre post a (p >>= f) Q' :=
  checks_bind (checks_mono hp hf)

end GreenOS.Checked
