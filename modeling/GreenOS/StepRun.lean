import Mathlib.Tactic

/-!
# Runs of a partial step function

A machine is a partial step function on states: an event that is not enabled
has no next state. A run is a finite list of events. A side condition on a
run is checked in the state before each event, never in the state after it.
-/

namespace GreenOS.StepRun

variable {σ ε : Type*} (step : ε → σ → Option σ)

def run : List ε → σ → Option σ
  | [], s => some s
  | e::es, s => (step e s).bind (run es)

def Meets (ok : ε → σ → Prop) : List ε → σ → Prop
  | [], _ => True
  | e::es, s => ok e s ∧ ∀ s', step e s = some s' → Meets ok es s'

instance decidableMeets (ok : ε → σ → Prop) [∀ e s, Decidable (ok e s)] (es : List ε) (s : σ) :
    Decidable (Meets step ok es s) :=
  match es with
  | [] => isTrue trivial
  | e::es =>
    match h : step e s with
    | none => decidable_of_iff (ok e s) (by simp [Meets, h])
    | some s' =>
      have := decidableMeets ok es s'
      decidable_of_iff (ok e s ∧ Meets step ok es s') (by simp [Meets, h])

variable {step} in
theorem Meets.imp {ok ok' : ε → σ → Prop} (himp : ∀ e s, ok e s → ok' e s) {es : List ε} {s : σ}
    (h : Meets step ok es s) : Meets step ok' es s := by
  induction es generalizing s with
  | nil => trivial
  | cons e es ih => exact ⟨himp e s h.1,fun s' he => ih (h.2 s' he)⟩

theorem run_cons {e : ε} {es : List ε} {s t : σ} :
    run step (e::es) s = some t ↔ ∃ s', step e s = some s' ∧ run step es s' = some t := by
  simp [run, Option.bind_eq_some_iff]

theorem run_append (es fs : List ε) (s : σ) :
    run step (es++fs) s = (run step es s).bind (run step fs) := by
  induction es generalizing s with
  | nil => rfl
  | cons e es ih =>
    simp only [List.cons_append, run, Option.bind_assoc]
    congr 1
    funext s'
    exact ih s'

/-- An invariant kept by every event that meets the condition holds at the
end of every run whose events all meet it. -/
theorem run_guarded (ok : ε → σ → Prop) (I : σ → Prop)
    (hstep : ∀ e s s', I s → ok e s → step e s = some s' → I s')
    (es : List ε) (s t : σ) (hs : I s) (hok : Meets step ok es s)
    (h : run step es s = some t) : I t := by
  induction es generalizing s with
  | nil =>
    obtain rfl : s = t := by simpa [run] using h
    exact hs
  | cons e es ih =>
    obtain ⟨s',he,hr⟩ := (run_cons step).mp h
    exact ih s' (hstep e s s' hs hok.1 he) (hok.2 s' he) hr

theorem run_invariant (I : σ → Prop)
    (hstep : ∀ e s s', I s → step e s = some s' → I s')
    (es : List ε) (s t : σ) (hs : I s) (h : run step es s = some t) : I t := by
  induction es generalizing s with
  | nil =>
    obtain rfl : s = t := by simpa [run] using h
    exact hs
  | cons e es ih =>
    obtain ⟨s',he,hr⟩ := (run_cons step).mp h
    exact ih s' (hstep e s s' hs he) hr

end GreenOS.StepRun
