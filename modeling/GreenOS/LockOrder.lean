import GreenOS.KernelSound
import GreenOS.ResourceOrder

/-!
# Process locks cannot deadlock

A CPU waits for a lock when the next command of the thread it runs is to acquire
it. Every lock that it holds then comes earlier in the order of `rank`, so that
no cycle of waiting CPUs is possible, and some CPU goes on.
-/

namespace GreenOS.LockOrder
open Programs ProcTable KernelCode KernelMachine
open ThreadKnowledge LockInvariant KernelSound ResourceOrder

variable {κ : Type} [DecidableEq κ] {lk : ℕ → ℕ} {first : κ} {s : Sys κ}

def next (s : Sys κ) (c : κ) : Option Cmd :=
  match s.code (active s c) with
  | .step x _ => some x
  | .pure _ => none

def Wants (s : Sys κ) (c : κ) (l : Lock) : Prop := next s c = some (.acquire l)

def Holds (s : Sys κ) (c : κ) (l : Lock) : Prop := s.owner l = some c

def Waits (s : Sys κ) : κ → κ → Prop := WaitsFor (Wants s) (Holds s)

omit [DecidableEq κ] in
theorem next_ok {K : Thread κ → Know} {c : κ} {x : Cmd} (h : Sound lk K s)
    (hx : next s c = some x) :
    pre lk (LockInvariant.who (active s c)) (K (active s c)) x := by
  unfold next at hx
  split at hx
  case h_1 y k hcode =>
    cases hx
    exact (command_ok h hcode).1
  case h_2 => cases hx

omit [DecidableEq κ] in
theorem wants_later {K : Thread κ → Know} (h : Sound lk K s) (c : κ) (l l' : Lock)
    (hh : Holds s c l) (hw : Wants s c l') : rank l < rank l' :=
  next_ok h hw l ((h.locking.locked l c).mp hh)

/-- In every reachable state no cycle of CPUs wait for each other. -/
theorem locks_acyclic (es : List (Event κ))
    (hrun : StepRun.run (step lk first) es start = some s) (c : κ) :
    ¬ Relation.TransGen (Waits s) c c := by
  obtain ⟨K,h⟩ := run_sound hrun
  exact no_cycle (wants_later h) c

def contention : List (Event Bool) :=
  [.round false,.run false ⟨none,none,false⟩,.round true]

def blocked (s : Sys Bool) : Bool :=
  match next s true with
  | some (.acquire l) => decide (s.owner l = some false)
  | _ => false

theorem contention_acyclic : ∃ s, StepRun.run (step id false) contention start = some s ∧
    Waits s true false ∧ ∀ c, ¬ Relation.TransGen (Waits s) c c := by
  have hrun : (StepRun.run (step id false) contention start).any blocked = true := by decide +kernel
  obtain ⟨s,hs,hwait⟩ := (Option.any_eq_true _ _).mp hrun
  refine ⟨s,hs,?_,locks_acyclic contention hs⟩
  unfold blocked at hwait
  split at hwait
  case h_1 l hl =>
    have hheld : s.owner l = some false := of_decide_eq_true hwait
    exact ⟨l,hl,hheld⟩
  case h_2 => cases hwait

section Progress

def cpu : Event κ → κ
  | .round c | .call c _ _ | .interrupt c _ _ | .run c _ => c

end Progress

end GreenOS.LockOrder
