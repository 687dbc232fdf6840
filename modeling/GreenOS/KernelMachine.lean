import GreenOS.KernelCode
import GreenOS.StepRun

/-!
# CPUs, locks and processes

Any number of CPUs run the scheduler, processes and interrupt handlers, one
command at a time in any order. A spin lock belongs to a CPU, which counts the
locks it holds in `noff`; a process takes its own lock into the scheduler and
finds it held when it is resumed. An interrupt is taken when the CPU holds no
lock, by the process that runs or at the top of the scheduler loop.
-/

namespace GreenOS.KernelMachine
open Programs ProcTable ProcLifecycle KernelCode

variable {κ : Type}

inductive Thread (κ : Type) where
  | hart (c : κ)
  | proc (p : Slot)
  deriving DecidableEq

/-- `current` is `c->proc`, and `turn` the process whose code the CPU executes, if
it is not the scheduler's. `trail` records the locks that the scheduler took
(`true`) and released (`false`) in the round, the last one first. -/
structure Sys (κ : Type) where
  table : Table
  nextpid : ℤ
  owner : Lock → Option κ
  noff : κ → ℕ
  current : κ → Option Slot
  turn : κ → Option Slot
  code : Thread κ → P Jump
  trail : κ → List (Lock × Bool)
  halted : Option String

def active (s : Sys κ) (c : κ) : Thread κ :=
  match s.turn c with
  | none => .hart c
  | some p => .proc p

variable [DecidableEq κ]

def setCode (s : Sys κ) (t : Thread κ) (p : P Jump) : Sys κ :=
  { s with code := Function.update s.code t p }

def record (s : Sys κ) (c : κ) (l : Lock) (taken : Bool) : κ → List (Lock × Bool) :=
  if s.turn c = none then Function.update s.trail c ((l,taken)::s.trail c) else s.trail

def acquireStep (s : Sys κ) (c : κ) (l : Lock) : Outcome (Unit × Sys κ) :=
  match s.owner l with
  | some d => if d = c then .panic "acquire" else .wait
  | none => .ok ((),
      { s with
        owner := Function.update s.owner l (some c)
        noff := Function.update s.noff c (s.noff c+1)
        trail := record s c l true })

def releaseStep (s : Sys κ) (c : κ) (l : Lock) : Outcome (Unit × Sys κ) :=
  if s.owner l = some c then
    .ok ((),
      { s with
        owner := Function.update s.owner l none
        noff := Function.update s.noff c (s.noff c-1)
        trail := record s c l false })
  else .panic "release"

def schedStep (s : Sys κ) (c : κ) (p : Slot) : Outcome (Unit × Sys κ) :=
  if s.owner (.proc p) ≠ some c then .panic "sched p->lock"
  else if s.noff c ≠ 1 then .panic "sched locks"
  else if (s.table p).state = .running then .panic "sched RUNNING"
  else .ok ((),{ s with turn := Function.update s.turn c none })

def handle (c : κ) (a : Answer) : (x : Cmd) → Sys κ → Outcome (Res x × Sys κ)
  | .acquire l, s => acquireStep s c l
  | .release l, s => releaseStep s c l
  | .read i, s => .ok (s.table i,s)
  | .update i u, s => .ok ((),{ s with table := setProc s.table i (u.apply (s.table i)) })
  | .takePid, s => .ok (s.nextpid,{ s with nextpid := int32 (s.nextpid+1) })
  | .choose, s => .ok (a,s)
  | .context i, s => .ok ((),setCode s (.proc i) (forkret i))
  | .sched p, s => schedStep s c p
  | .dispatch b, s => .ok ((),
      { s with
        table := setProc s.table b { s.table b with state := .running }
        current := Function.update s.current c (some b) })
  | .swtch b, s => .ok ((),{ s with turn := Function.update s.turn c (some b) })
  | .collect, s => .ok ((),{ s with current := Function.update s.current c none })
  | .note _, s => .ok ((),s)
  | .panic msg, _ => .panic msg

def advance (s : Sys κ) (c : κ) (a : Answer) (t : Thread κ) : Option (Sys κ) :=
  match s.code t with
  | .step x k =>
    match handle c a x s with
    | .ok (r,s') => some (setCode s' t (k r))
    | .panic msg => some { s with halted := some msg }
    | .wait => none
  | .pure (.waitLoop addr closing) =>
    match t with
    | .proc p => some (setCode s t (waitLoop p addr closing))
    | .hart _ => none
  | .pure .out => none

def Act.fits (lk : ℕ → ℕ) (n : ℕ) : Act → Prop
  | .sleep chan => lockOf lk (some chan) = .cond n
  | .wakeup chan => lockOf lk (some chan) = .cond n
  | .killed => True

def Section.Fits (lk : ℕ → ℕ) (sec : Section) : Prop := ∀ act ∈ sec.acts, Act.fits lk sec.lock act

def Call.Fits (lk : ℕ → ℕ) : Call → Prop
  | .other secs => ∀ sec ∈ secs, Section.Fits lk sec
  | _ => True

instance (lk : ℕ → ℕ) (n : ℕ) (act : Act) : Decidable (Act.fits lk n act) := by
  cases act <;> unfold Act.fits <;> infer_instance

instance (lk : ℕ → ℕ) (sec : Section) : Decidable (Section.Fits lk sec) :=
  inferInstanceAs (Decidable (∀ act ∈ sec.acts, _))

instance (lk : ℕ → ℕ) (call : Call) : Decidable (Call.Fits lk call) := by
  cases call <;> unfold Call.Fits <;> infer_instance

inductive Event (κ : Type) where
  | round (c : κ)
  | call (c : κ) (closing : List Section) (call : Call)
  | interrupt (c : κ) (closing : List Section) (src : Source)
  | run (c : κ) (a : Answer)

def beginRound (s : Sys κ) (c : κ) : Option (Sys κ) :=
  match s.turn c, s.code (.hart c) with
  | none, .pure .out =>
    some { setCode s (.hart c) scheduler with trail := Function.update s.trail c [] }
  | _, _ => none

def enter (lk : ℕ → ℕ) (s : Sys κ) (c : κ) (closing : List Section) (call : Call) :
    Option (Sys κ) :=
  match s.turn c with
  | none => none
  | some p =>
    match s.code (.proc p) with
    | .pure .out =>
      if (∀ sec ∈ closing, Section.Fits lk sec) ∧ Call.Fits lk call then
        some (setCode s (.proc p) (usertrap p closing call))
      else none
    | _ => none

def trap (lk : ℕ → ℕ) (first : κ) (s : Sys κ) (c : κ) (closing : List Section) (src : Source) :
    Option (Sys κ) :=
  if s.noff c = 0 ∧ ∀ sec ∈ closing, Section.Fits lk sec then
    match s.turn c with
    | some p =>
      match s.code (.proc p) with
      | .pure .out => some (setCode s (.proc p) (usertrapIntr lk (c = first) p closing src))
      | code =>
        some (setCode s (.proc p) (kerneltrap lk (c = first) (some p) src >>= fun _ => code))
    | none =>
      match s.code (.hart c) with
      | .pure .out => some (setCode s (.hart c)
          (kerneltrap lk (c = first) none src >>= fun _ => pure .out))
      | _ => none
  else none

def step (lk : ℕ → ℕ) (first : κ) (e : Event κ) (s : Sys κ) : Option (Sys κ) :=
  if s.halted = none then
    match e with
    | .round c => beginRound s c
    | .call c closing call => enter lk s c closing call
    | .interrupt c closing src => trap lk first s c closing src
    | .run c a => advance s c a (active s c)
  else none

def initEntry : Proc := { zeroProc with state := .runnable, pid := 1 }

def start : Sys κ where
  table := fun i => if i = initproc then initEntry else zeroProc
  nextpid := 2
  owner := fun _ => none
  noff := fun _ => 0
  current := fun _ => none
  turn := fun _ => none
  code := fun t => if t = .proc initproc then forkret initproc else .pure .out
  trail := fun _ => []
  halted := none

end GreenOS.KernelMachine
