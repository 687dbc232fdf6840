import GreenOS.Checked
import GreenOS.KernelMachine

/-!
# What a thread knows

The account that the code of a thread is checked against: the locks it holds,
the state and channel of the entries it has read under their locks, and how far
it is in switching, forking, sleeping and waking. `pre` is the discipline of
`proc.c`: locks are taken in one order, the state of an entry is written under
its lock and only in the ways listed, and `sched` is called with one lock held.
-/

namespace GreenOS.ThreadKnowledge
open Checked ProcTable KernelCode

/-- Condition locks come before `wait_lock`, which comes before every `p->lock`,
and these are taken in table order. -/
def rank : Lock → ℕ
  | .cond _ => 0
  | .wait => 1
  | .proc p => p.val+2
  | .pid => nproc+2
  | .idle => nproc+2

abbrev Face := ProcState × Option Chan

def face (x : Proc) : Face := (x.state,x.chan)

def faceAfter : Update → Face → Face
  | .yield, a => (.runnable,a.2)
  | .sleepOn chan, _ => (.sleeping,some chan)
  | .tidy, a => (a.1,none)
  | .zombie _, a => (.zombie,a.2)
  | .wake _, a => (.runnable,a.2)
  | .rouse, a => (.runnable,a.2)
  | .alloc _, a => (.used,a.2)
  | .free, _ => (.unused,none)
  | .publish, a => (.runnable,a.2)
  | _, a => a

def mild : Update → Bool
  | .yield | .sleepOn _ | .tidy | .zombie _ | .wake _ | .rouse | .alloc _ | .free | .publish =>
    false
  | _ => true

theorem face_apply (u : Update) (x : Proc) : face (u.apply x) = faceAfter u (face x) := by
  cases u with
  | prioritise => simp [Update.apply, face, faceAfter, EnergyScore.priority_updated]
  | score => simp [Update.apply, face, faceAfter, EnergyScore.score_updated]
  | charge =>
    simp only [Update.apply, face, faceAfter, EnergyScore.clockintr]
    split_ifs <;> rfl
  | budget n =>
    simp only [Update.apply, face, faceAfter, EnergyScore.sysSetEnergyBudget]
    split_ifs <;> rfl
  | _ => rfl

theorem mild_face {u : Update} (hu : mild u = true) (a : Face) : faceAfter u a = a := by
  cases u <;> first | rfl | cases hu

/-- Where a thread stands. The scheduler has no process, has dispatched one, or
has got one back; a process runs, has left its state RUNNING (for good, if
the flag is set), or will never run again. -/
inductive Role where
  | hart
  | chosen (b : Slot)
  | back (b : Slot)
  | running
  | left (zombie : Bool)
  | dead
  deriving DecidableEq

/-- `child` is an entry that `allocproc` made USED, and whether its context is
set; `intent` the channel of a call of `sleep` up to the change of state, and
`waking` a call of `wakeup` with the entries it is done with. -/
structure Know where
  held : List Lock
  role : Role
  sees : List (Slot × Face)
  child : Option (Slot × Bool)
  intent : Option Chan
  waking : Option (Option Chan × List Slot)
  trail : List (Lock × Bool)

def calm (child : Option (Slot × Bool)) : Know := ⟨[],.running,[],child,none,none,[]⟩

def resumed (p : Slot) (dead : Bool) (child : Option (Slot × Bool)) : Know :=
  ⟨[.proc p],if dead then .dead else .running,[],child,none,none,[]⟩

def gotBack (b : Slot) (trail : List (Lock × Bool)) : Know :=
  ⟨[.proc b],.back b,[],none,none,none,trail⟩

variable (lk : ℕ → ℕ) (me : Option Slot)

def Keeps (a : Know) (l : Lock) : Prop :=
  (∃ p z, me = some p ∧ a.role = .left z ∧ l = .proc p) ∨
    (∃ b, a.role = .chosen b ∧ l = .proc b) ∨ (∃ b, a.role = .back b ∧ l = .proc b) ∨
    (∃ chan p, me = some p ∧ a.intent = some chan ∧
      (l = .proc p ∨ l = lockOf lk (some chan) ∧ Lock.proc p ∉ a.held)) ∨
    ∃ chan done, a.waking = some (chan,done) ∧ l = lockOf lk chan

def Released (trail : List (Lock × Bool)) (best : Option Slot) : Prop :=
  ∀ l, (l,true) ∈ trail → trail.count (l,true) = 1 ∧
    trail.count (l,false) = if best.map Lock.proc = some l then 0 else 1

def Settled (a : Know) : Prop := a.role = .running ∨ a.role = .hart

def updateOk (a : Know) (i : Slot) : Update → Prop
  | .yield => me = some i ∧ a.role = .running ∧ Lock.proc i ∈ a.held ∧ a.intent = none
  | .sleepOn chan => me = some i ∧ a.role = .running ∧ Lock.proc i ∈ a.held ∧ a.intent = some chan
  | .tidy => me = some i ∧ a.role = .running ∧ Lock.proc i ∈ a.held
  | .zombie _ => me = some i ∧ a.role = .running ∧ Lock.proc i ∈ a.held ∧ a.intent = none
  | .wake chan => Settled a ∧ (i,.sleeping,chan) ∈ a.sees
  | .rouse => Settled a ∧ ∃ chan, (i,.sleeping,chan) ∈ a.sees
  | .alloc _ => Settled a ∧ (∃ chan, (i,.unused,chan) ∈ a.sees) ∧ a.child = none ∧ me ≠ none
  | .free => Settled a ∧ Lock.proc i ∈ a.held ∧
      ((∃ chan, (i,.zombie,chan) ∈ a.sees) ∨ ∃ b, a.child = some (i,b))
  | .publish => Settled a ∧ Lock.proc i ∈ a.held ∧ a.child = some (i,true)
  | _ => True

def noteOk (a : Know) : Note → Prop
  | .wakeupCalled chan => lockOf lk chan ∈ a.held ∧ a.waking = none ∧ a.intent = none
  | .wakeupReturned chan => Settled a ∧
      ∃ done, a.waking = some (chan,done) ∧ ∀ i, i ∈ done ∨ me = some i
  | .sleepCalled chan => lockOf lk (some chan) ∈ a.held ∧ a.waking = none ∧ a.intent = none ∧
      a.role = .running
  | .scanned best => a.held = (best.map Lock.proc).toList ∧ Released a.trail best ∧
      a.role = .hart ∧ ∀ b, best = some b → ∃ chan, (b,.runnable,chan) ∈ a.sees

def pre (a : Know) : Cmd → Prop
  | .acquire l => ∀ l' ∈ a.held, rank l' < rank l
  | .release l => l ∈ a.held ∧ ¬ Keeps lk me a l
  | .read _ => True
  | .update i u => updateOk me a i u
  | .takePid => Lock.pid ∈ a.held
  | .choose => True
  | .context i => a.child = some (i,false)
  | .sched p => me = some p ∧ a.held = [.proc p] ∧ a.intent = none ∧ a.waking = none ∧
      ∃ z, a.role = .left z ∧ (z = true → a.child = none)
  | .dispatch b => a.role = .hart ∧ a.held = [.proc b] ∧ (∃ chan, (b,.runnable,chan) ∈ a.sees) ∧
      a.waking = none
  | .swtch b => a.role = .chosen b ∧ a.held = [.proc b]
  | .collect => ∃ b, a.role = .back b
  | .note n => noteOk lk me a n
  | .panic msg => a.role = .dead ∨ msg = "init exiting"

def roleAfter (a : Know) : Update → Role
  | .yield => .left false
  | .sleepOn _ => .left false
  | .zombie _ => .left true
  | _ => a.role

def childAfter (a : Know) (i : Slot) : Update → Option (Slot × Bool)
  | .alloc _ => some (i,false)
  | .publish => none
  | .free => if a.child.map Prod.fst = some i then none else a.child
  | _ => a.child

def intentAfter (a : Know) : Update → Option Chan
  | .sleepOn _ => none
  | _ => a.intent

/-- Releasing the lock of an entry that is not asleep on the channel completes
the visit of a wakeup. -/
def wakingAfter (a : Know) (l : Lock) : Option (Option Chan × List Slot) :=
  a.waking.map (fun w => (w.1,(a.sees.filter (fun e => Lock.proc e.1 = l ∧
    e.2 ≠ (.sleeping,w.1))).map Prod.fst ++ w.2))

def noteAfter (a : Know) : Note → Know
  | .wakeupCalled chan => { a with waking := some (chan,[]) }
  | .wakeupReturned _ => { a with waking := none }
  | .sleepCalled chan => { a with intent := some chan }
  | .scanned _ => a

def trailAfter (a : Know) (l : Lock) (taken : Bool) : List (Lock × Bool) :=
  if me = none then (l,taken)::a.trail else a.trail

def post (a : Know) : (x : Cmd) → Res x → Know
  | .acquire l, _ => { a with held := l::a.held, trail := trailAfter me a l true }
  | .release l, _ =>
    { a with
      held := a.held.erase l
      sees := a.sees.filter (fun e => Lock.proc e.1 ≠ l)
      waking := wakingAfter a l
      trail := trailAfter me a l false }
  | .read i, x => if Lock.proc i ∈ a.held then { a with sees := (i,face x)::a.sees } else a
  | .update i u, _ =>
    { a with
      role := roleAfter a u
      sees := a.sees.map (fun e => if e.1 = i then (i,faceAfter u e.2) else e)
      child := childAfter a i u
      intent := intentAfter a u }
  | .context i, _ => { a with child := some (i,true) }
  | .sched p, _ => resumed p (a.role = .left true) a.child
  | .dispatch b, _ => { a with role := .chosen b, sees := [] }
  | .swtch b, _ => gotBack b a.trail
  | .collect, _ => { a with role := .hart }
  | .note n, _ => noteAfter a n
  | _, _ => a

def Ends (j : Jump) (a : Know) : Prop :=
  a.role = .dead ∨
    match me, j with
    | none, .out => a.role = .hart ∧ a.held = [] ∧ a.waking = none
    | none, .waitLoop _ _ => False
    | some _, .out => a = calm none
    | some _, .waitLoop _ closing => a = { calm none with held := [.wait] } ∧
        ∀ sec ∈ closing, KernelMachine.Section.Fits lk sec

abbrev Check {α : Type} (a : Know) (p : P α) (Q : α → Know → Prop) : Prop :=
  Checks (pre lk me) (post me) a p Q

end GreenOS.ThreadKnowledge
