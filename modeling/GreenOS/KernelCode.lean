import GreenOS.Programs
import GreenOS.EnergyScore
import GreenOS.ProcLifecycle

/-!
# The code of `proc.c` and `clockintr`, lock by lock

Every function that takes a `p->lock` or `wait_lock`, as a program over the
acquisition and release of locks and the accesses to the process table between
them. Adjacent assignments to one entry are one `update`. A call of `wakeup` or
`sleep`, the return of `wakeup` and the end of a scan are notes: commands that
change nothing.
-/

namespace GreenOS.KernelCode
open Programs ProcTable EnergyScore ProcLifecycle

/-- Spin locks: `wait_lock`, `p->lock`, `pid_lock`, `idle_governor.lock`, and the
condition locks of the rest of the kernel. -/
inductive Lock where
  | cond (n : ℕ)
  | wait
  | proc (p : Slot)
  | pid
  | idle
  deriving DecidableEq, Repr

def tickslock : Lock := .cond 0

/-- The lock that sleepers and wakers of a channel hold. `lk` gives it for the
objects of the kernel. -/
def lockOf (lk : ℕ → ℕ) : Option Chan → Lock
  | none => .wait
  | some (.proc _) => .wait
  | some .ticks => tickslock
  | some (.object a) => .cond (lk a)

/-- Adjacent assignments to one table entry. The channel of a `wake` is the one that
`wakeup` was called with. -/
inductive Update where
  | yield
  | sleepOn (chan : Chan)
  | tidy
  | zombie (status : ℤ)
  | wake (chan : Option Chan)
  | rouse
  | alloc (pid : ℤ)
  | free
  | publish
  | kill
  | trapframe (frame : Option ℕ)
  | setup (pagetable : Option ℕ)
  | copy (parent : Proc)
  | parent (q : Slot)
  | close
  | prioritise
  | score
  | charge
  | budget (n : ℤ)

def Update.apply : Update → Proc → Proc
  | .yield, x => { x with state := .runnable }
  | .sleepOn chan, x => ProcTable.sleepOn chan x
  | .tidy, x => { x with chan := none }
  | .zombie status, x => { x with xstate := status, state := .zombie }
  | .wake _, x => { x with state := .runnable, wakeCount := int32 (x.wakeCount+1) }
  | .rouse, x => { x with state := .runnable }
  | .alloc pid, x => { x with pid := pid, state := .used }
  | .free, x => freeproc x
  | .publish, x => { x with state := .runnable }
  | .kill, x => { x with killed := 1 }
  | .trapframe frame, x => { x with trapframe := frame }
  | .setup pagetable, x => initEnergy { x with pagetable := pagetable }
  | .copy p, x => (forkCopy p x true).1
  | .parent q, x => { x with parent := some q }
  | .close, x => { x with ofile := fun _ => none, cwd := none }
  | .prioritise, x => updateEnergyPriority x
  | .score, x => updateEnergyScore x
  | .charge, x => (EnergyScore.clockintr x).1
  | .budget n, x => (sysSetEnergyBudget n x).1

inductive Note where
  | wakeupCalled (chan : Option Chan)
  | wakeupReturned (chan : Option Chan)
  | sleepCalled (chan : Chan)
  | scanned (best : Option Slot)

/-- Commands. `choose` asks what the allocator and the user address space
answer. `dispatch` is `best->state = RUNNING; c->proc = best`, `collect` is
`c->proc = 0`, and `swtch` and `sched` pass the CPU on. -/
inductive Cmd where
  | acquire (l : Lock)
  | release (l : Lock)
  | read (i : Slot)
  | update (i : Slot) (u : Update)
  | takePid
  | choose
  | context (i : Slot)
  | sched (p : Slot)
  | dispatch (b : Slot)
  | swtch (b : Slot)
  | collect
  | note (n : Note)
  | panic (msg : String)

def Res : Cmd → Type
  | .read _ => Proc
  | .takePid => ℤ
  | .choose => Answer
  | .panic _ => Empty
  | _ => Unit

abbrev P (α : Type) := Prog Cmd Res α

def cmd (c : Cmd) : P (Res c) := perform c

def acquire (l : Lock) : P Unit := cmd (.acquire l)

def release (l : Lock) : P Unit := cmd (.release l)

def read (i : Slot) : P Proc := cmd (.read i)

def update (i : Slot) (u : Update) : P Unit := cmd (.update i u)

def note (n : Note) : P Unit := cmd (.note n)

def onlyIf (c : Prop) [Decidable c] (p : P Unit) : P Unit := if c then p else pure ()

def kpanic {α : Type} (msg : String) : P α := .step (.panic msg) Empty.elim

def slots : List Slot := List.finRange nproc

def initproc : Slot := 0

inductive Act where
  | sleep (chan : Chan)
  | wakeup (chan : Chan)
  | killed

structure Section where
  lock : ℕ
  acts : List Act

/-- Where a thread goes at the end of its program: to user space or to the top of
the scheduler loop, or back to the head of the loop of `kwait`. -/
inductive Jump where
  | out
  | waitLoop (addr : ℕ) (closing : List Section)

def wakeSlot (chan : Option Chan) (i : Slot) : P Unit := do
  acquire (.proc i)
  let x ← read i
  onlyIf (x.state = .sleeping ∧ x.chan = chan) (update i (.wake chan))
  release (.proc i)

def wakeFrom (me : Option Slot) (chan : Option Chan) : List Slot → P Unit
  | [] => pure ()
  | i::is => do
    onlyIf (some i ≠ me) (wakeSlot chan i)
    wakeFrom me chan is

def wakeup (me : Option Slot) (chan : Option Chan) : P Unit := do
  note (.wakeupCalled chan)
  wakeFrom me chan slots
  note (.wakeupReturned chan)

def sched (p : Slot) : P Unit := cmd (.sched p)

def sleep (p : Slot) (chan : Chan) (lk : Lock) : P Unit := do
  note (.sleepCalled chan)
  acquire (.proc p)
  release lk
  update p (.sleepOn chan)
  sched p
  update p .tidy
  release (.proc p)
  acquire lk

def yield (p : Slot) : P Unit := do
  acquire (.proc p)
  update p .yield
  sched p
  release (.proc p)

def forkret (p : Slot) : P Jump := do
  release (.proc p)
  pure .out

def killed (p : Slot) : P Bool := do
  acquire (.proc p)
  let x ← read p
  release (.proc p)
  pure (decide (x.killed ≠ 0))

def setkilled (p : Slot) : P Unit := do
  acquire (.proc p)
  update p .kill
  release (.proc p)

def kkill (pid : ℤ) : List Slot → P ℤ
  | [] => pure (-1)
  | i::is => do
    acquire (.proc i)
    let x ← read i
    if x.pid = pid then
      update i .kill
      onlyIf (x.state = .sleeping) (update i .rouse)
      release (.proc i)
      pure 0
    else
      release (.proc i)
      kkill pid is

def allocpid : P ℤ := do
  acquire .pid
  let pid ← cmd .takePid
  release .pid
  pure pid

def allocFound (i : Slot) : P (Option Slot) := do
  let pid ← allocpid
  update i (.alloc pid)
  let a ← cmd .choose
  update i (.trapframe a.trapframe)
  if a.trapframe = none then
    update i .free
    release (.proc i)
    pure none
  else if a.pagetable = none then
    update i .free
    release (.proc i)
    pure none
  else
    cmd (.context i)
    update i (.setup a.pagetable)
    pure (some i)

def allocproc : List Slot → P (Option Slot)
  | [] => pure none
  | i::is => do
    acquire (.proc i)
    let x ← read i
    if x.state = .unused then allocFound i
    else
      release (.proc i)
      allocproc is

def kfork (p : Slot) : P ℤ := do
  match ← allocproc slots with
  | none => pure (-1)
  | some np =>
    let a ← cmd .choose
    if a.copied = false then
      update np .free
      release (.proc np)
      pure (-1)
    else
      let x ← read p
      update np (.copy x)
      let y ← read np
      release (.proc np)
      acquire .wait
      update np (.parent p)
      release .wait
      acquire (.proc np)
      update np .publish
      release (.proc np)
      pure y.pid

def runAct (p : Slot) (n : ℕ) : Act → P Unit
  | .sleep chan => sleep p chan (.cond n)
  | .wakeup chan => wakeup (some p) (some chan)
  | .killed => do
    let _ ← killed p
    pure ()

def runActs (p : Slot) (n : ℕ) : List Act → P Unit
  | [] => pure ()
  | act::acts => do
    runAct p n act
    runActs p n acts

def runSections (p : Slot) : List Section → P Unit
  | [] => pure ()
  | sec::secs => do
    acquire (.cond sec.lock)
    runActs p sec.lock sec.acts
    release (.cond sec.lock)
    runSections p secs

def adopt (p i : Slot) : P Unit := do
  update i (.parent initproc)
  wakeup (some p) (some (.proc initproc))

def reparent (p : Slot) : List Slot → P Unit
  | [] => pure ()
  | i::is => do
    let x ← read i
    onlyIf (x.parent = some p) (adopt p i)
    reparent p is

/-- `kexit`. Closing the files and the directory is done under other locks. -/
def kexit {α : Type} (p : Slot) (status : ℤ) (closing : List Section) : P α := do
  if p = initproc then kpanic "init exiting"
  else
    runSections p closing
    update p .close
    acquire .wait
    reparent p slots
    let x ← read p
    wakeup (some p) (x.parent.map Chan.proc)
    acquire (.proc p)
    update p (.zombie status)
    release .wait
    sched p
    kpanic "zombie exit"

def trapReturn (p : Slot) (closing : List Section) : P Jump := do
  if ← killed p then kexit p (-1) closing else pure .out

/-- The loop of `kwait` over the table. It answers nothing when `kwait` returns
from inside the loop, and else whether there are children. -/
def waitScan (p : Slot) (addr : ℕ) : List Slot → Bool → P (Option Bool)
  | [], havekids => pure (some havekids)
  | i::is, havekids => do
    let x ← read i
    if x.parent = some p then
      acquire (.proc i)
      let y ← read i
      if y.state = .zombie then
        let a ← cmd .choose
        if addr ≠ 0 ∧ a.copied = false then
          release (.proc i)
          release .wait
          pure none
        else
          update i .free
          release (.proc i)
          release .wait
          pure none
      else
        release (.proc i)
        waitScan p addr is true
    else waitScan p addr is havekids

def waitLoop (p : Slot) (addr : ℕ) (closing : List Section) : P Jump := do
  match ← waitScan p addr slots false with
  | none => trapReturn p closing
  | some false =>
    release .wait
    trapReturn p closing
  | some true =>
    if ← killed p then
      release .wait
      trapReturn p closing
    else
      sleep p (.proc p) .wait
      pure (.waitLoop addr closing)

def getEnergyInfo (pid : ℤ) : List Slot → P (Option Proc)
  | [] => pure none
  | i::is => do
    acquire (.proc i)
    let x ← read i
    if x.pid = pid then
      update i .score
      let y ← read i
      release (.proc i)
      pure (some y)
    else
      release (.proc i)
      getEnergyInfo pid is

def setEnergyBudget (p : Slot) (n : ℤ) : P ℤ := do
  if n < 0 then pure (-1)
  else
    acquire (.proc p)
    update p (.budget n)
    release (.proc p)
    pure 0

/-- System calls and faults. `other` is a call that takes condition locks only. -/
inductive Call where
  | fork
  | exit (status : ℤ)
  | wait (addr : ℕ)
  | kill (pid : ℤ)
  | energyInfo (pid : ℤ)
  | setBudget (n : ℤ)
  | other (secs : List Section)
  | fault

def syscall (p : Slot) (closing : List Section) : Call → P Jump
  | .fork => do
    let _ ← kfork p
    trapReturn p closing
  | .exit status => kexit p status closing
  | .wait addr => do
    acquire .wait
    pure (.waitLoop addr closing)
  | .kill pid => do
    let _ ← kkill pid slots
    trapReturn p closing
  | .energyInfo pid => do
    let _ ← getEnergyInfo pid slots
    trapReturn p closing
  | .setBudget n => do
    let _ ← setEnergyBudget p n
    trapReturn p closing
  | .other secs => do
    runSections p secs
    trapReturn p closing
  | .fault => do
    setkilled p
    trapReturn p closing

def usertrap (p : Slot) (closing : List Section) : Call → P Jump
  -- only a system call looks at `killed` first
  | .fault => syscall p closing .fault
  | call => do
    if ← killed p then kexit p (-1) closing else syscall p closing call

inductive Source where
  | timer
  | device (chan : Chan)
  deriving DecidableEq

def signal (lk : ℕ → ℕ) (me : Option Slot) (chan : Chan) : P Unit := do
  acquire (lockOf lk (some chan))
  wakeup me (some chan)
  release (lockOf lk (some chan))

def chargeTick (p : Slot) : P Unit := do
  acquire (.proc p)
  let x ← read p
  update p .charge
  release (.proc p)
  onlyIf ((EnergyScore.clockintr x).2 = true) (yield p)

def clockintr (lk : ℕ → ℕ) (first : Bool) (me : Option Slot) : P Unit := do
  onlyIf (first = true) (signal lk me .ticks)
  match me with
  | none => pure ()
  | some p => chargeTick p

def devintr (lk : ℕ → ℕ) (first : Bool) (me : Option Slot) : Source → P Unit
  | .timer => clockintr lk first me
  | .device chan => signal lk me chan

def yieldAfter : Source → Option Slot → P Unit
  | .timer, some p => yield p
  | _, _ => pure ()

def kerneltrap (lk : ℕ → ℕ) (first : Bool) (me : Option Slot) (src : Source) : P Unit := do
  devintr lk first me src
  yieldAfter src me

def usertrapIntr (lk : ℕ → ℕ) (first : Bool) (p : Slot) (closing : List Section) (src : Source) :
    P Jump := do
  devintr lk first (some p) src
  if ← killed p then kexit p (-1) closing
  else
    yieldAfter src (some p)
    pure .out

def releaseBest : Option Slot → P Unit
  | some b => release (.proc b)
  | none => pure ()

def scanFrom : List Slot → Option Slot → ℤ → P (Option Slot)
  | [], best, _ => pure best
  | i::is, best, bestPriority => do
    acquire (.proc i)
    let x ← read i
    if x.state = .runnable then
      update i .prioritise
      let priority := (updateEnergyPriority x).energyPriority
      if best = none ∨ bestPriority < priority then
        releaseBest best
        scanFrom is (some i) priority
      else
        release (.proc i)
        scanFrom is best bestPriority
    else
      release (.proc i)
      scanFrom is best bestPriority

def scheduler : P Jump := do
  let best ← scanFrom slots none (-1)
  note (.scanned best)
  match best with
  | some b =>
    cmd (.dispatch b)
    acquire .idle
    release .idle
    cmd (.swtch b)
    cmd .collect
    release (.proc b)
    pure .out
  | none =>
    acquire .idle
    release .idle
    pure .out

end GreenOS.KernelCode
