import GreenOS.ProcTable
import GreenOS.StepRun

/-!
# Fork, exit, wait, kill, sleep and wakeup

The calls of `proc.c` interleave at the granularity of their critical
sections: a step is what one process does while it holds one `p->lock`, and
`wait_lock` is held across steps. Each process carries the point it has
reached in the call it is executing. Answers of the memory allocator and of
`copyout` are part of the event, so a run fixes them arbitrarily.
-/

namespace GreenOS.ProcLifecycle
open ProcTable

/-- The point in the kernel that a process has reached. Loop indices count
slots or descriptors already handled. -/
inductive Code where
  | user
  | forkScan (i : ℕ)
  | forkParent (np : Slot)
  | forkStart (np : Slot)
  | exitClose (status : ℤ) (fd : ℕ)
  | exitEnter (status : ℤ)
  | exitReparent (status : ℤ) (i : ℕ)
  | exitWakeInit (status : ℤ) (i j : ℕ)
  | exitWakeParent (status : ℤ) (j : ℕ)
  | exitZombie (status : ℤ)
  | waitEnter (addr : ℕ)
  | waitScan (addr : ℕ) (havekids : Bool) (i : ℕ)
  | waitSleep (addr : ℕ)
  | killScan (pid : ℤ) (i : ℕ)
  | wakeScan (chan : Chan) (i : ℕ)
  | slept (resume : Code)
  deriving DecidableEq

structure Sys where
  table : Table
  nextpid : ℤ
  initproc : Slot
  waitLock : Option Slot
  code : Slot → Code

structure Answer where
  trapframe : Option ℕ
  pagetable : Option ℕ
  copied : Bool
  deriving DecidableEq

inductive Event where
  | dispatch (p : Slot)
  | yield (p : Slot)
  | fork (p : Slot)
  | exit (p : Slot) (status : ℤ)
  | wait (p : Slot) (addr : ℕ)
  | kill (p : Slot) (pid : ℤ)
  | sleep (p : Slot) (chan : Chan)
  | wakeup (p : Slot) (chan : Chan)
  | advance (p : Slot) (answer : Answer)
  | interruptWakeup (i : Slot) (chan : Chan)
  | setkilled (p : Slot)
  | setFile (p : Slot) (fd : Fin nofile) (file : Option ℕ)
  | setMemory (p : Slot) (pagetable sz : ℕ)
  | setCwd (p : Slot) (inode : ℕ)
  deriving DecidableEq

/-- `allocproc` on an UNUSED slot: the entry it leaves and whether it returns
the process. -/
def allocproc (np : Proc) (pid : ℤ) (trapframe pagetable : Option ℕ) : Proc × Bool :=
  let np := { np with pid := pid, state := .used, trapframe := trapframe }
  if trapframe = none then (freeproc np,false)
  else
    let np := { np with pagetable := pagetable }
    if pagetable = none then (freeproc np,false) else (initEnergy np,true)

def forkCopy (p np : Proc) (copied : Bool) : Proc × Bool :=
  if copied then
    ({ np with
       sz := p.sz
       ofile := fun fd => if (p.ofile fd).isSome then p.ofile fd else np.ofile fd
       cwd := p.cwd
       name := p.name },true)
  else
    (freeproc np,false)

def setSlot (s : Sys) (i : Slot) (p : Proc) : Sys := { s with table := setProc s.table i p }

def setCode (s : Sys) (p : Slot) (c : Code) : Sys :=
  { s with code := Function.update s.code p c }

def wakeVisit (s : Sys) (p : Slot) (chan : Option Chan) (i : Slot) : Sys :=
  if i = p then s else setSlot s i (wakeOne chan (s.table i))

def forkStep (s : Sys) (p : Slot) (a : Answer) (i : ℕ) : Sys :=
  match slot? i with
  | none => setCode s p .user
  | some np =>
    if (s.table np).state = .unused then
      let (q,found) := allocproc (s.table np) s.nextpid a.trapframe a.pagetable
      let s := { s with nextpid := int32 (s.nextpid+1) }
      if found then
        let (q,copied) := forkCopy (s.table p) q a.copied
        if copied then
          setCode (setCode (setSlot s np q) np .user) p (.forkParent np)
        else
          setCode (setSlot s np q) p .user
      else
        setCode (setSlot s np q) p .user
    else
      setCode s p (.forkScan (i+1))

def closeStep (s : Sys) (p : Slot) (status : ℤ) (fd : ℕ) : Sys :=
  if h : fd < nofile then
    let ofile := Function.update (s.table p).ofile ⟨fd,h⟩ none
    setCode (setSlot s p { s.table p with ofile := ofile }) p (.exitClose status (fd+1))
  else
    setCode (setSlot s p { s.table p with cwd := none }) p (.exitEnter status)

def reparentStep (s : Sys) (p : Slot) (status : ℤ) (i : ℕ) : Sys :=
  match slot? i with
  | none => setCode s p (.exitWakeParent status 0)
  | some pp =>
    if (s.table pp).parent = some p then
      setCode (setSlot s pp { s.table pp with parent := some s.initproc }) p
        (.exitWakeInit status i 0)
    else
      setCode s p (.exitReparent status (i+1))

/-- One iteration of a wakeup loop, continuing with `again` or, after the
last slot, with `done`. -/
def wakeStep (s : Sys) (p : Slot) (chan : Option Chan) (i : ℕ) (again done : Code) : Sys :=
  match slot? i with
  | none => setCode s p done
  | some q => setCode (wakeVisit s p chan q) p again

def waitStep (s : Sys) (p : Slot) (a : Answer) (addr : ℕ) (havekids : Bool) (i : ℕ) : Sys :=
  match slot? i with
  | none =>
    if havekids = false ∨ (s.table p).killed ≠ 0 then
      { setCode s p .user with waitLock := none }
    else
      setCode s p (.waitSleep addr)
  | some pp =>
    if (s.table pp).parent = some p then
      if (s.table pp).state = .zombie then
        if addr ≠ 0 ∧ a.copied = false then
          { setCode s p .user with waitLock := none }
        else
          { setCode (setSlot s pp (freeproc (s.table pp))) p .user with waitLock := none }
      else
        setCode s p (.waitScan addr true (i+1))
    else
      setCode s p (.waitScan addr havekids (i+1))

def killStep (s : Sys) (p : Slot) (pid : ℤ) (i : ℕ) : Sys :=
  match slot? i with
  | none => setCode s p .user
  | some q =>
    if (s.table q).pid = pid then
      setCode (setSlot s q (killOne (s.table q))) p .user
    else
      setCode s p (.killScan pid (i+1))

def advance (s : Sys) (p : Slot) (a : Answer) : Option Sys :=
  match s.code p with
  | .user => none
  | .forkScan i => some (forkStep s p a i)
  | .forkParent np =>
    if s.waitLock = none then
      some (setCode (setSlot s np { s.table np with parent := some p }) p (.forkStart np))
    else none
  | .forkStart np =>
    some (setCode (setSlot s np { s.table np with state := .runnable }) p .user)
  | .exitClose status fd => some (closeStep s p status fd)
  | .exitEnter status =>
    if s.waitLock = none then
      some { setCode s p (.exitReparent status 0) with waitLock := some p }
    else none
  | .exitReparent status i => some (reparentStep s p status i)
  | .exitWakeInit status i j => some (wakeStep s p (some (.proc s.initproc)) j
      (.exitWakeInit status i (j+1)) (.exitReparent status (i+1)))
  | .exitWakeParent status j => some (wakeStep s p ((s.table p).parent.map .proc) j
      (.exitWakeParent status (j+1)) (.exitZombie status))
  | .exitZombie status =>
    some { setSlot s p { s.table p with xstate := status, state := .zombie } with
      waitLock := none }
  | .waitEnter addr =>
    if s.waitLock = none then
      some { setCode s p (.waitScan addr false 0) with waitLock := some p }
    else none
  | .waitScan addr havekids i => some (waitStep s p a addr havekids i)
  | .waitSleep addr =>
    some { setCode (setSlot s p (sleepOn (.proc p) (s.table p))) p (.slept (.waitEnter addr)) with
      waitLock := none }
  | .killScan pid i => some (killStep s p pid i)
  | .wakeScan chan i => some (wakeStep s p (some chan) i (.wakeScan chan (i+1)) .user)
  | .slept _ => none

def whenRunning (s : Sys) (p : Slot) (s' : Sys) : Option Sys :=
  if (s.table p).state = .running then some s' else none

def call (s : Sys) (p : Slot) (s' : Sys) : Option Sys :=
  if s.code p = .user then whenRunning s p s' else none

/-- Code outside the calls modelled here, and the file closing of `kexit`,
may sleep on any channel. -/
def maySleep : Code → Bool
  | .user => true
  | .exitClose _ _ => true
  | _ => false

/-- The scheduler switches to a process; one that was asleep still holds its
lock and leaves `sleep`. -/
def switchTo (s : Sys) (p : Slot) : Sys :=
  match s.code p with
  | .slept resume =>
    setCode (setSlot s p { s.table p with state := .running, chan := none }) p resume
  | _ => setSlot s p { s.table p with state := .running }

def step : Event → Sys → Option Sys
  | .dispatch p, s => if (s.table p).state = .runnable then some (switchTo s p) else none
  | .yield p, s =>
    if s.waitLock = some p then none
    else whenRunning s p (setSlot s p { s.table p with state := .runnable })
  | .fork p, s => call s p (setCode s p (.forkScan 0))
  | .exit p status, s =>
    if p = s.initproc then none else call s p (setCode s p (.exitClose status 0))
  | .wait p addr, s => call s p (setCode s p (.waitEnter addr))
  | .kill p pid, s => call s p (setCode s p (.killScan pid 0))
  | .sleep p chan, s =>
    if maySleep (s.code p) then
      whenRunning s p (setCode (setSlot s p (sleepOn chan (s.table p))) p (.slept (s.code p)))
    else none
  | .wakeup p chan, s => call s p (setCode s p (.wakeScan chan 0))
  | .advance p a, s => (advance s p a).bind (whenRunning s p)
  | .interruptWakeup i chan, s => some (setSlot s i (wakeOne (some chan) (s.table i)))
  | .setkilled p, s => call s p (setSlot s p { s.table p with killed := 1 })
  | .setFile p fd file, s => call s p (setSlot s p { s.table p with
      ofile := Function.update (s.table p).ofile fd file })
  | .setMemory p pagetable sz, s => call s p (setSlot s p { s.table p with
      pagetable := some pagetable, sz := sz })
  | .setCwd p inode, s => call s p (setSlot s p { s.table p with cwd := some inode })

/-- The state `userinit` leaves: the first process is RUNNABLE in slot 0. -/
def boot (trapframe pagetable cwd : ℕ) : Sys where
  table := setProc (fun _ => zeroProc) 0
    { (allocproc zeroProc 1 (some trapframe) (some pagetable)).1 with
      cwd := some cwd, state := .runnable }
  nextpid := 2
  initproc := 0
  waitLock := none
  code := fun _ => .user

end GreenOS.ProcLifecycle
