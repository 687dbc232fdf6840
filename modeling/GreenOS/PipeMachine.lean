import GreenOS.ProcTable

/-!
# One pipe and the processes that use it

The machine interleaves `pipewrite`, `piperead`, `pipeclose`, `kkill` and the
scheduler on one pipe. A step is one visit under `pi->lock` or one `p->lock`.
A wakeup visits one slot a step and has to wait for a process that holds its
own lock on the way into `sleep`. What a user address holds is part of the
event. The files of the pipe are reference counted: a process inside a call
still has its descriptor.
-/

namespace GreenOS.PipeMachine
open ProcTable
open Function (update)

def pipesize : ℕ := 512

instance : NeZero pipesize := ⟨by decide⟩

/-- Offsets of the fields of `struct pipe` that serve as channels, from the
start of the pipe's page. -/
def nreadChan (pi : ℕ) : Chan := .object (pi+536)

def nwriteChan (pi : ℕ) : Chan := .object (pi+540)

theorem chans_ne (pi : ℕ) : nreadChan pi ≠ nwriteChan pi := by
  simp [nreadChan, nwriteChan]

structure Pipe where
  data : Fin pipesize → UInt8
  nread : BitVec 32
  nwrite : BitVec 32
  readopen : Bool
  writeopen : Bool

def index (k : BitVec 32) : Fin pipesize := Fin.ofNat pipesize k.toNat

/-- The point in the pipe code that a process has reached. `i` counts the bytes
transferred by the call, `quiet` those stored since the writer last woke the
readers, and `j` the slots a wakeup has visited. -/
inductive Point where
  | user
  | writeEnter (addr : BitVec 64) (n : ℤ) (i : ℕ)
  | writeLoop (addr : BitVec 64) (n : ℤ) (i quiet : ℕ)
  | writeBody (addr : BitVec 64) (n : ℤ) (i quiet : ℕ)
  | writeFull (addr : BitVec 64) (n : ℤ) (i j : ℕ)
  | writeSleep (addr : BitVec 64) (n : ℤ) (i : ℕ)
  | writeDone (i j : ℕ)
  | readEnter (addr : BitVec 64) (n : ℤ)
  | readTest (addr : BitVec 64) (n : ℤ)
  | readSleep (addr : BitVec 64) (n : ℤ)
  | readCopy (addr : BitVec 64) (n : ℤ) (i : ℕ)
  | readDone (result : ℤ) (j : ℕ)
  | closeEnter (writable : Bool)
  | closeWake (writable : Bool) (j : ℕ)
  | dozing (chan : Chan) (resume : Point)
  | asleep (resume : Point)
  deriving DecidableEq

structure Sys where
  table : Table
  base : ℕ
  pipe : Pipe
  freed : Bool
  lock : Option Slot
  point : Slot → Point
  readRef : ℕ
  writeRef : ℕ
  readFds : Slot → ℕ
  writeFds : Slot → ℕ
  copied : List UInt8
  result : Slot → ℤ

structure UserMem where
  load : BitVec 64 → Option UInt8
  writable : BitVec 64 → Bool

inductive Event where
  | write (p : Slot) (addr : BitVec 64) (n : ℤ)
  | read (p : Slot) (addr : BitVec 64) (n : ℤ)
  | close (p : Slot) (writable : Bool)
  | dup (p : Slot) (writable : Bool)
  | fork (p np : Slot)
  | advance (p : Slot) (mem : UserMem)
  | dispatch (p : Slot)
  | yield (p : Slot)
  | kill (q : Slot)
  | outside (p : Slot) (x : Proc)

def setPoint (s : Sys) (p : Slot) (c : Point) : Sys :=
  { s with point := update s.point p c }

def setEntry (s : Sys) (p : Slot) (x : Proc) : Sys := { s with table := setProc s.table p x }

def leave (s : Sys) (p : Slot) (result : ℤ) : Sys :=
  { setPoint s p .user with lock := none, result := update s.result p result }

/-- The point of a process that holds its own `p->lock` between steps. -/
def ownLock : Point → Bool
  | .dozing _ _ => true
  | _ => false

/-- One iteration of `wakeup(chan)`, blocked while the slot's lock is held. -/
def wakeVisit (s : Sys) (p : Slot) (chan : Chan) (q : Slot) (next : Point) : Option Sys :=
  if q = p then some (setPoint s p next)
  else if ownLock (s.point q) then none
  else some (setPoint (setEntry s q (wakeOne (some chan) (s.table q))) p next)

def acquire (s : Sys) (p : Slot) (next : Point) : Option Sys :=
  if s.lock = none then some { setPoint s p next with lock := some p } else none

def store (pi : Pipe) (ch : UInt8) : Pipe :=
  { pi with data := update pi.data (index pi.nwrite) ch, nwrite := pi.nwrite+1 }

def full (pi : Pipe) : Bool := pi.nwrite == pi.nread+BitVec.ofNat 32 pipesize

def writeBody (s : Sys) (p : Slot) (mem : UserMem) (addr : BitVec 64) (n : ℤ) (i quiet : ℕ) :
    Sys :=
  if full s.pipe then setPoint s p (.writeFull addr n i 0)
  else
    match mem.load (addr+BitVec.ofNat 64 i) with
    | none => setPoint s p (.writeDone i 0)
    | some ch => { setPoint s p (.writeLoop addr n (i+1) (quiet+1)) with pipe := store s.pipe ch }

def readCopy (s : Sys) (p : Slot) (mem : UserMem) (addr : BitVec 64) (n : ℤ) (i : ℕ) : Sys :=
  if (i : ℤ) < n then
    if s.pipe.nread = s.pipe.nwrite then setPoint s p (.readDone i 0)
    else if mem.writable (addr+BitVec.ofNat 64 i) then
      { setPoint s p (.readCopy addr n (i+1)) with
        copied := s.copied ++ [s.pipe.data (index s.pipe.nread)]
        pipe := { s.pipe with nread := s.pipe.nread+1 } }
    else setPoint s p (.readDone (if i = 0 then -1 else i) 0)
  else setPoint s p (.readDone i 0)

def closeFlag (pi : Pipe) (writable : Bool) : Pipe :=
  if writable then { pi with writeopen := false } else { pi with readopen := false }

/-- The end of `pipeclose`: the page is freed when both ends are closed. -/
def closeEnd (s : Sys) (p : Slot) : Sys :=
  if s.pipe.readopen = false ∧ s.pipe.writeopen = false then { leave s p 0 with freed := true }
  else leave s p 0

def closeChan (s : Sys) (writable : Bool) : Chan :=
  if writable then nreadChan s.base else nwriteChan s.base

def advance (s : Sys) (p : Slot) (mem : UserMem) : Option Sys :=
  match s.point p with
  | .user => none
  | .writeEnter addr n i => acquire s p (.writeLoop addr n i 0)
  | .writeLoop addr n i quiet =>
    if (i : ℤ) < n then
      if s.pipe.readopen = false ∨ (s.table p).killed ≠ 0 then some (leave s p (-1))
      else some (setPoint s p (.writeBody addr n i quiet))
    else some (setPoint s p (.writeDone i 0))
  | .writeBody addr n i quiet => some (writeBody s p mem addr n i quiet)
  | .writeFull addr n i j =>
    match slot? j with
    | none => some (setPoint s p (.writeSleep addr n i))
    | some q => wakeVisit s p (nreadChan s.base) q (.writeFull addr n i (j+1))
  | .writeSleep addr n i =>
    some { setPoint s p (.dozing (nwriteChan s.base) (.writeEnter addr n i)) with lock := none }
  | .writeDone i j =>
    match slot? j with
    | none => some (leave s p i)
    | some q => wakeVisit s p (nreadChan s.base) q (.writeDone i (j+1))
  | .readEnter addr n => acquire s p (.readTest addr n)
  | .readTest addr n =>
    if s.pipe.nread = s.pipe.nwrite ∧ s.pipe.writeopen = true then
      if (s.table p).killed ≠ 0 then some (leave s p (-1))
      else some (setPoint s p (.readSleep addr n))
    else some (setPoint s p (.readCopy addr n 0))
  | .readSleep addr n =>
    some { setPoint s p (.dozing (nreadChan s.base) (.readEnter addr n)) with lock := none }
  | .readCopy addr n i => some (readCopy s p mem addr n i)
  | .readDone result j =>
    match slot? j with
    | none => some (leave s p result)
    | some q => wakeVisit s p (nwriteChan s.base) q (.readDone result (j+1))
  | .closeEnter writable =>
    (acquire s p (.closeWake writable 0)).map
      (fun s => { s with pipe := closeFlag s.pipe writable })
  | .closeWake writable j =>
    match slot? j with
    | none => some (closeEnd s p)
    | some q => wakeVisit s p (closeChan s writable) q (.closeWake writable (j+1))
  | .dozing chan resume =>
    some (setPoint (setEntry s p (sleepOn chan (s.table p))) p (.asleep resume))
  | .asleep _ => none

/-- `fileclose` of one descriptor; the last one closes that end of the pipe. -/
def fileclose (s : Sys) (p : Slot) (writable : Bool) : Sys :=
  if writable then
    let s := { s with
      writeFds := update s.writeFds p (s.writeFds p-1)
      writeRef := s.writeRef-1 }
    if s.writeRef = 0 then setPoint s p (.closeEnter true) else s
  else
    let s := { s with
      readFds := update s.readFds p (s.readFds p-1)
      readRef := s.readRef-1 }
    if s.readRef = 0 then setPoint s p (.closeEnter false) else s

def filedup (s : Sys) (p : Slot) (readers writers : ℕ) : Sys :=
  { s with
    readFds := update s.readFds p (s.readFds p+readers)
    readRef := s.readRef+readers
    writeFds := update s.writeFds p (s.writeFds p+writers)
    writeRef := s.writeRef+writers }

def fds (s : Sys) (writable : Bool) (p : Slot) : ℕ :=
  if writable then s.writeFds p else s.readFds p

def idle (s : Sys) (p : Slot) : Bool := s.point p == .user && (s.table p).state == .running

def interruptible (s : Sys) (p : Slot) : Bool := s.lock != some p && !ownLock (s.point p)

def onPipe (s : Sys) (x : Proc) : Bool :=
  x.chan == some (nreadChan s.base) || x.chan == some (nwriteChan s.base)

/-- Returning from `sched` in `sleep`, if the process was asleep there. -/
def switchTo (s : Sys) (p : Slot) : Sys :=
  match s.point p with
  | .asleep resume =>
    setPoint (setEntry s p { s.table p with state := .running, chan := none }) p resume
  | _ => setEntry s p { s.table p with state := .running }

def step : Event → Sys → Option Sys
  | .write p addr n, s =>
    if idle s p ∧ 0 < s.writeFds p then some (setPoint s p (.writeEnter addr n 0)) else none
  | .read p addr n, s =>
    if idle s p ∧ 0 < s.readFds p then some (setPoint s p (.readEnter addr n)) else none
  | .close p writable, s =>
    if idle s p ∧ 0 < fds s writable p then some (fileclose s p writable) else none
  | .dup p writable, s =>
    if idle s p ∧ 0 < fds s writable p then
      some (if writable then filedup s p 0 1 else filedup s p 1 0)
    else none
  | .fork p np, s =>
    if idle s p ∧ s.point np = .user ∧ s.readFds np = 0 ∧ s.writeFds np = 0 then
      some (filedup s np (s.readFds p) (s.writeFds p))
    else none
  | .advance p mem, s => if (s.table p).state = .running then advance s p mem else none
  | .dispatch p, s => if (s.table p).state = .runnable then some (switchTo s p) else none
  | .yield p, s =>
    if (s.table p).state = .running ∧ interruptible s p then
      some (setEntry s p { s.table p with state := .runnable })
    else none
  | .kill q, s =>
    if ownLock (s.point q) then none else some (setEntry s q (killOne (s.table q)))
  | .outside p x, s =>
    if s.point p = .user ∧ onPipe s x = false then some (setEntry s p x) else none

def create (table : Table) (base : ℕ) (data : Fin pipesize → UInt8) (p : Slot) : Sys where
  table := table
  base := base
  pipe := { data := data, nread := 0, nwrite := 0, readopen := true, writeopen := true }
  freed := false
  lock := none
  point := fun _ => .user
  readRef := 1
  writeRef := 1
  readFds := update (fun _ => 0) p 1
  writeFds := update (fun _ => 0) p 1
  copied := []
  result := fun _ => 0

end GreenOS.PipeMachine
