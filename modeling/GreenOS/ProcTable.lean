import Mathlib.Tactic

/-!
# The process table

The fields of `struct proc` that the scheduler, the profiler and the process
life cycle read. Pointers are options, null being `none`. A C `int` is an
integer kept in range by `int32`; the kernel context, the kernel stack and
the power mode of a process are not read by any modelled function.
-/

namespace GreenOS.ProcTable

def int32 (x : ℤ) : ℤ := Int.bmod x 4294967296

def nproc : ℕ := 64
def nofile : ℕ := 16
def ncpu : ℕ := 8

instance : NeZero nproc := ⟨by decide⟩
instance : NeZero nofile := ⟨by decide⟩
instance : NeZero ncpu := ⟨by decide⟩

abbrev Slot := Fin nproc
abbrev CpuId := Fin ncpu

inductive ProcState where
  | unused | used | sleeping | runnable | running | zombie
  deriving DecidableEq, Repr

/-- Addresses used as sleep channels: a `struct proc`, the tick counter, and
any other kernel object by its address. -/
inductive Chan where
  | proc (p : Slot)
  | ticks
  | object (address : ℕ)
  deriving DecidableEq, Repr

structure Proc where
  state : ProcState
  chan : Option Chan
  killed : ℤ
  xstate : ℤ
  pid : ℤ
  parent : Option Slot
  sz : ℕ
  pagetable : Option ℕ
  trapframe : Option ℕ
  ofile : Fin nofile → Option ℕ
  cwd : Option ℕ
  name : List UInt8
  cpuTicks : ℤ
  sleepCount : ℤ
  wakeCount : ℤ
  energyScore : ℤ
  energyPriority : ℤ
  energyBudget : ℤ
  energyUsed : ℤ

abbrev Table := Slot → Proc

def zeroProc : Proc where
  state := .unused
  chan := none
  killed := 0
  xstate := 0
  pid := 0
  parent := none
  sz := 0
  pagetable := none
  trapframe := none
  ofile := fun _ => none
  cwd := none
  name := []
  cpuTicks := 0
  sleepCount := 0
  wakeCount := 0
  energyScore := 0
  energyPriority := 0
  energyBudget := 0
  energyUsed := 0

/-- The table entry `freeproc` leaves. The open files are not touched. -/
def freeproc (p : Proc) : Proc :=
  { p with
    trapframe := none
    pagetable := none
    sz := 0
    pid := 0
    parent := none
    name := []
    chan := none
    killed := 0
    xstate := 0
    state := .unused }

def initEnergy (p : Proc) : Proc :=
  { p with
    cpuTicks := 0
    sleepCount := 0
    wakeCount := 0
    energyScore := 0
    energyPriority := 0
    energyBudget := 0
    energyUsed := 0 }

def wakeOne (chan : Option Chan) (p : Proc) : Proc :=
  if p.state = .sleeping ∧ p.chan = chan then
    { p with state := .runnable, wakeCount := int32 (p.wakeCount+1) }
  else p

def killOne (p : Proc) : Proc :=
  { p with killed := 1, state := if p.state = .sleeping then .runnable else p.state }

def sleepOn (chan : Chan) (p : Proc) : Proc :=
  { p with chan := some chan, state := .sleeping, sleepCount := int32 (p.sleepCount+1) }

def slot? (i : ℕ) : Option Slot := if h : i < nproc then some ⟨i,h⟩ else none

theorem slot?_some {i : ℕ} {q : Slot} (h : slot? i = some q) : q.val = i := by
  unfold slot? at h
  split_ifs at h
  rw [← Option.some.inj h]

theorem slot?_none {i : ℕ} (h : slot? i = none) (q : Slot) : q.val < i := by
  unfold slot? at h
  split_ifs at h with hi
  exact lt_of_lt_of_le q.isLt (by omega)

def setProc (t : Table) (i : Slot) (p : Proc) : Table := Function.update t i p

@[simp] theorem setProc_same (t : Table) (i : Slot) (p : Proc) : setProc t i p i = p := by
  simp [setProc]

@[simp] theorem setProc_ne (t : Table) {i j : Slot} (p : Proc) (h : j ≠ i) :
    setProc t i p j = t j := by
  simp [setProc, h]

theorem setProc_self (t : Table) (i : Slot) : setProc t i (t i) = t := by
  simp [setProc]

theorem setProc_apply (t : Table) (i j : Slot) (p : Proc) :
    setProc t i p j = if j = i then p else t j := by
  simp [setProc, Function.update_apply]

theorem int32_of_bounds {x : ℤ} (hl : -2147483648 ≤ x) (hu : x < 2147483648) : int32 x = x :=
  Int.bmod_eq_of_le (by omega) (by omega)

end GreenOS.ProcTable
