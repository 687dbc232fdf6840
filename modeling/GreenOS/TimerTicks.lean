import GreenOS.EnergyScore
import GreenOS.StepRun

/-!
# Ticks and timer deadlines on hart 0

The timer interrupt of a hart is pending while its `time` has reached
`stimecmp`, and it is taken as soon as interrupts are enabled: in user code, in
kernel code that holds no spinlock, and in the window the scheduler opens
between `intr_on` and `intr_off`. `clockintr` counts the tick, charges the
running process, and asks for the next interrupt; when the process is over its
budget it yields instead and later returns without asking.

What other harts do to processes that are not running here is left open.
-/

namespace GreenOS.TimerTicks
open StepRun ProcTable EnergyScore

/-- Where a process goes on when hart 0 switches to it: in the trap handler,
because it yielded inside `clockintr`, or anywhere else in the kernel. -/
inductive Resume where
  | clockExit
  | plain
  deriving DecidableEq

/-- What hart 0 executes. `trapped` is the end of `usertrap` or `kerneltrap`
after `devintr` has returned 2. -/
inductive Point where
  | running (p : Slot)
  | masked (p : Slot)
  | clock (current : Option Slot)
  | rearm (current : Option Slot)
  | trapped (p : Slot)
  | window
  | scanning
  deriving DecidableEq

/-- What is written down of a run: the increments of `ticks`, and the writes of
`stimecmp` with whether the new deadline is in the future. -/
inductive Mark where
  | tick
  | arm (future : Bool)
  deriving DecidableEq

structure Hart where
  time : BitVec 64
  stimecmp : BitVec 64
  ticks : BitVec 32
  table : Table
  resume : Slot → Resume
  point : Point
  marks : List Mark

inductive Event where
  | elapse (n : BitVec 64)
  | interrupt
  | charge
  | writeDeadline
  | trapYield
  | trapExit
  | intrOff
  | dispatch (p : Slot)
  | idle
  | mask
  | unmask
  | leave (x : Proc)
  | other (p : Slot) (x : Proc) (r : Resume)

def pending (h : Hart) : Bool := h.stimecmp ≤ h.time

def nextDeadline (h : Hart) : BitVec 64 := h.time+1000000

def current : Point → Option Slot
  | .running p => some p
  | .masked p => some p
  | .clock c => c
  | .rearm c => c
  | .trapped p => some p
  | _ => none

def takeInterrupt (h : Hart) (c : Option Slot) : Hart :=
  { h with ticks := h.ticks+1, point := .clock c, marks := .tick::h.marks }

def leaveCpu (h : Hart) (p : Slot) (x : Proc) (r : Resume) : Hart :=
  { h with
    table := setProc h.table p x
    resume := Function.update h.resume p r
    point := .window }

def chargeStep (h : Hart) (p : Slot) : Hart :=
  let (x,exceeded) := clockintr (h.table p)
  if exceeded then leaveCpu h p { x with state := .runnable } .clockExit
  else { h with table := setProc h.table p x, point := .rearm (some p) }

def step : Event → Hart → Option Hart
  | .elapse n, h => some { h with time := h.time+n }
  | .interrupt, h =>
    if pending h then
      match h.point with
      | .running p => some (takeInterrupt h (some p))
      | .window => some (takeInterrupt h none)
      | _ => none
    else none
  | .charge, h =>
    match h.point with
    | .clock none => some { h with point := .rearm none }
    | .clock (some p) => some (chargeStep h p)
    | _ => none
  | .writeDeadline, h =>
    match h.point with
    | .rearm c => some { h with
        stimecmp := nextDeadline h
        point := c.elim .window .trapped
        marks := .arm (decide (h.time < nextDeadline h))::h.marks }
    | _ => none
  | .trapYield, h =>
    match h.point with
    | .trapped p => some (leaveCpu h p { h.table p with state := .runnable } .plain)
    | _ => none
  | .trapExit, h =>
    match h.point with
    | .trapped p => some { h with point := .masked p }
    | _ => none
  | .intrOff, h => if h.point = .window then some { h with point := .scanning } else none
  | .dispatch p, h =>
    if h.point = .scanning ∧ (h.table p).state = .runnable then
      some { h with
        table := setProc h.table p { h.table p with state := .running }
        point := if h.resume p = .clockExit then .trapped p else .masked p }
    else none
  | .idle, h => if h.point = .scanning then some { h with point := .window } else none
  | .mask, h =>
    match h.point with
    | .running p => some { h with point := .masked p }
    | _ => none
  | .unmask, h =>
    match h.point with
    | .masked p => some { h with point := .running p }
    | _ => none
  | .leave x, h =>
    match h.point with
    | .masked p => some (leaveCpu h p x .plain)
    | _ => none
  | .other p x r, h =>
    if current h.point = some p then none
    else some { h with
      table := setProc h.table p x
      resume := Function.update h.resume p r }

def boot (time : BitVec 64) (t : Table) (resume : Slot → Resume) : Hart where
  time := time
  stimecmp := time+1000000
  ticks := 0
  table := t
  resume := resume
  point := .window
  marks := []

def overspent (h : Hart) : Bool :=
  match h.point with
  | .clock (some p) => (clockintr (h.table p)).2
  | _ => false

/-- No process is over its budget in `clockintr`, and a new deadline does not
exceed the range of the timer. -/
def OnTime : Event → Hart → Prop
  | .charge, h => overspent h = false
  | .writeDeadline, h => h.time.toNat+1000000 < 2^64
  | _, _ => True

instance (e : Event) (h : Hart) : Decidable (OnTime e h) := by
  cases e <;> unfold OnTime <;> infer_instance

def Armed (marks : List Mark) : Prop := ∀ b c, marks = b++.tick::c → .arm true ∈ b

def Separated (marks : List Mark) : Prop :=
  ∀ a b c, marks = a++.tick::(b++.tick::c) → .arm true ∈ b

theorem armed_arm (marks : List Mark) : Armed (.arm true::marks) := by
  intro b c h
  cases b with
  | nil => simp at h
  | cons m b =>
    obtain ⟨rfl,_⟩ := List.cons.inj h
    exact List.mem_cons_self

theorem separated_arm {marks : List Mark} (f : Bool) (h : Separated marks) :
    Separated (.arm f::marks) := by
  intro a b c heq
  cases a with
  | nil => simp at heq
  | cons m a => exact h a b c (List.cons.inj heq).2

theorem separated_tick {marks : List Mark} (h : Separated marks) (ha : Armed marks) :
    Separated (.tick::marks) := by
  intro a b c heq
  cases a with
  | nil => exact ha b c (List.cons.inj heq).2
  | cons m a => exact h a b c (List.cons.inj heq).2

/-- The part of `clockintr` in which a deadline is owed for the last tick. -/
def owing : Point → Bool
  | .clock _ => true
  | .rearm _ => true
  | _ => false

structure Inv (h : Hart) : Prop where
  separated : Separated h.marks
  armed : owing h.point = true ∨ Armed h.marks
  ticks : h.ticks = BitVec.ofNat 32 (h.marks.count .tick)

theorem inv_move {h h' : Hart} (hI : Inv h) (hm : h'.marks = h.marks) (ht : h'.ticks = h.ticks)
    (hp : owing h.point = true → owing h'.point = true) : Inv h' := by
  refine ⟨?_,?_,?_⟩
  · rw [hm]
    exact hI.separated
  · rw [hm]
    exact hI.armed.imp_left hp
  · rw [hm,ht]
    exact hI.ticks

theorem inv_interrupt {h : Hart} (hI : Inv h) (c : Option Slot) (hp : owing h.point = false) :
    Inv (takeInterrupt h c) := by
  have harmed : Armed h.marks := hI.armed.resolve_left (by simp [hp])
  refine ⟨separated_tick hI.separated harmed,.inl rfl,?_⟩
  rw [takeInterrupt, hI.ticks, List.count_cons_self, BitVec.ofNat_add]
  rfl

theorem deadline_future {h : Hart} (ht : h.time.toNat+1000000 < 2^64) :
    h.time < nextDeadline h := by
  rw [BitVec.lt_def, nextDeadline, BitVec.toNat_add]
  have : (1000000 : BitVec 64).toNat = 1000000 := rfl
  omega

theorem inv_step (e : Event) (h h' : Hart) (hI : Inv h) (hok : OnTime e h)
    (hs : step e h = some h') : Inv h' := by
  cases e with
  | elapse n =>
    obtain rfl := Option.some.inj hs
    exact inv_move hI rfl rfl id
  | interrupt =>
    simp only [step] at hs
    split_ifs at hs
    cases hp : h.point with
    | running p =>
      simp only [hp, Option.some.injEq] at hs
      exact hs ▸ inv_interrupt hI _ (by rw [hp]; rfl)
    | window =>
      simp only [hp, Option.some.injEq] at hs
      exact hs ▸ inv_interrupt hI _ (by rw [hp]; rfl)
    | _ => simp [hp] at hs
  | charge =>
    cases hp : h.point with
    | clock c =>
      cases c with
      | none =>
        simp only [step, hp, Option.some.injEq] at hs
        exact hs ▸ inv_move hI rfl rfl (fun _ => rfl)
      | some p =>
        simp only [step, hp, Option.some.injEq] at hs
        simp only [OnTime, overspent, hp] at hok
        simp only [chargeStep, hok] at hs
        exact hs ▸ inv_move hI rfl rfl (fun _ => rfl)
    | _ => simp [step, hp] at hs
  | writeDeadline =>
    cases hp : h.point with
    | rearm c =>
      simp only [step, hp, Option.some.injEq, deadline_future hok, decide_true] at hs
      refine hs ▸ ⟨separated_arm true hI.separated,.inr (armed_arm _),?_⟩
      simpa using hI.ticks
    | _ => simp [step, hp] at hs
  | trapYield =>
    cases hp : h.point with
    | trapped p =>
      simp only [step, hp, Option.some.injEq] at hs
      exact hs ▸ inv_move hI rfl rfl (by simp [hp, owing])
    | _ => simp [step, hp] at hs
  | trapExit =>
    cases hp : h.point with
    | trapped p =>
      simp only [step, hp, Option.some.injEq] at hs
      exact hs ▸ inv_move hI rfl rfl (by simp [hp, owing])
    | _ => simp [step, hp] at hs
  | intrOff =>
    simp only [step, Option.ite_none_right_eq_some, Option.some.injEq] at hs
    exact hs.2 ▸ inv_move hI rfl rfl (by simp [hs.1, owing])
  | dispatch p =>
    simp only [step, Option.ite_none_right_eq_some, Option.some.injEq] at hs
    exact hs.2 ▸ inv_move hI rfl rfl (by simp [hs.1.1, owing])
  | idle =>
    simp only [step, Option.ite_none_right_eq_some, Option.some.injEq] at hs
    exact hs.2 ▸ inv_move hI rfl rfl (by simp [hs.1, owing])
  | mask =>
    cases hp : h.point with
    | running p =>
      simp only [step, hp, Option.some.injEq] at hs
      exact hs ▸ inv_move hI rfl rfl (by simp [hp, owing])
    | _ => simp [step, hp] at hs
  | unmask =>
    cases hp : h.point with
    | masked p =>
      simp only [step, hp, Option.some.injEq] at hs
      exact hs ▸ inv_move hI rfl rfl (by simp [hp, owing])
    | _ => simp [step, hp] at hs
  | leave x =>
    cases hp : h.point with
    | masked p =>
      simp only [step, hp, Option.some.injEq] at hs
      exact hs ▸ inv_move hI rfl rfl (by simp [hp, owing])
    | _ => simp [step, hp] at hs
  | other p x r =>
    simp only [step, Option.ite_none_left_eq_some, Option.some.injEq] at hs
    exact hs.2 ▸ inv_move hI rfl rfl id

theorem inv_boot (time : BitVec 64) (t : Table) (resume : Slot → Resume) :
    Inv (boot time t resume) := by
  refine ⟨?_,.inr ?_,rfl⟩
  · intro a b c h
    simp [boot] at h
  · intro b c h
    simp [boot] at h

/-- In every run of hart 0 in which `clockintr` finds no process over its
budget, a new deadline lies between any two increments of `ticks`, and `ticks`
counts them. -/
theorem one_tick_per_deadline (time : BitVec 64) (t : Table) (resume : Slot → Resume)
    (es : List Event) (h : Hart) (hok : Meets step OnTime es (boot time t resume))
    (hrun : run step es (boot time t resume) = some h) :
    (∀ a b c, h.marks = a++.tick::(b++.tick::c) → .arm true ∈ b) ∧
      h.ticks = BitVec.ofNat 32 (h.marks.count .tick) := by
  have hI := run_guarded step OnTime Inv inv_step es _ h (inv_boot time t resume) hok hrun
  exact ⟨hI.separated,hI.ticks⟩

def spender : Table := fun i =>
  if i = 0 then { zeroProc with state := .runnable, cpuTicks := 5, energyBudget := 1 }
  else zeroProc

def idleTicks : List Event :=
  [.elapse 1000000, .interrupt, .charge, .writeDeadline,
    .elapse 1000000, .interrupt, .charge, .writeDeadline]

theorem idleTicks_armed : ∃ h, run step idleTicks (boot 0 spender (fun _ => .plain)) = some h ∧
    h.ticks = 2 ∧ ∀ a b c, h.marks = a++.tick::(b++.tick::c) → .arm true ∈ b := by
  have hcheck : (run step idleTicks (boot 0 spender (fun _ => .plain))).any
      (fun h => h.ticks = 2) = true := by decide +kernel
  obtain ⟨h,hh,hk⟩ := (Option.any_eq_true _ _).mp hcheck
  exact ⟨h,hh,of_decide_eq_true hk,
    (one_tick_per_deadline 0 spender (fun _ => .plain) idleTicks h (by decide +kernel) hh).1⟩

/-- The process is interrupted, yields inside `clockintr`, and the scheduler
enables interrupts. -/
def overBudget : List Event :=
  [.intrOff, .dispatch 0, .unmask, .elapse 1000000, .interrupt, .charge, .interrupt]

theorem overBudget_ticks_twice :
    ∃ h, run step overBudget (boot 0 spender (fun _ => .plain)) = some h ∧
      h.ticks = 2 ∧ h.marks = [.tick,.tick] := by
  have hcheck : (run step overBudget (boot 0 spender (fun _ => .plain))).any
      (fun h => h.ticks = 2 ∧ h.marks = [.tick,.tick]) = true := by decide +kernel
  obtain ⟨h,hh,hk⟩ := (Option.any_eq_true _ _).mp hcheck
  exact ⟨h,hh,of_decide_eq_true hk⟩

end GreenOS.TimerTicks
