import GreenOS.EnergyScheduler
import GreenOS.StepRun

/-!
# Energy budgets over whole runs

Any number of scheduler rounds on several CPUs interleave with clock ticks,
budget system calls and the other changes processes make to the table. A step
is one critical section of a process lock. While a CPU scans, it holds the
lock of its candidate, so no step of another CPU changes that process.

`throttled` and `seen` are records of the run, read by no step: which process
was found over its budget since its last budget call, and which processes the
current round of a CPU found RUNNABLE, with the priorities it computed.
-/

namespace GreenOS.EnergyBudget
open ProcTable EnergyScore EnergyScheduler FirstMax
open StepRun
open Function (update update_self)

structure Cpu where
  proc : Option Slot
  next : ℕ
  best : Option Slot
  bestPriority : ℤ
  seen : List (Entry Slot)

def scanning : Cpu where
  proc := none
  next := 0
  best := none
  bestPriority := -1
  seen := []

structure Sys where
  table : Table
  cpus : CpuId → Cpu
  throttled : Slot → Bool

def boot (t : Table) : Sys where
  table := t
  cpus := fun _ => scanning
  throttled := fun _ => false

inductive Event where
  | visit (c : CpuId)
  | dispatch (c : CpuId)
  | idle (c : CpuId)
  | clockintr (c : CpuId)
  | yield (c : CpuId)
  | setEnergyBudget (c : CpuId) (budget : ℤ)
  | sleep (c : CpuId) (chan : Chan)
  | exit (c : CpuId) (status : ℤ)
  | wakeup (i : Slot) (chan : Chan)
  | kill (i : Slot)
  | freeproc (i : Slot)
  | allocproc (i : Slot) (pid : ℤ)
  | start (i : Slot)
  deriving DecidableEq

def Unlocked (s : Sys) (c : Option CpuId) (i : Slot) : Prop :=
  ∀ d, some d ≠ c → (s.cpus d).best ≠ some i

instance (s : Sys) (c : Option CpuId) (i : Slot) : Decidable (Unlocked s c i) :=
  inferInstanceAs (Decidable (∀ d, some d ≠ c → (s.cpus d).best ≠ some i))

def setCpu (s : Sys) (c : CpuId) (cpu : Cpu) : Sys :=
  { s with cpus := update s.cpus c cpu }

def setSlot (s : Sys) (i : Slot) (p : Proc) : Sys :=
  { s with table := setProc s.table i p }

def visitStep (c : CpuId) (i : Slot) (s : Sys) : Sys :=
  let cpu := s.cpus c
  let v := visit i { table := s.table, best := cpu.best, bestPriority := cpu.bestPriority }
  let seen := if (s.table i).state = .runnable then cpu.seen++[(i,prio s.table i)] else cpu.seen
  { s with table := v.table
           cpus := update s.cpus c { cpu with
             next := cpu.next+1, best := v.best, bestPriority := v.bestPriority, seen := seen } }

/-- A process running on CPU `c` gives up the CPU, leaving `p` in its slot. -/
def leave (c : CpuId) (i : Slot) (p : Proc) (s : Sys) : Sys :=
  setCpu (setSlot s i p) c scanning

def clockStep (c : CpuId) (i : Slot) (s : Sys) : Sys :=
  let (p,exceeded) := clockintr (s.table i)
  if exceeded then
    { leave c i { p with state := .runnable } s with
      throttled := update s.throttled i true }
  else
    setSlot s i p

def step : Event → Sys → Option Sys
  | .visit c, s =>
    if h : (s.cpus c).next < nproc then
      if (s.cpus c).proc = none ∧ Unlocked s (some c) ⟨(s.cpus c).next,h⟩ then
        some (visitStep c ⟨(s.cpus c).next,h⟩ s)
      else none
    else none
  | .dispatch c, s =>
    match (s.cpus c).best with
    | some b =>
      if (s.cpus c).proc = none ∧ (s.cpus c).next = nproc then
        some (setCpu (setSlot s b { s.table b with state := .running }) c
          { scanning with proc := some b })
      else none
    | none => none
  | .idle c, s =>
    if (s.cpus c).proc = none ∧ (s.cpus c).next = nproc ∧ (s.cpus c).best = none then
      some (setCpu s c scanning)
    else none
  | .clockintr c, s => (s.cpus c).proc.bind fun i =>
    if Unlocked s none i then some (clockStep c i s) else none
  | .yield c, s => (s.cpus c).proc.bind fun i =>
    if Unlocked s none i then some (leave c i { s.table i with state := .runnable } s) else none
  | .setEnergyBudget c budget, s => (s.cpus c).proc.bind fun i =>
    if Unlocked s none i then
      some { setSlot s i (sysSetEnergyBudget budget (s.table i)).1 with
        throttled := if budget < 0 then s.throttled else update s.throttled i false }
    else none
  | .sleep c chan, s => (s.cpus c).proc.bind fun i =>
    if Unlocked s none i then
      some (leave c i { s.table i with
        state := .sleeping, chan := some chan, sleepCount := int32 ((s.table i).sleepCount+1) } s)
    else none
  | .exit c status, s => (s.cpus c).proc.bind fun i =>
    if Unlocked s none i then
      some (leave c i { s.table i with state := .zombie, xstate := status } s)
    else none
  | .wakeup i chan, s =>
    if Unlocked s none i ∧ (s.table i).state = .sleeping ∧ (s.table i).chan = some chan then
      some (setSlot s i { s.table i with
        state := .runnable, wakeCount := int32 ((s.table i).wakeCount+1) })
    else none
  | .kill i, s =>
    if Unlocked s none i then
      some (setSlot s i { s.table i with
        killed := 1, state := if (s.table i).state = .sleeping then .runnable
          else (s.table i).state })
    else none
  | .freeproc i, s =>
    if Unlocked s none i ∧ (s.table i).state = .zombie then
      some (setSlot s i (freeproc (s.table i)))
    else none
  | .allocproc i pid, s =>
    if Unlocked s none i ∧ (s.table i).state = .unused then
      some { setSlot s i (initEnergy { s.table i with pid := pid, state := .used }) with
        throttled := update s.throttled i false }
    else none
  | .start i, s =>
    if Unlocked s none i ∧ (s.table i).state = .used then
      some (setSlot s i { s.table i with state := .runnable })
    else none

theorem step_cpus {e : Event} {s s' : Sys} (h : step e s = some s') (d : CpuId) :
    s'.cpus d = s.cpus d ∨ (∃ p, s'.cpus d = { scanning with proc := p }) ∨
      ∃ hn : (s.cpus d).next < nproc, s'.cpus d = (visitStep d ⟨_,hn⟩ s).cpus d := by
  have hset : ∀ (r : Sys) (c : CpuId) (cpu : Cpu), (setCpu r c cpu).cpus d = r.cpus d ∨
      (setCpu r c cpu).cpus d = cpu := by
    intro r c cpu
    by_cases hc : d = c
    · right; simp [setCpu, hc]
    · left; simp [setCpu, hc]
  cases e with
  | visit c =>
    simp only [step, Option.dite_none_right_eq_some, Option.ite_none_right_eq_some,
      Option.some.injEq] at h
    obtain ⟨hn,-,rfl⟩ := h
    by_cases hc : d = c
    · subst hc
      exact Or.inr (Or.inr ⟨hn,rfl⟩)
    · left
      simp [visitStep, hc]
  | dispatch c =>
    cases hb : (s.cpus c).best with
    | none => simp [step, hb] at h
    | some b =>
      simp only [step, hb, Option.ite_none_right_eq_some, Option.some.injEq] at h
      obtain ⟨-,rfl⟩ := h
      rcases hset (setSlot s b { s.table b with state := .running }) c
        { scanning with proc := some b } with hs | hs
      · exact Or.inl hs
      · exact Or.inr (Or.inl ⟨some b,hs⟩)
  | idle c =>
    simp only [step, Option.ite_none_right_eq_some, Option.some.injEq] at h
    obtain ⟨-,rfl⟩ := h
    exact (hset s c scanning).imp_right fun hs => Or.inl ⟨none,hs⟩
  | clockintr c =>
    simp only [step, Option.bind_eq_some_iff, Option.ite_none_right_eq_some,
      Option.some.injEq] at h
    obtain ⟨i,-,-,rfl⟩ := h
    simp only [clockStep]
    split_ifs
    · exact (hset _ c scanning).imp_right fun hs => Or.inl ⟨none,hs⟩
    · exact Or.inl rfl
  | yield c | sleep c _ | exit c _ =>
    simp only [step, Option.bind_eq_some_iff, Option.ite_none_right_eq_some,
      Option.some.injEq] at h
    obtain ⟨i,-,-,rfl⟩ := h
    exact (hset _ c scanning).imp_right fun hs => Or.inl ⟨none,hs⟩
  | setEnergyBudget c _ =>
    simp only [step, Option.bind_eq_some_iff, Option.ite_none_right_eq_some,
      Option.some.injEq] at h
    obtain ⟨i,-,-,rfl⟩ := h
    exact Or.inl rfl
  | wakeup | kill | freeproc | allocproc | start =>
    simp only [step, Option.ite_none_right_eq_some, Option.some.injEq] at h
    obtain ⟨-,rfl⟩ := h
    exact Or.inl rfl

/-- The candidate of a CPU is the first maximum of what its round has seen,
and the round has seen the slots in order. -/
structure Faithful (cpu : Cpu) : Prop where
  tracks : Tracks cpu.best cpu.bestPriority cpu.seen
  sorted : Sorted cpu.seen
  below : ∀ e ∈ cpu.seen, e.1.val < cpu.next

theorem scanning_faithful (p : Option Slot) : Faithful { scanning with proc := p } where
  tracks := tracks_start
  sorted := List.Pairwise.nil
  below := by simp [scanning]

theorem visit_faithful (s : Sys) (c : CpuId) (hn : (s.cpus c).next < nproc)
    (h : Faithful (s.cpus c)) : Faithful ((visitStep c ⟨(s.cpus c).next,hn⟩ s).cpus c) := by
  by_cases hr : (s.table ⟨(s.cpus c).next,hn⟩).state = .runnable
  · constructor
    · simpa [visitStep, hr] using visit_seen _ _ _ hr h.tracks
    · simpa [visitStep, hr, sorted_snoc] using ⟨h.sorted,fun i q he => h.below (i,q) he⟩
    · intro e he
      simp only [visitStep, hr, if_true, update_self, List.mem_append,
        List.mem_singleton] at he
      rcases he with he | rfl
      · have := h.below e he
        simp only [visitStep, update_self]
        omega
      · simp [visitStep]
  · constructor
    · simpa [visitStep, hr] using visit_unseen _ _ _ hr h.tracks
    · simpa [visitStep, hr] using h.sorted
    · intro e he
      have := h.below e (by simpa [visitStep, hr] using he)
      simp only [visitStep, update_self]
      omega

theorem step_faithful (e : Event) (s s' : Sys) (hs : ∀ c, Faithful (s.cpus c))
    (h : step e s = some s') : ∀ c, Faithful (s'.cpus c) := by
  intro c
  rcases step_cpus h c with he | ⟨p,he⟩ | ⟨hn,he⟩
  · rw [he]
    exact hs c
  · rw [he]
    exact scanning_faithful p
  · rw [he]
    exact visit_faithful s c hn (hs c)

theorem run_faithful (t : Table) (es : List Event) (s : Sys)
    (h : run step es (boot t) = some s) : ∀ c, Faithful (s.cpus c) :=
  run_invariant step (fun s => ∀ c, Faithful (s.cpus c)) step_faithful es (boot t) s
    (fun _ => scanning_faithful none) h

def Dispatches (s : Sys) (c : CpuId) (p : Slot) : Prop :=
  (s.cpus c).proc = none ∧ (s.cpus c).next = nproc ∧ (s.cpus c).best = some p

/-- No round dispatches a throttled process after it saw another RUNNABLE
process of positive priority. -/
def ThrottleEffective (s : Sys) : Prop :=
  ∀ c p, Dispatches s c p → s.throttled p = true →
    ∀ e ∈ (s.cpus c).seen, e.1 ≠ p → e.2 ≤ 0

/-- In every completed scan that saw a throttled process and another one of
positive priority, some process seen is ahead of the throttled one by the
priorities computed from their counters, or level with it in an earlier slot. -/
def Outranked (s : Sys) : Prop :=
  ∀ c, (s.cpus c).proc = none → (s.cpus c).next = nproc →
    ∀ p ∈ (s.cpus c).seen, s.throttled p.1 = true →
      (∃ e ∈ (s.cpus c).seen, e.1 ≠ p.1 ∧ 0 < e.2) →
        ∃ e ∈ (s.cpus c).seen, p.2 < e.2 ∨ (p.2 = e.2 ∧ e.1 < p.1)

/-- In every state of every run, the throttle takes effect exactly when the
counters alone already put every throttled process behind another one: the
priority that the clock handler lowers is never consulted. -/
theorem throttle_effective_iff (t : Table) (es : List Event) (s : Sys)
    (h : run step es (boot t) = some s) : ThrottleEffective s ↔ Outranked s := by
  have hf := run_faithful t es s h
  constructor
  · intro he c hp hn p hps ht hpos
    by_contra hnot
    push Not at hnot
    have hlead : Leads (s.cpus c).seen p := fun a ha =>
      ⟨not_lt.mp fun hlt => absurd hlt (not_lt.mpr (hnot a ha).1),fun hlt => by
        rcases lt_or_eq_of_le (hnot a ha).1 with hl | heq
        · exact hl
        · exact absurd hlt (not_lt.mpr ((hnot a ha).2 heq.symm))⟩
    have hbest : (s.cpus c).best = some p.1 := by
      rw [(hf c).tracks.1, (argmax_eq_iff (hf c).sorted p).mpr ⟨hps,hlead⟩]
      rfl
    obtain ⟨e,hes,hne,hpos⟩ := hpos
    exact absurd (he c p.1 ⟨hp,hn,hbest⟩ ht e hes hne) (not_le.mpr hpos)
  · rintro ho c p ⟨hp,hn,hbest⟩ ht e hes hne
    by_contra hpos
    rw [(hf c).tracks.1] at hbest
    obtain ⟨m,hm,rfl⟩ := Option.map_eq_some_iff.mp hbest
    obtain ⟨hms,hlead⟩ := argmax_leads (hf c).sorted hm
    obtain ⟨a,ha,hahead⟩ := ho c hp hn m hms ht ⟨e,hes,hne,not_le.mp hpos⟩
    have hla := hlead a ha
    rcases hahead with hlt | ⟨heq,hlt⟩
    · omega
    · have := hla.2 hlt
      omega

def budgetTable : Table := fun i =>
  if i.val = 0 then { zeroProc with state := .runnable, pid := 3 }
  else if i.val = 1 then { zeroProc with state := .runnable, pid := 4, cpuTicks := 50 }
  else zeroProc

/-- The first process sets a budget of one tick, yields after its first tick and is
dispatched again, exceeds the budget at its second, and the CPU scans the table again. -/
def exceedBudget : List Event :=
  List.replicate 64 (.visit 0) ++ [.dispatch 0, .setEnergyBudget 0 1, .clockintr 0, .yield 0] ++
    List.replicate 64 (.visit 0) ++ [.dispatch 0, .clockintr 0] ++ List.replicate 64 (.visit 0)

theorem exceedBudget_state : ∃ s, run step exceedBudget (boot budgetTable) = some s ∧
    Dispatches s 0 0 ∧ s.throttled 0 = true ∧ (s.cpus 0).seen = [(0,9998),(1,9950)] := by
  have h : (run step exceedBudget (boot budgetTable)).any (fun s =>
      (s.cpus 0).proc = none ∧ (s.cpus 0).next = nproc ∧ (s.cpus 0).best = some 0 ∧
        s.throttled 0 = true ∧ (s.cpus 0).seen = [(0,9998),(1,9950)]) = true := by
    decide +kernel
  obtain ⟨s,hs,he⟩ := (Option.any_eq_true _ _).mp h
  obtain ⟨hp,hn,hb,ht⟩ := of_decide_eq_true he
  exact ⟨s,hs,⟨hp,hn,hb⟩,ht⟩

theorem exceedBudget_iff : ∃ s, run step exceedBudget (boot budgetTable) = some s ∧
    (ThrottleEffective s ↔ Outranked s) := by
  obtain ⟨s,hs,-⟩ := exceedBudget_state
  exact ⟨s,hs,throttle_effective_iff budgetTable exceedBudget s hs⟩

/-- The process over its budget is dispatched again ahead of the other. -/
theorem exceedBudget_dispatched : ∃ s, run step exceedBudget (boot budgetTable) = some s ∧
    ¬ ThrottleEffective s := by
  obtain ⟨s,hs,hd,ht,hseen⟩ := exceedBudget_state
  refine ⟨s,hs,fun h => ?_⟩
  have := h 0 0 hd ht (1,9950) (by simp [hseen]) (by decide)
  omega

end GreenOS.EnergyBudget
