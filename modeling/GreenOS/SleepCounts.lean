import GreenOS.ProcMoves

/-!
# Sleeps and counted wakes

`sleep` counts in `sleep_count` and `wakeup` in `wake_count`, both of C type
`int`, so the balance is their difference modulo 2^32. `kkill` makes a SLEEPING
process RUNNABLE as well, but it does not count.
-/

namespace GreenOS.SleepCounts
open StepRun ProcTable ProcLifecycle ProcSlots ProcMoves

def Balanced (x : Proc) : Prop :=
  int32 (x.sleepCount - x.wakeCount) = if x.state = .sleeping then 1 else 0

def SparesSleepers (e : Event) (s : Sys) : Prop :=
  match act e s with
  | .kill _ q => (s.table q).state ≠ .sleeping
  | _ => True

instance (e : Event) (s : Sys) : Decidable (SparesSleepers e s) := by
  unfold SparesSleepers
  split <;> infer_instance

theorem balanced_sleep (chan : Chan) (x : Proc) (hx : x.state ≠ .sleeping) (h : Balanced x) :
    Balanced (sleepOn chan x) := by
  simp only [Balanced, hx, if_false, sleepOn, if_true, int32, Int.bmod_def] at h ⊢
  split_ifs at h ⊢ <;> omega

theorem balanced_wake (chan : Option Chan) (x : Proc) (h : Balanced x) :
    Balanced (wakeOne chan x) := by
  unfold wakeOne
  split_ifs with hx
  · simp only [Balanced, hx.1, if_true, int32, Int.bmod_def, reduceCtorEq, if_false] at h ⊢
    split_ifs at h ⊢ <;> omega
  · exact h

theorem balanced_awake (x y : Proc) (hs : y.sleepCount = x.sleepCount)
    (hw : y.wakeCount = x.wakeCount) (hst : y.state = .sleeping ↔ x.state = .sleeping)
    (h : Balanced x) : Balanced y := by
  simpa [Balanced, hs, hw, hst] using h

theorem balanced_fresh (x : Proc) (hx : x.state = .used) (hs : x.sleepCount = 0)
    (hw : x.wakeCount = 0) : Balanced x := by
  simp [Balanced, hx, hs, hw, int32]

def Counted (s : Sys) : Prop := ∀ i, (s.table i).state ≠ .unused → Balanced (s.table i)

section
variable {s s' : Sys}

theorem counted_write (hC : Counted s) (i : Slot) (x : Proc)
    (ht : s'.table = setProc s.table i x)
    (hx : x.state ≠ .unused → Balanced x) : Counted s' := by
  intro j hj
  rw [ht] at hj ⊢
  by_cases hji : j = i
  · subst hji
    rw [setProc_same] at hj ⊢
    exact hx hj
  · rw [setProc_ne _ _ hji] at hj ⊢
    exact hC j hj

theorem counted_awake (hC : Counted s) (i : Slot) (x : Proc)
    (ht : s'.table = setProc s.table i x)
    (hlive : (s.table i).state ≠ .unused) (hs : x.sleepCount = (s.table i).sleepCount)
    (hw : x.wakeCount = (s.table i).wakeCount)
    (hst : x.state = .sleeping ↔ (s.table i).state = .sleeping) : Counted s' :=
  counted_write hC i x ht (fun _ => balanced_awake _ x hs hw hst (hC i hlive))

theorem counted_wake (hC : Counted s) (i : Slot) (chan : Option Chan)
    (ht : s'.table = setProc s.table i (wakeOne chan (s.table i))) : Counted s' := by
  refine counted_write hC i _ ht (fun h => balanced_wake chan _ (hC i ?_))
  intro hfree
  simp [wakeOne, hfree] at h

theorem counted_move {a : Act} (hF : Forks s) (hC : Counted s)
    (hok : ∀ p q, a = .kill p q → (s.table q).state ≠ .sleeping) (h : Move s a s') :
    Counted s' := by
  cases h with
  | onward p x b c hp hx hb hc =>
    exact counted_awake hC p x rfl (by simp [hp]) hx.sleepCount hx.wakeCount (by rw [hx.state])
  | exit p status hp hc hinit => exact hC
  | dispatch p hp =>
    unfold switchTo
    cases s.code p with
    | _ => exact counted_awake hC p _ rfl (by simp [hp]) rfl rfl (by simp [hp])
  | yield p hp hlock => exact counted_awake hC p _ rfl (by simp [hp]) rfl rfl (by simp [hp])
  | sleep p chan hp hmay =>
    exact counted_write hC p _ rfl
      (fun _ => balanced_sleep chan _ (by simp [hp]) (hC p (by simp [hp])))
  | unclaim p np x k i hp hc hnp hx hpar =>
    exact counted_write hC np x rfl (fun h => absurd hx h)
  | claim p np x pid k i hp hc hnp hx hpar hpid hsleep hwake =>
    exact counted_write hC np x rfl (fun _ => balanced_fresh x hx hsleep hwake)
  | adopt p np hp hc hlock =>
    refine counted_write hC np _ rfl (fun h => ?_)
    exact balanced_awake (s.table np) _ rfl rfl Iff.rfl (hC np h)
  | start p np hp hc =>
    have hused := hF.used p np (by simp [hc, Creates])
    exact counted_awake hC np _ rfl (by simp [hused]) rfl rfl (by simp [hused])
  | acquire p b c hp hb hc hlock => exact hC
  | reparent p q status i hp hc hq hpar =>
    refine counted_write hC q _ rfl (fun h => ?_)
    exact balanced_awake (s.table q) _ rfl rfl Iff.rfl (hC q h)
  | interrupt i chan => exact counted_wake hC i (some chan) rfl
  | wake p q chan i b c hp hb hc hq =>
    unfold wakeVisit
    split_ifs
    · exact hC
    · exact counted_wake hC q chan rfl
  | zombie p status hp hc => exact counted_awake hC p _ rfl (by simp [hp]) rfl rfl (by simp [hp])
  | giveUp p addr havekids i hp hc => exact hC
  | reap p q addr havekids i hp hc hq hpar hz =>
    exact counted_write hC q _ rfl (fun h => absurd rfl h)
  | doze p addr hp hc =>
    exact counted_write hC p _ rfl
      (fun _ => balanced_sleep _ _ (by simp [hp]) (hC p (by simp [hp])))
  | kill p q pid i hp hc hq hpid =>
    have hawake := hok p q rfl
    refine counted_write hC q _ rfl (fun h => ?_)
    refine balanced_awake (s.table q) _ rfl rfl ?_ (hC q ?_)
    · simp [killOne, hawake]
    · simpa [killOne, hawake] using h

end

theorem counted_step (e : Event) (s s' : Sys) (hI : Forks s ∧ Counted s)
    (hok : SparesSleepers e s) (h : step e s = some s') : Forks s' ∧ Counted s' := by
  have hm := step_move h
  refine ⟨forks_move hI.1 hm,counted_move hI.1 hI.2 ?_ hm⟩
  intro p q hkill
  unfold SparesSleepers at hok
  rw [hkill] at hok
  exact hok

theorem counted_boot (trapframe pagetable cwd : ℕ) :
    Forks (boot trapframe pagetable cwd) ∧ Counted (boot trapframe pagetable cwd) := by
  refine ⟨⟨by simp [boot, Creates],by simp [boot, Creates]⟩,?_⟩
  intro i hi
  by_cases h0 : i = 0
  · subst h0
    simp [boot, allocproc, initEnergy, Balanced, int32]
  · simp [boot, h0, zeroProc] at hi

/-- In every run in which no kill finds its process SLEEPING, the counters of
every process in use differ by one exactly while it is SLEEPING. -/
theorem sleeps_balanced (trapframe pagetable cwd : ℕ) (es : List Event) (s : Sys)
    (hok : Meets step SparesSleepers es (boot trapframe pagetable cwd))
    (hrun : run step es (boot trapframe pagetable cwd) = some s) (p : Slot)
    (hp : (s.table p).state ≠ .unused) :
    int32 ((s.table p).sleepCount - (s.table p).wakeCount) =
      if (s.table p).state = .sleeping then 1 else 0 :=
  (run_guarded step SparesSleepers (fun s => Forks s ∧ Counted s) counted_step es _ s
    (counted_boot trapframe pagetable cwd) hok hrun).2 p hp

def silentAnswer : Answer where
  trapframe := some 4
  pagetable := some 5
  copied := true

def napAndWake : List Event := [.dispatch 0, .sleep 0 .ticks, .interruptWakeup 0 .ticks]

theorem napAndWake_balanced : ∃ s, run step napAndWake (boot 1 2 3) = some s ∧
    (s.table 0).sleepCount = 1 ∧
    int32 ((s.table 0).sleepCount - (s.table 0).wakeCount) =
      if (s.table 0).state = .sleeping then 1 else 0 := by
  have hcheck : (run step napAndWake (boot 1 2 3)).any
      (fun s => (s.table 0).sleepCount = 1 ∧ (s.table 0).state ≠ .unused) = true := by
    decide +kernel
  obtain ⟨s,hs,hk⟩ := (Option.any_eq_true _ _).mp hcheck
  obtain ⟨hcount,hlive⟩ := of_decide_eq_true hk
  exact ⟨s,hs,hcount,sleeps_balanced 1 2 3 napAndWake s (by decide +kernel) hs 0 hlive⟩

/-- The first process forks; its child goes to sleep on the clock and the
first process kills it. -/
def killSleeper : List Event :=
  [.dispatch 0, .fork 0, .advance 0 silentAnswer, .advance 0 silentAnswer,
    .advance 0 silentAnswer, .advance 0 silentAnswer, .dispatch 1, .sleep 1 .ticks,
    .kill 0 2, .advance 0 silentAnswer, .advance 0 silentAnswer]

theorem killSleeper_unbalanced : ∃ s, run step killSleeper (boot 1 2 3) = some s ∧
    (s.table 1).state = .runnable ∧ (s.table 1).sleepCount = 1 ∧ (s.table 1).wakeCount = 0 := by
  have hcheck : (run step killSleeper (boot 1 2 3)).any
      (fun s => (s.table 1).state = .runnable ∧ (s.table 1).sleepCount = 1 ∧
        (s.table 1).wakeCount = 0) = true := by decide +kernel
  obtain ⟨s,hs,hk⟩ := (Option.any_eq_true _ _).mp hcheck
  exact ⟨s,hs,of_decide_eq_true hk⟩

end GreenOS.SleepCounts
