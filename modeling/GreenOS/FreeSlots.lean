import GreenOS.ProcMoves

/-!
# Kill and the free slots

`kkill` compares `pid` with every slot, free ones included, and a free slot
has pid 0. The invariant of the process table survives every event except the
visit of `kill(0)` to an UNUSED slot.
-/

namespace GreenOS.FreeSlots
open StepRun ProcTable ProcLifecycle ProcSlots ProcMoves

/-- The next loop iteration of process `p` compares pid 0 with a free slot. -/
def killsFree (s : Sys) (p : Slot) : Bool :=
  match s.code p with
  | .killScan pid i => pid == 0 && (slot? i).any (fun q => (s.table q).state == .unused)
  | _ => false

def SparesFree : Event → Sys → Prop
  | .advance p _, s => killsFree s p = false
  | _, _ => True

instance (e : Event) (s : Sys) : Decidable (SparesFree e s) := by
  cases e <;> unfold SparesFree <;> infer_instance

variable {s s' : Sys} {p np : Slot} {a : Answer}

theorem inv_parent (hI : SysInv s) (hc : s.code p = .forkParent np) :
    SysInv (setCode (setSlot s np { s.table np with parent := some p }) p (.forkStart np)) := by
  have hmine : Creates (s.code p) np := by simp [hc, Creates]
  have hused := hI.used p np hmine
  have h₁ : SysInv (setSlot s np { s.table np with parent := some p }) :=
    inv_mild hI np _ rfl (by simp [hused]) id id
  refine inv_code h₁ p _ trivial ?_ ?_
  · intro i hi
    obtain rfl : np = i := hi
    simpa using hused
  · intro q i hi hq
    obtain rfl : np = i := hi
    exact hI.alone q p np hq hmine

theorem inv_start (hI : SysInv s) (hc : s.code p = .forkStart np) :
    SysInv (setCode (setSlot s np { s.table np with state := .runnable }) p .user) := by
  have hmine : Creates (s.code p) np := by simp [hc, Creates]
  have h₁ : Inv s.table (Function.update s.code p .user) :=
    inv_plain hI p .user trivial user_plain
  refine inv_setProc h₁ np _ (by simp) (by simp) ?_ ?_
  · exact closed_congr _ (s.table np) _ rfl (h₁.closed np)
  · intro q hq
    by_cases hqp : q = p
    · subst hqp
      simp [Creates] at hq
    · exact absurd (hI.alone q p np (by simpa [hqp] using hq) hmine) hqp

theorem inv_advance (hI : SysInv s) (hp : (s.table p).state = .running)
    (hok : killsFree s p = false) (h : advance s p a = some s') : SysInv s' := by
  have hfiles := hI.closed p
  unfold advance at h
  cases hc : s.code p with
  | user => simp [hc] at h
  | forkScan i =>
    simp only [hc, Option.some.injEq] at h
    exact h ▸ inv_fork hI a i
  | forkParent np =>
    simp only [hc, Option.ite_none_right_eq_some, Option.some.injEq] at h
    exact h.2 ▸ inv_parent hI hc
  | forkStart np =>
    simp only [hc, Option.some.injEq] at h
    exact h ▸ inv_start hI hc
  | exitClose status fd =>
    simp only [hc, Option.some.injEq] at h
    exact h ▸ inv_close hI status fd hp hc
  | exitEnter status =>
    simp only [hc, Option.ite_none_right_eq_some, Option.some.injEq] at h
    rw [hc] at hfiles
    exact h.2 ▸ inv_plain hI p _ hfiles (by simp [Creates])
  | exitReparent status i =>
    simp only [hc, Option.some.injEq] at h
    exact h ▸ inv_reparent hI status i hc
  | exitWakeInit status i j =>
    simp only [hc, Option.some.injEq] at h
    exact h ▸ inv_wakeStep hI _ _ _ _ (by simp [hc, Closed]) (by simp [hc, Closed])
      (by simp [Creates])
  | exitWakeParent status j =>
    simp only [hc, Option.some.injEq] at h
    exact h ▸ inv_wakeStep hI _ _ _ _ (by simp [hc, Closed]) (by simp [hc, Closed])
      (by simp [Creates])
  | exitZombie status =>
    simp only [hc, Option.some.injEq] at h
    rw [hc] at hfiles
    refine h ▸ inv_setProc hI p _ (by simp) (fun _ => hfiles) ?_ ?_
    · exact closed_congr _ (s.table p) _ rfl (hI.closed p)
    · intro q hq
      have := hI.used q p hq
      simp [hp] at this
  | waitEnter addr =>
    simp only [hc, Option.ite_none_right_eq_some, Option.some.injEq] at h
    exact h.2 ▸ inv_plain hI p _ trivial (by simp [Creates])
  | waitScan addr havekids i =>
    simp only [hc, Option.some.injEq] at h
    exact h ▸ inv_wait hI a addr havekids i
  | waitSleep addr =>
    simp only [hc, Option.some.injEq] at h
    exact h ▸ inv_own hI hp _ _ (by simp [sleepOn]) (by simp [sleepOn]) trivial
      (by simp [Creates])
  | killScan pid i =>
    simp only [hc, Option.some.injEq] at h
    refine h ▸ inv_kill hI pid i ?_
    intro q hq hpid hfree
    have hzero : pid = 0 := hpid.symm.trans (hI.clean q hfree).pid
    simp [killsFree, hc, hq, hzero, hfree] at hok
  | wakeScan chan i =>
    simp only [hc, Option.some.injEq] at h
    exact h ▸ inv_wakeStep hI _ _ _ _ (by simp [Closed]) (by simp [Closed])
      (by simp [Creates])
  | slept resume => simp [hc] at h

theorem inv_switch (hI : SysInv s) (hp : (s.table p).state = .runnable) :
    SysInv (switchTo s p) := by
  have hrun : ∀ x : Proc, x.ofile = (s.table p).ofile → x.state = .running →
      SysInv (setSlot s p x) := fun x hof hst =>
    inv_mild hI p x hof (by simp [hst]) (by simp [hst]) (by simp [hp])
  unfold switchTo
  cases hc : s.code p with
  | slept resume =>
    have h₁ := hrun { s.table p with state := .running, chan := none } rfl rfl
    have hcl := h₁.closed p
    rw [setSlot_code, hc] at hcl
    refine inv_code h₁ p resume hcl ?_ ?_
    · intro np hnp
      exact h₁.used p np (by simpa [hc, Creates] using hnp)
    · intro q np hnp hq
      exact hI.alone q p np hq (by simpa [hc, Creates] using hnp)
  | _ => exact hrun _ rfl rfl

theorem inv_step (e : Event) (s s' : Sys) (hI : SysInv s) (hok : SparesFree e s)
    (h : step e s = some s') : SysInv s' := by
  cases e with
  | dispatch p =>
    simp only [step, Option.ite_none_right_eq_some, Option.some.injEq] at h
    exact h.2 ▸ inv_switch hI h.1
  | yield p =>
    simp only [step, Option.ite_none_left_eq_some] at h
    obtain ⟨hp,rfl⟩ := whenRunning_eq h.2
    exact inv_mild hI p _ rfl (by simp) (by simp) (by simp [hp])
  | fork p =>
    obtain ⟨_,_,rfl⟩ := call_eq h
    exact inv_plain hI p _ trivial (by simp [Creates])
  | exit p status =>
    simp only [step, Option.ite_none_left_eq_some] at h
    obtain ⟨_,_,rfl⟩ := call_eq h.2
    exact inv_plain hI p _ (by simp [Closed]) (by simp [Creates])
  | wait p addr =>
    obtain ⟨_,_,rfl⟩ := call_eq h
    exact inv_plain hI p _ trivial (by simp [Creates])
  | kill p pid =>
    obtain ⟨_,_,rfl⟩ := call_eq h
    exact inv_plain hI p _ trivial (by simp [Creates])
  | sleep p chan =>
    simp only [step, Option.ite_none_right_eq_some] at h
    obtain ⟨hp,rfl⟩ := whenRunning_eq h.2
    refine inv_own hI hp _ _ (by simp [sleepOn]) (by simp [sleepOn]) ?_ ?_
    · exact closed_congr _ (s.table p) _ rfl (hI.closed p)
    · have hmay := h.1
      cases hc : s.code p <;> simp_all [maySleep, Creates]
  | wakeup p chan =>
    obtain ⟨_,_,rfl⟩ := call_eq h
    exact inv_plain hI p _ trivial (by simp [Creates])
  | advance p a =>
    simp only [step, Option.bind_eq_some_iff] at h
    obtain ⟨t,ht,hrun⟩ := h
    obtain ⟨hp,rfl⟩ := whenRunning_eq hrun
    exact inv_advance hI hp hok ht
  | interruptWakeup i chan =>
    simp only [step, Option.some.injEq] at h
    exact h ▸ inv_wake hI i (some chan)
  | setkilled p =>
    obtain ⟨_,hp,rfl⟩ := call_eq h
    exact inv_mild hI p _ rfl (by simp [hp]) id id
  | setFile p fd file =>
    obtain ⟨hc,hp,rfl⟩ := call_eq h
    refine inv_setProc hI p _ (by simp [hp]) (by simp [hp]) (by simp [hc, Closed]) ?_
    intro q hq
    exact hI.used q p hq
  | setMemory p pagetable sz =>
    obtain ⟨_,hp,rfl⟩ := call_eq h
    exact inv_mild hI p _ rfl (by simp [hp]) id id
  | setCwd p inode =>
    obtain ⟨_,hp,rfl⟩ := call_eq h
    exact inv_mild hI p _ rfl (by simp [hp]) id id

theorem inv_boot (trapframe pagetable cwd : ℕ) : SysInv (boot trapframe pagetable cwd) := by
  have hzero : Inv (fun _ => zeroProc) (fun _ => .user) := by
    refine ⟨fun _ _ => ?_,by simp [zeroProc],fun _ => trivial,by simp [Creates],by simp [Creates]⟩
    constructor <;> first | rfl | exact fun _ => rfl
  exact inv_setProc hzero 0 _ (by simp) (by simp) trivial (by simp [Creates])

theorem kill_changes {pid : ℤ} {i : ℕ} (hc : s.code p = .killScan pid i)
    (h : step (.advance p a) s = some s') (j : Slot)
    (hj : s'.table j ≠ s.table j) : slot? i = some j ∧ (s.table j).pid = pid := by
  simp only [step, advance, hc, Option.bind_some] at h
  obtain ⟨_,rfl⟩ := whenRunning_eq h
  unfold killStep at hj
  split at hj
  · exact absurd rfl hj
  · rename_i q hq
    split_ifs at hj with hpid
    · by_cases hjq : j = q
      · exact hjq ▸ ⟨hq,hpid⟩
      · exact absurd (by simp [hjq]) hj
    · exact absurd rfl hj

/-- In every run in which `kill(0)` visits no UNUSED slot, the free slots stay
clean, new processes start fresh, and a kill changes only a live process with
the pid it was given. -/
theorem free_slots_clean (trapframe pagetable cwd : ℕ) (es : List Event) (s : Sys)
    (hok : Meets step SparesFree es (boot trapframe pagetable cwd))
    (hrun : run step es (boot trapframe pagetable cwd) = some s) :
    (∀ i, (s.table i).state = .unused → Clean (s.table i)) ∧
    (∀ np pid tf pt, (s.table np).state = .unused →
      (allocproc (s.table np) pid tf pt).2 = true →
      (allocproc (s.table np) pid tf pt).1.killed = 0 ∧
      NoFiles (allocproc (s.table np) pid tf pt).1) ∧
    (∀ p a pid i s', s.code p = .killScan pid i → SparesFree (.advance p a) s →
      step (.advance p a) s = some s' → ∀ j, s'.table j ≠ s.table j →
      (s.table j).state ≠ .unused ∧ (s.table j).pid = pid) := by
  have hI : SysInv s := run_guarded step SparesFree SysInv
    (fun e s s' h₁ h₂ h₃ => inv_step e s s' h₁ h₂ h₃) es _ s
    (inv_boot trapframe pagetable cwd) hok hrun
  refine ⟨hI.clean,?_,?_⟩
  · intro np pid tf pt hfree hfound
    exact ((allocproc_fresh _ pid tf pt (hI.clean np hfree)).2 hfound).2
  · intro p a pid i s' hc hspare hstep j hj
    obtain ⟨hslot,hpid⟩ := kill_changes hc hstep j hj
    refine ⟨?_,hpid⟩
    intro hfree
    have hzero : pid = 0 := hpid.symm.trans (hI.clean j hfree).pid
    simp [SparesFree, killsFree, hc, hslot, hzero, hfree] at hspare

def noAnswer : Answer where
  trapframe := none
  pagetable := none
  copied := false

def killSelf : List Event := [.dispatch 0, .kill 0 1, .advance 0 noAnswer]

theorem killSelf_clean : ∃ s, run step killSelf (boot 1 2 3) = some s ∧
    (s.table 0).killed = 1 ∧ ∀ i, (s.table i).state = .unused → Clean (s.table i) := by
  have hcheck : (run step killSelf (boot 1 2 3)).any
      (fun s => (s.table 0).killed = 1) = true := by decide +kernel
  obtain ⟨s,hs,hk⟩ := (Option.any_eq_true _ _).mp hcheck
  exact ⟨s,hs,of_decide_eq_true hk,
    (free_slots_clean 1 2 3 killSelf s (by decide +kernel) hs).1⟩

/-- The first process calls `kill(0)`; the loop passes its own slot and
reaches a free one. -/
def killZero : List Event :=
  [.dispatch 0, .kill 0 0, .advance 0 noAnswer, .advance 0 noAnswer]

theorem killZero_marks_free_slot : ∃ s, run step killZero (boot 1 2 3) = some s ∧
    (s.table 1).state = .unused ∧ (s.table 1).killed = 1 ∧
    (allocproc (s.table 1) s.nextpid (some 4) (some 5)).2 = true ∧
    (allocproc (s.table 1) s.nextpid (some 4) (some 5)).1.killed = 1 := by
  have hcheck : (run step killZero (boot 1 2 3)).any
      (fun s => (s.table 1).state = .unused ∧ (s.table 1).killed = 1 ∧
        (allocproc (s.table 1) s.nextpid (some 4) (some 5)).2 = true ∧
        (allocproc (s.table 1) s.nextpid (some 4) (some 5)).1.killed = 1) = true := by
    decide +kernel
  obtain ⟨s,hs,hk⟩ := (Option.any_eq_true _ _).mp hcheck
  exact ⟨s,hs,of_decide_eq_true hk⟩

end GreenOS.FreeSlots
