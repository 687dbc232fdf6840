import GreenOS.EnergyScore
import GreenOS.ProcMoves
import GreenOS.UserBytes

/-!
# Looking up a process by its pid

`sys_get_energy_info` compares the pid it is given with every slot of the
process table, free ones included. The tables it can meet are those of the
life cycle together with the events that write energy fields. In all of them
a live process has a positive pid of its own and a free slot has pid 0, as
long as `nextpid` does not overflow, so the call goes wrong for pid 0 only.
-/

namespace GreenOS.EnergyInfo
open StepRun ProcTable ProcLifecycle ProcMoves
open EnergyScore UserBytes

def infoData (p : Proc) : List ℤ := [p.cpuTicks,p.sleepCount,p.wakeCount,p.energyScore]

def findInfo (pid : ℤ) : List Slot → Table → Option (List ℤ) × Table
  | [], t => (none,t)
  | i::is, t =>
    if (t i).pid = pid then
      let p := updateEnergyScore (t i)
      (some (infoData p),setProc t i p)
    else
      findInfo pid is t

def sysGetEnergyInfo (pid : ℤ) (infoAddr : ℕ) (t : Table) (u : User) : ℤ × Table × User :=
  match findInfo pid (List.finRange nproc) t with
  | (none,t) => (-1,t,u)
  | (some data,t) =>
    let (r,u) := copyout infoAddr 16 (intBytes data) u
    if r < 0 then (-1,t,u) else (0,t,u)

inductive Event where
  | life (e : ProcLifecycle.Event)
  | clock (p : Slot)
  | schedule (i : Slot)
  | setBudget (p : Slot) (budget : ℤ)
  | getInfo (p : Slot) (pid : ℤ)
  deriving DecidableEq

def step : Event → Sys → Option Sys
  | .life e, s => ProcLifecycle.step e s
  | .clock p, s => whenRunning s p (setSlot s p (clockintr (s.table p)).1)
  | .schedule i, s =>
    if (s.table i).state = .runnable then some (setSlot s i (updateEnergyPriority (s.table i)))
    else none
  | .setBudget p budget, s => call s p (setSlot s p (sysSetEnergyBudget budget (s.table p)).1)
  | .getInfo p pid, s =>
    call s p { s with table := (findInfo pid (List.finRange nproc) s.table).2 }

def PidsLeft (_ : Event) (s : Sys) : Prop := s.nextpid < 2147483647

structure Pids (t : Table) (next : ℤ) : Prop where
  pos : 1 ≤ next
  free : ∀ i, (t i).state = .unused → (t i).pid = 0
  live : ∀ i, (t i).state ≠ .unused → 1 ≤ (t i).pid ∧ (t i).pid < next
  unique : ∀ i j, (t i).state ≠ .unused → (t j).state ≠ .unused → (t i).pid = (t j).pid → i = j

def Mild (p x : Proc) : Prop :=
  x.state = .unused ∧ x.pid = 0 ∨ x.state ≠ .unused ∧ p.state ≠ .unused ∧ x.pid = p.pid

section
variable {t : Table} {next : ℤ}

theorem pids_write (h : Pids t next) (i : Slot) (x : Proc) (hx : Mild (t i) x) :
    Pids (setProc t i x) next := by
  have hold : ∀ j, (setProc t i x j).state ≠ .unused →
      (t j).state ≠ .unused ∧ (setProc t i x j).pid = (t j).pid := by
    intro j hj
    by_cases hji : j = i
    · subst hji
      rw [setProc_same] at hj ⊢
      rcases hx with hx | hx
      · exact absurd hx.1 hj
      · exact hx.2
    · rw [setProc_ne _ _ hji] at hj ⊢
      exact ⟨hj,rfl⟩
  refine ⟨h.pos,?_,?_,?_⟩
  · intro j hj
    by_cases hji : j = i
    · subst hji
      rw [setProc_same] at hj ⊢
      rcases hx with hx | hx
      · exact hx.2
      · exact absurd hj hx.1
    · rw [setProc_ne _ _ hji] at hj ⊢
      exact h.free j hj
  · intro j hj
    rw [(hold j hj).2]
    exact h.live j (hold j hj).1
  · intro j k hj hk hjk
    rw [(hold j hj).2, (hold k hk).2] at hjk
    exact h.unique j k (hold j hj).1 (hold k hk).1 hjk

theorem mild_same (h : Pids t next) (i : Slot) {x : Proc}
    (hs : x.state = .unused ↔ (t i).state = .unused) (hp : x.pid = (t i).pid) :
    Mild (t i) x := by
  by_cases hu : (t i).state = .unused
  · exact .inl ⟨hs.mpr hu,hp.trans (h.free i hu)⟩
  · exact .inr ⟨fun hx => hu (hs.mp hx),hu,hp⟩

theorem pids_next (h : Pids t next) : Pids t (next+1) where
  pos := by have := h.pos; omega
  free := h.free
  live i hi := ⟨(h.live i hi).1,by have := (h.live i hi).2; omega⟩
  unique := h.unique

theorem pids_alloc (h : Pids t next) (i : Slot) (x : Proc)
    (hpid : x.pid = next) (hx : x.state ≠ .unused) : Pids (setProc t i x) (next+1) := by
  have hfresh : ∀ j, j ≠ i → (t j).state ≠ .unused → (t j).pid ≠ next := by
    intro j _ hj
    have := (h.live j hj).2
    omega
  refine ⟨by have := h.pos; omega,?_,?_,?_⟩
  · intro j hj
    by_cases hji : j = i
    · subst hji
      rw [setProc_same] at hj
      exact absurd hj hx
    · rw [setProc_ne _ _ hji] at hj ⊢
      exact h.free j hj
  · intro j hj
    by_cases hji : j = i
    · subst hji
      rw [setProc_same, hpid]
      have := h.pos
      omega
    · rw [setProc_ne _ _ hji] at hj ⊢
      have := h.live j hj
      omega
  · intro j k hj hk hjk
    by_cases hji : j = i
    · by_cases hki : k = i
      · rw [hji, hki]
      · subst hji
        rw [setProc_ne _ _ hki] at hk hjk
        rw [setProc_same, hpid] at hjk
        exact absurd hjk.symm (hfresh k hki hk)
    · rw [setProc_ne _ _ hji] at hj hjk
      by_cases hki : k = i
      · subst hki
        rw [setProc_same, hpid] at hjk
        exact absurd hjk (hfresh j hji hj)
      · rw [setProc_ne _ _ hki] at hk hjk
        exact h.unique j k hj hk hjk

end

theorem wakeOne_mild {t : Table} {next : ℤ} (h : Pids t next) (i : Slot) (chan : Option Chan) :
    Mild (t i) (wakeOne chan (t i)) := by
  refine mild_same h i ?_ ?_
  · unfold wakeOne
    split_ifs with hs
    · simp [hs.1]
    · rfl
  · unfold wakeOne
    split_ifs <;> rfl

section
variable {s : Sys} (h : Pids s.table s.nextpid)
include h

theorem forkStep_pids (hleft : s.nextpid < 2147483647) (p : Slot) (a : Answer) (i : ℕ) :
    Pids (forkStep s p a i).table (forkStep s p a i).nextpid := by
  have hnext : int32 (s.nextpid+1) = s.nextpid+1 := by
    have := h.pos
    exact int32_of_bounds (by omega) (by omega)
  unfold forkStep
  cases slot? i with
  | none => exact h
  | some np =>
    by_cases hfree : (s.table np).state = .unused
    · cases htf : a.trapframe with
      | none =>
        simp only [hfree, if_true, allocproc, hnext, setSlot, setCode]
        exact pids_write (pids_next h) np _ (.inl ⟨rfl,rfl⟩)
      | some tf =>
        cases hpt : a.pagetable with
        | none =>
          simp only [hfree, if_true, allocproc, hnext, setSlot, setCode, reduceCtorEq, if_false]
          exact pids_write (pids_next h) np _ (.inl ⟨rfl,rfl⟩)
        | some pt =>
          cases hcopy : a.copied with
          | false =>
            simp only [hfree, if_true, allocproc, hnext, setSlot, setCode, reduceCtorEq,
              if_false, forkCopy, Bool.false_eq_true]
            exact pids_write (pids_next h) np _ (.inl ⟨rfl,rfl⟩)
          | true =>
            simp only [hfree, if_true, allocproc, hnext, setSlot, setCode, reduceCtorEq,
              if_false, forkCopy]
            exact pids_alloc h np _ rfl (by simp [initEnergy])
    · simp only [hfree, if_false]
      exact h

theorem wakeStep_pids (p : Slot) (chan : Option Chan) (i : ℕ) (again done : Code) :
    Pids (wakeStep s p chan i again done).table (wakeStep s p chan i again done).nextpid := by
  unfold wakeStep
  cases slot? i with
  | none => exact h
  | some q =>
    simp only [wakeVisit]
    split_ifs
    · exact h
    · exact pids_write h q _ (wakeOne_mild h q chan)

theorem advance_pids (hF : Forks s) (hleft : s.nextpid < 2147483647) {p : Slot}
    {a : Answer} {s' : Sys}
    (hp : (s.table p).state = .running) (hs : advance s p a = some s') :
    Pids s'.table s'.nextpid := by
  have hlive : (s.table p).state ≠ .unused := by simp [hp]
  unfold advance at hs
  cases hc : s.code p with
  | user => simp [hc] at hs
  | forkScan i =>
    simp only [hc, Option.some.injEq] at hs
    exact hs ▸ forkStep_pids h hleft p a i
  | forkParent np =>
    simp only [hc, Option.ite_none_right_eq_some, Option.some.injEq] at hs
    exact hs.2 ▸ pids_write h np _ (mild_same h np Iff.rfl rfl)
  | forkStart np =>
    simp only [hc, Option.some.injEq] at hs
    have hused : (s.table np).state = .used := hF.used p np (by simp [hc, ProcSlots.Creates])
    exact hs ▸ pids_write h np _ (.inr ⟨by simp,by simp [hused],rfl⟩)
  | exitClose status fd =>
    simp only [hc, Option.some.injEq] at hs
    subst hs
    unfold closeStep
    split_ifs
    · exact pids_write h p _ (mild_same h p Iff.rfl rfl)
    · exact pids_write h p _ (mild_same h p Iff.rfl rfl)
  | exitEnter status =>
    simp only [hc, Option.ite_none_right_eq_some, Option.some.injEq] at hs
    exact hs.2 ▸ h
  | exitReparent status i =>
    simp only [hc, Option.some.injEq] at hs
    subst hs
    unfold reparentStep
    cases slot? i with
    | none => exact h
    | some q =>
      dsimp only
      split_ifs
      · exact pids_write h q _ (mild_same h q Iff.rfl rfl)
      · exact h
  | exitWakeInit status i j =>
    simp only [hc, Option.some.injEq] at hs
    exact hs ▸ wakeStep_pids h p _ j _ _
  | exitWakeParent status j =>
    simp only [hc, Option.some.injEq] at hs
    exact hs ▸ wakeStep_pids h p _ j _ _
  | exitZombie status =>
    simp only [hc, Option.some.injEq] at hs
    exact hs ▸ pids_write h p _ (.inr ⟨by simp,hlive,rfl⟩)
  | waitEnter addr =>
    simp only [hc, Option.ite_none_right_eq_some, Option.some.injEq] at hs
    exact hs.2 ▸ h
  | waitScan addr havekids i =>
    simp only [hc, Option.some.injEq] at hs
    subst hs
    unfold waitStep
    cases slot? i with
    | none =>
      dsimp only
      split_ifs <;> exact h
    | some q =>
      dsimp only
      split_ifs
      · exact h
      · exact pids_write h q _ (.inl ⟨rfl,rfl⟩)
      · exact h
      · exact h
  | waitSleep addr =>
    simp only [hc, Option.some.injEq] at hs
    exact hs ▸ pids_write h p _ (.inr ⟨by simp [sleepOn],hlive,rfl⟩)
  | killScan pid i =>
    simp only [hc, Option.some.injEq] at hs
    subst hs
    unfold killStep
    cases slot? i with
    | none => exact h
    | some q =>
      dsimp only
      split_ifs
      · refine pids_write h q _ (mild_same h q ?_ rfl)
        simp only [killOne]
        split_ifs with hsl
        · simp [hsl]
        · rfl
      · exact h
  | wakeScan chan i =>
    simp only [hc, Option.some.injEq] at hs
    exact hs ▸ wakeStep_pids h p _ i _ _
  | slept resume => simp [hc] at hs

theorem life_pids (hF : Forks s) (hleft : s.nextpid < 2147483647) {e : ProcLifecycle.Event}
    {s' : Sys} (hs : ProcLifecycle.step e s = some s') : Pids s'.table s'.nextpid := by
  have hown : ∀ p x, (s.table p).state = .running → x.state ≠ .unused →
      x.pid = (s.table p).pid → Pids (setProc s.table p x) s.nextpid :=
    fun p x hp hx hpid => pids_write h p x (.inr ⟨hx,by simp [hp],hpid⟩)
  cases e with
  | dispatch p =>
    simp only [ProcLifecycle.step, Option.ite_none_right_eq_some, Option.some.injEq] at hs
    obtain ⟨hp,rfl⟩ := hs
    unfold switchTo
    split <;> exact pids_write h p _ (.inr ⟨by simp,by simp [hp],rfl⟩)
  | yield p =>
    simp only [ProcLifecycle.step, Option.ite_none_left_eq_some] at hs
    obtain ⟨hp,rfl⟩ := whenRunning_eq hs.2
    exact hown p _ hp (by simp) rfl
  | fork p =>
    obtain ⟨_,_,rfl⟩ := call_eq hs
    exact h
  | exit p status =>
    simp only [ProcLifecycle.step, Option.ite_none_left_eq_some] at hs
    obtain ⟨_,_,rfl⟩ := call_eq hs.2
    exact h
  | wait p addr =>
    obtain ⟨_,_,rfl⟩ := call_eq hs
    exact h
  | kill p pid =>
    obtain ⟨_,_,rfl⟩ := call_eq hs
    exact h
  | sleep p chan =>
    simp only [ProcLifecycle.step, Option.ite_none_right_eq_some] at hs
    obtain ⟨hp,rfl⟩ := whenRunning_eq hs.2
    exact hown p _ hp (by simp [sleepOn]) rfl
  | wakeup p chan =>
    obtain ⟨_,_,rfl⟩ := call_eq hs
    exact h
  | advance p a =>
    simp only [ProcLifecycle.step, Option.bind_eq_some_iff] at hs
    obtain ⟨t,ht,hrun⟩ := hs
    obtain ⟨hp,rfl⟩ := whenRunning_eq hrun
    exact advance_pids h hF hleft hp ht
  | interruptWakeup i chan =>
    simp only [ProcLifecycle.step, Option.some.injEq] at hs
    exact hs ▸ pids_write h i _ (wakeOne_mild h i _)
  | setkilled p =>
    obtain ⟨_,hp,rfl⟩ := call_eq hs
    exact hown p _ hp (by simp [hp]) rfl
  | setFile p fd file =>
    obtain ⟨_,hp,rfl⟩ := call_eq hs
    exact hown p _ hp (by simp [hp]) rfl
  | setMemory p pagetable sz =>
    obtain ⟨_,hp,rfl⟩ := call_eq hs
    exact hown p _ hp (by simp [hp]) rfl
  | setCwd p inode =>
    obtain ⟨_,hp,rfl⟩ := call_eq hs
    exact hown p _ hp (by simp [hp]) rfl

end

structure SameIdentity (x y : Proc) : Prop where
  state : x.state = y.state
  pid : x.pid = y.pid

theorem score_identity (p : Proc) : SameIdentity (updateEnergyScore p) p := by
  rw [score_updated]
  exact ⟨rfl,rfl⟩

theorem priority_identity (p : Proc) : SameIdentity (updateEnergyPriority p) p := by
  rw [priority_updated]
  exact ⟨rfl,rfl⟩

theorem clock_identity (p : Proc) : SameIdentity (clockintr p).1 p := by
  simp only [clockintr]
  split_ifs <;> exact ⟨rfl,rfl⟩

theorem budget_identity (budget : ℤ) (p : Proc) :
    SameIdentity (sysSetEnergyBudget budget p).1 p := by
  simp only [sysSetEnergyBudget]
  split_ifs <;> exact ⟨rfl,rfl⟩

theorem find_identity (pid : ℤ) (is : List Slot) (t : Table) (j : Slot) :
    SameIdentity ((findInfo pid is t).2 j) (t j) := by
  induction is with
  | nil => exact ⟨rfl,rfl⟩
  | cons i is ih =>
    simp only [findInfo]
    split_ifs
    · dsimp only
      by_cases hji : j = i
      · subst hji
        rw [setProc_same]
        exact score_identity _
      · rw [setProc_ne _ _ hji]
        exact ⟨rfl,rfl⟩
    · exact ih

/-- The tables of a run: every process has its own pid, free slots have none,
and a slot that a fork is filling is USED. -/
structure Reached (s : Sys) : Prop where
  pids : Pids s.table s.nextpid
  forks : Forks s

theorem reached_energy {s : Sys} (h : Reached s) (t : Table)
    (hsame : ∀ j, SameIdentity (t j) (s.table j)) : Reached { s with table := t } := by
  refine ⟨⟨h.pids.pos,?_,?_,?_⟩,forks_frame h.forks ?_ (fun _ _ hc => hc)⟩
  · intro i hi
    rw [(hsame i).pid]
    exact h.pids.free i ((hsame i).state ▸ hi)
  · intro i hi
    rw [(hsame i).pid]
    exact h.pids.live i ((hsame i).state ▸ hi)
  · intro i j hi hj hij
    rw [(hsame i).pid, (hsame j).pid] at hij
    exact h.pids.unique i j ((hsame i).state ▸ hi) ((hsame j).state ▸ hj) hij
  · intro j hj
    exact (hsame j).state.trans hj

theorem reached_set {s : Sys} (h : Reached s) (i : Slot) (x : Proc)
    (hx : SameIdentity x (s.table i)) : Reached (setSlot s i x) := by
  refine reached_energy h _ fun j => ?_
  by_cases hji : j = i
  · subst hji
    rw [setProc_same]
    exact hx
  · rw [setProc_ne _ _ hji]
    exact ⟨rfl,rfl⟩

theorem reached_step (e : Event) (s s' : Sys) (h : Reached s) (hleft : PidsLeft e s)
    (hs : step e s = some s') : Reached s' := by
  cases e with
  | life e => exact ⟨life_pids h.pids h.forks hleft hs,forks_move h.forks (step_move hs)⟩
  | clock p =>
    obtain ⟨_,rfl⟩ := whenRunning_eq hs
    exact reached_set h p _ (clock_identity _)
  | schedule i =>
    simp only [step, Option.ite_none_right_eq_some, Option.some.injEq] at hs
    exact hs.2 ▸ reached_set h i _ (priority_identity _)
  | setBudget p budget =>
    obtain ⟨_,_,rfl⟩ := call_eq hs
    exact reached_set h p _ (budget_identity _ _)
  | getInfo p pid =>
    obtain ⟨_,_,rfl⟩ := call_eq hs
    exact reached_energy h _ (find_identity pid _ s.table)

theorem reached_boot (trapframe pagetable cwd : ℕ) : Reached (boot trapframe pagetable cwd) := by
  have hzero : Pids (fun _ => zeroProc) 1 := by
    constructor <;> simp [zeroProc]
  exact ⟨pids_alloc hzero 0 _ rfl (by simp),by constructor <;> simp [boot, ProcSlots.Creates]⟩

theorem find_none (pid : ℤ) (is : List Slot) (t : Table) (h : ∀ i ∈ is, (t i).pid ≠ pid) :
    findInfo pid is t = (none,t) := by
  induction is with
  | nil => rfl
  | cons i is ih =>
    simp only [findInfo, h i (by simp), if_false]
    exact ih fun j hj => h j (by simp [hj])

theorem find_some (pid : ℤ) (t : Table) (i : Slot) (hi : (t i).pid = pid)
    (hfirst : ∀ j < i, (t j).pid ≠ pid) : findInfo pid (List.finRange nproc) t =
      (some (infoData (updateEnergyScore (t i))),setProc t i (updateEnergyScore (t i))) := by
  have hstop : ∀ is : List Slot, is.Pairwise (· < ·) → i ∈ is → findInfo pid is t =
      (some (infoData (updateEnergyScore (t i))),setProc t i (updateEnergyScore (t i))) := by
    intro is hsort hmem
    induction is with
    | nil => cases hmem
    | cons j is ih =>
      obtain ⟨hj,hrest⟩ := List.pairwise_cons.mp hsort
      rcases List.mem_cons.mp hmem with rfl | hin
      · simp [findInfo, hi]
      · simp only [findInfo, hfirst j (hj i hin), if_false]
        exact ih hrest hin
  exact hstop _ (List.pairwise_lt_finRange nproc) (List.mem_finRange i)

def Live (t : Table) (pid : ℤ) : Prop := ∃ i, (t i).state ≠ .unused ∧ (t i).pid = pid

structure Reports (pid : ℤ) (infoAddr : ℕ) (t : Table) (u : User) : Prop where
  found : (sysGetEnergyInfo pid infoAddr t u).1 = 0 ↔ Live t pid ∧ Writable u infoAddr 16
  data : (sysGetEnergyInfo pid infoAddr t u).1 = 0 → ∀ i, (t i).state ≠ .unused →
    (t i).pid = pid → (sysGetEnergyInfo pid infoAddr t u).2.2.byte =
      store u.byte infoAddr 16 (intBytes [(t i).cpuTicks,(t i).sleepCount,(t i).wakeCount,
        (updateEnergyScore (t i)).energyScore])
  failed : (sysGetEnergyInfo pid infoAddr t u).1 ≠ 0 →
    (sysGetEnergyInfo pid infoAddr t u).1 = -1
  unchanged : ¬Live t pid → (sysGetEnergyInfo pid infoAddr t u).2.1 = t

section
variable {pid : ℤ} {t : Table} {i : Slot}

theorem info_at (infoAddr : ℕ) (u : User) (hi : (t i).pid = pid)
    (hfirst : ∀ j < i, (t j).pid ≠ pid) :
    (sysGetEnergyInfo pid infoAddr t u).2.1 = setProc t i (updateEnergyScore (t i)) ∧
    ((Writable u infoAddr 16 ∧ (sysGetEnergyInfo pid infoAddr t u).1 = 0 ∧
      (sysGetEnergyInfo pid infoAddr t u).2.2.byte =
        store u.byte infoAddr 16 (intBytes (infoData (updateEnergyScore (t i))))) ∨
    (¬Writable u infoAddr 16 ∧ (sysGetEnergyInfo pid infoAddr t u).1 = -1)) := by
  simp only [sysGetEnergyInfo, find_some pid t i hi hfirst]
  rcases copyout_spec infoAddr 16 (intBytes (infoData (updateEnergyScore (t i)))) u with
    ⟨hw,hc⟩ | ⟨hw,hc⟩
  · simp [hw, hc]
  · simp [hw, hc]

theorem info_none (infoAddr : ℕ) (u : User) (h : ∀ i, (t i).pid ≠ pid) :
    sysGetEnergyInfo pid infoAddr t u = (-1,t,u) := by
  simp only [sysGetEnergyInfo, find_none pid _ t fun i _ => h i]

end

theorem first_slot {P : Slot → Prop} (h : ∃ i, P i) : ∃ i, P i ∧ ∀ j < i, ¬P j := by
  obtain ⟨i,hi⟩ := h
  induction i using WellFoundedLT.induction with
  | _ i ih =>
    by_cases hlow : ∃ j < i, P j
    · obtain ⟨j,hji,hj⟩ := hlow
      exact ih j hji hj
    · exact ⟨i,hi,fun j hj hp => hlow ⟨j,hj,hp⟩⟩

/-- The call with pid 0 finds no slot, or it fails in `copyout` and leaves the
first free slot as it was. -/
def ZeroHarmless (infoAddr : ℕ) (t : Table) (u : User) : Prop :=
  (∀ i, (t i).state ≠ .unused) ∨
  (¬Writable u infoAddr 16 ∧ ∃ i, (t i).state = .unused ∧ (∀ j < i, (t j).state ≠ .unused) ∧
    updateEnergyScore (t i) = t i)

section
variable {t : Table} {next : ℤ} (hP : Pids t next)
include hP

theorem not_live_zero : ¬Live t 0 := by
  rintro ⟨i,hi,hzero⟩
  have := (hP.live i hi).1
  omega

theorem reports_nonzero {pid : ℤ} (hpid : pid ≠ 0) (infoAddr : ℕ) (u : User) :
    Reports pid infoAddr t u := by
  have hlive : ∀ j, (t j).pid = pid → (t j).state ≠ .unused := by
    intro j hj hfree
    exact hpid (hj.symm.trans (hP.free j hfree))
  by_cases h : Live t pid
  · obtain ⟨i,hi,hip⟩ := h
    have hfirst : ∀ j < i, (t j).pid ≠ pid := by
      intro j hji hj
      exact absurd (hP.unique j i (hlive j hj) hi (hj.trans hip.symm)) (ne_of_lt hji)
    obtain ⟨_,hr⟩ := info_at infoAddr u hip hfirst
    refine ⟨?_,?_,?_,fun hno => absurd ⟨i,hi,hip⟩ hno⟩
    · rcases hr with ⟨hw,hr,_⟩ | ⟨hw,hr⟩
      · exact iff_of_true hr ⟨⟨i,hi,hip⟩,hw⟩
      · exact iff_of_false (by omega) (fun h => hw h.2)
    · intro hok j hj hjp
      obtain rfl := hP.unique j i hj hi (hjp.trans hip.symm)
      rcases hr with ⟨_,_,hd⟩ | ⟨_,hr⟩
      · rw [hd, score_updated]
        rfl
      · omega
    · intro hne
      rcases hr with ⟨_,hr,_⟩ | ⟨_,hr⟩
      · exact absurd hr hne
      · exact hr
  · have hnone := info_none infoAddr u (fun i hi => h ⟨i,hlive i hi,hi⟩)
    refine ⟨?_,?_,fun _ => by rw [hnone],fun _ => by rw [hnone]⟩
    · rw [hnone]
      exact iff_of_false (by simp) (fun hl => h hl.1)
    · rw [hnone]
      simp

theorem reports_zero (infoAddr : ℕ) (u : User) :
    Reports 0 infoAddr t u ↔ ZeroHarmless infoAddr t u := by
  have hno := not_live_zero hP
  by_cases hall : ∀ i, (t i).state ≠ .unused
  · have hnone : sysGetEnergyInfo 0 infoAddr t u = (-1,t,u) :=
      info_none infoAddr u (fun i hi => by have := (hP.live i (hall i)).1; omega)
    refine iff_of_true ⟨?_,?_,fun _ => by rw [hnone],fun _ => by rw [hnone]⟩ (.inl hall)
    · rw [hnone]
      exact iff_of_false (by simp) (fun h => hno h.1)
    · rw [hnone]
      simp
  · push Not at hall
    obtain ⟨i,hi,hlow⟩ := first_slot hall
    have hfirst : ∀ j < i, (t j).pid ≠ 0 := by
      intro j hj
      have := (hP.live j (hlow j hj)).1
      omega
    obtain ⟨htable,hr⟩ := info_at infoAddr u (hP.free i hi) hfirst
    rcases hr with ⟨hw,hr,_⟩ | ⟨hw,hr⟩
    · refine iff_of_false (fun h => hno (h.found.mp hr).1) ?_
      rintro (h | h)
      · exact h i hi
      · exact h.1 hw
    · constructor
      · intro h
        refine .inr ⟨hw,i,hi,hlow,?_⟩
        have := congrFun (htable.symm.trans (h.unchanged hno)) i
        rwa [setProc_same] at this
      · rintro (h | ⟨_,k,hk,hklow,hsame⟩)
        · exact absurd hi (h i)
        · have hki : k = i := by
            rcases lt_trichotomy k i with hlt | heq | hgt
            · exact absurd hk (hlow k hlt)
            · exact heq
            · exact absurd hi (hklow i hgt)
          subst hki
          refine ⟨iff_of_false (by omega) (fun h => hw h.2),fun h => by omega,fun _ => hr,?_⟩
          intro _
          rw [htable, hsame, setProc_self]

end

/-- In every run in which `nextpid` does not overflow, the call reports as it
should exactly when it is not given pid 0, or pid 0 is harmless. -/
theorem energy_info_reports (trapframe pagetable cwd : ℕ) (es : List Event) (s : Sys)
    (hleft : Meets step PidsLeft es (boot trapframe pagetable cwd))
    (hrun : run step es (boot trapframe pagetable cwd) = some s)
    (pid : ℤ) (infoAddr : ℕ) (u : User) :
    Reports pid infoAddr s.table u ↔ pid ≠ 0 ∨ ZeroHarmless infoAddr s.table u := by
  have hP : Pids s.table s.nextpid := (run_guarded step PidsLeft Reached
    (fun e s s' h₁ h₂ h₃ => reached_step e s s' h₁ h₂ h₃) es _ s
    (reached_boot trapframe pagetable cwd) hleft hrun).pids
  by_cases hpid : pid = 0
  · subst hpid
    simpa using reports_zero hP infoAddr u
  · exact iff_of_true (reports_nonzero hP hpid infoAddr u) (.inl hpid)

def roomy : User where
  writable := fun _ => true
  byte := fun _ => 0

theorem first_process_reported : Reports 1 4096 (boot 1 2 3).table roomy :=
  (energy_info_reports 1 2 3 [] (boot 1 2 3) trivial rfl 1 4096 roomy).mpr (.inl (by decide))

theorem roomy_writable : Writable roomy 4096 16 := by
  intro x _ hx
  exact ⟨by simp only [maxva]; omega,rfl⟩

/-- Right after boot no process has pid 0, yet the call with pid 0 succeeds:
it reports the free slot 1. -/
theorem zero_reported : (∀ i, ((boot 1 2 3).table i).state ≠ .unused →
      ((boot 1 2 3).table i).pid ≠ 0) ∧
    ((boot 1 2 3).table 1).state = .unused ∧
    (sysGetEnergyInfo 0 4096 (boot 1 2 3).table roomy).1 = 0 := by
  refine ⟨by decide,by decide,?_⟩
  have hpid : ((boot 1 2 3).table 1).pid = 0 := by decide
  obtain ⟨_,hr⟩ := info_at 4096 roomy hpid (by decide)
  rcases hr with ⟨_,hr,_⟩ | ⟨hw,_⟩
  · exact hr
  · exact absurd roomy_writable hw

end GreenOS.EnergyInfo
