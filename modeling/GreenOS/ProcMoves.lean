import GreenOS.ProcSlots

/-!
# What one step of the life cycle can do

Every step of the process machine is one of the moves below.
-/

namespace GreenOS.ProcMoves
open ProcTable ProcLifecycle ProcSlots

structure SameLife (x y : Proc) : Prop where
  state : x.state = y.state
  chan : x.chan = y.chan
  parent : x.parent = y.parent
  pid : x.pid = y.pid
  xstate : x.xstate = y.xstate
  sleepCount : x.sleepCount = y.sleepCount
  wakeCount : x.wakeCount = y.wakeCount

theorem SameLife.refl (x : Proc) : SameLife x x := ⟨rfl,rfl,rfl,rfl,rfl,rfl,rfl⟩

/-- Process `p` goes on from one point to another and writes nothing that
another process reads. -/
inductive Onward (s : Sys) (p : Slot) : Code → Code → Prop
  | user : Onward s p .user .user
  | fork : Onward s p .user (.forkScan 0)
  | wait (addr : ℕ) : Onward s p .user (.waitEnter addr)
  | kill (pid : ℤ) : Onward s p .user (.killScan pid 0)
  | wakeup (chan : Chan) : Onward s p .user (.wakeScan chan 0)
  | forkNext (i : ℕ) : Onward s p (.forkScan i) (.forkScan (i+1))
  | forkFull (i : ℕ) : Onward s p (.forkScan i) .user
  | close (status : ℤ) (fd : ℕ) : Onward s p (.exitClose status fd) (.exitClose status (fd+1))
  | closed (status : ℤ) (fd : ℕ) : Onward s p (.exitClose status fd) (.exitEnter status)
  | reparentNext (status : ℤ) (i : ℕ) (q : Slot) (hq : slot? i = some q)
      (hpar : (s.table q).parent ≠ some p) :
      Onward s p (.exitReparent status i) (.exitReparent status (i+1))
  | reparentDone (status : ℤ) (i : ℕ) (hi : slot? i = none) :
      Onward s p (.exitReparent status i) (.exitWakeParent status 0)
  | initDone (status : ℤ) (i j : ℕ) (hj : slot? j = none) :
      Onward s p (.exitWakeInit status i j) (.exitReparent status (i+1))
  | parentDone (status : ℤ) (j : ℕ) (hj : slot? j = none) :
      Onward s p (.exitWakeParent status j) (.exitZombie status)
  | waitNext (addr : ℕ) (havekids again : Bool) (i : ℕ) (q : Slot) (hq : slot? i = some q)
      (hkid : (s.table q).parent = some p → (s.table q).state ≠ .zombie) :
      Onward s p (.waitScan addr havekids i) (.waitScan addr again (i+1))
  | waitDone (addr : ℕ) (havekids : Bool) (i : ℕ) (hi : slot? i = none) :
      Onward s p (.waitScan addr havekids i) (.waitSleep addr)
  | killNext (pid : ℤ) (i : ℕ) : Onward s p (.killScan pid i) (.killScan pid (i+1))
  | killNone (pid : ℤ) (i : ℕ) : Onward s p (.killScan pid i) .user
  | wakeDone (chan : Chan) (i : ℕ) : Onward s p (.wakeScan chan i) .user

/-- The point at which a call takes `wait_lock`, and the one after it. -/
inductive Acquires : Code → Code → Prop
  | exit (status : ℤ) : Acquires (.exitEnter status) (.exitReparent status 0)
  | wait (addr : ℕ) : Acquires (.waitEnter addr) (.waitScan addr false 0)

/-- The point in a wakeup loop, the channel and slot it is about, and the
point after the visit. -/
inductive Waking (s : Sys) (p : Slot) : Code → Option Chan → ℕ → Code → Prop
  | wakeup (chan : Chan) (i : ℕ) :
      Waking s p (.wakeScan chan i) (some chan) i (.wakeScan chan (i+1))
  | init (status : ℤ) (i j : ℕ) : Waking s p (.exitWakeInit status i j)
      (some (.proc s.initproc)) j (.exitWakeInit status i (j+1))
  | parent (status : ℤ) (j : ℕ) : Waking s p (.exitWakeParent status j)
      ((s.table p).parent.map .proc) j (.exitWakeParent status (j+1))

inductive Act where
  | silent
  | birth (p np : Slot) (pid : ℤ)
  | exit (p : Slot) (status : ℤ)
  | reap (p q : Slot) (pid status : ℤ)
  | kill (p q : Slot)
  deriving DecidableEq

inductive Move (s : Sys) : Act → Sys → Prop
  | onward (p : Slot) (x : Proc) (b c : Code) (hp : (s.table p).state = .running)
      (hx : SameLife x (s.table p)) (hb : s.code p = b) (hc : Onward s p b c) :
      Move s .silent (setCode (setSlot s p x) p c)
  | exit (p : Slot) (status : ℤ) (hp : (s.table p).state = .running) (hc : s.code p = .user)
      (hinit : p ≠ s.initproc) : Move s (.exit p status) (setCode s p (.exitClose status 0))
  | dispatch (p : Slot) (hp : (s.table p).state = .runnable) : Move s .silent (switchTo s p)
  | yield (p : Slot) (hp : (s.table p).state = .running) (hlock : s.waitLock ≠ some p) :
      Move s .silent (setSlot s p { s.table p with state := .runnable })
  | sleep (p : Slot) (chan : Chan) (hp : (s.table p).state = .running)
      (hmay : maySleep (s.code p) = true) :
      Move s .silent (setCode (setSlot s p (sleepOn chan (s.table p))) p (.slept (s.code p)))
  | unclaim (p np : Slot) (x : Proc) (k : ℤ) (i : ℕ) (hp : (s.table p).state = .running)
      (hc : s.code p = .forkScan i) (hnp : (s.table np).state = .unused)
      (hx : x.state = .unused) (hpar : x.parent = none) :
      Move s .silent (setCode (setSlot { s with nextpid := k } np x) p .user)
  | claim (p np : Slot) (x : Proc) (pid k : ℤ) (i : ℕ) (hp : (s.table p).state = .running)
      (hc : s.code p = .forkScan i) (hnp : (s.table np).state = .unused)
      (hx : x.state = .used) (hpar : x.parent = (s.table np).parent)
      (hpid : x.pid = pid) (hsleep : x.sleepCount = 0) (hwake : x.wakeCount = 0) :
      Move s (.birth p np pid) (setCode (setCode (setSlot { s with nextpid := k } np x) np .user) p
        (.forkParent np))
  | adopt (p np : Slot) (hp : (s.table p).state = .running) (hc : s.code p = .forkParent np)
      (hlock : s.waitLock = none) : Move s .silent
        (setCode (setSlot s np { s.table np with parent := some p }) p (.forkStart np))
  | start (p np : Slot) (hp : (s.table p).state = .running) (hc : s.code p = .forkStart np) :
      Move s .silent (setCode (setSlot s np { s.table np with state := .runnable }) p .user)
  | acquire (p : Slot) (b c : Code) (hp : (s.table p).state = .running) (hb : s.code p = b)
      (hc : Acquires b c) (hlock : s.waitLock = none) :
      Move s .silent { setCode s p c with waitLock := some p }
  | reparent (p q : Slot) (status : ℤ) (i : ℕ) (hp : (s.table p).state = .running)
      (hc : s.code p = .exitReparent status i) (hq : slot? i = some q)
      (hpar : (s.table q).parent = some p) : Move s .silent
        (setCode (setSlot s q { s.table q with parent := some s.initproc }) p
          (.exitWakeInit status i 0))
  | interrupt (i : Slot) (chan : Chan) :
      Move s .silent (setSlot s i (wakeOne (some chan) (s.table i)))
  | wake (p q : Slot) (chan : Option Chan) (i : ℕ) (b c : Code)
      (hp : (s.table p).state = .running) (hb : s.code p = b) (hc : Waking s p b chan i c)
      (hq : slot? i = some q) : Move s .silent (setCode (wakeVisit s p chan q) p c)
  | zombie (p : Slot) (status : ℤ) (hp : (s.table p).state = .running)
      (hc : s.code p = .exitZombie status) : Move s .silent
        { setSlot s p { s.table p with xstate := status, state := .zombie } with waitLock := none }
  | giveUp (p : Slot) (addr : ℕ) (havekids : Bool) (i : ℕ) (hp : (s.table p).state = .running)
      (hc : s.code p = .waitScan addr havekids i) :
      Move s .silent { setCode s p .user with waitLock := none }
  | reap (p q : Slot) (addr : ℕ) (havekids : Bool) (i : ℕ) (hp : (s.table p).state = .running)
      (hc : s.code p = .waitScan addr havekids i) (hq : slot? i = some q)
      (hpar : (s.table q).parent = some p) (hz : (s.table q).state = .zombie) :
      Move s (.reap p q (s.table q).pid (s.table q).xstate)
        { setCode (setSlot s q (freeproc (s.table q))) p .user with waitLock := none }
  | doze (p : Slot) (addr : ℕ) (hp : (s.table p).state = .running)
      (hc : s.code p = .waitSleep addr) : Move s .silent
        { setCode (setSlot s p (sleepOn (.proc p) (s.table p))) p (.slept (.waitEnter addr)) with
          waitLock := none }
  | kill (p q : Slot) (pid : ℤ) (i : ℕ) (hp : (s.table p).state = .running)
      (hc : s.code p = .killScan pid i) (hq : slot? i = some q)
      (hpid : (s.table q).pid = pid) :
      Move s (.kill p q) (setCode (setSlot s q (killOne (s.table q))) p .user)

def forkAct (s : Sys) (p : Slot) (a : Answer) (i : ℕ) : Act :=
  match slot? i with
  | none => .silent
  | some np =>
    if (s.table np).state = .unused ∧ a.trapframe ≠ none ∧ a.pagetable ≠ none ∧
        a.copied = true then .birth p np s.nextpid
    else .silent

/-- A loop iteration of `kwait` that frees a child: it returns the pid, and
the status is what it copied out when the caller passed an address. -/
def waitAct (s : Sys) (p : Slot) (a : Answer) (addr i : ℕ) : Act :=
  match slot? i with
  | none => .silent
  | some q =>
    if (s.table q).parent = some p ∧ (s.table q).state = .zombie ∧
        ¬ (addr ≠ 0 ∧ a.copied = false) then .reap p q (s.table q).pid (s.table q).xstate
    else .silent

def killAct (s : Sys) (p : Slot) (pid : ℤ) (i : ℕ) : Act :=
  match slot? i with
  | none => .silent
  | some q => if (s.table q).pid = pid then .kill p q else .silent

def act (e : Event) (s : Sys) : Act :=
  match e with
  | .exit p status => .exit p status
  | .advance p a =>
    match s.code p with
    | .forkScan i => forkAct s p a i
    | .waitScan addr _ i => waitAct s p a addr i
    | .killScan pid i => killAct s p pid i
    | _ => .silent
  | _ => .silent

theorem whenRunning_eq {s t s' : Sys} {p : Slot} (h : whenRunning s p t = some s') :
    (s.table p).state = .running ∧ s' = t := by
  unfold whenRunning at h
  split_ifs at h with hp
  exact ⟨hp,(Option.some.inj h).symm⟩

theorem call_eq {s t s' : Sys} {p : Slot} (h : call s p t = some s') :
    s.code p = .user ∧ (s.table p).state = .running ∧ s' = t := by
  unfold call at h
  split_ifs at h with hc
  exact ⟨hc,whenRunning_eq h⟩

section
variable {s : Sys} {p : Slot} (hp : (s.table p).state = .running)
include hp

theorem move_onward {b c : Code} (hb : s.code p = b) (hc : Onward s p b c) :
    Move s .silent (setCode s p c) := by
  have h := Move.onward p (s.table p) b c hp (SameLife.refl _) hb hc
  rwa [setSlot, setProc_self] at h

theorem move_own (x : Proc) (hx : SameLife x (s.table p)) (hc : s.code p = .user) :
    Move s .silent (setSlot s p x) := by
  have h := Move.onward p x _ _ hp hx hc .user
  rwa [setCode, show Function.update (setSlot s p x).code p .user = s.code by
    rw [← hc]; exact Function.update_eq_self p s.code] at h

theorem move_fork (a : Answer) (i : ℕ) (hc : s.code p = .forkScan i) :
    Move s (forkAct s p a i) (forkStep s p a i) := by
  unfold forkAct forkStep
  cases hq : slot? i with
  | none => exact move_onward hp hc (.forkFull i)
  | some np =>
    by_cases hnp : (s.table np).state = .unused
    · cases htf : a.trapframe with
      | none =>
        simp [hnp, allocproc]
        exact .unclaim p np _ _ i hp hc hnp rfl rfl
      | some tf =>
        cases hpt : a.pagetable with
        | none =>
          simp [hnp, allocproc]
          exact .unclaim p np _ _ i hp hc hnp rfl rfl
        | some pt =>
          cases hcopy : a.copied with
          | false =>
            simp [hnp, allocproc, forkCopy]
            exact .unclaim p np _ _ i hp hc hnp rfl rfl
          | true =>
            simp [hnp, allocproc, forkCopy]
            refine .claim p np _ _ _ i hp hc hnp ?_ ?_ ?_ ?_ ?_ <;> rfl
    · simp only [hnp, false_and, if_false]
      exact move_onward hp hc (.forkNext i)

theorem move_close (status : ℤ) (fd : ℕ) (hc : s.code p = .exitClose status fd) :
    Move s .silent (closeStep s p status fd) := by
  unfold closeStep
  split_ifs
  · exact .onward p _ _ _ hp ⟨rfl,rfl,rfl,rfl,rfl,rfl,rfl⟩ hc (.close status fd)
  · exact .onward p _ _ _ hp ⟨rfl,rfl,rfl,rfl,rfl,rfl,rfl⟩ hc (.closed status fd)

theorem move_reparent (status : ℤ) (i : ℕ) (hc : s.code p = .exitReparent status i) :
    Move s .silent (reparentStep s p status i) := by
  unfold reparentStep
  split
  · rename_i hi
    exact move_onward hp hc (.reparentDone status i hi)
  · rename_i q hq
    split_ifs with hpar
    · exact .reparent p q status i hp hc hq hpar
    · exact move_onward hp hc (.reparentNext status i q hq hpar)

theorem move_wake {chan : Option Chan} {i : ℕ} {b again done : Code} (hb : s.code p = b)
    (hagain : Waking s p b chan i again) (hdone : slot? i = none → Onward s p b done) :
    Move s .silent (wakeStep s p chan i again done) := by
  unfold wakeStep
  split
  · rename_i hi
    exact move_onward hp hb (hdone hi)
  · rename_i q hq
    exact .wake p q chan i b again hp hb hagain hq

theorem move_wait (a : Answer) (addr : ℕ) (havekids : Bool) (i : ℕ)
    (hc : s.code p = .waitScan addr havekids i) :
    Move s (waitAct s p a addr i) (waitStep s p a addr havekids i) := by
  unfold waitAct waitStep
  cases hq : slot? i with
  | none =>
    dsimp only
    split_ifs
    · exact .giveUp p addr havekids i hp hc
    · exact move_onward hp hc (.waitDone addr havekids i hq)
  | some q =>
    by_cases hpar : (s.table q).parent = some p
    · by_cases hz : (s.table q).state = .zombie
      · by_cases hcopy : addr ≠ 0 ∧ a.copied = false
        · simp only [hpar, hz, if_true, true_and]
          rw [if_pos hcopy, if_neg (not_not_intro hcopy)]
          exact .giveUp p addr havekids i hp hc
        · simp only [hpar, hz, if_true, true_and]
          rw [if_neg hcopy, if_pos hcopy]
          exact .reap p q addr havekids i hp hc hq hpar hz
      · simp only [hpar, hz, if_true, if_false, false_and, and_false]
        exact move_onward hp hc (.waitNext addr havekids true i q hq (fun _ => hz))
    · simp only [hpar, if_false, false_and]
      exact move_onward hp hc (.waitNext addr havekids havekids i q hq
        (fun h => absurd h hpar))

theorem move_kill (pid : ℤ) (i : ℕ) (hc : s.code p = .killScan pid i) :
    Move s (killAct s p pid i) (killStep s p pid i) := by
  unfold killAct killStep
  cases hq : slot? i with
  | none => exact move_onward hp hc (.killNone pid i)
  | some q =>
    dsimp only
    split_ifs with hpid
    · exact .kill p q pid i hp hc hq hpid
    · exact move_onward hp hc (.killNext pid i)

theorem move_advance {a : Answer} {s' : Sys} (h : advance s p a = some s') :
    Move s (act (.advance p a) s) s' := by
  unfold advance at h
  simp only [act]
  cases hc : s.code p with
  | user => simp [hc] at h
  | forkScan i =>
    simp only [hc, Option.some.injEq] at h ⊢
    exact h ▸ move_fork hp a i hc
  | forkParent np =>
    simp only [hc, Option.ite_none_right_eq_some, Option.some.injEq] at h ⊢
    exact h.2 ▸ .adopt p np hp hc h.1
  | forkStart np =>
    simp only [hc, Option.some.injEq] at h ⊢
    exact h ▸ .start p np hp hc
  | exitClose status fd =>
    simp only [hc, Option.some.injEq] at h ⊢
    exact h ▸ move_close hp status fd hc
  | exitEnter status =>
    simp only [hc, Option.ite_none_right_eq_some, Option.some.injEq] at h ⊢
    exact h.2 ▸ .acquire p _ _ hp hc (.exit status) h.1
  | exitReparent status i =>
    simp only [hc, Option.some.injEq] at h ⊢
    exact h ▸ move_reparent hp status i hc
  | exitWakeInit status i j =>
    simp only [hc, Option.some.injEq] at h ⊢
    exact h ▸ move_wake hp hc (.init status i j) (fun hj => .initDone status i j hj)
  | exitWakeParent status j =>
    simp only [hc, Option.some.injEq] at h ⊢
    exact h ▸ move_wake hp hc (.parent status j) (fun hj => .parentDone status j hj)
  | exitZombie status =>
    simp only [hc, Option.some.injEq] at h ⊢
    exact h ▸ .zombie p status hp hc
  | waitEnter addr =>
    simp only [hc, Option.ite_none_right_eq_some, Option.some.injEq] at h ⊢
    exact h.2 ▸ .acquire p _ _ hp hc (.wait addr) h.1
  | waitScan addr havekids i =>
    simp only [hc, Option.some.injEq] at h ⊢
    exact h ▸ move_wait hp a addr havekids i hc
  | waitSleep addr =>
    simp only [hc, Option.some.injEq] at h ⊢
    exact h ▸ .doze p addr hp hc
  | killScan pid i =>
    simp only [hc, Option.some.injEq] at h ⊢
    exact h ▸ move_kill hp pid i hc
  | wakeScan chan i =>
    simp only [hc, Option.some.injEq] at h ⊢
    exact h ▸ move_wake hp hc (.wakeup chan i) (fun _ => .wakeDone chan i)
  | slept resume => simp [hc] at h

end

theorem step_move {e : Event} {s s' : Sys} (h : step e s = some s') : Move s (act e s) s' := by
  cases e with
  | dispatch p =>
    simp only [step, Option.ite_none_right_eq_some, Option.some.injEq] at h
    exact h.2 ▸ .dispatch p h.1
  | yield p =>
    simp only [step, Option.ite_none_left_eq_some] at h
    obtain ⟨hp,rfl⟩ := whenRunning_eq h.2
    exact .yield p hp h.1
  | fork p =>
    obtain ⟨hc,hp,rfl⟩ := call_eq h
    exact move_onward hp hc (.fork)
  | exit p status =>
    simp only [step, Option.ite_none_left_eq_some] at h
    obtain ⟨hc,hp,rfl⟩ := call_eq h.2
    exact .exit p status hp hc h.1
  | wait p addr =>
    obtain ⟨hc,hp,rfl⟩ := call_eq h
    exact move_onward hp hc (.wait addr)
  | kill p pid =>
    obtain ⟨hc,hp,rfl⟩ := call_eq h
    exact move_onward hp hc (.kill pid)
  | sleep p chan =>
    simp only [step, Option.ite_none_right_eq_some] at h
    obtain ⟨hp,rfl⟩ := whenRunning_eq h.2
    exact .sleep p chan hp h.1
  | wakeup p chan =>
    obtain ⟨hc,hp,rfl⟩ := call_eq h
    exact move_onward hp hc (.wakeup chan)
  | advance p a =>
    simp only [step, Option.bind_eq_some_iff] at h
    obtain ⟨t,ht,hrun⟩ := h
    obtain ⟨hp,rfl⟩ := whenRunning_eq hrun
    exact move_advance hp ht
  | interruptWakeup i chan =>
    simp only [step, Option.some.injEq] at h
    exact h ▸ .interrupt i chan
  | setkilled p =>
    obtain ⟨hc,hp,rfl⟩ := call_eq h
    exact move_own hp _ ⟨rfl,rfl,rfl,rfl,rfl,rfl,rfl⟩ hc
  | setFile p fd file =>
    obtain ⟨hc,hp,rfl⟩ := call_eq h
    exact move_own hp _ ⟨rfl,rfl,rfl,rfl,rfl,rfl,rfl⟩ hc
  | setMemory p pagetable sz =>
    obtain ⟨hc,hp,rfl⟩ := call_eq h
    exact move_own hp _ ⟨rfl,rfl,rfl,rfl,rfl,rfl,rfl⟩ hc
  | setCwd p inode =>
    obtain ⟨hc,hp,rfl⟩ := call_eq h
    exact move_own hp _ ⟨rfl,rfl,rfl,rfl,rfl,rfl,rfl⟩ hc

structure Forks (s : Sys) : Prop where
  used : ∀ p np, Creates (s.code p) np → (s.table np).state = .used
  alone : ∀ p q np, Creates (s.code p) np → Creates (s.code q) np → p = q

section
variable {s s' : Sys}

theorem forks_frame (hF : Forks s)
    (hstate : ∀ j, (s.table j).state = .used → (s'.table j).state = .used)
    (hcode : ∀ q np, Creates (s'.code q) np → Creates (s.code q) np) : Forks s' where
  used p np h := hstate np (hF.used p np (hcode p np h))
  alone p q np hp hq := hF.alone p q np (hcode p np hp) (hcode q np hq)

theorem used_setProc (i : Slot) (x : Proc) (hx : (s.table i).state = .used → x.state = .used)
    (j : Slot) (hj : (s.table j).state = .used) : (setProc s.table i x j).state = .used := by
  by_cases hji : j = i
  · subst hji
    rw [setProc_same]
    exact hx hj
  · rwa [setProc_ne _ _ hji]

theorem creates_update (p : Slot) (c : Code) (hc : ∀ np, Creates c np → Creates (s.code p) np)
    (q np : Slot) (h : Creates (Function.update s.code p c q) np) : Creates (s.code q) np := by
  by_cases hqp : q = p
  · subst hqp
    exact hc np (by simpa using h)
  · simpa [hqp] using h

theorem onward_plain {p : Slot} {b c : Code} (h : Onward s p b c) (np : Slot) :
    ¬ Creates c np := by
  cases h <;> simp [Creates]

theorem waking_plain {p : Slot} {b c : Code} {chan : Option Chan} {i : ℕ}
    (h : Waking s p b chan i c) (np : Slot) : ¬ Creates c np := by
  cases h <;> simp [Creates]

theorem wakeOne_used (chan : Option Chan) (x : Proc) (h : x.state = .used) :
    (wakeOne chan x).state = .used := by
  simp [wakeOne, h]

theorem wakeVisit_table (s : Sys) (p q : Slot) (chan : Option Chan) :
    (wakeVisit s p chan q).table =
      setProc s.table q (if q = p then s.table q else wakeOne chan (s.table q)) := by
  unfold wakeVisit
  split_ifs
  · rw [setProc_self]
  · rfl

theorem wakeVisit_code (s : Sys) (p q : Slot) (chan : Option Chan) :
    (wakeVisit s p chan q).code = s.code := by
  unfold wakeVisit
  split_ifs <;> rfl

theorem forks_move {a : Act} (hF : Forks s) (h : Move s a s') : Forks s' := by
  cases h with
  | onward p x b c hp hx hb hc =>
    refine forks_frame hF (used_setProc p x (by simp [hx.state])) ?_
    exact creates_update p c (fun np h => absurd h (onward_plain hc np))
  | exit p status hp hc hinit =>
    exact forks_frame hF (fun _ h => h) (creates_update p _ (by simp [Creates]))
  | dispatch p hp =>
    unfold switchTo
    cases hc : s.code p with
    | slept resume =>
      refine forks_frame hF (used_setProc p _ (by simp [hp])) (creates_update p _ ?_)
      simp [hc, Creates]
    | _ => exact forks_frame hF (used_setProc p _ (by simp [hp])) (fun _ _ h => h)
  | yield p hp hlock => exact forks_frame hF (used_setProc p _ (by simp [hp])) (fun _ _ h => h)
  | sleep p chan hp hmay =>
    exact forks_frame hF (used_setProc p _ (by simp [hp])) (creates_update p _ (fun _ h => h))
  | unclaim p np x k i hp hc hnp hx hpar =>
    exact forks_frame hF (used_setProc np x (by simp [hnp]))
      (creates_update p _ (by simp [Creates]))
  | claim p np x pid k i hp hc hnp hx hpar hpid hsleep hwake =>
    have hfree : ∀ r, ¬ Creates (s.code r) np := by
      intro r hr
      have := hF.used r np hr
      rw [hnp] at this
      cases this
    have hback : ∀ q j, q ≠ p →
        Creates ((setCode (setCode (setSlot { s with nextpid := k } np x) np .user) p
          (.forkParent np)).code q) j → Creates (s.code q) j := by
      intro q j hqp h
      by_cases hqn : q = np <;> simp_all [Creates]
    constructor
    · intro q j h
      by_cases hqp : q = p
      · subst hqp
        obtain rfl : np = j := by simpa [Creates] using h
        simpa using hx
      · exact used_setProc np x (by simp [hnp]) j (hF.used q j (hback q j hqp h))
    · intro q r j hq hr
      by_cases hqp : q = p <;> by_cases hrp : r = p
      · rw [hqp,hrp]
      · subst hqp
        obtain rfl : np = j := by simpa [Creates] using hq
        exact absurd (hback r np hrp hr) (hfree r)
      · subst hrp
        obtain rfl : np = j := by simpa [Creates] using hr
        exact absurd (hback q np hqp hq) (hfree q)
      · exact hF.alone q r j (hback q j hqp hq) (hback r j hrp hr)
  | adopt p np hp hc hlock =>
    exact forks_frame hF (used_setProc np _ id) (creates_update p _ (by simp [hc, Creates]))
  | start p np hp hc =>
    have hmine : Creates (s.code p) np := by simp [hc, Creates]
    have hback := creates_update (s := s) p .user (by simp [Creates])
    have hother : ∀ q j, Creates (Function.update s.code p .user q) j → j ≠ np := by
      rintro q j h rfl
      have hqp : q = p := hF.alone q p j (hback q j h) hmine
      subst hqp
      simp [Creates] at h
    refine ⟨?_,fun q r j hq hr => hF.alone q r j (hback q j hq) (hback r j hr)⟩
    intro q j h
    have := hF.used q j (hback q j h)
    simpa [hother q j h] using this
  | acquire p b c hp hb hc hlock =>
    refine forks_frame hF (fun _ h => h) (creates_update p _ ?_)
    cases hc <;> simp [Creates]
  | reparent p q status i hp hc hq hpar =>
    exact forks_frame hF (used_setProc q _ id) (creates_update p _ (by simp [Creates]))
  | interrupt i chan =>
    exact forks_frame hF (used_setProc i _ (wakeOne_used _ _)) (fun _ _ h => h)
  | wake p q chan i b c hp hb hc hq =>
    refine forks_frame hF ?_ ?_
    · rw [setCode_table, wakeVisit_table]
      refine used_setProc q _ ?_
      split_ifs
      · exact id
      · exact wakeOne_used _ _
    · rw [setCode_code, wakeVisit_code]
      exact creates_update p _ (fun np h => absurd h (waking_plain hc np))
  | zombie p status hp hc =>
    exact forks_frame hF (used_setProc p _ (by simp [hp])) (fun _ _ h => h)
  | giveUp p addr havekids i hp hc =>
    exact forks_frame hF (fun _ h => h) (creates_update p _ (by simp [Creates]))
  | reap p q addr havekids i hp hc hq hpar hz =>
    exact forks_frame hF (used_setProc q _ (by simp [hz])) (creates_update p _ (by simp [Creates]))
  | doze p addr hp hc =>
    exact forks_frame hF (used_setProc p _ (by simp [hp])) (creates_update p _ (by simp [Creates]))
  | kill p q pid i hp hc hq hpid =>
    refine forks_frame hF (used_setProc q _ ?_) (creates_update p _ (by simp [Creates]))
    intro h
    simp [killOne, h]

end

end GreenOS.ProcMoves
