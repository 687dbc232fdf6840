import GreenOS.LockOrder

/-!
# A CPU that runs alone

When no other CPU holds a lock that it needs, a CPU finishes a wakeup and a scan
of the table. So `init` is dispatched and can go to sleep, and an interrupt wakes
it.
-/

namespace GreenOS.KernelProgress
open ProcTable KernelCode KernelMachine
open ProcLifecycle (Answer)
open Function (update_comm update_eq_self update_idem update_of_ne update_self)

variable {κ : Type} [DecidableEq κ] {lk : ℕ → ℕ} {first c d : κ} {s s' s'' o o' : Sys κ}

def Reaches (lk : ℕ → ℕ) (first : κ) (s s' : Sys κ) : Prop :=
  ∃ es, StepRun.run (step lk first) es s = some s'

theorem reaches_refl (s : Sys κ) : Reaches lk first s s := ⟨[],rfl⟩

theorem reaches_trans (h : Reaches lk first s s') (h' : Reaches lk first s' s'') :
    Reaches lk first s s'' := by
  obtain ⟨es,hes⟩ := h
  obtain ⟨fs,hfs⟩ := h'
  refine ⟨es++fs,?_⟩
  rw [StepRun.run_append, hes]
  exact hfs

variable {e : Event κ} {x : Cmd} {l : Lock} {i : Slot} {p : P Jump}

theorem reaches_step (h : step lk first e s = some s') : Reaches lk first s s' :=
  ⟨[e],by rw [StepRun.run, h]; rfl⟩

/-- `o` with other code and trails. -/
def put (o : Sys κ) (code : Thread κ → P Jump) (trail : κ → List (Lock × Bool)) : Sys κ :=
  { o with code := code, trail := trail }

/-- The state `s` is `o` with `p` as the code that the CPU `c` executes, up to the trails. -/
def At (c : κ) (o : Sys κ) (p : P Jump) (s : Sys κ) : Prop :=
  o.halted = none ∧ ∃ trail, s = put o (Function.update o.code (active o c) p) trail

theorem at_code (h : At c o p s) : s.code (active s c) = p := by
  obtain ⟨-,trail,rfl⟩ := h
  exact update_self _ _ _

theorem at_next {k : Res x → P Jump} (h : At c o (.step x k) s) :
    LockOrder.next s c = some x := by
  rw [LockOrder.next, at_code h]

/-- The CPU `c` comes to execute `p` in the state `o`. -/
def Then (lk : ℕ → ℕ) (first c : κ) (s o : Sys κ) (p : P Jump) : Prop :=
  ∃ t, Reaches lk first s t ∧ At c o p t

theorem then_refl (h : At c o p s) : Then lk first c s o p := ⟨s,reaches_refl s,h⟩

theorem then_trans {o₁ : Sys κ} {q : P Jump} (h : Then lk first c s o₁ q)
    (h' : ∀ t, At c o₁ q t → Then lk first d t o p) : Then lk first d s o p := by
  obtain ⟨t,hreach,ht⟩ := h
  obtain ⟨u,hreach',hu⟩ := h' t ht
  exact ⟨u,reaches_trans hreach hreach',hu⟩

variable {k : Res x → P Jump} {r : Res x} (lk first)

theorem at_cmd (a : Answer) (h : At c o (.step x k) s)
    (ho : ∀ code trail, ∃ trail', handle c a x (put o code trail) = .ok (r,put o' code trail')) :
    ∃ trail, Reaches lk first s (put o' (Function.update o.code (active o c) (k r)) trail) := by
  have hcode := at_code h
  obtain ⟨hnone,trail,rfl⟩ := h
  obtain ⟨trail',hstep⟩ := ho (Function.update o.code (active o c) (.step x k)) trail
  refine ⟨trail',reaches_step (e := .run c a) ?_⟩
  have hhalted : (put o (Function.update o.code (active o c) (.step x k)) trail).halted = none :=
    hnone
  rw [step, if_pos hhalted]
  simp only [advance, hcode, hstep]
  have hidem := update_idem (a := active o c) (.step x k) (k r) o.code
  exact congrArg (fun code => some (put o' code trail')) hidem

theorem at_keep (a : Answer) (h : At c o (.step x k) s)
    (ho : ∀ code trail, ∃ trail', handle c a x (put o code trail) = .ok (r,put o' code trail'))
    (hhalted : o'.halted = o.halted) (hcode : o'.code = o.code) (hturn : o'.turn = o.turn) :
    Then lk first c s o' (k r) := by
  obtain ⟨trail,hreach⟩ := at_cmd lk first a h ho
  refine ⟨_,hreach,hhalted.trans h.1,trail,?_⟩
  have hactive : active o' c = active o c := by
    unfold active
    rw [hturn]
  rw [hcode, hactive]

def owning (o : Sys κ) (c : κ) (l : Lock) : Sys κ :=
  { o with
    owner := Function.update o.owner l (some c)
    noff := Function.update o.noff c (o.noff c+1) }

def dropping (o : Sys κ) (c : κ) (l : Lock) : Sys κ :=
  { o with
    owner := Function.update o.owner l none
    noff := Function.update o.noff c (o.noff c-1) }

theorem dropping_owning (hfree : o.owner l = none) : dropping (owning o c l) c l = o := by
  have howner : Function.update (Function.update o.owner l (some c)) l none = o.owner := by
    rw [update_idem, ← hfree, update_eq_self]
  simp [dropping, owning, howner]

theorem at_acquire (a : Answer) (h : At c o (do acquire l; p) s) (hfree : o.owner l = none) :
    Then lk first c s (owning o c l) p := by
  refine at_keep lk first (x := .acquire l) (r := ()) a h (fun code trail =>
    ⟨record (put o code trail) c l true,?_⟩) rfl rfl rfl
  change acquireStep _ _ _ = _
  rw [acquireStep, show (put o code trail).owner l = none from hfree]
  rfl

theorem at_release (a : Answer) (h : At c o (do release l; p) s) (hown : o.owner l = some c) :
    Then lk first c s (dropping o c l) p := by
  refine at_keep lk first (x := .release l) (r := ()) a h (fun code trail =>
    ⟨record (put o code trail) c l false,?_⟩) rfl rfl rfl
  exact if_pos hown

theorem at_note (a : Answer) {n : Note} (h : At c o (do note n; p) s) : Then lk first c s o p :=
  at_keep lk first a h (fun _ trail => ⟨trail,rfl⟩) rfl rfl rfl

theorem at_update (a : Answer) {u : Update} (h : At c o (do update i u; p) s) :
    Then lk first c s { o with table := setProc o.table i (u.apply (o.table i)) } p :=
  at_keep lk first a h (fun _ trail => ⟨trail,rfl⟩) rfl rfl rfl

theorem at_read (a : Answer) {f : Proc → P Jump} (h : At c o (do let x ← read i; f x) s) :
    Then lk first c s o (f (o.table i)) :=
  at_keep lk first a h (fun _ trail => ⟨trail,rfl⟩) rfl rfl rfl

theorem at_touch (a : Answer) (h : At c o (do acquire l; release l; p) s)
    (hfree : o.owner l = none) : Then lk first c s o p := by
  refine then_trans (at_acquire lk first a h hfree) fun t ht => ?_
  have hdrop := at_release lk first a ht (update_self _ _ _)
  rwa [dropping_owning hfree] at hdrop

theorem at_look (a : Answer) {f : Proc → P Jump}
    (h : At c o (do acquire (.proc i); let x ← read i; f x) s)
    (hf : f (o.table i) = (do release (.proc i); p)) (hfree : o.owner (.proc i) = none) :
    Then lk first c s o p := by
  refine then_trans (at_acquire lk first a h hfree) fun t ht => ?_
  refine then_trans (at_read lk first a ht) fun t ht => ?_
  rw [show f ((owning o c (.proc i)).table i) = _ from hf] at ht
  have hdrop := at_release lk first a ht (update_self _ _ _)
  rwa [dropping_owning hfree] at hdrop

theorem at_wakeSlot (a : Answer) {chan : Option Chan} (h : At c o (do wakeSlot chan i; p) s)
    (hsleeps : (o.table i).state = .sleeping ∧ (o.table i).chan = chan)
    (hfree : o.owner (.proc i) = none) :
    Then lk first c s
      { o with table := setProc o.table i ((Update.wake chan).apply (o.table i)) } p := by
  simp only [wakeSlot, bind_assoc] at h
  refine then_trans (at_acquire lk first a h hfree) fun t ht => ?_
  refine then_trans (at_read lk first a ht) fun t ht => ?_
  simp only [onlyIf, if_pos (show ((owning o c (.proc i)).table i).state = .sleeping ∧
    ((owning o c (.proc i)).table i).chan = chan from hsleeps)] at ht
  refine then_trans (at_update lk first a ht) fun t ht => ?_
  have hdrop := at_release lk first a ht (update_self _ _ _)
  rw [← dropping_owning (c := c) hfree]
  exact hdrop

theorem at_wakeFrom (a : Answer) {me : Option Slot} {chan : Option Chan} (is : List Slot)
    (hfree : ∀ i ∈ is, o.owner (.proc i) = none)
    (hawake : ∀ i ∈ is, (o.table i).state ≠ .sleeping)
    (h : At c o (do wakeFrom me chan is; p) s) : Then lk first c s o p := by
  induction is generalizing s with
  | nil => exact then_refl h
  | cons i is ih =>
    have hrest := fun s => @ih s (fun j hj => hfree j (List.mem_cons_of_mem _ hj))
      (fun j hj => hawake j (List.mem_cons_of_mem _ hj))
    by_cases hme : some i ≠ me
    · have hcode : (do wakeFrom me chan (i::is); p) = (do
          acquire (.proc i)
          let x ← read i
          onlyIf (x.state = .sleeping ∧ x.chan = chan) (update i (.wake chan))
          release (.proc i)
          wakeFrom me chan is
          p : P Jump) := by
        simp only [wakeFrom, wakeSlot, onlyIf, if_pos hme, bind_assoc]
      rw [hcode] at h
      refine then_trans (at_look lk first (p := do wakeFrom me chan is; p) a h ?_ ?_) hrest
      · simp [onlyIf, hawake i List.mem_cons_self]
      · exact hfree i List.mem_cons_self
    · have hcode : (do wakeFrom me chan (i::is); p) = (do wakeFrom me chan is; p : P Jump) := by
        simp only [wakeFrom, onlyIf, if_neg hme, pure_bind]
      rw [hcode] at h
      exact hrest s h

theorem at_scanFrom (a : Answer) {best : Option Slot} {prio : ℤ} {f : Option Slot → P Jump}
    (is : List Slot) (hfree : ∀ i ∈ is, o.owner (.proc i) = none)
    (hidle : ∀ i ∈ is, (o.table i).state ≠ .runnable)
    (h : At c o (do let b ← scanFrom is best prio; f b) s) : Then lk first c s o (f best) := by
  induction is generalizing s with
  | nil => exact then_refl h
  | cons i is ih =>
    rw [scanFrom] at h
    simp only [bind_assoc] at h
    refine then_trans (at_look lk first (p := do let b ← scanFrom is best prio; f b) a h ?_ ?_)
      fun t ht => ?_
    · simp only [if_neg (hidle i List.mem_cons_self), bind_assoc]
    · exact hfree i List.mem_cons_self
    · exact ih (fun j hj => hfree j (List.mem_cons_of_mem _ hj))
        (fun j hj => hidle j (List.mem_cons_of_mem _ hj)) ht

theorem put_switched {t u : Thread κ} (hne : u ≠ t) (hactive : active o' c = u)
    (hcode : o'.code = Function.update o.code t p) (trail : κ → List (Lock × Bool)) :
    put o' (Function.update o.code t p) trail =
      put o' (Function.update o'.code (active o' c) (o.code u)) trail := by
  rw [hactive, hcode, ← update_of_ne hne p o.code, update_eq_self]

def toProc (o : Sys κ) (c : κ) (b : Slot) (p : P Jump) : Sys κ :=
  { o with turn := Function.update o.turn c (some b), code := Function.update o.code (.hart c) p }

theorem at_swtch (a : Answer) {b : Slot} (h : At c o (do cmd (.swtch b); p) s)
    (hturn : o.turn c = none) :
    Then lk first c s (toProc o c b p) (o.code (.proc b)) := by
  have hdo : ∀ code trail, ∃ trail', handle c a (.swtch b) (put o code trail) =
      .ok ((),put (toProc o c b p) code trail') := fun _ trail => ⟨trail,rfl⟩
  obtain ⟨trail,hreach⟩ := at_cmd lk first a h hdo
  have hactive : active o c = .hart c := by rw [active, hturn]
  have hactive' : active (toProc o c b p) c = .proc b := by simp [active, toProc]
  rw [hactive] at hreach
  exact ⟨_,hreach,h.1,trail,put_switched (by simp) hactive' rfl trail⟩

def toHart (o : Sys κ) (c : κ) (i : Slot) (p : P Jump) : Sys κ :=
  { o with turn := Function.update o.turn c none, code := Function.update o.code (.proc i) p }

theorem at_sched (a : Answer) (h : At c o (do sched i; p) s) (hturn : o.turn c = some i)
    (hown : o.owner (.proc i) = some c) (hnoff : o.noff c = 1)
    (hstate : (o.table i).state ≠ .running) :
    Then lk first c s (toHart o c i p) (o.code (.hart c)) := by
  have hdo : ∀ code trail, ∃ trail', handle c a (.sched i) (put o code trail) =
      .ok ((),put (toHart o c i p) code trail') := by
    refine fun code trail => ⟨trail,?_⟩
    change schedStep (put o code trail) c i = _
    have hown' : (put o code trail).owner (.proc i) = some c := hown
    have hnoff' : (put o code trail).noff c = 1 := hnoff
    have hstate' : ((put o code trail).table i).state ≠ .running := hstate
    rw [schedStep, if_neg (not_not.mpr hown'), if_neg (not_not.mpr hnoff'), if_neg hstate']
    rfl
  obtain ⟨trail,hreach⟩ := at_cmd lk first a h hdo
  have hactive : active o c = .proc i := by rw [active, hturn]
  have hactive' : active (toHart o c i p) c = .hart c := by simp [active, toHart]
  rw [hactive] at hreach
  exact ⟨_,hreach,h.1,trail,put_switched (by simp) hactive' rfl trail⟩

theorem slots_cons : slots = initproc::slots.tail := by decide

theorem tail_init : i ∈ slots.tail → i ≠ initproc := by
  revert i
  decide

theorem start_slots (hi : i ∈ slots.tail) : (start : Sys κ).table i = zeroProc :=
  if_neg (tail_init hi)

/-- What the scheduler does when the process `b` returns to it. -/
def afterRun (b : Slot) : P Jump := do
  cmd .collect
  release (.proc b)
  pure .out

/-- The CPU `c` has selected `init`. -/
def selected (c : κ) : Sys κ :=
  let o := owning start c (.proc initproc)
  { o with table := setProc o.table initproc (Update.prioritise.apply (o.table initproc)) }

def dispatched (c : κ) : Sys κ :=
  let o := selected c
  { o with
    table := setProc o.table initproc { o.table initproc with state := .running }
    current := Function.update o.current c (some initproc) }

theorem init_dispatched (c : κ) (a : Answer) :
    Then lk first c start (dispatched c) (do
      acquire .idle
      release .idle
      cmd (.swtch initproc)
      afterRun initproc) := by
  have hround : step lk first (.round c) start = some (setCode start (.hart c) scheduler) := by
    simp [step, beginRound, start, setCode]
  have h₀ : Then lk first c start start scheduler := ⟨_,reaches_step hround,rfl,_,rfl⟩
  refine then_trans h₀ fun t ht => ?_
  rw [scheduler, slots_cons, scanFrom] at ht
  simp only [bind_assoc] at ht
  refine then_trans (at_acquire lk first a ht rfl) fun t ht => ?_
  refine then_trans (at_read lk first a ht) fun t ht => ?_
  refine then_trans (at_update lk first a ht) fun t ht => ?_
  have hfree : ∀ i ∈ slots.tail, (selected c).owner (.proc i) = none := fun i hi =>
    update_of_ne (by simpa using tail_init hi) _ _
  have hidle : ∀ i ∈ slots.tail, ((selected c).table i).state ≠ .runnable := by
    intro i hi h
    change (setProc (start : Sys κ).table initproc _ i).state = _ at h
    rw [setProc_ne _ _ (tail_init hi), start_slots hi] at h
    cases h
  refine then_trans (at_scanFrom lk first a slots.tail hfree hidle ht) fun t ht => ?_
  refine then_trans (at_note lk first a ht) fun t ht => ?_
  exact at_keep lk first (x := .dispatch initproc) (r := ()) a ht (fun _ trail => ⟨trail,rfl⟩)
    rfl rfl rfl

theorem dispatched_owner (c : κ) :
    (dispatched c).owner = Function.update (fun _ => none) (.proc initproc) (some c) := rfl

/-- `init` is in user space, and the scheduler waits for it. -/
def inUser (c : κ) : Sys κ :=
  dropping (toProc (dispatched c) c initproc (afterRun initproc)) c (.proc initproc)

theorem init_user (c : κ) (a : Answer) : Then lk first c start (inUser c) (pure .out) := by
  refine then_trans (init_dispatched lk first c a) fun t ht => ?_
  have hidle : (dispatched c).owner .idle = none := by simp [dispatched_owner]
  refine then_trans (at_touch lk first a ht hidle) fun t ht => ?_
  refine then_trans (at_swtch lk first a ht rfl) fun t ht => ?_
  refine at_release lk first a ht ?_
  change (dispatched c).owner (.proc initproc) = some c
  simp [dispatched_owner]

theorem inUser_owner (c : κ) : (inUser c).owner = fun _ => none := by
  change Function.update (dispatched c).owner (.proc initproc) none = _
  rw [dispatched_owner, update_idem]
  exact update_eq_self _ _

theorem inUser_noff (c : κ) : (inUser c).noff = fun _ => 0 := by
  have hone : (dispatched c).noff = Function.update (fun _ => 0) c 1 := rfl
  change Function.update (dispatched c).noff c ((dispatched c).noff c-1) = _
  rw [hone, update_idem, update_self]
  exact update_eq_self _ _

theorem inUser_turn (c : κ) : (inUser c).turn c = some initproc := update_self _ _ _

theorem inUser_hart (c : κ) : (inUser c).code (.hart c) = afterRun initproc :=
  update_self _ _ _

/-- A call of `init` that waits for the object `n`. -/
def waitFor (lk : ℕ → ℕ) (n : ℕ) : Call := .other [⟨lk n,[.sleep (.object n)]⟩]

/-- What is left of the call when `init` wakes up. -/
def afterSleep (lk : ℕ → ℕ) (n : ℕ) : P Jump := do
  update initproc .tidy
  release (.proc initproc)
  acquire (.cond (lk n))
  release (.cond (lk n))
  trapReturn initproc []

/-- `init` has its own lock, and not that of the object, when it goes to sleep. -/
def dozing (lk : ℕ → ℕ) (n : ℕ) (c : κ) : Sys κ :=
  dropping (owning (owning (inUser c) c (.cond (lk n))) c (.proc initproc)) c (.cond (lk n))

def sleeping (lk : ℕ → ℕ) (n : ℕ) (c : κ) : Sys κ :=
  let o := dozing lk n c
  let entry := (Update.sleepOn (.object n)).apply (o.table initproc)
  toHart { o with table := setProc o.table initproc entry } c initproc (afterSleep lk n)

theorem dozing_owner (n : ℕ) (c : κ) :
    (dozing lk n c).owner = Function.update (fun _ => none) (.proc initproc) (some c) := by
  change Function.update (Function.update (Function.update (inUser c).owner (.cond (lk n)) (some c))
    (.proc initproc) (some c)) (.cond (lk n)) none = _
  rw [inUser_owner, update_comm (by simp), update_idem]
  exact congrArg (fun f : Lock → Option κ => Function.update f (.proc initproc) (some c))
    (update_eq_self (Lock.cond (lk n)) fun _ => none)

theorem dozing_noff (n : ℕ) (c : κ) : (dozing lk n c).noff c = 1 := by
  simp [dozing, dropping, owning, inUser_noff]

theorem init_sleeps (n : ℕ) (c : κ) (a : Answer) (h : At c (inUser c) (pure .out) s) :
    Then lk first c s (sleeping lk n c) (afterRun initproc) := by
  have henter : Then lk first c s (inUser c) (usertrap initproc [] (waitFor lk n)) := by
    obtain ⟨hnone,trail,rfl⟩ := h
    have hactive : active (inUser c) c = .proc initproc := by rw [active, inUser_turn]
    refine ⟨_,reaches_step (e := .call c [] (waitFor lk n)) ?_,hnone,trail,rfl⟩
    have hfits : Call.Fits lk (waitFor lk n) := by
      simp [waitFor, Call.Fits, Section.Fits, Act.fits, lockOf]
    simp [step, enter, put, hnone, inUser_turn, hactive, hfits, setCode]
    rfl
  refine then_trans henter fun t ht => ?_
  simp only [usertrap, killed, bind_assoc] at ht
  refine then_trans (at_look lk first a ht rfl (congrFun (inUser_owner c) _)) fun t ht => ?_
  replace ht : At c (inUser c) (do
      acquire (.cond (lk n))
      note (.sleepCalled (.object n))
      acquire (.proc initproc)
      release (.cond (lk n))
      update initproc (.sleepOn (.object n))
      sched initproc
      afterSleep lk n) t := ht
  refine then_trans (at_acquire lk first a ht ?_) fun t ht => ?_
  · exact congrFun (inUser_owner c) _
  refine then_trans (at_note lk first a ht) fun t ht => ?_
  refine then_trans (at_acquire lk first a ht ?_) fun t ht => ?_
  · simp [owning, inUser_owner]
  refine then_trans (at_release lk first a ht ?_) fun t ht => ?_
  · simp [owning]
  refine then_trans (at_update lk first a ht) fun t ht => ?_
  rw [← inUser_hart c]
  refine at_sched lk first a ht (inUser_turn c) ?_ (dozing_noff lk n c) ?_
  · exact (congrFun (dozing_owner lk n c) _).trans (update_self _ _ _)
  · simp [Update.apply, ProcTable.sleepOn]

/-- The CPU `c` has left `init` asleep. -/
def idle (lk : ℕ → ℕ) (n : ℕ) (c : κ) : Sys κ :=
  let o := sleeping lk n c
  dropping { o with current := Function.update o.current c none } c (.proc initproc)

theorem scheduler_leaves (n : ℕ) (c : κ) (a : Answer)
    (h : At c (sleeping lk n c) (afterRun initproc) s) :
    Then lk first c s (idle lk n c) (pure .out) := by
  let o := sleeping lk n c
  let o' := { o with current := Function.update o.current c none }
  have hdo : ∀ code trail, ∃ trail', handle c a .collect (put o code trail) =
      .ok ((),put o' code trail') := fun _ trail => ⟨trail,rfl⟩
  refine then_trans (at_keep lk first a h hdo rfl rfl rfl) fun t ht => ?_
  refine at_release lk first a ht ?_
  exact (congrFun (dozing_owner lk n c) _).trans (update_self _ _ _)

theorem idle_owner (n : ℕ) (c : κ) : (idle lk n c).owner = fun _ => none := by
  change Function.update (dozing lk n c).owner (.proc initproc) none = _
  rw [dozing_owner, update_idem]
  exact update_eq_self _ _

theorem idle_init (n : ℕ) (c : κ) : ((idle lk n c).table initproc).state = .sleeping ∧
    ((idle lk n c).table initproc).chan = some (.object n) := by
  simp [idle, dropping, sleeping, toHart, setProc_same, Update.apply, ProcTable.sleepOn]

theorem idle_others (n : ℕ) (c : κ) (hi : i ∈ slots.tail) :
    (idle lk n c).table i = zeroProc := by
  change setProc (setProc (setProc (start : Sys κ).table initproc _) initproc _) initproc _ i = _
  have hne := tail_init hi
  rw [setProc_ne _ _ hne, setProc_ne _ _ hne, setProc_ne _ _ hne, start_slots hi]

theorem wakeup_returns (n : ℕ) (hd : d ≠ c) (a : Answer) (h : At c (idle lk n c) (pure .out) s) :
    ∃ t, Reaches lk first s t ∧ (t.table initproc).state = .runnable ∧
      LockOrder.next t d = some (.note (.wakeupReturned (some (.object n)))) := by
  let o := setCode (idle lk n c) (.hart c) (pure .out)
  have htrap : Then lk first d s o (do
      acquire (.cond (lk n))
      note (.wakeupCalled (some (.object n)))
      wakeFrom none (some (.object n)) slots
      note (.wakeupReturned (some (.object n)))
      release (.cond (lk n))
      pure .out) := by
    obtain ⟨hnone,trail,rfl⟩ := h
    have hturn : (idle lk n c).turn = fun _ => none := by
      change Function.update (Function.update (fun _ => none) c _) c none = _
      rw [update_idem]
      exact update_eq_self _ _
    have hnoff : (idle lk n c).noff d = 0 := by
      change Function.update _ c _ d = _
      simp [dozing, dropping, owning, inUser_noff, hd, sleeping, toHart]
    have hcode : (idle lk n c).code (.hart d) = pure .out := by
      change Function.update (Function.update (start : Sys κ).code (.hart c) (afterRun initproc))
        (.proc initproc) (afterSleep lk n) (.hart d) = _
      rw [update_of_ne (by simp), update_of_ne (by simpa using hd)]
      rfl
    refine ⟨_,reaches_step (e := .interrupt d [] (.device (.object n))) ?_,hnone,trail,rfl⟩
    simp [step, trap, put, o, setCode, active, hnone, hturn, hnoff, hcode, hd, kerneltrap, devintr,
      signal, wakeup, yieldAfter, lockOf]
    rfl
  have hall : ∀ l, o.owner l = none := congrFun (idle_owner lk n c)
  let o₁ := owning o d (.cond (lk n))
  have hproc : ∀ i, o₁.owner (.proc i) = none := by
    intro i
    change Function.update o.owner (.cond (lk n)) (some d) (.proc i) = none
    rw [update_of_ne (by simp), hall]
  let entry := (Update.wake (some (.object n))).apply (o₁.table initproc)
  have hwake : Then lk first d s { o₁ with table := setProc o₁.table initproc entry } (do
      note (.wakeupReturned (some (.object n)))
      release (.cond (lk n))
      pure .out) := by
    refine then_trans htrap fun t ht => ?_
    refine then_trans (at_acquire lk first a ht (hall _)) fun t ht => ?_
    refine then_trans (at_note lk first a ht) fun t ht => ?_
    rw [slots_cons, wakeFrom, onlyIf, if_pos (by simp), bind_assoc] at ht
    refine then_trans (at_wakeSlot lk first a ht (idle_init lk n c) (hproc _)) fun t ht => ?_
    refine at_wakeFrom lk first a slots.tail (fun i _ => hproc i) (fun i hi h => ?_) ht
    change (setProc (idle lk n c).table initproc _ i).state = _ at h
    rw [setProc_ne _ _ (tail_init hi), idle_others lk n c hi] at h
    cases h
  obtain ⟨t,hreach,ht⟩ := hwake
  refine ⟨t,hreach,?_,at_next ht⟩
  obtain ⟨-,trail,rfl⟩ := ht
  change (setProc o₁.table initproc entry initproc).state = _
  rw [setProc_same]
  rfl

end GreenOS.KernelProgress
