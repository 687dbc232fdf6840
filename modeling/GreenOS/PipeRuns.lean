import GreenOS.PipeWakeups

/-!
# No reader asleep beside data

In every run in which no killed writer returns past sleeping readers with bytes
it has not announced, a sleeper of a pipe whose lock is free has its reason.
-/

namespace GreenOS.PipeRuns
open StepRun ProcTable PipeMachine PipeSleepers
open PipeWakeups

/-- The next step of process `p` is the return of a killed writer that has
stored bytes since it last woke the readers, while a reader waits. -/
def Abandons (s : Sys) (p : Slot) : Prop :=
  match s.point p with
  | .writeLoop _ n i quiet =>
    (i : ℤ) < n ∧ (s.table p).killed ≠ 0 ∧ 0 < quiet ∧ ∃ q, Waits s (nreadChan s.base) q
  | _ => False

def Announces : Event → Sys → Prop
  | .advance p _, s => ¬ Abandons s p
  | _, _ => True

instance (s : Sys) (p : Slot) : Decidable (Abandons s p) := by
  unfold Abandons
  split <;> infer_instance

instance (e : Event) (s : Sys) : Decidable (Announces e s) := by
  cases e <;> unfold Announces <;> infer_instance

variable {s s' : Sys} {p : Slot}

theorem inv_acquire_step (hI : Inv s) (hp : (s.table p).state = .running) {c : Point}
    (h : acquire s p c = some s') (hc : holds c = true) (hknows : Knows c s.pipe) : Inv s' := by
  unfold acquire at h
  split_ifs at h with hlock
  obtain rfl := Option.some.inj h
  exact inv_acquire hI hlock hp c s.pipe hc (fun _ => Or.inl) (fun _ => Or.inl) hknows

theorem inv_close (hI : Inv s) (hlock : s.lock = none) (hp : (s.table p).state = .running)
    (writable : Bool) :
    Inv { setPoint s p (.closeWake writable 0) with
      lock := some p, pipe := closeFlag s.pipe writable } := by
  cases writable with
  | true =>
    exact inv_acquire hI hlock hp (.closeWake true 0) (closeFlag s.pipe true) rfl
      (fun _ _ => Or.inr (Nat.zero_le _)) (fun _ h => Or.inl ⟨h.1,h.2⟩) trivial
  | false =>
    exact inv_acquire hI hlock hp (.closeWake false 0) (closeFlag s.pipe false) rfl
      (fun _ h => Or.inl ⟨h.1,h.2⟩) (fun _ _ => Or.inr (Nat.zero_le _)) trivial

theorem inv_closeEnd (h : Inv (leave s p 0)) : Inv (closeEnd s p) := by
  unfold closeEnd
  split_ifs
  · exact ⟨h.lock,h.running,h.readers,h.writers,h.knows⟩
  · exact h

theorem inv_sleep (hI : Inv s) {chan : Chan} {resume : Point}
    (hpt : s.point p = .dozing chan resume) :
    Inv (setPoint (setEntry s p (sleepOn chan (s.table p))) p (.asleep resume)) := by
  have hk : enters resume = true := by simpa [hpt, Knows] using hI.knows p
  refine inv_outside (p := p) hI _ (sleepOn chan (s.table p)) (.asleep resume)
    (by simp [hpt, holds]) rfl rfl rfl rfl rfl rfl (by simp [ownLock]) ?_ hk
  intro c _ hc
  refine Or.inr ?_
  simpa [hpt, dozesOn, sleepOn] using hc

theorem inv_advance {mem : UserMem} (hI : Inv s) (hp : (s.table p).state = .running)
    (hok : ¬ Abandons s p) (h : advance s p mem = some s') : Inv s' := by
  have hlock : holds (s.point p) = true → s.lock = some p := (hI.lock p).mp
  have hk := hI.knows p
  cases hpt : s.point p with
  | user => simp [advance, hpt] at h
  | writeEnter addr n i =>
    simp only [advance, hpt] at h
    exact inv_acquire_step hI hp h rfl (by simp [Knows])
  | writeLoop addr n i quiet =>
    refine inv_writeLoop hI (hlock (by simp [hpt, holds])) mem hpt ?_ h
    intro hi hkilled hquiet q hq
    exact hok (by simpa [Abandons, hpt, hi, hkilled, hquiet] using ⟨q,hq⟩)
  | writeBody addr n i quiet =>
    simp only [advance, hpt, Option.some.injEq] at h
    exact h ▸ inv_writeBody hI (hlock (by simp [hpt, holds])) mem hpt
  | writeFull addr n i j =>
    have hheld := hlock (by simp [hpt, holds])
    rw [hpt] at hk
    simp only [advance, hpt] at h
    refine inv_wakeLoop hI hheld (.writeFull addr n i) h ?_ hpt rfl
      (Or.inl ⟨rfl,fun _ _ => Iff.rfl⟩) (Or.inr (fun _ h => h)) hk
    intro hall
    refine inv_setPoint hI hheld _ rfl ?_ (by simp [hpt, WakesWriter]) hk
    intro q _ hq
    rw [hpt] at hq
    exact absurd (hall q) (not_lt.mpr hq)
  | writeSleep addr n i =>
    rw [hpt] at hk
    simp only [advance, hpt, Option.some.injEq] at h
    exact h ▸ inv_doze hI (hlock (by simp [hpt, holds])) _ _ rfl
      (fun hc => absurd hc (chans_ne s.base).symm) (fun _ => hk)
      (by simp [hpt, WakesReader]) (by simp [hpt, WakesWriter])
  | writeDone i j =>
    have hheld := hlock (by simp [hpt, holds])
    simp only [advance, hpt] at h
    refine inv_wakeLoop hI hheld (.writeDone i) h ?_ hpt rfl
      (Or.inl ⟨rfl,fun _ _ => Iff.rfl⟩) (Or.inr (fun _ h => h)) trivial
    intro hall
    refine inv_leave hI hheld _ ?_ (by simp [hpt, WakesWriter])
    intro q _ hq
    rw [hpt] at hq
    exact absurd (hall q) (not_lt.mpr hq)
  | readEnter addr n =>
    simp only [advance, hpt] at h
    exact inv_acquire_step hI hp h rfl trivial
  | readTest addr n => exact inv_readTest hI (hlock (by simp [hpt, holds])) mem hpt h
  | readSleep addr n =>
    rw [hpt] at hk
    simp only [advance, hpt, Option.some.injEq] at h
    exact h ▸ inv_doze hI (hlock (by simp [hpt, holds])) _ _ rfl
      (fun _ => hk) (fun hc => absurd hc (chans_ne s.base))
      (by simp [hpt, WakesReader]) (by simp [hpt, WakesWriter])
  | readCopy addr n i =>
    simp only [advance, hpt, Option.some.injEq] at h
    exact h ▸ inv_readCopy hI (hlock (by simp [hpt, holds])) mem hpt
  | readDone result j =>
    have hheld := hlock (by simp [hpt, holds])
    simp only [advance, hpt] at h
    refine inv_wakeLoop hI hheld (.readDone result) h ?_ hpt rfl
      (Or.inr (fun _ h => h)) (Or.inl ⟨rfl,fun _ _ => Iff.rfl⟩) trivial
    intro hall
    refine inv_leave hI hheld _ (by simp [hpt, WakesReader]) ?_
    intro q _ hq
    rw [hpt] at hq
    exact absurd (hall q) (not_lt.mpr hq)
  | closeEnter writable =>
    simp only [advance, hpt, acquire, Option.map_eq_some_iff] at h
    obtain ⟨t,ht,rfl⟩ := h
    split_ifs at ht with hfree
    obtain rfl := Option.some.inj ht
    exact inv_close hI hfree hp writable
  | closeWake writable j =>
    have hheld := hlock (by simp [hpt, holds])
    simp only [advance, hpt] at h
    cases writable with
    | true =>
      refine inv_wakeLoop hI hheld (.closeWake true) h ?_ hpt rfl
        (Or.inl ⟨rfl,fun _ _ => Iff.rfl⟩) (Or.inr (fun _ h => h)) trivial
      intro hall
      exact inv_closeEnd (inv_leave hI hheld _
        (fun q _ => by simpa [hpt, WakesReader] using hall q) (by simp [hpt, WakesWriter]))
    | false =>
      refine inv_wakeLoop hI hheld (.closeWake false) h ?_ hpt rfl
        (Or.inr (fun _ h => h)) (Or.inl ⟨rfl,fun _ _ => Iff.rfl⟩) trivial
      intro hall
      exact inv_closeEnd (inv_leave hI hheld _ (by simp [hpt, WakesReader])
        (fun q _ => by simpa [hpt, WakesWriter] using hall q))
  | dozing chan resume =>
    simp only [advance, hpt, Option.some.injEq] at h
    exact h ▸ inv_sleep hI hpt
  | asleep resume => simp [advance, hpt] at h

theorem inv_call (hI : Inv s) (hidle : idle s p = true) (c : Point)
    (hc : holds c = false ∧ ownLock c = false) (hknows : Knows c s.pipe)
    (htable : s'.table = s.table) (hpoint : s'.point = Function.update s.point p c)
    (hbase : s'.base = s.base) (hpipe : s'.pipe = s.pipe) (hlock : s'.lock = s.lock) : Inv s' := by
  simp only [idle, Bool.and_eq_true, beq_iff_eq] at hidle
  refine inv_outside (p := p) hI s' (s.table p) c (by simp [hidle.1, holds]) hc.1
    (by rw [htable, setProc_self]) hpoint hbase hpipe hlock (by simp [hc.2]) ?_ hknows
  intro chan _ h
  have hdoze : dozesOn c chan = false := by
    cases c <;> simp_all [ownLock, dozesOn]
  simp [hdoze, hidle.2] at h

theorem inv_entry (hI : Inv s) (x : Proc) (hrun : (s.table p).state = .running → x.state = .running)
    (hwait : ∀ chan, x.state = .sleeping ∧ x.chan = some chan → Waits s chan p) :
    Inv (setEntry s p x) := by
  have hback : ∀ chan q, Waits (setEntry s p x) chan q → Waits s chan q := by
    intro chan q hq
    by_cases hqp : q = p
    · subst hqp
      simp only [Waits, setEntry, setProc_same] at hq
      exact hq.elim (hwait chan) Or.inr
    · simpa [Waits, setEntry, hqp] using hq
  refine ⟨hI.lock,?_,fun q hq => hI.readers q (hback _ q hq),
    fun q hq => hI.writers q (hback _ q hq),hI.knows⟩
  intro q hq
  by_cases hqp : q = p
  · subst hqp
    simpa [setEntry] using hrun (hI.running q hq)
  · simpa [setEntry, hqp] using hI.running q hq

theorem inv_switch (hI : Inv s) : Inv (switchTo s p) := by
  unfold switchTo
  cases hpt : s.point p with
  | asleep resume =>
    have hk : enters resume = true := by simpa [hpt, Knows] using hI.knows p
    refine inv_outside (p := p) hI _ { s.table p with state := .running, chan := none } resume
      (by simp [hpt, holds]) ?_ rfl rfl rfl rfl rfl (fun _ => rfl) ?_ ?_
    all_goals cases resume <;> simp_all [enters, holds, dozesOn, Knows]
  | _ => exact inv_entry hI _ (fun _ => rfl) (by simp)

theorem inv_descriptors (hI : Inv s) (htable : s'.table = s.table) (hpoint : s'.point = s.point)
    (hbase : s'.base = s.base) (hpipe : s'.pipe = s.pipe) (hlock : s'.lock = s.lock) : Inv s' := by
  obtain ⟨h₁,h₂,h₃,h₄,h₅⟩ := hI
  constructor <;> simp_all [Waits]

theorem inv_fileclose (hI : Inv s) (hidle : idle s p = true)
    (writable : Bool) : Inv (fileclose s p writable) := by
  unfold fileclose
  dsimp only
  split_ifs
  · exact inv_call hI hidle (.closeEnter true) ⟨rfl,rfl⟩ trivial rfl rfl rfl rfl rfl
  · exact inv_descriptors hI rfl rfl rfl rfl rfl
  · exact inv_call hI hidle (.closeEnter false) ⟨rfl,rfl⟩ trivial rfl rfl rfl rfl rfl
  · exact inv_descriptors hI rfl rfl rfl rfl rfl

theorem inv_step (e : Event) (s s' : Sys) (hI : Inv s) (hok : Announces e s)
    (h : step e s = some s') : Inv s' := by
  cases e with
  | write p addr n =>
    simp only [step, Option.ite_none_right_eq_some, Option.some.injEq] at h
    exact h.2 ▸ inv_call hI h.1.1 (.writeEnter addr n 0) ⟨rfl,rfl⟩ trivial rfl rfl rfl rfl rfl
  | read p addr n =>
    simp only [step, Option.ite_none_right_eq_some, Option.some.injEq] at h
    exact h.2 ▸ inv_call hI h.1.1 (.readEnter addr n) ⟨rfl,rfl⟩ trivial rfl rfl rfl rfl rfl
  | close p writable =>
    simp only [step, Option.ite_none_right_eq_some, Option.some.injEq] at h
    exact h.2 ▸ inv_fileclose hI h.1.1 writable
  | dup p writable =>
    simp only [step, Option.ite_none_right_eq_some, Option.some.injEq] at h
    obtain ⟨_,rfl⟩ := h
    cases writable <;> exact inv_descriptors hI rfl rfl rfl rfl rfl
  | fork p np =>
    simp only [step, Option.ite_none_right_eq_some, Option.some.injEq] at h
    exact h.2 ▸ inv_descriptors hI rfl rfl rfl rfl rfl
  | advance p mem =>
    simp only [step, Option.ite_none_right_eq_some] at h
    exact inv_advance hI h.1 hok h.2
  | dispatch p =>
    simp only [step, Option.ite_none_right_eq_some, Option.some.injEq] at h
    exact h.2 ▸ inv_switch hI
  | yield p =>
    simp only [step, interruptible, Option.ite_none_right_eq_some, Option.some.injEq,
      Bool.and_eq_true, bne_iff_ne, ne_eq, Bool.not_eq_eq_eq_not, Bool.not_true] at h
    obtain ⟨⟨_,hlock,hown⟩,rfl⟩ := h
    have hfree : holds (s.point p) = false := by
      by_contra hc
      exact hlock ((hI.lock p).mp (by simpa using hc))
    refine inv_outside (p := p) hI _ _ (s.point p) hfree hfree rfl
      (by simp [setEntry]) rfl rfl rfl (by simp [hown]) ?_ (hI.knows p)
    intro chan _ hc
    exact Or.inr (by simpa using hc)
  | kill q =>
    simp only [step, Option.ite_none_left_eq_some, Option.some.injEq] at h
    obtain ⟨_,rfl⟩ := h
    refine inv_entry hI _ (fun hr => by simp [killOne, hr]) ?_
    intro chan hc
    simp only [killOne] at hc
    split_ifs at hc with hs
    · simp at hc
    · exact absurd hc.1 hs
  | outside p x =>
    simp only [step, onPipe, Option.ite_none_right_eq_some, Option.some.injEq, Bool.or_eq_false_iff,
      beq_eq_false_iff_ne] at h
    obtain ⟨⟨hpt,hx⟩,rfl⟩ := h
    refine inv_outside (p := p) hI _ x .user (by simp [hpt, holds]) rfl rfl ?_ rfl rfl rfl
      (by simp [ownLock]) ?_ trivial
    · simp [setEntry, ← hpt]
    · intro chan hchan hc
      simp only [dozesOn, Bool.false_eq_true, or_false] at hc
      rcases hchan with rfl | rfl
      · exact absurd hc.2 hx.1
      · exact absurd hc.2 hx.2

theorem inv_create (t : Table) (base : ℕ) (data : Fin pipesize → UInt8) (p : Slot)
    (hfresh : ∀ q, onPipe (create t base data p) (t q) = false) :
    Inv (create t base data p) := by
  have hnone : ∀ chan q, chan = nreadChan base ∨ chan = nwriteChan base →
      ¬ Waits (create t base data p) chan q := by
    intro chan q hchan hq
    have := hfresh q
    simp only [onPipe, create, Bool.or_eq_false_iff, beq_eq_false_iff_ne] at this
    simp only [Waits, create, dozesOn, Bool.false_eq_true, or_false] at hq
    rcases hchan with rfl | rfl
    · exact this.1 hq.2
    · exact this.2 hq.2
  refine ⟨?_,?_,fun q hq => absurd hq (hnone _ q (Or.inl rfl)),
    fun q hq => absurd hq (hnone _ q (Or.inr rfl)),fun _ => trivial⟩
  · simp [create, holds]
  · simp [create, holds, ownLock]

/-- A reader asleep on a pipe whose lock is free finds it empty and still open
for writing; a writer asleep on it finds it full and still open for reading. -/
theorem sleepers_have_reason (t : Table) (base : ℕ) (data : Fin pipesize → UInt8) (p : Slot)
    (hfresh : ∀ q, onPipe (create t base data p) (t q) = false) (es : List Event) (s : Sys)
    (hok : Meets step Announces es (create t base data p))
    (hrun : run step es (create t base data p) = some s) (hfree : s.lock = none) (q : Slot)
    (hq : (s.table q).state = .sleeping) :
    ((s.table q).chan = some (nreadChan s.base) →
      s.pipe.nread = s.pipe.nwrite ∧ s.pipe.writeopen = true) ∧
    ((s.table q).chan = some (nwriteChan s.base) →
      s.pipe.nwrite = s.pipe.nread+512#32 ∧ s.pipe.readopen = true) := by
  have hI : Inv s := run_guarded step Announces Inv
    (fun e s s' h₁ h₂ h₃ => inv_step e s s' h₁ h₂ h₃) es _ s (inv_create t base data p hfresh)
    hok hrun
  constructor
  · intro hc
    rcases hI.readers q (Or.inl ⟨hq,hc⟩) with h | ⟨r,hr,_⟩
    · exact h
    · simp [hfree] at hr
  · intro hc
    rcases hI.writers q (Or.inl ⟨hq,hc⟩) with h | ⟨r,hr,_⟩
    · exact ⟨by simpa [full, pipesize] using h.1,h.2⟩
    · simp [hfree] at hr

def pair : Table := fun q =>
  if q.val ≤ 1 then { zeroProc with state := .running, pid := q.val+1 } else zeroProc

def readable : UserMem where
  load := fun _ => some 7
  writable := fun _ => true

def readerSleeps : List Event :=
  [.fork 0 1, .read 1 0 1, .advance 1 readable, .advance 1 readable, .advance 1 readable,
    .advance 1 readable]

theorem readerSleeps_has_reason : ∃ s, run step readerSleeps
    (create pair 0 (fun _ => 0) 0) = some s ∧
    s.lock = none ∧ (s.table 1).state = .sleeping ∧ (s.table 1).chan = some (nreadChan s.base) ∧
    s.pipe.nread = s.pipe.nwrite ∧ s.pipe.writeopen = true := by
  have hcheck : (run step readerSleeps (create pair 0 (fun _ => 0) 0)).any
      (fun s => s.lock = none ∧ (s.table 1).state = .sleeping ∧
        (s.table 1).chan = some (nreadChan s.base)) = true := by decide +kernel
  obtain ⟨s,hs,hk⟩ := (Option.any_eq_true _ _).mp hcheck
  obtain ⟨hfree,hq,hc⟩ := of_decide_eq_true hk
  exact ⟨s,hs,hfree,hq,hc,(sleepers_have_reason pair 0 (fun _ => 0) 0 (by decide +kernel)
    readerSleeps s (by decide +kernel) hs hfree 1 hq).1 hc⟩

def writerKilled : List Event :=
  readerSleeps ++ [.write 0 0 2, .advance 0 readable, .advance 0 readable, .advance 0 readable,
    .kill 0, .advance 0 readable]

theorem writerKilled_leaves_reader : ∃ s,
    run step writerKilled (create pair 0 (fun _ => 0) 0) = some s ∧ s.lock = none ∧
    (s.table 1).state = .sleeping ∧ (s.table 1).chan = some (nreadChan s.base) ∧
    s.pipe.nread ≠ s.pipe.nwrite := by
  have hcheck : (run step writerKilled (create pair 0 (fun _ => 0) 0)).any
      (fun s => s.lock = none ∧ (s.table 1).state = .sleeping ∧
        (s.table 1).chan = some (nreadChan s.base) ∧ s.pipe.nread ≠ s.pipe.nwrite) = true := by
    decide +kernel
  obtain ⟨s,hs,hk⟩ := (Option.any_eq_true _ _).mp hcheck
  exact ⟨s,hs,of_decide_eq_true hk⟩

end GreenOS.PipeRuns
