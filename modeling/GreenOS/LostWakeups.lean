import GreenOS.KernelProgress

/-!
# No wakeup is lost

When a call `wakeup(chan)` is about to return, its caller still holds the lock of
the channel, and nobody is asleep on it. Only `wakeup` of its own channel and
`kkill` take a process out of SLEEPING.
-/

namespace GreenOS.LostWakeups
open ProcTable KernelCode KernelMachine
open ProcLifecycle (Answer)
open ThreadKnowledge LockInvariant RunInvariant KernelSound
open LockOrder

variable {κ : Type} [DecidableEq κ] {lk : ℕ → ℕ} {first : κ} {K : Thread κ → Know} {s s' : Sys κ}
variable {c : κ}

def SleepsOn (s : Sys κ) (q : Slot) (chan : Option Chan) : Prop :=
  (s.table q).state = .sleeping ∧ (s.table q).chan = chan

variable {p q : Slot} {a : Answer} {x : Cmd}

omit [DecidableEq κ] in
theorem settled_running (h : Sound lk K s) (hs : Settled (K (active s c)))
    (ht : s.turn c = some p) : (s.table p).state = .running := by
  have hrole : (K (.proc p)).role = .running := by
    rcases hs with hr | hr
    · rwa [active_some ht] at hr
    · cases (hart_turn h (.inl hr)).symm.trans ht
  rcases h.running.runs c p ht with ⟨-,hx⟩ | ⟨hx,-⟩ | ⟨hx,-⟩
  · exact hx
  · cases hrole.symm.trans hx
  · cases hrole.symm.trans hx

omit [DecidableEq κ] in
theorem returned_awake (h : Sound lk K s) {chan : Option Chan}
    (hc : next s c = some (.note (.wakeupReturned chan))) (q : Slot) : ¬ SleepsOn s q chan := by
  rintro ⟨hst,hchan⟩
  obtain ⟨hset,done,hw,hall⟩ := next_ok h hc
  rcases hall q with hq | hq
  · exact (h.woke c chan done hw q hq).1 (Prod.ext hst hchan)
  · cases hst.symm.trans (settled_running h hset (turn_of_who hq))

omit [DecidableEq κ] in
theorem own_running (h : Sound lk K s) (hw : who (active s c) = some p)
    (hr : (K (active s c)).role = .running) : (s.table p).state = .running :=
  settled_running h (.inl hr) (turn_of_who hw)

inductive Wakes (chan : Option Chan) : Update → Prop where
  | wake : Wakes chan (.wake chan)
  | rouse : Wakes chan .rouse

omit [DecidableEq κ] in
theorem update_wakes (h : Sound lk K s) {u : Update}
    (hu : updateOk (who (active s c)) (K (active s c)) q u) (hst : (s.table q).state = .sleeping)
    (hst' : (u.apply (s.table q)).state ≠ .sleeping) :
    Wakes (s.table q).chan u := by
  by_cases hm : mild u = true
  · have hface := (face_apply u (s.table q)).trans (mild_face hm _)
    exact absurd ((congrArg Prod.fst hface).trans hst) hst'
  cases u with
  | wake chan =>
    have hchan : (s.table q).chan = chan := congrArg Prod.snd (h.running.saw c _ hu.2)
    rw [hchan]
    exact .wake
  | rouse => exact .rouse
  | yield => cases hst.symm.trans (own_running h hu.1 hu.2.1)
  | zombie xstate => cases hst.symm.trans (own_running h hu.1 hu.2.1)
  | alloc pid =>
    obtain ⟨-,⟨chan,hin⟩,-⟩ := hu
    cases hst.symm.trans (saw_state h.running hin)
  | free =>
    obtain ⟨-,-,⟨chan,hin⟩ | ⟨b,hb⟩⟩ := hu
    · cases hst.symm.trans (saw_state h.running hin)
    · cases hst.symm.trans (h.running.child _ _ _ hb).1
  | publish =>
    cases hst.symm.trans (h.running.child _ _ _ hu.2.2).1
  | sleepOn chan => exact absurd rfl hst'
  | tidy => exact absurd hst hst'
  | _ => exact absurd rfl hm

theorem handle_table {r : Res x} (ho : handle c a x s = .ok (r,s')) :
    s'.table = s.table ∨
      (∃ i u, x = .update i u ∧ s'.table = setProc s.table i (u.apply (s.table i))) ∨
      ∃ b, x = .dispatch b ∧
        s'.table = setProc s.table b { s.table b with state := .running } := by
  cases x with
  | acquire l =>
    simp only [handle, acquireStep] at ho
    split at ho
    · split_ifs at ho
    · cases ho
      exact .inl rfl
  | release l =>
    simp only [handle, releaseStep] at ho
    split_ifs at ho
    cases ho
    exact .inl rfl
  | sched p =>
    simp only [handle, schedStep] at ho
    split_ifs at ho
    cases ho
    exact .inl rfl
  | update i u =>
    cases ho
    exact .inr (.inl ⟨i,u,rfl,rfl⟩)
  | dispatch b =>
    cases ho
    exact .inr (.inr ⟨b,rfl,rfl⟩)
  | panic msg => cases ho
  | _ =>
    cases ho
    exact .inl rfl

theorem handle_wakes {r : Res x} (h : Sound lk K s) (hx : next s c = some x)
    (ho : handle c a x s = .ok (r,s')) (hst : (s.table q).state = .sleeping)
    (hst' : (s'.table q).state ≠ .sleeping) :
    ∃ u, next s c = some (.update q u) ∧ Wakes (s.table q).chan u := by
  have hpre := next_ok h hx
  rcases handle_table ho with htable | ⟨i,u,rfl,htable⟩ | ⟨b,rfl,htable⟩
  · rw [htable] at hst'
    exact absurd hst hst'
  · by_cases hq : q = i
    · subst hq
      rw [htable, setProc_same] at hst'
      exact ⟨u,hx,update_wakes h hpre hst hst'⟩
    · rw [htable, setProc_ne _ _ hq] at hst'
      exact absurd hst hst'
  · by_cases hq : q = b
    · subst hq
      obtain ⟨-,-,⟨chan,hin⟩,-⟩ := hpre
      cases hst.symm.trans (saw_state h.running hin)
    · rw [htable, setProc_ne _ _ hq] at hst'
      exact absurd hst hst'

theorem advance_wakes (h : Sound lk K s) (hstep : advance s c a (active s c) = some s')
    (hst : (s.table q).state = .sleeping) (hst' : (s'.table q).state ≠ .sleeping) :
    ∃ u, next s c = some (.update q u) ∧ Wakes (s.table q).chan u := by
  unfold advance at hstep
  split at hstep
  case h_1 x k hcode =>
    split at hstep
    case h_1 r o ho =>
      cases hstep
      have hx : next s c = some x := by rw [next, hcode]
      exact handle_wakes h hx ho hst hst'
    case h_2 msg ho =>
      cases hstep
      exact absurd hst hst'
    case h_3 => cases hstep
  case h_2 =>
    split at hstep
    · cases hstep
      exact absurd hst hst'
    · cases hstep
  case h_3 => cases hstep

theorem step_wakes (h : Sound lk K s) {e : Event κ} (hstep : step lk first e s = some s')
    (hst : (s.table q).state = .sleeping) (hst' : (s'.table q).state ≠ .sleeping) :
    ∃ c a u, e = .run c a ∧ next s c = some (.update q u) ∧ Wakes (s.table q).chan u := by
  unfold step at hstep
  split_ifs at hstep
  cases e with
  | run c a =>
    obtain ⟨u,hu⟩ := advance_wakes h hstep hst hst'
    exact ⟨c,a,u,rfl,hu⟩
  | round c =>
    simp only [beginRound] at hstep
    split at hstep <;> cases hstep
    exact absurd hst hst'
  | call c closing call =>
    simp only [enter] at hstep
    split at hstep
    · cases hstep
    · split at hstep
      · split_ifs at hstep
        cases hstep
        exact absurd hst hst'
      · cases hstep
  | interrupt c closing src =>
    simp only [trap] at hstep
    split_ifs at hstep
    split at hstep <;> split at hstep <;> cases hstep <;> exact absurd hst hst'

/-- A wakeup returns only when nobody sleeps on its channel, and a process leaves
SLEEPING by a wakeup of its channel or by a kill. -/
theorem no_lost_wakeup (es : List (Event κ))
    (hrun : StepRun.run (step lk first) es start = some s) :
    (∀ c chan, next s c = some (.note (.wakeupReturned chan)) → ∀ q, ¬ SleepsOn s q chan) ∧
      ∀ e s' q chan, step lk first e s = some s' → SleepsOn s q chan →
        (s'.table q).state ≠ .sleeping →
        ∃ c a u, e = .run c a ∧ next s c = some (.update q u) ∧ Wakes chan u := by
  obtain ⟨K,h⟩ := run_sound hrun
  refine ⟨fun c chan hc q => returned_awake h hc q,?_⟩
  rintro e s' q chan hstep ⟨hst,rfl⟩ hst'
  exact step_wakes h hstep hst hst'

/-- `init` sleeps on the object 7, and later a device interrupt on the second CPU is about to return
from its wakeup of the object. -/
theorem device_wakeup : ∃ es fs, ∃ s t : Sys Bool,
    StepRun.run (step id false) es start = some s ∧ SleepsOn s initproc (some (.object 7)) ∧
    StepRun.run (step id false) fs s = some t ∧ (t.table initproc).state = .runnable ∧
    next t true = some (.note (.wakeupReturned (some (.object 7)))) ∧
    ∀ q, ¬ SleepsOn t q (some (.object 7)) := by
  let a : Answer := ⟨none,none,false⟩
  obtain ⟨s,⟨es,hes⟩,hs⟩ := KernelProgress.then_trans
    (KernelProgress.init_user id false false a) fun _ h =>
    KernelProgress.then_trans (KernelProgress.init_sleeps id false 7 false a h) fun _ h =>
      KernelProgress.scheduler_leaves id false 7 false a h
  obtain ⟨t,⟨fs,hfs⟩,hstate,hnext⟩ :=
    KernelProgress.wakeup_returns id false (d := true) 7 (by decide) a hs
  have hsleeps : SleepsOn s initproc (some (.object 7)) := by
    obtain ⟨-,trail,rfl⟩ := hs
    exact KernelProgress.idle_init id 7 false
  have hrun : StepRun.run (step id false) (es++fs) start = some t := by
    rw [StepRun.run_append, hes]
    exact hfs
  exact ⟨es,fs,s,t,hes,hsleeps,hfs,hstate,hnext,(no_lost_wakeup (es++fs) hrun).1 true _ hnext⟩

end GreenOS.LostWakeups
