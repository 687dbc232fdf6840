import GreenOS.WakeInvariant

/-!
# Every reachable state is as its threads know it

The machine starts with checked programs and accounts that are true of it, and
every step keeps both. The only panic that can be reached is the one of an init
process that exits.
-/

namespace GreenOS.KernelSound
open Programs Checked ProcTable KernelCode
open ProcLifecycle (Answer)
open KernelMachine ThreadKnowledge CodeChecks LockInvariant
open RunInvariant WakeInvariant
open Function (update_self update_of_ne update_eq_self)

variable {κ : Type} [DecidableEq κ] {lk : ℕ → ℕ} {K : Thread κ → Know} {s s' : Sys κ} {c : κ}

structure Sound (lk : ℕ → ℕ) (K : Thread κ → Know) (s : Sys κ) : Prop where
  checked : ∀ t, Check lk (who t) (K t) (s.code t) (Ends lk (who t))
  locking : Locking lk K s
  running : Running K s
  woke : Woke K s
  halted : s.halted = none ∨ s.halted = some "init exiting"

theorem active_setCode (s : Sys κ) (t : Thread κ) (p : P Jump) (d : κ) :
    active (setCode s t p) d = active s d := rfl

variable {t : Thread κ} {p : P Jump}

theorem checked_know (h : Sound lk K s) {a : Know} (hp : Check lk (who t) a p (Ends lk (who t)))
    (t' : Thread κ) :
    Check lk (who t') (Function.update K t a t') (Function.update s.code t p t')
      (Ends lk (who t')) := by
  by_cases ht : t' = t
  · subst ht
    rw [update_self, update_self]
    exact hp
  · rw [update_of_ne ht, update_of_ne ht]
    exact h.checked t'

theorem sound_pid (h : Sound lk K s) (n : ℤ) (hp : Check lk (who t) (K t) p (Ends lk (who t))) :
    Sound lk K (setCode { s with nextpid := n } t p) where
  checked := by
    have hk := checked_know h hp
    rwa [update_eq_self] at hk
  locking := ⟨h.locking.proper,h.locking.lone,h.locking.locked,h.locking.counted,h.locking.trail⟩
  running := ⟨h.running.saw,h.running.rest,h.running.alive,h.running.lent,h.running.runs,
    h.running.idle,h.running.busy,h.running.once,h.running.child,h.running.only⟩
  woke := h.woke
  halted := h.halted

theorem sound_code (h : Sound lk K s)
    (hp : Check lk (who t) (K t) p (Ends lk (who t))) : Sound lk K (setCode s t p) :=
  sound_pid h s.nextpid hp

section Calm
variable {me : Option Slot} {a : Know}

theorem calm_of_held {p : Slot} (h : Proper lk (some p) a) (hh : a.held = [])
    (hr : a.role ≠ .dead) : a = still [] a.child := by
  have hrole : a.role = .running := by
    rcases (h.proc nofun).1 with hx | ⟨z,hx⟩ | hx
    · exact hx
    · have hin := h.left_held p z rfl hx
      rw [hh] at hin
      cases hin
    · exact absurd hx hr
  have hsees : a.sees = [] := List.eq_nil_iff_forall_not_mem.mpr fun e he => by
    have hin := h.seen e he
    rw [hh] at hin
    cases hin
  have hintent : a.intent = none := Option.eq_none_iff_forall_ne_some.mpr fun ch hch => by
    have hin := h.drowsy ch p rfl hch
    rw [hh] at hin
    simp at hin
  have hwaking : a.waking = none := Option.eq_none_iff_forall_ne_some.mpr fun w hw => by
    have hin := h.waker w.1 w.2 hw
    rw [hh] at hin
    cases hin
  have htrail := (h.proc nofun).2
  cases a
  simp_all [still]

theorem calm_hart (h : Proper lk none a) (hr : a.role = .hart) (hh : a.held = [])
    (hw : a.waking = none) : a = steady [] .hart none none a.trail := by
  have hsees : a.sees = [] := List.eq_nil_iff_forall_not_mem.mpr fun e he => by
    have hin := h.seen e he
    rw [hh] at hin
    cases hin
  obtain ⟨-,hchild,hintent⟩ := h.hart rfl
  cases a
  simp_all [steady]

end Calm

section Events

variable {p : Slot} {closing : List Section}

omit [DecidableEq κ] in
theorem role_dead (h : Sound lk K s) (hp : s.turn c = some p) :
    (K (.proc p)).role ≠ .dead := by
  rcases h.running.runs c p hp with ⟨hr,-⟩ | ⟨hr,-⟩ | ⟨hr,-⟩ <;> simp [hr]

omit [DecidableEq κ] in
theorem hart_top (h : Sound lk K s) (ht : s.code (.hart c) = .pure .out) :
    K (.hart c) = steady [] .hart none none (K (.hart c)).trail := by
  have hend := h.checked (.hart c)
  rw [ht] at hend
  have hprop := h.locking.proper (.hart c)
  rcases hend with hd | ⟨hr,hh,hw⟩
  · rcases (hprop.hart rfl).1 with hx | ⟨b,hx⟩ | ⟨b,hx⟩ <;> cases hd.symm.trans hx
  · exact calm_hart hprop hr hh hw

theorem proper_top (t : List (Lock × Bool)) : Proper lk none (steady [] .hart none none t) where
  sorted := List.Pairwise.nil
  seen := nofun
  left_held := nofun
  chosen_held := nofun
  back_held := nofun
  drowsy := nofun
  waker := nofun
  apart := fun _ => rfl
  awake := fun hi => absurd rfl hi
  hart := fun _ => ⟨.inl rfl,rfl,rfl⟩
  proc := fun hm => absurd rfl hm

theorem sound_round (h : Sound lk K s) (hstep : beginRound s c = some s') :
    ∃ K', Sound lk K' s' := by
  unfold beginRound at hstep
  split at hstep
  case h_2 => cases hstep
  case h_1 ht hcode =>
    cases hstep
    have htop := hart_top h hcode
    have hact := active_none ht
    refine ⟨Function.update K (.hart c) (steady [] .hart none none []),
      checked_know h check_scheduler,?_,?_,?_,h.halted⟩
    · refine locking_frame h.locking (proper_know h.locking (proper_top [])) h.locking.lone ?_ ?_
        rfl rfl
      · intro d
        change (Function.update K (.hart c) _ (active s d)).held = _
        by_cases hd : d = c
        · subst hd
          rw [hact, know_same, htop]
          rfl
        · rw [← hact, know_other h.locking _ hd]
      · intro d
        change Function.update s.trail c [] d = _
        by_cases hd : d = c
        · subst hd
          rw [know_same, update_self]
          rfl
        · rw [update_of_ne hd, update_of_ne (by simpa using hd)]
          exact h.locking.trail d
    · rw [← hact]
      refine running_know h.locking h.running (fun _ => rfl) rfl rfl ?_ ?_ nofun
        (fun _ _ _ _ => rfl)
      · rw [hact, htop]
        rfl
      · rw [hact, htop]
        rfl
    · rw [← hact]
      exact woke_know h.locking h.woke rfl nofun nofun (fun _ _ hf => hf)

omit [DecidableEq κ] in
theorem user_calm (h : Sound lk K s) (hp : s.turn c = some p)
    (hcode : s.code (.proc p) = .pure .out) : K (.proc p) = still [] none := by
  have hend := h.checked (.proc p)
  rw [hcode] at hend
  exact hend.resolve_left (role_dead h hp)

theorem sound_enter (h : Sound lk K s) {call : Call}
    (hstep : enter lk s c closing call = some s') : Sound lk K s' := by
  unfold enter at hstep
  split at hstep
  case h_1 => cases hstep
  case h_2 p hp =>
    split at hstep
    case h_2 => cases hstep
    case h_1 hcode =>
      split_ifs at hstep with hfit
      cases hstep
      refine sound_code h ?_
      rw [user_calm h hp hcode]
      exact check_usertrap call hfit.1 hfit.2

theorem sound_trap {first : κ} (h : Sound lk K s) {src : Source}
    (hstep : trap lk first s c closing src = some s') : Sound lk K s' := by
  unfold trap at hstep
  split_ifs at hstep with hfit
  have hheld : (K (active s c)).held = [] :=
    List.length_eq_zero_iff.mp ((h.locking.counted c).symm.trans hfit.1)
  split at hstep
  case h_1 p hp =>
    split at hstep
    case h_1 hcode =>
      cases hstep
      refine sound_code h ?_
      rw [user_calm h hp hcode]
      exact check_usertrapIntr _ src hfit.2
    case h_2 =>
      cases hstep
      refine sound_code h ?_
      rw [active_some hp] at hheld
      have hcalm := calm_of_held (h.locking.proper (.proc p)) hheld (role_dead h hp)
      rw [hcalm]
      refine checks_then (check_kerneltrap _ src) ?_
      rintro _ _ rfl
      rw [← hcalm]
      exact h.checked (.proc p)
  case h_2 ht =>
    split at hstep
    case h_2 => cases hstep
    case h_1 hcode =>
      cases hstep
      refine sound_code h ?_
      rw [hart_top h hcode]
      exact check_hartIntr _ src

end Events

section Commands
variable {x : Cmd} {k : Res x → P Jump}

omit [DecidableEq κ] in
theorem command_ok (h : Sound lk K s) (hcode : s.code (active s c) = .step x k) :
    pre lk (who (active s c)) (K (active s c)) x ∧ ∀ v, Check lk (who (active s c))
      (post (who (active s c)) (K (active s c)) x v) (k v) (Ends lk (who (active s c))) := by
  have hc := h.checked (active s c)
  rw [hcode] at hc
  exact hc

variable {p q : P Jump} {l : Lock} {o : Sys κ} {b : Slot} {a : Answer}

theorem sound_know (h : Sound lk K s) {a : Know}
    (hp : Check lk (who (active s c)) a p (Ends lk (who (active s c))))
    (ha : Proper lk (who (active s c)) a) (hheld : a.held = (K (active s c)).held)
    (htrail : a.trail = (K (active s c)).trail) (hrole : a.role = (K (active s c)).role)
    (hchild : a.child = (K (active s c)).child) (hsaw : ∀ e ∈ a.sees, face (s.table e.1) = e.2)
    (hwoke : Woke (Function.update K (active s c) a) s) :
    Sound lk (Function.update K (active s c) a) (setCode s (active s c) p) where
  checked := checked_know h hp
  locking := locking_know h.locking ha hheld htrail rfl rfl rfl rfl
  running := running_know h.locking h.running (fun _ => rfl) rfl rfl hrole hchild hsaw
    (fun _ _ _ _ => rfl)
  woke := hwoke
  halted := h.halted

theorem sound_acquire (h : Sound lk K s) (hl : ∀ l' ∈ (K (active s c)).held, rank l' < rank l)
    (hp : Check lk (who (active s c)) (post (who (active s c)) (K (active s c)) (.acquire l) ()) p
      (Ends lk (who (active s c))))
    (ho : acquireStep s c l = .ok ((),o)) :
    ∃ K', Sound lk K' (setCode o (active s c) p) := by
  unfold acquireStep at ho
  cases hown : s.owner l with
  | some d =>
    simp only [hown] at ho
    split_ifs at ho
  | none =>
    simp only [hown] at ho
    cases ho
    refine ⟨_,checked_know h hp,?_,?_,?_,h.halted⟩
    · exact locking_acquire h.locking hl hown rfl rfl rfl rfl
    · exact running_know h.locking h.running (fun _ => rfl) rfl rfl rfl rfl
        (fun e he => h.running.saw c e he) (fun _ _ _ _ => rfl)
    · exact woke_know h.locking h.woke rfl (fun _ hw => hw) (fun _ hi => hi) (fun _ _ hf => hf)

theorem sound_release (h : Sound lk K s) (hl : l ∈ (K (active s c)).held)
    (hk : ¬ Keeps lk (who (active s c)) (K (active s c)) l)
    (hp : Check lk (who (active s c)) (post (who (active s c)) (K (active s c)) (.release l) ()) p
      (Ends lk (who (active s c))))
    (ho : releaseStep s c l = .ok ((),o)) :
    ∃ K', Sound lk K' (setCode o (active s c) p) := by
  unfold releaseStep at ho
  split_ifs at ho
  cases ho
  refine ⟨_,checked_know h hp,?_,?_,?_,h.halted⟩
  · exact locking_release h.locking hl hk rfl rfl rfl rfl
  · exact running_know h.locking h.running (fun _ => rfl) rfl rfl rfl rfl
      (fun e he => h.running.saw c e (List.mem_of_mem_filter he)) (fun _ _ _ _ => rfl)
  · exact woke_release h.locking h.running h.woke hl rfl rfl

theorem sound_sched {p : Slot} (h : Sound lk K s)
    (hx : pre lk (who (active s c)) (K (active s c)) (.sched p))
    (hq : Check lk (who (active s c)) (post (who (active s c)) (K (active s c)) (.sched p) ()) q
      (Ends lk (who (active s c))))
    (ho : schedStep s c p = .ok ((),o)) :
    ∃ K', Sound lk K' (setCode o (active s c) q) := by
  obtain ⟨hwho,hheld,-,-,z,hrole,-⟩ := hx
  have hp := turn_of_who hwho
  have hact := active_some hp
  rw [hact] at hheld hrole hq ⊢
  obtain ⟨hback,-⟩ := h.running.lent c p hp
  unfold schedStep at ho
  split_ifs at ho
  cases ho
  have hpost : post (who (.proc p : Thread κ)) (K (.proc p)) (.sched p) () =
      resumed p z (K (.proc p)).child := by
    simp [post, hrole]
  rw [hpost] at hq
  refine ⟨_,checked_know h hq,?_,?_,?_,h.halted⟩
  · exact locking_sched h.locking hp hheld (by rw [hback]; rfl) rfl rfl rfl rfl
  · exact running_sched h.running hp hrole rfl rfl rfl
  · exact woke_sched h.locking h.woke hp rfl rfl rfl (by rw [hback]; rfl)

theorem sound_swtch (h : Sound lk K s) (hx : pre lk (who (active s c)) (K (active s c)) (.swtch b))
    (hq : Check lk (who (active s c)) (post (who (active s c)) (K (active s c)) (.swtch b) ()) q
      (Ends lk (who (active s c)))) :
    ∃ K', Sound lk K'
      (setCode { s with turn := Function.update s.turn c (some b) } (active s c) q) := by
  obtain ⟨hrole,hheld⟩ := hx
  have hc : s.turn c = none := by
    cases ht : s.turn c with
    | none => rfl
    | some p =>
      rw [active_some ht] at hrole
      rcases h.running.runs c p ht with ⟨hr,-⟩ | ⟨hr,-⟩ | ⟨hr,-⟩ <;> cases hr.symm.trans hrole
  have hact := active_none hc
  rw [hact] at hrole hheld hq ⊢
  obtain ⟨-,-,hrest⟩ := chosen_rest h.running hc hrole
  obtain ⟨dead,child,hb⟩ := h.running.rest b hrest
  refine ⟨_,checked_know h hq,?_,?_,?_,h.halted⟩
  · exact locking_swtch h.locking hc hheld (by rw [hb]; rfl) hrest rfl rfl rfl rfl
  · exact running_swtch h.locking h.running hc hrole rfl rfl rfl
  · exact woke_swtch h.locking h.woke hc rfl rfl (by rw [hb]; rfl)

omit [DecidableEq κ] in
theorem hart_turn (h : Sound lk K s) (hr : (K (active s c)).role = .hart ∨
    (∃ b, (K (active s c)).role = .chosen b) ∨ ∃ b, (K (active s c)).role = .back b) :
    s.turn c = none := by
  have hw := hart_only (h.locking.proper (active s c)) hr
  cases ht : s.turn c with
  | none => rfl
  | some p => cases hw.symm.trans (who_some ht)

theorem sound_dispatch (h : Sound lk K s)
    (hx : pre lk (who (active s c)) (K (active s c)) (.dispatch b))
    (hq : Check lk (who (active s c)) (post (who (active s c)) (K (active s c)) (.dispatch b) ()) q
      (Ends lk (who (active s c)))) :
    ∃ K', Sound lk K' (setCode
      { s with
        table := setProc s.table b { s.table b with state := .running }
        current := Function.update s.current c (some b) } (active s c) q) := by
  have hprop := proper_post (h.locking.proper (active s c)) hx ()
  obtain ⟨hrole,hheld,⟨chan,hin⟩,-⟩ := hx
  have hst := saw_state h.running hin
  have hc := hart_turn h (.inl hrole)
  have hact := active_none hc
  refine ⟨_,checked_know h hq,?_,?_,?_,h.halted⟩
  · exact locking_know h.locking hprop rfl rfl rfl rfl rfl rfl
  · rw [hact] at hrole hheld ⊢
    exact running_dispatch h.locking h.running hc hrole (hheld ▸ List.mem_cons_self) hst rfl rfl rfl
      rfl rfl rfl
  · refine woke_know h.locking h.woke rfl (fun _ hw => hw) (fun _ hi => hi) ?_
    intro i ch hf
    change face (setProc s.table b _ i) = _ at hf
    rw [setProc_apply] at hf
    split_ifs at hf
    · cases congrArg Prod.fst hf
    · exact hf

theorem sound_collect (h : Sound lk K s) (hx : pre lk (who (active s c)) (K (active s c)) .collect)
    (hq : Check lk (who (active s c)) (post (who (active s c)) (K (active s c)) .collect ()) q
      (Ends lk (who (active s c)))) :
    ∃ K', Sound lk K'
      (setCode { s with current := Function.update s.current c none } (active s c) q) := by
  have hprop := proper_post (h.locking.proper (active s c)) hx ()
  obtain ⟨b,hrole⟩ := hx
  have hc := hart_turn h (.inr (.inr ⟨b,hrole⟩))
  have hact := active_none hc
  refine ⟨_,checked_know h hq,?_,?_,?_,h.halted⟩
  · exact locking_know h.locking hprop rfl rfl rfl rfl rfl rfl
  · rw [hact] at hrole ⊢
    exact running_collect h.running hc hrole rfl rfl rfl rfl rfl rfl
  · exact woke_know h.locking h.woke rfl (fun _ hw => hw) (fun _ hi => hi) (fun _ _ hf => hf)

theorem check_forkret (i : Slot) :
    Check lk (some i) (resumed i false none) (forkret i) (Ends lk (some i)) :=
  check_give nofun (checks_pure (.inr rfl))

theorem sound_context {i : Slot} (h : Sound lk K s) (hx : (K (active s c)).child = some (i,false))
    (hq : Check lk (who (active s c)) (post (who (active s c)) (K (active s c)) (.context i) ()) q
      (Ends lk (who (active s c)))) :
    ∃ K', Sound lk K' (setCode (setCode s (.proc i) (forkret i)) (active s c) q) := by
  have hprop := proper_post (h.locking.proper (active s c)) (x := .context i) hx ()
  have hact : ∀ d, active s d ≠ .proc i := fun d => (resting_ne (child_rest h.running hx)).symm
  refine ⟨Function.update (Function.update K (active s c) { K (active s c) with
    child := some (i,true) }) (.proc i) (resumed i false none),?_,?_,?_,?_,h.halted⟩
  · intro t
    change Check lk (who t) _ (Function.update (Function.update s.code (.proc i) (forkret i))
      (active s c) q t) _
    by_cases hti : t = .proc i
    · subst hti
      rw [know_same, update_of_ne (hact c).symm, update_self]
      exact check_forkret i
    · rw [update_of_ne hti]
      by_cases htc : t = active s c
      · subst htc
        rw [know_same, update_self]
        exact hq
      · rw [update_of_ne htc, update_of_ne htc, update_of_ne hti]
        exact h.checked t
  · have hfirst : Locking lk (Function.update K (active s c) { K (active s c) with
        child := some (i,true) }) s := locking_know h.locking hprop rfl rfl rfl rfl rfl rfl
    refine locking_frame hfirst (proper_know hfirst (proper_resumed i false none)) h.locking.lone
      ?_ ?_ rfl rfl
    · intro d
      rw [active_setCode, active_setCode, update_of_ne (hact d)]
    · intro d
      rw [know_hart]
      exact hfirst.trail d
  · exact running_context h.locking h.running hx rfl rfl rfl rfl rfl rfl
  · refine woke_frame h.woke ?_ (fun _ _ hf => hf) ?_
    · intro d w hd
      rw [active_setCode, active_setCode, update_of_ne (hact d)] at hd
      by_cases hdc : d = c
      · subst hdc
        rwa [know_same] at hd
      · rwa [know_other h.locking _ hdc] at hd
    · intro j ch hch
      by_cases hji : j = i
      · rw [hji, know_same] at hch
        cases hch
      · rw [update_of_ne (by simpa using hji)] at hch
        by_cases ht : Thread.proc j = active s c
        · rw [ht, know_same] at hch
          rw [ht]
          exact hch
        · rwa [update_of_ne ht] at hch

theorem sound_read (h : Sound lk K s) (i : Slot)
    (hq : Check lk (who (active s c))
      (post (who (active s c)) (K (active s c)) (.read i) (s.table i)) q
      (Ends lk (who (active s c)))) :
    Sound lk (Function.update K (active s c)
      (post (who (active s c)) (K (active s c)) (.read i) (s.table i)))
      (setCode s (active s c) q) := by
  have hprop := proper_read (h.locking.proper (active s c)) i (s.table i)
  by_cases hi : Lock.proc i ∈ (K (active s c)).held
  · have hpost : post (who (active s c)) (K (active s c)) (.read i) (s.table i) =
        { K (active s c) with sees := (i,face (s.table i))::(K (active s c)).sees } := if_pos hi
    rw [hpost] at hq hprop ⊢
    refine sound_know h hq hprop rfl rfl rfl rfl ?_
      (woke_know h.locking h.woke rfl (fun _ hw => hw) (fun _ hi => hi) (fun _ _ hf => hf))
    intro e he
    rcases List.mem_cons.mp he with rfl | he
    · rfl
    · exact h.running.saw c e he
  · have hpost : post (who (active s c)) (K (active s c)) (.read i) (s.table i) =
        K (active s c) := if_neg hi
    rw [hpost] at hq ⊢
    rw [update_eq_self]
    exact sound_code h hq

theorem sound_handle {v : Res x} (h : Sound lk K s) (hcode : s.code (active s c) = .step x k)
    (ho : handle c a x s = .ok (v,o)) :
    ∃ K', Sound lk K' (setCode o (active s c) (k v)) := by
  obtain ⟨hpre,hpost⟩ := command_ok h hcode
  have hprop := proper_post (h.locking.proper (active s c)) hpre v
  cases x with
  | acquire l => exact sound_acquire h hpre (hpost ()) ho
  | release l => exact sound_release h hpre.1 hpre.2 (hpost ()) ho
  | sched p => exact sound_sched h hpre (hpost ()) ho
  | panic msg => cases ho
  | read i =>
    cases ho
    exact ⟨_,sound_read h i (hpost _)⟩
  | update i u =>
    cases ho
    exact ⟨_,checked_know h (hpost ()),locking_know h.locking hprop rfl rfl rfl rfl rfl rfl,
      running_update h.locking h.running hpre rfl rfl rfl,
      woke_update h.locking h.running h.woke hpre rfl rfl,h.halted⟩
  | takePid =>
    cases ho
    exact ⟨K,sound_pid h _ (hpost _)⟩
  | choose =>
    cases ho
    exact ⟨K,sound_code h (hpost _)⟩
  | context i =>
    cases ho
    exact sound_context h hpre (hpost ())
  | dispatch b =>
    cases ho
    exact sound_dispatch h hpre (hpost ())
  | swtch b =>
    cases ho
    exact sound_swtch h hpre (hpost ())
  | collect =>
    cases ho
    exact sound_collect h hpre (hpost ())
  | note n =>
    cases ho
    have hwoke : Woke (Function.update K (active s c) (noteAfter (K (active s c)) n)) s :=
      woke_note h.locking h.woke hpre rfl rfl
    refine ⟨_,sound_know h (hpost ()) hprop ?_ ?_ ?_ ?_ ?_ hwoke⟩ <;> cases n <;>
      first | rfl | exact h.running.saw c

theorem handle_panic {msg : String} (h : Sound lk K s) (hcode : s.code (active s c) = .step x k)
    (ho : handle c a x s = .panic msg) :
    msg = "init exiting" := by
  obtain ⟨hpre,-⟩ := command_ok h hcode
  have hlive : (K (active s c)).role ≠ .dead := by
    cases ht : s.turn c with
    | none =>
      rw [active_none ht]
      rcases h.running.idle c ht with ⟨hr,-⟩ | ⟨b,hr,-⟩ | ⟨b,hr,-⟩ <;> simp [hr]
    | some p =>
      rw [active_some ht]
      exact role_dead h ht
  cases x with
  | acquire l =>
    simp only [handle, acquireStep] at ho
    split at ho
    case h_1 d hd =>
      split_ifs at ho with hdc
      subst hdc
      exact absurd (hpre l ((h.locking.locked l d).mp hd)) (lt_irrefl _)
    case h_2 => cases ho
  | release l =>
    simp only [handle, releaseStep] at ho
    split_ifs at ho with hown
    exact absurd ((h.locking.locked l c).mpr hpre.1) hown
  | sched p =>
    obtain ⟨hwho,hheld,-,-,z,hrole,-⟩ := hpre
    simp only [handle, schedStep] at ho
    split_ifs at ho with hown hnoff hrun
    · exact absurd ((h.locking.locked _ c).mpr (hheld ▸ List.mem_cons_self)) hown
    · exact absurd ((h.locking.counted c).trans (by rw [hheld]; rfl)) hnoff
    · have hp := turn_of_who hwho
      rw [active_some hp] at hrole
      rcases h.running.runs c p hp with ⟨hr,-⟩ | ⟨-,hr⟩ | ⟨-,hr | hr⟩
      · cases hrole.symm.trans hr
      · cases hrun.symm.trans hr
      · cases hrun.symm.trans hr
      · cases hrun.symm.trans hr
  | panic m =>
    cases ho
    exact hpre.resolve_left hlive
  | _ => cases ho

end Commands

section Steps
variable {first : κ}

omit [DecidableEq κ] in
theorem sound_halt (h : Sound lk K s) : Sound lk K { s with halted := some "init exiting" } where
  checked := h.checked
  locking := ⟨h.locking.proper,h.locking.lone,h.locking.locked,h.locking.counted,h.locking.trail⟩
  running := ⟨h.running.saw,h.running.rest,h.running.alive,h.running.lent,h.running.runs,
    h.running.idle,h.running.busy,h.running.once,h.running.child,h.running.only⟩
  woke := h.woke
  halted := .inr rfl

theorem sound_advance {a : Answer} (h : Sound lk K s)
    (hstep : advance s c a (active s c) = some s') : ∃ K', Sound lk K' s' := by
  unfold advance at hstep
  split at hstep
  case h_1 x k hcode =>
    split at hstep
    case h_1 v o ho =>
      cases hstep
      exact sound_handle h hcode ho
    case h_2 msg ho =>
      cases hstep
      rw [handle_panic h hcode ho]
      exact ⟨K,sound_halt h⟩
    case h_3 => cases hstep
  case h_2 addr closing hcode =>
    split at hstep
    case h_1 p hact =>
      cases hstep
      have hturn : s.turn c = some p := turn_of_who (by rw [hact]; rfl)
      have hend := h.checked (.proc p)
      rw [← hact, hcode, hact] at hend
      obtain ⟨hk,hfit⟩ := hend.resolve_left (role_dead h hturn)
      refine ⟨K,sound_code h ?_⟩
      rw [hact, hk]
      exact check_waitLoop addr hfit
    case h_2 => cases hstep
  case h_3 => cases hstep

theorem sound_step {e : Event κ} (h : Sound lk K s) (hstep : step lk first e s = some s') :
    ∃ K', Sound lk K' s' := by
  unfold step at hstep
  split_ifs at hstep
  cases e with
  | round c => exact sound_round h hstep
  | call c closing call => exact ⟨K,sound_enter h hstep⟩
  | interrupt c closing src => exact ⟨K,sound_trap h hstep⟩
  | run c a => exact sound_advance h hstep

def startKnow : Thread κ → Know
  | .hart _ => steady [] .hart none none []
  | .proc p => resumed p (decide (p ≠ initproc)) none

theorem sound_start : Sound lk startKnow (start : Sys κ) := by
  have hact : ∀ c, active (start : Sys κ) c = .hart c := fun _ => rfl
  refine ⟨?_,?_,?_,?_,.inl rfl⟩
  · rintro (c | p)
    · exact checks_pure (.inr ⟨rfl,rfl,rfl⟩)
    · by_cases hp : p = initproc
      · subst hp
        exact check_forkret initproc
      · have hcode : (start : Sys κ).code (.proc p) = .pure .out := if_neg (by simpa using hp)
        rw [hcode]
        refine .inl ?_
        simp [startKnow, resumed, hp]
  · refine ⟨?_,fun _ _ _ h => (by cases h),?_,fun _ => rfl,fun _ => rfl⟩
    · rintro (c | p)
      · exact proper_top []
      · exact proper_resumed p _ none
    · intro l c
      rw [hact]
      constructor <;> intro h <;> cases h
  · have hstate : ∀ p : Slot, ((start : Sys κ).table p).state = .runnable ∧ p = initproc ∨
        ((start : Sys κ).table p).state = .unused := by
      intro p
      by_cases hp : p = initproc
      · exact .inl ⟨by simp [start, hp, initEntry],hp⟩
      · exact .inr (by simp [start, hp, zeroProc])
    refine ⟨fun _ _ h => (by cases h),fun p _ => ⟨_,none,rfl⟩,?_,fun _ _ h => (by cases h),
      fun _ _ h => (by cases h),
      fun c _ => .inl ⟨rfl,rfl⟩,?_,fun _ _ _ h => (by cases h),?_,?_⟩
    · intro p hd
      rcases hstate p with ⟨-,hp⟩ | hst
      · rw [startKnow, hp] at hd
        cases hd
      · simp [hst]
    · intro p hrun
      rcases hstate p with ⟨hst,-⟩ | hst <;> cases hst.symm.trans hrun
    · rintro (c | p) i b hb <;> cases hb
    · rintro (c | p) t' i b b' hb <;> cases hb
  · intro c chan done hw
    cases hw

theorem run_sound {es : List (Event κ)} (hrun : StepRun.run (step lk first) es start = some s) :
    ∃ K, Sound lk K s :=
  StepRun.run_invariant (step lk first) (fun s => ∃ K, Sound lk K s)
    (fun _ _ _ ⟨_,h⟩ hstep => sound_step h hstep) es start s ⟨startKnow,sound_start⟩ hrun

end Steps

end GreenOS.KernelSound
