import GreenOS.RunInvariant

/-!
# A wakeup misses no sleeper

While a thread is inside `wakeup(chan)` it holds the lock of the channel.
-/

namespace GreenOS.WakeInvariant
open ProcTable KernelCode
open KernelMachine ThreadKnowledge LockInvariant RunInvariant

variable {κ : Type} [DecidableEq κ] {lk : ℕ → ℕ} {K K' : Thread κ → Know} {s s' : Sys κ} {c : κ}

def Woke (K : Thread κ → Know) (s : Sys κ) : Prop :=
  ∀ c chan done, (K (active s c)).waking = some (chan,done) → ∀ i ∈ done,
    face (s.table i) ≠ (.sleeping,chan) ∧
      ∀ ch, (K (.proc i)).intent = some ch → some ch ≠ chan

omit [DecidableEq κ] in
theorem woke_frame (h : Woke K s)
    (hwaking : ∀ d w, (K' (active s' d)).waking = some w → (K (active s d)).waking = some w)
    (hface : ∀ i chan, face (s'.table i) = (.sleeping,chan) → face (s.table i) = (.sleeping,chan))
    (hintent : ∀ i ch, (K' (.proc i)).intent = some ch → (K (.proc i)).intent = some ch) :
    Woke K' s' := by
  intro d chan done hd i hi
  obtain ⟨hawake,hsleep⟩ := h d chan done (hwaking d _ hd) i hi
  exact ⟨fun hf => hawake (hface i chan hf),fun ch hch => hsleep ch (hintent i ch hch)⟩

variable {a : Know} {i : Slot} {u : Update}

theorem woke_know (hL : Locking lk K s) (h : Woke K s) (hturn : s'.turn = s.turn)
    (hwaking : ∀ w, a.waking = some w → (K (active s c)).waking = some w)
    (hintent : ∀ ch, a.intent = some ch → (K (active s c)).intent = some ch)
    (hface : ∀ i chan, face (s'.table i) = (.sleeping,chan) → face (s.table i) = (.sleeping,chan)) :
    Woke (Function.update K (active s c) a) s' := by
  refine woke_frame h ?_ hface ?_
  · intro d w hd
    rw [active_congr hturn] at hd
    by_cases hdc : d = c
    · rw [hdc, know_same] at hd
      rw [hdc]
      exact hwaking w hd
    · rwa [know_other hL _ hdc] at hd
  · intro i ch hi
    by_cases ht : Thread.proc i = active s c
    · rw [ht, know_same] at hi
      rw [ht]
      exact hintent ch hi
    · rwa [Function.update_of_ne ht] at hi

omit [DecidableEq κ] in
theorem not_drowsy (hL : Locking lk K s) (hR : Running K s) {chan : Option Chan} {done : List Slot}
    {ch : Chan} (hw : (K (active s c)).waking = some (chan,done))
    (hi : Lock.proc i ∈ (K (active s c)).held) (hch : (K (.proc i)).intent = some ch) :
    some ch ≠ chan := by
  rintro rfl
  by_cases hrest : ∀ d, s.turn d ≠ some i
  · obtain ⟨dead,child,hk⟩ := hR.rest i hrest
    rw [hk] at hch
    cases hch
  · obtain ⟨d,hd⟩ := not_forall_not.mp hrest
    have hkeys : ∃ l, l ∈ (K (active s d)).held ∧ l ∈ (K (active s c)).held := by
      rw [active_some hd]
      rcases (hL.proper (.proc i)).drowsy ch i rfl hch with hl | hl
      · exact ⟨_,hl,(hL.proper _).waker _ _ hw⟩
      · exact ⟨_,hl,hi⟩
    obtain ⟨l,hld,hlc⟩ := hkeys
    obtain rfl := held_unique hL hld hlc
    have hno := (hL.proper (active s d)).apart (by simp [hw])
    rw [active_some hd] at hno
    cases hno.symm.trans hch

theorem woke_release (hL : Locking lk K s) (hR : Running K s) (h : Woke K s) {l : Lock}
    (hl : l ∈ (K (active s c)).held) (hturn : s'.turn = s.turn) (htable : s'.table = s.table) :
    Woke (Function.update K (active s c)
      (post (who (active s c)) (K (active s c)) (.release l) ())) s' := by
  have hintent : ∀ i, (Function.update K (active s c)
      (post (who (active s c)) (K (active s c)) (.release l) ()) (.proc i)).intent =
      (K (.proc i)).intent := by
    intro i
    by_cases ht : Thread.proc i = active s c
    · rw [ht, know_same]
      rfl
    · rw [Function.update_of_ne ht]
  intro d chan done hd i hi
  rw [active_congr hturn] at hd
  rw [htable]
  simp only [hintent]
  by_cases hdc : d = c
  · subst hdc
    rw [know_same] at hd
    obtain ⟨⟨ch,done'⟩,hw,he⟩ := Option.map_eq_some_iff.mp hd
    obtain ⟨rfl,rfl⟩ := Prod.mk.inj he
    rcases List.mem_append.mp hi with hi | hi
    · obtain ⟨e,he,rfl⟩ := List.mem_map.mp hi
      obtain ⟨hin,hne⟩ := List.mem_filter.mp he
      obtain ⟨rfl,hawake⟩ : Lock.proc e.1 = l ∧ e.2 ≠ (.sleeping,ch) := by simpa using hne
      refine ⟨?_,fun ch hch => not_drowsy hL hR hw hl hch⟩
      rw [hR.saw d e hin]
      exact hawake
    · exact h d _ done' hw i hi
  · rw [know_other hL _ hdc] at hd
    exact h d chan done hd i hi

omit [DecidableEq κ] in
theorem face_sleeping (hR : Running K s) (hu : updateOk (who (active s c)) (K (active s c)) i u)
    (hs : ∀ chan, u ≠ .sleepOn chan) (htable : s'.table = setProc s.table i (u.apply (s.table i)))
    (j : Slot) (chan : Option Chan)
    (hj : face (s'.table j) = (.sleeping,chan)) : face (s.table j) = (.sleeping,chan) := by
  rw [htable, setProc_apply] at hj
  split_ifs at hj with hji
  · subst hji
    rw [face_apply] at hj
    cases u with
    | sleepOn ch => exact absurd rfl (hs ch)
    | tidy =>
      have hi := turn_of_who hu.1
      have hrole := hu.2.1
      rw [active_some hi] at hrole
      have hst : (s.table j).state = .sleeping := congrArg Prod.fst hj
      rcases hR.runs c j hi with ⟨-,hx⟩ | ⟨hx,-⟩ | ⟨hx,-⟩
      · cases hst.symm.trans hx
      · cases hrole.symm.trans hx
      · cases hrole.symm.trans hx
    | yield => cases congrArg Prod.fst hj
    | zombie status => cases congrArg Prod.fst hj
    | wake ch => cases congrArg Prod.fst hj
    | rouse => cases congrArg Prod.fst hj
    | alloc pid => cases congrArg Prod.fst hj
    | free => cases congrArg Prod.fst hj
    | publish => cases congrArg Prod.fst hj
    | _ => exact hj
  · exact hj

theorem woke_update (hL : Locking lk K s) (hR : Running K s) (h : Woke K s)
    (hu : updateOk (who (active s c)) (K (active s c)) i u) (hturn : s'.turn = s.turn)
    (htable : s'.table = setProc s.table i (u.apply (s.table i))) :
    Woke (Function.update K (active s c)
      (post (who (active s c)) (K (active s c)) (.update i u) ())) s' := by
  have hintent : ∀ ch, intentAfter (K (active s c)) u = some ch →
      (K (active s c)).intent = some ch := by
    intro ch hch
    rcases intent_cases (K (active s c)) u with hx | hx
    · exact hx.symm.trans hch
    · cases hx.symm.trans hch
  by_cases hs : ∀ chan, u ≠ .sleepOn chan
  · exact woke_know hL h hturn (fun _ hw => hw) hintent (face_sleeping hR hu hs htable)
  · obtain ⟨ch,rfl⟩ := not_forall_not.mp hs
    have hact := active_some (turn_of_who hu.1)
    have hch : (K (.proc i)).intent = some ch := hact ▸ hu.2.2.2
    -- the waker is not done with a process that is on its way to sleep on the channel
    have hsame : Woke (Function.update K (active s c)
        (post (who (active s c)) (K (active s c)) (.update i (.sleepOn ch)) ())) s :=
      woke_know hL h rfl (fun _ hw => hw) hintent (fun _ _ hf => hf)
    intro d chan done hd j hj
    rw [active_congr hturn] at hd
    refine ⟨?_,(hsame d chan done hd j hj).2⟩
    rw [htable, setProc_apply]
    split_ifs with hji
    · subst hji
      have hw : (K (active s d)).waking = some (chan,done) := by
        by_cases hdc : d = c
        · rw [hdc, know_same] at hd
          rw [hdc]
          exact hd
        · rwa [know_other hL _ hdc] at hd
      intro hf
      exact (h d chan done hw j hj).2 ch hch (congrArg Prod.snd hf)
    · exact (hsame d chan done hd j hj).1

theorem woke_note (hL : Locking lk K s) (h : Woke K s) {n : Note}
    (hn : noteOk lk (who (active s c)) (K (active s c)) n) (hturn : s'.turn = s.turn)
    (htable : s'.table = s.table) :
    Woke (Function.update K (active s c) (noteAfter (K (active s c)) n)) s' := by
  have hface : ∀ i chan, face (s'.table i) = (.sleeping,chan) →
      face (s.table i) = (.sleeping,chan) := fun i chan hf => htable ▸ hf
  cases n with
  | wakeupReturned chan => exact woke_know hL h hturn nofun (fun _ hi => hi) hface
  | scanned best => exact woke_know hL h hturn (fun _ hw => hw) (fun _ hi => hi) hface
  | wakeupCalled chan =>
    intro d chan' done hd i hi
    rw [active_congr hturn] at hd
    by_cases hdc : d = c
    · rw [hdc, know_same] at hd
      cases hd
      cases hi
    · rw [know_other hL _ hdc] at hd
      rw [htable]
      refine ⟨(h d chan' done hd i hi).1,fun ch hch => (h d chan' done hd i hi).2 ch ?_⟩
      by_cases ht : Thread.proc i = active s c
      · rw [ht, know_same] at hch
        rw [ht]
        exact hch
      · rwa [Function.update_of_ne ht] at hch
  | sleepCalled chan =>
    intro d chan' done hd i hi
    rw [active_congr hturn] at hd
    by_cases hdc : d = c
    · rw [hdc, know_same] at hd
      cases hn.2.1.symm.trans hd
    · rw [know_other hL _ hdc] at hd
      rw [htable]
      refine ⟨(h d chan' done hd i hi).1,fun ch hch => ?_⟩
      by_cases ht : Thread.proc i = active s c
      · rw [ht, know_same] at hch
        cases hch
        rintro rfl
        exact hdc (held_unique hL ((hL.proper _).waker _ _ hd) hn.1)
      · rw [Function.update_of_ne ht] at hch
        exact (h d chan' done hd i hi).2 ch hch

theorem woke_sched (hL : Locking lk K s) (h : Woke K s) {p : Slot} (hp : s.turn c = some p)
    (hturn : s'.turn = Function.update s.turn c none) (htable : s'.table = s.table)
    (hi : a.intent = none) (hback : (K (.hart c)).waking = none) :
    Woke (Function.update K (.proc p) a) s' := by
  refine woke_frame h ?_ (fun i chan hf => htable ▸ hf) ?_
  · intro d w hd
    by_cases hdc : d = c
    · have hact : active s' c = .hart c := active_none (by rw [hturn, Function.update_self])
      rw [hdc, hact, know_hart, hback] at hd
      cases hd
    · rwa [active_ne hturn hdc, ← active_some hp, know_other hL _ hdc] at hd
  · intro i ch hch
    by_cases hip : i = p
    · rw [hip, know_same, hi] at hch
      cases hch
    · rwa [Function.update_of_ne (by simpa using hip)] at hch

theorem woke_swtch (hL : Locking lk K s) (h : Woke K s) {b : Slot} (hc : s.turn c = none)
    (hturn : s'.turn = Function.update s.turn c (some b)) (htable : s'.table = s.table)
    (hb : (K (.proc b)).waking = none) :
    Woke (Function.update K (.hart c) a) s' := by
  refine woke_frame h ?_ (fun i chan hf => htable ▸ hf) ?_
  · intro d w hd
    by_cases hdc : d = c
    · have hact : active s' c = .proc b := active_some (by rw [hturn, Function.update_self])
      rw [hdc, hact, know_proc, hb] at hd
      cases hd
    · rwa [active_ne hturn hdc, ← active_none hc, know_other hL _ hdc] at hd
  · intro i ch hch
    rwa [know_proc] at hch

end GreenOS.WakeInvariant
