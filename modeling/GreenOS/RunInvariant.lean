import GreenOS.LockInvariant

/-!
# Processes run where they were dispatched

`Running` connects what the threads know with the table and the CPUs: an entry
read under its lock is as it was read, a process that runs is RUNNING until it
changes its own state, and a CPU's `c->proc` is the process it has dispatched
and not collected yet.
-/

namespace GreenOS.RunInvariant
open ProcTable KernelCode
open KernelMachine ThreadKnowledge LockInvariant
open Function (update_self update_of_ne)

variable {κ : Type} [DecidableEq κ] {lk : ℕ → ℕ} {K K' : Thread κ → Know} {s s' : Sys κ} {c : κ}

structure Running (K : Thread κ → Know) (s : Sys κ) : Prop where
  saw : ∀ c, ∀ e ∈ (K (active s c)).sees, face (s.table e.1) = e.2
  rest : ∀ p, (∀ c, s.turn c ≠ some p) → ∃ dead child, K (.proc p) = resumed p dead child
  alive : ∀ p, (K (.proc p)).role = .dead → (s.table p).state ≠ .sleeping ∧
    (s.table p).state ≠ .runnable ∧ (s.table p).state ≠ .running
  lent : ∀ c p, s.turn c = some p →
    K (.hart c) = gotBack p (K (.hart c)).trail ∧ s.current c = some p
  runs : ∀ c p, s.turn c = some p →
    (K (.proc p)).role = .running ∧ (s.table p).state = .running ∨
      (K (.proc p)).role = .left true ∧ (s.table p).state = .zombie ∨
      (K (.proc p)).role = .left false ∧
        ((s.table p).state = .runnable ∨ (s.table p).state = .sleeping)
  idle : ∀ c, s.turn c = none → (K (.hart c)).role = .hart ∧ s.current c = none ∨
    (∃ b, (K (.hart c)).role = .chosen b ∧ s.current c = some b ∧ (s.table b).state = .running) ∨
    ∃ b, (K (.hart c)).role = .back b ∧ s.current c = some b ∧ (s.table b).state ≠ .running
  busy : ∀ p, (s.table p).state = .running →
    ∃ c, s.current c = some p ∧ (s.turn c = some p ∨ (K (.hart c)).role = .chosen p)
  once : ∀ c d p, s.current c = some p → s.current d = some p → c = d
  child : ∀ t i b, (K t).child = some (i,b) → (s.table i).state = .used ∧
    (b = true → (K (.proc i)).role = .running)
  only : ∀ t t' i b b', (K t).child = some (i,b) → (K t').child = some (i,b') → t = t'

variable {p : Slot}

omit [DecidableEq κ] in
theorem current_locked (hL : Locking lk K s) (h : Running K s) (hc : s.current c = some p) :
    (s.table p).state = .running ∨ Lock.proc p ∈ (K (active s c)).held := by
  cases ht : s.turn c with
  | none =>
    rw [active_none ht]
    rcases h.idle c ht with ⟨-,hno⟩ | ⟨b,-,hb,hrun⟩ | ⟨b,hrole,hb,-⟩
    · cases hno.symm.trans hc
    · cases hb.symm.trans hc
      exact .inl hrun
    · cases hb.symm.trans hc
      exact .inr ((hL.proper _).back_held _ hrole)
  | some q =>
    obtain ⟨-,hq⟩ := h.lent c q ht
    cases hq.symm.trans hc
    rw [active_some ht]
    rcases h.runs c _ ht with ⟨-,hrun⟩ | ⟨hrole,-⟩ | ⟨hrole,-⟩
    · exact .inl hrun
    · exact .inr ((hL.proper _).left_held _ _ rfl hrole)
    · exact .inr ((hL.proper _).left_held _ _ rfl hrole)

omit [DecidableEq κ] in
theorem running_frame (h : Running K s) (hstate : ∀ p, (s'.table p).state = (s.table p).state)
    (hcurrent : s'.current = s.current) (hturn : s'.turn = s.turn)
    (hrole : ∀ t, (K' t).role = (K t).role) (hchild : ∀ t, (K' t).child = (K t).child)
    (hrest : ∀ p, (∀ d, s.turn d ≠ some p) → K' (.proc p) = K (.proc p))
    (hlent : ∀ d p, s.turn d = some p → K' (.hart d) = K (.hart d))
    (hsaw : ∀ d, ∀ e ∈ (K' (active s d)).sees, face (s'.table e.1) = e.2) : Running K' s' where
  saw := by
    rw [active_congr hturn]
    exact hsaw
  rest := by
    intro p hp
    rw [hturn] at hp
    rw [hrest p hp]
    exact h.rest p hp
  alive := by
    intro p
    rw [hrole, hstate]
    exact h.alive p
  lent := by
    intro d p hd
    rw [hturn] at hd
    rw [hlent d p hd, hcurrent]
    exact h.lent d p hd
  runs := by
    intro d p hd
    rw [hturn] at hd
    rw [hrole, hstate]
    exact h.runs d p hd
  idle := by
    intro d hd
    rw [hturn] at hd
    simp only [hrole, hcurrent, hstate]
    exact h.idle d hd
  busy := by
    intro p hp
    rw [hstate] at hp
    simp only [hcurrent, hturn, hrole]
    exact h.busy p hp
  once := hcurrent ▸ h.once
  child := by
    intro t i b hb
    rw [hchild] at hb
    rw [hstate, hrole]
    exact h.child t i b hb
  only := by
    intro t t' i b b' hb hb'
    rw [hchild] at hb hb'
    exact h.only t t' i b b' hb hb'

/-- What is left to show when a turn of the CPU `c` concerns the process `i` alone. -/
structure Local (K' : Thread κ → Know) (s' : Sys κ) (c : κ) (i : Slot) : Prop where
  saw : ∀ e ∈ (K' (active s' c)).sees, face (s'.table e.1) = e.2
  turn : ∀ p, s'.turn c = some p → p = i
  current : ∀ p, s'.current c = some p → p = i
  rest : s'.turn c = none → ∃ dead child, K' (.proc i) = resumed i dead child
  alive : (K' (.proc i)).role = .dead → (s'.table i).state ≠ .sleeping ∧
    (s'.table i).state ≠ .runnable ∧ (s'.table i).state ≠ .running
  lent : s'.turn c = some i →
    K' (.hart c) = gotBack i (K' (.hart c)).trail ∧ s'.current c = some i
  runs : s'.turn c = some i →
    (K' (.proc i)).role = .running ∧ (s'.table i).state = .running ∨
      (K' (.proc i)).role = .left true ∧ (s'.table i).state = .zombie ∨
      (K' (.proc i)).role = .left false ∧
        ((s'.table i).state = .runnable ∨ (s'.table i).state = .sleeping)
  idle : s'.turn c = none → (K' (.hart c)).role = .hart ∧ s'.current c = none ∨
    (∃ b, (K' (.hart c)).role = .chosen b ∧ s'.current c = some b ∧
      (s'.table b).state = .running) ∨
    ∃ b, (K' (.hart c)).role = .back b ∧ s'.current c = some b ∧ (s'.table b).state ≠ .running
  busy : (s'.table i).state = .running →
    s'.current c = some i ∧ (s'.turn c = some i ∨ (K' (.hart c)).role = .chosen i)

omit [DecidableEq κ] in
theorem running_local {i : Slot} (h : Running K s) (hl : Local K' s' c i)
    (htable : ∀ p, p ≠ i → s'.table p = s.table p)
    (hcurrent : ∀ d, d ≠ c → s'.current d = s.current d)
    (hturn : ∀ d, d ≠ c → s'.turn d = s.turn d)
    (hproc : ∀ p, p ≠ i → K' (.proc p) = K (.proc p))
    (hhart : ∀ d, d ≠ c → K' (.hart d) = K (.hart d))
    (hkids : ∀ t, (K' t).child = (K t).child)
    (haway : ∀ d, d ≠ c → s.current d ≠ some i) (hon : ∀ p, s.turn c = some p → p = i)
    (hcur : ∀ p, s.current c = some p → p = i)
    (hface : ∀ d, d ≠ c → ∀ e ∈ (K (active s d)).sees, face (s'.table e.1) = face (s.table e.1))
    (hchild : ∀ t b, (K t).child = some (i,b) → (s'.table i).state = .used ∧
      (b = true → (K' (.proc i)).role = .running)) : Running K' s' := by
  have hne : ∀ d p, d ≠ c → s.turn d = some p → p ≠ i := by
    rintro d p hd hp rfl
    exact haway d hd (h.lent d p hp).2
  constructor
  case saw =>
    intro d e he
    by_cases hd : d = c
    · subst hd
      exact hl.saw e he
    · have hknow : K' (active s' d) = K (active s d) := by
        cases ht : s.turn d with
        | none => rw [active_none ((hturn d hd).trans ht), active_none ht, hhart d hd]
        | some q =>
          rw [active_some ((hturn d hd).trans ht), active_some ht, hproc q (hne d q hd ht)]
      rw [hknow] at he
      exact (hface d hd e he).trans (h.saw d e he)
  case rest =>
    intro p hp
    by_cases hpi : p = i
    · subst hpi
      apply hl.rest
      cases ht : s'.turn c with
      | none => rfl
      | some q => exact absurd (hl.turn q ht ▸ ht) (hp c)
    · rw [hproc p hpi]
      refine h.rest p fun d hd => ?_
      by_cases hdc : d = c
      · exact hpi (hon p (hdc ▸ hd))
      · exact hp d ((hturn d hdc).trans hd)
  case alive =>
    intro p hp
    by_cases hpi : p = i
    · subst hpi
      exact hl.alive hp
    · rw [hproc p hpi] at hp
      rw [htable p hpi]
      exact h.alive p hp
  case lent =>
    intro d p hd
    by_cases hdc : d = c
    · subst hdc
      obtain rfl := hl.turn p hd
      exact hl.lent hd
    · rw [hhart d hdc, hcurrent d hdc]
      exact h.lent d p ((hturn d hdc).symm.trans hd)
  case runs =>
    intro d p hd
    by_cases hdc : d = c
    · subst hdc
      obtain rfl := hl.turn p hd
      exact hl.runs hd
    · rw [hturn d hdc] at hd
      have hpi := hne d p hdc hd
      rw [hproc p hpi, htable p hpi]
      exact h.runs d p hd
  case idle =>
    intro d hd
    by_cases hdc : d = c
    · subst hdc
      exact hl.idle hd
    · rw [hhart d hdc, hcurrent d hdc]
      refine (h.idle d ((hturn d hdc).symm.trans hd)).imp_right (Or.imp ?_ ?_)
      all_goals
        rintro ⟨b,hr,hb,hst⟩
        refine ⟨b,hr,hb,?_⟩
        rw [htable b (fun he => haway d hdc (he ▸ hb))]
        exact hst
  case busy =>
    intro p hp
    by_cases hpi : p = i
    · subst hpi
      exact ⟨c,hl.busy hp⟩
    · rw [htable p hpi] at hp
      obtain ⟨d,hd,hw⟩ := h.busy p hp
      have hdc : d ≠ c := fun he => hpi (hcur p (he ▸ hd))
      exact ⟨d,(hcurrent d hdc).trans hd,by rwa [hturn d hdc, hhart d hdc]⟩
  case once =>
    have hother : ∀ d p, d ≠ c → s'.current c = some p → s'.current d ≠ some p := by
      intro d p hd hc' hd'
      rw [hcurrent d hd, hl.current p hc'] at hd'
      exact haway d hd hd'
    intro d e p hd he
    by_cases hdc : d = c <;> by_cases hec : e = c
    · rw [hdc, hec]
    · exact absurd he (hother e p hec (hdc ▸ hd))
    · exact absurd hd (hother d p hdc (hec ▸ he))
    · exact h.once d e p ((hcurrent d hdc).symm.trans hd) ((hcurrent e hec).symm.trans he)
  case child =>
    intro t j b hb
    rw [hkids] at hb
    by_cases hji : j = i
    · subst hji
      exact hchild t b hb
    · rw [hproc j hji, htable j hji]
      exact h.child t j b hb
  case only =>
    intro t t' j b b' hb hb'
    rw [hkids] at hb hb'
    exact h.only t t' j b b' hb hb'

section Know
variable {a : Know} {t : Thread κ}

theorem kids_update (hchild : a.child = (K t).child) (t' : Thread κ) :
    (Function.update K t a t').child = (K t').child := by
  by_cases ht : t' = t
  · rw [ht, know_same, hchild]
  · rw [update_of_ne ht]

theorem hart_update (d : κ) (hd : d ≠ c) :
    Function.update K (.hart c) a (.hart d) = K (.hart d) :=
  update_of_ne (by simpa using hd) ..

theorem proc_update {i : Slot} (p : Slot) (hp : p ≠ i) :
    Function.update K (.proc i) a (.proc p) = K (.proc p) :=
  update_of_ne (by simpa using hp) ..

end Know

omit [DecidableEq κ] in
theorem resting_ne (hp : ∀ d, s.turn d ≠ some p) : Thread.proc p ≠ active s c := by
  intro he
  cases ht : s.turn c with
  | none =>
    rw [active_none ht] at he
    cases he
  | some q =>
    rw [active_some ht] at he
    cases he
    exact hp c ht

omit [DecidableEq κ] in
theorem lent_ne {d : κ} (hd : s.turn d = some p) : Thread.hart d ≠ active s c := by
  intro he
  cases ht : s.turn c with
  | none =>
    rw [active_none ht] at he
    cases he
    cases hd.symm.trans ht
  | some q =>
    rw [active_some ht] at he
    cases he

theorem running_know (hL : Locking lk K s) (h : Running K s) {a : Know}
    (hstate : ∀ p, (s'.table p).state = (s.table p).state)
    (hcurrent : s'.current = s.current) (hturn : s'.turn = s.turn)
    (hrole : a.role = (K (active s c)).role) (hchild : a.child = (K (active s c)).child)
    (hsaw : ∀ e ∈ a.sees, face (s'.table e.1) = e.2)
    (hothers : ∀ d ≠ c, ∀ e ∈ (K (active s d)).sees, face (s'.table e.1) = face (s.table e.1)) :
    Running (Function.update K (active s c) a) s' := by
  refine running_frame h hstate hcurrent hturn ?_ ?_ ?_ ?_ ?_
  · intro t
    by_cases ht : t = active s c
    · rw [ht, know_same, hrole]
    · rw [update_of_ne ht]
  · intro t
    by_cases ht : t = active s c
    · rw [ht, know_same, hchild]
    · rw [update_of_ne ht]
  · intro p hp
    exact update_of_ne (resting_ne hp) ..
  · intro d p hd
    exact update_of_ne (lent_ne hd) ..
  · intro d e he
    by_cases hd : d = c
    · rw [hd, know_same] at he
      exact hsaw e he
    · rw [know_other hL _ hd] at he
      exact (hothers d hd e he).trans (h.saw d e he)

section Updates
variable {i : Slot} {u : Update}

omit [DecidableEq κ] in
/-- The accounts after an update are true, under the lock of the entry or if the
update does not show in its face. -/
theorem saw_update (h : Running K s)
    (htable : s'.table = setProc s.table i (u.apply (s.table i))) :
    ∀ e ∈ (post (who (active s c)) (K (active s c)) (.update i u) ()).sees,
      face (s'.table e.1) = e.2 := by
  intro e he
  obtain ⟨e',he',rfl⟩ := List.mem_map.mp he
  have htrue := h.saw c e' he'
  rw [htable]
  split_ifs with hi
  · rw [setProc_same, face_apply, ← htrue, hi]
  · rw [setProc_ne _ _ hi, htrue]

variable {x : Proc} {a : Know} {chan : Option Chan}

omit [DecidableEq κ] in
theorem saw_others (hL : Locking lk K s) (hheld : Lock.proc i ∈ (K (active s c)).held)
    (htable : s'.table = setProc s.table i x) :
    ∀ d ≠ c, ∀ e ∈ (K (active s d)).sees, face (s'.table e.1) = face (s.table e.1) := by
  intro d hd e he
  have hne : e.1 ≠ i := by
    rintro rfl
    exact hd (held_unique hL ((hL.proper _).seen e he) hheld)
  rw [htable, setProc_ne _ _ hne]

omit [DecidableEq κ] in
theorem settled_rest (hL : Locking lk K s) (h : Running K s) (hset : Settled (K (active s c)))
    (hheld : Lock.proc i ∈ (K (active s c)).held) (hold : (s.table i).state ≠ .running) :
    ∀ d, s.turn d ≠ some i := by
  intro d hd
  have hleft : ∀ z, (K (.proc i)).role ≠ .left z := by
    intro z hz
    have hin : Lock.proc i ∈ (K (active s d)).held := by
      rw [active_some hd]
      exact (hL.proper (.proc i)).left_held i z rfl hz
    obtain rfl := held_unique hL hin hheld
    rw [active_some hd] at hset
    rcases hset with hr | hr <;> cases hz.symm.trans hr
  rcases h.runs d i hd with ⟨-,hrun⟩ | ⟨hz,-⟩ | ⟨hz,-⟩
  · exact hold hrun
  · exact hleft _ hz
  · exact hleft _ hz

theorem running_shift (hL : Locking lk K s) (h : Running K s)
    (hheld : Lock.proc i ∈ (K (active s c)).held) (hset : Settled (K (active s c)))
    (hold : (s.table i).state ≠ .running) (hnew : x.state ≠ .running)
    (htable : s'.table = setProc s.table i x) (hcurrent : s'.current = s.current)
    (hturn : s'.turn = s.turn) (hrole : a.role = (K (active s c)).role)
    (halive : (K (.proc i)).role = .dead → x.state ≠ .sleeping ∧ x.state ≠ .runnable)
    (hsaw : ∀ e ∈ a.sees, face (s'.table e.1) = e.2)
    (hchild : ∀ j b, a.child = some (j,b) →
      (s'.table j).state = .used ∧ (b = true → (K (.proc j)).role = .running))
    (honly : ∀ j b, a.child = some (j,b) →
      (∃ b', (K (active s c)).child = some (j,b')) ∨ ∀ t b', (K t).child ≠ some (j,b'))
    (hkeep : ∀ t b, t ≠ active s c → (K t).child ≠ some (i,b)) :
    Running (Function.update K (active s c) a) s' := by
  have hrest := settled_rest hL h hset hheld hold
  have hrole' : ∀ t, (Function.update K (active s c) a t).role = (K t).role := by
    intro t
    by_cases ht : t = active s c
    · rw [ht, know_same, hrole]
    · rw [update_of_ne ht]
  have hsame : ∀ p, p ≠ i → s'.table p = s.table p := fun p hp => by rw [htable, setProc_ne _ _ hp]
  have hi : s'.table i = x := by rw [htable, setProc_same]
  constructor
  case saw =>
    rw [active_congr hturn]
    intro d e he
    by_cases hd : d = c
    · rw [hd, know_same] at he
      exact hsaw e he
    · rw [know_other hL _ hd] at he
      exact (saw_others hL hheld htable d hd e he).trans (h.saw d e he)
  case rest =>
    intro p hp
    rw [hturn] at hp
    rw [update_of_ne (resting_ne hp)]
    exact h.rest p hp
  case alive =>
    intro p hp
    rw [hrole'] at hp
    by_cases hpi : p = i
    · subst hpi
      rw [hi]
      exact ⟨(halive hp).1,(halive hp).2,hnew⟩
    · rw [hsame p hpi]
      exact h.alive p hp
  case lent =>
    intro d p hd
    rw [hturn] at hd
    rw [update_of_ne (lent_ne hd), hcurrent]
    exact h.lent d p hd
  case runs =>
    intro d p hd
    rw [hturn] at hd
    have hpi : p ≠ i := fun he => hrest d (he ▸ hd)
    rw [hrole', hsame p hpi]
    exact h.runs d p hd
  case idle =>
    intro d hd
    rw [hturn] at hd
    simp only [hrole', hcurrent]
    refine (h.idle d hd).imp_right (Or.imp ?_ ?_)
    · rintro ⟨b,hr,hb,hrun⟩
      have hbi : b ≠ i := fun he => hold (he ▸ hrun)
      exact ⟨b,hr,hb,by rw [hsame b hbi, hrun]⟩
    · rintro ⟨b,hr,hb,hrun⟩
      refine ⟨b,hr,hb,?_⟩
      by_cases hbi : b = i
      · rw [hbi, hi]
        exact hnew
      · rw [hsame b hbi]
        exact hrun
  case busy =>
    intro p hp
    have hpi : p ≠ i := by
      rintro rfl
      rw [hi] at hp
      exact hnew hp
    rw [hsame p hpi] at hp
    simp only [hcurrent, hturn, hrole']
    exact h.busy p hp
  case once => exact hcurrent ▸ h.once
  case child =>
    intro t j b hb
    rw [hrole']
    by_cases ht : t = active s c
    · rw [ht, know_same] at hb
      exact hchild j b hb
    · rw [update_of_ne ht] at hb
      have hji : j ≠ i := fun he => hkeep t b ht (he ▸ hb)
      rw [hsame j hji]
      exact h.child t j b hb
  case only =>
    have hone : ∀ t j b b', t ≠ active s c → a.child = some (j,b) → (K t).child ≠ some (j,b') := by
      intro t j b b' ht hb hb'
      rcases honly j b hb with ⟨b'',hb''⟩ | hno
      · exact ht (h.only t (active s c) j b' b'' hb' hb'')
      · exact hno t b' hb'
    intro t t' j b b' hb hb'
    by_cases ht : t = active s c <;> by_cases ht' : t' = active s c
    · rw [ht, ht']
    · rw [ht, know_same] at hb
      rw [update_of_ne ht'] at hb'
      exact absurd hb' (hone t' j b b' ht' hb)
    · rw [ht', know_same] at hb'
      rw [update_of_ne ht] at hb
      exact absurd hb (hone t j b' b ht hb')
    · rw [update_of_ne ht] at hb
      rw [update_of_ne ht'] at hb'
      exact h.only t t' j b b' hb hb'

theorem running_leave (hL : Locking lk K s) (h : Running K s) {z : Bool} (hi : s.turn c = some i)
    (hheld : Lock.proc i ∈ (K (.proc i)).held) (hrun : (K (.proc i)).role = .running)
    (htable : s'.table = setProc s.table i x) (hcurrent : s'.current = s.current)
    (hturn : s'.turn = s.turn) (hrole : a.role = .left z)
    (hstate : z = true ∧ x.state = .zombie ∨ z = false ∧
      (x.state = .runnable ∨ x.state = .sleeping))
    (hchild : a.child = (K (.proc i)).child) (hsaw : ∀ e ∈ a.sees, face (s'.table e.1) = e.2) :
    Running (Function.update K (.proc i) a) s' := by
  have hact := active_some hi
  have hcur := (h.lent c i hi).2
  have hold : (s.table i).state = .running := by
    rcases h.runs c i hi with ⟨-,hst⟩ | ⟨hr,-⟩ | ⟨hr,-⟩
    · exact hst
    · cases hrun.symm.trans hr
    · cases hrun.symm.trans hr
  have hnew : x.state ≠ .running := by
    rcases hstate with ⟨-,hx⟩ | ⟨-,hx | hx⟩ <;> simp [hx]
  have hsame : ∀ p, p ≠ i → s'.table p = s.table p := fun p hp => by rw [htable, setProc_ne _ _ hp]
  have hx : s'.table i = x := by rw [htable, setProc_same]
  have hturnc : s'.turn c = some i := by rw [hturn, hi]
  refine running_local (i := i) h ⟨?_,?_,?_,?_,?_,?_,?_,?_,?_⟩ hsame (fun d _ => by rw [hcurrent])
    (fun d _ => by rw [hturn]) proc_update (fun d _ => know_hart _ _ d) (kids_update hchild) ?_ ?_
    ?_ (saw_others hL (hact.symm ▸ hheld) htable) ?_
  · rw [active_some hturnc, know_same]
    exact hsaw
  · exact fun p hp => Option.some.inj (hp.symm.trans hturnc)
  · exact fun p hp => Option.some.inj (hp.symm.trans (by rw [hcurrent, hcur]))
  · exact fun hno => by cases hno.symm.trans hturnc
  · intro hd
    rw [know_same, hrole] at hd
    cases hd
  · intro _
    rw [know_hart, hcurrent]
    exact h.lent c i hi
  · intro _
    rw [know_same, hrole, hx]
    rcases hstate with ⟨rfl,hst⟩ | ⟨rfl,hst⟩
    · exact .inr (.inl ⟨rfl,hst⟩)
    · exact .inr (.inr ⟨rfl,hst⟩)
  · exact fun hno => by cases hno.symm.trans hturnc
  · intro hst
    rw [hx] at hst
    exact absurd hst hnew
  · exact fun d hd hdi => hd (h.once d c i hdi hcur)
  · exact fun p hp => Option.some.inj (hp.symm.trans hi)
  · exact fun p hp => Option.some.inj (hp.symm.trans hcur)
  · intro t b hb
    cases hold.symm.trans (h.child t i b hb).1

omit [DecidableEq κ] in
theorem saw_state (h : Running K s) {st : ProcState}
    (he : (i,st,chan) ∈ (K (active s c)).sees) : (s.table i).state = st :=
  congrArg Prod.fst (h.saw c _ he)

theorem running_mild (hL : Locking lk K s) (h : Running K s) (hm : mild u = true)
    (htable : s'.table = setProc s.table i (u.apply (s.table i)))
    (hcurrent : s'.current = s.current) (hturn : s'.turn = s.turn) :
    Running (Function.update K (active s c)
      (post (who (active s c)) (K (active s c)) (.update i u) ())) s' := by
  have hface : ∀ p, face (s'.table p) = face (s.table p) := by
    intro p
    rw [htable, setProc_apply]
    split_ifs with hp
    · rw [face_apply, mild_face hm, hp]
    · rfl
  refine running_know hL h (fun p => congrArg Prod.fst (hface p)) hcurrent hturn ?_ ?_
    (saw_update h htable) (fun d _ e _ => hface e.1)
  · cases u <;> first | rfl | cases hm
  · cases u <;> first | rfl | cases hm

theorem running_wake (hL : Locking lk K s) (h : Running K s) (hset : Settled (K (active s c)))
    (hi : (i,.sleeping,chan) ∈ (K (active s c)).sees) (hx : x.state = .runnable)
    (htable : s'.table = setProc s.table i x) (hcurrent : s'.current = s.current)
    (hturn : s'.turn = s.turn) (hrole : a.role = (K (active s c)).role)
    (hchild : a.child = (K (active s c)).child) (hsaw : ∀ e ∈ a.sees, face (s'.table e.1) = e.2) :
    Running (Function.update K (active s c) a) s' := by
  have hst := saw_state h hi
  have hkid : ∀ t b, (K t).child ≠ some (i,b) := fun t b hb => by
    cases hst.symm.trans (h.child t i b hb).1
  refine running_shift hL h ((hL.proper _).seen _ hi) hset (by simp [hst]) (by simp [hx]) htable
    hcurrent hturn hrole ?_ hsaw ?_ ?_ (fun t b _ => hkid t b)
  · exact fun hd => absurd hst (h.alive i hd).1
  · intro j b hb
    rw [hchild] at hb
    have hji : j ≠ i := fun he => hkid _ b (he ▸ hb)
    rw [htable, setProc_ne _ _ hji]
    exact h.child _ j b hb
  · intro j b hb
    rw [hchild] at hb
    exact .inl ⟨b,hb⟩

theorem running_free (hL : Locking lk K s) (h : Running K s)
    (hset : Settled (K (active s c))) (hheld : Lock.proc i ∈ (K (active s c)).held)
    (hi : (∃ chan, (i,.zombie,chan) ∈ (K (active s c)).sees) ∨
      ∃ b, (K (active s c)).child = some (i,b))
    (htable : s'.table = setProc s.table i (Update.free.apply (s.table i)))
    (hcurrent : s'.current = s.current) (hturn : s'.turn = s.turn) :
    Running (Function.update K (active s c)
      (post (who (active s c)) (K (active s c)) (.update i .free) ())) s' := by
  have hst : (s.table i).state = .zombie ∨
      (s.table i).state = .used ∧ ∃ b, (K (active s c)).child = some (i,b) := by
    rcases hi with ⟨chan,hin⟩ | ⟨b,hb⟩
    · exact .inl (saw_state h hin)
    · exact .inr ⟨(h.child _ i b hb).1,b,hb⟩
  have hkeep : ∀ t b, t ≠ active s c → (K t).child ≠ some (i,b) := by
    intro t b ht hb
    rcases hst with hz | ⟨-,b',hb'⟩
    · cases hz.symm.trans (h.child t i b hb).1
    · exact ht (h.only t _ i b b' hb hb')
  have hleft : ∀ j b, childAfter (K (active s c)) i .free = some (j,b) →
      (K (active s c)).child = some (j,b) ∧ j ≠ i := by
    intro j b hb
    simp only [childAfter] at hb
    split_ifs at hb with hc
    refine ⟨hb,?_⟩
    rintro rfl
    exact hc (by rw [hb]; rfl)
  refine running_shift hL h hheld hset ?_ ?_ htable hcurrent hturn rfl ?_
    (saw_update h htable) ?_ ?_ hkeep
  · rcases hst with hz | ⟨hz,-⟩ <;> simp [hz]
  · simp [Update.apply, freeproc]
  · simp [Update.apply, freeproc]
  · intro j b hb
    obtain ⟨hb,hji⟩ := hleft j b hb
    rw [htable, setProc_ne _ _ hji]
    exact h.child _ j b hb
  · exact fun j b hb => .inl ⟨b,(hleft j b hb).1⟩

omit [DecidableEq κ] in
theorem turn_of_who (hw : who (active s c) = some i) : s.turn c = some i := by
  cases ht : s.turn c with
  | none => rw [who_none ht] at hw; cases hw
  | some p => rw [who_some ht] at hw; exact hw

theorem running_update (hL : Locking lk K s) (h : Running K s)
    (hu : updateOk (who (active s c)) (K (active s c)) i u)
    (htable : s'.table = setProc s.table i (u.apply (s.table i)))
    (hcurrent : s'.current = s.current) (hturn : s'.turn = s.turn) :
    Running (Function.update K (active s c)
      (post (who (active s c)) (K (active s c)) (.update i u) ())) s' := by
  have hsaw := saw_update (c := c) h htable
  cases u with
  | yield =>
    have hi := turn_of_who hu.1
    rw [active_some hi] at hu hsaw ⊢
    exact running_leave hL h hi hu.2.2.1 hu.2.1 htable hcurrent hturn rfl (.inr ⟨rfl,.inl rfl⟩) rfl
      hsaw
  | sleepOn chan =>
    have hi := turn_of_who hu.1
    rw [active_some hi] at hu hsaw ⊢
    exact running_leave hL h hi hu.2.2.1 hu.2.1 htable hcurrent hturn rfl (.inr ⟨rfl,.inr rfl⟩) rfl
      hsaw
  | zombie status =>
    have hi := turn_of_who hu.1
    rw [active_some hi] at hu hsaw ⊢
    exact running_leave hL h hi hu.2.2.1 hu.2.1 htable hcurrent hturn rfl (.inl ⟨rfl,rfl⟩) rfl hsaw
  | tidy =>
    refine running_know hL h ?_ hcurrent hturn rfl rfl hsaw (saw_others hL hu.2.2 htable)
    intro p
    rw [htable, setProc_apply]
    split_ifs with hp
    · rw [hp]
      rfl
    · rfl
  | wake chan =>
    obtain ⟨hset,hin⟩ := hu
    exact running_wake hL h hset hin rfl htable hcurrent hturn rfl rfl hsaw
  | rouse =>
    obtain ⟨hset,chan,hin⟩ := hu
    exact running_wake hL h hset hin rfl htable hcurrent hturn rfl rfl hsaw
  | alloc pid =>
    obtain ⟨hset,⟨chan,hin⟩,hnone,-⟩ := hu
    have hst := saw_state h hin
    have hkid : ∀ t b, (K t).child ≠ some (i,b) := fun t b hb => by
      cases hst.symm.trans (h.child t i b hb).1
    refine running_shift hL h ((hL.proper _).seen _ hin) hset (by simp [hst]) ?_ htable
      hcurrent hturn rfl ?_ hsaw ?_ ?_ (fun t b _ => hkid t b)
    · simp [Update.apply]
    · simp [Update.apply]
    · rintro _ _ hb
      cases hb
      rw [htable, setProc_same]
      exact ⟨rfl,fun h => by cases h⟩
    · rintro _ _ hb
      cases hb
      exact .inr hkid
  | free => exact running_free hL h hu.1 hu.2.1 hu.2.2 htable hcurrent hturn
  | publish =>
    obtain ⟨hset,hheld,hb⟩ := hu
    obtain ⟨hst,hready⟩ := h.child _ i true hb
    refine running_shift hL h hheld hset (by simp [hst]) ?_ htable hcurrent hturn rfl ?_ hsaw
      (fun _ _ h => by cases h) (fun _ _ h => by cases h) (fun t b ht hb' =>
        ht (h.only t _ i b true hb' hb))
    · simp [Update.apply]
    · intro hd
      cases (hready rfl).symm.trans hd
  | _ => exact running_mild hL h rfl htable hcurrent hturn

end Updates

section Switches

variable {b i : Slot} {a : Know}

theorem running_dispatch (hL : Locking lk K s) (h : Running K s) (hc : s.turn c = none)
    (hrole : (K (.hart c)).role = .hart) (hheld : Lock.proc b ∈ (K (.hart c)).held)
    (hrun : (s.table b).state = .runnable)
    (htable : s'.table = setProc s.table b { s.table b with state := .running })
    (hcurrent : s'.current = Function.update s.current c (some b)) (hturn : s'.turn = s.turn)
    (ha : a.role = .chosen b) (hchild : a.child = (K (.hart c)).child) (hsees : a.sees = []) :
    Running (Function.update K (.hart c) a) s' := by
  have hact := active_none hc
  have hfree : s.current c = none := by
    rcases h.idle c hc with ⟨-,hno⟩ | ⟨d,hr,-⟩ | ⟨d,hr,-⟩
    · exact hno
    · cases hrole.symm.trans hr
    · cases hrole.symm.trans hr
  -- nobody else has dispatched `b`, for its lock would be taken
  have hnew : ∀ d, s.current d ≠ some b := by
    intro d hd
    rcases current_locked hL h hd with hst | hin
    · cases hrun.symm.trans hst
    · obtain rfl := held_unique hL hin (hact.symm ▸ hheld)
      cases hfree.symm.trans hd
  have hsame : ∀ p, p ≠ b → s'.table p = s.table p := fun p hp => by rw [htable, setProc_ne _ _ hp]
  have hb : (s'.table b).state = .running := by rw [htable, setProc_same]
  have hturnc : s'.turn c = none := by rw [hturn, hc]
  have hcurc : s'.current c = some b := by rw [hcurrent, update_self]
  have hnever : ∀ p, s'.turn c ≠ some p := fun p hp => by cases hturnc.symm.trans hp
  refine running_local (i := b) h ⟨?_,?_,?_,?_,?_,?_,?_,?_,?_⟩ hsame
    (fun d hd => by rw [hcurrent, update_of_ne hd]) (fun d _ => by rw [hturn])
    (fun p _ => know_proc _ _ p) hart_update (kids_update hchild) (fun d _ => hnew d) ?_ ?_
    (saw_others hL (hact.symm ▸ hheld) htable) ?_
  · rw [active_none hturnc, know_same, hsees]
    nofun
  · exact fun p hp => absurd hp (hnever p)
  · exact fun p hp => Option.some.inj (hp.symm.trans hcurc)
  · intro _
    rw [know_proc]
    exact h.rest b fun d hd => hnew d (h.lent d b hd).2
  · intro hd
    rw [know_proc] at hd
    exact absurd hrun (h.alive b hd).2.1
  · exact fun hp => absurd hp (hnever b)
  · exact fun hp => absurd hp (hnever b)
  · intro _
    rw [know_same]
    exact .inr (.inl ⟨b,ha,hcurc,hb⟩)
  · exact fun _ => ⟨hcurc,.inr (by rw [know_same]; exact ha)⟩
  · exact fun p hp => by cases hc.symm.trans hp
  · exact fun p hp => by cases hfree.symm.trans hp
  · intro t q hq
    cases hrun.symm.trans (h.child t b q hq).1

omit [DecidableEq κ] in
theorem chosen_rest (h : Running K s) (hc : s.turn c = none)
    (hrole : (K (.hart c)).role = .chosen b) :
    s.current c = some b ∧ (s.table b).state = .running ∧ ∀ d, s.turn d ≠ some b := by
  have hb : s.current c = some b ∧ (s.table b).state = .running := by
    rcases h.idle c hc with ⟨hr,-⟩ | ⟨q,hr,hq,hst⟩ | ⟨q,hr,-⟩
    · cases hrole.symm.trans hr
    · cases hrole.symm.trans hr
      exact ⟨hq,hst⟩
    · cases hrole.symm.trans hr
  refine ⟨hb.1,hb.2,fun d hd => ?_⟩
  obtain rfl := h.once d c b (h.lent d b hd).2 hb.1
  cases hc.symm.trans hd

theorem running_swtch (hL : Locking lk K s) (h : Running K s) {trail : List (Lock × Bool)}
    (hc : s.turn c = none) (hrole : (K (.hart c)).role = .chosen b) (htable : s'.table = s.table)
    (hcurrent : s'.current = s.current) (hturn : s'.turn = Function.update s.turn c (some b)) :
    Running (Function.update K (.hart c) (gotBack b trail)) s' := by
  obtain ⟨hcur,hst,hrest⟩ := chosen_rest h hc hrole
  obtain ⟨dead,child,hb⟩ := h.rest b hrest
  obtain rfl : dead = false := by
    cases dead with
    | false => rfl
    | true =>
      have hd : (K (.proc b)).role = .dead := by rw [hb]; rfl
      exact absurd hst (h.alive b hd).2.2
  have hkids : (gotBack b trail).child = (K (.hart c)).child := by
    rw [((hL.proper (.hart c)).hart rfl).2.1]
    rfl
  have hturnc : s'.turn c = some b := by rw [hturn, update_self]
  refine running_local (i := b) h ⟨?_,?_,?_,?_,?_,?_,?_,?_,?_⟩ (fun p _ => by rw [htable])
    (fun d _ => by rw [hcurrent]) (fun d hd => by rw [hturn, update_of_ne hd])
    (fun p _ => know_proc _ _ p) hart_update (kids_update hkids)
    (fun d hd hdb => hd (h.once d c b hdb hcur)) ?_ ?_ (fun d _ e _ => by rw [htable]) ?_
  · rw [active_some hturnc, know_proc, hb]
    nofun
  · exact fun p hp => Option.some.inj (hp.symm.trans hturnc)
  · exact fun p hp => Option.some.inj (hp.symm.trans (by rw [hcurrent, hcur]))
  · exact fun hno => by cases hno.symm.trans hturnc
  · intro hd
    rw [know_proc, hb] at hd
    cases hd
  · intro _
    rw [know_same, hcurrent]
    exact ⟨rfl,hcur⟩
  · intro _
    rw [know_proc, htable, hb]
    exact .inl ⟨rfl,hst⟩
  · exact fun hno => by cases hno.symm.trans hturnc
  · exact fun _ => ⟨by rw [hcurrent, hcur],.inl hturnc⟩
  · exact fun p hp => by cases hc.symm.trans hp
  · exact fun p hp => Option.some.inj (hp.symm.trans hcur)
  · intro t q hq
    rw [know_proc, htable]
    exact h.child t b q hq

theorem running_sched (h : Running K s) {p : Slot} {z : Bool}
    (hp : s.turn c = some p) (hrole : (K (.proc p)).role = .left z) (htable : s'.table = s.table)
    (hcurrent : s'.current = s.current) (hturn : s'.turn = Function.update s.turn c none) :
    Running (Function.update K (.proc p) (resumed p z (K (.proc p)).child)) s' := by
  obtain ⟨hback,hcur⟩ := h.lent c p hp
  have hst : (s.table p).state ≠ .running ∧ (s.table p).state ≠ .used ∧
      (z = true → (s.table p).state = .zombie) := by
    rcases h.runs c p hp with ⟨hr,-⟩ | ⟨hr,hs⟩ | ⟨hr,hs⟩ <;> cases hrole.symm.trans hr
    · simp [hs]
    · rcases hs with hs | hs <;> simp [hs]
  have hturnc : s'.turn c = none := by rw [hturn, update_self]
  have hnever : ∀ q, s'.turn c ≠ some q := fun q hq => by cases hturnc.symm.trans hq
  refine running_local (i := p) h ⟨?_,?_,?_,?_,?_,?_,?_,?_,?_⟩ (fun q _ => by rw [htable])
    (fun d _ => by rw [hcurrent]) (fun d hd => by rw [hturn, update_of_ne hd]) proc_update
    (fun d _ => know_hart _ _ d) (kids_update rfl) (fun d hd hdp => hd (h.once d c p hdp hcur)) ?_
    ?_ (fun d _ e _ => by rw [htable]) ?_
  · rw [active_none hturnc, know_hart, hback]
    nofun
  · exact fun q hq => absurd hq (hnever q)
  · exact fun q hq => Option.some.inj (hq.symm.trans (by rw [hcurrent, hcur]))
  · exact fun _ => ⟨z,_,know_same _⟩
  · intro hd
    rw [know_same] at hd
    have hz : z = true := by
      cases z with
      | true => rfl
      | false => cases hd
    rw [htable]
    simp [hst.2.2 hz]
  · exact fun hq => absurd hq (hnever p)
  · exact fun hq => absurd hq (hnever p)
  · intro _
    rw [know_hart, hcurrent, htable]
    exact .inr (.inr ⟨p,by rw [hback]; rfl,hcur,hst.1⟩)
  · intro hq
    rw [htable] at hq
    exact absurd hq hst.1
  · exact fun q hq => Option.some.inj (hq.symm.trans hp)
  · exact fun q hq => Option.some.inj (hq.symm.trans hcur)
  · intro t q hq
    exact absurd (h.child t p q hq).1 hst.2.1

theorem running_collect (h : Running K s) (hc : s.turn c = none)
    (hrole : (K (.hart c)).role = .back b) (ha : a.role = .hart)
    (hchild : a.child = (K (.hart c)).child) (hsees : a.sees = (K (.hart c)).sees)
    (htable : s'.table = s.table) (hcurrent : s'.current = Function.update s.current c none)
    (hturn : s'.turn = s.turn) : Running (Function.update K (.hart c) a) s' := by
  have hb : s.current c = some b ∧ (s.table b).state ≠ .running := by
    rcases h.idle c hc with ⟨hr,-⟩ | ⟨q,hr,-⟩ | ⟨q,hr,hq,hst⟩
    · cases hrole.symm.trans hr
    · cases hrole.symm.trans hr
    · cases hrole.symm.trans hr
      exact ⟨hq,hst⟩
  have hturnc : s'.turn c = none := by rw [hturn, hc]
  have hcurc : s'.current c = none := by rw [hcurrent, update_self]
  have hnever : ∀ p, s'.turn c ≠ some p := fun p hp => by cases hturnc.symm.trans hp
  refine running_local (i := b) h ⟨?_,?_,?_,?_,?_,?_,?_,?_,?_⟩ (fun p _ => by rw [htable])
    (fun d hd => by rw [hcurrent, update_of_ne hd]) (fun d _ => by rw [hturn])
    (fun p _ => know_proc _ _ p) hart_update (kids_update hchild)
    (fun d hd hdb => hd (h.once d c b hdb hb.1)) ?_ ?_ (fun d _ e _ => by rw [htable]) ?_
  · rw [active_none hturnc, know_same, hsees, htable, ← active_none hc]
    exact h.saw c
  · exact fun p hp => absurd hp (hnever p)
  · exact fun p hp => by cases hcurc.symm.trans hp
  · intro _
    rw [know_proc]
    refine h.rest b fun d hd => ?_
    obtain rfl := h.once d c b (h.lent d b hd).2 hb.1
    cases hc.symm.trans hd
  · rw [know_proc, htable]
    exact h.alive b
  · exact fun hp => absurd hp (hnever b)
  · exact fun hp => absurd hp (hnever b)
  · exact fun _ => .inl ⟨by rw [know_same, ha],hcurc⟩
  · intro hst
    rw [htable] at hst
    exact absurd hst hb.2
  · exact fun p hp => by cases hc.symm.trans hp
  · exact fun p hp => Option.some.inj (hp.symm.trans hb.1)
  · intro t q hq
    rw [know_proc, htable]
    exact h.child t b q hq

omit [DecidableEq κ] in
theorem child_rest (h : Running K s) {t : Thread κ} {b : Bool}
    (hb : (K t).child = some (i,b)) : ∀ d, s.turn d ≠ some i := by
  intro d hd
  have hst := (h.child t i b hb).1
  rcases h.runs d i hd with ⟨-,hx⟩ | ⟨-,hx⟩ | ⟨-,hx | hx⟩ <;> cases hst.symm.trans hx

theorem running_context (hL : Locking lk K s) (h : Running K s)
    (hi : (K (active s c)).child = some (i,false)) (hrole : a.role = (K (active s c)).role)
    (hchild : a.child = some (i,true)) (hsees : a.sees = (K (active s c)).sees)
    (htable : s'.table = s.table) (hcurrent : s'.current = s.current) (hturn : s'.turn = s.turn) :
    Running (Function.update (Function.update K (active s c) a) (.proc i) (resumed i false none))
      s' := by
  have hrest := child_rest h hi
  have hst := (h.child _ i false hi).1
  have hact : ∀ d, active s d ≠ .proc i := fun d => (resting_ne hrest).symm
  have hother : ∀ t, t ≠ .proc i → t ≠ active s c →
      Function.update (Function.update K (active s c) a) (.proc i)
        (resumed i false none) t = K t := by
    intro t ht ht'
    rw [update_of_ne ht, update_of_ne ht']
  have hself : Function.update (Function.update K (active s c) a) (.proc i) (resumed i false none)
      (active s c) = a := by
    rw [update_of_ne (hact c), know_same]
  have hroles : ∀ t, t ≠ .proc i → (Function.update (Function.update K (active s c) a) (.proc i)
      (resumed i false none) t).role = (K t).role := by
    intro t ht
    by_cases ht' : t = active s c
    · rw [ht', hself, hrole]
    · rw [hother t ht ht']
  have hhart : ∀ d, (Function.update (Function.update K (active s c) a) (.proc i)
      (resumed i false none) (.hart d)).role = (K (.hart d)).role := fun d => hroles _ nofun
  constructor
  case saw =>
    rw [active_congr hturn, htable]
    intro d e he
    by_cases hd : d = c
    · rw [hd, hself, hsees] at he
      exact h.saw c e he
    · rw [hother _ (hact d) (fun hx => hd (active_inj hL.lone hx))] at he
      exact h.saw d e he
  case rest =>
    intro p hp
    rw [hturn] at hp
    by_cases hpi : p = i
    · subst hpi
      exact ⟨false,none,know_same _⟩
    · rw [hother _ (by simpa using hpi) (resting_ne hp)]
      exact h.rest p hp
  case alive =>
    intro p hp
    rw [htable]
    by_cases hpi : p = i
    · rw [hpi, know_same] at hp
      cases hp
    · rw [hroles _ (by simpa using hpi)] at hp
      exact h.alive p hp
  case lent =>
    intro d p hd
    rw [hturn] at hd
    rw [hother (.hart d) nofun (lent_ne hd), hcurrent]
    exact h.lent d p hd
  case runs =>
    intro d p hd
    rw [hturn] at hd
    have hpi : p ≠ i := fun he => hrest d (he ▸ hd)
    rw [hroles _ (by simpa using hpi), htable]
    exact h.runs d p hd
  case idle =>
    intro d hd
    rw [hturn] at hd
    rw [hhart, hcurrent, htable]
    exact h.idle d hd
  case busy =>
    intro p hp
    rw [htable] at hp
    simp only [hcurrent, hturn, hhart]
    exact h.busy p hp
  case once => exact hcurrent ▸ h.once
  case child =>
    intro t j b hb
    rw [htable]
    by_cases ht : t = .proc i
    · rw [ht, know_same] at hb
      cases hb
    · by_cases ht' : t = active s c
      · rw [ht', hself, hchild] at hb
        cases hb
        exact ⟨hst,fun _ => by rw [know_same]; rfl⟩
      · rw [hother t ht ht'] at hb
        have hji : j ≠ i := by
          rintro rfl
          exact ht' (h.only t _ j b false hb hi)
        rw [hroles _ (by simpa using hji)]
        exact h.child t j b hb
  case only =>
    have hkid : ∀ t j b, (Function.update (Function.update K (active s c) a) (.proc i)
        (resumed i false none) t).child = some (j,b) → ∃ b', (K t).child = some (j,b') := by
      intro t j b hb
      by_cases ht : t = .proc i
      · rw [ht, know_same] at hb
        cases hb
      · by_cases ht' : t = active s c
        · subst ht'
          rw [hself, hchild] at hb
          cases hb
          exact ⟨false,hi⟩
        · rw [hother t ht ht'] at hb
          exact ⟨b,hb⟩
    intro t t' j b b' hb hb'
    obtain ⟨b₁,hb₁⟩ := hkid t j b hb
    obtain ⟨b₂,hb₂⟩ := hkid t' j b' hb'
    exact h.only t t' j b₁ b₂ hb₁ hb₂

end Switches

end GreenOS.RunInvariant
