import GreenOS.CodeChecks

/-!
# Locks are held as their threads know

`Proper` collects what the discipline keeps true of the account of one thread.
`Locking` connects the accounts with the machine: a CPU owns exactly the locks
that the thread running on it knows to hold, and counts them in `noff`.
-/

namespace GreenOS.LockInvariant
open ProcTable KernelCode
open KernelMachine ThreadKnowledge
open Function (update_self update_of_ne)

section Proper
variable {lk : ℕ → ℕ} {me : Option Slot} {a : Know}

structure Proper (lk : ℕ → ℕ) (me : Option Slot) (a : Know) : Prop where
  sorted : a.held.Pairwise (fun l l' => rank l' < rank l)
  seen : ∀ e ∈ a.sees, Lock.proc e.1 ∈ a.held
  left_held : ∀ p z, me = some p → a.role = .left z → Lock.proc p ∈ a.held
  chosen_held : ∀ b, a.role = .chosen b → Lock.proc b ∈ a.held
  back_held : ∀ b, a.role = .back b → Lock.proc b ∈ a.held
  drowsy : ∀ chan p, me = some p → a.intent = some chan →
    lockOf lk (some chan) ∈ a.held ∨ Lock.proc p ∈ a.held
  waker : ∀ chan done, a.waking = some (chan,done) → lockOf lk chan ∈ a.held
  apart : a.waking ≠ none → a.intent = none
  awake : a.intent ≠ none → a.role = .running
  hart : me = none → (a.role = .hart ∨ (∃ b, a.role = .chosen b) ∨ ∃ b, a.role = .back b) ∧
    a.child = none ∧ a.intent = none
  proc : me ≠ none → (a.role = .running ∨ (∃ z, a.role = .left z) ∨ a.role = .dead) ∧ a.trail = []

theorem rank_nodup (h : Proper lk me a) : a.held.Nodup :=
  h.sorted.imp (fun hlt he => by rw [he] at hlt; exact lt_irrefl _ hlt)

variable {l : Lock} {i : Slot} {u : Update}

theorem mem_erase_held (h : Proper lk me a) {l' : Lock} :
    l' ∈ a.held.erase l ↔ l' ≠ l ∧ l' ∈ a.held :=
  (rank_nodup h).mem_erase_iff

theorem proper_acquire (h : Proper lk me a) (hl : ∀ l' ∈ a.held, rank l' < rank l) :
    Proper lk me (post me a (.acquire l) ()) where
  sorted := List.pairwise_cons.mpr ⟨hl,h.sorted⟩
  seen := fun e he => List.mem_cons_of_mem l (h.seen e he)
  left_held := fun p z hp hz => List.mem_cons_of_mem l (h.left_held p z hp hz)
  chosen_held := fun b hb => List.mem_cons_of_mem l (h.chosen_held b hb)
  back_held := fun b hb => List.mem_cons_of_mem l (h.back_held b hb)
  drowsy := fun chan p hp hc => (h.drowsy chan p hp hc).imp (List.mem_cons_of_mem l)
    (List.mem_cons_of_mem l)
  waker := fun chan done hw => List.mem_cons_of_mem l (h.waker chan done hw)
  apart := h.apart
  awake := h.awake
  hart := h.hart
  proc := fun hm => ⟨(h.proc hm).1,(if_neg hm).trans (h.proc hm).2⟩

theorem proper_release (h : Proper lk me a) (hk : ¬ Keeps lk me a l) :
    Proper lk me (post me a (.release l) ()) where
  sorted := h.sorted.sublist List.erase_sublist
  seen := by
    intro e he
    obtain ⟨hin,hne⟩ := List.mem_filter.mp he
    exact (mem_erase_held h).mpr ⟨by simpa using hne,h.seen e hin⟩
  left_held := fun p z hp hz => (mem_erase_held h).mpr
    ⟨fun he => hk (.inl ⟨p,z,hp,hz,he.symm⟩),h.left_held p z hp hz⟩
  chosen_held := fun b hb => (mem_erase_held h).mpr
    ⟨fun he => hk (.inr (.inl ⟨b,hb,he.symm⟩)),h.chosen_held b hb⟩
  back_held := fun b hb => (mem_erase_held h).mpr
    ⟨fun he => hk (.inr (.inr (.inl ⟨b,hb,he.symm⟩))),h.back_held b hb⟩
  drowsy := by
    intro chan p hp hc
    have hkeep : ∀ hl : l = .proc p ∨ l = lockOf lk (some chan) ∧ Lock.proc p ∉ a.held, False :=
      fun hl => hk (.inr (.inr (.inr (.inl ⟨chan,p,hp,hc,hl⟩))))
    have hown : Lock.proc p ∈ a.held → Lock.proc p ∈ a.held.erase l := fun hin =>
      (mem_erase_held h).mpr ⟨fun he => hkeep (.inl he.symm),hin⟩
    rcases h.drowsy chan p hp hc with hin | hin
    · by_cases hl : l = lockOf lk (some chan)
      · exact .inr (hown (not_not.mp fun hno => hkeep (.inr ⟨hl,hno⟩)))
      · exact .inl ((mem_erase_held h).mpr ⟨Ne.symm hl,hin⟩)
    · exact .inr (hown hin)
  waker := by
    intro chan done hw
    obtain ⟨⟨chan',done'⟩,hw',he⟩ := Option.map_eq_some_iff.mp hw
    cases he
    exact (mem_erase_held h).mpr
      ⟨fun he => hk (.inr (.inr (.inr (.inr ⟨_,_,hw',he.symm⟩)))),h.waker _ _ hw'⟩
  apart := by
    intro hw
    refine h.apart (fun hno => hw ?_)
    change wakingAfter a l = none
    rw [wakingAfter, hno]
    rfl
  awake := h.awake
  hart := h.hart
  proc := fun hm => ⟨(h.proc hm).1,(if_neg hm).trans (h.proc hm).2⟩

theorem proper_read (h : Proper lk me a) (i : Slot) (x : Proc) :
    Proper lk me (post me a (.read i) x) := by
  by_cases hi : Lock.proc i ∈ a.held
  · have hpost : post me a (.read i) x = { a with sees := (i,face x)::a.sees } := if_pos hi
    rw [hpost]
    refine { h with seen := fun e he => ?_ }
    rcases List.mem_cons.mp he with rfl | he
    · exact hi
    · exact h.seen e he
  · have hpost : post me a (.read i) x = a := if_neg hi
    rw [hpost]
    exact h

theorem role_cases (hu : updateOk me a i u) :
    roleAfter a u = a.role ∨ (∃ z, roleAfter a u = .left z) ∧ me = some i ∧ a.role = .running ∧
      Lock.proc i ∈ a.held ∧ intentAfter a u = none := by
  cases u with
  | yield => exact .inr ⟨⟨false,rfl⟩,hu⟩
  | sleepOn chan => exact .inr ⟨⟨false,rfl⟩,hu.1,hu.2.1,hu.2.2.1,rfl⟩
  | zombie status => exact .inr ⟨⟨true,rfl⟩,hu⟩
  | _ => exact .inl rfl

theorem intent_cases (a : Know) (u : Update) : intentAfter a u = a.intent ∨
    intentAfter a u = none := by
  cases u with
  | sleepOn chan => exact .inr rfl
  | _ => exact .inl rfl

theorem child_none (hu : updateOk me a i u) (hm : me = none)
    (hc : a.child = none) : childAfter a i u = none := by
  cases u with
  | alloc pid => exact absurd hm hu.2.2.2
  | publish => rfl
  | free => simp [childAfter, hc]
  | _ => exact hc

theorem proper_update (h : Proper lk me a) (hu : updateOk me a i u) :
    Proper lk me (post me a (.update i u) ()) where
  sorted := h.sorted
  seen := by
    intro e he
    obtain ⟨e',he',rfl⟩ := List.mem_map.mp he
    split_ifs with hi
    · exact hi ▸ h.seen e' he'
    · exact h.seen e' he'
  left_held := by
    intro p z hp hz
    rcases role_cases hu with hr | ⟨-,hm,-,hheld,-⟩
    · exact h.left_held p z hp (hr.symm.trans hz)
    · exact Option.some.inj (hm.symm.trans hp) ▸ hheld
  chosen_held := by
    intro b hb
    rcases role_cases hu with hr | ⟨⟨z,hz⟩,-⟩
    · exact h.chosen_held b (hr.symm.trans hb)
    · cases hz.symm.trans hb
  back_held := by
    intro b hb
    rcases role_cases hu with hr | ⟨⟨z,hz⟩,-⟩
    · exact h.back_held b (hr.symm.trans hb)
    · cases hz.symm.trans hb
  drowsy := by
    intro chan p hp hc
    rcases intent_cases a u with hi | hi
    · exact h.drowsy chan p hp (hi.symm.trans hc)
    · cases hi.symm.trans hc
  waker := h.waker
  apart := by
    intro hw
    rcases intent_cases a u with hi | hi
    · exact hi.trans (h.apart hw)
    · exact hi
  awake := by
    intro hi
    rcases role_cases hu with hr | ⟨-,-,-,-,hno⟩
    · rcases intent_cases a u with hsame | hno
      · exact hr.trans (h.awake (fun hno => hi (hsame.trans hno)))
      · exact absurd hno hi
    · exact absurd hno hi
  hart := by
    intro hm
    obtain ⟨hrole,hchild,hintent⟩ := h.hart hm
    refine ⟨?_,child_none hu hm hchild,?_⟩
    · rcases role_cases hu with hr | ⟨-,hm',-⟩
      · change roleAfter a u = _ ∨ (∃ b, roleAfter a u = _) ∨ ∃ b, roleAfter a u = _
        rwa [hr]
      · cases hm.symm.trans hm'
    · rcases intent_cases a u with hi | hi
      · exact hi.trans hintent
      · exact hi
  proc := by
    intro hm
    obtain ⟨hrole,htrail⟩ := h.proc hm
    refine ⟨?_,htrail⟩
    change roleAfter a u = _ ∨ (∃ z, roleAfter a u = _) ∨ roleAfter a u = _
    rcases role_cases hu with hr | ⟨hz,-⟩
    · rwa [hr]
    · exact .inr (.inl hz)

theorem proper_note (h : Proper lk me a) {n : Note} (hn : noteOk lk me a n) :
    Proper lk me (noteAfter a n) := by
  cases n with
  | wakeupCalled chan =>
    refine { h with waker := ?_, apart := fun _ => hn.2.2 }
    rintro _ _ hw
    cases hw
    exact hn.1
  | wakeupReturned chan => exact { h with waker := nofun, apart := fun hw => absurd rfl hw }
  | sleepCalled chan =>
    refine
      { h with
        drowsy := ?_
        apart := fun hw => absurd hn.2.1 hw
        awake := fun _ => hn.2.2.2
        hart := ?_ }
    · rintro _ p hp hc
      cases hc
      exact .inl hn.1
    · intro hm
      rcases (h.hart hm).1 with hr | ⟨b,hr⟩ | ⟨b,hr⟩ <;> cases hr.symm.trans hn.2.2.2
  | scanned best => exact h

theorem proper_resumed (p : Slot) (dead : Bool) (child : Option (Slot × Bool)) :
    Proper lk (some p) (resumed p dead child) where
  sorted := List.pairwise_singleton _ _
  seen := nofun
  left_held := fun _ _ hp _ => by cases hp; exact List.mem_cons_self
  chosen_held := fun b hb => by cases dead <;> cases hb
  back_held := fun b hb => by cases dead <;> cases hb
  drowsy := nofun
  waker := nofun
  apart := fun _ => rfl
  awake := fun hi => absurd rfl hi
  hart := nofun
  proc := fun _ => ⟨by cases dead <;> simp [resumed],rfl⟩

theorem proper_gotBack (b : Slot) (trail : List (Lock × Bool)) :
    Proper lk none (gotBack b trail) where
  sorted := List.pairwise_singleton _ _
  seen := nofun
  left_held := nofun
  chosen_held := nofun
  back_held := fun _ hb => by cases hb; exact List.mem_cons_self
  drowsy := nofun
  waker := nofun
  apart := fun _ => rfl
  awake := fun hi => absurd rfl hi
  hart := fun _ => ⟨.inr (.inr ⟨b,rfl⟩),rfl,rfl⟩
  proc := fun hm => absurd rfl hm

theorem hart_only (h : Proper lk me a)
    (hr : a.role = .hart ∨ (∃ b, a.role = .chosen b) ∨ ∃ b, a.role = .back b) : me = none := by
  by_contra hm
  rcases (h.proc hm).1 with hp | ⟨z,hp⟩ | hp <;> simp [hp] at hr

theorem proper_post (h : Proper lk me a) {x : Cmd} (hx : pre lk me a x) (v : Res x) :
    Proper lk me (post me a x v) := by
  cases x with
  | acquire l => exact proper_acquire h hx
  | release l => exact proper_release h hx.2
  | read i => exact proper_read h i v
  | update i u => exact proper_update h hx
  | note n => exact proper_note h hx
  | sched p =>
    obtain ⟨rfl,-⟩ := hx
    exact proper_resumed p _ _
  | swtch b =>
    obtain rfl := hart_only h (.inr (.inl ⟨b,hx.1⟩))
    exact proper_gotBack b _
  | dispatch b =>
    obtain rfl := hart_only h (.inl hx.1)
    have hb : Lock.proc b ∈ a.held := hx.2.1 ▸ List.mem_cons_self
    refine
      { h with
        seen := nofun
        left_held := nofun
        chosen_held := ?_
        back_held := nofun
        awake := fun hi => absurd (h.hart rfl).2.2 hi
        hart := fun _ => ⟨.inr (.inl ⟨b,rfl⟩),(h.hart rfl).2⟩
        proc := fun hm => absurd rfl hm }
    rintro _ hr
    cases hr
    exact hb
  | collect =>
    obtain ⟨b,hb⟩ := hx
    obtain rfl := hart_only h (.inr (.inr ⟨b,hb⟩))
    exact
      { h with
        left_held := nofun
        chosen_held := nofun
        back_held := nofun
        awake := fun hi => absurd (h.hart rfl).2.2 hi
        hart := fun _ => ⟨.inl rfl,(h.hart rfl).2⟩
        proc := fun hm => absurd rfl hm }
  | context i =>
    refine { h with hart := fun hm => ?_ }
    cases (h.hart hm).2.1.symm.trans hx
  | takePid => exact h
  | choose => exact h
  | panic msg => exact h

end Proper

section Locking
variable {κ : Type} [DecidableEq κ] {lk : ℕ → ℕ} {K : Thread κ → Know} {s s' : Sys κ} {c : κ}

def who : Thread κ → Option Slot
  | .hart _ => none
  | .proc p => some p

structure Locking (lk : ℕ → ℕ) (K : Thread κ → Know) (s : Sys κ) : Prop where
  proper : ∀ t, Proper lk (who t) (K t)
  lone : ∀ c d p, s.turn c = some p → s.turn d = some p → c = d
  locked : ∀ l c, s.owner l = some c ↔ l ∈ (K (active s c)).held
  counted : ∀ c, s.noff c = (K (active s c)).held.length
  trail : ∀ c, s.trail c = (K (.hart c)).trail

omit [DecidableEq κ] in
theorem active_none (h : s.turn c = none) : active s c = .hart c := by simp [active, h]

variable {p : Slot} {d : κ} {l : Lock} {t : Thread κ} {a : Know}

omit [DecidableEq κ] in
theorem active_some (h : s.turn c = some p) : active s c = .proc p := by simp [active, h]

omit [DecidableEq κ] in
theorem active_congr (h : s'.turn = s.turn) : active s' = active s := by
  funext d
  simp [active, h]

omit [DecidableEq κ] in
theorem active_inj (hl : ∀ c d p, s.turn c = some p → s.turn d = some p → c = d) {c : κ}
    (h : active s c = active s d) : c = d := by
  cases hc : s.turn c <;> cases hd : s.turn d <;> simp only [active, hc, hd] at h
  · cases h
    rfl
  · cases h
  · cases h
  · cases h
    exact hl c d _ hc hd

omit [DecidableEq κ] in
theorem who_none (h : s.turn c = none) : who (active s c) = none := by simp [active_none h, who]

omit [DecidableEq κ] in
theorem who_some (h : s.turn c = some p) : who (active s c) = some p := by
  simp [active_some h, who]

omit [DecidableEq κ] in
theorem held_unique (h : Locking lk K s) {c : κ} (hc : l ∈ (K (active s c)).held)
    (hd : l ∈ (K (active s d)).held) : c = d :=
  Option.some.inj (((h.locked l c).mpr hc).symm.trans ((h.locked l d).mpr hd))

theorem know_same (a : Know) : Function.update K t a t = a := update_self ..

theorem know_hart (p : Slot) (a : Know) (d : κ) :
    Function.update K (.proc p) a (.hart d) = K (.hart d) := by
  simp

theorem know_proc (d : κ) (a : Know) (p : Slot) :
    Function.update K (.hart d) a (.proc p) = K (.proc p) := by
  simp

theorem know_other (h : Locking lk K s) (a : Know) (hd : d ≠ c) :
    Function.update K (active s c) a (active s d) = K (active s d) :=
  update_of_ne (fun he => hd (active_inj h.lone he)) ..

theorem proper_know (h : Locking lk K s) (ha : Proper lk (who t) a)
    (t' : Thread κ) : Proper lk (who t') (Function.update K t a t') := by
  by_cases ht : t' = t
  · subst ht
    rw [know_same]
    exact ha
  · rw [update_of_ne ht]
    exact h.proper t'

omit [DecidableEq κ] in
theorem locking_frame {K' : Thread κ → Know} (h : Locking lk K s)
    (hproper : ∀ t, Proper lk (who t) (K' t))
    (hlone : ∀ c d p, s'.turn c = some p → s'.turn d = some p → c = d)
    (hheld : ∀ d, (K' (active s' d)).held = (K (active s d)).held)
    (htrail : ∀ d, s'.trail d = (K' (.hart d)).trail) (howner : s'.owner = s.owner)
    (hnoff : s'.noff = s.noff) : Locking lk K' s' where
  proper := hproper
  lone := hlone
  locked := fun l d => by rw [hheld, howner]; exact h.locked l d
  counted := fun d => by rw [hheld, hnoff]; exact h.counted d
  trail := htrail

theorem locking_know (h : Locking lk K s) (ha : Proper lk (who (active s c)) a)
    (hheld : a.held = (K (active s c)).held) (htrail : a.trail = (K (active s c)).trail)
    (hturn : s'.turn = s.turn) (howner : s'.owner = s.owner) (hnoff : s'.noff = s.noff)
    (htr : s'.trail = s.trail) : Locking lk (Function.update K (active s c) a) s' := by
  have hsame : ∀ t, (Function.update K (active s c) a t).held = (K t).held := by
    intro t
    by_cases ht : t = active s c
    · rw [ht, know_same, hheld]
    · rw [update_of_ne ht]
  refine locking_frame h (proper_know h ha) (hturn ▸ h.lone) ?_ ?_ howner hnoff
  · intro d
    rw [active_congr hturn, hsame]
  · intro d
    rw [htr, h.trail d]
    by_cases ht : Thread.hart d = active s c
    · rw [ht, know_same, htrail]
    · rw [update_of_ne ht]

theorem trail_record (h : Locking lk K s) (l : Lock) (taken : Bool)
    (ha : a.trail = trailAfter (who (active s c)) (K (active s c)) l taken) (d : κ) :
    record s c l taken d = (Function.update K (active s c) a (.hart d)).trail := by
  unfold record
  cases hc : s.turn c with
  | none =>
    rw [if_pos rfl, active_none hc]
    rw [active_none hc] at ha
    by_cases hd : d = c
    · subst hd
      rw [update_self, know_same, ha, trailAfter, h.trail d]
      rfl
    · rw [update_of_ne hd, update_of_ne (by simpa using hd), h.trail d]
  | some p =>
    rw [if_neg (by simp), active_some hc, know_hart, h.trail d]

theorem locking_acquire (h : Locking lk K s) (hl : ∀ l' ∈ (K (active s c)).held, rank l' < rank l)
    (hfree : s.owner l = none) (howner : s'.owner = Function.update s.owner l (some c))
    (hnoff : s'.noff = Function.update s.noff c (s.noff c+1)) (hturn : s'.turn = s.turn)
    (htr : s'.trail = record s c l true) :
    Locking lk (Function.update K (active s c)
      (post (who (active s c)) (K (active s c)) (.acquire l) ())) s' := by
  refine ⟨proper_know h (proper_acquire (h.proper _) hl),hturn ▸ h.lone,?_,?_,?_⟩
  · intro l' d
    rw [active_congr hturn, howner]
    by_cases hd : d = c
    · subst hd
      rw [know_same]
      by_cases hll : l' = l
      · simp [hll, post]
      · simp [hll, post, h.locked]
    · rw [know_other h _ hd]
      by_cases hll : l' = l
      · subst hll
        have hno : l' ∉ (K (active s d)).held := by
          rw [← h.locked, hfree]
          intro h
          cases h
        simp [hno, Ne.symm hd]
      · rw [update_of_ne hll]
        exact h.locked l' d
  · intro d
    rw [active_congr hturn, hnoff]
    by_cases hd : d = c
    · subst hd
      rw [know_same, update_self, h.counted d]
      rfl
    · rw [know_other h _ hd, update_of_ne hd]
      exact h.counted d
  · intro d
    rw [htr]
    exact trail_record h l true rfl d

theorem locking_release (h : Locking lk K s) (hl : l ∈ (K (active s c)).held)
    (hk : ¬ Keeps lk (who (active s c)) (K (active s c)) l)
    (howner : s'.owner = Function.update s.owner l none)
    (hnoff : s'.noff = Function.update s.noff c (s.noff c-1)) (hturn : s'.turn = s.turn)
    (htr : s'.trail = record s c l false) :
    Locking lk (Function.update K (active s c)
      (post (who (active s c)) (K (active s c)) (.release l) ())) s' := by
  refine ⟨proper_know h (proper_release (h.proper _) hk),hturn ▸ h.lone,?_,?_,?_⟩
  · intro l' d
    rw [active_congr hturn, howner]
    by_cases hd : d = c
    · subst hd
      rw [know_same]
      change _ ↔ l' ∈ (K (active s d)).held.erase l
      rw [mem_erase_held (h.proper _)]
      by_cases hll : l' = l
      · simp [hll]
      · simp [hll, h.locked]
    · rw [know_other h _ hd]
      by_cases hll : l' = l
      · subst hll
        have hno : l' ∉ (K (active s d)).held := fun hin => hd (held_unique h hin hl)
        simp [hno]
      · rw [update_of_ne hll]
        exact h.locked l' d
  · intro d
    rw [active_congr hturn, hnoff]
    by_cases hd : d = c
    · subst hd
      rw [know_same, update_self, h.counted d]
      exact (List.length_erase_of_mem hl).symm
    · rw [know_other h _ hd, update_of_ne hd]
      exact h.counted d
  · intro d
    rw [htr]
    exact trail_record h l false rfl d

omit [DecidableEq κ] in
theorem active_ne {t : Option Slot} [DecidableEq κ] (hturn : s'.turn = Function.update s.turn c t)
    (hd : d ≠ c) : active s' d = active s d := by
  simp [active, hturn, update_of_ne hd]

theorem locking_sched (h : Locking lk K s) {dead : Bool} {child : Option (Slot × Bool)}
    (hp : s.turn c = some p) (hheld : (K (.proc p)).held = [.proc p])
    (hback : (K (.hart c)).held = [.proc p]) (hturn : s'.turn = Function.update s.turn c none)
    (howner : s'.owner = s.owner) (hnoff : s'.noff = s.noff) (htr : s'.trail = s.trail) :
    Locking lk (Function.update K (.proc p) (resumed p dead child)) s' := by
  have hc : active s' c = .hart c := active_none (by simp [hturn])
  refine locking_frame h (proper_know h (proper_resumed p dead child)) ?_ ?_ ?_ howner hnoff
  · intro d e q hd he
    rw [hturn] at hd he
    by_cases hdc : d = c
    · simp [hdc] at hd
    · by_cases hec : e = c
      · simp [hec] at he
      · rw [update_of_ne hdc] at hd
        rw [update_of_ne hec] at he
        exact h.lone d e q hd he
  · intro d
    by_cases hd : d = c
    · rw [hd, hc, active_some hp, know_hart, hheld, hback]
    · rw [active_ne hturn hd]
      have hne : active s d ≠ .proc p := fun he =>
        hd (active_inj h.lone (he.trans (active_some hp).symm))
      rw [update_of_ne hne]
  · intro d
    rw [htr, know_hart, h.trail d]

theorem locking_swtch (h : Locking lk K s) {b : Slot} (hb : s.turn c = none)
    (hheld : (K (.hart c)).held = [.proc b]) (hproc : (K (.proc b)).held = [.proc b])
    (hrest : ∀ d, s.turn d ≠ some b) (hturn : s'.turn = Function.update s.turn c (some b))
    (howner : s'.owner = s.owner) (hnoff : s'.noff = s.noff) (htr : s'.trail = s.trail) :
    Locking lk (Function.update K (.hart c) (gotBack b (K (.hart c)).trail)) s' := by
  have hc : active s' c = .proc b := active_some (by simp [hturn])
  refine locking_frame h (proper_know h (proper_gotBack b _)) ?_ ?_ ?_ howner hnoff
  · intro d e q hd he
    rw [hturn] at hd he
    by_cases hdc : d = c <;> by_cases hec : e = c
    · rw [hdc, hec]
    · rw [hdc, update_self] at hd
      rw [update_of_ne hec, ← hd] at he
      exact absurd he (hrest e)
    · rw [hec, update_self] at he
      rw [update_of_ne hdc, ← he] at hd
      exact absurd hd (hrest d)
    · rw [update_of_ne hdc] at hd
      rw [update_of_ne hec] at he
      exact h.lone d e q hd he
  · intro d
    by_cases hd : d = c
    · rw [hd, hc, active_none hb, know_proc, hheld, hproc]
    · rw [active_ne hturn hd]
      have hne : active s d ≠ .hart c := fun he =>
        hd (active_inj h.lone (he.trans (active_none hb).symm))
      rw [update_of_ne hne]
  · intro d
    rw [htr, h.trail d]
    by_cases hd : d = c
    · subst hd
      rw [know_same]
      rfl
    · rw [update_of_ne (by simpa using hd)]

end Locking

end GreenOS.LockInvariant
