import GreenOS.VirtioSteps

/-!
# Runs of the disk request queue

Over runs of any length, with any number of callers and any order of
completions: the chains in flight stay apart, a completion reaches the request
it is for, a request returns only after its own completion, an `avail` entry
stays until the device has taken it, and the driver never panics.
-/

namespace GreenOS.VirtioRuns
open RingBuffer VirtioQueue VirtioChains VirtioSteps StepRun
open Function (update update_of_ne)

section Runs
variable {π β : Type} {s t : Sys π β} [DecidableEq π]
variable [DecidableEq β] (blockno : β → BitVec 32)

inductive Moves : Event π β → Sys π β → Sys π β → Prop where
  | call {s : Sys π β} {p : π} {b : β} {write : Bool} (hp : s.pc p = .out)
    (hb : s.holder b = none) :
      Moves (.call p b write) s { s with
        pc := update s.pc p (.alloc b write)
        holder := update s.holder b (some p) }
  | full {s : Sys π β} {p : π} {desc : Fin num → Desc β}
      (hdesc : ∀ i, s.disk.free i = false → desc i = s.disk.desc i) :
      Moves (.acquire p) s { s with disk := { s.disk with desc := desc } }
  | post {s : Sys π β} {p : π} {b : β} {write : Bool} {c : Chain} (hp : s.pc p = .alloc b write)
      (hlock : s.lock = none) (hc : (members c).Nodup) (hfree : ∀ i ∈ members c,
        s.disk.free i = true) :
      Moves (.acquire p) s { s with
        disk := format blockno b write c
          { s.disk with free := fun i => s.disk.free i && i ∉ members c }
        pc := update s.pc p (.post b c)
        lock := some (.proc p)
        served := update s.served c.head false }
  | publish {s : Sys π β} {p : π} {b : β} {c : Chain} (hp : s.pc p = .post b c) :
      Moves (.publish p) s { s with
        disk := { s.disk with avail := { s.disk.avail with idx := s.disk.avail.idx+1 } }
        pc := update s.pc p (.wait b c)
        lock := none }
  | again {s : Sys π β} {p : π} : Moves (.wake p) s s
  | back {s : Sys π β} {p : π} {b : β} {c : Chain} (hp : s.pc p = .wait b c) (hlock : s.lock = none)
      (hbusy : s.disk.busy b = false) :
      Moves (.wake p) s { s with
        disk := { s.disk with
          info := update s.disk.info c.head { s.disk.info c.head with b := none }
          desc := fun i => if i ∈ members c then noDesc else s.disk.desc i
          free := fun i => s.disk.free i || i ∈ members c }
        pc := update s.pc p .out
        holder := update s.holder b none }
  | intr {s : Sys π β} (hlock : s.lock = none) : Moves .intr s { s with lock := some .intr }
  | leave {s : Sys π β} (hlock : s.lock = some .intr) (heq : s.disk.usedIdx = s.disk.used.idx) :
      Moves .intrLoop s { s with lock := none }
  | seen {s : Sys π β} {p : π} {b : β} {c : Chain} (hlock : s.lock = some .intr)
      (hp : s.pc p = .wait b c)
      (hcont : contents (usedRing s) = (c.head : ℕ)::contents (pop (usedRing s))) :
      Moves .intrLoop s { s with
        disk := { s.disk with
          busy := update s.disk.busy b false
          usedIdx := s.disk.usedIdx+1 } }
  | take {s : Sys π β} (hne : s.next ≠ s.disk.avail.idx) :
      Moves .take s { s with
        next := s.next+1
        taken := s.disk.avail.ring (index s.next)::s.taken }
  | complete {s : Sys π β} {i : Fin num} (hmem : (i : ℕ) ∈ s.taken) :
      Moves (.complete i) s { s with
        taken := s.taken.erase i
        disk := { s.disk with
          info := update s.disk.info i { s.disk.info i with status := 0 }
          used :=
            { idx := s.disk.used.idx+1
              ring := update s.disk.used.ring (index s.disk.used.idx) i } }
        served := fun k => s.served k || k = (i : ℕ) }

variable {e : Event π β}

theorem perform_moves (h : Inv s) {r : Except String (Sys π β)}
    (he : perform blockno e s = some r) : ∃ t, r = .ok t ∧ Moves blockno e s t := by
  cases e with
  | call p b write =>
    simp only [perform] at he
    split at he
    next hp hb =>
      cases he
      exact ⟨_,rfl,.call hp hb⟩
    next => cases he
  | acquire p =>
    simp only [perform] at he
    split at he
    next b write hp hlock =>
      cases he
      rcases alloc3Desc_cases s.disk with ⟨c,hc,hfree,heq⟩ | ⟨desc,hdesc,heq⟩
      · exact ⟨_,by rw [heq]; rfl,.post hp hlock hc hfree⟩
      · exact ⟨_,by rw [heq]; rfl,.full hdesc⟩
    next => cases he
  | publish p =>
    simp only [perform] at he
    split at he
    next b c hp =>
      cases he
      exact ⟨_,rfl,.publish hp⟩
    next => cases he
  | wake p =>
    simp only [perform] at he
    split at he
    next b c hp hlock =>
      split at he
      next =>
        cases he
        exact ⟨_,rfl,.again⟩
      next hbusy =>
        cases he
        have hback := giveBack_ok (h.owned.linked p b c (flight_wait hp))
          (fun i hi => h.owned.not_free (flight_wait hp) hi)
        exact ⟨_,by rw [hback]; rfl,.back hp hlock (by simpa using hbusy)⟩
    next => cases he
  | intr =>
    simp only [perform] at he
    split at he
    next hlock =>
      cases he
      exact ⟨_,rfl,.intr hlock⟩
    next => cases he
  | intrLoop =>
    simp only [perform] at he
    split at he
    next hlock =>
      by_cases heq : s.disk.usedIdx = s.disk.used.idx
      · simp only [intrRound, if_pos heq] at he
        cases he
        exact ⟨_,rfl,.leave hlock heq⟩
      · obtain ⟨p,b,c,hp,hring,hstatus,hb,hcont⟩ := used_entry h heq
        have hround : intrRound s.disk = some (.ok { s.disk with
            busy := update s.disk.busy b false
            usedIdx := s.disk.usedIdx+1 }) := by
          simp [intrRound, heq, hring, hstatus, hb]
        rw [hround] at he
        cases he
        exact ⟨_,rfl,.seen hlock hp hcont⟩
    next => cases he
  | take =>
    simp only [perform] at he
    split at he
    next => cases he
    next hne =>
      cases he
      exact ⟨_,rfl,.take hne⟩
  | complete head =>
    simp only [perform] at he
    split at he
    next => cases he
    next i hstatus =>
      split at he
      next hmem =>
        cases he
        obtain ⟨p,b,c,hp,rfl⟩ := h.pends head
          (List.mem_append_left _ (List.mem_append_right _ hmem))
        rw [(h.owned.linked p b c (flight_wait hp)).statusOf] at hstatus
        cases hstatus
        exact ⟨_,rfl,.complete hmem⟩
      next => cases he

theorem step_moves (h : Inv s) (he : step blockno e s = some t) :
    Moves blockno e s t := by
  unfold step at he
  split at he
  next t' hperform =>
    cases he
    obtain ⟨t',heq,hmoves⟩ := perform_moves blockno h hperform
    cases heq
    exact hmoves
  next => cases he

theorem step_inv (e : Event π β) (s t : Sys π β) (h : Inv s)
    (he : step blockno e s = some t) : Inv t := by
  cases step_moves blockno h he with
  | call hp hb => exact inv_call h hp hb
  | full hdesc =>
    exact ⟨h.owned.congr hdesc (fun _ => rfl) rfl,h.holder,h.locked,h.nodup,h.pends,h.posts,h.waits,
      h.served,h.status⟩
  | post hp hlock hc hfree => exact inv_post h hp hlock hc hfree
  | publish hp => exact inv_publish h hp
  | again => exact h
  | back hp hlock hbusy => exact inv_giveBack h hp hlock hbusy
  | intr hlock =>
    exact { h with locked := fun p b c hp => absurd hp (h.no_post (by simp [hlock])) }
  | leave hlock =>
    exact { h with locked := fun p b c hp => absurd hp (h.no_post (by simp [hlock])) }
  | seen hlock hp hcont => exact inv_seen h hlock hp hcont
  | take hne => exact inv_take h hne
  | complete hmem => exact inv_complete h hmem

theorem reachable_inv {es : List (Event π β)} (h : run (step blockno) es init = some t) : Inv t :=
  run_invariant (step blockno) Inv (step_inv blockno) es init t Inv.init_inv h

structure Orderly (s : Sys π β) : Prop where
  chains : ∀ p b c, flight s p = some (b,c) → Linked s.disk b c
  disjoint : ∀ p q b b' c c', p ≠ q → flight s p = some (b,c) → flight s q = some (b',c') →
    List.Disjoint (members c) (members c')
  free : ∀ i, s.disk.free i = true ↔ ∀ p b c, flight s p = some (b,c) → i ∉ members c
  failed : ∀ d, alloc3Desc s.disk = .ok (none,d) → d.free = s.disk.free
  /-- The driver sees a completion: some request waits for it, the device has
  completed that request's chain, and its buffer's flag alone is cleared. -/
  completion : ∀ s', step blockno .intrLoop s = some s' → s.disk.usedIdx ≠ s.disk.used.idx →
    ∃ p b c, s.pc p = .wait b c ∧ s.disk.used.ring (index s.disk.usedIdx) = c.head ∧
      s.served c.head = true ∧ s'.disk.busy = update s.disk.busy b false
  cleared : ∀ e s' b, step blockno e s = some s' → s.disk.busy b = true → s'.disk.busy b = false →
    e = .intrLoop
  returns : ∀ e s' p b c, step blockno e s = some s' → s.pc p = .wait b c → s'.pc p ≠ .wait b c →
    s.served c.head = true
  /-- An entry the device has not taken stays in the ring. -/
  slots : ∀ e s', step blockno e s = some s' → ∀ k < size (availRing s),
    s'.disk.avail.ring (index (s.next+BitVec.ofNat 16 k)) =
      s.disk.avail.ring (index (s.next+BitVec.ofNat 16 k))
  no_panic : ∀ e msg, perform blockno e s ≠ some (.error msg)

theorem completion_served (h : Inv s) (he : step blockno .intrLoop s = some t)
    (hne : s.disk.usedIdx ≠ s.disk.used.idx) :
    ∃ p b c, s.pc p = .wait b c ∧ s.disk.used.ring (index s.disk.usedIdx) = c.head ∧
      s.served c.head = true ∧ t.disk.busy = update s.disk.busy b false := by
  cases step_moves blockno h he with
  | leave _ heq => exact absurd heq hne
  | @seen _ p b c _ hp hcont =>
    refine ⟨p,b,c,hp,?_,?_,rfl⟩
    · obtain ⟨_,_,c',-,hring,-,-,hcont'⟩ := used_entry h hne
      rw [hcont'] at hcont
      rw [hring, (List.cons.inj hcont).1]
    · apply h.served p b c hp
      have hnodup := h.nodup
      rw [pending, hcont] at hnodup
      exact fun hmem => List.disjoint_of_nodup_append hnodup hmem List.mem_cons_self

theorem returns_served (h : Inv s) {p : π} {b : β} {c : Chain} (he : step blockno e s = some t)
    (hp : s.pc p = .wait b c) (ht : t.pc p ≠ .wait b c) :
    s.served c.head = true := by
  have hchange : ∀ {q x}, update s.pc q x p ≠ .wait b c → p = q := by
    intro q x hne
    by_contra hpq
    rw [update_of_ne hpq] at hne
    exact hne hp
  cases step_moves blockno h he with
  | call hq _ =>
    rw [hchange ht, hq] at hp
    cases hp
  | post hq _ _ _ =>
    rw [hchange ht, hq] at hp
    cases hp
  | publish hq =>
    rw [hchange ht, hq] at hp
    cases hp
  | back hq _ hbusy =>
    rw [hchange ht, hq] at hp
    cases hp
    have hnot := mt (h.waits _ b c hq).mpr (by simp [hbusy])
    exact h.served _ b c hq (fun hmem => hnot (List.mem_append_left _ hmem))
  | full | again | intr | leave | seen | take | complete => exact absurd hp ht

theorem slots_kept (h : Inv s) (he : step blockno e s = some t) {k : ℕ}
    (hk : k < size (availRing s)) :
    t.disk.avail.ring (index (s.next+BitVec.ofNat 16 k)) =
      s.disk.avail.ring (index (s.next+BitVec.ofNat 16 k)) := by
  cases step_moves blockno h he with
  | post => exact update_of_ne (index_tail_ne (r := availRing s) (by decide) h.avail_room hk) ..
  | call | full | publish | again | back | intr | leave | seen | take | complete => rfl

/-- In every run, of any length and with any order of completions, the queue is orderly. -/
theorem request_queue {es : List (Event π β)} (h : run (step blockno) es init = some t) :
    Orderly blockno t := by
  have hinv := reachable_inv blockno h
  constructor
  · exact hinv.owned.linked
  · exact hinv.owned.apart
  · exact hinv.owned.marked
  · intro d hd
    rcases alloc3Desc_cases t.disk with ⟨c,-,-,heq⟩ | ⟨desc,-,heq⟩
    · rw [heq] at hd
      cases hd
    · rw [heq] at hd
      cases hd
      rfl
  · intro s' he hne
    exact completion_served blockno hinv he hne
  · intro e s' b he hset hclear
    cases step_moves blockno hinv he with
    | post =>
      simp only [format, Function.update_apply] at hclear
      split at hclear
      · cases hclear
      · rw [hset] at hclear
        cases hclear
    | seen | leave => rfl
    | call | full | publish | again | back | intr | take | complete =>
      exact absurd (hset.symm.trans hclear) (by decide)
  · intro e s' p b c he hp hne
    exact returns_served blockno hinv he hp hne
  · intro e s' he k hk
    exact slots_kept blockno hinv he hk
  · intro e msg he
    obtain ⟨_,heq,-⟩ := perform_moves blockno hinv he
    cases heq

end Runs

/-- Two writers and a reader: the third waits for descriptors, the device completes
the second request first. -/
def crossed : List (Event (Fin 3) (Fin 3)) :=
  [.call 0 0 true,.acquire 0,.publish 0,.call 1 1 true,.acquire 1,.publish 1,
    .call 2 2 false,.acquire 2,
    .take,.take,.complete 3,.intr,.intrLoop,.intrLoop,.wake 0,.wake 1,.acquire 2,
      .complete 0,.publish 2]

theorem crossed_orderly :
    ∃ t, run (step fun b : Fin 3 => BitVec.ofNat 32 b) crossed init = some t ∧
      Orderly (fun b : Fin 3 => BitVec.ofNat 32 b) t := by
  have hsome : (run (step fun b : Fin 3 => BitVec.ofNat 32 b) crossed init).isSome = true := by
    decide +kernel
  obtain ⟨t,ht⟩ := Option.isSome_iff_exists.mp hsome
  exact ⟨t,ht,request_queue _ ht⟩

end GreenOS.VirtioRuns
