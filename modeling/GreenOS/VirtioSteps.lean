import GreenOS.VirtioChains

/-!
# What the request queue keeps

The heads on their way through the `avail` ring, the device and the `used` ring
are those of the processes that wait with their buffer's `disk` flag set, each
once.
-/

namespace GreenOS.VirtioSteps
open RingBuffer VirtioQueue VirtioChains
open Function (update update_self update_of_ne)

section Machine
variable {π β : Type} {s t : Sys π β}

def chainOf : Pc β → Option (β × Chain)
  | .post b c => some (b,c)
  | .wait b c => some (b,c)
  | _ => none

def bufOf : Pc β → Option β
  | .out => none
  | .alloc b _ => some b
  | .post b _ => some b
  | .wait b _ => some b

def flight (s : Sys π β) (p : π) : Option (β × Chain) := chainOf (s.pc p)

def availRing (s : Sys π β) : Ring num 16 ℕ := ⟨s.disk.avail.ring,s.next,s.disk.avail.idx⟩

def usedRing (s : Sys π β) : Ring num 16 ℕ := ⟨s.disk.used.ring,s.disk.usedIdx,s.disk.used.idx⟩

def unserved (s : Sys π β) : List ℕ := contents (availRing s)++s.taken

def pending (s : Sys π β) : List ℕ := unserved s++contents (usedRing s)

structure Inv (s : Sys π β) : Prop where
  owned : Owned (flight s) s.disk
  holder : ∀ p b, bufOf (s.pc p) = some b → s.holder b = some p
  locked : ∀ p b c, s.pc p = .post b c → s.lock = some (.proc p)
  nodup : (pending s).Nodup
  pends : ∀ k ∈ pending s, ∃ p b c, s.pc p = .wait b c ∧ k = c.head
  posts : ∀ p b c, s.pc p = .post b c →
    s.disk.busy b = true ∧ s.disk.avail.ring (index s.disk.avail.idx) = c.head
  waits : ∀ p b c, s.pc p = .wait b c → (s.disk.busy b = true ↔ (c.head : ℕ) ∈ pending s)
  served : ∀ p b c, s.pc p = .wait b c → (c.head : ℕ) ∉ unserved s → s.served c.head = true
  status : ∀ i : Fin num, (i : ℕ) ∈ contents (usedRing s) → (s.disk.info i).status = 0#8

variable {p : π} {b : β} {c : Chain}

theorem flight_wait (h : s.pc p = .wait b c) : flight s p = some (b,c) := by
  rw [flight, h]
  rfl

theorem flight_post (h : s.pc p = .post b c) : flight s p = some (b,c) := by
  rw [flight, h]
  rfl

namespace Inv

theorem init_inv : Inv (init : Sys π β) := by
  have hpend : pending (init : Sys π β) = [] := by
    simp [pending, unserved, contents, size, availRing, usedRing, init]
  constructor
  · constructor <;> simp [flight, init, chainOf]
  · simp [init, bufOf]
  · simp [init]
  · simp [hpend]
  · simp [hpend]
  · simp [init]
  · simp [init]
  · simp [init]
  · intro i hi
    rfl

variable {p q : π} {b : β} {c : Chain}

theorem head_inj (h : Inv s) {b' : β} {c' : Chain} (hp : flight s p = some (b,c))
    (hq : flight s q = some (b',c')) (heq : c.head = c'.head) : p = q := by
  by_contra hne
  exact h.owned.apart p q b b' c c' hne hp hq (a := c.head) (by simp [members])
    (by simp [members, heq])

theorem post_not_pending (h : Inv s) (hp : s.pc p = .post b c) :
    (c.head : ℕ) ∉ pending s := by
  intro hmem
  obtain ⟨q,b',c',hq,heq⟩ := h.pends _ hmem
  have hpq := h.head_inj (flight_post hp) (flight_wait hq) (Fin.ext heq)
  rw [hpq, hq] at hp
  cases hp

theorem pending_length (h : Inv s) : (pending s).length ≤ 2 := by
  by_contra hlen
  obtain ⟨x,y,z,rest,hpend⟩ : ∃ x y z rest, pending s = x::y::z::rest := by
    rcases hp : pending s with _ | ⟨x,_ | ⟨y,_ | ⟨z,rest⟩⟩⟩
    iterate 3 simp [hp] at hlen
    exact ⟨x,y,z,rest,rfl⟩
  obtain ⟨⟨hxy,hxz,-⟩,⟨hyz,-⟩,-⟩ : ((x ≠ y ∧ x ≠ z ∧ x ∉ rest) ∧ (y ≠ z ∧ y ∉ rest) ∧ z ∉ rest ∧
    rest.Nodup) := by
    simpa [hpend] using h.nodup
  obtain ⟨p,b,c,hp,rfl⟩ := h.pends x (by simp [hpend])
  obtain ⟨q,b',c',hq,rfl⟩ := h.pends y (by simp [hpend])
  obtain ⟨r,b'',c'',hr,rfl⟩ := h.pends z (by simp [hpend])
  rcases h.owned.two (flight_wait hp) (flight_wait hq) (flight_wait hr) with rfl | rfl | rfl
  · rw [hp] at hq
    cases hq
    exact hxy rfl
  · rw [hp] at hr
    cases hr
    exact hxz rfl
  · rw [hq] at hr
    cases hr
    exact hyz rfl

theorem avail_size (h : Inv s) : size (availRing s) ≤ 2 := by
  have := h.pending_length
  simp only [pending, unserved, List.length_append, length_contents] at this
  omega

theorem used_size (h : Inv s) : size (usedRing s) ≤ 2 := by
  have := h.pending_length
  simp only [pending, List.length_append, length_contents] at this
  omega

theorem avail_room (h : Inv s) : size (availRing s) < num := h.avail_size.trans_lt (by decide)

theorem used_room (h : Inv s) : size (usedRing s) < num := h.used_size.trans_lt (by decide)

theorem holder_inj (h : Inv s) (hp : bufOf (s.pc p) = some b)
    (hq : bufOf (s.pc q) = some b) : p = q := by
  have := (h.holder p b hp).symm.trans (h.holder q b hq)
  exact Option.some.inj this

theorem no_post (h : Inv s) (hlock : ∀ p, s.lock ≠ some (.proc p)) :
    s.pc p ≠ .post b c := fun hp => hlock p (h.locked p b c hp)

end Inv

theorem of_update [DecidableEq π] {pc : π → Pc β} {q : π} {x y : Pc β} (h : update pc p x q = y)
    (hxy : x ≠ y) : q ≠ p ∧ pc q = y := by
  by_cases hqp : q = p
  · subst hqp
    rw [update_self] at h
    exact absurd h hxy
  · exact ⟨hqp,by rwa [update_of_ne hqp] at h⟩

section Steps
variable [DecidableEq π]

variable {p : π} {b : β} {write : Bool} {c : Chain}

theorem inv_call (h : Inv s) [DecidableEq β] (hp : s.pc p = .out)
    (hb : s.holder b = none) : Inv { s with
      pc := update s.pc p (.alloc b write)
      holder := update s.holder b (some p) } := by
  have hflight : flight { s with
      pc := update s.pc p (.alloc b write)
      holder := update s.holder b (some p) } = flight s := by
    funext q
    by_cases hqp : q = p
    · subst hqp
      simp [flight, chainOf, hp]
    · simp [flight, hqp]
  constructor
  · rw [hflight]
    exact h.owned
  · intro q b' hq
    by_cases hqp : q = p
    · subst hqp
      obtain rfl : b = b' := by simpa [bufOf] using hq
      exact update_self ..
    · replace hq := h.holder q b' (by simpa [hqp] using hq)
      have hne : b' ≠ b := by
        rintro rfl
        rw [hb] at hq
        cases hq
      exact (update_of_ne hne ..).trans hq
  · intro q b' c hq
    exact h.locked q b' c (of_update hq (by simp)).2
  · exact h.nodup
  · intro k hk
    obtain ⟨q,b',c,hq,rfl⟩ := h.pends k hk
    have hqp : q ≠ p := by
      rintro rfl
      rw [hp] at hq
      cases hq
    exact ⟨q,b',c,(update_of_ne hqp ..).trans hq,rfl⟩
  · intro q b' c hq
    exact h.posts q b' c (of_update hq (by simp)).2
  · intro q b' c hq
    exact h.waits q b' c (of_update hq (by simp)).2
  · intro q b' c hq
    exact h.served q b' c (of_update hq (by simp)).2
  · exact h.status

theorem inv_post [DecidableEq β] {blockno : β → BitVec 32} (h : Inv s)
    (hp : s.pc p = .alloc b write) (hlock : s.lock = none) (hc : (members c).Nodup)
    (hfree : ∀ i ∈ members c, s.disk.free i = true) : Inv { s with
      disk := format blockno b write c { s.disk with
        free := fun i => s.disk.free i && i ∉ members c }
      pc := update s.pc p (.post b c)
      lock := some (.proc p)
      served := update s.served c.head false } := by
  obtain ⟨t,ht⟩ : ∃ t : Sys π β, t = { s with
      disk := format blockno b write c { s.disk with
        free := fun i => s.disk.free i && i ∉ members c }
      pc := update s.pc p (.post b c)
      lock := some (.proc p)
      served := update s.served c.head false } := ⟨_,rfl⟩
  rw [← ht]
  have hflight : flight t = update (flight s) p (some (b,c)) := by
    funext q
    by_cases hqp : q = p
    · subst hqp
      simp [ht, flight, chainOf]
    · simp [ht, flight, hqp]
  have hunserved : unserved t = unserved s := by
    rw [unserved, unserved, ← contents_stage (by decide) h.avail_room (c.head : ℕ), ht]
    rfl
  have hpend : pending t = pending s := by
    rw [pending, pending, hunserved, ht]
    rfl
  have hold : ∀ q b' c', s.pc q = .wait b' c' → q ≠ p ∧ b' ≠ b ∧ c'.head ≠ c.head := by
    intro q b' c' hq
    have hqp : q ≠ p := by
      rintro rfl
      rw [hp] at hq
      cases hq
    refine ⟨hqp,?_,?_⟩
    · rintro rfl
      exact hqp (h.holder_inj (b := b') (by rw [hq]; rfl) (by rw [hp]; rfl))
    · intro heq
      exact (h.owned.marked c.head).mp (hfree _ (by simp [members])) q b' c' (flight_wait hq)
        (by simp [members, heq])
  have hwait : ∀ q b' c', t.pc q = .wait b' c' → s.pc q = .wait b' c' := by
    intro q b' c' hq
    rw [ht] at hq
    exact (of_update hq (by simp)).2
  have hpost : ∀ q b' c', t.pc q = .post b' c' → q = p ∧ b' = b ∧ c' = c := by
    intro q b' c' hq
    rw [ht] at hq
    by_cases hqp : q = p
    · subst hqp
      obtain ⟨rfl,rfl⟩ : b = b' ∧ c = c' := by simpa using hq
      exact ⟨rfl,rfl,rfl⟩
    · exact absurd (by simpa [hqp] using hq) (h.no_post (by simp [hlock]))
  constructor
  · rw [hflight, ht]
    exact h.owned.post (by rw [flight, hp]; rfl) hc hfree
  · intro q b' hq
    rw [ht] at hq ⊢
    by_cases hqp : q = p
    · subst hqp
      obtain rfl : b = b' := by simpa [bufOf] using hq
      exact h.holder q b (by rw [hp]; rfl)
    · exact h.holder q b' (by simpa [hqp] using hq)
  · intro q b' c' hq
    rw [(hpost q b' c' hq).1, ht]
  · rw [hpend]
    exact h.nodup
  · intro k hk
    rw [hpend] at hk
    obtain ⟨q,b',c',hq,rfl⟩ := h.pends k hk
    refine ⟨q,b',c',?_,rfl⟩
    rw [ht]
    exact (update_of_ne (hold q b' c' hq).1 ..).trans hq
  · intro q b' c' hq
    obtain ⟨rfl,rfl,rfl⟩ := hpost q b' c' hq
    simp [ht, format]
  · intro q b' c' hq
    have hq := hwait q b' c' hq
    rw [hpend, ← h.waits q b' c' hq, ht]
    simp [format, (hold q b' c' hq).2.1]
  · intro q b' c' hq
    have hq := hwait q b' c' hq
    rw [hunserved, ht]
    simp only [update_of_ne (hold q b' c' hq).2.2]
    exact h.served q b' c' hq
  · intro i hi
    have hi : (i : ℕ) ∈ contents (usedRing s) := by
      rw [ht] at hi
      exact hi
    obtain ⟨q,b',c',hq,hk⟩ := h.pends i (List.mem_append_right _ hi)
    have hne := (hold q b' c' hq).2.2
    rw [← Fin.ext hk] at hne
    simp only [ht, format, update_of_ne hne]
    exact h.status i hi

theorem inv_publish (h : Inv s) (hp : s.pc p = .post b c) : Inv { s with
    disk := { s.disk with avail := { s.disk.avail with idx := s.disk.avail.idx+1 } }
    pc := update s.pc p (.wait b c)
    lock := none } := by
  obtain ⟨t,ht⟩ : ∃ t : Sys π β, t = { s with
      disk := { s.disk with avail := { s.disk.avail with idx := s.disk.avail.idx+1 } }
      pc := update s.pc p (.wait b c)
      lock := none } := ⟨_,rfl⟩
  rw [← ht]
  have hflight : flight t = flight s := by
    funext q
    by_cases hqp : q = p
    · subst hqp
      simp [ht, flight, chainOf, hp]
    · simp [ht, flight, hqp]
  have havail : contents (availRing t) = contents (availRing s)++[(c.head : ℕ)] := by
    rw [← contents_push (by decide) (by decide) h.avail_room]
    congr 1
    simp [push, availRing, ht, ← (h.posts p b c hp).2]
  have hunserved : unserved t = contents (availRing s)++(c.head : ℕ)::s.taken := by
    rw [unserved, havail, ht, List.append_assoc]
    rfl
  have hpend : (pending t).Perm ((c.head : ℕ)::pending s) := by
    have hused : contents (usedRing t) = contents (usedRing s) := by rw [ht]; rfl
    rw [pending, pending, hunserved, hused, unserved, List.append_assoc, List.append_assoc,
      List.cons_append]
    exact List.perm_middle
  have hpost : ∀ q b' c', t.pc q ≠ .post b' c' := by
    intro q b' c' hq
    rw [ht] at hq
    obtain ⟨hqp,hq⟩ := of_update hq (by simp)
    have := (h.locked q b' c' hq).symm.trans (h.locked p b c hp)
    exact hqp (by simpa using this)
  have hwait : ∀ q b' c', t.pc q = .wait b' c' →
      q = p ∧ b' = b ∧ c' = c ∨ s.pc q = .wait b' c' ∧ (c'.head : ℕ) ≠ c.head := by
    intro q b' c' hq
    rw [ht] at hq
    by_cases hqp : q = p
    · subst hqp
      obtain ⟨rfl,rfl⟩ : b = b' ∧ c = c' := by simpa using hq
      exact .inl ⟨rfl,rfl,rfl⟩
    · have hq : s.pc q = .wait b' c' := by simpa [hqp] using hq
      exact .inr ⟨hq,fun heq => hqp (h.head_inj (flight_wait hq) (flight_post hp) (Fin.ext heq))⟩
  constructor
  · rw [hflight, ht]
    exact h.owned.congr (fun _ _ => rfl) (fun _ => rfl) rfl
  · intro q b' hq
    rw [ht] at hq ⊢
    by_cases hqp : q = p
    · subst hqp
      obtain rfl : b = b' := by simpa [bufOf] using hq
      exact h.holder q b (by rw [hp]; rfl)
    · exact h.holder q b' (by simpa [hqp] using hq)
  · intro q b' c' hq
    exact absurd hq (hpost q b' c')
  · rw [hpend.nodup_iff]
    exact List.nodup_cons.mpr ⟨h.post_not_pending hp,h.nodup⟩
  · intro k hk
    rcases List.mem_cons.mp (hpend.mem_iff.mp hk) with rfl | hk
    · exact ⟨p,b,c,by simp [ht],rfl⟩
    · obtain ⟨q,b',c',hq,rfl⟩ := h.pends k hk
      have hqp : q ≠ p := by
        rintro rfl
        rw [hp] at hq
        cases hq
      exact ⟨q,b',c',by simp [ht, hqp, hq],rfl⟩
  · intro q b' c' hq
    exact absurd hq (hpost q b' c')
  · intro q b' c' hq
    have hbusy : t.disk.busy = s.disk.busy := by rw [ht]
    rw [hbusy, hpend.mem_iff, List.mem_cons]
    rcases hwait q b' c' hq with ⟨-,rfl,rfl⟩ | ⟨hq,hne⟩
    · simp [(h.posts p _ _ hp).1]
    · rw [h.waits q b' c' hq]
      simp [hne]
  · intro q b' c' hq
    rw [hunserved]
    rcases hwait q b' c' hq with ⟨-,rfl,rfl⟩ | ⟨hq,-⟩
    · simp
    · intro hmem
      rw [ht]
      apply h.served q b' c' hq
      simp only [unserved, List.mem_append, List.mem_cons, not_or] at hmem ⊢
      exact ⟨hmem.1,hmem.2.2⟩
  · rw [ht]
    exact h.status

theorem inv_giveBack [DecidableEq β] (h : Inv s) (hp : s.pc p = .wait b c) (hlock : s.lock = none)
    (hbusy : s.disk.busy b = false) : Inv { s with
      disk := { s.disk with
        info := update s.disk.info c.head { s.disk.info c.head with b := none }
        desc := fun i => if i ∈ members c then noDesc else s.disk.desc i
        free := fun i => s.disk.free i || i ∈ members c }
      pc := update s.pc p .out
      holder := update s.holder b none } := by
  have hother : ∀ q b', q ≠ p → bufOf (s.pc q) = some b' → b' ≠ b := by
    rintro q b' hqp hq rfl
    exact hqp (h.holder_inj hq (by rw [hp]; rfl))
  constructor
  · have hflight : update (flight s) p none = fun q => chainOf (update s.pc p .out q) := by
      funext q
      by_cases hqp : q = p
      · subst hqp
        simp [chainOf]
      · simp [flight, hqp]
    have := h.owned.giveBack (flight_wait hp)
    rwa [hflight] at this
  · intro q b' hq
    by_cases hqp : q = p
    · subst hqp
      simp [bufOf] at hq
    · have hq : bufOf (s.pc q) = some b' := by simpa [hqp] using hq
      exact (update_of_ne (hother q b' hqp hq) ..).trans (h.holder q b' hq)
  · intro q b' c' hq
    exact absurd (of_update hq (by simp)).2 (h.no_post (by simp [hlock]))
  · exact h.nodup
  · intro k hk
    obtain ⟨q,b',c',hq,rfl⟩ := h.pends k hk
    have hqp : q ≠ p := by
      rintro rfl
      rw [hp] at hq
      cases hq
      have := (h.waits q b c hp).mpr hk
      simp [hbusy] at this
    exact ⟨q,b',c',(update_of_ne hqp ..).trans hq,rfl⟩
  · intro q b' c' hq
    exact absurd (of_update hq (by simp)).2 (h.no_post (by simp [hlock]))
  · intro q b' c' hq
    exact h.waits q b' c' (of_update hq (by simp)).2
  · intro q b' c' hq
    exact h.served q b' c' (of_update hq (by simp)).2
  · intro i hi
    have := h.status i hi
    by_cases hic : i = c.head
    · subst hic
      simpa using this
    · simpa [hic] using this

omit [DecidableEq π] in
/-- What the loop of `virtio_disk_intr` finds: the next `used` entry is the head of
a request that waits, with its buffer on record and status 0. -/
theorem used_entry (h : Inv s) (hne : s.disk.usedIdx ≠ s.disk.used.idx) :
    ∃ p b c, s.pc p = .wait b c ∧ s.disk.used.ring (index s.disk.usedIdx) = c.head ∧
      (s.disk.info c.head).status = 0#8 ∧ (s.disk.info c.head).b = some b ∧
      contents (usedRing s) = (c.head : ℕ)::contents (pop (usedRing s)) := by
  have hpos : 0 < size (usedRing s) :=
    Nat.pos_of_ne_zero (fun hzero => hne (empty_iff.mpr hzero))
  have hcont := contents_pop hpos
  obtain ⟨p,b,c,hp,hk⟩ := h.pends (s.disk.used.ring (index s.disk.usedIdx))
    (List.mem_append_right _ (by rw [hcont]; exact List.mem_cons_self))
  have hk' : (usedRing s).data (index (usedRing s).head) = c.head := hk
  rw [hk'] at hcont
  exact ⟨p,b,c,hp,hk,h.status c.head (by simp [hcont]),
    (h.owned.linked p b c (flight_wait hp)).owner,
    hcont⟩

theorem inv_seen [DecidableEq β] (h : Inv s) (hlock : s.lock = some .intr) (hp : s.pc p = .wait b c)
    (hcont : contents (usedRing s) = (c.head : ℕ)::contents (pop (usedRing s))) : Inv { s with
      disk := { s.disk with
        busy := update s.disk.busy b false
        usedIdx := s.disk.usedIdx+1 } } := by
  obtain ⟨t,ht⟩ : ∃ t : Sys π β, t = { s with
      disk := { s.disk with
        busy := update s.disk.busy b false
        usedIdx := s.disk.usedIdx+1 } } := ⟨_,rfl⟩
  rw [← ht]
  have hunserved : unserved t = unserved s := by rw [ht]; rfl
  have hused : contents (usedRing t) = contents (pop (usedRing s)) := by rw [ht]; rfl
  have hpend : (pending s).Perm ((c.head : ℕ)::pending t) := by
    rw [pending, pending, hcont, hunserved, hused]
    exact List.perm_middle
  have hnodup := hpend.nodup_iff.mp h.nodup
  have hpc : t.pc = s.pc := by rw [ht]
  constructor
  · rw [ht]
    exact h.owned.congr (fun _ _ => rfl) (fun _ => rfl) rfl
  · rw [ht]
    exact h.holder
  · rw [ht]
    exact h.locked
  · exact (List.nodup_cons.mp hnodup).2
  · intro k hk
    rw [hpc]
    exact h.pends k (hpend.mem_iff.mpr (List.mem_cons_of_mem _ hk))
  · intro q b' c' hq
    rw [hpc] at hq
    exact absurd hq (h.no_post (by simp [hlock]))
  · intro q b' c' hq
    rw [hpc] at hq
    by_cases hqp : q = p
    · subst hqp
      obtain ⟨rfl,rfl⟩ : b = b' ∧ c = c' := by simpa [hp] using hq
      simp only [ht, update_self, Bool.false_eq_true, false_iff]
      rw [← ht]
      exact (List.nodup_cons.mp hnodup).1
    · have hb : b' ≠ b := by
        rintro rfl
        exact hqp (h.holder_inj (by rw [hq]; rfl) (by rw [hp]; rfl))
      have hhead : (c'.head : ℕ) ≠ c.head := fun heq =>
        hqp (h.head_inj (flight_wait hq) (flight_wait hp) (Fin.ext heq))
      have hbusy : t.disk.busy b' = s.disk.busy b' := by simp [ht, hb]
      rw [hbusy, h.waits q b' c' hq, hpend.mem_iff, List.mem_cons]
      simp [hhead]
  · rw [hunserved, hpc, ht]
    exact h.served
  · intro i hi
    rw [hused] at hi
    have := h.status i (by rw [hcont]; exact List.mem_cons_of_mem _ hi)
    rw [ht]
    exact this

omit [DecidableEq π] in
theorem inv_take (h : Inv s) (hne : s.next ≠ s.disk.avail.idx) : Inv { s with
    next := s.next+1
    taken := s.disk.avail.ring (index s.next)::s.taken } := by
  obtain ⟨t,ht⟩ : ∃ t : Sys π β, t = { s with
      next := s.next+1
      taken := s.disk.avail.ring (index s.next)::s.taken } := ⟨_,rfl⟩
  rw [← ht]
  have hpos : 0 < size (availRing s) :=
    Nat.pos_of_ne_zero (fun hzero => hne (empty_iff.mpr hzero))
  have hunserved : (unserved t).Perm (unserved s) := by
    have ht' : unserved t = contents (pop (availRing s))++s.disk.avail.ring
      (index s.next)::s.taken := by
      rw [ht]
      rfl
    rw [ht', unserved, contents_pop hpos]
    exact List.perm_middle
  have hpend : (pending t).Perm (pending s) := by
    have hused : usedRing t = usedRing s := by rw [ht]; rfl
    rw [pending, pending, hused]
    exact hunserved.append_right _
  constructor
  · rw [ht]
    exact h.owned
  · rw [ht]
    exact h.holder
  · rw [ht]
    exact h.locked
  · exact hpend.nodup_iff.mpr h.nodup
  · intro k hk
    rw [ht]
    exact h.pends k (hpend.mem_iff.mp hk)
  · rw [ht]
    exact h.posts
  · intro q b c hq
    rw [hpend.mem_iff, ht]
    rw [ht] at hq
    exact h.waits q b c hq
  · intro q b c hq
    rw [hunserved.mem_iff, ht]
    rw [ht] at hq
    exact h.served q b c hq
  · rw [ht]
    exact h.status

omit [DecidableEq π] in
theorem inv_complete (h : Inv s) {i : Fin num} (hmem : (i : ℕ) ∈ s.taken) : Inv { s with
    taken := s.taken.erase i
    disk := { s.disk with
      info := update s.disk.info i { s.disk.info i with status := 0 }
      used :=
        { idx := s.disk.used.idx+1
          ring := update s.disk.used.ring (index s.disk.used.idx) i } }
    served := fun k => s.served k || k = (i : ℕ) } := by
  obtain ⟨t,ht⟩ : ∃ t : Sys π β, t = { s with
      taken := s.taken.erase i
      disk := { s.disk with
        info := update s.disk.info i { s.disk.info i with status := 0 }
        used :=
          { idx := s.disk.used.idx+1
            ring := update s.disk.used.ring (index s.disk.used.idx) i } }
      served := fun k => s.served k || k = (i : ℕ) } := ⟨_,rfl⟩
  rw [← ht]
  have hunserved : (unserved s).Perm ((i : ℕ)::unserved t) := by
    have ht' : unserved t = contents (availRing s)++s.taken.erase i := by rw [ht]; rfl
    rw [ht', unserved]
    exact ((List.perm_cons_erase hmem).append_left _).trans List.perm_middle
  have hused : contents (usedRing t) = contents (usedRing s)++[(i : ℕ)] := by
    rw [← contents_push (by decide) (by decide) h.used_room, ht]
    rfl
  have hpend : (pending t).Perm (pending s) := by
    rw [pending, pending, hused, ← List.append_assoc]
    exact (List.perm_append_singleton _ _).trans (hunserved.symm.append_right _)
  have hpc : t.pc = s.pc := by rw [ht]
  constructor
  · rw [ht]
    refine Owned.congr (d := s.disk) h.owned (fun _ _ => rfl) (fun j => ?_) rfl
    by_cases hj : j = i
    · subst hj
      simp
    · simp [hj]
  · rw [ht]
    exact h.holder
  · rw [ht]
    exact h.locked
  · exact hpend.nodup_iff.mpr h.nodup
  · intro k hk
    rw [hpc]
    exact h.pends k (hpend.mem_iff.mp hk)
  · rw [ht]
    exact h.posts
  · intro q b c hq
    rw [hpend.mem_iff, ht]
    rw [hpc] at hq
    exact h.waits q b c hq
  · intro q b c hq hnot
    rw [hpc] at hq
    rw [ht]
    by_cases heq : (c.head : ℕ) = i
    · simp [heq]
    · have := h.served q b c hq (by rw [hunserved.mem_iff, List.mem_cons]; simp [heq, hnot])
      simp [this]
  · intro j hj
    rw [hused, List.mem_append] at hj
    by_cases hji : j = i
    · subst hji
      simp [ht]
    · have := h.status j (hj.resolve_right (by simpa [Fin.val_inj] using hji))
      simpa [ht, hji] using this

end Steps

end Machine

end GreenOS.VirtioSteps
