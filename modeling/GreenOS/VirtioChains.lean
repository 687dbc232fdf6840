import GreenOS.VirtioQueue

/-!
# Descriptor chains

`alloc3_desc` and `free_chain` as changes of the set of free descriptors, and
what holds of the chains of all requests in flight: three descriptors each,
apart from one another, with `free` marking the rest.
-/

namespace GreenOS.VirtioChains
open RingBuffer VirtioQueue
open Function (update update_of_ne update_apply)

section Descriptors
variable {β : Type} {d d' : Disk β}

variable {i : Fin num} {b : β} {c : Chain} {left : ℕ} {write : Bool}

theorem allocDesc_some (h : allocDesc d = (some i,d')) :
    d.free i = true ∧ d' = { d with free := update d.free i false } := by
  unfold allocDesc at h
  split at h
  next j hj =>
    cases h
    exact ⟨List.find?_some hj,rfl⟩
  next => cases h

theorem allocDesc_none (h : allocDesc d = (none,d')) : d' = d := by
  unfold allocDesc at h
  split at h
  next => cases h
  next => cases h; rfl

theorem freeDesc_ok (h : d.free i = false) :
    freeDesc i d = .ok { d with
      desc := update d.desc i noDesc
      free := update d.free i true } := by
  simp [freeDesc, h]

theorem update_back {α : Type} {f : α → Bool} [DecidableEq α] {i : α} (h : f i = true) :
    update (update f i false) i true = f := by
  rw [Function.update_idem, ← h, Function.update_eq_self]

/-- `alloc3_desc` takes three free descriptors, or gives back what it took; then
only descriptors that are free can have changed. -/
theorem alloc3Desc_cases (d : Disk β) :
    (∃ c : Chain, (members c).Nodup ∧ (∀ i ∈ members c, d.free i = true) ∧
      alloc3Desc d = .ok (some c,{ d with free := fun i => d.free i && i ∉ members c })) ∨
    ∃ desc, (∀ i, d.free i = false → desc i = d.desc i) ∧
      alloc3Desc d = .ok (none,{ d with desc := desc }) := by
  unfold alloc3Desc
  rcases h₁ : allocDesc d with ⟨_ | i,d₁⟩
  · obtain rfl := allocDesc_none h₁
    exact .inr ⟨_,fun _ _ => rfl,rfl⟩
  obtain ⟨hi,hd₁⟩ := allocDesc_some h₁
  rcases h₂ : allocDesc d₁ with ⟨_ | j,d₂⟩
  · obtain rfl := allocDesc_none h₂
    simp only [h₂]
    subst hd₁
    refine .inr ⟨update d.desc i noDesc,?_,?_⟩
    · intro k hk
      exact update_of_ne (by rintro rfl; simp [hi] at hk) _ _
    · simp [freeDesc, update_back hi, bind, Except.bind]
  obtain ⟨hj,hd₂⟩ := allocDesc_some h₂
  have hij : j ≠ i := by
    rintro rfl
    simp [hd₁] at hj
  replace hj : d.free j = true := by simpa [hd₁, hij] using hj
  rcases h₃ : allocDesc d₂ with ⟨_ | k,d₃⟩
  · obtain rfl := allocDesc_none h₃
    simp only [h₂, h₃]
    subst hd₂ hd₁
    refine .inr ⟨update (update d.desc i noDesc) j noDesc,?_,?_⟩
    · intro k hk
      rw [update_of_ne (by rintro rfl; simp [hj] at hk),
        update_of_ne (by rintro rfl; simp [hi] at hk)]
    · have hback : update (update (update (update d.free
          i false) j false) i true) j true = d.free := by
        rw [Function.update_comm hij.symm, update_back]
        · exact update_back hi
        · simp [hij, hj]
      simp [freeDesc, hij, hij.symm, hback, bind, Except.bind]
  · obtain ⟨hk,hd₃⟩ := allocDesc_some h₃
    simp only [h₂, h₃]
    subst hd₃ hd₂ hd₁
    have hkj : k ≠ j := by
      rintro rfl
      simp at hk
    have hki : k ≠ i := by
      rintro rfl
      simp [hkj] at hk
    replace hk : d.free k = true := by simpa [hki, hkj] using hk
    refine .inl ⟨⟨i,j,k⟩,?_,?_,?_⟩
    · simp [members, hij.symm, hki.symm, hkj.symm]
    · simp [members, hi, hj, hk]
    · congr 3
      funext m
      simp only [update_apply, members]
      by_cases m = i <;> by_cases m = j <;> by_cases m = k <;> simp_all

/-- The chain of a request on `b`, as the descriptors and the bookkeeping of its
head hold it. -/
structure Linked (d : Disk β) (b : β) (c : Chain) : Prop where
  nodup : (members c).Nodup
  head_more : (d.desc c.head).flags&&&descNext ≠ 0#16
  head_next : (d.desc c.head).next = c.data
  data_more : (d.desc c.data).flags&&&descNext ≠ 0#16
  data_next : (d.desc c.data).next = c.status
  status_last : (d.desc c.status).flags&&&descNext = 0#16
  status_addr : (d.desc c.status).addr = .status c.head
  owner : (d.info c.head).b = some b

theorem Linked.congr (h : Linked d b c) (hdesc : ∀ i ∈ members c, d'.desc i = d.desc i)
    (hinfo : (d'.info c.head).b = (d.info c.head).b) :
    Linked d' b c := by
  have hhead := hdesc c.head (by simp [members])
  have hdata := hdesc c.data (by simp [members])
  have hstatus := hdesc c.status (by simp [members])
  constructor
  · exact h.nodup
  · rw [hhead]; exact h.head_more
  · rw [hhead]; exact h.head_next
  · rw [hdata]; exact h.data_more
  · rw [hdata]; exact h.data_next
  · rw [hstatus]; exact h.status_last
  · rw [hstatus]; exact h.status_addr
  · rw [hinfo]; exact h.owner

theorem Linked.statusOf (h : Linked d b c) :
    statusOf d c.head = some c.head := by
  simp [VirtioQueue.statusOf, h.head_next, h.data_next, h.status_addr]

theorem freeChain_more {j : Fin num} (hfree : d.free i = false)
    (hmore : (d.desc i).flags&&&descNext ≠ 0#16) (hnext : (d.desc i).next = j) :
    freeChain (left+1) i d = freeChain left j { d with
      desc := update d.desc i noDesc
      free := update d.free i true } := by
  simp only [freeChain, i.isLt, dif_pos, Fin.eta, freeDesc_ok hfree, if_pos hmore, hnext, bind,
    Except.bind]

theorem freeChain_last (hfree : d.free i = false) (hlast : (d.desc i).flags&&&descNext = 0#16) :
    freeChain (left+1) i d = .ok { d with
      desc := update d.desc i noDesc
      free := update d.free i true } := by
  simp only [freeChain, i.isLt, dif_pos, Fin.eta, freeDesc_ok hfree, hlast, ne_eq,
    not_true_eq_false,
    if_false, bind, Except.bind]

theorem giveBack_ok (h : Linked d b c) (hfree : ∀ i ∈ members c, d.free i = false) :
    giveBack c d = .ok { d with
      info := update d.info c.head { d.info c.head with b := none }
      desc := fun i => if i ∈ members c then noDesc else d.desc i
      free := fun i => d.free i || i ∈ members c } := by
  obtain ⟨⟨h₁,h₂⟩,h₃⟩ : (c.head ≠ c.data ∧ c.head ≠ c.status) ∧ c.data ≠ c.status := by
    simpa [members] using h.nodup
  obtain ⟨hf₁,hf₂,hf₃⟩ : d.free c.head = false ∧ d.free c.data = false ∧
    d.free c.status = false := by
    simpa [members] using hfree
  have hdesc : update (update (update d.desc c.head noDesc) c.data noDesc)
      c.status noDesc = fun i => if i ∈ members c then noDesc else d.desc i := by
    funext i
    simp only [update_apply, members, List.mem_cons, List.not_mem_nil, or_false]
    by_cases i = c.head <;> by_cases i = c.data <;> by_cases i = c.status <;> simp_all
  have hmark : update (update (update d.free c.head true) c.data true)
      c.status true = fun i => d.free i || i ∈ members c := by
    funext i
    simp only [update_apply, members, List.mem_cons, List.not_mem_nil, or_false]
    by_cases i = c.head <;> by_cases i = c.data <;> by_cases i = c.status <;> simp_all
  rw [← hdesc, ← hmark]
  refine (freeChain_more (j := c.data) ?_ ?_ ?_).trans
    ((freeChain_more (j := c.status) ?_ ?_ ?_).trans (freeChain_last ?_ ?_))
  all_goals simp [hf₁, hf₂, hf₃, h.head_more, h.head_next, h.data_more, h.data_next, h.status_last,
    h₁.symm, h₂.symm, h₃.symm]

variable [DecidableEq β] (blockno : β → BitVec 32)

theorem format_linked (h : (members c).Nodup) :
    Linked (format blockno b write c d) b c := by
  obtain ⟨⟨h₁,h₂⟩,h₃⟩ : (c.head ≠ c.data ∧ c.head ≠ c.status) ∧ c.data ≠ c.status := by
    simpa [members] using h
  constructor <;> cases write <;> simp [format, h, h₁, h₂, h₃, descNext, descWrite]

theorem format_desc (h : i ∉ members c) :
    (format blockno b write c d).desc i = d.desc i := by
  obtain ⟨h₁,h₂,h₃⟩ : i ≠ c.head ∧ i ≠ c.data ∧ i ≠ c.status := by simpa [members] using h
  simp [format, h₁, h₂, h₃]

end Descriptors

section Owned
variable {π β : Type} {f : π → Option (β × Chain)} {d d' : Disk β}

structure Owned (f : π → Option (β × Chain)) (d : Disk β) : Prop where
  linked : ∀ p b c, f p = some (b,c) → Linked d b c
  apart : ∀ p q b b' c c', p ≠ q → f p = some (b,c) → f q = some (b',c') →
    List.Disjoint (members c) (members c')
  marked : ∀ i, d.free i = true ↔ ∀ p b c, f p = some (b,c) → i ∉ members c

namespace Owned

variable {p : π} {b : β} {c : Chain}

theorem not_free (h : Owned f d) (hp : f p = some (b,c)) {i : Fin num}
    (hi : i ∈ members c) : d.free i = false := by
  by_contra hfree
  rw [Bool.not_eq_false] at hfree
  exact (h.marked i).mp hfree p b c hp hi

theorem congr (h : Owned f d) (hdesc : ∀ i, d.free i = false → d'.desc i = d.desc i)
    (hinfo : ∀ i, (d'.info i).b = (d.info i).b) (hfree : d'.free = d.free) : Owned f d' := by
  constructor
  · intro p b c hp
    exact (h.linked p b c hp).congr (fun i hi => hdesc i (h.not_free hp hi)) (hinfo _)
  · exact h.apart
  · rw [hfree]
    exact h.marked

theorem two (h : Owned f d) {q r : π} {b' b'' : β} {c' c'' : Chain} (hp : f p = some (b,c))
    (hq : f q = some (b',c')) (hr : f r = some (b'',c'')) : p = q ∨ p = r ∨ q = r := by
  by_contra hne
  push Not at hne
  have hall : (members c++(members c'++members c'')).Nodup := by
    refine (h.linked p b c hp).nodup.append ((h.linked q b' c' hq).nodup.append
      (h.linked r b'' c'' hr).nodup (h.apart q r b' b'' c' c'' hne.2.2 hq hr)) ?_
    rw [List.disjoint_append_right]
    exact ⟨h.apart p q b b' c c' hne.1 hp hq,h.apart p r b b'' c c'' hne.2.1 hp hr⟩
  have hlen : 9 ≤ num := hall.length_le_card.trans (Fintype.card_fin num).le
  exact absurd hlen (by decide)

variable [DecidableEq π]

theorem post [DecidableEq β] {blockno : β → BitVec 32} (h : Owned f d) (hp : f p = none)
    {write : Bool} (hc : (members c).Nodup) (hfree : ∀ i ∈ members c, d.free i = true) :
    Owned (update f p (some (b,c)))
      (format blockno b write c { d with free := fun i => d.free i && i ∉ members c }) := by
  have hold : ∀ q b' c', f q = some (b',c') → List.Disjoint (members c) (members c') := by
    intro q b' c' hq i hi hi'
    exact (h.marked i).mp (hfree i hi) q b' c' hq hi'
  constructor
  · intro q b' c' hq
    by_cases hqp : q = p
    · subst hqp
      obtain ⟨rfl,rfl⟩ : b = b' ∧ c = c' := by simpa using hq
      exact format_linked blockno hc
    · rw [update_of_ne hqp] at hq
      have hapart := hold q b' c' hq
      apply (h.linked q b' c' hq).congr
      · intro i hi
        exact format_desc blockno (fun hi' => hapart hi' hi)
      · have hhead : c'.head ≠ c.head := by
          intro heq
          exact hapart (a := c.head) (by simp [members]) (by simp [members, heq])
        simp [format, hhead]
  · intro q r b₁ b₂ c₁ c₂ hqr hq hr
    by_cases hqp : q = p
    · subst hqp
      obtain ⟨-,rfl⟩ : b = b₁ ∧ c = c₁ := by simpa using hq
      rw [update_of_ne (Ne.symm hqr)] at hr
      exact hold r b₂ c₂ hr
    · rw [update_of_ne hqp] at hq
      by_cases hrp : r = p
      · subst hrp
        obtain ⟨-,rfl⟩ : b = b₂ ∧ c = c₂ := by simpa using hr
        exact (hold q b₁ c₁ hq).symm
      · rw [update_of_ne hrp] at hr
        exact h.apart q r b₁ b₂ c₁ c₂ hqr hq hr
  · intro i
    simp only [format, Bool.and_eq_true, h.marked i, decide_eq_true_eq]
    constructor
    · rintro ⟨hi,hic⟩ q b' c' hq
      by_cases hqp : q = p
      · subst hqp
        obtain ⟨-,rfl⟩ : b = b' ∧ c = c' := by simpa using hq
        exact hic
      · rw [update_of_ne hqp] at hq
        exact hi q b' c' hq
    · intro hi
      refine ⟨?_,hi p b c (Function.update_self ..)⟩
      intro q b' c' hq
      have hqp : q ≠ p := by
        rintro rfl
        rw [hp] at hq
        cases hq
      exact hi q b' c' (by rw [update_of_ne hqp]; exact hq)

theorem giveBack (h : Owned f d) (hp : f p = some (b,c)) :
    Owned (update f p none) { d with
      info := update d.info c.head { d.info c.head with b := none }
      desc := fun i => if i ∈ members c then noDesc else d.desc i
      free := fun i => d.free i || i ∈ members c } := by
  have hother : ∀ q b' c', update f p none q = some (b',c') → q ≠ p ∧ f q = some (b',c') := by
    intro q b' c' hq
    by_cases hqp : q = p
    · subst hqp
      simp at hq
    · exact ⟨hqp,by rwa [update_of_ne hqp] at hq⟩
  constructor
  · intro q b' c' hq
    obtain ⟨hqp,hq⟩ := hother q b' c' hq
    have hapart := h.apart q p b' b c' c hqp hq hp
    apply (h.linked q b' c' hq).congr
    · intro i hi
      exact if_neg (hapart hi)
    · have hhead : c'.head ≠ c.head := by
        intro heq
        exact hapart (a := c'.head) (by simp [members]) (by simp [members, heq])
      simp [hhead]
  · intro q r b₁ b₂ c₁ c₂ hqr hq hr
    exact h.apart q r b₁ b₂ c₁ c₂ hqr (hother q b₁ c₁ hq).2 (hother r b₂ c₂ hr).2
  · intro i
    simp only [Bool.or_eq_true, h.marked i, decide_eq_true_eq]
    constructor
    · rintro hi q b' c' hq
      obtain ⟨hqp,hq⟩ := hother q b' c' hq
      rcases hi with hi | hi
      · exact hi q b' c' hq
      · exact h.apart p q b b' c c' (Ne.symm hqp) hp hq hi
    · intro hi
      by_cases hic : i ∈ members c
      · exact .inr hic
      · refine .inl fun q b' c' hq => ?_
        by_cases hqp : q = p
        · subst hqp
          obtain ⟨-,rfl⟩ : b = b' ∧ c = c' := by simpa [hp] using hq
          exact hic
        · exact hi q b' c' (by rw [update_of_ne hqp]; exact hq)

end Owned
end Owned

end GreenOS.VirtioChains
