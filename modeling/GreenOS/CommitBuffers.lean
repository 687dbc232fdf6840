import GreenOS.BufferCache

/-!
# A commit and the number of buffers

`commit` runs over a cache in which the log pins every block of the transaction.
Each of its loops reads one block of the log while the pinned blocks stay in the
cache, so one buffer beyond the pinned ones is enough, and needed: `NBUF` is no
more than `LOGBLOCKS`, and a full log leaves none.
-/

namespace GreenOS.CommitBuffers
open Programs LogCode BufferCache

section Operations
variable {P L : Finset ℕ} {s : Sys} {b : ℕ}

def After {α : Type} (P L : Finset ℕ) (log : Log) : α → Sys → Prop :=
  fun _ t => Held P L t ∧ t.log = log

theorem held_bread {i : Fin nbuf} {t : Sys} (hget : bget s b = .ok (i,t))
    (ht : Held P (insert b L) t)
    (hi : caches (t.buf i) b) (hlog : t.log = s.log) :
    Returns handle (LogCode.bread b) (After P (insert b L) s.log) s := by
  have hstep : handle (.bread b) s =
      .ok ((fetch t.disk (t.buf i)).data,setBuf t i (fetch t.disk (t.buf i))) := by
    simp only [handle, BufferCache.bread, hget]
    rfl
  refine returns_perform hstep ⟨?_,hlog⟩
  unfold fetch
  split_ifs
  · exact held_same ht hi rfl rfl rfl rfl
  · exact held_same ht hi rfl rfl rfl rfl

theorem returns_bread (h : Held P L s) (hb : b ∉ L) (hroom : b ∈ P ∨ (P ∪ L).card < nbuf) :
    Returns handle (LogCode.bread b) (After P (insert b L) s.log) s := by
  by_cases hc : ∃ i, caches (s.buf i) b
  · obtain ⟨i,hi⟩ := hc
    obtain ⟨hget,ht⟩ := bget_hit h hb hi
    exact held_bread hget ht (by simpa [caches] using hi) rfl
  · have hmiss := not_exists.mp hc
    have hP : b ∉ P := fun hm => hc (h.cached b (Finset.mem_union_left L hm))
    obtain ⟨i,hi⟩ := recyclable_some h (hroom.resolve_left hP)
    obtain ⟨hget,ht⟩ := bget_miss h hmiss hi
    exact held_bread hget ht (by simp [caches]) rfl

theorem locked_buf (h : Held P L s) (hb : b ∈ L) :
    ∃ i, caches (s.buf i) b ∧ lookup s b = some i ∧ (s.buf i).locked = true ∧
      (s.buf i).refcnt = (if b ∈ P then 1 else 0)+1 := by
  obtain ⟨i,hi⟩ := h.cached b (Finset.mem_union_right P hb)
  refine ⟨i,hi,lookup_eq h hi,?_,?_⟩
  · rw [h.lock i, among_caches L hi, if_pos hb]
  · rw [h.refs i, among_caches P hi, among_caches L hi, if_pos hb]

theorem returns_setData (h : Held P L s) (hb : b ∈ L) (data : Block) :
    Returns handle (LogCode.setData b data) (After P L s.log) s := by
  obtain ⟨i,hi,hl,-,-⟩ := locked_buf h hb
  have hstep : handle (.setData b data) s = .ok ((),setBuf s i { s.buf i with data := data }) :=
    onBuf_eq hl _
  exact returns_perform hstep ⟨held_same h hi rfl rfl rfl rfl,rfl⟩

theorem returns_bwrite (h : Held P L s) (hb : b ∈ L) :
    Returns handle (LogCode.bwrite b) (After P L s.log) s := by
  obtain ⟨i,hi,hl,hlock,-⟩ := locked_buf h hb
  have hstep : handle (.bwrite b) s =
      .ok ((),{ s with disk := Function.update s.disk b (s.buf i).data }) :=
    (onBuf_eq hl _).trans (if_pos hlock)
  exact returns_perform hstep ⟨⟨h.listed,h.unique,h.cached,h.refs,h.lock⟩,rfl⟩

theorem returns_brelse (h : Held P L s) (hb : b ∈ L) :
    Returns handle (LogCode.brelse b) (After P (L.erase b) s.log) s := by
  obtain ⟨i,hi,hl,hlock,hrefs⟩ := locked_buf h hb
  have hstep : handle (.brelse b) s = .ok ((),
      { setBuf s i { s.buf i with locked := false, refcnt := (s.buf i).refcnt-1 } with
        order := moveFront s i }) :=
    (onBuf_eq hl _).trans (if_pos hlock)
  have hset : Held P (L.erase b)
      (setBuf s i { s.buf i with locked := false, refcnt := (s.buf i).refcnt-1 }) := by
    refine held_setBuf h (b := b) hi ?_ (others_free h hi) ?_ ?_ (fun _ _ => rfl)
      (fun y hy => among_erase L hy)
    · intro c hc hcb
      refine ⟨?_,fun hi' => hcb (hi'.2.symm.trans hi.2)⟩
      simpa [hcb] using hc
    · rw [if_neg (Finset.notMem_erase b L)]
      exact Nat.sub_eq_of_eq_add hrefs
    · exact (decide_eq_false (Finset.notMem_erase b L)).symm
  refine returns_perform hstep ⟨⟨?_,hset.unique,hset.cached,hset.refs,hset.lock⟩,rfl⟩
  intro j
  change j ∈ moveFront s i
  unfold moveFront
  split_ifs
  · by_cases hji : j = i
    · exact hji ▸ List.mem_cons_self
    · exact List.mem_cons_of_mem i ((List.mem_erase_of_ne hji).mpr (h.listed j))
  · exact h.listed j

theorem returns_bunpin (h : Held P L s) (hb : b ∈ L) (hP : b ∈ P) :
    Returns handle (LogCode.bunpin b) (After (P.erase b) L s.log) s := by
  obtain ⟨i,hi,hl,hlock,hrefs⟩ := locked_buf h hb
  have hstep : handle (.bunpin b) s =
      .ok ((),setBuf s i { s.buf i with refcnt := (s.buf i).refcnt-1 }) :=
    onBuf_eq hl _
  refine returns_perform hstep ⟨?_,rfl⟩
  refine held_setBuf h (b := b) hi ?_ (others_free h hi) ?_ ?_ (fun y hy => among_erase P hy)
    (fun _ _ => rfl)
  · intro c hc hcb
    refine ⟨?_,fun hi' => hcb (hi'.2.symm.trans hi.2)⟩
    simpa [hcb] using hc
  · rw [if_neg (Finset.notMem_erase b P), if_pos hb]
    rw [if_pos hP] at hrefs
    exact Nat.sub_eq_of_eq_add hrefs
  · exact hlock.trans (decide_eq_true hb).symm

theorem returns_logWrite (h : Held P L s) (hb : b ∈ L) (hP : b ∉ P) (hn : b ∉ s.log.lh)
    (hroom : s.log.lh.length < logblocks) (hop : 1 ≤ s.log.outstanding) :
    Returns handle (LogCode.logWrite b)
      (After (insert b P) L { s.log with lh := s.log.lh ++ [b] }) s := by
  obtain ⟨i,hi,hl,hlock,hrefs⟩ := locked_buf h hb
  have hlog := held_setLog h { s.log with lh := s.log.lh ++ [b] }
  have hstep : handle (.logWrite b) s = .ok ((),
      setBuf (setLog s { s.log with lh := s.log.lh ++ [b] }) i
        { s.buf i with refcnt := (s.buf i).refcnt+1 }) := by
    have hl' : lookup (setLog s { s.log with lh := s.log.lh ++ [b] }) b = some i := hl
    exact (if_neg (not_le.mpr hroom)).trans ((if_neg (not_lt.mpr hop)).trans
      ((if_neg hn).trans (onBuf_eq hl' _)))
  refine returns_perform hstep ⟨?_,rfl⟩
  refine held_setBuf hlog (b := b) hi ?_ (others_free hlog hi) ?_ ?_
    (fun y hy => among_insert P hy) (fun _ _ => rfl)
  · intro c hc hcb
    refine ⟨?_,fun hi' => hcb (hi'.2.symm.trans hi.2)⟩
    simpa [hcb] using hc
  · rw [if_pos (Finset.mem_insert_self b P), if_pos hb]
    rw [if_neg hP] at hrefs
    exact congrArg (·+1) hrefs
  · exact hlock.trans (decide_eq_true hb).symm

end Operations

section Commit
variable {P : Finset ℕ} {s : Sys}

variable {start : ℕ} {bs : List ℕ}

theorem home_ne {b n : ℕ} (h : ¬ InLog start b) (hn : n ≤ logblocks) : start+n ≠ b := by
  unfold InLog at h
  omega

theorem returns_writeLogFrom (hroom : P.card < nbuf) :
    ∀ (bs : List ℕ) (tail : ℕ) {s : Sys}, Held P ∅ s → (∀ b ∈ bs, b ∈ P ∧ ¬ InLog start b) →
      tail+bs.length ≤ logblocks →
      Returns handle (writeLogFrom start tail bs) (After P ∅ s.log) s
  | [], _, _, h, _, _ => returns_pure ⟨h,rfl⟩
  | b::bs, tail, s, h, hbs, hlen => by
    obtain ⟨hb,hhome⟩ := hbs b List.mem_cons_self
    have hlen' : tail+1+bs.length ≤ logblocks := by
      rw [List.length_cons] at hlen
      omega
    have hne : b ≠ start+tail+1 := (home_ne hhome (n := tail+1) (by omega)).symm
    refine returns_bind (returns_mono (returns_bread h (Finset.notMem_empty _)
      (.inr (by simpa using hroom))) ?_)
    rintro _ s₁ ⟨h₁,hl₁⟩
    refine returns_bind (returns_mono (returns_bread h₁ (by simpa using hne) (.inl hb)) ?_)
    rintro src s₂ ⟨h₂,hl₂⟩
    have hx : start+tail+1 ∈ insert b (insert (start+tail+1) (∅ : Finset ℕ)) := by simp
    refine returns_bind (returns_mono (returns_setData h₂ hx src) ?_)
    rintro _ s₃ ⟨h₃,hl₃⟩
    refine returns_bind (returns_mono (returns_bwrite h₃ hx) ?_)
    rintro _ s₄ ⟨h₄,hl₄⟩
    refine returns_bind (returns_mono (returns_brelse h₄ (Finset.mem_insert_self b _)) ?_)
    rintro _ s₅ ⟨h₅,hl₅⟩
    rw [Finset.erase_insert (by simpa using hne)] at h₅
    refine returns_bind (returns_mono (returns_brelse h₅ (Finset.mem_insert_self _ _)) ?_)
    rintro _ s₆ ⟨h₆,hl₆⟩
    rw [Finset.erase_insert (Finset.notMem_empty _)] at h₆
    have hlog : s₆.log = s.log := by rw [hl₆, hl₅, hl₄, hl₃, hl₂, hl₁]
    exact hlog ▸ returns_writeLogFrom hroom bs (tail+1) h₆
      (fun c hc => hbs c (List.mem_cons_of_mem b hc)) hlen'

theorem returns_installFrom :
    ∀ (bs : List ℕ) (tail : ℕ) {s : Sys}, Held bs.toFinset ∅ s → bs.Nodup →
      (∀ b ∈ bs, ¬ InLog start b) → tail+bs.length ≤ logblocks → bs.length < nbuf →
      Returns handle (installFrom false start tail bs) (After ∅ ∅ s.log) s
  | [], _, _, h, _, _, _, _ => returns_pure ⟨h,rfl⟩
  | b::bs, tail, s, h, hnd, hbs, hlen, hroom => by
    rw [List.toFinset_cons] at h
    have hfresh : b ∉ bs.toFinset := by simpa using (List.nodup_cons.mp hnd).1
    have hcard : (insert b bs.toFinset).card < nbuf := by
      rw [← List.toFinset_cons]
      exact lt_of_le_of_lt (List.toFinset_card_le _) hroom
    rw [List.length_cons] at hlen hroom
    have hne : b ≠ start+tail+1 :=
      (home_ne (hbs b List.mem_cons_self) (n := tail+1) (by omega)).symm
    refine returns_bind (returns_mono (returns_bread h (Finset.notMem_empty _)
      (.inr (by simpa using hcard))) ?_)
    rintro lbuf s₁ ⟨h₁,hl₁⟩
    refine returns_bind (returns_mono (returns_bread h₁ (by simpa using hne)
      (.inl (Finset.mem_insert_self b _))) ?_)
    rintro _ s₂ ⟨h₂,hl₂⟩
    have hb : b ∈ insert b (insert (start+tail+1) (∅ : Finset ℕ)) := Finset.mem_insert_self b _
    refine returns_bind (returns_mono (returns_setData h₂ hb lbuf) ?_)
    rintro _ s₃ ⟨h₃,hl₃⟩
    refine returns_bind (returns_mono (returns_bwrite h₃ hb) ?_)
    rintro _ s₄ ⟨h₄,hl₄⟩
    refine returns_bind (returns_mono (returns_bunpin h₄ hb (Finset.mem_insert_self b _)) ?_)
    rintro _ s₅ ⟨h₅,hl₅⟩
    rw [Finset.erase_insert hfresh] at h₅
    refine returns_bind (returns_mono (returns_brelse h₅ (b := start+tail+1) (by simp)) ?_)
    rintro _ s₆ ⟨h₆,hl₆⟩
    have hleft : (insert b (insert (start+tail+1) (∅ : Finset ℕ))).erase (start+tail+1) = {b} := by
      rw [Finset.insert_comm, Finset.erase_insert (by simpa using hne.symm)]
      rfl
    rw [hleft] at h₆
    refine returns_bind (returns_mono (returns_brelse h₆ (Finset.mem_singleton_self b)) ?_)
    rintro _ s₇ ⟨h₇,hl₇⟩
    rw [Finset.erase_singleton] at h₇
    have hlog : s₇.log = s.log := by rw [hl₇, hl₆, hl₅, hl₄, hl₃, hl₂, hl₁]
    exact hlog ▸ returns_installFrom bs (tail+1) h₇ (List.nodup_cons.mp hnd).2
      (fun c hc => hbs c (List.mem_cons_of_mem b hc)) (by omega) (by omega)

theorem returns_writeHead (h : Held P ∅ s) (hroom : P.card < nbuf) :
    Returns handle writeHead (After P ∅ s.log) s := by
  refine returns_bind ⟨s.log,s,rfl,?_⟩
  refine returns_bind (returns_mono (returns_bread h (Finset.notMem_empty _)
    (.inr (by simpa using hroom))) ?_)
  rintro buf s₁ ⟨h₁,hl₁⟩
  have hx := Finset.mem_insert_self s.log.start (∅ : Finset ℕ)
  refine returns_bind (returns_mono (returns_setData h₁ hx _) ?_)
  rintro _ s₂ ⟨h₂,hl₂⟩
  refine returns_bind (returns_mono (returns_bwrite h₂ hx) ?_)
  rintro _ s₃ ⟨h₃,hl₃⟩
  refine returns_mono (returns_brelse h₃ hx) ?_
  rintro _ s₄ ⟨h₄,hl₄⟩
  rw [Finset.erase_insert (Finset.notMem_empty _)] at h₄
  exact ⟨h₄,by rw [hl₄, hl₃, hl₂, hl₁]⟩

/-- A transaction as `log_write` leaves it: distinct blocks outside the log area,
each pinned once, and no buffer in use by anybody. -/
structure Admitted (s : Sys) : Prop where
  distinct : s.log.lh.Nodup
  small : s.log.lh.length ≤ logblocks
  home : ∀ b ∈ s.log.lh, ¬ InLog s.log.start b
  held : Held s.log.lh.toFinset ∅ s

theorem admitted_card (h : Admitted s) : s.log.lh.toFinset.card = s.log.lh.length :=
  List.toFinset_card_of_nodup h.distinct

theorem commit_returns (h : Admitted s) (hroom : s.log.lh.length < nbuf) :
    Returns handle commit (fun _ t => Held ∅ ∅ t) s := by
  have hcard : s.log.lh.toFinset.card < nbuf := (admitted_card h).trans_lt hroom
  refine returns_bind ⟨s.log,s,rfl,?_⟩
  beta_reduce
  split_ifs with hn
  · refine returns_bind (returns_bind ⟨s.log,s,rfl,?_⟩)
    refine returns_mono (returns_writeLogFrom hcard s.log.lh 0 h.held
      (fun b hb => ⟨List.mem_toFinset.mpr hb,h.home b hb⟩) (by simpa using h.small)) ?_
    rintro _ s₁ ⟨h₁,hl₁⟩
    refine returns_bind (returns_mono (returns_writeHead h₁ hcard) ?_)
    rintro _ s₂ ⟨h₂,hl₂⟩
    have hlog : s₂.log = s.log := hl₂.trans hl₁
    refine returns_bind (returns_bind ⟨s₂.log,s₂,rfl,?_⟩)
    rw [hlog]
    refine returns_mono (returns_installFrom s.log.lh 0 h₂ h.distinct h.home
      (by simpa using h.small) hroom) ?_
    rintro _ s₃ ⟨h₃,-⟩
    refine returns_bind (returns_perform rfl ?_)
    exact returns_mono (returns_writeHead (held_setLog h₃ _) (by decide)) (fun _ _ ht => ht.1)
  · refine returns_pure ?_
    have hnil : s.log.lh = [] := by simpa using hn
    have hheld := h.held
    rw [hnil] at hheld
    exact hheld

theorem commit_panics (h : Admitted s) (hfull : nbuf ≤ s.log.lh.length) :
    exec handle commit s = .panic "bget: no buffers" := by
  have hcard : nbuf ≤ s.log.lh.toFinset.card := hfull.trans (admitted_card h).ge
  have hfresh : s.log.start+0+1 ∉ s.log.lh.toFinset := fun hm =>
    home_ne (h.home _ (List.mem_toFinset.mp hm)) (n := 1) (by decide) rfl
  have hget := bget_panics h.held hcard hfresh
  have hread : exec handle (LogCode.bread (s.log.start+0+1)) s = .panic "bget: no buffers" := by
    refine (exec_perform _ s).trans ?_
    simp only [handle, BufferCache.bread, hget]
    rfl
  have hloop : exec handle (writeLogFrom s.log.start 0 s.log.lh) s =
      .panic "bget: no buffers" := by
    cases hlh : s.log.lh with
    | nil => simp [hlh, nbuf, maxopblocks] at hfull
    | cons b bs => exact exec_bind_panic hread
  have hpos : 0 < s.log.lh.length := lt_of_lt_of_le (by decide) hfull
  have hlog : exec handle (getLog : LogCode.P Unit Log) s = .ok (s.log,s) := rfl
  rw [commit, exec_bind_ok hlog, if_pos hpos]
  exact exec_bind_panic ((exec_bind_ok hlog).trans hloop)

def logAll (data : Block) : List ℕ → LogCode.P Unit Unit
  | [] => pure ()
  | b::bs => do
    let _ ← LogCode.bread b
    LogCode.setData b data
    LogCode.logWrite b
    LogCode.brelse b
    logAll data bs

theorem returns_logAll (data : Block) :
    ∀ (bs : List ℕ) {s : Sys}, Held s.log.lh.toFinset ∅ s → (s.log.lh ++ bs).Nodup →
      (s.log.lh ++ bs).length ≤ logblocks → 1 ≤ s.log.outstanding →
      Returns handle (logAll data bs)
        (After (s.log.lh ++ bs).toFinset ∅ { s.log with lh := s.log.lh ++ bs }) s
  | [], s, h, _, _, _ => by
    refine returns_pure ?_
    simpa [After] using h
  | b::bs, s, h, hnd, hlen, hop => by
    have hb : b ∉ s.log.lh := fun hm => List.disjoint_of_nodup_append hnd hm List.mem_cons_self
    have hlt : s.log.lh.length < logblocks := by
      rw [List.length_append, List.length_cons] at hlen
      omega
    have hcard : s.log.lh.toFinset.card < nbuf :=
      lt_of_le_of_lt (List.toFinset_card_le _) hlt
    refine returns_bind (returns_mono (returns_bread h (Finset.notMem_empty b)
      (.inr (by simpa using hcard))) ?_)
    rintro _ s₁ ⟨h₁,hl₁⟩
    have hx := Finset.mem_insert_self b (∅ : Finset ℕ)
    refine returns_bind (returns_mono (returns_setData h₁ hx data) ?_)
    rintro _ s₂ ⟨h₂,hl₂⟩
    have hlog₂ : s₂.log = s.log := hl₂.trans hl₁
    refine returns_bind (returns_mono (returns_logWrite h₂ hx (by simpa using hb)
      (hlog₂ ▸ hb) (hlog₂ ▸ hlt) (hlog₂ ▸ hop)) ?_)
    rintro _ s₃ ⟨h₃,hl₃⟩
    refine returns_bind (returns_mono (returns_brelse h₃ hx) ?_)
    rintro _ s₄ ⟨h₄,hl₄⟩
    have hlog₄ : s₄.log = { s.log with lh := s.log.lh ++ [b] } := by rw [hl₄, hl₃, hlog₂]
    have hset : insert b s.log.lh.toFinset = s₄.log.lh.toFinset := by
      rw [hlog₄, List.toFinset_append]
      ext c
      simp
    rw [Finset.erase_insert (Finset.notMem_empty _), hset] at h₄
    have hsplit : s.log.lh ++ b::bs = s₄.log.lh ++ bs := by simp [hlog₄]
    have hout : s₄.log.outstanding = s.log.outstanding := by rw [hlog₄]
    have hrest := returns_logAll data bs h₄ (hsplit ▸ hnd) (hsplit ▸ hlen) (hout ▸ hop)
    rw [hsplit]
    refine returns_mono hrest ?_
    rintro _ t ⟨ht,hlt⟩
    exact ⟨ht,by rw [hlt, hlog₄]⟩

theorem held_binit (disk : BufferSeq.Disk) (start : ℕ) : Held ∅ ∅ (binit disk start) where
  listed := by simp [binit]
  unique := fun b i j hi => absurd hi.1 (by simp [binit, rootdev])
  cached := by simp
  refs := by simp [binit, among]
  lock := by simp [binit, among]

def beginThree : LogCode.P Unit Unit := do
  beginOp
  beginOp
  beginOp

theorem logAll_admitted (disk : BufferSeq.Disk) (data : Block) (hnd : bs.Nodup)
    (hlen : bs.length ≤ logblocks) (hhome : ∀ b ∈ bs, ¬ InLog start b) :
    ∃ t, exec handle (beginThree >>= fun _ => logAll data bs) (binit disk start) = .ok ((),t) ∧
      t.log = ⟨start,3,false,bs⟩ ∧ Admitted t := by
  have hbegin : exec handle beginThree (binit disk start) =
      .ok ((),setLog (binit disk start) ⟨start,3,false,[]⟩) := rfl
  have hheld : Held ∅ ∅ (setLog (binit disk start) ⟨start,3,false,[]⟩) :=
    held_setLog (held_binit disk start) _
  have hfill := returns_logAll data bs (s := setLog (binit disk start) ⟨start,3,false,[]⟩)
    hheld hnd hlen (show 1 ≤ 3 by decide)
  obtain ⟨_,t,ht,hheld,hlog⟩ := hfill
  have hlh : t.log.lh = bs := congrArg Log.lh hlog
  have hstart : t.log.start = start := congrArg Log.start hlog
  refine ⟨t,(exec_bind_ok hbegin).trans ht,hlog,hlh.symm ▸ hnd,hlh.symm ▸ hlen,?_,hlh.symm ▸ hheld⟩
  rwa [hlh, hstart]

theorem admitted_setLog {log : Log} (h : Admitted s) (hlh : log.lh = s.log.lh)
    (hstart : log.start = s.log.start) : Admitted (setLog s log) where
  distinct := hlh.symm ▸ h.distinct
  small := hlh.symm ▸ h.small
  home := fun b hb => hstart.symm ▸ h.home b (hlh ▸ hb)
  held := held_setLog (hlh.symm ▸ h.held) log

theorem endThree_panics {t : Sys} (h : Admitted t) (hlog : t.log = ⟨start,3,false,bs⟩)
    (hfull : nbuf ≤ bs.length) :
    exec handle (do endOp; endOp; endOp) t = .panic "bget: no buffers" := by
  have hend : ∀ n, exec handle endOp (setLog t ⟨start,n+2,false,bs⟩) =
      .ok ((),setLog t ⟨start,n+1,false,bs⟩) := fun n => rfl
  have hlast : exec handle endOp (setLog t ⟨start,1,false,bs⟩) = .panic "bget: no buffers" := by
    have hlogEnd : exec handle LogCode.logEnd (setLog t ⟨start,1,false,bs⟩) =
        .ok (true,setLog t ⟨start,0,true,bs⟩) := rfl
    refine (exec_bind_ok hlogEnd).trans ?_
    refine exec_bind_panic (commit_panics (admitted_setLog h ?_ ?_) hfull)
    · rw [hlog]
    · rw [hlog]
  have hsame : t = setLog t ⟨start,3,false,bs⟩ := by rw [← hlog]; rfl
  rw [hsame, exec_bind_ok (hend 1), exec_bind_ok (hend 0), hlast]

/-- `commit` runs to its end exactly when the log has fewer blocks than the cache
has buffers. -/
theorem commit_returns_iff (s : Sys) (h : Admitted s) :
    (∃ t, exec handle commit s = .ok ((),t)) ↔ s.log.lh.length < nbuf := by
  constructor
  · rintro ⟨t,ht⟩
    by_contra hfull
    have hpanic := commit_panics h (not_lt.mp hfull)
    rw [hpanic] at ht
    cases ht
  · intro hroom
    obtain ⟨_,t,ht,_⟩ := commit_returns h hroom
    exact ⟨t,ht⟩

theorem threeBlocks_commit : ∃ s t : Sys, s.log.lh = [100,107,101] ∧
    exec handle commit s = .ok ((),t) := by
  have hhome : ∀ b ∈ [100,107,101], ¬ InLog 2 b := fun b hb => by
    have hlt : 2+logblocks < 100 := by decide
    simp only [List.mem_cons, List.not_mem_nil, or_false] at hb
    unfold InLog
    omega
  obtain ⟨s,-,hlog,hadm⟩ :=
    logAll_admitted (fun _ _ => 0) (fun _ => 0) (by decide) (by decide) hhome
  obtain ⟨t,ht⟩ := (commit_returns_iff s hadm).mpr (by rw [hlog]; decide)
  exact ⟨s,t,congrArg Log.lh hlog,ht⟩

/-- Three calls that log ten blocks each fill the log, and the cache with it. -/
theorem fullCommit_panics :
    exec handle (do
        let _ ← beginThree >>= fun _ => logAll (fun _ => 0) (List.range' 100 30)
        endOp
        endOp
        endOp) (binit (fun _ _ => 0) 2) = .panic "bget: no buffers" := by
  have hhome : ∀ b ∈ List.range' 100 30, ¬ InLog 2 b := fun b hb => by
    rw [List.mem_range'_1] at hb
    exact fun h => absurd h.2 (not_le.mpr (lt_of_lt_of_le (by decide) hb.1))
  obtain ⟨t,ht,hlog,hadm⟩ :=
    logAll_admitted (fun _ _ => 0) (fun _ => 0) List.nodup_range' (by decide) hhome
  exact (exec_bind_ok ht).trans (endThree_panics hadm hlog (by decide))

end Commit

end GreenOS.CommitBuffers
