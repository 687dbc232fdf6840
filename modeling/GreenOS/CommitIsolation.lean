import GreenOS.LogOps

/-!
# Commits and concurrent operations

The decision to commit is taken when the last open operation ends, and from then
on `begin_op` waits.
-/

namespace GreenOS.CommitIsolation
open StepRun Programs LogCode BufferSeq LogOps

section
variable {M : Type}

/-- Whatever its reads answer, the program writes the blocks `bs` to the disk in
this order and leaves the log as `out`, if nobody else changes the log. -/
def Emits : P M Unit → Log → List ℕ → Log → Prop
  | .pure _, log, bs, out => bs = [] ∧ out = log
  | .step (.bread _) k, log, bs, out => ∀ r, Emits (k r) log bs out
  | .step (.setData _ _) k, log, bs, out => Emits (k ()) log bs out
  | .step (.bwrite b) k, log, bs, out => ∃ rest, bs = b::rest ∧ Emits (k ()) log rest out
  | .step (.brelse _) k, log, bs, out => Emits (k ()) log bs out
  | .step (.bunpin _) k, log, bs, out => Emits (k ()) log bs out
  | .step .getLog k, log, bs, out => Emits (k log) log bs out
  | .step (.setHeader lh) k, log, bs, out => Emits (k ()) { log with lh := lh } bs out
  | _, _, _, _ => False

variable {out : Log} {bs : List ℕ}

theorem emits_bind {p : P M Unit} {f : Unit → P M Unit} {log mid : Log} {cs : List ℕ}
    (hp : Emits p log bs mid) (hf : Emits (f ()) mid cs out) :
    Emits (p >>= f) log (bs++cs) out := by
  change Emits (p.bind f) log (bs++cs) out
  induction p generalizing log bs with
  | pure a =>
    obtain ⟨rfl,rfl⟩ := hp
    exact hf
  | step c k ih =>
    cases c with
    | bread b => exact fun r => ih r (hp r)
    | setData b data => exact ih () hp
    | bwrite b =>
      obtain ⟨rest,rfl,hrest⟩ := hp
      exact ⟨rest++cs,rfl,ih () hrest⟩
    | brelse b => exact ih () hp
    | bunpin b => exact ih () hp
    | getLog => exact ih log hp
    | setHeader lh => exact ih () hp
    | _ => exact hp.elim

theorem emits_writeLog (start tail : ℕ) (bs : List ℕ) (log : Log) :
    Emits (writeLogFrom start tail bs : P M Unit) log
      (List.range' (start+tail+1) bs.length) log := by
  induction bs generalizing tail with
  | nil => exact ⟨rfl,rfl⟩
  | cons b bs ih => exact fun _ _ => ⟨_,List.range'_succ .. ,ih (tail+1)⟩

theorem emits_install (start tail : ℕ) (bs : List ℕ) (log : Log) :
    Emits (installFrom false start tail bs : P M Unit) log bs log := by
  induction bs generalizing tail with
  | nil => exact ⟨rfl,rfl⟩
  | cons b bs ih => exact fun _ _ => ⟨_,rfl,ih (tail+1)⟩

theorem emits_writeHead (log : Log) : Emits (writeHead : P M Unit) log [log.start] log :=
  fun _ => ⟨[],rfl,rfl,rfl⟩

/-- The blocks a commit writes: the copies in the log, the header, the home
blocks, and the header again. -/
def commitBlocks (log : Log) : List ℕ :=
  if 0 < log.lh.length then
    List.range' (log.start+1) log.lh.length++([log.start]++(log.lh++[log.start]))
  else []

theorem emits_commit (log : Log) :
    Emits (commit : P M Unit) log (commitBlocks log) { log with lh := [] } := by
  change Emits (if 0 < log.lh.length then _ else _) log (commitBlocks log) _
  unfold commitBlocks
  split_ifs with h
  · refine emits_bind (emits_writeLog log.start 0 log.lh log) ?_
    refine emits_bind (emits_writeHead log) ?_
    refine emits_bind (emits_install log.start 0 log.lh log) ?_
    exact emits_writeHead { log with lh := [] }
  · refine ⟨rfl,?_⟩
    rw [← List.length_eq_zero_iff.mp (Nat.eq_zero_of_not_pos h)]

theorem emits_step {env : Env} {c : Cmd M} {k : Res c → P M Unit} {r : Res c}
    {t u : BufferSeq.Sys M} (h : Emits (.step c k) t.log bs out) (hc : CommitCmd c)
    (hu : handle env c t = .ok (r,u)) (w : List ℕ) :
    ∃ rest, Emits (k r) u.log rest out ∧ stored c w++rest = w++bs := by
  rw [handle_commit hc hu]
  cases c with
  | bread b => exact ⟨bs,h r,rfl⟩
  | setData b data => exact ⟨bs,h,rfl⟩
  | bwrite b =>
    obtain ⟨rest,rfl,hrest⟩ := h
    exact ⟨rest,hrest,by simp [stored]⟩
  | brelse b => exact ⟨bs,h,rfl⟩
  | bunpin b => exact ⟨bs,h,rfl⟩
  | getLog =>
    obtain rfl : t.log = r := (Prod.mk.inj (Outcome.ok.inj hu)).1
    exact ⟨bs,h,rfl⟩
  | setHeader lh => exact ⟨bs,h,rfl⟩
  | _ => exact h.elim

end

theorem mem_commitBlocks {log : Log} (hsmall : log.lh.length ≤ logblocks) {b : ℕ}
    (hb : ¬ InLog log.start b) : b ∈ commitBlocks log ↔ b ∈ log.lh := by
  unfold InLog at hb
  have hstart : b ≠ log.start := by omega
  have hcopy : b ∉ List.range' (log.start+1) log.lh.length := by
    rw [List.mem_range'_1]
    omega
  unfold commitBlocks
  split_ifs with h
  · simp [hstart, hcopy]
  · simp [List.length_eq_zero_iff.mp (Nat.eq_zero_of_not_pos h)]

variable {ι M : Type} [DecidableEq ι]

structure Grouped (s : LogOps.Sys ι M) : Prop where
  small : s.seq.log.lh.length ≤ logblocks
  grouped : (∀ j, commits (s.phase j) = false) → ∀ b, b ∈ s.seq.log.lh ↔
    b ∈ s.ended ∨ ∃ i, active (s.phase i) = true ∧ b ∈ s.wrote i
  plan : ∀ i q, s.phase i = .committing q → ∃ bs out, Emits q s.seq.log bs out ∧ out.lh = [] ∧
    ∀ b, ¬ InLog s.seq.log.start b → (b ∈ s.written++bs ↔ b ∈ s.ended)

section
variable {env : Env} {s s' : LogOps.Sys ι M}

variable {i : ι} {f : Phase M} {b c : ℕ} {log : Log} {t : BufferSeq.Sys M}

theorem grouped_same (hG : Grouped s) (hp : s'.phase = (setPhase s i f).phase)
    (ha : active f = active (s.phase i)) (hc : commits f = false)
    (hold : commits (s.phase i) = false) (hlog : s'.seq.log = s.seq.log)
    (hwrote : s'.wrote = s.wrote) (hended : s'.ended = s.ended)
    (hwritten : s'.written = s.written) : Grouped s' := by
  have hactive : ∀ j, active (s'.phase j) = active (s.phase j) := by
    intro j
    by_cases hj : j = i
    · rw [hp,hj,setPhase_same,ha]
    · rw [hp,setPhase_ne s f hj]
  have hcommits : ∀ j, commits (s'.phase j) = commits (s.phase j) := by
    intro j
    by_cases hj : j = i
    · rw [hp,hj,setPhase_same,hc,hold]
    · rw [hp,setPhase_ne s f hj]
  refine ⟨hlog ▸ hG.small,?_,?_⟩
  · intro hnone b
    simp only [hlog,hended,hwrote,hactive]
    exact hG.grouped (fun j => hcommits j ▸ hnone j) b
  · intro j q hq
    have hji : j ≠ i := by
      rintro rfl
      rw [hp,setPhase_same] at hq
      rw [hq] at hc
      cases hc
    rw [hp,setPhase_ne s f hji] at hq
    rw [hlog,hended,hwritten]
    exact hG.plan j q hq

theorem grouped_open (hp : s'.phase = (setPhase s i f).phase)
    (hnone : ∀ j, j ≠ i → commits (s.phase j) = false) (hf : commits f = false)
    (hsmall : s'.seq.log.lh.length ≤ logblocks)
    (hmem : ∀ b, b ∈ s'.seq.log.lh ↔
      b ∈ s'.ended ∨ ∃ j, active (s'.phase j) = true ∧ b ∈ s'.wrote j) : Grouped s' := by
  refine ⟨hsmall,fun _ => hmem,?_⟩
  intro j q hq
  by_cases hji : j = i
  · rw [hp,hji,setPhase_same] at hq
    rw [hq] at hf
    cases hf
  · rw [hp,setPhase_ne s f hji] at hq
    have := hnone j hji
    rw [hq] at this
    cases this

theorem grouped_enter {p : P M Unit} (hS : Shape s) (hG : Grouped s) (hi : s.phase i = .entering p)
    (hflag : s.seq.log.committing = false) (k : ℕ) :
    Grouped { withSeq (setPhase s i (.body p)) (setLog s.seq { s.seq.log with
      outstanding := k }) with
      wrote := Function.update s.wrote i [] } := by
  have hnone : ∀ j, commits (s.phase j) = false := by
    intro j
    by_contra h
    rw [hS.flag.mpr ⟨j,by simpa using h⟩] at hflag
    cases hflag
  refine grouped_open rfl (fun j _ => hnone j) rfl hG.small ?_
  intro b
  refine (hG.grouped hnone b).trans (or_congr_right ⟨?_,?_⟩)
  · rintro ⟨j,hj,hb⟩
    have hji : j ≠ i := by
      rintro rfl
      rw [hi] at hj
      cases hj
    exact ⟨j,by simpa [withSeq, setPhase, hji] using hj,by simpa [hji] using hb⟩
  · rintro ⟨j,hj,hb⟩
    have hji : j ≠ i := by
      rintro rfl
      simp at hb
    exact ⟨j,by simpa [withSeq, setPhase, hji] using hj,by simpa [hji] using hb⟩

theorem mem_logged :
    c ∈ (logged (.logWrite b : Cmd M) log).lh ↔ c ∈ log.lh ∨ c = b := by
  simp only [logged]
  split_ifs with h
  · constructor
    · exact .inl
    · rintro (hc | rfl)
      · exact hc
      · exact h
  · simp

theorem mem_noted {l : List ℕ} :
    c ∈ noted (.logWrite b : Cmd M) l ↔ c ∈ l ∨ c = b := by
  simp only [noted]
  split_ifs with h
  · constructor
    · exact .inl
    · rintro (hc | rfl)
      · exact hc
      · exact h
  · simp

theorem logged_length (h : log.lh.length < logblocks) :
    (logged (.logWrite b : Cmd M) log).lh.length ≤ logblocks := by
  simp only [logged]
  split_ifs
  · exact h.le
  · simpa using h

theorem grouped_write {k : Unit → P M Unit} (hS : Shape s) (hG : Grouped s)
    (hi : s.phase i = .body (.step (.logWrite b) k)) (hfull : s.seq.log.lh.length < logblocks)
    (hlog : t.log = logged (.logWrite b : Cmd M) s.seq.log) :
    Grouped { withSeq (setPhase s i (.body (k ()))) t with
      wrote := Function.update s.wrote i (noted (.logWrite b : Cmd M) (s.wrote i)) } := by
  have hact : active (s.phase i) = true := by rw [hi]; rfl
  have hnone := not_committing hS hact
  refine grouped_open rfl (fun j _ => hnone j) rfl ?_ ?_
  · change t.log.lh.length ≤ _
    rw [hlog]
    exact logged_length hfull
  · intro c
    change c ∈ t.log.lh ↔ _
    rw [hlog,mem_logged,hG.grouped hnone c,or_assoc]
    refine or_congr_right ⟨?_,?_⟩
    · rintro (⟨j,hj,hc⟩ | rfl)
      · refine ⟨j,?_,?_⟩
        · by_cases hji : j = i
          · simp [hji, withSeq, setPhase, active]
          · simpa [withSeq, setPhase, hji] using hj
        · by_cases hji : j = i
          · subst hji
            simpa [mem_noted] using .inl hc
          · simpa [hji] using hc
      · exact ⟨i,by simp [withSeq, setPhase, active],by simp [mem_noted]⟩
    · rintro ⟨j,hj,hc⟩
      by_cases hji : j = i
      · subst hji
        rcases mem_noted.mp (by simpa using hc) with hc | hc
        · exact .inl ⟨j,hact,hc⟩
        · exact .inr hc
      · exact .inl ⟨j,by simpa [withSeq, setPhase, hji] using hj,by simpa [hji] using hc⟩

theorem mem_ended (hS : Shape s) (hG : Grouped s) (hi : active (s.phase i) = true)
    (hf : active f = false) (b : ℕ) : b ∈ s.seq.log.lh ↔
      b ∈ s.ended++s.wrote i ∨ ∃ j, active ((setPhase s i f).phase j) = true ∧ b ∈ s.wrote j := by
  rw [hG.grouped (not_committing hS hi) b,List.mem_append,or_assoc]
  refine or_congr_right ⟨?_,?_⟩
  · rintro ⟨j,hj,hb⟩
    by_cases hji : j = i
    · exact .inl (hji ▸ hb)
    · exact .inr ⟨j,by rwa [setPhase_ne s f hji],hb⟩
  · rintro (hb | ⟨j,hj,hb⟩)
    · exact ⟨i,hi,hb⟩
    · have hji : j ≠ i := by
        rintro rfl
        rw [setPhase_same,hf] at hj
        cases hj
      exact ⟨j,by rwa [setPhase_ne s f hji] at hj,hb⟩

theorem grouped_decide {k : ℕ} (hS : Shape s) (hG : Grouped s)
    (hS' : Shape { withSeq (setPhase s i (.committing commit))
        (setLog s.seq { s.seq.log with outstanding := k, committing := true }) with
      ended := s.ended++s.wrote i, written := [] })
    (hi : active (s.phase i) = true) :
    Grouped { withSeq (setPhase s i (.committing commit))
        (setLog s.seq { s.seq.log with outstanding := k, committing := true }) with
      ended := s.ended++s.wrote i, written := [] } := by
  have hself : commits ((setPhase s i (.committing commit)).phase i) = true := by
    rw [setPhase_same]
    rfl
  refine ⟨hG.small,fun hnone => ?_,?_⟩
  · exact absurd (hnone i) (by simp [withSeq, hself])
  · intro j q hq
    obtain rfl : j = i := hS'.single j i (by rw [hq]; rfl) hself
    obtain rfl : commit = q := by simpa [withSeq, setPhase] using hq
    refine ⟨_,_,emits_commit _,rfl,?_⟩
    intro b hb
    refine (mem_commitBlocks (by exact hG.small) hb).trans ?_
    refine (mem_ended hS hG hi (f := .committing commit) rfl b).trans (or_iff_left ?_)
    rintro ⟨j',hj',_⟩
    exact Bool.false_ne_true ((hS'.alone j j' hself).symm.trans hj')

theorem grouped_commit {c : Cmd M} {k : Res c → P M Unit} {r : Res c} (hS : Shape s)
    (hG : Grouped s) (hi : s.phase i = .committing (.step c k)) (hc : CommitCmd c)
    (ht : handle env c s.seq = .ok (r,t)) :
    Grouped { withSeq (setPhase s i (.committing (k r))) t with
      written := stored c s.written } := by
  have hcom : commits (s.phase i) = true := by rw [hi]; rfl
  have hlog := handle_commit hc ht
  have hstart : t.log.start = s.seq.log.start := by
    rw [hlog]
    unfold headed
    split <;> rfl
  obtain ⟨bs,out,hbs,hout,hmem⟩ := hG.plan i _ hi
  obtain ⟨rest,hrest,happ⟩ := emits_step hbs hc ht s.written
  refine ⟨?_,fun hnone => ?_,?_⟩
  · change t.log.lh.length ≤ _
    rw [hlog]
    rcases headed_lh hc s.seq.log with h | h
    · rw [h]
      exact hG.small
    · rw [h]
      exact Nat.zero_le _
  · exact absurd (hnone i) (by simp [withSeq, setPhase, commits])
  · intro j q hq
    have hji : j = i := by
      by_contra hji
      have hj : s.phase j = .committing q := by simpa [withSeq, setPhase, hji] using hq
      exact hji (hS.single j i (by rw [hj]; rfl) hcom)
    subst hji
    obtain rfl : k r = q := by simpa [withSeq, setPhase] using hq
    refine ⟨rest,out,hrest,hout,?_⟩
    intro b hb
    change b ∈ stored c s.written++rest ↔ _
    rw [happ]
    refine hmem b ?_
    change ¬ InLog t.log.start b at hb
    rw [hstart] at hb
    exact hb

theorem grouped_turn {e : Event ι M} (hS : Shape s) (hG : Grouped s) (h : Turn env s e s') :
    Grouped s' := by
  have hS' := shape_turn hS h
  cases h with
  | start i body hi =>
    exact grouped_same hG rfl (by rw [hi]; rfl) rfl (by rw [hi]; rfl) rfl rfl rfl rfl
  | read i body hi =>
    exact grouped_same hG rfl (by rw [hi]; rfl) rfl (by rw [hi]; rfl) rfl rfl rfl rfl
  | enter i p hi hflag hroom => exact grouped_enter hS hG hi hflag _
  | work i c k r t hi ht =>
    have hobey := hS.obeys i
    rw [hi] at hobey
    have hlog := (handle_op hobey.1 ht).2
    by_cases hc : ∃ b, c = .logWrite b
    · obtain ⟨b,rfl⟩ := hc
      exact grouped_write hS hG hi (logWrite_eq ht).1 hlog
    · obtain ⟨hl,hn⟩ := work_silent (not_exists.mp hc) s.seq.log (s.wrote i)
      refine grouped_same hG rfl (by rw [hi]; rfl) rfl (by rw [hi]; rfl) (hlog.trans hl) ?_ rfl rfl
      change Function.update s.wrote i (noted c (s.wrote i)) = s.wrote
      rw [hn,Function.update_eq_self]
  | leave i a hi hflag hmore =>
    have hact : active (s.phase i) = true := by rw [hi]; rfl
    exact grouped_open rfl (fun j _ => not_committing hS hact j) rfl hG.small
      (mem_ended hS hG hact rfl)
  | decide i a hi hflag hlast => exact grouped_decide hS hG hS' (by rw [hi]; rfl)
  | commit i c k r t hi ht =>
    have hobey := hS.obeys i
    rw [hi] at hobey
    exact grouped_commit hS hG hi hobey.1 ht
  | committed i a hi =>
    have hcom : commits (s.phase i) = true := by rw [hi]; rfl
    obtain ⟨bs,out,⟨rfl,rfl⟩,hlh,_⟩ := hG.plan i _ hi
    refine grouped_open rfl ?_ rfl hG.small ?_
    · intro j hj
      by_contra h
      exact hj (hS.single j i (by simpa using h) hcom)
    · intro b
      change b ∈ s.seq.log.lh ↔ _
      simp only [hlh, List.not_mem_nil, false_or, false_iff, not_exists, not_and]
      intro j hj
      have hji : j ≠ i := by
        rintro rfl
        simp [withSeq, setPhase, active] at hj
      have hact : active (s.phase j) = true := by simpa [withSeq, setPhase, hji] using hj
      rw [hS.alone i j hcom] at hact
      cases hact
  | look i c k r t hi ht =>
    have hobey := hS.obeys i
    rw [hi] at hobey
    have hlog := (handle_read hobey.1 ht).2
    exact grouped_same hG rfl (by rw [hi]; rfl) rfl (by rw [hi]; rfl) hlog rfl rfl rfl
  | looked i a hi =>
    exact grouped_same hG rfl (by rw [hi]; rfl) rfl (by rw [hi]; rfl) rfl rfl rfl rfl

end

omit [DecidableEq ι] in
theorem grouped_boot (t : BufferSeq.Sys M) : Grouped (boot t : LogOps.Sys ι M) := by
  refine ⟨Nat.zero_le _,?_,?_⟩
  · intro _ b
    simp [boot, active]
  · intro i q h
    simp [boot] at h

variable {env : Env} {s : LogOps.Sys ι M}

theorem disk_turn {e : Event ι M} {s' : LogOps.Sys ι M} (hS : Shape s) (h : Turn env s e s')
    (hd : s'.seq.disk ≠ s.seq.disk) :
    ∃ i q, e = .run i ∧ s.phase i = .committing q := by
  cases h with
  | work i c k r t hi ht =>
    have hobey := hS.obeys i
    rw [hi] at hobey
    exact absurd (handle_op hobey.1 ht).1 hd
  | look i c k r t hi ht =>
    have hobey := hS.obeys i
    rw [hi] at hobey
    exact absurd (handle_read hobey.1 ht).1 hd
  | commit i c k r t hi ht => exact ⟨i,_,rfl,hi⟩
  | _ => exact absurd rfl hd

theorem enter_waits {i : ι} {p : P M Unit} (hi : s.phase i = .entering p)
    (hflag : s.seq.log.committing = true) :
    outcome env (.run i) s = .wait := by
  simp [outcome, turn, hi, enterStep, logBeginStep, hflag]

structure Isolated (env : Env) (s : LogOps.Sys ι M) : Prop where
  none_open : s.seq.log.committing = true → s.seq.log.outstanding = 0
  under_way : s.seq.log.committing = true ↔ ∃ i q, s.phase i = .committing q
  none_starts : s.seq.log.committing = true → ∀ i p, s.phase i = .entering p →
    outcome env (.run i) s = .wait
  only_commit_writes : ∀ e s', step env e s = some s' → s'.seq.disk ≠ s.seq.disk →
    ∃ i q, e = .run i ∧ s.phase i = .committing q
  installs_ended : ∀ i q, s.phase i = .committing q → ∀ b, ¬ InLog s.seq.log.start b →
    b ∈ s.written → b ∈ s.ended
  installs_all : ∀ i a, s.phase i = .committing (.pure a) → ∀ b, ¬ InLog s.seq.log.start b →
    (b ∈ s.written ↔ b ∈ s.ended)
  none_unended : ∀ i q, s.phase i = .committing q → ∀ j p, s.phase j ≠ .body p
  no_panic : ∀ i a msg, s.phase i = .body (.pure a) → logEndStep s.seq ≠ .panic msg

theorem isolated_of_inv (hS : Shape s) (hG : Grouped s) :
    Isolated env s where
  none_open h := by
    obtain ⟨i,hi⟩ := hS.flag.mp h
    obtain ⟨A,hA,hcard⟩ := hS.ops
    rw [hcard,Finset.card_eq_zero]
    ext j
    simp [hA j, hS.alone i j hi]
  under_way := by
    rw [hS.flag]
    constructor
    · rintro ⟨i,hi⟩
      cases hp : s.phase i with
      | committing q => exact ⟨i,q,hp⟩
      | _ => simp [hp, commits] at hi
    · rintro ⟨i,q,hq⟩
      exact ⟨i,by rw [hq]; rfl⟩
  none_starts h i p hi := enter_waits hi h
  only_commit_writes e s' h := disk_turn hS (step_turn h)
  installs_ended i q hi b hb hw := by
    obtain ⟨bs,_,_,_,hmem⟩ := hG.plan i q hi
    exact (hmem b hb).mp (List.mem_append_left _ hw)
  installs_all i a hi b hb := by
    obtain ⟨bs,_,⟨rfl,_⟩,_,hmem⟩ := hG.plan i _ hi
    rw [← hmem b hb,List.append_nil]
  none_unended i q hi j p hj := by
    have hactive := hS.alone i j (by rw [hi]; rfl)
    rw [hj] at hactive
    cases hactive
  no_panic i a msg hi := by
    have hact : active (s.phase i) = true := by rw [hi]; rfl
    have hflag : s.seq.log.committing = false := by
      by_contra h
      obtain ⟨j,hj⟩ := hS.flag.mp (by simpa using h)
      rw [not_committing hS hact j] at hj
      cases hj
    simp only [logEndStep, hflag, Bool.false_eq_true, if_false]
    split_ifs <;> simp

/-- In every state of every run, commits are isolated from the operations. -/
theorem commit_isolation (env : Env) (t : BufferSeq.Sys M) (es : List (Event ι M))
    (s : LogOps.Sys ι M) (hrun : run (step env) es (boot t) = some s) : Isolated env s := by
  have hI := run_invariant (step env) (fun s => Shape s ∧ Grouped s)
    (fun e s s' hI h => ⟨shape_turn hI.1 (step_turn h),grouped_turn hI.1 hI.2 (step_turn h)⟩)
    es _ s ⟨shape_boot t,grouped_boot t⟩ hrun
  exact isolated_of_inv hI.1 hI.2

/-- Two operations overlap; the second to end commits for both. -/
def commitTwo : List (Event ℕ Unit) :=
  [starts 0 [50],starts 1 [60],.run 0,.run 1,.run 0,.run 1,.run 1]++List.replicate 41 (.run 0)

theorem commitTwo_isolated : ∃ s, run (step quiet) commitTwo (boot blank) = some s ∧
    s.written = [3,4,2,50,60,2] ∧ s.ended = [60,50] ∧ s.seq.log.committing = true ∧
    s.seq.log.outstanding = 0 ∧ Isolated quiet s := by
  have hcheck : (run (step quiet) commitTwo (boot blank)).any (fun s =>
      s.written = [3,4,2,50,60,2] ∧ s.ended = [60,50] ∧ s.seq.log.committing = true) = true := by
    decide +kernel
  obtain ⟨s,hs,hk⟩ := (Option.any_eq_true _ _).mp hcheck
  obtain ⟨hw,he,hflag⟩ := of_decide_eq_true hk
  have h := commit_isolation quiet blank commitTwo s hs
  exact ⟨s,hs,hw,he,hflag,h.none_open hflag,h⟩

end GreenOS.CommitIsolation
