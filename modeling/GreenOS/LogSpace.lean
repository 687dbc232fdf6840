import GreenOS.LogOps

/-!
# Space in the log

`begin_op` reserves `MAXOPBLOCKS` entries for every open operation. An operation
that logs no more blocks than that uses up its own share one entry at a time,
so a block that is new to the log always finds room. A block that is in the log
already needs none, but `log_write` looks at `lh.n` before it looks for the block.
-/

namespace GreenOS.LogSpace
open StepRun LogCode BufferSeq LogOps
open Finset
open Function (update update_of_ne)

variable {ι M : Type} [DecidableEq ι]

def nextWrite (s : LogOps.Sys ι M) (i : ι) : Option ℕ :=
  match s.phase i with
  | .body (.step (.logWrite b) _) => some b
  | _ => none

def Modest : Event ι M → LogOps.Sys ι M → Prop
  | .run i, s => ∀ b ∈ nextWrite s i, b ∈ s.wrote i ∨ (s.wrote i).length < maxopblocks
  | _, _ => True

def Roomy : Event ι M → LogOps.Sys ι M → Prop
  | .run i, s => ∀ b ∈ nextWrite s i, b ∈ s.seq.log.lh → s.seq.log.lh.length < logblocks
  | _, _ => True

instance (e : Event ι M) (s : LogOps.Sys ι M) : Decidable (Modest e s) := by
  cases e <;> unfold Modest <;> infer_instance

instance (e : Event ι M) (s : LogOps.Sys ι M) : Decidable (Roomy e s) := by
  cases e <;> unfold Roomy <;> infer_instance

def share (s : LogOps.Sys ι M) (i : ι) : ℕ := maxopblocks-(s.wrote i).length

structure Space (s : LogOps.Sys ι M) : Prop where
  nodup : s.seq.log.lh.Nodup
  own : ∀ i, active (s.phase i) = true → ∀ b ∈ s.wrote i, b ∈ s.seq.log.lh
  budget : ∀ A, Members s A → s.seq.log.lh.length+∑ i ∈ A, share s i ≤ logblocks

section
variable {env : Env} {s s' : LogOps.Sys ι M}

variable {i : ι} {f : Phase M} {A : Finset ι} {b : ℕ} {k : Unit → P M Unit}

theorem members_back (hp : s'.phase = (setPhase s i f).phase) (hf : active f = active (s.phase i))
    (hA : Members s' A) : Members s A := by
  intro j
  rw [hA j,hp]
  by_cases hj : j = i
  · rw [hj,setPhase_same,hf]
  · rw [setPhase_ne s f hj]

theorem space_same (hW : Space s) (hp : s'.phase = (setPhase s i f).phase)
    (hf : active f = active (s.phase i)) (hlh : s'.seq.log.lh = s.seq.log.lh)
    (hwrote : s'.wrote = s.wrote) : Space s' := by
  refine ⟨hlh ▸ hW.nodup,?_,?_⟩
  · intro j hj
    rw [hlh,hwrote]
    refine hW.own j ?_
    by_cases hji : j = i
    · rw [hji,← hf,← setPhase_same s i f,← hp,← hji]
      exact hj
    · rw [← setPhase_ne s f hji,← hp]
      exact hj
  · intro A hA
    have hshare : ∀ j, share s' j = share s j := fun j => by rw [share,share,hwrote]
    rw [hlh,sum_congr rfl (fun j _ => hshare j)]
    exact hW.budget A (members_back hp hf hA)

theorem space_fewer (hW : Space s) (hp : s'.phase = (setPhase s i f).phase) (hf : active f = false)
    (hops : ∃ A, Members s A) (hlh : s'.seq.log.lh = s.seq.log.lh)
    (hwrote : s'.wrote = s.wrote) : Space s' := by
  have hback : ∀ j, active (s'.phase j) = true → active (s.phase j) = true := by
    intro j hj
    by_cases hji : j = i
    · rw [hp,hji,setPhase_same,hf] at hj
      cases hj
    · rwa [hp,setPhase_ne s f hji] at hj
  refine ⟨hlh ▸ hW.nodup,?_,?_⟩
  · intro j hj
    rw [hlh,hwrote]
    exact hW.own j (hback j hj)
  · intro A' hA'
    obtain ⟨A,hA⟩ := hops
    have hsub : A' ⊆ A := fun j hj => (hA j).mpr (hback j ((hA' j).mp hj))
    have hshare : ∀ j, share s' j = share s j := fun j => by rw [share,share,hwrote]
    rw [hlh,sum_congr rfl (fun j _ => hshare j)]
    exact (Nat.add_le_add_left (sum_le_sum_of_subset hsub) _).trans (hW.budget A hA)

theorem space_enter {p : P M Unit} (hW : Space s) (hS : Shape s')
    (hp : s'.phase = (setPhase s i (.body p)).phase) (hlh : s'.seq.log.lh = s.seq.log.lh)
    (hwrote : s'.wrote = update s.wrote i [])
    (hroom : s'.seq.log.lh.length+s'.seq.log.outstanding*maxopblocks ≤ logblocks) : Space s' := by
  refine ⟨hlh ▸ hW.nodup,?_,?_⟩
  · intro j hj b hb
    have hji : j ≠ i := by
      rintro rfl
      simp [hwrote] at hb
    rw [hp,setPhase_ne s _ hji] at hj
    rw [hwrote,update_of_ne hji] at hb
    exact hlh ▸ hW.own j hj b hb
  · intro A hA
    obtain ⟨B,hB,hcard⟩ := hS.ops
    obtain rfl : A = B := by
      ext j
      rw [hA j,hB j]
    have hsum : ∑ j ∈ A, share s' j ≤ A.card*maxopblocks := by
      simpa using sum_le_card_nsmul A (share s') maxopblocks (fun j _ => Nat.sub_le _ _)
    rw [hcard] at hroom
    omega

theorem sum_share (hi : i ∈ A) (w : List ℕ) (hwrote : s'.wrote = update s.wrote i w) :
    ∑ j ∈ A, share s' j+share s i = ∑ j ∈ A, share s j+(maxopblocks-w.length) := by
  have hrest : ∑ j ∈ A.erase i, share s' j = ∑ j ∈ A.erase i, share s j := by
    refine sum_congr rfl fun j hj => ?_
    rw [share,share,hwrote,update_of_ne (ne_of_mem_erase hj)]
  have hself : share s' i = maxopblocks-w.length := by
    rw [share,hwrote,Function.update_self]
  rw [← add_sum_erase A (share s') hi,← add_sum_erase A (share s) hi,hrest,hself]
  omega

theorem space_write {t : BufferSeq.Sys M} (hW : Space s)
    (hi : s.phase i = .body (.step (.logWrite b) k))
    (hmodest : b ∈ s.wrote i ∨ (s.wrote i).length < maxopblocks)
    (hlog : t.log = logged (.logWrite b : Cmd M) s.seq.log) :
    Space { withSeq (setPhase s i (.body (k ()))) t with
      wrote := update s.wrote i (noted (.logWrite b : Cmd M) (s.wrote i)) } := by
  set s' : LogOps.Sys ι M := { withSeq (setPhase s i (.body (k ()))) t with
      wrote := update s.wrote i (noted (.logWrite b : Cmd M) (s.wrote i)) } with hs'
  have hact : active (s.phase i) = true := by rw [hi]; rfl
  have hlh : s'.seq.log.lh = if b ∈ s.seq.log.lh then s.seq.log.lh else s.seq.log.lh++[b] := by
    change t.log.lh = _
    rw [hlog]
    simp only [logged]
    split_ifs <;> rfl
  have hmem : ∀ c ∈ s.seq.log.lh, c ∈ s'.seq.log.lh := by
    intro c hc
    rw [hlh]
    split_ifs
    · exact hc
    · exact List.mem_append_left _ hc
  have hnew : b ∈ s'.seq.log.lh := by
    rw [hlh]
    split_ifs with h
    · exact h
    · simp
  refine ⟨?_,?_,?_⟩
  · rw [hlh]
    split_ifs with h
    · exact hW.nodup
    · exact List.Nodup.append hW.nodup (List.nodup_singleton b) (by simpa using h)
  · intro j hj c hc
    by_cases hji : j = i
    · subst hji
      have hc : c ∈ noted (.logWrite b : Cmd M) (s.wrote j) := by simpa [hs'] using hc
      simp only [noted] at hc
      split_ifs at hc with hb
      · exact hmem c (hW.own j hact c hc)
      · rcases List.mem_append.mp hc with hc | hc
        · exact hmem c (hW.own j hact c hc)
        · rw [List.mem_singleton.mp hc]
          exact hnew
    · have hj' : active (s.phase j) = true := by simpa [hs', withSeq, setPhase, hji] using hj
      exact hmem c (hW.own j hj' c (by simpa [hs', hji] using hc))
  · intro A hA
    have hA' : Members s A := members_back rfl (by rw [hi]; rfl) hA
    have hsum : ∑ j ∈ A, share s' j+share s i = ∑ j ∈ A, share s j+
        (maxopblocks-(noted (.logWrite b : Cmd M) (s.wrote i)).length) :=
      sum_share ((hA' i).mpr hact) _ rfl
    have hbudget := hW.budget A hA'
    have hown : b ∈ s.wrote i → b ∈ s.seq.log.lh := hW.own i hact b
    have hshare : share s i = maxopblocks-(s.wrote i).length := rfl
    rw [hlh]
    simp only [noted] at hsum
    by_cases hb : b ∈ s.wrote i
    · rw [if_pos hb] at hsum
      rw [if_pos (hown hb)]
      omega
    · rw [if_neg hb,List.length_append,List.length_singleton] at hsum
      have := hmodest.resolve_left hb
      split_ifs
      · omega
      · rw [List.length_append,List.length_singleton]
        omega

omit [DecidableEq ι] in
theorem space_cleared (hnone : ∀ j, active (s.phase j) = false) (hlh : s.seq.log.lh = []) :
    Space s := by
  refine ⟨by simp [hlh],by simp [hnone],?_⟩
  intro A hA
  have hempty : A = ∅ := by
    ext j
    simp [hA j, hnone j]
  simp [hempty, hlh]

theorem space_turn {e : Event ι M} (hS : Shape s) (hW : Space s) (hok : Modest e s)
    (h : Turn env s e s') : Space s' := by
  have hS' := shape_turn hS h
  obtain ⟨A,hA,_⟩ := hS.ops
  cases h with
  | start i body hi => exact space_same hW rfl (by rw [hi]; rfl) rfl rfl
  | read i body hi => exact space_same hW rfl (by rw [hi]; rfl) rfl rfl
  | enter i p hi hflag hroom => exact space_enter hW hS' rfl rfl rfl hroom
  | work i c k r t hi ht =>
    have hobey := hS.obeys i
    rw [hi] at hobey
    have hlog := (handle_op hobey.1 ht).2
    by_cases hc : ∃ b, c = .logWrite b
    · obtain ⟨b,rfl⟩ := hc
      exact space_write hW hi (hok b (by simp [nextWrite, hi])) hlog
    · obtain ⟨hl,hn⟩ := work_silent (not_exists.mp hc) s.seq.log (s.wrote i)
      refine space_same hW rfl (by rw [hi]; rfl) ?_ ?_
      · exact congrArg Log.lh (hlog.trans hl)
      · change update s.wrote i (noted c (s.wrote i)) = s.wrote
        rw [hn,Function.update_eq_self]
  | leave i a hi hflag hmore => exact space_fewer hW rfl rfl ⟨A,hA⟩ rfl rfl
  | decide i a hi hflag hlast => exact space_fewer hW rfl rfl ⟨A,hA⟩ rfl rfl
  | commit i c k r t hi ht =>
    have hobey := hS.obeys i
    rw [hi] at hobey
    have hlog := handle_commit hobey.1 ht
    have hf : active (.committing (k r) : Phase M) = active (s.phase i) := by rw [hi]; rfl
    rcases headed_lh hobey.1 s.seq.log with hlh | hlh
    · exact space_same hW rfl hf ((congrArg Log.lh hlog).trans hlh) rfl
    · refine space_cleared (hS'.alone i · ?_) ((congrArg Log.lh hlog).trans hlh)
      simp [withSeq, setPhase, commits]
  | committed i a hi => exact space_same hW rfl (by rw [hi]; rfl) rfl rfl
  | look i c k r t hi ht =>
    have hobey := hS.obeys i
    rw [hi] at hobey
    have hlog := (handle_read hobey.1 ht).2
    exact space_same hW rfl (by rw [hi]; rfl) (congrArg Log.lh hlog) rfl
  | looked i a hi => exact space_same hW rfl (by rw [hi]; rfl) rfl rfl

omit [DecidableEq ι] in
theorem space_logWrite (hS : Shape s) (hW : Space s)
    (hi : s.phase i = .body (.step (.logWrite b) k)) (hmodest : Modest (.run i) s)
    (hroomy : Roomy (.run i) s) : ∃ t, logWriteStep s.seq b = .ok ((),t) := by
  have hnext : b ∈ nextWrite s i := by simp [nextWrite, hi]
  have hact : active (s.phase i) = true := by rw [hi]; rfl
  obtain ⟨A,hA,hcard⟩ := hS.ops
  have hiA := (hA i).mpr hact
  have hout : ¬ s.seq.log.outstanding < 1 := by
    rw [hcard,not_lt]
    exact card_pos.mpr ⟨i,hiA⟩
  have hlt : s.seq.log.lh.length < logblocks := by
    by_cases hb : b ∈ s.seq.log.lh
    · exact hroomy b hnext hb
    · have hlen := (hmodest b hnext).resolve_left (fun h => hb (hW.own i hact b h))
      have hle := single_le_sum (f := share s) (fun j _ => Nat.zero_le _) hiA
      have hpos : 0 < share s i := Nat.sub_pos_of_lt hlen
      have := hW.budget A hA
      omega
  unfold logWriteStep
  rw [if_neg (not_le.mpr hlt),if_neg hout]
  split_ifs
  · exact ⟨_,rfl⟩
  · exact ⟨_,rfl⟩

end

theorem inv_step (env : Env) (e : Event ι M) (s s' : LogOps.Sys ι M) (hI : Shape s ∧ Space s)
    (hok : Modest e s ∧ Roomy e s) (h : step env e s = some s') : Shape s' ∧ Space s' :=
  ⟨shape_turn hI.1 (step_turn h),space_turn hI.1 hI.2 hok.1 (step_turn h)⟩

/-- In every run in which each operation logs at most `MAXOPBLOCKS` different
blocks, and none of them again while the log is full, the log never overflows,
lists no block twice, and `log_write` does not panic. -/
theorem log_space (env : Env) (t : BufferSeq.Sys M) (es : List (Event ι M)) (s : LogOps.Sys ι M)
    (hok : Meets (step env) (fun e s => Modest e s ∧ Roomy e s) es (boot t))
    (hrun : run (step env) es (boot t) = some s) :
    s.seq.log.lh.length ≤ logblocks ∧ s.seq.log.lh.Nodup ∧
    ∀ i b k, s.phase i = .body (.step (.logWrite b) k) → Modest (.run i) s → Roomy (.run i) s →
      ∃ t', logWriteStep s.seq b = .ok ((),t') := by
  obtain ⟨hS,hW⟩ := run_guarded (step env) _ (fun s => Shape s ∧ Space s) (inv_step env) es _ s
    ⟨shape_boot t,space_cleared (fun _ => rfl) rfl⟩ hok hrun
  refine ⟨?_,hW.nodup,fun i b k hi => space_logWrite hS hW hi⟩
  obtain ⟨A,hA,_⟩ := hS.ops
  exact (Nat.le_add_right _ _).trans (hW.budget A hA)

def oneOp : List (Event ℕ Unit) :=
  [starts 0 [50,51,50], .run 0, .run 0, .run 0, .run 0]

theorem oneOp_space : ∃ s, run (step quiet) oneOp (boot blank) = some s ∧
    s.seq.log.lh = [50,51] ∧ s.seq.log.lh.length ≤ logblocks ∧ s.seq.log.lh.Nodup := by
  have hcheck : (run (step quiet) oneOp (boot blank)).any
      (fun s => s.seq.log.lh = [50,51]) = true := by decide +kernel
  obtain ⟨s,hs,hk⟩ := (Option.any_eq_true _ _).mp hcheck
  have h := log_space quiet blank oneOp s (by decide +kernel) hs
  exact ⟨s,hs,of_decide_eq_true hk,h.1,h.2.1⟩

def tenBlocks (i : ℕ) : List ℕ := (List.range 10).map (fun j => 100*(i+1)+j)

/-- Three operations log ten blocks each, and the first is about to log its
first block once more. -/
def fillLog : List (Event ℕ Unit) :=
  [starts 0 (tenBlocks 0++[100]), starts 1 (tenBlocks 1), starts 2 (tenBlocks 2)] ++
  [.run 0, .run 1, .run 2] ++
  List.replicate 10 (.run 0) ++ List.replicate 10 (.run 1) ++ List.replicate 10 (.run 2)

theorem fillLog_panics : ∃ s, Meets (step quiet) Modest fillLog (boot blank) ∧
    run (step quiet) fillLog (boot blank) = some s ∧ Modest (.run 0) s ∧
    nextWrite s 0 = some 100 ∧ logWriteStep s.seq 100 = .panic "too big a transaction" := by
  have hcheck : (run (step quiet) fillLog (boot blank)).any
      (fun s => Modest (.run 0) s ∧ nextWrite s 0 = some 100 ∧
        logblocks ≤ s.seq.log.lh.length) = true := by decide +kernel
  obtain ⟨s,hs,hk⟩ := (Option.any_eq_true _ _).mp hcheck
  obtain ⟨hmodest,hnext,hfull⟩ := of_decide_eq_true hk
  exact ⟨s,by decide +kernel,hs,hmodest,hnext,if_pos hfull⟩

end GreenOS.LogSpace
