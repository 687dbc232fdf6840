import GreenOS.FsDirect

/-!
# The log under the plain reading

What file system code does to plain blocks, together with the header of the log.
The header changes nothing that the code reads, but `log_write` panics when it is
called outside a transaction or when the header is full. So a run over plain
blocks is a run with the log as long as the log takes the blocks that it writes.
-/

namespace GreenOS.FsLogged
open Programs ProgramTraces LogCode FsMemory
open BufferSeq (Env)
open FsDirect (Fs logged)

structure Txn where
  outstanding : ℕ
  lh : List ℕ

structure State where
  fs : Fs
  txn : Txn

def idle : Txn := ⟨0,[]⟩

def Txn.logWrite (t : Txn) (b : ℕ) : Outcome Txn :=
  if logblocks ≤ t.lh.length then .panic "too big a transaction"
  else if t.outstanding < 1 then .panic "log_write outside of trans"
  else if b ∈ t.lh then .ok t
  else .ok { t with lh := t.lh++[b] }

def Txn.beginOp (t : Txn) : Outcome Txn :=
  if logblocks < t.lh.length+(t.outstanding+1)*maxopblocks then .wait
  else .ok { t with outstanding := t.outstanding+1 }

/-- The last operation to end commits, which leaves the header empty. -/
def Txn.endOp (t : Txn) : Txn :=
  { outstanding := t.outstanding-1, lh := if t.outstanding-1 = 0 then [] else t.lh }

def withBlocks (fs : Fs) : Outcome Txn → Outcome (Unit × State)
  | .ok t => .ok ((),⟨fs,t⟩)
  | .panic msg => .panic msg
  | .wait => .wait

def withLog {α : Type} (t : Txn) : Outcome (α × Fs) → Outcome (α × State)
  | .ok (a,fs) => .ok (a,⟨fs,t⟩)
  | .panic msg => .panic msg
  | .wait => .wait

def handle (env : Env) : (c : Cmd Mem) → State → Outcome (Res c × State)
  | .logWrite b, s => withBlocks s.fs (s.txn.logWrite b)
  | .logBegin, s => withBlocks s.fs s.txn.beginOp
  | .logEnd, s => .ok (false,⟨s.fs,s.txn.endOp⟩)
  | c, s => withLog s.txn (FsDirect.handle env c s.fs)

def writes : List ℕ → Txn → Outcome Txn
  | [], t => .ok t
  | b::l, t =>
    match t.logWrite b with
    | .ok t' => writes l t'
    | .panic msg => .panic msg
    | .wait => .wait

theorem writes_append {l l' : List ℕ} {t t' : Txn} :
    writes (l++l') t = .ok t' ↔ ∃ t₁, writes l t = .ok t₁ ∧ writes l' t₁ = .ok t' := by
  induction l generalizing t with
  | nil => exact ⟨fun h => ⟨t,rfl,h⟩,fun ⟨_,ht,h⟩ => by cases ht; exact h⟩
  | cons b l ih =>
    rw [List.cons_append, writes, writes]
    cases t.logWrite b with
    | ok t₁ => exact ih
    | panic msg => exact ⟨nofun,fun ⟨_,h,_⟩ => by cases h⟩
    | wait => exact ⟨nofun,fun ⟨_,h,_⟩ => by cases h⟩

def Body : Cmd Mem → Prop
  | .logBegin | .logEnd => False
  | _ => True

/-- Commands that are not the log's. -/
def Unlogged : Cmd Mem → Prop
  | .logWrite _ | .logBegin | .logEnd => False
  | _ => True

theorem silent_of_unlogged (c : Cmd Mem) (h : Unlogged c) : FsDirect.Silent c := by
  cases c with
  | logWrite b => exact h.elim
  | _ => rfl

theorem body_of_unlogged (c : Cmd Mem) (h : Unlogged c) : Body c := by
  cases c with
  | logBegin | logEnd => exact h.elim
  | _ => trivial

theorem body_of_prompt (c : Cmd Mem) (h : FsDirect.Prompt c) : Body c := by
  cases c with
  | logBegin | logEnd => exact h.elim
  | _ => trivial

section Lift
variable {env : Env} {α κ : Type} {s : Fs} {t t' : Txn}

theorem handle_logged {c : Cmd Mem} (hc : Body c) (hw : writes (logged c) t = .ok t') :
    handle env c ⟨s,t⟩ = withLog t' (FsDirect.handle env c s) := by
  cases c with
  | logBegin | logEnd => exact hc.elim
  | logWrite b =>
    change writes [b] t = _ at hw
    rw [writes] at hw
    change withBlocks s (t.logWrite b) = _
    cases hb : t.logWrite b with
    | ok t₁ =>
      rw [hb] at hw
      cases hw
      rfl
    | panic msg | wait =>
      rw [hb] at hw
      cases hw
  | _ =>
    cases hw
    rfl

theorem exec_logged {p : F α} (hp : Every Body p)
    (hw : writes (trace (FsDirect.handle env) logged p s) t = .ok t') :
    exec (handle env) p ⟨s,t⟩ = withLog t' (exec (FsDirect.handle env) p s) := by
  induction p generalizing s t with
  | pure a =>
    cases hw
    rfl
  | step c k ih =>
    rw [trace, writes_append] at hw
    obtain ⟨t₁,hc,hk⟩ := hw
    rw [exec, exec, handle_logged hp.1 hc]
    cases hd : FsDirect.handle env c s with
    | ok r =>
      rw [hd] at hk
      exact ih r.1 (hp.2 r.1) hk
    | panic msg => rfl
    | wait => rfl

theorem returns_unlogged {p : F α} {Q : α → Fs → Prop} (hp : Every Unlogged p) (t : Txn)
    (h : Returns (FsDirect.handle env) p Q s) :
    Returns (handle env) p (fun a s' => Q a s'.fs ∧ s' = ⟨s'.fs,t⟩) ⟨s,t⟩ := by
  obtain ⟨a,s',hexec,hq⟩ := h
  refine ⟨a,⟨s',t⟩,?_,hq,rfl⟩
  have hlog : writes (trace (FsDirect.handle env) logged p s) t = .ok t := by
    rw [trace_silent (every_mono silent_of_unlogged hp)]
    rfl
  rw [exec_logged (every_mono body_of_unlogged hp) hlog, hexec]
  rfl

theorem trace_logged {mark : Cmd Mem → List κ} {p : F α} (hp : Every Body p)
    (hw : writes (trace (FsDirect.handle env) logged p s) t = .ok t') :
    trace (handle env) mark p ⟨s,t⟩ = trace (FsDirect.handle env) mark p s := by
  induction p generalizing s t with
  | pure a => rfl
  | step c k ih =>
    rw [trace, writes_append] at hw
    obtain ⟨t₁,hc,hk⟩ := hw
    rw [trace, trace, handle_logged hp.1 hc]
    cases hd : FsDirect.handle env c s with
    | ok r =>
      rw [hd] at hk
      exact congrArg _ (ih r.1 (hp.2 r.1) hk)
    | panic msg => rfl
    | wait => rfl

theorem wpt_logged {mark : Cmd Mem → List κ} {p : F α} {E : String → Prop}
    {Q : α → State → List κ → Prop} (hp : Every Body p)
    (hw : writes (trace (FsDirect.handle env) logged p s) t = .ok t') :
    wpt (handle env) mark E p Q ⟨s,t⟩ ↔
      wpt (FsDirect.handle env) mark E p (fun a s' l => Q a ⟨s',t'⟩ l) s := by
  rw [wpt, wpt, wp_def, wp_def, exec_logged hp hw, trace_logged hp hw]
  cases exec (FsDirect.handle env) p s <;> exact Iff.rfl

end Lift

section Room
variable {t : Txn} {l : List ℕ}

theorem logWrite_ok (hout : 0 < t.outstanding) (hroom : t.lh.length < logblocks)
    (hnodup : t.lh.Nodup) (b : ℕ) : ∃ lh, t.logWrite b = .ok ⟨t.outstanding,lh⟩ ∧ lh.Nodup ∧
      lh.toFinset = (t.lh++[b]).toFinset := by
  rw [Txn.logWrite, if_neg (by omega), if_neg (by omega)]
  by_cases hb : b ∈ t.lh
  · refine ⟨t.lh,if_pos hb,hnodup,?_⟩
    ext x
    simp only [List.mem_toFinset, List.mem_append, List.mem_singleton]
    exact ⟨.inl,fun h => h.elim id fun hx => hx ▸ hb⟩
  · refine ⟨t.lh++[b],if_neg hb,?_,rfl⟩
    exact hnodup.append (List.nodup_singleton b) (by simpa using hb)

theorem writes_ok (hout : 0 < t.outstanding) (hnodup : t.lh.Nodup)
    (hroom : (t.lh++l).toFinset.card < logblocks) : ∃ lh, writes l t = .ok ⟨t.outstanding,lh⟩ ∧
      lh.Nodup ∧ lh.toFinset = (t.lh++l).toFinset := by
  induction l generalizing t with
  | nil => exact ⟨t.lh,rfl,hnodup,by rw [List.append_nil]⟩
  | cons b l ih =>
    have hlen : t.lh.length < logblocks := by
      rw [← List.toFinset_card_of_nodup hnodup]
      refine lt_of_le_of_lt (Finset.card_le_card ?_) hroom
      rw [List.toFinset_append]
      exact Finset.subset_union_left
    obtain ⟨lh,hb,hnodup',heq⟩ := logWrite_ok hout hlen hnodup b
    have hset : (lh++l).toFinset = (t.lh++b::l).toFinset := by
      rw [List.toFinset_append, heq, ← List.toFinset_append, List.append_assoc,
        List.singleton_append]
    obtain ⟨lh',hl,hnodup'',heq'⟩ := ih (t := ⟨t.outstanding,lh⟩) hout hnodup' (hset ▸ hroom)
    refine ⟨lh',?_,hnodup'',heq'.trans hset⟩
    rw [writes, hb]
    exact hl

theorem writes_last_ok (hout : 0 < t.outstanding) (hnodup : t.lh.Nodup)
    (hroom : (t.lh++l).toFinset.card < logblocks) (b : ℕ) :
    ∃ lh, writes (l++[b]) t = .ok ⟨t.outstanding,lh⟩ := by
  obtain ⟨lh,hl,hnodup',heq⟩ := writes_ok hout hnodup hroom
  have hlen : lh.length < logblocks := by rwa [← List.toFinset_card_of_nodup hnodup', heq]
  obtain ⟨lh',hb,-⟩ := logWrite_ok (t := ⟨t.outstanding,lh⟩) hout hlen hnodup' b
  refine ⟨lh',writes_append.mpr ⟨_,hl,?_⟩⟩
  rw [writes, hb]
  rfl

end Room

end GreenOS.FsLogged
