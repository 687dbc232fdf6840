import GreenOS.BufferSeq
import GreenOS.StepRun

/-!
# Concurrent operations on the log

Any number of threads run `begin_op(); body; end_op()` over one disk, buffer
cache and log, one command at a time and in any order. The body is any program
over the commands that file system code uses between the two calls. Other
threads read blocks outside any operation. The last `end_op` runs the code of
`commit` itself, so commands of other threads may fall between its commands.

`wrote`, `ended` and `written` are history: the blocks an operation has passed to
`log_write`, those of the operations that ended since the last commit, and the
blocks that the commit has written to the disk. No step reads them.
-/

namespace GreenOS.LogOps
open Programs LogCode BufferSeq

section
variable {M : Type}

def OpCmd : Cmd M → Prop
  | .bread _ => True
  | .setData _ _ => True
  | .brelse _ => True
  | .logWrite _ => True
  | .atomic _ _ => True
  | .copyin _ _ => True
  | .copyout _ _ => True
  | _ => False

def ReadCmd : Cmd M → Prop
  | .bread _ => True
  | .brelse _ => True
  | .atomic _ _ => True
  | .copyin _ _ => True
  | .copyout _ _ => True
  | _ => False

def CommitCmd : Cmd M → Prop
  | .bread _ => True
  | .setData _ _ => True
  | .bwrite _ => True
  | .brelse _ => True
  | .bunpin _ => True
  | .getLog => True
  | .setHeader lh => lh = []
  | _ => False

end

inductive Phase (M : Type) : Type 1 where
  | idle
  | entering (p : P M Unit)
  | body (p : P M Unit)
  | committing (p : P M Unit)
  | reading (p : P M Unit)

structure Sys (ι M : Type) : Type 1 where
  seq : BufferSeq.Sys M
  phase : ι → Phase M
  wrote : ι → List ℕ
  ended : List ℕ
  written : List ℕ

inductive Event (ι M : Type) : Type 1 where
  | start (i : ι) (body : { p : P M Unit // Every OpCmd p })
  | read (i : ι) (body : { p : P M Unit // Every ReadCmd p })
  | run (i : ι)

section
variable {ι M : Type} [DecidableEq ι]

def setPhase (s : Sys ι M) (i : ι) (f : Phase M) : Sys ι M :=
  { s with phase := Function.update s.phase i f }

def withSeq (s : Sys ι M) (t : BufferSeq.Sys M) : Sys ι M := { s with seq := t }

/-- The blocks an operation has logged, once it has given the command `c`. -/
def noted (c : Cmd M) (l : List ℕ) : List ℕ :=
  match c with
  | .logWrite b => if b ∈ l then l else l++[b]
  | _ => l

/-- The blocks written to the disk, once the command `c` has been given. -/
def stored (c : Cmd M) (l : List ℕ) : List ℕ :=
  match c with
  | .bwrite b => l++[b]
  | _ => l

def command (env : Env) (s : Sys ι M) (c : Cmd M) (next : Res c → BufferSeq.Sys M → Sys ι M) :
    Outcome (Sys ι M) :=
  match handle env c s.seq with
  | .ok (r,t) => .ok (next r t)
  | .panic msg => .panic msg
  | .wait => .wait

def enterStep (s : Sys ι M) (i : ι) (p : P M Unit) : Outcome (Sys ι M) :=
  match logBeginStep s.seq with
  | .ok (_,t) => .ok { withSeq (setPhase s i (.body p)) t with
      wrote := Function.update s.wrote i [] }
  | .panic msg => .panic msg
  | .wait => .wait

def endStep (s : Sys ι M) (i : ι) : Outcome (Sys ι M) :=
  match logEndStep s.seq with
  | .ok (true,t) => .ok { withSeq (setPhase s i (.committing commit)) t with
      ended := s.ended++s.wrote i, written := [] }
  | .ok (false,t) => .ok { withSeq (setPhase s i .idle) t with ended := s.ended++s.wrote i }
  | .panic msg => .panic msg
  | .wait => .wait

def turn (env : Env) (s : Sys ι M) (i : ι) : Outcome (Sys ι M) :=
  match s.phase i with
  | .idle => .wait
  | .entering p => enterStep s i p
  | .body (.pure _) => endStep s i
  | .body (.step c k) => command env s c fun r t =>
    { withSeq (setPhase s i (.body (k r))) t with
      wrote := Function.update s.wrote i (noted c (s.wrote i)) }
  | .committing (.pure _) =>
    .ok { withSeq (setPhase s i .idle) (setLog s.seq { s.seq.log with committing := false }) with
      ended := [] }
  | .committing (.step c k) => command env s c fun r t =>
    { withSeq (setPhase s i (.committing (k r))) t with written := stored c s.written }
  | .reading (.pure _) => .ok (setPhase s i .idle)
  | .reading (.step c k) => command env s c fun r t => withSeq (setPhase s i (.reading (k r))) t

def begins (s : Sys ι M) (i : ι) (f : Phase M) : Outcome (Sys ι M) :=
  match s.phase i with
  | .idle => .ok (setPhase s i f)
  | _ => .wait

def outcome (env : Env) : Event ι M → Sys ι M → Outcome (Sys ι M)
  | .start i body, s => begins s i (.entering body.1)
  | .read i body, s => begins s i (.reading body.1)
  | .run i, s => turn env s i

def step (env : Env) (e : Event ι M) (s : Sys ι M) : Option (Sys ι M) :=
  match outcome env e s with
  | .ok s' => some s'
  | _ => none

def boot (t : BufferSeq.Sys M) : Sys ι M where
  seq := { t with log := { t.log with outstanding := 0, committing := false, lh := [] } }
  phase := fun _ => .idle
  wrote := fun _ => []
  ended := []
  written := []

inductive Turn (env : Env) (s : Sys ι M) : Event ι M → Sys ι M → Prop
  | start (i : ι) (body : { p : P M Unit // Every OpCmd p }) (hi : s.phase i = .idle) :
      Turn env s (.start i body) (setPhase s i (.entering body.1))
  | read (i : ι) (body : { p : P M Unit // Every ReadCmd p }) (hi : s.phase i = .idle) :
      Turn env s (.read i body) (setPhase s i (.reading body.1))
  | enter (i : ι) (p : P M Unit) (hi : s.phase i = .entering p)
      (hflag : s.seq.log.committing = false)
      (hroom : s.seq.log.lh.length+(s.seq.log.outstanding+1)*maxopblocks ≤ logblocks) :
      Turn env s (.run i) { withSeq (setPhase s i (.body p))
          (setLog s.seq { s.seq.log with outstanding := s.seq.log.outstanding+1 }) with
        wrote := Function.update s.wrote i [] }
  | work (i : ι) (c : Cmd M) (k : Res c → P M Unit) (r : Res c) (t : BufferSeq.Sys M)
      (hi : s.phase i = .body (.step c k)) (ht : handle env c s.seq = .ok (r,t)) :
      Turn env s (.run i) { withSeq (setPhase s i (.body (k r))) t with
        wrote := Function.update s.wrote i (noted c (s.wrote i)) }
  | leave (i : ι) (a : Unit) (hi : s.phase i = .body (.pure a))
      (hflag : s.seq.log.committing = false) (hmore : s.seq.log.outstanding-1 ≠ 0) :
      Turn env s (.run i) { withSeq (setPhase s i .idle)
          (setLog s.seq { s.seq.log with outstanding := s.seq.log.outstanding-1 }) with
        ended := s.ended++s.wrote i }
  | decide (i : ι) (a : Unit) (hi : s.phase i = .body (.pure a))
      (hflag : s.seq.log.committing = false) (hlast : s.seq.log.outstanding-1 = 0) :
      Turn env s (.run i) { withSeq (setPhase s i (.committing commit))
          (setLog s.seq { s.seq.log with
            outstanding := s.seq.log.outstanding-1, committing := true }) with
        ended := s.ended++s.wrote i, written := [] }
  | commit (i : ι) (c : Cmd M) (k : Res c → P M Unit) (r : Res c) (t : BufferSeq.Sys M)
      (hi : s.phase i = .committing (.step c k)) (ht : handle env c s.seq = .ok (r,t)) :
      Turn env s (.run i) { withSeq (setPhase s i (.committing (k r))) t with
        written := stored c s.written }
  | committed (i : ι) (a : Unit) (hi : s.phase i = .committing (.pure a)) :
      Turn env s (.run i) { withSeq (setPhase s i .idle)
          (setLog s.seq { s.seq.log with committing := false }) with ended := [] }
  | look (i : ι) (c : Cmd M) (k : Res c → P M Unit) (r : Res c) (t : BufferSeq.Sys M)
      (hi : s.phase i = .reading (.step c k)) (ht : handle env c s.seq = .ok (r,t)) :
      Turn env s (.run i) (withSeq (setPhase s i (.reading (k r))) t)
  | looked (i : ι) (a : Unit) (hi : s.phase i = .reading (.pure a)) :
      Turn env s (.run i) (setPhase s i .idle)

section
variable {env : Env} {s s' : Sys ι M}

variable {i : ι} {t u : BufferSeq.Sys M}

theorem begins_eq {f : Phase M} (h : begins s i f = .ok s') :
    s.phase i = .idle ∧ s' = setPhase s i f := by
  unfold begins at h
  split at h
  · rename_i hi
    exact ⟨hi,(Outcome.ok.inj h).symm⟩
  · cases h

omit [DecidableEq ι] in
theorem command_eq {c : Cmd M} {next : Res c → BufferSeq.Sys M → Sys ι M}
    (h : command env s c next = .ok s') : ∃ r t, handle env c s.seq = .ok (r,t) ∧
      s' = next r t := by
  unfold command at h
  cases hc : handle env c s.seq with
  | ok a =>
    rw [hc] at h
    exact ⟨a.1,a.2,rfl,(Outcome.ok.inj h).symm⟩
  | panic msg => simp [hc] at h
  | wait => simp [hc] at h

theorem logBegin_eq {r : Unit} (h : logBeginStep t = .ok (r,u)) :
    t.log.committing = false ∧
    t.log.lh.length+(t.log.outstanding+1)*maxopblocks ≤ logblocks ∧
    u = setLog t { t.log with outstanding := t.log.outstanding+1 } := by
  unfold logBeginStep at h
  split_ifs at h with hflag hroom
  exact ⟨by simpa using hflag,not_lt.mp hroom,(Prod.mk.inj (Outcome.ok.inj h)).2.symm⟩

theorem logEnd_eq {last : Bool} (h : logEndStep t = .ok (last,u)) :
    t.log.committing = false ∧
    (last = true ∧ t.log.outstanding-1 = 0 ∧ u = setLog t { t.log with
      outstanding := t.log.outstanding-1, committing := true } ∨
    last = false ∧ t.log.outstanding-1 ≠ 0 ∧ u = setLog t { t.log with
      outstanding := t.log.outstanding-1 }) := by
  unfold logEndStep at h
  dsimp only at h
  split_ifs at h with hflag hlast
  · obtain ⟨hl,hu⟩ := Prod.mk.inj (Outcome.ok.inj h)
    exact ⟨by simpa using hflag,.inl ⟨hl.symm,hlast,hu.symm⟩⟩
  · obtain ⟨hl,hu⟩ := Prod.mk.inj (Outcome.ok.inj h)
    exact ⟨by simpa using hflag,.inr ⟨hl.symm,hlast,hu.symm⟩⟩

theorem turn_enter {p : P M Unit} (hi : s.phase i = .entering p)
    (h : enterStep s i p = .ok s') : Turn env s (.run i) s' := by
  unfold enterStep at h
  cases ht : logBeginStep s.seq with
  | panic msg => simp [ht] at h
  | wait => simp [ht] at h
  | ok a =>
    obtain ⟨hflag,hroom,hu⟩ := logBegin_eq ht
    rw [ht] at h
    dsimp only at h
    rw [hu] at h
    exact Outcome.ok.inj h ▸ .enter i p hi hflag hroom

theorem turn_end {a : Unit} (hi : s.phase i = .body (.pure a))
    (h : endStep s i = .ok s') : Turn env s (.run i) s' := by
  unfold endStep at h
  cases ht : logEndStep s.seq with
  | panic msg => simp [ht] at h
  | wait => simp [ht] at h
  | ok r =>
    obtain ⟨last,u⟩ := r
    obtain ⟨hflag,⟨rfl,hlast,rfl⟩ | ⟨rfl,hlast,rfl⟩⟩ := logEnd_eq ht
    · rw [ht] at h
      exact Outcome.ok.inj h ▸ .decide i a hi hflag hlast
    · rw [ht] at h
      exact Outcome.ok.inj h ▸ .leave i a hi hflag hlast

theorem step_turn {e : Event ι M} (h : step env e s = some s') : Turn env s e s' := by
  unfold step at h
  cases ho : outcome env e s with
  | panic msg => simp [ho] at h
  | wait => simp [ho] at h
  | ok t =>
    simp only [ho, Option.some.injEq] at h
    subst h
    cases e with
    | start i body =>
      obtain ⟨hi,rfl⟩ := begins_eq ho
      exact .start i body hi
    | read i body =>
      obtain ⟨hi,rfl⟩ := begins_eq ho
      exact .read i body hi
    | run i =>
      simp only [outcome, turn] at ho
      split at ho
      · cases ho
      · rename_i p hi
        exact turn_enter hi ho
      · rename_i a hi
        exact turn_end hi ho
      · rename_i c k hi
        obtain ⟨r,u,hu,rfl⟩ := command_eq ho
        exact .work i c k r u hi hu
      · rename_i a hi
        exact Outcome.ok.inj ho ▸ .committed i a hi
      · rename_i c k hi
        obtain ⟨r,u,hu,rfl⟩ := command_eq ho
        exact .commit i c k r u hi hu
      · rename_i a hi
        exact Outcome.ok.inj ho ▸ .looked i a hi
      · rename_i c k hi
        obtain ⟨r,u,hu,rfl⟩ := command_eq ho
        exact .look i c k r u hi hu

end

def logged (c : Cmd M) (log : Log) : Log :=
  match c with
  | .logWrite b => if b ∈ log.lh then log else { log with lh := log.lh++[b] }
  | _ => log

def headed (c : Cmd M) (log : Log) : Log :=
  match c with
  | .setHeader lh => { log with lh := lh }
  | _ => log

section
variable {env : Env} {t u : BufferSeq.Sys M} {c : Cmd M} {r : Res c}

theorem logWrite_eq {b : ℕ} {a : Unit} (h : logWriteStep t b = .ok (a,u)) :
    t.log.lh.length < logblocks ∧ 1 ≤ t.log.outstanding ∧ u.disk = t.disk ∧
      u.log = logged (.logWrite b : Cmd M) t.log := by
  unfold logWriteStep at h
  split_ifs at h with hfull hout hmem
  · obtain rfl := (Prod.mk.inj (Outcome.ok.inj h)).2
    exact ⟨not_le.mp hfull,not_lt.mp hout,rfl,by simp [logged, hmem]⟩
  · obtain rfl := (Prod.mk.inj (Outcome.ok.inj h)).2
    exact ⟨not_le.mp hfull,not_lt.mp hout,rfl,by simp [logged, hmem, setLog]⟩

theorem handle_op (hc : OpCmd c) (h : handle env c t = .ok (r,u)) :
    u.disk = t.disk ∧ u.log = logged c t.log := by
  cases c with
  | logWrite b => exact (logWrite_eq h).2.2
  | bread b =>
    simp only [handle] at h
    split_ifs at h
    obtain rfl := (Prod.mk.inj (Outcome.ok.inj h)).2
    exact ⟨rfl,rfl⟩
  | setData b data =>
    obtain rfl := (Prod.mk.inj (Outcome.ok.inj h)).2
    exact ⟨rfl,rfl⟩
  | brelse b =>
    simp only [handle] at h
    split_ifs at h
    obtain rfl := (Prod.mk.inj (Outcome.ok.inj h)).2
    exact ⟨rfl,rfl⟩
  | atomic β f =>
    simp only [handle] at h
    split at h
    · cases h
    · obtain rfl := (Prod.mk.inj (Outcome.ok.inj h)).2
      exact ⟨rfl,rfl⟩
  | copyin src n =>
    obtain rfl := (Prod.mk.inj (Outcome.ok.inj h)).2
    exact ⟨rfl,rfl⟩
  | copyout dst bytes =>
    obtain rfl := (Prod.mk.inj (Outcome.ok.inj h)).2
    exact ⟨rfl,rfl⟩
  | _ => exact hc.elim

theorem handle_read (hc : ReadCmd c) (h : handle env c t = .ok (r,u)) :
    u.disk = t.disk ∧ u.log = t.log := by
  have hop : OpCmd c := by cases c <;> trivial
  have hlog : logged c t.log = t.log := by
    cases c with
    | logWrite b => exact hc.elim
    | _ => rfl
  exact hlog ▸ handle_op hop h

theorem handle_commit (hc : CommitCmd c) (h : handle env c t = .ok (r,u)) :
    u.log = headed c t.log := by
  cases c with
  | bread b =>
    simp only [handle] at h
    split_ifs at h
    obtain rfl := (Prod.mk.inj (Outcome.ok.inj h)).2
    rfl
  | setData b data =>
    obtain rfl := (Prod.mk.inj (Outcome.ok.inj h)).2
    rfl
  | bwrite b =>
    simp only [handle] at h
    split_ifs at h
    obtain rfl := (Prod.mk.inj (Outcome.ok.inj h)).2
    rfl
  | brelse b =>
    simp only [handle] at h
    split_ifs at h
    obtain rfl := (Prod.mk.inj (Outcome.ok.inj h)).2
    rfl
  | bunpin b =>
    obtain rfl := (Prod.mk.inj (Outcome.ok.inj h)).2
    rfl
  | getLog =>
    obtain rfl := (Prod.mk.inj (Outcome.ok.inj h)).2
    rfl
  | setHeader lh =>
    obtain rfl := (Prod.mk.inj (Outcome.ok.inj h)).2
    rfl
  | _ => exact hc.elim

end

variable {c : Cmd M}

theorem work_silent (hc : ∀ b, c ≠ .logWrite b) (log : Log) (l : List ℕ) :
    logged c log = log ∧ noted c l = l := by
  cases c with
  | logWrite b => exact absurd rfl (hc b)
  | _ => exact ⟨rfl,rfl⟩

theorem headed_lh (hc : CommitCmd c) (log : Log) :
    (headed c log).lh = log.lh ∨ (headed c log).lh = [] := by
  cases c with
  | setHeader lh => exact .inr hc
  | _ => exact .inl rfl

def active : Phase M → Bool
  | .body _ => true
  | _ => false

def commits : Phase M → Bool
  | .committing _ => true
  | _ => false

def Obeys : Phase M → Prop
  | .idle => True
  | .entering p => Every OpCmd p
  | .body p => Every OpCmd p
  | .committing p => Every CommitCmd p
  | .reading p => Every ReadCmd p

def Members (s : Sys ι M) (A : Finset ι) : Prop := ∀ i, i ∈ A ↔ active (s.phase i) = true

structure Shape (s : Sys ι M) : Prop where
  ops : ∃ A, Members s A ∧ s.seq.log.outstanding = A.card
  flag : s.seq.log.committing = true ↔ ∃ i, commits (s.phase i) = true
  single : ∀ i j, commits (s.phase i) = true → commits (s.phase j) = true → i = j
  alone : ∀ i j, commits (s.phase i) = true → active (s.phase j) = false
  obeys : ∀ i, Obeys (s.phase i)

theorem every_writeLog (start tail : ℕ) (bs : List ℕ) :
    Every CommitCmd (writeLogFrom start tail bs : P M Unit) := by
  induction bs generalizing tail with
  | nil => trivial
  | cons b bs ih => exact ⟨trivial,fun _ => ⟨trivial,fun _ => ⟨trivial,fun _ => ⟨trivial,fun _ =>
      ⟨trivial,fun _ => ⟨trivial,fun _ => ih (tail+1)⟩⟩⟩⟩⟩⟩

theorem every_install (start tail : ℕ) (bs : List ℕ) :
    Every CommitCmd (installFrom false start tail bs : P M Unit) := by
  induction bs generalizing tail with
  | nil => trivial
  | cons b bs ih => exact ⟨trivial,fun _ => ⟨trivial,fun _ => ⟨trivial,fun _ => ⟨trivial,fun _ =>
      ⟨trivial,fun _ => ⟨trivial,fun _ => ⟨trivial,fun _ => ih (tail+1)⟩⟩⟩⟩⟩⟩⟩

theorem every_writeHead : Every CommitCmd (writeHead : P M Unit) :=
  ⟨trivial,fun _ => ⟨trivial,fun _ => ⟨trivial,fun _ => ⟨trivial,fun _ => ⟨trivial,fun _ =>
    trivial⟩⟩⟩⟩⟩

theorem every_commit : Every CommitCmd (commit : P M Unit) := by
  refine ⟨trivial,fun log => every_ite ?_ trivial⟩
  refine every_bind ⟨trivial,fun log => every_writeLog log.start 0 log.lh⟩ fun _ => ?_
  refine every_bind every_writeHead fun _ => ?_
  refine every_bind ⟨trivial,fun log => every_install log.start 0 log.lh⟩ fun _ => ?_
  exact ⟨rfl,fun _ => every_writeHead⟩

section
variable {env : Env} {s s' : Sys ι M}

theorem setPhase_same (s : Sys ι M) (i : ι) (f : Phase M) : (setPhase s i f).phase i = f := by
  simp [setPhase]

variable {i : ι} {f : Phase M} {A : Finset ι}

theorem setPhase_ne (s : Sys ι M) {j : ι} (f : Phase M) (h : j ≠ i) :
    (setPhase s i f).phase j = s.phase j := by
  simp [setPhase, h]

theorem obeys_set (hS : Shape s) (hp : s'.phase = (setPhase s i f).phase) (hf : Obeys f)
    (j : ι) : Obeys (s'.phase j) := by
  by_cases hj : j = i
  · rw [hp,hj,setPhase_same]
    exact hf
  · rw [hp,setPhase_ne s f hj]
    exact hS.obeys j

theorem shape_quiet (hS : Shape s) (hp : s'.phase = (setPhase s i f).phase)
    (hnone : ∀ j, j ≠ i → commits (s.phase j) = false) (hf : commits f = false)
    (hflag : s'.seq.log.committing = false) (ho : Obeys f)
    (hops : ∃ A, Members s' A ∧ s'.seq.log.outstanding = A.card) : Shape s' := by
  have hquiet : ∀ j, commits (s'.phase j) = false := by
    intro j
    by_cases hj : j = i
    · rw [hp,hj,setPhase_same,hf]
    · rw [hp,setPhase_ne s f hj,hnone j hj]
  refine ⟨hops,?_,?_,?_,obeys_set hS hp ho⟩
  · simp [hflag, hquiet]
  · simp [hquiet]
  · simp [hquiet]

theorem shape_same (hS : Shape s) (hp : s'.phase = (setPhase s i f).phase)
    (hout : s'.seq.log.outstanding = s.seq.log.outstanding)
    (hflag : s'.seq.log.committing = s.seq.log.committing) (ha : active f = active (s.phase i))
    (hc : commits f = commits (s.phase i)) (ho : Obeys f) :
    Shape s' := by
  have hactive : ∀ j, active (s'.phase j) = active (s.phase j) := by
    intro j
    by_cases hj : j = i
    · rw [hp,hj,setPhase_same,ha]
    · rw [hp,setPhase_ne s f hj]
  have hcommits : ∀ j, commits (s'.phase j) = commits (s.phase j) := by
    intro j
    by_cases hj : j = i
    · rw [hp,hj,setPhase_same,hc]
    · rw [hp,setPhase_ne s f hj]
  obtain ⟨A,hA,hcard⟩ := hS.ops
  refine ⟨⟨A,fun j => by rw [hactive]; exact hA j,hout.trans hcard⟩,?_,?_,?_,?_⟩
  · simp only [hflag,hcommits]
    exact hS.flag
  · intro j k
    rw [hcommits,hcommits]
    exact hS.single j k
  · intro j k
    rw [hcommits,hactive]
    exact hS.alone j k
  · exact obeys_set hS hp ho

theorem logged_counts (c : Cmd M) (log : Log) : (logged c log).outstanding = log.outstanding ∧
    (logged c log).committing = log.committing := by
  unfold logged
  split
  · split_ifs <;> exact ⟨rfl,rfl⟩
  · exact ⟨rfl,rfl⟩

theorem headed_counts (c : Cmd M) (log : Log) : (headed c log).outstanding = log.outstanding ∧
    (headed c log).committing = log.committing := by
  unfold headed
  split <;> exact ⟨rfl,rfl⟩

omit [DecidableEq ι] in
theorem not_committing (hS : Shape s) (hi : active (s.phase i) = true) (j : ι) :
    commits (s.phase j) = false := by
  by_contra h
  rw [hS.alone j i (by simpa using h)] at hi
  cases hi

theorem members_insert {p : P M Unit} (hA : Members s A)
    (hp : s'.phase = (setPhase s i (.body p)).phase) : Members s' (insert i A) := by
  intro j
  rw [hp,Finset.mem_insert]
  by_cases hj : j = i
  · simp [hj, setPhase_same, active]
  · rw [setPhase_ne s _ hj]
    simp [hj, hA j]

theorem members_erase (hA : Members s A) (hp : s'.phase = (setPhase s i f).phase)
    (hf : active f = false) :
    Members s' (A.erase i) := by
  intro j
  rw [hp,Finset.mem_erase]
  by_cases hj : j = i
  · simp [hj, setPhase_same, hf]
  · rw [setPhase_ne s _ hj]
    simp [hj, hA j]

theorem shape_turn {e : Event ι M} (hS : Shape s) (h : Turn env s e s') : Shape s' := by
  obtain ⟨A,hA,hcard⟩ := hS.ops
  cases h with
  | start i body hi =>
    exact shape_same hS rfl rfl rfl (by simp [hi, active]) (by simp [hi, commits]) body.2
  | read i body hi =>
    exact shape_same hS rfl rfl rfl (by simp [hi, active]) (by simp [hi, commits]) body.2
  | enter i p hi hflag hroom =>
    have hnone : ∀ j, commits (s.phase j) = false := by
      intro j
      by_contra h
      rw [hS.flag.mpr ⟨j,by simpa using h⟩] at hflag
      cases hflag
    have hobey := hS.obeys i
    rw [hi] at hobey
    refine shape_quiet hS rfl (fun j _ => hnone j) rfl hflag hobey
      ⟨insert i A,members_insert hA rfl,?_⟩
    have hiA : i ∉ A := by simp [hA i, hi, active]
    rw [Finset.card_insert_of_notMem hiA,← hcard]
    rfl
  | work i c k r t hi ht =>
    have hobey := hS.obeys i
    rw [hi] at hobey
    have hlog := (handle_op hobey.1 ht).2
    refine shape_same hS rfl ?_ ?_ (by simp [hi, active]) (by simp [hi, commits]) (hobey.2 r)
    · simp [withSeq, hlog, logged_counts]
    · simp [withSeq, hlog, logged_counts]
  | leave i a hi hflag hmore =>
    have hact : active (s.phase i) = true := by rw [hi]; rfl
    refine shape_quiet hS rfl (fun j _ => not_committing hS hact j) rfl hflag trivial
      ⟨A.erase i,members_erase hA rfl rfl,?_⟩
    rw [Finset.card_erase_of_mem ((hA i).mpr hact),← hcard]
    rfl
  | decide i a hi hflag hlast =>
    have hact : active (s.phase i) = true := by rw [hi]; rfl
    have hiA := (hA i).mpr hact
    have hcard' : (A.erase i).card = 0 := by
      rw [Finset.card_erase_of_mem hiA,← hcard]
      exact hlast
    have hmembers : Members (setPhase s i (.committing commit)) (A.erase i) :=
      members_erase hA rfl rfl
    have hempty : ∀ j, active ((setPhase s i (.committing commit)).phase j) = false := by
      intro j
      have hj := hmembers j
      rw [Finset.card_eq_zero.mp hcard'] at hj
      simpa using hj
    have hself : commits ((setPhase s i (.committing commit)).phase i) = true := by
      rw [setPhase_same]
      rfl
    have honly : ∀ j, commits ((setPhase s i (.committing commit)).phase j) = true → j = i := by
      intro j hj
      by_contra hji
      rw [setPhase_ne s _ hji,not_committing hS hact j] at hj
      cases hj
    refine ⟨⟨A.erase i,hmembers,hlast.trans hcard'.symm⟩,?_,?_,?_,obeys_set hS rfl every_commit⟩
    · exact ⟨fun _ => ⟨i,hself⟩,fun _ => rfl⟩
    · intro j k hj hk
      rw [honly j hj,honly k hk]
    · exact fun _ j _ => hempty j
  | commit i c k r t hi ht =>
    have hobey := hS.obeys i
    rw [hi] at hobey
    have hlog := handle_commit hobey.1 ht
    refine shape_same hS rfl ?_ ?_ (by simp [hi, active]) (by simp [hi, commits]) (hobey.2 r)
    · simp [withSeq, hlog, headed_counts]
    · simp [withSeq, hlog, headed_counts]
  | committed i a hi =>
    have hcom : commits (s.phase i) = true := by rw [hi]; rfl
    refine shape_quiet hS rfl ?_ rfl rfl trivial ⟨A.erase i,members_erase hA rfl rfl,?_⟩
    · intro j hj
      by_contra h
      exact hj (hS.single j i (by simpa using h) hcom)
    · have hiA : i ∉ A := by simp [hA i, hi, active]
      rw [Finset.erase_eq_of_notMem hiA,← hcard]
      rfl
  | look i c k r t hi ht =>
    have hobey := hS.obeys i
    rw [hi] at hobey
    have hlog := (handle_read hobey.1 ht).2
    refine shape_same hS rfl ?_ ?_ (by simp [hi, active]) (by simp [hi, commits]) (hobey.2 r)
    · simp [withSeq, hlog]
    · simp [withSeq, hlog]
  | looked i a hi =>
    exact shape_same hS rfl rfl rfl (by simp [hi, active]) (by simp [hi, commits]) trivial

end

omit [DecidableEq ι] in
theorem shape_boot (t : BufferSeq.Sys M) : Shape (boot t : Sys ι M) := by
  refine ⟨⟨∅,by simp [Members, boot, active],rfl⟩,?_,?_,?_,fun _ => trivial⟩
  · simp [boot, commits]
  · simp [boot, commits]
  · simp [boot, commits]

end

def logging : List ℕ → P Unit Unit
  | [] => pure ()
  | b::bs => do
    logWrite b
    logging bs

theorem logging_obeys (bs : List ℕ) : Every OpCmd (logging bs) := by
  induction bs with
  | nil => trivial
  | cons b bs ih => exact ⟨trivial,fun _ => ih⟩

def blank : BufferSeq.Sys Unit where
  disk := fun _ => ByteBlock.zeros
  content := fun _ => ByteBlock.zeros
  held := fun _ => false
  log := ⟨2,0,false,[]⟩
  mem := ()
  writes := []

def starts (i : ℕ) (bs : List ℕ) : Event ℕ Unit := .start i ⟨logging bs,logging_obeys bs⟩

end GreenOS.LogOps
