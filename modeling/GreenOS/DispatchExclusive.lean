import GreenOS.KernelProgress

/-!
# One CPU for every process that runs

What a run can show of the scheduler: whose `c->proc` a process is, when its
state is RUNNING, and which locks a CPU has when its scan is over.
-/

namespace GreenOS.DispatchExclusive
open ProcTable KernelCode KernelMachine
open ThreadKnowledge LockInvariant RunInvariant KernelSound
open LockOrder

variable {κ : Type} [DecidableEq κ] {lk : ℕ → ℕ} {first : κ} {s : Sys κ} {c : κ}

def Dispatched (s : Sys κ) (c : κ) (p : Slot) : Prop :=
  s.current c = some p ∧ next s c ≠ some .collect

structure Exclusive (s : Sys κ) : Prop where
  once : ∀ c d p, s.current c = some p → s.current d = some p → c = d
  running : ∀ p, (s.table p).state = .running → ∃! c, Dispatched s c p
  scanned : ∀ c best, next s c = some (.note (.scanned best)) →
    (∀ l, s.owner l = some c ↔ best.map Lock.proc = some l) ∧ Released (s.trail c) best
  marked : ∀ c b, next s c = some (.dispatch b) →
    (s.table b).state = .runnable ∧ s.owner (.proc b) = some c

omit [DecidableEq κ] in
theorem collect_back {K : Thread κ → Know} (h : Sound lk K s) (hc : next s c = some .collect) :
    s.turn c = none ∧ ∃ b, (K (.hart c)).role = .back b := by
  obtain ⟨b,hb⟩ := next_ok h hc
  have ht := hart_turn h (.inr (.inr ⟨b,hb⟩))
  rw [active_none ht] at hb
  exact ⟨ht,b,hb⟩

omit [DecidableEq κ] in
theorem sound_exclusive {K : Thread κ → Know} (h : Sound lk K s) : Exclusive s where
  once := h.running.once
  running := by
    intro p hp
    obtain ⟨c,hc,hw⟩ := h.running.busy p hp
    refine ⟨c,⟨hc,fun hnext => ?_⟩,fun d hd => h.running.once d c p hd.1 hc⟩
    obtain ⟨ht,b,hb⟩ := collect_back h hnext
    rcases hw with hw | hw
    · cases ht.symm.trans hw
    · cases hb.symm.trans hw
  scanned := by
    intro c best hnext
    obtain ⟨hheld,hrel,hrole,-⟩ := next_ok h hnext
    have ht := hart_turn h (.inl hrole)
    refine ⟨fun l => ?_,?_⟩
    · rw [h.locking.locked l c, hheld]
      simp
    · rw [h.locking.trail c]
      rw [active_none ht] at hrel
      exact hrel
  marked := by
    intro c b hnext
    obtain ⟨-,hheld,⟨chan,hin⟩,-⟩ := next_ok h hnext
    refine ⟨saw_state h.running hin,?_⟩
    rw [h.locking.locked, hheld]
    exact List.mem_cons_self

/-- In every reachable state the scheduler's exclusion holds. -/
theorem dispatch_exclusive (es : List (Event κ))
    (hrun : StepRun.run (step lk first) es start = some s) : Exclusive s := by
  obtain ⟨K,h⟩ := run_sound hrun
  exact sound_exclusive h

/-- The first round of a scheduler leaves `init` with one CPU. -/
theorem init_exclusive : ∃ es, ∃ s : Sys Bool, StepRun.run (step id false) es start = some s ∧
    (s.table initproc).state = .running ∧ ∃! c, Dispatched s c initproc := by
  obtain ⟨s,⟨es,hes⟩,hs⟩ := KernelProgress.init_dispatched id false true ⟨none,none,false⟩
  have hrun : (s.table initproc).state = .running := by
    obtain ⟨-,trail,rfl⟩ := hs
    exact congrArg Proc.state (setProc_same _ _ _)
  exact ⟨es,s,hes,hrun,(dispatch_exclusive es hes).running initproc hrun⟩

end GreenOS.DispatchExclusive
