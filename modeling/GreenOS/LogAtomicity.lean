import GreenOS.LogCrash

/-!
# Commit is atomic under crashes

After any prefix of the writes of `commit`, and any number of interrupted
recoveries, a recovery that completes leaves the home blocks all as before or
all as after the commit, and which of the two is decided by the header write.
-/

namespace GreenOS.LogAtomicity
open Programs ByteBlock LogCode Writes BufferSeq
open LogRun LogCrash

def reboot (start : ℕ) (d : Disk) : Sys Unit where
  disk := d
  content := d
  held := fun _ => false
  log := { start := start, outstanding := 0, committing := false, lh := [] }
  mem := ()
  writes := []

def writesOf {M : Type} (env : Env) (p : P M Unit) (s : Sys M) : Option (List (ℕ × Block)) :=
  match exec (handle env) p s with
  | .ok (_,s') => some s'.writes
  | _ => none

/-- Recoveries from disk `d`, each but the last stopped after some of its
writes, end with disk `d'`. -/
inductive Recovers (env : Env) (start : ℕ) : Disk → Disk → Prop where
  | completes (d : Disk) (ws : List (ℕ × Block)) :
    writesOf env recoverFromLog (reboot start d) = some ws → Recovers env start d (apply d ws)
  | stops (d : Disk) (ws : List (ℕ × Block)) (j : ℕ) (d' : Disk) :
    writesOf env recoverFromLog (reboot start d) = some ws →
    Recovers env start (apply d (ws.take j)) d' → Recovers env start d d'

section
variable {env : Env} {start : ℕ} {g c : ℕ → Block} {lh : List ℕ} {d d' : Disk}

theorem recovery_writes (hlen : (headerBlocks (d start)).length ≤ logblocks)
    (hout : ∀ b ∈ headerBlocks (d start), ¬ InLog start b) :
    writesOf env recoverFromLog (reboot start d) = some (recoverPlan start d) := by
  simp only [writesOf]
  rw [exec_recover env (reboot start d) (fun _ => rfl) hlen hout]
  simp [setLog, through, reboot]

theorem idle_writes (h : Idle start g d) :
    writesOf env recoverFromLog (reboot start d) = some (recoverPlan start d) := by
  apply recovery_writes <;> simp [headerN_zero h.header]

theorem recovers_idle (hr : Recovers env start d d') (h : Idle start g d) : Idle start g d' := by
  induction hr with
  | completes d ws hws =>
    rw [idle_writes h, Option.some.injEq] at hws
    subst hws
    have := idle_recovery h (recoverPlan start d).length
    rwa [List.take_length] at this
  | stops d ws j d' hws _ ih =>
    rw [idle_writes h, Option.some.injEq] at hws
    subst hws
    exact ih (idle_recovery h j)

theorem recovers_committed (hr : Recovers env start d d') (h : Committed start g c lh d)
    (hout : ∀ b ∈ lh, ¬ InLog start b) (hlen : lh.length ≤ logblocks) :
    Idle start (after g c lh) d' := by
  have hplan : ∀ d, Committed start g c lh d →
      writesOf env recoverFromLog (reboot start d) = some (recoverPlan start d) := by
    intro d h
    exact recovery_writes (by rw [h.header]; exact hlen) (by rw [h.header]; exact hout)
  induction hr with
  | completes d ws hws =>
    rw [hplan d h, Option.some.injEq] at hws
    subst hws
    exact committed_complete h
  | stops d ws j d' hws hrest ih =>
    rw [hplan d h, Option.some.injEq] at hws
    subst hws
    rcases committed_recovery h hout hlen j with h | h
    · exact ih h
    · exact recovers_idle hrest h

theorem recovers_exists (hlen : (headerBlocks (d start)).length ≤ logblocks)
    (hout : ∀ b ∈ headerBlocks (d start), ¬ InLog start b) : ∃ d', Recovers env start d d' :=
  ⟨_,.completes d _ (recovery_writes hlen hout)⟩

end

section
variable {start : ℕ} {c : ℕ → Block} {lh : List ℕ} {d : Disk}

theorem logWrites_length (c : ℕ → Block) (tail : ℕ) (bs : List ℕ) :
    (logWrites start c tail bs).length = bs.length := by
  induction bs generalizing tail with
  | nil => rfl
  | cons b bs ih => simp [logWrites, ih]

theorem logWrites_frame (hlen : lh.length ≤ logblocks) (ws : List (ℕ × Block))
    (hws : ∀ w ∈ ws, w ∈ logWrites start c 0 lh) (b : ℕ) (hb : b = start ∨ ¬ InLog start b) :
    apply d ws b = d b := by
  refine apply_other d ws b (fun w hw he => ?_)
  have hmem := logWrites_mem (hws w hw)
  rcases hb with hb | hb
  · omega
  · exact hb ⟨by omega,by omega⟩

theorem logWrites_apply (start : ℕ) (c e : ℕ → Block) (tail : ℕ) (bs : List ℕ) (i : ℕ)
    (hi : i < bs.length) :
    apply e (logWrites start c tail bs) (start+(tail+i)+1) = c (bs.get ⟨i,hi⟩) := by
  induction bs generalizing tail i e with
  | nil => simp at hi
  | cons b bs ih =>
    simp only [logWrites, apply_cons]
    cases i with
    | zero =>
      rw [apply_other]
      · simp
      · intro w hw
        have := logWrites_mem hw
        omega
    | succ i =>
      have := ih (Function.update e (start+tail+1) (c b)) (tail+1) i (by simpa using hi)
      rw [show tail+(i+1) = tail+1+i by omega]
      exact this

def copied (start : ℕ) (c : ℕ → Block) (lh : List ℕ) : List (ℕ × Block) :=
  logWrites start c 0 lh ++ [header start (apply c (logWrites start c 0 lh)) lh]

theorem copied_log (start : ℕ) (c e : ℕ → Block) (i : ℕ) (hi : i < lh.length) :
    apply e (copied start c lh) (start+i+1) = c (lh.get ⟨i,hi⟩) := by
  have := logWrites_apply start c e 0 lh i hi
  rw [copied, apply_append, apply_other _ _ _ (by simp [header]; omega)]
  simpa using this

theorem copied_committed (hlen : lh.length ≤ logblocks) (hint : ∀ b ∈ lh, b < 2^31) :
    Committed start d c lh (apply d (copied start c lh)) where
  header := by
    rw [copied, apply_append]
    simp only [header, apply_cons, apply_nil, Function.update_self]
    exact headerBlocks_putHeader _ lh hlen hint
  log := fun i hi => copied_log start c d i hi
  home := by
    intro b hb _
    have hne : start ≠ b := fun he => hb (he ▸ start_inLog start)
    rw [copied, apply_append, apply_other _ _ _ (by simpa [header] using hne)]
    exact logWrites_frame hlen _ (fun _ h => h) b (Or.inr hb)

theorem commitPlan_eq (start : ℕ) (c : ℕ → Block) (lh : List ℕ) : ∃ e, commitPlan start c lh =
    copied start c lh ++ (lh.map (fun b => (b,c b)) ++ [header start e []]) := by
  have hhome : homeWrites start (apply c (copied start c lh)) 0 lh =
      lh.map (fun b => (b,c b)) :=
    homeWrites_eq _ 0 lh (fun i hi => by simpa using copied_log start c c i hi)
  refine ⟨apply c (copied start c lh ++ lh.map (fun b => (b,c b))),?_⟩
  rw [← List.append_assoc, ← hhome]
  rfl

theorem commit_prefix (hn : getLE (d start) 0 4 = 0) (hlen : lh.length ≤ logblocks)
    (hint : ∀ b ∈ lh, b < 2^31) (hout : ∀ b ∈ lh, ¬ InLog start b) (k : ℕ) :
    (k ≤ lh.length → Idle start d (apply d ((commitPlan start c lh).take k))) ∧
    (lh.length < k → Committed start d c lh (apply d ((commitPlan start c lh).take k)) ∨
      Idle start (after d c lh) (apply d ((commitPlan start c lh).take k))) := by
  obtain ⟨e,hplan⟩ := commitPlan_eq start c lh
  have hcopied : (copied start c lh).length = lh.length+1 := by
    simp [copied, logWrites_length]
  have hC : Committed start d c lh (apply d (copied start c lh)) := copied_committed hlen hint
  constructor
  · intro hk
    have htake : (commitPlan start c lh).take k = (logWrites start c 0 lh).take k := by
      rw [hplan, List.take_append_of_le_length (by omega), copied,
        List.take_append_of_le_length (by rw [logWrites_length]; exact hk)]
    have hframe : ∀ b, b = start ∨ ¬ InLog start b →
        apply d ((commitPlan start c lh).take k) b = d b := by
      rw [htake]
      exact logWrites_frame hlen _ (fun _ hw => List.mem_of_mem_take hw)
    exact ⟨by rw [hframe start (Or.inl rfl)]; exact hn,fun b hb => hframe b (Or.inr hb)⟩
  · intro hk
    rw [hplan, List.take_append, List.take_of_length_le (by omega), apply_append]
    by_cases hj : k-(copied start c lh).length ≤ lh.length
    · left
      rw [List.take_append_of_le_length (by simpa using hj)]
      refine committed_install hC hout hlen _ (fun w hw => ?_)
      obtain ⟨b,hb,rfl⟩ := List.mem_map.mp (List.mem_of_mem_take hw)
      exact hb
    · right
      rw [List.take_of_length_le (by simp; omega)]
      exact committed_done hC e

theorem commit_full (start : ℕ) (c : ℕ → Block) (d : Disk) (hlen : lh.length ≤ logblocks)
    (hint : ∀ b ∈ lh, b < 2^31) :
    Idle start (after d c lh) (apply d (commitPlan start c lh)) := by
  obtain ⟨e,hplan⟩ := commitPlan_eq start c lh
  rw [hplan, apply_append]
  exact committed_done (copied_committed hlen hint) e

theorem header_reached (k : ℕ) : (∃ w ∈ (commitPlan start c lh).take k, w.1 = start) ↔
    lh.length < k := by
  obtain ⟨e,hplan⟩ := commitPlan_eq start c lh
  constructor
  · rintro ⟨w,hw,hws⟩
    by_contra hk
    rw [hplan, List.take_append_of_le_length (by simp [copied, logWrites_length]; omega), copied,
      List.take_append_of_le_length (by rw [logWrites_length]; omega)] at hw
    have := logWrites_mem (List.mem_of_mem_take hw)
    omega
  · intro hk
    refine ⟨header start (apply c (logWrites start c 0 lh)) lh,?_,rfl⟩
    rw [hplan, List.take_append, List.take_of_length_le (by simp [copied, logWrites_length]; omega)]
    simp [copied]

end

/-- Crash atomicity: a crash after any `k` writes of `commit`, followed by any
recoveries the last of which completes. -/
theorem commit_crash_atomic {M : Type} (env : Env) (s : Sys M) (hheld : ∀ x, s.held x = false)
    (hwrites : s.writes = []) (hn : getLE (s.disk s.log.start) 0 4 = 0)
    (hpos : 0 < s.log.lh.length) (hlen : s.log.lh.length ≤ logblocks)
    (hint : ∀ b ∈ s.log.lh, b < 2^31) (hout : ∀ b ∈ s.log.lh, ¬ InLog s.log.start b) :
    ∃ ws, writesOf env commit s = some ws ∧
      (∀ b ∈ s.log.lh, apply s.disk ws b = s.content b) ∧ ∀ k,
      (∃ d', Recovers env s.log.start (apply s.disk (ws.take k)) d') ∧
      ∀ d', Recovers env s.log.start (apply s.disk (ws.take k)) d' →
        getLE (d' s.log.start) 0 4 = 0 ∧
        ((∃ w ∈ ws.take k, w.1 = s.log.start) →
          ∀ b, ¬ InLog s.log.start b → d' b = apply s.disk ws b) ∧
        ((¬ ∃ w ∈ ws.take k, w.1 = s.log.start) →
          ∀ b, ¬ InLog s.log.start b → d' b = s.disk b) := by
  have hfull := commit_full s.log.start s.content s.disk hlen hint
  refine ⟨commitPlan s.log.start s.content s.log.lh,?_,?_,?_⟩
  · simp only [writesOf, exec_commit env s hheld hpos hlen hout]
    simp [setLog, through, hwrites]
  · intro b hb
    rw [hfull.home b (hout b hb)]
    simp [after, hb]
  · intro k
    obtain ⟨hbefore,hafter⟩ := commit_prefix (c := s.content) hn hlen hint hout k
    rw [header_reached k]
    by_cases hk : s.log.lh.length < k
    · rcases hafter hk with h | h
      · refine ⟨recovers_exists (by rw [h.header]; exact hlen) (by rw [h.header]; exact hout),?_⟩
        intro d' hr
        have hd := recovers_committed hr h hout hlen
        exact ⟨hd.header,fun _ b hb => by rw [hd.home b hb, hfull.home b hb],
          fun hc => absurd hk hc⟩
      · refine ⟨recovers_exists (by simp [headerN_zero h.header])
          (by simp [headerN_zero h.header]),?_⟩
        intro d' hr
        have hd := recovers_idle hr h
        exact ⟨hd.header,fun _ b hb => by rw [hd.home b hb, hfull.home b hb],
          fun hc => absurd hk hc⟩
    · have h := hbefore (by omega)
      refine ⟨recovers_exists (by simp [headerN_zero h.header])
        (by simp [headerN_zero h.header]),?_⟩
      intro d' hr
      have hd := recovers_idle hr h
      exact ⟨hd.header,fun hc => absurd hc hk,fun _ => hd.home⟩

def twoBlocks : Sys Unit where
  disk := fun _ => zeros
  content := fun b => if b = 40 then fun _ => 1 else if b = 41 then fun _ => 2 else zeros
  held := fun _ => false
  log := { start := 2, outstanding := 0, committing := true, lh := [41,40] }
  mem := ()
  writes := []

theorem twoBlocks_crash_atomic : ∃ ws, writesOf quiet commit twoBlocks = some ws ∧
    ∀ k d', Recovers quiet 2 (apply twoBlocks.disk (ws.take k)) d' → getLE (d' 2) 0 4 = 0 ∧
      ((∃ w ∈ ws.take k, w.1 = 2) → (d' 40 = fun _ => 1) ∧ d' 41 = fun _ => 2) ∧
      ((¬ ∃ w ∈ ws.take k, w.1 = 2) → d' 40 = zeros ∧ d' 41 = zeros) := by
  have hout : ∀ b ∈ twoBlocks.log.lh, ¬ InLog twoBlocks.log.start b := by
    simp [twoBlocks, InLog, logblocks, maxopblocks]
  obtain ⟨ws,hws,hnew,hk⟩ := commit_crash_atomic quiet twoBlocks (fun _ => rfl) rfl
    (getLE_zeros 0 4) (by simp [twoBlocks]) (by simp [twoBlocks, logblocks, maxopblocks])
    (by simp [twoBlocks]) hout
  refine ⟨ws,hws,fun k d' hr => ?_⟩
  obtain ⟨hn,hafter,hbefore⟩ := (hk k).2 d' hr
  have h40 : 40 ∈ twoBlocks.log.lh := by simp [twoBlocks]
  have h41 : 41 ∈ twoBlocks.log.lh := by simp [twoBlocks]
  refine ⟨hn,fun h => ?_,fun h => ⟨hbefore h 40 (hout 40 h40),hbefore h 41 (hout 41 h41)⟩⟩
  rw [hafter h 40 (hout 40 h40), hnew 40 h40, hafter h 41 (hout 41 h41), hnew 41 h41]
  simp [twoBlocks]

end GreenOS.LogAtomicity
