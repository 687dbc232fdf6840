import GreenOS.EnergyScore

/-!
# Energy arithmetic in 32-bit integers

The counters of a process start at zero in `allocproc` and are incremented by
the clock, by `sleep` and by `wakeup`. The products of the score and of the
priority leave the range of `int` long before a counter does.
-/

namespace GreenOS.EnergyRange
open ProcTable EnergyScore

def InInt (x : ℤ) : Prop := -2147483648 ≤ x ∧ x ≤ 2147483647

instance (x : ℤ) : Decidable (InInt x) := by
  unfold InInt
  infer_instance

/-- The results of the operations of `update_energy_score`, in order and
before they are converted to `int`. -/
def scoreSteps (p : Proc) : List ℤ :=
  let baseScore := p.cpuTicks
  let activityCycles := int32 (p.sleepCount+p.wakeCount)
  if 0 < activityCycles then
    let scaled := int32 (baseScore*100)
    let divisor := int32 (activityCycles+1)
    let cpuIntensity := Int.tdiv scaled divisor
    [p.sleepCount+p.wakeCount,baseScore*100,activityCycles+1,cpuIntensity,
      baseScore+int32 cpuIntensity]
  else
    [p.sleepCount+p.wakeCount]

/-- The same for `update_energy_priority`, after its call of
`update_energy_score`. -/
def prioritySteps (p : Proc) : List ℤ :=
  let p := updateEnergyScore p
  let basePriority := int32 (10000-p.energyScore)
  let activity := int32 (p.sleepCount+p.wakeCount)
  [10000-p.energyScore,p.sleepCount+p.wakeCount,activity*10,basePriority+int32 (activity*10)]

def steps (p : Proc) : List ℤ := scoreSteps p++prioritySteps p

def NoOverflow (p : Proc) : Prop := ∀ x ∈ steps p, InInt x

instance (p : Proc) : Decidable (NoOverflow p) := by
  unfold NoOverflow
  infer_instance

def activity (p : Proc) : ℤ := p.sleepCount+p.wakeCount

def plainScore (ticks act : ℤ) : ℤ := if 0 < act then ticks+ticks*100/(act+1) else ticks

def plainPriority (ticks act : ℤ) : ℤ := max 0 (10000-plainScore ticks act+act*10)

theorem int32_id {x : ℤ} (h : InInt x) : int32 x = x :=
  int32_of_bounds h.1 (by have := h.2; omega)

theorem intensity_bounds {ticks act : ℤ} (ht : 0 ≤ ticks) (ha : 0 < act) :
    0 ≤ ticks*100/(act+1) ∧ ticks*100/(act+1) ≤ ticks*50 := by
  constructor
  · exact Int.ediv_nonneg (by omega) (by omega)
  · apply Int.ediv_le_of_le_mul (by omega)
    nlinarith

theorem plainScore_ge {ticks : ℤ} (act : ℤ) (ht : 0 ≤ ticks) : ticks ≤ plainScore ticks act := by
  unfold plainScore
  split_ifs with ha
  · have := (intensity_bounds ht ha).1
    omega
  · exact le_rfl

theorem score_plain {ticks act : ℤ} (ht : 0 ≤ ticks) (hp : 0 < act → ticks ≤ 21474836)
    (ha : act ≤ 2147483646) : score ticks act = plainScore ticks act := by
  unfold score plainScore
  split_ifs with h
  · have hb := intensity_bounds ht h
    have := hp h
    rw [int32_of_bounds (x := ticks*100) (by omega) (by omega),
      int32_of_bounds (x := act+1) (by omega) (by omega),
      Int.tdiv_eq_ediv_of_nonneg (by omega),
      int32_of_bounds (x := ticks*100/(act+1)) (by omega) (by omega),
      int32_of_bounds (by omega) (by omega)]
  · rfl

structure Counters (p : Proc) : Prop where
  ticks : 0 ≤ p.cpuTicks ∧ p.cpuTicks ≤ 2147483647
  sleeps : 0 ≤ p.sleepCount ∧ p.sleepCount ≤ 2147483647
  wakes : 0 ≤ p.wakeCount ∧ p.wakeCount ≤ 2147483647

def Fits (p : Proc) : Prop :=
  activity p = 0 ∨ p.cpuTicks ≤ 21474836 ∧ activity p ≤ 214748364 ∧
    10000-plainScore p.cpuTicks (activity p)+activity p*10 ≤ 2147483647

instance (p : Proc) : Decidable (Fits p) := by
  unfold Fits
  infer_instance

section
variable {p : Proc}

theorem Fits.activity_le (h : Fits p) : activity p ≤ 214748364 := by
  rcases h with h | h
  · omega
  · exact h.2.1

theorem Fits.cycles_eq (hc : Counters p) (h : Fits p) : cycles p = activity p := by
  have ha := h.activity_le
  have h₁ := hc.sleeps.1
  have h₂ := hc.wakes.1
  unfold cycles activity at *
  exact int32_of_bounds (by omega) (by omega)

theorem Fits.score_eq (hc : Counters p) (h : Fits p) :
    (updateEnergyScore p).energyScore = plainScore p.cpuTicks (activity p) := by
  have ha := h.activity_le
  rw [score_updated, h.cycles_eq hc]
  refine score_plain hc.ticks.1 ?_ (by omega)
  intro hpos
  rcases h with h | h
  · omega
  · exact h.1

theorem activity_nonneg (hc : Counters p) : 0 ≤ activity p :=
  add_nonneg hc.sleeps.1 hc.wakes.1

theorem plainScore_zero (ticks : ℤ) : plainScore ticks 0 = ticks := by
  simp [plainScore]

theorem Fits.score_le (hc : Counters p) (h : Fits p) :
    plainScore p.cpuTicks (activity p) ≤ 2147483647 := by
  have ht := hc.ticks
  rcases h with h | ⟨h,_,_⟩
  · rw [h, plainScore_zero]
    exact ht.2
  · unfold plainScore
    split_ifs with ha
    · have := (intensity_bounds ht.1 ha).2
      omega
    · omega

theorem Fits.sum_le (hc : Counters p) (h : Fits p) :
    10000-plainScore p.cpuTicks (activity p)+activity p*10 ≤ 2147483647 := by
  have hge := plainScore_ge (activity p) hc.ticks.1
  have ht := hc.ticks.1
  rcases h with h | h
  · omega
  · exact h.2.2

theorem Fits.priority_eq (hc : Counters p) (h : Fits p) :
    (updateEnergyPriority p).energyPriority = plainPriority p.cpuTicks (activity p) := by
  have ha := h.activity_le
  have ha₀ := activity_nonneg hc
  have hle := h.score_le hc
  have hge := plainScore_ge (activity p) hc.ticks.1
  have ht := hc.ticks.1
  have hsum := h.sum_le hc
  have hscore := h.score_eq hc
  rw [score_updated, h.cycles_eq hc] at hscore
  change score p.cpuTicks (activity p) = plainScore p.cpuTicks (activity p) at hscore
  rw [priority_updated]
  change priority p.cpuTicks (cycles p) = _
  rw [h.cycles_eq hc, priority, hscore, plainPriority,
    int32_of_bounds (x := 10000-plainScore p.cpuTicks (activity p)) (by omega) (by omega),
    int32_of_bounds (x := activity p*10) (by omega) (by omega),
    int32_of_bounds (by omega) (by omega)]

theorem Fits.noOverflow (hc : Counters p) (h : Fits p) : NoOverflow p := by
  have ha := h.activity_le
  have ha₀ := activity_nonneg hc
  have hle := h.score_le hc
  have hge := plainScore_ge (activity p) hc.ticks.1
  have ht := hc.ticks.1
  have hsum := h.sum_le hc
  have hact : p.sleepCount+p.wakeCount = activity p := rfl
  have hcyc : int32 (activity p) = activity p := h.cycles_eq hc
  intro x hx
  rcases List.mem_append.mp hx with hx | hx
  · unfold scoreSteps at hx
    simp only [hact, hcyc] at hx
    split_ifs at hx with hpos
    · have hticks : p.cpuTicks ≤ 21474836 := by
        rcases h with h | h
        · omega
        · exact h.1
      have hb := intensity_bounds ht hpos
      rw [int32_of_bounds (x := p.cpuTicks*100) (by omega) (by omega),
        int32_of_bounds (x := activity p+1) (by omega) (by omega),
        Int.tdiv_eq_ediv_of_nonneg (by omega),
        int32_of_bounds (x := p.cpuTicks*100/(activity p+1)) (by omega) (by omega)] at hx
      simp only [List.mem_cons, List.not_mem_nil, or_false] at hx
      unfold InInt
      omega
    · obtain rfl := List.mem_singleton.mp hx
      unfold InInt
      omega
  · unfold prioritySteps at hx
    have hsame : (updateEnergyScore p).sleepCount+(updateEnergyScore p).wakeCount =
        activity p := by
      rw [score_updated]
      rfl
    simp only [h.score_eq hc, hsame] at hx
    rw [int32_of_bounds (x := activity p) (by omega) (by omega),
      int32_of_bounds (x := 10000-plainScore p.cpuTicks (activity p)) (by omega) (by omega),
      int32_of_bounds (x := activity p*10) (by omega) (by omega)] at hx
    simp only [List.mem_cons, List.not_mem_nil, or_false] at hx
    unfold InInt
    omega

theorem NoOverflow.fits (hc : Counters p) (h : NoOverflow p) : Fits p := by
  by_cases hzero : activity p = 0
  · exact .inl hzero
  have hpos : 0 < activity p := lt_of_le_of_ne (activity_nonneg hc) (Ne.symm hzero)
  have hsum : ∀ x ∈ prioritySteps p, InInt x := fun x hx => h x (List.mem_append_right _ hx)
  have hsteps : ∀ x ∈ scoreSteps p, InInt x := fun x hx => h x (List.mem_append_left _ hx)
  have hsame : (updateEnergyScore p).sleepCount+(updateEnergyScore p).wakeCount =
      activity p := by
    rw [score_updated]
    rfl
  -- The sum of the counters is the first operation of the priority to look at.
  have hact : InInt (activity p) := hsum _ (by simp [prioritySteps, hsame])
  have hcyc : int32 (p.sleepCount+p.wakeCount) = activity p := int32_id hact
  have htimes : InInt (activity p*10) :=
    hsum _ (by simp [prioritySteps, hsame, int32_id hact])
  have hprod : InInt (p.cpuTicks*100) := hsteps _ (by simp [scoreSteps, hcyc, hpos])
  have hticks : p.cpuTicks ≤ 21474836 := by
    have := hprod.2
    omega
  have ha : activity p ≤ 214748364 := by
    have := htimes.2
    omega
  have hscore : (updateEnergyScore p).energyScore = plainScore p.cpuTicks (activity p) := by
    rw [score_updated]
    change score p.cpuTicks (cycles p) = _
    rw [show cycles p = activity p from hcyc]
    exact score_plain hc.ticks.1 (fun _ => hticks) (by omega)
  have hbase : InInt (10000-plainScore p.cpuTicks (activity p)) :=
    hsum _ (by simp [prioritySteps, hscore])
  have hlast := hsum (10000-plainScore p.cpuTicks (activity p)+activity p*10)
    (by simp [prioritySteps, hscore, hsame, int32_id hact, int32_id hbase, int32_id htimes])
  exact .inr ⟨hticks,ha,hlast.2⟩

end

structure Safe (p : Proc) : Prop where
  range : NoOverflow p
  divisor : 0 < cycles p → 0 < int32 (cycles p+1)
  score : p.cpuTicks ≤ (updateEnergyScore p).energyScore ∧ 0 ≤ p.cpuTicks
  priority : 0 ≤ (updateEnergyPriority p).energyPriority

/-- The entries that a process can have after `allocproc`. Whatever else the
kernel does to a process, it leaves the three counters alone. -/
inductive Counted : Proc → Prop where
  | start (p : Proc) : Counted (initEnergy p)
  | tick {p : Proc} : Counted p → p.cpuTicks < 2147483647 → Counted (clockintr p).1
  | sleep {p : Proc} (chan : Chan) : Counted p → p.sleepCount < 2147483647 →
      Counted (sleepOn chan p)
  | wake {p : Proc} (chan : Option Chan) : Counted p → p.wakeCount < 2147483647 →
      Counted (wakeOne chan p)
  | other {p q : Proc} : Counted p → q.cpuTicks = p.cpuTicks → q.sleepCount = p.sleepCount →
      q.wakeCount = p.wakeCount → Counted q

theorem Counted.counters {p : Proc} (h : Counted p) : Counters p := by
  induction h with
  | start p => constructor <;> simp [initEnergy]
  | @tick p _ hlt ih =>
    have ht := ih.ticks
    refine ⟨?_,?_,?_⟩
    · rw [clock_ticks, int32_of_bounds (by omega) (by omega)]
      omega
    · simp only [clockintr]
      split_ifs <;> exact ih.sleeps
    · simp only [clockintr]
      split_ifs <;> exact ih.wakes
  | @sleep p chan _ hlt ih =>
    have hs := ih.sleeps
    refine ⟨ih.ticks,?_,ih.wakes⟩
    change 0 ≤ int32 (p.sleepCount+1) ∧ int32 (p.sleepCount+1) ≤ 2147483647
    rw [int32_of_bounds (by omega) (by omega)]
    omega
  | @wake p chan _ hlt ih =>
    have hw := ih.wakes
    unfold wakeOne
    split_ifs
    · refine ⟨ih.ticks,ih.sleeps,?_⟩
      change 0 ≤ int32 (p.wakeCount+1) ∧ int32 (p.wakeCount+1) ≤ 2147483647
      rw [int32_of_bounds (by omega) (by omega)]
      omega
    · exact ih
  | other _ h₁ h₂ h₃ ih => exact ⟨h₁ ▸ ih.ticks,h₂ ▸ ih.sleeps,h₃ ▸ ih.wakes⟩

/-- For the counters of any run, the arithmetic is safe exactly while the
counters are within the bounds of `Fits`. -/
theorem energy_arithmetic_safe {p : Proc} (h : Counted p) : Safe p ↔ Fits p := by
  have hc := h.counters
  refine ⟨fun hs => hs.range.fits hc,fun hf => ⟨hf.noOverflow hc,?_,?_,?_⟩⟩
  · intro hpos
    have ha := hf.activity_le
    rw [hf.cycles_eq hc] at hpos ⊢
    rw [int32_of_bounds (by omega) (by omega)]
    omega
  · rw [hf.score_eq hc]
    exact ⟨plainScore_ge _ hc.ticks.1,hc.ticks.1⟩
  · rw [priority_updated]
    exact priority_nonneg _ _

theorem slept_once_safe : Fits (sleepOn .ticks (initEnergy zeroProc)) ∧
    Safe (sleepOn .ticks (initEnergy zeroProc)) := by
  have hfits : Fits (sleepOn .ticks (initEnergy zeroProc)) := by decide
  exact ⟨hfits,(energy_arithmetic_safe (.sleep .ticks (.start zeroProc) (by decide))).mpr hfits⟩

theorem counted_ticks (n : ℕ) (hn : n ≤ 2147483647) : ∃ p, Counted p ∧ p.cpuTicks = n ∧
    p.sleepCount = 1 ∧ p.wakeCount = 0 := by
  induction n with
  | zero => exact ⟨_,.sleep .ticks (.start zeroProc) (by decide),rfl,by decide,rfl⟩
  | succ n ih =>
    obtain ⟨p,hp,ht,hs,hw⟩ := ih (by omega)
    refine ⟨_,hp.tick (by omega),?_,?_,?_⟩
    · rw [clock_ticks, ht, int32_of_bounds (by omega) (by omega)]
      push_cast
      rfl
    · simp only [clockintr]
      split_ifs <;> exact hs
    · simp only [clockintr]
      split_ifs <;> exact hw

/-- After 21474837 ticks and one sleep the product overflows and the score of
the process becomes negative. -/
theorem long_run_overflows : ∃ p, Counted p ∧ p.cpuTicks = 21474837 ∧ activity p = 1 ∧
    ¬InInt (p.cpuTicks*100) ∧ (updateEnergyScore p).energyScore = -1052266961 ∧ ¬Safe p := by
  obtain ⟨p,hp,ht,hs,hw⟩ := counted_ticks 21474837 (by decide)
  have ha : activity p = 1 := by
    rw [activity, hs, hw]
    rfl
  have hcyc : cycles p = 1 := by
    rw [cycles, hs, hw]
    decide
  have hscore : (updateEnergyScore p).energyScore = -1052266961 := by
    rw [score_updated]
    change score p.cpuTicks (cycles p) = _
    rw [ht, hcyc]
    decide
  refine ⟨p,hp,ht,ha,?_,hscore,?_⟩
  · rw [ht]
    decide
  · intro hsafe
    have := hsafe.score.1
    rw [hscore, ht] at this
    revert this
    decide

section
variable {x y a b : ℤ}

theorem plainScore_mono (hx : 0 ≤ x) (hxy : x ≤ y) (hb : 0 < b) (hab : b ≤ a) :
    plainScore x a ≤ plainScore y b := by
  have hdiv : x*100/(a+1) ≤ y*100/(b+1) := by
    calc x*100/(a+1) ≤ y*100/(a+1) := Int.ediv_le_ediv (by omega) (by omega)
      _ ≤ y*100/(b+1) := by
        have hq : 0 ≤ y*100/(a+1) := Int.ediv_nonneg (by omega) (by omega)
        have hmul : y*100/(a+1)*(a+1) ≤ y*100 := Int.ediv_mul_le _ (by omega)
        rw [Int.le_ediv_iff_mul_le (by omega)]
        exact (mul_le_mul_of_nonneg_left (by omega) hq).trans hmul
  simp only [plainScore, hb, if_true, show 0 < a by omega]
  omega

theorem plainPriority_mono (hs : plainScore x a ≤ plainScore y b) (hab : b ≤ a) :
    plainPriority y b ≤ plainPriority x a := by
  unfold plainPriority
  omega

theorem plainScore_order (hx : 0 ≤ x) (hxy : x ≤ y) (hb : 0 ≤ b) (hab : b ≤ a) :
    plainScore x a ≤ plainScore y b ↔ 0 < b ∨ a = 0 ∨ x+x*100/(a+1) ≤ y := by
  by_cases hpos : 0 < b
  · exact iff_of_true (plainScore_mono hx hxy hpos hab) (.inl hpos)
  · by_cases ha : a = 0
    · subst ha
      exact iff_of_true (by simpa [plainScore, hpos] using hxy) (.inr (.inl rfl))
    · simp [plainScore, hpos, ha, show 0 < a by omega]

end

/-- Of two RUNNABLE processes, one with fewer ticks and more activity gets the
lower score and the higher priority exactly when the other has some activity,
or neither has any, or its scaled score stays below the other's ticks. -/
theorem io_bound_first {p q : Proc} (_hp : p.state = .runnable) (_hq : q.state = .runnable)
    (hcp : Counters p) (hcq : Counters q) (hop : NoOverflow p) (hoq : NoOverflow q)
    (hticks : p.cpuTicks ≤ q.cpuTicks) (hact : activity q ≤ activity p) :
    ((updateEnergyScore p).energyScore ≤ (updateEnergyScore q).energyScore ∧
      (updateEnergyPriority q).energyPriority ≤ (updateEnergyPriority p).energyPriority) ↔
    (0 < activity q ∨ activity p = 0 ∨
      p.cpuTicks+p.cpuTicks*100/(activity p+1) ≤ q.cpuTicks) := by
  have hfp := hop.fits hcp
  have hfq := hoq.fits hcq
  rw [hfp.score_eq hcp, hfq.score_eq hcq, hfp.priority_eq hcp, hfq.priority_eq hcq,
    ← plainScore_order hcp.ticks.1 hticks (activity_nonneg hcq) hact]
  exact and_iff_left_of_imp fun hs => plainPriority_mono hs hact

def runnableWith (ticks sleeps : ℤ) : Proc :=
  { zeroProc with state := .runnable, cpuTicks := ticks, sleepCount := sleeps }

theorem two_sleepers_ordered : (updateEnergyScore (runnableWith 10 6)).energyScore ≤
      (updateEnergyScore (runnableWith 20 1)).energyScore ∧
    (updateEnergyPriority (runnableWith 20 1)).energyPriority ≤
      (updateEnergyPriority (runnableWith 10 6)).energyPriority :=
  (io_bound_first (p := runnableWith 10 6) (q := runnableWith 20 1) rfl rfl
    ⟨by decide,by decide,by decide⟩ ⟨by decide,by decide,by decide⟩ (by decide) (by decide)
    (by decide) (by decide)).mpr (.inl (by decide))

/-- One sleep multiplies the score of a process with ten ticks by fifty-one. -/
theorem first_sleep_penalised :
    (runnableWith 10 1).cpuTicks ≤ (runnableWith 10 0).cpuTicks ∧
    activity (runnableWith 10 0) ≤ activity (runnableWith 10 1) ∧
    NoOverflow (runnableWith 10 1) ∧ NoOverflow (runnableWith 10 0) ∧
    (updateEnergyScore (runnableWith 10 1)).energyScore = 510 ∧
    (updateEnergyScore (runnableWith 10 0)).energyScore = 10 ∧
    (updateEnergyPriority (runnableWith 10 1)).energyPriority = 9500 ∧
    (updateEnergyPriority (runnableWith 10 0)).energyPriority = 9990 := by
  decide

end GreenOS.EnergyRange
