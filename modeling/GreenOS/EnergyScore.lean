import GreenOS.ProcTable

/-!
# Energy score, energy priority and the clock tick

The profiler's score and the scheduler's priority are computed from three
counters of a process. Every C operation on `int` is followed by `int32`, and
division truncates.
-/

namespace GreenOS.EnergyScore
open ProcTable

def updateEnergyScore (p : Proc) : Proc :=
  let baseScore := p.cpuTicks
  let activityCycles := int32 (p.sleepCount+p.wakeCount)
  if 0 < activityCycles then
    let cpuIntensity := int32 (Int.tdiv (int32 (baseScore*100)) (int32 (activityCycles+1)))
    { p with energyScore := int32 (baseScore+cpuIntensity) }
  else
    { p with energyScore := baseScore }

def updateEnergyPriority (p : Proc) : Proc :=
  let p := updateEnergyScore p
  let basePriority := int32 (10000-p.energyScore)
  let ioBonus := int32 (int32 (p.sleepCount+p.wakeCount)*10)
  let p := { p with energyPriority := int32 (basePriority+ioBonus) }
  if p.energyPriority < 0 then { p with energyPriority := 0 } else p

/-- The part of `clockintr` that charges the running process. The flag tells
that the budget is exceeded, in which case the handler yields. -/
def clockintr (p : Proc) : Proc × Bool :=
  let p := { p with cpuTicks := int32 (p.cpuTicks+1) }
  if 0 < p.energyBudget ∧ p.energyBudget < int32 (p.cpuTicks-p.energyUsed) then
    ({ p with energyPriority := 0 },true)
  else
    (p,false)

def sysSetEnergyBudget (budget : ℤ) (p : Proc) : Proc × ℤ :=
  if budget < 0 then (p,-1)
  else ({ p with energyBudget := budget, energyUsed := p.cpuTicks },0)

def cycles (p : Proc) : ℤ := int32 (p.sleepCount+p.wakeCount)

def score (ticks cyc : ℤ) : ℤ :=
  if 0 < cyc then int32 (ticks+int32 (Int.tdiv (int32 (ticks*100)) (int32 (cyc+1)))) else ticks

def priority (ticks cyc : ℤ) : ℤ :=
  max 0 (int32 (int32 (10000-score ticks cyc)+int32 (cyc*10)))

theorem score_updated (p : Proc) : updateEnergyScore p =
    { p with energyScore := score p.cpuTicks (cycles p) } := by
  by_cases h : 0 < int32 (p.sleepCount+p.wakeCount) <;>
    simp [updateEnergyScore, score, cycles, h]

theorem priority_updated (p : Proc) : updateEnergyPriority p =
    { p with energyScore := score p.cpuTicks (cycles p),
             energyPriority := priority p.cpuTicks (cycles p) } := by
  simp only [updateEnergyPriority, score_updated, priority, cycles]
  split_ifs with h
  · rw [max_eq_left (le_of_lt h)]
  · rw [max_eq_right (not_lt.mp h)]

theorem priority_nonneg (ticks cyc : ℤ) : 0 ≤ priority ticks cyc := le_max_left _ _

theorem clock_ticks (p : Proc) : (clockintr p).1.cpuTicks = int32 (p.cpuTicks+1) := by
  simp only [clockintr]
  split_ifs <;> rfl

theorem clock_cycles (p : Proc) : cycles (clockintr p).1 = cycles p := by
  simp only [clockintr]
  split_ifs <;> rfl

end GreenOS.EnergyScore
