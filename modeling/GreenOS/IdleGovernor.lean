import GreenOS.EnergyScheduler

/-!
# The idle governor

Each round of `scheduler` is counted under the governor's lock, as active if the
pass selects a process and as idle if it does not. A CPU without a process then
waits as the power mode says. CPUs end rounds and processes set the mode in any
order.
-/

namespace GreenOS.IdleGovernor
open ProcTable EnergyScheduler

structure Governor where
  idleTicks : BitVec 64
  activeTicks : BitVec 64
  currentMode : ℤ

def powerEco : ℤ := 0

def powerBalanced : ℤ := 1

def powerPerformance : ℤ := 2

def procinit : Governor := ⟨0,0,powerBalanced⟩

def waits (mode : ℤ) : ℕ :=
  if mode = powerEco then 3
  else if mode = powerBalanced then 1
  else if mode = powerPerformance then 0
  else 1

/-- What `scheduler` does with the governor after its scan: the counters, and the waits if it is
idle. -/
def endRound (best : Option Slot) (g : Governor) : Governor × ℕ :=
  match best with
  | some _ => ({ g with activeTicks := g.activeTicks+1 },0)
  | none => ({ g with idleTicks := g.idleTicks+1 },waits g.currentMode)

def sysSetPowerMode (mode : ℤ) (g : Governor) : Governor × ℤ :=
  if mode < 0 ∨ 2 < mode then (g,-1) else ({ g with currentMode := mode },0)

def sysGetCpuStats (g : Governor) : BitVec 64 :=
  let total := g.idleTicks+g.activeTicks
  if total = 0 then 0 else g.activeTicks*100/total

/-- A round whose pass finds the table `t`, or a call of `set_power_mode`. -/
inductive Event where
  | round (t : Table)
  | setMode (mode : ℤ)

def step (g : Governor) : Event → Governor
  | .round t => (endRound (pass t).1 g).1
  | .setMode mode => (sysSetPowerMode mode g).1

def rounds (busy : Bool) (es : List Event) : ℕ :=
  es.countP fun
    | .round t => busy == decide (∃ i, (t i).state = .runnable)
    | .setMode _ => false

theorem step_counts (e : Event) (g : Governor) (hmode : 0 ≤ g.currentMode ∧ g.currentMode ≤ 2) :
    (step g e).activeTicks = g.activeTicks+BitVec.ofNat 64 (rounds true [e]) ∧
    (step g e).idleTicks = g.idleTicks+BitVec.ofNat 64 (rounds false [e]) ∧
    0 ≤ (step g e).currentMode ∧ (step g e).currentMode ≤ 2 := by
  cases e with
  | round t =>
    have hfound := scan_finds t
    rw [← pass_best] at hfound
    by_cases hsome : ∃ i, (t i).state = .runnable
    · obtain ⟨b,hbest⟩ := Option.isSome_iff_exists.mp (hfound.mpr hsome)
      simpa [step, endRound, hbest, rounds, hsome] using hmode
    · have hbest : (pass t).1 = none := by simpa using mt hfound.mp hsome
      simpa [step, endRound, hbest, rounds, hsome] using hmode
  | setMode mode =>
    simp only [step, sysSetPowerMode]
    split_ifs with hbad
    · simpa [rounds] using hmode
    · simpa [rounds, not_or] using hbad

theorem run_counts (es : List Event) (g : Governor) (hmode : 0 ≤ g.currentMode ∧
    g.currentMode ≤ 2) :
    (es.foldl step g).activeTicks = g.activeTicks+BitVec.ofNat 64 (rounds true es) ∧
    (es.foldl step g).idleTicks = g.idleTicks+BitVec.ofNat 64 (rounds false es) ∧
    0 ≤ (es.foldl step g).currentMode ∧ (es.foldl step g).currentMode ≤ 2 := by
  induction es generalizing g with
  | nil => simpa [rounds] using hmode
  | cons e es ih =>
    have hcons : ∀ busy, rounds busy (e::es) = rounds busy [e]+rounds busy es := by
      intro busy
      rw [rounds, rounds, rounds, ← List.countP_append]
      rfl
    obtain ⟨hactive,hidle,hmode⟩ := step_counts e g hmode
    simpa [hcons, hactive, hidle, BitVec.ofNat_add, BitVec.add_assoc] using ih (step g e) hmode

/-- After any rounds and calls the utilization is the share of the rounds that found a process,
and the mode in force is one of the three. -/
theorem utilization_exact (es : List Event) (hfew : (rounds false es+rounds true es)*100 < 2^64) :
    (sysGetCpuStats (es.foldl step procinit)).toNat =
      rounds true es*100/(rounds false es+rounds true es) ∧
    (sysGetCpuStats (es.foldl step procinit)).toNat ≤ 100 ∧
    (es.foldl step procinit).currentMode ∈ [powerEco,powerBalanced,powerPerformance] := by
  obtain ⟨hactive,hidle,hmode⟩ := run_counts es procinit (by decide)
  generalize es.foldl step procinit = g at *
  have htotal : (g.idleTicks+g.activeTicks).toNat = rounds false es+rounds true es := by
    simp [hactive, hidle, procinit]
    omega
  have hnum : (g.activeTicks*100).toNat = rounds true es*100 := by
    simp [hactive, procinit]
    omega
  have hstats : (sysGetCpuStats g).toNat = rounds true es*100/(rounds false es+rounds true es) := by
    simp only [sysGetCpuStats]
    split_ifs with hzero
    · rw [← htotal, hzero]
      simp
    · rw [BitVec.toNat_udiv, htotal, hnum]
  refine ⟨hstats,?_,?_⟩
  · rw [hstats]
    exact Nat.div_le_of_le_mul (by omega)
  · simp only [powerEco, powerBalanced, powerPerformance, List.mem_cons, List.not_mem_nil, or_false]
    omega

/-- A round with nothing to run, and one that finds every process RUNNABLE. -/
theorem two_rounds_half : (sysGetCpuStats ([.round fun _ => zeroProc,
    .round fun _ => { zeroProc with state := .runnable }].foldl step procinit)).toNat = 50 := by
  rw [(utilization_exact _ (by decide +kernel)).1]
  decide +kernel

end GreenOS.IdleGovernor
