import GreenOS.EnergyScheduler

/-!
# Equal CPU-bound processes on one CPU

A round is one pass of the scheduler followed by the dispatch of the selected
process, one clock tick charged to it, and its yield. As long as the priority of
a process drops with each tick, equal processes take turns in table order.
-/

namespace GreenOS.SchedulerFairness
open ProcTable EnergyScore EnergyScheduler

/-- What follows the scan: the selected process runs until its clock tick
and gives up the CPU, inside `clockintr` or in the trap handler after it. -/
def runBest (s : Scan) : Table :=
  match s.best with
  | none => s.table
  | some b =>
    let p := (clockintr { s.table b with state := .running }).1
    setProc s.table b { p with state := .runnable }

def round (t : Table) : Table := runBest (scan t)

variable {s : Scan} {t u : Table} {i : Slot} {l R : List Slot} {r q : ℕ} {t₀ c : ℤ}

theorem runBest_none (h : s.best = none) : runBest s = s.table := by
  simp [runBest, h]

theorem runBest_some {b : Slot} (h : s.best = some b) : runBest s =
    setProc s.table b { (clockintr { s.table b with state := .running }).1 with
      state := .runnable } := by
  simp [runBest, h]

def runnables (t : Table) : List Slot :=
  (List.finRange nproc).filter (fun i => (t i).state = .runnable)

theorem mem_runnables : i ∈ runnables t ↔ (t i).state = .runnable := by
  simp [runnables]

theorem runnables_sorted (t : Table) : (runnables t).Pairwise (· < ·) :=
  (List.pairwise_lt_finRange nproc).filter _

theorem rank_lt (hl : l.Pairwise (· < ·)) {j : Slot} (hi : i ∈ l) (hj : j ∈ l)
    (h : i < j) : l.idxOf i < l.idxOf j := by
  by_contra hn
  have hi' := List.idxOf_lt_length_iff.mpr hi
  have hj' := List.idxOf_lt_length_iff.mpr hj
  rcases Nat.lt_or_eq_of_le (not_lt.mp hn) with hlt | heq
  · have := List.pairwise_iff_getElem.mp hl _ _ hj' hi' hlt
    simp only [List.getElem_idxOf] at this
    exact lt_asymm h this
  · exact (ne_of_lt h) ((List.idxOf_inj hi).mp heq.symm)

theorem rank_exists (hl : l.Pairwise (· < ·)) (hr : r < l.length) :
    ∃ b ∈ l, l.idxOf b = r :=
  ⟨l[r],List.getElem_mem hr,List.Nodup.idxOf_getElem (hl.imp ne_of_lt) r hr⟩

/-- After whole turns `q` and `r` further rounds the first `r` processes in
table order are one tick ahead. -/
structure Shares (R : List Slot) (t₀ c : ℤ) (q r : ℕ) (u : Table) : Prop where
  runnable : ∀ i, (u i).state = .runnable ↔ i ∈ R
  ticks : ∀ i ∈ R, (u i).cpuTicks = t₀+q+if R.idxOf i < r then 1 else 0
  cyc : ∀ i ∈ R, cycles (u i) = c

theorem round_ticks (u : Table) (b i : Slot) (hb : (scan u).best = some b) :
    (round u i).cpuTicks = if i = b then int32 ((u b).cpuTicks+1) else (u i).cpuTicks := by
  have hs : ∀ j, (refreshed u j).cpuTicks = (u j).cpuTicks := by
    intro j
    simp only [refreshed, priority_updated]
    split_ifs <;> rfl
  rw [round, runBest_some hb]
  by_cases h : i = b
  · subst h
    simp [clock_ticks, scan_table, hs]
  · simp [h, scan_table, hs]

theorem round_runnable (u : Table) (i : Slot) :
    (round u i).state = .runnable ↔ (u i).state = .runnable := by
  have hs : ∀ j, (refreshed u j).state = (u j).state := by
    intro j
    simp only [refreshed, priority_updated]
    split_ifs <;> rfl
  cases hb : (scan u).best with
  | none => rw [round, runBest_none hb, scan_table, hs]
  | some b =>
    rw [round, runBest_some hb]
    by_cases h : i = b
    · subst h
      simpa using ((scan_best u i).mp hb).1
    · rw [setProc_ne _ _ h, scan_table, hs]

theorem round_cycles (u : Table) (i : Slot) : cycles (round u i) = cycles (u i) := by
  have hs : ∀ j, cycles (refreshed u j) = cycles (u j) := by
    intro j
    simp only [refreshed, priority_updated]
    split_ifs <;> rfl
  cases hb : (scan u).best with
  | none => rw [round, runBest_none hb, scan_table, hs]
  | some b =>
    rw [round, runBest_some hb]
    by_cases h : i = b
    · subst h
      rw [setProc_same, scan_table]
      exact (clock_cycles { refreshed u i with state := .running }).trans (hs i)
    · rw [setProc_ne _ _ h, scan_table, hs]

section Turns

variable {R : List Slot} {t₀ c : ℤ} {q r : ℕ} {u : Table}

theorem shares_prio (h : Shares R t₀ c q r u) {i : Slot} (hi : i ∈ R) :
    prio u i = priority (t₀+q+if R.idxOf i < r then 1 else 0) c := by
  simp only [prio, h.ticks i hi, h.cyc i hi]

variable {b : Slot}

theorem shares_next (hR : R.Pairwise (· < ·)) (h : Shares R t₀ c q r u) (hb : b ∈ R)
    (hr : R.idxOf b = r) (hdrop : 0 < r → priority (t₀+q+1) c < priority (t₀+q) c) :
    (scan u).best = some b := by
  rw [scan_best]
  refine ⟨(h.runnable b).mpr hb, fun i hi => ?_⟩
  have hi := (h.runnable i).mp hi
  rw [shares_prio h hi, shares_prio h hb]
  simp only [hr, lt_irrefl, if_false, add_zero]
  by_cases hlt : R.idxOf i < r
  · have hd := hdrop (by omega)
    simp only [hlt, if_true]
    exact ⟨le_of_lt hd,fun _ => hd⟩
  · simp only [hlt, if_false, add_zero, le_refl, true_and]
    intro hib
    have := rank_lt hR hi hb hib
    omega

theorem shares_round (h : Shares R t₀ c q r u) (hb : b ∈ R) (hr : R.idxOf b = r)
    (hbest : (scan u).best = some b) (hl : -2147483648 ≤ t₀) (hu : t₀+q+1 < 2147483648) :
    Shares R t₀ c q (r+1) (round u) where
  runnable i := (round_runnable u i).trans (h.runnable i)
  cyc i hi := (round_cycles u i).trans (h.cyc i hi)
  ticks i hi := by
    rw [round_ticks u b i hbest]
    by_cases hib : i = b
    · subst hib
      simp only [if_true, h.ticks i hi, hr, lt_irrefl, if_false, add_zero, Nat.lt_succ_self]
      exact int32_of_bounds (by omega) (by omega)
    · have hne : R.idxOf i ≠ r := fun he => hib ((List.idxOf_inj hi).mp (he.trans hr.symm))
      simp only [hib, if_false, h.ticks i hi]
      by_cases hlt : R.idxOf i < r
      · simp [hlt, Nat.lt_succ_of_lt hlt]
      · simp [hlt, show ¬ R.idxOf i < r+1 by omega]

end Turns

theorem shares_wrap (h : Shares R t₀ c q R.length u) : Shares R t₀ c (q+1) 0 u where
  runnable := h.runnable
  cyc := h.cyc
  ticks i hi := by
    rw [h.ticks i hi]
    simp only [List.idxOf_lt_length_iff.mpr hi, if_true, Nat.not_lt_zero, if_false]
    push_cast
    ring

def Balanced (R : List Slot) (u : Table) : Prop :=
  ∀ i ∈ R, ∀ j ∈ R, |(u i).cpuTicks-(u j).cpuTicks| ≤ 1

theorem shares_balanced (h : Shares R t₀ c q r u) : Balanced R u := by
  intro i hi j hj
  rw [h.ticks i hi, h.ticks j hj, abs_le]
  split_ifs <;> omega

/-- Within the first `N` rounds the tick counter does not overflow, and the
priority of the processes drops with each tick they are charged. -/
def Dropping (k : ℕ) (t₀ c : ℤ) (N : ℕ) : Prop :=
  ∀ j : ℕ, (j*k+1 ≤ N → t₀+j+1 < 2147483648) ∧
    (j*k+2 ≤ N → priority (t₀+j+1) c < priority (t₀+j) c)

theorem dropping_mono {k M N : ℕ} (h : Dropping k t₀ c N) (hMN : M ≤ N) :
    Dropping k t₀ c M :=
  fun j => ⟨fun hj => (h j).1 (by omega),fun hj => (h j).2 (by omega)⟩

section Rounds

variable {R : List Slot} (hR : R.Pairwise (· < ·)) (hk : 2 ≤ R.length) {t₀ c : ℤ}
include hR hk

variable {t u : Table} {q : ℕ}

theorem rounds_share (ht : Shares R t₀ c 0 0 t) (hl : -2147483648 ≤ t₀) (n : ℕ)
    (hd : Dropping R.length t₀ c n) :
    Shares R t₀ c (n/R.length) (n%R.length) (round^[n] t) := by
  induction n with
  | zero => simpa using ht
  | succ n ih =>
    have h := ih (dropping_mono hd (Nat.le_succ n))
    have hk0 : 0 < R.length := by omega
    have hmod := Nat.mod_lt n hk0
    have hn := Nat.div_add_mod' n R.length
    obtain ⟨b,hb,hr⟩ := rank_exists hR hmod
    have hdj := hd (n/R.length)
    have hbest := shares_next hR h hb hr (fun h0 => by
      have := hdj.2 (by omega)
      simpa using this)
    have hnext := shares_round h hb hr hbest hl (by
      have := hdj.1 (by omega)
      simpa using this)
    rw [Function.iterate_succ_apply']
    by_cases hw : n%R.length+1 = R.length
    · have hdiv : (n+1)/R.length = n/R.length+1 ∧ (n+1)%R.length = 0 := by
        have he : n+1 = (n/R.length+1)*R.length := by rw [Nat.add_mul]; omega
        rw [he]
        exact ⟨Nat.mul_div_cancel _ hk0,Nat.mul_mod_left _ _⟩
      rw [hdiv.1, hdiv.2]
      rw [hw] at hnext
      exact shares_wrap hnext
    · have hlt : n%R.length+1 < R.length := by omega
      have hdiv : (n+1)/R.length = n/R.length ∧ (n+1)%R.length = n%R.length+1 := by
        have he : n+1 = n/R.length*R.length+(n%R.length+1) := by omega
        rw [he]
        constructor
        · rw [Nat.add_comm, Nat.add_mul_div_right _ _ hk0, Nat.div_eq_of_lt hlt]
          omega
        · rw [Nat.add_comm, Nat.add_mul_mod_self_right, Nat.mod_eq_of_lt hlt]
      rw [hdiv.1, hdiv.2]
      exact hnext

theorem unbalanced_overflow (h : Shares R t₀ c q 0 u) (hq : t₀+q < 2147483648)
    (ho : ¬ t₀+q+1 < 2147483648) : ¬ Balanced R (round u) := by
  intro hbal
  obtain ⟨b,hb,hr⟩ := rank_exists hR (r := 0) (by omega)
  obtain ⟨d,hd,hdr⟩ := rank_exists hR (r := 1) (by omega)
  have hbest := shares_next hR h hb hr (fun h0 => absurd h0 (lt_irrefl _))
  have hne : d ≠ b := by
    rintro rfl
    omega
  have hbd := hbal b hb d hd
  rw [round_ticks u b b hbest, round_ticks u b d hbest, if_pos rfl, if_neg hne,
    h.ticks b hb, h.ticks d hd, hr, hdr] at hbd
  have hmax : t₀+q+0+1 = 2147483648 := by omega
  simp only [lt_irrefl, if_false, Nat.not_lt_zero, hmax] at hbd
  rw [show int32 2147483648 = -2147483648 by decide, abs_le] at hbd
  omega

/-- Where the priority does not drop, the process that just ran is selected
again although the others are behind it. -/
theorem unbalanced_tie (h : Shares R t₀ c q 1 u) (hl : -2147483648 ≤ t₀) (hq : t₀+q+1 < 2147483648)
    (hp : ¬ priority (t₀+q+1) c < priority (t₀+q) c)  : ¬ Balanced R (round u) := by
  intro hbal
  obtain ⟨b,hb,hr⟩ := rank_exists hR (r := 0) (by omega)
  obtain ⟨d,hd,hdr⟩ := rank_exists hR (r := 1) (by omega)
  have hbest : (scan u).best = some b := by
    rw [scan_best]
    refine ⟨(h.runnable b).mpr hb, fun i hi => ?_⟩
    have hi := (h.runnable i).mp hi
    rw [shares_prio h hi, shares_prio h hb]
    simp only [hr, Nat.lt_one_iff, if_true]
    constructor
    · by_cases h0 : R.idxOf i = 0
      · simp [h0]
      · simpa [h0] using not_lt.mp hp
    · intro hib
      have := rank_lt hR hi hb hib
      omega
  have hne : d ≠ b := by
    rintro rfl
    omega
  have hbd := hbal b hb d hd
  rw [round_ticks u b b hbest, round_ticks u b d hbest, if_pos rfl, if_neg hne,
    h.ticks b hb, h.ticks d hd, hr, hdr] at hbd
  simp only [Nat.lt_one_iff, if_true, lt_irrefl, if_false, add_zero] at hbd
  rw [abs_le] at hbd
  by_cases hs : t₀+q+1+1 < 2147483648
  · rw [int32_of_bounds (by omega) hs] at hbd
    omega
  · have hmax : t₀+q+1+1 = 2147483648 := by omega
    rw [hmax, show int32 2147483648 = -2147483648 by decide] at hbd
    omega

/-- The ticks stay balanced through the first `N` rounds exactly when every
tick charged up to then has lowered the priority of its process. -/
theorem balanced_rounds (ht : Shares R t₀ c 0 0 t) (hl : -2147483648 ≤ t₀ ∧ t₀ < 2147483648)
    (N : ℕ) :
    (∀ n ≤ N, Balanced R (round^[n] t)) ↔ Dropping R.length t₀ c N := by
  refine ⟨fun hbal => ?_, fun hd n hn =>
    shares_balanced (rounds_share hR hk ht hl.1 n (dropping_mono hd hn))⟩
  induction N with
  | zero =>
    intro j
    exact ⟨fun h => by omega,fun h => by omega⟩
  | succ N ih =>
    have hd := ih (fun n hn => hbal n (by omega))
    have hsh := rounds_share hR hk ht hl.1 N hd
    have hlast := hbal (N+1) (le_refl _)
    rw [Function.iterate_succ_apply'] at hlast
    intro j
    have hover : j*R.length+1 ≤ N+1 → t₀+j+1 < 2147483648 := by
      intro hj
      by_cases hjN : j*R.length+1 ≤ N
      · exact (hd j).1 hjN
      · have hN : N = j*R.length := by omega
        have hdm : N/R.length = j ∧ N%R.length = 0 := by
          rw [hN]
          exact ⟨Nat.mul_div_cancel _ (by omega),Nat.mul_mod_left _ _⟩
        rw [hdm.1, hdm.2] at hsh
        by_contra ho
        refine unbalanced_overflow hR hk hsh ?_ ho hlast
        rcases Nat.eq_zero_or_pos j with rfl | hj0
        · simpa using hl.2
        · have hp := (hd (j-1)).1 (by
            have : (j-1)*R.length+R.length = j*R.length := by
              rw [← Nat.succ_mul]
              congr 1
              omega
            omega)
          omega
    refine ⟨hover, fun hj => ?_⟩
    by_cases hjN : j*R.length+2 ≤ N
    · exact (hd j).2 hjN
    · have hN : N = 1+j*R.length := by omega
      have hdm : N/R.length = j ∧ N%R.length = 1 := by
        rw [hN, Nat.add_mul_div_right _ _ (by omega), Nat.add_mul_mod_self_right]
        exact ⟨by rw [Nat.div_eq_of_lt (by omega)]; omega,Nat.mod_eq_of_lt (by omega)⟩
      rw [hdm.1, hdm.2] at hsh
      by_contra hp
      exact unbalanced_tie hR hk hsh hl.1 (hover (by omega)) hp hlast

end Rounds

theorem shares_start {a : ℤ} (hticks : ∀ i ∈ runnables t, (t i).cpuTicks = t₀)
    (hact : ∀ i ∈ runnables t, (t i).sleepCount+(t i).wakeCount = a) :
    Shares (runnables t) t₀ (int32 a) 0 0 t where
  runnable i := mem_runnables.symm
  ticks i hi := by simp [hticks i hi]
  cyc i hi := by rw [cycles, hact i hi]

/-- Equal CPU-bound processes stay within one tick of each other through the
first `N` rounds if and only if the clamped priority still drops at every
tick count they have passed by then and the tick counter has not overflowed. -/
theorem equal_processes_balanced_iff (t : Table) (t₀ a : ℤ) (hk : 2 ≤ (runnables t).length)
    (hticks : ∀ i ∈ runnables t, (t i).cpuTicks = t₀)
    (hact : ∀ i ∈ runnables t, (t i).sleepCount+(t i).wakeCount = a)
    (hint : -2147483648 ≤ t₀ ∧ t₀ < 2147483648) (N : ℕ) :
    (∀ n ≤ N, Balanced (runnables t) (round^[n] t)) ↔
      Dropping (runnables t).length t₀ (int32 a) N :=
  balanced_rounds (runnables_sorted t) hk (shares_start hticks hact) hint N

def spinners : Table := fun i =>
  if i.val < 2 then { zeroProc with state := .runnable, pid := i.val+1, cpuTicks := 10000 }
  else zeroProc

theorem spinners_runnables : runnables spinners = [0,1] := by decide

theorem spinners_ticks : ∀ i ∈ runnables spinners, (spinners i).cpuTicks = 10000 := by
  rw [spinners_runnables]
  decide

theorem spinners_activity :
    ∀ i ∈ runnables spinners, (spinners i).sleepCount+(spinners i).wakeCount = 0 := by
  rw [spinners_runnables]
  decide

theorem spinners_first_round : 2 ≤ (runnables spinners).length ∧
    ∀ n ≤ 1, Balanced (runnables spinners) (round^[n] spinners) := by
  refine ⟨by rw [spinners_runnables]; decide, (equal_processes_balanced_iff spinners 10000 0
    (by rw [spinners_runnables]; decide) spinners_ticks spinners_activity (by decide) 1).mpr ?_⟩
  intro j
  rw [spinners_runnables]
  exact ⟨fun h => by simp at h; omega,fun h => by simp at h⟩

/-- At the clamp the lower of the two is dispatched twice in a row. -/
theorem spinners_unbalanced :
    ¬ ∀ n, Balanced (runnables spinners) (round^[n] spinners) := by
  intro h
  have hd := (balanced_rounds (runnables_sorted spinners) (by rw [spinners_runnables]; decide)
    (shares_start spinners_ticks spinners_activity) (by decide) 2).mp (fun n _ => h n)
  have := (hd 0).2 (by omega)
  revert this
  decide

end GreenOS.SchedulerFairness
