import GreenOS.EnergyScore
import GreenOS.FirstMax

/-!
# One pass of the energy-aware scheduler

The scan of `scheduler` visits the slots in order. A visit recomputes the
priority of a RUNNABLE process and keeps the best candidate so far.
-/

namespace GreenOS.EnergyScheduler
open ProcTable EnergyScore FirstMax

structure Scan where
  table : Table
  best : Option Slot
  bestPriority : ℤ

def visit (i : Slot) (s : Scan) : Scan :=
  if (s.table i).state = .runnable then
    let p := updateEnergyPriority (s.table i)
    let table := setProc s.table i p
    if s.best = none ∨ s.bestPriority < p.energyPriority then
      { table := table, best := some i, bestPriority := p.energyPriority }
    else
      { s with table := table }
  else
    s

def scan (t : Table) : Scan :=
  (List.finRange nproc).foldl (fun s i => visit i s)
    { table := t, best := none, bestPriority := -1 }

def prio (t : Table) (i : Slot) : ℤ := priority (t i).cpuTicks (cycles (t i))

def refreshed (t : Table) (i : Slot) : Proc :=
  if (t i).state = .runnable then updateEnergyPriority (t i) else t i

def Tracks (best : Option Slot) (bestPriority : ℤ) (seen : List (Entry Slot)) : Prop :=
  best = (List.argmax Prod.snd seen).map Prod.fst ∧
    ∀ m, List.argmax Prod.snd seen = some m → bestPriority = m.2

theorem tracks_start : Tracks none (-1) [] := by
  simp [Tracks]

theorem visit_table (i : Slot) (s : Scan) :
    (visit i s).table = setProc s.table i (refreshed s.table i) := by
  by_cases h : (s.table i).state = .runnable
  · simp only [visit, refreshed, h, if_true]
    split_ifs <;> rfl
  · simp [visit, refreshed, h, setProc]

theorem visit_unseen (i : Slot) (s : Scan) (seen : List (Entry Slot))
    (h : (s.table i).state ≠ .runnable) (ht : Tracks s.best s.bestPriority seen) :
    Tracks (visit i s).best (visit i s).bestPriority seen := by
  simpa [visit, h] using ht

theorem visit_seen (i : Slot) (s : Scan) (seen : List (Entry Slot))
    (h : (s.table i).state = .runnable) (ht : Tracks s.best s.bestPriority seen) :
    Tracks (visit i s).best (visit i s).bestPriority (seen++[(i,prio s.table i)]) := by
  have hp : (updateEnergyPriority (s.table i)).energyPriority = prio s.table i := by
    simp [priority_updated, prio]
  obtain ⟨hb,hm⟩ := ht
  unfold Tracks
  rw [argmax_snoc]
  cases hl : List.argmax Prod.snd seen with
  | none =>
    have hn : s.best = none := by simpa [hl] using hb
    simp [visit, h, hn, hp, keep]
  | some m =>
    have hn : s.best = some m.1 := by simpa [hl] using hb
    have hv : s.bestPriority = m.2 := hm m hl
    by_cases hlt : m.2 < prio s.table i <;> simp [visit, h, hn, hp, hv, keep, hlt]

/-- The processes a scan of the slots `l` sees when nothing else changes the
table. -/
def sees (t : Table) (l : List Slot) : List (Entry Slot) :=
  (l.filter (fun i => (t i).state = .runnable)).map (fun i => (i,prio t i))

theorem fold_visit (l : List Slot) (hl : l.Nodup) (s : Scan) (seen : List (Entry Slot))
    (hs : Tracks s.best s.bestPriority seen) :
    let s' := l.foldl (fun s i => visit i s) s
    Tracks s'.best s'.bestPriority (seen++sees s.table l) ∧
      ∀ i, s'.table i = if i ∈ l then refreshed s.table i else s.table i := by
  induction l generalizing s seen with
  | nil => simpa [sees] using hs
  | cons i l ih =>
    obtain ⟨hil,hl'⟩ := List.nodup_cons.mp hl
    have hsame : ∀ j ∈ l, (visit i s).table j = s.table j := by
      intro j hj
      rw [visit_table, setProc_ne]
      rintro rfl
      exact hil hj
    have hsees : sees (visit i s).table l = sees s.table l := by
      unfold sees
      have hf : l.filter (fun j => ((visit i s).table j).state = .runnable) =
          l.filter (fun j => (s.table j).state = .runnable) := by
        apply List.filter_congr
        intro j hj
        rw [hsame j hj]
      rw [hf]
      apply List.map_congr_left
      intro j hj
      simp [prio, hsame j (List.mem_of_mem_filter hj)]
    have hstep : ∃ seen', Tracks (visit i s).best (visit i s).bestPriority seen' ∧
        seen'++sees s.table l = seen++sees s.table (i::l) := by
      by_cases h : (s.table i).state = .runnable
      · exact ⟨_,visit_seen i s seen h hs,by simp [sees, h]⟩
      · exact ⟨_,visit_unseen i s seen h hs,by simp [sees, h]⟩
    obtain ⟨seen',ht,he⟩ := hstep
    obtain ⟨h1,h2⟩ := ih hl' (visit i s) seen' ht
    rw [hsees, he] at h1
    refine ⟨h1, fun j => ?_⟩
    rw [List.foldl_cons, h2 j]
    by_cases hj : j ∈ l
    · simp [hj, refreshed, hsame j hj]
    · by_cases hji : j = i
      · subst hji
        simp [hj, visit_table]
      · simp [hj, hji, visit_table]

theorem sees_sorted (t : Table) : Sorted (sees t (List.finRange nproc)) := by
  unfold Sorted sees
  rw [List.pairwise_map]
  exact (List.pairwise_lt_finRange nproc).filter _

theorem mem_sees {t : Table} {e : Entry Slot} :
    e ∈ sees t (List.finRange nproc) ↔ (t e.1).state = .runnable ∧ e.2 = prio t e.1 := by
  obtain ⟨i,q⟩ := e
  simp only [sees, List.mem_map, List.mem_filter, List.mem_finRange, true_and, Prod.mk.injEq,
    decide_eq_true_eq]
  constructor
  · rintro ⟨j,hj,rfl,rfl⟩
    exact ⟨hj,rfl⟩
  · rintro ⟨hr,rfl⟩
    exact ⟨i,hr,rfl,rfl⟩

theorem scan_tracks (t : Table) :
    Tracks (scan t).best (scan t).bestPriority (sees t (List.finRange nproc)) := by
  have h := (fold_visit (List.finRange nproc) (List.nodup_finRange nproc)
    { table := t, best := none, bestPriority := -1 } [] tracks_start).1
  simpa [scan] using h

theorem scan_table (t : Table) (i : Slot) : (scan t).table i = refreshed t i := by
  have h := (fold_visit (List.finRange nproc) (List.nodup_finRange nproc)
    { table := t, best := none, bestPriority := -1 } [] tracks_start).2 i
  simpa [scan] using h

theorem scan_best (t : Table) (b : Slot) : (scan t).best = some b ↔
    (t b).state = .runnable ∧ ∀ i, (t i).state = .runnable →
      prio t i ≤ prio t b ∧ (i < b → prio t i < prio t b) := by
  have hm : (scan t).best = some b ↔
      List.argmax Prod.snd (sees t (List.finRange nproc)) = some (b,prio t b) := by
    rw [(scan_tracks t).1]
    constructor
    · intro h
      obtain ⟨m,hm,rfl⟩ := Option.map_eq_some_iff.mp h
      have := mem_sees.mp (argmax_leads (sees_sorted t) hm).1
      rw [hm, ← this.2]
    · intro h
      simp [h]
  rw [hm, argmax_eq_iff (sees_sorted t), mem_sees]
  simp only [Leads, and_true]
  refine and_congr_right fun _ => ⟨fun h i hi => h (i,prio t i) (mem_sees.mpr ⟨hi,rfl⟩), ?_⟩
  intro h e he
  obtain ⟨hr,hq⟩ := mem_sees.mp he
  rw [hq]
  exact h e.1 hr

theorem scan_finds (t : Table) : (scan t).best.isSome ↔ ∃ i, (t i).state = .runnable := by
  rw [(scan_tracks t).1, Option.isSome_map, Option.isSome_iff_ne_none, ne_eq,
    List.argmax_eq_none]
  constructor
  · intro h
    obtain ⟨e,he⟩ := List.exists_mem_of_ne_nil _ h
    exact ⟨e.1,(mem_sees.mp he).1⟩
  · rintro ⟨i,hi⟩
    exact List.ne_nil_of_mem (mem_sees (e := (i,prio t i)).mpr ⟨hi,rfl⟩)

/-- The scan and what follows it up to `swtch`: the selected process is
RUNNING. -/
def pass (t : Table) : Option Slot × Table :=
  let s := scan t
  match s.best with
  | none => (none,s.table)
  | some b => (some b,setProc s.table b { s.table b with state := .running })

theorem pass_best (t : Table) : (pass t).1 = (scan t).best := by
  unfold pass
  cases h : (scan t).best <;> simp only [h]

theorem pass_table (t : Table) (i : Slot) : (pass t).2 i =
    if (scan t).best = some i then { refreshed t i with state := .running }
    else refreshed t i := by
  unfold pass
  cases h : (scan t).best with
  | none => simp [h, scan_table]
  | some b =>
    by_cases hi : i = b
    · subst hi
      simp [h, scan_table]
    · simp [h, hi, Ne.symm hi, scan_table]

/-- One pass selects a process exactly when some process is RUNNABLE, namely
the lowest-indexed one of maximal fresh priority. It refreshes the RUNNABLE
processes, leaves the others as they are, and changes only the state of the
selected one. -/
theorem pass_selects (t : Table) :
    ((pass t).1.isSome ↔ ∃ i, (t i).state = .runnable) ∧
    (∀ b, (pass t).1 = some b ↔ (t b).state = .runnable ∧ ∀ i, (t i).state = .runnable →
      (updateEnergyPriority (t i)).energyPriority ≤ (updateEnergyPriority (t b)).energyPriority ∧
      (i < b → (updateEnergyPriority (t i)).energyPriority <
        (updateEnergyPriority (t b)).energyPriority)) ∧
    (∀ i, (t i).state = .runnable → (pass t).2 i =
      { updateEnergyPriority (t i) with
        state := if (pass t).1 = some i then .running else .runnable }) ∧
    (∀ i, (t i).state ≠ .runnable → (pass t).2 i = t i) := by
  have hprio : ∀ i, (updateEnergyPriority (t i)).energyPriority = prio t i := by
    intro i
    rw [priority_updated]
    rfl
  rw [pass_best]
  refine ⟨scan_finds t,?_,?_,?_⟩
  · intro b
    simp only [hprio]
    exact scan_best t b
  · intro i hi
    rw [pass_table]
    by_cases hb : (scan t).best = some i
    · simp [hb, refreshed, hi]
    · simp only [hb, if_false, refreshed, hi, if_true, priority_updated]
  · intro i hi
    have hb : (scan t).best ≠ some i := fun hb => hi ((scan_best t i).mp hb).1
    rw [pass_table]
    simp [hb, refreshed, hi]

end GreenOS.EnergyScheduler
