import GreenOS.PipeSleepers

/-!
# Wakeups of a pipe over whole runs

Every step of the machine keeps the invariant of the sleepers, except the
return of a killed writer that leaves bytes behind it unannounced.
-/

namespace GreenOS.PipeWakeups
open ProcTable PipeMachine PipeSleepers

section
variable {s : Sys} {p : Slot}

theorem inv_doze (hI : Inv s) (hp : s.lock = some p) (chan : Chan) (resume : Point)
    (hresume : enters resume = true)
    (hread : chan = nreadChan s.base → Empty s.pipe)
    (hwrite : chan = nwriteChan s.base → Full s.pipe)
    (hreaders : ∀ q, ¬ WakesReader (s.point p) q) (hwriters : ∀ q, ¬ WakesWriter (s.point p) q) :
    Inv { setPoint s p (.dozing chan resume) with lock := none } := by
  have hself : holds (s.point p) = true := (hI.lock p).mpr hp
  have hback : ∀ c q, Waits { setPoint s p (.dozing chan resume) with lock := none } c q →
      Waits s c q ∨ chan = c := by
    intro c q hq
    by_cases hqp : q = p
    · subst hqp
      simp [Waits, setPoint, dozesOn, hI.running q (Or.inl hself)] at hq
      exact Or.inr hq
    · exact Or.inl (by simpa [Waits, setPoint, hqp] using hq)
  refine inv_holder hI hp _ (.dozing chan resume) rfl rfl rfl (fun _ h => h) ?_ ?_ hresume
  · intro q hq
    rcases hback _ q hq with h | h
    · exact (readers_holder hI hp q h).imp_right (fun h => absurd h (hreaders q))
    · exact Or.inl (hread h)
  · intro q hq
    rcases hback _ q hq with h | h
    · exact (writers_holder hI hp q h).imp_right (fun h => absurd h (hwriters q))
    · exact Or.inl (hwrite h)

theorem inv_acquire (hI : Inv s) (hlock : s.lock = none) (hp : (s.table p).state = .running)
    (c : Point) (pi : Pipe) (hc : holds c = true)
    (hread : ∀ q, Empty s.pipe → Empty pi ∨ WakesReader c q)
    (hwrite : ∀ q, Full s.pipe → Full pi ∨ WakesWriter c q)
    (hknows : Knows c pi) :
    Inv { setPoint s p c with lock := some p, pipe := pi } := by
  have hfree : ∀ q, holds (s.point q) = false := by
    intro q
    by_contra h
    have := (hI.lock q).mp (by simpa using h)
    simp [hlock] at this
  have hback : ∀ chan q, Waits { setPoint s p c with lock := some p, pipe := pi } chan q →
      Waits s chan q := by
    intro chan q hq
    by_cases hqp : q = p
    · subst hqp
      simp [Waits, setPoint, not_dozing hc, hp] at hq
    · simpa [Waits, setPoint, hqp] using hq
  refine ⟨?_,?_,?_,?_,?_⟩
  · intro q
    by_cases hqp : q = p
    · subst hqp
      simp [setPoint, hc]
    · simp [setPoint, hqp, hfree q, Ne.symm hqp]
  · intro q hq
    by_cases hqp : q = p
    · exact hqp ▸ hp
    · exact hI.running q (by simpa [setPoint, hqp] using hq)
  · intro q hq
    rcases hI.readers q (hback _ q hq) with h | ⟨r,hr,_⟩
    · exact (hread q h).imp_right (fun h => ⟨p,rfl,by simpa [setPoint] using h⟩)
    · simp [hlock] at hr
  · intro q hq
    rcases hI.writers q (hback _ q hq) with h | ⟨r,hr,_⟩
    · exact (hwrite q h).imp_right (fun h => ⟨p,rfl,by simpa [setPoint] using h⟩)
    · simp [hlock] at hr
  · intro q
    by_cases hqp : q = p
    · subst hqp
      simpa [setPoint] using hknows
    · simpa [setPoint, hqp] using knows_other pi (hfree q) (hI.knows q)

theorem inv_outside (hI : Inv s) (s' : Sys) (x : Proc) (c : Point)
    (hfree : holds (s.point p) = false) (hc : holds c = false)
    (htable : s'.table = setProc s.table p x) (hpoint : s'.point = Function.update s.point p c)
    (hbase : s'.base = s.base) (hpipe : s'.pipe = s.pipe) (hlock : s'.lock = s.lock)
    (hrun : ownLock c = true → x.state = .running)
    (hwait : ∀ chan, chan = nreadChan s.base ∨ chan = nwriteChan s.base →
      (x.state = .sleeping ∧ x.chan = some chan) ∨ dozesOn c chan = true → Waits s chan p)
    (hknows : Knows c s.pipe) : Inv s' := by
  have hback : ∀ chan q, chan = nreadChan s.base ∨ chan = nwriteChan s.base →
      Waits s' chan q → Waits s chan q := by
    intro chan q hchan hq
    by_cases hqp : q = p
    · subst hqp
      exact hwait chan hchan (by simpa [Waits, htable, hpoint] using hq)
    · simpa [Waits, htable, hpoint, hqp] using hq
  have hother : ∀ r, s.lock = some r → r ≠ p := by
    intro r hr hrp
    subst hrp
    have := (hI.lock r).mpr hr
    simp [hfree] at this
  refine ⟨?_,?_,?_,?_,?_⟩
  · intro q
    rw [hpoint, hlock]
    by_cases hqp : q = p
    · subst hqp
      simp [hc, ← hI.lock q, hfree]
    · simpa [hqp] using hI.lock q
  · intro q hq
    by_cases hqp : q = p
    · subst hqp
      simp only [hpoint, Function.update_self, hc, Bool.false_eq_true, false_or] at hq
      simpa [htable] using hrun hq
    · simpa [htable, hqp] using hI.running q (by simpa [hpoint, hqp] using hq)
  · intro q hq
    rw [hbase] at hq
    rcases hI.readers q (hback _ q (Or.inl rfl) hq) with h | ⟨r,hr,h⟩
    · exact Or.inl (hpipe ▸ h)
    · exact Or.inr ⟨r,hlock ▸ hr,by simpa [hpoint, hother r hr] using h⟩
  · intro q hq
    rw [hbase] at hq
    rcases hI.writers q (hback _ q (Or.inr rfl) hq) with h | ⟨r,hr,h⟩
    · exact Or.inl (hpipe ▸ h)
    · exact Or.inr ⟨r,hlock ▸ hr,by simpa [hpoint, hother r hr] using h⟩
  · intro q
    rw [hpoint, hpipe]
    by_cases hqp : q = p
    · subst hqp
      simpa using hknows
    · simpa [hqp] using hI.knows q

variable {addr : BitVec 64} {n : ℤ} {i quiet : ℕ} {s' : Sys}

theorem inv_writeLoop (hI : Inv s) (hp : s.lock = some p) (mem : UserMem)
    (hpt : s.point p = .writeLoop addr n i quiet)
    (hok : (i : ℤ) < n → (s.table p).killed ≠ 0 → 0 < quiet → ∀ q, ¬ Waits s (nreadChan s.base) q)
    (h : advance s p mem = some s') : Inv s' := by
  have hk := hI.knows p
  rw [hpt] at hk
  simp only [advance, hpt] at h
  split_ifs at h with hi hexit
  · obtain rfl := Option.some.inj h
    refine inv_leave hI hp _ ?_ (by simp [hpt, WakesWriter])
    intro q hq hwake
    rw [hpt] at hwake
    rcases hexit with hclosed | hkilled
    · simp [hk hwake] at hclosed
    · exact hok hi hkilled hwake q hq
  · obtain rfl := Option.some.inj h
    refine inv_setPoint hI hp _ rfl ?_ (by simp [hpt, WakesWriter]) ?_
    · intro q _ hq
      exact Or.inr (by simpa [hpt, WakesReader] using hq)
    · simp only [not_or, Bool.not_eq_false] at hexit
      exact hexit.1
  · obtain rfl := Option.some.inj h
    exact inv_setPoint hI hp _ rfl (fun _ _ _ => Or.inr (Nat.zero_le _))
      (by simp [hpt, WakesWriter]) trivial

theorem inv_writeBody (hI : Inv s) (hp : s.lock = some p) (mem : UserMem)
    (hpt : s.point p = .writeBody addr n i quiet) :
    Inv (writeBody s p mem addr n i quiet) := by
  have hk : s.pipe.readopen = true := by simpa [hpt, Knows] using hI.knows p
  unfold writeBody
  split_ifs with hfull
  · exact inv_setPoint hI hp _ rfl (fun _ _ _ => Or.inr (Nat.zero_le _))
      (by simp [hpt, WakesWriter]) ⟨hfull,hk⟩
  · split
    · exact inv_setPoint hI hp _ rfl (fun _ _ _ => Or.inr (Nat.zero_le _))
        (by simp [hpt, WakesWriter]) trivial
    · rename_i ch _
      refine inv_holder hI hp _ (.writeLoop addr n (i+1) (quiet+1)) rfl rfl
        (by simp [setPoint, hp, holds]) (fun _ h => h) ?_ ?_ (fun _ => hk)
      · exact fun _ _ => Or.inr (Nat.succ_pos quiet)
      · intro q hq
        have hw := (waits_setPoint hI hp rfl (c := .writeLoop addr n (i+1) (quiet+1)) hq).2
        rcases writers_holder hI hp q hw with h | h
        · exact absurd h.1 hfull
        · simp [hpt, WakesWriter] at h

theorem inv_readCopy (hI : Inv s) (hp : s.lock = some p) (mem : UserMem)
    (hpt : s.point p = .readCopy addr n i) :
    Inv (readCopy s p mem addr n i) := by
  have hdone : ∀ result, Inv (setPoint s p (.readDone result 0)) := fun result =>
    inv_setPoint hI hp _ rfl (by simp [hpt, WakesReader])
      (fun _ _ _ => Or.inr (Nat.zero_le _)) trivial
  unfold readCopy
  split_ifs with hi hempty hcopy
  · exact hdone _
  · refine inv_holder hI hp _ (.readCopy addr n (i+1)) rfl rfl
      (by simp [setPoint, hp, holds]) (fun _ h => h) ?_ ?_ trivial
    · intro q hq
      have hw := (waits_setPoint hI hp rfl (c := .readCopy addr n (i+1)) hq).2
      rcases readers_holder hI hp q hw with h | h
      · exact absurd h.1 hempty
      · simp [hpt, WakesReader] at h
    · exact fun _ _ => Or.inr trivial
  all_goals exact hdone _

theorem inv_readTest (hI : Inv s) (hp : s.lock = some p) (mem : UserMem)
    (hpt : s.point p = .readTest addr n) (h : advance s p mem = some s') :
    Inv s' := by
  simp only [advance, hpt] at h
  split_ifs at h with hempty hkilled <;> obtain rfl := Option.some.inj h
  · exact inv_leave hI hp _ (by simp [hpt, WakesReader]) (by simp [hpt, WakesWriter])
  · exact inv_setPoint hI hp _ rfl (by simp [hpt, WakesReader]) (by simp [hpt, WakesWriter])
      hempty
  · exact inv_setPoint hI hp _ rfl (by simp [hpt, WakesReader]) (by simp [hpt, WakesWriter])
      trivial

theorem inv_wakeLoop (hI : Inv s) (hp : s.lock = some p) (again : ℕ → Point) {chan : Chan} {j : ℕ}
    {done : Sys}
    (h : (match slot? j with
      | none => some done
      | some q => wakeVisit s p chan q (again (j+1))) = some s')
    (hdone : (∀ q : Slot, q.val < j) → Inv done) (hpt : s.point p = again j)
    (hholds : holds (again (j+1)) = true)
    (hread : (chan = nreadChan s.base ∧ ∀ k q, WakesReader (again k) q ↔ k ≤ q.val) ∨
      ∀ q, ¬ WakesReader (again j) q)
    (hwrite : (chan = nwriteChan s.base ∧ ∀ k q, WakesWriter (again k) q ↔ k ≤ q.val) ∨
      ∀ q, ¬ WakesWriter (again j) q)
    (hknows : Knows (again (j+1)) s.pipe) : Inv s' := by
  cases hslot : slot? j with
  | none =>
    simp only [hslot, Option.some.injEq] at h
    exact h ▸ hdone (slot?_none hslot)
  | some q =>
    simp only [hslot] at h
    have hq := slot?_some hslot
    have hnext : ∀ r : Slot, j ≤ r.val → r = q ∨ j+1 ≤ r.val := by
      intro r hr
      by_cases hrq : r = q
      · exact Or.inl hrq
      · have : r.val ≠ q.val := fun he => hrq (Fin.ext he)
        omega
    refine inv_wakeVisit hI hp h hholds ?_ ?_ hknows
    · intro r hr
      rw [hpt] at hr
      rcases hread with ⟨hchan,hiff⟩ | hnone
      · rcases hnext r ((hiff j r).mp hr) with hrq | hlt
        · exact Or.inl ⟨hrq,hchan⟩
        · exact Or.inr ((hiff (j+1) r).mpr hlt)
      · exact absurd hr (hnone r)
    · intro r hr
      rw [hpt] at hr
      rcases hwrite with ⟨hchan,hiff⟩ | hnone
      · rcases hnext r ((hiff j r).mp hr) with hrq | hlt
        · exact Or.inl ⟨hrq,hchan⟩
        · exact Or.inr ((hiff (j+1) r).mpr hlt)
      · exact absurd hr (hnone r)

end

end GreenOS.PipeWakeups
