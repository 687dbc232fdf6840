import GreenOS.PipeMachine
import GreenOS.StepRun

/-!
# Sleepers of a pipe

A process that waits on a channel of the pipe either has its reason, or the
holder of `pi->lock` is on a path that wakes it before the lock is released.
-/

namespace GreenOS.PipeSleepers
open ProcTable PipeMachine

def dozesOn : Point → Chan → Bool
  | .dozing c _, chan => c == chan
  | _, _ => false

/-- Asleep on the channel, or past the release of `pi->lock` on the way there. -/
def Waits (s : Sys) (chan : Chan) (q : Slot) : Prop :=
  ((s.table q).state = .sleeping ∧ (s.table q).chan = some chan) ∨
    dozesOn (s.point q) chan = true

instance (s : Sys) (chan : Chan) (q : Slot) : Decidable (Waits s chan q) := by
  unfold Waits
  infer_instance

def holds : Point → Bool
  | .writeLoop _ _ _ _ => true
  | .writeBody _ _ _ _ => true
  | .writeFull _ _ _ _ => true
  | .writeSleep _ _ _ => true
  | .writeDone _ _ => true
  | .readTest _ _ => true
  | .readSleep _ _ => true
  | .readCopy _ _ _ => true
  | .readDone _ _ => true
  | .closeWake _ _ => true
  | _ => false

/-- From this point the holder of the lock still visits slot `q` with
`wakeup(&pi->nread)` before it releases the lock. -/
def WakesReader : Point → Slot → Prop
  | .writeLoop _ _ _ quiet, _ => 0 < quiet
  | .writeBody _ _ _ quiet, _ => 0 < quiet
  | .writeFull _ _ _ j, q => j ≤ q.val
  | .writeDone _ j, q => j ≤ q.val
  | .closeWake true j, q => j ≤ q.val
  | _, _ => False

def WakesWriter : Point → Slot → Prop
  | .readCopy _ _ _, _ => True
  | .readDone _ j, q => j ≤ q.val
  | .closeWake false j, q => j ≤ q.val
  | _, _ => False

def Empty (pi : Pipe) : Prop := pi.nread = pi.nwrite ∧ pi.writeopen = true

def Full (pi : Pipe) : Prop := full pi = true ∧ pi.readopen = true

def enters : Point → Bool
  | .writeEnter _ _ _ => true
  | .readEnter _ _ => true
  | _ => false

def Knows : Point → Pipe → Prop
  | .writeLoop _ _ _ quiet, pi => 0 < quiet → pi.readopen = true
  | .writeBody _ _ _ _, pi => pi.readopen = true
  | .writeFull _ _ _ _, pi => Full pi
  | .writeSleep _ _ _, pi => Full pi
  | .readSleep _ _, pi => Empty pi
  | .dozing _ resume, _ => enters resume = true
  | .asleep resume, _ => enters resume = true
  | _, _ => True

structure Inv (s : Sys) : Prop where
  lock : ∀ p, holds (s.point p) = true ↔ s.lock = some p
  running : ∀ p, holds (s.point p) = true ∨ ownLock (s.point p) = true →
    (s.table p).state = .running
  readers : ∀ q, Waits s (nreadChan s.base) q →
    Empty s.pipe ∨ ∃ p, s.lock = some p ∧ WakesReader (s.point p) q
  writers : ∀ q, Waits s (nwriteChan s.base) q →
    Full s.pipe ∨ ∃ p, s.lock = some p ∧ WakesWriter (s.point p) q
  knows : ∀ p, Knows (s.point p) s.pipe

variable {c : Point}

theorem knows_other {pi : Pipe} (pi' : Pipe) (hc : holds c = false)
    (h : Knows c pi) : Knows c pi' := by
  cases c <;> simp_all [holds, Knows]

theorem wakes_holds {q : Slot} (h : WakesReader c q ∨ WakesWriter c q) :
    holds c = true := by
  cases c <;> simp_all [holds, WakesReader, WakesWriter]

section
variable {s : Sys} {p : Slot}

theorem readers_holder (hI : Inv s) (hp : s.lock = some p) (q : Slot)
    (hq : Waits s (nreadChan s.base) q) : Empty s.pipe ∨ WakesReader (s.point p) q := by
  rcases hI.readers q hq with h | ⟨r,hr,h⟩
  · exact Or.inl h
  · obtain rfl : p = r := by simpa [hp] using hr
    exact Or.inr h

theorem writers_holder (hI : Inv s) (hp : s.lock = some p) (q : Slot)
    (hq : Waits s (nwriteChan s.base) q) : Full s.pipe ∨ WakesWriter (s.point p) q := by
  rcases hI.writers q hq with h | ⟨r,hr,h⟩
  · exact Or.inl h
  · obtain rfl : p = r := by simpa [hp] using hr
    exact Or.inr h

theorem inv_holder (hI : Inv s) (hp : s.lock = some p) (s' : Sys) (c : Point)
    (hpoint : s'.point = Function.update s.point p c) (hbase : s'.base = s.base)
    (hlock : s'.lock = if holds c then some p else none)
    (hstate : ∀ q, (s.table q).state = .running → (s'.table q).state = .running)
    (hread : ∀ q, Waits s' (nreadChan s.base) q → Empty s'.pipe ∨ WakesReader c q)
    (hwrite : ∀ q, Waits s' (nwriteChan s.base) q → Full s'.pipe ∨ WakesWriter c q)
    (hknows : Knows c s'.pipe) : Inv s' := by
  have hfree : ∀ q, q ≠ p → holds (s.point q) = false := by
    intro q hq
    by_contra h
    have := (hI.lock q).mp (by simpa using h)
    rw [hp] at this
    exact hq (Option.some.inj this).symm
  have hself : holds (s.point p) = true := (hI.lock p).mpr hp
  refine ⟨?_,?_,?_,?_,?_⟩
  · intro q
    rw [hpoint, hlock]
    by_cases hq : q = p
    · subst hq
      cases hc : holds c <;> simp [hc]
    · simp only [Function.update_of_ne hq, hfree q hq]
      cases hc : holds c <;> simp [Ne.symm hq]
  · intro q hq
    apply hstate
    by_cases hqp : q = p
    · subst hqp
      exact hI.running q (Or.inl hself)
    · rw [hpoint, Function.update_of_ne hqp] at hq
      exact hI.running q hq
  · intro q hq
    rw [hbase] at hq
    rcases hread q hq with h | h
    · exact Or.inl h
    · refine Or.inr ⟨p,?_,?_⟩
      · simp [hlock, wakes_holds (Or.inl h)]
      · simpa [hpoint] using h
  · intro q hq
    rw [hbase] at hq
    rcases hwrite q hq with h | h
    · exact Or.inl h
    · refine Or.inr ⟨p,?_,?_⟩
      · simp [hlock, wakes_holds (Or.inr h)]
      · simpa [hpoint] using h
  · intro q
    by_cases hq : q = p
    · subst hq
      simpa [hpoint] using hknows
    · rw [hpoint, Function.update_of_ne hq]
      exact knows_other _ (hfree q hq) (hI.knows q)

variable {c : Point} {chan : Chan} {q : Slot}

theorem not_dozing (h : holds c = true) (chan : Chan) : dozesOn c chan = false := by
  cases c <;> simp_all [holds, dozesOn]

theorem holder_awake (hI : Inv s) (hp : s.lock = some p) (chan : Chan) : ¬ Waits s chan p := by
  have hself : holds (s.point p) = true := (hI.lock p).mpr hp
  simp [Waits, hI.running p (Or.inl hself), not_dozing hself]

theorem waits_setPoint (hI : Inv s) (hp : s.lock = some p) (hc : holds c = true)
    (h : Waits (setPoint s p c) chan q) : q ≠ p ∧ Waits s chan q := by
  have hself : holds (s.point p) = true := (hI.lock p).mpr hp
  by_cases hq : q = p
  · subst hq
    simp [Waits, setPoint, not_dozing hc, hI.running q (Or.inl hself)] at h
  · exact ⟨hq,by simpa [Waits, setPoint, hq] using h⟩

theorem waits_woken {chan' : Chan} {r : Slot} (hq : ownLock (s.point q) = false)
    (h : Waits (setEntry s q (wakeOne (some chan) (s.table q))) chan' r) :
    Waits s chan' r ∧ ¬ (r = q ∧ chan = chan') := by
  have hdoze : dozesOn (s.point q) chan' = false := by
    cases hc : s.point q <;> simp_all [ownLock, dozesOn]
  by_cases hr : r = q
  · subst hr
    unfold Waits at h ⊢
    simp only [setEntry, setProc_same, hdoze, Bool.false_eq_true, or_false] at h ⊢
    unfold wakeOne at h
    split_ifs at h with hs
    · simp at h
    · exact ⟨h,fun hc => hs ⟨h.1,hc.2 ▸ h.2⟩⟩
  · exact ⟨by simpa [Waits, setEntry, hr] using h,fun hc => hr hc.1⟩

theorem inv_setPoint (hI : Inv s) (hp : s.lock = some p) (c : Point) (hc : holds c = true)
    (hread : ∀ q, Waits s (nreadChan s.base) q → WakesReader (s.point p) q →
      Empty s.pipe ∨ WakesReader c q)
    (hwrite : ∀ q, Waits s (nwriteChan s.base) q → WakesWriter (s.point p) q →
      Full s.pipe ∨ WakesWriter c q)
    (hknows : Knows c s.pipe) : Inv (setPoint s p c) := by
  refine inv_holder hI hp _ c rfl rfl (by simp [setPoint, hc, hp]) (fun _ h => h) ?_ ?_ hknows
  · intro q hq
    have hw := (waits_setPoint hI hp hc hq).2
    rcases readers_holder hI hp q hw with h | h
    · exact Or.inl h
    · exact hread q hw h
  · intro q hq
    have hw := (waits_setPoint hI hp hc hq).2
    rcases writers_holder hI hp q hw with h | h
    · exact Or.inl h
    · exact hwrite q hw h

theorem inv_wake (hI : Inv s) (hp : s.lock = some p) (hqp : q ≠ p)
    (hq : ownLock (s.point q) = false) :
    Inv (setEntry s q (wakeOne (some chan) (s.table q))) := by
  refine inv_holder hI hp _ (s.point p) (by simp [setEntry]) rfl ?_ ?_ ?_ ?_ (hI.knows p)
  · simpa [setEntry, (hI.lock p).mpr hp] using hp
  · intro r hr
    by_cases hrq : r = q
    · subst hrq
      simp [setEntry, wakeOne, hr]
    · simpa [setEntry, hrq] using hr
  · exact fun r hr => readers_holder hI hp r (waits_woken hq hr).1
  · exact fun r hr => writers_holder hI hp r (waits_woken hq hr).1

theorem inv_wakeVisit (hI : Inv s) (hp : s.lock = some p) {s' : Sys}
    (h : wakeVisit s p chan q c = some s') (hc : holds c = true)
    (hread : ∀ r, WakesReader (s.point p) r → (r = q ∧ chan = nreadChan s.base) ∨ WakesReader c r)
    (hwrite : ∀ r, WakesWriter (s.point p) r → (r = q ∧ chan = nwriteChan s.base) ∨ WakesWriter c r)
    (hknows : Knows c s.pipe) : Inv s' := by
  unfold wakeVisit at h
  split_ifs at h with hqp hown
  · obtain rfl := Option.some.inj h
    subst hqp
    refine inv_setPoint hI hp c hc ?_ ?_ hknows
    · intro r hw hr
      rcases hread r hr with ⟨rfl,_⟩ | hr
      · exact absurd hw (holder_awake hI hp _)
      · exact Or.inr hr
    · intro r hw hr
      rcases hwrite r hr with ⟨rfl,_⟩ | hr
      · exact absurd hw (holder_awake hI hp _)
      · exact Or.inr hr
  · obtain rfl := Option.some.inj h
    have hown' : ownLock (s.point q) = false := by simpa using hown
    refine inv_setPoint (inv_wake hI hp hqp hown') hp c hc ?_ ?_ hknows
    · intro r hw hr
      rcases hread r hr with hr | hr
      · exact absurd hr (waits_woken hown' hw).2
      · exact Or.inr hr
    · intro r hw hr
      rcases hwrite r hr with hr | hr
      · exact absurd hr (waits_woken hown' hw).2
      · exact Or.inr hr

theorem inv_leave (hI : Inv s) (hp : s.lock = some p) (result : ℤ)
    (hread : ∀ q, Waits s (nreadChan s.base) q → ¬ WakesReader (s.point p) q)
    (hwrite : ∀ q, Waits s (nwriteChan s.base) q → ¬ WakesWriter (s.point p) q) :
    Inv (leave s p result) := by
  have hself : holds (s.point p) = true := (hI.lock p).mpr hp
  have hback : ∀ chan q, Waits (leave s p result) chan q → Waits s chan q := by
    intro chan q hq
    by_cases hqp : q = p
    · subst hqp
      simp [Waits, leave, setPoint, dozesOn, hI.running q (Or.inl hself)] at hq
    · simpa [Waits, leave, setPoint, hqp] using hq
  refine inv_holder hI hp _ .user rfl rfl rfl (fun _ h => h) ?_ ?_ trivial
  · intro q hq
    exact (readers_holder hI hp q (hback _ q hq)).imp_right
      (fun h => absurd h (hread q (hback _ q hq)))
  · intro q hq
    exact (writers_holder hI hp q (hback _ q hq)).imp_right
      (fun h => absurd h (hwrite q (hback _ q hq)))

end

end GreenOS.PipeSleepers
