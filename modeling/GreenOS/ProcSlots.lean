import GreenOS.ProcLifecycle

/-!
# Free slots of the process table

An UNUSED slot should be indistinguishable from one that was never used. The
files of a slot are not cleared by `freeproc` but by the closing loop of
`kexit`, so the invariant follows a process through that loop; and a slot that
`kfork` has claimed stays USED until its own forker starts it.
-/

namespace GreenOS.ProcSlots
open ProcTable ProcLifecycle

def NoFiles (x : Proc) : Prop := ∀ fd, x.ofile fd = none

structure Clean (x : Proc) : Prop where
  pid : x.pid = 0
  parent : x.parent = none
  killed : x.killed = 0
  chan : x.chan = none
  xstate : x.xstate = 0
  sz : x.sz = 0
  pagetable : x.pagetable = none
  trapframe : x.trapframe = none
  ofile : NoFiles x

/-- What the point reached in `kexit` says about the files still open. -/
def Closed : Code → Proc → Prop
  | .exitClose _ n, x => ∀ fd : Fin nofile, fd.val < n → x.ofile fd = none
  | .exitEnter _, x => NoFiles x
  | .exitReparent _ _, x => NoFiles x
  | .exitWakeInit _ _ _, x => NoFiles x
  | .exitWakeParent _ _, x => NoFiles x
  | .exitZombie _, x => NoFiles x
  | .slept resume, x => Closed resume x
  | _, _ => True

def Creates : Code → Slot → Prop
  | .forkParent np, i => np = i
  | .forkStart np, i => np = i
  | .slept resume, i => Creates resume i
  | _, _ => False

structure Inv (t : Table) (code : Slot → Code) : Prop where
  clean : ∀ i, (t i).state = .unused → Clean (t i)
  zombie : ∀ i, (t i).state = .zombie → NoFiles (t i)
  closed : ∀ p, Closed (code p) (t p)
  used : ∀ p np, Creates (code p) np → (t np).state = .used
  alone : ∀ p q np, Creates (code p) np → Creates (code q) np → p = q

theorem closed_congr (c : Code) (x y : Proc) (h : y.ofile = x.ofile) (hc : Closed c x) :
    Closed c y := by
  induction c with
  | slept resume ih => exact ih hc
  | _ => simp_all [Closed, NoFiles]

theorem closed_empty (c : Code) (x : Proc) (h : NoFiles x) : Closed c x := by
  induction c with
  | slept resume ih => exact ih
  | exitClose status n => exact fun fd _ => h fd
  | _ => first | exact h | trivial

section
variable {t : Table} {code : Slot → Code}

theorem inv_setProc (hI : Inv t code) (i : Slot) (x : Proc)
    (hclean : x.state = .unused → Clean x) (hzombie : x.state = .zombie → NoFiles x)
    (hclosed : Closed (code i) x) (hused : ∀ q, Creates (code q) i → x.state = .used) :
    Inv (setProc t i x) code := by
  refine ⟨?_,?_,?_,?_,hI.alone⟩
  · intro j hj
    by_cases hji : j = i
    · subst hji
      rw [setProc_same] at hj ⊢
      exact hclean hj
    · rw [setProc_ne _ _ hji] at hj ⊢
      exact hI.clean j hj
  · intro j hj
    by_cases hji : j = i
    · subst hji
      rw [setProc_same] at hj ⊢
      exact hzombie hj
    · rw [setProc_ne _ _ hji] at hj ⊢
      exact hI.zombie j hj
  · intro p
    by_cases hp : p = i
    · subst hp
      rw [setProc_same]
      exact hclosed
    · rw [setProc_ne _ _ hp]
      exact hI.closed p
  · intro p np hnp
    by_cases hn : np = i
    · subst hn
      rw [setProc_same]
      exact hused p hnp
    · rw [setProc_ne _ _ hn]
      exact hI.used p np hnp

theorem inv_mild (hI : Inv t code) (i : Slot) (x : Proc) (hofile : x.ofile = (t i).ofile)
    (hstate : x.state ≠ .unused) (hdead : x.state = .zombie → (t i).state = .zombie)
    (hused : (t i).state = .used → x.state = .used) : Inv (setProc t i x) code := by
  refine inv_setProc hI i x (fun h => absurd h hstate) ?_ ?_ (fun q hq => hused (hI.used q i hq))
  · intro h fd
    rw [hofile]
    exact hI.zombie i (hdead h) fd
  · exact closed_congr _ _ _ hofile (hI.closed i)

theorem inv_code (hI : Inv t code) (p : Slot) (c : Code) (hclosed : Closed c (t p))
    (hused : ∀ np, Creates c np → (t np).state = .used)
    (halone : ∀ q np, Creates c np → Creates (code q) np → q = p) :
    Inv t (Function.update code p c) := by
  refine ⟨hI.clean,hI.zombie,?_,?_,?_⟩
  · intro q
    by_cases hq : q = p
    · subst hq
      simpa using hclosed
    · simpa [hq] using hI.closed q
  · intro q np hnp
    by_cases hq : q = p
    · subst hq
      exact hused np (by simpa using hnp)
    · exact hI.used q np (by simpa [hq] using hnp)
  · intro q r np hq hr
    by_cases hqp : q = p <;> by_cases hrp : r = p
    · rw [hqp,hrp]
    · subst hqp
      exact (halone r np (by simpa using hq) (by simpa [hrp] using hr)).symm
    · subst hrp
      exact halone q np (by simpa using hr) (by simpa [hqp] using hq)
    · exact hI.alone q r np (by simpa [hqp] using hq) (by simpa [hrp] using hr)

theorem inv_plain (hI : Inv t code) (p : Slot) (c : Code) (hclosed : Closed c (t p))
    (hplain : ∀ np, ¬ Creates c np) : Inv t (Function.update code p c) :=
  inv_code hI p c hclosed (fun np h => absurd h (hplain np)) (fun _ np h => absurd h (hplain np))

end

theorem freeproc_clean (x : Proc) (h : NoFiles x) : Clean (freeproc x) := by
  constructor <;> first | rfl | exact h

theorem allocproc_fresh (x : Proc) (pid : ℤ) (trapframe pagetable : Option ℕ) (hx : Clean x) :
    ((allocproc x pid trapframe pagetable).2 = false →
      Clean (allocproc x pid trapframe pagetable).1 ∧
      (allocproc x pid trapframe pagetable).1.state = .unused) ∧
    ((allocproc x pid trapframe pagetable).2 = true →
      (allocproc x pid trapframe pagetable).1.state = .used ∧
      (allocproc x pid trapframe pagetable).1.killed = 0 ∧
      NoFiles (allocproc x pid trapframe pagetable).1) := by
  unfold allocproc
  dsimp only
  split_ifs
  · exact ⟨fun _ => ⟨freeproc_clean _ hx.ofile,rfl⟩,by simp⟩
  · exact ⟨fun _ => ⟨freeproc_clean _ hx.ofile,rfl⟩,by simp⟩
  · exact ⟨by simp,fun _ => ⟨rfl,hx.killed,hx.ofile⟩⟩

@[simp] theorem setSlot_table (s : Sys) (i : Slot) (x : Proc) :
    (setSlot s i x).table = setProc s.table i x := rfl

@[simp] theorem setSlot_code (s : Sys) (i : Slot) (x : Proc) : (setSlot s i x).code = s.code := rfl

@[simp] theorem setCode_table (s : Sys) (p : Slot) (c : Code) :
    (setCode s p c).table = s.table := rfl

@[simp] theorem setCode_code (s : Sys) (p : Slot) (c : Code) :
    (setCode s p c).code = Function.update s.code p c := rfl

theorem user_plain (np : Slot) : ¬ Creates .user np := by simp [Creates]

def SysInv (s : Sys) : Prop := Inv s.table s.code

section
variable {s : Sys} {p : Slot}

theorem inv_user (hI : SysInv s) : SysInv (setCode s p .user) :=
  inv_plain hI p .user trivial user_plain

theorem inv_claim (hI : SysInv s) (np : Slot) (q : Proc)
    (hnp : (s.table np).state = .unused) (hq : q.state = .used) :
    SysInv (setCode (setCode (setSlot s np q) np .user) p (.forkParent np)) := by
  have hfree : ∀ r, ¬ Creates (s.code r) np := by
    intro r hr
    have := hI.used r np hr
    rw [hnp] at this
    cases this
  have h₁ : Inv s.table (Function.update s.code np .user) :=
    inv_plain hI np .user trivial user_plain
  have h₂ : Inv (setProc s.table np q) (Function.update s.code np .user) := by
    refine inv_setProc h₁ np q ?_ ?_ (by simp [Closed]) (fun _ _ => hq)
    · simp [hq]
    · simp [hq]
  refine inv_code h₂ p (.forkParent np) trivial ?_ ?_
  · intro i hi
    obtain rfl : np = i := hi
    simpa using hq
  · intro r i hi hr
    obtain rfl : np = i := hi
    by_cases hrn : r = np
    · subst hrn
      simp [Creates] at hr
    · exact absurd (by simpa [hrn] using hr) (hfree r)

theorem inv_fork (hI : SysInv s) (a : Answer) (i : ℕ) : SysInv (forkStep s p a i) := by
  unfold forkStep
  split
  · exact inv_user hI
  · rename_i np _
    split_ifs with hnp
    · have hfresh := allocproc_fresh (s.table np) s.nextpid a.trapframe a.pagetable
        (hI.clean np hnp)
      generalize allocproc (s.table np) s.nextpid a.trapframe a.pagetable = r at hfresh
      obtain ⟨q,found⟩ := r
      have hback : ∀ x : Proc, Clean x → ∀ k,
          SysInv (setCode (setSlot { s with nextpid := k } np x) p .user) := by
        intro x hx k
        refine inv_user (p := p) (s := setSlot { s with nextpid := k } np x) ?_
        refine inv_setProc hI np x (fun _ => hx) (fun _ => hx.ofile)
          (closed_empty _ _ hx.ofile) ?_
        intro r hr
        have := hI.used r np hr
        simp [hnp] at this
      cases found with
      | false => exact hback q (hfresh.1 rfl).1 _
      | true =>
        obtain ⟨hst,_,hof⟩ := hfresh.2 rfl
        cases hc : a.copied with
        | false => exact hback (freeproc q) (freeproc_clean q hof) _
        | true =>
          exact inv_claim (s := { s with nextpid := int32 (s.nextpid+1) }) hI np _ hnp
            (by simpa [forkCopy] using hst)
    · exact inv_plain hI p _ trivial (by simp [Creates])

theorem inv_own (hI : SysInv s) (hp : (s.table p).state = .running) (x : Proc) (c : Code)
    (hx : x.state ≠ .unused) (hz : x.state = .zombie → NoFiles x) (hc : Closed c x)
    (hplain : ∀ np, ¬ Creates c np) : SysInv (setCode (setSlot s p x) p c) := by
  have h₁ : Inv s.table (Function.update s.code p .user) :=
    inv_plain hI p .user trivial user_plain
  have h₂ : Inv (setProc s.table p x) (Function.update s.code p .user) := by
    refine inv_setProc h₁ p x (fun h => absurd h hx) hz (by simp [Closed]) ?_
    intro q hq
    have := h₁.used q p hq
    simp [hp] at this
  have h₃ := inv_plain h₂ p c (by simpa using hc) hplain
  simpa [SysInv] using h₃

theorem inv_close (hI : SysInv s) (status : ℤ) (fd : ℕ) (hp : (s.table p).state = .running)
    (hc : s.code p = .exitClose status fd) : SysInv (closeStep s p status fd) := by
  have hfiles : ∀ k : Fin nofile, k.val < fd → (s.table p).ofile k = none := by
    have := hI.closed p
    rwa [hc] at this
  unfold closeStep
  split_ifs with h
  · refine inv_own hI hp _ _ (by simp [hp]) (by simp [hp]) ?_ (by simp [Creates])
    intro k hk
    by_cases hkf : k = ⟨fd,h⟩
    · simp [hkf]
    · have hlt : k.val < fd := by
        have : k.val ≠ fd := fun he => hkf (Fin.ext he)
        omega
      simpa [hkf] using hfiles k hlt
  · refine inv_own hI hp _ _ (by simp [hp]) (by simp [hp]) ?_ (by simp [Creates])
    intro k
    exact hfiles k (by omega)

theorem inv_reparent (hI : SysInv s) (status : ℤ) (i : ℕ)
    (hc : s.code p = .exitReparent status i) : SysInv (reparentStep s p status i) := by
  have hfiles : NoFiles (s.table p) := by simpa [hc, Closed] using hI.closed p
  unfold reparentStep
  split
  · exact inv_plain hI p _ hfiles (by simp [Creates])
  · rename_i pp _
    split_ifs with hpar
    · have hlive : (s.table pp).state ≠ .unused := by
        intro h
        simp [(hI.clean pp h).parent] at hpar
      have h₁ : SysInv (setSlot s pp { s.table pp with parent := some s.initproc }) :=
        inv_mild hI pp _ rfl hlive id id
      have hfiles' := h₁.closed p
      rw [setSlot_code, hc] at hfiles'
      exact inv_plain h₁ p _ hfiles' (by simp [Creates])
    · exact inv_plain hI p _ hfiles (by simp [Creates])

theorem inv_wake (hI : SysInv s) (i : Slot) (chan : Option Chan) :
    SysInv (setSlot s i (wakeOne chan (s.table i))) := by
  unfold wakeOne
  split_ifs with h
  · exact inv_mild hI i _ rfl (by simp) (by simp) (by simp [h.1])
  · simpa [SysInv, setProc] using hI

theorem inv_wakeStep (hI : SysInv s) (chan : Option Chan) (i : ℕ) (again done : Code)
    (hagain : ∀ x, Closed (s.code p) x → Closed again x)
    (hdone : ∀ x, Closed (s.code p) x → Closed done x)
    (hplain : ∀ np, ¬ Creates again np ∧ ¬ Creates done np) :
    SysInv (wakeStep s p chan i again done) := by
  unfold wakeStep
  split
  · exact inv_plain hI p done (hdone _ (hI.closed p)) (fun np => (hplain np).2)
  · rename_i q _
    have h₁ : SysInv (wakeVisit s p chan q) := by
      unfold wakeVisit
      split_ifs
      · exact hI
      · exact inv_wake hI q chan
    have hcode : (wakeVisit s p chan q).code = s.code := by
      unfold wakeVisit
      split_ifs <;> rfl
    refine inv_plain h₁ p again (hagain _ ?_) (fun np => (hplain np).1)
    rw [← hcode]
    exact h₁.closed p

theorem inv_wait (hI : SysInv s) (a : Answer) (addr : ℕ) (havekids : Bool) (i : ℕ) :
    SysInv (waitStep s p a addr havekids i) := by
  unfold waitStep
  split
  · split_ifs
    · exact inv_user hI
    · exact inv_plain hI p _ trivial (by simp [Creates])
  · rename_i pp _
    split_ifs with hpar hz
    · exact inv_user hI
    · have hclean := freeproc_clean (s.table pp) (hI.zombie pp hz)
      refine inv_user (s := setSlot s pp (freeproc (s.table pp))) ?_
      refine inv_setProc hI pp _ (fun _ => hclean) (fun _ => hclean.ofile)
        (closed_empty _ _ hclean.ofile) ?_
      intro q hq
      have := hI.used q pp hq
      simp [hz] at this
    · exact inv_plain hI p _ trivial (by simp [Creates])
    · exact inv_plain hI p _ trivial (by simp [Creates])

theorem inv_kill (hI : SysInv s) (pid : ℤ) (i : ℕ)
    (hok : ∀ q, slot? i = some q → (s.table q).pid = pid → (s.table q).state ≠ .unused) :
    SysInv (killStep s p pid i) := by
  unfold killStep
  split
  · exact inv_user hI
  · rename_i q hq
    split_ifs with hpid
    · refine inv_user (s := setSlot s q (killOne (s.table q))) ?_
      refine inv_mild hI q _ rfl ?_ ?_ ?_
      · have := hok q hq hpid
        simp only [killOne]
        split_ifs <;> simp [this]
      · simp only [killOne]
        split_ifs <;> simp
      · intro h
        simp [killOne, h]
    · exact inv_plain hI p _ trivial (by simp [Creates])

end

end GreenOS.ProcSlots
