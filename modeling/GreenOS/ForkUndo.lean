import GreenOS.SpaceRuns
import GreenOS.ProcTable

/-!
# A fork copies exactly or leaves no trace

`kfork` over whole process records, with the reference counts of files and
inodes. Its memory part is the one of the address spaces.
-/

namespace GreenOS.ForkUndo
open PageTable PageTree PageMap UserMemory PageOwners PageMoves UserGrowth UserCopies
open AddressSpaces ProcessSpace OptionTable SpaceSteps SpaceRuns StepRun
open ProcTable (ProcState Chan int32)
open Function (update update_of_ne)

structure Process where
  state : ProcState
  chan : Option Chan
  killed : ℤ
  xstate : ℤ
  pid : ℤ
  parent : Option Slot
  sz : Word
  pagetable : Option Word
  trapframe : Option Word
  ofile : Fin 16 → Option (Fin 100)
  cwd : Option (Fin 50)
  name : List UInt8
  cpuTicks : ℤ
  sleepCount : ℤ
  wakeCount : ℤ
  energyScore : ℤ
  energyPriority : ℤ
  powerMode : ℤ
  energyBudget : ℤ
  energyUsed : ℤ

/-- What `kfork` reads and writes; `fileRef` and `inodeRef` are the counts of `ftable` and
`itable`. -/
structure World where
  vm : Vm
  procs : Slot → Process
  pipes : List Pipe
  fileRef : Fin 100 → ℕ
  inodeRef : Fin 50 → ℕ
  nextpid : ℤ

def life : ProcState → Life
  | .unused => .unused
  | .zombie => .zombie
  | _ => .live

def Process.mem (pr : Process) : Proc := ⟨life pr.state,pr.pagetable,pr.trapframe,pr.sz,pr.parent⟩

def World.sys (w : World) : Sys := ⟨w.vm,fun q => (w.procs q).mem,w.pipes⟩

def set (p : Slot) (pr : Process) (w : World) : World := { w with procs := update w.procs p pr }

section Model
variable (kend text : Word)

def freeproc (p : Slot) (w : World) : Except String World := do
  let s ← freeTrapframe kend (w.procs p).trapframe w.vm
  let s ← freePagetable kend (w.procs p).pagetable (w.procs p).sz s
  .ok (set p { w.procs p with
    trapframe := none, pagetable := none, sz := 0, pid := 0, parent := none, name :=
      [], chan := none,
    killed := 0, xstate := 0, state := .unused } { w with vm := s })

def allocproc (w : World) : Except String (Option Slot × World) :=
  match (List.finRange 64).find? (fun p => (w.procs p).state = .unused) with
  | none => .ok (none,w)
  | some p =>
    let pr := { w.procs p with pid := w.nextpid, state := .used }
    let w := { w with nextpid := int32 (w.nextpid+1) }
    match kalloc w.vm with
    | (none,s) => do
      let w ← freeproc kend p (set p { pr with trapframe := none } { w with vm := s })
      .ok (none,w)
    | (some frame,s) => do
      let (root,s) ← procPagetable kend text frame s
      match root with
      | none => do
        let w ← freeproc kend p
          (set p { pr with trapframe := some frame, pagetable := none } { w with vm := s })
        .ok (none,w)
      | some root =>
        .ok (some p,set p { pr with
          trapframe := some frame, pagetable := some root, cpuTicks := 0, sleepCount :=
            0, wakeCount := 0,
          energyScore := 0, energyPriority := 0, powerMode := 1, energyBudget :=
            0, energyUsed := 0 }
          { w with vm := s })

/-- The saved registers, 36 words, with `a0`, the fifteenth, set to 0. -/
def copyTrapframe (src dst : Word) (s : Vm) : Vm :=
  store dst (fun i => if i = 14 then 0#64 else if i.toNat < 36 then s.mem src i else s.mem dst i) s

def filedup (f : Fin 100) (ref : Fin 100 → ℕ) : Except String (Fin 100 → ℕ) :=
  if ref f < 1 then .error "filedup" else .ok (update ref f (ref f+1))

def dupFiles (ofile : Fin 16 → Option (Fin 100)) :
    List (Fin 16) → (Fin 16 → Option (Fin 100)) → (Fin 100 → ℕ) →
      Except String ((Fin 16 → Option (Fin 100)) × (Fin 100 → ℕ))
  | [], new, ref => .ok (new,ref)
  | i::is, new, ref =>
    match ofile i with
    | none => dupFiles ofile is new ref
    | some f => do
      let ref ← filedup f ref
      dupFiles ofile is (update new i (some f)) ref

def forkRest (p np : Slot) (w : World) : Except String (ℤ × World) :=
  match (w.procs p).trapframe, (w.procs np).trapframe, (w.procs p).cwd with
  | some src, some dst, some cwd => do
    let (ofile,ref) ← dupFiles (w.procs p).ofile (List.finRange 16) (w.procs np).ofile w.fileRef
    .ok ((w.procs np).pid,set np { w.procs np with
      sz := (w.procs p).sz, ofile := ofile, cwd := some cwd, name := (w.procs p).name.take 15,
      parent := some p, state := .runnable }
      { w with
        vm := copyTrapframe src dst w.vm
        fileRef := ref
        inodeRef := update w.inodeRef cwd (w.inodeRef cwd+1) })
  | _, _, _ => .error "null pointer"

def kfork (p : Slot) (w : World) : Except String (ℤ × World) := do
  let (np,w) ← allocproc kend text w
  match np with
  | none => .ok (-1,w)
  | some np =>
    match (w.procs p).pagetable, (w.procs np).pagetable with
    | some old, some new => do
      let (r,s) ← uvmcopy kend old new (w.procs p).sz w.vm
      if r < 0 then do
        let w ← freeproc kend np { w with vm := s }
        .ok (-1,w)
      else forkRest p np { w with vm := s }
    | _, _ => .error "null pointer"

end Model

variable {kend text : Word} {all : Set Word} {w w' : World} {p q : Slot}

section Memory

theorem life_unused {st : ProcState} : life st = .unused ↔ st = .unused := by
  cases st <;> simp [life]

theorem sys_set (p : Slot) (pr : Process) (w : World) : (set p pr w).sys =
    setProc p pr.mem w.sys := by
  have hprocs : (fun q => (update w.procs p pr q).mem) =
      update (fun q => (w.procs q).mem) p pr.mem := by
    funext q
    by_cases hq : q = p
    · subst hq
      simp
    · simp [hq]
  simp only [World.sys, set, setProc, hprocs]

theorem freeproc_sys (p : Slot) (w : World) :
    (freeproc kend p w).map World.sys = AddressSpaces.freeproc kend p w.sys := by
  unfold freeproc AddressSpaces.freeproc
  change _ = (freeTrapframe kend (w.procs p).trapframe w.vm >>= fun s =>
    freePagetable kend (w.procs p).pagetable (w.procs p).sz s >>= fun s => _)
  cases freeTrapframe kend (w.procs p).trapframe w.vm with
  | error e => rfl
  | ok s =>
    simp only [bind, Except.bind]
    cases freePagetable kend (w.procs p).pagetable (w.procs p).sz s with
    | error e => rfl
    | ok s =>
      simp only [Except.map, sys_set]
      rfl

theorem freeproc_of_sys {t : Sys} (hok : AddressSpaces.freeproc kend p w.sys = .ok t) :
    ∃ w', freeproc kend p w = .ok w' ∧ w'.sys = t := by
  rw [← freeproc_sys] at hok
  cases hfree : freeproc kend p w with
  | error e =>
    rw [hfree] at hok
    cases hok
  | ok w' =>
    rw [hfree] at hok
    cases hok
    exact ⟨w',rfl,rfl⟩

theorem freeproc_none (p : Slot) (w : World) :
    (freeproc kend p w >>= fun w => Except.ok ((none : Option Slot),w)).map (fun x =>
      (x.1,x.2.sys)) =
      (AddressSpaces.freeproc kend p w.sys >>= fun t => Except.ok (none,t)) := by
  rw [← freeproc_sys]
  cases freeproc kend p w <;> rfl

theorem allocproc_sys (w : World) : (allocproc kend text w).map (fun x => (x.1,x.2.sys)) =
    AddressSpaces.allocproc kend text w.sys := by
  have hpred : (fun p => decide ((w.sys.procs p).life = .unused)) =
      fun p => decide ((w.procs p).state = .unused) := by
    funext p
    exact decide_eq_decide.mpr life_unused
  unfold allocproc AddressSpaces.allocproc
  rw [hpred]
  cases (List.finRange 64).find? (fun p => decide ((w.procs p).state = .unused)) with
  | none => rfl
  | some p =>
    dsimp only [World.sys]
    rcases kalloc w.vm with ⟨_ | frame,s₁⟩
    · refine (freeproc_none p _).trans ?_
      rw [sys_set]
      rfl
    · dsimp only
      cases procPagetable kend text frame s₁ with
      | error e => rfl
      | ok x =>
        obtain ⟨_ | root,s₂⟩ := x
        · refine (freeproc_none p _).trans ?_
          rw [sys_set]
          rfl
        · exact congrArg (fun t => Except.ok (some p,t)) (sys_set p _ _)

theorem allocproc_of_sys {np : Option Slot} {t : Sys}
    (hok : AddressSpaces.allocproc kend text w.sys = .ok (np,t)) :
    ∃ w', allocproc kend text w = .ok (np,w') ∧ w'.sys = t := by
  rw [← allocproc_sys] at hok
  cases halloc : allocproc kend text w with
  | error e =>
    rw [halloc] at hok
    cases hok
  | ok x =>
    rw [halloc] at hok
    obtain ⟨np',w'⟩ := x
    cases hok
    exact ⟨w',rfl,rfl⟩

end Memory

section Records

theorem freeproc_records (hok : freeproc kend p w = .ok w') :
    (w'.procs p).state = .unused ∧ (∀ q, q ≠ p → w'.procs q = w.procs q) ∧ w'.fileRef = w.fileRef ∧
      w'.inodeRef = w.inodeRef ∧ w'.pipes = w.pipes := by
  unfold freeproc at hok
  simp only [bind, Except.bind] at hok
  split at hok
  · cases hok
  split at hok
  · cases hok
  cases hok
  exact ⟨by simp [set],fun q hq => update_of_ne hq ..,rfl,rfl,rfl⟩

structure Intact (w w' : World) : Prop where
  used : ∀ q, (w.procs q).state ≠ .unused → w'.procs q = w.procs q
  unused : ∀ q, (w.procs q).state = .unused → (w'.procs q).state = .unused
  files : w'.fileRef = w.fileRef
  inodes : w'.inodeRef = w.inodeRef
  pipes : w'.pipes = w.pipes

theorem Intact.refl (w : World) : Intact w w := ⟨fun _ _ => rfl,fun _ h => h,rfl,rfl,rfl⟩

theorem intact_of_free {w₁ : World} (hok : freeproc kend p w₁ = .ok w')
    (hp : (w.procs p).state = .unused)
    (hothers : ∀ q, q ≠ p → w₁.procs q = w.procs q) (hfiles : w₁.fileRef = w.fileRef)
    (hinodes : w₁.inodeRef = w.inodeRef) (hpipes : w₁.pipes = w.pipes) : Intact w w' := by
  obtain ⟨hstate,hrest,hfiles',hinodes',hpipes'⟩ := freeproc_records hok
  refine ⟨?_,?_,hfiles'.trans hfiles,hinodes'.trans hinodes,hpipes'.trans hpipes⟩
  · intro q hq
    have hne : q ≠ p := by
      rintro rfl
      exact hq hp
    exact (hrest q hne).trans (hothers q hne)
  · intro q hq
    by_cases hne : q = p
    · rw [hne]
      exact hstate
    · rw [hrest q hne, hothers q hne]
      exact hq

theorem allocproc_records {np : Option Slot} (hok : allocproc kend text w = .ok (np,w')) :
    (np = none → Intact w w') ∧
    ∀ q, np = some q → (w.procs q).state = .unused ∧ (w'.procs q).pid = w.nextpid ∧
      (∀ r, r ≠ q → w'.procs r = w.procs r) ∧ w'.fileRef = w.fileRef ∧ w'.inodeRef = w.inodeRef ∧
      w'.pipes = w.pipes := by
  unfold allocproc at hok
  cases hfind : (List.finRange 64).find? (fun p => decide ((w.procs p).state = .unused)) with
  | none =>
    rw [hfind] at hok
    cases hok
    exact ⟨fun _ => Intact.refl _,fun q hq => (nomatch hq)⟩
  | some p =>
    rw [hfind] at hok
    dsimp only at hok
    have hp : (w.procs p).state = .unused := by simpa using List.find?_some hfind
    have hfreed : ∀ {pr : Process} {s : Vm},
        (freeproc kend p (set p pr { w with nextpid := int32 (w.nextpid+1), vm := s }) >>=
          fun w => Except.ok ((none : Option Slot),w)) = .ok (np,w') → np = none ∧ Intact w w' := by
      intro pr s hfree
      cases hw : freeproc kend p (set p pr { w with nextpid := int32 (w.nextpid+1), vm := s }) with
      | error e =>
        rw [hw] at hfree
        cases hfree
      | ok w₁ =>
        rw [hw] at hfree
        cases hfree
        exact ⟨rfl,intact_of_free hw hp (fun q hq => update_of_ne hq ..) rfl rfl rfl⟩
    rcases hk : kalloc w.vm with ⟨_ | frame,s₁⟩
    · rw [hk] at hok
      obtain ⟨rfl,hintact⟩ := hfreed hok
      exact ⟨fun _ => hintact,fun q hq => (nomatch hq)⟩
    rw [hk] at hok
    dsimp only at hok
    cases hpt : procPagetable kend text frame s₁ with
    | error e =>
      rw [hpt] at hok
      cases hok
    | ok x =>
      obtain ⟨_ | root,s₂⟩ := x
      · rw [hpt] at hok
        obtain ⟨rfl,hintact⟩ := hfreed hok
        exact ⟨fun _ => hintact,fun q hq => (nomatch hq)⟩
      · rw [hpt] at hok
        cases hok
        refine ⟨fun hnp => (nomatch hnp),?_⟩
        intro q hq
        cases hq
        exact ⟨hp,by simp [set],fun r hr => update_of_ne hr ..,rfl,rfl,rfl⟩

end Records

section Copies
variable {s s' : Vm} {roots hand : List Word} {root old new sz va pte : Word}

theorem flags_valid (hv : valid pte = true) : pteFlags pte|||pteV = pteFlags pte := by
  rw [valid_eq] at hv
  apply BitVec.eq_of_getLsbD_eq
  intro j hj
  rw [BitVec.getLsbD_or]
  by_cases hzero : j = 0
  · subst hzero
    rw [pteFlags, BitVec.getLsbD_and, hv]
    decide
  · have hoff : pteV.getLsbD j = false :=
      Nat.testBit_lt_two_pow ((by decide : pteV.toNat < 2^1).trans_le
        (Nat.pow_le_pow_right (by decide) (by omega)))
    rw [hoff, Bool.or_false]

theorem mappages_remap (pa perm : Word) (h : WellFormed s root) (hva : IsVa va)
    (hpte : translate s root va = some pte) :
    mappages root va pgsize pa perm s = .error "mappages: remap" := by
  obtain ⟨s₁,hwalk,-,htrans⟩ := walk_alloc h hva.2
  have hpte₁ := (htrans va).trans hpte
  rcases mappages_walk pa perm hva hwalk with ⟨hl,-⟩ | ⟨-,hok⟩ | ⟨-,-,-,hnone,-⟩
  · simp [PageTable.translate, hl] at hpte₁
  · exact hok
  · cases hpte₁.symm.trans hnone

theorem uvmcopyLoop_split {bound i : Word} (n k : ℕ) (hi : i.toNat+n*4096 = bound.toNat)
    (hbound : bound.toNat ≤ 2^38) (hle : bound.toNat ≤ sz.toNat) :
    uvmcopyLoop kend old new sz (n+k) i s = (uvmcopyLoop kend old new bound n i s >>= fun x =>
      if x.1 = 0 then uvmcopyLoop kend old new sz k bound x.2 else .ok x) := by
  induction n generalizing i s with
  | zero =>
    obtain rfl : i = bound := BitVec.eq_of_toNat_eq (by omega)
    simp [uvmcopyLoop, bind, Except.bind]
  | succ n ih =>
    have hnext : (i+pgsize).toNat+n*4096 = bound.toNat := by
      rw [toNat_next (by omega)]
      omega
    rw [Nat.add_right_comm, uvmcopyLoop, uvmcopyLoop, if_pos (BitVec.lt_def.mpr (by omega)),
      if_pos (BitVec.lt_def.mpr (by omega))]
    cases walk old i false s with
    | error e => rfl
    | ok x =>
      obtain ⟨_ | ⟨t,j⟩,s₁⟩ := x
      · exact ih hnext
      simp only [bind, Except.bind]
      by_cases hv : valid (s₁.mem t j) = true
      · simp only [hv, not_true_eq_false, if_false]
        rcases kalloc s₁ with ⟨_ | mem,s₂⟩
        · dsimp only
          cases uvmunmap kend new 0#64 (i/pgsize) true s₂ <;> rfl
        · dsimp only
          cases mappages new i pgsize mem (pteFlags (s₁.mem t j))
            (store mem (s₂.mem (pte2pa (s₁.mem t j))) s₂) with
          | error e => rfl
          | ok y =>
            obtain ⟨r,s₃⟩ := y
            by_cases hr : r = 0
            · simp only [hr, ne_eq, not_true_eq_false, if_false]
              exact ih hnext
            · simp only [hr, ne_eq, not_false_eq_true, if_true]
              cases kfree kend mem s₃ with
              | error e => rfl
              | ok s₄ =>
                dsimp only
                cases uvmunmap kend new 0#64 (i/pgsize) true s₄ <;> rfl
      · simp only [hv]
        exact ih hnext

theorem uvmcopyLoop_taken {pte' : Word} (n : ℕ) (h : Kept kend all s roots hand)
    (hnew : new ∈ roots)
    (hva : IsVa va) (hlt : va < sz) (hpte : translate s old va = some pte)
    (hpte' : translate s new va = some pte') :
    uvmcopyLoop kend old new sz (n+1) va s ≠ .ok (0,s') := by
  obtain ⟨t,ht,rfl,hv⟩ := translate_eq_some.mp hpte
  have hl : lookup s old va = some (t,px 0 va) := lookup_eq.mpr ⟨ht,rfl⟩
  rw [uvmcopyLoop, if_pos hlt, walk_look hva.2, hl]
  simp only [bind, Except.bind, hv, not_true_eq_false, if_false]
  rcases hk : kalloc s with ⟨_ | mem,s₁⟩
  · dsimp only
    cases uvmunmap kend new 0#64 (va/pgsize) true s₁ with
    | error e =>
      intro hok
      cases hok
    | ok s₂ =>
      intro hok
      cases hok
  · obtain ⟨hkept₁,htrans₁⟩ := h.kalloc_some hk
    obtain ⟨hkept₂,htrans₂⟩ := hkept₁.store mem
      (fun r p => hkept₁.apart mem (by simp) (.table r p)) (s₁.mem (pte2pa (s.mem t (px 0 va))))
    have hpte₂ := (htrans₂ new hnew va).trans ((htrans₁ new hnew va).trans hpte')
    dsimp only
    rw [mappages_remap _ _ (hkept₂.wellFormed hnew) hva hpte₂]
    intro hok
    cases hok

theorem uvmcopy_high {pte' : Word} (h : Kept kend all s roots hand) (hold : old ∈ roots)
    (hnew : new ∈ roots)
    (hframe : translate s old trapframe = some pte)
    (hframe' : translate s new trapframe = some pte')
    (hends : Ends s new 0) (hsz : 2^38-8192 < sz.toNat) : uvmcopy kend old new sz s ≠
      .ok (0,s') := by
  have htop := toNat_trapframe
  have hzero : BitVec.toNat (0 : Word) = 0 := rfl
  -- the number of pages below the trapframe
  obtain ⟨n,hn⟩ : ∃ n, n*4096 = trapframe.toNat := ⟨2^26-2,by omega⟩
  have hfuel : (sz/pgsize).toNat+1 = n+((sz/pgsize).toNat-n+1) := by
    rw [BitVec.toNat_udiv, toNat_pgsize]
    omega
  have hends₀ : Ends s new (BitVec.toNat (0 : Word)) := hends
  rw [uvmcopy, hfuel, uvmcopyLoop_split _ _
    (show BitVec.toNat (0 : Word)+n*4096 = trapframe.toNat by omega)
    (by omega) (by omega)]
  rcases uvmcopyLoop_exact n h hold hnew (show trapframe.toNat ≤ 2^38-8192 by omega)
    (by simp) (by simp)
      hends₀ (by omega) with ⟨s₁,hok,-⟩ | ⟨s₁,hok,hkept₁,hcopied,-⟩
  · rw [hok]
    intro hx
    cases hx
  · rw [hok]
    have hsame : ∀ r ∈ roots, translate s₁ r trapframe = translate s r trapframe := by
      intro r hr
      have hcopied := hcopied r hr trapframe isVa_trapframe
      rwa [if_neg (fun hx => absurd hx.2.2 (lt_irrefl _))] at hcopied
    exact uvmcopyLoop_taken _ hkept₁ hnew isVa_trapframe
      (BitVec.lt_def.mpr (by rw [toNat_trapframe]; omega))
      ((hsame old hold).trans hframe) ((hsame new hnew).trans hframe')

structure Duplicated (s s' : Vm) (old new sz : Word) : Prop where
  same : ∀ va pte, UserVa va → va < sz → translate s old va = some pte → ∃ pte',
    translate s' new va = some pte' ∧
    pteFlags pte' = pteFlags pte ∧ s'.mem (pte2pa pte') = s'.mem (pte2pa pte) ∧
    ∀ va₁ pte₁, IsVa va₁ → translate s' old va₁ = some pte₁ → pte2pa pte₁ ≠ pte2pa pte'
  only : ∀ va, UserVa va → sz ≤ va ∨ translate s old va = none → translate s' new va = none
  parent : ∀ va, IsVa va → translate s' old va = translate s old va ∧
    ∀ pte, translate s old va = some pte → s'.mem (pte2pa pte) = s.mem (pte2pa pte)

theorem uvmcopy_duplicated {t : Sys} (h : Inv kend all text t) (hpage : text%pgsize = 0#64)
    (htext : text < kend)
    (hne : q ≠ p) (hold : (t.procs p).pagetable = some old)
    (hnew : (t.procs q).pagetable = some new)
    (hends : Ends t.vm new 0) (hok : uvmcopy kend old new sz t.vm = .ok (0,s')) :
    Duplicated t.vm s' old new sz := by
  have hkept := h.based.kept
  have hmold := mem_tables hold
  have hmnew := mem_tables hnew
  have hdiff : old ≠ new := by
    rintro rfl
    exact hne (entries_inj h.based.nodup hnew hold)
  obtain ⟨frame,-,hspace⟩ := h.space hold
  obtain ⟨frame',-,hspace'⟩ := h.space hnew
  have hsz : sz.toNat ≤ 2^38-8192 := by
    by_contra hhigh
    exact uvmcopy_high hkept hmold hmnew hspace.frame hspace'.frame hends (not_le.mp hhigh) hok
  rcases uvmcopy_exact hkept hmold hmnew hsz hends with ⟨s₁,hok₁,-⟩ | ⟨s₁,hok₁,-,hcopied,htakes⟩
  · cases hok₁.symm.trans hok
  obtain ⟨-,rfl⟩ := Prod.mk.inj (Except.ok.inj (hok₁.symm.trans hok))
  have hparent : ∀ va, IsVa va → translate s₁ old va = translate t.vm old va := by
    intro va hva
    have hcopied := hcopied old hmold va hva
    rwa [if_neg (fun hx => hdiff hx.1)] at hcopied
  have hoff : ∀ va pte, IsVa va → translate t.vm old va = some pte → Off t.vm new (pte2pa pte) :=
    fun va pte hva hpte => mapped_off h hpage htext hmnew hold hva hpte
  refine ⟨?_,?_,fun va hva => ⟨hparent va hva,fun pte hpte => (htakes _ (hoff va pte hva hpte)).2⟩⟩
  · intro va pte huser hlt hpte
    have hcopy := hcopied new hmnew va huser.1
    rw [if_pos ⟨rfl,Nat.zero_le _,BitVec.lt_def.mp hlt⟩] at hcopy
    obtain ⟨mem,hfree,htrans,hdata⟩ := hcopy.2 pte hpte
    have hpa := pte2pa_perm (isPerm_flags pte) (hkept.pool (List.mem_append_left _ hfree))
    obtain ⟨-,-,-,hv⟩ := translate_eq_some.mp hpte
    refine ⟨_,htrans,?_,?_,?_⟩
    · rw [pteFlags_perm (isPerm_flags pte), flags_valid hv]
    · rw [hpa, hdata, (htakes _ (hoff va pte huser.1 hpte)).2]
    · intro va₁ pte₁ hva₁ hpte₁ hsame
      rw [hparent va₁ hva₁] at hpte₁
      rw [hpa] at hsame
      exact (hoff va₁ pte₁ hva₁ hpte₁).used (hsame ▸ hfree)
  · intro va huser hout
    have hcopy := hcopied new hmnew va huser.1
    split_ifs at hcopy with hx
    · rcases hout with hge | hnone
      · have := BitVec.le_def.mp hge
        omega
      · exact hcopy.1 hnone
    · exact hcopy.trans (hends va huser (Nat.zero_le _))

end Copies

section Fork

structure Undone (w w' : World) : Prop extends Intact w w' where
  free : w'.vm.free.Perm w.vm.free
  pages : ∀ a, a ∉ w.vm.free → w'.vm.mem a = w.vm.mem a

theorem undone_of_spares (h : Inv kend all text w.sys) (h' : Inv kend all text w'.sys)
    (hintact : Intact w w')
    (hspares : Spares w.vm w'.vm) : Undone w w' := by
  have hfields : ∀ q, (w'.procs q).pagetable = (w.procs q).pagetable ∧
      (w'.procs q).trapframe = (w.procs q).trapframe := by
    intro q
    by_cases hq : (w.procs q).state = .unused
    · have hfits := h.fits q
      have hfits' := h'.fits q
      rw [Fits, if_pos (show (w.sys.procs q).life = .unused from life_unused.mpr hq)] at hfits
      rw [Fits, if_pos (show (w'.sys.procs q).life = .unused from
        life_unused.mpr (hintact.unused q hq))] at hfits'
      exact ⟨hfits'.1.trans hfits.1.symm,hfits'.2.1.trans hfits.2.1.symm⟩
    · rw [hintact.used q hq]
      exact ⟨rfl,rfl⟩
  have htables : tables w'.sys = tables w.sys := congrArg entries (funext fun q => (hfields q).1)
  have hhand : inHand w'.sys = inHand w.sys := by
    have hframes : frames w'.sys = frames w.sys := congrArg entries (funext fun q => (hfields q).2)
    rw [inHand, hframes, inHand]
    exact congrArg (fun l => frames w.sys++l.map Pipe.page) hintact.pipes
  have hkept' := h'.based.kept
  rw [htables, hhand] at hkept'
  exact ⟨hintact,free_perm h.based.kept hkept' hspares,fun a ha => (hspares a ha).2⟩

theorem forkRest_pid {np : Slot} {r : ℤ} (hok : forkRest p np w = .ok (r,w')) :
    r = (w.procs np).pid := by
  unfold forkRest at hok
  split at hok
  · simp only [bind, Except.bind] at hok
    split at hok
    · cases hok
    · cases hok
      rfl
  · cases hok

theorem kfork_cases (h : Inv kend all text w.sys) (hpage : text%pgsize = 0#64) (htext : text < kend)
    (hlive : life (w.procs p).state = .live) :
    (∃ w', kfork kend text p w = .ok (-1,w') ∧ Undone w w') ∨
    ∃ np w₁ old new s', allocproc kend text w = .ok (some np,w₁) ∧
      (w.procs p).pagetable = some old ∧
      (w₁.procs np).pagetable = some new ∧ uvmcopy kend old new (w.procs p).sz w₁.vm = .ok (0,s') ∧
      Duplicated w₁.vm s' old new (w.procs p).sz ∧
      ∀ r w', kfork kend text p w = .ok (r,w') → r = w.nextpid := by
  obtain ⟨np,t₁,hsys,hinv₁,hspares,hnp⟩ := allocproc_ok h
  obtain ⟨w₁,halloc,rfl⟩ := allocproc_of_sys hsys
  have hrecords := allocproc_records halloc
  cases np with
  | none =>
    refine .inl ⟨w₁,?_,undone_of_spares h hinv₁ (hrecords.1 rfl) (hspares rfl)⟩
    simp only [kfork, halloc, bind, Except.bind]
  | some np =>
    obtain ⟨-,hlive₁,hzero,-,new,frame,hnew,hframe,hstarts,hnotframe⟩ := hnp np rfl
    obtain ⟨hunused,hpid,hsame,hfiles,hinodes,hpipes⟩ := hrecords.2 np rfl
    change (w₁.procs np).pagetable = some new at hnew
    have hne : np ≠ p := by
      rintro rfl
      rw [hunused] at hlive
      cases hlive
    have hp₁ : w₁.procs p = w.procs p := hsame p hne.symm
    obtain ⟨old,frame₀,hold,-,hspace⟩ := hinv₁.process (p := p) (by
      rw [show (w₁.sys.procs p).life = life (w₁.procs p).state from rfl, hp₁, hlive]
      decide)
    change (w₁.procs p).pagetable = some old at hold
    change Space text frame₀ w₁.vm old (w₁.procs p).sz at hspace
    obtain ⟨frame₁,-,hspace₁⟩ := hinv₁.space (p := np) hnew
    have hends : Ends w₁.vm new 0 := by
      have := hspace₁.ends
      rwa [hzero] at this
    have hkept₁ : Kept kend all w₁.vm (tables w₁.sys) (inHand w₁.sys) := hinv₁.based.kept
    rcases uvmcopy_exact hkept₁ (mem_tables (p := p) hold) (mem_tables (p := np) hnew)
      hspace.size hends with
      ⟨s₂,hcopy,hkept₂,hsame₂,hleaves⟩ | ⟨s₂,hcopy,-⟩
    · -- the pages of the copy and then all pages of the child go back
      have hinv₂ : Inv kend all text ({ w₁ with vm := s₂ } : World).sys := hinv₁.same hkept₂ hsame₂
      obtain ⟨s₃,hfree,hinv₃,hfreed⟩ := hinv₂.freeproc np
      obtain ⟨w₃,hfree₃,hw₃⟩ := freeproc_of_sys hfree
      have hvm : w₃.vm = s₃ := congrArg Sys.vm hw₃
      rw [← hw₃] at hinv₃
      left
      refine ⟨w₃,?_,
        undone_of_spares h hinv₃ (intact_of_free hfree₃ hunused hsame hfiles hinodes hpipes) ?_⟩
      · simp only [kfork, halloc, hold, hnew, hcopy, bind, Except.bind]
        rw [if_pos (by decide), hfree₃]
      · intro a ha
        obtain ⟨haway₁,hmem₁⟩ := hstarts a ha
        obtain ⟨haway₂,hmem₂⟩ := hleaves a haway₁
        obtain ⟨hused,hmem₃⟩ := hfreed a haway₂.off.used
          (fun heq => hnotframe a ha (Option.some.inj (heq.symm.trans hframe)))
          (fun r hr => Option.some.inj (hnew.symm.trans hr) ▸ haway₂)
        rw [hvm]
        exact ⟨hused,hmem₃.trans (hmem₂.trans hmem₁)⟩
    · rw [hp₁] at hold hcopy
      refine .inr ⟨np,w₁,old,new,s₂,halloc,hold,hnew,hcopy,
        uvmcopy_duplicated hinv₁ hpage htext hne (by rw [← hold, ← hp₁]; rfl) hnew hends hcopy,?_⟩
      intro r w' hok
      simp only [kfork, halloc, hp₁, hold, hnew, hcopy, bind, Except.bind] at hok
      rw [if_neg (by decide)] at hok
      rw [forkRest_pid hok]
      exact hpid

/-- In every state that can be reached, a copy of an address space is exact and a fork that fails
leaves no trace. -/
theorem fork_exact {vm : Vm} {es : List Event} {s : Sys} (hpage : text%pgsize = 0#64)
    (htext : text < kend)
    (hnodup : vm.free.Nodup) (hram : ∀ a ∈ vm.free, Freeable kend a)
    (hboot : boot kend text vm = some s)
    (hrun : run (step kend text) es s = some w.sys) (hlive : life (w.procs p).state = .live) :
    (∀ q old new sz s', q ≠ p → (w.procs p).pagetable = some old →
      (w.procs q).pagetable = some new →
      Ends w.vm new 0 → uvmcopy kend old new sz w.vm = .ok (0,s') → Duplicated w.vm s' old new sz) ∧
    ((∃ w', kfork kend text p w = .ok (-1,w') ∧ Undone w w') ∨
      ∃ np w₁ old new s', allocproc kend text w = .ok (some np,w₁) ∧
        (w.procs p).pagetable = some old ∧
        (w₁.procs np).pagetable = some new ∧ uvmcopy kend old new (w.procs p).sz w₁.vm
          = .ok (0,s') ∧
        Duplicated w₁.vm s' old new (w.procs p).sz ∧
        ∀ r w', kfork kend text p w = .ok (r,w') → r = w.nextpid) := by
  have hkend := kend_pos htext
  have hinv := run_inv hkend hnodup hram hboot hrun
  exact ⟨fun q old new sz s' hne hold hnew hends hok =>
    uvmcopy_duplicated (t := w.sys) hinv hpage htext hne hold hnew hends hok,
      kfork_cases hinv hpage htext hlive⟩

def World.ofSys (t : Sys) : World where
  vm := t.vm
  procs q :=
    { state := match (t.procs q).life with
        | .unused => .unused
        | .live => .running
        | .zombie => .zombie
      chan := none, killed := 0, xstate := 0, pid := 0
      parent := (t.procs q).parent
      sz := (t.procs q).sz
      pagetable := (t.procs q).pagetable
      trapframe := (t.procs q).trapframe
      ofile := fun _ => none
      cwd := some 0
      name := []
      cpuTicks := 0, sleepCount := 0, wakeCount := 0, energyScore := 0, energyPriority :=
        0, powerMode := 1,
      energyBudget := 0, energyUsed := 0 }
  pipes := t.pipes
  fileRef := fun _ => 0
  inodeRef := fun _ => 64
  nextpid := 2

theorem sys_ofSys (t : Sys) : (World.ofSys t).sys = t := by
  have hmem : ∀ q, ((World.ofSys t).procs q).mem = t.procs q := by
    intro q
    cases hq : t.procs q with
    | mk st pagetable frame sz parent => cases st <;> simp [World.ofSys, Process.mem, life, hq]
  exact congrArg (fun procs => (⟨t.vm,procs,t.pipes⟩ : Sys)) (funext hmem)

def tightLife : List Event := [.call 0 (.sbrk 40960 1)]

theorem tightLife_fails : ∃ s t, boot 0x80030000#64 0x80001000#64 somePages = some s ∧
    run (step 0x80030000#64 0x80001000#64) tightLife s = some t ∧ (t.procs 0).life = .live ∧
    ∃ w, kfork 0x80030000#64 0x80001000#64 0 (World.ofSys t) = .ok (-1,w) := by
  have hsome : ((boot 0x80030000#64 0x80001000#64 somePages).bind fun s =>
      (run (step 0x80030000#64 0x80001000#64) tightLife s).filter fun t =>
        (t.procs 0).life = .live ∧
        ((kfork 0x80030000#64 0x80001000#64 0 (World.ofSys t)).toOption.any fun x => x.1 = -1) =
          true).isSome = true := by
    decide +kernel
  obtain ⟨t,ht⟩ := Option.isSome_iff_exists.mp hsome
  obtain ⟨s,hs,ht⟩ := Option.bind_eq_some_iff.mp ht
  obtain ⟨ht,hfails⟩ := Option.filter_eq_some_iff.mp ht
  rw [decide_eq_true_eq] at hfails
  obtain ⟨hlive,hfails⟩ := hfails
  refine ⟨s,t,hs,ht,hlive,?_⟩
  cases hfork : kfork 0x80030000#64 0x80001000#64 0 (World.ofSys t) with
  | error e =>
    rw [hfork] at hfails
    cases hfails
  | ok x =>
    obtain ⟨r,w⟩ := x
    rw [hfork] at hfails
    obtain rfl : r = -1 := by simpa [Except.toOption] using hfails
    exact ⟨w,rfl⟩

theorem tightLife_undone : ∃ t w, kfork 0x80030000#64 0x80001000#64 0 (World.ofSys t) = .ok (-1,w) ∧
    Undone (World.ofSys t) w := by
  obtain ⟨s,t,hs,ht,hlive,w,hfails⟩ := tightLife_fails
  have hrun : run (step 0x80030000#64 0x80001000#64) tightLife s = some (World.ofSys t).sys := by
    rw [sys_ofSys]
    exact ht
  have hstate : life ((World.ofSys t).procs 0).state = .live := by
    simp [World.ofSys, hlive, life]
  rcases (fork_exact (p := 0) (by decide) (by decide) somePages_free.1 somePages_free.2 hs hrun
    hstate).2 with
    ⟨w',hok,hundone⟩ | ⟨np,w₁,old,new,s',-,-,-,-,-,hpid⟩
  · exact ⟨t,w',hok,hundone⟩
  · cases hpid _ _ hfails

end Fork

end GreenOS.ForkUndo
