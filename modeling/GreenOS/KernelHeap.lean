import GreenOS.MallocLimits
import GreenOS.PageUsers

/-!
# The heap of a process

Any calls of `malloc` and `free` in a process, with the `sbrk` of the kernel and
whatever else the kernel does in between. The pages that `sbrk` adds are mapped to
different pages of the machine, so all the units that a process gets are fewer
than the `uint` of a header can count.
-/

namespace GreenOS.KernelHeap

open PageTable PageMap UserMemory PageOwners PageMoves UserGrowth ProcessSpace
open AddressSpaces SpaceSteps SpaceRuns StepRun HeapSize PageUsers
open HeapBlocks UserHeap MallocLimits
open HeapRuns (request State Fresh Sound start)

/-- The pages of process `p` from address `lo` to its size are mapped. -/
def Backed (p : Slot) (lo : ℕ) (t : Sys) : Prop :=
  ∀ root va, (t.procs p).pagetable = some root → UserVa va → lo ≤ va.toNat →
    va.toNat < (t.procs p).sz.toNat → (translate t.vm root va).isSome

structure Grown (kend : Word) (all : Set Word) (text : Word) (p : Slot) (lo : ℕ) (t : Sys) :
    Prop where
  inv : Inv kend all text t
  live : (t.procs p).life = .live
  backed : Backed p lo t

/-- If `sbrk` succeeds, the process has grown by `nu` units. -/
def givesUnits (kend : Word) (p : Slot) (nu : ℕ) (t : Sys) : Bool :=
  ((t.procs p).pagetable.bind fun root => kernelSbrk kend p root nu (t,[])).all fun r =>
    r.1.all fun a => (r.2.1.procs p).sz.toNat = a+nu*headerSize

section Kernel
variable {kend text : Word} {all : Set Word} {t : Sys} {p : Slot} {root : Word} {lo : ℕ}

theorem user_page (h : Inv kend all text t) (hroot : (t.procs p).pagetable = some root)
    {va pte : Word} (hva : UserVa va) (hpte : translate t.vm root va = some pte) :
    Uses t (.user p va) (pte2pa pte) ∧ Freeable kend (pte2pa pte) := by
  have hholds : Holds t.vm (tables t) (.leaf root va) (pte2pa pte) :=
    ⟨mem_tables hroot,hva,pte,hpte,rfl⟩
  exact ⟨⟨hva.1.1,hva.2,root,pte,hroot,hpte,rfl⟩,
    h.based.kept.freeable _ ((h.based.kept.cover _).mpr (.inr ⟨_,hholds⟩))⟩

theorem backed_le (h : Inv kend all text t) (hroot : (t.procs p).pagetable = some root)
    (hlo : lo%4096 = 0) (hb : Backed p lo t) :
    (t.procs p).sz.toNat ≤ lo+phystop.toNat := by
  by_contra hgt
  obtain ⟨frame,-,hspace⟩ := h.space hroot
  have hsz := hspace.size
  have hstop : phystop.toNat = 557056*4096 := by decide
  have hva : ∀ i < 557057, (BitVec.ofNat 64 (lo+4096*i)).toNat = lo+4096*i := by
    intro i hi
    rw [BitVec.toNat_ofNat]
    exact Nat.mod_eq_of_lt (by omega)
  have hpage : ∀ i < 557057, ∃ a, Uses t (.user p (BitVec.ofNat 64 (lo+4096*i))) a ∧
      Freeable kend a := by
    intro i hi
    have huser : UserVa (BitVec.ofNat 64 (lo+4096*i)) := by
      rw [userVa_iff, hva i hi]
      omega
    have hsome := hb root _ hroot huser (by rw [hva i hi]; omega) (by rw [hva i hi]; omega)
    obtain ⟨pte,hpte⟩ := Option.isSome_iff_exists.mp hsome
    exact ⟨_,user_page h hroot huser hpte⟩
  choose! frameOf huses hfree using hpage
  obtain ⟨i,hi,j,hj,hne,heq⟩ := Finset.exists_ne_map_eq_of_card_lt_of_maps_to
    (s := Finset.range 557057) (t := Finset.range 557056)
    (f := fun i => (frameOf i).toNat/4096) (by rw [Finset.card_range, Finset.card_range]; decide)
    (fun i hi => by
      have hlt := (hfree i (Finset.mem_range.mp hi)).2.2
      rw [BitVec.lt_def, hstop] at hlt
      exact Finset.mem_range.mpr (Nat.div_lt_of_lt_mul (by omega)))
  rw [Finset.mem_range] at hi hj
  have hsame : frameOf i = frameOf j := by
    have hpi := aligned_iff.mp (hfree i hi).1
    have hpj := aligned_iff.mp (hfree j hj).1
    apply BitVec.eq_of_toNat_eq
    omega
  have huse := uses_inj h.based (huses i hi) (hsame ▸ huses j hj)
  have haddr := congrArg BitVec.toNat (Use.user.inj huse).2
  rw [hva i hi, hva j hj] at haddr
  omega

theorem backed_resized {t' : Sys} {new : ℕ} (hb : Backed p lo t)
    (hroot : (t.procs p).pagetable = some root)
    (hpt : (t'.procs p).pagetable = (t.procs p).pagetable)
    (hle : (t.procs p).sz.toNat ≤ new) (h : Resized True t t' p root new) : Backed p lo t' := by
  intro root' va hroot' huser hge hlt
  obtain rfl : root = root' := Option.some.inj (hroot.symm.trans (hpt.symm.trans hroot'))
  rw [h.size] at hlt
  by_cases hnew : up (t.procs p).sz.toNat ≤ va.toNat
  · obtain ⟨pte,hpte,-⟩ := h.fresh trivial va huser hnew hlt
    rw [hpte]
    rfl
  · -- a page below the rounded size starts below the size
    have hup : up (t.procs p).sz.toNat ≤ up new := by
      unfold up
      omega
    have haligned := (userVa_iff.mp huser).1
    have hold : va.toNat < (t.procs p).sz.toNat := by
      unfold up at hnew
      omega
    obtain ⟨-,hsame,-⟩ := h.kept p va huser.1 (fun hx => by omega) root hroot
    rw [hsame]
    exact hb root va hroot huser hge hold

theorem kernelSbrk_grown {nu : ℕ} (hpage : text%pgsize = 0#64) (htext : text < kend)
    (h : Grown kend all text p lo t) (hroot : (t.procs p).pagetable = some root) (hpos : 0 < nu)
    (hgives : givesUnits kend p nu t = true) :
    (∃ t', kernelSbrk kend p root nu (t,[]) = some (none,t',[]) ∧ Grown kend all text p lo t' ∧
      (t'.procs p).sz = (t.procs p).sz) ∨
    ∃ t', kernelSbrk kend p root nu (t,[]) = some (some (t.procs p).sz.toNat,t',[nu]) ∧
      Grown kend all text p lo t' ∧
      (t'.procs p).sz.toNat = (t.procs p).sz.toNat+nu*headerSize := by
  have hkend := kend_pos htext
  obtain ⟨frame,-,hspace⟩ := h.inv.space hroot
  have hne : (t.procs p).sz ≠ -1 := by
    intro heq
    exact absurd (heq ▸ hspace.size) (by decide)
  have hcall : ∀ new s', sysSbrk kend root (t.procs p).sz (bytesAsked nu) sbrkEager t.vm =
      .ok (new,s') → kernelSbrk kend p root nu (t,[]) =
        if new.isSome then some (some (t.procs p).sz.toNat,resize p t (new,s'),[nu])
        else some (none,resize p t (new,s'),[]) := by
    intro new s' hok
    simp only [kernelSbrk, HeapSize.sbrk, hok, bind, Except.bind]
    cases new with
    | none => rfl
    | some new => exact if_neg hne
  -- what `givesUnits` says of a call that succeeds
  have hunits : ∀ new s', sysSbrk kend root (t.procs p).sz (bytesAsked nu) sbrkEager t.vm =
      .ok (some new,s') → new.toNat = (t.procs p).sz.toNat+nu*headerSize := by
    intro new s' hok
    rw [givesUnits, hroot, Option.bind_some, hcall _ _ hok] at hgives
    have hsize := of_decide_eq_true hgives
    rwa [resize_sz] at hsize
  have hfails : ∀ s', sysSbrk kend root (t.procs p).sz (bytesAsked nu) sbrkEager t.vm =
      .ok (none,s') → Same (tables t) t.vm s' → ∃ t', kernelSbrk kend p root nu (t,[]) =
        some (none,t',[]) ∧ Grown kend all text p lo t' ∧ (t'.procs p).sz = (t.procs p).sz := by
    intro s' hok hsame
    refine ⟨_,hcall _ _ hok,⟨sbrk_inv hkend h.inv h.live hroot hok,h.live,?_⟩,rfl⟩
    intro r va hr huser hge hlt
    change (translate s' r va).isSome = true
    rw [hsame r (mem_tables hr) va huser.1]
    exact h.backed r va hr huser hge hlt
  rcases sysSbrk_cases (bytesAsked nu) sbrkEager h.inv.based.kept (mem_tables hroot) hspace with
    ⟨hlow,hok⟩ | ⟨-,hok⟩ | ⟨-,-,s',hok,hsame,-⟩ | ⟨new,s',hok,hint,hnew,-,hcases⟩
  · have := hunits _ _ hok
    simp only [headerSize] at this
    omega
  · exact .inl (hfails _ hok (Same.refl _ _))
  · exact .inl (hfails _ hok hsame)
  · have hsize := hunits _ _ hok
    have hres := resized hkend h.inv hpage htext h.live hroot hspace hok hnew hint hcases
    simp only [eq_self] at hres
    refine .inr ⟨_,hcall _ _ hok,⟨sbrk_inv hkend h.inv h.live hroot hok,?_,?_⟩,?_⟩
    · simp [resize, setProc, h.live]
    · exact backed_resized h.backed hroot (resize_pagetable p p t _) (by omega) hres
    · rw [resize_sz]
      exact hsize

end Kernel

def heapSbrk (kend : Word) (p : Slot) (root : Word) (nu : ℕ) (g : Sys × List Block) :
    Option (Option ℕ × Sys × List Block) :=
  (kernelSbrk kend p root nu (g.1,[])).map fun r =>
    (r.1,r.2.1,(r.1.map fun a => ⟨a,nu⟩).toList++g.2)

structure World where
  sys : Sys
  heap : State

inductive Call where
  | malloc (nbytes : BitVec 32)
  | free (ap : ℕ)
  -- What the program writes to memory it was given, as the fields that it reads as.
  | store (ap : ℕ) (ptr size : ℕ → ℕ)
  -- Anything else that happens in the kernel.
  | kernel (e : Event)

section Machine
variable (kend text : Word) (p : Slot) (base fuel : ℕ)

def step : Call → World → Option World
  | .malloc nbytes, w => do
    let root ← (w.sys.procs p).pagetable
    let (r,h,t,got) ← malloc (heapSbrk kend p root) base fuel nbytes w.heap.heap
      (w.sys,w.heap.got)
    return ⟨t,h,if r = 0 then w.heap.live else (r,nbytes)::w.heap.live,got⟩
  | .free ap, w => do
    let h ← free fuel w.heap.heap ap
    return ⟨w.sys,h,w.heap.live.eraseP (fun l => l.1 = ap),w.heap.got⟩
  | .store _ ptr size, w => some ⟨w.sys,{ w.heap with heap := { w.heap.heap with ptr, size } }⟩
  | .kernel e, w => (AddressSpaces.step kend text e w.sys).map fun t => ⟨t,w.heap⟩

/-- The process lives on, no smaller, and what was mapped of it is mapped still. -/
def Keeps (t t' : Sys) : Prop :=
  (t'.procs p).life = (t.procs p).life ∧ (t.procs p).sz.toNat ≤ (t'.procs p).sz.toNat ∧
    ∀ lo, Backed p lo t → Backed p lo t'

/-- When `sbrk` succeeds it gives the units asked for, and only live blocks are freed and written
to. -/
def Allowed : Call → World → Prop
  | .malloc nbytes, w => givesUnits kend p (request (units nbytes)) w.sys = true
  | .free ap, w => ∃ l ∈ w.heap.live, l.1 = ap
  | .store ap ptr size, w => (∃ l ∈ w.heap.live, l.1 = ap) ∧ ∀ x,
      x+headerSize ≤ ap ∨ ap-headerSize+headerSize*w.heap.heap.size (ap-headerSize) ≤ x →
        ptr x = w.heap.heap.ptr x ∧ size x = w.heap.heap.size x
  | .kernel e, w => ∀ t', AddressSpaces.step kend text e w.sys = some t' → Keeps p w.sys t'

end Machine

structure Held (kend : Word) (all : Set Word) (text : Word) (p : Slot) (base lo : ℕ) (w : World) :
    Prop where
  grown : Grown kend all text p lo w.sys
  heap : HeapRuns.Inv base w.heap
  below : ∀ g ∈ w.heap.got, g.stop ≤ (w.sys.procs p).sz.toNat
  data : base+headerSize ≤ (w.sys.procs p).sz.toNat
  count : lo+headerSize*total w.heap.got ≤ (w.sys.procs p).sz.toNat+4096

section Steps
variable {kend text : Word} {all : Set Word} {p : Slot} {root : Word} {base fuel lo : ℕ}
variable {w w' : World}

theorem malloc_held (hpage : text%pgsize = 0#64) (htext : text < kend) (hbase : 0 < base)
    (hlo : lo%4096 = 0) (h : Held kend all text p base lo w)
    (hroot : (w.sys.procs p).pagetable = some root) {nbytes : BitVec 32}
    (ha : Allowed kend text p (.malloc nbytes) w) :
    ∃ n, ∀ fuel ≥ n, ∃ r h' g, malloc (heapSbrk kend p root) base fuel nbytes w.heap.heap
        (w.sys,w.heap.got) = some (r,h',g) ∧
      (r = 0 → heapSbrk kend p root (request (units nbytes)) (w.sys,w.heap.got) =
        some (none,g)) ∧
      Held kend all text p base lo
        ⟨g.1,h',if r = 0 then w.heap.live else (r,nbytes)::w.heap.live,g.2⟩ := by
  obtain ⟨n,hn⟩ :=
    HeapRuns.malloc_step (heapSbrk kend p root) (w.sys,w.heap.got) nbytes h.heap hbase
  have hreq : 0 < request (units nbytes) := (Nat.succ_pos _).trans_le (HeapRuns.le_request _)
  refine ⟨n,fun fuel hfuel => ?_⟩
  obtain ⟨r,h',heq,hne,hinv⟩ | hmore := hn fuel hfuel
  · refine ⟨r,h',_,heq,fun h0 => absurd h0 hne,?_⟩
    rw [if_neg hne]
    exact ⟨h.grown,hinv,h.below,h.data,h.count⟩
  · obtain ⟨t',hk,hgrown,hsz⟩ | ⟨t',hk,hgrown,hsz⟩ :=
      kernelSbrk_grown hpage htext h.grown hroot hreq ha
    · have hans : heapSbrk kend p root (request (units nbytes)) (w.sys,w.heap.got) =
          some (none,t',w.heap.got) := by
        rw [heapSbrk, hk]
        rfl
      obtain ⟨h',heq,hinv⟩ := hmore none _ hans
      refine ⟨0,h',_,heq,fun _ => hans,?_⟩
      rw [if_pos rfl]
      exact ⟨hgrown,hinv,hsz ▸ h.below,hsz ▸ h.data,hsz ▸ h.count⟩
    · have hans : heapSbrk kend p root (request (units nbytes)) (w.sys,w.heap.got) =
          some (some (w.sys.procs p).sz.toNat,t',
            ⟨(w.sys.procs p).sz.toNat,request (units nbytes)⟩::w.heap.got) := by
        rw [heapSbrk, hk]
        rfl
      have hcount : lo+headerSize*(total w.heap.got+request (units nbytes)) ≤
          (t'.procs p).sz.toNat+4096 := by
        have := h.count
        simp only [headerSize] at this hsz ⊢
        omega
      have hpt : (t'.procs p).pagetable.isSome := by
        obtain ⟨root',-,hroot',-⟩ := hgrown.inv.process (p := p) (by rw [hgrown.live]; decide)
        rw [hroot']
        rfl
      obtain ⟨root',hroot'⟩ := Option.isSome_iff_exists.mp hpt
      have hmachine := backed_le hgrown.inv hroot' hlo hgrown.backed
      have hstop : phystop.toNat = 0x88000000 := by decide
      have hle : (w.sys.procs p).sz.toNat ≤ (t'.procs p).sz.toNat := hsz ▸ Nat.le_add_right _ _
      have hsum : total w.heap.got+request (units nbytes) < 2^32 := by
        simp only [headerSize] at hcount
        omega
      obtain ⟨r,h',heq,hne,hinv⟩ := hmore (some _) _ hans h.data h.below hsum
      refine ⟨r,h',_,heq,fun h0 => absurd h0 hne,?_⟩
      rw [if_neg hne]
      refine ⟨hgrown,hinv,?_,h.data.trans hle,?_⟩
      · refine List.forall_mem_cons.mpr ⟨?_,fun g hg => (h.below g hg).trans hle⟩
        simp only [Block.stop]
        rw [Nat.mul_comm]
        exact hsz.ge
      · dsimp only
        rw [total_cons, Nat.add_comm (request _)]
        exact hcount

theorem step_held (hpage : text%pgsize = 0#64) (htext : text < kend) (hbase : 0 < base)
    (hlo : lo%4096 = 0) (c : Call) (w w' : World) (h : Held kend all text p base lo w)
    (ha : Allowed kend text p c w) (hstep : step kend text p base fuel c w = some w') :
    Held kend all text p base lo w' := by
  cases c with
  | malloc nbytes =>
    obtain ⟨root,hroot,hstep⟩ := Option.bind_eq_some_iff.mp hstep
    obtain ⟨⟨r',h'',g'⟩,hmalloc,hs⟩ := Option.bind_eq_some_iff.mp hstep
    obtain ⟨n,hn⟩ := malloc_held hpage htext hbase hlo h hroot ha
    obtain ⟨r,h',g,heq,-,hheld⟩ := hn (max n fuel) (le_max_left _ _)
    obtain ⟨rfl,rfl,rfl⟩ : r = r' ∧ h' = h'' ∧ g = g' := by
      have := HeapRuns.mallocLoop_mono (le_max_right n fuel) hmalloc
      simpa using heq.symm.trans this
    cases hs
    exact hheld
  | free ap =>
    obtain ⟨n,hn⟩ := HeapRuns.free_step h.heap ha
    obtain ⟨h',heq,hinv⟩ := hn (max n fuel) (le_max_left _ _)
    obtain ⟨h'',hfree,hs⟩ := Option.bind_eq_some_iff.mp hstep
    obtain rfl : h' = h'' :=
      Option.some_inj.mp (heq.symm.trans (HeapRuns.free_mono (le_max_right n fuel) hfree))
    cases hs
    exact ⟨h.grown,hinv,h.below,h.data,h.count⟩
  | store ap ptr size =>
    cases hstep
    exact ⟨h.grown,HeapRuns.store_step h.heap ha,h.below,h.data,h.count⟩
  | kernel e =>
    obtain ⟨t',ht',hs⟩ := Option.map_eq_some_iff.mp hstep
    cases hs
    obtain ⟨hlife,hsz,hback⟩ := ha t' ht'
    exact ⟨⟨SpaceRuns.step_inv (kend_pos htext) h.grown.inv ht',hlife.trans h.grown.live,
        hback lo h.grown.backed⟩,h.heap,fun g hg => (h.below g hg).trans hsz,h.data.trans hsz,
      h.count.trans (Nat.add_le_add_right hsz _)⟩

end Steps

/-- In every run the heap is sound in every state, the calls of `malloc` and `free` return, and
`malloc` returns 0 only if `sbrk` fails. -/
theorem heap_structure {kend text : Word} {vm : Vm} {es : List Event} {t₀ t : Sys} {p : Slot}
    (hpage : text%pgsize = 0#64) (htext : text < kend) (hnodup : vm.free.Nodup)
    (hram : ∀ a ∈ vm.free, Freeable kend a) (hboot : boot kend text vm = some t₀)
    (hkernel : run (AddressSpaces.step kend text) es t₀ = some t)
    (hlive : (t.procs p).life = .live) {base fuel : ℕ} (hbase : 0 < base)
    (hdata : base+headerSize ≤ (t.procs p).sz.toNat) (ptr size : ℕ → ℕ) (calls : List Call)
    (w : World) (hok : Meets (step kend text p base fuel) (Allowed kend text p) calls
      ⟨t,start ptr size⟩)
    (hrun : run (step kend text p base fuel) calls ⟨t,start ptr size⟩ = some w) :
    (Fresh w.heap ∨ ∃ blocks, Sound base w.heap blocks) ∧
      (∀ root nbytes, (w.sys.procs p).pagetable = some root →
        Allowed kend text p (.malloc nbytes) w →
        ∃ n, ∀ fuel ≥ n, ∃ r h' g, malloc (heapSbrk kend p root) base fuel nbytes w.heap.heap
          (w.sys,w.heap.got) = some (r,h',g) ∧
          (r = 0 → heapSbrk kend p root (request (units nbytes)) (w.sys,w.heap.got) =
            some (none,g))) ∧
      ∀ ap, Allowed kend text p (.free ap) w →
        ∃ n, ∀ fuel ≥ n, ∃ h', free fuel w.heap.heap ap = some h' := by
  have hlo : up (t.procs p).sz.toNat%4096 = 0 := Nat.mul_mod_left _ _
  have hstart : Held kend {a | a ∈ vm.free} text p base (up (t.procs p).sz.toNat)
      ⟨t,start ptr size⟩ := by
    refine ⟨⟨run_inv (kend_pos htext) hnodup hram hboot hkernel,hlive,?_⟩,
      ⟨.inl ⟨rfl,rfl,rfl⟩,nofun,Nat.two_pow_pos 32⟩,nofun,hdata,?_⟩
    · intro root va _ _ hge hlt
      exact absurd (lt_of_lt_of_le hlt (le_up _)) (not_lt.mpr hge)
    · change up (t.procs p).sz.toNat+headerSize*0 ≤ (t.procs p).sz.toNat+4096
      unfold up
      omega
  have h := run_guarded (step kend text p base fuel) _ _
    (step_held hpage htext hbase hlo) calls _ w hstart hok hrun
  refine ⟨h.heap.sound,fun root nbytes hroot ha => ?_,fun ap ha => ?_⟩
  · obtain ⟨n,hn⟩ := malloc_held hpage htext hbase hlo h hroot ha
    refine ⟨n,fun fuel hfuel => ?_⟩
    obtain ⟨r,h',g,heq,hzero,-⟩ := hn fuel hfuel
    exact ⟨r,h',g,heq,hzero⟩
  · obtain ⟨n,hn⟩ := HeapRuns.free_step h.heap ha
    refine ⟨n,fun fuel hfuel => ?_⟩
    obtain ⟨h',heq,-⟩ := hn fuel hfuel
    exact ⟨h',heq⟩

def allows (kend : Word) (p : Slot) : Call → World → Bool
  | .malloc nbytes, w => givesUnits kend p (request (units nbytes)) w.sys
  | .free ap, w => w.heap.live.any (fun l => l.1 = ap)
  | _, _ => false

theorem allowed_of_allows {kend text : Word} {p : Slot} (c : Call) (w : World)
    (h : allows kend p c w = true) : Allowed kend text p c w := by
  cases c with
  | malloc nbytes => exact h
  | free ap => simpa [allows, Allowed] using h
  | _ => cases h

/-- Two blocks are taken from what `sbrk` gave, and the first is freed. -/
def twoBlocks : List Call := [.malloc 100,.malloc 8,.free 69520]

def pageLife : List Event := [.call 0 (.sbrk 4096 1)]

theorem twoBlocks_sound : ∃ t w,
    run (step 0x80030000#64 0x80001000#64 0 16 8) twoBlocks
      ⟨t,start (fun _ => 0) (fun _ => 0)⟩ = some w ∧
    (w.heap.live.map Prod.fst,w.heap.heap.ptr 16,w.heap.heap.size 4096) = ([69488],4096,4086) ∧
    (Fresh w.heap ∨ ∃ blocks, Sound 16 w.heap blocks) := by
  have hend : ((boot 0x80030000#64 0x80001000#64 somePages).bind fun t₀ =>
      (run (AddressSpaces.step 0x80030000#64 0x80001000#64) pageLife t₀).bind fun t =>
      (run (step 0x80030000#64 0x80001000#64 0 16 8) twoBlocks
        ⟨t,start (fun _ => 0) (fun _ => 0)⟩).filter fun w =>
        (t.procs 0).life = .live ∧ 32 ≤ (t.procs 0).sz.toNat ∧
        Meets (step 0x80030000#64 0x80001000#64 0 16 8)
          (fun c w => allows 0x80030000#64 0 c w = true) twoBlocks
          ⟨t,start (fun _ => 0) (fun _ => 0)⟩ ∧
        (w.heap.live.map Prod.fst,w.heap.heap.ptr 16,w.heap.heap.size 4096) =
          ([69488],4096,4086)).isSome = true := by
    decide +kernel
  obtain ⟨w,hw⟩ := Option.isSome_iff_exists.mp hend
  obtain ⟨t₀,hboot,hw⟩ := Option.bind_eq_some_iff.mp hw
  obtain ⟨t,hlife,hw⟩ := Option.bind_eq_some_iff.mp hw
  obtain ⟨hrun,hcond⟩ := Option.filter_eq_some_iff.mp hw
  obtain ⟨hlive,hsz,hmeets,hvalues⟩ := of_decide_eq_true hcond
  exact ⟨t,w,hrun,hvalues,(heap_structure (by decide) (by decide) somePages_free.1
    somePages_free.2 hboot hlife hlive (by decide) hsz (fun _ => 0) (fun _ => 0) twoBlocks w
    (hmeets.imp allowed_of_allows) hrun).1⟩

end GreenOS.KernelHeap
