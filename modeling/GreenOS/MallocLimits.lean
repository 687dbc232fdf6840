import GreenOS.HeapRuns
import GreenOS.HeapSize

/-!
# Where `malloc` puts its blocks

`malloc` over the kernel's `sbrk`, whose argument is an `int`: the bytes of a block
below the size of the process.
-/

namespace GreenOS.MallocLimits

open PageTable PageMap UserMemory PageMoves PageFrames
open AddressSpaces SpaceSteps SpaceRuns StepRun HeapSize
open HeapBlocks UserHeap

/-- The argument of `sbrk` for a number of units, narrowed to an `int`. -/
def bytesAsked (nu : ℕ) : BitVec 32 := BitVec.ofNat 32 (nu*headerSize)

abbrev Growth := Sys × List ℕ

def kernelSbrk (kend : Word) (p : Slot) (root : Word) (nu : ℕ) (g : Growth) :
    Option (Option ℕ × Growth) :=
  match HeapSize.sbrk kend p root (bytesAsked nu) sbrkEager g.1 with
  | .error _ => none
  | .ok (r,t) => if r = -1 then some (none,t,g.2) else some (some r.toNat,t,nu::g.2)

/-- `sbrk` has no room for the bytes: the size passes `TRAPFRAME`, or too few pages are free. -/
def NoRoom (p : Slot) (root : Word) (n : BitVec 32) (t : Sys) : Prop :=
  (trapframe.toNat : ℤ) < (t.procs p).sz.toNat+n.toInt ∨
    t.vm.free.length < needed t.vm root (addedPages (t.procs p).sz n)

def sizeAfter (sz : ℕ) (n : BitVec 32) : ℕ :=
  if (sz : ℤ)+n.toInt < 0 then sz else ((sz : ℤ)+n.toInt).toNat

section Kernel
variable {kend text : Word} {all : Set Word} {t : Sys} {p : Slot} {root : Word}

theorem resize_sz (p : Slot) (t : Sys) (new : Word) (s : Vm) :
    ((resize p t (some new,s)).procs p).sz = new := by
  simp [resize, setProc]

theorem kernelSbrk_cases (h : Inv kend all text t)
    (hroot : (t.procs p).pagetable = some root) (nu : ℕ)
    (asked : List ℕ) :
    (NoRoom p root (bytesAsked nu) t ∧ ∃ t', kernelSbrk kend p root nu (t,asked) = some
      (none,t',asked)) ∨
    ¬NoRoom p root (bytesAsked nu) t ∧ ∃ t',
      kernelSbrk kend p root nu (t,asked) = some (some (t.procs p).sz.toNat,t',nu::asked) ∧
      (t'.procs p).sz.toNat = sizeAfter (t.procs p).sz.toNat (bytesAsked nu) := by
  obtain ⟨frame,-,hspace⟩ := h.space hroot
  have hsz := hspace.size
  have hne : (t.procs p).sz ≠ -1 := by
    intro heq
    rw [heq] at hsz
    exact absurd hsz (by decide)
  unfold kernelSbrk NoRoom sizeAfter
  rw [toNat_trapframe]
  generalize bytesAsked nu = n
  have hcall : ∀ new s', sysSbrk kend root (t.procs p).sz n sbrkEager t.vm = .ok (new,s') →
      HeapSize.sbrk kend p root n sbrkEager t =
        .ok (if new.isSome then (t.procs p).sz else -1,resize p t (new,s')) := by
    intro new s' hok
    simp only [HeapSize.sbrk, hok, bind, Except.bind]
  rcases sysSbrk_cases n sbrkEager h.based.kept (mem_tables hroot) hspace with
    ⟨hlow,hok⟩ | ⟨hbig,hok⟩ | ⟨-,hfew,s',hok,-⟩ | ⟨new,s',hok,hint,hnew,henough,-⟩
  · right
    rw [addedPages_nil (by omega) hsz, needed_nil, if_pos hlow, hcall _ _ hok]
    exact ⟨by omega,_,if_neg hne,by rw [resize_sz]⟩
  · rw [hcall _ _ hok]
    exact .inl ⟨.inl hbig,_,if_pos rfl⟩
  · rw [hcall _ _ hok]
    exact .inl ⟨.inr hfew,_,if_pos rfl⟩
  · right
    have := henough rfl
    rw [if_neg (by omega), hcall _ _ hok]
    exact ⟨by omega,_,if_neg hne,by rw [resize_sz]; omega⟩

end Kernel

section Blocks

theorem prepare_sizes {base : ℕ} {h : Heap} (hsizes : ∀ x, h.size x < 2^32) (x : ℕ) :
    (prepare base h).size x < 2^32 := by
  unfold prepare
  split
  · change Function.update h.size base (0%2^32) x < 2^32
    by_cases hx : x = base
    · rw [hx, Function.update_self]
      exact Nat.two_pow_pos 32
    · rw [Function.update_of_ne hx]
      exact hsizes x
  · exact hsizes x

variable {base sz : ℕ} {bs got : List Block} {r : Block} {nbytes : BitVec 32}

theorem bytes_le (ht : Tiles (r::bs) got) (hr : r.size = units nbytes)
    (hend : ∀ g ∈ got, g.stop ≤ sz) :
    r.addr+headerSize+nbytes.toNat ≤ sz := by
  have hstop := ht.stop_le hend List.mem_cons_self
  simp only [Block.stop, hr, units, headerSize] at hstop ⊢
  omega

theorem toInt_bytesAsked {nu : ℕ} (hpos : 0 < nu) (hlt : nu*headerSize < 2^31) :
    0 < (bytesAsked nu).toInt ∧ (bytesAsked nu).toInt = nu*headerSize := by
  have hnat : (bytesAsked nu).toNat = nu*headerSize := Nat.mod_eq_of_lt (by omega)
  rw [BitVec.toInt_eq_toNat_cond, if_pos (by omega), hnat]
  simp only [headerSize] at *
  omega

end Blocks

/-- What `malloc` returns is below the size of the process, and what it asks `sbrk` for with
success is not narrowed, if and only if a free block is large enough, the bytes to ask for fit
in an `int`, or `sbrk` has no room. -/
theorem malloc_within_iff {kend text : Word} {vm : Vm} {es : List Event} {t₀ t : Sys}
    {p : Slot} {root : Word}
    (htext : text < kend) (hnodup : vm.free.Nodup) (hram : ∀ a ∈ vm.free, Freeable kend a)
    (hboot : boot kend text vm = some t₀) (hrun : run (step kend text) es t₀ = some t)
    (hroot : (t.procs p).pagetable = some root) {base : ℕ} (hbase : 0 < base) {s : HeapRuns.State}
    {blocks : List Block}
    (hs : HeapRuns.Fresh s ∧ blocks = [] ∨ HeapRuns.Sound base s blocks)
    (hlow : ∀ g ∈ s.got, base+headerSize ≤ g.addr) (hdata : base < (t.procs p).sz.toNat)
    (hend : ∀ g ∈ s.got, g.stop ≤ (t.procs p).sz.toNat) (hsizes : ∀ x, s.heap.size x < 2^32)
    (nbytes : BitVec 32) :
    (∀ fuel r h' t' asked,
      malloc (kernelSbrk kend p root) base fuel nbytes s.heap (t,[]) = some (r,h',t',asked) →
        (∀ nu ∈ asked, 0 < (bytesAsked nu).toInt ∧ (bytesAsked nu).toInt = nu*headerSize) ∧
        (r ≠ 0 → r+nbytes.toNat ≤ (t'.procs p).sz.toNat)) ↔
    (∃ b ∈ blocks, units nbytes ≤ b.size) ∨ HeapRuns.request (units nbytes)*headerSize < 2^31 ∨
      NoRoom p root (bytesAsked (HeapRuns.request (units nbytes))) t := by
  have hkend := kend_pos htext
  have hinv := run_inv hkend hnodup hram hboot hrun
  have hs' := HeapRuns.prepare_sound hs hbase
  have hlow' : ∀ g ∈ s.got, base < g.addr := fun g hg =>
    (Nat.lt_add_of_pos_right (by decide)).trans_le (hlow g hg)
  have hsmall : ∀ b ∈ blocks, b.size < 2^32 := by
    intro b hb
    rw [← hs'.ring.sizes b (List.mem_cons_of_mem _ hb)]
    exact prepare_sizes hsizes b.addr
  -- The result does not depend on how long the loops are followed.
  have hspec := HeapRuns.malloc_spec (kernelSbrk kend p root) ((t,[]) : Growth) nbytes hs'.ring
    hs'.tiles hlow' hbase hsmall
    (le_refl (2*blocks.length+3))
  have honly : ∀ {r₀ h₀ t₀}, malloc (kernelSbrk kend p root) base (2*blocks.length+3) nbytes
    s.heap (t,[]) =
      some (r₀,h₀,t₀) → ∀ {fuel r h' t'}, malloc (kernelSbrk kend p root) base fuel nbytes
        s.heap (t,[]) =
        some (r,h',t') → r = r₀ ∧ t' = t₀ := by
    intro r₀ h₀ t₀ h₁ fuel r h' t' h₂
    have h₁' := HeapRuns.mallocLoop_mono (le_max_left (2*blocks.length+3) fuel) h₁
    have h₂' := HeapRuns.mallocLoop_mono (le_max_right (2*blocks.length+3) fuel) h₂
    have := h₂'.symm.trans h₁'
    simp only [Option.some_inj, Prod.mk.injEq] at this
    exact ⟨this.1,this.2.2⟩
  obtain ⟨hfit,r,h',blocks',heq,htaken⟩ | ⟨hnone,hmore⟩ := hspec
  · refine iff_of_true (fun fuel r₁ h₁ t₁ asked hmalloc => ?_) (.inl hfit)
    obtain ⟨rfl,ht⟩ := honly heq hmalloc
    cases ht
    exact ⟨nofun,fun _ => bytes_le htaken.tiles htaken.units hend⟩
  · have hnofit : ¬∃ b ∈ blocks, units nbytes ≤ b.size := fun ⟨b,hb,hle⟩ => (hnone b hb).not_ge hle
    obtain ⟨hno,t',hsbrk⟩ | ⟨hroom,t',hsbrk,hsz⟩ :=
      kernelSbrk_cases hinv hroot (HeapRuns.request (units nbytes)) []
    · refine iff_of_true (fun fuel r₁ h₁ t₁ asked hmalloc => ?_) (.inr (.inr hno))
      obtain ⟨rfl,ht⟩ := honly (hmore _ _ hsbrk) hmalloc
      cases ht
      exact ⟨nofun,fun h => absurd rfl h⟩
    · obtain ⟨r,h',blocks',heq,htaken⟩ := hmore _ _ hsbrk hdata hend
      have hpos : 0 < HeapRuns.request (units nbytes) :=
        (Nat.succ_pos _).trans_le (HeapRuns.le_request _)
      by_cases hlt : HeapRuns.request (units nbytes)*headerSize < 2^31
      · obtain ⟨hint,hwhole⟩ := toInt_bytesAsked hpos hlt
        refine iff_of_true (fun fuel r₁ h₁ t₁ asked hmalloc => ?_) (.inr (.inl hlt))
        obtain ⟨rfl,ht⟩ := honly heq hmalloc
        cases ht
        refine ⟨fun nu hnu => ?_,fun _ => bytes_le htaken.tiles htaken.units ?_⟩
        · rw [List.mem_singleton.mp hnu]
          exact ⟨hint,hwhole⟩
        · rw [hsz, sizeAfter, if_neg (by omega), hwhole]
          refine List.forall_mem_cons.mpr ⟨?_,fun g hg => (hend g hg).trans (by omega)⟩
          simp only [Block.stop]
          rw [Nat.mul_comm]
          omega
      · refine iff_of_false (fun hall => ?_)
          (by rintro (h | h | h); exacts [hnofit h,hlt h,hroom h])
        have := ((hall (2*blocks.length+3) _ h' t' _ heq).1 _ List.mem_cons_self).2
        have hbig := BitVec.toInt_lt (x := bytesAsked (HeapRuns.request (units nbytes)))
        omega

def noHeap : HeapRuns.State := HeapRuns.start (fun _ => 0) (fun _ => 0)

theorem malloc_within_small : ∃ t root, (t.procs 0).sz = 8192#64 ∧
    (t.procs 0).pagetable = some root ∧
    ∀ fuel r h' t' asked,
      malloc (kernelSbrk 0x80030000#64 0 root) 16 fuel 100#32 noHeap.heap (t,[]) = some
        (r,h',t',asked) →
        (∀ nu ∈ asked, 0 < (bytesAsked nu).toInt ∧ (bytesAsked nu).toInt = nu*headerSize) ∧
        (r ≠ 0 → r+100 ≤ (t'.procs 0).sz.toNat) := by
  obtain ⟨t₀,t,hboot,hrun,hlive,hsz,-⟩ := someLife_room
  obtain ⟨root,-,hroot,-⟩ :=
    (run_inv (by decide) somePages_free.1 somePages_free.2 hboot hrun).process (p := 0)
    (by rw [hlive]; decide)
  have hfresh : HeapRuns.Fresh noHeap ∧ ([] : List Block) = [] ∨ HeapRuns.Sound 16 noHeap [] :=
    .inl ⟨⟨rfl,rfl,rfl⟩,rfl⟩
  exact ⟨t,root,hsz,hroot,
    (malloc_within_iff (by decide) somePages_free.1 somePages_free.2 hboot hrun hroot (by decide)
    hfresh nofun (by rw [hsz]; decide) nofun (fun _ => Nat.two_pow_pos 32) 100#32).mpr
      (.inr (.inl (by decide)))⟩

/-- The largest request on a fresh heap: `sbrk` adds 16 bytes, and the block is said to have
2^32 bytes. -/
theorem malloc_beyond_size :
    ((boot 0x80030000#64 0x80001000#64 somePages).bind fun s =>
      (run (step 0x80030000#64 0x80001000#64) someLife s).bind fun t =>
        (t.procs 0).pagetable.bind fun root =>
        (malloc (kernelSbrk 0x80030000#64 0 root) 16 8 0xffffffff#32 noHeap.heap
          (t,[])).map fun x =>
          (x.1,(t.procs 0).sz.toNat,(x.2.2.1.procs 0).sz.toNat,x.2.2.2)) = some
            (8208,8192,8208,[268435457]) ∧
    (bytesAsked 268435457).toInt = 16 ∧ ¬8208+(0xffffffff#32).toNat ≤ 8208 := by
  refine ⟨?_,by decide,by decide⟩
  decide +kernel

end GreenOS.MallocLimits
