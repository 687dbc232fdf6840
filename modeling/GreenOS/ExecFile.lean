import GreenOS.HeapSize
import GreenOS.FileBytes

/-!
# `exec` of any file

The image that `kexec` finds in the bytes of a file: its header, its program
headers, and how much of each segment can be read, with the offsets and sizes cut
to the 32 bits that `readi` and `loadseg` take. Whatever the file holds, `kexec`
returns, and what `loadseg` writes are pages of the new image. An `exec` that
fails is undone.
-/

namespace GreenOS.ExecFile
open PageTable PageMap UserMemory PageOwners PageMoves UserGrowth UserCopies
open AddressSpaces ProcessSpace ExecSpace ExecCall SpaceSteps SpaceRuns HeapSize StepRun
open ByteBlock (le)
open FileBytes (readAt)

def elfMagic : ℕ := 0x464C457F

def field (bytes : List UInt8) (o n : ℕ) : ℕ := le n (fun j => bytes.getD (o+j) 0)

/-- Whether `loadseg` reads all it asks for at `i`: a page, or what is left of the segment. -/
def pageRead (file : List UInt8) (offset sz i : ℕ) : Bool :=
  let n := if sz-i < 4096 then sz-i else 4096
  (readAt file ((offset+i)%2^32) n).length = n

def segmentPages (file : List UInt8) (offset sz : ℕ) : ℕ :=
  ((List.range (sz/4096+1)).takeWhile fun j => pageRead file offset sz (j*4096)).length

/-- `struct proghdr`; `data` is what the pages of the segment hold once they have been read. -/
def proghdrOf (file : List UInt8) (data : Word → Index → Word) (bytes : List UInt8) : Proghdr where
  type := BitVec.ofNat 32 (field bytes 0 4)
  flags := BitVec.ofNat 32 (field bytes 4 4)
  vaddr := BitVec.ofNat 64 (field bytes 16 8)
  filesz := BitVec.ofNat 64 (field bytes 32 8)
  memsz := BitVec.ofNat 64 (field bytes 40 8)
  readable := segmentPages file (field bytes 8 8%2^32) (field bytes 32 8%2^32)
  data := data

def imageOf (file : List UInt8) (data : ℕ → Word → Index → Word) : Image :=
  let elf := readAt file 0 64
  { elf := elf.length = 64 ∧ field elf 0 4 = elfMagic
    headers := (List.range (field elf 56 2)).map fun i =>
      let bytes := readAt file ((field elf 32 8+56*i)%2^32) 56
      if bytes.length = 56 then some (proghdrOf file (data i) bytes) else none }

/-- `kexec` is about to load a segment: the headers before it are done, and its memory is there. -/
def AtSegment (kend text frame : Word) (image : Image) (s : Vm) (new : Word) (ph : Proghdr)
    (s' : Vm) : Prop :=
  ∃ before after s₀ sz s₁ sz1, image.headers = before++some ph::after ∧
    procPagetable kend text frame s = .ok (some new,s₀) ∧ loadLoop kend new before 0 s₀ = .ok
      (true,sz,s₁) ∧
    ph.type = 1 ∧ ¬ ph.memsz < ph.filesz ∧ ¬ ph.vaddr+ph.memsz < ph.vaddr ∧ ph.vaddr%pgsize = 0#64 ∧
    uvmalloc kend new sz (ph.vaddr+ph.memsz) (flags2perm ph.flags) s₁ = .ok (sz1,s') ∧ sz1 ≠ 0#64

variable {kend text frame root sz : Word} {all : Set Word} {s s' : Vm} {roots hand : List Word}
    {ph : Proghdr}

theorem loadsegLoop_ends {va : Word} {size : BitVec 32} {data : Word → Index → Word}
    (hsize : size.toNat < 2^32-4096)
    (k n : ℕ) (i : BitVec 32) (readable : ℕ) (s : Vm) (hn : size.toNat ≤ i.toNat+n*4096) :
    loadsegLoop root va size data (n+k) i readable s = loadsegLoop root va size data n i
      readable s := by
  induction n generalizing i readable s with
  | zero =>
    have hge : ¬ i < size := by
      rw [BitVec.lt_def]
      omega
    cases k with
    | zero => rfl
    | succ k => simp [loadsegLoop, hge]
  | succ n ih =>
    rw [Nat.add_right_comm, loadsegLoop, loadsegLoop]
    by_cases hlt : i < size
    · rw [if_pos hlt, if_pos hlt]
      have hnext : (i+4096).toNat = i.toNat+4096 := by
        rw [BitVec.lt_def] at hlt
        rw [BitVec.toNat_add, show BitVec.toNat (4096 : BitVec 32) = 4096 from rfl]
        omega
      cases walkaddr root (va+i.setWidth 64) s with
      | error e => rfl
      | ok pa =>
        simp only [bind, Except.bind]
        cases readable with
        | zero => rfl
        | succ readable => simp only [ih (i+4096) readable (store pa (data pa) s) (by omega)]
    · rw [if_neg hlt, if_neg hlt]

theorem full_bound (h : Kept kend all s roots hand) (hroot : root ∈ roots)
    (hfull : Full text frame s root sz) :
    up sz.toNat ≤ 0x88000000 := by
  have hle := up_le hfull.space.size
  have heq : up sz.toNat/4096*4096 = up sz.toNat := by
    unfold up
    omega
  have hpages := dense_bound h hroot (n := up sz.toNat/4096) (by rw [heq]; exact hfull.dense)
    (by rw [heq]; exact hle)
  omega

theorem atSegment_ok {image : Image} {new : Word} (hkend : 0#64 < kend)
    (h : Kept kend all s roots hand)
    (hat : AtSegment kend text frame image s new ph s') :
    ∃ r s₁, loadseg new ph s' = .ok (r,s₁) ∧ Fills new s' s₁ ∧
      ∀ k, loadsegLoop new ph.vaddr (ph.filesz.setWidth 32) ph.data
        ((ph.filesz.setWidth 32).toNat/4096+1+k) 0
        ph.readable s' = .ok (r,s₁) := by
  obtain ⟨before,after,s₀,sz,s₁,sz1,-,hpt,hload,-,hmem,hwrap,halign,halloc,hne⟩ := hat
  rcases procPagetable_ok text frame h with ⟨_,hpt',-⟩ | ⟨root,s₀',hpt',hkept₀,-,-,hspace₀⟩
  · cases hpt.symm.trans hpt'
  obtain ⟨hnew,rfl⟩ := Prod.mk.inj (Except.ok.inj (hpt.symm.trans hpt'))
  obtain rfl := Option.some.inj hnew
  have hroot : new ∈ new::roots := List.mem_cons_self
  have hfull₀ : Full text frame s₀ new 0#64 := full_empty hspace₀
  obtain ⟨good,sz',s₁',hload',hkept₁,-,-,hfull₁⟩ := loadLoop_ok hkend hroot before hkept₀ hfull₀
  obtain ⟨rfl,rfl,rfl⟩ : true = good ∧ sz = sz' ∧ s₁ = s₁' := by
    have := Except.ok.inj (hload.symm.trans hload')
    simpa using this
  obtain ⟨sz2,s₂,halloc',hkept₂,-,hcases⟩ :=
    uvmalloc_full (ph.vaddr+ph.memsz) (isPerm_flags2perm ph.flags)
    hkept₁ hroot (hfull₁ rfl)
  obtain ⟨rfl,rfl⟩ := Prod.mk.inj (Except.ok.inj (halloc.symm.trans halloc'))
  rcases hcases with ⟨hzero,-⟩ | ⟨-,hfull₂,hle,-⟩
  · exact absurd hzero hne
  obtain ⟨r,s₃,hok,-,hfills⟩ := segment_ok hkend hkept₂ hroot hfull₂ hmem hwrap halign hle
  refine ⟨r,s₃,hok,hfills,fun k => ?_⟩
  have hend := segment_end hmem hwrap hle
  have hbound := full_bound hkept₂ hroot hfull₂
  have hsize : (ph.filesz.setWidth 32).toNat ≤ ph.filesz.toNat := by
    rw [BitVec.toNat_setWidth]
    exact Nat.mod_le ..
  rw [loadsegLoop_ends (by omega) k _ _ _ _ (by simp; omega)]
  exact hok

section Reached
variable {vm : Vm} {es : List Event} {t₀ t : Sys} {p : Slot} (htext : text < kend)
    (hnodup : vm.free.Nodup)
  (hram : ∀ a ∈ vm.free, Freeable kend a) (hboot : boot kend text vm = some t₀)
  (hrun : run (step kend text) es t₀ = some t) (hlive : (t.procs p).life = .live)
include htext hnodup hram hboot hrun hlive

/-- In every state that can be reached, whatever a file holds, `kexec` of it returns; where it
loads a segment, `loadseg` ends, and only pages of the new address space have changed. -/
theorem kexec_safe (file : List UInt8) (contents : ℕ → Word → Index → Word) (lens : List Word)
    (hlens : ∀ len ∈ lens, len.toNat < 4096) (data : Word → Index → Word) :
    ∃ root frame, (t.procs p).pagetable = some root ∧ (t.procs p).trapframe = some frame ∧
      (∃ r, kexec kend text root (t.procs p).sz frame (some (imageOf file contents)) lens data
        t.vm = .ok r) ∧
      ∀ new ph s', AtSegment kend text frame (imageOf file contents) t.vm new ph s' →
        ∃ r s₁, loadseg new ph s' = .ok (r,s₁) ∧
          (∀ k, loadsegLoop new ph.vaddr (ph.filesz.setWidth 32) ph.data
            ((ph.filesz.setWidth 32).toNat/4096+1+k) 0 ph.readable s' = .ok (r,s₁)) ∧
          s₁.free = s'.free ∧ ∀ a, s₁.mem a ≠ s'.mem a → ∃ va, Leads s' new va a := by
  have hkend := kend_pos htext
  have hinv := run_inv hkend hnodup hram hboot hrun
  obtain ⟨root,frame,hroot,hframe,hspace⟩ := hinv.process (p := p) (by rw [hlive]; decide)
  have hkept := hinv.based.current hroot
  refine ⟨root,frame,hroot,hframe,?_,?_⟩
  · obtain ⟨r,hok,-⟩ := kexec_ok hkend (some (imageOf file contents)) lens hlens data hkept
      (hinv.based.not_others hroot) hspace
    exact ⟨r,hok⟩
  · intro new ph s' hat
    obtain ⟨r,s₁,hok,hfills,hends⟩ := atSegment_ok hkend hkept hat
    refine ⟨r,s₁,hok,hends,hfills.free,fun a hne => ?_⟩
    by_contra hnone
    exact hne (hfills.only a fun va hleads => hnone ⟨va,hleads⟩)

/-- In every state that can be reached, what a failing `exec` leaves are page faults of the
caller: the process table is as before, each mapped page has its contents, and a page that was
free is free or the caller's. -/
theorem failed_exec_undone (hpage : text%pgsize = 0#64) (hroot : (t.procs p).pagetable = some root)
    (hframe : (t.procs p).trapframe = some frame) {uargv : Word} {args : List (Word × Word)}
    {image : Option Image} {data : Word → Index → Word}
    (hfail : sysExec kend text root (t.procs p).sz frame uargv args image data t.vm =
      .ok (none,s')) :
    step kend text (.call p (.exec uargv args image data)) t = some { t with vm := s' } ∧
    Faulted (tables t) root (t.procs p).sz.toNat t.vm s' ∧
    (∀ q root' va pte, (t.procs q).pagetable = some root' → IsVa va →
      translate t.vm root' va = some pte →
      s'.mem (pte2pa pte) = t.vm.mem (pte2pa pte)) ∧
    ∀ a ∈ t.vm.free, a ∈ s'.free ∨ ∃ x, Holds s' [root] x a := by
  have hkend := kend_pos htext
  have hinv := run_inv hkend hnodup hram hboot hrun
  obtain ⟨frame',hframe',hspace⟩ := hinv.space hroot
  obtain rfl := Option.some.inj (hframe.symm.trans hframe')
  have hkept := hinv.based.current hroot
  have hnot := hinv.based.not_others hroot
  obtain ⟨r,s₁,hok,-,hrep,hundo⟩ := sysExec_ok hkend uargv args image data hkept hnot hspace
  obtain rfl := Except.ok.inj (hok.symm.trans hfail)
  obtain ⟨hkept',-⟩ := hrep
  obtain ⟨htakes,hmaps⟩ := hundo rfl
  refine ⟨?_,⟨htakes,fun r hr => hmaps r ((tables_perm hroot).mem_iff.mp hr)⟩,?_,?_⟩
  · simp [step, perform, hlive, hroot, hframe, call, hfail, commit, bind, Except.bind,
      Except.toOption]
  · exact fun q root' va pte hq hva hpte =>
      (htakes _ (mapped_off hinv hpage htext (mem_tables hroot) hq hva hpte)).2
  · intro a ha
    have hpool := List.mem_append_left (inHand t) ha
    rcases (hkept'.cover a).mp ((hkept.cover a).mpr (.inl hpool)) with hpool' | ⟨x,hx⟩
    · rcases List.mem_append.mp hpool' with hfree | hhand
      · exact .inl hfree
      · exact absurd hhand (List.disjoint_of_nodup_append hkept.nodup ha)
    · rcases List.mem_cons.mp (holds_iff.mp hx).1 with hx' | hx'
      · exact .inr ⟨x,holds_iff.mpr ⟨by simp [hx'],(holds_iff.mp hx).2⟩⟩
      · -- the tables of the other processes have not changed
        have hother := holds_of_tables (fun r hr q b hq hb =>
          (htakes b (away_of_table hkept hnot hr hq hb).off).2)
          (holds_iff.mpr ⟨hx',(holds_iff.mp hx).2⟩)
        exact absurd (hother.mono (List.subset_cons_self _ _)) (hkept.apart a hpool x)

end Reached

/-- An ELF file with one segment to load at address 0, of which `filesz` bytes are said to be in the
file at offset `off`. -/
def elfFile (off filesz memsz : List UInt8) : List UInt8 :=
  [0x7f,0x45,0x4c,0x46]++List.replicate 28 0++[64]++List.replicate 23 0++[1]++List.replicate 7 0++
    [1,0,0,0,5,0,0,0]++off++List.replicate 16 0++filesz++memsz++List.replicate 8 0

/-- The segment has 200 bytes, from an offset behind the end of the file. -/
def wildFile : List UInt8 :=
  elfFile (List.replicate 8 0xff) (200::List.replicate 7 0) (0::16::List.replicate 6 0)

theorem exists_ok {α : Type} {x : Except String α} {y : α} (h : x.toOption = some y) :
    x = .ok y := by
  cases x with
  | error e => cases h
  | ok z =>
    cases h
    rfl

theorem wildFile_reached : ∃ s t frame new ph s₁,
    boot 0x80030000#64 0x80001000#64 somePages = some s ∧
    run (step 0x80030000#64 0x80001000#64) someLife s = some t ∧ (t.procs 0).life = .live ∧
    (t.procs 0).trapframe = some frame ∧
    AtSegment 0x80030000#64 0x80001000#64 frame (imageOf wildFile fun _ _ _ => 0#64) t.vm new ph
      s₁ := by
  let ph := proghdrOf wildFile (fun _ _ => 0#64) (readAt wildFile 64 56)
  have hsome : ((boot 0x80030000#64 0x80001000#64 somePages).bind fun s =>
      (run (step 0x80030000#64 0x80001000#64) someLife s).bind fun t =>
        (t.procs 0).trapframe.bind fun frame =>
          (procPagetable 0x80030000#64 0x80001000#64 frame t.vm).toOption.bind fun x =>
            x.1.bind fun new =>
              (uvmalloc 0x80030000#64 new 0 4096#64 (flags2perm 5) x.2).toOption.filter fun y =>
                (t.procs 0).life = .live ∧ y.1 ≠ 0#64).isSome = true := by
    decide +kernel
  obtain ⟨⟨sz1,s₁⟩,hsome⟩ := Option.isSome_iff_exists.mp hsome
  obtain ⟨s,hs,hsome⟩ := Option.bind_eq_some_iff.mp hsome
  obtain ⟨t,ht,hsome⟩ := Option.bind_eq_some_iff.mp hsome
  obtain ⟨frame,hframe,hsome⟩ := Option.bind_eq_some_iff.mp hsome
  obtain ⟨⟨r,s₀⟩,htable,hsome⟩ := Option.bind_eq_some_iff.mp hsome
  obtain ⟨new,rfl,hsome⟩ := Option.bind_eq_some_iff.mp hsome
  obtain ⟨halloc,hsome⟩ := Option.filter_eq_some_iff.mp hsome
  rw [decide_eq_true_eq] at hsome
  refine ⟨s,t,frame,new,ph,s₁,hs,ht,hsome.1,hframe,[],[],s₀,0,s₀,sz1,?_,exists_ok htable,rfl,
    by decide +kernel,by decide +kernel,by decide +kernel,by decide +kernel,?_,hsome.2⟩
  · have hone : field (readAt wildFile 0 64) 56 2 = 1 := by decide +kernel
    have hoff : field (readAt wildFile 0 64) 32 8 = 64 := by decide +kernel
    have hlen : (readAt wildFile 64 56).length = 56 := by decide +kernel
    simp [imageOf, hone, hoff, hlen, ph]
  · have hargs : ph.vaddr+ph.memsz = 4096#64 ∧ ph.flags = 5 := by decide +kernel
    rw [hargs.1, hargs.2]
    exact exists_ok halloc

/-- `loadseg` reads less than it asks for. -/
theorem wildFile_safe : ∃ (t : Sys) (root frame new : Word) (ph : Proghdr) (s₁ s₂ : Vm) (r : ℤ),
    (t.procs 0).pagetable = some root ∧
    (∃ r, kexec 0x80030000#64 0x80001000#64 root (t.procs 0).sz frame
      (some (imageOf wildFile fun _ _ _ => 0#64)) [5#64] (fun _ _ => 0#64) t.vm = .ok r) ∧
    AtSegment 0x80030000#64 0x80001000#64 frame (imageOf wildFile fun _ _ _ => 0#64) t.vm new ph
      s₁ ∧
    loadseg new ph s₁ = .ok (r,s₂) ∧ s₂.free = s₁.free ∧
    ∀ a, s₂.mem a ≠ s₁.mem a → ∃ va, Leads s₁ new va a := by
  obtain ⟨s,t,frame,new,ph,s₁,hs,ht,hlive,hframe,hat⟩ := wildFile_reached
  obtain ⟨root,frame',hroot,hframe',hok,hsegment⟩ := kexec_safe (by decide) somePages_free.1
    somePages_free.2 hs ht hlive wildFile (fun _ _ _ => 0#64) [5#64] (by simp) (fun _ _ => 0#64)
  obtain rfl : frame = frame' := Option.some.inj (hframe.symm.trans hframe')
  obtain ⟨r,s₂,hload,-,hfree,hmem⟩ := hsegment new ph s₁ hat
  exact ⟨t,root,frame,new,ph,s₁,s₂,r,hroot,hok,hat,hload,hfree,hmem⟩

def wildImage : Image := imageOf wildFile fun _ _ _ => 0#64

theorem someLife_wild : ∃ s t root frame s', boot 0x80030000#64 0x80001000#64 somePages = some s ∧
    run (step 0x80030000#64 0x80001000#64) someLife s = some t ∧ (t.procs 0).life = .live ∧
    (t.procs 0).pagetable = some root ∧ (t.procs 0).trapframe = some frame ∧
    sysExec 0x80030000#64 0x80001000#64 root (t.procs 0).sz frame 0 [(4096,3)] (some wildImage)
      (fun _ _ => 0#64) t.vm = .ok (none,s') ∧
    translate t.vm root 0 = none ∧ (translate s' root 0).isSome = true := by
  have hsome : ((boot 0x80030000#64 0x80001000#64 somePages).bind fun s =>
      (run (step 0x80030000#64 0x80001000#64) someLife s).bind fun t =>
        (t.procs 0).pagetable.bind fun root =>
          (t.procs 0).trapframe.bind fun frame =>
            (sysExec 0x80030000#64 0x80001000#64 root (t.procs 0).sz frame 0 [(4096,3)]
              (some wildImage) (fun _ _ => 0#64) t.vm).toOption.filter fun y =>
                (t.procs 0).life = .live ∧ y.1 = none ∧ translate t.vm root 0 = none ∧
                  (translate y.2 root 0).isSome = true).isSome = true := by
    decide +kernel
  obtain ⟨⟨r,s'⟩,hsome⟩ := Option.isSome_iff_exists.mp hsome
  obtain ⟨s,hs,hsome⟩ := Option.bind_eq_some_iff.mp hsome
  obtain ⟨t,ht,hsome⟩ := Option.bind_eq_some_iff.mp hsome
  obtain ⟨root,hroot,hsome⟩ := Option.bind_eq_some_iff.mp hsome
  obtain ⟨frame,hframe,hsome⟩ := Option.bind_eq_some_iff.mp hsome
  obtain ⟨hexec,hsome⟩ := Option.filter_eq_some_iff.mp hsome
  rw [decide_eq_true_eq] at hsome
  obtain ⟨hlive,rfl,hbefore,hafter⟩ := hsome
  exact ⟨s,t,root,frame,s',hs,ht,hlive,hroot,hframe,exists_ok hexec,hbefore,hafter⟩

/-- The arguments fault a page in, and the segment cannot be read when it has its page: all that the
call took comes back, except for the page of the arguments. -/
theorem someLife_exec_fails : ∃ (t : Sys) (root : Word) (s' : Vm),
    (t.procs 0).pagetable = some root ∧
    translate t.vm root 0 = none ∧ (translate s' root 0).isSome = true ∧
    step 0x80030000#64 0x80001000#64 (.call 0 (.exec 0 [(4096,3)] (some wildImage)
      fun _ _ => 0#64)) t = some { t with vm := s' } ∧
    ∀ a ∈ t.vm.free, a ∈ s'.free ∨ ∃ x, Holds s' [root] x a := by
  obtain ⟨s,t,root,frame,s',hs,ht,hlive,hroot,hframe,hfail,hbefore,hafter⟩ := someLife_wild
  obtain ⟨hstep,-,-,hfree⟩ := failed_exec_undone (by decide) somePages_free.1 somePages_free.2 hs ht
    hlive (by decide) hroot hframe hfail
  exact ⟨t,root,s',hroot,hbefore,hafter,hstep,hfree⟩

end GreenOS.ExecFile
