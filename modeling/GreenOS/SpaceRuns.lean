import GreenOS.SpaceSteps

/-!
# Runs of the system and the pages of its processes

Every event keeps the invariant, so it holds in every state that can be
reached: the sizes stay below the trapframe, what a process maps lies below its
size, no panic about page tables can happen, and every page has one user.
-/

namespace GreenOS.SpaceRuns
open RadixTree PageTable PageTree PageMap UserMemory PageOwners PageMoves UserGrowth UserCopies
open AddressSpaces ProcessSpace ExecSpace ExecCall OptionTable SpaceSteps StepRun

variable {kend text : Word} {all : Set Word} {t : Sys} {p : Slot} {root frame : Word}

theorem kfork_inv (h : Inv kend all text t) (hlive : (t.procs p).life = .live)
    (hroot : (t.procs p).pagetable = some root) :
    ∃ t', kfork kend text p root t = .ok t' ∧ Inv kend all text t' := by
  unfold kfork
  obtain ⟨np,t₁,hok₁,hinv₁,-,hnp⟩ := allocproc_ok h
  simp only [hok₁, bind, Except.bind]
  cases np with
  | none => exact ⟨t₁,rfl,hinv₁⟩
  | some q =>
    obtain ⟨hunused,hlive₁,hzero,hsame₁,-⟩ := hnp q rfl
    have hne : p ≠ q := by
      rintro rfl
      rw [hlive] at hunused
      cases hunused
    have hp₁ : t₁.procs p = t.procs p := hsame₁ p hne
    obtain ⟨new,frame,hnew,hframe,hspace⟩ := hinv₁.process (p := q) (by rw [hlive₁]; decide)
    obtain ⟨root',frame',hroot',-,hspace'⟩ := hinv₁.process (p := p) (by rw [hp₁, hlive]; decide)
    rw [hp₁, hroot] at hroot'
    cases hroot'
    have hmem : root ∈ tables t₁ := mem_tables (p := p) (by rw [hp₁, hroot])
    have hends : Ends t₁.vm new 0 := by
      have := hspace.ends
      rwa [hzero] at this
    simp only [hnew]
    rcases uvmcopy_ok hinv₁.based.kept hmem (mem_tables hnew) hspace'.size hends with
      ⟨s₂,hok₂,hkept₂,hsame₂⟩ | ⟨s₂,hok₂,hkept₂,hwithin₂⟩
    · obtain ⟨s₃,hok₃,hinv₃,-⟩ := (hinv₁.same hkept₂ hsame₂).freeproc q
      refine ⟨_,?_,hinv₃⟩
      simp only [hok₂]
      rw [if_pos (by decide)]
      exact hok₃
    · refine ⟨_,by simp only [hok₂]; rw [if_neg (by decide)],?_⟩
      have hnot := hinv₁.based.not_others hnew
      have hcurrent : Within (new::others t₁ q) new (t₁.procs p).sz.toNat t₁.vm s₂ :=
        fun r hr => hwithin₂ r ((tables_perm hnew).mem_iff.mpr hr)
      refine hinv₁.replace hnew hframe (by rw [hlive₁]; decide) rfl hframe
        (hkept₂.congr fun _ => (tables_perm hnew).mem_iff.symm) hnot
          (Within.others hnot hcurrent) ?_
      refine hspace.within List.mem_cons_self hspace'.size ?_ hcurrent (fun _ => le_up _)
      rw [hzero]
      exact Nat.zero_le _

variable {sz : Word} {s vm : Vm} {roots hand : List Word} {e : Event} {t' : Sys}

theorem toNat_grow {n : BitVec 32} (hn : 0 ≤ n.toInt) (hsz : sz.toNat ≤ 2^38-8192) :
    (sz+n.signExtend 64).toNat = sz.toNat+n.toNat := by
  have hmsb : n.msb = false := by
    rw [BitVec.msb_eq_toInt]
    simpa using hn
  rw [BitVec.signExtend_eq_setWidth_of_msb_false hmsb, BitVec.toNat_add, BitVec.toNat_setWidth]
  have := n.isLt
  omega

section Sbrk
variable {s : Vm} {roots hand : List Word} {sz : Word}

theorem uvmalloc_space (newsz : Word) (h : Kept kend all s (root::roots) hand) (hnot : root ∉ roots)
    (hspace : Space text frame s root sz) (hle : sz.toNat ≤ newsz.toNat)
    (hnew : newsz.toNat ≤ 2^38-8192) :
    ∃ r s', uvmalloc kend root sz newsz pteW s = .ok (r,s') ∧ Kept kend all s' (root::roots) hand ∧
      Same roots s s' ∧ (r = 0#64 ∧ Space text frame s' root sz ∨ r = newsz ∧
        Space text frame s' root newsz) := by
  have hroot : root ∈ root::roots := List.mem_cons_self
  rcases uvmalloc_ok newsz isPerm_write h hroot hspace.size hspace.ends
      (.inl hnew) with ⟨hlt,-⟩ | ⟨s',hok,hkept,hsame,-⟩ | ⟨s',hok,hkept,-,-,hgrow,-⟩
  · omega
  · exact ⟨0#64,s',hok,hkept,fun r hr => hsame r (List.mem_cons_of_mem _ hr),
      .inl ⟨rfl,hspace.same hroot hsame⟩⟩
  · have hwithin := Grow.within hgrow (up_le hnew)
    exact ⟨newsz,s',hok,hkept,Within.others hnot hwithin,.inr ⟨rfl,
      hspace.within hroot hnew (by unfold up; omega) hwithin (fun _ => le_rfl)⟩⟩

theorem uvmdealloc_space (newsz : Word) (h : Kept kend all s (root::roots) hand)
    (hnot : root ∉ roots)
    (hspace : Space text frame s root sz) :
    ∃ r s', uvmdealloc kend root sz newsz s = .ok (r,s') ∧ Kept kend all s' (root::roots) hand ∧
      Same roots s s' ∧ Space text frame s' root r := by
  have hroot : root ∈ root::roots := List.mem_cons_self
  have hsize := hspace.size
  obtain ⟨s',hok,hkept,hcut,-⟩ := uvmdealloc_ok newsz h hroot hsize
  refine ⟨_,s',hok,hkept,?_,?_⟩
  · intro r hr va hva
    rw [hcut r (List.mem_cons_of_mem _ hr) va hva, if_neg]
    rintro ⟨rfl,-⟩
    exact hnot hr
  have hother : ∀ va, IsVa va → ¬ UserVa va → translate s' root va = translate s root va := by
    intro va hva hnu
    rw [hcut root hroot va hva, if_neg]
    rintro ⟨-,-,hlt⟩
    rw [userVa_iff] at hnu
    rw [isVa_iff] at hva
    have := up_le hsize
    omega
  constructor
  · split_ifs with hle
    · exact hsize
    · rw [BitVec.le_def, not_le] at hle
      omega
  · rw [hother _ isVa_trampoline not_user_trampoline, hspace.tramp]
  · rw [hother _ isVa_trapframe not_user_trapframe, hspace.frame]
  · -- the pages from the new size on have gone
    intro va hva hge
    rw [hcut root hroot va hva.1]
    split_ifs with hx
    · rfl
    · refine hspace.ends va hva ?_
      by_contra hlt
      refine hx ⟨rfl,?_,not_le.mp hlt⟩
      split_ifs at hge with hle
      · exact absurd hge hlt
      · exact hge

theorem growproc_ok (n : BitVec 32) (h : Kept kend all s (root::roots) hand) (hnot : root ∉ roots)
    (hspace : Space text frame s root sz) :
    ∃ r s', growproc kend root sz n s = .ok (r,s') ∧ Kept kend all s' (root::roots) hand ∧
      Same roots s s' ∧ Space text frame s' root (r.getD sz) := by
  unfold growproc
  by_cases hpos : 0 < n.toInt
  · rw [if_pos hpos]
    have hsum := toNat_grow hpos.le hspace.size
    by_cases hbig : trapframe < sz+n.signExtend 64
    · rw [if_pos hbig]
      exact ⟨none,s,rfl,h,Same.refl roots s,hspace⟩
    rw [if_neg hbig]
    rw [BitVec.lt_def, toNat_trapframe, not_lt] at hbig
    obtain ⟨r,s',hok,hkept,hsame,hr⟩ := uvmalloc_space (sz+n.signExtend 64) h hnot hspace
      (by omega) hbig
    simp only [hok, bind, Except.bind]
    by_cases hzero : r = 0#64
    · rw [if_pos hzero]
      rcases hr with ⟨-,hspace'⟩ | ⟨rfl,-⟩
      · exact ⟨none,s',rfl,hkept,hsame,hspace'⟩
      · have hn : n.toNat = 0 := by
          have := congrArg BitVec.toNat hzero
          rw [hsum] at this
          simp at this
          omega
        rw [BitVec.toInt_eq_toNat_cond, hn] at hpos
        simp at hpos
    · rw [if_neg hzero]
      rcases hr with ⟨rfl,-⟩ | ⟨rfl,hspace'⟩
      · exact absurd rfl hzero
      · exact ⟨_,s',rfl,hkept,hsame,hspace'⟩
  · rw [if_neg hpos]
    by_cases hneg : n.toInt < 0
    · rw [if_pos hneg]
      obtain ⟨r,s',hok,hkept,hsame,hspace'⟩ := uvmdealloc_space (sz+n.signExtend 64) h hnot hspace
      exact ⟨some r,s',by simp only [hok, bind, Except.bind],hkept,hsame,hspace'⟩
    · rw [if_neg hneg]
      exact ⟨some sz,s,rfl,h,Same.refl roots s,hspace⟩

theorem sysSbrk_ok (n mode : BitVec 32) (h : Kept kend all s (root::roots) hand)
    (hnot : root ∉ roots)
    (hspace : Space text frame s root sz) :
    ∃ r s', sysSbrk kend root sz n mode s = .ok (r,s') ∧ Kept kend all s' (root::roots) hand ∧
      Same roots s s' ∧ Space text frame s' root (r.getD sz) := by
  unfold sysSbrk
  by_cases heager : mode = sbrkEager ∨ n.toInt < 0
  · rw [if_pos heager]
    exact growproc_ok n h hnot hspace
  rw [if_neg heager]
  rw [not_or, not_lt] at heager
  have hsum := toNat_grow heager.2 hspace.size
  by_cases hwrap : sz+n.signExtend 64 < sz
  · rw [if_pos hwrap]
    exact ⟨none,s,rfl,h,Same.refl roots s,hspace⟩
  rw [if_neg hwrap]
  by_cases hbig : trapframe < sz+n.signExtend 64
  · rw [if_pos hbig]
    exact ⟨none,s,rfl,h,Same.refl roots s,hspace⟩
  rw [if_neg hbig]
  rw [BitVec.lt_def, toNat_trapframe, not_lt] at hbig
  refine ⟨some (sz+n.signExtend 64),s,rfl,h,Same.refl roots s,?_⟩
  have hle : up sz.toNat ≤ up (sz+n.signExtend 64).toNat := by
    unfold up
    omega
  exact hspace.enlarge hbig hle

theorem sysPipe_ok (files fds : Bool) (fdarray : Word) (data : Word → Index → Word)
    {roots : List Word}
    (h : Kept kend all s roots hand) (hroot : root ∈ roots) (hspace : Space text frame s root sz) :
    ∃ r s', sysPipe kend root sz files fds fdarray data s = .ok (r,s') ∧
      Kept kend all s' roots (r.toList++hand) ∧ Within roots root sz.toNat s s' := by
  have hnothing : Within roots root sz.toNat s s := Same.within (Same.refl roots s) _
  unfold sysPipe
  cases files with
  | false => exact ⟨none,s,rfl,h,hnothing⟩
  | true =>
    simp only [not_true_eq_false, if_false]
    rcases hk : kalloc s with ⟨_ | pi,s₁⟩
    · obtain rfl := kalloc_none hk
      exact ⟨none,s₁,rfl,h,hnothing⟩
    obtain ⟨hkept₁,htrans₁⟩ := h.kalloc_some hk
    have hwithin₁ : Within roots root sz.toNat s s₁ :=
      Same.within (fun r hr va _ => htrans₁ r hr va) _
    have hclose : ∀ s₂, Kept kend all s₂ roots (pi::hand) → Within roots root sz.toNat s s₂ →
        ∃ r s', pipeBad kend pi s₂ = .ok (r,s') ∧ Kept kend all s' roots (r.toList++hand) ∧
          Within roots root sz.toNat s s' := by
      intro s₂ hkept₂ hwithin₂
      obtain ⟨s',hok,hkept,-,htrans⟩ := hkept₂.kfree
      exact ⟨none,s',by simp only [pipeBad, hok, bind, Except.bind],hkept,
        hwithin₂.trans (Same.within (fun r hr va _ => htrans r hr va) _)⟩
    cases fds with
    | false => exact hclose s₁ hkept₁ hwithin₁
    | true =>
      simp only [not_true_eq_false, if_false]
      have hspace₁ := Space.faulted hroot hspace hwithin₁
      obtain ⟨r₂,s₂,hok₂,hkept₂,hwithin₂⟩ :=
        copyout_ok hroot hspace.size fdarray 4 data hkept₁ hspace₁.shielded
      have hwithin₂ := hwithin₁.trans hwithin₂
      simp only [hok₂, bind, Except.bind]
      by_cases hr₂ : r₂ < 0
      · rw [if_pos hr₂]
        exact hclose s₂ hkept₂ hwithin₂
      rw [if_neg hr₂]
      have hspace₂ := Space.faulted hroot hspace hwithin₂
      obtain ⟨r₃,s₃,hok₃,hkept₃,hwithin₃⟩ :=
        copyout_ok hroot hspace.size (fdarray+4) 4 data hkept₂ hspace₂.shielded
      have hwithin₃ := hwithin₂.trans hwithin₃
      simp only [hok₃]
      by_cases hr₃ : r₃ < 0
      · rw [if_pos hr₃]
        exact hclose s₃ hkept₃ hwithin₃
      · rw [if_neg hr₃]
        exact ⟨some pi,s₃,rfl,hkept₃,hwithin₃⟩

end Sbrk

theorem pipeclose_inv {pi : Pipe} (h : Inv kend all text t) (hpi : pi ∈ t.pipes) (writable : Bool) :
    ∃ t', pipeclose kend pi writable t = .ok t' ∧ Inv kend all text t' := by
  have hpages : (t.pipes.map Pipe.page).Perm (pi.page::(t.pipes.erase pi).map Pipe.page) :=
    (List.perm_cons_erase hpi).map Pipe.page
  have hhand : (inHand t).Perm (pi.page::(frames t++(t.pipes.erase pi).map Pipe.page)) :=
    (hpages.append_left _).trans List.perm_middle
  unfold pipeclose
  by_cases hlast : ¬ (closeEnd pi writable).readopen = true ∧
    ¬ (closeEnd pi writable).writeopen = true
  · rw [if_pos hlast]
    obtain ⟨s',hok,hkept,-,htrans⟩ := (h.based.kept.perm hhand).kfree
    refine ⟨{ t with vm := s', pipes := t.pipes.erase pi },by simp only [hok, bind, Except.bind],
      ⟨hkept,h.based.nodup⟩,?_⟩
    exact fun q => (h.fits q).same (fun _ hr => mem_tables hr) (fun r hr va _ => htrans r hr va)
  · rw [if_neg hlast]
    refine ⟨_,rfl,⟨?_,h.based.nodup⟩,h.fits⟩
    have hpage : (closeEnd pi writable).page = pi.page := by cases writable <;> rfl
    refine h.based.kept.perm (hhand.trans ?_)
    rw [inHand, List.map_cons, hpage]
    exact List.perm_middle.symm

theorem kexit_inv (h : Inv kend all text t) (hlive : (t.procs p).life = .live) :
    (∃ t', kexit p t = .ok t' ∧ Inv kend all text t') ∨ kexit p t = .error "init exiting" := by
  unfold kexit
  by_cases hinit : p = initproc
  · rw [if_pos hinit]
    exact .inr rfl
  rw [if_neg hinit]
  refine .inl ⟨_,rfl,?_⟩
  -- neither the page tables nor the trapframes change
  have hfields : ∀ q, (reparent p t.procs q).pagetable = (t.procs q).pagetable ∧
      (reparent p t.procs q).trapframe = (t.procs q).trapframe ∧ (reparent p t.procs q).sz =
        (t.procs q).sz ∧
      (reparent p t.procs q).life = (t.procs q).life := by
    intro q
    unfold reparent
    split_ifs <;> exact ⟨rfl,rfl,rfl,rfl⟩
  obtain ⟨procs,hprocs⟩ : ∃ procs, procs = Function.update (reparent p t.procs) p
    { reparent p t.procs p with life := .zombie } := ⟨_,rfl⟩
  have hnew : ∀ q, (procs q).pagetable = (t.procs q).pagetable ∧ (procs q).trapframe =
    (t.procs q).trapframe ∧
      (procs q).sz = (t.procs q).sz ∧ ((procs q).life = .unused ↔ (t.procs q).life = .unused) := by
    intro q
    by_cases hq : q = p
    · subst hq
      rw [hprocs, Function.update_self]
      refine ⟨(hfields q).1,(hfields q).2.1,(hfields q).2.2.1,?_⟩
      simp [hlive]
    · rw [hprocs, Function.update_of_ne hq]
      exact ⟨(hfields q).1,(hfields q).2.1,(hfields q).2.2.1,by rw [(hfields q).2.2.2]⟩
  rw [← hprocs]
  have htables : tables { t with procs := procs } = tables t :=
    congrArg entries (funext fun q => (hnew q).1)
  have hframes : frames { t with procs := procs } = frames t :=
    congrArg entries (funext fun q => (hnew q).2.1)
  refine ⟨⟨?_,?_⟩,?_⟩
  · rw [htables, inHand, hframes]
    exact h.based.kept
  · rw [htables]
    exact h.based.nodup
  · intro q
    obtain ⟨hpt,htf,hsz,hlife⟩ := hnew q
    have hfits := h.fits q
    unfold Fits at hfits ⊢
    simp only [hpt, htf, hsz, hlife]
    exact hfits

theorem kwait_inv (h : Inv kend all text t)
    (hroot : (t.procs p).pagetable = some root) (addr : Word) (data : Word → Index → Word) :
    ∃ t', kwait kend p root addr data t = .ok t' ∧ Inv kend all text t' := by
  obtain ⟨frame,-,hspace⟩ := h.space hroot
  unfold kwait
  cases (List.finRange 64).find? (fun q => (t.procs q).parent = some p ∧
    (t.procs q).life = .zombie) with
  | none => exact ⟨t,rfl,h⟩
  | some q =>
    dsimp only
    by_cases haddr : addr ≠ 0#64
    · obtain ⟨r,s,hok,hkept,hwithin⟩ :=
        copyout_ok (mem_tables hroot) hspace.size addr 4 data h.based.kept
        hspace.shielded
      have hinv := h.faulted hroot hkept hwithin
      rw [if_pos haddr]
      simp only [hok, bind, Except.bind]
      by_cases hr : r < 0
      · rw [if_pos hr]
        exact ⟨_,rfl,hinv⟩
      · rw [if_neg hr]
        obtain ⟨s',hok',hinv',-⟩ := hinv.freeproc q
        exact ⟨_,hok',hinv'⟩
    · rw [if_neg haddr]
      obtain ⟨s',hok',hinv',-⟩ := h.freeproc q
      exact ⟨_,hok',hinv'⟩

theorem commit_inv {s₁ : Vm} {r : Option (Word × Word) × Vm} (h : Inv kend all text t)
    (hlive : (t.procs p).life = .live) (hroot : (t.procs p).pagetable = some root)
    (hframe : (t.procs p).trapframe = some frame)
    (hwithin : Within (root::others t p) root (t.procs p).sz.toNat t.vm s₁)
    (hrep : Replaced kend all text frame root (others t p) (inHand t) s₁ r) :
    Inv kend all text (commit p t r) := by
  obtain ⟨r,s'⟩ := r
  have hnot := h.based.not_others hroot
  cases r with
  | none =>
    obtain ⟨hkept,hsame⟩ := hrep
    refine h.faulted hroot (hkept.congr fun _ => (tables_perm hroot).mem_iff) ?_
    have hall := hwithin.trans (Same.within hsame _)
    exact fun r hr => hall r ((tables_perm hroot).mem_iff.mp hr)
  | some x =>
    obtain ⟨new,sz⟩ := x
    obtain ⟨hkept,hfresh,hsame,hspace⟩ := hrep
    exact h.replace hroot hframe (by rw [hlive]; decide) rfl hframe hkept hfresh
      ((Within.others hnot hwithin).trans hsame) hspace

theorem userStore_ok (va : Word) (data : Index → Word) (h : Kept kend all s roots hand)
    (hroot : root ∈ roots) (hspace : Space text frame s root sz) :
    Kept kend all (userStore root va data s) roots hand ∧
      Same roots s (userStore root va data s) := by
  unfold userStore
  by_cases hmax : maxva ≤ va
  · rw [if_pos hmax]
    exact ⟨h,Same.refl roots s⟩
  rw [if_neg hmax]
  cases hpte : translate s root (pgrounddown va) with
  | none => exact ⟨h,Same.refl roots s⟩
  | some pte =>
    dsimp only
    by_cases hbits : pte&&&pteU ≠ 0#64 ∧ pte&&&pteW ≠ 0#64
    · rw [if_pos hbits]
      have hva : IsVa (pgrounddown va) := by
        have := toNat_pgrounddown va
        rw [BitVec.le_def, not_le, toNat_maxva] at hmax
        exact isVa_iff.mpr (by omega)
      have huser : UserVa (pgrounddown va) := by
        by_contra hother
        exact hbits.1 (hspace.shielded _ pte hva hother hpte)
      exact store_user h hroot ⟨huser,pte,hpte,rfl⟩ data
    · rw [if_neg hbits]
      exact ⟨h,Same.refl roots s⟩

theorem call_inv (hkend : 0#64 < kend) (h : Inv kend all text t) (hlive : (t.procs p).life = .live)
    (hroot : (t.procs p).pagetable = some root)
    (hframe : (t.procs p).trapframe = some frame) (c : Call) :
    (∃ t', call kend text p root frame t c = .ok t' ∧ Inv kend all text t') ∨
      call kend text p root frame t c = .error "init exiting" := by
  obtain ⟨frame',hframe',hspace⟩ := h.space hroot
  obtain rfl := Option.some.inj (hframe.symm.trans hframe')
  have hmem := mem_tables hroot
  have hkept := h.based.kept
  have hcurrent := h.based.current hroot
  have hnot := h.based.not_others hroot
  cases c with
  | fork => exact .inl (kfork_inv h hlive hroot)
  | exec uargv args image data =>
    obtain ⟨r,s₁,hok,hfaulted,hrep,-⟩ := sysExec_ok hkend uargv args image data hcurrent hnot hspace
    exact .inl ⟨commit p t r,by simp only [call, hok, bind, Except.bind],
      commit_inv h hlive hroot hframe hfaulted.within hrep⟩
  | forkret image data =>
    obtain ⟨r,hok,hrep,-⟩ := kexec_ok hkend image [5] (by simp) data hcurrent hnot hspace
    exact .inl ⟨commit p t r,by simp only [call, hok, bind, Except.bind],
      commit_inv h hlive hroot hframe (Same.within (Same.refl _ _) _) hrep⟩
  | sbrk n mode =>
    obtain ⟨r,s',hok,hkept',hsame',hspace'⟩ := sysSbrk_ok n mode hcurrent hnot hspace
    refine .inl ⟨resize p t (r,s'),by simp only [call, hok, bind, Except.bind],?_⟩
    cases r with
    | none =>
      have hinv : Inv kend all text (setProc p (t.procs p) { t with vm := s' }) :=
        h.replace hroot hframe (by rw [hlive]; decide) hroot hframe hkept' hnot hsame' hspace'
      rwa [setProc, Function.update_eq_self] at hinv
    | some sz =>
      exact h.replace hroot hframe (by rw [hlive]; decide) hroot hframe hkept' hnot hsame' hspace'
  | fault va =>
    obtain ⟨r,s',hok,hkept',hfaulted,-⟩ := vmfault_ok va hkept hmem hspace.size
    exact .inl ⟨{ t with vm := s' },by simp only [call, hok, bind, Except.bind],
      h.faulted hroot hkept' hfaulted.within⟩
  | copyin srcva len =>
    obtain ⟨r,s',hok,hkept',hfaulted⟩ := copyin_ok hmem hspace.size srcva len hkept hspace.shielded
    exact .inl ⟨{ t with vm := s' },by simp only [call, hok, bind, Except.bind],
      h.faulted hroot hkept' hfaulted.within⟩
  | copyout dstva len data =>
    obtain ⟨r,s',hok,hkept',hwithin⟩ :=
      copyout_ok hmem hspace.size dstva len data hkept hspace.shielded
    exact .inl ⟨{ t with vm := s' },by simp only [call, hok, bind, Except.bind],
      h.faulted hroot hkept' hwithin⟩
  | copyinstr srcva len max =>
    obtain ⟨r,hok⟩ := copyinstr_ok t.vm root srcva len max
    exact .inl ⟨t,by simp only [call, hok, bind, Except.bind],h⟩
  | pipe files fds fdarray data =>
    obtain ⟨r,s',hok,hkept',hwithin⟩ := sysPipe_ok files fds fdarray data hkept hmem hspace
    refine .inl ⟨addPipe t (r,s'),by simp only [call, hok, bind, Except.bind],?_⟩
    cases r with
    | none => exact h.faulted hroot hkept' hwithin
    | some pi =>
      -- the new pipe is the only change beside the faults
      have hperm : (pi::inHand t).Perm (frames t++pi::t.pipes.map Pipe.page) :=
        List.perm_middle.symm
      have hkept₀ : Kept kend all s' (tables t) (inHand (addPipe t (some pi,s'))) :=
        hkept'.perm hperm
      exact ⟨⟨hkept₀,h.based.nodup⟩,h.fits_faulted hroot hwithin⟩
  | exit => exact kexit_inv h hlive
  | wait addr data => exact .inl (kwait_inv h hroot addr data)
  | store va data =>
    obtain ⟨hkept',hsame'⟩ := userStore_ok va data hkept hmem hspace
    exact .inl ⟨_,rfl,h.same hkept' hsame'⟩
  | trap data =>
    have hin : frame ∈ inHand t := List.mem_append_left _ (mem_entries.mpr ⟨p,hframe⟩)
    obtain ⟨hkept',hsame'⟩ := store_inHand hkept hin data
    exact .inl ⟨_,rfl,h.same hkept' hsame'⟩

theorem perform_inv {r : Except String Sys} (hkend : 0#64 < kend) (h : Inv kend all text t)
    (hr : perform kend text t e = some r) : (∃ t', r = .ok t' ∧ Inv kend all text t') ∨
      r = .error "init exiting" := by
  cases e with
  | call p c =>
    rw [perform] at hr
    split_ifs at hr with hlive
    obtain ⟨root,frame,hroot,hframe,-⟩ := h.process (p := p) (by rw [hlive]; decide)
    rw [hroot, hframe] at hr
    cases hr
    exact call_inv hkend h hlive hroot hframe c
  | pipeclose pi writable =>
    rw [perform] at hr
    by_cases hpi : pi ∈ t.pipes ∧ (if writable then pi.writeopen else pi.readopen) = true
    · rw [if_pos hpi] at hr
      cases hr
      exact .inl (pipeclose_inv h hpi.1 writable)
    · rw [if_neg hpi] at hr
      cases hr
  | pipewrite pi data =>
    rw [perform] at hr
    split_ifs at hr with hpi
    cases hr
    have hin : pi.page ∈ inHand t := List.mem_append_right _ (List.mem_map_of_mem hpi)
    obtain ⟨hkept',hsame'⟩ := store_inHand h.based.kept hin data
    exact .inl ⟨_,rfl,h.same hkept' hsame'⟩

theorem step_inv (hkend : 0#64 < kend) (h : Inv kend all text t)
    (hstep : step kend text e t = some t') : Inv kend all text t' := by
  obtain ⟨r,hr,hok⟩ := Option.bind_eq_some_iff.mp hstep
  rcases perform_inv hkend h hr with ⟨t'',rfl,hinv⟩ | rfl
  · cases hok
    exact hinv
  · cases hok

theorem boot_inv (hnodup : vm.free.Nodup) (hram : ∀ a ∈ vm.free, Freeable kend a)
    (hboot : boot kend text vm = some t) : Inv kend {a | a ∈ vm.free} text t := by
  have hempty : Inv kend {a | a ∈ vm.free} text ⟨vm,fun _ => ⟨.unused,none,none,0,none⟩,[]⟩ := by
    have htables : tables ⟨vm,fun _ => ⟨.unused,none,none,0,none⟩,[]⟩ = [] := by
      simp [tables, entries]
    have hhand : inHand ⟨vm,fun _ => ⟨.unused,none,none,0,none⟩,[]⟩ = [] := by
      simp [inHand, frames, entries]
    refine ⟨⟨?_,?_⟩,fun _ => fits_unused vm⟩
    · rw [htables, hhand]
      constructor
      · exact fun x y a hx => absurd hx (not_holds_nil vm x a)
      · rwa [List.append_nil]
      · exact fun a _ x => not_holds_nil vm x a
      · intro a
        simp [not_holds_nil]
      · exact hram
      · exact fun root hroot => absurd hroot List.not_mem_nil
    · rw [htables]
      exact List.nodup_nil
  obtain ⟨np,t',hok,hinv,-⟩ := allocproc_ok hempty
  rw [boot, hok] at hboot
  cases np with
  | none => cases hboot
  | some p =>
    cases hboot
    exact hinv

theorem run_inv {es : List Event} {s : Sys} (hkend : 0#64 < kend) (hnodup : vm.free.Nodup)
    (hram : ∀ a ∈ vm.free, Freeable kend a) (hboot : boot kend text vm = some s)
    (hrun : run (step kend text) es s = some t) : Inv kend {a | a ∈ vm.free} text t :=
  run_invariant (step kend text) (Inv kend {a | a ∈ vm.free} text)
    (fun _ _ _ h hstep => step_inv hkend h hstep) es s t (boot_inv hnodup hram hboot) hrun

theorem freeproc_returns (h : Inv kend all text t) (hroot : (t.procs p).pagetable = some root) :
    ∃ t', freeproc kend p t = .ok t' ∧ ∀ x a, Holds t.vm [root] x a → a ∈ t'.vm.free := by
  obtain ⟨s',hok,hinv,hframe⟩ := h.freeproc p
  refine ⟨_,hok,?_⟩
  intro x a hx
  have hkept := h.based.current hroot
  have hhere : Holds t.vm (root::others t p) x a := hx.mono (by simp)
  have hkept' := hinv.based.kept
  rw [inHand, frames_setProc, tables_setProc] at hkept'
  rcases (hkept'.cover a).mp ((hkept.cover a).mpr (.inr ⟨x,hhere⟩)) with ha | ⟨y,hy⟩
  · refine (List.mem_append.mp ha).resolve_right fun hhand => ?_
    refine hkept.apart a (List.mem_append_right _ ?_) x hhere
    rcases List.mem_append.mp hhand with hf | hpipe
    · exact List.mem_append_left _ ((entries_split (fun q => (t.procs q).trapframe) p).mem_iff.mpr
        (List.mem_append_right _ hf))
    · exact List.mem_append_right _ hpipe
  · -- the other page tables hold what they held
    have hbefore := holds_of_tables (h.based.others_tables hframe) hy
    obtain rfl := hkept.one x y a hhere (hbefore.mono (by simp))
    have := List.mem_singleton.mp (holds_iff.mp hx).1
    exact absurd (this ▸ (holds_iff.mp hbefore).1) (h.based.not_others hroot)

theorem leaf_isVa {va pte : Word} (h : Kept kend all s roots hand) (hroot : root ∈ roots)
    (ha : va%pgsize = 0#64) (hlt : va < 1#64<<<39) (hpte : translate s root va = some pte) :
    IsVa va := by
  obtain ⟨t,ht,-,-⟩ := translate_eq_some.mp hpte
  have hv : valid (s.mem root (px 2 va)) = true := by
    by_contra hnv
    simp [tableAt, child, hnv] at ht
  have hlow := (h.interior root hroot [] root (px 2 va) (by simp) rfl hv).2 rfl
  rw [px_toNat] at hlow
  rw [BitVec.lt_def, show BitVec.toNat (1#64<<<39) = 2^39 by decide] at hlt
  exact isVa_iff.mpr ⟨aligned_iff.mp ha,by omega⟩

theorem kend_pos (htext : text < kend) : 0#64 < kend := by
  rw [BitVec.lt_def] at htext ⊢
  exact (Nat.zero_le _).trans_lt htext

/-- Sizes stay below the trapframe and processes map pages below their size only; nothing that can
happen panics, and a process that is freed gives back all pages it has. -/
theorem address_spaces {vm : Vm} {es : List Event} {s : Sys} (htext : text < kend)
    (hnodup : vm.free.Nodup)
    (hram : ∀ a ∈ vm.free, Freeable kend a) (hboot : boot kend text vm = some s)
    (hrun : run (step kend text) es s = some t) :
    (∀ p root, (t.procs p).pagetable = some root → (t.procs p).sz ≤ trapframe ∧
      (∃ pte, translate t.vm root trampoline = some pte ∧ pte&&&pteU = 0#64) ∧
      (∃ pte, translate t.vm root trapframe = some pte ∧ pte&&&pteU = 0#64) ∧
      ∀ va pte, va%pgsize = 0#64 → va < 1#64<<<39 → translate t.vm root va = some pte →
        va = trampoline ∨ va = trapframe ∨ va < pgroundup (t.procs p).sz) ∧
    (∀ e r, perform kend text t e = some r → (∃ t', r = .ok t') ∨ r = .error "init exiting") ∧
    ∀ p root, (t.procs p).pagetable = some root → ∃ t', freeproc kend p t = .ok t' ∧
      ∀ x a, Holds t.vm [root] x a → a ∈ t'.vm.free := by
  have hkend := kend_pos htext
  have hinv := run_inv hkend hnodup hram hboot hrun
  refine ⟨?_,?_,?_⟩
  · intro p root hroot
    obtain ⟨frame,-,hspace⟩ := hinv.space hroot
    refine ⟨BitVec.le_def.mpr (toNat_trapframe ▸ hspace.size),
      ⟨_,hspace.tramp,made_private _ (by decide)⟩,
      ⟨_,hspace.frame,made_private _ (by decide)⟩,?_⟩
    intro va pte ha hlt hpte
    have hva := leaf_isVa hinv.based.kept (mem_tables hroot) ha hlt hpte
    rcases isVa_cases hva with huser | rfl | rfl
    · right
      right
      rw [BitVec.lt_def, toNat_pgroundup _ (by have := hspace.size; omega)]
      by_contra hge
      rw [hspace.ends va huser (not_lt.mp hge)] at hpte
      cases hpte
    · exact .inr (.inl rfl)
    · exact .inl rfl
  · intro e r hr
    rcases perform_inv hkend hinv hr with ⟨t',rfl,-⟩ | rfl
    · exact .inl ⟨t',rfl⟩
    · exact .inr rfl
  · intro p root hroot
    exact freeproc_returns hinv hroot

def somePages : Vm := ⟨fun _ _ => 0#64,(List.range 24).map fun i =>
    0x80030000#64+BitVec.ofNat 64 (i*4096)⟩

/-- The first process grows lazily, touches a page and forks; the child grows, exits and is
freed. -/
def someLife : List Event :=
  [.call 0 (.sbrk 8192 2),.call 0 (.fault 4096),.call 0 .fork,.call 1 (.sbrk 4096 1),.call 1 .exit,
    .call 0 (.wait 0#64 fun _ _ => 0#64)]

theorem someLife_run : ∃ s t, boot 0x80030000#64 0x80001000#64 somePages = some s ∧
    run (step 0x80030000#64 0x80001000#64) someLife s = some t := by
  have hsome : ((boot 0x80030000#64 0x80001000#64 somePages).bind fun s =>
    run (step 0x80030000#64 0x80001000#64) someLife s).isSome = true := by decide +kernel
  obtain ⟨t,ht⟩ := Option.isSome_iff_exists.mp hsome
  obtain ⟨s,hs,ht⟩ := Option.bind_eq_some_iff.mp ht
  exact ⟨s,t,hs,ht⟩

theorem somePages_free : somePages.free.Nodup ∧ ∀ a ∈ somePages.free, Freeable 0x80030000#64 a := by
  have hall : (somePages.free.all fun a => a%pgsize = 0#64 ∧ 0x80030000#64 ≤ a ∧
    a < phystop) = true := by
    decide +kernel
  refine ⟨by decide +kernel,?_⟩
  intro a ha
  have hpage := List.all_eq_true.mp hall a ha
  rw [decide_eq_true_eq] at hpage
  exact hpage

theorem someLife_spaces : ∃ s t, boot 0x80030000#64 0x80001000#64 somePages = some s ∧
    run (step 0x80030000#64 0x80001000#64) someLife s = some t ∧
    ∀ p root, (t.procs p).pagetable = some root → (t.procs p).sz ≤ trapframe := by
  obtain ⟨s,t,hs,ht⟩ := someLife_run
  have hspaces := address_spaces (by decide) somePages_free.1 somePages_free.2 hs ht
  exact ⟨s,t,hs,ht,fun p root hroot => (hspaces.1 p root hroot).1⟩

end GreenOS.SpaceRuns
