import GreenOS.SpaceRuns

/-!
# The size of a process

`sbrk` gives a process the size it asks for or has no effect. What it adds is
cleared or left to be mapped later, what it takes away is free again, and every
other page of every process stays as it is.
-/

namespace GreenOS.HeapSize
open PageTable PageMap UserMemory PageOwners PageMoves PageFrames UserGrowth
open AddressSpaces ProcessSpace OptionTable SpaceSteps SpaceRuns StepRun

variable {kend text : Word} {all : Set Word} {t t' : Sys} {p q : Slot} {root frame va : Word}

/-- `sys_sbrk` of a process: what the call returns, and the system after it. -/
def sbrk (kend : Word) (p : Slot) (root : Word) (n mode : BitVec 32) (t : Sys) :
    Except String (Word × Sys) := do
  let (new,s) ← sysSbrk kend root (t.procs p).sz n mode t.vm
  .ok (if new.isSome then (t.procs p).sz else -1,resize p t (new,s))

def Unchanged (t t' : Sys) (q : Slot) (va : Word) : Prop :=
  ∀ root, (t.procs q).pagetable = some root → (t'.procs q).pagetable = some root ∧
    translate t'.vm root va = translate t.vm root va ∧
    ∀ pte, translate t.vm root va = some pte → t'.vm.mem (pte2pa pte) = t.vm.mem (pte2pa pte)

section Frames

theorem unchanged_of_detour (h : Inv kend all text t) (h' : Inv kend all text t')
    (hpage : text%pgsize = 0#64)
    (htext : text < kend) (hroot : root ∈ tables t) (hroot' : root ∈ tables t')
    (hdetour : Detour root t.vm t'.vm)
    (hva : IsVa va) (hpt : (t'.procs q).pagetable = (t.procs q).pagetable)
    (hsame : ∀ r, (t.procs q).pagetable = some r → translate t'.vm r va = translate t.vm r va) :
    Unchanged t t' q va := by
  intro r hr
  refine ⟨hpt.trans hr,hsame r hr,?_⟩
  intro pte hpte
  have hoff := mapped_off h hpage htext hroot hr hva hpte
  have hoff' := mapped_off h' hpage htext hroot' (hpt.trans hr) hva ((hsame r hr).trans hpte)
  exact hdetour.same hoff hoff'

end Frames

section Lengths
variable {sz : Word} {n : BitVec 32}

theorem toInt_signExtend (n : BitVec 32) : ((n.signExtend 64).toNat : ℤ) =
    if n.toInt < 0 then n.toInt+2^64 else n.toInt := by
  have hext : (n.signExtend 64).toInt = n.toInt := BitVec.toInt_signExtend_of_le (by decide)
  rw [BitVec.toInt_eq_toNat_cond] at hext
  have := (n.signExtend 64).isLt
  split_ifs at hext ⊢ <;> omega

theorem toNat_shrink (hn : n.toInt < 0) (hsz : sz.toNat ≤ 2^38-8192) :
    ((sz+n.signExtend 64).toNat : ℤ) =
      if (sz.toNat : ℤ)+n.toInt < 0 then sz.toNat+n.toInt+2^64 else sz.toNat+n.toInt := by
  have hext := toInt_signExtend n
  rw [if_pos hn] at hext
  have hlow : -2^31 ≤ n.toInt := BitVec.le_toInt n
  rw [BitVec.toNat_add]
  split_ifs <;> omega

end Lengths

section Calls
variable {s : Vm} {roots hand : List Word} {sz : Word}

def addedPages (sz : Word) (n : BitVec 32) : List Word :=
  pagesTo (pgroundup sz) ((sz.toNat : ℤ)+n.toInt).toNat

theorem addedPages_nil {n : BitVec 32} (hn : n.toInt ≤ 0) (hsz : sz.toNat ≤ 2^38-8192) :
    addedPages sz n = [] := by
  have hup := toNat_pgroundup sz (by omega)
  apply pagesTo_nil
  · rw [hup, up]
    omega
  · rw [hup, up]
    omega

theorem sysSbrk_cases (n mode : BitVec 32) (h : Kept kend all s roots hand) (hroot : root ∈ roots)
    (hspace : Space text frame s root sz) :
    ((sz.toNat : ℤ)+n.toInt < 0 ∧ sysSbrk kend root sz n mode s = .ok (some sz,s)) ∨
    ((2^38-8192 : ℤ) < sz.toNat+n.toInt ∧ sysSbrk kend root sz n mode s = .ok (none,s)) ∨
    (mode = sbrkEager ∧ s.free.length < needed s root (addedPages sz n) ∧
      ∃ s', sysSbrk kend root sz n mode s = .ok (none,s') ∧ Same roots s s' ∧ Detour root s s') ∨
    ∃ new s', sysSbrk kend root sz n mode s = .ok (some new,s') ∧ (new.toNat : ℤ) =
      sz.toNat+n.toInt ∧
      new.toNat ≤ 2^38-8192 ∧ (mode = sbrkEager → needed s root (addedPages sz n) ≤ s.free.length) ∧
      ((n.toInt < 0 ∧ Cut roots root (up new.toNat) (up sz.toNat) s s' ∧
          Dropped root (up new.toNat) (up sz.toNat) s s') ∨
        (0 ≤ n.toInt ∧ (mode = sbrkEager → n.toInt = 0) ∧ s' = s) ∨
        mode = sbrkEager ∧ 0 < n.toInt ∧ Grow roots root (up sz.toNat) new.toNat s s' ∧
          Takes root s s' ∧
          Zeroed root (pteR|||pteU|||pteW) (up sz.toNat) new.toNat s s') := by
  have hsz := hspace.size
  unfold sysSbrk
  by_cases hneg : n.toInt < 0
  · rw [if_pos (.inr hneg), growproc, if_neg (by omega), if_pos hneg]
    have hsum := toNat_shrink hneg hsz
    obtain ⟨s',hok,-,hcut,hdropped⟩ := uvmdealloc_ok (sz+n.signExtend 64) h hroot hsz
    simp only [hok, bind, Except.bind]
    by_cases hlow : (sz.toNat : ℤ)+n.toInt < 0
    · -- the sum wraps around to a size that is not smaller
      rw [if_pos hlow] at hsum
      have hle : sz ≤ sz+n.signExtend 64 := by
        have : -2^31 ≤ n.toInt := BitVec.le_toInt n
        rw [BitVec.le_def]
        omega
      rw [uvmdealloc, if_pos hle, if_pos hle] at hok
      cases hok
      exact .inl ⟨hlow,by rw [if_pos hle]⟩
    · rw [if_neg hlow] at hsum
      have hlt : ¬ sz ≤ sz+n.signExtend 64 := by
        rw [BitVec.le_def]
        omega
      rw [if_neg hlt] at hok ⊢
      refine .inr (.inr (.inr ⟨_,s',rfl,hsum,by omega,fun _ => ?_,
        .inl ⟨hneg,hcut,hdropped⟩⟩))
      rw [addedPages_nil hneg.le hsz, needed_nil]
      exact Nat.zero_le _
  · rw [not_lt] at hneg
    have hnat : (n.toNat : ℤ) = n.toInt := by
      rw [BitVec.toInt_eq_toNat_cond] at hneg ⊢
      split_ifs at hneg ⊢ <;> omega
    have hsum := toNat_grow hneg hsz
    have hbigiff : trapframe < sz+n.signExtend 64 ↔ (2^38-8192 : ℤ) < sz.toNat+n.toInt := by
      rw [BitVec.lt_def, toNat_trapframe]
      omega
    by_cases hbig : (2^38-8192 : ℤ) < sz.toNat+n.toInt
    · right
      left
      refine ⟨hbig,?_⟩
      by_cases heager : mode = sbrkEager
      · rw [if_pos (.inl heager), growproc, if_pos (by omega), if_pos (hbigiff.mpr hbig)]
      · rw [if_neg (by rintro (h | h) <;> [exact heager h; omega]), if_neg,
          if_pos (hbigiff.mpr hbig)]
        rw [BitVec.lt_def]
        omega
    have hnew : (sz+n.signExtend 64).toNat ≤ 2^38-8192 := by omega
    have hint : ((sz+n.signExtend 64).toNat : ℤ) = sz.toNat+n.toInt := by omega
    right
    right
    by_cases heager : mode = sbrkEager
    · rw [if_pos (.inl heager), growproc]
      rcases eq_or_lt_of_le hneg with hzero | hpos
      · rw [if_neg (by omega), if_neg (by omega)]
        refine .inr ⟨sz,s,rfl,by omega,hsz,fun _ => ?_,.inr (.inl ⟨hneg,fun _ => hzero.symm,rfl⟩)⟩
        rw [addedPages_nil hzero.symm.le hsz, needed_nil]
        exact Nat.zero_le _
      · have hadded : addedPages sz n = pagesTo (pgroundup sz) (sz+n.signExtend 64).toNat := by
          rw [addedPages, ← hint, Int.toNat_natCast]
        rw [if_pos hpos, if_neg (fun hx => hbig (hbigiff.mp hx)), hadded]
        rcases uvmalloc_exact (sz+n.signExtend 64) isPerm_write h hroot hsz hspace.ends
          (.inl hnew) with
          ⟨hlt,-⟩ | ⟨hfew,s',hok,-,hsame,-,hdetour⟩ | ⟨henough,s',hok,-,-,-,hgrow,-,htakes,hzero⟩
        · omega
        · exact .inl ⟨heager,hfew,s',by simp [hok, bind, Except.bind],hsame,hdetour⟩
        · have hne : sz+n.signExtend 64 ≠ 0#64 := by
            intro hx
            have := congrArg BitVec.toNat hx
            simp only [BitVec.toNat_ofNat] at this
            omega
          refine .inr ⟨_,s',by simp only [hok, bind, Except.bind, if_neg hne],hint,hnew,
            fun _ => henough,
            .inr (.inr ⟨heager,hpos,hgrow,htakes,hzero⟩)⟩
    · rw [if_neg (by rintro (h | h) <;> [exact heager h; omega]), if_neg,
        if_neg (fun hx => hbig (hbigiff.mp hx))]
      · exact .inr ⟨_,s,rfl,hint,hnew,fun hx => absurd hx heager,
          .inr (.inl ⟨hneg,fun hx => absurd hx heager,rfl⟩)⟩
      · rw [BitVec.lt_def]
        omega

end Calls

section Results

theorem resize_pagetable (p q : Slot) (t : Sys) (r : Option Word × Vm) :
    ((resize p t r).procs q).pagetable = (t.procs q).pagetable := by
  obtain ⟨new,s⟩ := r
  cases new with
  | none => rfl
  | some new =>
    by_cases hq : q = p
    · subst hq
      simp [resize, setProc]
    · simp [resize, setProc, hq]

variable {n mode : BitVec 32} {s : Vm}

theorem sbrk_inv {new : Option Word} (hkend : 0#64 < kend) (h : Inv kend all text t)
    (hlive : (t.procs p).life = .live) (hroot : (t.procs p).pagetable = some root)
    (hok : sysSbrk kend root (t.procs p).sz n mode t.vm = .ok (new,s)) :
    Inv kend all text (resize p t (new,s)) := by
  obtain ⟨frame,hframe,-⟩ := h.space hroot
  have hstep : step kend text (.call p (.sbrk n mode)) t = some (resize p t (new,s)) := by
    simp [step, perform, hlive, hroot, hframe, call, hok, bind, Except.bind, Except.toOption]
  exact step_inv hkend h hstep

/-- What `sbrk` leaves when it succeeds: the pages it covers anew are cleared or not there,
those from the new size on are free, and no other page has changed. -/
structure Resized (eager : Prop) (t t' : Sys) (p : Slot) (root : Word) (new : ℕ) : Prop where
  size : (t'.procs p).sz.toNat = new
  others : ∀ q, q ≠ p → t'.procs q = t.procs q
  fresh : eager → ∀ va, UserVa va → up (t.procs p).sz.toNat ≤ va.toNat → va.toNat < new →
    ∃ pte, translate t'.vm root va = some pte ∧ pte2pa pte ∈ t.vm.free ∧
      pteFlags pte = pteV|||pteR|||pteW|||pteU ∧
      t'.vm.mem (pte2pa pte) = fun _ => 0#64
  unmapped : ¬ eager → ∀ va, UserVa va → up (t.procs p).sz.toNat ≤ va.toNat →
    translate t'.vm root va = none
  freed : ∀ va, UserVa va → up new ≤ va.toNat → translate t'.vm root va = none ∧
    ∀ pte, translate t.vm root va = some pte → pte2pa pte ∈ t'.vm.free
  kept : ∀ q va, IsVa va →
    ¬ (q = p ∧ UserVa va ∧ (up (t.procs p).sz.toNat ≤ va.toNat ∨ up new ≤ va.toNat)) →
    Unchanged t t' q va

theorem kept_outside (lo hi : ℕ) (h : Inv kend all text t) (h' : Inv kend all text t')
    (hpage : text%pgsize = 0#64)
    (htext : text < kend) (hpt : ∀ q, (t'.procs q).pagetable = (t.procs q).pagetable)
    (hroot : (t.procs p).pagetable = some root) (hdetour : Detour root t.vm t'.vm)
    (hhi : hi ≤ 2^38-8192)
    (hsame : ∀ r ∈ tables t, ∀ va, IsVa va → ¬ (r = root ∧ lo ≤ va.toNat ∧ va.toNat < hi) →
      translate t'.vm r va = translate t.vm r va)
    (hva : IsVa va) (hnot : ¬ (q = p ∧ UserVa va ∧ lo ≤ va.toNat)) : Unchanged t t' q va := by
  have hroot' : root ∈ tables t' := mem_tables ((hpt p).trans hroot)
  refine unchanged_of_detour h h' hpage htext (mem_tables hroot) hroot' hdetour hva (hpt q) ?_
  intro r hr
  refine hsame r (mem_tables hr) va hva ?_
  rintro ⟨rfl,hlo,hlt⟩
  refine hnot ⟨entries_inj h.based.nodup hr hroot,userVa_iff.mpr ⟨(isVa_iff.mp hva).1,by omega⟩,hlo⟩

theorem resized {new : Word} (hkend : 0#64 < kend) (h : Inv kend all text t)
    (hpage : text%pgsize = 0#64) (htext : text < kend) (hlive : (t.procs p).life = .live)
    (hroot : (t.procs p).pagetable = some root) (hspace : Space text frame t.vm root (t.procs p).sz)
    (hok : sysSbrk kend root (t.procs p).sz n mode t.vm = .ok (some new,s))
    (hnew : new.toNat ≤ 2^38-8192) (hint : (new.toNat : ℤ) = (t.procs p).sz.toNat+n.toInt)
    (hcases : (n.toInt < 0 ∧ Cut (tables t) root (up new.toNat) (up (t.procs p).sz.toNat) t.vm s ∧
        Dropped root (up new.toNat) (up (t.procs p).sz.toNat) t.vm s) ∨
      (0 ≤ n.toInt ∧ (mode = sbrkEager → n.toInt = 0) ∧ s = t.vm) ∨
      mode = sbrkEager ∧ 0 < n.toInt ∧ Grow (tables t) root (up (t.procs p).sz.toNat)
        new.toNat t.vm s ∧
        Takes root t.vm s ∧ Zeroed root (pteR|||pteU|||pteW) (up (t.procs p).sz.toNat)
          new.toNat t.vm s) :
    Resized (mode = sbrkEager) t (resize p t (some new,s)) p root new.toNat := by
  have hinv' := sbrk_inv hkend h hlive hroot hok
  have hpt : ∀ q, ((resize p t (some new,s)).procs q).pagetable = (t.procs q).pagetable :=
    fun q => resize_pagetable p q t _
  have hsize : ((resize p t (some new,s)).procs p).sz.toNat = new.toNat := by simp [resize, setProc]
  have hothers : ∀ q, q ≠ p → (resize p t (some new,s)).procs q = t.procs q :=
    fun q hq => Function.update_of_ne hq ..
  have hmem := mem_tables hroot
  have hends := hspace.ends
  have hsz := up_le hspace.size
  rcases hcases with ⟨hneg,hcut,hdropped⟩ | ⟨hpos,hzero,rfl⟩ | ⟨heager,hpos,hgrow,htakes,hzeroed⟩
  · have hle : up new.toNat ≤ up (t.procs p).sz.toNat := by
      unfold up
      omega
    have hgone : ∀ va, UserVa va → up new.toNat ≤ va.toNat → translate s root va = none := by
      intro va huser hge
      rw [hcut root hmem va huser.1]
      split_ifs with hx
      · rfl
      · exact hends va huser (not_lt.mp fun hlt => hx ⟨rfl,hge,hlt⟩)
    refine ⟨hsize,hothers,?_,fun _ va huser hge => hgone va huser (by omega),?_,?_⟩
    · intro _ va _ hge hlt
      have := le_up (t.procs p).sz.toNat
      omega
    · intro va huser hge
      refine ⟨hgone va huser hge,?_⟩
      intro pte hpte
      by_cases hlt : va.toNat < up (t.procs p).sz.toNat
      · exact hdropped.freed va pte huser hge hlt hpte
      · rw [hends va huser (by omega)] at hpte
        cases hpte
    · intro q va hva hnot
      refine kept_outside (up new.toNat) (up (t.procs p).sz.toNat) h hinv' hpage htext hpt hroot
        ⟨t.vm,Takes.refl root _,hdropped.gives⟩ hsz ?_ hva (fun hx =>
          hnot ⟨hx.1,hx.2.1,.inr hx.2.2⟩)
      intro r hr va hva hout
      exact (hcut r hr va hva).trans (if_neg hout)
  · have hle : up (t.procs p).sz.toNat ≤ up new.toNat := by
      unfold up
      omega
    refine ⟨hsize,hothers,?_,fun _ va huser hge => hends va huser hge,?_,?_⟩
    · intro heager va _ hge hlt
      have := hzero heager
      have := le_up (t.procs p).sz.toNat
      omega
    · intro va huser hge
      have hnone := hends va huser (by omega)
      exact ⟨hnone,fun pte hpte => by cases hnone.symm.trans hpte⟩
    · intro q va _ _ r hr
      exact ⟨(hpt q).trans hr,rfl,fun _ _ => rfl⟩
  · have hle : up (t.procs p).sz.toNat ≤ up new.toNat := by
      unfold up
      omega
    refine ⟨hsize,hothers,?_,fun hlazy => absurd heager hlazy,?_,?_⟩
    · intro _ va huser hge hlt
      obtain ⟨mem,hfree,hpte,hzero⟩ := hzeroed va huser.1 hge hlt
      have hperm : IsPerm (pteR|||pteU|||pteW) := ⟨22,by decide⟩
      have hpa := pte2pa_perm hperm (h.based.kept.pool (List.mem_append_left _ hfree))
      refine ⟨_,hpte,by rwa [hpa],?_,by rw [hpa]; exact hzero⟩
      rw [pteFlags_perm hperm]
      decide
    · intro va huser hge
      have hafter := hgrow root hmem va huser.1
      rw [if_neg (by have := le_up new.toNat; omega)] at hafter
      have hnone := hends va huser (by omega)
      exact ⟨hafter.trans hnone,fun pte hpte => by cases hnone.symm.trans hpte⟩
    · intro q va hva hnot
      refine kept_outside (up (t.procs p).sz.toNat) new.toNat h hinv' hpage htext hpt hroot
        ⟨s,htakes,Gives.refl root _⟩ hnew ?_ hva (fun hx => hnot ⟨hx.1,hx.2.1,.inl hx.2.2⟩)
      intro r hr va hva hout
      have hafter := hgrow r hr va hva
      rwa [if_neg hout] at hafter

/-- `sbrk` is exact or has no effect, in every state that can be reached. -/
theorem sbrk_exact {vm : Vm} {es : List Event} {s : Sys} (hpage : text%pgsize = 0#64)
    (htext : text < kend)
    (hnodup : vm.free.Nodup) (hram : ∀ a ∈ vm.free, Freeable kend a)
    (hboot : boot kend text vm = some s)
    (hrun : run (step kend text) es s = some t) (hlive : (t.procs p).life = .live)
    (n mode : BitVec 32) :
    ∃ root r t', (t.procs p).pagetable = some root ∧ sbrk kend p root n mode t = .ok (r,t') ∧
      (0 ≤ ((t.procs p).sz.toNat : ℤ)+n.toInt → ((t.procs p).sz.toNat : ℤ)+n.toInt ≤
        trapframe.toNat →
        (mode = sbrkEager → needed t.vm root (addedPages (t.procs p).sz n) ≤ t.vm.free.length) →
        r = (t.procs p).sz ∧ Resized (mode = sbrkEager) t t' p root
          (((t.procs p).sz.toNat : ℤ)+n.toInt).toNat) ∧
      ((trapframe.toNat : ℤ) < (t.procs p).sz.toNat+n.toInt ∨
          mode = sbrkEager ∧ t.vm.free.length < needed t.vm root (addedPages (t.procs p).sz n) →
        r = -1 ∧ t'.procs = t.procs ∧ ∀ q va, IsVa va → Unchanged t t' q va) ∧
      (((t.procs p).sz.toNat : ℤ)+n.toInt < 0 → t' = t) := by
  have hkend := kend_pos htext
  have hinv := run_inv hkend hnodup hram hboot hrun
  obtain ⟨root,frame,hroot,-,hspace⟩ := hinv.process (p := p) (by rw [hlive]; decide)
  have hsz := hspace.size
  rw [toNat_trapframe]
  rcases sysSbrk_cases n mode hinv.based.kept (mem_tables hroot) hspace with
    ⟨hlow,hok⟩ | ⟨hbig,hok⟩ | ⟨heager,hfew,s',hok,hsame,hdetour⟩ | ⟨new,s',hok,hint,hnew,
      henough,hcases⟩
  · refine ⟨root,(t.procs p).sz,t,hroot,?_,fun h => by omega,?_,fun _ => rfl⟩
    · have hself : resize p t (some (t.procs p).sz,t.vm) = t := by simp [resize, setProc]
      simp [sbrk, hok, bind, Except.bind, hself]
    · rintro (hbig | ⟨-,hfew⟩)
      · omega
      · rw [addedPages_nil (by omega) hsz, needed_nil] at hfew
        omega
  · refine ⟨root,-1,resize p t (none,t.vm),hroot,by simp [sbrk, hok, bind, Except.bind],
      fun _ h => by omega,?_,
      fun h => by omega⟩
    exact fun _ => ⟨rfl,rfl,fun q va _ r hr => ⟨hr,rfl,fun _ _ => rfl⟩⟩
  · refine ⟨root,-1,resize p t (none,s'),hroot,by simp [sbrk, hok, bind, Except.bind],?_,?_,?_⟩
    · intro _ _ henough
      have := henough heager
      omega
    · refine fun _ => ⟨rfl,rfl,fun q va hva => ?_⟩
      exact unchanged_of_detour hinv (sbrk_inv hkend hinv hlive hroot hok) hpage htext
        (mem_tables hroot)
        (mem_tables (p := p) hroot) hdetour hva rfl (fun r hr => hsame r (mem_tables hr) va hva)
    · intro hlow
      rw [addedPages_nil (by omega) hsz, needed_nil] at hfew
      omega
  · refine ⟨root,(t.procs p).sz,resize p t (some new,s'),hroot,
      by simp [sbrk, hok, bind, Except.bind],?_,?_,
      fun h => by omega⟩
    · intro _ _ _
      refine ⟨rfl,?_⟩
      rw [← hint, Int.toNat_natCast]
      exact resized hkend hinv hpage htext hlive hroot hspace hok hnew hint hcases
    · rintro (hbig | ⟨heager,hfew⟩)
      · omega
      · have := henough heager
        omega

theorem someLife_room : ∃ s t, boot 0x80030000#64 0x80001000#64 somePages = some s ∧
    run (step 0x80030000#64 0x80001000#64) someLife s = some t ∧ (t.procs 0).life = .live ∧
    (t.procs 0).sz = 8192#64 ∧ ∀ root, (t.procs 0).pagetable = some root →
      needed t.vm root (addedPages 8192#64 4096#32) ≤ t.vm.free.length := by
  have hsome : ((boot 0x80030000#64 0x80001000#64 somePages).bind fun s =>
      (run (step 0x80030000#64 0x80001000#64) someLife s).filter fun t =>
        (t.procs 0).life = .live ∧ (t.procs 0).sz = 8192#64 ∧ ((t.procs 0).pagetable.all fun root =>
          needed t.vm root (addedPages 8192#64 4096#32) ≤ t.vm.free.length) =
            true).isSome = true := by
    decide +kernel
  obtain ⟨t,ht⟩ := Option.isSome_iff_exists.mp hsome
  obtain ⟨s,hs,ht⟩ := Option.bind_eq_some_iff.mp ht
  obtain ⟨ht,hroom⟩ := Option.filter_eq_some_iff.mp ht
  rw [decide_eq_true_eq] at hroom
  obtain ⟨hlive,hsz,hall⟩ := hroom
  refine ⟨s,t,hs,ht,hlive,hsz,fun root hroot => ?_⟩
  rw [hroot, Option.all_some, decide_eq_true_eq] at hall
  exact hall

theorem someLife_sbrk : ∃ t root r t', sbrk 0x80030000#64 0 root 4096#32 sbrkEager t = .ok (r,t') ∧
    r = 8192#64 ∧ (t'.procs 0).sz.toNat = 12288 := by
  obtain ⟨s,t,hs,ht,hlive,hsz,hroom⟩ := someLife_room
  obtain ⟨root,r,t',hroot,hok,hgrow,-,-⟩ :=
    sbrk_exact (p := 0) (by decide) (by decide) somePages_free.1
    somePages_free.2 hs ht hlive 4096#32 sbrkEager
  rw [hsz] at hgrow
  obtain ⟨hr,hresized⟩ := hgrow (by decide) (by decide) (fun _ => hroom root hroot)
  exact ⟨t,root,r,t',hok,hr,hresized.size⟩

end Results

end GreenOS.HeapSize
