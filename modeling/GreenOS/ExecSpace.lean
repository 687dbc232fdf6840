import GreenOS.ProcessSpace

/-!
# Building the image of a program

`exec` fills a new page table without holes, so that what it later reads and
writes there is mapped, and memory runs out long before the addresses do. The
new page table replaces the old one or is given back.
-/

namespace GreenOS.ExecSpace
open PageTable PageTree UserMemory PageOwners PageMoves UserGrowth UserCopies
open AddressSpaces ProcessSpace

variable {kend text frame : Word} {all : Set Word} {s s' : Vm} {roots hand : List Word}
    {root sz : Word}

variable {bound : ℕ} {va pte sp base proot : Word}

theorem Within.others (hnot : root ∉ roots) (h : Within (root::roots) root bound s s') :
    Same roots s s' := by
  intro root' hroot' va hva
  rcases h root' (List.mem_cons_of_mem _ hroot') va hva with heq | ⟨rfl,-⟩
  · exact heq
  · exact absurd hroot' hnot

theorem Dense.same (hroot : root ∈ roots) (hsame : Same roots s s') (h : Dense s root bound) :
    Dense s' root bound := by
  intro va hva hlt
  rw [hsame root hroot va hva]
  exact h va hva hlt

theorem leads_ne_zero (hkend : 0#64 < kend) (h : Kept kend all s roots hand) (hroot : root ∈ roots)
    (hva : UserVa va) (hpte : translate s root va = some pte) :
    pte2pa pte ≠ 0#64 ∧ Leads s root va (pte2pa pte) := by
  refine ⟨?_,hva,pte,hpte,rfl⟩
  have hge := (h.ram (x := .leaf root va) ⟨hroot,hva,pte,hpte,rfl⟩).2.1
  rintro heq
  rw [heq] at hge
  exact absurd hkend (BitVec.not_lt.mpr hge)

theorem loadseg_ok (hkend : 0#64 < kend) (h : Kept kend all s roots hand) (hroot : root ∈ roots)
    {ph : Proghdr} (hdense : Dense s root bound) (hbound : bound ≤ 2^38-8192)
    (ha : ph.vaddr.toNat%4096 = 0) (hlen : ph.vaddr.toNat+ph.filesz.toNat ≤ bound) :
    ∃ r s', loadseg root ph s = .ok (r,s') ∧ Kept kend all s' roots hand ∧ Fills root s s' := by
  obtain ⟨size,hsize⟩ : ∃ size, size = ph.filesz.setWidth 32 := ⟨_,rfl⟩
  have hle : size.toNat ≤ ph.filesz.toNat := by
    rw [hsize, BitVec.toNat_setWidth]
    exact Nat.mod_le ..
  have hloop : ∀ n i readable (s : Vm), Kept kend all s roots hand → Dense s root bound →
      i.toNat%4096 = 0 → ∃ r s', loadsegLoop root ph.vaddr size ph.data n i readable s
        = .ok (r,s') ∧
        Kept kend all s' roots hand ∧ Fills root s s' := by
    intro n
    induction n with
    | zero =>
      intro i readable s h _ _
      exact ⟨0,s,rfl,h,Fills.refl root s⟩
    | succ n ih =>
      intro i readable s h hdense hi
      unfold loadsegLoop
      by_cases hlt : i < size
      · have hlt' := BitVec.lt_def.mp hlt
        have hva : (ph.vaddr+i.setWidth 64).toNat = ph.vaddr.toNat+i.toNat := by
          rw [BitVec.toNat_add, BitVec.toNat_setWidth]
          omega
        have huser : UserVa (ph.vaddr+i.setWidth 64) := userVa_iff.mpr (by omega)
        obtain ⟨pte,hpte,hu⟩ := hdense _ huser.1 (by omega)
        obtain ⟨hpa,hleads⟩ := leads_ne_zero hkend h hroot huser hpte
        simp only [hlt, if_true, walkaddr_user huser.1.2 hpte hu, bind, Except.bind, hpa, if_false]
        obtain ⟨hkept₁,hsame₁⟩ := store_user h hroot hleads (ph.data (pte2pa pte))
        have hfills₁ := fills_store hleads (ph.data (pte2pa pte))
        cases readable with
        | zero => exact ⟨-1,_,rfl,hkept₁,hfills₁⟩
        | succ readable =>
          obtain ⟨r,s',hok,hkept,hfills⟩ :=
            ih (i+4096) readable _ hkept₁ (Dense.same hroot hsame₁ hdense) (by
            rw [BitVec.toNat_add, show BitVec.toNat (4096 : BitVec 32) = 4096 from rfl]
            omega)
          exact ⟨r,s',hok,hkept,hfills₁.trans hfills h hroot⟩
      · rw [if_neg hlt]
        exact ⟨0,s,rfl,h,Fills.refl root s⟩
  rw [loadseg, ← hsize]
  exact hloop _ _ _ s h hdense rfl

structure Full (text frame : Word) (s : Vm) (root sz : Word) : Prop where
  space : Space text frame s root sz
  dense : Dense s root (up sz.toNat)

theorem Full.same (hroot : root ∈ roots) (h : Full text frame s root sz) (hsame : Same roots s s') :
    Full text frame s' root sz := ⟨h.space.same hroot hsame,Dense.same hroot hsame h.dense⟩

theorem full_empty (h : Space text frame s root 0#64) : Full text frame s root 0#64 := by
  refine ⟨h,fun va _ hlt => ?_⟩
  rw [show up (BitVec.toNat 0#64) = 0 by decide] at hlt
  exact absurd hlt (Nat.not_lt_zero _)

theorem uvmalloc_full {xperm : Word} (newsz : Word) (hx : IsPerm xperm)
    (h : Kept kend all s roots hand)
    (hroot : root ∈ roots) (hfull : Full text frame s root sz) :
    ∃ sz1 s', uvmalloc kend root sz newsz xperm s = .ok (sz1,s') ∧ Kept kend all s' roots hand ∧
      Leaves root s s' ∧ (sz1 = 0#64 ∧ Space text frame s' root sz ∨
        sz1 ≠ 0#64 ∧ Full text frame s' root sz1 ∧ newsz.toNat ≤ sz1.toNat ∧
          (sz ≤ newsz → sz1 = newsz)) := by
  rcases uvmalloc_ok newsz hx h hroot hfull.space.size hfull.space.ends (.inr hfull.dense) with
    ⟨hlt,hok⟩ | ⟨s',hok,hkept,hsame,hleaves⟩ | ⟨s',hok,hkept,hle,hsz,hgrow,hleaves⟩
  · refine ⟨sz,s,hok,h,Leaves.refl root s,.inr ⟨?_,hfull,hlt.le,?_⟩⟩
    · rintro rfl
      exact absurd hlt (Nat.not_lt_zero _)
    · intro hle
      rw [BitVec.le_def] at hle
      omega
  · exact ⟨0#64,s',hok,hkept,hleaves,.inl ⟨rfl,hfull.space.same hroot hsame⟩⟩
  · have hwithin := Grow.within hgrow (up_le hsz)
    have hspace : Space text frame s' root newsz :=
      hfull.space.within hroot hsz (by unfold up; omega) hwithin (fun _ => le_rfl)
    refine ⟨newsz,s',hok,hkept,hleaves,?_⟩
    by_cases hzero : newsz = 0#64
    · have hszero : sz = 0#64 := by
        rw [hzero] at hle
        exact BitVec.eq_of_toNat_eq (Nat.le_zero.mp hle)
      exact .inl ⟨hzero,by rw [hszero, ← hzero]; exact hspace⟩
    · refine .inr ⟨hzero,⟨hspace,?_⟩,le_rfl,fun _ => rfl⟩
      intro va hva hlt
      have hpage := hgrow root hroot va hva
      have halign := (isVa_iff.mp hva).1
      split_ifs at hpage with hx
      · exact hpage
      · rw [hpage]
        refine hfull.dense va hva ?_
        by_contra hge
        refine hx ⟨rfl,not_lt.mp hge,?_⟩
        unfold up at hlt
        omega

theorem isPerm_flags2perm (flags : BitVec 32) : IsPerm (flags2perm flags) := by
  apply isPerm_or
  · split_ifs
    · exact ⟨8,by decide⟩
    · exact ⟨0,by decide⟩
  · split_ifs
    · exact ⟨4,by decide⟩
    · exact ⟨0,by decide⟩

theorem segment_end {ph : Proghdr} {sz1 : Word} (hmem : ¬ ph.memsz < ph.filesz)
    (hwrap : ¬ ph.vaddr+ph.memsz < ph.vaddr) (hle : (ph.vaddr+ph.memsz).toNat ≤ sz1.toNat) :
    ph.vaddr.toNat+ph.filesz.toNat ≤ up sz1.toNat := by
  have hsum : ph.vaddr.toNat+ph.memsz.toNat = (ph.vaddr+ph.memsz).toNat := by
    rw [BitVec.lt_def, BitVec.toNat_add] at hwrap
    rw [BitVec.toNat_add]
    have := ph.vaddr.isLt
    have := ph.memsz.isLt
    omega
  rw [BitVec.lt_def, not_lt] at hmem
  have := le_up sz1.toNat
  omega

theorem segment_ok {ph : Proghdr} {sz1 : Word} (hkend : 0#64 < kend)
    (h : Kept kend all s roots hand)
    (hroot : root ∈ roots) (hfull : Full text frame s root sz1) (hmem : ¬ ph.memsz < ph.filesz)
    (hwrap : ¬ ph.vaddr+ph.memsz < ph.vaddr) (halign : ph.vaddr%pgsize = 0#64)
    (hle : (ph.vaddr+ph.memsz).toNat ≤ sz1.toNat) :
    ∃ r s', loadseg root ph s = .ok (r,s') ∧ Kept kend all s' roots hand ∧ Fills root s s' :=
  loadseg_ok hkend h hroot hfull.dense (up_le hfull.space.size) (aligned_iff.mp halign)
    (segment_end hmem hwrap hle)

theorem loadLoop_ok (hkend : 0#64 < kend) (hroot : root ∈ roots) (phs : List (Option Proghdr))
    (h : Kept kend all s roots hand) (hfull : Full text frame s root sz) :
    ∃ good sz' s', loadLoop kend root phs sz s = .ok (good,sz',s') ∧ Kept kend all s' roots hand ∧
      Leaves root s s' ∧ Space text frame s' root sz' ∧
        (good = true → Full text frame s' root sz') := by
  induction phs generalizing s sz with
  | nil => exact ⟨true,sz,s,rfl,h,Leaves.refl root s,hfull.space,fun _ => hfull⟩
  | cons ph phs ih =>
    have hbad : ∃ good sz' s', (.ok (false,sz,s) : Except String (Bool × Word × Vm)) = .ok
      (good,sz',s') ∧
        Kept kend all s' roots hand ∧ Leaves root s s' ∧ Space text frame s' root sz' ∧
        (good = true → Full text frame s' root sz') :=
      ⟨false,sz,s,rfl,h,Leaves.refl root s,hfull.space,fun h => by cases h⟩
    cases ph with
    | none => exact hbad
    | some ph =>
      unfold loadLoop
      by_cases htype : ph.type ≠ 1
      · rw [if_pos htype]
        exact ih h hfull
      rw [if_neg htype]
      by_cases hmem : ph.memsz < ph.filesz
      · rw [if_pos hmem]
        exact hbad
      rw [if_neg hmem]
      by_cases hwrap : ph.vaddr+ph.memsz < ph.vaddr
      · rw [if_pos hwrap]
        exact hbad
      rw [if_neg hwrap]
      by_cases halign : ph.vaddr%pgsize ≠ 0#64
      · rw [if_pos halign]
        exact hbad
      rw [if_neg halign]
      obtain ⟨sz1,s₁,hok₁,hkept₁,hleaves₁,hcases⟩ := uvmalloc_full (ph.vaddr+ph.memsz)
        (isPerm_flags2perm ph.flags) h hroot hfull
      simp only [hok₁, bind, Except.bind]
      rcases hcases with ⟨rfl,hspace₁⟩ | ⟨hne,hfull₁,hle,-⟩
      · rw [if_pos rfl]
        exact ⟨false,sz,s₁,rfl,hkept₁,hleaves₁,hspace₁,fun h => by cases h⟩
      · rw [if_neg hne]
        obtain ⟨r,s₂,hok₂,hkept₂,hfills₂⟩ := segment_ok hkend hkept₁ hroot hfull₁ hmem hwrap
          (not_not.mp halign) hle
        have hfull₂ := hfull₁.same hroot (hfills₂.same hkept₁ hroot)
        have hleaves := hleaves₁.trans (hfills₂.leaves hkept₁ hroot)
        simp only [hok₂]
        by_cases hr : r < 0
        · rw [if_pos hr]
          exact ⟨false,sz1,s₂,rfl,hkept₂,hleaves,hfull₂.space,fun h => by cases h⟩
        · rw [if_neg hr]
          obtain ⟨good,sz',s',hok,hkept,hleaves',hspace,hgood⟩ := ih hkept₂ hfull₂
          exact ⟨good,sz',s',hok,hkept,hleaves.trans hleaves',hspace,hgood⟩

theorem copyout_page (proot psz : Word) {len : Word} (hkend : 0#64 < kend)
    (h : Kept kend all s roots hand) (hroot : root ∈ roots) (hva : UserVa va)
    (hpte : translate s root va = some pte) (hu : pte&&&pteU ≠ 0#64) (hlow : va.toNat ≤ sp.toNat)
    (hpos : 0 < len.toNat) (hhigh : sp.toNat+len.toNat ≤ va.toNat+4096)
    (data : Word → Index → Word) :
    ∃ r s', copyout kend proot psz root sp len data s = .ok (r,s') ∧ Kept kend all s' roots hand ∧
      Fills root s s' := by
  obtain ⟨halign,hlt⟩ := userVa_iff.mp hva
  obtain ⟨hpa,hleads⟩ := leads_ne_zero hkend h hroot hva hpte
  obtain ⟨t,ht,-,-⟩ := translate_eq_some.mp hpte
  have hdown : pgrounddown sp = va := by
    apply BitVec.eq_of_toNat_eq
    rw [toNat_pgrounddown]
    omega
  have hlen : 0#64 < len := BitVec.lt_def.mpr hpos
  have hmax : ¬ maxva ≤ va := BitVec.not_le.mpr hva.1.2
  have hpage : userPage kend proot psz root va s = .ok (pte2pa pte,s) := by
    simp only [userPage, walkaddr_user hva.1.2 hpte hu, bind, Except.bind, hpa, if_false]
  -- the first round copies everything
  have hall : len-(if len < pgsize-(sp-va) then len else pgsize-(sp-va)) = 0#64 := by
    have hroom : (pgsize-(sp-va)).toNat = va.toNat+4096-sp.toNat := by
      rw [BitVec.toNat_sub, BitVec.toNat_sub, toNat_pgsize]
      omega
    split_ifs with hlt
    · exact BitVec.sub_self len
    · rw [BitVec.lt_def, not_lt, hroom] at hlt
      have heq : pgsize-(sp-va) = len := BitVec.eq_of_toNat_eq (by omega)
      rw [heq]
      exact BitVec.sub_self len
  unfold copyout copyoutLoop
  simp only [hlen, if_true, hdown, hmax, if_false, hpage, bind, Except.bind, hpa, walk_look hva.1.2,
    lookup_eq.mpr ⟨ht,rfl⟩, hall]
  by_cases hw : s.mem t (px 0 va)&&&pteW = 0#64
  · rw [if_pos hw]
    exact ⟨-1,s,rfl,h,Fills.refl root s⟩
  · rw [if_neg hw]
    exact ⟨0,_,by rw [copyoutLoop, if_neg (by decide)],
      (store_user h hroot hleads (data (pte2pa pte))).1,
      fills_store hleads _⟩

structure Stack (s : Vm) (root stackbase : Word) : Prop where
  user : UserVa stackbase
  low : 4096 ≤ stackbase.toNat
  page : ∃ pte, translate s root stackbase = some pte ∧ pte&&&pteU ≠ 0#64

theorem Stack.same (hroot : root ∈ roots) (h : Stack s root base) (hsame : Same roots s s') :
    Stack s' root base := by
  refine ⟨h.user,h.low,?_⟩
  rw [hsame root hroot base h.user.1]
  exact h.page

theorem push_ok (proot psz : Word) (len : Word) (hkend : 0#64 < kend)
    (h : Kept kend all s roots hand) (hroot : root ∈ roots) (hstack : Stack s root base)
    (hlow : base.toNat ≤ sp.toNat) (hhigh : sp.toNat ≤ base.toNat+4096) (hpos : 0 < len.toNat)
    (hlen : len.toNat ≤ 4096) (data : Word → Index → Word) :
    ∃ r s', push kend proot psz root base data sp len s = .ok (r,s') ∧ Kept kend all s' roots hand ∧
      Fills root s s' ∧ ∀ sp', r = some sp' → base.toNat ≤ sp'.toNat ∧
        sp'.toNat ≤ base.toNat+4096 := by
  obtain ⟨pte,hpte,hu⟩ := hstack.page
  have hbase := hstack.low
  have hsub : (sp-len).toNat = sp.toNat-len.toNat := by
    rw [BitVec.toNat_sub]
    have := sp.isLt
    omega
  have hround : (sp-len-(sp-len)%16).toNat = (sp.toNat-len.toNat)-(sp.toNat-len.toNat)%16 := by
    have hmod : ((sp-len)%16).toNat = (sp.toNat-len.toNat)%16 := by
      rw [BitVec.toNat_umod, hsub]
      rfl
    rw [BitVec.toNat_sub, hmod, hsub]
    have := sp.isLt
    omega
  unfold push
  by_cases hlt : sp-len-(sp-len)%16 < base
  · refine ⟨none,s,by simp only [hlt, if_true],h,Fills.refl root s,fun sp' h => by cases h⟩
  · have hge := hlt
    rw [BitVec.lt_def, not_lt, hround] at hge
    have hend : (sp-len-(sp-len)%16).toNat+len.toNat ≤ base.toNat+4096 := by omega
    obtain ⟨r,s',hok,hkept,hfills⟩ := copyout_page proot psz hkend h hroot hstack.user hpte hu
      (hround.symm ▸ hge) hpos hend data
    simp only [hlt, if_false, hok, bind, Except.bind]
    by_cases hr : r < 0
    · rw [if_pos hr]
      exact ⟨none,s',rfl,hkept,hfills,fun sp' h => by cases h⟩
    · rw [if_neg hr]
      refine ⟨_,s',rfl,hkept,hfills,?_⟩
      intro sp' hsp
      cases hsp
      omega

theorem pushArgs_ok (proot psz : Word) (hkend : 0#64 < kend) (hroot : root ∈ roots)
    (data : Word → Index → Word) (lens : List Word) (hlens : ∀ len ∈ lens, len.toNat < 4096)
    (argc : ℕ) (hargc : argc ≤ 32) (sp : Word) (h : Kept kend all s roots hand)
    (hstack : Stack s root base) (hlow : base.toNat ≤ sp.toNat)
    (hhigh : sp.toNat ≤ base.toNat+4096) :
    ∃ r s', pushArgs kend proot psz root base data lens argc sp s = .ok (r,s') ∧
      Kept kend all s' roots hand ∧ Fills root s s' := by
  induction lens generalizing argc sp s with
  | nil =>
    have hnat : (BitVec.ofNat 64 ((argc+1)*8)).toNat = (argc+1)*8 := by
      rw [BitVec.toNat_ofNat]
      omega
    obtain ⟨r,s',hok,hkept,hfills,-⟩ := push_ok proot psz
      (BitVec.ofNat 64 ((argc+1)*8)) hkend h hroot hstack hlow hhigh (by omega) (by omega) data
    exact ⟨r,s',hok,hkept,hfills⟩
  | cons len lens ih =>
    unfold pushArgs
    by_cases hmany : 32 ≤ argc
    · rw [if_pos hmany]
      exact ⟨none,s,rfl,h,Fills.refl root s⟩
    · rw [if_neg hmany]
      have hlen := hlens len List.mem_cons_self
      have hnat : (len+1).toNat = len.toNat+1 := by
        rw [BitVec.toNat_add, show BitVec.toNat (1 : Word) = 1 from rfl]
        omega
      obtain ⟨r,s₁,hok,hkept,hfills,hsp⟩ := push_ok proot psz (len+1) hkend h hroot
        hstack hlow hhigh (by omega) (by omega) data
      simp only [hok, bind, Except.bind]
      cases r with
      | none => exact ⟨none,s₁,rfl,hkept,hfills⟩
      | some sp' =>
        obtain ⟨hlow',hhigh'⟩ := hsp sp' rfl
        obtain ⟨r,s',hok',hkept',hfills'⟩ := ih (fun l hl => hlens l (List.mem_cons_of_mem _ hl))
          (argc+1) (by omega) sp' hkept (hstack.same hroot (hfills.same h hroot)) hlow' hhigh'
        exact ⟨r,s',hok',hkept',hfills.trans hfills' h hroot⟩

/-- What `exec` leaves: the old image as it was, or a new one in its place. -/
def Replaced (kend : Word) (all : Set Word) (text frame proot : Word)
    (roots hand : List Word) (s : Vm) :
    Option (Word × Word) × Vm → Prop
  | (none,s') => Kept kend all s' (proot::roots) hand ∧ Same (proot::roots) s s'
  | (some (root,sz),s') => Kept kend all s' (root::roots) hand ∧ root ∉ roots ∧ Same roots s s' ∧
    Space text frame s' root sz

theorem kexecBad_ok {s₀ : Vm} (h₀ : Kept kend all s₀ (proot::roots) hand)
    (h : Kept kend all s (root::proot::roots) hand) (hnot : root ∉ proot::roots)
    (hspace : Space text frame s root sz) (hstarts : Starts root s₀ s) :
    ∃ r, kexecBad kend root sz s = .ok r ∧ Replaced kend all text frame proot roots hand s₀ r ∧
      (r.1 = none → Spares s₀ r.2) := by
  obtain ⟨s',hok,hkept,hsheds⟩ := procFreepagetable_ok h hnot hspace
  have hspares := hstarts.sheds hsheds
  exact ⟨(none,s'),by simp only [kexecBad, hok, bind, Except.bind],⟨hkept,hspares.same h₀⟩,
    fun _ => hspares⟩

theorem stack_ok (h : Kept kend all s roots hand) (hroot : root ∈ roots)
    (hfull : Full text frame s root (pgroundup sz+2*pgsize))
    (hround : (pgroundup sz).toNat = up sz.toNat) (hsz : sz.toNat ≤ 2^38-8192) :
    ∃ s', uvmclear root (pgroundup sz) s = .ok s' ∧ Kept kend all s' roots hand ∧ Leaves root s s' ∧
      Space text frame s' root (pgroundup sz+2*pgsize) ∧ Stack s' root (pgroundup sz+pgsize) := by
  have halign : up sz.toNat%4096 = 0 := by
    unfold up
    omega
  have hend : (pgroundup sz+2*pgsize).toNat = up sz.toNat+8192 := by
    rw [BitVec.toNat_add, hround, show BitVec.toNat (2*pgsize) = 8192 by decide]
    have := up_le hsz
    omega
  have hbase : (pgroundup sz+pgsize).toNat = up sz.toNat+4096 := by
    rw [← hround]
    exact toNat_next (by have := up_le hsz; omega)
  have hbound := hfull.space.size
  rw [hend] at hbound
  have hup : up (pgroundup sz+2*pgsize).toNat = up sz.toNat+8192 := by
    rw [hend]
    exact up_of_aligned (by omega)
  have huser : UserVa (pgroundup sz) := userVa_iff.mpr (by omega)
  have hbaseUser : UserVa (pgroundup sz+pgsize) := userVa_iff.mpr (by omega)
  obtain ⟨pte,hpte,-⟩ := hfull.dense _ huser.1 (by omega)
  obtain ⟨s',hok,hkept,hput,hleaves⟩ := uvmclear_ok h hroot huser hpte
  have hbelow : (pgroundup sz).toNat < up sz.toNat+8192 := by omega
  have hwithin := Put.within hput huser hbelow
  refine ⟨s',hok,hkept,hleaves,?_,hbaseUser,by omega,?_⟩
  · exact hfull.space.within hroot hfull.space.size le_rfl hwithin (fun _ => hup.ge)
  · have hne : pgroundup sz+pgsize ≠ pgroundup sz := by
      intro heq
      rw [heq] at hbase
      omega
    rw [hput root hroot _ hbaseUser.1, if_neg (fun hx => hne hx.2)]
    exact hfull.dense _ hbaseUser.1 (by omega)

theorem kexec_ok {psz : Word} (hkend : 0#64 < kend) (image : Option Image) (lens : List Word)
    (hlens : ∀ len ∈ lens, len.toNat < 4096) (data : Word → Index → Word)
    (h : Kept kend all s (proot::roots) hand) (hnot : proot ∉ roots)
    (hold : Space text frame s proot psz) :
    ∃ r, kexec kend text proot psz frame image lens data s = .ok r ∧
      Replaced kend all text frame proot roots hand s r ∧ (r.1 = none → Spares s r.2) := by
  have hnone : Replaced kend all text frame proot roots hand s (none,s) := ⟨h,Same.refl _ s⟩
  unfold kexec
  cases image with
  | none => exact ⟨(none,s),rfl,hnone,fun _ => Spares.refl s⟩
  | some image =>
    by_cases helf : ¬ image.elf = true
    · simp only [helf]
      exact ⟨(none,s),rfl,hnone,fun _ => Spares.refl s⟩
    simp only [helf, if_false]
    rcases procPagetable_ok text frame h with
      ⟨s₁,hok₁,hkept₁,hspares₁⟩ | ⟨root,s₁,hok₁,hkept₁,hfresh,hstarts₁,hspace₁⟩
    · exact ⟨(none,s₁),by simp only [hok₁, bind, Except.bind],⟨hkept₁,hspares₁.same h⟩,
        fun _ => hspares₁⟩
    have hroot : root ∈ root::proot::roots := List.mem_cons_self
    have hfull₁ := full_empty hspace₁
    obtain ⟨good,sz,s₂,hok₂,hkept₂,hleaves₂,hspace₂,hgood⟩ :=
      loadLoop_ok hkend hroot image.headers hkept₁ hfull₁
    have hstarts₂ := hstarts₁.leaves hleaves₂
    have hload : loadLoop kend root image.headers 0 s₁ = .ok (good,sz,s₂) := hok₂
    simp only [hok₁, hload, bind, Except.bind]
    cases good with
    | false =>
      simp only [Bool.false_eq_true, not_false_eq_true, if_true]
      exact kexecBad_ok h hkept₂ hfresh hspace₂ hstarts₂
    | true =>
    simp only [not_true_eq_false, if_false]
    have hfull₂ := hgood rfl
    have hround : (pgroundup sz).toNat = up sz.toNat :=
      toNat_pgroundup sz (by have := hspace₂.size; omega)
    have hidem : up (pgroundup sz).toNat = up sz.toNat := by
      rw [hround]
      unfold up
      omega
    have hfull₂' : Full text frame s₂ root (pgroundup sz) := by
      refine ⟨hspace₂.enlarge (hround ▸ up_le hspace₂.size) hidem.ge,?_⟩
      rw [hidem]
      exact hfull₂.dense
    obtain ⟨sz1,s₃,hok₃,hkept₃,hleaves₃,hcases⟩ := uvmalloc_full (pgroundup sz+2*pgsize)
      isPerm_write hkept₂ hroot hfull₂'
    have hstarts₃ := hstarts₂.leaves hleaves₃
    simp only [hok₃]
    rcases hcases with ⟨rfl,hspace₃⟩ | ⟨hne,hfull₃,-,hsz⟩
    · rw [if_pos rfl]
      exact kexecBad_ok h hkept₃ hfresh hspace₃ hstarts₃
    rw [if_neg hne]
    obtain rfl : sz1 = pgroundup sz+2*pgsize := hsz (by
      rw [BitVec.le_def, BitVec.toNat_add, hround, show BitVec.toNat (2*pgsize) = 8192 by decide]
      have := up_le hspace₂.size
      omega)
    have hsub₂ : pgroundup sz+2*pgsize-2*pgsize = pgroundup sz := BitVec.add_sub_cancel ..
    have hsub₁ : pgroundup sz+2*pgsize-pgsize = pgroundup sz+pgsize := by
      rw [show 2*pgsize = pgsize+pgsize by decide, ← BitVec.add_assoc]
      exact BitVec.add_sub_cancel ..
    obtain ⟨s₄,hok₄,hkept₄,hleaves₄,hspace₄,hstack₄⟩ :=
      stack_ok hkept₃ hroot hfull₃ hround hspace₂.size
    have htop : (pgroundup sz+2*pgsize).toNat = (pgroundup sz+pgsize).toNat+4096 := by
      rw [show pgroundup sz+2*pgsize = pgroundup sz+pgsize+pgsize by
        rw [show 2*pgsize = pgsize+pgsize by decide, BitVec.add_assoc]]
      have := (userVa_iff.mp hstack₄.user).2
      exact toNat_next (by omega)
    obtain ⟨sp,s₅,hok₅,hkept₅,hfills₅⟩ :=
      pushArgs_ok proot psz hkend hroot data lens hlens 0 (by decide)
      (pgroundup sz+2*pgsize) hkept₄ hstack₄ (by omega) (by omega)
    have hspace₅ := hspace₄.same hroot (hfills₅.same hkept₄ hroot)
    have hstarts₅ := (hstarts₃.leaves hleaves₄).leaves (hfills₅.leaves hkept₄ hroot)
    simp only [hsub₂, hok₄, hsub₁, hok₅]
    cases sp with
    | none => exact kexecBad_ok h hkept₅ hfresh hspace₅ hstarts₅
    | some sp =>
      -- now the old page table goes
      have hsame₅ := hstarts₅.same h
      have hold₅ := hold.same List.mem_cons_self hsame₅
      have hkept₅ : Kept kend all s₅ (proot::root::roots) hand :=
        hkept₅.congr fun r => by simp only [List.mem_cons, or_left_comm]
      have hnot₅ : proot ∉ root::roots := by
        simp only [List.mem_cons, not_or]
        exact ⟨fun heq => hfresh (heq ▸ List.mem_cons_self),hnot⟩
      obtain ⟨s₆,hok₆,hkept₆,hsheds₆⟩ := procFreepagetable_ok hkept₅ hnot₅ hold₅
      have hsame₆ := hsheds₆.same hkept₅ hnot₅
      refine ⟨(some (root,pgroundup sz+2*pgsize),s₆),by simp only [hok₆],⟨hkept₆,?_,?_,?_⟩,
        fun hr => by cases hr⟩
      · exact fun hr => hfresh (List.mem_cons_of_mem _ hr)
      · intro root' hroot' va hva
        rw [hsame₆ root' (List.mem_cons_of_mem _ hroot') va hva,
          hsame₅ root' (List.mem_cons_of_mem _ hroot') va hva]
      · exact hspace₅.same List.mem_cons_self hsame₆

end GreenOS.ExecSpace
