import GreenOS.UserGrowth

/-!
# Copying, faulting and the page tables of processes

What the copies between page tables and between kernel and user do to the page
tables: a copy to or from user memory may first map missing pages, and only
those of the process that runs, below its size.
-/

namespace GreenOS.UserCopies
open RadixTree PageTable PageTree PageMap UserMemory PageOwners PageMoves PageFrames UserGrowth

variable {kend : Word} {all : Set Word} {s s' : Vm} {roots hand : List Word} {root a va : Word}

variable {old new sz mem i pte psz : Word} {n hi : ℕ} {s₁ : Vm}

theorem uvmcopyLoop_next {t : Word} {k : Index} {s₂ : Vm} (hlt : i < sz) (hva : i < maxva)
    (hl : lookup s old i = some (t,k)) (hv : valid (s.mem t k) = true)
    (hk : kalloc s = (some mem,s₁))
    (hmap : mappages new i pgsize mem (pteFlags (s.mem t k))
      (store mem (s₁.mem (pte2pa (s.mem t k))) s₁) =
      .ok (0,s₂)) :
    uvmcopyLoop kend old new sz (n+1) i s = uvmcopyLoop kend old new sz n (i+pgsize) s₂ := by
  rw [uvmcopyLoop, if_pos hlt, walk_look hva, hl]
  simp [hv, hk, hmap, bind, Except.bind]

theorem uvmcopyLoop_skip (hlt : i < sz) (hva : i < maxva) (hnone : translate s old i = none) :
    uvmcopyLoop kend old new sz (n+1) i s = uvmcopyLoop kend old new sz n (i+pgsize) s := by
  rw [uvmcopyLoop, if_pos hlt, walk_look hva]
  cases hl : lookup s old i with
  | none => rfl
  | some x =>
    obtain ⟨t,k⟩ := x
    have hv : valid (s.mem t k) = false := by
      by_contra hv
      rw [Bool.not_eq_false] at hv
      simp [PageTable.translate, hl, hv] at hnone
    simp [hv, bind, Except.bind]

/-- The pages of a range that one page table maps are mapped by another one, on pages that were
free, with the same flags and contents. -/
def Copied (roots : List Word) (old new : Word) (lo hi : ℕ) (s s' : Vm) : Prop :=
  ∀ root' ∈ roots, ∀ va, IsVa va →
    if root' = new ∧ lo ≤ va.toNat ∧ va.toNat < hi then
      (translate s old va = none → translate s' new va = none) ∧
      ∀ pte, translate s old va = some pte → ∃ mem ∈ s.free,
        translate s' new va = some (pa2pte mem|||pteFlags pte|||pteV) ∧
          s'.mem mem = s.mem (pte2pa pte)
    else translate s' root' va = translate s root' va

theorem Copied.within (h : Copied roots old new 0 hi s s') (hhi : hi ≤ 2^38-8192) :
    Within roots new hi s s' := by
  intro root' hroot' va hva
  have hcopied := h root' hroot' va hva
  split_ifs at hcopied with hx
  · exact .inr ⟨hx.1,userVa_iff.mpr ⟨(isVa_iff.mp hva).1,by omega⟩,hx.2.2⟩
  · exact .inl hcopied

theorem copied_nil {lo : ℕ} (h : hi ≤ lo) : Copied roots old new lo hi s s := by
  intro root' _ va _
  rw [if_neg (by omega)]

theorem copied_skip (hva : IsVa va) (hlt : va.toNat < hi) (hold : translate s old va = none)
    (hnew : translate s new va = none) (h : Copied roots old new (va.toNat+4096) hi s s') :
    Copied roots old new va.toNat hi s s' := by
  intro root' hroot' va' hva'
  have hcopied := h root' hroot' va' hva'
  rw [isVa_iff] at hva hva'
  by_cases heq : root' = new ∧ va' = va
  · obtain ⟨rfl,rfl⟩ := heq
    rw [if_neg (by omega)] at hcopied
    rw [if_pos ⟨rfl,le_rfl,hlt⟩, hold]
    exact ⟨fun _ => hcopied.trans hnew,fun pte hpte => by cases hpte⟩
  · have hiff : (root' = new ∧ va.toNat+4096 ≤ va'.toNat ∧ va'.toNat < hi) ↔
        (root' = new ∧ va.toNat ≤ va'.toNat ∧ va'.toNat < hi) := by
      refine and_congr_right fun hr => ?_
      have hne : va'.toNat ≠ va.toNat := fun h => heq ⟨hr,BitVec.eq_of_toNat_eq h⟩
      omega
    simpa only [hiff] using hcopied

theorem copied_cons (h : Kept kend all s roots hand) (h₁ : Kept kend all s₁ roots hand)
    (hold : old ∈ roots) (hnew : new ∈ roots) (hva : UserVa va) (hlt : va.toNat < hi)
    (hhi : hi ≤ 2^38-8192) (hpte : translate s old va = some pte)
    (hput : Put roots new va (some (pa2pte mem|||pteFlags pte|||pteV)) s s₁)
    (hgrown : Grown new va (s.mem (pte2pa pte)) mem s s₁) (htakes : Takes new s₁ s')
    (hrest : Copied roots old new (va.toNat+4096) hi s₁ s') :
    Copied roots old new va.toNat hi s s' := by
  intro root' hroot' va' hva'
  have hcopied := hrest root' hroot' va' hva'
  have hput' := hput root' hroot' va' hva'
  have hva₀ := userVa_iff.mp hva
  have hva₁ := isVa_iff.mp hva'
  by_cases heq : root' = new ∧ va' = va
  · obtain ⟨rfl,rfl⟩ := heq
    rw [if_neg (by omega)] at hcopied
    rw [if_pos ⟨rfl,rfl⟩] at hput'
    rw [if_pos ⟨rfl,le_rfl,hlt⟩, hpte]
    refine ⟨fun hx => (nomatch hx),?_⟩
    rintro pte' hpte'
    cases hpte'
    have hmem : Freeable kend mem := h.pool (List.mem_append_left _ hgrown.took)
    have hoff : Off s₁ root' mem :=
      off_of_leaf h₁ hroot' ⟨hroot',hva,_,hput',pte2pa_perm (isPerm_flags pte) hmem⟩
    exact ⟨mem,hgrown.took,hcopied.trans hput',(htakes mem hoff).2.trans hgrown.holds⟩
  · rw [if_neg heq] at hput'
    by_cases hx : root' = new ∧ va.toNat ≤ va'.toNat ∧ va'.toNat < hi
    · obtain ⟨rfl,hlo,hva'hi⟩ := hx
      have hne : va' ≠ va := fun h => heq ⟨rfl,h⟩
      have hne' : va'.toNat ≠ va.toNat := fun h => hne (BitVec.eq_of_toNat_eq h)
      rw [if_pos ⟨rfl,by omega,hva'hi⟩] at hcopied
      rw [if_pos ⟨rfl,hlo,hva'hi⟩]
      -- the page copied from has not changed
      have hold' : translate s₁ old va' = translate s old va' := by
        rw [hput old hold va' hva', if_neg (fun hx => hne hx.2)]
      rw [hold'] at hcopied
      refine ⟨hcopied.1,?_⟩
      intro pte' hpte'
      obtain ⟨mem',hmem',htrans,hdata⟩ := hcopied.2 pte' hpte'
      have huser' : UserVa va' := userVa_iff.mpr ⟨hva₁.1,by omega⟩
      have hoff : Off s root' (pte2pa pte') := off_of_leaf h hroot' ⟨hold,huser',pte',hpte',rfl⟩
      exact ⟨mem',hgrown.sub mem' hmem',htrans,hdata.trans (hgrown.takes _ hoff).2⟩
    · rw [if_neg (fun hx' => hx ⟨hx'.1,by omega,hx'.2.2⟩)] at hcopied
      rw [if_neg hx]
      exact hcopied.trans hput'

theorem uvmcopyLoop_exact (n : ℕ) (h : Kept kend all s roots hand) (hold : old ∈ roots)
    (hnew : new ∈ roots) (hsz : sz.toNat ≤ 2^38-8192) (hi : i.toNat%4096 = 0)
    (hbound : i.toNat ≤ 2^38-8192) (hends : Ends s new i.toNat)
    (hfuel : sz.toNat ≤ i.toNat+n*4096) :
    (∃ s', uvmcopyLoop kend old new sz n i s = .ok (-1,s') ∧ Kept kend all s' roots hand ∧
      Cut roots new 0 i.toNat s s' ∧ Leaves new s s') ∨
    ∃ s', uvmcopyLoop kend old new sz n i s = .ok (0,s') ∧ Kept kend all s' roots hand ∧
      Copied roots old new i.toNat sz.toNat s s' ∧ Takes new s s' := by
  induction n generalizing i s with
  | zero => exact .inr ⟨s,rfl,h,copied_nil (by omega),Takes.refl new s⟩
  | succ n ih =>
    by_cases hlt : i < sz
    · have hlt' := BitVec.lt_def.mp hlt
      have huser : UserVa i := userVa_iff.mpr ⟨hi,by omega⟩
      have hnext : (i+pgsize).toNat = i.toNat+4096 := toNat_next (by omega)
      have hnone : translate s new i = none := hends i huser le_rfl
      cases hpte : translate s old i with
      | none =>
        rw [uvmcopyLoop_skip hlt huser.1.2 hpte]
        have hends' : Ends s new (i+pgsize).toNat := fun va hva hle => hends va hva (by omega)
        rcases ih (i := i+pgsize) h (by omega) (by omega) hends' (by omega) with
          ⟨s',hok,hkept,hcut,hleaves⟩ | ⟨s',hok,hkept,hcopied,htakes⟩
        · rw [hnext] at hcut
          exact .inl ⟨s',hok,hkept,cut_shorten huser.1 hnone hcut,hleaves⟩
        · rw [hnext] at hcopied
          exact .inr ⟨s',hok,hkept,copied_skip huser.1 hlt' hpte hnone hcopied,htakes⟩
      | some pte =>
        obtain ⟨t,ht,rfl,hv⟩ := translate_eq_some.mp hpte
        have hl : lookup s old i = some (t,px 0 i) := lookup_eq.mpr ⟨ht,rfl⟩
        have hback : ∀ s₁, Kept kend all s₁ roots hand → Same roots s s₁ → Takes new s s₁ →
            ∃ s', uvmunmap kend new 0#64 (i/pgsize) true s₁ = .ok s' ∧ Kept kend all s' roots hand ∧
              Cut roots new 0 i.toNat s s' ∧ Leaves new s s' := by
          intro s₁ hkept₁ hsame₁ htakes₁
          have hpages : (i/pgsize).toNat*4096 = i.toNat := by
            rw [BitVec.toNat_udiv, toNat_pgsize]
            omega
          obtain ⟨s',hok,hkept,hcut,hdropped⟩ := uvmunmap_user 0#64 (i/pgsize) hkept₁ hnew rfl (by
            rw [hpages, show BitVec.toNat 0#64 = 0 from rfl]
            omega)
          have hleaves := (leaves_of_same htakes₁ hnew hsame₁).trans
            (hdropped.leaves (Cut.back hcut hnew))
          rw [hpages, show BitVec.toNat 0#64 = 0 from rfl, Nat.zero_add] at hcut
          exact ⟨s',hok,hkept,Cut.of_same hsame₁ hcut,hleaves⟩
        rcases grow_exact (isPerm_flags (s.mem t (px 0 i)))
            (fun s₁ => s₁.mem (pte2pa (s.mem t (px 0 i)))) h hnew huser hnone with
          ⟨-,hk | ⟨mem,s₁,s₂,s₃,hk,hmap,hfree,hkept₃,hsame₃,htakes₃⟩⟩ | ⟨mem,s₁,s₂,hk,hmap,
            hkept₂,hput,hgrown⟩
        · obtain ⟨s',hok,hkept,hcut⟩ := hback s h (Same.refl roots s) (Takes.refl new s)
          refine .inl ⟨s',?_,hkept,hcut⟩
          rw [uvmcopyLoop, if_pos hlt, walk_look huser.1.2, hl]
          simp [hv, hk, hok, bind, Except.bind]
        · obtain ⟨s',hok,hkept,hcut⟩ := hback s₃ hkept₃ hsame₃ htakes₃
          refine .inl ⟨s',?_,hkept,hcut⟩
          rw [uvmcopyLoop, if_pos hlt, walk_look huser.1.2, hl]
          simp [hv, hk, hmap, hfree, hok, bind, Except.bind]
        · rw [uvmcopyLoop_next hlt huser.1.2 hl hv hk hmap]
          -- what is copied is what the page holds: the allocator has not given it out
          have hoff : Off s new (pte2pa (s.mem t (px 0 i))) :=
            off_of_leaf h hnew ⟨hold,huser,_,hpte,rfl⟩
          rw [((kalloc_takes (h.wellFormed hnew) hk).2.1 _ hoff).2] at hgrown
          have hends₂ : Ends s₂ new (i+pgsize).toNat := by
            rw [hnext]
            exact ends_put hnew hput (by omega) hends
          rcases ih (i := i+pgsize) hkept₂ (by omega) (by omega) hends₂ (by omega) with
            ⟨s',hok,hkept,hcut,hleaves⟩ | ⟨s',hok,hkept,hcopied,htakes⟩
          · rw [hnext] at hcut
            have hcut := cut_put (Nat.zero_le _) (by omega) hput hcut
            exact .inl ⟨s',hok,hkept,cut_shorten huser.1 hnone hcut,(hgrown.leaves h hnew
              (isPerm_flags _) hput).trans hleaves⟩
          · rw [hnext] at hcopied
            exact .inr ⟨s',hok,hkept,copied_cons h hkept₂ hold hnew huser hlt' hsz hpte hput hgrown
              htakes hcopied,
              hgrown.takes.trans htakes⟩
    · rw [uvmcopyLoop, if_neg hlt]
      rw [BitVec.lt_def, not_lt] at hlt
      exact .inr ⟨s,rfl,h,copied_nil hlt,Takes.refl new s⟩

theorem uvmcopy_exact (h : Kept kend all s roots hand) (hold : old ∈ roots) (hnew : new ∈ roots)
    (hsz : sz.toNat ≤ 2^38-8192) (hends : Ends s new 0) :
    (∃ s', uvmcopy kend old new sz s = .ok (-1,s') ∧ Kept kend all s' roots hand ∧ Same roots s s' ∧
      Leaves new s s') ∨
    ∃ s', uvmcopy kend old new sz s = .ok (0,s') ∧ Kept kend all s' roots hand ∧
      Copied roots old new 0 sz.toNat s s' ∧ Takes new s s' := by
  have hfuel : sz.toNat ≤ BitVec.toNat (0 : Word)+((sz/pgsize).toNat+1)*4096 := by
    rw [BitVec.toNat_udiv, toNat_pgsize]
    omega
  rcases uvmcopyLoop_exact (i := 0) ((sz/pgsize).toNat+1) h hold hnew hsz rfl
    (by simp) hends hfuel with
    ⟨s',hok,hkept,hcut,hleaves⟩ | hdone
  · refine .inl ⟨s',hok,hkept,?_,hleaves⟩
    intro root' hroot' va' hva'
    rw [hcut root' hroot' va' hva', if_neg]
    rintro ⟨-,-,hlt⟩
    exact absurd hlt (Nat.not_lt_zero _)
  · exact .inr hdone

theorem uvmcopy_ok (h : Kept kend all s roots hand) (hold : old ∈ roots) (hnew : new ∈ roots)
    (hsz : sz.toNat ≤ 2^38-8192) (hends : Ends s new 0) :
    (∃ s', uvmcopy kend old new sz s = .ok (-1,s') ∧ Kept kend all s' roots hand ∧
      Same roots s s') ∨
    ∃ s', uvmcopy kend old new sz s = .ok (0,s') ∧ Kept kend all s' roots hand ∧
      Within roots new sz.toNat s s' := by
  rcases uvmcopy_exact h hold hnew hsz hends with ⟨s',hok,hkept,hsame,-⟩ | ⟨s',hok,hkept,hcopied,-⟩
  · exact .inl ⟨s',hok,hkept,hsame⟩
  · exact .inr ⟨s',hok,hkept,hcopied.within hsz⟩

theorem uvmclear_ok (h : Kept kend all s roots hand) (hroot : root ∈ roots) (hva : UserVa va)
    (hpte : translate s root va = some pte) :
    ∃ s', uvmclear root va s = .ok s' ∧ Kept kend all s' roots hand ∧
      Put roots root va (some (pte&&&~~~pteU)) s s' ∧ Leaves root s s' := by
  obtain ⟨t,ht,rfl,hv⟩ := translate_eq_some.mp hpte
  have hl : lookup s root va = some (t,px 0 va) := lookup_eq.mpr ⟨ht,rfl⟩
  have hvalid : valid (s.mem t (px 0 va)&&&~~~pteU) = true := by
    rw [valid_eq] at hv ⊢
    rw [BitVec.getLsbD_and, hv]
    rfl
  have hpa : pte2pa (s.mem t (px 0 va)&&&~~~pteU) = pte2pa (s.mem t (px 0 va)) := by
    apply BitVec.eq_of_getLsbD_eq
    intro j hj
    simp only [pte2pa, BitVec.getLsbD_shiftLeft, BitVec.getLsbD_ushiftRight, BitVec.getLsbD_and]
    by_cases h12 : j < 12
    · simp [h12]
    · have hmask : (~~~pteU).getLsbD (10+(j-12)) = true := by
        rw [BitVec.getLsbD_not]
        have hoff : pteU.getLsbD (10+(j-12)) = false :=
          Nat.testBit_lt_two_pow ((by decide : pteU.toNat < 2^5).trans_le
            (Nat.pow_le_pow_right (by decide) (by omega)))
        rw [hoff]
        simp
        omega
      simp [hmask]
  have hput := put_of_leaf (s.mem t (px 0 va)&&&~~~pteU) h hroot hva.1 hl (Same.refl roots s)
  rw [hvalid, if_pos rfl] at hput
  refine ⟨_,?_,h.mapSame hroot hva hl hpte hvalid hpa,hput,
    (linked_leaf _ (h.wellFormed hroot) hl).takes.leaves fun va' pte' huser hpte' => .inl ?_⟩
  · rw [uvmclear, walk_look hva.1.2, hl]
    rfl
  · -- the entry still points to the same page
    rw [hput root hroot va' huser.1] at hpte'
    split_ifs at hpte' with hx
    · rw [hx.2, ← Option.some.inj hpte']
      exact ⟨_,hpte,hpa.symm⟩
    · exact ⟨_,hpte',rfl⟩

theorem walkaddr_ok (s : Vm) (root va : Word) : ∃ pa, walkaddr root va s = .ok pa ∧
    (pa ≠ 0#64 → va < maxva ∧ ∃ pte, translate s root va = some pte ∧ pte&&&pteU ≠ 0#64 ∧
      pte2pa pte = pa) := by
  unfold walkaddr
  by_cases hva : maxva ≤ va
  · rw [if_pos hva]
    exact ⟨0,rfl,fun h => absurd rfl h⟩
  · rw [if_neg hva]
    rw [BitVec.not_le] at hva
    rw [walk_look hva]
    cases hl : lookup s root va with
    | none => exact ⟨0,rfl,fun h => absurd rfl h⟩
    | some x =>
      obtain ⟨t,i⟩ := x
      simp only [bind, Except.bind]
      by_cases hv : valid (s.mem t i) = true
      · by_cases hu : s.mem t i&&&pteU = 0#64
        · exact ⟨0,by simp [hv, hu],fun h => absurd rfl h⟩
        · exact ⟨_,by simp [hv, hu],fun _ => ⟨hva,_,by simp [PageTable.translate, hl, hv],hu,rfl⟩⟩
      · exact ⟨0,by simp [hv],fun h => absurd rfl h⟩

theorem walkaddr_user (hva : va < maxva) (hpte : translate s root va = some pte)
    (hu : pte&&&pteU ≠ 0#64) : walkaddr root va s = .ok (pte2pa pte) := by
  obtain ⟨t,ht,rfl,hv⟩ := translate_eq_some.mp hpte
  have hl : lookup s root va = some (t,px 0 va) := lookup_eq.mpr ⟨ht,rfl⟩
  rw [walkaddr, if_neg (by simpa using hva), walk_look hva, hl]
  simp [hv, hu, bind, Except.bind]

theorem ismapped_ok (hva : va < maxva) : ismapped root va s = .ok (translate s root va).isSome := by
  rw [ismapped, walk_look hva]
  cases hl : lookup s root va with
  | none => simp [PageTable.translate, hl, bind, Except.bind]
  | some x =>
    obtain ⟨t,i⟩ := x
    cases hv : valid (s.mem t i) <;> simp [PageTable.translate, hl, hv, bind, Except.bind]

def Leads (s : Vm) (root va pa : Word) : Prop :=
  UserVa va ∧ ∃ pte, translate s root va = some pte ∧ pte2pa pte = pa

def Lazy (s : Vm) (root psz va : Word) : Prop := va < psz ∧ translate s root (pgrounddown va) = none

theorem vmfault_exact (va : Word) (h : Kept kend all s roots hand) (hroot : root ∈ roots)
    (hsz : psz.toNat ≤ 2^38-8192) :
    (¬ Lazy s root psz va ∧ vmfault kend root psz root va s = .ok (0,s)) ∨
    Lazy s root psz va ∧ UserVa (pgrounddown va) ∧
      ((s.free.length < needed s root [pgrounddown va] ∧ ∃ s',
        vmfault kend root psz root va s = .ok (0,s') ∧
        Kept kend all s' roots hand ∧ Same roots s s' ∧ Takes root s s') ∨
      ∃ mem s', vmfault kend root psz root va s = .ok (mem,s') ∧ Kept kend all s' roots hand ∧
        Put roots root (pgrounddown va) (some (pa2pte mem|||(pteW|||pteU|||pteR)|||pteV)) s s' ∧
        Grown root (pgrounddown va) (fun _ => 0#64) mem s s') := by
  unfold vmfault
  by_cases hge : psz ≤ va
  · rw [if_pos hge]
    exact .inl ⟨fun hlazy => absurd hge (BitVec.not_le.mpr hlazy.1),rfl⟩
  · rw [if_neg hge]
    have hlt := BitVec.not_le.mp hge
    rw [BitVec.le_def, not_le] at hge
    have hdown := toNat_pgrounddown va
    have huser : UserVa (pgrounddown va) := userVa_iff.mpr (by omega)
    simp only [ismapped_ok huser.1.2, bind, Except.bind]
    cases hpte : translate s root (pgrounddown va) with
    | some pte => exact .inl ⟨fun hlazy => (nomatch hlazy.2.symm.trans hpte),rfl⟩
    | none =>
      simp only [Option.isSome_none, Bool.false_eq_true, if_false]
      refine .inr ⟨⟨hlt,hpte⟩,huser,?_⟩
      have hperm : IsPerm (pteW|||pteU|||pteR) := ⟨22,by decide⟩
      rcases grow_exact hperm (fun _ _ => 0#64) h hroot huser hpte with
        ⟨hfew,hk | ⟨mem,s₁,s₂,s₃,hk,hmap,hfree,hkept₃,hsame₃,htakes₃⟩⟩ | ⟨mem,s₁,s₂,hk,hmap,
          hkept₂,hput,hgrown⟩
      · exact .inl ⟨hfew,s,by simp only [hk],h,Same.refl roots s,Takes.refl root s⟩
      · change mappages root _ pgsize mem _ (fill mem 0#64 s₁) = _ at hmap
        exact .inl ⟨hfew,s₃,by simp [hk, hmap, hfree],hkept₃,hsame₃,htakes₃⟩
      · change mappages root _ pgsize mem _ (fill mem 0#64 s₁) = _ at hmap
        exact .inr ⟨mem,s₂,by simp [hk, hmap],hkept₂,hput,hgrown⟩

/-- What page faults of a process do: missing pages below its size are mapped and cleared, and no
page changes but free pages and tables of the process. -/
structure Faulted (roots : List Word) (root : Word) (bound : ℕ) (s s' : Vm) : Prop where
  takes : Takes root s s'
  maps : ∀ root' ∈ roots, ∀ va, IsVa va → translate s' root' va = translate s root' va ∨
    root' = root ∧ UserVa va ∧ va.toNat < bound ∧ translate s root va = none ∧
      ∃ pte, translate s' root va = some pte ∧ s'.mem (pte2pa pte) = fun _ => 0#64

section Faults
variable {bound : ℕ} {s₁ : Vm}

theorem Faulted.within (h : Faulted roots root bound s s') : Within roots root bound s s' := by
  intro root' hroot' va hva
  rcases h.maps root' hroot' va hva with hsame | ⟨hr,huser,hlt,-⟩
  · exact .inl hsame
  · exact .inr ⟨hr,huser,hlt⟩

theorem faulted_of_same (htakes : Takes root s s') (hsame : Same roots s s') :
    Faulted roots root bound s s' :=
  ⟨htakes,fun root' hroot' va hva => .inl (hsame root' hroot' va hva)⟩

theorem Faulted.refl (s : Vm) : Faulted roots root bound s s :=
  faulted_of_same (Takes.refl root s) (Same.refl roots s)

theorem Faulted.trans (h : Faulted roots root bound s s₁) (h' : Faulted roots root bound s₁ s')
    (hkept : Kept kend all s₁ roots hand) (hroot : root ∈ roots) :
    Faulted roots root bound s s' := by
  refine ⟨h.takes.trans h'.takes,fun root' hroot' va hva => ?_⟩
  rcases h'.maps root' hroot' va hva with hsame' | ⟨rfl,huser,hlt,hnone,hnew⟩
  · rw [hsame']
    rcases h.maps root' hroot' va hva with hsame | ⟨rfl,huser,hlt,hnone,pte,hpte,hzero⟩
    · exact .inl hsame
    · -- the page is mapped now, so it is not written by later faults
      refine .inr ⟨rfl,huser,hlt,hnone,pte,hsame'.trans hpte,?_⟩
      rw [(h'.takes _ (off_of_leaf hkept hroot ⟨hroot,huser,pte,hpte,rfl⟩)).2, hzero]
  · rcases h.maps root' hroot' va hva with hsame | ⟨-,-,-,-,pte,hpte,-⟩
    · exact .inr ⟨rfl,huser,hlt,hsame ▸ hnone,hnew⟩
    · cases hnone.symm.trans hpte

end Faults

theorem vmfault_ok (va : Word) (h : Kept kend all s roots hand) (hroot : root ∈ roots)
    (hsz : psz.toNat ≤ 2^38-8192) :
    ∃ r s', vmfault kend root psz root va s = .ok (r,s') ∧ Kept kend all s' roots hand ∧
      Faulted roots root psz.toNat s s' ∧ (r ≠ 0#64 → Leads s' root (pgrounddown va) r) := by
  rcases vmfault_exact va h hroot hsz with
    ⟨-,hok⟩ | ⟨hlazy,huser,⟨-,s',hok,hkept,hsame,htakes⟩ | ⟨mem,s',hok,hkept,hput,hgrown⟩⟩
  · exact ⟨0,s,hok,h,Faulted.refl s,fun h => absurd rfl h⟩
  · exact ⟨0,s',hok,hkept,faulted_of_same htakes hsame,fun h => absurd rfl h⟩
  · have hlt : (pgrounddown va).toNat < psz.toNat := by
      have := BitVec.lt_def.mp hlazy.1
      rw [toNat_pgrounddown]
      omega
    have hperm : IsPerm (pteW|||pteU|||pteR) := ⟨22,by decide⟩
    have hpa := pte2pa_perm hperm (h.pool (List.mem_append_left _ hgrown.took))
    have hpte : translate s' root (pgrounddown va) = some
      (pa2pte mem|||(pteW|||pteU|||pteR)|||pteV) := by
      rw [hput root hroot _ huser.1, if_pos ⟨rfl,rfl⟩]
    refine ⟨mem,s',hok,hkept,⟨hgrown.takes,fun root' hroot' va' hva' => ?_⟩,fun _ =>
      ⟨huser,_,hpte,hpa⟩⟩
    by_cases hx : root' = root ∧ va' = pgrounddown va
    · obtain ⟨rfl,rfl⟩ := hx
      exact .inr ⟨rfl,huser,hlt,hlazy.2,_,hpte,by rw [hpa]; exact hgrown.holds⟩
    · exact .inl (by rw [hput root' hroot' va' hva', if_neg hx])

def Shielded (s : Vm) (root : Word) : Prop :=
  ∀ va pte, IsVa va → ¬ UserVa va → translate s root va = some pte → pte&&&pteU = 0#64

theorem Within.shielded {bound : ℕ} (hroot : root ∈ roots) (h : Within roots root bound s s')
    (hs : Shielded s root) : Shielded s' root := by
  intro va pte hva hother hpte
  rcases h root hroot va hva with heq | ⟨-,huser,-⟩
  · exact hs va pte hva hother (heq ▸ hpte)
  · exact absurd huser hother

theorem isVa_pgrounddown (h : pgrounddown va < maxva) : IsVa (pgrounddown va) := by
  rw [BitVec.lt_def, toNat_maxva] at h
  have := toNat_pgrounddown va
  exact isVa_iff.mpr (by omega)

theorem pgrounddown_idem (va : Word) : pgrounddown (pgrounddown va) = pgrounddown va := by
  apply BitVec.eq_of_toNat_eq
  rw [toNat_pgrounddown, toNat_pgrounddown]
  omega

theorem userPage_ok (va : Word) (h : Kept kend all s roots hand) (hroot : root ∈ roots)
    (hsz : psz.toNat ≤ 2^38-8192) (hs : Shielded s root) :
    ∃ pa s', userPage kend root psz root (pgrounddown va) s = .ok (pa,s') ∧
      Kept kend all s' roots hand ∧
      Faulted roots root psz.toNat s s' ∧ (pa ≠ 0#64 → Leads s' root (pgrounddown va) pa) := by
  obtain ⟨pa,hwalk,hfound⟩ := walkaddr_ok s root (pgrounddown va)
  simp only [userPage, hwalk, bind, Except.bind]
  by_cases hzero : pa = 0#64
  · rw [if_pos hzero]
    obtain ⟨r,s',hfault,hkept,hfaulted,hleads⟩ := vmfault_ok (pgrounddown va) h hroot hsz
    rw [pgrounddown_idem] at hleads
    exact ⟨r,s',hfault,hkept,hfaulted,hleads⟩
  · rw [if_neg hzero]
    obtain ⟨hlt,pte,hpte,hu,hpa⟩ := hfound hzero
    have hva := isVa_pgrounddown hlt
    have huser : UserVa (pgrounddown va) := by
      by_contra hother
      exact hu (hs _ pte hva hother hpte)
    exact ⟨pa,s,rfl,h,Faulted.refl s,fun _ => ⟨huser,pte,hpte,hpa⟩⟩

theorem copyin_ok (hroot : root ∈ roots) (hsz : psz.toNat ≤ 2^38-8192) (srcva len : Word)
    (h : Kept kend all s roots hand) (hs : Shielded s root) :
    ∃ r s', copyin kend root psz root srcva len s = .ok (r,s') ∧ Kept kend all s' roots hand ∧
      Faulted roots root psz.toNat s s' := by
  unfold copyin
  generalize (len/pgsize).toNat+2 = n
  induction n generalizing srcva len s with
  | zero => exact ⟨0,s,rfl,h,Faulted.refl s⟩
  | succ n ih =>
    unfold copyinLoop
    by_cases hlen : 0#64 < len
    · obtain ⟨pa,s₁,hpage,hkept₁,hfaulted₁,-⟩ := userPage_ok srcva h hroot hsz hs
      simp only [hlen, if_true, hpage, bind, Except.bind]
      by_cases hpa : pa = 0#64
      · rw [if_pos hpa]
        exact ⟨-1,s₁,rfl,hkept₁,hfaulted₁⟩
      · rw [if_neg hpa]
        obtain ⟨r,s',hok,hkept,hfaulted⟩ :=
          ih _ _ hkept₁ (Within.shielded hroot hfaulted₁.within hs)
        exact ⟨r,s',hok,hkept,hfaulted₁.trans hfaulted hkept₁ hroot⟩
    · rw [if_neg hlen]
      exact ⟨0,s,rfl,h,Faulted.refl s⟩

theorem store_user {pa : Word} (h : Kept kend all s roots hand) (hroot : root ∈ roots)
    (hleads : Leads s root va pa) (data : Index → Word) :
    Kept kend all (store pa data s) roots hand ∧ Same roots s (store pa data s) := by
  obtain ⟨huser,hpte⟩ := hleads
  have hstore := h.store pa (fun root' p hx => by
    have := h.one _ (.leaf root va) pa hx ⟨hroot,huser,hpte⟩
    cases this) data
  exact ⟨hstore.1,fun root' hroot' va' _ => hstore.2 root' hroot' va'⟩

structure Fills (root : Word) (s s' : Vm) : Prop where
  free : s'.free = s.free
  only : ∀ a, (∀ va, ¬ Leads s root va a) → s'.mem a = s.mem a

theorem Fills.refl (root : Word) (s : Vm) : Fills root s s := ⟨rfl,fun _ _ => rfl⟩

theorem fills_store {pa : Word} (hleads : Leads s root va pa) (data : Index → Word) :
    Fills root s (store pa data s) := by
  refine ⟨rfl,fun a ha => Function.update_of_ne ?_ ..⟩
  rintro rfl
  exact ha va hleads

theorem Fills.tables (hf : Fills root s s') (h : Kept kend all s roots hand)
    (hroot : root ∈ roots) :
    ∀ r ∈ roots, ∀ (p : List Index) (b : Word), p.length ≤ 2 → tableAt child s.mem r p = some b →
      s'.mem b = s.mem b := by
  intro r hr p b hp hb
  apply hf.only
  rintro va ⟨huser,pte,hpte,hpa⟩
  cases h.one (.table r p) (.leaf root va) b ⟨hr,hp,hb⟩ ⟨hroot,huser,pte,hpte,hpa⟩

theorem Fills.same (hf : Fills root s s') (h : Kept kend all s roots hand) (hroot : root ∈ roots) :
    Same roots s s' := same_of_tables (hf.tables h hroot)

theorem Fills.trans {s₁ : Vm} (hf : Fills root s s₁) (hf' : Fills root s₁ s')
    (h : Kept kend all s roots hand)
    (hroot : root ∈ roots) : Fills root s s' := by
  refine ⟨hf'.free.trans hf.free,fun a ha => (hf'.only a ?_).trans (hf.only a ha)⟩
  rintro va ⟨huser,pte,hpte,hpa⟩
  rw [hf.same h hroot root hroot va huser.1] at hpte
  exact ha va ⟨huser,pte,hpte,hpa⟩

theorem Fills.leaves (hf : Fills root s s') (h : Kept kend all s roots hand)
    (hroot : root ∈ roots) :
    Leaves root s s' := by
  intro a ha
  refine ⟨away_of_tables (hf.tables h hroot root hroot) ha (hf.free ▸ ha.off.used),hf.only a ?_⟩
  rintro va ⟨huser,pte,hpte,hpa⟩
  exact ha.unmapped va pte huser hpte hpa

theorem copyout_ok (hroot : root ∈ roots) (hsz : psz.toNat ≤ 2^38-8192) (dstva len : Word)
    (data : Word → Index → Word) (h : Kept kend all s roots hand) (hs : Shielded s root) :
    ∃ r s', copyout kend root psz root dstva len data s = .ok (r,s') ∧ Kept kend all s' roots hand ∧
      Within roots root psz.toNat s s' := by
  unfold copyout
  generalize (len/pgsize).toNat+2 = n
  induction n generalizing dstva len s with
  | zero => exact ⟨0,s,rfl,h,Same.within (Same.refl roots s) _⟩
  | succ n ih =>
    unfold copyoutLoop
    by_cases hlen : 0#64 < len
    · by_cases hmax : maxva ≤ pgrounddown dstva
      · exact ⟨-1,s,by simp only [hlen, if_true, hmax],h,Same.within (Same.refl roots s) _⟩
      · obtain ⟨pa,s₁,hpage,hkept₁,hfaulted₁,hleads⟩ := userPage_ok dstva h hroot hsz hs
        have hwithin₁ := hfaulted₁.within
        simp only [hlen, if_true, hmax, if_false, hpage, bind, Except.bind]
        by_cases hpa : pa = 0#64
        · rw [if_pos hpa]
          exact ⟨-1,s₁,rfl,hkept₁,hwithin₁⟩
        · rw [if_neg hpa]
          obtain ⟨huser,pte,hpte,-⟩ := hleads hpa
          obtain ⟨t,ht,-,-⟩ := translate_eq_some.mp hpte
          simp only [walk_look huser.1.2, lookup_eq.mpr ⟨ht,rfl⟩]
          split_ifs with hw
          · exact ⟨-1,s₁,rfl,hkept₁,hwithin₁⟩
          all_goals
            obtain ⟨hkept₂,hsame₂⟩ := store_user hkept₁ hroot (hleads hpa) (data pa)
            have hwithin₂ := hwithin₁.trans (Same.within hsame₂ _)
            obtain ⟨r,s',hok,hkept,hwithin⟩ := ih _ _ hkept₂ (Within.shielded hroot hwithin₂ hs)
            exact ⟨r,s',hok,hkept,hwithin₂.trans hwithin⟩
    · rw [if_neg hlen]
      exact ⟨0,s,rfl,h,Same.within (Same.refl roots s) _⟩

theorem copyinstr_ok (s : Vm) (root srcva nul max : Word) : ∃ r,
    copyinstr root srcva nul max s = .ok r := by
  unfold copyinstr
  generalize (max/pgsize).toNat+2 = n
  induction n generalizing srcva nul max with
  | zero => exact ⟨-1,rfl⟩
  | succ n ih =>
    unfold copyinstrLoop
    obtain ⟨pa,hwalk,-⟩ := walkaddr_ok s root (pgrounddown srcva)
    simp only [hwalk, bind, Except.bind]
    split_ifs
    all_goals first | exact ⟨_,rfl⟩ | exact ih _ _ _

end GreenOS.UserCopies
