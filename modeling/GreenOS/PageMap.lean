import GreenOS.PageTree

/-!
# The page table as a finite map

Over the page-aligned addresses below `MAXVA` a page table is a finite map to
leaf entries. `mappages` of a page extends the map at that page or, when memory
runs out, leaves it as it was; `uvmunmap` cuts the pages of its range out of it.
-/

namespace GreenOS.PageMap
open RadixTree PageTable PageTree

def IsVa (va : Word) : Prop := va%pgsize = 0#64 ∧ va < maxva

section Leaves
variable {s s' : Vm} {root va va' t pte : Word} {i : Index}

theorem lookup_congr (h : ∀ p : List Index, p.length ≤ 2 →
    tableAt child s'.mem root p = tableAt child s.mem root p) (va : Word) :
    lookup s' root va = lookup s root va := by
  rw [lookup, lookup, h _ (by simp)]

theorem lookup_inj (h : Distinct child 2 s.mem root) (hva : IsVa va) (hva' : IsVa va')
    (hl : lookup s root va = some (t,i)) (hl' : lookup s root va' = some (t,i)) : va = va' := by
  obtain ⟨ht,hi⟩ := lookup_eq.mp hl
  obtain ⟨ht',hi'⟩ := lookup_eq.mp hl'
  have hpath := h _ _ t (by simp) (by simp) ht ht'
  simp only [List.cons.injEq, and_true] at hpath
  exact px_inj hva.1 hva'.1 hva.2 hva'.2 hpath.1 hpath.2 (hi.trans hi'.symm)

theorem setPte_leaf (pte : Word) (h : Distinct child 2 s.mem root)
    (hl : lookup s root va = some (t,i)) :
    (∀ p : List Index, p.length ≤ 2 →
      tableAt child (setPte t i pte s).mem root p = tableAt child s.mem root p) ∧
    ∀ va', translate (setPte t i pte s) root va' =
      if lookup s root va' = some (t,i) then (if valid pte then some pte else none)
      else translate s root va' := by
  obtain ⟨ht,rfl⟩ := lookup_eq.mp hl
  have htable : ∀ p : List Index, p.length ≤ 2 →
      tableAt child (setPte t (px 0 va) pte s).mem root p = tableAt child s.mem root p :=
    fun p hp => tableAt_leaf h ht (by simp) hp
  refine ⟨htable,?_⟩
  intro va'
  rw [PageTable.translate, lookup_congr htable, PageTable.translate]
  cases hl' : lookup s root va' with
  | none => simp
  | some x =>
    simp only [Option.bind_some, Option.some.injEq]
    by_cases hx : x = (t,px 0 va)
    · subst hx
      simp [setPte]
    · have hne : ¬ (x.1 = t ∧ x.2 = px 0 va) := fun h => hx (Prod.ext h.1 h.2)
      simp only [setPte, write_of_ne _ _ hne, if_neg hx]

theorem wellFormed_congr (h : WellFormed s root) (hfree : s'.free = s.free)
    (htable : ∀ p : List Index, p.length ≤ 2 →
      tableAt child s'.mem root p = tableAt child s.mem root p) : WellFormed s' root := by
  constructor
  · exact distinct_congr h.distinct htable
  · rw [hfree]
    exact h.nodup
  · rw [hfree]
    exact h.pages
  · intro a ha p hp
    rw [htable p hp]
    exact h.apart a (hfree ▸ ha) p hp

theorem mappages_walk (pa perm : Word) (hva : IsVa va)
    (hwalk : walk root va true s = .ok (lookup s' root va,s')) :
    (lookup s' root va = none ∧ mappages root va pgsize pa perm s = .ok (-1,s')) ∨
    (translate s' root va ≠ none ∧ mappages root va pgsize pa perm s = .error "mappages: remap") ∨
    ∃ t i, lookup s' root va = some (t,i) ∧ translate s' root va = none ∧
      mappages root va pgsize pa perm s = .ok (0,setPte t i (pa2pte pa|||perm|||pteV) s') := by
  have hlast : va+pgsize-pgsize = va := BitVec.add_sub_cancel ..
  have hmap : mappages root va pgsize pa perm s = mapLoop root va perm 1 va pa s := by
    simp only [mappages, hva.1, hlast, ne_eq, not_true_eq_false, if_false]
    rfl
  rw [hmap, mapLoop, hwalk]
  cases hl : lookup s' root va with
  | none => exact .inl ⟨rfl,rfl⟩
  | some x =>
    obtain ⟨t,i⟩ := x
    right
    by_cases hv : valid (s'.mem t i) = true
    · exact .inl ⟨by simp [PageTable.translate, hl, hv],by simp [hv, bind, Except.bind]⟩
    · exact .inr ⟨t,i,rfl,by simp [PageTable.translate, hl, hv],by simp [hv, bind, Except.bind]⟩

theorem mappages_page (pa perm : Word) (h : WellFormed s root) (hva : IsVa va)
    (hnone : translate s root va = none) :
    ∃ r s', mappages root va pgsize pa perm s = .ok (r,s') ∧ WellFormed s' root ∧
      (r = -1 ∧ (∀ va', translate s' root va' = translate s root va') ∨
      r = 0 ∧ (∃ t i, lookup s' root va = some (t,i) ∧ s'.mem t i = pa2pte pa|||perm|||pteV) ∧
        ∀ va', IsVa va' → translate s' root va' =
          if va' = va then some (pa2pte pa|||perm|||pteV) else translate s root va') := by
  obtain ⟨s₁,hwalk,hwf,htrans⟩ := walk_alloc h hva.2
  rcases mappages_walk pa perm hva hwalk with ⟨-,hok⟩ | ⟨hsome,-⟩ | ⟨t,i,hl,-,hok⟩
  · exact ⟨-1,s₁,hok,hwf,.inl ⟨rfl,htrans⟩⟩
  · exact absurd ((htrans va).trans hnone) hsome
  · obtain ⟨htable,hleaf⟩ := setPte_leaf (pa2pte pa|||perm|||pteV) hwf.distinct hl
    have hl' : lookup (setPte t i (pa2pte pa|||perm|||pteV) s₁) root va = some (t,i) :=
      (lookup_congr htable va).trans hl
    refine ⟨0,_,hok,wellFormed_congr hwf rfl htable,.inr ⟨rfl,⟨t,i,hl',by simp [setPte]⟩,?_⟩⟩
    intro va' hva'
    rw [hleaf va', valid_made, if_pos rfl, htrans va']
    by_cases heq : va' = va
    · subst heq
      rw [if_pos hl, if_pos rfl]
    · rw [if_neg heq, if_neg]
      exact fun hl' => heq (lookup_inj hwf.distinct hva' hva hl' hl)

end Leaves

section Unmap
variable {s s' : Vm} {kend root a va : Word} {doFree : Bool}

def Freeable (kend pa : Word) : Prop := pa%pgsize = 0#64 ∧ kend ≤ pa ∧ pa < phystop

/-- What the caller of `uvmunmap` has to know before it lets the pages be freed:
they are pages of the allocator and not tables of this page table. -/
def MayFree (kend root : Word) (s : Vm) (va : Word) : Prop :=
  ∀ pte, translate s root va = some pte → Freeable kend (pte2pa pte) ∧
    ∀ p : List Index, p.length ≤ 2 → tableAt child s.mem root p ≠ some (pte2pa pte)

theorem kfree_ok {pa : Word} (h : Freeable kend pa) :
    kfree kend pa s = .ok ⟨Function.update s.mem pa (fun _ => 0x0101010101010101),pa::s.free⟩ := by
  have hnot : ¬ (pa%pgsize ≠ 0#64 ∨ pa < kend ∨ phystop ≤ pa) := by
    simp only [not_or, not_not, BitVec.not_lt, BitVec.not_le]
    exact h
  rw [kfree, if_neg hnot]
  rfl

theorem translate_outside {pa : Word} (f : Index → Word) (free : List Word)
    (ht : ∀ p : List Index, p.length ≤ 2 → tableAt child s.mem root p ≠ some pa) :
    (∀ p : List Index, p.length ≤ 2 →
      tableAt child (Function.update s.mem pa f) root p = tableAt child s.mem root p) ∧
    ∀ va, translate ⟨Function.update s.mem pa f,free⟩ root va = translate s root va := by
  have htable : ∀ p : List Index, p.length ≤ 2 →
      tableAt child (Function.update s.mem pa f) root p = tableAt child s.mem root p :=
    fun p hp => tableAt_outside (fun q hq => ht q hq.le) hp
  refine ⟨htable,?_⟩
  intro va
  rw [PageTable.translate, lookup_congr (s := s) htable, PageTable.translate]
  cases hl : lookup s root va with
  | none => rfl
  | some x =>
    have hne : x.1 ≠ pa := by
      rintro rfl
      exact ht _ (by simp) (lookup_eq.mp hl).1
    simp only [Option.bind_some, Function.update_of_ne hne]

theorem unmapPage_cases (kend : Word) (doFree : Bool) (ha : a < maxva) :
    (translate s root a = none ∧ unmapPage kend root a doFree s = .ok s) ∨
    ∃ t i, lookup s root a = some (t,i) ∧ translate s root a = some (s.mem t i) ∧
      unmapPage kend root a doFree s =
        (if doFree then kfree kend (pte2pa (s.mem t i)) s else .ok s) >>= fun s =>
          .ok (setPte t i 0#64 s) := by
  unfold unmapPage
  rw [walk_look ha]
  cases hl : lookup s root a with
  | none => exact .inl ⟨by simp [PageTable.translate, hl],rfl⟩
  | some x =>
    obtain ⟨t,i⟩ := x
    by_cases hv : valid (s.mem t i) = true
    · exact .inr ⟨t,i,rfl,by simp [PageTable.translate, hl, hv],by
        cases doFree <;> simp [hv, bind, Except.bind]⟩
    · exact .inl ⟨by simp [PageTable.translate, hl, hv],by simp [hv, bind, Except.bind]⟩

theorem unmapPage_ok (h : Distinct child 2 s.mem root) (ha : a < maxva)
    (hfree : doFree = true → MayFree kend root s a) :
    ∃ s', unmapPage kend root a doFree s = .ok s' ∧ (doFree = false → s'.free = s.free) ∧
      (∀ p : List Index, p.length ≤ 2 → tableAt child s'.mem root p = tableAt child s.mem root p) ∧
      ∀ va, translate s' root va =
        if lookup s root va = lookup s root a then none else translate s root va := by
  rcases unmapPage_cases kend doFree ha with ⟨hnone,hok⟩ | ⟨t,i,hl,hpte,hok⟩
  · refine ⟨s,hok,fun _ => rfl,fun _ _ => rfl,?_⟩
    intro va
    split_ifs with hva
    · rw [← hnone, PageTable.translate, PageTable.translate, hva]
    · rfl
  · rw [hok, hl]
    cases doFree with
    | false =>
      obtain ⟨htable,hleaf⟩ := setPte_leaf 0#64 h hl
      exact ⟨_,rfl,fun _ => rfl,htable,by simpa [valid_zero] using hleaf⟩
    | true =>
      obtain ⟨hok,hno⟩ := hfree rfl _ hpte
      obtain ⟨htable₁,htrans₁⟩ := translate_outside (fun _ => 0x0101010101010101)
        (pte2pa (s.mem t i)::s.free) hno
      have hl₁ : lookup ⟨Function.update s.mem (pte2pa (s.mem t i)) (fun _ => 0x0101010101010101),
          pte2pa (s.mem t i)::s.free⟩ root a = some (t,i) := (lookup_congr htable₁ a).trans hl
      obtain ⟨htable₂,hleaf⟩ := setPte_leaf 0#64 (distinct_congr h htable₁) hl₁
      rw [if_pos rfl, kfree_ok hok]
      refine ⟨_,rfl,by simp,fun p hp => (htable₂ p hp).trans (htable₁ p hp),?_⟩
      intro va
      rw [hleaf va, htrans₁ va, lookup_congr htable₁ va]
      simp [valid_zero]

theorem unmapLoop_ok {n : ℕ} (h : Distinct child 2 s.mem root) (ha : a%pgsize = 0#64)
    (hn : a.toNat+n*4096 ≤ 2^38) {stop : Word} (hstop : stop.toNat = a.toNat+n*4096)
    (hfree : doFree = true → ∀ va, IsVa va → a ≤ va → va < stop → MayFree kend root s va) :
    ∃ s', unmapLoop kend root stop doFree n a s = .ok s' ∧ (doFree = false → s'.free = s.free) ∧
      (∀ p : List Index, p.length ≤ 2 → tableAt child s'.mem root p = tableAt child s.mem root p) ∧
      ∀ va, IsVa va → translate s' root va =
        if a ≤ va ∧ va < stop then none else translate s root va := by
  induction n generalizing a s with
  | zero =>
    refine ⟨s,rfl,fun _ => rfl,fun _ _ => rfl,?_⟩
    intro va _
    rw [if_neg]
    rintro ⟨hle,hlt⟩
    rw [BitVec.le_def] at hle
    rw [BitVec.lt_def] at hlt
    omega
  | succ n ih =>
    have hmax : maxva.toNat = 2^38 := by decide
    have hpage : pgsize.toNat = 4096 := by decide
    have hlt : a < stop := by
      rw [BitVec.lt_def]
      omega
    have hva : IsVa a := by
      refine ⟨ha,?_⟩
      rw [BitVec.lt_def]
      omega
    have hnext : (a+pgsize).toNat = a.toNat+4096 := by
      rw [BitVec.toNat_add, hpage]
      omega
    have hfree₀ : doFree = true → MayFree kend root s a := fun hd =>
      hfree hd a hva (BitVec.le_refl a) hlt
    obtain ⟨s₁,hok₁,hlist₁,htable₁,htrans₁⟩ := unmapPage_ok h hva.2 hfree₀
    have halign : (a+pgsize)%pgsize = 0#64 := by
      have ha4 : a.toNat%4096 = 0 := by simpa [pgsize] using congrArg BitVec.toNat ha
      apply BitVec.eq_of_toNat_eq
      rw [BitVec.toNat_umod, hnext, hpage]
      simp [ha4]
    -- a page that is still to be unmapped is mapped as before
    have hfree₁ : doFree = true → ∀ va, IsVa va → a+pgsize ≤ va → va < stop →
      MayFree kend root s₁ va := by
      intro hd va hv hle hlt' pte hpte
      rw [htrans₁ va] at hpte
      split_ifs at hpte
      have hle' : a ≤ va := by
        rw [BitVec.le_def] at hle ⊢
        omega
      obtain ⟨hok,hno⟩ := hfree hd va hv hle' hlt' pte hpte
      exact ⟨hok,fun p hp => by rw [htable₁ p hp]; exact hno p hp⟩
    obtain ⟨s₂,hok₂,hlist₂,htable₂,htrans₂⟩ := ih (s := s₁) (distinct_congr h htable₁) halign
      (by omega) (by omega) hfree₁
    refine ⟨s₂,?_,fun hd => (hlist₂ hd).trans (hlist₁ hd),fun p hp =>
      (htable₂ p hp).trans (htable₁ p hp),?_⟩
    · rw [unmapLoop, if_pos hlt, hok₁]
      exact hok₂
    · intro va hv
      rw [htrans₂ va hv, htrans₁ va]
      by_cases heq : va = a
      · subst heq
        simp [hlt]
      · have hne : ¬ (lookup s root va = lookup s root a ∧ translate s root va ≠ none) := by
          rintro ⟨hsame,hsome⟩
          obtain ⟨pte,hpte⟩ := Option.ne_none_iff_exists'.mp hsome
          obtain ⟨t,ht,-,-⟩ := translate_eq_some.mp hpte
          have hl : lookup s root va = some (t,px 0 va) := lookup_eq.mpr ⟨ht,rfl⟩
          exact heq (lookup_inj h hv hva hl (hsame ▸ hl))
        have hiff : (a+pgsize ≤ va ∧ va < stop) ↔ (a ≤ va ∧ va < stop) := by
          have hav : va.toNat%4096 = 0 := by simpa [pgsize] using congrArg BitVec.toNat hv.1
          have haa : a.toNat%4096 = 0 := by simpa [pgsize] using congrArg BitVec.toNat ha
          have hne' : va.toNat ≠ a.toNat := fun h => heq (BitVec.eq_of_toNat_eq h)
          rw [BitVec.le_def, BitVec.le_def, hnext]
          constructor
          · rintro ⟨h₁,h₂⟩
            exact ⟨by omega,h₂⟩
          · rintro ⟨h₁,h₂⟩
            exact ⟨by omega,h₂⟩
        rw [if_congr hiff rfl rfl]
        split_ifs with h₁ h₂
        · rfl
        · by_contra hsome
          exact hne ⟨h₂,fun h => hsome h.symm⟩
        · rfl

end Unmap

/-- The page table refines a finite map from pages to entries. -/
theorem page_table_map (kend : Word) {s : Vm} {root va : Word} (h : WellFormed s root)
    (hva : IsVa va) :
    (∀ (pa : Word) (perm : BitVec 10), pa%pgsize = 0#64 → pa.toNat < 2^56 →
      translate s root va = none →
      ∃ r s', mappages root va pgsize pa (perm.setWidth 64) s = .ok (r,s') ∧ WellFormed s' root ∧
        (r = -1 ∧ (∀ va', translate s' root va' = translate s root va') ∨
        r = 0 ∧ (∃ t i, walk root va false s' = .ok (some (t,i),s') ∧ pte2pa (s'.mem t i) = pa ∧
            pteFlags (s'.mem t i) = perm.setWidth 64|||pteV) ∧
          ∀ va', IsVa va' → va' ≠ va → translate s' root va' = translate s root va')) ∧
    ∀ (npages : Word) (doFree : Bool), va.toNat+npages.toNat*4096 ≤ 2^38 →
      (doFree = true → ∀ va', IsVa va' → va ≤ va' → va'.toNat < va.toNat+npages.toNat*4096 →
        MayFree kend root s va') →
      ∃ s', uvmunmap kend root va npages doFree s = .ok s' ∧ (doFree = false → WellFormed s' root) ∧
        ∀ va', IsVa va' → translate s' root va' =
          if va ≤ va' ∧ va'.toNat < va.toNat+npages.toNat*4096 then none
          else translate s root va' := by
  constructor
  · intro pa perm ha hlt hnone
    obtain ⟨r,s',hok,hwf,hr⟩ := mappages_page pa (perm.setWidth 64) h hva hnone
    refine ⟨r,s',hok,hwf,?_⟩
    rcases hr with hr | ⟨rfl,⟨t,i,hl,hpte⟩,htrans⟩
    · exact .inl hr
    · have hmade : pa2pte pa|||perm.setWidth 64|||pteV = pa2pte pa|||(perm|||1#10).setWidth 64 := by
        rw [BitVec.setWidth_or, BitVec.or_assoc]
        rfl
      refine .inr ⟨rfl,⟨t,i,by rw [walk_look hva.2, hl],?_,?_⟩,?_⟩
      · rw [hpte, hmade, pte2pa_made _ ha hlt]
      · rw [hpte, hmade, pteFlags_made, BitVec.setWidth_or]
        rfl
      · intro va' hva' hne
        rw [htrans va' hva', if_neg hne]
  · intro npages doFree hrange hfree
    have hpage : pgsize.toNat = 4096 := by decide
    have hstop : (va+npages*pgsize).toNat = va.toNat+npages.toNat*4096 := by
      rw [BitVec.toNat_add, BitVec.toNat_mul, hpage]
      omega
    obtain ⟨s',hok,hlist,htable,htrans⟩ := unmapLoop_ok h.distinct hva.1
      hrange hstop (fun hd va' hv hle hlt => hfree hd va' hv hle (hstop ▸ BitVec.lt_def.mp hlt))
    refine ⟨s',?_,fun hd => wellFormed_congr h (hlist hd) htable,?_⟩
    · rw [uvmunmap, if_neg (by simp [hva.1])]
      exact hok
    · intro va' hv
      have hiff : va' < va+npages*pgsize ↔ va'.toNat < va.toNat+npages.toNat*4096 := by
        rw [BitVec.lt_def, hstop]
      rw [htrans va' hv, if_congr (and_congr_right' hiff) rfl rfl]

theorem cleared_wellFormed {s : Vm} {root : Word} (hroot : ∀ i, s.mem root i = 0#64)
    (hnodup : s.free.Nodup)
    (hpages : ∀ a ∈ s.free, IsPage a) (hfree : root ∉ s.free) : WellFormed s root := by
  have htable : ∀ p a, tableAt child s.mem root p = some a → p = [] ∧ a = root := by
    intro p a hp
    cases p with
    | nil =>
      cases hp
      exact ⟨rfl,rfl⟩
    | cons i p =>
      rw [tableAt, hroot, child, valid_zero] at hp
      cases hp
  constructor
  · intro p q a _ _ hp hq
    rw [(htable p a hp).1, (htable q a hq).1]
  · exact hnodup
  · exact hpages
  · intro a ha p _ hp
    exact hfree ((htable p a hp).2 ▸ ha)

def threePages : Vm := ⟨fun _ _ => 0#64,[0x87ffc000,0x87ffd000,0x87ffe000]⟩

theorem threePages_map : ∃ s' s'', mappages 0x87fff000 0x1000 pgsize 0x87ffe000
      ((0x16 : BitVec 10).setWidth 64) threePages = .ok (0,s') ∧
    (∃ t i, walk 0x87fff000 0x1000 false s' = .ok (some (t,i),s') ∧
      pte2pa (s'.mem t i) = 0x87ffe000) ∧
    uvmunmap 0x80030000 0x87fff000 0x1000 1 false s' = .ok s'' ∧ WellFormed s'' 0x87fff000 ∧
    ∀ va, IsVa va → translate s'' 0x87fff000 va =
      if va = 0x1000 then none else translate threePages 0x87fff000 va := by
  have hwf : WellFormed threePages 0x87fff000 :=
    cleared_wellFormed (fun _ => rfl) (by decide) (by simp [threePages, IsPage]; decide) (by decide)
  have hva : IsVa 0x1000 := ⟨by decide,by decide⟩
  have hzero : (mappages 0x87fff000 0x1000 pgsize 0x87ffe000 ((0x16 : BitVec 10).setWidth 64)
      threePages).toOption.map Prod.fst = some 0 := by decide
  obtain ⟨r,s',hok,hwf',hr⟩ := (page_table_map 0x80030000 hwf hva).1 0x87ffe000 0x16 (by decide)
    (by decide) (by decide)
  rw [hok] at hzero
  obtain rfl : r = 0 := Option.some.inj hzero
  obtain ⟨hr,-⟩ | ⟨-,⟨t,i,hwalk,hpa,-⟩,hother⟩ := hr
  · cases hr
  obtain ⟨s'',hok',hwf'',htrans⟩ := (page_table_map 0x80030000 hwf' hva).2 1 false (by decide) nofun
  refine ⟨s',s'',hok,⟨t,i,hwalk,hpa⟩,hok',hwf'' rfl,fun va h => ?_⟩
  rw [htrans va h]
  by_cases heq : va = 0x1000
  · rw [if_pos heq, if_pos (by rw [heq]; decide)]
  · -- an aligned address within the page is its start
    have hne : va.toNat ≠ 4096 := fun hx => heq (BitVec.eq_of_toNat_eq hx)
    have halign : va.toNat%4096 = 0 := (BitVec.toNat_umod ..).symm.trans (congrArg BitVec.toNat h.1)
    rw [if_neg heq, if_neg, hother va h heq]
    rintro ⟨hle,hlt⟩
    have hle' : 4096 ≤ va.toNat := hle
    have hlt' : va.toNat < 4096+1*4096 := hlt
    omega

end GreenOS.PageMap
