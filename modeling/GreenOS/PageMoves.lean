import GreenOS.PageOwners

/-!
# What a move of pages changes and what it leaves alone

Pages move between the free list, the hand and the page tables. Such a move is
described by what every page table maps afterwards, and by the pages that keep
their contents: those off one page table and its free pages, those away from it,
or all pages in use.
-/

namespace GreenOS.PageMoves
open RadixTree PageTable PageTree PageMap UserMemory PageOwners

variable {kend : Word} {all : Set Word} {s s' : Vm} {roots hand : List Word} {root a va : Word}

def Same (roots : List Word) (s s' : Vm) : Prop :=
  ∀ root ∈ roots, ∀ va, IsVa va → translate s' root va = translate s root va

theorem Same.refl (roots : List Word) (s : Vm) : Same roots s s := fun _ _ _ _ => rfl

variable {s₁ : Vm} {perm : Word}

theorem Same.trans {s₂ s₃ : Vm} (h : Same roots s₁ s₂) (h' : Same roots s₂ s₃) : Same roots s₁ s₃ :=
  fun root hroot va hva => (h' root hroot va hva).trans (h root hroot va hva)

def Put (roots : List Word) (root va : Word) (pte : Option Word) (s s' : Vm) : Prop :=
  ∀ root' ∈ roots, ∀ va', IsVa va' → translate s' root' va' =
    if root' = root ∧ va' = va then pte else translate s root' va'

def IsPerm (perm : Word) : Prop := ∃ p : BitVec 10, perm = p.setWidth 64

theorem pte2pa_perm (hperm : IsPerm perm) (h : Freeable kend a) :
    pte2pa (pa2pte a|||perm|||pteV) = a := by
  obtain ⟨p,rfl⟩ := hperm
  have hlt : a.toNat < 2^56 := (BitVec.lt_def.mp h.2.2).trans (by decide)
  have hmade := pte2pa_made (p|||1#10) h.1 hlt
  rw [BitVec.setWidth_or, ← BitVec.or_assoc] at hmade
  exact hmade

theorem pteFlags_perm (hperm : IsPerm perm) (a : Word) :
    pteFlags (pa2pte a|||perm|||pteV) = perm|||pteV := by
  obtain ⟨b,rfl⟩ := hperm
  have hmade := pteFlags_made a (b|||1#10)
  rw [BitVec.setWidth_or, ← BitVec.or_assoc] at hmade
  exact hmade

theorem put_of_leaf (pte : Word) {t : Word} {i : Index} (h : Kept kend all s₁ roots hand)
    (hroot : root ∈ roots) (hva : IsVa va) (hl : lookup s₁ root va = some (t,i))
    (hsame : Same roots s s₁) :
    Put roots root va (if valid pte then some pte else none) s (setPte t i pte s₁) := by
  intro root' hroot' va' hva'
  rw [(leaf_views _ h hroot hva hl).2.1 root' hroot' va' hva', hsame root' hroot' va' hva']

def Cut (roots : List Word) (root : Word) (lo hi : ℕ) (s s' : Vm) : Prop :=
  ∀ root' ∈ roots, ∀ va', IsVa va' → translate s' root' va' =
    if root' = root ∧ lo ≤ va'.toNat ∧ va'.toNat < hi then none else translate s root' va'

theorem toNat_pgsize : pgsize.toNat = 4096 := by decide

theorem toNat_maxva : maxva.toNat = 2^38 := by decide

theorem toNat_trapframe : trapframe.toNat = 2^38-8192 := by decide

theorem toNat_trampoline : trampoline.toNat = 2^38-4096 := by decide

theorem aligned_iff {va : Word} : va%pgsize = 0#64 ↔ va.toNat%4096 = 0 := by
  rw [← BitVec.toNat_inj, BitVec.toNat_umod, toNat_pgsize]
  rfl

theorem isVa_iff {va : Word} : IsVa va ↔ va.toNat%4096 = 0 ∧ va.toNat < 2^38 := by
  rw [IsVa, aligned_iff, BitVec.lt_def, toNat_maxva]

theorem userVa_iff {va : Word} : UserVa va ↔ va.toNat%4096 = 0 ∧ va.toNat < 2^38-8192 := by
  rw [UserVa, isVa_iff, BitVec.lt_def, toNat_trapframe]
  omega

theorem toNat_next (h : va.toNat < 2^64-4096) : (va+pgsize).toNat = va.toNat+4096 := by
  rw [BitVec.toNat_add, toNat_pgsize]
  omega

theorem cut_cons {lo hi : ℕ} (hva : IsVa va) (hlo : lo = va.toNat+4096) (hhi : va.toNat < hi)
    (hput : Put roots root va none s s₁) (hcut : Cut roots root lo hi s₁ s') :
    Cut roots root va.toNat hi s s' := by
  intro root' hroot' va' hva'
  rw [hcut root' hroot' va' hva', hput root' hroot' va' hva']
  rw [isVa_iff] at hva hva'
  by_cases hr : root' = root
  · by_cases heq : va' = va
    · subst heq
      simp [hr, hhi]
    · have hne : va'.toNat ≠ va.toNat := fun h => heq (BitVec.eq_of_toNat_eq h)
      have hiff : (lo ≤ va'.toNat ∧ va'.toNat < hi) ↔ (va.toNat ≤ va'.toNat ∧ va'.toNat < hi) := by
        omega
      simp only [hr, heq, and_false, if_false, true_and]
      exact if_congr hiff rfl rfl
  · simp [hr]

section Frames

structure Off (s : Vm) (root a : Word) : Prop where
  used : a ∉ s.free
  plain : ∀ p : List Index, p.length ≤ 2 → tableAt child s.mem root p ≠ some a

def Takes (root : Word) (s s' : Vm) : Prop := ∀ a, Off s root a → Off s' root a ∧ s'.mem a = s.mem a

def Gives (root : Word) (s s' : Vm) : Prop := ∀ a, Off s' root a → Off s root a ∧ s'.mem a = s.mem a

theorem Takes.refl (root : Word) (s : Vm) : Takes root s s := fun _ h => ⟨h,rfl⟩

theorem Takes.trans (h : Takes root s s₁) (h' : Takes root s₁ s') : Takes root s s' := by
  intro a ha
  obtain ⟨ha₁,hmem₁⟩ := h a ha
  obtain ⟨ha',hmem'⟩ := h' a ha₁
  exact ⟨ha',hmem'.trans hmem₁⟩

theorem Gives.refl (root : Word) (s : Vm) : Gives root s s := fun _ h => ⟨h,rfl⟩

theorem Gives.trans (h : Gives root s s₁) (h' : Gives root s₁ s') : Gives root s s' := by
  intro a ha
  obtain ⟨ha₁,hmem'⟩ := h' a ha
  obtain ⟨ha₀,hmem₁⟩ := h a ha₁
  exact ⟨ha₀,hmem'.trans hmem₁⟩

def Detour (root : Word) (s s' : Vm) : Prop := ∃ s₁, Takes root s s₁ ∧ Gives root s₁ s'

theorem Detour.same (h : Detour root s s') (ha : Off s root a) (ha' : Off s' root a) :
    s'.mem a = s.mem a := by
  obtain ⟨s₁,htakes,hgives⟩ := h
  exact (hgives a ha').2.trans (htakes a ha).2

/-- A page that is neither free, nor a table of `root`, nor mapped there for the user. -/
structure Away (s : Vm) (root a : Word) : Prop where
  off : Off s root a
  unmapped : ∀ va pte, UserVa va → translate s root va = some pte → pte2pa pte ≠ a

def Leaves (root : Word) (s s' : Vm) : Prop := ∀ a, Away s root a → Away s' root a ∧
    s'.mem a = s.mem a

theorem Leaves.refl (root : Word) (s : Vm) : Leaves root s s := fun _ h => ⟨h,rfl⟩

theorem Leaves.trans (h : Leaves root s s₁) (h' : Leaves root s₁ s') : Leaves root s s' := by
  intro a ha
  obtain ⟨ha₁,hmem₁⟩ := h a ha
  obtain ⟨ha',hmem'⟩ := h' a ha₁
  exact ⟨ha',hmem'.trans hmem₁⟩

theorem Takes.leaves (h : Takes root s s') (hmap : ∀ va pte, UserVa va →
    translate s' root va = some pte →
    (∃ pte', translate s root va = some pte' ∧ pte2pa pte' = pte2pa pte) ∨ pte2pa pte ∈ s.free) :
    Leaves root s s' := by
  intro a ha
  obtain ⟨hoff,hmem⟩ := h a ha.off
  refine ⟨⟨hoff,?_⟩,hmem⟩
  rintro va pte huser hpte rfl
  rcases hmap va pte huser hpte with ⟨pte',hpte',heq⟩ | hfree
  · exact ha.unmapped va pte' huser hpte' heq
  · exact ha.off.used hfree

theorem leaves_of_same (h : Takes root s s') (hroot : root ∈ roots) (hsame : Same roots s s') :
    Leaves root s s' :=
  h.leaves fun va _ huser hpte => .inl ⟨_,hsame root hroot va huser.1 ▸ hpte,rfl⟩

theorem leaves_of_put {pte : Option Word} (h : Takes root s s') (hroot : root ∈ roots)
    (hput : Put roots root va pte s s') (hother : ¬ UserVa va) : Leaves root s s' := by
  apply h.leaves
  intro va' pte' huser hpte
  rw [hput root hroot va' huser.1, if_neg] at hpte
  · exact .inl ⟨_,hpte,rfl⟩
  · rintro ⟨-,rfl⟩
    exact hother huser

def Spares (s s' : Vm) : Prop := ∀ a, a ∉ s.free → a ∉ s'.free ∧ s'.mem a = s.mem a

theorem Spares.refl (s : Vm) : Spares s s := fun _ h => ⟨h,rfl⟩

def Sheds (root : Word) (s s' : Vm) : Prop := ∀ a, Away s root a → a ∉ s'.free ∧ s'.mem a = s.mem a

theorem Leaves.sheds (h : Leaves root s s₁) (h' : Sheds root s₁ s') : Sheds root s s' := by
  intro a ha
  obtain ⟨ha₁,hmem₁⟩ := h a ha
  obtain ⟨hused,hmem'⟩ := h' a ha₁
  exact ⟨hused,hmem'.trans hmem₁⟩

def Starts (root : Word) (s s' : Vm) : Prop := ∀ a, a ∉ s.free → Away s' root a ∧ s'.mem a = s.mem a

theorem Starts.leaves (h : Starts root s s₁) (h' : Leaves root s₁ s') : Starts root s s' := by
  intro a ha
  obtain ⟨ha₁,hmem₁⟩ := h a ha
  obtain ⟨ha',hmem'⟩ := h' a ha₁
  exact ⟨ha',hmem'.trans hmem₁⟩

theorem Starts.sheds (h : Starts root s s₁) (h' : Sheds root s₁ s') : Spares s s' := by
  intro a ha
  obtain ⟨ha₁,hmem₁⟩ := h a ha
  obtain ⟨hused,hmem'⟩ := h' a ha₁
  exact ⟨hused,hmem'.trans hmem₁⟩

theorem same_of_tables (h : ∀ r ∈ roots, ∀ (p : List Index) (b : Word), p.length ≤ 2 →
    tableAt child s.mem r p = some b → s'.mem b = s.mem b) : Same roots s s' :=
  fun r hr va _ => (view_of_agree (h r hr)).2 va

theorem holds_of_tables {x : Place} (h : ∀ r ∈ roots, ∀ (p : List Index) (b : Word), p.length ≤ 2 →
    tableAt child s.mem r p = some b → s'.mem b = s.mem b) (hx : Holds s' roots x a) :
      Holds s roots x a := by
  cases x with
  | table r p =>
    obtain ⟨hr,hp,hb⟩ := hx
    exact ⟨hr,hp,(view_of_agree (h r hr)).1 p hp ▸ hb⟩
  | leaf r va =>
    obtain ⟨hr,huser,pte,hpte,hb⟩ := hx
    exact ⟨hr,huser,pte,(view_of_agree (h r hr)).2 va ▸ hpte,hb⟩

theorem away_of_tables (h : ∀ (p : List Index) (b : Word), p.length ≤ 2 →
    tableAt child s.mem root p = some b →
    s'.mem b = s.mem b) (ha : Away s root a) (hused : a ∉ s'.free) : Away s' root a := by
  obtain ⟨htable,htrans⟩ := view_of_agree h
  exact ⟨⟨hused,fun p hp => by rw [htable p hp]; exact ha.off.plain p hp⟩,
    fun va pte huser hpte => ha.unmapped va pte huser (htrans va ▸ hpte)⟩

theorem used_of_table {r : Word} {p : List Index} (h : Kept kend all s roots hand) (hr : r ∈ roots)
    (hp : p.length ≤ 2) (hb : tableAt child s.mem r p = some a) : a ∉ s.free :=
  fun hfree => h.apart a (List.mem_append_left _ hfree) (.table r p) ⟨hr,hp,hb⟩

theorem Spares.same (hs : Spares s s') (h : Kept kend all s roots hand) : Same roots s s' :=
  same_of_tables fun _ hr _ b hp hb => (hs b (used_of_table h hr hp hb)).2

theorem Starts.same (hs : Starts root s s') (h : Kept kend all s roots hand) : Same roots s s' :=
  same_of_tables fun _ hr _ b hp hb => (hs b (used_of_table h hr hp hb)).2

theorem away_of_table {r : Word} {p : List Index} (h : Kept kend all s (root::roots) hand)
    (hnot : root ∉ roots)
    (hr : r ∈ roots) (hp : p.length ≤ 2) (hb : tableAt child s.mem r p = some a) :
    Away s root a := by
  have hroot : root ∈ root::roots := List.mem_cons_self
  have hr' : r ∈ root::roots := List.mem_cons_of_mem _ hr
  have hholds : Holds s (root::roots) (.table r p) a := ⟨hr',hp,hb⟩
  refine ⟨⟨used_of_table h hr' hp hb,?_⟩,?_⟩
  · intro q hq hqa
    cases h.one (.table root q) _ a ⟨hroot,hq,hqa⟩ hholds
    exact hnot hr
  · intro va pte huser hpte hpa
    cases h.one (.leaf root va) _ a ⟨hroot,huser,pte,hpte,hpa⟩ hholds

theorem Sheds.same (hs : Sheds root s s') (h : Kept kend all s (root::roots) hand)
    (hnot : root ∉ roots) :
    Same roots s s' :=
  same_of_tables fun _ hr _ b hp hb => (hs b (away_of_table h hnot hr hp hb)).2

theorem takes_of_tables (hfree : ∀ a ∈ s'.free, a ∈ s.free)
    (htable : ∀ p : List Index, p.length ≤ 2 → ∀ a, tableAt child s'.mem root p = some a →
      tableAt child s.mem root p = some a ∨ a ∈ s.free)
    (hmem : ∀ a, Off s root a → s'.mem a = s.mem a) : Takes root s s' := by
  intro a ha
  refine ⟨⟨fun hf => ha.used (hfree a hf),?_⟩,hmem a ha⟩
  intro p hp hpa
  rcases htable p hp a hpa with h | h
  · exact ha.plain p hp h
  · exact ha.used h

variable {pa : Word}

theorem off_of_leaf {root' : Word} (h : Kept kend all s roots hand) (hroot : root ∈ roots)
    (hleaf : Holds s roots (.leaf root' va) pa) : Off s root pa := by
  constructor
  · intro hfree
    exact h.apart pa (List.mem_append_left _ hfree) _ hleaf
  · intro p hp ht
    cases h.one _ _ pa hleaf (show Holds s roots (.table root p) pa from ⟨hroot,hp,ht⟩)

theorem off_of_hand (h : Kept kend all s roots hand) (hroot : root ∈ roots) (hpa : pa ∈ hand) :
    Off s root pa := by
  constructor
  · intro hfree
    exact List.disjoint_of_nodup_append h.nodup hfree hpa
  · intro p hp ht
    exact h.apart pa (List.mem_append_right _ hpa) (.table root p) ⟨hroot,hp,ht⟩

theorem off_of_outside (h : Kept kend all s roots hand) (hroot : root ∈ roots) (hpa : pa ∉ all) :
    Off s root pa := by
  constructor
  · intro hfree
    exact hpa ((h.cover pa).mpr (.inl (List.mem_append_left _ hfree)))
  · intro p hp ht
    exact hpa ((h.cover pa).mpr (.inr ⟨.table root p,hroot,hp,ht⟩))

theorem free_perm (h : Kept kend all s roots hand) (h' : Kept kend all s' roots hand)
    (hspares : Spares s s') :
    s'.free.Perm s.free := by
  have hholds : ∀ x b, Holds s' roots x b → Holds s roots x b := fun x b =>
    holds_of_tables fun _ hr _ b hp hb => (hspares b (used_of_table h hr hp hb)).2
  rw [List.perm_ext_iff_of_nodup h'.nodup.of_append_left h.nodup.of_append_left]
  intro b
  constructor
  · intro hb
    by_contra hnot
    exact (hspares b hnot).1 hb
  · intro hb
    have hpool : b ∈ s.free++hand := List.mem_append_left _ hb
    rcases (h'.cover b).mp ((h.cover b).mpr (.inl hpool)) with hb' | ⟨x,hx⟩
    · rcases List.mem_append.mp hb' with hb' | hhand
      · exact hb'
      · exact absurd hhand (List.disjoint_of_nodup_append h.nodup hb)
    · exact absurd (hholds x b hx) (h.apart b hpool x)

end Frames

end GreenOS.PageMoves
