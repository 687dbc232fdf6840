import GreenOS.PageMoves

/-!
# What mapping a page writes and what it takes

A page that is neither free nor a table of the page table at work keeps its
contents. The pages taken for one new page are the page itself and the tables
missing on the way to it, so it can be told beforehand whether memory suffices
for a list of pages.
-/

namespace GreenOS.PageFrames
open RadixTree PageTable PageTree PageMap UserMemory PageOwners PageMoves
open Function (update update_of_ne)

variable {kend : Word} {all : Set Word} {s s₁ s' : Vm} {roots hand : List Word} {root a va t : Word}
variable {q : List Index} {i : Index}

section Walks

def paths (va : Word) : List (List Index) := [[px 2 va],[px 2 va,px 1 va]]

def missing (s : Vm) (root va : Word) : List (List Index) :=
  (paths va).filter (fun p => (tableAt child s.mem root p).isNone)

structure Linked (root : Word) (s s' : Vm) (l : List (List Index)) : Prop where
  wf : WellFormed s' root
  takes : Takes root s s'
  room : l.length ≤ s.free.length
  free : s'.free = s.free.drop l.length
  tables : ∀ p : List Index, p.length ≤ 2 →
    ((tableAt child s'.mem root p).isNone ↔ (tableAt child s.mem root p).isNone ∧ p ∉ l)

theorem Linked.refl (h : WellFormed s root) : Linked root s s [] :=
  ⟨h,Takes.refl root s,Nat.zero_le _,rfl,fun p _ => by simp⟩

theorem Linked.trans {l l' : List (List Index)} (h : Linked root s s₁ l)
    (h' : Linked root s₁ s' l') :
    Linked root s s' (l++l') := by
  have hroom := h'.room
  rw [h.free, List.length_drop] at hroom
  refine ⟨h'.wf,h.takes.trans h'.takes,?_,?_,?_⟩
  · have := h.room
    rw [List.length_append]
    omega
  · rw [h'.free, h.free, List.drop_drop, List.length_append]
  · intro p hp
    rw [h'.tables p hp, h.tables p hp, List.mem_append, not_or, and_assoc]

theorem Linked.perm {l l' : List (List Index)} (h : Linked root s s' l) (hl : l.Perm l') :
    Linked root s s' l' := by
  have hroom := h.room
  have hfree := h.free
  rw [hl.length_eq] at hroom hfree
  exact ⟨h.wf,h.takes,hroom,hfree,fun p hp => by rw [h.tables p hp, hl.mem_iff]⟩

theorem linked_add {rest : List Word} (h : WellFormed s root)
    (hadds : Adds root va q t i a rest s s') :
    Linked root s s' [q++[i]] := by
  have hfree := hadds.free
  obtain ⟨hwf,-,htable⟩ := link h hfree hadds.table hadds.short hadds.invalid
  have hnone : tableAt child s.mem root (q++[i]) = none := by
    rw [tableAt_concat, hadds.table, Option.bind_some, child, hadds.invalid]
    rfl
  rw [hadds.after]
  refine ⟨hwf,takes_of_tables ?_ ?_ ?_,by simp [hfree],by simp [hfree],?_⟩
  · intro b hb
    rw [hfree]
    exact List.mem_cons_of_mem _ hb
  · intro p hp b hpb
    rw [htable p hp] at hpb
    split_ifs at hpb with hpq
    · cases hpb
      exact .inr (by simp [hfree])
    · exact .inl hpb
  · intro b hb
    have hba : b ≠ a := by
      rintro rfl
      exact hb.used (by simp [hfree])
    have hbt : b ≠ t := by
      rintro rfl
      exact hb.plain q hadds.short.le hadds.table
    simp only [write, update_of_ne hbt, update_of_ne hba]
  · intro p hp
    rw [htable p hp]
    by_cases hpq : p = q++[i]
    · simp [hpq, hnone]
    · simp [hpq]

theorem nodup_missing (s : Vm) (root va : Word) : (missing s root va).Nodup := by
  apply List.Nodup.filter
  simp [paths]

structure Walked (kend : Word) (all : Set Word) (roots hand : List Word)
    (root va : Word) (s s' : Vm)
    (l : List (List Index)) : Prop where
  kept : Kept kend all s' roots hand
  same : ∀ root' ∈ roots, ∀ va', translate s' root' va' = translate s root' va'
  nodup : l.Nodup
  sub : ∀ p ∈ l, p ∈ missing s root va
  linked : Linked root s s' l

theorem Walked.add {rest : List Word} {l : List (List Index)}
    (h : Walked kend all roots hand root va s s₁ l)
    (hroot : root ∈ roots) (hva : va < maxva) (hadds : Adds root va q t i a rest s₁ s') :
    Walked kend all roots hand root va s s' (l++[q++[i]]) := by
  have hlow : q = [] → i.toNat < 256 := by
    rintro rfl
    obtain rfl : i = px 2 va := by simpa using hadds.way
    have hlt : va.toNat < 2^38 := BitVec.lt_def.mp hva
    rw [px_toNat]
    omega
  obtain ⟨hkept,htrans⟩ := h.kept.link hroot hadds.free hadds.table hadds.short hadds.invalid hlow
  have hpath : q++[i] ∈ paths va := by
    have hway := hadds.way
    rcases q with _ | ⟨j,_ | ⟨k,q⟩⟩
    · simpa [paths] using hway
    · simpa [paths] using hway
    · simp at hway
  have hnone : tableAt child s₁.mem root (q++[i]) = none := by
    rw [tableAt_concat, hadds.table, Option.bind_some, child, hadds.invalid]
    rfl
  obtain ⟨hbefore,hnew⟩ := (h.linked.tables _ hadds.way.length_le).mp (by rw [hnone]; rfl)
  rw [← hadds.after] at hkept htrans
  refine ⟨hkept,fun r hr va' => (htrans r hr va').trans (h.same r hr va'),?_,?_,
    h.linked.trans (linked_add (h.kept.wellFormed hroot) hadds)⟩
  · rw [List.nodup_append_comm]
    exact List.nodup_cons.mpr ⟨hnew,h.nodup⟩
  · intro p hp
    rcases List.mem_append.mp hp with hp | hp
    · exact h.sub p hp
    · rw [List.mem_singleton.mp hp]
      exact List.mem_filter.mpr ⟨hpath,hbefore⟩

theorem kept_walk (h : Kept kend all s roots hand) (hroot : root ∈ roots) (hva : va < maxva) :
    ∃ s', walk root va true s = .ok (lookup s' root va,s') ∧ Kept kend all s' roots hand ∧
      (∀ root' ∈ roots, ∀ va', translate s' root' va' = translate s root' va') ∧ Takes root s s' ∧
      (lookup s' root va = none → s.free.length < (missing s root va).length) ∧
      ∀ x, lookup s' root va = some x → Linked root s s' (missing s root va) := by
  have hstart : ∃ l, Walked kend all roots hand root va s s l :=
    ⟨[],h,fun _ _ _ => rfl,List.nodup_nil,fun _ hp => absurd hp List.not_mem_nil,
      Linked.refl (h.wellFormed hroot)⟩
  obtain ⟨s',hok,⟨l,hw⟩,hnone⟩ :=
    walk_rule (P := fun s' => ∃ l, Walked kend all roots hand root va s s' l) hva
    (fun s' ⟨_,hw⟩ => hw.kept.wellFormed hroot) (fun ⟨_,hw⟩ hadds =>
      ⟨_,hw.add hroot hva hadds⟩) hstart
  refine ⟨s',hok,hw.kept,hw.same,hw.linked.takes,?_,?_⟩
  · intro hl
    -- all free pages were used up, and the last table is still missing
    have hgone : (tableAt child s'.mem root [px 2 va,px 1 va]).isNone := by
      simpa [lookup] using hl
    obtain ⟨hbefore,hnew⟩ := (hw.linked.tables _ (by simp)).mp hgone
    have hlast : [px 2 va,px 1 va] ∈ missing s root va :=
      List.mem_filter.mpr ⟨by simp [paths],hbefore⟩
    have hsub : [px 2 va,px 1 va]::l ⊆ missing s root va :=
      List.cons_subset.mpr ⟨hlast,fun p hp => hw.sub p hp⟩
    have hlength := ((List.nodup_cons.mpr ⟨hnew,hw.nodup⟩).subperm hsub).length_le
    have hdrop := hw.linked.free
    rw [hnone hl] at hdrop
    have hle := List.drop_eq_nil_iff.mp hdrop.symm
    rw [List.length_cons] at hlength
    omega
  · rintro ⟨t,i⟩ hl
    have ht := (lookup_eq.mp hl).1
    obtain ⟨b,hb⟩ : ∃ b, tableAt child s'.mem root [px 2 va] = some b :=
      tableAt_prefix (q := [px 1 va]) ht
    refine hw.linked.perm
      ((List.perm_ext_iff_of_nodup hw.nodup (nodup_missing s root va)).mpr fun p => ?_)
    refine ⟨hw.sub p,fun hp => ?_⟩
    obtain ⟨hpath,hbefore⟩ := List.mem_filter.mp hp
    by_contra hnew
    simp only [paths, List.mem_cons, List.not_mem_nil, or_false] at hpath
    rcases hpath with rfl | rfl
    · have := (hw.linked.tables _ (by simp)).mpr ⟨hbefore,hnew⟩
      simp [hb] at this
    · have := (hw.linked.tables _ (by simp)).mpr ⟨hbefore,hnew⟩
      simp [ht] at this

theorem linked_leaf (pte : Word) (h : WellFormed s root) (hl : lookup s root va = some (t,i)) :
    Linked root s (setPte t i pte s) [] := by
  obtain ⟨htable,-⟩ := setPte_leaf pte h.distinct hl
  refine ⟨wellFormed_congr h rfl htable,takes_of_tables (fun _ ha => ha) ?_ ?_,Nat.zero_le _,rfl,?_⟩
  · intro p hp a hpa
    exact .inl (htable p hp ▸ hpa)
  · intro a ha
    apply update_of_ne
    rintro rfl
    exact ha.plain _ (by simp) (lookup_eq.mp hl).1
  · intro p hp
    simp [htable p hp]

theorem mappages_cases (pa perm : Word) (h : Kept kend all s roots hand) (hroot : root ∈ roots)
    (hva : IsVa va) (hnone : translate s root va = none) :
    (s.free.length < (missing s root va).length ∧ ∃ s',
      mappages root va pgsize pa perm s = .ok (-1,s') ∧
      Kept kend all s' roots hand ∧ Same roots s s' ∧ Takes root s s') ∨
    ∃ s₁ t i, lookup s₁ root va = some (t,i) ∧ Kept kend all s₁ roots hand ∧ Same roots s s₁ ∧
      mappages root va pgsize pa perm s = .ok (0,setPte t i (pa2pte pa|||perm|||pteV) s₁) ∧
      Linked root s (setPte t i (pa2pte pa|||perm|||pteV) s₁) (missing s root va) := by
  obtain ⟨s₁,hwalk,hkept,htrans,htakes,hfew,hlink⟩ := kept_walk h hroot hva.2
  have hsame : Same roots s s₁ := fun root' hroot' va' _ => htrans root' hroot' va'
  rcases mappages_walk pa perm hva hwalk with ⟨hl,hok⟩ | ⟨hsome,-⟩ | ⟨t,i,hl,-,hok⟩
  · exact .inl ⟨hfew hl,s₁,hok,hkept,hsame,htakes⟩
  · exact absurd ((htrans root hroot va).trans hnone) hsome
  · have hleaf :=
      (hlink _ hl).trans (linked_leaf (pa2pte pa|||perm|||pteV) (hkept.wellFormed hroot) hl)
    rw [List.append_nil] at hleaf
    exact .inr ⟨s₁,t,i,hl,hkept,hsame,hok,hleaf⟩

theorem mappages_user {perm : Word} (hperm : IsPerm perm) (h : Kept kend all s roots (a::hand))
    (hroot : root ∈ roots) (hva : UserVa va) (hnone : translate s root va = none) :
    (s.free.length < (missing s root va).length ∧ ∃ s',
      mappages root va pgsize a perm s = .ok (-1,s') ∧
      Kept kend all s' roots (a::hand) ∧ Same roots s s' ∧ Takes root s s') ∨
    ∃ s', mappages root va pgsize a perm s = .ok (0,s') ∧ Kept kend all s' roots hand ∧
      Put roots root va (some (pa2pte a|||perm|||pteV)) s s' ∧
        Linked root s s' (missing s root va) := by
  rcases mappages_cases a perm h hroot hva.1 hnone with hfail | ⟨s₁,t,i,hl,hkept,hsame,hok,hlink⟩
  · exact .inl hfail
  · have ha : Freeable kend a := h.pool (by simp)
    have hput := put_of_leaf (pa2pte a|||perm|||pteV) hkept hroot hva.1 hl hsame
    rw [valid_made, if_pos rfl] at hput
    have hnone₁ : translate s₁ root va = none := (hsame root hroot va hva.1).trans hnone
    exact .inr ⟨_,hok,hkept.mapUser hroot hva hl hnone₁ (valid_made _)
      (pte2pa_perm hperm ha),hput,hlink⟩

theorem mappages_other (pa perm : Word) (h : Kept kend all s roots hand) (hroot : root ∈ roots)
    (hva : IsVa va) (hother : ¬ UserVa va) (hnone : translate s root va = none) :
    (∃ s', mappages root va pgsize pa perm s = .ok (-1,s') ∧ Kept kend all s' roots hand ∧
      Same roots s s' ∧
      Leaves root s s') ∨
    ∃ s', mappages root va pgsize pa perm s = .ok (0,s') ∧ Kept kend all s' roots hand ∧
      Put roots root va (some (pa2pte pa|||perm|||pteV)) s s' ∧ Leaves root s s' := by
  rcases mappages_cases pa perm h hroot hva hnone with
    ⟨-,s',hok,hkept,hsame,htakes⟩ | ⟨s₁,t,i,hl,hkept,hsame,hok,hlink⟩
  · exact .inl ⟨s',hok,hkept,hsame,leaves_of_same htakes hroot hsame⟩
  · have hput := put_of_leaf (pa2pte pa|||perm|||pteV) hkept hroot hva hl hsame
    rw [valid_made, if_pos rfl] at hput
    exact .inr ⟨_,hok,hkept.mapOther hroot hva hother hl,hput,
      leaves_of_put hlink.takes hroot hput hother⟩

end Walks

section Growth

def needed (s : Vm) (root : Word) (vas : List Word) : ℕ :=
  vas.length+((vas.flatMap paths).toFinset.filter (fun p =>
    (tableAt child s.mem root p).isNone)).card

theorem length_of_mem_paths {p : List Index} (h : p ∈ paths va) : p.length ≤ 2 := by
  simp only [paths, List.mem_cons, List.not_mem_nil, or_false] at h
  rcases h with rfl | rfl <;> simp

variable {vas : List Word} {mem perm : Word}

theorem needed_cons
    (htables : ∀ p : List Index, p.length ≤ 2 →
    ((tableAt child s'.mem root p).isNone ↔ (tableAt child s.mem root p).isNone ∧
      p ∉ missing s root va)) :
    needed s root (va::vas) = 1+(missing s root va).length+needed s' root vas := by
  have hsplit : ((va::vas).flatMap paths).toFinset.filter (fun p =>
    (tableAt child s.mem root p).isNone) =
      (missing s root va).toFinset ∪
        (vas.flatMap paths).toFinset.filter (fun p => (tableAt child s'.mem root p).isNone) := by
    ext p
    simp only [List.flatMap_cons, List.toFinset_append, Finset.mem_filter, Finset.mem_union,
      List.mem_toFinset]
    constructor
    · rintro ⟨hp,hnone⟩
      by_cases hmiss : p ∈ missing s root va
      · exact .inl hmiss
      · rcases hp with hp | hp
        · exact absurd (List.mem_filter.mpr ⟨hp,hnone⟩) hmiss
        · obtain ⟨va',-,hpath⟩ := List.mem_flatMap.mp hp
          exact .inr ⟨hp,(htables p (length_of_mem_paths hpath)).mpr ⟨hnone,hmiss⟩⟩
    · rintro (hmiss | ⟨hp,hnone⟩)
      · obtain ⟨hp,hnone⟩ := List.mem_filter.mp hmiss
        exact ⟨.inl hp,hnone⟩
      · obtain ⟨va',-,hpath⟩ := List.mem_flatMap.mp hp
        exact ⟨.inr hp,((htables p (length_of_mem_paths hpath)).mp hnone).1⟩
  have hdisjoint : Disjoint (missing s root va).toFinset
      ((vas.flatMap paths).toFinset.filter (fun p => (tableAt child s'.mem root p).isNone)) := by
    rw [Finset.disjoint_left]
    intro p hmiss hp
    rw [List.mem_toFinset] at hmiss
    have hlen := length_of_mem_paths (List.mem_of_mem_filter hmiss)
    exact ((htables p hlen).mp (Finset.mem_filter.mp hp).2).2 hmiss
  rw [needed, hsplit, Finset.card_union_of_disjoint hdisjoint,
    List.toFinset_card_of_nodup (nodup_missing s root va), List.length_cons, needed]
  omega

theorem needed_nil (s : Vm) (root : Word) : needed s root [] = 0 := by simp [needed]

theorem needed_single (s : Vm) (root va : Word) : needed s root [va] =
    1+(missing s root va).length := by
  have h : ((paths va).toFinset.filter (fun p => (tableAt child s.mem root p).isNone)) =
      (missing s root va).toFinset := by
    ext p
    simp [missing]
  rw [needed, List.flatMap_singleton, h, List.toFinset_card_of_nodup (nodup_missing s root va)]
  rfl

theorem needed_head_le (s : Vm) (root va : Word) (vas : List Word) :
    needed s root [va] ≤ needed s root (va::vas) := by
  unfold needed
  refine Nat.add_le_add (by simp) (Finset.card_le_card (Finset.filter_subset_filter _ ?_))
  rw [List.flatMap_singleton, List.flatMap_cons, List.toFinset_append]
  exact Finset.subset_union_left

theorem needed_congr
    (h : ∀ p : List Index, p.length ≤ 2 →
    tableAt child s'.mem root p = tableAt child s.mem root p) : needed s' root vas =
      needed s root vas := by
  have hfilter : (vas.flatMap paths).toFinset.filter (fun p =>
    (tableAt child s'.mem root p).isNone) =
      (vas.flatMap paths).toFinset.filter (fun p => (tableAt child s.mem root p).isNone) := by
    apply Finset.filter_congr
    intro p hp
    obtain ⟨va',-,hpath⟩ := List.mem_flatMap.mp (List.mem_toFinset.mp hp)
    rw [h p (length_of_mem_paths hpath)]
  rw [needed, hfilter, needed]

/-- A page has been mapped at `va`: the free page `mem`, holding `data`. -/
structure Grown (root va : Word) (data : Index → Word) (mem : Word) (s s' : Vm) : Prop where
  took : mem ∈ s.free
  sub : ∀ b ∈ s'.free, b ∈ s.free
  takes : Takes root s s'
  holds : s'.mem mem = data
  room : needed s root [va] ≤ s.free.length
  rest : ∀ vas, needed s root (va::vas) = needed s root [va]+needed s' root vas
  free : s'.free.length = s.free.length-needed s root [va]

theorem Grown.leaves {data : Index → Word} (hgrown : Grown root va data mem s s')
    (h : Kept kend all s roots hand) (hroot : root ∈ roots) (hperm : IsPerm perm)
    (hput : Put roots root va (some (pa2pte mem|||perm|||pteV)) s s') : Leaves root s s' := by
  apply hgrown.takes.leaves
  intro va' pte huser hpte
  rw [hput root hroot va' huser.1] at hpte
  split_ifs at hpte
  · cases hpte
    right
    rw [pte2pa_perm hperm (h.pool (List.mem_append_left _ hgrown.took))]
    exact hgrown.took
  · exact .inl ⟨_,hpte,rfl⟩

theorem kalloc_takes (h : WellFormed s root) (hk : kalloc s = (some mem,s₁)) :
    s.free = mem::s₁.free ∧ Takes root s s₁ ∧
      ∀ p : List Index, p.length ≤ 2 → tableAt child s₁.mem root p =
        tableAt child s.mem root p := by
  unfold kalloc at hk
  cases hfree : s.free with
  | nil =>
    rw [hfree] at hk
    cases hk
  | cons b rest =>
    rw [hfree] at hk
    cases hk
    have hmem : mem ∈ s.free := by simp [hfree]
    have htable : ∀ p : List Index, p.length ≤ 2 →
        tableAt child (fill mem 0x0505050505050505 { s with free := rest }).mem root p =
          tableAt child s.mem root p :=
      fun p hp => tableAt_outside (fun q hq => h.apart mem hmem q hq.le) hp
    refine ⟨rfl,takes_of_tables ?_ ?_ ?_,htable⟩
    · intro a ha
      rw [hfree]
      exact List.mem_cons_of_mem _ ha
    · intro p hp a hpa
      exact .inl (htable p hp ▸ hpa)
    · intro a ha
      apply update_of_ne
      rintro rfl
      exact ha.used hmem

theorem store_tables (data : Index → Word) (h : Off s root mem) :
    ∀ p : List Index, p.length ≤ 2 → tableAt child (store mem data s).mem root p =
      tableAt child s.mem root p :=
  fun _ hp => tableAt_outside (fun q hq => h.plain q hq.le) hp

theorem grow_exact (hperm : IsPerm perm) (data : Vm → Index → Word) (h : Kept kend all s roots hand)
    (hroot : root ∈ roots) (hva : UserVa va) (hnone : translate s root va = none) :
    (s.free.length < needed s root [va] ∧
      (kalloc s = (none,s) ∨ ∃ mem s₁ s₂ s₃, kalloc s = (some mem,s₁) ∧
        mappages root va pgsize mem perm (store mem (data s₁) s₁) = .ok (-1,s₂) ∧
        kfree kend mem s₂ = .ok s₃ ∧ Kept kend all s₃ roots hand ∧ Same roots s s₃ ∧
          Takes root s s₃)) ∨
    ∃ mem s₁ s₂, kalloc s = (some mem,s₁) ∧
      mappages root va pgsize mem perm (store mem (data s₁) s₁) = .ok (0,s₂) ∧
        Kept kend all s₂ roots hand ∧
      Put roots root va (some (pa2pte mem|||perm|||pteV)) s s₂ ∧
        Grown root va (data s₁) mem s s₂ := by
  rcases hk : kalloc s with ⟨_ | mem,s₁⟩
  · obtain rfl := kalloc_none hk
    refine .inl ⟨?_,.inl rfl⟩
    have hempty : s₁.free = [] := by
      unfold kalloc at hk
      cases hfree : s₁.free with
      | nil => rfl
      | cons b rest =>
        rw [hfree] at hk
        cases hk
    rw [hempty, needed_single, List.length_nil]
    omega
  obtain ⟨hfree,htakes₁,htable₁⟩ := kalloc_takes (h.wellFormed hroot) hk
  obtain ⟨hkept₁,htrans₁⟩ := h.kalloc_some hk
  have hmem : mem ∈ s.free := by simp [hfree]
  have hoff : Off s₁ root mem := off_of_hand hkept₁ hroot List.mem_cons_self
  have htable := store_tables (data s₁) hoff
  have hoff' : Off (store mem (data s₁) s₁) root mem :=
    ⟨hoff.used,fun p hp => by rw [htable p hp]; exact hoff.plain p hp⟩
  obtain ⟨hkept₂,htrans₂⟩ := hkept₁.store mem
    (fun r p => hkept₁.apart mem (by simp) (.table r p)) (data s₁)
  have hsame : Same roots s (store mem (data s₁) s₁) := fun root' hroot' va' _ =>
    (htrans₂ root' hroot' va').trans (htrans₁ root' hroot' va')
  -- the page taken was free, so it is none of those to be kept
  have htakes : Takes root s (store mem (data s₁) s₁) := by
    intro a ha
    obtain ⟨ha₁,hsame⟩ := htakes₁ a ha
    have hne : a ≠ mem := by
      rintro rfl
      exact ha.used hmem
    refine ⟨⟨ha₁.used,fun p hp => by rw [htable p hp]; exact ha₁.plain p hp⟩,?_⟩
    rw [← hsame]
    exact update_of_ne hne ..
  have hmissing : missing (store mem (data s₁) s₁) root va = missing s root va := by
    apply List.filter_congr
    intro p hp
    rw [htable p (length_of_mem_paths hp), htable₁ p (length_of_mem_paths hp)]
  have hlength : s.free.length = 1+(store mem (data s₁) s₁).free.length := by
    change s.free.length = 1+s₁.free.length
    rw [hfree, List.length_cons]
    omega
  have hmap := mappages_user hperm hkept₂ hroot hva ((hsame root hroot va hva.1).trans hnone)
  rw [hmissing] at hmap
  rcases hmap with ⟨hfew,s₂,hmap,hkept,hsame₂,htakes₂⟩ | ⟨s₂,hmap,hkept,hput,hlink⟩
  · obtain ⟨s₃,hfree₃,hkept₃,-,htrans₃⟩ := hkept.kfree
    refine .inl ⟨by rw [needed_single]; omega,.inr ⟨mem,s₁,s₂,s₃,rfl,hmap,hfree₃,hkept₃,?_,?_⟩⟩
    · intro root' hroot' va' hva'
      exact (htrans₃ root' hroot' va').trans ((hsame.trans hsame₂) root' hroot' va' hva')
    have hs₃ : s₃ = ⟨update s₂.mem mem (fun _ => 0x0101010101010101),mem::s₂.free⟩ := by
      rw [kfree_ok (hkept₁.pool (by simp))] at hfree₃
      exact (Except.ok.inj hfree₃).symm
    intro a ha
    obtain ⟨ha₂,hsame₂⟩ := (htakes.trans htakes₂) a ha
    have hne : a ≠ mem := by
      rintro rfl
      exact ha.used hmem
    have hplain : ∀ p : List Index, p.length ≤ 2 → tableAt child s₂.mem root p ≠ some mem :=
      (htakes₂ mem hoff').1.plain
    rw [hs₃]
    refine ⟨⟨?_,?_⟩,?_⟩
    · simpa [hne] using ha₂.used
    · intro p hp
      rw [tableAt_outside (fun q hq => hplain q hq.le) hp]
      exact ha₂.plain p hp
    · rw [← hsame₂]
      exact update_of_ne hne ..
  · have hroom := hlink.room
    refine .inr ⟨mem,s₁,s₂,rfl,hmap,hkept,?_,hmem,?_,htakes.trans hlink.takes,?_,?_,?_,?_⟩
    · intro root' hroot' va' hva'
      rw [hput root' hroot' va' hva', hsame root' hroot' va' hva']
    · intro b hb
      rw [hlink.free] at hb
      have hb₁ : b ∈ s₁.free := List.mem_of_mem_drop hb
      rw [hfree]
      exact List.mem_cons_of_mem _ hb₁
    · rw [(hlink.takes mem hoff').2]
      exact Function.update_self ..
    · rw [needed_single]
      omega
    · intro vas
      rw [needed_single]
      apply needed_cons
      intro p hp
      rw [hlink.tables p hp, htable p hp, htable₁ p hp]
    · rw [needed_single, hlink.free, List.length_drop]
      omega

end Growth

section Unmap

structure Dropped (root : Word) (lo hi : ℕ) (s s' : Vm) : Prop where
  gives : Gives root s s'
  tables : ∀ p : List Index, p.length ≤ 2 → tableAt child s'.mem root p = tableAt child s.mem root p
  grows : ∀ b ∈ s.free, b ∈ s'.free
  only : ∀ b ∈ s'.free, b ∈ s.free ∨ ∃ va pte, UserVa va ∧ translate s root va = some pte ∧
    pte2pa pte = b
  freed : ∀ va pte, UserVa va → lo ≤ va.toNat → va.toNat < hi → translate s root va = some pte →
    pte2pa pte ∈ s'.free

variable {lo hi : ℕ}

theorem Dropped.none (h : hi ≤ lo) : Dropped root lo hi s s :=
  ⟨Gives.refl root s,fun _ _ => rfl,fun _ hb => hb,fun _ hb => .inl hb,fun _ _ _ _ _ _ => by omega⟩

theorem Dropped.leaves (h : Dropped root lo hi s s')
    (hcut : ∀ va pte, UserVa va → translate s' root va = some pte →
      translate s root va = some pte) :
    Leaves root s s' := by
  intro a ha
  have hoff : Off s' root a := by
    constructor
    · intro hfree
      rcases h.only a hfree with hfree | ⟨va,pte,huser,hpte,rfl⟩
      · exact ha.off.used hfree
      · exact ha.unmapped va pte huser hpte rfl
    · intro p hp
      rw [h.tables p hp]
      exact ha.off.plain p hp
  exact ⟨⟨hoff,fun va pte huser hpte => ha.unmapped va pte huser (hcut va pte huser hpte)⟩,
    (h.gives a hoff).2⟩

theorem unmapPage_user (h : Kept kend all s roots hand) (hroot : root ∈ roots) (hva : UserVa va) :
    ∃ s', unmapPage kend root va true s = .ok s' ∧ Kept kend all s' roots hand ∧
      Put roots root va none s s' ∧ Dropped root va.toNat (va.toNat+1) s s' := by
  have hhere : ∀ va', va.toNat ≤ va'.toNat → va'.toNat < va.toNat+1 → va' = va :=
    fun va' hlo hhi => BitVec.eq_of_toNat_eq (by omega)
  rcases unmapPage_cases kend true hva.1.2 with ⟨hnone,hok⟩ | ⟨t,i,hl,hpte,hok⟩
  · refine ⟨s,hok,h,?_,Gives.refl root s,fun _ _ => rfl,fun _ hb => hb,fun _ hb => .inl hb,?_⟩
    · intro root' _ va' _
      split_ifs with hx
      · rw [hx.1, hx.2, hnone]
      · rfl
    · intro va' pte _ hlo hhi hpte
      rw [hhere va' hlo hhi, hnone] at hpte
      cases hpte
  · have hleaf : Holds s roots (.leaf root va) (pte2pa (s.mem t i)) := ⟨hroot,hva,_,hpte,rfl⟩
    have hoff := off_of_leaf h hroot hleaf
    have hmay : MayFree kend root s va := by
      intro pte hpte'
      rw [hpte, Option.some.injEq] at hpte'
      exact hpte' ▸ ⟨h.ram hleaf,hoff.plain⟩
    obtain ⟨s₀,hok₀,-,htable,-⟩ := unmapPage_ok (h.wellFormed hroot).distinct hva.1.2
      (fun _ => hmay)
    -- the page is freed before its entry is cleared, which makes no difference
    obtain ⟨s₁,hok₁,hkept₁,hfree₁,htrans₁⟩ := (h.unmapUser hroot hva hl hpte).kfree
    have hne : t ≠ pte2pa (s.mem t i) := fun heq =>
      hoff.plain _ (by simp) (heq ▸ (lookup_eq.mp hl).1)
    have hswap : setPte t i 0#64 ⟨update s.mem (pte2pa (s.mem t i))
        (fun _ => 0x0101010101010101),pte2pa (s.mem t i)::s.free⟩ =
        ⟨update (setPte t i 0#64 s).mem (pte2pa (s.mem t i)) (fun _ => 0x0101010101010101),
          pte2pa (s.mem t i)::s.free⟩ := by
      simp only [setPte, write, update_of_ne hne, Vm.mk.injEq, and_true]
      exact Function.update_comm hne.symm ..
    rw [if_pos rfl, kfree_ok (h.ram hleaf)] at hok
    rw [kfree_ok (h.ram hleaf)] at hok₁
    have hs₁ : s₁ = s₀ := by
      rw [hok₀] at hok
      simp only [bind, Except.bind, hswap] at hok
      exact (Except.ok.inj hok₁).symm.trans (Except.ok.inj hok).symm
    subst hs₁
    refine ⟨s₁,hok₀,hkept₁,?_,?_,htable,?_,?_,?_⟩
    · intro root' hroot' va' hva'
      have hput := put_of_leaf 0#64 h hroot hva.1 hl (Same.refl roots s) root' hroot' va' hva'
      rw [valid_zero] at hput
      exact (htrans₁ root' hroot' va').trans hput
    · intro a ha
      have hused := ha.used
      rw [hfree₁, List.mem_cons, not_or] at hused
      have hplain : ∀ p : List Index, p.length ≤ 2 → tableAt child s.mem root p ≠ some a :=
        fun p hp => by rw [← htable p hp]; exact ha.plain p hp
      have hat : a ≠ t := by
        rintro rfl
        exact hplain _ (by simp) (lookup_eq.mp hl).1
      refine ⟨⟨hused.2,hplain⟩,?_⟩
      cases hok₁
      simp only [setPte, write, update_of_ne hat, update_of_ne hused.1]
    · intro b hb
      rw [hfree₁]
      exact List.mem_cons_of_mem _ hb
    · intro b hb
      rw [hfree₁, List.mem_cons] at hb
      rcases hb with rfl | hb
      · exact .inr ⟨va,_,hva,hpte,rfl⟩
      · exact .inl hb
    · intro va' pte _ hlo hhi hpte'
      rw [hhere va' hlo hhi, hpte] at hpte'
      cases hpte'
      simp [hfree₁, setPte]

theorem unmapPage_other (h : Kept kend all s roots hand) (hroot : root ∈ roots) (hva : IsVa va)
    (hother : ¬ UserVa va) :
    ∃ s', unmapPage kend root va false s = .ok s' ∧ Kept kend all s' roots hand ∧
      Put roots root va none s s' ∧ Leaves root s s' := by
  have hput : ∀ {s'}, Put roots root va none s s' → Takes root s s' → Leaves root s s' :=
    fun hput htakes => leaves_of_put htakes hroot hput hother
  rcases unmapPage_cases kend false hva.2 with ⟨hnone,hok⟩ | ⟨t,i,hl,-,hok⟩
  · have hsame : Put roots root va none s s := by
      intro root' _ va' _
      split_ifs with hx
      · rw [hx.1, hx.2, hnone]
      · rfl
    exact ⟨s,hok,h,hsame,hput hsame (Takes.refl root s)⟩
  · have hleaf := put_of_leaf 0#64 h hroot hva hl (Same.refl roots s)
    rw [valid_zero] at hleaf
    exact ⟨_,hok,h.mapOther hroot hva hother hl,hleaf,
      hput hleaf (linked_leaf 0#64 (h.wellFormed hroot) hl).takes⟩

theorem unmapLoop_user (va : Word) {n : ℕ} {stop : Word} (h : Kept kend all s roots hand)
    (hroot : root ∈ roots)
    (ha : va.toNat%4096 = 0) (hrange : va.toNat+n*4096 ≤ 2^38-8192)
    (hstop : stop.toNat = va.toNat+n*4096) :
    ∃ s', unmapLoop kend root stop true n va s = .ok s' ∧ Kept kend all s' roots hand ∧
      Cut roots root va.toNat stop.toNat s s' ∧ Dropped root va.toNat stop.toNat s s' := by
  induction n generalizing va s with
  | zero =>
    refine ⟨s,rfl,h,?_,Dropped.none (by omega)⟩
    intro root' _ va' _
    rw [if_neg (by omega)]
  | succ n ih =>
    have hnext : (va+pgsize).toNat = va.toNat+4096 := toNat_next (by omega)
    have huser : UserVa va := userVa_iff.mpr ⟨ha,by omega⟩
    obtain ⟨s₁,hok₁,hkept₁,hput₁,hfirst⟩ := unmapPage_user h hroot huser
    obtain ⟨s₂,hok₂,hkept₂,hcut₂,hrest⟩ := ih (va+pgsize) hkept₁ (by omega) (by omega) (by omega)
    refine ⟨s₂,?_,hkept₂,cut_cons huser.1 hnext (by omega) hput₁ hcut₂,
      hfirst.gives.trans hrest.gives,
      fun p hp => (hrest.tables p hp).trans (hfirst.tables p hp),
      fun b hb => hrest.grows b (hfirst.grows b hb),?_,?_⟩
    · rw [unmapLoop, if_pos (BitVec.lt_def.mpr (by omega)), hok₁]
      exact hok₂
    · intro b hb
      rcases hrest.only b hb with hb | ⟨va',pte,huser',hpte,rfl⟩
      · exact hfirst.only b hb
      · rw [hput₁ root hroot va' huser'.1] at hpte
        split_ifs at hpte
        exact .inr ⟨va',pte,huser',hpte,rfl⟩
    · intro va' pte huser' hlo hhi hpte
      by_cases heq : va' = va
      · subst heq
        exact hrest.grows _ (hfirst.freed va' pte huser' le_rfl (by omega) hpte)
      · refine hrest.freed va' pte huser' ?_ hhi ?_
        · have hne : va'.toNat ≠ va.toNat := fun h => heq (BitVec.eq_of_toNat_eq h)
          have := (userVa_iff.mp huser').1
          omega
        · rw [hput₁ root hroot va' huser'.1, if_neg (fun hx => heq hx.2), hpte]

theorem uvmunmap_user (va npages : Word) (h : Kept kend all s roots hand) (hroot : root ∈ roots)
    (ha : va.toNat%4096 = 0) (hrange : va.toNat+npages.toNat*4096 ≤ 2^38-8192) :
    ∃ s', uvmunmap kend root va npages true s = .ok s' ∧ Kept kend all s' roots hand ∧
      Cut roots root va.toNat (va.toNat+npages.toNat*4096) s s' ∧
      Dropped root va.toNat (va.toNat+npages.toNat*4096) s s' := by
  have hstop : (va+npages*pgsize).toNat = va.toNat+npages.toNat*4096 := by
    rw [BitVec.toNat_add, BitVec.toNat_mul, toNat_pgsize]
    omega
  rw [uvmunmap, if_neg (by simpa using aligned_iff.mpr ha), ← hstop]
  exact unmapLoop_user va h hroot ha hrange hstop

theorem uvmunmap_other (h : Kept kend all s roots hand) (hroot : root ∈ roots) (hva : IsVa va)
    (hother : ¬ UserVa va) :
    ∃ s', uvmunmap kend root va 1#64 false s = .ok s' ∧ Kept kend all s' roots hand ∧
      Put roots root va none s s' ∧ Leaves root s s' := by
  obtain ⟨s',hok,hrest⟩ := unmapPage_other h hroot hva hother
  refine ⟨s',?_,hrest⟩
  have hlt : va < va+1#64*pgsize := by
    have := (isVa_iff.mp hva).2
    have hone : (1#64*pgsize).toNat = 4096 := by decide
    rw [BitVec.lt_def, BitVec.toNat_add, hone]
    omega
  rw [uvmunmap, if_neg (by simpa using hva.1), show BitVec.toNat 1#64 = 0+1 from rfl, unmapLoop,
    if_pos hlt, hok]
  rfl

end Unmap

section Tables

theorem kfree_frame (hok : kfree kend a s = .ok s') : s'.free = a::s.free ∧ ∀ b, b ≠ a →
    s'.mem b = s.mem b := by
  unfold kfree at hok
  split_ifs at hok
  cases hok
  exact ⟨rfl,fun b hb => update_of_ne hb ..⟩

theorem kalloc_spares (hk : kalloc s = (some a,s')) :
    ∀ b, b ∉ s.free → b ∉ s'.free ∧ b ≠ a ∧ s'.mem b = s.mem b := by
  intro b hb
  unfold kalloc at hk
  cases hfree : s.free with
  | nil =>
    rw [hfree] at hk
    cases hk
  | cons c rest =>
    rw [hfree, List.mem_cons, not_or] at hb
    rw [hfree] at hk
    cases hk
    exact ⟨hb.2,hb.1,update_of_ne hb.1 ..⟩

theorem uvmcreate_cases (h : Kept kend all s roots hand) :
    uvmcreate s = (none,s) ∨
    ∃ root s', uvmcreate s = (some root,s') ∧ Kept kend all s' (root::roots) hand ∧ root ∉ roots ∧
      (∀ va, translate s' root va = none) ∧ Starts root s s' := by
  unfold uvmcreate
  rcases hk : kalloc s with ⟨_ | root,s₁⟩
  · obtain rfl := kalloc_none hk
    exact .inl rfl
  · obtain ⟨hkept₁,-⟩ := h.kalloc_some hk
    have hmem : root ∈ s₁.free++root::hand := by simp
    obtain ⟨hkept₂,-⟩ := hkept₁.store root
      (fun r p => hkept₁.apart root hmem (.table r p)) (fun _ => 0#64)
    have hnot : root ∉ roots := fun hr =>
      hkept₂.apart root hmem (.table root []) ⟨hr,by simp,rfl⟩
    have hzero : ∀ i, (store root (fun _ => 0#64) s₁).mem root i = 0#64 := by
      intro i
      simp [store]
    have htable : ∀ p b, tableAt child (store root (fun _ => 0#64) s₁).mem root p = some b →
      p = [] ∧ b = root := by
      intro p b hp
      cases p with
      | nil =>
        cases hp
        exact ⟨rfl,rfl⟩
      | cons i p =>
        rw [tableAt, hzero, child, valid_zero] at hp
        cases hp
    have hempty : ∀ va, translate (store root (fun _ => 0#64) s₁) root va = none := by
      intro va
      cases hpte : translate (store root (fun _ => 0#64) s₁) root va with
      | none => rfl
      | some pte =>
        obtain ⟨t,ht,-⟩ := translate_eq_some.mp hpte
        cases (htable _ _ ht).1
    refine .inr ⟨root,store root (fun _ => 0#64) s₁,rfl,?_,hnot,hempty,?_⟩
    · refine hkept₂.add (.table root []) (a := root) ?_ List.perm_middle ?_
      · intro x b
        cases x with
        | table root' p =>
          simp only [Holds, List.mem_cons, Place.table.injEq]
          constructor
          · rintro ⟨rfl | hr,hp,hb⟩
            · exact .inr ⟨⟨rfl,(htable p b hb).1⟩,(htable p b hb).2⟩
            · exact .inl ⟨hr,hp,hb⟩
          · rintro (⟨hr,hp,hb⟩ | ⟨⟨rfl,rfl⟩,rfl⟩)
            · exact ⟨.inr hr,hp,hb⟩
            · exact ⟨.inl rfl,by simp,rfl⟩
        | leaf root' va =>
          simp only [Holds, List.mem_cons, reduceCtorEq, false_and, or_false]
          constructor
          · rintro ⟨rfl | hr,hva,pte,hpte,hb⟩
            · rw [hempty va] at hpte
              cases hpte
            · exact ⟨hr,hva,pte,hpte,hb⟩
          · rintro ⟨hr,hva,hpte⟩
            exact ⟨.inr hr,hva,hpte⟩
      · intro root' hroot' p t i hp ht hv
        rcases List.mem_cons.mp hroot' with rfl | hr
        · obtain ⟨-,rfl⟩ := htable p t ht
          rw [hzero, valid_zero] at hv
          cases hv
        · exact hkept₂.interior root' hr p t i hp ht hv
    · intro b hb
      obtain ⟨hused,hne,hmem⟩ := kalloc_spares hk b hb
      refine ⟨⟨⟨hused,?_⟩,?_⟩,(update_of_ne hne ..).trans hmem⟩
      · intro p _ hp
        exact hne (htable p b hp).2
      · intro va pte _ hpte
        rw [hempty va] at hpte
        cases hpte

end Tables

end GreenOS.PageFrames
