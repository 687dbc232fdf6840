import GreenOS.PageMap
import GreenOS.UserMemory

/-!
# Who has a page

Several page tables live in one memory. A page of the allocator is a table of
one of them, a user page mapped at one address of one of them, free, or in hand:
a trapframe, a pipe or what the running code has just allocated.
-/

namespace GreenOS.PageOwners
open RadixTree PageTable PageTree PageMap UserMemory
open Function (update update_of_ne)

def rwx : Word := pteR|||pteW|||pteX

def UserVa (va : Word) : Prop := IsVa va ∧ va < trapframe

inductive Place where
  | table (root : Word) (path : List Index)
  | leaf (root va : Word)

def Holds (s : Vm) (roots : List Word) : Place → Word → Prop
  | .table root path, a => root ∈ roots ∧ path.length ≤ 2 ∧ tableAt child s.mem root path = some a
  | .leaf root va, a =>
    root ∈ roots ∧ UserVa va ∧ ∃ pte, translate s root va = some pte ∧ pte2pa pte = a

def Place.root : Place → Word
  | .table root _ => root
  | .leaf root _ => root

variable {s : Vm} {roots : List Word} {x : Place} {a : Word}

theorem holds_iff :
    Holds s roots x a ↔ x.root ∈ roots ∧ Holds s [x.root] x a := by
  cases x <;> simp [Holds, Place.root]

theorem Holds.mono {roots' : List Word} (h : Holds s roots x a)
    (hsub : roots ⊆ roots') : Holds s roots' x a :=
  holds_iff.mpr ⟨hsub (holds_iff.mp h).1,(holds_iff.mp h).2⟩

theorem not_holds_nil (s : Vm) (x : Place) (a : Word) : ¬ Holds s [] x a :=
  fun h => List.not_mem_nil (holds_iff.mp h).1

/-- The entries above the leaves only point to tables, and a root has none for
addresses from `MAXVA` on. -/
def Interior (s : Vm) (roots : List Word) : Prop :=
  ∀ root ∈ roots, ∀ (p : List Index) (t : Word) (i : Index), p.length < 2 →
    tableAt child s.mem root p = some t → valid (s.mem t i) = true →
    s.mem t i&&&rwx = 0#64 ∧ (p = [] → i.toNat < 256)

structure Kept (kend : Word) (all : Set Word) (s : Vm) (roots hand : List Word) : Prop where
  one : ∀ x y a, Holds s roots x a → Holds s roots y a → x = y
  nodup : (s.free++hand).Nodup
  apart : ∀ a ∈ s.free++hand, ∀ x, ¬ Holds s roots x a
  cover : ∀ a, a ∈ all ↔ a ∈ s.free++hand ∨ ∃ x, Holds s roots x a
  freeable : ∀ a ∈ all, Freeable kend a
  interior : Interior s roots

section Views
variable {s s' : Vm} {root : Word} {roots hand : List Word} {kend : Word} {all : Set Word}

theorem view_of_agree (h : ∀ (p : List Index) (a : Word), p.length ≤ 2 →
    tableAt child s.mem root p = some a → s'.mem a = s.mem a) :
    (∀ p : List Index, p.length ≤ 2 → tableAt child s'.mem root p = tableAt child s.mem root p) ∧
      ∀ va, translate s' root va = translate s root va := by
  have htable : ∀ p : List Index, p.length ≤ 2 →
      tableAt child s'.mem root p = tableAt child s.mem root p := by
    intro p hp
    apply tableAt_congr
    intro q i rest a heq hq
    have hlen := congrArg List.length heq
    simp only [List.length_append, List.length_cons] at hlen
    rw [h q a (by omega) hq]
  refine ⟨htable,?_⟩
  intro va
  rw [PageTable.translate, lookup_congr htable, PageTable.translate]
  cases hl : lookup s root va with
  | none => rfl
  | some x =>
    simp only [Option.bind_some, h _ x.1 (by simp) (lookup_eq.mp hl).1]

variable {x : Place} {a : Word} {hand' roots' : List Word}

theorem holds_unique {b : Word} (ha : Holds s roots x a) (hb : Holds s roots x b) : a = b := by
  cases x with
  | table root p =>
    obtain ⟨-,-,ha⟩ := ha
    obtain ⟨-,-,hb⟩ := hb
    exact Option.some.inj (ha.symm.trans hb)
  | leaf root va =>
    obtain ⟨-,-,pte,hpte,rfl⟩ := ha
    obtain ⟨-,-,pte',hpte',rfl⟩ := hb
    rw [Option.some.inj (hpte.symm.trans hpte')]

theorem Kept.ram (h : Kept kend all s roots hand) (hx : Holds s roots x a) :
    Freeable kend a := h.freeable a ((h.cover a).mpr (.inr ⟨x,hx⟩))

theorem Kept.pool (h : Kept kend all s roots hand) (ha : a ∈ s.free++hand) :
    Freeable kend a := h.freeable a ((h.cover a).mpr (.inl ha))

theorem Kept.wellFormed (h : Kept kend all s roots hand) (hroot : root ∈ roots) :
    WellFormed s root := by
  constructor
  · intro p q a hp hq hpa hqa
    have := h.one (.table root p) (.table root q) a ⟨hroot,hp,hpa⟩ ⟨hroot,hq,hqa⟩
    simpa using this
  · exact h.nodup.of_append_left
  · intro a ha
    have := h.pool (List.mem_append_left _ ha)
    exact ⟨this.1,this.2.2⟩
  · intro a ha p hp htable
    exact h.apart a (List.mem_append_left _ ha) (.table root p) ⟨hroot,hp,htable⟩

theorem Kept.same (h : Kept kend all s roots hand)
    (hholds : ∀ x a, Holds s' roots x a ↔ Holds s roots x a)
    (hpool : (s.free++hand).Perm (s'.free++hand'))
    (hin : Interior s' roots) : Kept kend all s' roots hand' := by
  constructor
  · intro x y a hx hy
    exact h.one x y a ((hholds x a).mp hx) ((hholds y a).mp hy)
  · exact hpool.nodup_iff.mp h.nodup
  · intro a ha x hx
    exact h.apart a (hpool.mem_iff.mpr ha) x ((hholds x a).mp hx)
  · intro a
    rw [h.cover a, hpool.mem_iff, exists_congr (fun x => (hholds x a).symm)]
  · exact h.freeable
  · exact hin

theorem Kept.perm (h : Kept kend all s roots hand) (hperm : hand.Perm hand') :
    Kept kend all s roots hand' := h.same (fun _ _ => Iff.rfl) (hperm.append_left _) h.interior

theorem Kept.congr (h : Kept kend all s roots hand) (hroots : ∀ r, r ∈ roots' ↔ r ∈ roots) :
    Kept kend all s roots' hand := by
  have hholds : ∀ x a, Holds s roots' x a ↔ Holds s roots x a := by
    intro x a
    rw [holds_iff, hroots, ← holds_iff]
  constructor
  · intro x y a hx hy
    exact h.one x y a ((hholds x a).mp hx) ((hholds y a).mp hy)
  · exact h.nodup
  · intro a ha x hx
    exact h.apart a ha x ((hholds x a).mp hx)
  · intro a
    rw [h.cover a]
    exact or_congr_right (exists_congr fun x => (hholds x a).symm)
  · exact h.freeable
  · intro root hroot
    exact h.interior root ((hroots root).mp hroot)

theorem Kept.add (x₀ : Place) (h : Kept kend all s roots hand)
    (hholds : ∀ x b, Holds s' roots' x b ↔ Holds s roots x b ∨ x = x₀ ∧ b = a)
    (hpool : (s.free++hand).Perm (a::(s'.free++hand'))) (hin : Interior s' roots') :
    Kept kend all s' roots' hand' := by
  have hnodup := hpool.nodup_iff.mp h.nodup
  have ha : a ∈ s.free++hand := hpool.mem_iff.mpr List.mem_cons_self
  constructor
  · intro x y b hx hy
    rcases (hholds x b).mp hx with hx | ⟨rfl,rfl⟩
    · rcases (hholds y b).mp hy with hy | ⟨rfl,rfl⟩
      · exact h.one x y b hx hy
      · exact absurd hx (h.apart _ ha x)
    · rcases (hholds y b).mp hy with hy | ⟨rfl,-⟩
      · exact absurd hy (h.apart _ ha y)
      · rfl
  · exact (List.nodup_cons.mp hnodup).2
  · intro b hb x hx
    rcases (hholds x b).mp hx with hx | ⟨-,rfl⟩
    · exact h.apart b (hpool.mem_iff.mpr (List.mem_cons_of_mem _ hb)) x hx
    · exact (List.nodup_cons.mp hnodup).1 hb
  · intro b
    rw [h.cover b, hpool.mem_iff, List.mem_cons]
    constructor
    · rintro ((rfl | hb) | ⟨x,hx⟩)
      · exact .inr ⟨x₀,(hholds x₀ b).mpr (.inr ⟨rfl,rfl⟩)⟩
      · exact .inl hb
      · exact .inr ⟨x,(hholds x b).mpr (.inl hx)⟩
    · rintro (hb | ⟨x,hx⟩)
      · exact .inl (.inr hb)
      · rcases (hholds x b).mp hx with hx | ⟨-,rfl⟩
        · exact .inr ⟨x,hx⟩
        · exact .inl (.inl rfl)
  · exact h.freeable
  · exact hin

theorem Kept.remove {x₀ : Place} (h : Kept kend all s roots hand) (hx₀ : Holds s roots x₀ a)
    (hholds : ∀ x b, Holds s' roots x b ↔ Holds s roots x b ∧ x ≠ x₀)
    (hpool : (s'.free++hand').Perm (a::(s.free++hand))) (hin : Interior s' roots) :
    Kept kend all s' roots hand' := by
  constructor
  · intro x y b hx hy
    exact h.one x y b ((hholds x b).mp hx).1 ((hholds y b).mp hy).1
  · rw [hpool.nodup_iff]
    exact List.nodup_cons.mpr ⟨fun ha => h.apart a ha x₀ hx₀,h.nodup⟩
  · intro b hb x hx
    obtain ⟨hx,hne⟩ := (hholds x b).mp hx
    rcases List.mem_cons.mp (hpool.mem_iff.mp hb) with rfl | hb
    · exact hne (h.one x x₀ b hx hx₀)
    · exact h.apart b hb x hx
  · intro b
    rw [h.cover b, hpool.mem_iff, List.mem_cons]
    constructor
    · rintro (hb | ⟨x,hx⟩)
      · exact .inl (.inr hb)
      · by_cases hne : x = x₀
        · subst hne
          exact .inl (.inl (holds_unique hx hx₀))
        · exact .inr ⟨x,(hholds x b).mpr ⟨hx,hne⟩⟩
    · rintro ((rfl | hb) | ⟨x,hx⟩)
      · exact .inr ⟨x₀,hx₀⟩
      · exact .inl hb
      · exact .inr ⟨x,((hholds x b).mp hx).1⟩
  · exact h.freeable
  · exact hin

theorem Kept.agree (h : Kept kend all s roots hand)
    (hagree : ∀ root ∈ roots, ∀ (p : List Index) (a : Word), p.length ≤ 2 →
      tableAt child s.mem root p = some a → s'.mem a = s.mem a)
    (hpool : (s.free++hand).Perm (s'.free++hand')) :
    Kept kend all s' roots hand' ∧ ∀ root ∈ roots, ∀ va, translate s' root va =
      translate s root va := by
  have hview := fun root hroot => view_of_agree (hagree root hroot)
  refine ⟨h.same ?_ hpool ?_,fun root hroot => (hview root hroot).2⟩
  · intro x a
    cases x with
    | table root p =>
      refine and_congr_right fun hroot => and_congr_right fun hp => ?_
      rw [(hview root hroot).1 p hp]
    | leaf root va =>
      refine and_congr_right fun hroot => and_congr_right fun _ => ?_
      rw [(hview root hroot).2 va]
  · intro root hroot p t i hp ht hv
    rw [(hview root hroot).1 p hp.le] at ht
    rw [hagree root hroot p t hp.le ht] at hv ⊢
    exact h.interior root hroot p t i hp ht hv

theorem Kept.store (h : Kept kend all s roots hand) (pa : Word)
    (hpa : ∀ root p, ¬ Holds s roots (.table root p) pa) (data : Index → Word) :
    Kept kend all (UserMemory.store pa data s) roots hand ∧
      ∀ root ∈ roots, ∀ va, translate (UserMemory.store pa data s) root va =
        translate s root va := by
  refine h.agree ?_ (List.Perm.refl _)
  intro root hroot p a hp ha
  apply update_of_ne
  rintro rfl
  exact hpa root p ⟨hroot,hp,ha⟩

theorem Kept.kalloc_some (h : Kept kend all s roots hand) (hk : kalloc s = (some a,s')) :
    Kept kend all s' roots (a::hand) ∧ ∀ root ∈ roots, ∀ va, translate s' root va =
      translate s root va := by
  unfold kalloc at hk
  cases hfree : s.free with
  | nil =>
    rw [hfree] at hk
    cases hk
  | cons b rest =>
    rw [hfree] at hk
    cases hk
    have hmem : a ∈ s.free++hand := by simp [hfree]
    refine h.agree ?_ ?_
    · intro root hroot p b hp hb
      apply update_of_ne
      rintro rfl
      exact h.apart b hmem (.table root p) ⟨hroot,hp,hb⟩
    · rw [hfree]
      exact List.perm_middle.symm

theorem kalloc_none (hk : kalloc s = (none,s')) : s' = s := by
  unfold kalloc at hk
  split at hk
  · cases hk; rfl
  · cases hk

theorem Kept.kfree (h : Kept kend all s roots (a::hand)) :
    ∃ s', PageTable.kfree kend a s = .ok s' ∧ Kept kend all s' roots hand ∧ s'.free = a::s.free ∧
      ∀ root ∈ roots, ∀ va, translate s' root va = translate s root va := by
  have hmem : a ∈ s.free++a::hand := by simp
  obtain ⟨s',hs'⟩ : ∃ s' : Vm, s' = ⟨update s.mem a (fun _ => 0x0101010101010101),a::s.free⟩ :=
    ⟨_,rfl⟩
  have hpool : (s.free++a::hand).Perm (s'.free++hand) := by
    rw [hs']
    exact List.perm_middle
  have hagree : Kept kend all s' roots hand ∧ ∀ root ∈ roots, ∀ va, translate s' root va =
    translate s root va := by
    refine h.agree ?_ hpool
    intro root hroot p b hp hb
    rw [hs']
    apply update_of_ne
    rintro rfl
    exact h.apart b hmem (.table root p) ⟨hroot,hp,hb⟩
  exact ⟨s',hs' ▸ kfree_ok (h.pool hmem),hagree.1,by rw [hs'],hagree.2⟩

end Views

section Tables
variable {s s' : Vm} {root a t : Word} {roots hand rest : List Word} {kend : Word} {all : Set Word}
    {q : List Index} {i : Index}

theorem made_interior : (pa2pte a|||pteV)&&&rwx = 0#64 := by
  apply BitVec.eq_of_getLsbD_eq
  intro j hj
  rw [BitVec.getLsbD_and, BitVec.getLsbD_or, pa2pte, BitVec.getLsbD_shiftLeft, BitVec.getLsbD_zero]
  by_cases h10 : j < 10
  · interval_cases j <;> simp [pteV, rwx, pteR, pteW, pteX]
  · have hmask : rwx.getLsbD j = false := by
      have : rwx.toNat < 2^4 := by decide
      exact Nat.testBit_lt_two_pow (this.trans_le (Nat.pow_le_pow_right (by decide) (by omega)))
    simp [hmask]

theorem Kept.link (h : Kept kend all s roots hand) (hroot : root ∈ roots) (hfree : s.free = a::rest)
    (hq : tableAt child s.mem root q = some t) (hlen : q.length < 2)
    (hi : valid (s.mem t i) = false)
    (hlow : q = [] → i.toNat < 256) :
    let s' : Vm := ⟨write (update s.mem a (fun _ => 0#64)) t i (pa2pte a|||pteV),rest⟩
    Kept kend all s' roots hand ∧ ∀ root' ∈ roots, ∀ va, translate s' root' va =
      translate s root' va := by
  intro s'
  have hwf := h.wellFormed hroot
  obtain ⟨-,htrans,htable⟩ := PageTree.link hwf hfree hq hlen hi
  have hmem : a ∈ s.free++hand := by simp [hfree]
  have hagree : ∀ root' ∈ roots, root' ≠ root → ∀ (p : List Index) (b : Word), p.length ≤ 2 →
      tableAt child s.mem root' p = some b → s'.mem b = s.mem b := by
    intro root' hroot' hne p b hp hb
    have hbt : b ≠ t := by
      rintro rfl
      have := h.one (.table root' p) (.table root q) b ⟨hroot',hp,hb⟩ ⟨hroot,hlen.le,hq⟩
      simp [hne] at this
    have hba : b ≠ a := by
      rintro rfl
      exact h.apart b hmem (.table root' p) ⟨hroot',hp,hb⟩
    funext j
    show write (update s.mem a (fun _ => 0#64)) t i _ b j = s.mem b j
    rw [write_of_ne _ _ (fun h => hbt h.1), update_of_ne hba]
  have hview := fun root' hroot' hne => view_of_agree (hagree root' hroot' hne)
  have hall : ∀ root' ∈ roots, ∀ va, translate s' root' va = translate s root' va := by
    intro root' hroot' va
    by_cases hne : root' = root
    · subst hne
      exact htrans va
    · exact (hview root' hroot' hne).2 va
  refine ⟨h.add (.table root (q++[i])) (a := a) ?_ ?_ ?_,hall⟩
  · intro x b
    cases x with
    | table root' p =>
      by_cases hne : root' = root
      · subst hne
        simp only [Holds, Place.table.injEq, true_and]
        constructor
        · rintro ⟨-,hp,hb⟩
          rw [htable p hp] at hb
          split_ifs at hb with hpq
          · cases hb
            exact .inr ⟨hpq,rfl⟩
          · exact .inl ⟨hroot,hp,hb⟩
        · rintro (⟨-,hp,hb⟩ | ⟨rfl,rfl⟩)
          · refine ⟨hroot,hp,?_⟩
            rw [htable p hp, if_neg]
            · exact hb
            · rintro rfl
              rw [tableAt_concat, hq, Option.bind_some, child, hi] at hb
              cases hb
          · refine ⟨hroot,by simp; omega,?_⟩
            rw [htable _ (by simp; omega), if_pos rfl]
      · simp only [Holds, Place.table.injEq, hne, false_and, or_false]
        refine and_congr_right fun hroot' => and_congr_right fun hp => ?_
        rw [(hview root' hroot' hne).1 p hp]
    | leaf root' va =>
      simp only [Holds, reduceCtorEq, false_and, or_false]
      refine and_congr_right fun hroot' => and_congr_right fun _ => ?_
      rw [hall root' hroot' va]
  · rw [hfree]
    exact List.Perm.refl _
  · intro root' hroot' p b j hp hb hv
    by_cases hne : root' = root
    · subst hne
      rw [htable p hp.le] at hb
      split_ifs at hb with hpq
      · -- the new table is empty
        cases hb
        have hat : a ≠ t := by
          rintro rfl
          exact h.apart a hmem (.table root' q) ⟨hroot,hlen.le,hq⟩
        have hzero : s'.mem a j = 0#64 := by
          show write (update s.mem a (fun _ => 0#64)) t i _ a j = 0#64
          rw [write_of_ne _ _ (fun h => hat h.1), Function.update_self]
        rw [hzero, valid_zero] at hv
        cases hv
      · have hba : b ≠ a := by
          rintro rfl
          exact h.apart b hmem (.table root' p) ⟨hroot,hp.le,hb⟩
        by_cases hbt : b = t ∧ j = i
        · obtain ⟨rfl,rfl⟩ := hbt
          obtain rfl := (h.wellFormed hroot).distinct p q b hp.le hlen.le hb hq
          refine ⟨?_,hlow⟩
          show write (update s.mem a (fun _ => 0#64)) b j _ b j&&&rwx = 0#64
          rw [write_self]
          exact made_interior
        · have hsame : s'.mem b j = s.mem b j := by
            show write (update s.mem a (fun _ => 0#64)) t i _ b j = s.mem b j
            rw [write_of_ne _ _ hbt, update_of_ne hba]
          rw [hsame] at hv ⊢
          exact h.interior root' hroot p b j hp hb hv
    · rw [(hview root' hroot' hne).1 p hp.le] at hb
      rw [hagree root' hroot' hne p b hp.le hb] at hv ⊢
      exact h.interior root' hroot' p b j hp hb hv

end Tables

section Leaves
variable {s : Vm} {root a t va pte : Word} {roots hand : List Word} {kend : Word}
    {all : Set Word} {i : Index}

theorem leaf_views (pte : Word) (h : Kept kend all s roots hand) (hroot : root ∈ roots)
    (hva : IsVa va)
    (hl : lookup s root va = some (t,i)) :
    (∀ root' ∈ roots, ∀ p : List Index, p.length ≤ 2 →
      tableAt child (setPte t i pte s).mem root' p = tableAt child s.mem root' p) ∧
    (∀ root' ∈ roots, ∀ va', IsVa va' → translate (setPte t i pte s) root' va' =
      if root' = root ∧ va' = va then (if valid pte then some pte else none)
      else translate s root' va') ∧
    Interior (setPte t i pte s) roots := by
  have hwf := h.wellFormed hroot
  obtain ⟨ht,-⟩ := lookup_eq.mp hl
  obtain ⟨htable,hleaf⟩ := setPte_leaf pte hwf.distinct hl
  have hagree : ∀ root' ∈ roots, ∀ (p : List Index) (b : Word), p.length ≤ 2 →
      ¬ (root' = root ∧ p.length = 2) → tableAt child s.mem root' p = some b →
      (setPte t i pte s).mem b = s.mem b := by
    intro root' hroot' p b hp hne hb
    apply update_of_ne
    rintro rfl
    have := h.one (.table root' p) (.table root [px 2 va,px 1 va]) b ⟨hroot',hp,hb⟩
      ⟨hroot,by simp,ht⟩
    simp only [Place.table.injEq] at this
    exact hne ⟨this.1,by rw [this.2]; rfl⟩
  have hview : ∀ root' ∈ roots, root' ≠ root → (∀ p : List Index, p.length ≤ 2 →
      tableAt child (setPte t i pte s).mem root' p = tableAt child s.mem root' p) ∧
      ∀ va', translate (setPte t i pte s) root' va' = translate s root' va' :=
    fun root' hroot' hne => view_of_agree
      (fun p b hp hb => hagree root' hroot' p b hp (fun h => hne h.1) hb)
  have htables : ∀ root' ∈ roots, ∀ p : List Index, p.length ≤ 2 →
      tableAt child (setPte t i pte s).mem root' p = tableAt child s.mem root' p := by
    intro root' hroot' p hp
    by_cases hne : root' = root
    · subst hne
      exact htable p hp
    · exact (hview root' hroot' hne).1 p hp
  refine ⟨htables,?_,?_⟩
  · intro root' hroot' va' hva'
    by_cases hne : root' = root
    · subst hne
      rw [hleaf va']
      by_cases heq : va' = va
      · subst heq
        simp [hl]
      · rw [if_neg, if_neg (by simp [heq])]
        exact fun hl' => heq (lookup_inj hwf.distinct hva' hva hl' hl)
    · rw [(hview root' hroot' hne).2 va', if_neg (fun h => hne h.1)]
  · intro root' hroot' p b j hp hb hv
    rw [htables root' hroot' p hp.le] at hb
    rw [hagree root' hroot' p b hp.le (by omega) hb] at hv ⊢
    exact h.interior root' hroot' p b j hp hb hv

theorem holds_leaf (h : Kept kend all s roots hand) (hroot : root ∈ roots) (hva : IsVa va)
    (hl : lookup s root va = some (t,i)) (x : Place) (b : Word) :
    Holds (setPte t i pte s) roots x b ↔
      x ≠ .leaf root va ∧ Holds s roots x b ∨
      x = .leaf root va ∧ UserVa va ∧ valid pte = true ∧ pte2pa pte = b := by
  obtain ⟨htables,htrans,-⟩ := leaf_views pte h hroot hva hl
  cases x with
  | table root' p =>
    simp only [Holds, ne_eq, reduceCtorEq, not_false_eq_true, true_and, false_and, or_false]
    refine and_congr_right fun hroot' => and_congr_right fun hp => ?_
    rw [htables root' hroot' p hp]
  | leaf root' va' =>
    simp only [Holds, ne_eq, Place.leaf.injEq]
    by_cases hx : root' = root ∧ va' = va
    · obtain ⟨rfl,rfl⟩ := hx
      simp only [not_true_eq_false, and_self, false_and, false_or, true_and]
      constructor
      · rintro ⟨-,huser,pte',hpte',hb⟩
        rw [htrans root' hroot va' hva, if_pos ⟨rfl,rfl⟩] at hpte'
        split_ifs at hpte' with hv
        cases hpte'
        exact ⟨huser,hv,hb⟩
      · rintro ⟨huser,hv,hb⟩
        refine ⟨hroot,huser,pte,?_,hb⟩
        rw [htrans root' hroot va' hva, if_pos ⟨rfl,rfl⟩, if_pos hv]
    · simp only [hx, not_false_eq_true, true_and, false_and, or_false]
      refine and_congr_right fun hroot' => and_congr_right fun huser => ?_
      rw [htrans root' hroot' va' huser.1, if_neg hx]

theorem not_holds_leaf {b : Word} (hnone : translate s root va = none) :
    ¬ Holds s roots (.leaf root va) b := by
  rintro ⟨-,-,pte,hpte,-⟩
  rw [hnone] at hpte
  cases hpte

theorem Kept.mapUser (h : Kept kend all s roots (a::hand)) (hroot : root ∈ roots) (hva : UserVa va)
    (hl : lookup s root va = some (t,i)) (hnone : translate s root va = none)
    (hv : valid pte = true)
    (ha : pte2pa pte = a) : Kept kend all (setPte t i pte s) roots hand := by
  refine h.add (.leaf root va) (a := a) ?_ List.perm_middle (leaf_views _ h hroot hva.1 hl).2.2
  intro x b
  rw [holds_leaf h hroot hva.1 hl]
  constructor
  · rintro (⟨-,hx⟩ | ⟨rfl,-,-,rfl⟩)
    · exact .inl hx
    · exact .inr ⟨rfl,ha⟩
  · rintro (hx | ⟨rfl,rfl⟩)
    · refine .inl ⟨?_,hx⟩
      rintro rfl
      exact not_holds_leaf hnone hx
    · exact .inr ⟨rfl,hva,hv,ha⟩

theorem Kept.mapOther (h : Kept kend all s roots hand) (hroot : root ∈ roots) (hva : IsVa va)
    (hother : ¬ UserVa va) (hl : lookup s root va = some (t,i)) :
    Kept kend all (setPte t i pte s) roots hand := by
  refine h.same ?_ (List.Perm.refl _) (leaf_views _ h hroot hva hl).2.2
  intro x b
  rw [holds_leaf h hroot hva hl]
  constructor
  · rintro (⟨-,hx⟩ | ⟨-,huser,-⟩)
    · exact hx
    · exact absurd huser hother
  · intro hx
    refine .inl ⟨?_,hx⟩
    rintro rfl
    exact hother hx.2.1

theorem Kept.mapSame {old : Word} (h : Kept kend all s roots hand) (hroot : root ∈ roots)
    (hva : UserVa va)
    (hl : lookup s root va = some (t,i)) (hold : translate s root va = some old)
    (hv : valid pte = true)
    (hpa : pte2pa pte = pte2pa old) : Kept kend all (setPte t i pte s) roots hand := by
  refine h.same ?_ (List.Perm.refl _) (leaf_views _ h hroot hva.1 hl).2.2
  intro x b
  rw [holds_leaf h hroot hva.1 hl]
  constructor
  · rintro (⟨-,hx⟩ | ⟨rfl,-,-,hb⟩)
    · exact hx
    · exact ⟨hroot,hva,old,hold,hpa.symm.trans hb⟩
  · intro hx
    by_cases heq : x = .leaf root va
    · subst heq
      obtain ⟨-,-,pte',hpte',hb⟩ := hx
      rw [hold] at hpte'
      cases hpte'
      exact .inr ⟨rfl,hva,hv,hpa.trans hb⟩
    · exact .inl ⟨heq,hx⟩

theorem Kept.unmapUser (h : Kept kend all s roots hand) (hroot : root ∈ roots) (hva : UserVa va)
    (hl : lookup s root va = some (t,i)) (hpte : translate s root va = some pte) :
    Kept kend all (setPte t i 0#64 s) roots (pte2pa pte::hand) := by
  refine h.remove (show Holds s roots (.leaf root va) (pte2pa pte) from ⟨hroot,hva,pte,hpte,rfl⟩) ?_
    List.perm_middle
    (leaf_views _ h hroot hva.1 hl).2.2
  intro x b
  rw [holds_leaf h hroot hva.1 hl]
  simp [valid_zero, and_comm]

end Leaves

end GreenOS.PageOwners
