import GreenOS.PageMoves

/-!
# Freeing a page table

`freewalk` visits the tables of a page table from below and gives each of them
back once.
-/

namespace GreenOS.PageFree
open RadixTree PageTable PageTree PageMap UserMemory PageOwners PageMoves
open Function (update update_self update_of_ne)

structure Tree (kend : Word) (n : ℕ) (s : Vm) (t : Word) : Prop where
  distinct : Distinct child n s.mem t
  freeable : ∀ p a, p.length ≤ n → tableAt child s.mem t p = some a → Freeable kend a
  inner : ∀ p b i, p.length < n → tableAt child s.mem t p = some b → valid (s.mem b i) = true →
    s.mem b i&&&rwx = 0#64
  clear : ∀ p b i, p.length = n → tableAt child s.mem t p = some b → valid (s.mem b i) = false

section
variable {kend t c : Word} {n : ℕ} {s s₁ : Vm} {i : Index}

theorem tableAt_child (hc : child (s.mem t i) = some c) (p : List Index) :
    tableAt child s.mem t (i::p) = tableAt child s.mem c p := by
  rw [tableAt, hc, Option.bind_some]

theorem Tree.sub (h : Tree kend (n+1) s t) (hc : child (s.mem t i) = some c) : Tree kend n s c := by
  constructor
  · intro p q a hp hq hpa hqa
    rw [← tableAt_child hc] at hpa hqa
    have := h.distinct (i::p) (i::q) a (by simpa using hp) (by simpa using hq) hpa hqa
    exact (List.cons.inj this).2
  · intro p a hp hpa
    rw [← tableAt_child hc] at hpa
    exact h.freeable (i::p) a (by simpa using hp) hpa
  · intro p b j hp hpb
    rw [← tableAt_child hc] at hpb
    exact h.inner (i::p) b j (by simpa using hp) hpb
  · intro p b j hp hpb
    rw [← tableAt_child hc] at hpb
    exact h.clear (i::p) b j (by simpa using hp) hpb

def Below (s : Vm) (t : Word) (n : ℕ) (i : Index) (a : Word) : Prop :=
  ∃ p : List Index, p.length ≤ n ∧ tableAt child s.mem t (i::p) = some a

theorem tableAt_cut (h : Tree kend (n+1) s t) (hsame : ∀ a, a ≠ t → ¬ Below s t n i a →
    s₁.mem a = s.mem a)
    (ht : s₁.mem t = update (s.mem t) i 0#64) (p : List Index) (hp : p.length ≤ n+1) :
    tableAt child s₁.mem t p = if p.head? = some i then none else tableAt child s.mem t p := by
  cases p with
  | nil => rfl
  | cons j p =>
    by_cases hj : j = i
    · subst hj
      simp [tableAt, ht, child, valid_zero]
    · rw [if_neg (by simpa using hj)]
      simp only [tableAt, ht, update_of_ne hj]
      cases hc : child (s.mem t j) with
      | none => rfl
      | some c =>
        simp only [Option.bind_some]
        apply tableAt_congr
        rintro q k rest a rfl hq
        have hlen : (j::q).length ≤ n+1 := by
          simp only [List.length_cons, List.length_append] at hp ⊢
          omega
        have hpath : tableAt child s.mem t (j::q) = some a := by rw [tableAt_child hc, hq]
        rw [hsame a]
        · rintro rfl
          have := h.distinct (j::q) [] a hlen (by simp) hpath rfl
          cases this
        · rintro ⟨q',hq',hpath'⟩
          have := h.distinct (j::q) (i::q') a hlen (by simpa using hq') hpath hpath'
          exact hj (List.cons.inj this).1

theorem Tree.cut (h : Tree kend (n+1) s t) (hsame : ∀ a, a ≠ t → ¬ Below s t n i a →
    s₁.mem a = s.mem a)
    (ht : s₁.mem t = update (s.mem t) i 0#64) : Tree kend (n+1) s₁ t := by
  have htable := tableAt_cut h hsame ht
  -- an entry of a table that is left is cleared or the old one
  have hentry : ∀ p b j, p.length ≤ n+1 → tableAt child s₁.mem t p = some b →
    valid (s₁.mem b j) = true →
      tableAt child s.mem t p = some b ∧ s₁.mem b j = s.mem b j := by
    intro p b j hp hb hv
    rw [htable p hp] at hb
    split_ifs at hb with hhead
    refine ⟨hb,?_⟩
    by_cases hbt : b = t
    · subst hbt
      rw [ht] at hv ⊢
      by_cases hji : j = i
      · subst hji
        rw [update_self, valid_zero] at hv
        cases hv
      · rw [update_of_ne hji]
    · rw [hsame b hbt]
      rintro ⟨q,hq,hpath⟩
      have := h.distinct p (i::q) b hp (by simpa using hq) hb hpath
      exact hhead (by rw [this]; rfl)
  constructor
  · intro p q a hp hq hpa hqa
    rw [htable p hp] at hpa
    rw [htable q hq] at hqa
    split_ifs at hpa hqa
    exact h.distinct p q a hp hq hpa hqa
  · intro p a hp hpa
    rw [htable p hp] at hpa
    split_ifs at hpa
    exact h.freeable p a hp hpa
  · intro p b j hp hb hv
    obtain ⟨hb',heq⟩ := hentry p b j hp.le hb hv
    rw [heq] at hv ⊢
    exact h.inner p b j hp hb' hv
  · intro p b j hp hb
    by_contra hv
    rw [Bool.not_eq_false] at hv
    obtain ⟨hb',heq⟩ := hentry p b j hp.le hb hv
    rw [heq, h.clear p b j hp hb'] at hv
    cases hv

structure Freed (s s' : Vm) (l : List Word) (tables : Word → Prop) : Prop where
  free : s'.free = l++s.free
  nodup : l.Nodup
  mem : ∀ a, a ∈ l ↔ tables a
  same : ∀ a, ¬ tables a → s'.mem a = s.mem a

theorem freeEntries_ok {sub : Word → Vm → Except String Vm}
    (hsub : ∀ s c, Tree kend n s c → ∃ s' l, sub c s = .ok s' ∧
      Freed s s' l (fun a => ∃ p : List Index, p.length ≤ n ∧ tableAt child s.mem c p = some a))
    (is : List Index) (his : is.Nodup) (h : Tree kend (n+1) s t) :
    ∃ s' l, freeEntries sub t is s = .ok s' ∧ s'.free = l++s.free ∧ l.Nodup ∧
      (∀ a, a ∈ l ↔ ∃ i ∈ is, Below s t n i a) ∧ ∀ a, a ≠ t → a ∉ l → s'.mem a = s.mem a := by
  induction is generalizing s with
  | nil => exact ⟨s,[],rfl,rfl,List.nodup_nil,by simp,fun _ _ _ => rfl⟩
  | cons i is ih =>
    obtain ⟨hi,his⟩ := List.nodup_cons.mp his
    unfold freeEntries
    by_cases hv : valid (s.mem t i) = true
    · have hinner := h.inner [] t i (by simp) rfl hv
      have hc : child (s.mem t i) = some (pte2pa (s.mem t i)) := by rw [child, if_pos hv]
      obtain ⟨s₁,l₁,hok₁,hfreed₁⟩ := hsub s _ (h.sub hc)
      have hbelow : ∀ a, (∃ p : List Index, p.length ≤ n ∧
          tableAt child s.mem (pte2pa (s.mem t i)) p = some a) ↔ Below s t n i a := by
        intro a
        simp only [Below, tableAt_child hc]
      have ht : ¬ Below s t n i t := by
        rintro ⟨p,hp,hpath⟩
        have := h.distinct (i::p) [] t (by simpa using hp) (by simp) hpath rfl
        cases this
      have hsame₁ : ∀ a, ¬ Below s t n i a → s₁.mem a = s.mem a :=
        fun a ha => hfreed₁.same a (fun hp => ha ((hbelow a).mp hp))
      obtain ⟨s₂,hs₂⟩ : ∃ s₂, s₂ = setPte t i 0#64 s₁ := ⟨_,rfl⟩
      have ht₂ : s₂.mem t = update (s.mem t) i 0#64 := by
        rw [hs₂, setPte, write, hsame₁ t ht]
        exact update_self ..
      have hsame₂ : ∀ a, a ≠ t → ¬ Below s t n i a → s₂.mem a = s.mem a := by
        intro a hat ha
        rw [hs₂]
        exact (update_of_ne hat ..).trans (hsame₁ a ha)
      have htree₂ := h.cut hsame₂ ht₂
      have hbelow₂ : ∀ j a, j ≠ i → (Below s₂ t n j a ↔ Below s t n j a) := by
        intro j a hj
        refine exists_congr fun p => and_congr_right fun hp => ?_
        rw [tableAt_cut h hsame₂ ht₂ (j::p) (by simpa using hp), if_neg (by simpa using hj)]
      obtain ⟨s',l₂,hok₂,hfree₂,hnodup₂,hmem₂,hsame'⟩ := ih his htree₂
      have hmem : ∀ a, a ∈ l₂ ↔ ∃ j ∈ is, Below s t n j a := by
        intro a
        rw [hmem₂ a]
        refine exists_congr fun j => and_congr_right fun hj => hbelow₂ j a ?_
        rintro rfl
        exact hi hj
      have hdisj : ∀ a ∈ l₂, a ∉ l₁ := by
        intro a ha ha₁
        obtain ⟨j,hj,p,hp,hpath⟩ := (hmem a).mp ha
        obtain ⟨q,hq,hpath'⟩ := (hbelow a).mp ((hfreed₁.mem a).mp ha₁)
        have := h.distinct (j::p) (i::q) a (by simpa using hp) (by simpa using hq) hpath hpath'
        exact hi ((List.cons.inj this).1 ▸ hj)
      refine ⟨s',l₂++l₁,?_,?_,?_,?_,?_⟩
      · simp only [hv, true_and, show s.mem t i&&&(pteR|||pteW|||pteX) = 0#64 from
          hinner, if_true, hok₁,
          bind, Except.bind]
        rw [← hs₂]
        exact hok₂
      · rw [hfree₂, hs₂]
        show l₂++s₁.free = _
        rw [hfreed₁.free, List.append_assoc]
      · exact hnodup₂.append hfreed₁.nodup (fun a ha ha₁ => hdisj a ha ha₁)
      · intro a
        simp only [List.mem_append, hmem a, hfreed₁.mem a, hbelow a, List.mem_cons, or_and_right,
          exists_or, exists_eq_left]
        exact or_comm
      · intro a hat ha
        simp only [List.mem_append, not_or] at ha
        rw [hsame' a hat ha.1]
        exact hsame₂ a hat (fun hb => ha.2 ((hfreed₁.mem a).mpr ((hbelow a).mpr hb)))
    · obtain ⟨s',l,hok,hfree,hnodup,hmem,hsame⟩ := ih his h
      refine ⟨s',l,?_,hfree,hnodup,?_,hsame⟩
      · simp only [hv]
        exact hok
      · intro a
        rw [hmem a]
        have hnone : ¬ Below s t n i a := by
          rintro ⟨p,-,hpath⟩
          simp [tableAt, child, hv] at hpath
        simp [hnone]

theorem mem_indices (i : Index) : i ∈ indices :=
  List.mem_map.mpr ⟨i.toNat,List.mem_range.mpr i.isLt,BitVec.ofNat_toNat 9 i⟩

theorem nodup_indices : indices.Nodup := by
  apply List.Nodup.map_on _ List.nodup_range
  intro x hx y hy heq
  have := congrArg BitVec.toNat heq
  rw [List.mem_range] at hx hy
  simp only [BitVec.toNat_ofNat] at this
  omega

theorem free_last {l : List Word} {s' : Vm} (below : Word → Prop) (ht : Freeable kend t)
    (hfree : s'.free = l++s.free) (hnodup : l.Nodup) (hmem : ∀ a, a ∈ l ↔ below a)
    (hnot : ¬ below t)
    (hsame : ∀ a, a ≠ t → a ∉ l → s'.mem a = s.mem a) :
    ∃ s'', kfree kend t s' = .ok s'' ∧ Freed s s'' (t::l) (fun a => a = t ∨ below a) := by
  refine ⟨_,kfree_ok ht,?_,?_,?_,?_⟩
  · rw [hfree]
    rfl
  · exact List.nodup_cons.mpr ⟨fun h => hnot ((hmem t).mp h),hnodup⟩
  · intro a
    rw [List.mem_cons, hmem a]
  · intro a ha
    rw [not_or] at ha
    exact (update_of_ne ha.1 ..).trans (hsame a ha.1 (fun h => ha.2 ((hmem a).mp h)))

theorem freewalk_ok (n : ℕ) (s : Vm) (t : Word) (h : Tree kend n s t) :
    ∃ s' l, freewalk kend n t s = .ok s' ∧
      Freed s s' l (fun a => ∃ p : List Index, p.length ≤ n ∧
        tableAt child s.mem t p = some a) := by
  have ht : Freeable kend t := h.freeable [] t (by simp) rfl
  induction n generalizing s t with
  | zero =>
    have hnone : ∀ is : List Index,
        freeEntries (fun _ _ => .error "freewalk: too deep") t is s = .ok s := by
      intro is
      induction is with
      | nil => rfl
      | cons i is ih =>
        have hv := h.clear [] t i rfl rfl
        simp only [freeEntries, hv, Bool.false_eq_true, false_and, if_false]
        exact ih
    obtain ⟨s',hok,hfreed⟩ := free_last (fun _ => False) ht (List.nil_append s.free).symm
      List.nodup_nil (by simp) id (fun _ _ _ => rfl)
    refine ⟨s',[t],?_,?_⟩
    · simp only [freewalk, hnone, bind, Except.bind]
      exact hok
    · convert hfreed using 2 with a
      simp only [Nat.le_zero, List.length_eq_zero_iff, or_false]
      constructor
      · rintro ⟨p,rfl,hp⟩
        exact (Option.some.inj hp).symm
      · rintro rfl
        exact ⟨[],rfl,rfl⟩
  | succ n ih =>
    obtain ⟨s₁,l,hok₁,hfree₁,hnodup₁,hmem₁,hsame₁⟩ := freeEntries_ok
      (fun s c hc => ih s c hc (hc.freeable [] c (by simp) rfl)) indices nodup_indices h
    have hnot : ¬ ∃ i ∈ indices, Below s t n i t := by
      rintro ⟨i,-,p,hp,hpath⟩
      have := h.distinct (i::p) [] t (by simpa using hp) (by simp) hpath rfl
      cases this
    obtain ⟨s',hok,hfreed⟩ := free_last _ ht hfree₁ hnodup₁ hmem₁ hnot hsame₁
    refine ⟨s',t::l,?_,?_⟩
    · simp only [freewalk, hok₁, bind, Except.bind]
      exact hok
    · convert hfreed using 2 with a
      constructor
      · rintro ⟨p,hp,hpath⟩
        cases p with
        | nil => exact .inl (Option.some.inj hpath).symm
        | cons i p => exact .inr ⟨i,mem_indices i,p,by simpa using hp,hpath⟩
      · rintro (rfl | ⟨i,-,p,hp,hpath⟩)
        · exact ⟨[],by simp,rfl⟩
        · exact ⟨i::p,by simpa using hp,hpath⟩

end

section
variable {kend root : Word} {all : Set Word} {s : Vm} {roots hand : List Word}

theorem exists_va (i j k : Index) (hi : i.toNat < 256) :
    ∃ va, IsVa va ∧ px 2 va = i ∧ px 1 va = j ∧ px 0 va = k := by
  have hj := j.isLt
  have hk := k.isLt
  refine ⟨BitVec.ofNat 64 (i.toNat*2^30+j.toNat*2^21+k.toNat*2^12),?_,?_,?_,?_⟩
  · rw [isVa_iff, BitVec.toNat_ofNat]
    omega
  all_goals
    apply BitVec.eq_of_toNat_eq
    rw [px_toNat, BitVec.toNat_ofNat]
    omega

theorem Kept.tree (h : Kept kend all s roots hand) (hroot : root ∈ roots)
    (hempty : ∀ va, IsVa va → translate s root va = none) : Tree kend 2 s root := by
  constructor
  · exact (h.wellFormed hroot).distinct
  · intro p a hp ha
    exact h.ram (x := .table root p) ⟨hroot,hp,ha⟩
  · intro p b i hp hb hv
    exact (h.interior root hroot p b i hp hb hv).1
  · intro p b k hp hb
    by_contra hv
    rw [Bool.not_eq_false] at hv
    obtain ⟨i,j,rfl⟩ := List.length_eq_two.mp hp
    have hi : i.toNat < 256 := by
      refine (h.interior root hroot [] root i (by simp) rfl ?_).2 rfl
      by_contra hnv
      simp [tableAt, child, hnv] at hb
    obtain ⟨va,hva,rfl,rfl,rfl⟩ := exists_va i j k hi
    have := translate_eq_some.mpr ⟨b,hb,rfl,hv⟩
    rw [hempty va hva] at this
    cases this

theorem Kept.freewalk (h : Kept kend all s (root::roots) hand) (hnot : root ∉ roots)
    (hempty : ∀ va, IsVa va → translate s root va = none) :
    ∃ s', UserMemory.freewalk kend 2 root s = .ok s' ∧ Kept kend all s' roots hand ∧
      Same roots s s' := by
  have hroot : root ∈ root::roots := List.mem_cons_self
  obtain ⟨s',l,hok,hfreed⟩ := freewalk_ok 2 s root (Kept.tree h hroot hempty)
  have hmem : ∀ a, a ∈ l ↔ ∃ p : List Index, Holds s (root::roots) (.table root p) a := by
    intro a
    rw [hfreed.mem a]
    exact exists_congr fun p => ⟨fun hp => ⟨hroot,hp⟩,fun hp => hp.2⟩
  -- what the other page tables hold is not among the freed tables
  have hother : ∀ x a, Holds s roots x a → a ∉ l := by
    intro x a hx ha
    obtain ⟨p,hp⟩ := (hmem a).mp ha
    obtain rfl := h.one _ x a hp (hx.mono (List.subset_cons_self ..))
    exact hnot hx.1
  have hview : ∀ root' ∈ roots, (∀ p : List Index, p.length ≤ 2 →
      tableAt child s'.mem root' p = tableAt child s.mem root' p) ∧
      ∀ va, translate s' root' va = translate s root' va := by
    intro root' hroot'
    apply view_of_agree
    intro p a hp ha
    apply hfreed.same a
    intro hl
    exact hother (.table root' p) a ⟨hroot',hp,ha⟩ ((hfreed.mem a).mpr hl)
  have hholds : ∀ x a, Holds s' roots x a ↔ Holds s roots x a := by
    intro x a
    cases x with
    | table root' p =>
      refine and_congr_right fun hr => and_congr_right fun hp => ?_
      rw [(hview root' hr).1 p hp]
    | leaf root' va =>
      refine and_congr_right fun hr => and_congr_right fun _ => ?_
      simp only [(hview root' hr).2 va]
  have hup : ∀ x a, Holds s roots x a → Holds s (root::roots) x a :=
    fun x a hx => hx.mono (List.subset_cons_self ..)
  have hsplit : ∀ x a, Holds s (root::roots) x a → Holds s roots x a ∨ a ∈ l := by
    intro x a hx
    cases x with
    | table root' p =>
      rcases List.mem_cons.mp hx.1 with rfl | hr
      · exact .inr ((hmem a).mpr ⟨p,hx⟩)
      · exact .inl ⟨hr,hx.2⟩
    | leaf root' va =>
      rcases List.mem_cons.mp hx.1 with rfl | hr
      · obtain ⟨-,hva,pte,hpte,-⟩ := hx
        rw [hempty va hva.1] at hpte
        cases hpte
      · exact .inl ⟨hr,hx.2⟩
  refine ⟨s',hok,⟨?_,?_,?_,?_,h.freeable,?_⟩,?_⟩
  · intro x y a hx hy
    exact h.one x y a (hup x a ((hholds x a).mp hx)) (hup y a ((hholds y a).mp hy))
  · rw [hfreed.free, List.append_assoc]
    refine hfreed.nodup.append h.nodup ?_
    intro a ha hpool
    obtain ⟨p,hp⟩ := (hmem a).mp ha
    exact h.apart a hpool _ hp
  · intro a ha x hx
    have hx := (hholds x a).mp hx
    rw [hfreed.free, List.append_assoc, List.mem_append] at ha
    rcases ha with ha | ha
    · exact hother x a hx ha
    · exact h.apart a ha x (hup x a hx)
  · intro a
    rw [h.cover a, hfreed.free, List.append_assoc, List.mem_append (s := l)]
    constructor
    · rintro (ha | ⟨x,hx⟩)
      · exact .inl (.inr ha)
      · rcases hsplit x a hx with hx | ha
        · exact .inr ⟨x,(hholds x a).mpr hx⟩
        · exact .inl (.inl ha)
    · rintro ((ha | ha) | ⟨x,hx⟩)
      · obtain ⟨p,hp⟩ := (hmem a).mp ha
        exact .inr ⟨_,hp⟩
      · exact .inl ha
      · exact .inr ⟨x,hup x a ((hholds x a).mp hx)⟩
  · intro root' hr p b i hp hb hv
    rw [(hview root' hr).1 p hp.le] at hb
    have hsame : s'.mem b = s.mem b := by
      apply hfreed.same b
      intro hl
      exact hother (.table root' p) b ⟨hr,hp.le,hb⟩ ((hfreed.mem b).mpr hl)
    rw [hsame] at hv ⊢
    exact h.interior root' (List.mem_cons_of_mem _ hr) p b i hp hb hv
  · intro root' hr va _
    exact (hview root' hr).2 va

end

end GreenOS.PageFree
