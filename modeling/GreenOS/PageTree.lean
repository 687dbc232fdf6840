import GreenOS.PageTable

/-!
# Walks of a page table

The index fields of an address determine its page, and an entry gives back the
address and the permissions it was made from. A walk that allocates links new
empty tables into the tree: it changes no translation and keeps the tables apart.
-/

namespace GreenOS.PageTree
open RadixTree PageTable
open Function (update update_of_ne)

section Words

theorem px_toNat (level : ℕ) (va : Word) : (px level va).toNat = va.toNat/2^(12+9*level)%512 := by
  simp only [px, BitVec.toNat_setWidth, BitVec.toNat_and, BitVec.toNat_ushiftRight,
    Nat.shiftRight_eq_div_pow]
  rw [show BitVec.toNat (0x1ff : Word) = 2^9-1 by decide, Nat.and_two_pow_sub_one_eq_mod]
  omega

theorem px_inj {va va' : Word} (hva : va%pgsize = 0#64) (hva' : va'%pgsize = 0#64)
    (hlt : va < maxva)
    (hlt' : va' < maxva) (h₂ : px 2 va = px 2 va') (h₁ : px 1 va = px 1 va')
    (h₀ : px 0 va = px 0 va') :
    va = va' := by
  have h₂ := congrArg BitVec.toNat h₂
  have h₁ := congrArg BitVec.toNat h₁
  have h₀ := congrArg BitVec.toNat h₀
  simp only [px_toNat] at h₂ h₁ h₀
  have hm : (maxva).toNat = 2^38 := by decide
  have hlt : va.toNat < 2^38 := hm ▸ BitVec.lt_def.mp hlt
  have hlt' : va'.toNat < 2^38 := hm ▸ BitVec.lt_def.mp hlt'
  have ha : va.toNat%4096 = 0 := by simpa [pgsize] using congrArg BitVec.toNat hva
  have ha' : va'.toNat%4096 = 0 := by simpa [pgsize] using congrArg BitVec.toNat hva'
  apply BitVec.eq_of_toNat_eq
  omega

variable {pa a : Word} {i : ℕ}

theorem getLsbD_of_aligned (h : pa%pgsize = 0#64) (hi : i < 12) :
    pa.getLsbD i = false := by
  have hmod : pa.toNat%2^12 = 0 := by simpa [pgsize] using congrArg BitVec.toNat h
  have := Nat.testBit_mod_two_pow pa.toNat 12 i
  rw [hmod, Nat.zero_testBit] at this
  simpa [BitVec.getLsbD, hi] using this.symm

theorem getLsbD_of_lt (h : pa.toNat < 2^56) (hi : 56 ≤ i) : pa.getLsbD i = false := by
  rw [BitVec.getLsbD]
  exact Nat.testBit_lt_two_pow (h.trans_le (Nat.pow_le_pow_right (by decide) hi))

theorem pte2pa_made (perm : BitVec 10) (ha : pa%pgsize = 0#64) (hlt : pa.toNat < 2^56) :
    pte2pa (pa2pte pa|||perm.setWidth 64) = pa := by
  apply BitVec.eq_of_getLsbD_eq
  intro i hi
  by_cases h12 : i < 12
  · simp [pte2pa, BitVec.getLsbD_shiftLeft, h12, getLsbD_of_aligned ha h12]
  · obtain ⟨j,rfl⟩ : ∃ j, i = j+12 := ⟨i-12,by omega⟩
    have hperm : perm.getLsbD (10+j) = false := BitVec.getLsbD_of_ge _ _ (by omega)
    have hbits : (pte2pa (pa2pte pa|||perm.setWidth 64)).getLsbD (j+12) =
        (decide (10+j < 64) && pa.getLsbD (12+j)) := by
      simp only [pte2pa, pa2pte, BitVec.getLsbD_shiftLeft, BitVec.getLsbD_ushiftRight,
        BitVec.getLsbD_or,
        BitVec.getLsbD_setWidth, hperm, Bool.and_false, Bool.or_false, Nat.add_sub_cancel,
        Nat.add_sub_cancel_left, hi, decide_true, Bool.true_and, h12, decide_false, Bool.not_false,
        show ¬ 10+j < 10 by omega, Bool.and_true]
    rw [hbits, Nat.add_comm 12 j]
    by_cases h56 : 56 ≤ j+12
    · simp [getLsbD_of_lt hlt h56]
    · simp [show 10+j < 64 by omega]

theorem pteFlags_made (pa : Word) (perm : BitVec 10) :
    pteFlags (pa2pte pa|||perm.setWidth 64) = perm.setWidth 64 := by
  apply BitVec.eq_of_getLsbD_eq
  intro i hi
  have hmask : ∀ j, (0x3ff : Word).getLsbD j = decide (j < 10) := by
    intro j
    by_cases hj : j < 64
    · interval_cases j <;> decide
    · rw [BitVec.getLsbD_of_ge _ _ (by omega)]
      simp
      omega
  simp only [pteFlags, pa2pte, BitVec.getLsbD_and, BitVec.getLsbD_or, BitVec.getLsbD_shiftLeft,
    BitVec.getLsbD_setWidth, hmask]
  by_cases h10 : i < 10
  · simp [h10, hi]
  · have hperm : perm.getLsbD i = false := BitVec.getLsbD_of_ge _ _ (by omega)
    simp [h10, hperm]

theorem valid_eq (pte : Word) : valid pte = pte.getLsbD 0 := by
  rw [valid, pteV, show (1 : Word) = 1#64 from rfl, BitVec.and_one_eq_setWidth_ofBool_getLsbD]
  cases pte.getLsbD 0 <;> decide

theorem valid_made (x : Word) : valid (x|||pteV) = true := by
  rw [valid_eq, BitVec.getLsbD_or, show pteV.getLsbD 0 = true by decide, Bool.or_true]

theorem valid_zero : valid 0#64 = false := by decide

def IsPage (a : Word) : Prop := a%pgsize = 0#64 ∧ a < phystop

theorem IsPage.lt (h : IsPage a) : a.toNat < 2^56 :=
  (BitVec.lt_def.mp h.2).trans (by decide)

theorem child_made (h : IsPage a) : child (pa2pte a|||pteV) = some a := by
  have hmade := pte2pa_made 1 h.1 h.lt
  rw [show (1 : BitVec 10).setWidth 64 = pteV by decide] at hmade
  rw [child, valid_made, if_pos rfl, hmade]

end Words

section Walks
variable {s s' : Vm} {root t va : Word} {q : List Index} {i : Index}

/-- The tables of a page table are all different, and what `kalloc` may give out
is none of them. -/
structure WellFormed (s : Vm) (root : Word) : Prop where
  distinct : Distinct child 2 s.mem root
  nodup : s.free.Nodup
  pages : ∀ a ∈ s.free, IsPage a
  apart : ∀ a ∈ s.free, ∀ p, p.length ≤ 2 → tableAt child s.mem root p ≠ some a

theorem lookup_eq {i : Index} :
    lookup s root va = some (t,i) ↔ tableAt child s.mem root [px 2 va,px 1 va] = some t ∧
      px 0 va = i := by
  simp [lookup]

theorem translate_eq_some {pte : Word} : translate s root va = some pte ↔
    ∃ t, tableAt child s.mem root [px 2 va,px 1 va] = some t ∧ s.mem t (px 0 va) = pte ∧
      valid pte := by
  simp only [PageTable.translate, lookup, Option.bind_map, Option.bind_eq_some_iff,
    Function.comp_apply]
  constructor
  · rintro ⟨t,ht,h⟩
    split at h
    next hv =>
      cases h
      exact ⟨t,ht,rfl,hv⟩
    next => cases h
  · rintro ⟨t,ht,rfl,hv⟩
    exact ⟨t,ht,if_pos hv⟩

theorem translate_congr {va' : Word}
    (h : ∀ pte, translate s' root va' = some pte ↔ translate s root va = some pte) :
    translate s' root va' = translate s root va := by
  cases hs : translate s root va with
  | none =>
    cases hs' : translate s' root va' with
    | none => rfl
    | some pte => exact absurd ((h pte).mp hs') (by simp [hs])
  | some pte => exact (h pte).mpr hs

theorem link {a : Word} {rest : List Word} (h : WellFormed s root) (hfree : s.free = a::rest)
    (hq : tableAt child s.mem root q = some t) (hlen : q.length < 2)
    (hi : valid (s.mem t i) = false) :
    let s' : Vm := ⟨write (update s.mem a (fun _ => 0#64)) t i (pa2pte a|||pteV),rest⟩
    WellFormed s' root ∧ (∀ va, translate s' root va = translate s root va) ∧
      ∀ p, p.length ≤ 2 → tableAt child s'.mem root p =
        if p = q++[i] then some a else tableAt child s.mem root p := by
  have hmem : a ∈ s.free := by simp [hfree]
  have ha := h.apart a hmem
  have hnodup := h.nodup
  rw [hfree] at hnodup
  have hat : t ≠ a := by
    rintro rfl
    exact ha q hlen.le hq
  have hsame : ∀ p, p.length ≤ 2 →
      tableAt child (update s.mem a (fun _ => 0#64)) root p = tableAt child s.mem root p :=
    fun p hp => tableAt_outside (fun q hq => ha q hq.le) hp
  have hdistinct := distinct_congr h.distinct hsame
  have hq' := (hsame q hlen.le).trans hq
  have hnone : child (update s.mem a (fun _ => 0#64) t i) = none := by
    simp [hat, child, hi]
  have hfresh : ∀ p, p.length ≤ 2 →
      tableAt child (update s.mem a (fun _ => 0#64)) root p ≠ some a := by
    intro p hp
    rw [hsame p hp]
    exact ha p hp
  have hempty : ∀ j, child (update s.mem a (fun _ => 0#64) a j) = none := by
    intro j
    simp [child, valid_zero]
  have hchild := child_made (h.pages a hmem)
  have htable : ∀ p, p.length ≤ 2 → tableAt child
      (write (update s.mem a (fun _ => 0#64)) t i (pa2pte a|||pteV)) root p =
        if p = q++[i] then some a else tableAt child s.mem root p := by
    intro p hp
    rw [tableAt_attach hdistinct hq' hlen hnone hfresh hempty hchild hp, hsame p hp]
  refine ⟨⟨?_,?_,?_,?_⟩,?_,htable⟩
  · exact distinct_attach hdistinct hq' hlen hnone hfresh hempty hchild
  · exact (List.nodup_cons.mp hnodup).2
  · intro b hb
    exact h.pages b (by simp [hfree, show b ∈ rest from hb])
  · intro b hb p hp
    rw [htable p hp]
    split_ifs with hpq
    · intro hab
      cases hab
      exact (List.nodup_cons.mp hnodup).1 hb
    · exact h.apart b (by simp [hfree, show b ∈ rest from hb]) p hp
  · intro va
    apply translate_congr
    intro pte
    rw [translate_eq_some, translate_eq_some]
    simp only [htable [px 2 va,px 1 va] (by simp)]
    by_cases hpq : [px 2 va,px 1 va] = q++[i]
    · -- the new table is empty, and there was none before
      have hbefore : tableAt child s.mem root [px 2 va,px 1 va] = none := by
        rw [hpq, tableAt_concat, hq, Option.bind_some, child, hi]
        rfl
      rw [if_pos hpq, hbefore]
      constructor
      · rintro ⟨b,hb,hpte,hv⟩
        cases hb
        rw [write_of_ne _ _ (fun h => hat h.1.symm), Function.update_self] at hpte
        rw [← hpte, valid_zero] at hv
        cases hv
      · rintro ⟨b,hb,-⟩
        cases hb
    · rw [if_neg hpq]
      constructor
      · rintro ⟨b,hb,hpte,hv⟩
        refine ⟨b,hb,?_,hv⟩
        rw [← hpte, write_of_ne, update_of_ne]
        · rintro rfl
          exact ha _ (by simp) hb
        · rintro ⟨rfl,-⟩
          have := h.distinct _ _ b (by simp) hlen.le hb hq
          simp [← this] at hlen
      · rintro ⟨b,hb,hpte,hv⟩
        refine ⟨b,hb,?_,hv⟩
        rw [← hpte, write_of_ne, update_of_ne]
        · rintro rfl
          exact ha _ (by simp) hb
        · rintro ⟨rfl,-⟩
          have := h.distinct _ _ b (by simp) hlen.le hb hq
          simp [← this] at hlen

/-- A free page, cleared, becomes the table at `q++[i]` on the way to `va`. -/
structure Adds (root va : Word) (q : List Index) (t : Word) (i : Index) (a : Word)
    (rest : List Word) (s s' : Vm) :
    Prop where
  way : q++[i] <+: [px 2 va,px 1 va]
  table : tableAt child s.mem root q = some t
  invalid : valid (s.mem t i) = false
  free : s.free = a::rest
  after : s' = ⟨write (update s.mem a (fun _ => 0#64)) t i (pa2pte a|||pteV),rest⟩

theorem Adds.short {a : Word} {rest : List Word} (h : Adds root va q t i a rest s s') :
    q.length < 2 := by
  have := h.way.length_le
  simpa using this

/-- What holds of a state, and still holds after a table has been added on the way to `va`,
holds after a walk that allocates. The walk gives the entry that can be looked up then; only
without free pages it is not there. -/
theorem walk_rule {P : Vm → Prop} (hva : va < maxva) (hwf : ∀ s, P s → WellFormed s root)
    (hadd : ∀ {q t i a rest s s'}, P s → Adds root va q t i a rest s s' → P s') (h : P s) :
    ∃ s', walk root va true s = .ok (lookup s' root va,s') ∧ P s' ∧
      (lookup s' root va = none → s'.free = []) := by
  have hdescend : ∀ s q t i, P s → q++[i] <+: [px 2 va,px 1 va] →
    tableAt child s.mem root q = some t →
      ∃ s', descend t i true s = (tableAt child s'.mem root (q++[i]),s') ∧ P s' ∧
        (tableAt child s'.mem root (q++[i]) = none → s'.free = []) := by
    intro s q t i hs hway hq
    have hentry : tableAt child s.mem root (q++[i]) = child (s.mem t i) := by
      rw [tableAt_concat, hq, Option.bind_some]
    by_cases hv : valid (s.mem t i) = true
    · rw [child, if_pos hv] at hentry
      exact ⟨s,by rw [hentry, descend, if_pos hv],hs,by simp [hentry]⟩
    · rw [Bool.not_eq_true] at hv
      cases hfree : s.free with
      | nil => exact ⟨s,by simp [hentry, descend, child, kalloc, hv, hfree],hs,fun _ => hfree⟩
      | cons a rest =>
        have hadds : Adds root va q t i a rest s _ := ⟨hway,hq,hv,hfree,rfl⟩
        obtain ⟨-,-,htable⟩ := link (hwf s hs) hfree hq hadds.short hv
        have hnew := (htable (q++[i]) (by simp [hadds.short])).trans (if_pos rfl)
        refine ⟨_,?_,hadd hs hadds,by simp [hnew]⟩
        rw [hnew]
        simp [descend, hv, kalloc, hfree, fill, setPte]
  obtain ⟨s₂,h₂,hP₂,hfree₂⟩ := hdescend s [] root (px 2 va) h ⟨[px 1 va],rfl⟩ rfl
  rw [List.nil_append] at h₂ hfree₂
  unfold walk
  rw [if_neg (by simpa using hva), h₂]
  cases ht₂ : tableAt child s₂.mem root [px 2 va] with
  | none =>
    have hnone : lookup s₂ root va = none := by
      rw [lookup, ← List.singleton_append, tableAt_concat, ht₂]
      rfl
    exact ⟨s₂,by rw [hnone],hP₂,fun _ => hfree₂ ht₂⟩
  | some t =>
    obtain ⟨s₁,h₁,hP₁,hfree₁⟩ := hdescend s₂ [px 2 va] t (px 1 va) hP₂ ⟨[],rfl⟩ ht₂
    refine ⟨s₁,?_,hP₁,fun hnone => hfree₁ (Option.map_eq_none_iff.mp hnone)⟩
    simp only [h₁, lookup, List.singleton_append]
    cases tableAt child s₁.mem root [px 2 va,px 1 va] <;> rfl

theorem walk_alloc (h : WellFormed s root) (hva : va < maxva) :
    ∃ s', walk root va true s = .ok (lookup s' root va,s') ∧ WellFormed s' root ∧
      ∀ va', translate s' root va' = translate s root va' := by
  let P : Vm → Prop := fun s' => WellFormed s' root ∧ ∀ va', translate s' root va' =
    translate s root va'
  have hadd : ∀ {q t i a rest s₁ s₂}, P s₁ → Adds root va q t i a rest s₁ s₂ → P s₂ := by
    intro q t i a rest s₁ s₂ hs hadds
    obtain ⟨hwf,htrans,-⟩ := link hs.1 hadds.free hadds.table hadds.short hadds.invalid
    rw [hadds.after]
    exact ⟨hwf,fun va' => (htrans va').trans (hs.2 va')⟩
  obtain ⟨s',hok,hwalk,-⟩ := walk_rule hva (fun _ hs => hs.1) hadd ⟨h,fun _ => rfl⟩
  exact ⟨s',hok,hwalk⟩

theorem descend_look (t : Word) (i : Index) (s : Vm) :
    descend t i false s = (child (s.mem t i),s) := by
  unfold descend child
  split_ifs <;> simp_all

theorem walk_look (hva : va < maxva) : walk root va false s = .ok (lookup s root va,s) := by
  unfold walk
  rw [if_neg (by simpa using hva), descend_look]
  simp only [lookup, tableAt]
  cases child (s.mem root (px 2 va)) with
  | none => rfl
  | some t =>
    simp only [descend_look, Option.bind_some]
    cases child (s.mem t (px 1 va)) <;> rfl

end Walks

end GreenOS.PageTree
