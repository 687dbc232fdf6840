import GreenOS.FsInodes

/-!
# Truncating an inode

`itrunc` frees the block in every place of the inode. The loops need to know no
more than that these blocks are different and marked in the bitmap; what they
do to the owners of the blocks is read off the bitmap once they are done.
-/

namespace GreenOS.FsTrunc
open Programs ProgramTraces LogCode DiskLayout
open BufferSeq (Env)
open FsMemory FsCode FsDirect Ownership FsOwned
open FsBlocks FsMap FsInodes
open Function (update update_self update_of_ne)

/-- The blocks of a list hold parts of the bitmap. -/
def InBitmap (sb : Superblock) (l : List ℕ) : Prop := ∀ b ∈ l, sb.bmapstart ≤ b ∧ b < dataStart sb

section InBitmap
variable {sb : Superblock} {l l' : List ℕ}

theorem inBitmap_nil : InBitmap sb [] := nofun

theorem inBitmap_append (h : InBitmap sb l) (h' : InBitmap sb l') : InBitmap sb (l++l') :=
  fun b hb => (List.mem_append.mp hb).elim (h b) (h' b)

theorem inBitmap_bblock {a : ℕ} (ha : a < sb.size) : InBitmap sb [bblock sb a] := by
  intro b hb
  obtain rfl := List.mem_singleton.mp hb
  exact ⟨Nat.le_add_left _ _,bblock_lt ha⟩

end InBitmap

def stripped (d : Dinode) : Dinode := { d with addrs := fun _ => 0 }

def handOver (own : Owners) (i : ℕ) (o : Owner (ℕ × Place)) : Owners := fun b =>
  match own b with
  | .place x => if x.1 = i then o else .place x
  | o' => o'

section HandOver
variable {own : Owners} {i b : ℕ} {o : Owner (ℕ × Place)}

theorem handOver_self {pl : Place} (h : own b = .place (i,pl)) : handOver own i o b = o := by
  simp [handOver, h]

theorem handOver_other (h : ∀ pl, own b ≠ .place (i,pl)) : handOver own i o b = own b := by
  unfold handOver
  split
  · rename_i x hx
    rw [if_neg, hx]
    intro hxi
    exact h x.2 (by rw [hx, ← hxi])
  · rfl

end HandOver

variable {d : Dinode}

theorem addrOf_zero (h : ∀ k, d.addrs k = 0) (blocks : Blocks) (pl : Place) :
    addrOf blocks d pl = 0 := by
  have hslot : ∀ k, addrOf blocks d (.inl k) = 0 := fun k => congrArg BitVec.toNat (h k)
  cases pl with
  | inl k => exact hslot k
  | inr j => exact addrOf_inr_zero (hslot indirect) j

section Stored
variable {sb : Superblock} {D : Inodes} {own : Owners} {blocks blocks' : Blocks} {i b : ℕ}

theorem refers_iff (h : Stored sb D own blocks) (hi : i < sb.ninodes) :
    Refers blocks (D i) b ↔ ∃ pl, own b = .place (i,pl) := by
  constructor
  · rintro ⟨h0,pl,hpl⟩
    have := h.tracks.owned (i,pl) hi (by rw [hpl]; exact h0)
    rw [hpl] at this
    exact ⟨pl,this⟩
  · rintro ⟨pl,hpl⟩
    obtain ⟨-,haddr,h0⟩ := h.tracks.named b (i,pl) hpl
    exact ⟨h0,pl,haddr⟩

theorem handOver_free_iff (h : Stored sb D own blocks) (hi : i < sb.ninodes) :
    handOver own i .free b ≠ .free ↔ own b ≠ .free ∧ ¬ Refers blocks (D i) b := by
  rw [refers_iff h hi]
  by_cases hpl : ∃ pl, own b = .place (i,pl)
  · obtain ⟨pl,hb⟩ := hpl
    rw [handOver_self hb]
    exact iff_of_false (not_not.mpr rfl) (fun hc => hc.2 ⟨pl,hb⟩)
  · rw [handOver_other (not_exists.mp hpl)]
    exact ⟨fun hb => ⟨hb,hpl⟩,And.left⟩

variable {d : Dinode}

theorem addrOf_data (h : Stored sb D own blocks)
    (hdata : ∀ b, dataStart sb ≤ b → blocks' b = blocks b) {j : ℕ} (hj : j < sb.ninodes)
    (hd : Sub d (D j)) (pl : Place) : addrOf blocks' d pl = addrOf blocks d pl := by
  cases pl with
  | inl k => rfl
  | inr e =>
    simp only [addrOf]
    split_ifs with hz
    · rfl
    · have hown := indirect_of_sub h hj hd hz
      rw [hdata (d.addrs indirect).toNat (placed_range h hown).1]

theorem stored_emptied (h : Stored sb D own blocks) (hi : i < sb.ninodes)
    (haddrs : ∀ k, d.addrs k = 0) (hsize : d.size = 0)
    (hbits : ∀ b, bitOf sb blocks' b = true ↔ bitOf sb blocks b = true ∧ ¬ Refers blocks (D i) b)
    (hdata : ∀ b, dataStart sb ≤ b → blocks' b = blocks b) :
    Stored sb (update D i d) (handOver own i .free) blocks' := by
  have hcase : ∀ b, (∃ pl, own b = .place (i,pl)) ∨ ∀ pl, own b ≠ .place (i,pl) :=
    fun b => (em _).imp_right not_exists.mp
  constructor
  · constructor
    · intro x hx hne
      by_cases hxi : x.1 = i
      · rw [hxi, update_self, addrOf_zero haddrs] at hne
        exact absurd rfl hne
      · rw [update_of_ne hxi, addrOf_data h hdata hx (sub_refl _)] at hne ⊢
        have hown := h.tracks.owned x hx hne
        rw [handOver_other, hown]
        intro pl hpl
        rw [hown] at hpl
        exact hxi (congrArg Prod.fst (Owner.place.inj hpl))
    · intro b x hb
      cases hcase b with
      | inl hb' =>
        obtain ⟨pl,hpl⟩ := hb'
        rw [handOver_self hpl] at hb
        cases hb
      | inr hb' =>
        rw [handOver_other hb'] at hb
        have hn := h.tracks.named b x hb
        have hxi : x.1 ≠ i := by
          intro hxi
          exact hb' x.2 (by rw [hb, ← hxi])
        refine ⟨hn.1,?_,hn.2.2⟩
        rw [update_of_ne hxi, addrOf_data h hdata hn.1 (sub_refl _)]
        exact hn.2.1
  · intro b
    rw [h.reserved b]
    cases hcase b with
    | inl hb =>
      obtain ⟨pl,hpl⟩ := hb
      rw [handOver_self hpl, hpl]
      exact ⟨nofun,nofun⟩
    | inr hb => rw [handOver_other hb]
  · intro b hb
    exact h.below b ((handOver_free_iff h hi).mp hb).1
  · intro b hb
    rw [hbits, h.bits b hb, handOver_free_iff h hi]
  · intro j hj ht
    by_cases hji : j = i
    · rw [hji, update_self]
      exact haddrs
    · rw [update_of_ne hji] at ht ⊢
      exact h.empty j hj ht
  · intro j hj
    by_cases hji : j = i
    · rw [hji, update_self, hsize]
      exact Nat.zero_le _
    · rw [update_of_ne hji]
      exact h.size_le j hj

end Stored

/-- The blocks of inode `d` are all different, and the bitmap marks them. -/
structure Unshared (sb : Superblock) (blocks : Blocks) (d : Dinode) : Prop where
  once : ∀ pl pl', addrOf blocks d pl ≠ 0 → addrOf blocks d pl = addrOf blocks d pl' → pl = pl'
  marked : ∀ pl, addrOf blocks d pl ≠ 0 → bitOf sb blocks (addrOf blocks d pl) = true ∧
    dataStart sb ≤ addrOf blocks d pl ∧ addrOf blocks d pl < sb.size

theorem unshared_of_stored {sb : Superblock} {D : Inodes} {own : Owners} {blocks : Blocks} {i : ℕ}
    (h : Stored sb D own blocks) (hi : i < sb.ninodes) : Unshared sb blocks (D i) := by
  constructor
  · intro pl pl' h0 heq
    have := tracks_injective h.tracks (i := (i,pl)) (j := (i,pl')) hi hi h0 heq
    exact (Prod.mk.inj this).2
  · intro pl h0
    have hown := h.tracks.owned (i,pl) hi h0
    have hrange := placed_range h hown
    exact ⟨(h.bits _ hrange.2).mpr (by rw [hown]; nofun),hrange⟩

def Within (blocks : Blocks) (d : Dinode) (P : Place → Prop) (b : ℕ) : Prop :=
  b ≠ 0 ∧ ∃ pl, P pl ∧ addrOf blocks d pl = b

/-- In state `s`, reached from `s₀`, the blocks in the places `P` of inode `d` have
been freed and its other blocks are still to be. -/
structure Truncating (sb : Superblock) (d : Dinode) (s₀ : Fs) (P : Place → Prop) (s : Fs) :
    Prop where
  bits : ∀ b, bitOf sb s.blocks b = true ↔
    bitOf sb s₀.blocks b = true ∧ ¬ Within s₀.blocks d P b
  frame : ∀ b, b < sb.bmapstart ∨ dataStart sb ≤ b → s.blocks b = s₀.blocks b

section Truncating
variable {sb : Superblock} {d : Dinode} {s₀ s : Fs} {P : Place → Prop}
variable {env : Env} {E : String → Prop}

theorem truncating_start : Truncating sb d s (fun _ => False) s where
  bits := fun _ => ⟨fun hb => ⟨hb,fun ⟨_,_,hP,_⟩ => hP⟩,And.left⟩
  frame := fun _ _ => rfl

variable {P' : Place → Prop} {Q : Unit → Fs → List ℕ → Prop} {t left : ℕ}

theorem truncating_skip (h : Truncating sb d s₀ P s) (hsub : ∀ pl, P pl → P' pl)
    (hz : ∀ pl, P' pl → P pl ∨ addrOf s₀.blocks d pl = 0) :
    Truncating sb d s₀ P' s := by
  refine ⟨fun b => (h.bits b).trans (and_congr_right' (not_congr ⟨?_,?_⟩)),h.frame⟩
  · rintro ⟨h0,pl,hP,heq⟩
    exact ⟨h0,pl,hsub pl hP,heq⟩
  · rintro ⟨h0,pl,hP,heq⟩
    exact ⟨h0,pl,(hz pl hP).resolve_right (fun hzero => h0 (heq ▸ hzero)),heq⟩

theorem wpt_truncPlace (h₀ : Unshared sb s₀.blocks d) (h : Truncating sb d s₀ P s) {pl : Place}
    (h0 : addrOf s₀.blocks d pl ≠ 0) (hP : ¬ P pl)
    (hQ : ∀ s' l, Truncating sb d s₀ (fun pl' => P pl' ∨ pl' = pl) s' → s'.mem = s.mem →
      InBitmap sb l → Q () s' l) :
    wpt (handle env) logged E (bfree sb (addrOf s₀.blocks d pl)) Q s := by
  obtain ⟨hbit,-,hsize⟩ := h₀.marked pl h0
  apply wpt_bfree
  · rw [h.bits]
    refine ⟨hbit,?_⟩
    rintro ⟨-,pl',hP',heq⟩
    exact hP (h₀.once pl pl' h0 heq.symm ▸ hP')
  · refine hQ _ _ ⟨fun b => ?_,fun b hb => ?_⟩ rfl (inBitmap_bblock hsize)
    · have hclear : bitOf sb (freed sb s (addrOf s₀.blocks d pl)).blocks b =
          (!decide (addrOf s₀.blocks d pl = b) && bitOf sb s.blocks b) := bitOf_clearBit _ _
      have hwithin : Within s₀.blocks d (fun pl' => P pl' ∨ pl' = pl) b ↔
          Within s₀.blocks d P b ∨ addrOf s₀.blocks d pl = b := by
        constructor
        · rintro ⟨hb,pl',hP' | rfl,heq⟩
          · exact .inl ⟨hb,pl',hP',heq⟩
          · exact .inr heq
        · rintro (⟨hb,pl',hP',heq⟩ | heq)
          · exact ⟨hb,pl',.inl hP',heq⟩
          · exact ⟨heq ▸ h0,pl,.inr rfl,heq⟩
      rw [hclear, Bool.and_eq_true, Bool.not_eq_true', decide_eq_false_iff_not, h.bits, hwithin]
      tauto
    · have hblk := bblock_lt hsize
      have hge : sb.bmapstart ≤ bblock sb (addrOf s₀.blocks d pl) := Nat.le_add_left _ _
      exact (update_of_ne (by omega) _ _).trans (h.frame b hb)

theorem truncating_congr (h : Truncating sb d s₀ P s)
    (hP : ∀ pl, P pl ↔ P' pl) : Truncating sb d s₀ P' s := by
  have : P = P' := funext (fun pl => propext (hP pl))
  exact this ▸ h

theorem truncating_mem (h : Truncating sb d s₀ P s) (m : Mem) :
    Truncating sb d s₀ P (setMem s m) := ⟨h.bits,h.frame⟩

def DirectBelow (t : ℕ) : Place → Prop
  | .inl k => k.val < t
  | .inr _ => False

def EntryBelow (t : ℕ) : Place → Prop
  | .inl k => k.val < ndirect
  | .inr j => j.val < t

def clearedTo (t : ℕ) (d : Dinode) : Dinode :=
  { d with addrs := fun k => if k.val < t then 0 else d.addrs k }

theorem direct_val (ht : t < ndirect) : (direct t).val = t :=
  Nat.mod_eq_of_lt (Nat.lt_succ_of_lt ht)

theorem directBelow_succ (ht : t < ndirect) (pl : Place) :
    DirectBelow t pl ∨ pl = .inl (direct t) ↔ DirectBelow (t+1) pl := by
  cases pl with
  | inl k =>
    have hk : Sum.inl k = (Sum.inl (direct t) : Place) ↔ k.val = t := by
      rw [Sum.inl.injEq, Fin.ext_iff, direct_val ht]
    simp only [DirectBelow, hk]
    omega
  | inr j => simp [DirectBelow]

theorem entryBelow_succ (ht : t < nindirect) (pl : Place) :
    EntryBelow t pl ∨ pl = .inr ⟨t,ht⟩ ↔ EntryBelow (t+1) pl := by
  cases pl with
  | inl k => simp [EntryBelow]
  | inr j =>
    have hj : Sum.inr j = (Sum.inr ⟨t,ht⟩ : Place) ↔ j.val = t := by
      rw [Sum.inr.injEq, Fin.ext_iff]
    simp only [EntryBelow, hj]
    omega

theorem clearedTo_succ (ht : t < ndirect) (d : Dinode) :
    setAddrs (direct t) 0 (clearedTo t d) = clearedTo (t+1) d := by
  simp only [setAddrs, clearedTo]
  congr 1
  funext k
  by_cases hk : k = direct t
  · rw [hk, update_self, direct_val ht, if_pos (Nat.lt_succ_self t)]
  · have hne : k.val ≠ t := fun h => hk (Fin.ext (h.trans (direct_val ht).symm))
    rw [update_of_ne hk]
    exact if_congr (by omega) rfl rfl

theorem clearedTo_skip (ht : t < ndirect) {d : Dinode} (hz : d.addrs (direct t) = 0) :
    clearedTo t d = clearedTo (t+1) d := by
  simp only [clearedTo]
  congr 1
  funext k
  by_cases hk : k = direct t
  · rw [hk, hz, ite_self, ite_self]
  · have hne : k.val ≠ t := fun h => hk (Fin.ext (h.trans (direct_val ht).symm))
    exact if_congr (by omega) rfl rfl

theorem clearedTo_direct (ht : t < ndirect) (d : Dinode) :
    (clearedTo t d).addrs (direct t) = d.addrs (direct t) := by
  simp [clearedTo, direct_val ht]

variable {k : Fin ninode}

theorem wpt_truncDirect (h₀ : Unshared sb s₀.blocks d) (ht : t+left = ndirect)
    (h : Truncating sb d s₀ (DirectBelow t) s) (hmem : s.mem = withCopy s₀.mem k (clearedTo t d))
    (hQ : ∀ s' l, Truncating sb d s₀ (DirectBelow ndirect) s' →
      s'.mem = withCopy s₀.mem k (clearedTo ndirect d) → InBitmap sb l → Q () s' l) :
    wpt (handle env) logged E (truncDirect sb k left t) Q s := by
  induction left generalizing t s Q with
  | zero =>
    obtain rfl : t = ndirect := ht
    exact wpt_pure.mpr (hQ s [] h hmem inBitmap_nil)
  | succ left ih =>
    have htlt : t < ndirect := by omega
    have hcopy : (s.mem.itable k).copy = clearedTo t d := by rw [hmem, withCopy_copy]
    rw [truncDirect, wpt_silent_bind (silent_getInode k), wp_getInode, hcopy, clearedTo_direct htlt]
    apply wpt_ite
    · intro hz
      have hzero : addrOf s₀.blocks d (.inl (direct t)) = 0 := by
        rw [addrOf, hz]
        rfl
      refine ih (by omega) (truncating_skip h
        (fun pl hP => (directBelow_succ htlt pl).mp (.inl hP))
        (fun pl hP => Or.imp_right (fun hpl => (congrArg _ hpl).trans hzero)
          ((directBelow_succ htlt pl).mpr hP))) ?_ hQ
      rw [hmem, clearedTo_skip htlt hz]
    · intro hne
      have h0 : addrOf s₀.blocks d (.inl (direct t)) ≠ 0 :=
        fun hz => hne (BitVec.eq_of_toNat_eq hz)
      rw [wpt_bind]
      apply wpt_truncPlace h₀ h h0
      · simp [DirectBelow, direct_val htlt]
      · intro s' l h' hm hl
        have hcopy' : (s'.mem.itable k).copy = clearedTo t d := by rw [hm, hcopy]
        rw [wpt_silent_bind (silent_modifyCopy k _), wp_modifyCopy, hcopy', clearedTo_succ htlt]
        refine ih (by omega) (truncating_mem (truncating_congr h' (directBelow_succ htlt)) _) ?_
          (fun s'' l' h'' hm'' hl' => hQ s'' (l++l') h'' hm'' (inBitmap_append hl hl'))
        show withCopy s'.mem k _ = _
        rw [hm, hmem, withCopy_withCopy]

theorem wpt_truncIndirect (h₀ : Unshared sb s₀.blocks d) (hind : d.addrs indirect ≠ 0)
    (ht : t+left = nindirect) (h : Truncating sb d s₀ (EntryBelow t) s)
    (hQ : ∀ s' l, Truncating sb d s₀ (EntryBelow nindirect) s' → s'.mem = s.mem → InBitmap sb l →
      Q () s' l) :
    wpt (handle env) logged E
      (truncIndirect sb (s₀.blocks (d.addrs indirect).toNat) left t) Q s := by
  induction left generalizing t s Q with
  | zero =>
    obtain rfl : t = nindirect := ht
    exact wpt_pure.mpr (hQ s [] h rfl inBitmap_nil)
  | succ left ih =>
    have htlt : t < nindirect := by omega
    have haddr : addrOf s₀.blocks d (.inr ⟨t,htlt⟩) =
        (getAddr (s₀.blocks (d.addrs indirect).toNat) t).toNat := if_neg hind
    rw [truncIndirect]
    apply wpt_ite
    · intro hz
      have hzero : addrOf s₀.blocks d (.inr ⟨t,htlt⟩) = 0 := by
        rw [haddr, hz]
        rfl
      exact ih (by omega) (truncating_skip h
        (fun pl hP => (entryBelow_succ htlt pl).mp (.inl hP))
        (fun pl hP => Or.imp_right (fun hpl => (congrArg _ hpl).trans hzero)
          ((entryBelow_succ htlt pl).mpr hP))) hQ
    · intro hne
      have h0 : addrOf s₀.blocks d (.inr ⟨t,htlt⟩) ≠ 0 := by
        rw [haddr]
        exact fun hz => hne (BitVec.eq_of_toNat_eq hz)
      rw [wpt_bind, ← haddr]
      apply wpt_truncPlace h₀ h h0
      · simp [EntryBelow]
      · intro s' l h' hm hl
        exact ih (by omega) (truncating_congr h' (entryBelow_succ htlt))
          (fun s'' l' h'' hm' hl' => hQ s'' (l++l') h'' (hm'.trans hm) (inBitmap_append hl hl'))

end Truncating

def truncated (d : Dinode) : Dinode := { d with size := 0, addrs := fun _ => 0 }

structure Emptied (sb : Superblock) (k : Fin ninode) (i : ℕ) (d : Dinode) (s s' : Fs) : Prop where
  bits : ∀ b, bitOf sb s'.blocks b = true ↔ bitOf sb s.blocks b = true ∧ ¬ Refers s.blocks d b
  disk : ∀ j, j < sb.ninodes → diskInode sb s'.blocks j =
    if j = i then truncated d else diskInode sb s.blocks j
  data : ∀ b, dataStart sb ≤ b → s'.blocks b = s.blocks b
  mem : s'.mem = withCopy s.mem k (truncated d)

structure Truncated (sb : Superblock) (k : Fin ninode) (i : ℕ) (D : Inodes) (own : Owners) (s : Fs)
    (s' : Fs) : Prop where
  stored : Stored sb (update D i (truncated (D i))) (handOver own i .free) s'.blocks
  disk : ∀ j, j < sb.ninodes → diskInode sb s'.blocks j =
    if j = i then truncated (D i) else diskInode sb s.blocks j
  data : ∀ b, dataStart sb ≤ b → s'.blocks b = s.blocks b
  mem : s'.mem = withCopy s.mem k (truncated (D i))

theorem clearedTo_ndirect (h : d.addrs indirect = 0) :
    clearedTo ndirect d = stripped d := by
  simp only [clearedTo, stripped]
  congr 1
  funext k
  split_ifs with hk
  · rfl
  · have hlast : k = indirect := Fin.ext (le_antisymm (Nat.le_of_lt_succ k.isLt) (not_lt.mp hk))
    rw [hlast, h]

theorem setAddrs_clearedTo (d : Dinode) :
    setAddrs indirect 0 (clearedTo ndirect d) = stripped d := by
  simp only [setAddrs, clearedTo, stripped]
  congr 1
  funext k
  by_cases hk : k = indirect
  · rw [hk, update_self]
  · have hlt : k.val < ndirect :=
      lt_of_le_of_ne (Nat.le_of_lt_succ k.isLt) (fun h => hk (Fin.ext h))
    rw [update_of_ne hk, if_pos hlt]

section Itrunc
variable {sb : Superblock} {k : Fin ninode} {i : ℕ} {d : Dinode} {s : Fs}
variable {env : Env} {E : String → Prop}

theorem emptied_of_done (hsb : Layout sb) (hi : i < sb.ninodes) {s' : Fs}
    (hdone : Truncating sb d s (fun _ => True) s')
    (hmem : s'.mem = withCopy s.mem k (stripped d)) :
    Emptied sb k i d s (inodeSaved sb s' k i (truncated d)) where
  bits := fun b => by
    refine (iff_of_eq (congrArg (· = true) (bitOf_update_of_ne ?_))).trans ((hdone.bits b).trans ?_)
    · exact (iblock_ne_bblock hsb hi).symm
    · simp only [Within, Refers, true_and]
  disk := fun j hj => by
    refine (inodeWritten_disk i j _).trans ?_
    split_ifs
    · rfl
    · show getDinode (s'.blocks (iblock sb j)) _ = _
      rw [hdone.frame _ (.inl (iblock_lt hsb hj))]
      rfl
  data := fun b hb => by
    have := iblock_lt_data hsb hi
    exact (update_of_ne (by omega) _ _).trans (hdone.frame b (.inr hb))
  mem := by
    show withCopy s'.mem k _ = _
    rw [hmem, withCopy_withCopy]

variable {Q : Unit → Fs → Prop}

theorem wpt_itrunc_unshared {Q : Unit → Fs → List ℕ → Prop} (hsb : Layout sb)
    (h : Unshared sb s.blocks d) (hi : i < sb.ninodes)
    (hentry : (s.mem.itable k).copy = d) (hinum : (s.mem.itable k).inum = i)
    (hQ : ∀ s' l, Emptied sb k i d s s' → InBitmap sb l → Q () s' (l++[iblock sb i])) :
    wpt (handle env) logged E (itrunc sb k) Q s := by
  have hend : ∀ s' l, Truncating sb d s (fun _ => True) s' →
      s'.mem = withCopy s.mem k (stripped d) → InBitmap sb l →
      wpt (handle env) logged E (do modifyCopy k (fun d => { d with size := 0 }); iupdate sb k)
        (fun r s' l' => Q r s' (l++l')) s' := by
    intro s' l hdone hmem hl
    have hcopy : (s'.mem.itable k).copy = stripped d := by rw [hmem, withCopy_copy]
    have hinum' : (s'.mem.itable k).inum = i := by
      rw [hmem]
      simp [withCopy, setInode, hinum]
    have := hQ _ l (emptied_of_done hsb hi hdone hmem) hl
    rw [wpt_silent_bind (silent_modifyCopy k _), wp_modifyCopy, hcopy, wpt_iupdate]
    simpa [inodeSaved, setMem, withCopy, setInode, hinum', truncated, stripped] using this
  rw [itrunc, wpt_bind]
  have hstart : Truncating sb d s (DirectBelow 0) s := by
    apply truncating_congr (truncating_start)
    intro pl
    cases pl <;> simp [DirectBelow]
  have hmem : s.mem = withCopy s.mem k (clearedTo 0 d) :=
    (withCopy_self (hentry.trans (by simp [clearedTo]))).symm
  apply wpt_truncDirect h (Nat.zero_add _) hstart hmem
  intro s₁ l₁ h₁ hmem₁ hl₁
  have hcopy : (s₁.mem.itable k).copy = clearedTo ndirect d := by rw [hmem₁, withCopy_copy]
  have hind : (clearedTo ndirect d).addrs indirect = d.addrs indirect := by
    simp [clearedTo, indirect]
  rw [wpt_silent_bind (silent_getInode k), wp_getInode, hcopy, hind]
  apply wpt_ite
  · intro hz
    refine hend s₁ l₁ ?_ ?_ hl₁
    · apply truncating_skip h₁ (fun _ _ => trivial)
      intro pl _
      cases pl with
      | inl j =>
        by_cases hj : j.val < ndirect
        · exact .inl hj
        · have hlast : j = indirect :=
            Fin.ext (le_antisymm (Nat.le_of_lt_succ j.isLt) (not_lt.mp hj))
          right
          rw [hlast, addrOf, hz]
          rfl
      | inr j => exact .inr (if_pos hz)
    · rw [hmem₁, clearedTo_ndirect hz]
  · intro hne
    have h0 : addrOf s.blocks d (.inl indirect) ≠ 0 :=
      fun hz => hne (BitVec.eq_of_toNat_eq hz)
    have hdata : dataStart sb ≤ (d.addrs indirect).toNat := (h.marked (.inl indirect) h0).2.1
    dsimp only
    rw [wpt_silent_bind (silent_bread _), wp_bread, h₁.frame _ (.inr hdata), wpt_bind]
    apply wpt_truncIndirect h hne (Nat.zero_add _) (truncating_congr h₁ _)
    · intro s₂ l₂ h₂ hmem₂ hl₂
      rw [wpt_silent_bind (silent_brelse _), wp_brelse, wpt_bind]
      apply wpt_truncPlace h h₂ h0
      · simp [EntryBelow, indirect]
      · intro s₃ l₃ h₃ hmem₃ hl₃
        have hcopy₃ : (s₃.mem.itable k).copy = clearedTo ndirect d := by
          rw [hmem₃, hmem₂, hcopy]
        rw [wpt_silent_bind (silent_modifyCopy k _), wp_modifyCopy, hcopy₃, setAddrs_clearedTo]
        have hl := inBitmap_append hl₁ (inBitmap_append hl₂ hl₃)
        have hrest := fun s' => hend s' (l₁++(l₂++l₃))
        simp only [List.append_assoc] at hrest ⊢
        refine hrest _ (truncating_mem (truncating_congr h₃ ?_) _) ?_ hl
        rotate_left
        · show withCopy s₃.mem k _ = _
          rw [hmem₃, hmem₂, hmem₁, withCopy_withCopy]
        · intro pl
          cases pl with
          | inl j =>
            simp only [EntryBelow, iff_true, Sum.inl.injEq]
            rcases Nat.lt_succ_iff_lt_or_eq.mp j.isLt with hj | hj
            · exact .inl hj
            · exact .inr (Fin.ext hj)
          | inr j =>
            simp only [EntryBelow, iff_true]
            exact .inl j.isLt
    · intro pl
      cases pl <;> simp [DirectBelow, EntryBelow]

theorem wp_itrunc_unshared (hsb : Layout sb) (h : Unshared sb s.blocks d) (hi : i < sb.ninodes)
    (hentry : (s.mem.itable k).copy = d) (hinum : (s.mem.itable k).inum = i)
    (hQ : ∀ s', Emptied sb k i d s s' → Q () s') :
    wp (handle env) E (itrunc sb k) Q s :=
  wp_of_wpt (wpt_itrunc_unshared hsb h hi hentry hinum (fun s' _ he _ => hQ s' he))

variable {D : Inodes} {own : Owners}

theorem wp_itrunc (hsb : Layout sb) (h : Open sb D own s k i) (hinum : (s.mem.itable k).inum = i)
    (hQ : ∀ s', Truncated sb k i D own s s' → Q () s') :
    wp (handle env) E (itrunc sb k) Q s := by
  apply wp_itrunc_unshared hsb (unshared_of_stored h.stored h.inum_lt) h.inum_lt h.copy hinum
  intro s' he
  refine hQ s' ⟨?_,he.disk,he.data,he.mem⟩
  exact stored_emptied h.stored h.inum_lt (fun _ => rfl) rfl he.bits he.data

end Itrunc

end GreenOS.FsTrunc
