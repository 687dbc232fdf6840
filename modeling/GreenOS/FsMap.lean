import GreenOS.FsBlocks

/-!
# Mapping blocks of an inode

What `bmap` does when it has to allocate: an inode grows by the blocks that
were missing, which are zero, so no content changes and no other inode.
-/

namespace GreenOS.FsMap
open Programs ProgramTraces ByteBlock LogCode DiskLayout
open BufferSeq (Env)
open FsMemory FsCode FsDirect Ownership FsOwned
open FsBlocks
open Function (update update_self update_of_ne update_idem)

def withCopy (m : Mem) (k : Fin ninode) (d : Dinode) : Mem :=
  setInode m k { m.itable k with copy := d }

variable {k : Fin ninode} {env : Env} {E : String → Prop} {s : Fs}

theorem withCopy_self {m : Mem} {d : Dinode} (h : (m.itable k).copy = d) :
    withCopy m k d = m := by
  subst h
  simp [withCopy, setInode]

theorem withCopy_withCopy (m : Mem) (k : Fin ninode) (d e : Dinode) :
    withCopy (withCopy m k d) k e = withCopy m k e := by
  simp [withCopy, setInode]

theorem withCopy_copy (m : Mem) (k : Fin ninode) (d : Dinode) :
    ((withCopy m k d).itable k).copy = d := by
  simp [withCopy, setInode]

theorem wp_modifyCopy {f : Dinode → Dinode} {Q : Unit → Fs → Prop} :
    wp (handle env) E (modifyCopy k f) Q s ↔
      Q () (setMem s (withCopy s.mem k (f (s.mem.itable k).copy))) := wp_def _ _ _

theorem wp_getInode {Q : Inode → Fs → Prop} :
    wp (handle env) E (getInode k) Q s ↔ Q (s.mem.itable k) s := wp_def _ _ _

theorem silent_getInode (k : Fin ninode) : Every Silent (getInode k) := silent_readMem _

theorem silent_modifyCopy (k : Fin ninode) (f : Dinode → Dinode) :
    Every Silent (modifyCopy k f) := silent_writeMem _

/-- Between two states inode `i`, cached in entry `k`, was given blocks that it
had been missing. -/
structure Grown (sb : Superblock) (k : Fin ninode) (i : ℕ) (D : Inodes) (own : Owners) (s : Fs)
    (D' : Inodes) (own' : Owners) (s' : Fs) : Prop where
  stored : Stored sb D' own' s'.blocks
  other : ∀ j, j ≠ i → D' j = D j
  fields : D' i = { D i with addrs := (D' i).addrs }
  sub : Sub (D i) (D' i)
  keep : ∀ j, j < sb.ninodes → ∀ pl, addrOf s.blocks (D j) pl ≠ 0 →
    addrOf s'.blocks (D' j) pl = addrOf s.blocks (D j) pl
  frame : ∀ j, j < sb.ninodes → ∀ d, Sub d (D j) → ∀ o, byteAt s'.blocks d o = byteAt s.blocks d o
  bytes : ∀ o, byteAt s'.blocks (D' i) o = byteAt s.blocks (D i) o
  disk : ∀ j, j < sb.ninodes → diskInode sb s'.blocks j = diskInode sb s.blocks j
  lost : ∀ b, own' b = .lost → own b = .lost
  held : ∀ b, own' b = .held → own b = .held
  mem : s'.mem = withCopy s.mem k (D' i)

section Grown
variable {sb : Superblock} {k : Fin ninode} {i : ℕ} {D D' D'' : Inodes} {own own' own'' : Owners}
variable {s s' s'' : Fs}

theorem grown_refl (h : Stored sb D own s.blocks) (hcopy : (s.mem.itable k).copy = D i) :
    Grown sb k i D own s D own s where
  stored := h
  other := fun _ _ => rfl
  fields := rfl
  sub := sub_refl _
  keep := fun _ _ _ _ => rfl
  frame := fun _ _ _ _ _ => rfl
  bytes := fun _ => rfl
  disk := fun _ _ => rfl
  lost := fun _ h => h
  held := fun _ h => h
  mem := (withCopy_self hcopy).symm

theorem grown_sub (h : Grown sb k i D own s D' own' s') (j : ℕ) : Sub (D j) (D' j) := by
  by_cases hj : j = i
  · exact hj ▸ h.sub
  · rw [h.other j hj]
    exact sub_refl _

theorem grown_trans (h : Grown sb k i D own s D' own' s')
    (h' : Grown sb k i D' own' s' D'' own'' s'') :
    Grown sb k i D own s D'' own'' s'' where
  stored := h'.stored
  other := fun j hj => (h'.other j hj).trans (h.other j hj)
  fields := by rw [h'.fields, h.fields]
  sub := sub_trans h.sub h'.sub
  keep := fun j hj pl h0 => by
    have h₁ := h.keep j hj pl h0
    rw [h'.keep j hj pl (h₁ ▸ h0), h₁]
  frame := fun j hj d hd o =>
    (h'.frame j hj d (sub_trans hd (grown_sub h j)) o).trans (h.frame j hj d hd o)
  bytes := fun o => (h'.bytes o).trans (h.bytes o)
  disk := fun j hj => (h'.disk j hj).trans (h.disk j hj)
  lost := fun b hb => h.lost b (h'.lost b hb)
  held := fun b hb => h.held b (h'.held b hb)
  mem := by rw [h'.mem, h.mem, withCopy_withCopy]

theorem grown_copy (h : Grown sb k i D own s D' own' s') : (s'.mem.itable k).copy = D' i := by
  rw [h.mem, withCopy_copy]

end Grown

section Places
variable {blocks : Blocks} {d : Dinode}

theorem direct_ne_indirect {bn : ℕ} (h : bn < ndirect) : direct bn ≠ indirect := by
  have hn : ndirect = 12 := rfl
  intro heq
  have := congrArg Fin.val heq
  simp only [direct, indirect, Fin.val_ofNat, Fin.val_last, hn] at this
  omega

theorem placeOf_ne_indirect (bn : ℕ) : placeOf bn ≠ .inl indirect := by
  unfold placeOf
  split_ifs with h
  · intro heq
    exact direct_ne_indirect h (Sum.inl.inj heq)
  · nofun

theorem setAddrs_same (i : Fin (ndirect+1)) (a : BitVec 32) (d : Dinode) :
    (setAddrs i a d).addrs i = a := by
  simp [setAddrs]

theorem setAddrs_of_ne {i j : Fin (ndirect+1)} (h : j ≠ i) (a : BitVec 32) (d : Dinode) :
    (setAddrs i a d).addrs j = d.addrs j := by
  simp [setAddrs, h]

variable {a : ℕ} {sl : Fin (ndirect+1)}

theorem toNat_addr (ha : a < 2^32) : (BitVec.ofNat 32 a).toNat = a := by
  simp only [BitVec.toNat_ofNat]
  exact Nat.mod_eq_of_lt ha

theorem addr_ne_zero (ha : a < 2^32) (h0 : a ≠ 0) : BitVec.ofNat 32 a ≠ 0 := by
  intro h
  apply h0
  rw [← toNat_addr ha, h]
  rfl

theorem addrOf_inr_zero (h : addrOf blocks d (.inl indirect) = 0) (j : Fin nindirect) :
    addrOf blocks d (.inr j) = 0 := by
  have hz : d.addrs indirect = 0 := BitVec.eq_of_toNat_eq h
  exact if_pos hz

theorem sub_setAddrs (h : d.addrs sl = 0) (a : BitVec 32) :
    Sub d (setAddrs sl a d) := by
  intro j
  by_cases hj : j = sl
  · exact .inl (hj ▸ h)
  · exact .inr (setAddrs_of_ne hj a d).symm

theorem addrOf_setAddrs (hempty : d.addrs sl = 0) (ha : a < 2^32) (h0 : a ≠ 0)
    (hzero : blocks a = zeros) (pl : Place) :
    addrOf blocks (setAddrs sl (BitVec.ofNat 32 a) d) pl =
      if pl = .inl sl then a else addrOf blocks d pl := by
  cases pl with
  | inl j =>
    by_cases hj : j = sl
    · rw [if_pos (congrArg _ hj), hj, addrOf, setAddrs_same, toNat_addr ha]
    · rw [if_neg (fun h => hj (Sum.inl.inj h)), addrOf, setAddrs_of_ne hj, addrOf]
  | inr j =>
    rw [if_neg Sum.inr_ne_inl]
    by_cases hsl : indirect = sl
    · have hd : d.addrs indirect = 0 := hsl ▸ hempty
      rw [← hsl]
      simp only [addrOf, setAddrs_same, hd, if_neg (addr_ne_zero ha h0), toNat_addr ha, hzero,
        getAddr_zeros]
      rfl
    · simp only [addrOf, setAddrs_of_ne hsl]

theorem byteAt_setAddrs (hempty : d.addrs sl = 0) (ha : a < 2^32) (h0 : a ≠ 0)
    (hzero : blocks a = zeros) (o : ℕ) :
    byteAt blocks (setAddrs sl (BitVec.ofNat 32 a) d) o = byteAt blocks d o := by
  simp only [byteAt, addrOf_setAddrs hempty ha h0 hzero]
  by_cases hpl : placeOf (o/bsize) = .inl sl
  · have hz : addrOf blocks d (placeOf (o/bsize)) = 0 := by
      rw [hpl, addrOf, hempty]
      rfl
    rw [if_pos hpl, if_neg h0, hz, if_pos rfl, hzero, get_zeros]
  · rw [if_neg hpl]

theorem addrOf_putAddr {j : Fin nindirect} (hind : d.addrs indirect ≠ 0) (ha : a < 2^32)
    {data : Block} (hdata : data = blocks (d.addrs indirect).toNat) (pl : Place) :
    addrOf (update blocks (d.addrs indirect).toNat (putAddr data j.val (BitVec.ofNat 32 a)))
      d pl = if pl = .inr j then a else addrOf blocks d pl := by
  cases pl with
  | inl j' => rw [if_neg nofun, addrOf, addrOf]
  | inr j' =>
    simp only [addrOf, if_neg hind, update_self]
    by_cases hj : j' = j
    · rw [hj, getAddr_putAddr_same _ _ j.isLt, if_pos rfl, toNat_addr ha]
    · have hval : j.val ≠ j'.val := fun h => hj (Fin.ext h.symm)
      rw [getAddr_putAddr_other _ _ hval, if_neg (fun h => hj (Sum.inr.inj h)), hdata]

end Places

theorem data_ne_zero {sb : Superblock} {a : ℕ} (h : dataStart sb ≤ a) : a ≠ 0 := by
  have : 0 < dataStart sb := lt_of_lt_of_le (Nat.succ_pos _) (Nat.le_add_left _ _)
  omega

section Assign
variable {sb : Superblock} {D D' : Inodes} {own : Owners} {blocks blocks' : Blocks}

theorem stored_assign (h : Stored sb D own blocks) {a : ℕ} (ha : own a = .held) {x : ℕ × Place}
    (hx : x.1 < sb.ninodes) (hempty : addrOf blocks (D x.1) x.2 = 0)
    (hset : addrOf blocks' (D' x.1) x.2 = a)
    (hother : ∀ y : ℕ × Place, y.1 < sb.ninodes → y ≠ x →
      addrOf blocks' (D' y.1) y.2 = addrOf blocks (D y.1) y.2)
    (hbits : ∀ b, b < sb.size → bitOf sb blocks' b = bitOf sb blocks b)
    (htype : ∀ i, i < sb.ninodes → (D' i).type = 0 → ∀ k, (D' i).addrs k = 0)
    (hsize : ∀ i, i < sb.ninodes → (D' i).size.toNat ≤ maxfile*bsize) :
    Stored sb D' (update own a (.place x)) blocks' := by
  have hasize : a < sb.size := h.below a (by rw [ha]; nofun)
  have hdata : dataStart sb ≤ a := by
    by_contra hlt
    have := (h.reserved a).mp (by omega)
    rw [ha] at this
    cases this
  have ha0 : a ≠ 0 := data_ne_zero hdata
  constructor
  · exact tracks_assign h.tracks hx (held_unplaced ha) ha0 hempty hset
      (fun y hy hne => hother y hy hne)
  · intro b
    rw [h.reserved b]
    by_cases heq : b = a
    · rw [heq, ha, update_self]
      exact ⟨nofun,nofun⟩
    · rw [update_of_ne heq]
  · intro b hb
    by_cases heq : b = a
    · exact heq ▸ hasize
    · rw [update_of_ne heq] at hb
      exact h.below b hb
  · intro b hb
    rw [hbits b hb]
    by_cases heq : b = a
    · rw [heq, h.bits a hasize, ha, update_self]
      exact ⟨nofun,nofun⟩
    · rw [update_of_ne heq]
      exact h.bits b hb
  · exact htype
  · exact hsize

end Assign

section Grow
variable {sb : Superblock} {k : Fin ninode} {i : ℕ} {D : Inodes} {own : Owners} {s : Fs}

variable {a : ℕ}

theorem update_lost {x : ℕ × Place} {b : ℕ} {o : Owner (ℕ × Place)}
    (h : update own a (.place x) b = o) (ho : Unplaced o) : own b = o := by
  by_cases heq : b = a
  · rw [heq, update_self] at h
    exact absurd h.symm (ho x)
  · rwa [update_of_ne heq] at h

theorem grown_slot (hsb : Layout sb) (h : Stored sb D own s.blocks) (hi : i < sb.ninodes)
    (htype : (D i).type ≠ 0) {sl : Fin (ndirect+1)} (hempty : (D i).addrs sl = 0)
    (ha : own a = .free) (hsize : a < sb.size) :
    Grown sb k i D own s (update D i (setAddrs sl (BitVec.ofNat 32 a) (D i)))
      (update own a (.place (i,.inl sl)))
      (setMem (allocated sb s a) (withCopy s.mem k (setAddrs sl (BitVec.ofNat 32 a) (D i)))) := by
  have ha32 : a < 2^32 := addr_lt hsb hsize
  have ha0 : a ≠ 0 := data_ne_zero (free_data h ha)
  have hzero : (allocated sb s a).blocks a = zeros := allocated_self s a
  have haddr : ∀ j, j < sb.ninodes → ∀ pl, addrOf (allocated sb s a).blocks
      (update D i (setAddrs sl (BitVec.ofNat 32 a) (D i)) j) pl =
      if (j,pl) = (i,Sum.inl sl) then a else addrOf s.blocks (D j) pl := by
    intro j hj pl
    by_cases hji : j = i
    · subst hji
      rw [update_self, addrOf_setAddrs hempty ha32 ha0 hzero,
        allocated_addrOf h ha hsize hj (sub_refl _)]
      simp only [Prod.mk.injEq, true_and]
    · rw [update_of_ne hji, allocated_addrOf h ha hsize hj (sub_refl _),
        if_neg (fun heq => hji (Prod.mk.inj heq).1)]
  have hplace : addrOf s.blocks (D i) (.inl sl) = 0 := by
    rw [addrOf, hempty]
    rfl
  constructor
  · have hst := stored_allocated h ha hsize
    have hidem : update (update own a .held) a (.place (i,.inl sl)) =
        update own a (.place (i,.inl sl)) := update_idem _ _ _
    rw [← hidem]
    apply stored_assign hst (update_self a _ own) hi
    · exact (allocated_addrOf h ha hsize hi (sub_refl _) _).trans hplace
    · exact (haddr i hi (.inl sl)).trans (if_pos rfl)
    · intro y hy hne
      exact (haddr y.1 hy y.2).trans ((if_neg hne).trans
        (allocated_addrOf h ha hsize hy (sub_refl _) _).symm)
    · exact fun _ _ => rfl
    · intro j hj ht
      by_cases hji : j = i
      · rw [hji, update_self] at ht
        exact absurd ht htype
      · rw [update_of_ne hji] at ht ⊢
        exact h.empty j hj ht
    · intro j hj
      by_cases hji : j = i
      · rw [hji, update_self]
        exact h.size_le i hi
      · rw [update_of_ne hji]
        exact h.size_le j hj
  · exact fun j hj => update_of_ne hj _ _
  · rw [update_self]
    rfl
  · rw [update_self]
    exact sub_setAddrs hempty _
  · intro j hj pl h0
    refine (haddr j hj pl).trans (if_neg (fun heq => h0 ?_))
    obtain ⟨rfl,rfl⟩ := Prod.mk.inj heq
    exact hplace
  · exact fun j hj d hd o => allocated_byteAt h ha hsize hj hd o
  · intro o
    rw [update_self]
    exact (byteAt_setAddrs hempty ha32 ha0 hzero o).trans
      (allocated_byteAt h ha hsize hi (sub_refl _) o)
  · exact fun j hj => allocated_diskInode hsb h ha hj
  · exact fun b hb => update_lost hb (fun _ h => by cases h)
  · exact fun b hb => update_lost hb (fun _ h => by cases h)
  · rw [update_self]
    rfl

end Grow

/-- The blocks with entry `j` of the indirect block of `d` set to `a`. -/
def putEntry (blocks : Blocks) (d : Dinode) (j : Fin nindirect) (a : ℕ) : Blocks :=
  update blocks (d.addrs indirect).toNat
    (putAddr (blocks (d.addrs indirect).toNat) j.val (BitVec.ofNat 32 a))

section Entry
variable {sb : Superblock} {i : ℕ} {D : Inodes} {own : Owners} {blocks : Blocks}
variable {j : Fin nindirect} {a : ℕ}

theorem indirect_owned (h : Stored sb D own blocks) (hi : i < sb.ninodes)
    (hind : (D i).addrs indirect ≠ 0) :
    own ((D i).addrs indirect).toNat = .place (i,.inl indirect) :=
  h.tracks.owned (i,.inl indirect) hi (fun hz => hind (BitVec.eq_of_toNat_eq hz))

variable {j' : ℕ} {d : Dinode}

theorem addrOf_putEntry (h : Stored sb D own blocks) (hi : i < sb.ninodes)
    (hind : (D i).addrs indirect ≠ 0) (ha : a < 2^32) (hj' : j' < sb.ninodes) (hd : Sub d (D j'))
    (pl : Place) : addrOf (putEntry blocks (D i) j a) d pl =
      if j' = i ∧ pl = .inr j ∧ d.addrs indirect ≠ 0 then a else addrOf blocks d pl := by
  have hown := indirect_owned h hi hind
  by_cases hcase : j' = i ∧ d.addrs indirect ≠ 0
  · obtain ⟨rfl,hd0⟩ := hcase
    have heq : d.addrs indirect = (D j').addrs indirect := (hd indirect).resolve_left hd0
    rw [putEntry, ← heq, addrOf_putAddr hd0 ha rfl]
    simp only [hd0, ne_eq, not_false_eq_true, and_true, true_and]
  · rw [if_neg (fun hc => hcase ⟨hc.1,hc.2.2⟩)]
    apply addrOf_update
    intro hd0 heq
    have hown' := indirect_of_sub h hj' hd hd0
    rw [heq, hown] at hown'
    exact hcase ⟨(Prod.mk.inj (Owner.place.inj hown')).1.symm,hd0⟩

theorem byteAt_putEntry (h : Stored sb D own blocks) (hi : i < sb.ninodes)
    (hind : (D i).addrs indirect ≠ 0) (hentry : addrOf blocks (D i) (.inr j) = 0) (ha : a < 2^32)
    (hheld : own a = .held) (hzero : blocks a = zeros) (hj' : j' < sb.ninodes) (hd : Sub d (D j'))
    (o : ℕ) :
    byteAt (putEntry blocks (D i) j a) d o = byteAt blocks d o := by
  have hown := indirect_owned h hi hind
  have hne : a ≠ ((D i).addrs indirect).toNat := by
    intro heq
    rw [← heq, hheld] at hown
    cases hown
  simp only [byteAt, addrOf_putEntry h hi hind ha hj' hd]
  by_cases hcase : j' = i ∧ placeOf (o/bsize) = .inr j ∧ d.addrs indirect ≠ 0
  · obtain ⟨rfl,hpl,hd0⟩ := hcase
    have hold : addrOf blocks d (.inr j) = 0 := by
      by_contra h0
      exact h0 ((addrOf_sub hd (.inr j) h0).trans hentry)
    have hget : putEntry blocks (D j') j a a = zeros := by
      rw [putEntry, update_of_ne hne, hzero]
    simp only [hpl, hold, hd0, ne_eq, not_false_eq_true, and_self, if_true, hget, get_zeros,
      ite_self]
  · rw [if_neg hcase]
    split_ifs with h0
    · rfl
    · have hx := owned_of_sub h hj' hd h0
      have hne' : addrOf blocks d (placeOf (o/bsize)) ≠ ((D i).addrs indirect).toNat := by
        intro heq
        rw [heq, hown] at hx
        exact placeOf_ne_indirect _ (Prod.mk.inj (Owner.place.inj hx)).2.symm
      rw [putEntry, update_of_ne hne']

theorem stored_putEntry (h : Stored sb D own blocks) (hi : i < sb.ninodes)
    (hind : (D i).addrs indirect ≠ 0) (hentry : addrOf blocks (D i) (.inr j) = 0) (ha : a < 2^32)
    (hheld : own a = .held) : Stored sb D (update own a (.place (i,.inr j)))
      (putEntry blocks (D i) j a) := by
  have hrange := placed_range h (indirect_owned h hi hind)
  apply stored_assign h hheld hi hentry
  · rw [addrOf_putEntry h hi hind ha hi (sub_refl _), if_pos ⟨rfl,rfl,hind⟩]
  · intro y hy hne
    rw [addrOf_putEntry h hi hind ha hy (sub_refl _), if_neg]
    exact fun hc => hne (Prod.ext hc.1 hc.2.1)
  · intro b hb
    have := bblock_lt hb
    exact bitOf_update_of_ne (by omega)
  · exact h.empty
  · exact h.size_le

end Entry

section GrowEntry
variable {sb : Superblock} {k : Fin ninode} {i : ℕ} {D : Inodes} {own : Owners} {s : Fs}

theorem grown_entry (hsb : Layout sb) (h : Stored sb D own s.blocks) (hi : i < sb.ninodes)
    (hcopy : (s.mem.itable k).copy = D i) (hind : (D i).addrs indirect ≠ 0) {j : Fin nindirect}
    (hentry : addrOf s.blocks (D i) (.inr j) = 0) {a : ℕ} (ha : own a = .free)
    (hsize : a < sb.size) : Grown sb k i D own s D (update own a (.place (i,.inr j)))
      ⟨putEntry (allocated sb s a).blocks (D i) j a,s.mem⟩ := by
  have ha32 : a < 2^32 := addr_lt hsb hsize
  have hst := stored_allocated h ha hsize
  have hheld : update own a .held a = (.held : Owner (ℕ × Place)) :=
    update_self a _ own
  have hentry' := (allocated_addrOf h ha hsize hi (sub_refl _) (.inr j)).trans hentry
  have hbyte : ∀ j', j' < sb.ninodes → ∀ d, Sub d (D j') → ∀ o,
      byteAt (putEntry (allocated sb s a).blocks (D i) j a) d o = byteAt s.blocks d o :=
    fun j' hj' d hd o =>
      (byteAt_putEntry hst hi hind hentry' ha32 hheld (allocated_self s a) hj' hd o).trans
        (allocated_byteAt h ha hsize hj' hd o)
  have hrange := placed_range h (indirect_owned h hi hind)
  constructor
  · have hidem : update (update own a .held) a (.place (i,.inr j)) =
        update own a (.place (i,.inr j)) := update_idem _ _ _
    rw [← hidem]
    exact stored_putEntry hst hi hind hentry' ha32 hheld
  · exact fun _ _ => rfl
  · rfl
  · exact sub_refl _
  · intro j' hj' pl h0
    have hold := allocated_addrOf h ha hsize hj' (sub_refl _) pl
    refine (addrOf_putEntry hst hi hind ha32 hj' (sub_refl _) pl).trans ((if_neg ?_).trans hold)
    rintro ⟨rfl,rfl,-⟩
    exact h0 hentry
  · exact hbyte
  · exact fun o => hbyte i hi _ (sub_refl _) o
  · intro j' hj'
    have := iblock_lt_data hsb hj'
    exact (diskInode_update_of_ne (by omega)).trans (allocated_diskInode hsb h ha hj')
  · exact fun b hb => update_lost hb nofun
  · exact fun b hb => update_lost hb nofun
  · exact (withCopy_self hcopy).symm

end GrowEntry

structure Open (sb : Superblock) (D : Inodes) (own : Owners) (s : Fs) (k : Fin ninode) (i : ℕ) :
    Prop where
  stored : Stored sb D own s.blocks
  inum_lt : i < sb.ninodes
  type_ne : (D i).type ≠ 0
  copy : (s.mem.itable k).copy = D i

def Keeps (A A' : Place → ℕ) : Prop := ∀ pl, A pl ≠ 0 → A' pl = A pl

/-- Every block of a list is in one of the places `pls`, or has the bit of a block
that was put into one. -/
def Covered (sb : Superblock) (pls : Set Place) (A A' : Place → ℕ) (l : List ℕ) : Prop :=
  ∀ b ∈ l, ∃ pl ∈ pls, b = A' pl ∧ A' pl ≠ 0 ∨ A pl = 0 ∧ A' pl ≠ 0 ∧ b = bblock sb (A' pl)

section Covered
variable {sb : Superblock} {pls pls' : Set Place} {A A₁ A₂ : Place → ℕ} {l l₁ l₂ : List ℕ}

theorem keeps_trans (h₁ : Keeps A A₁) (h₂ : Keeps A₁ A₂) : Keeps A A₂ := by
  intro pl h0
  have h := h₁ pl h0
  rw [h₂ pl (by rw [h]; exact h0), h]

theorem covered_nil : Covered sb pls A A₁ [] := nofun

theorem covered_mono (h : Covered sb pls A A₁ l) (hsub : pls ⊆ pls') : Covered sb pls' A A₁ l := by
  intro b hb
  obtain ⟨pl,hpl,hcase⟩ := h b hb
  exact ⟨pl,hsub hpl,hcase⟩

theorem covered_union (h₁ : Covered sb pls A A₁ l₁) (h₂ : Covered sb pls A A₁ l₂) :
    Covered sb pls A A₁ (l₁++l₂) := by
  intro b hb
  rcases List.mem_append.mp hb with hb | hb
  · exact h₁ b hb
  · exact h₂ b hb

theorem covered_found {pl : Place} {a : ℕ} (hpl : pl ∈ pls) (heq : A₁ pl = a) (h0 : a ≠ 0) :
    Covered sb pls A A₁ [a] := by
  intro b hb
  rw [List.mem_singleton.mp hb]
  exact ⟨pl,hpl,.inl ⟨heq.symm,heq ▸ h0⟩⟩

theorem covered_append (hk₁ : Keeps A A₁) (hk₂ : Keeps A₁ A₂) (h₁ : Covered sb pls A A₁ l₁)
    (h₂ : Covered sb pls A₁ A₂ l₂) : Covered sb pls A A₂ (l₁++l₂) := by
  intro b hb
  rcases List.mem_append.mp hb with hb | hb
  · obtain ⟨pl,hpl,hcase⟩ := h₁ b hb
    refine ⟨pl,hpl,?_⟩
    rcases hcase with ⟨heq,h0⟩ | ⟨hz,h0,heq⟩
    · rw [hk₂ pl h0]
      exact .inl ⟨heq,h0⟩
    · rw [hk₂ pl h0]
      exact .inr ⟨hz,h0,heq⟩
  · obtain ⟨pl,hpl,hcase⟩ := h₂ b hb
    refine ⟨pl,hpl,hcase.imp_right (fun ⟨hz,hrest⟩ => ⟨?_,hrest⟩)⟩
    by_contra h0
    exact h0 ((hk₁ pl h0).symm.trans hz)

end Covered

structure Mapped (sb : Superblock) (k : Fin ninode) (i : ℕ) (pl : Place) (D : Inodes)
    (own : Owners) (s : Fs) (a : ℕ) (D' : Inodes) (own' : Owners) (s' : Fs) : Prop where
  grown : Grown sb k i D own s D' own' s'
  addr : a ≠ 0 → addrOf s'.blocks (D' i) pl = a
  found : addrOf s.blocks (D i) pl ≠ 0 → a ≠ 0 ∧ s' = s ∧ D' = D ∧ own' = own
  full : a = 0 → Full sb s'.blocks

structure MapLog (sb : Superblock) (k : Fin ninode) (i : ℕ) (pls : Set Place) (pl : Place)
    (D : Inodes) (own : Owners) (s : Fs) (a : ℕ) (D' : Inodes) (own' : Owners) (s' : Fs)
    (l : List ℕ) : Prop where
  mapped : Mapped sb k i pl D own s a D' own' s'
  covered : Covered sb pls (addrOf s.blocks (D i)) (addrOf s'.blocks (D' i)) l

section Bmap
variable {sb : Superblock} {k : Fin ninode} {i : ℕ} {D D' : Inodes} {own own' : Owners}
variable {s s' : Fs} {env : Env} {E : String → Prop}

theorem open_grown (h : Open sb D own s k i) (hg : Grown sb k i D own s D' own' s') :
    Open sb D' own' s' k i where
  stored := hg.stored
  inum_lt := h.inum_lt
  type_ne := by
    rw [hg.fields]
    exact h.type_ne
  copy := grown_copy hg

variable {pl : Place} {a bn : ℕ} {Q : ℕ → Fs → List ℕ → Prop}

theorem mapped_found (h : Open sb D own s k i) (ha : addrOf s.blocks (D i) pl = a)
    (h0 : a ≠ 0) : Mapped sb k i pl D own s a D own s where
  grown := grown_refl h.stored h.copy
  addr := fun _ => ha
  found := fun _ => ⟨h0,rfl,rfl,rfl⟩
  full := fun hz => absurd hz h0

theorem mapped_full (h : Open sb D own s k i) (ha : addrOf s.blocks (D i) pl = 0)
    (hfull : Full sb s.blocks) : Mapped sb k i pl D own s 0 D own s where
  grown := grown_refl h.stored h.copy
  addr := fun h0 => absurd rfl h0
  found := fun h0 => absurd ha h0
  full := fun _ => hfull

theorem keeps_grown (hi : i < sb.ninodes) (h : Grown sb k i D own s D' own' s') :
    Keeps (addrOf s.blocks (D i)) (addrOf s'.blocks (D' i)) := h.keep i hi

theorem covered_filled {pls : Set Place} (hpl : pl ∈ pls) (hz : addrOf s.blocks (D i) pl = 0)
    (haddr : addrOf s'.blocks (D' i) pl = a) (ha : a ≠ 0) :
    Covered sb pls (addrOf s.blocks (D i)) (addrOf s'.blocks (D' i)) [bblock sb a,a] := by
  intro b hb
  refine ⟨pl,hpl,?_⟩
  rw [haddr]
  rcases List.mem_cons.mp hb with rfl | hb
  · exact .inr ⟨hz,ha,rfl⟩
  · exact .inl ⟨List.mem_singleton.mp hb,ha⟩

theorem wpt_bmapSlot (hsb : Layout sb) (h : Open sb D own s k i) {sl : Fin (ndirect+1)}
    (hQ : ∀ a D' own' s' l, MapLog sb k i {.inl sl} (.inl sl) D own s a D' own' s' l → Q a s' l) :
    wpt (handle env) logged E (bmapSlot sb k sl) Q s := by
  rw [bmapSlot, wpt_silent_bind (silent_getInode k), wp_getInode, h.copy]
  apply wpt_ite
  · intro hempty
    have hzero : addrOf s.blocks (D i) (.inl sl) = 0 := by
      rw [addrOf, hempty]
      rfl
    rw [wpt_bind]
    apply wpt_balloc
    · intro hfull
      rw [if_pos rfl, wpt_pure]
      exact hQ 0 D own s [] ⟨mapped_full h hzero hfull,covered_nil⟩
    · intro a hsize hbit
      have hfree := free_of_bit h.stored hsize hbit
      have ha0 := data_ne_zero (free_data h.stored hfree)
      have hgrown := grown_slot (k := k) hsb h.stored h.inum_lt h.type_ne hempty hfree hsize
      rw [if_neg ha0, wpt_silent_bind (silent_modifyCopy k _), wp_modifyCopy, wpt_pure]
      have hcopy : ((allocated sb s a).mem.itable k).copy = D i := h.copy
      rw [hcopy]
      have haddr : addrOf (allocated sb s a).blocks
          (update D i (setAddrs sl (BitVec.ofNat 32 a) (D i)) i) (.inl sl) = a := by
        rw [update_self, addrOf, setAddrs_same, toNat_addr (addr_lt hsb hsize)]
      exact hQ a _ _ _ _ ⟨⟨hgrown,fun _ => haddr,fun h0 => absurd hzero h0,
        fun hz => absurd hz ha0⟩,covered_filled rfl hzero haddr ha0⟩
  · intro hne
    rw [wpt_pure]
    exact hQ _ D own s [] ⟨mapped_found h rfl (fun hz => hne (BitVec.eq_of_toNat_eq hz)),
      covered_nil⟩

theorem wpt_bmapIndirect (hsb : Layout sb) (h : Open sb D own s k i)
    (hind : (D i).addrs indirect ≠ 0) (j : Fin nindirect)
    (hQ : ∀ a D' own' s' l, MapLog sb k i {.inl indirect,.inr j} (.inr j) D own s a D' own' s'
      l → Q a s' l) :
    wpt (handle env) logged E (bmapIndirect sb ((D i).addrs indirect).toNat j.val) Q s := by
  have haddr : addrOf s.blocks (D i) (.inr j) =
      (getAddr (s.blocks ((D i).addrs indirect).toNat) j.val).toNat := if_neg hind
  rw [bmapIndirect, wpt_silent_bind (silent_bread _), wp_bread]
  apply wpt_ite
  · intro hempty
    have hzero : addrOf s.blocks (D i) (.inr j) = 0 := by
      rw [haddr, hempty]
      rfl
    rw [wpt_bind]
    apply wpt_balloc
    · intro hfull
      rw [if_pos rfl, wpt_silent_bind (silent_brelse _), wp_brelse, wpt_pure]
      exact hQ 0 D own s [] ⟨mapped_full h hzero hfull,covered_nil⟩
    · intro a hsize hbit
      have hfree := free_of_bit h.stored hsize hbit
      have ha0 := data_ne_zero (free_data h.stored hfree)
      have hgrown := grown_entry hsb h.stored h.inum_lt h.copy hind hzero hfree hsize
      have hown := indirect_owned h.stored h.inum_lt hind
      have hdata : (allocated sb s a).blocks ((D i).addrs indirect).toNat =
          s.blocks ((D i).addrs indirect).toNat := by
        have hrange := placed_range h.stored hown
        have hblk := bblock_lt hsize
        have hne : ((D i).addrs indirect).toNat ≠ a := by
          intro heq
          rw [heq, hfree] at hown
          cases hown
        exact (update_of_ne hne _ _).trans (update_of_ne (by omega) _ _)
      rw [if_neg ha0, wpt_silent_bind (silent_setData _ _), wp_setData, wpt_bind, wpt_logWrite,
        wpt_silent_bind (silent_brelse _), wp_brelse, wpt_pure]
      rw [putEntry, hdata] at hgrown
      have hset : addrOf (update (allocated sb s a).blocks ((D i).addrs indirect).toNat
          (putAddr (s.blocks ((D i).addrs indirect).toNat) j.val (BitVec.ofNat 32 a))) (D i)
          (.inr j) = a :=
        (addrOf_putAddr hind (addr_lt hsb hsize) hdata.symm _).trans (if_pos rfl)
      have hind0 : addrOf s.blocks (D i) (.inl indirect) ≠ 0 :=
        fun hz => hind (BitVec.eq_of_toNat_eq hz)
      have hpl : (.inr j : Place) ∈ ({.inl indirect,.inr j} : Set Place) := by simp
      have hpl' : (.inl indirect : Place) ∈ ({.inl indirect,.inr j} : Set Place) := by simp
      have hkeep := keeps_grown h.inum_lt hgrown _ hind0
      exact hQ a D _ _ _ ⟨⟨hgrown,fun _ => hset,fun h0 => absurd hzero h0,
        fun hz => absurd hz ha0⟩,
        covered_union (covered_filled hpl hzero hset ha0) (covered_found hpl' hkeep hind0)⟩
  · intro hne
    have h0 : addrOf s.blocks (D i) (.inr j) ≠ 0 :=
      haddr ▸ fun hz => hne (BitVec.eq_of_toNat_eq hz)
    rw [wpt_silent_bind (silent_brelse _), wp_brelse, wpt_pure]
    exact hQ _ D own s [] ⟨mapped_found h haddr (haddr ▸ h0),covered_nil⟩

theorem wpt_bmap (hsb : Layout sb) (h : Open sb D own s k i) (hbn : bn < maxfile)
    (hQ : ∀ a D' own' s' l,
      MapLog sb k i {.inl indirect,placeOf bn} (placeOf bn) D own s a D' own' s' l → Q a s' l) :
    wpt (handle env) logged E (bmap sb k bn) Q s := by
  have hmax : maxfile = ndirect+nindirect := rfl
  rw [bmap]
  apply wpt_ite
  · intro hdirect
    rw [placeOf, if_pos hdirect] at hQ
    apply wpt_bmapSlot hsb h
    intro a D' own' s' l hlog
    exact hQ a D' own' s' l ⟨hlog.mapped,covered_mono hlog.covered (by simp)⟩
  · intro hnot
    rw [placeOf, if_neg hnot] at hQ
    rw [if_pos (by omega), wpt_bind]
    apply wpt_bmapSlot hsb h
    intro ind D₁ own₁ s₁ l₁ hlog
    have hmap := hlog.mapped
    have hopen := open_grown h hmap.grown
    have hcov : Covered sb {.inl indirect,.inr (Fin.ofNat nindirect (bn-ndirect))} _ _ l₁ :=
      covered_mono hlog.covered (by simp)
    apply wpt_ite
    · intro hfull
      have hzero : addrOf s.blocks (D i) (.inl indirect) = 0 := by
        by_contra h0
        exact (hmap.found h0).1 hfull
      have hnone := addrOf_inr_zero hzero (Fin.ofNat nindirect (bn-ndirect))
      rw [wpt_pure, List.append_nil]
      exact hQ 0 D₁ own₁ s₁ l₁ ⟨⟨hmap.grown,fun h0 => absurd rfl h0,fun h0 => absurd hnone h0,
        fun _ => hmap.full hfull⟩,hcov⟩
    · intro hne
      have haddr := hmap.addr hne
      have hind : (D₁ i).addrs indirect ≠ 0 := by
        intro hz
        rw [addrOf, hz] at haddr
        exact hne haddr.symm
      have hval : (Fin.ofNat nindirect (bn-ndirect)).val = bn-ndirect :=
        Nat.mod_eq_of_lt (by omega)
      rw [← haddr, ← hval]
      apply wpt_bmapIndirect hsb hopen hind
      intro a D₂ own₂ s₂ l₂ hlog₂
      have hmap₂ := hlog₂.mapped
      refine hQ a D₂ own₂ s₂ (l₁++l₂) ⟨⟨grown_trans hmap.grown hmap₂.grown,hmap₂.addr,
        fun h0 => ?_,hmap₂.full⟩,covered_append (keeps_grown h.inum_lt hmap.grown)
        (keeps_grown h.inum_lt hmap₂.grown) hcov hlog₂.covered⟩
      have hind0 : addrOf s.blocks (D i) (.inl indirect) ≠ 0 :=
        fun hz => h0 (addrOf_inr_zero hz _)
      obtain ⟨-,rfl,rfl,rfl⟩ := hmap.found hind0
      exact hmap₂.found h0

theorem wp_bmap (hsb : Layout sb) (h : Open sb D own s k i) (hbn : bn < maxfile) {Q : ℕ → Fs → Prop}
    (hQ : ∀ a D' own' s', Mapped sb k i (placeOf bn) D own s a D' own' s' → Q a s') :
    wp (handle env) E (bmap sb k bn) Q s :=
  wp_of_wpt (wpt_bmap hsb h hbn (fun a D' own' s' _ hlog => hQ a D' own' s' hlog.mapped))

end Bmap

end GreenOS.FsMap
