import GreenOS.FsContent

/-!
# Updating and truncating inodes

`iupdate` stores the in-memory inode on disk and changes no other inode and no
content. `writei` ends with it. `itrunc` gives back every block of the inode,
and no other block.
-/

namespace GreenOS.FsInodes
open Programs ProgramTraces ByteBlock LogCode DiskLayout
open BufferSeq (Env)
open FsMemory FsCode FsDirect Ownership FsOwned
open FsBlocks FsMap FsNames FsContent
open Function (update update_self update_of_ne)

def inodeWritten (sb : Superblock) (s : Fs) (i : ℕ) (d : Dinode) : Fs :=
  setBlock s (iblock sb i) (putDinode (s.blocks (iblock sb i)) (i%ipb) d)

/-- The state with inode `i`, cached in entry `k`, changed to `d` in memory and on
disk. -/
def inodeSaved (sb : Superblock) (s : Fs) (k : Fin ninode) (i : ℕ) (d : Dinode) : Fs :=
  inodeWritten sb (setMem s (withCopy s.mem k d)) i d

variable {sb : Superblock} {env : Env} {E : String → Prop} {s : Fs} {k : Fin ninode}
variable {blocks : Blocks} {d e : Dinode}

theorem wp_iupdate {Q : Unit → Fs → Prop} : wp (handle env) E (iupdate sb k) Q s ↔
      Q () (inodeWritten sb s (s.mem.itable k).inum (s.mem.itable k).copy) := wp_def _ _ _

theorem wpt_iupdate {Q : Unit → Fs → List ℕ → Prop} : wpt (handle env) logged E (iupdate sb k) Q s ↔
      Q () (inodeWritten sb s (s.mem.itable k).inum (s.mem.itable k).copy)
        [iblock sb (s.mem.itable k).inum] := wp_def _ _ _

theorem addrOf_congr (h : d.addrs = e.addrs) (pl : Place) :
    addrOf blocks d pl = addrOf blocks e pl := by
  cases pl <;> simp only [addrOf, h]

theorem byteAt_congr (h : d.addrs = e.addrs) (o : ℕ) :
    byteAt blocks d o = byteAt blocks e o := by
  simp only [byteAt, addrOf_congr h]

section Saved
variable {sb : Superblock} {D : Inodes} {own : Owners} {s : Fs} {i : ℕ}

theorem inodeWritten_disk (i j : ℕ) (d : Dinode) :
    diskInode sb (inodeWritten sb s i d).blocks j =
      if j = i then d else diskInode sb s.blocks j := diskInode_putDinode i j d

theorem inodeWritten_mem (d : Dinode) : (inodeWritten sb s i d).mem = s.mem := rfl

theorem stored_inodeWritten (hsb : Layout sb) (h : Stored sb D own s.blocks) (hi : i < sb.ninodes)
    (d : Dinode) : Stored sb D own (inodeWritten sb s i d).blocks where
  tracks := tracks_unplaced h (reserved_unplaced h (iblock_lt_data hsb hi)) _
  reserved := h.reserved
  below := h.below
  bits := fun b hb => by
    rw [inodeWritten, setBlock, bitOf_update_of_ne (iblock_ne_bblock hsb hi).symm]
    exact h.bits b hb
  empty := h.empty
  size_le := h.size_le

variable {d e : Dinode} {j : ℕ}

theorem inodeWritten_addrOf (hsb : Layout sb) (h : Stored sb D own s.blocks) (hi : i < sb.ninodes)
    (hj : j < sb.ninodes) (he : Sub e (D j)) (pl : Place) :
    addrOf (inodeWritten sb s i d).blocks e pl = addrOf s.blocks e pl :=
  addrOf_unplaced h hj he (reserved_unplaced h (iblock_lt_data hsb hi)) _ pl

theorem inodeWritten_byteAt (hsb : Layout sb) (h : Stored sb D own s.blocks) (hi : i < sb.ninodes)
    (hj : j < sb.ninodes) (he : Sub e (D j)) (o : ℕ) :
    byteAt (inodeWritten sb s i d).blocks e o = byteAt s.blocks e o :=
  byteAt_unplaced h hj he (reserved_unplaced h (iblock_lt_data hsb hi)) _ o

theorem stored_fields {blocks : Blocks} (h : Stored sb D own blocks)
    (haddrs : d.addrs = (D i).addrs) (htype : d.type ≠ 0 ∨ ∀ k, d.addrs k = 0)
    (hsize : d.size.toNat ≤ maxfile*bsize) : Stored sb (update D i d) own blocks where
  tracks := tracks_congr h.tracks (fun x _ => by
    by_cases hx : x.1 = i
    · rw [hx, update_self, addrOf_congr haddrs]
    · rw [update_of_ne hx])
  reserved := h.reserved
  below := h.below
  bits := h.bits
  empty := fun j hj ht => by
    by_cases hji : j = i
    · rw [hji, update_self] at ht ⊢
      exact htype.resolve_left (fun hne => hne ht)
    · rw [update_of_ne hji] at ht ⊢
      exact h.empty j hj ht
  size_le := fun j hj => by
    by_cases hji : j = i
    · rw [hji, update_self]
      exact hsize
    · rw [update_of_ne hji]
      exact h.size_le j hj

end Saved

section Writei
variable {sb : Superblock} {k : Fin ninode} {i : ℕ} {D D' : Inodes} {own own' : Owners}
variable {s s' : Fs} {env : Env} {E : String → Prop}

theorem wrote_save (hsb : Layout sb) {lo hi : ℕ} (hi' : i < sb.ninodes)
    (h : Wrote sb k i lo hi D own s D' own' s') {d : Dinode} (haddrs : d.addrs = (D' i).addrs)
    (hd : d = { D i with size := d.size, addrs := d.addrs }) (htype : (D i).type ≠ 0)
    (hsize : d.size.toNat ≤ maxfile*bsize) :
    Wrote sb k i lo hi D own s (update D' i d) own' (inodeSaved sb s' k i d) := by
  have hst := stored_inodeWritten (s := setMem s' (withCopy s'.mem k d)) hsb h.stored hi' d
  have haddr : ∀ j, j < sb.ninodes → ∀ pl, addrOf (inodeSaved sb s' k i d).blocks
      (update D' i d j) pl = addrOf s'.blocks (D' j) pl := by
    intro j hj pl
    refine (inodeWritten_addrOf hsb (stored_fields h.stored haddrs (.inl ?_) hsize) hi' hj
      (sub_refl _) pl).trans ?_
    · rw [hd]
      exact htype
    · by_cases hji : j = i
      · rw [hji, update_self]
        exact addrOf_congr haddrs pl
      · rw [update_of_ne hji]
  constructor
  · apply stored_fields hst haddrs _ hsize
    rw [hd]
    exact .inl htype
  · intro j hj
    rw [update_of_ne hj]
    exact h.other j hj
  · rw [update_self]
    exact hd
  · intro j hj pl h0
    exact (haddr j hj pl).trans (h.keep j hj pl h0)
  · intro j hj hji e he o
    have he' : Sub e (D' j) := by
      rw [h.other j hji]
      exact he
    exact (inodeWritten_byteAt hsb h.stored hi' hj he' o).trans (h.frame j hj hji e he o)
  · intro o hmax ho
    rw [update_self, byteAt_congr haddrs]
    exact (inodeWritten_byteAt hsb h.stored hi' hi' (sub_refl _) o).trans (h.bytes o hmax ho)
  · intro j hj hji
    exact (inodeWritten_disk i j d).trans ((if_neg hji).trans (h.disk j hj hji))
  · exact h.lost
  · exact h.held
  · rw [update_self]
    show withCopy s'.mem k d = withCopy s.mem k d
    rw [h.mem, withCopy_withCopy]

structure WriteDone (sb : Superblock) (k : Fin ninode) (i : ℕ) (src : Src) (off n t : ℕ)
    (D : Inodes) (own : Owners) (s : Fs) (D' : Inodes) (own' : Owners) (s' : Fs) : Prop where
  wrote : Wrote sb k i off (off+n) D own s D' own' s'
  synced : diskInode sb s'.blocks i = D' i
  size : (D' i).size.toNat = max (D i).size.toNat (off+t)
  le : t ≤ n
  start : off ≤ (D i).size.toNat
  room : off+n ≤ maxfile*bsize
  cut : ∀ bytes, src = .kernel bytes → t = 0 ∨ t = n ∨ (off+t)%bsize = 0
  kernel : ∀ bytes, src = .kernel bytes → Wrote sb k i off (off+t) D own s D' own' s' ∧
    ∀ j, j < t → byteAt s'.blocks (D' i) (off+j) = bytes.getD j 0
  filled : Dense s'.blocks (D' i) off t
  full : ∀ bytes, src = .kernel bytes → t < n → Full sb s'.blocks

variable {src : Src} {off n : ℕ}

theorem wpt_writei (hsb : Layout sb) (h : Open sb D own s k i) (hinum : (s.mem.itable k).inum = i)
    (hlen : ∀ l, src = .kernel l → n ≤ l.length) {Q : ℤ → Fs → List ℕ → Prop}
    (hbad : (D i).size.toNat < off ∨ (off+n)%2^32 < off ∨ maxfile*bsize < off+n → Q (-1) s [])
    (hQ : ∀ t D' own' s' l, WriteDone sb k i src off n t D own s D' own' s' →
      Covered sb (touched off n) (addrOf s.blocks (D i)) (addrOf s'.blocks (D' i)) l →
      Q t s' (l++[iblock sb i])) :
    wpt (handle env) logged E (writei sb k src off n) Q s := by
  have hmax : maxfile*bsize < 2^32 := by decide
  rw [writei, wpt_silent_bind (silent_getInode k), wp_getInode, h.copy]
  apply wpt_ite
  · exact fun hout => wpt_pure.mpr (hbad (hout.imp_right .inl))
  · intro hstart
    apply wpt_ite
    · exact fun hout => wpt_pure.mpr (hbad (.inr (.inr hout)))
    · intro hroom
      push Not at hstart hroom
      rw [wpt_bind]
      apply wpt_writeLoop hsb h (Nat.zero_le n) (by omega) (by omega) hlen
      intro t D₁ own₁ s₁ l hto hcov
      rw [Nat.sub_zero] at hto hcov
      have ht := hto.le
      have hopen := open_wrote h hto.wrote
      have hinum₁ : (s₁.mem.itable k).inum = i := by
        rw [hto.wrote.mem]
        simp [withCopy, setInode, hinum]
      rw [Nat.zero_add, wpt_silent_bind (silent_getInode k), wp_getInode, hopen.copy, hto.size]
      have hsave : ∀ z : BitVec 32, z.toNat = max (D i).size.toNat (off+t) →
          Q t (inodeSaved sb s₁ k i { D₁ i with size := z }) (l++[iblock sb i]) := by
        intro z hz
        have hzmax : z.toNat ≤ maxfile*bsize := by
          have := h.stored.size_le i h.inum_lt
          omega
        have hd : ({ D₁ i with size := z } : Dinode) = { D i with
            size := z
            addrs := (D₁ i).addrs } := by rw [hto.wrote.fields]
        have haddr : addrOf (inodeSaved sb s₁ k i { D₁ i with size := z }).blocks
            (update D₁ i { D₁ i with size := z } i) = addrOf s₁.blocks (D₁ i) := by
          funext pl
          rw [update_self]
          exact (addrOf_congr (e := D₁ i) rfl pl).trans
            (inodeWritten_addrOf hsb hto.wrote.stored h.inum_lt h.inum_lt (sub_refl _) pl)
        apply hQ t (update D₁ i { D₁ i with size := z }) own₁ _ l _
          (by rw [haddr]; exact hcov)
        refine ⟨wrote_save hsb h.inum_lt hto.wrote rfl hd h.type_ne hzmax,?_,?_,ht,hstart.1,hroom,
          hto.cut,fun l hl => ?_,fun o hlo hhi => ?_,fun l hl hlt b hb => ?_⟩
        · exact (inodeWritten_disk i i _).trans (by rw [if_pos rfl, update_self])
        · rw [update_self]
          exact hz
        · obtain ⟨hw,hread⟩ := hto.kernel l hl
          refine ⟨wrote_save hsb h.inum_lt hw rfl hd h.type_ne hzmax,fun j hj => ?_⟩
          have hj' := hread j hj
          rw [Nat.zero_add] at hj'
          rw [update_self]
          refine (byteAt_congr (e := D₁ i) rfl _).trans ?_
          exact (inodeWritten_byteAt hsb hw.stored h.inum_lt h.inum_lt (sub_refl _) _).trans hj'
        · rw [haddr]
          exact hto.filled o hlo hhi
        · exact (bitOf_update_of_ne (iblock_ne_bblock hsb h.inum_lt).symm).trans
            (hto.full l hl hlt b hb)
      apply wpt_ite
      · intro hlt
        rw [wpt_silent_bind (silent_modifyCopy k _), wp_modifyCopy, wpt_bind, wpt_iupdate, wpt_pure]
        have hz : (BitVec.ofNat 32 (off+t)).toNat = max (D i).size.toNat (off+t) := by
          rw [toNat_addr (by omega)]
          omega
        have := hsave _ hz
        simpa [inodeSaved, setMem, withCopy, setInode, hinum₁, hopen.copy] using this
      · intro hge
        rw [wpt_bind, wpt_iupdate, wpt_pure, hinum₁, hopen.copy]
        have := hsave (D₁ i).size (by rw [hto.size]; omega)
        rw [inodeSaved, withCopy_self (d := _) hopen.copy] at this
        exact this

theorem wp_writei (hsb : Layout sb) (h : Open sb D own s k i) (hinum : (s.mem.itable k).inum = i)
    (hlen : ∀ l, src = .kernel l → n ≤ l.length) {Q : ℤ → Fs → Prop}
    (hbad : (D i).size.toNat < off ∨ (off+n)%2^32 < off ∨ maxfile*bsize < off+n → Q (-1) s)
    (hQ : ∀ t D' own' s', WriteDone sb k i src off n t D own s D' own' s' → Q t s') :
    wp (handle env) E (writei sb k src off n) Q s :=
  wp_of_wpt (wpt_writei hsb h hinum hlen hbad (fun t D' own' s' _ hw _ => hQ t D' own' s' hw))

end Writei

end GreenOS.FsInodes
