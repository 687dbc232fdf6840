import GreenOS.FsMap
import GreenOS.FsNames

/-!
# Reading and writing the content of an inode

`readi` returns the bytes of the content and may fill holes with zero blocks.
`writei` changes the bytes of the range it is given and no others, also when
the disk is full or the source cannot be read to its end.
-/

namespace GreenOS.FsContent
open Programs ProgramTraces ByteBlock LogCode DiskLayout
open BufferSeq (Env)
open FsMemory FsCode FsDirect Ownership FsOwned
open FsBlocks FsMap FsNames

def content (blocks : Blocks) (d : Dinode) (off n : ℕ) : List UInt8 :=
  (List.range n).map (fun j => byteAt blocks d (off+j))

section Content
variable {blocks blocks' : Blocks} {d d' : Dinode}

theorem content_append (off n m : ℕ) :
    content blocks d off (n+m) = content blocks d off n ++ content blocks d (off+n) m := by
  simp [content, List.range_add, Function.comp_def, add_assoc]

theorem content_zero (off : ℕ) : content blocks d off 0 = [] := rfl

theorem content_congr (h : ∀ o, byteAt blocks' d' o = byteAt blocks d o) (off n : ℕ) :
    content blocks' d' off n = content blocks d off n := by
  simp only [content, h]

variable {a off : ℕ}

theorem byteAt_block {j : ℕ} (ha : addrOf blocks d (placeOf (off/bsize)) = a) (h0 : a ≠ 0)
    (hj : off%bsize+j < bsize) : byteAt blocks d (off+j) = get (blocks a) (off%bsize+j) := by
  have hb : bsize = 1024 := rfl
  have hdiv : (off+j)/bsize = off/bsize := by
    simp only [hb] at hj ⊢
    omega
  have hmod : (off+j)%bsize = off%bsize+j := by
    simp only [hb] at hj ⊢
    omega
  rw [byteAt, hdiv, hmod, ha, if_neg h0]

theorem window_content {m : ℕ} (ha : addrOf blocks d (placeOf (off/bsize)) = a) (h0 : a ≠ 0)
    (hm : off%bsize+m ≤ bsize) : window (blocks a) (off%bsize) m = content blocks d off m := by
  apply List.map_congr_left
  intro j hj
  have := List.mem_range.mp hj
  exact (byteAt_block ha h0 (by omega)).symm

end Content

section Read
variable {sb : Superblock} {k : Fin ninode} {i : ℕ} {D : Inodes} {own : Owners} {s : Fs}
variable {env : Env} {E : String → Prop}

variable {dst : Dst} {tot off n : ℕ} {Q : ℤ × List UInt8 → Fs → Prop}

theorem wp_eitherCopyout {bytes : List UInt8} {Q : Bool → Fs → Prop} (hok : Q true s)
    (hbad : dst ≠ .kernel → Q false s) :
    wp (handle env) E (eitherCopyout dst tot bytes) Q s := by
  cases dst with
  | kernel => exact wp_pure.mpr hok
  | user addr =>
    rw [eitherCopyout, wp_copyout]
    cases env.copyout (addr+BitVec.ofNat 64 tot) bytes with
    | true => exact hok
    | false => exact hbad nofun

def Dense (blocks : Blocks) (d : Dinode) (off n : ℕ) : Prop :=
  ∀ o, off ≤ o → o < off+n → addrOf blocks d (placeOf (o/bsize)) ≠ 0

theorem dense_tail {blocks : Blocks} {d : Dinode} {m : ℕ} (h : Dense blocks d off n)
    (hm : m ≤ n) : Dense blocks d (off+m) (n-m) :=
  fun o ho hlt => h o (by omega) (by omega)

/-- What a read that stopped after `t` of `n` bytes from `off` on has done. -/
structure ReadTo (sb : Superblock) (k : Fin ninode) (i : ℕ) (dst : Dst) (off n t : ℕ) (r : ℤ)
    (D : Inodes) (own : Owners) (s : Fs) (D' : Inodes) (own' : Owners) (s' : Fs) : Prop where
  grown : Grown sb k i D own s D' own' s'
  le : t ≤ n
  dense : Dense s.blocks (D i) off n → s' = s ∧ D' = D ∧ own' = own ∧ (dst = .kernel → t = n)
  failed : r = -1 → dst ≠ .kernel

theorem readTo_stop {r : ℤ} {D' : Inodes} {own' : Owners} {s' : Fs}
    (hg : Grown sb k i D own s D' own' s')
    (hd : Dense s.blocks (D i) off n → n = 0 ∧ s' = s ∧ D' = D ∧ own' = own) (hr : r ≠ -1) :
    ReadTo sb k i dst off n 0 r D own s D' own' s' where
  grown := hg
  le := Nat.zero_le _
  dense := fun hdense => by
    obtain ⟨hn,hs,hD,hown⟩ := hd hdense
    exact ⟨hs,hD,hown,fun _ => hn.symm⟩
  failed := fun h => absurd h hr

theorem wp_readLoop (hsb : Layout sb) {left : ℕ} {acc : List UInt8} (h : Open sb D own s k i)
    (htot : tot ≤ n) (hoff : off+(n-tot) ≤ maxfile*bsize) (hfuel : n ≤ tot+left)
    (hQ : ∀ t r D' own' s', ReadTo sb k i dst off (n-tot) t r D own s D' own' s' →
      r = ↑(tot+t) ∨ r = -1 → Q (r,acc ++ content s.blocks (D i) off t) s') :
    wp (handle env) E (readLoop sb k dst n left tot off acc) Q s := by
  induction left generalizing tot off acc D own s with
  | zero =>
    have hstop := hQ 0 tot D own s (readTo_stop (grown_refl h.stored h.copy)
      (fun _ => ⟨by omega,rfl,rfl,rfl⟩) (by omega)) (.inl rfl)
    rw [content_zero, List.append_nil] at hstop
    exact wp_pure.mpr hstop
  | succ left ih =>
    rw [readLoop]
    apply wp_ite
    · intro hlt
      have hbn : off/bsize < maxfile := by
        rw [Nat.div_lt_iff_lt_mul (by decide)]
        omega
      rw [wp_bind]
      apply wp_bmap hsb h hbn
      intro a D₁ own₁ s₁ hmap
      have hdense : Dense s.blocks (D i) off (n-tot) → a ≠ 0 ∧ s₁ = s ∧ D₁ = D ∧ own₁ = own :=
        fun hd => hmap.found (hd off (le_refl _) (by omega))
      apply wp_ite
      · intro ha
        have hstop := hQ 0 tot D₁ own₁ s₁ (readTo_stop hmap.grown
          (fun hd => absurd ha (hdense hd).1) (by omega)) (.inl rfl)
        rw [content_zero, List.append_nil] at hstop
        exact wp_pure.mpr hstop
      · intro ha
        have hmod := Nat.mod_lt off (show 0 < bsize by decide)
        rw [wp_bind, wp_bread]
        dsimp only
        obtain ⟨m,hm⟩ : ∃ m, m = min (n-tot) (bsize-off%bsize) := ⟨_,rfl⟩
        rw [← hm, window_content (hmap.addr ha) ha (by omega), content_congr hmap.grown.bytes,
          wp_bind]
        apply wp_eitherCopyout
        · rw [wp_bind, wp_brelse, if_pos rfl]
          apply ih (open_grown h hmap.grown) (by omega) (by omega) (by omega)
          intro t r D' own' s' hread hr
          have hbytes : acc ++ content s.blocks (D i) off m ++
              content s₁.blocks (D₁ i) (off+m) t = acc ++ content s.blocks (D i) off (m+t) := by
            rw [content_congr hmap.grown.bytes, content_append, List.append_assoc]
          rw [hbytes]
          apply hQ (m+t) r D' own' s'
          · refine ⟨grown_trans hmap.grown hread.grown,by have := hread.le; omega,fun hd => ?_,
              hread.failed⟩
            obtain ⟨-,rfl,rfl,rfl⟩ := hdense hd
            obtain ⟨hs,hD,hown,ht⟩ := hread.dense (by
              have := dense_tail hd (m := m) (by omega)
              rwa [Nat.sub_sub] at this)
            exact ⟨hs,hD,hown,fun hk => by have := ht hk; omega⟩
          · rwa [← add_assoc]
        · intro hk
          rw [wp_bind, wp_brelse, if_neg (by decide)]
          have hstop := hQ 0 (-1) D₁ own₁ s₁ ⟨hmap.grown,Nat.zero_le _,fun hd =>
            ⟨(hdense hd).2.1,(hdense hd).2.2.1,(hdense hd).2.2.2,fun h => absurd h hk⟩,
            fun _ => hk⟩ (.inr rfl)
          rw [content_zero, List.append_nil] at hstop
          exact wp_pure.mpr hstop
    · intro hge
      have hstop := hQ 0 tot D own s (readTo_stop (grown_refl h.stored h.copy)
        (fun _ => ⟨by omega,rfl,rfl,rfl⟩) (by omega)) (.inl rfl)
      rw [content_zero, List.append_nil] at hstop
      exact wp_pure.mpr hstop

theorem wp_readi (hsb : Layout sb) (h : Open sb D own s k i)
    (hnone : (D i).size.toNat < off ∨ (off+n)%2^32 < off → Q (0,[]) s)
    (hQ : ∀ m t r D' own' s', off+m ≤ (D i).size.toNat →
      (off+n ≤ (D i).size.toNat → m = n) → m ≤ n →
      ReadTo sb k i dst off m t r D own s D' own' s' → r = ↑t ∨ r = -1 →
      Q (r,content s.blocks (D i) off t) s') :
    wp (handle env) E (readi sb k dst off n) Q s := by
  have hsize := h.stored.size_le i h.inum_lt
  rw [readi, wp_bind, wp_getInode, h.copy]
  apply wp_ite
  · exact fun hout => wp_pure.mpr (hnone hout)
  · intro hin
    push Not at hin
    obtain ⟨m,hm⟩ : ∃ m, m = if (D i).size.toNat < off+n then (D i).size.toNat-off else n :=
      ⟨_,rfl⟩
    dsimp only
    rw [← hm]
    have hoff : off+m ≤ (D i).size.toNat := by
      split_ifs at hm <;> omega
    apply wp_readLoop hsb h (Nat.zero_le m) (by omega) (by omega)
    intro t r D' own' s' hread hr
    rw [Nat.zero_add] at hr
    exact hQ m t r D' own' s' hoff (fun hle => by rw [hm, if_neg (by omega)])
      (by split_ifs at hm <;> omega) hread hr

theorem wp_readEntry (hsb : Layout sb) (h : Open sb D own s k i)
    (hshort : ∀ (r : ℤ) bytes s', r ≠ direntSize →
      ¬(Dense s.blocks (D i) off direntSize ∧ off+direntSize ≤ (D i).size.toNat) → Q (r,bytes) s')
    (hQ : ∀ D' own' s', Grown sb k i D own s D' own' s' →
      (Dense s.blocks (D i) off direntSize → s' = s ∧ D' = D ∧ own' = own) →
      off+direntSize ≤ (D i).size.toNat →
      Q (direntSize,content s.blocks (D i) off direntSize) s') :
    wp (handle env) E (readi sb k .kernel off direntSize) Q s := by
  have hsize := (D i).size.isLt
  apply wp_readi hsb h
  · intro hout
    refine hshort 0 [] s (by decide) (fun hin => ?_)
    rw [Nat.mod_eq_of_lt (by omega)] at hout
    omega
  · intro m t r D' own' s' hoff hall hm hread hr
    by_cases ht : t = direntSize
    · have hmn : m = direntSize := le_antisymm hm (ht ▸ hread.le)
      have hr' : r = direntSize := by
        cases hr with
        | inl hr => rw [hr, ht]
        | inr hr => exact absurd rfl (hread.failed hr)
      rw [hr', ht]
      rw [hmn] at hread hoff
      exact hQ D' own' s' hread.grown (fun hd => by
        obtain ⟨hs,hD,hown,-⟩ := hread.dense hd
        exact ⟨hs,hD,hown⟩) hoff
    · apply hshort
      · intro hr'
        cases hr with
        | inl hr => exact ht (by rw [hr'] at hr; exact (Nat.cast_inj.mp hr).symm)
        | inr hr => exact absurd rfl (hread.failed hr)
      · rintro ⟨hdense,hin⟩
        rw [hall hin] at hread
        exact ht ((hread.dense hdense).2.2.2 rfl)

end Read

/-- Between two states bytes `lo .. hi` of the content of inode `i` and its size
may have changed, and the inode may have been given blocks. -/
structure Wrote (sb : Superblock) (k : Fin ninode) (i lo hi : ℕ) (D : Inodes) (own : Owners)
    (s : Fs) (D' : Inodes) (own' : Owners) (s' : Fs) : Prop where
  stored : Stored sb D' own' s'.blocks
  other : ∀ j, j ≠ i → D' j = D j
  fields : D' i = { D i with size := (D' i).size, addrs := (D' i).addrs }
  keep : ∀ j, j < sb.ninodes → ∀ pl, addrOf s.blocks (D j) pl ≠ 0 →
    addrOf s'.blocks (D' j) pl = addrOf s.blocks (D j) pl
  frame : ∀ j, j < sb.ninodes → j ≠ i → ∀ d, Sub d (D j) → ∀ o,
    byteAt s'.blocks d o = byteAt s.blocks d o
  bytes : ∀ o, o < maxfile*bsize → o < lo ∨ hi ≤ o →
    byteAt s'.blocks (D' i) o = byteAt s.blocks (D i) o
  disk : ∀ j, j < sb.ninodes → j ≠ i → diskInode sb s'.blocks j = diskInode sb s.blocks j
  lost : ∀ b, own' b = .lost → own b = .lost
  held : ∀ b, own' b = .held → own b = .held
  mem : s'.mem = withCopy s.mem k (D' i)

section Wrote
variable {sb : Superblock} {k : Fin ninode} {i : ℕ} {D D' D'' : Inodes} {own own' own'' : Owners}
variable {s s' s'' : Fs}

theorem wrote_of_grown (h : Grown sb k i D own s D' own' s') (lo hi : ℕ) :
    Wrote sb k i lo hi D own s D' own' s' where
  stored := h.stored
  other := h.other
  fields := by rw [h.fields]
  keep := h.keep
  frame := fun j hj _ d hd o => h.frame j hj d hd o
  bytes := fun o _ _ => h.bytes o
  disk := fun j hj _ => h.disk j hj
  lost := h.lost
  held := h.held
  mem := h.mem

variable {lo hi lo₁ hi₁ : ℕ}

theorem wrote_trans {lo₂ hi₂ : ℕ} (h : Wrote sb k i lo₁ hi₁ D own s D' own' s')
    (h' : Wrote sb k i lo₂ hi₂ D' own' s' D'' own'' s'')
    (hsub : ∀ o, o < lo ∨ hi ≤ o → (o < lo₁ ∨ hi₁ ≤ o) ∧ (o < lo₂ ∨ hi₂ ≤ o)) :
    Wrote sb k i lo hi D own s D'' own'' s'' where
  stored := h'.stored
  other := fun j hj => (h'.other j hj).trans (h.other j hj)
  fields := by rw [h'.fields, h.fields]
  keep := fun j hj pl h0 => by
    have h₁ := h.keep j hj pl h0
    rw [h'.keep j hj pl (h₁ ▸ h0), h₁]
  frame := fun j hj hji d hd o =>
    (h'.frame j hj hji d (by rw [h.other j hji]; exact hd) o).trans (h.frame j hj hji d hd o)
  bytes := fun o hmax ho =>
    (h'.bytes o hmax (hsub o ho).2).trans (h.bytes o hmax (hsub o ho).1)
  disk := fun j hj hji => (h'.disk j hj hji).trans (h.disk j hj hji)
  lost := fun b hb => h.lost b (h'.lost b hb)
  held := fun b hb => h.held b (h'.held b hb)
  mem := by rw [h'.mem, h.mem, withCopy_withCopy]

theorem wrote_widen (h : Wrote sb k i lo₁ hi₁ D own s D' own' s') (hlo : lo ≤ lo₁)
    (hhi : hi₁ ≤ hi) : Wrote sb k i lo hi D own s D' own' s' :=
  { h with bytes := fun o hmax ho => h.bytes o hmax (by omega) }

theorem open_wrote (h : Open sb D own s k i)
    (hw : Wrote sb k i lo hi D own s D' own' s') : Open sb D' own' s' k i where
  stored := hw.stored
  inum_lt := h.inum_lt
  type_ne := by
    rw [hw.fields]
    exact h.type_ne
  copy := by rw [hw.mem, withCopy_copy]

end Wrote

theorem placeOf_inj {bn bn' : ℕ} (h : bn < maxfile) (h' : bn' < maxfile)
    (heq : placeOf bn = placeOf bn') : bn = bn' := by
  have hmax : maxfile = ndirect+nindirect := rfl
  have hd : ndirect = 12 := rfl
  have hn : nindirect = 256 := rfl
  unfold placeOf at heq
  split_ifs at heq with h₁ h₂ h₂
  · have := congrArg Fin.val (Sum.inl.inj heq)
    simp only [direct, Fin.val_ofNat, hd] at this
    omega
  · have := congrArg Fin.val (Sum.inr.inj heq)
    simp only [Fin.val_ofNat, hn] at this
    omega

section Data
variable {sb : Superblock} {D : Inodes} {own : Owners} {blocks : Blocks} {i a : ℕ} {pl : Place}

variable {j : ℕ} {d : Dinode}

theorem data_ne_indirect (h : Stored sb D own blocks) (ha : own a = .place (i,pl))
    (hpl : pl ≠ .inl indirect) (hj : j < sb.ninodes) (hd : Sub d (D j))
    (h0 : d.addrs indirect ≠ 0) : (d.addrs indirect).toNat ≠ a := by
  intro heq
  have hown := indirect_of_sub h hj hd h0
  rw [heq, ha] at hown
  exact hpl (Prod.mk.inj (Owner.place.inj hown)).2

theorem stored_write_data (h : Stored sb D own blocks) (ha : own a = .place (i,pl))
    (hpl : pl ≠ .inl indirect) (data : Block) :
    Stored sb D own (Function.update blocks a data) where
  tracks := tracks_congr h.tracks (fun x hx =>
    addrOf_update (data_ne_indirect h ha hpl hx (sub_refl _)) x.2)
  reserved := h.reserved
  below := h.below
  bits := fun b hb => by
    have hblk := bblock_lt hb
    have hrange := placed_range h ha
    rw [bitOf_update_of_ne (by omega)]
    exact h.bits b hb
  empty := h.empty
  size_le := h.size_le

theorem byteAt_write_other (h : Stored sb D own blocks) (ha : own a = .place (i,pl))
    (hj : j < sb.ninodes) (hji : j ≠ i) (hd : Sub d (D j)) (data : Block) (o : ℕ) :
    byteAt (Function.update blocks a data) d o = byteAt blocks d o := by
  apply byteAt_update
  intro pl' h0 heq
  have hown := owned_of_sub h hj hd h0
  rw [heq, ha] at hown
  exact hji (Prod.mk.inj (Owner.place.inj hown)).1.symm

theorem byteAt_write_self (h : Stored sb D own blocks) (hi : i < sb.ninodes) {off o : ℕ}
    (ha : addrOf blocks (D i) (placeOf (off/bsize)) = a) (h0 : a ≠ 0) (hoff : off < maxfile*bsize)
    (ho : o < maxfile*bsize) (data : Block) : byteAt (Function.update blocks a data) (D i) o =
      if o/bsize = off/bsize then get data (o%bsize) else byteAt blocks (D i) o := by
  have hown := h.tracks.owned (i,placeOf (off/bsize)) hi (by rw [ha]; exact h0)
  simp only [ha] at hown
  have haddr : ∀ pl, addrOf (Function.update blocks a data) (D i) pl = addrOf blocks (D i) pl :=
    fun pl => addrOf_update (data_ne_indirect h hown (placeOf_ne_indirect _) hi (sub_refl _)) pl
  simp only [byteAt, haddr]
  split_ifs with hz heq heq
  · rw [heq, ha] at hz
    exact absurd hz h0
  · rfl
  · rw [heq, ha, Function.update_self]
  · have hne : addrOf blocks (D i) (placeOf (o/bsize)) ≠ a := by
      intro heq'
      have hown' := h.tracks.owned (i,placeOf (o/bsize)) hi hz
      simp only [heq', hown] at hown'
      have hpl := (Prod.mk.inj (Owner.place.inj hown')).2
      exact heq (placeOf_inj (Nat.div_lt_of_lt_mul (by rwa [mul_comm]))
        (Nat.div_lt_of_lt_mul (by rwa [mul_comm])) hpl.symm)
    rw [Function.update_of_ne hne]

end Data

section Write
variable {sb : Superblock} {k : Fin ninode} {i : ℕ} {D : Inodes} {own : Owners} {s : Fs}
variable {env : Env} {E : String → Prop}

variable {off a j pos n tot m : ℕ} {src : Src} {D' : Inodes} {own' : Owners} {s' : Fs}

theorem wrote_data (hsb : Layout sb) (h : Open sb D own s k i) (bytes : List UInt8)
    (ha : addrOf s.blocks (D i) (placeOf (off/bsize)) = a) (h0 : a ≠ 0) (hoff : off < maxfile*bsize)
    (hlen : off%bsize+bytes.length ≤ bsize) :
    Wrote sb k i off (off+bytes.length) D own s D own
      (setBlock s a (paste (s.blocks a) (off%bsize) bytes)) := by
  have hown := h.stored.tracks.owned (i,placeOf (off/bsize)) h.inum_lt (by rw [ha]; exact h0)
  simp only [ha] at hown
  have hdata := placed_range h.stored hown
  constructor
  · exact stored_write_data h.stored hown (placeOf_ne_indirect _) _
  · exact fun _ _ => rfl
  · rfl
  · intro j hj pl _
    exact addrOf_update (data_ne_indirect h.stored hown (placeOf_ne_indirect _) hj (sub_refl _)) pl
  · exact fun j hj hji d hd o => byteAt_write_other h.stored hown hj hji hd _ o
  · intro o ho hout
    refine (byteAt_write_self h.stored h.inum_lt ha h0 hoff ho _).trans ?_
    split_ifs with hblk
    · have hb : bsize = 1024 := rfl
      rw [byteAt, hblk, ha, if_neg h0]
      apply get_splice_out
      simp only [hb] at hblk ⊢
      omega
    · rfl
  · intro j hj _
    have := iblock_lt_data hsb hj
    exact diskInode_update_of_ne (by omega)
  · exact fun _ hb => hb
  · exact fun _ hb => hb
  · exact (withCopy_self h.copy).symm

theorem byteAt_wrote_data (h : Open sb D own s k i) (bytes : List UInt8)
    (ha : addrOf s.blocks (D i) (placeOf (off/bsize)) = a) (h0 : a ≠ 0)
    (hoff : off+bytes.length ≤ maxfile*bsize) (hlen : off%bsize+bytes.length ≤ bsize)
    (hj : j < bytes.length) :
    byteAt (setBlock s a (paste (s.blocks a) (off%bsize) bytes)).blocks (D i) (off+j) =
      bytes.getD j 0 := by
  have hb : bsize = 1024 := rfl
  refine (byteAt_write_self h.stored h.inum_lt ha h0 (by omega) (by omega) _).trans ?_
  have hblk : (off+j)/bsize = off/bsize := by
    simp only [hb] at hlen ⊢
    omega
  have hmod : (off+j)%bsize = off%bsize+j := by
    simp only [hb] at hlen ⊢
    omega
  rw [if_pos hblk, hmod]
  exact get_splice_in _ _ hlen hj

/-- What a write that stopped after `t` of `n` bytes from `off` on has done; the
bytes come from position `pos` of the source. -/
structure WroteTo (sb : Superblock) (k : Fin ninode) (i : ℕ) (src : Src) (pos off n t : ℕ)
    (D : Inodes) (own : Owners) (s : Fs) (D' : Inodes) (own' : Owners) (s' : Fs) : Prop where
  wrote : Wrote sb k i off (off+n) D own s D' own' s'
  size : (D' i).size = (D i).size
  le : t ≤ n
  cut : ∀ bytes, src = .kernel bytes → t = 0 ∨ t = n ∨ (off+t)%bsize = 0
  kernel : ∀ bytes, src = .kernel bytes → Wrote sb k i off (off+t) D own s D' own' s' ∧
    ∀ j, j < t → byteAt s'.blocks (D' i) (off+j) = bytes.getD (pos+j) 0
  filled : Dense s'.blocks (D' i) off t
  full : ∀ bytes, src = .kernel bytes → t < n → Full sb s'.blocks

theorem wroteTo_stop (hg : Grown sb k i D own s D' own' s') (hfull : 0 < n → Full sb s'.blocks) :
    WroteTo sb k i src pos off n 0 D own s D' own' s' where
  wrote := wrote_of_grown hg _ _
  size := by rw [hg.fields]
  le := Nat.zero_le _
  cut := fun _ _ => .inl rfl
  kernel := fun _ _ => ⟨wrote_of_grown hg _ _,fun _ hj => absurd hj (Nat.not_lt_zero _)⟩
  filled := fun _ hlo hhi => absurd hhi (Nat.not_lt.mpr hlo)
  full := fun _ _ => hfull

theorem wp_eitherCopyin {Q : List UInt8 × Bool → Fs → Prop}
    (hlen : ∀ l, src = .kernel l → tot+m ≤ l.length)
    (hQ : ∀ bytes ok, bytes.length ≤ m → (ok = true → bytes.length = m) →
      (∀ l, src = .kernel l → ok = true ∧ bytes = (l.drop tot).take m) → Q (bytes,ok) s) :
    wp (handle env) E (eitherCopyin src tot m) Q s := by
  cases src with
  | kernel l =>
    have hm : ((l.drop tot).take m).length = m := by
      have := hlen l rfl
      simp
      omega
    refine wp_pure.mpr (hQ _ true (le_of_eq hm) (fun _ => hm) (fun l' hl => ?_))
    cases hl
    exact ⟨rfl,rfl⟩
  | user addr =>
    rw [eitherCopyin, wp_copyin]
    exact hQ _ _ (env.copyin_le _ _) (env.copyin_full _ _) nofun

theorem getD_drop_take (l : List UInt8) (hj : j < m) :
    ((l.drop tot).take m).getD j 0 = l.getD (tot+j) 0 := by
  simp [List.getD_eq_getElem?_getD, hj]

theorem wroteTo_step {t : ℕ} {bytes : List UInt8} {D₁ D₂ D₃ : Inodes} {own₁ own₂ own₃ : Owners}
    {s₁ s₂ s₃ : Fs} (hg : Grown sb k i D own s D₁ own₁ s₁)
    (hw : Wrote sb k i off (off+m) D₁ own₁ s₁ D₂ own₂ s₂) (hsize : (D₂ i).size = (D₁ i).size)
    (hmax : off+n ≤ maxfile*bsize) (hm : m ≤ n) (hend : m = n ∨ (off+m)%bsize = 0)
    (hbytes : ∀ j, j < m → byteAt s₂.blocks (D₂ i) (off+j) = bytes.getD j 0)
    (hsrc : ∀ l, src = .kernel l → bytes = (l.drop pos).take m) (hi : i < sb.ninodes)
    (hfilled : Dense s₂.blocks (D₂ i) off m)
    (hrest : WroteTo sb k i src (pos+m) (off+m) (n-m) t D₂ own₂ s₂ D₃ own₃ s₃) :
    WroteTo sb k i src pos off n (m+t) D own s D₃ own₃ s₃ where
  wrote := by
    have hboth : Wrote sb k i off (off+n) D₁ own₁ s₁ D₃ own₃ s₃ :=
      wrote_trans hw hrest.wrote (fun o ho => by omega)
    exact wrote_trans (wrote_of_grown hg off (off+n)) hboth (fun o ho => ⟨ho,ho⟩)
  size := by rw [hrest.size, hsize, hg.fields]
  le := by
    have := hrest.le
    omega
  cut := fun l hl => by
    rcases hrest.cut l hl with ht | ht | ht
    · rw [ht, add_zero]
      exact .inr hend
    · exact .inr (.inl (by omega))
    · rw [add_assoc] at ht
      exact .inr (.inr ht)
  kernel := fun l hl => by
    obtain ⟨hw',hread⟩ := hrest.kernel l hl
    have hboth : Wrote sb k i off (off+(m+t)) D₁ own₁ s₁ D₃ own₃ s₃ :=
      wrote_trans hw hw' (fun o ho => by omega)
    refine ⟨wrote_trans (wrote_of_grown hg off (off+(m+t))) hboth (fun o ho => ⟨ho,ho⟩),
      fun j hj => ?_⟩
    by_cases hjm : j < m
    · have := hrest.le
      rw [hw'.bytes (off+j) (by omega) (.inl (by omega)), hbytes j hjm, hsrc l hl,
        getD_drop_take l hjm]
    · have := hread (j-m) (by omega)
      rw [show off+m+(j-m) = off+j by omega, show pos+m+(j-m) = pos+j by omega] at this
      exact this
  filled := fun o hlo hhi => by
    by_cases hm : o < off+m
    · have h0 := hfilled o hlo hm
      rw [hrest.wrote.keep i hi _ h0]
      exact h0
    · exact hrest.filled o (by omega) (by omega)
  full := fun l hl hlt => hrest.full l hl (by omega)

theorem keeps_wrote {lo hi : ℕ} (hi' : i < sb.ninodes) (h : Wrote sb k i lo hi D own s D' own' s') :
    Keeps (addrOf s.blocks (D i)) (addrOf s'.blocks (D' i)) := h.keep i hi'

theorem silent_eitherCopyin (src : Src) (tot m : ℕ) : Every Silent (eitherCopyin src tot m) := by
  cases src with
  | kernel l => exact every_pure _
  | user addr => exact every_perform rfl

/-- The places in which the blocks of bytes `off .. off+m` of a file are found. -/
def touched (off m : ℕ) : Set Place :=
  {pl | pl = .inl indirect ∨ ∃ bn, off/bsize ≤ bn ∧ bn*bsize < off+m ∧ pl = placeOf bn}

theorem touched_block {bn : ℕ} (hlo : off/bsize ≤ bn) (hhi : bn*bsize < off+m) :
    ({.inl indirect,placeOf bn} : Set Place) ⊆ touched off m := by
  rintro pl (rfl | rfl)
  · exact .inl rfl
  · exact .inr ⟨bn,hlo,hhi,rfl⟩

theorem touched_tail (hm : m ≤ n) : touched (off+m) (n-m) ⊆ touched off n := by
  rintro pl (rfl | ⟨bn,hlo,hhi,rfl⟩)
  · exact .inl rfl
  · have := Nat.div_le_div_right (c := bsize) (Nat.le_add_right off m)
    exact .inr ⟨bn,by omega,by omega,rfl⟩

theorem wpt_writeLoop (hsb : Layout sb) {left : ℕ} (h : Open sb D own s k i) (htot : tot ≤ n)
    (hoff : off+(n-tot) ≤ maxfile*bsize) (hfuel : n ≤ tot+left)
    (hlen : ∀ l, src = .kernel l → n ≤ l.length) {Q : ℕ × ℕ → Fs → List ℕ → Prop}
    (hQ : ∀ t D' own' s' l, WroteTo sb k i src tot off (n-tot) t D own s D' own' s' →
      Covered sb (touched off (n-tot)) (addrOf s.blocks (D i)) (addrOf s'.blocks (D' i)) l →
      Q (tot+t,off+t) s' l) :
    wpt (handle env) logged E (writeLoop sb k src n left tot off) Q s := by
  induction left generalizing tot off D own s Q with
  | zero =>
    exact wpt_pure.mpr (hQ 0 D own s [] (wroteTo_stop (grown_refl h.stored h.copy)
      (fun hlt => by omega)) covered_nil)
  | succ left ih =>
    rw [writeLoop]
    apply wpt_ite
    · intro hlt
      have hbn : off/bsize < maxfile := by
        rw [Nat.div_lt_iff_lt_mul (by decide)]
        omega
      have hpls : ({.inl indirect,placeOf (off/bsize)} : Set Place) ⊆ touched off (n-tot) :=
        touched_block (le_refl _) (lt_of_le_of_lt (Nat.div_mul_le_self off bsize) (by omega))
      rw [wpt_bind]
      apply wpt_bmap hsb h hbn
      intro a D₁ own₁ s₁ l₁ hlog
      have hmap := hlog.mapped
      have hcov := covered_mono hlog.covered hpls
      have hopen := open_grown h hmap.grown
      have hkeep := keeps_grown h.inum_lt hmap.grown
      apply wpt_ite
      · intro ha
        rw [wpt_pure, List.append_nil]
        exact hQ 0 D₁ own₁ s₁ l₁ (wroteTo_stop hmap.grown (fun _ => hmap.full ha)) hcov
      · intro ha
        have hmod := Nat.mod_lt off (show 0 < bsize by decide)
        rw [wpt_silent_bind (silent_bread _), wp_bread]
        dsimp only
        obtain ⟨m,hm⟩ : ∃ m, m = min (n-tot) (bsize-off%bsize) := ⟨_,rfl⟩
        rw [← hm, wpt_silent_bind (silent_eitherCopyin _ _ _)]
        apply wp_eitherCopyin (fun l hl => by have := hlen l hl; omega)
        intro bytes ok hle hfull hsrc
        have hwrote := wrote_data hsb hopen bytes (hmap.addr ha) ha (by omega) (by omega)
        have hread := fun j (hj : j < bytes.length) =>
          byteAt_wrote_data hopen bytes (hmap.addr ha) ha (by omega) (by omega) hj
        have hkeep₂ := keeps_wrote h.inum_lt hwrote
        rw [wpt_silent_bind (silent_setData _ _), wp_setData]
        apply wpt_ite
        · intro hok
          have hlen' := hfull hok
          rw [hlen'] at hwrote hread
          rw [wpt_bind, wpt_logWrite, wpt_silent_bind (silent_brelse _), wp_brelse]
          apply ih (open_wrote hopen hwrote) (by omega) (by omega) (by omega)
          intro t D' own' s' l hto hrest
          rw [add_assoc, add_assoc]
          rw [← Nat.sub_sub] at hto hrest
          have hend : m = n-tot ∨ (off+m)%bsize = 0 := by
            have hb : bsize = 1024 := rfl
            simp only [hb] at hm ⊢
            omega
          have hfilled : Dense (setBlock s₁ a (paste (s₁.blocks a) (off%bsize) bytes)).blocks
              (D₁ i) off m := by
            intro o hlo hhi
            have hblk : o/bsize = off/bsize := by
              have hb : bsize = 1024 := rfl
              simp only [hb] at hm hlo hhi ⊢
              omega
            have haddr : addrOf s₁.blocks (D₁ i) (placeOf (o/bsize)) ≠ 0 := by
              rw [hblk, hmap.addr ha]
              exact ha
            rw [hwrote.keep i h.inum_lt _ haddr]
            exact haddr
          have haddr : addrOf s₁.blocks (D₁ i) (placeOf (off/bsize)) ≠ 0 := by
            rw [hmap.addr ha]
            exact ha
          have hdata : Covered sb (touched off (n-tot)) (addrOf s₁.blocks (D₁ i)) _ [a] :=
            covered_found (hpls (.inr rfl)) ((hkeep₂ _ haddr).trans (hmap.addr ha)) ha
          have htail := covered_mono hrest (touched_tail (by omega))
          exact hQ (m+t) D' own' s' _ (wroteTo_step hmap.grown hwrote rfl hoff (by omega) hend
            hread (fun l hl => (hsrc l hl).2) h.inum_lt hfilled hto)
            (covered_append hkeep (keeps_trans hkeep₂ (keeps_wrote h.inum_lt hto.wrote)) hcov
              (covered_append hkeep₂ (keeps_wrote h.inum_lt hto.wrote) hdata htail))
        · intro hbad
          rw [wpt_silent_bind (silent_brelse _), wp_brelse, wpt_pure, List.append_nil]
          have hto : WroteTo sb k i src tot off (n-tot) 0 D own s D₁ own₁
              (setBlock s₁ a (paste (s₁.blocks a) (off%bsize) bytes)) :=
            ⟨wrote_trans (wrote_of_grown hmap.grown off (off+(n-tot)))
              (wrote_widen hwrote (le_refl _) (by omega)) (fun o ho => ⟨ho,ho⟩),
              by rw [hmap.grown.fields],Nat.zero_le _,fun _ _ => .inl rfl,
              fun l hl => absurd (hsrc l hl).1 hbad,
              fun o hlo hhi => absurd hhi (Nat.not_lt.mpr hlo),
              fun l hl => absurd (hsrc l hl).1 hbad⟩
          have hsame := covered_append hkeep hkeep₂ hcov covered_nil
          rw [List.append_nil] at hsame
          exact hQ 0 D₁ own₁ _ l₁ hto hsame
    · intro hge
      exact wpt_pure.mpr (hQ 0 D own s [] (wroteTo_stop (grown_refl h.stored h.copy)
        (fun hlt => by omega)) covered_nil)

end Write

end GreenOS.FsContent
