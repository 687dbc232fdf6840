import GreenOS.FsTrunc

/-!
# The file system's memory and its disk

`Good` relates the inode table to the inodes on disk. A cached inode is the
inode as the kernel uses it.
-/

namespace GreenOS.FsState
open DiskLayout
open BufferSeq (Env)
open FsMemory FsDirect FsOwned
open FsMap FsInodes

structure Lag (blocks : Blocks) (d e : Dinode) : Prop where
  fields : e = { d with addrs := e.addrs }
  sub : Sub d e
  bytes : ∀ o, byteAt blocks d o = byteAt blocks e o

theorem lag_refl (blocks : Blocks) (d : Dinode) : Lag blocks d d := ⟨rfl,sub_refl d,fun _ => rfl⟩

structure Good (sb : Superblock) (D : Inodes) (own : Owners) (X : ℕ → Prop) (s : Fs) : Prop where
  stored : Stored sb D own s.blocks
  copies : ∀ k, 0 < (s.mem.itable k).ref → (s.mem.itable k).valid = true →
    (s.mem.itable k).inum < sb.ninodes ∧ (s.mem.itable k).copy = D (s.mem.itable k).inum ∧
      (D (s.mem.itable k).inum).type ≠ 0
  unique : ∀ k k', 0 < (s.mem.itable k).ref → 0 < (s.mem.itable k').ref →
    (s.mem.itable k).inum = (s.mem.itable k').inum → k = k'
  absent : ∀ i, i < sb.ninodes → (∀ k, 0 < (s.mem.itable k).ref → (s.mem.itable k).inum = i →
    (s.mem.itable k).valid = false) → diskInode sb s.blocks i = D i
  lag : ∀ i, i < sb.ninodes → ¬ X i → Lag s.blocks (diskInode sb s.blocks i) (D i)

structure InUse (s : Fs) (k : Fin ninode) (i : ℕ) : Prop where
  ref : 0 < (s.mem.itable k).ref
  valid : (s.mem.itable k).valid = true
  inum : (s.mem.itable k).inum = i

section Good
variable {sb : Superblock} {D D' : Inodes} {own own' : Owners} {X : ℕ → Prop} {s s' : Fs}
variable {k : Fin ninode} {i : ℕ}

theorem good_open (h : Good sb D own X s) (hk : InUse s k i) : Open sb D own s k i := by
  obtain ⟨hlt,hcopy,htype⟩ := h.copies k hk.ref hk.valid
  rw [hk.inum] at hlt hcopy htype
  exact ⟨h.stored,hlt,htype,hcopy⟩

theorem withCopy_itable_of_ne {m : Mem} {k k' : Fin ninode} (h : k' ≠ k) (d : Dinode) :
    (withCopy m k d).itable k' = m.itable k' := by
  simp [withCopy, setInode, h]

theorem withCopy_itable_self (m : Mem) (k : Fin ninode) (d : Dinode) :
    (withCopy m k d).itable k = { m.itable k with copy := d } := by
  simp [withCopy, setInode]

theorem withCopy_fields (m : Mem) (k k' : Fin ninode) (d : Dinode) :
    ((withCopy m k d).itable k').ref = (m.itable k').ref ∧
    ((withCopy m k d).itable k').inum = (m.itable k').inum ∧
    ((withCopy m k d).itable k').valid = (m.itable k').valid ∧
    ((withCopy m k d).itable k').lock = (m.itable k').lock := by
  by_cases hk : k' = k
  · rw [hk, withCopy_itable_self]
    exact ⟨rfl,rfl,rfl,rfl⟩
  · rw [withCopy_itable_of_ne hk]
    exact ⟨rfl,rfl,rfl,rfl⟩

theorem inUse_withCopy (h : InUse s k i) (d : Dinode) {k' : Fin ninode}
    (hm : s'.mem = withCopy s.mem k' d) : InUse s' k i := by
  obtain ⟨hr,hi,hv,-⟩ := withCopy_fields s.mem k' k d
  rw [← hm] at hr hi hv
  exact ⟨hr ▸ h.ref,hv.trans h.valid,hi.trans h.inum⟩

theorem good_change (h : Good sb D own X s) (hk : InUse s k i) {X' : ℕ → Prop}
    (hst : Stored sb D' own' s'.blocks) (hother : ∀ j, j ≠ i → D' j = D j)
    (htype : (D' i).type ≠ 0) (hmem : s'.mem = withCopy s.mem k (D' i))
    (hdisk : ∀ j, j < sb.ninodes → j ≠ i → diskInode sb s'.blocks j = diskInode sb s.blocks j)
    (hlag : ∀ j, j < sb.ninodes → ¬ X' j → Lag s'.blocks (diskInode sb s'.blocks j) (D' j)) :
    Good sb D' own' X' s' := by
  have hfields := fun k' => withCopy_fields s.mem k k' (D' i)
  rw [← hmem] at hfields
  constructor
  · exact hst
  · intro k' href hvalid
    obtain ⟨hr,hi,hv,-⟩ := hfields k'
    rw [hr] at href
    rw [hv] at hvalid
    obtain ⟨hlt,hcopy,ht⟩ := h.copies k' href hvalid
    rw [hi]
    refine ⟨hlt,?_⟩
    by_cases hki : (s.mem.itable k').inum = i
    · have hkk : k' = k := h.unique k' k href hk.ref (hki.trans hk.inum.symm)
      rw [hki, hkk, hmem, withCopy_copy]
      exact ⟨rfl,htype⟩
    · have hkk : k' ≠ k := fun hkk => hki (by rw [hkk, hk.inum])
      rw [hother _ hki, hmem, withCopy_itable_of_ne hkk]
      exact ⟨hcopy,ht⟩
  · intro k₁ k₂ h₁ h₂ heq
    rw [(hfields k₁).1] at h₁
    rw [(hfields k₂).1] at h₂
    rw [(hfields k₁).2.1, (hfields k₂).2.1] at heq
    exact h.unique k₁ k₂ h₁ h₂ heq
  · intro j hj hnone
    have hji : j ≠ i := by
      intro hji
      have := hnone k (by rw [(hfields k).1]; exact hk.ref)
        (by rw [(hfields k).2.1, hk.inum, hji])
      rw [(hfields k).2.2.1, hk.valid] at this
      cases this
    rw [hdisk j hj hji, hother j hji]
    apply h.absent j hj
    intro k' href hinum
    have := hnone k' (by rw [(hfields k').1]; exact href) (by rw [(hfields k').2.1, hinum])
    rwa [(hfields k').2.2.1] at this
  · exact hlag

theorem good_grown (h : Good sb D own X s) (hk : InUse s k i)
    (hg : Grown sb k i D own s D' own' s') : Good sb D' own' X s' := by
  have hopen := good_open h hk
  have htype : (D' i).type ≠ 0 := by
    rw [hg.fields]
    exact hopen.type_ne
  apply good_change h hk hg.stored hg.other htype hg.mem (fun j hj _ => hg.disk j hj)
  intro j hj hX
  have hl := h.lag j hj hX
  rw [hg.disk j hj]
  by_cases hji : j = i
  · subst hji
    refine ⟨?_,sub_trans hl.sub hg.sub,fun o => ?_⟩
    · rw [hg.fields, hl.fields]
    · rw [hg.frame j hj _ hl.sub o, hl.bytes o, hg.bytes o]
  · rw [hg.other j hji]
    refine ⟨hl.fields,hl.sub,fun o => ?_⟩
    rw [hg.frame j hj _ hl.sub o, hl.bytes o, hg.frame j hj _ (sub_refl _) o]

theorem good_save (h : Good sb D own X s) (hk : InUse s k i)
    (hst : Stored sb D' own' s'.blocks) (hother : ∀ j, j ≠ i → D' j = D j)
    (htype : (D' i).type ≠ 0) (hmem : s'.mem = withCopy s.mem k (D' i))
    (hdisk : ∀ j, j < sb.ninodes → j ≠ i → diskInode sb s'.blocks j = diskInode sb s.blocks j)
    (hsync : diskInode sb s'.blocks i = D' i)
    (hframe : ∀ j, j < sb.ninodes → j ≠ i → ∀ d, Sub d (D j) → ∀ o,
      byteAt s'.blocks d o = byteAt s.blocks d o) :
    Good sb D' own' (fun j => X j ∧ j ≠ i) s' := by
  apply good_change h hk hst hother htype hmem hdisk
  intro j hj hX
  by_cases hji : j = i
  · rw [hji, hsync]
    exact lag_refl _ _
  · have hl := h.lag j hj (fun hXj => hX ⟨hXj,hji⟩)
    rw [hdisk j hj hji, hother j hji]
    refine ⟨hl.fields,hl.sub,fun o => ?_⟩
    rw [hframe j hj hji _ hl.sub o, hl.bytes o, hframe j hj hji _ (sub_refl _) o]

theorem saved_eq (d : Dinode) :
    inodeWritten sb (setMem s (withCopy s.mem k d))
      ((setMem s (withCopy s.mem k d)).mem.itable k).inum
      ((setMem s (withCopy s.mem k d)).mem.itable k).copy =
    inodeSaved sb s k (s.mem.itable k).inum d := by
  simp only [setMem, withCopy_itable_self]
  rfl

structure FieldsSaved (sb : Superblock) (i : ℕ) (d : Dinode) (D : Inodes) (s s' : Fs) : Prop where
  disk : ∀ j, diskInode sb s'.blocks j = if j = i then d else diskInode sb s.blocks j
  bytes : ∀ j, j < sb.ninodes → ∀ e, Sub e (D j) → ∀ o, byteAt s'.blocks e o = byteAt s.blocks e o
  addrs : ∀ j, j < sb.ninodes → ∀ pl, addrOf s'.blocks (D j) pl = addrOf s.blocks (D j) pl

theorem fieldsSaved (hsb : Layout sb) (h : Stored sb D own s.blocks) (hi : i < sb.ninodes)
    (d : Dinode) : FieldsSaved sb i d D s (inodeSaved sb s k i d) where
  disk := fun j => inodeWritten_disk i j d
  bytes := fun _ hj _ he o =>
    inodeWritten_byteAt (s := setMem s (withCopy s.mem k d)) hsb h hi hj he o
  addrs := fun _ hj pl =>
    inodeWritten_addrOf (s := setMem s (withCopy s.mem k d)) hsb h hi hj (sub_refl _) pl

theorem good_fields (hsb : Layout sb) (h : Good sb D own X s) (hk : InUse s k i) {d : Dinode}
    (haddrs : d.addrs = (D i).addrs) (hsize : d.size = (D i).size) (htype : d.type ≠ 0) :
    Good sb (Function.update D i d) own (fun j => X j ∧ j ≠ i) (inodeSaved sb s k i d) := by
  have hopen := good_open h hk
  have hsaved := fieldsSaved (k := k) hsb h.stored hopen.inum_lt d
  have hstored := stored_inodeWritten (s := setMem s (withCopy s.mem k d)) hsb h.stored
    hopen.inum_lt d
  apply good_save h hk (stored_fields hstored haddrs (.inl htype)
    (hsize ▸ h.stored.size_le i hopen.inum_lt))
  · exact fun j hji => Function.update_of_ne hji _ _
  · rwa [Function.update_self]
  · rw [Function.update_self]
    rfl
  · exact fun j _ hji => (hsaved.disk j).trans (if_neg hji)
  · rw [Function.update_self]
    exact (hsaved.disk i).trans (if_pos rfl)
  · exact fun j hj _ => hsaved.bytes j hj

end Good

end GreenOS.FsState
