import GreenOS.FsState

/-!
# The inode table

What `iget`, `idup`, `ilock`, `iunlock`, `iput` and `ialloc` do to the table and to
the inodes.
-/

namespace GreenOS.FsTable
open Programs ProgramTraces DiskLayout ProcTable
open BufferSeq (Env)
open FsMemory FsCode FsDirect FsOwned
open FsBlocks FsMap FsInodes FsTrunc
open FsState
open Function (update update_self update_of_ne)

def setEntry (s : Fs) (k : Fin ninode) (ip : Inode) : Fs := setMem s (setInode s.mem k ip)

section Entry
variable {s : Fs} {k k' : Fin ninode} {ip : Inode}

theorem setEntry_self : (setEntry s k ip).mem.itable k = ip := by
  simp [setEntry, setMem, setInode]

theorem setEntry_of_ne (h : k' ≠ k) : (setEntry s k ip).mem.itable k' = s.mem.itable k' := by
  simp [setEntry, setMem, setInode, h]

theorem setEntry_setEntry (ip' : Inode) : setEntry (setEntry s k ip) k ip' = setEntry s k ip' := by
  simp [setEntry, setMem, setInode]

theorem setEntry_blocks : (setEntry s k ip).blocks = s.blocks := rfl

theorem wp_modifyInode {env : Env} {E : String → Prop} {f : Inode → Inode} {Q : Unit → Fs → Prop} :
    wp (handle env) E (modifyInode k f) Q s ↔ Q () (setEntry s k (f (s.mem.itable k))) :=
  wp_def _ _ _

theorem silent_modifyInode (k : Fin ninode) (f : Inode → Inode) : Every Silent (modifyInode k f) :=
  silent_writeMem _

end Entry

section Good
variable {sb : Superblock} {D : Inodes} {own : Owners} {X : ℕ → Prop} {s : Fs} {k : Fin ninode}

/-- A change of one entry of the table keeps `Good`, provided the entry is right
and an inode that drops out of the table is up to date on disk. -/
theorem good_setEntry (h : Good sb D own X s) {ip : Inode}
    (hcopy : 0 < ip.ref → ip.valid = true →
      ip.inum < sb.ninodes ∧ ip.copy = D ip.inum ∧ (D ip.inum).type ≠ 0)
    (hunique : 0 < ip.ref → ∀ k', k' ≠ k → 0 < (s.mem.itable k').ref →
      (s.mem.itable k').inum ≠ ip.inum)
    (habsent : ∀ i, i < sb.ninodes → InUse s k i →
      (0 < ip.ref ∧ ip.inum = i ∧ ip.valid = true) ∨ diskInode sb s.blocks i = D i) :
    Good sb D own X (setEntry s k ip) := by
  constructor
  · exact h.stored
  · intro k' href hvalid
    by_cases hk : k' = k
    · rw [hk, setEntry_self] at href hvalid ⊢
      exact hcopy href hvalid
    · rw [setEntry_of_ne hk] at href hvalid ⊢
      exact h.copies k' href hvalid
  · intro k₁ k₂ h₁ h₂ heq
    by_cases hk₁ : k₁ = k
    · by_cases hk₂ : k₂ = k
      · rw [hk₁, hk₂]
      · rw [hk₁, setEntry_self] at h₁ heq
        rw [setEntry_of_ne hk₂] at h₂ heq
        exact absurd heq.symm (hunique h₁ k₂ hk₂ h₂)
    · rw [setEntry_of_ne hk₁] at h₁ heq
      by_cases hk₂ : k₂ = k
      · rw [hk₂, setEntry_self] at h₂ heq
        exact absurd heq (hunique h₂ k₁ hk₁ h₁)
      · rw [setEntry_of_ne hk₂] at h₂ heq
        exact h.unique k₁ k₂ h₁ h₂ heq
  · intro i hi hnone
    by_cases hin : InUse s k i
    · cases habsent i hi hin with
      | inl hnew =>
        have := hnone k (by rw [setEntry_self]; exact hnew.1)
          (by rw [setEntry_self]; exact hnew.2.1)
        rw [setEntry_self, hnew.2.2] at this
        cases this
      | inr hdisk => exact hdisk
    · apply h.absent i hi
      intro k' href hinum
      by_cases hk : k' = k
      · subst hk
        cases hv : (s.mem.itable k').valid with
        | false => rfl
        | true => exact absurd ⟨href,hv,hinum⟩ hin
      · have := hnone k' (by rw [setEntry_of_ne hk]; exact href)
          (by rw [setEntry_of_ne hk]; exact hinum)
        rwa [setEntry_of_ne hk] at this
  · exact h.lag

theorem good_entry_fields (h : Good sb D own X s) {ref : ℕ} {lock : Option Slot}
    (href : 0 < (s.mem.itable k).ref) (hpos : 0 < ref) :
    Good sb D own X (setEntry s k { s.mem.itable k with ref := ref, lock := lock }) := by
  apply good_setEntry h
  · exact fun _ hv => h.copies k href hv
  · exact fun _ k' hk hr heq => hk (h.unique k' k hr href heq)
  · exact fun i _ hin => .inl ⟨hpos,hin.inum,hin.valid⟩

end Good

section Iget
variable {sb : Superblock} {D : Inodes} {own : Owners} {X : ℕ → Prop} {s : Fs} {k : Fin ninode}
variable {env : Env} {E : String → Prop} {inum : ℕ}

def Gets (s : Fs) (inum : ℕ) (k : Fin ninode) : Prop :=
  (0 < (s.mem.itable k).ref ∧ (s.mem.itable k).inum = inum) ∨
  ((s.mem.itable k).ref = 0 ∧ ∀ k', 0 < (s.mem.itable k').ref → (s.mem.itable k').inum ≠ inum)

theorem igetEntry_gets (h : igetEntry s.mem.itable inum = some k) : Gets s inum k := by
  unfold igetEntry at h
  split at h
  · rename_i k' hfind
    cases h
    have := List.find?_some hfind
    exact .inl (by simpa using this)
  · rename_i hnone
    have hfree := List.find?_some h
    refine .inr ⟨by simpa using hfree,fun k' hr heq => ?_⟩
    have := List.find?_eq_none.mp hnone k' (List.mem_finRange k')
    simp [hr, heq] at this

def got (s : Fs) (inum : ℕ) (k : Fin ninode) : Fs := setEntry s k (igetInode (s.mem.itable k) inum)

def Room (s : Fs) : Prop := ∃ k, (s.mem.itable k).ref = 0

theorem igetEntry_room (h : Room s) : igetEntry s.mem.itable inum ≠ none := by
  obtain ⟨k,hk⟩ := h
  unfold igetEntry
  split
  · nofun
  · intro hnone
    have := List.find?_eq_none.mp hnone k (List.mem_finRange k)
    simp [hk] at this

theorem wp_iget {Q : Fin ninode → Fs → Prop} (hE : Room s ∨ E "iget: no inodes")
    (hQ : ∀ k, Gets s inum k → Q k (got s inum k)) : wp (handle env) E (iget inum) Q s := by
  rw [iget, wp_bind]
  apply wp_atomic
  intro r m hf
  cases hentry : igetEntry s.mem.itable inum with
  | none =>
    rw [hentry] at hf
    cases hf
    exact wp_kpanic.mpr (hE.resolve_left (fun hroom => igetEntry_room hroom hentry))
  | some k =>
    rw [hentry] at hf
    cases hf
    exact wp_pure.mpr (hQ k (igetEntry_gets hentry))

theorem got_entry (h : Gets s inum k) : ((got s inum k).mem.itable k).inum = inum ∧
    ((got s inum k).mem.itable k).ref = (s.mem.itable k).ref+1 ∧
    ((got s inum k).mem.itable k).lock = (s.mem.itable k).lock := by
  rw [got, setEntry_self, igetInode]
  cases h with
  | inl h =>
    rw [if_pos h.1]
    exact ⟨h.2,rfl,rfl⟩
  | inr h =>
    rw [if_neg (by omega), h.1]
    exact ⟨rfl,rfl,rfl⟩

theorem good_got (h : Good sb D own X s) (hk : Gets s inum k) : Good sb D own X (got s inum k) := by
  unfold got igetInode
  cases hk with
  | inl hk =>
    rw [if_pos hk.1]
    exact good_entry_fields h hk.1 (Nat.succ_pos _)
  | inr hk =>
    rw [if_neg (by omega)]
    apply good_setEntry h
    · exact fun _ hv => Bool.noConfusion hv
    · exact fun _ k' _ hr => hk.2 k' hr
    · intro i _ hin
      have := hin.ref
      omega

end Iget

section Ilock
variable {sb : Superblock} {D : Inodes} {own : Owners} {X : ℕ → Prop} {s : Fs} {k : Fin ninode}
variable {env : Env} {E : String → Prop} {i : ℕ} {p : Slot}

def locked (s : Fs) (k : Fin ninode) (p : Slot) (d : Dinode) : Fs :=
  setEntry s k { s.mem.itable k with lock := some p, valid := true, copy := d }

theorem good_locked (h : Good sb D own X s) (href : 0 < (s.mem.itable k).ref)
    (hinum : (s.mem.itable k).inum = i) (hi : i < sb.ninodes) (htype : (D i).type ≠ 0) :
    Good sb D own X (locked s k p (D i)) := by
  apply good_setEntry h
  · intro _ _
    dsimp only
    rw [hinum]
    exact ⟨hi,rfl,htype⟩
  · exact fun _ k' hk hr heq => hk (h.unique k' k hr href heq)
  · exact fun j _ hin => .inl ⟨href,hin.inum,rfl⟩

theorem inUse_locked (href : 0 < (s.mem.itable k).ref) (hinum : (s.mem.itable k).inum = i)
    (d : Dinode) : InUse (locked s k p d) k i := by
  constructor
  · rw [locked, setEntry_self]
    exact href
  · rw [locked, setEntry_self]
  · rw [locked, setEntry_self]
    exact hinum

/-- What `ilock` finds in entry `k`: the copy there, or the inode on disk. -/
def found (sb : Superblock) (s : Fs) (k : Fin ninode) : Dinode :=
  if (s.mem.itable k).valid then (s.mem.itable k).copy
  else diskInode sb s.blocks (s.mem.itable k).inum

variable {Q : Unit → Fs → Prop}

theorem wp_ilock_found (hE : 0 < (s.mem.itable k).ref ∨ E "ilock")
    (hE' : (s.mem.itable k).valid = true ∨ (found sb s k).type ≠ 0 ∨ E "ilock: no type")
    (hQ : 0 < (s.mem.itable k).ref → (s.mem.itable k).lock = none →
      (s.mem.itable k).valid = true ∨ (found sb s k).type ≠ 0 →
      Q () (locked s k p (found sb s k))) : wp (handle env) E (ilock sb p k) Q s := by
  rw [ilock, wp_bind, wp_getInode]
  apply wp_ite
  · intro href
    exact wp_kpanic.mpr (hE.resolve_left (by omega))
  · intro href
    have href' : 0 < (s.mem.itable k).ref := by omega
    rw [wp_bind]
    apply wp_atomic
    intro r m hf
    split_ifs at hf with hlock
    cases hf
    change wp _ _ _ _ (setEntry s k { s.mem.itable k with lock := some p })
    have hfree : (s.mem.itable k).lock = none := by
      cases hl : (s.mem.itable k).lock with
      | none => rfl
      | some q => simp [hl] at hlock
    rw [wp_bind, wp_getInode, setEntry_self]
    apply wp_ite
    · intro hv
      have hv' : (s.mem.itable k).valid = true := hv
      have := hQ href' hfree (.inl hv')
      rw [locked, found, if_pos hv', ← hv'] at this
      exact wp_pure.mpr this
    · intro hv
      have hv' : ¬(s.mem.itable k).valid = true := hv
      have hdisk : getDinode (s.blocks (iblock sb (s.mem.itable k).inum))
          ((s.mem.itable k).inum%ipb) = found sb s k := by
        rw [found, if_neg hv', diskInode]
      simp only [wp_bind, wp_bread, modifyCopy, wp_modifyInode, wp_brelse, wp_getInode,
        setEntry_self, setEntry_setEntry, setEntry_blocks, hdisk]
      apply wp_ite
      · intro htype
        exact wp_kpanic.mpr ((hE'.resolve_left hv').resolve_left (fun hne => hne htype))
      · exact fun htype => wp_pure.mpr (hQ href' hfree (.inr htype))

theorem wp_ilock (h : Good sb D own X s) (hinum : (s.mem.itable k).inum = i) (hi : i < sb.ninodes)
    (hE : 0 < (s.mem.itable k).ref ∨ E "ilock") (hE' : (D i).type ≠ 0 ∨ E "ilock: no type")
    (hQ : 0 < (s.mem.itable k).ref → (s.mem.itable k).lock = none → (D i).type ≠ 0 →
      Q () (locked s k p (D i))) : wp (handle env) E (ilock sb p k) Q s := by
  have hfound : 0 < (s.mem.itable k).ref → found sb s k = D i := by
    intro href
    rw [found]
    split_ifs with hv
    · rw [(h.copies k href hv).2.1, hinum]
    · rw [hinum]
      apply h.absent i hi
      intro k' hr' hi'
      rw [h.unique k' k hr' href (hi'.trans hinum.symm)]
      exact Bool.not_eq_true _ ▸ hv
  by_cases href : 0 < (s.mem.itable k).ref
  · apply wp_ilock_found hE
    · rw [hfound href]
      exact .inr hE'
    · intro _ hlock hok
      rw [hfound href] at hok ⊢
      refine hQ href hlock (hok.elim (fun hv => ?_) id)
      have := (h.copies k href hv).2.2
      rwa [hinum] at this
  · rw [ilock, wp_bind, wp_getInode, if_pos (by omega)]
    exact wp_kpanic.mpr (hE.resolve_left href)

end Ilock

section Unlock
variable {sb : Superblock} {D : Inodes} {own : Owners} {X : ℕ → Prop} {s : Fs} {k : Fin ninode}
variable {env : Env} {E : String → Prop} {p : Slot}

def unlocked (s : Fs) (k : Fin ninode) : Fs := setEntry s k { s.mem.itable k with lock := none }

theorem good_unlocked (h : Good sb D own X s) (href : 0 < (s.mem.itable k).ref) :
    Good sb D own X (unlocked s k) := good_entry_fields h href href

theorem wp_iunlock (hlock : (s.mem.itable k).lock = some p) (href : 0 < (s.mem.itable k).ref)
    {Q : Unit → Fs → Prop} (hQ : Q () (unlocked s k)) :
    wp (handle env) E (iunlock p k) Q s := by
  rw [iunlock, wp_bind, wp_getInode, if_neg]
  · exact wp_modifyInode.mpr hQ
  · rintro (h | h)
    · exact h hlock
    · omega

end Unlock

section Ialloc
variable {sb : Superblock} {D : Inodes} {own : Owners} {X : ℕ → Prop} {s : Fs} {k : Fin ninode}
variable {env : Env} {E : String → Prop} {i : ℕ} {type : BitVec 16}

def freshInode (type : BitVec 16) : Dinode := { zeroDinode with type := type }

theorem wp_ialloc {Q : Option (Fin ninode) → Fs → Prop} (hE : Room s ∨ E "iget: no inodes")
    (hnone : Q none s)
    (hQ : ∀ i k, 0 < i → i < sb.ninodes → (diskInode sb s.blocks i).type = 0 → Gets s i k →
      Q (some k) (got (inodeWritten sb s i (freshInode type)) i k)) :
    wp (handle env) E (ialloc sb type) Q s := by
  have hloop : ∀ left i, 0 < i → i+left ≤ max i sb.ninodes →
      wp (handle env) E (iallocFrom sb type left i) Q s := by
    intro left
    induction left with
    | zero => exact fun _ _ _ => wp_pure.mpr hnone
    | succ left ih =>
      intro i hpos hi
      rw [iallocFrom, wp_bind, wp_bread]
      apply wp_ite
      · intro htype
        simp only [wp_bind, wp_setData, wp_logWrite, wp_brelse]
        refine wp_iget (by exact hE) ?_
        exact fun k hk => wp_pure.mpr (hQ i k hpos (by omega) htype hk)
      · intro _
        rw [wp_bind, wp_brelse]
        exact ih (i+1) (Nat.succ_pos i) (by omega)
  exact hloop (sb.ninodes-1) 1 Nat.one_pos (by omega)

theorem good_ialloc (hsb : Layout sb) (h : Good sb D own X s) (hi : i < sb.ninodes) (hX : ¬ X i)
    (hfree : (diskInode sb s.blocks i).type = 0) (htype : type ≠ 0) :
    Good sb (update D i (freshInode type)) own X
      (inodeWritten sb s i (freshInode type)) := by
  have hD : (D i).type = 0 := by
    rw [(h.lag i hi hX).fields]
    exact hfree
  have haddrs : (freshInode type).addrs = (D i).addrs :=
    funext (fun k => (h.stored.empty i hi hD k).symm)
  have hst := stored_inodeWritten hsb h.stored hi (freshInode type)
  have hbytes : ∀ j, j < sb.ninodes → ∀ d, Sub d (D j) → ∀ o,
      byteAt (inodeWritten sb s i (freshInode type)).blocks d o = byteAt s.blocks d o :=
    fun j hj d hd o => inodeWritten_byteAt hsb h.stored hi hj hd o
  constructor
  · exact stored_fields hst haddrs (.inl htype) (Nat.zero_le _)
  · intro k' href hvalid
    obtain ⟨hlt,hcopy,ht⟩ := h.copies k' href hvalid
    have hne : (s.mem.itable k').inum ≠ i := fun heq => ht (heq ▸ hD)
    refine ⟨hlt,?_⟩
    show (s.mem.itable k').copy = update D i _ (s.mem.itable k').inum ∧
      (update D i _ (s.mem.itable k').inum).type ≠ 0
    rw [update_of_ne hne]
    exact ⟨hcopy,ht⟩
  · exact h.unique
  · intro j hj hnone
    rw [inodeWritten_disk]
    by_cases hji : j = i
    · rw [hji, if_pos rfl, update_self]
    · rw [if_neg hji, update_of_ne hji]
      exact h.absent j hj hnone
  · intro j hj hXj
    rw [inodeWritten_disk]
    by_cases hji : j = i
    · rw [hji, if_pos rfl, update_self]
      exact lag_refl _ _
    · rw [if_neg hji, update_of_ne hji]
      have hl := h.lag j hj hXj
      refine ⟨hl.fields,hl.sub,fun o => ?_⟩
      rw [hbytes j hj _ hl.sub o, hl.bytes o, hbytes j hj _ (sub_refl _) o]

end Ialloc

section Data
variable {sb : Superblock} {D : Inodes} {own : Owners} {blocks blocks' : Blocks}

theorem byteAt_data (h : Stored sb D own blocks)
    (hdata : ∀ b, dataStart sb ≤ b → blocks' b = blocks b) {j : ℕ} (hj : j < sb.ninodes)
    {d : Dinode} (hd : Sub d (D j)) (o : ℕ) : byteAt blocks' d o = byteAt blocks d o := by
  simp only [byteAt, addrOf_data h hdata hj hd]
  split_ifs with hz
  · rfl
  · rw [hdata _ (placed_range h (owned_of_sub h hj hd hz)).1]

end Data

def freedInode (d : Dinode) : Dinode := { d with type := 0, size := 0, addrs := fun _ => 0 }

/-- What an `iput` that frees inode `i`, cached in entry `k` as `d`, does. -/
structure Released (sb : Superblock) (k : Fin ninode) (i : ℕ) (d : Dinode) (s s' : Fs) : Prop where
  bits : ∀ b, bitOf sb s'.blocks b = true ↔ bitOf sb s.blocks b = true ∧ ¬ Refers s.blocks d b
  disk : ∀ j, j < sb.ninodes → diskInode sb s'.blocks j =
    if j = i then freedInode d else diskInode sb s.blocks j
  data : ∀ b, dataStart sb ≤ b → s'.blocks b = s.blocks b
  mem : s'.mem = setInode s.mem k { s.mem.itable k with
    ref := (s.mem.itable k).ref-1
    lock := none
    valid := false
    copy := freedInode d }

structure Freed (sb : Superblock) (k : Fin ninode) (i : ℕ) (D : Inodes) (own : Owners) (s s' : Fs) :
    Prop where
  stored : Stored sb (update D i (freedInode (D i))) (handOver own i .free) s'.blocks
  disk : ∀ j, j < sb.ninodes → diskInode sb s'.blocks j =
    if j = i then freedInode (D i) else diskInode sb s.blocks j
  data : ∀ b, dataStart sb ≤ b → s'.blocks b = s.blocks b
  mem : s'.mem = setInode s.mem k { s.mem.itable k with
    ref := (s.mem.itable k).ref-1
    lock := none
    valid := false
    copy := freedInode (D i) }

def dropped (s : Fs) (k : Fin ninode) : Fs :=
  setEntry s k { s.mem.itable k with ref := (s.mem.itable k).ref-1 }

section Iput
variable {sb : Superblock} {D : Inodes} {own : Owners} {X : ℕ → Prop} {s s' : Fs} {k : Fin ninode}
variable {env : Env} {E : String → Prop} {i : ℕ} {p : Slot}

theorem good_dropped (h : Good sb D own X s) (hinum : (s.mem.itable k).inum = i)
    (hcase : 1 < (s.mem.itable k).ref ∨ (s.mem.itable k).valid = false ∨
      diskInode sb s.blocks i = D i) : Good sb D own X (dropped s k) := by
  apply good_setEntry h
  · intro href hv
    dsimp only at href
    exact h.copies k (by omega) hv
  · intro href k' hk hr heq
    dsimp only at href
    exact hk (h.unique k' k hr (by omega) heq)
  · intro j _ hin
    rcases hcase with hr | hv | hd
    · exact .inl ⟨by dsimp only; omega,hin.inum,hin.valid⟩
    · rw [hin.valid] at hv
      cases hv
    · rw [← hin.inum, hinum]
      exact .inr hd

theorem good_freed (h : Good sb D own X s) (hinum : (s.mem.itable k).inum = i)
    (href : (s.mem.itable k).ref = 1) (hf : Freed sb k i D own s s') :
    Good sb (update D i (freedInode (D i))) (handOver own i .free) X s' := by
  have hself : (s'.mem.itable k).ref = 0 := by
    rw [hf.mem]
    simp [setInode, href]
  have hother : ∀ k', k' ≠ k → s'.mem.itable k' = s.mem.itable k' := by
    intro k' hk
    rw [hf.mem]
    simp [setInode, hk]
  have hinum' : ∀ k', k' ≠ k → 0 < (s.mem.itable k').ref → (s.mem.itable k').inum ≠ i :=
    fun k' hk hr heq => hk (h.unique k' k hr (by omega) (heq.trans hinum.symm))
  constructor
  · exact hf.stored
  · intro k' hr hv
    have hk : k' ≠ k := by
      rintro rfl
      omega
    rw [hother k' hk] at hr hv ⊢
    rw [update_of_ne (hinum' k' hk hr)]
    exact h.copies k' hr hv
  · intro k₁ k₂ h₁ h₂ heq
    have hk₁ : k₁ ≠ k := by
      rintro rfl
      omega
    have hk₂ : k₂ ≠ k := by
      rintro rfl
      omega
    rw [hother k₁ hk₁] at h₁ heq
    rw [hother k₂ hk₂] at h₂ heq
    exact h.unique k₁ k₂ h₁ h₂ heq
  · intro j hj hnone
    rw [hf.disk j hj]
    by_cases hji : j = i
    · rw [if_pos hji, hji, update_self]
    · rw [if_neg hji, update_of_ne hji]
      apply h.absent j hj
      intro k' hr heq
      have hk : k' ≠ k := by
        rintro rfl
        exact hji (heq.symm.trans hinum)
      rw [← hother k' hk] at hr heq ⊢
      exact hnone k' hr heq
  · intro j hj hX
    rw [hf.disk j hj]
    by_cases hji : j = i
    · rw [if_pos hji, hji, update_self]
      exact lag_refl _ _
    · rw [if_neg hji, update_of_ne hji]
      have hl := h.lag j hj hX
      refine ⟨hl.fields,hl.sub,fun o => ?_⟩
      rw [byteAt_data h.stored hf.data hj hl.sub, hl.bytes o,
        byteAt_data h.stored hf.data hj (sub_refl _)]

theorem good_truncated (h : Good sb D own X s) (hk : InUse s k i)
    (ht : Truncated sb k i D own s s') :
    Good sb (update D i (truncated (D i))) (handOver own i .free) (fun j => X j ∧ j ≠ i) s' := by
  have hopen := good_open h hk
  apply good_save h hk ht.stored (fun j hji => update_of_ne hji _ _)
  · rw [update_self]
    exact hopen.type_ne
  · rw [update_self]
    exact ht.mem
  · exact fun j hj hji => (ht.disk j hj).trans (if_neg hji)
  · rw [ht.disk i hopen.inum_lt, if_pos rfl, update_self]
  · exact fun j hj _ e he o => byteAt_data h.stored ht.data hj he o

variable {Q : Unit → Fs → Prop}

/-- The last reference to an inode without links frees it, and logs blocks of the bitmap and the
inode's block for that. -/
theorem wpt_iput_unshared {Q : Unit → Fs → List ℕ → Prop} (hsb : Layout sb)
    (hinum : (s.mem.itable k).inum = i) {d : Dinode}
    (hcopy : (s.mem.itable k).copy = d)
    (hlast : (s.mem.itable k).ref = 1 → (s.mem.itable k).valid = true → d.nlink = 0 →
      i < sb.ninodes ∧ Unshared sb s.blocks d)
    (hdrop : ¬ ((s.mem.itable k).ref = 1 ∧ (s.mem.itable k).valid = true ∧ d.nlink = 0) →
      Q () (dropped s k) [])
    (hfree : ∀ s' l, (s.mem.itable k).ref = 1 → (s.mem.itable k).valid = true → d.nlink = 0 →
      (s.mem.itable k).lock = none → Released sb k i d s s' → InBitmap sb l →
      Q () s' (l++[iblock sb i,iblock sb i])) :
    wpt (handle env) logged E (iput sb p k) Q s := by
  subst hcopy
  rw [iput, iputEnter, wpt_silent_bind (silent_atomic _)]
  apply wp_atomic
  intro r m hf
  dsimp only at hf
  split_ifs at hf with hcase hlock
  · cases hf
    obtain ⟨href,hvalid,hnlink⟩ := hcase
    obtain ⟨hi,hun⟩ := hlast href hvalid hnlink
    have hnone : (s.mem.itable k).lock = none := by
      cases hl : (s.mem.itable k).lock with
      | none => rfl
      | some q => simp [hl] at hlock
    change wpt _ _ _ _ _ (setEntry s k { s.mem.itable k with lock := some p })
    rw [if_pos rfl, wpt_bind]
    apply wpt_itrunc_unshared hsb (by rw [setEntry_blocks]; exact hun) hi
    · rw [setEntry_self]
    · rw [setEntry_self]
      exact hinum
    intro s₁ l he hl
    have hentry : s₁.mem.itable k = { s.mem.itable k with
        lock := some p
        copy := truncated (s.mem.itable k).copy } := by
      rw [he.mem, withCopy_itable_self, setEntry_self]
    rw [wpt_silent_bind (silent_modifyCopy k _), modifyCopy, wp_modifyInode, wpt_bind, wpt_iupdate,
      wpt_silent_bind (silent_modifyInode k _), wp_modifyInode, releasesleep,
      wpt_silent_bind (silent_modifyInode k _), wp_modifyInode, wpt_silent (silent_modifyInode k _),
      wp_modifyInode]
    simp only [setEntry_self, setEntry_setEntry, hentry, hinum, List.append_assoc, List.append_nil,
      List.cons_append, List.nil_append]
    refine hfree _ l href hvalid hnlink hnone ⟨?_,?_,?_,?_⟩ hl
    · intro b
      refine (iff_of_eq (congrArg (· = true) (bitOf_update_of_ne ?_))).trans (he.bits b)
      exact (iblock_ne_bblock hsb hi).symm
    · intro j hj
      refine (inodeWritten_disk i j _).trans ?_
      split_ifs with hji
      · rfl
      · exact (he.disk j hj).trans (if_neg hji)
    · intro b hb
      have := iblock_lt_data hsb hi
      exact (update_of_ne (by omega) _ _).trans (he.data b hb)
    · show setInode (setInode s₁.mem k _) k _ = _
      rw [he.mem]
      simp [inodeWritten_mem, withCopy, setInode, setEntry, setMem, truncated, freedInode, hinum]
  · cases hf
    rw [if_neg (by decide)]
    exact wpt_pure.mpr (hdrop hcase)

theorem wp_iput_unshared (hsb : Layout sb) (hinum : (s.mem.itable k).inum = i) {d : Dinode}
    (hcopy : (s.mem.itable k).copy = d)
    (hlast : (s.mem.itable k).ref = 1 → (s.mem.itable k).valid = true → d.nlink = 0 →
      i < sb.ninodes ∧ Unshared sb s.blocks d)
    (hdrop : ¬ ((s.mem.itable k).ref = 1 ∧ (s.mem.itable k).valid = true ∧ d.nlink = 0) →
      Q () (dropped s k))
    (hfree : ∀ s', (s.mem.itable k).ref = 1 → (s.mem.itable k).valid = true → d.nlink = 0 →
      (s.mem.itable k).lock = none → Released sb k i d s s' → Q () s') :
    wp (handle env) E (iput sb p k) Q s :=
  wp_of_wpt (wpt_iput_unshared hsb hinum hcopy hlast hdrop
    (fun s' _ h1 hv hn hl hrel _ => hfree s' h1 hv hn hl hrel))

theorem wp_iput (hsb : Layout sb) (h : Good sb D own X s) (hinum : (s.mem.itable k).inum = i)
    (hdrop : ¬ ((s.mem.itable k).ref = 1 ∧ (s.mem.itable k).valid = true ∧
      (s.mem.itable k).copy.nlink = 0) → Q () (dropped s k))
    (hfree : ∀ s', InUse s k i → (s.mem.itable k).ref = 1 → (D i).nlink = 0 →
      (s.mem.itable k).lock = none → Freed sb k i D own s s' → Q () s') :
    wp (handle env) E (iput sb p k) Q s := by
  have hopen : (s.mem.itable k).ref = 1 → (s.mem.itable k).valid = true → Open sb D own s k i :=
    fun href hvalid => good_open h ⟨by omega,hvalid,hinum⟩
  apply wp_iput_unshared hsb hinum rfl _ hdrop
  · intro s' href hvalid hnlink hlock hrel
    have ho := hopen href hvalid
    rw [ho.copy] at hnlink hrel
    refine hfree s' ⟨by omega,hvalid,hinum⟩ href hnlink hlock ⟨?_,hrel.disk,hrel.data,hrel.mem⟩
    exact stored_emptied h.stored ho.inum_lt (fun _ => rfl) rfl hrel.bits hrel.data
  · intro href hvalid _
    have ho := hopen href hvalid
    rw [ho.copy]
    exact ⟨ho.inum_lt,unshared_of_stored h.stored ho.inum_lt⟩

end Iput

end GreenOS.FsTable
