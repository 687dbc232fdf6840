import GreenOS.BlockRuns
import GreenOS.WriteChunk

/-!
# Reclaiming orphans at boot

`ireclaim` reads every inode on disk and drops a reference to each one that is
allocated and has no links, so that `iput` frees it, in a transaction for each.
An inode that a process refers to already keeps that reference and is not freed:
at boot this is the root directory, in which `userinit` starts the first process.
-/

namespace GreenOS.OrphanReclaim
open Programs ByteBlock LogCode DiskLayout ProcTable
open BufferSeq (Env quiet)
open FsMemory FsCode FsDirect FsOwned FsTrunc
open FsTable FsNames FileBytes WriteChunk
open BlockRuns ProgramTraces
open FsLogged (State Unlogged idle writes exec_logged returns_unlogged body_of_unlogged
  body_of_prompt writes_last_ok)

def setCwd (m : Mem) (p : Slot) (ip : Option (Fin ninode)) : Mem :=
  { m with cwd := Function.update m.cwd p ip }

section Code
variable (sb : Superblock)

/-- The reference `ireclaim` takes to an inode with these fields on disk. -/
def orphan (inum : ℕ) (dip : Dinode) : F (Option (Fin ninode)) :=
  if dip.type ≠ 0 ∧ dip.nlink = 0 then do
    let ip ← iget inum
    pure (some ip)
  else pure none

def dropOrphan (p : Slot) : Option (Fin ninode) → F Unit
  | none => pure ()
  | some ip => do
    beginOp
    ilock sb p ip
    iunlock p ip
    iput sb p ip
    endOp

def ireclaimFrom (p : Slot) : ℕ → ℕ → F Unit
  | 0, _ => pure ()
  | left+1, inum => do
    let data ← bread (iblock sb inum)
    let ip ← orphan inum (getDinode data (inum%ipb))
    brelse (iblock sb inum)
    dropOrphan sb p ip
    ireclaimFrom p left (inum+1)

def ireclaim (p : Slot) : F Unit := ireclaimFrom sb p (sb.ninodes-1) 1

def userinit (p : Slot) : F Unit := do
  let ip ← namei sb p [slash]
  writeMem (fun m => setCwd m p ip)

end Code

def initMem (p : Slot) : Mem :=
  setCwd (setInode bootMem 0 ⟨rootino,1,none,false,zeroDinode⟩) p (some 0)

theorem userinit_boot (sb : Superblock) (env : Env) (p : Slot) (blocks : Blocks) :
    exec (FsLogged.handle env) (userinit sb p) ⟨⟨blocks,bootMem⟩,idle⟩ =
      .ok ((),⟨⟨blocks,initMem p⟩,idle⟩) := rfl

section Ops
variable {sb : Superblock} {s : Fs} {k : Fin ninode} {env : Env} {p : Slot}

theorem unlogged_iget (inum : ℕ) : Every Unlogged (iget inum) := by
  apply every_bind (every_perform trivial)
  intro found
  cases found with
  | none => exact every_kpanic trivial
  | some k => exact every_pure k

theorem igetEntry_room (hroom : ∃ k, (s.mem.itable k).ref = 0) (inum : ℕ) :
    ∃ k, igetEntry s.mem.itable inum = some k := by
  obtain ⟨k,hk⟩ := hroom
  unfold igetEntry
  split
  · exact ⟨_,rfl⟩
  · apply Option.isSome_iff_exists.mp
    rw [List.find?_isSome]
    exact ⟨k,List.mem_finRange k,by simp [hk]⟩

theorem returns_iget (hroom : ∃ k, (s.mem.itable k).ref = 0) (inum : ℕ) :
    Returns (handle env) (iget inum) (fun k s' => Gets s inum k ∧ s' = got s inum k) s := by
  obtain ⟨k,hk⟩ := igetEntry_room hroom inum
  refine ⟨k,got s inum k,?_,igetEntry_gets hk,rfl⟩
  rw [iget, exec_bind, exec_atomic]
  simp only [hk]
  rfl

theorem returns_ilock (href : 0 < (s.mem.itable k).ref) (hlock : (s.mem.itable k).lock = none)
    (hok : (s.mem.itable k).valid = true ∨ (found sb s k).type ≠ 0) :
    Returns (handle env) (ilock sb p k) (fun _ s' => s' = locked s k p (found sb s k)) s :=
  exec_ok (wp_ilock_found (.inl href) (hok.imp_right .inl) (fun _ _ _ => rfl))
    (ilock_not_wait hlock)

theorem returns_iunlock (hlock : (s.mem.itable k).lock = some p) (href : 0 < (s.mem.itable k).ref) :
    Returns (handle env) (iunlock p k) (fun _ s' => s' = unlocked s k) s := by
  apply exec_ok (wp_iunlock hlock href rfl)
  refine exec_not_wait (prompt_not_wait env) ?_ s
  exact every_bind (every_prompt_readMem _) (fun _ => every_ite (every_kpanic trivial)
    (every_prompt_writeMem _))

theorem iput_prompt (sb : Superblock) (p : Slot) (k : Fin ninode) :
    ∃ rest : Bool → F Unit, iput sb p k = iputEnter p k >>= rest ∧
    ∀ last, Every Prompt (rest last) := by
  refine ⟨_,rfl,fun last => ?_⟩
  apply every_ite _ (every_pure _)
  apply every_bind prompt_itrunc
  intro _
  apply every_bind (prompt_modifyCopy _)
  intro _
  apply every_bind prompt_iupdate
  intro _
  apply every_bind (every_prompt_writeMem _)
  intro _
  exact every_bind (every_prompt_writeMem _) (fun _ => every_prompt_writeMem _)

theorem iput_not_wait (hlock : (s.mem.itable k).lock = none) :
    exec (handle env) (iput sb p k) s ≠ .wait := by
  obtain ⟨rest,hiput,hrest⟩ := iput_prompt sb p k
  rw [hiput]
  apply bind_not_wait
  · rw [iputEnter, exec_atomic]
    simp only [hlock, Option.isSome_none, Bool.false_eq_true, if_false]
    split_ifs
    · intro h
      cases h
    · intro h
      cases h
  · exact fun last s' _ => exec_not_wait (prompt_not_wait env) (hrest last) s'

theorem card_inBitmap {l : List ℕ} (hl : InBitmap sb l) (b : ℕ) :
    (l++[b]).toFinset.card ≤ sb.size/bpb+2 := by
  have hsub : l.toFinset ⊆ Finset.Ico sb.bmapstart (dataStart sb) := by
    intro x hx
    exact Finset.mem_Ico.mpr (hl x (List.mem_toFinset.mp hx))
  have hcard := Finset.card_le_card hsub
  have hdata : dataStart sb-sb.bmapstart = sb.size/bpb+1 := Nat.add_sub_cancel_left _ _
  rw [Nat.card_Ico, hdata] at hcard
  have hunion := Finset.card_union_le l.toFinset [b].toFinset
  rw [List.toFinset_append]
  have hone : [b].toFinset.card = 1 := rfl
  omega

def dropBody (sb : Superblock) (p : Slot) (k : Fin ninode) : F Unit := do
  ilock sb p k
  iunlock p k
  iput sb p k

theorem body_dropBody : Every FsLogged.Body (dropBody sb p k) := by
  obtain ⟨rest,hiput,hrest⟩ := iput_prompt sb p k
  rw [dropBody, hiput]
  apply every_bind (every_mono body_of_unlogged unlogged_ilock)
  intro _
  apply every_bind (every_mono body_of_unlogged unlogged_iunlock)
  intro _
  apply every_bind (every_perform trivial)
  exact fun last => every_mono body_of_prompt (hrest last)

/-- What a turn did to entry `k`, which was found with fields `d`: a reference taken and dropped
leaves the entry unlocked and its count as it was; the last one to an inode without links frees
it. -/
def Drops (sb : Superblock) (k : Fin ninode) (i : ℕ) (d : Dinode) (s s' : Fs) : Prop :=
  (1 < (s.mem.itable k).ref ∧ s' = setEntry s k { s.mem.itable k with
    ref := (s.mem.itable k).ref-1
    valid := true
    copy := d }) ∨
  ((s.mem.itable k).ref = 1 ∧ Released sb k i d s s')

theorem exec_dropBody (env : Env) (p : Slot) (hsb : Layout sb) {i : ℕ} {d : Dinode}
    (hlock : (s.mem.itable k).lock = none) (hd : found sb s k = d)
    (hinum : (s.mem.itable k).inum = i) (hi : i < sb.ninodes) (href : 0 < (s.mem.itable k).ref)
    (hok : (s.mem.itable k).valid = true ∨ d.type ≠ 0)
    (hlast : (s.mem.itable k).ref = 1 → d.nlink = 0 ∧ Unshared sb s.blocks d) :
    ∃ s', exec (handle env) (dropBody sb p k) s = .ok ((),s') ∧ Drops sb k i d s s' ∧
      (trace (handle env) logged (dropBody sb p k) s = [] ∨ ∃ l, InBitmap sb l ∧
        trace (handle env) logged (dropBody sb p k) s = l++[iblock sb i,iblock sb i]) := by
  subst hd
  have hilock : Returns (handle env) (ilock sb p k) _ s := returns_ilock href hlock hok
  have hiunlock : Returns (handle env) (iunlock p k) _ (locked s k p (found sb s k)) :=
    returns_iunlock (by rw [locked, setEntry_self]) (by rw [locked, setEntry_self]; exact href)
  obtain ⟨_,_,hx,rfl⟩ := hilock
  obtain ⟨_,_,hy,rfl⟩ := hiunlock
  -- the entry between `iunlock` and `iput`
  have hstate : unlocked (locked s k p (found sb s k)) k =
      setEntry s k { s.mem.itable k with valid := true, copy := found sb s k } := by
    rw [unlocked, locked, setEntry_self, setEntry_setEntry]
    simp only [hlock]
  rw [hstate] at hy
  have hiput : wpt (handle env) logged (fun _ => False) (iput sb p k)
      (fun _ s' l => Drops sb k i (found sb s k) s s' ∧
        (l = [] ∨ ∃ l', InBitmap sb l' ∧ l = l'++[iblock sb i,iblock sb i]))
      (setEntry s k { s.mem.itable k with valid := true, copy := found sb s k }) := by
    apply wpt_iput_unshared hsb (i := i)
    · rw [setEntry_self]
      exact hinum
    · rw [setEntry_self]
    · intro h1 _ _
      rw [setEntry_self] at h1
      exact ⟨hi,(hlast h1).2⟩
    · intro hnot
      rw [setEntry_self] at hnot
      have hne : (s.mem.itable k).ref ≠ 1 := fun h1 => hnot ⟨h1,rfl,(hlast h1).1⟩
      refine ⟨.inl ⟨by omega,?_⟩,.inl rfl⟩
      rw [dropped, setEntry_self, setEntry_setEntry]
    · intro s' l h1 _ _ _ hrel hl
      rw [setEntry_self] at h1
      refine ⟨.inr ⟨h1,hrel.bits,hrel.disk,hrel.data,?_⟩,.inr ⟨l,hl,rfl⟩⟩
      rw [hrel.mem]
      simp [setEntry, setMem, setInode]
  obtain ⟨_,s',hz,hdrops,hl⟩ :=
    exec_ok hiput (iput_not_wait (by rw [setEntry_self]; exact hlock))
  refine ⟨s',?_,hdrops,?_⟩
  · rw [dropBody, exec_bind_ok hx, exec_bind_ok hy, hz]
  · rw [dropBody, trace_bind hx, trace_silent silent_ilock, List.nil_append, trace_bind hy,
      trace_silent silent_iunlock, List.nil_append]
    exact hl

theorem returns_dropOrphan (hsb : Layout sb) (hlog : sb.size/bpb+2 < logblocks) {i : ℕ}
    {d : Dinode} (hlock : (s.mem.itable k).lock = none) (hd : found sb s k = d)
    (hinum : (s.mem.itable k).inum = i) (hi : i < sb.ninodes) (href : 0 < (s.mem.itable k).ref)
    (hok : (s.mem.itable k).valid = true ∨ d.type ≠ 0)
    (hlast : (s.mem.itable k).ref = 1 → d.nlink = 0 ∧ Unshared sb s.blocks d) :
    Returns (FsLogged.handle env) (dropOrphan sb p (some k))
      (fun _ s' => Drops sb k i d s s'.fs ∧ s' = ⟨s'.fs,idle⟩) ⟨s,idle⟩ := by
  obtain ⟨s',hexec,hdrops,htrace⟩ :=
    exec_dropBody env p hsb hlock hd hinum hi href hok hlast
  obtain ⟨lh,hw⟩ : ∃ lh, writes (trace (handle env) logged (dropBody sb p k) s) ⟨1,[]⟩ =
      .ok ⟨1,lh⟩ := by
    rcases htrace with hnil | ⟨l,hl,heq⟩
    · exact ⟨[],by rw [hnil]; rfl⟩
    · rw [heq, List.append_cons]
      exact writes_last_ok (t := ⟨1,[]⟩) Nat.one_pos List.nodup_nil
        (lt_of_le_of_lt (card_inBitmap hl _) hlog) _
  have hbody : exec (FsLogged.handle env) (dropBody sb p k) ⟨s,⟨1,[]⟩⟩ = .ok ((),⟨s',⟨1,lh⟩⟩) := by
    rw [exec_logged body_dropBody hw, hexec]
    rfl
  have hbegin : exec (FsLogged.handle env) beginOp ⟨s,idle⟩ = .ok ((),⟨s,⟨1,[]⟩⟩) := rfl
  have hassoc : dropOrphan sb p (some k) =
      beginOp >>= fun _ => dropBody sb p k >>= fun _ => endOp := by
    simp only [dropOrphan, dropBody, bind_assoc]
  refine ⟨(),⟨s',idle⟩,?_,hdrops,rfl⟩
  rw [hassoc, exec_bind_ok hbegin, exec_bind_ok hbody]
  rfl

end Ops

def Held (m : Mem) (i : ℕ) : Prop := ∃ k, 0 < (m.itable k).ref ∧ (m.itable k).inum = i

structure Doomed (sb : Superblock) (s : Fs) (i : ℕ) : Prop where
  pos : 0 < i
  lt : i < sb.ninodes
  type : (diskInode sb s.blocks i).type ≠ 0
  nlink : (diskInode sb s.blocks i).nlink = 0
  free : ¬ Held s.mem i

/-- In state `s`, reached from `s₀`, the scan has passed the inodes below `n`. -/
structure Swept (sb : Superblock) (s₀ : Fs) (n : ℕ) (s : Fs) : Prop where
  kept : ∀ j, j < sb.ninodes → ¬ (Doomed sb s₀ j ∧ j < n) →
    diskInode sb s.blocks j = diskInode sb s₀.blocks j
  gone : ∀ j, Doomed sb s₀ j → j < n → (diskInode sb s.blocks j).type = 0
  bits : ∀ b, bitOf sb s.blocks b = true ↔ bitOf sb s₀.blocks b = true ∧
    ¬ ∃ j, (Doomed sb s₀ j ∧ j < n) ∧ Refers s₀.blocks (diskInode sb s₀.blocks j) b
  data : ∀ b, dataStart sb ≤ b → s.blocks b = s₀.blocks b
  idle : ∀ k, (s.mem.itable k).lock = none
  refs : ∀ k, (s.mem.itable k).ref = (s₀.mem.itable k).ref
  inums : ∀ k, 0 < (s₀.mem.itable k).ref → (s.mem.itable k).inum = (s₀.mem.itable k).inum

section Sweep
variable {sb : Superblock} {s₀ s s' : Fs} {n : ℕ} {k : Fin ninode}

theorem swept_start (hidle : ∀ k, (s.mem.itable k).lock = none) : Swept sb s 1 s := by
  have hnone : ∀ j, ¬ (Doomed sb s j ∧ j < 1) := by
    rintro j ⟨hj,hlt⟩
    have := hj.pos
    omega
  refine ⟨fun _ _ _ => rfl,fun j hj hlt => absurd ⟨hj,hlt⟩ (hnone j),fun b => ?_,fun _ _ => rfl,
    hidle,fun _ => rfl,fun _ _ => rfl⟩
  exact ⟨fun hb => ⟨hb,fun ⟨j,hj,_⟩ => hnone j hj⟩,And.left⟩

theorem swept_pass (h : Swept sb s₀ n s) (hn : ¬ Doomed sb s₀ n) (hblocks : s'.blocks = s.blocks)
    (hidle : ∀ k, (s'.mem.itable k).lock = none)
    (hrefs : ∀ k, (s'.mem.itable k).ref = (s.mem.itable k).ref)
    (hinums : ∀ k, 0 < (s.mem.itable k).ref → (s'.mem.itable k).inum = (s.mem.itable k).inum) :
    Swept sb s₀ (n+1) s' := by
  have hiff : ∀ j, Doomed sb s₀ j ∧ j < n+1 ↔ Doomed sb s₀ j ∧ j < n := by
    intro j
    refine and_congr_right (fun hj => ?_)
    have : j ≠ n := fun hjn => hn (hjn ▸ hj)
    omega
  constructor
  · intro j hj hnot
    rw [hblocks]
    exact h.kept j hj (fun hc => hnot ((hiff j).mpr hc))
  · intro j hj hlt
    rw [hblocks]
    exact h.gone j hj ((hiff j).mp ⟨hj,hlt⟩).2
  · intro b
    simp only [hblocks, h.bits, hiff]
  · intro b hb
    rw [hblocks, h.data b hb]
  · exact hidle
  · exact fun k => (hrefs k).trans (h.refs k)
  · intro k hk
    rw [← h.inums k hk]
    exact hinums k (by rw [h.refs]; exact hk)

theorem held_swept (h : Swept sb s₀ n s) (i : ℕ) : Held s.mem i ↔ Held s₀.mem i := by
  refine exists_congr (fun k => ?_)
  rw [h.refs]
  exact and_congr_right (fun hk => by rw [h.inums k hk])

theorem addrOf_swept (hex : Exclusive sb s₀) (h : Swept sb s₀ n s) {i : ℕ} (hi : i < sb.ninodes)
    (pl : Place) : addrOf s.blocks (diskInode sb s₀.blocks i) pl =
      addrOf s₀.blocks (diskInode sb s₀.blocks i) pl := by
  cases pl with
  | inl k => rfl
  | inr j =>
    simp only [addrOf]
    split_ifs with hz
    · rfl
    · have hne : ((diskInode sb s₀.blocks i).addrs indirect).toNat ≠ 0 :=
        fun h0 => hz (BitVec.eq_of_toNat_eq h0)
      rw [h.data _ (hex.marked i _ hi ⟨hne,.inl indirect,rfl⟩).2.2.1]

theorem unshared_swept (hex : Exclusive sb s₀) (h : Swept sb s₀ n s) (hn : n < sb.ninodes) :
    Unshared sb s.blocks (diskInode sb s₀.blocks n) := by
  constructor
  · intro pl pl' h0 heq
    rw [addrOf_swept hex h hn] at h0
    rw [addrOf_swept hex h hn, addrOf_swept hex h hn] at heq
    exact (hex.once n n pl pl' hn hn h0 heq).2
  · intro pl h0
    rw [addrOf_swept hex h hn] at h0 ⊢
    obtain ⟨-,hbit,hrange⟩ := hex.marked n _ hn ⟨h0,pl,rfl⟩
    refine ⟨(h.bits _).mpr ⟨hbit,?_⟩,hrange⟩
    -- a block of an inode freed earlier is not a block of this one
    rintro ⟨j,⟨hj,hjn⟩,-,pl',heq⟩
    have := (hex.once n j pl pl' hn hj.lt h0 heq.symm).1
    omega

theorem swept_free (hex : Exclusive sb s₀) (h : Swept sb s₀ n s) (hn : Doomed sb s₀ n)
    (hk : (s.mem.itable k).ref = 0)
    (hrel : Released sb k n (diskInode sb s₀.blocks n) (got s n k) s')
    (hgot : ((got s n k).mem.itable k).ref = 1) : Swept sb s₀ (n+1) s' := by
  have hother : ∀ k', k' ≠ k → s'.mem.itable k' = s.mem.itable k' := by
    intro k' hne
    rw [hrel.mem]
    simp [setInode, got, setEntry, setMem, hne]
  have hself : (s'.mem.itable k).lock = none ∧ (s'.mem.itable k).ref = 0 := by
    rw [hrel.mem]
    simp [setInode, hgot]
  have hiff : ∀ j, Doomed sb s₀ j ∧ j < n+1 ↔ (Doomed sb s₀ j ∧ j < n) ∨ j = n := by
    intro j
    constructor
    · rintro ⟨hj,hlt⟩
      by_cases hjn : j = n
      · exact .inr hjn
      · exact .inl ⟨hj,by omega⟩
    · rintro (⟨hj,hlt⟩ | rfl)
      · exact ⟨hj,by omega⟩
      · exact ⟨hn,Nat.lt_succ_self j⟩
  constructor
  · intro j hj hnot
    rw [hiff, not_or] at hnot
    rw [hrel.disk j hj, if_neg hnot.2]
    exact h.kept j hj hnot.1
  · intro j hj hlt
    rw [hrel.disk j hj.lt]
    split_ifs with hjn
    · rfl
    · exact h.gone j hj (by omega)
  · intro b
    have hrefers : Refers (got s n k).blocks (diskInode sb s₀.blocks n) b ↔
        Refers s₀.blocks (diskInode sb s₀.blocks n) b :=
      and_congr_right (fun _ => exists_congr (fun pl => by
        rw [← addrOf_swept hex h hn.lt pl]
        rfl))
    have hbits : bitOf sb (got s n k).blocks b = true ↔ _ := h.bits b
    rw [hrel.bits, hbits, hrefers]
    simp only [hiff, or_and_right, exists_or, exists_eq_left, not_or, and_assoc]
  · exact fun b hb => (hrel.data b hb).trans (h.data b hb)
  · intro k'
    by_cases hk' : k' = k
    · rw [hk']
      exact hself.1
    · rw [hother k' hk']
      exact h.idle k'
  · intro k'
    by_cases hk' : k' = k
    · rw [hk', hself.2, ← h.refs, hk]
    · rw [hother k' hk']
      exact h.refs k'
  · intro k' hpos
    have hk' : k' ≠ k := by
      rintro rfl
      rw [← h.refs, hk] at hpos
      exact absurd hpos (lt_irrefl 0)
    rw [hother k' hk']
    exact h.inums k' hpos

theorem returns_turn (env : Env) (p : Slot) (hsb : Layout sb) (hlog : sb.size/bpb+2 < logblocks)
    (hex : Exclusive sb s₀) (hroom : ∃ k, (s₀.mem.itable k).ref = 0) (h : Swept sb s₀ n s)
    (hpos : 0 < n) (hn : n < sb.ninodes) :
    Returns (FsLogged.handle env) (do
      let ip ← orphan n (diskInode sb s.blocks n)
      brelse (iblock sb n)
      dropOrphan sb p ip) (fun _ s' => Swept sb s₀ (n+1) s'.fs ∧ s' = ⟨s'.fs,idle⟩)
      ⟨s,idle⟩ := by
  have hdisk : diskInode sb s.blocks n = diskInode sb s₀.blocks n :=
    h.kept n hn (fun hc => lt_irrefl n hc.2)
  rw [hdisk, orphan]
  split_ifs with horphan
  · rw [bind_assoc]
    apply returns_bind
    have higet : Returns (handle env) (iget n) _ s :=
      returns_iget (by simpa only [h.refs] using hroom) n
    apply returns_mono (returns_unlogged (unlogged_iget n) idle higet)
    rintro k s₁ ⟨⟨hgets,hs₁⟩,ht⟩
    rw [hs₁] at ht
    subst ht
    clear hs₁
    obtain ⟨hinum,href,hlock⟩ := got_entry hgets
    rw [pure_bind]
    apply returns_bind
    refine ⟨(),⟨got s n k,idle⟩,rfl,?_⟩
    have hother : ∀ k', k' ≠ k → (got s n k).mem.itable k' = s.mem.itable k' :=
      fun k' hk' => setEntry_of_ne hk'
    have hfound : ((got s n k).mem.itable k).valid = true ∨
        (found sb (got s n k) k).type ≠ 0 := by
      by_cases hv : ((got s n k).mem.itable k).valid = true
      · exact .inl hv
      · right
        rw [found, if_neg hv, hinum]
        exact hdisk ▸ horphan.1
    cases hgets with
    | inl hheld =>
      -- someone else refers to the inode, so it is not freed
      have hnot : ¬ Doomed sb s₀ n := fun hd => hd.free ((held_swept h n).mp ⟨k,hheld⟩)
      refine returns_mono (returns_dropOrphan hsb hlog (hlock.trans (h.idle k)) rfl hinum hn
        (by omega) hfound (fun h1 => by omega)) ?_
      rintro _ s' ⟨⟨-,hfs⟩ | ⟨h1,-⟩,hs'⟩
      · refine ⟨?_,hs'⟩
        rw [hfs]
        refine swept_pass h hnot ?_ ?_ ?_ ?_
        · rfl
        · intro k'
          by_cases hk' : k' = k
          · rw [hk', setEntry_self]
            exact hlock.trans (h.idle k)
          · rw [setEntry_of_ne hk', hother k' hk']
            exact h.idle k'
        · intro k'
          by_cases hk' : k' = k
          · rw [hk', setEntry_self, href]
            rfl
          · rw [setEntry_of_ne hk', hother k' hk']
        · intro k' _
          by_cases hk' : k' = k
          · rw [hk', setEntry_self, hheld.2]
            exact hinum
          · rw [setEntry_of_ne hk', hother k' hk']
      · omega
    | inr hfree =>
      have hdoomed : Doomed sb s₀ n := by
        refine ⟨hpos,hn,horphan.1,horphan.2,fun hheld => ?_⟩
        obtain ⟨k',hk'⟩ := (held_swept h n).mpr hheld
        exact hfree.2 k' hk'.1 hk'.2
      have hvalid : ((got s n k).mem.itable k).valid = false := by
        rw [got, setEntry_self, igetInode, if_neg (by omega)]
      have hd : found sb (got s n k) k = diskInode sb s₀.blocks n := by
        rw [found, hvalid, hinum]
        exact hdisk
      have hun := unshared_swept hex h hn
      refine returns_mono (returns_dropOrphan hsb hlog (hlock.trans (h.idle k)) hd hinum hn
        (by omega) (.inr horphan.1) (fun _ => ⟨horphan.2,hun⟩)) ?_
      rintro _ s' ⟨⟨h1,-⟩ | ⟨h1,hrel⟩,hs'⟩
      · omega
      · exact ⟨swept_free hex h hdoomed hfree.1 hrel h1,hs'⟩
  · rw [pure_bind]
    apply returns_bind
    refine ⟨(),⟨s,idle⟩,rfl,returns_pure ⟨?_,rfl⟩⟩
    apply swept_pass h (fun hd => horphan ⟨hd.type,hd.nlink⟩) rfl h.idle (fun _ => rfl)
    exact fun _ _ => rfl

theorem returns_ireclaimFrom (env : Env) (p : Slot) (hsb : Layout sb)
    (hlog : sb.size/bpb+2 < logblocks) (hex : Exclusive sb s₀)
    (hroom : ∃ k, (s₀.mem.itable k).ref = 0) {left : ℕ} (h : Swept sb s₀ n s) (hpos : 0 < n)
    (hn : n+left ≤ max n sb.ninodes) :
    Returns (FsLogged.handle env) (ireclaimFrom sb p left n)
      (fun _ s' => Swept sb s₀ (n+left) s'.fs ∧ s' = ⟨s'.fs,idle⟩) ⟨s,idle⟩ := by
  induction left generalizing n s with
  | zero => exact returns_pure ⟨h,rfl⟩
  | succ left ih =>
    rw [ireclaimFrom]
    apply returns_bind
    refine ⟨_,⟨s,idle⟩,rfl,?_⟩
    have hturn := returns_turn env p hsb hlog hex hroom h hpos (by omega)
    have hassoc : (do
        let ip ← orphan n (getDinode (s.blocks (iblock sb n)) (n%ipb))
        brelse (iblock sb n)
        dropOrphan sb p ip
        ireclaimFrom sb p left (n+1)) = (do
        let ip ← orphan n (diskInode sb s.blocks n)
        brelse (iblock sb n)
        dropOrphan sb p ip) >>= fun _ => ireclaimFrom sb p left (n+1) := by
      simp only [bind_assoc]
      rfl
    dsimp only
    rw [hassoc]
    apply returns_bind
    apply returns_mono hturn
    rintro _ ⟨_,_⟩ ⟨h',⟨⟩⟩
    have := ih h' (Nat.succ_pos n) (by omega)
    rwa [show n+1+left = n+(left+1) by omega] at this

theorem returns_ireclaim (env : Env) (p : Slot) (hsb : Layout sb)
    (hlog : sb.size/bpb+2 < logblocks) (hex : Exclusive sb s)
    (hidle : ∀ k, (s.mem.itable k).lock = none) (hroom : ∃ k, (s.mem.itable k).ref = 0) :
    Returns (FsLogged.handle env) (ireclaim sb p)
      (fun _ s' => Swept sb s (1+(sb.ninodes-1)) s'.fs ∧ s' = ⟨s'.fs,idle⟩) ⟨s,idle⟩ :=
  returns_ireclaimFrom env p hsb hlog hex hroom (swept_start hidle) Nat.one_pos (by omega)

end Sweep

structure Reclaimed (sb : Superblock) (blocks : Blocks) (i : ℕ) : Prop where
  pos : 0 < i
  lt : i < sb.ninodes
  notRoot : i ≠ rootino
  type : (diskInode sb blocks i).type ≠ 0
  nlink : (diskInode sb blocks i).nlink = 0

section Boot
variable {sb : Superblock} {blocks : Blocks} {i : ℕ} {p : Slot}

theorem initMem_of_ne {k : Fin ninode} (hk : k ≠ 0) : (initMem p).itable k = bootMem.itable k := by
  simp [initMem, setCwd, setInode, hk]

theorem held_initMem : Held (initMem p) i ↔ i = rootino := by
  constructor
  · rintro ⟨k,href,hinum⟩
    by_cases hk : k = 0
    · rw [hk] at hinum
      exact hinum.symm
    · rw [initMem_of_ne hk] at href
      exact absurd href (lt_irrefl 0)
  · rintro rfl
    exact ⟨0,Nat.one_pos,rfl⟩

theorem initMem_idle (k : Fin ninode) : ((initMem p).itable k).lock = none := by
  by_cases hk : k = 0
  · rw [hk]
    rfl
  · rw [initMem_of_ne hk]
    rfl

theorem doomed_boot : Doomed sb ⟨blocks,initMem p⟩ i ↔ Reclaimed sb blocks i := by
  constructor
  · exact fun h => ⟨h.pos,h.lt,fun hi => h.free (held_initMem.mpr hi),h.type,h.nlink⟩
  · exact fun h => ⟨h.pos,h.lt,h.type,h.nlink,fun hi => h.notRoot (held_initMem.mp hi)⟩

theorem exclusive_initMem (hex : Exclusive sb ⟨blocks,bootMem⟩) :
    Exclusive sb ⟨blocks,initMem p⟩ := by
  refine ⟨hex.once,hex.marked,hex.noLeak,fun k href hvalid => ?_⟩
  by_cases hk : k = 0
  · rw [hk] at hvalid
    cases hvalid
  · rw [initMem_of_ne hk] at href
    exact absurd href (lt_irrefl 0)

theorem returns_boot (env : Env) (p : Slot) (hsb : Layout sb) (hlog : sb.size/bpb+2 < logblocks)
    (hex : Exclusive sb ⟨blocks,bootMem⟩) :
    ∃ s', exec (FsLogged.handle env) (do userinit sb p; ireclaim sb p)
      ⟨⟨blocks,bootMem⟩,idle⟩ = .ok ((),⟨s',idle⟩) ∧
      Swept sb ⟨blocks,initMem p⟩ (1+(sb.ninodes-1)) s' := by
  obtain ⟨⟨⟩,⟨s',_⟩,hexec,h,⟨⟩⟩ := returns_ireclaim env p hsb hlog
    (exclusive_initMem (p := p) hex) initMem_idle ⟨1,by rw [initMem_of_ne (by decide)]; rfl⟩
  exact ⟨s',(exec_bind_ok (userinit_boot sb env p blocks)).trans hexec,h⟩

/-- When the first process has the root directory and the log has room for the bitmap, an inode's
block and one more, `ireclaim` frees exactly the orphans that are not the root. -/
theorem orphans_reclaimed (env : Env) (p : Slot) (hsb : Layout sb)
    (hlog : sb.size/bpb+2 < logblocks) (hex : Exclusive sb ⟨blocks,bootMem⟩) :
    ∃ s', exec (FsLogged.handle env) (do userinit sb p; ireclaim sb p)
      ⟨⟨blocks,bootMem⟩,idle⟩ = .ok ((),⟨s',idle⟩) ∧
      (∀ i, 0 < i → i < sb.ninodes → i ≠ rootino → (diskInode sb s'.blocks i).type ≠ 0 →
        0 < (diskInode sb s'.blocks i).nlink.toInt ∨ (diskInode sb blocks i).nlink.toInt < 0) ∧
      (∀ i b, Reclaimed sb blocks i → Refers blocks (diskInode sb blocks i) b →
        bitOf sb s'.blocks b = false) ∧
      (∀ i, i < sb.ninodes → ¬ Reclaimed sb blocks i →
        diskInode sb s'.blocks i = diskInode sb blocks i ∧
        ∀ b, Refers blocks (diskInode sb blocks i) b →
          s'.blocks b = blocks b ∧ bitOf sb s'.blocks b = true) ∧
      ∀ k, (s'.mem.itable k).ref = ((initMem p).itable k).ref := by
  obtain ⟨s',hexec,h⟩ := returns_boot env p hsb hlog hex
  have hall : ∀ j, Doomed sb ⟨blocks,initMem p⟩ j ∧ j < 1+(sb.ninodes-1) ↔
      Reclaimed sb blocks j := by
    intro j
    rw [doomed_boot]
    refine and_iff_left_of_imp (fun hj => ?_)
    have := hj.lt
    omega
  refine ⟨s',hexec,?_,?_,?_,h.refs⟩
  · intro i hpos hi hroot htype
    have hnot : ¬ Reclaimed sb blocks i := by
      intro hr
      have hd := (hall i).mpr hr
      exact htype (h.gone i hd.1 hd.2)
    have hkept := h.kept i hi (fun hc => hnot ((hall i).mp hc))
    rw [hkept] at htype ⊢
    have hnlink : (diskInode sb blocks i).nlink.toInt ≠ 0 := by
      intro h0
      exact hnot ⟨hpos,hi,hroot,htype,BitVec.eq_of_toInt_eq h0⟩
    show 0 < (diskInode sb blocks i).nlink.toInt ∨ _
    omega
  · intro i b hr href
    rw [← Bool.not_eq_true, h.bits]
    exact fun hc => hc.2 ⟨i,(hall i).mpr hr,href⟩
  · intro i hi hnot
    refine ⟨h.kept i hi (fun hc => hnot ((hall i).mp hc)),fun b href => ?_⟩
    obtain ⟨-,hbit,hdata,-⟩ := hex.marked i b hi href
    refine ⟨h.data b hdata,(h.bits b).mpr ⟨hbit,?_⟩⟩
    -- no other inode refers to the block
    rintro ⟨j,hj,-,pl',hpl'⟩
    obtain ⟨h0,pl,hpl⟩ := href
    have hij := (hex.once i j pl pl' hi hj.1.lt (by rw [hpl]; exact h0) (hpl.trans hpl'.symm)).1
    exact hnot ((hall i).mp (hij ▸ hj))

end Boot

section Example

def three : Superblock := { tiny with ninodes := 3 }

def lone (type nlink : BitVec 16) : Dinode :=
  { zeroDinode with
    type := type
    nlink := nlink
    size := 16
    addrs := fun k => if k = 0 then 3 else 0 }

/-- A disk on which inode `r` is the only one. -/
def loneDisk (r : ℕ) (type nlink : BitVec 16) : Blocks := fun b =>
  if b = 1 then putDinode zeros r (lone type nlink)
  else if b = 2 then setBit (setBit (setBit (setBit zeros 0) 1) 2) 3 else zeros

theorem three_layout : Layout three := ⟨by decide,by decide,by decide,by decide⟩

variable {r : ℕ} {type nlink : BitVec 16}

theorem loneDisk_inode (hr : r < 3) {j : ℕ} (hj : j < 3) :
    diskInode three (loneDisk r type nlink) j =
      if j = r then lone type nlink else zeroDinode := by
  have hblock : iblock three j = 1 := by
    have hipb : ipb = 16 := rfl
    have hstart : three.inodestart = 1 := rfl
    rw [iblock, hipb, hstart]
    omega
  have hmod : j%ipb = j := Nat.mod_eq_of_lt (lt_trans hj (by decide))
  have hdata : loneDisk r type nlink 1 = putDinode zeros r (lone type nlink) := rfl
  rw [diskInode, hblock, hmod, hdata]
  split_ifs with hjr
  · rw [hjr, getDinode_putDinode_same _ _ (lt_trans hr (by decide))]
  · rw [getDinode_putDinode_other _ _ (Ne.symm hjr), getDinode_zeros]

theorem addrOf_lone (blocks : Blocks) (pl : Place) :
    addrOf blocks (lone type nlink) pl = if pl = .inl 0 then 3 else 0 := by
  cases pl with
  | inl k =>
    simp only [addrOf, lone, Sum.inl.injEq]
    split_ifs <;> rfl
  | inr j =>
    have hind : (lone type nlink).addrs indirect = 0 := rfl
    rw [if_neg Sum.inr_ne_inl, addrOf, if_pos hind]

theorem loneDisk_addr (hr : r < 3) {j : ℕ} (hj : j < 3) (pl : Place)
    (h0 : addrOf (loneDisk r type nlink) (diskInode three (loneDisk r type nlink) j) pl ≠ 0) :
    j = r ∧ pl = .inl 0 ∧
      addrOf (loneDisk r type nlink) (diskInode three (loneDisk r type nlink) j) pl = 3 := by
  rw [loneDisk_inode hr hj] at h0 ⊢
  split_ifs at h0 ⊢ with hjr
  · rw [addrOf_lone] at h0 ⊢
    split_ifs at h0 ⊢ with hpl
    · exact ⟨hjr,hpl,rfl⟩
    · exact absurd rfl h0
  · exact absurd (addrOf_zero (fun _ => rfl) _ pl) h0

theorem loneDisk_exclusive (hr : r < 3) (htype : type ≠ 0) :
    Exclusive three ⟨loneDisk r type nlink,bootMem⟩ := by
  have hmarks : ∀ b < 64, testBit (setBit (setBit (setBit (setBit zeros 0) 1) 2) 3) b =
      decide (b < 4) := by decide +kernel
  have hbits : ∀ b < 64, bitOf three (loneDisk r type nlink) b = decide (b < 4) := by
    intro b hb
    have hbpb : bpb = 8192 := rfl
    have hblock : bblock three b = 2 := by
      have hstart : three.bmapstart = 2 := rfl
      rw [bblock, hbpb, hstart]
      omega
    rw [bitOf, hblock, Nat.mod_eq_of_lt (by omega)]
    exact hmarks b hb
  have hlone : diskInode three (loneDisk r type nlink) r = lone type nlink := by
    rw [loneDisk_inode hr hr, if_pos rfl]
  constructor
  · intro i j pl pl' hi hj h0 heq
    obtain ⟨rfl,rfl,-⟩ := loneDisk_addr hr hi pl h0
    obtain ⟨rfl,rfl,-⟩ := loneDisk_addr hr hj pl' (by rw [← heq]; exact h0)
    exact ⟨rfl,rfl⟩
  · rintro i b hi ⟨h0,pl,rfl⟩
    obtain ⟨rfl,-,haddr⟩ := loneDisk_addr hr hi pl h0
    refine ⟨?_,?_⟩
    · show (diskInode three (loneDisk i type nlink) i).type ≠ 0
      rw [hlone]
      exact htype
    · rw [haddr]
      exact ⟨hbits 3 (by decide),by decide,by decide⟩
  · intro b hdata hsize hbit
    have hb : b < 4 := of_decide_eq_true ((hbits b hsize).symm.trans hbit)
    have hstart : dataStart three = 3 := rfl
    obtain rfl : b = 3 := by omega
    refine ⟨r,hr,by decide,.inl 0,?_⟩
    show addrOf (loneDisk r type nlink) (diskInode three (loneDisk r type nlink) r) _ = 3
    rw [hlone, addrOf_lone, if_pos rfl]
  · exact fun k href _ => absurd href (lt_irrefl 0)

/-- An unlinked file left by a crash is freed, and its block with it. -/
theorem lone_reclaimed : ∃ s', exec (FsLogged.handle quiet) (do userinit three 0; ireclaim three 0)
    ⟨⟨loneDisk 2 2 0,bootMem⟩,idle⟩ = .ok ((),⟨s',idle⟩) ∧ bitOf three s'.blocks 3 = false := by
  have hdisk : diskInode three (loneDisk 2 2 0) 2 = lone 2 0 :=
    loneDisk_inode (by decide) (by decide)
  obtain ⟨s',hexec,-,hfree,-⟩ := orphans_reclaimed quiet 0 three_layout (by decide)
    (loneDisk_exclusive (r := 2) (by decide) (by decide : (2 : BitVec 16) ≠ 0))
  refine ⟨s',hexec,hfree 2 3 ⟨by decide,by decide,by decide,?_,?_⟩ ⟨by decide,.inl 0,?_⟩⟩
  · rw [hdisk]
    decide
  · rw [hdisk]
    rfl
  · rw [hdisk, addrOf_lone, if_pos rfl]

theorem lone_kept (r : ℕ) (type nlink : BitVec 16) (hr : r < 3) (htype : type ≠ 0)
    (hnot : ¬ Reclaimed three (loneDisk r type nlink) r) :
    ∃ s', exec (FsLogged.handle quiet) (do userinit three 0; ireclaim three 0)
      ⟨⟨loneDisk r type nlink,bootMem⟩,idle⟩ = .ok ((),⟨s',idle⟩) ∧
      diskInode three s'.blocks r = lone type nlink := by
  obtain ⟨s',hexec,h⟩ := returns_boot quiet 0 three_layout (by decide)
    (loneDisk_exclusive hr htype)
  refine ⟨s',hexec,(h.kept r hr (fun hc => hnot (doomed_boot.mp hc.1))).trans ?_⟩
  exact (loneDisk_inode hr hr).trans (if_pos rfl)

/-- A file whose link count is negative stays as it is, and so does the root directory without
links. -/
theorem orphans_kept :
    (Exclusive three ⟨loneDisk 2 2 0xffff,bootMem⟩ ∧ ∃ s', exec (FsLogged.handle quiet)
      (do userinit three 0; ireclaim three 0) ⟨⟨loneDisk 2 2 0xffff,bootMem⟩,idle⟩ =
        .ok ((),⟨s',idle⟩) ∧ (diskInode three s'.blocks 2).type ≠ 0 ∧
      (diskInode three s'.blocks 2).nlink.toInt = -1) ∧
    Exclusive three ⟨loneDisk rootino tDir 0,bootMem⟩ ∧ ∃ s', exec (FsLogged.handle quiet)
      (do userinit three 0; ireclaim three 0) ⟨⟨loneDisk rootino tDir 0,bootMem⟩,idle⟩ =
        .ok ((),⟨s',idle⟩) ∧ (diskInode three s'.blocks rootino).type = tDir ∧
      (diskInode three s'.blocks rootino).nlink = 0 := by
  refine ⟨⟨loneDisk_exclusive (by decide) (by decide),?_⟩,
    loneDisk_exclusive (by decide) (by decide),?_⟩
  · have hnot : ¬ Reclaimed three (loneDisk 2 2 0xffff) 2 := by
      intro hr
      have hn := hr.nlink
      rw [loneDisk_inode (by decide) (by decide)] at hn
      exact absurd hn (by decide)
    obtain ⟨s',hexec,hkept⟩ := lone_kept 2 2 0xffff (by decide) (by decide) hnot
    refine ⟨s',hexec,?_⟩
    rw [hkept]
    decide
  · obtain ⟨s',hexec,hkept⟩ := lone_kept rootino tDir 0 (by decide) (by decide)
      (fun hr => hr.notRoot rfl)
    refine ⟨s',hexec,?_⟩
    rw [hkept]
    exact ⟨rfl,rfl⟩

end Example

end GreenOS.OrphanReclaim
