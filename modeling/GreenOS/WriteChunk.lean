import GreenOS.FileBytes
import GreenOS.FsLogged
import GreenOS.FsTable

/-!
# The transactions of `filewrite`

`filewrite` cuts a write into chunks and gives each a transaction of its own.
A chunk logs the blocks of its data, the indirect block, the inode's block and,
for each block it allocates, the block with that block's bit. A file without
holes lacks at most three of the data blocks of a chunk, so these are no more
blocks than `begin_op` has reserved.
-/

namespace GreenOS.WriteChunk
open Programs ProgramTraces ByteBlock LogCode DiskLayout
open ProcTable
open BufferSeq (Env quiet)
open FsMemory FsCode FsDirect FsOwned
open FsMap FsNames FsContent FsInodes
open FsState FsTable FileBytes

/-- `max` of `filewrite`: the most bytes it writes in one transaction. -/
def maxChunk : ℕ := (maxopblocks-1-1-2)/2*bsize

section Code
variable (sb : Superblock) (p : Slot) (fi : Fin nfile) (k : Fin ninode)

def getFile : F File := readMem (fun m => m.ftable fi)

def advance (r : ℤ) : F Unit :=
  writeMem (fun m => if 0 < r then
    setFile m fi { m.ftable fi with off := ((m.ftable fi).off+r.toNat)%2^32 } else m)

def writeLocked (addr : BitVec 64) (n1 : ℕ) : F ℤ := do
  let f ← getFile fi
  let r ← writei sb k (.user addr) f.off n1
  advance fi r
  pure r

def writeChunk (addr : BitVec 64) (n1 : ℕ) : F ℤ := do
  beginOp
  ilock sb p k
  let r ← writeLocked sb fi k addr n1
  iunlock p k
  endOp
  pure r

def filewriteLoop (addr : BitVec 64) (n : ℕ) : ℕ → ℕ → F ℤ
  | 0, i => pure (if i = n then n else -1)
  | left+1, i =>
    if i < n then do
      let r ← writeChunk sb p fi k (addr+BitVec.ofNat 64 i) (min (n-i) maxChunk)
      if r ≠ min (n-i) maxChunk then pure (if i = n then n else -1)
      else filewriteLoop addr n left (i+min (n-i) maxChunk)
    else pure (if i = n then n else -1)

/-- `filewrite` on a writable file of type `FD_INODE`, whose inode is in entry
`k`. -/
def filewrite (addr : BitVec 64) (n : ℕ) : F ℤ := filewriteLoop sb p fi k addr n n 0

end Code

section Count
variable {sb : Superblock} {A A' : Place → ℕ} {l : List ℕ}

theorem card_covered {bns : Finset ℕ} {pls : Set Place} (h : Covered sb pls A A' l)
    (hpls : ∀ pl ∈ pls, pl = .inl indirect ∨ ∃ bn ∈ bns, pl = placeOf bn) :
    l.toFinset.card ≤ bns.card+(bns.filter (fun bn => A (placeOf bn) = 0)).card+2 := by
  have hsub : l.toFinset ⊆ bns.image (fun bn => A' (placeOf bn)) ∪
      (bns.filter (fun bn => A (placeOf bn) = 0)).image (fun bn => bblock sb (A' (placeOf bn))) ∪
      {A' (.inl indirect),bblock sb (A' (.inl indirect))} := by
    intro b hb
    obtain ⟨pl,hpl,hcase⟩ := h b (List.mem_toFinset.mp hb)
    simp only [Finset.mem_union, Finset.mem_image, Finset.mem_filter, Finset.mem_insert,
      Finset.mem_singleton]
    rcases hpls pl hpl with rfl | ⟨bn,hbn,rfl⟩
    · rcases hcase with ⟨heq,_⟩ | ⟨_,_,heq⟩
      · exact .inr (.inl heq)
      · exact .inr (.inr heq)
    · rcases hcase with ⟨heq,_⟩ | ⟨hz,_,heq⟩
      · exact .inl (.inl ⟨bn,hbn,heq.symm⟩)
      · exact .inl (.inr ⟨bn,⟨hbn,hz⟩,heq.symm⟩)
  calc l.toFinset.card
      ≤ _ := Finset.card_le_card hsub
    _ ≤ _ := Finset.card_union_le _ _
    _ ≤ _ := Nat.add_le_add (Finset.card_union_le _ _) Finset.card_le_two
    _ ≤ _ := Nat.add_le_add_right (Nat.add_le_add Finset.card_image_le Finset.card_image_le) _

/-- The blocks of a chunk that starts in a file without holes, or at its end: four
at most, and no more than three of them missing. -/
theorem card_chunk {off m size : ℕ} (hm : m ≤ maxChunk) (hoff : off ≤ size)
    (hd : ∀ bn, bn < (size+bsize-1)/bsize → A (placeOf bn) ≠ 0)
    (h : Covered sb (touched off m) A A' l) : l.toFinset.card+1 ≤ maxopblocks := by
  have hb : bsize = 1024 := rfl
  have hmax : maxChunk = 3072 := rfl
  have hop : maxopblocks = 10 := rfl
  rw [hmax] at hm
  simp only [hb] at hd
  have hcover : ∀ c, off%1024+m ≤ 1024*c →
      ∀ pl ∈ touched off m, pl = .inl indirect ∨
        ∃ bn ∈ Finset.Ico (off/1024) (off/1024+c), pl = placeOf bn := by
    rintro c hc pl (rfl | ⟨bn,hlo,hhi,rfl⟩)
    · exact .inl rfl
    · refine .inr ⟨bn,Finset.mem_Ico.mpr ?_,rfl⟩
      simp only [hb] at hlo hhi
      omega
  by_cases halign : off%1024 = 0
  · have hcard := card_covered h (hcover 3 (by omega))
    have hmissing := Finset.card_filter_le (Finset.Ico (off/1024) (off/1024+3))
      (fun bn => A (placeOf bn) = 0)
    rw [Nat.card_Ico] at hcard hmissing
    omega
  · have hcard := card_covered h (hcover 4 (by omega))
    -- the byte before `off` lies in the first block, which is therefore there
    have hmissing : ((Finset.Ico (off/1024) (off/1024+4)).filter
        (fun bn => A (placeOf bn) = 0)).card ≤ (Finset.Ico (off/1024+1) (off/1024+4)).card := by
      apply Finset.card_le_card
      intro bn hbn
      obtain ⟨hin,hz⟩ := Finset.mem_filter.mp hbn
      have hge : ¬bn < (size+1024-1)/1024 := fun hlt => hd bn hlt hz
      have := Finset.mem_Ico.mp hin
      exact Finset.mem_Ico.mpr (by omega)
    rw [Nat.card_Ico] at hcard hmissing
    omega

end Count

section Chunk
variable {sb : Superblock} {k : Fin ninode} {i : ℕ} {D : Inodes} {own : Owners} {X : ℕ → Prop}
variable {s : Fs} {env : Env} {E : String → Prop} {p : Slot} {fi : Fin nfile}

theorem exec_beginOp : exec (handle env) beginOp s = .ok ((),s) := rfl

theorem exec_endOp : exec (handle env) endOp s = .ok ((),s) := rfl

theorem wpt_endOp {Q : Unit → Fs → List ℕ → Prop} :
    wpt (handle env) logged E endOp Q s ↔ Q () s [] := wp_def _ _ _

theorem unlogged_ilock : Every FsLogged.Unlogged (ilock sb p k) := by
  rw [ilock]
  apply every_bind (every_perform trivial)
  intro ip
  apply every_ite (every_kpanic trivial)
  apply every_bind (every_perform trivial)
  intro _
  apply every_bind (every_perform trivial)
  intro ip
  apply every_ite (every_pure _)
  apply every_bind (every_perform trivial)
  intro data
  apply every_bind (every_perform trivial)
  intro _
  apply every_bind (every_perform trivial)
  intro _
  apply every_bind (every_perform trivial)
  intro _
  apply every_bind (every_perform trivial)
  exact fun ip => every_ite (every_kpanic trivial) (every_pure _)

theorem unlogged_iunlock : Every FsLogged.Unlogged (iunlock p k) :=
  every_bind (every_perform trivial)
    (fun _ => every_ite (every_kpanic trivial) (every_perform trivial))

theorem silent_ilock : Every Silent (ilock sb p k) :=
  every_mono FsLogged.silent_of_unlogged unlogged_ilock

theorem silent_iunlock : Every Silent (iunlock p k) :=
  every_mono FsLogged.silent_of_unlogged unlogged_iunlock

theorem silent_advance (r : ℤ) : Every Silent (advance fi r) := silent_writeMem _

theorem ilock_not_wait (hlock : (s.mem.itable k).lock = none) :
    exec (handle env) (ilock sb p k) s ≠ .wait := by
  rw [ilock]
  apply bind_not_wait (exec_not_wait (prompt_not_wait env) (every_prompt_readMem _) s)
  intro ip s₁ hget
  cases hget
  split_ifs with href
  · intro h
    cases h
  · apply bind_not_wait
    · rw [acquiresleep, exec_atomic]
      simp only [setMem, hlock, Option.isSome_none]
      intro h
      cases h
    · intro _ s₂ _
      refine exec_not_wait (prompt_not_wait env) ?_ s₂
      apply every_bind (every_prompt_readMem _)
      intro ip
      apply every_ite (every_pure _)
      apply every_bind (every_perform trivial)
      intro data
      apply every_bind (every_prompt_writeMem _)
      intro _
      apply every_bind (every_perform trivial)
      intro _
      apply every_bind (every_prompt_writeMem _)
      intro _
      apply every_bind (every_prompt_readMem _)
      exact fun ip => every_ite (every_kpanic trivial) (every_pure _)

theorem writeChunk_not_wait (hlock : (s.mem.itable k).lock = none) (addr : BitVec 64) (n1 : ℕ) :
    exec (handle env) (writeChunk sb p fi k addr n1) s ≠ .wait := by
  have hpure : ∀ r s', exec (handle env) (do endOp; pure r : F ℤ) s' ≠ .wait :=
    fun r s' => bind_not_wait (by rw [exec_endOp]; nofun) (fun _ _ _ => nofun)
  rw [writeChunk]
  apply bind_not_wait (by rw [exec_beginOp]; nofun)
  intro _ s₁ hbegin
  cases hbegin
  apply bind_not_wait (ilock_not_wait hlock)
  intro _ s₂ _
  apply bind_not_wait
  · rw [writeLocked]
    apply bind_not_wait (exec_not_wait (prompt_not_wait env) (every_prompt_readMem _) s₂)
    intro f s₃ _
    apply bind_not_wait (exec_not_wait (local_not_wait env) (local_writei (k := k) _ _ _) s₃)
    intro r s₄ _
    refine exec_not_wait (prompt_not_wait env) ?_ s₄
    exact every_bind (every_prompt_writeMem _) (fun _ => every_pure _)
  · intro r s₃ _
    apply bind_not_wait
    · refine exec_not_wait (prompt_not_wait env) ?_ s₃
      exact every_bind (every_prompt_readMem _) (fun _ => every_ite (every_kpanic trivial)
        (every_prompt_writeMem _))
    · exact fun _ s₄ _ => hpure r s₄

theorem wpt_chunkEnd {r : ℤ} (hlock : (s.mem.itable k).lock = some p)
    (href : 0 < (s.mem.itable k).ref) {Q : ℤ → Fs → List ℕ → Prop}
    (hQ : ∀ s', Q r s' []) :
    wpt (handle env) logged E (do
      let r ← (do advance fi r; pure r : F ℤ)
      iunlock p k
      endOp
      pure r) Q s := by
  have htable : ∀ m : Mem, (if 0 < r then
      setFile m fi { m.ftable fi with off := ((m.ftable fi).off+r.toNat)%2^32 } else m).itable =
        m.itable := by
    intro m
    split_ifs <;> rfl
  rw [bind_assoc, wpt_silent_bind (silent_advance r), advance, wp_writeMem, pure_bind,
    wpt_silent_bind silent_iunlock]
  apply wp_iunlock
  · simp only [setMem, htable, hlock]
  · simp only [setMem, htable, href]
  · rw [wpt_bind, wpt_endOp, wpt_pure]
    exact hQ _

/-- The transaction of a chunk logs at most `MAXOPBLOCKS` blocks. -/
theorem chunk_fits_reservation (hsb : Layout sb) (h : Good sb D own X s)
    (hinum : (s.mem.itable k).inum = i) (hi : i < sb.ninodes) (href : 0 < (s.mem.itable k).ref)
    (hlock : (s.mem.itable k).lock = none) (htype : (D i).type ≠ 0)
    (hd : NoHoles s.blocks (D i)) (hoff : (s.mem.ftable fi).off ≤ (D i).size.toNat)
    (addr : BitVec 64) (n1 : ℕ) (hn : n1 ≤ maxChunk) :
    ∃ r s', exec (handle env) (writeChunk sb p fi k addr n1) s = .ok (r,s') ∧
      (trace (handle env) logged (writeChunk sb p fi k addr n1) s).toFinset.card ≤ maxopblocks := by
  have hwp : wpt (handle env) logged (fun _ => False) (writeChunk sb p fi k addr n1)
      (fun _ _ l => l.toFinset.card ≤ maxopblocks) s := by
    rw [writeChunk, wpt_silent_bind silent_beginOp, wp_beginOp, wpt_silent_bind silent_ilock]
    apply wp_ilock h hinum hi (.inl href) (.inl htype)
    intro _ _ _
    have hgood := good_locked (p := p) h href hinum hi htype
    have hin := inUse_locked (p := p) href hinum (D i)
    have hlocked : ((locked s k p (D i)).mem.itable k).lock = some p := by
      rw [locked, setEntry_self]
    rw [writeLocked, getFile, bind_assoc, wpt_silent_bind (silent_readMem _),
      wp_readMem, bind_assoc,
      wpt_bind]
    refine wpt_writei hsb (good_open hgood hin) hin.inum ?_ ?_ ?_
    · intro bytes h
      cases h
    · exact fun _ => wpt_chunkEnd hlocked hin.ref (fun s' => Nat.zero_le _)
    · intro t D' own' s' l hw hcov
      have hfields := withCopy_fields (locked s k p (D i)).mem k k (D' i)
      rw [← hw.wrote.mem] at hfields
      apply wpt_chunkEnd (hfields.2.2.2.trans hlocked) (by rw [hfields.1]; exact hin.ref)
      intro s''
      have hcard := card_chunk hn hoff hd hcov
      rw [List.append_nil, List.toFinset_append]
      exact le_trans (Finset.card_union_le _ _) hcard
  obtain ⟨r,s',hexec,hcard⟩ := exec_ok hwp (writeChunk_not_wait hlock addr n1)
  exact ⟨r,s',hexec,hcard⟩

end Chunk

theorem tiny_good : Good tiny tinyInodes tinyOwners (fun _ => True) tinyFs := by
  have hother : ∀ k : Fin ninode, k ≠ 0 → (tinyFs.mem.itable k).ref = 0 := by
    intro k hk
    simp [tinyFs, setInode, hk, bootMem]
  have hzero : ∀ k : Fin ninode, 0 < (tinyFs.mem.itable k).ref → k = 0 := by
    intro k href
    by_contra hk
    rw [hother k hk] at href
    cases href
  refine ⟨tiny_open.stored,fun k href _ => ?_,fun k k' h h' _ =>
    (hzero k h).trans (hzero k' h').symm,
    fun i hi hnone => ?_,fun i _ hX => absurd trivial hX⟩
  · rw [hzero k href]
    exact ⟨tiny_open.inum_lt,tiny_open.copy,tiny_open.type_ne⟩
  · have hi1 : i ≠ 1 := by
      rintro rfl
      cases hnone 0 (by decide) rfl
    obtain rfl : i = 0 := by
      have : tiny.ninodes = 2 := rfl
      omega
    exact (getDinode_putDinode_other (b := zeros) (d := shortFile) (by decide)).trans
      (getDinode_zeros 0)

/-- The file is open for reading and writing at offset `off`. -/
def opened (s : Fs) (off : ℕ) : Fs :=
  setMem s (setFile s.mem 0 ⟨.inode,1,true,true,some 0,off,0⟩)

theorem opened_good (off : ℕ) :
    Good tiny tinyInodes tinyOwners (fun _ => True) (opened tinyFs off) :=
  ⟨tiny_good.stored,tiny_good.copies,tiny_good.unique,tiny_good.absent,tiny_good.lag⟩

def readable : Env :=
  { quiet with
    copyin := fun _ n => (List.replicate n 7,true)
    copyin_le := fun _ _ => List.length_replicate.le
    copyin_full := fun _ _ _ => List.length_replicate }

/-- A chunk written after the bytes of the small disk's file. -/
theorem tiny_chunk_fits : ∃ r s',
    exec (handle readable) (writeChunk tiny 0 0 0 4096 3072) (opened tinyFs 16) = .ok (r,s') ∧
    (trace (handle readable) logged (writeChunk tiny 0 0 0 4096 3072)
      (opened tinyFs 16)).toFinset.card ≤ maxopblocks := by
  have hinum : (tinyFs.mem.itable 0).inum = 1 := rfl
  have hn : 3072 ≤ maxChunk := by decide
  exact chunk_fits_reservation tiny_layout (opened_good 16) hinum tiny_open.inum_lt (by decide) rfl
    tiny_open.type_ne tiny_noHoles (by decide) 4096 3072 hn

end GreenOS.WriteChunk
