import GreenOS.BlockOwners
import GreenOS.MkfsBounds

/-!
# Exclusive ownership of blocks over whole runs

Runs of inode operations from an image that `mkfs` built. In every state
reached each block has at most one reference, the bitmap marks the referenced
blocks and no others, and truncating an inode gives back just its blocks.
-/

namespace GreenOS.BlockRuns
open Programs LogCode DiskLayout ProcTable
open BufferSeq (Env quiet)
open FsMemory FsCode FsDirect Ownership FsOwned
open FsBlocks FsTrunc
open FsState FsNames StepRun
open BlockOwners Mkfs MkfsImage MkfsRoot

section Prompt
variable {sb : Superblock} {k : Fin ninode}

theorem prompt_bfree (b : ℕ) : Every Prompt (bfree sb b) := by
  refine ⟨trivial,fun data => ?_⟩
  apply every_ite
  · exact every_kpanic trivial
  · exact ⟨trivial,fun _ => ⟨trivial,fun _ => ⟨trivial,fun _ => trivial⟩⟩⟩

theorem prompt_modifyCopy (f : Dinode → Dinode) : Every Prompt (modifyCopy k f) :=
  every_prompt_writeMem _

theorem prompt_iupdate : Every Prompt (iupdate sb k) :=
  every_bind (every_prompt_readMem _) (fun _ =>
    ⟨trivial,fun _ => ⟨trivial,fun _ => ⟨trivial,fun _ => ⟨trivial,fun _ => trivial⟩⟩⟩⟩)

theorem prompt_truncDirect (left i : ℕ) : Every Prompt (truncDirect sb k left i) := by
  induction left generalizing i with
  | zero => exact every_pure ()
  | succ left ih =>
    rw [truncDirect]
    apply every_bind (every_prompt_readMem _)
    intro ip
    apply every_ite
    · exact ih (i+1)
    · apply every_bind (prompt_bfree _)
      intro _
      apply every_bind (prompt_modifyCopy _)
      exact fun _ => ih (i+1)

theorem prompt_truncIndirect (data : Block) (left j : ℕ) :
    Every Prompt (truncIndirect sb data left j) := by
  induction left generalizing j with
  | zero => exact every_pure ()
  | succ left ih =>
    rw [truncIndirect]
    apply every_ite
    · exact ih (j+1)
    · exact every_bind (prompt_bfree _) (fun _ => ih (j+1))

theorem prompt_itrunc : Every Prompt (itrunc sb k) := by
  have hend : Every Prompt (do modifyCopy k (fun d => { d with size := 0 }); iupdate sb k) :=
    every_bind (prompt_modifyCopy _) (fun _ => prompt_iupdate)
  rw [itrunc]
  apply every_bind (prompt_truncDirect _ _)
  intro _
  apply every_bind (every_prompt_readMem _)
  intro ip
  apply every_ite
  · exact hend
  · refine ⟨trivial,fun data => ?_⟩
    apply every_bind (prompt_truncIndirect data _ _)
    intro _
    refine ⟨trivial,fun _ => ?_⟩
    apply every_bind (prompt_bfree _)
    intro _
    exact every_bind (prompt_modifyCopy _) (fun _ => hend)

end Prompt

structure Exclusive (sb : Superblock) (s : Fs) : Prop where
  once : ∀ i j pl pl', i < sb.ninodes → j < sb.ninodes →
    addrOf s.blocks (diskInode sb s.blocks i) pl ≠ 0 →
    addrOf s.blocks (diskInode sb s.blocks i) pl = addrOf s.blocks (diskInode sb s.blocks j) pl' →
    i = j ∧ pl = pl'
  marked : ∀ i b, i < sb.ninodes → Refers s.blocks (diskInode sb s.blocks i) b →
    (diskInode sb s.blocks i).type ≠ 0 ∧ bitOf sb s.blocks b = true ∧
      dataStart sb ≤ b ∧ b < sb.size
  noLeak : ∀ b, dataStart sb ≤ b → b < sb.size → bitOf sb s.blocks b = true →
    ∃ i, i < sb.ninodes ∧ Refers s.blocks (diskInode sb s.blocks i) b
  cached : ∀ k, 0 < (s.mem.itable k).ref → (s.mem.itable k).valid = true →
    (s.mem.itable k).copy = diskInode sb s.blocks (s.mem.itable k).inum

section Sound
variable {sb : Superblock} {D : Inodes} {own : Owners} {s : Fs} {i b : ℕ}

theorem exclusive_of_sound (h : Sound sb D own s) : Exclusive sb s := by
  have hst := h.good.stored
  constructor
  · intro i j pl pl' hi hj h0 heq
    rw [h.synced i hi, h.synced j hj] at heq
    rw [h.synced i hi] at h0
    have := tracks_injective hst.tracks (i := (i,pl)) (j := (j,pl')) hi hj h0 heq
    exact Prod.mk.inj this
  · intro i b hi href
    rw [h.synced i hi] at href ⊢
    obtain ⟨pl,hown⟩ := (refers_iff hst hi).mp href
    have hrange := placed_range hst hown
    refine ⟨fun htype => ?_,(hst.bits b hrange.2).mpr (by rw [hown]; nofun),hrange⟩
    obtain ⟨h0,pl',haddr⟩ := href
    have hzero := hst.empty i hi htype
    apply h0
    rw [← haddr]
    cases pl' with
    | inl k => simp [addrOf, hzero]
    | inr j => simp [addrOf, hzero]
  · intro b hdata hsize hbit
    have hfree := (hst.bits b hsize).mp hbit
    cases hown : own b with
    | free => exact absurd hown hfree
    | reserved =>
      have := (hst.reserved b).mpr hown
      omega
    | held => exact absurd hown (h.clean b).1
    | lost => exact absurd hown (h.clean b).2
    | place x =>
      have hx := (hst.tracks.named b x hown).1
      refine ⟨x.1,hx,?_⟩
      rw [h.synced x.1 hx]
      exact (refers_iff hst hx).mpr ⟨x.2,hown⟩
  · intro k href hvalid
    obtain ⟨hlt,hcopy,-⟩ := h.good.copies k href hvalid
    rw [hcopy, h.synced _ hlt]

theorem itrunc_exact (hsb : Layout sb) (h : Sound sb D own s) {p : Slot} {k : Fin ninode}
    (hlock : holds s p k = true) : ∃ s', step sb (.itrunc p k) s = some s' ∧
      ∀ b, b < sb.size → (bitOf sb s'.blocks b = true ↔
        bitOf sb s.blocks b = true ∧ ¬ Refers s.blocks (s.mem.itable k).copy b) := by
  have hk := inUse_of_holds hlock
  have hopen := good_open h.good hk
  have hwp : wp (handle quiet) (fun _ => False) (itrunc sb k)
      (fun _ s' => Emptied sb k (s.mem.itable k).inum (s.mem.itable k).copy s s') s := by
    apply wp_itrunc_unshared hsb _ hopen.inum_lt rfl rfl (fun _ he => he)
    rw [hopen.copy]
    exact unshared_of_stored h.good.stored hopen.inum_lt
  obtain ⟨_,s',hexec,he⟩ := exec_ok hwp (exec_not_wait (prompt_not_wait quiet) prompt_itrunc s)
  refine ⟨s',?_,fun b _ => he.bits b⟩
  have hallowed : allowed sb s (.itrunc p k) = true := hlock
  rw [step, if_pos hallowed, outcome]
  simp only [envOf, prog, hexec]

end Sound

section Runs
variable {sb : Superblock} {s s' : Fs}

theorem step_inv (hsb : Layout sb) {op : Op} (h : Inv sb s) (hstep : step sb op s = some s') :
    Inv sb s' := by
  unfold step at hstep
  split_ifs at hstep with hop
  have hwp := wp_prog_inv hsb h hop
  rw [wp_def] at hwp
  unfold outcome at hstep
  cases hx : exec (handle (envOf op)) (prog sb op) s with
  | ok r =>
    rw [hx] at hwp hstep
    cases hstep
    exact hwp
  | panic msg =>
    rw [hx] at hstep
    cases hstep
  | wait =>
    rw [hx] at hstep
    cases hstep

theorem outcome_spares (hsb : Layout sb) {op : Op} (h : Inv sb s)
    (hop : allowed sb s op = true) : outcome sb op s ≠ .panic "freeing free block" := by
  have hwp := wp_prog_inv hsb h hop
  rw [wp_def] at hwp
  intro hx
  unfold outcome at hx
  rw [hx] at hwp
  exact hwp rfl

end Runs

theorem inv_image {files : List Input} {img : ℕ → Block} (hfit : files.length+2 ≤ ninodes)
    (himg : mkfs files = some img) : Inv superblock ⟨img,bootMem⟩ := by
  obtain ⟨-,D,own,h⟩ := mkfs_image hfit himg
  refine ⟨D,own,⟨h.stored,?_,?_,fun i hi _ => h.disk i hi,?_⟩,h.disk,h.clean,?_⟩
  · exact fun k href => absurd href (lt_irrefl 0)
  · exact fun k _ href => absurd href (lt_irrefl 0)
  · intro i hi _
    rw [h.disk i hi]
    exact lag_refl _ _
  · intro i hi htype o ho hne o' ho'
    have hi' : i = rootino := by
      by_contra hother
      by_cases hin : 0 < i ∧ i < files.length+2
      · have := (h.used i hin.1 hin.2).1
        rw [if_neg hother, htype] at this
        exact absurd this (by decide)
      · rw [h.unused i hi (by omega)] at htype
        exact absurd htype (by decide)
    subst hi'
    have hmax := h.stored.size_le rootino hi
    have hlt : o < direntSize*(rootEntries files).length := by
      by_contra hge
      exact hne (h.tail o (by omega) (by omega))
    have hfirst : o'/bsize*bsize ≤ o :=
      le_trans (Nat.mul_le_mul_right bsize ho') (Nat.div_mul_le_self o bsize)
    have := h.dense (o'/bsize*bsize) (by omega)
    rwa [Nat.mul_div_cancel _ (by decide)] at this

theorem block_ownership (files : List Input) (img : ℕ → Block) (ops : List Op) (s : Fs)
    (hfit : files.length+2 ≤ ninodes) (himg : mkfs files = some img)
    (hrun : run (step superblock) ops ⟨img,bootMem⟩ = some s) :
    Exclusive superblock s ∧
      (∀ op, allowed superblock s op = true →
        outcome superblock op s ≠ .panic "freeing free block") ∧
      ∀ p k, holds s p k = true → ∃ s', step superblock (.itrunc p k) s = some s' ∧
        ∀ b, b < superblock.size → (bitOf superblock s'.blocks b = true ↔
          bitOf superblock s.blocks b = true ∧ ¬ Refers s.blocks (s.mem.itable k).copy b) := by
  have hinv : Inv superblock s := run_invariant (step superblock) (Inv superblock)
    (fun _ _ _ h hstep => step_inv layout h hstep) ops _ s (inv_image hfit himg) hrun
  refine ⟨?_,fun op hop => outcome_spares layout hinv hop,?_⟩
  · obtain ⟨D,own,h⟩ := hinv
    exact exclusive_of_sound h
  · intro p k hlock
    obtain ⟨D,own,h⟩ := hinv
    exact itrunc_exact layout h hlock

/-- 206 empty files and one of a byte. -/
def leakFiles : List Input := MkfsBounds.manyFiles 206++[⟨[65],[7]⟩]

/-- Nothing compares the number of files with `NINODES`. The inode of the last file is overwritten
by the bitmap, which marks its block all the same. -/
theorem leakFiles_not_exclusive : ∃ img, mkfs leakFiles = some img ∧
    run (step superblock) [] ⟨img,bootMem⟩ = some ⟨img,bootMem⟩ ∧
    ¬Exclusive superblock ⟨img,bootMem⟩ := by
  have hnames : ∀ f ∈ MkfsBounds.manyFiles 206, (shortname f.path).isSome ∧ f.data = [] := by
    decide +kernel
  obtain ⟨s,x,hs,hbelow,hlo,hhi,hbit⟩ := MkfsBounds.finish_leaks (f := ⟨[65],[7]⟩) (v := 7)
    (by simp [MkfsBounds.manyFiles]) hnames (by decide) rfl
  refine ⟨s.image,by rw [MkfsBounds.mkfs_eq, leakFiles, hs]; rfl,rfl,fun hex => ?_⟩
  obtain ⟨i,hi,-,pl,hpl⟩ := hex.noLeak x hlo hhi hbit
  obtain ⟨hindirect,hlt⟩ := hbelow i hi
  rcases pl with a | j
  · exact (hlt a).ne hpl
  · rw [addrOf, if_pos hindirect] at hpl
    have : 0 < nmeta := by decide
    omega

def truncateRun : List Op :=
  [.ialloc tFile,.ilock 0 0,.writei 0 0 (.kernel [7]) 0 1 quiet,.itrunc 0 0]

theorem truncateRun_ownership : ∃ img s, mkfs [] = some img ∧
    run (step superblock) truncateRun ⟨img,bootMem⟩ = some s ∧ Exclusive superblock s := by
  have hrun : ((mkfs []).any fun img =>
      (run (step superblock) truncateRun ⟨img,bootMem⟩).isSome) = true := by decide +kernel
  obtain ⟨img,himg,hsome⟩ := (Option.any_eq_true _ _).mp hrun
  obtain ⟨s,hs⟩ := Option.isSome_iff_exists.mp hsome
  exact ⟨img,s,himg,hs,(block_ownership [] img truncateRun s (by decide) himg hs).1⟩

end GreenOS.BlockRuns
