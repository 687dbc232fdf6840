import GreenOS.MkfsBounds

/-!
# Holes in the image

A file has a block for each byte of its content. The size of the root directory is
rounded up past its last entry, so the block behind the entries is missing when
the entries fill their blocks.
-/

namespace GreenOS.MkfsHoles
open Programs LogCode DiskLayout
open BufferSeq (Env)
open FsCode FsDirect FsNames FsOwned FsMap
open FsContent Mkfs MkfsImage MkfsRoot MkfsBounds

/-- Every block of an inode below its size has an address, and reading the inode
leaves the disk and the table as they are. -/
structure Solid (img : Blocks) : Prop where
  dense : ∀ i bn, i < ninodes → bn*bsize < (diskInode superblock img i).size.toNat →
    addrOf img (diskInode superblock img i) (placeOf bn) ≠ 0
  reads : ∀ env m k i dst off n, i < ninodes → (diskInode superblock img i).type ≠ 0 →
    (m.itable k).copy = diskInode superblock img i →
    wp (handle env) (fun _ => False) (readi superblock k dst off n)
      (fun _ s' => s' = ⟨img,m⟩) ⟨img,m⟩

section
variable {files : List Input} {img : Blocks} {D : Inodes} {own : Owners}

theorem root_dense {es : List Entry} {n : ℕ} (h : Image img D own es n)
    (hes : es.length%(bsize/direntSize) ≠ 0) {bn : ℕ}
    (hbn : bn*bsize < (D rootino).size.toNat) :
    addrOf img (D rootino) (placeOf bn) ≠ 0 := by
  have hb : bsize = 1024 := rfl
  have hds : direntSize = 16 := rfl
  have hlt : bn*bsize < direntSize*es.length := by
    rw [h.size, hb, hds] at hbn
    rw [hb, hds] at hes ⊢
    omega
  have := h.dense (bn*bsize) hlt
  rwa [Nat.mul_div_cancel _ (by decide)] at this

theorem solid_of_dense (h : Image img D own (rootEntries files) (files.length+2))
    (hdense : ∀ i bn, i < ninodes → bn*bsize < (D i).size.toNat →
      addrOf img (D i) (placeOf bn) ≠ 0) : Solid img where
  dense := fun i bn hi => by
    rw [h.disk i hi]
    exact hdense i bn hi
  reads := fun env m k i dst off n hi htype hcopy => by
    rw [h.disk i hi] at htype hcopy
    have hopen : Open superblock D own ⟨img,m⟩ k i := ⟨h.stored,hi,htype,hcopy⟩
    apply wp_readi layout hopen (fun _ => rfl)
    intro len t r D' own' s' hlen _ _ hread _
    refine (hread.dense fun o _ ho => ?_).1
    exact hdense i (o/bsize) hi (lt_of_le_of_lt (Nat.div_mul_le_self o bsize) (by omega))

theorem inode_cases (files : List Input) (i : ℕ) :
    i = 0 ∨ files.length+2 ≤ i ∨ i = rootino ∨ ∃ n f, files[n]? = some f ∧ i = n+2 := by
  have hr : rootino = 1 := rfl
  by_cases hmid : 2 ≤ i ∧ i < files.length+2
  · have hlt : i-2 < files.length := by omega
    exact .inr (.inr (.inr ⟨i-2,files[i-2],List.getElem?_eq_getElem hlt,by omega⟩))
  · omega

/-- The image has no holes if and only if the entries of the root directory leave
room in their last block. -/
theorem image_solid_iff (files : List Input) (img : ℕ → Block) (hfit : files.length+2 ≤ ninodes)
    (himg : mkfs files = some img) :
    Solid img ↔ (files.length+2)%(bsize/direntSize) ≠ 0 := by
  obtain ⟨-,D,own,h,hfiles⟩ := mkfs_files hfit himg
  have hb : bsize = 1024 := rfl
  have hds : direntSize = 16 := rfl
  have hlen : (rootEntries files).length = files.length+2 := by
    rw [rootEntries, List.length_append, fileEntries_length]
    exact Nat.add_comm _ _
  constructor
  · intro hsolid hfull
    have hn : ninodes = 200 := rfl
    have hbn : direntSize*(files.length+2)/bsize < ndirect := by
      have hnd : ndirect = 12 := rfl
      rw [hb, hds]
      omega
    have haddr := hfiles.trimmed _ hbn (by rw [hb, hds] at *; omega)
    have := hsolid.dense rootino (direntSize*(files.length+2)/bsize) (by decide) (by
      rw [h.disk rootino (by decide), h.size, hlen]
      exact Nat.mul_lt_mul_of_pos_right (Nat.lt_succ_self _) (by decide))
    rw [h.disk rootino (by decide), placeOf, if_pos hbn, addrOf, haddr] at this
    exact this rfl
  · intro hroom
    apply solid_of_dense h
    intro i bn hi hbn
    rcases inode_cases files i with h0 | h0 | rfl | ⟨n,f,hf,rfl⟩
    · rw [h.unused i hi (.inl h0)] at hbn
      exact absurd hbn (Nat.not_lt_zero _)
    · rw [h.unused i hi (.inr h0)] at hbn
      exact absurd hbn (Nat.not_lt_zero _)
    · exact root_dense h (by rwa [hlen]) hbn
    · have hat := hfiles.file n f hf
      have := hat.dense (bn*bsize) (by rw [← hat.size]; exact hbn)
      rwa [Nat.mul_div_cancel _ (by decide)] at this

end

theorem mkfs_empty {files : List Input} (hlen : files.length < 600)
    (hnames : ∀ f ∈ files, (shortname f.path).isSome ∧ f.data = []) :
    ∃ img, mkfs files = some img := by
  obtain ⟨s,hs⟩ := finish_empty hlen hnames
  exact ⟨s.image,by rw [mkfs_eq, hs]; rfl⟩

theorem twoFiles_solid : ∃ img, mkfs twoFiles = some img ∧ Solid img := by
  have hsome : (mkfs twoFiles).isSome = true := by decide +kernel
  obtain ⟨img,himg⟩ := Option.isSome_iff_exists.mp hsome
  exact ⟨img,himg,(image_solid_iff twoFiles img (by decide) himg).mpr (by decide)⟩

/-- With 62 files the root directory has two blocks by its size and one in fact. -/
theorem fullBlock_hole : ∃ img, mkfs (manyFiles 62) = some img ∧
    (diskInode superblock img rootino).size.toNat = 2*bsize ∧
    (diskInode superblock img rootino).addrs (direct 1) = 0 ∧ ¬ Solid img := by
  have hnames : ∀ f ∈ manyFiles 62, (shortname f.path).isSome ∧ f.data = [] := by decide +kernel
  have hlen : (manyFiles 62).length = 62 := by simp [manyFiles]
  obtain ⟨img,himg⟩ := mkfs_empty (by omega) hnames
  have hfit : (manyFiles 62).length+2 ≤ ninodes := by
    rw [hlen]
    decide
  obtain ⟨-,D,own,h,hfiles⟩ := mkfs_files hfit himg
  have hsize := h.size
  have haddr := hfiles.trimmed 1 (by decide) (by rw [hlen]; decide)
  rw [rootEntries, List.length_append, fileEntries_length, hlen] at hsize
  refine ⟨img,himg,?_,?_,fun hsolid => ?_⟩
  · rw [h.disk rootino (by decide)]
    exact hsize
  · rw [h.disk rootino (by decide)]
    exact haddr
  · have hdense := hsolid.dense rootino 1 (by decide)
    rw [h.disk rootino (by decide), placeOf, if_pos (by decide), addrOf, haddr] at hdense
    exact hdense (by rw [hsize]; decide) rfl

end GreenOS.MkfsHoles
