import GreenOS.MkfsRoot

/-!
# What mkfs assigns

Blocks and inodes are assigned by two counters. Every block is read before it is
written, and a read behind the end of the image ends the run; nothing compares an
inode number with `NINODES`.
-/

namespace GreenOS.MkfsBounds
open LogCode DiskLayout FsCode FsNames
open FsOwned FsMap FsTrunc FsDirs Mkfs
open MkfsImage

def finish (files : List Input) : Option Build := do
  let s ← makeRoot emptyImage
  let s ← appendFiles s files
  let s ← fixRoot s
  balloc s s.freeblock

theorem mkfs_eq (files : List Input) : mkfs files = (finish files).map Build.image := by
  simp only [mkfs, finish, Option.map_eq_bind, Option.bind_eq_bind, Option.bind_assoc]
  rfl

section Room
variable {s s' : Build} {din din' : Dinode}

structure Room (n : ℕ) (s : Build) : Prop where
  blocks : s.freeblock ≤ fssize
  inodes : s.freeinode = n

variable {n left inum : ℕ} {p : List UInt8} {files : List Input}

theorem room_wsect (h : Room n s) (b : ℕ) (data : Block) : Room n (wsect s b data) :=
  ⟨h.blocks,h.inodes⟩

theorem appendSlot_room (h : Room n s) {i : Fin (ndirect+1)}
    (hslot : appendSlot s din i = (s',din')) (hlt : (din'.addrs i).toNat < fssize) : Room n s' := by
  have hle := h.blocks
  have hf : fssize = 2000 := rfl
  unfold appendSlot at hslot
  split_ifs at hslot
  · cases hslot
    rw [setAddrs_same, toNat_addr (by omega)] at hlt
    exact ⟨hlt,h.inodes⟩
  · cases hslot
    exact h

theorem appendBlock_room {fbn x : ℕ} (h : Room n s) (hbn : fbn < maxfile)
    (hblock : appendBlock s din fbn = some (s',din',x)) (hlt : x < fssize) : Room n s' := by
  have hf : fssize = 2000 := rfl
  unfold appendBlock at hblock
  split_ifs at hblock with hdirect
  · cases hslot : appendSlot s din (direct fbn) with
    | mk s₁ d₁ =>
      rw [hslot] at hblock
      cases hblock
      exact appendSlot_room h hslot hlt
  · have he : fbn-ndirect < nindirect := by
      have : maxfile = ndirect+nindirect := rfl
      omega
    cases hslot : appendSlot s din indirect with
    | mk s₁ d₁ =>
      rw [hslot] at hblock
      obtain ⟨ind,hrd,hblock⟩ := Option.bind_eq_some_iff.mp hblock
      have h₁ := appendSlot_room h hslot (rsect_some hrd).1
      have hle := h₁.blocks
      split_ifs at hblock
      · cases hblock
        rw [getAddr_putAddr_same _ _ he, toNat_addr (by omega)] at hlt
        exact ⟨hlt,h₁.inodes⟩
      · cases hblock
        exact h₁

theorem appendLoop_room {off off' : ℕ} (h : Room n s)
    (hloop : appendLoop left s din off p = some (s',din',off')) : Room n s' := by
  induction left generalizing s din off p with
  | zero =>
    cases hloop
    exact h
  | succ left ih =>
    rw [appendLoop] at hloop
    split_ifs at hloop with hnil hmax
    · cases hloop
      exact h
    · obtain ⟨⟨s₁,d₁,x⟩,hblock,hloop⟩ := Option.bind_eq_some_iff.mp hloop
      obtain ⟨buf,hrd,hloop⟩ := Option.bind_eq_some_iff.mp hloop
      have h₁ := appendBlock_room h (by omega) hblock (rsect_some hrd).1
      exact ih (room_wsect h₁ _ _) hloop

theorem winode_room (h : Room n s) (hw : winode s inum din = some s') :
    Room n s' := by
  obtain ⟨buf,-,hw⟩ := Option.bind_eq_some_iff.mp hw
  cases hw
  exact room_wsect h _ _

theorem iappend_room (h : Room n s) (hp : iappend s inum p = some s') : Room n s' := by
  obtain ⟨d,-,hp⟩ := Option.bind_eq_some_iff.mp hp
  obtain ⟨⟨s₁,d₁,off⟩,hloop,hp⟩ := Option.bind_eq_some_iff.mp hp
  exact winode_room (appendLoop_room h hloop) hp

theorem ialloc_room {type : BitVec 16} (h : Room n s)
    (ha : ialloc s type = some (inum,s')) : Room (n+1) s' := by
  obtain ⟨s₁,hw,ha⟩ := Option.bind_eq_some_iff.mp ha
  cases ha
  have h' : Room (n+1) { s with freeinode := s.freeinode+1 } :=
    ⟨h.blocks,congrArg (·+1) h.inodes⟩
  exact winode_room h' hw

theorem appendData_room {data : List UInt8} (h : Room n s)
    (hdata : appendData inum left s data = some s') : Room n s' := by
  induction left generalizing s data with
  | zero =>
    cases hdata
    exact h
  | succ left ih =>
    rw [appendData] at hdata
    split_ifs at hdata
    · cases hdata
      exact h
    · obtain ⟨s₁,happ,hdata⟩ := Option.bind_eq_some_iff.mp hdata
      exact ih (iappend_room h happ) hdata

theorem appendFile_room {f : Input} (h : Room n s) (hf : appendFile s f = some s') :
    Room (n+1) s' := by
  obtain ⟨name,-,hf⟩ := Option.bind_eq_some_iff.mp hf
  obtain ⟨⟨inum,s₁⟩,halloc,hf⟩ := Option.bind_eq_some_iff.mp hf
  obtain ⟨s₂,hroot,hf⟩ := Option.bind_eq_some_iff.mp hf
  exact appendData_room (iappend_room (ialloc_room h halloc) hroot) hf

theorem appendFiles_room (h : Room n s)
    (hf : appendFiles s files = some s') : Room (n+files.length) s' := by
  induction files generalizing n s with
  | nil =>
    cases hf
    exact h
  | cons f files ih =>
    obtain ⟨s₁,hfile,hf⟩ := Option.bind_eq_some_iff.mp hf
    have := ih (appendFile_room h hfile) hf
    rwa [List.length_cons, Nat.add_comm files.length, ← Nat.add_assoc]

theorem makeRoot_room (h : makeRoot emptyImage = some s) : Room 2 s := by
  rw [makeRoot] at h
  obtain ⟨⟨root,s₁⟩,halloc,h⟩ := Option.bind_eq_some_iff.mp h
  obtain ⟨s₂,hdot,hdotdot⟩ := Option.bind_eq_some_iff.mp h
  have h₀ : Room 1 emptyImage := ⟨by decide,rfl⟩
  exact iappend_room (iappend_room (ialloc_room h₀ halloc) hdot) hdotdot

theorem finish_room (h : finish files = some s) : Room (2+files.length) s := by
  rw [finish] at h
  obtain ⟨s₁,hroot,h⟩ := Option.bind_eq_some_iff.mp h
  obtain ⟨s₂,hfiles,h⟩ := Option.bind_eq_some_iff.mp h
  obtain ⟨s₃,hfix,h⟩ := Option.bind_eq_some_iff.mp h
  rw [fixRoot] at hfix
  obtain ⟨d,-,hfix⟩ := Option.bind_eq_some_iff.mp hfix
  have h₃ := winode_room (appendFiles_room (makeRoot_room hroot) hfiles) hfix
  unfold Mkfs.balloc at h
  split_ifs at h
  cases h
  exact room_wsect h₃ _ _

end Room

/-- The assigned blocks lie inside the file system, and the assigned inodes are
numbered below `NINODES` and lie before the bitmap. -/
structure Within (s : Build) : Prop where
  blocks : ∀ b, nmeta ≤ b → b < s.freeblock → b < fssize
  inodes : ∀ i, 0 < i → i < s.freeinode → i < ninodes
  apart : ∀ i, 0 < i → i < s.freeinode → iblock superblock i < superblock.bmapstart

/-- When `mkfs` reaches `exit(0)`, what it assigned fits if and only if there are
fewer than `NINODES` inodes. -/
theorem assigned_within_iff (files : List Input) (s : Build) (h : finish files = some s) :
    Within s ↔ files.length+2 ≤ ninodes := by
  have hroom := finish_room h
  have hn : ninodes = 200 := rfl
  constructor
  · intro hw
    by_contra hgt
    have := hw.inodes ninodes (by decide) (by rw [hroom.inodes]; omega)
    exact lt_irrefl _ this
  · intro hle
    have hlt : ∀ i, i < s.freeinode → i < ninodes := fun i hi => by
      rw [hroom.inodes] at hi
      omega
    exact ⟨fun b _ hb => lt_of_lt_of_le hb hroom.blocks,fun i _ hi => hlt i hi,
      fun i _ hi => iblock_fits (hlt i hi)⟩

section Empty
variable {s s' : Build}

variable {inum m : ℕ} {files : List Input}

theorem winode_some (h : iblock superblock inum < fssize) (d : Dinode) :
    winode s inum d = some (wsect s (iblock superblock inum)
      (putDinode (s.image (iblock superblock inum)) (inum%ipb) d)) := by
  rw [winode, rsect, if_pos h]
  rfl

theorem rinode_some (h : iblock superblock inum < fssize) :
    rinode s inum = some (diskInode superblock s.image inum) := by
  rw [rinode, rsect, if_pos h]
  rfl

theorem iblock_small (h : inum < 1000) : iblock superblock inum < fssize := by
  have hi : superblock.inodestart = 33 := rfl
  have hipb : ipb = 16 := rfl
  have hf : fssize = 2000 := rfl
  simp only [iblock, hi, hipb, hf]
  omega

structure Rooted (m : ℕ) (s : Build) : Prop where
  size : (diskInode superblock s.image rootino).size.toNat = direntSize*m
  used : ∀ j, j < ndirect → j*bsize < direntSize*m →
    nmeta ≤ ((diskInode superblock s.image rootino).addrs (direct j)).toNat ∧
      ((diskInode superblock s.image rootino).addrs (direct j)).toNat < s.freeblock
  unused : ∀ j, j < ndirect → direntSize*m ≤ j*bsize →
    (diskInode superblock s.image rootino).addrs (direct j) = 0
  indirect : (diskInode superblock s.image rootino).addrs indirect = 0
  blank : ∀ i, iblock superblock i < nmeta → i ≠ rootino →
    (diskInode superblock s.image i).size = 0 ∧ ∀ a, (diskInode superblock s.image i).addrs a = 0
  data : nmeta ≤ s.freeblock
  blocks : s.freeblock ≤ nmeta+m

theorem rooted_ialloc (type : BitVec 16) (h : Rooted m s) (hlt : s.freeinode < 1000)
    (hne : s.freeinode ≠ rootino) :
    ∃ s', ialloc s type = some (s.freeinode,s') ∧ Rooted m s' ∧ s'.freeinode = s.freeinode+1 := by
  refine ⟨_,by rw [Mkfs.ialloc, winode_some (iblock_small hlt)]; rfl,?_,rfl⟩
  have hput : ∀ d i, diskInode superblock (Function.update s.image (iblock superblock s.freeinode)
      (putDinode (s.image (iblock superblock s.freeinode)) (s.freeinode%ipb) d)) i =
      if i = s.freeinode then d else diskInode superblock s.image i :=
    fun d i => diskInode_putDinode s.freeinode i d
  have hroot := fun d => (hput d rootino).trans (if_neg hne.symm)
  refine ⟨?_,?_,?_,?_,fun i hi hne => ?_,h.data,h.blocks⟩
  · simp only [wsect, hroot]
    exact h.size
  · simp only [wsect, hroot]
    exact h.used
  · simp only [wsect, hroot]
    exact h.unused
  · simp only [wsect, hroot]
    exact h.indirect
  · simp only [wsect, hput]
    split_ifs
    · exact ⟨rfl,fun _ => rfl⟩
    · exact h.blank i hi hne

theorem rooted_slot {fbn : ℕ} {d : Dinode} (h : Rooted m s) (hm : m < 700)
    (hd : d = diskInode superblock s.image rootino) (hbn : fbn = direntSize*m/bsize) :
    ∃ s₁ d₁, appendSlot s d (direct fbn) = (s₁,d₁) ∧ s₁.image = s.image ∧
      s₁.freeinode = s.freeinode ∧ s.freeblock ≤ s₁.freeblock ∧ s₁.freeblock ≤ s.freeblock+1 ∧
      nmeta ≤ (d₁.addrs (direct fbn)).toNat ∧ (d₁.addrs (direct fbn)).toNat < s₁.freeblock ∧
      ∀ a, a ≠ direct fbn → d₁.addrs a = d.addrs a := by
  have hb : bsize = 1024 := rfl
  have hds : direntSize = 16 := rfl
  have hnd : ndirect = 12 := rfl
  have hnm : nmeta = 47 := rfl
  have hblocks := h.blocks
  have hdata := h.data
  have hlt : fbn < ndirect := by
    rw [hds, hb] at hbn
    omega
  unfold appendSlot
  split_ifs with hempty
  · refine ⟨_,_,rfl,rfl,rfl,Nat.le_succ _,le_refl _,?_,?_,fun a hne => ?_⟩
    · rw [setAddrs_same, toNat_addr (by omega)]
      exact hdata
    · rw [setAddrs_same, toNat_addr (by omega)]
      exact Nat.lt_succ_self _
    · exact setAddrs_of_ne hne _ _
  · have hpart : fbn*bsize < direntSize*m := by
      by_contra hge
      have hz := h.unused fbn hlt (by omega)
      rw [← hd] at hz
      exact hempty hz
    obtain ⟨hlo,hhi⟩ := h.used fbn hlt hpart
    rw [← hd] at hlo hhi
    exact ⟨s,d,rfl,rfl,rfl,le_refl _,Nat.le_succ _,hlo,hhi,fun _ _ => rfl⟩

theorem rooted_iappend {p : List UInt8} (h : Rooted m s) (hm : m < 700)
    (hp : p.length = direntSize) :
    ∃ s', iappend s rootino p = some s' ∧ Rooted (m+1) s' ∧ s'.freeinode = s.freeinode := by
  have hb : bsize = 1024 := rfl
  have hds : direntSize = 16 := rfl
  have hnd : ndirect = 12 := rfl
  have hmf : maxfile = 268 := rfl
  have hf : fssize = 2000 := rfl
  have hnm : nmeta = 47 := rfl
  have hroot : iblock superblock rootino < nmeta := by decide
  have hblocks := h.blocks
  obtain ⟨d,hd⟩ : ∃ d, d = diskInode superblock s.image rootino := ⟨_,rfl⟩
  obtain ⟨fbn,hbn⟩ : ∃ fbn, fbn = direntSize*m/bsize := ⟨_,rfl⟩
  obtain ⟨s₁,d₁,hslot,himg,hinodes,hge,hle,hlo,hhi,hkept⟩ := rooted_slot h hm hd hbn
  have hsize := h.size
  rw [← hd] at hsize
  have hlt : fbn < ndirect := by
    rw [hds, hb] at hbn
    omega
  have hindirect : d₁.addrs indirect = 0 := by
    rw [hkept indirect (direct_ne_indirect hlt).symm, hd, h.indirect]
  have hother : ∀ j, j < ndirect → j ≠ fbn → d₁.addrs (direct j) = d.addrs (direct j) := by
    intro j hj hne
    refine hkept _ fun heq => hne ?_
    rw [← direct_val hj, heq, direct_val hlt]
  obtain ⟨s₂,hs₂⟩ : ∃ s₂, s₂ = wsect s₁ (d₁.addrs (direct fbn)).toNat
      (paste (s₁.image (d₁.addrs (direct fbn)).toNat) (direntSize*m-fbn*bsize) p) := ⟨_,rfl⟩
  have hloop : appendLoop p.length s d d.size.toNat p = some (s₂,d₁,direntSize*(m+1)) := by
    have hne : p ≠ [] := fun h0 => by
      rw [h0] at hp
      cases hp
    have hn1 : min p.length ((fbn+1)*bsize-direntSize*m) = direntSize := by
      rw [hp, hds, hb] at *
      omega
    rw [hsize, hp, hds, appendLoop, if_neg hne, ← hds, ← hbn, if_neg (by omega), appendBlock,
      if_pos hlt, hslot]
    simp only [Option.bind_eq_bind, Option.bind_some, rsect]
    rw [if_pos (by omega), Option.bind_some, hn1, ← hp, List.take_length, List.drop_length, hp,
      appendLoop, if_pos rfl, hs₂]
    rfl
  obtain ⟨d₂,hd₂⟩ : ∃ d₂, d₂ = { d₁ with size := BitVec.ofNat 32 (direntSize*(m+1)) } := ⟨_,rfl⟩
  obtain ⟨s₃,hs₃⟩ : ∃ s₃, s₃ = wsect s₂ (iblock superblock rootino)
      (putDinode (s₂.image (iblock superblock rootino)) (rootino%ipb) d₂) := ⟨_,rfl⟩
  have hinode : diskInode superblock s₃.image rootino = d₂ := by
    rw [hs₃]
    exact (diskInode_putDinode rootino rootino d₂).trans (if_pos rfl)
  have hfree : s₃.freeblock = s₁.freeblock := by rw [hs₃, hs₂]; rfl
  refine ⟨s₃,?_,?_,by rw [hs₃, hs₂]; exact hinodes⟩
  · rw [iappend, rinode_some (lt_trans hroot (by decide)), ← hd, Option.bind_eq_bind,
      Option.bind_some, hloop]
    simp only [Option.bind_eq_bind, Option.bind_some]
    rw [← hd₂, winode_some (lt_trans hroot (by decide)), hs₃]
  · constructor
    · rw [hinode, hd₂]
      exact toNat_addr (by rw [hds]; omega)
    · intro j hj hin
      rw [hinode, hd₂, hfree]
      by_cases hjb : j = fbn
      · rw [hjb]
        exact ⟨hlo,hhi⟩
      · have hold := h.used j hj (by rw [hds, hb] at *; omega)
        rw [← hd, ← hother j hj hjb] at hold
        exact ⟨hold.1,lt_of_lt_of_le hold.2 hge⟩
    · intro j hj hout
      have hjb : j ≠ fbn := by
        rw [hds, hb] at *
        omega
      rw [hinode, hd₂]
      have hold := h.unused j hj (by rw [hds, hb] at *; omega)
      rw [← hd, ← hother j hj hjb] at hold
      exact hold
    · rw [hinode, hd₂]
      exact hindirect
    · intro i hi hne
      have hiblock : iblock superblock i ≠ (d₁.addrs (direct fbn)).toNat := by omega
      have hsame : diskInode superblock s₃.image i = diskInode superblock s.image i := by
        rw [hs₃]
        refine (diskInode_putDinode rootino i d₂).trans ((if_neg hne).trans ?_)
        rw [hs₂, wsect, diskInode_update_of_ne hiblock, himg]
      rw [hsame]
      exact h.blank i hi hne
    · omega
    · omega

theorem rooted_appendFile {f : Input} (h : Rooted m s) (hm : m < 700) (hlt : s.freeinode < 1000)
    (hne : rootino < s.freeinode) (hname : (shortname f.path).isSome) (hdata : f.data = []) :
    ∃ s', appendFile s f = some s' ∧ Rooted (m+1) s' ∧ s'.freeinode = s.freeinode+1 := by
  obtain ⟨name,hname⟩ := Option.isSome_iff_exists.mp hname
  obtain ⟨s₁,halloc,h₁,hfree₁⟩ := rooted_ialloc tFile h hlt (by omega)
  obtain ⟨s₂,happ,h₂,hfree₂⟩ := rooted_iappend h₁ hm (direntBytes_length s.freeinode name)
  refine ⟨s₂,?_,h₂,by omega⟩
  simp only [appendFile, hname, halloc, happ, hdata, Option.bind_eq_bind, Option.bind_some]
  rfl

theorem rooted_appendFiles (h : Rooted m s) (hm : m+files.length < 700)
    (hlt : s.freeinode+files.length < 1000) (hne : rootino < s.freeinode)
    (hnames : ∀ f ∈ files, (shortname f.path).isSome ∧ f.data = []) :
    ∃ s', appendFiles s files = some s' ∧ Rooted (m+files.length) s' := by
  induction files generalizing m s with
  | nil => exact ⟨s,rfl,h⟩
  | cons f files ih =>
    rw [List.length_cons] at hm hlt
    obtain ⟨hname,hdata⟩ := hnames f List.mem_cons_self
    obtain ⟨s₁,hfile,h₁,hfree⟩ := rooted_appendFile h (by omega) (by omega) hne hname hdata
    obtain ⟨s',hfiles,h'⟩ := ih h₁ (by omega) (by omega) (by omega)
      (fun g hg => hnames g (List.mem_cons_of_mem _ hg))
    refine ⟨s',?_,?_⟩
    · simp only [appendFiles, hfile, Option.bind_eq_bind, Option.bind_some, hfiles]
    · rwa [List.length_cons, Nat.add_comm files.length, ← Nat.add_assoc]

theorem rooted_makeRoot : ∃ s, makeRoot emptyImage = some s ∧ Rooted 2 s ∧ s.freeinode = 2 := by
  obtain ⟨s₁,halloc,hinode,hblank,hfree,hblock⟩ : ∃ s₁, ialloc emptyImage tDir = some (rootino,s₁) ∧
      diskInode superblock s₁.image rootino = { zeroDinode with type := tDir, nlink := 1 } ∧
      (∀ i, i ≠ rootino → diskInode superblock s₁.image i = zeroDinode) ∧
      s₁.freeinode = 2 ∧ s₁.freeblock = nmeta := by
    refine ⟨_,by rw [Mkfs.ialloc, winode_some (by decide)]; rfl,?_,fun i hne => ?_,rfl,rfl⟩
    · exact (diskInode_putDinode rootino rootino _).trans (if_pos rfl)
    · refine (diskInode_putDinode rootino i _).trans ((if_neg hne).trans ?_)
      have hiblock : iblock superblock i ≠ 1 :=
        (lt_of_lt_of_le (by decide) (Nat.le_add_left superblock.inodestart (i/ipb))).ne'
      have hzeros : diskInode superblock emptyImage.image i = zeroDinode := by
        rw [diskInode, MkfsRoot.emptyImage_zeros hiblock, getDinode_zeros]
      exact hzeros
  have h₁ : Rooted 0 s₁ := by
    refine ⟨?_,fun j _ hj => absurd hj (by omega),fun j _ _ => ?_,?_,fun i hi hne => ?_,by omega,
      by omega⟩
    · rw [hinode]
      rfl
    · rw [hinode]
      rfl
    · rw [hinode]
      rfl
    · rw [hblank i hne]
      exact ⟨rfl,fun _ => rfl⟩
  obtain ⟨s₂,happ₂,h₂,hfree₂⟩ := rooted_iappend h₁ (by omega) (direntBytes_length rootino dot)
  obtain ⟨s₃,happ₃,h₃,hfree₃⟩ := rooted_iappend h₂ (by omega) (direntBytes_length rootino dotdot)
  refine ⟨s₃,?_,h₃,by omega⟩
  simp only [makeRoot, halloc, Option.bind_eq_bind, Option.bind_some, happ₂, happ₃]

theorem finish_empty (hlen : files.length < 600)
    (hnames : ∀ f ∈ files, (shortname f.path).isSome ∧ f.data = []) :
    ∃ s, finish files = some s := by
  obtain ⟨s₁,hroot,h₁,hfree⟩ := rooted_makeRoot
  obtain ⟨s₂,hfiles,h₂⟩ := rooted_appendFiles h₁ (by omega) (by omega)
    (by rw [hfree]; decide) hnames
  have hb : iblock superblock rootino < fssize := by decide
  have hbpb : bpb = 8192 := rfl
  have hle := h₂.blocks
  have hnm : nmeta = 47 := rfl
  simp only [finish, hroot, hfiles, fixRoot, rinode_some hb, winode_some hb, Option.bind_eq_bind,
    Option.bind_some, Mkfs.balloc, wsect]
  rw [if_pos (by omega)]
  exact ⟨_,rfl⟩

/-- The inodes below `NINODES` have direct blocks only, all of them below `x`. -/
def Below (x : ℕ) (s : Build) : Prop :=
  ∀ i, i < ninodes → (diskInode superblock s.image i).addrs indirect = 0 ∧
    ∀ a, ((diskInode superblock s.image i).addrs a).toNat < x

variable {x b : ℕ}

theorem rooted_below (h : Rooted m s) : Below s.freeblock s := by
  intro i hi
  have hdata := h.data
  have hnm : nmeta = 47 := rfl
  by_cases hroot : i = rootino
  · subst hroot
    refine ⟨h.indirect,fun a => ?_⟩
    by_cases ha : a.val < ndirect
    · have hdirect : direct a.val = a := Fin.ext (direct_val ha)
      rw [← hdirect]
      by_cases hin : a.val*bsize < direntSize*m
      · exact (h.used a.val ha hin).2
      · rw [h.unused a.val ha (not_lt.mp hin)]
        exact lt_of_lt_of_le (by decide) hdata
    · have hindirect : a = indirect :=
        Fin.ext (by have := a.isLt; exact (by omega : a.val = ndirect))
      rw [hindirect, h.indirect]
      exact lt_of_lt_of_le (by decide) hdata
  · obtain ⟨-,hzero⟩ := h.blank i (lt_trans (iblock_fits hi) (by decide)) hroot
    refine ⟨hzero _,fun a => ?_⟩
    rw [hzero a]
    exact lt_of_lt_of_le (by decide) hdata

theorem below_wsect (h : Below x s) (hb : superblock.bmapstart ≤ b) (data : Block) :
    Below x (wsect s b data) := by
  intro i hi
  have hne : iblock superblock i ≠ b := (lt_of_lt_of_le (iblock_fits hi) hb).ne
  rw [wsect, diskInode_update_of_ne hne]
  exact h i hi

theorem below_iappend (inum : ℕ) (v : UInt8) (h : Below x s)
    (hinode : superblock.bmapstart ≤ iblock superblock inum) (hlt : iblock superblock inum < fssize)
    (hsize : (diskInode superblock s.image inum).size = 0)
    (haddrs : ∀ a, (diskInode superblock s.image inum).addrs a = 0)
    (hdata : nmeta ≤ s.freeblock) (hroom : s.freeblock < fssize) :
    ∃ s', iappend s inum [v] = some s' ∧ Below x s' ∧ s'.freeblock = s.freeblock+1 := by
  have hf : fssize = 2000 := rfl
  have haddr : (BitVec.ofNat 32 s.freeblock).toNat = s.freeblock := toNat_addr (by omega)
  have hloop : ∀ d, d = diskInode superblock s.image inum →
      appendLoop 1 s d d.size.toNat [v] =
        some (wsect { s with freeblock := s.freeblock+1 } s.freeblock
          (paste (s.image s.freeblock) 0 [v]),setAddrs (direct 0)
            (BitVec.ofNat 32 s.freeblock) d,1) := by
    intro d hd
    have hzero : d.addrs (direct 0) = 0 := by rw [hd, haddrs]
    have hempty : d.size = 0 := by rw [hd, hsize]
    have hoff : d.size.toNat = 0 := by rw [hd, hsize]; rfl
    have hslot : appendBlock s d 0 = some ({ s with freeblock := s.freeblock+1 },
        setAddrs (direct 0) (BitVec.ofNat 32 s.freeblock) d,s.freeblock) := by
      rw [appendBlock, if_pos (by decide), appendSlot, if_pos hzero]
      simp only [setAddrs_same, haddr]
    rw [hoff, appendLoop, if_neg (List.cons_ne_nil v []), Nat.zero_div, if_neg (by decide), hslot]
    simp only [Option.bind_eq_bind, Option.bind_some, rsect, if_pos hroom]
    rfl
  have hrd : rinode s inum = some (diskInode superblock s.image inum) := rinode_some hlt
  rw [iappend, hrd, Option.bind_eq_bind, Option.bind_some, List.length_singleton, hloop _ rfl]
  simp only [Option.bind_eq_bind, Option.bind_some]
  rw [winode_some hlt]
  refine ⟨_,rfl,?_,rfl⟩
  refine below_wsect (below_wsect ?_ (le_trans (by decide) hdata) _) hinode _
  exact h

variable {f : Input} {v : UInt8}

theorem below_appendFile (h : Rooted m s) (hm : m < 700) (hfree : s.freeinode = 208)
    (hname : (shortname f.path).isSome) (hdata : f.data = [v]) :
    ∃ s' x, appendFile s f = some s' ∧ Below x s' ∧ nmeta ≤ x ∧ x < s'.freeblock ∧
      s'.freeblock ≤ nmeta+m+2 := by
  obtain ⟨name,hname⟩ := Option.isSome_iff_exists.mp hname
  obtain ⟨s₁,halloc,h₁,hfree₁⟩ := rooted_ialloc tFile h (by omega)
    (by rw [hfree]; decide)
  obtain ⟨s₂,happ,h₂,hfree₂⟩ := rooted_iappend h₁ hm (direntBytes_length s.freeinode name)
  have hf : fssize = 2000 := rfl
  have hnm : nmeta = 47 := rfl
  have hblocks := h₂.blocks
  obtain ⟨hsize,haddrs⟩ := h₂.blank 208 (by decide) (by decide)
  obtain ⟨s₃,hbyte,hbelow,hblock⟩ := below_iappend 208 v (rooted_below h₂)
    (by decide) (by decide) hsize haddrs h₂.data (by omega)
  refine ⟨s₃,s₂.freeblock,?_,hbelow,h₂.data,by omega,by omega⟩
  simp only [appendFile, hname, halloc, happ, hdata, Option.bind_eq_bind, Option.bind_some]
  rw [hfree, List.length_singleton, appendData, if_neg (List.cons_ne_nil v []),
    List.take_of_length_le (by simp [bsize]), hbyte]
  rfl

theorem appendFiles_append (files fs : List Input) (s : Build) :
    appendFiles s (files++fs) = (appendFiles s files).bind (appendFiles · fs) := by
  induction files generalizing s with
  | nil => rfl
  | cons f files ih =>
    rw [List.cons_append, appendFiles, appendFiles, Option.bind_eq_bind, Option.bind_assoc]
    exact congrArg _ (funext ih)

theorem below_fixRoot (h : Below x s) :
    ∃ s', fixRoot s = some s' ∧ Below x s' ∧ s'.freeblock = s.freeblock := by
  have hb : iblock superblock rootino < fssize := by decide
  rw [fixRoot, rinode_some hb, Option.bind_eq_bind, Option.bind_some, winode_some hb]
  refine ⟨_,rfl,fun i hi => ?_,rfl⟩
  have hput : ∀ d, diskInode superblock (wsect s (iblock superblock rootino)
      (putDinode (s.image (iblock superblock rootino)) (rootino%ipb) d)).image i =
      if i = rootino then d else diskInode superblock s.image i :=
    fun d => diskInode_putDinode rootino i d
  rw [hput]
  split_ifs with hroot
  · exact h rootino (by decide)
  · exact h i hi

theorem finish_leaks (hlen : files.length = 206)
    (hnames : ∀ g ∈ files, (shortname g.path).isSome ∧ g.data = [])
    (hname : (shortname f.path).isSome) (hdata : f.data = [v]) :
    ∃ s x, finish (files++[f]) = some s ∧ Below x s ∧ nmeta ≤ x ∧ x < superblock.size ∧
      bitOf superblock s.image x = true := by
  obtain ⟨s₁,hroot,h₁,hfree⟩ := rooted_makeRoot
  obtain ⟨s₂,hfiles,h₂⟩ := rooted_appendFiles h₁ (by omega) (by omega)
    (by rw [hfree]; decide) hnames
  have hfree₂ : s₂.freeinode = 208 := by
    rw [(appendFiles_room (makeRoot_room hroot) hfiles).inodes, hlen]
  obtain ⟨s₃,x,hfile,hbelow,hlo,hhi,hle⟩ := below_appendFile h₂ (by omega) hfree₂ hname hdata
  obtain ⟨s₄,hfix,hbelow₄,hblock⟩ := below_fixRoot hbelow
  have hnm : nmeta = 47 := rfl
  have hbpb : bpb = 8192 := rfl
  have hsize : superblock.size = 2000 := rfl
  have hfs : fssize = 2000 := rfl
  have hlast : appendFiles s₁ (files++[f]) = some s₃ := by
    rw [appendFiles_append, hfiles, Option.bind_some, appendFiles, hfile]
    rfl
  simp only [finish, hroot, hlast, hfix, Option.bind_eq_bind, Option.bind_some, Mkfs.balloc]
  rw [if_pos (by omega)]
  refine ⟨_,x,rfl,below_wsect hbelow₄ le_rfl _,hlo,by omega,?_⟩
  simp only [bitOf, wsect]
  rw [bblock_eq (by omega), Function.update_self, Nat.mod_eq_of_lt (by omega),
    testBit_bitmap (by omega), hblock]
  exact decide_eq_true hhi

end Empty

def twoFiles : List Input := [⟨[97],[7,8]⟩,⟨[98],[9]⟩]

theorem twoFiles_within : ∃ s, finish twoFiles = some s ∧ s.freeinode = 4 ∧ Within s := by
  have hsome : (finish twoFiles).isSome = true := by decide +kernel
  obtain ⟨s,hs⟩ := Option.isSome_iff_exists.mp hsome
  exact ⟨s,hs,(finish_room hs).inodes,(assigned_within_iff twoFiles s hs).mpr (by decide)⟩

def manyFiles (n : ℕ) : List Input :=
  (List.range n).map (fun i => ⟨[UInt8.ofNat (97+i/20),UInt8.ofNat (97+i%20)],[]⟩)

/-- With 207 files the last inode is numbered 208 and lies in the bitmap. -/
theorem manyFiles_overlap : ∃ s, finish (manyFiles 207) = some s ∧ s.freeinode = 209 ∧
    iblock superblock 208 = superblock.bmapstart ∧ ¬ Within s := by
  have hnames : ∀ f ∈ manyFiles 207, (shortname f.path).isSome ∧ f.data = [] := by decide +kernel
  obtain ⟨s,hs⟩ := finish_empty (by simp [manyFiles]) hnames
  have hfree : s.freeinode = 209 := by
    rw [(finish_room hs).inodes]
    simp [manyFiles]
  refine ⟨s,hs,hfree,by decide,fun hw => ?_⟩
  exact absurd (hw.apart 208 (by decide) (by omega)) (by decide)

end GreenOS.MkfsBounds
