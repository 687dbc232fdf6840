import GreenOS.Mkfs
import GreenOS.FsState

/-!
# The image that mkfs builds

`mkfs` writes the bitmap last, so a build is seen through the bitmap it would
get now: in that view every append is an allocation and a write of the kernel's
kind. `Built` records the content each inode has been given so far.
-/

namespace GreenOS.MkfsImage
open ByteBlock LogCode DiskLayout FsMemory FsCode
open FsDirect FsNames FsOwned FsBlocks
open FsMap FsContent FsInodes Mkfs
open Function (update update_self update_of_ne)

theorem bitmap_succ (n : ℕ) : bitmap (n+1) = setBit (bitmap n) n := by
  simp [bitmap, List.range_succ]

theorem testBit_zeros (b : ℕ) : testBit zeros b = false := by
  simp [testBit, get_zeros]

theorem testBit_bitmap {used : ℕ} (h : used ≤ bpb) (b : ℕ) :
    testBit (bitmap used) b = decide (b < used) := by
  induction used with
  | zero => exact testBit_zeros b
  | succ n ih =>
    rw [bitmap_succ, testBit_setBit _ _ (by omega), ih (by omega), ← Bool.decide_or]
    exact decide_eq_decide.mpr (by omega)

theorem layout : Layout superblock := ⟨by decide,by decide,by decide,by decide⟩

theorem dataStart_eq : dataStart superblock = nmeta := rfl

def view (s : Build) : Blocks := update s.image superblock.bmapstart (bitmap s.freeblock)

structure Ready (s : Build) : Prop where
  data : nmeta ≤ s.freeblock
  room : s.freeblock ≤ fssize
  zeros : ∀ b, s.freeblock ≤ b → s.image b = zeros

section View
variable {s : Build}

variable {b : ℕ}

theorem view_of_ne (h : b ≠ superblock.bmapstart) : view s b = s.image b :=
  update_of_ne h _ _

theorem view_wsect (h : b ≠ superblock.bmapstart) (data : Block) :
    view (wsect s b data) = update (view s) b data :=
  Function.update_comm h _ _ _

theorem bblock_eq (h : b < fssize) : bblock superblock b = superblock.bmapstart := by
  have hb : bpb = 8192 := rfl
  have hf : fssize = 2000 := rfl
  simp only [bblock, hb]
  omega

theorem bitOf_view (h : Ready s) (hb : b < fssize) :
    bitOf superblock (view s) b = decide (b < s.freeblock) := by
  have hbpb : bpb = 8192 := rfl
  have hf : fssize = 2000 := rfl
  have hroom := h.room
  rw [bitOf, bblock_eq hb, view, update_self, Nat.mod_eq_of_lt (by omega),
    testBit_bitmap (by omega)]

theorem ready_alloc (h : Ready s) (hroom : s.freeblock < fssize) :
    Ready { s with freeblock := s.freeblock+1 } where
  data := Nat.le_succ_of_le h.data
  room := hroom
  zeros := fun b hb => h.zeros b (Nat.le_of_succ_le hb)

theorem ready_wsect (h : Ready s) (hb : b < s.freeblock) (data : Block) :
    Ready (wsect s b data) where
  data := h.data
  room := h.room
  zeros := fun b' hb' => by
    have hb' : s.freeblock ≤ b' := hb'
    exact (update_of_ne (by omega) _ _).trans (h.zeros b' hb')

theorem data_ne_bmap (h : nmeta ≤ b) : b ≠ superblock.bmapstart := by
  have : superblock.bmapstart < nmeta := by decide
  omega

theorem view_alloc (h : Ready s) (hroom : s.freeblock < fssize) (m : Mem) :
    view { s with freeblock := s.freeblock+1 } =
      (allocated superblock ⟨view s,m⟩ s.freeblock).blocks := by
  have hbpb : bpb = 8192 := rfl
  have hf : fssize = 2000 := rfl
  have hne := data_ne_bmap h.data
  simp only [allocated, setBlock, bblock_eq hroom]
  rw [Nat.mod_eq_of_lt (by omega), view, view, update_self, Function.update_idem,
    bitmap_succ]
  funext b
  by_cases hb : b = s.freeblock
  · rw [hb, update_of_ne hne, update_self]
    exact h.zeros _ (le_refl _)
  · rw [update_of_ne hb]

end View

section Append
variable {s : Build} {m : Mem} {k : Fin ninode} {i : ℕ} {D : Inodes} {own : Owners}

theorem free_ready (h : Ready s) (hst : Stored superblock D own (view s))
    (hroom : s.freeblock < fssize) : own s.freeblock = .free := by
  by_contra hne
  have := (hst.bits s.freeblock hroom).mpr hne
  rw [bitOf_view h hroom] at this
  exact absurd (of_decide_eq_true this) (lt_irrefl _)

variable {b : ℕ} {s' : Build} {din : Dinode}

theorem placed_lt (h : Ready s) (hst : Stored superblock D own (view s)) {x : ℕ × Place}
    (hb : own b = .place x) : nmeta ≤ b ∧ b < s.freeblock := by
  have hrange := placed_range hst hb
  have hbit := (hst.bits b hrange.2).mpr (by rw [hb]; nofun)
  rw [bitOf_view h hrange.2] at hbit
  exact ⟨hrange.1,of_decide_eq_true hbit⟩

structure Appended (k : Fin ninode) (i : ℕ) (D : Inodes) (own : Owners) (s : Build) (m : Mem)
    (D' : Inodes) (own' : Owners) (s' : Build) : Prop where
  grown : Grown superblock k i D own ⟨view s,m⟩ D' own' ⟨view s',withCopy m k (D' i)⟩
  ready : Ready s'
  inodes : s'.freeinode = s.freeinode

theorem appendSlot_spec (h : Ready s) (hopen : Open superblock D own ⟨view s,m⟩ k i)
    {sl : Fin (ndirect+1)} (hslot : appendSlot s (D i) sl = (s',din))
    (hroom : (din.addrs sl).toNat < fssize) :
    din.addrs sl ≠ 0 ∧ ∃ D' own', D' i = din ∧ Appended k i D own s m D' own' s' := by
  have hf : fssize = 2000 := rfl
  have hle := h.room
  unfold appendSlot at hslot
  split_ifs at hslot with hempty
  · cases hslot
    rw [setAddrs_same, toNat_addr (by omega)] at hroom
    have hd := h.data
    have hm : 0 < nmeta := by decide
    have hg := grown_slot (k := k) layout hopen.stored hopen.inum_lt hopen.type_ne hempty
      (free_ready h hopen.stored hroom) hroom
    have hself : update D i (setAddrs sl (BitVec.ofNat 32 s.freeblock) (D i)) i =
        setAddrs sl (BitVec.ofNat 32 s.freeblock) (D i) := update_self _ _ _
    refine ⟨?_,_,update own s.freeblock (.place (i,.inl sl)),hself,?_,
      ready_alloc h hroom,rfl⟩
    · rw [setAddrs_same]
      exact addr_ne_zero (by omega) (by omega)
    · rw [view_alloc h hroom m, hself]
      exact hg
  · cases hslot
    refine ⟨hempty,D,own,rfl,?_,h,rfl⟩
    rw [withCopy_self hopen.copy]
    exact grown_refl hopen.stored hopen.copy

theorem appended_trans {D₁ D₂ : Inodes} {own₁ own₂ : Owners} {s₁ s₂ : Build}
    (h₁ : Appended k i D own s m D₁ own₁ s₁)
    (h₂ : Appended k i D₁ own₁ s₁ (withCopy m k (D₁ i)) D₂ own₂ s₂) :
    Appended k i D own s m D₂ own₂ s₂ where
  grown := by
    have := grown_trans h₁.grown h₂.grown
    rwa [withCopy_withCopy] at this
  ready := h₂.ready
  inodes := h₂.inodes.trans h₁.inodes

theorem appendEntry_spec (h : Ready s) (hopen : Open superblock D own ⟨view s,m⟩ k i)
    (hind : (D i).addrs indirect ≠ 0) {e : ℕ} (he : e < nindirect) {ind : Block}
    (hdata : ind = s.image ((D i).addrs indirect).toNat) (hempty : getAddr ind e = 0)
    (hroom : s.freeblock < fssize) :
    ∃ own', Appended k i D own s m D own' (wsect { s with freeblock := s.freeblock+1 }
      ((D i).addrs indirect).toNat (putAddr ind e (BitVec.ofNat 32 s.freeblock))) := by
  have hown := indirect_owned hopen.stored hopen.inum_lt hind
  have hrange := placed_lt h hopen.stored hown
  have hne := data_ne_bmap hrange.1
  have hview : view s ((D i).addrs indirect).toNat = ind := by
    rw [view_of_ne hne, hdata]
  have hentry : addrOf (view s) (D i) (.inr ⟨e,he⟩) = 0 := by
    simp only [addrOf, if_neg hind, hview, hempty]
    rfl
  have hg := grown_entry layout hopen.stored hopen.inum_lt hopen.copy hind hentry
    (free_ready h hopen.stored hroom) hroom
  have hread : (allocated superblock ⟨view s,m⟩ s.freeblock).blocks
      ((D i).addrs indirect).toNat = ind := by
    have hlt := hrange.2
    simp only [allocated, setBlock, bblock_eq hroom]
    rw [update_of_ne (by omega), update_of_ne hne, hview]
  refine ⟨update own s.freeblock (.place (i,.inr ⟨e,he⟩)),?_,
    ready_wsect (ready_alloc h hroom) (Nat.lt_succ_of_lt hrange.2) _,rfl⟩
  rw [withCopy_self hopen.copy, view_wsect hne, view_alloc h hroom m]
  rw [putEntry, hread] at hg
  exact hg

theorem rsect_some {buf : Block} (h : rsect s b = some buf) :
    b < fssize ∧ buf = s.image b := by
  unfold rsect at h
  split_ifs at h with hb
  cases h
  exact ⟨hb,rfl⟩

theorem appendBlock_spec (h : Ready s) (hopen : Open superblock D own ⟨view s,m⟩ k i) {fbn x : ℕ}
    (hbn : fbn < maxfile) (hblock : appendBlock s (D i) fbn = some (s',din,x))
    (hroom : x < fssize) :
    ∃ D' own', D' i = din ∧ Appended k i D own s m D' own' s' ∧
      addrOf (view s') din (placeOf fbn) = x ∧ x ≠ 0 := by
  have hf : fssize = 2000 := rfl
  unfold appendBlock at hblock
  split_ifs at hblock with hdirect
  · cases hslot : appendSlot s (D i) (direct fbn) with
    | mk s₁ d₁ =>
      rw [hslot] at hblock
      cases hblock
      obtain ⟨hne,D',own',hD,happ⟩ := appendSlot_spec h hopen hslot hroom
      refine ⟨D',own',hD,happ,?_,fun h0 => hne (BitVec.eq_of_toNat_eq h0)⟩
      rw [placeOf, if_pos hdirect]
      rfl
  · have he : fbn-ndirect < nindirect := by
      have : maxfile = ndirect+nindirect := rfl
      omega
    have hplace : placeOf fbn = .inr ⟨fbn-ndirect,he⟩ := by
      rw [placeOf, if_neg hdirect]
      exact congrArg Sum.inr (Fin.ext (Nat.mod_eq_of_lt he))
    cases hslot : appendSlot s (D i) indirect with
    | mk s₁ d₁ =>
      rw [hslot] at hblock
      dsimp only at hblock
      cases hrd : rsect s₁ (d₁.addrs indirect).toNat with
      | none =>
        rw [hrd] at hblock
        cases hblock
      | some ind =>
        obtain ⟨hind,hdata⟩ := rsect_some hrd
        obtain ⟨hne,D₁,own₁,hD,happ⟩ := appendSlot_spec h hopen hslot hind
        have hopen₁ := open_grown hopen happ.grown
        subst hD
        rw [hrd] at hblock
        simp only [Option.bind_eq_bind, Option.bind_some] at hblock
        have hown := indirect_owned hopen₁.stored hopen₁.inum_lt hne
        have hbmap := data_ne_bmap (placed_lt happ.ready hopen₁.stored hown).1
        have hle := happ.ready.room
        have hd := happ.ready.data
        have hm : 0 < nmeta := by decide
        split_ifs at hblock with hempty
        · cases hblock
          rw [getAddr_putAddr_same _ _ he, toNat_addr (by omega)] at hroom ⊢
          obtain ⟨own',happ'⟩ := appendEntry_spec happ.ready hopen₁ hne he hdata hempty hroom
          refine ⟨D₁,own',rfl,appended_trans happ happ',?_,by omega⟩
          rw [hplace, view_wsect hbmap]
          simp only [addrOf, if_neg hne, update_self]
          rw [getAddr_putAddr_same _ _ he, toNat_addr (by omega)]
        · cases hblock
          refine ⟨D₁,own₁,rfl,happ,?_,fun h0 => hempty (BitVec.eq_of_toNat_eq h0)⟩
          rw [hplace]
          simp only [addrOf, if_neg hne]
          rw [view_of_ne hbmap, hdata]

end Append

section Loop
variable {s : Build} {m : Mem} {k : Fin ninode} {i : ℕ} {D : Inodes} {own : Owners}

/-- What appending `n` bytes, those from position `pos` of `p` on, behind byte
`off` of inode `i` has done. -/
structure Extended (k : Fin ninode) (i : ℕ) (p : List UInt8) (pos off n : ℕ) (D : Inodes)
    (own : Owners) (s : Build) (m : Mem) (D' : Inodes) (own' : Owners) (s' : Build) : Prop where
  wrote : WroteTo superblock k i (.kernel p) pos off n n D own ⟨view s,m⟩ D' own'
    ⟨view s',withCopy m k (D' i)⟩
  dense : ∀ o, off ≤ o → o < off+n → addrOf (view s') (D' i) (placeOf (o/bsize)) ≠ 0
  ready : Ready s'
  inodes : s'.freeinode = s.freeinode

variable {x off pos : ℕ} {p : List UInt8}

theorem block_lt (h : Ready s) (hopen : Open superblock D own ⟨view s,m⟩ k i) {pl : Place}
    (haddr : addrOf (view s) (D i) pl = x) (h0 : x ≠ 0) : nmeta ≤ x ∧ x < s.freeblock := by
  have hown := hopen.stored.tracks.owned (i,pl) hopen.inum_lt (by rw [haddr]; exact h0)
  simp only [haddr] at hown
  exact placed_lt h hopen.stored hown

theorem appendBytes_spec (h : Ready s) (hopen : Open superblock D own ⟨view s,m⟩ k i)
    (haddr : addrOf (view s) (D i) (placeOf (off/bsize)) = x) (h0 : x ≠ 0) (bytes : List UInt8)
    (hoff : off < maxfile*bsize) (hlen : off%bsize+bytes.length ≤ bsize) :
    Wrote superblock k i off (off+bytes.length) D own ⟨view s,m⟩ D own
        ⟨view (wsect s x (paste (s.image x) (off%bsize) bytes)),m⟩ ∧
      (off+bytes.length ≤ maxfile*bsize → ∀ j, j < bytes.length →
        byteAt (view (wsect s x (paste (s.image x) (off%bsize) bytes))) (D i) (off+j) =
          bytes.getD j 0) ∧
      Ready (wsect s x (paste (s.image x) (off%bsize) bytes)) := by
  have hrange := block_lt h hopen haddr h0
  have hne := data_ne_bmap hrange.1
  rw [view_wsect hne, ← view_of_ne hne]
  exact ⟨wrote_data layout hopen bytes haddr h0 hoff hlen,
    fun hmax j hj => byteAt_wrote_data hopen bytes haddr h0 hmax hlen hj,
    ready_wsect h hrange.2 _⟩

theorem extended_stop (h : Ready s) (hopen : Open superblock D own ⟨view s,m⟩ k i)
    (hpos : pos = p.length) :
    Extended k i p pos off (p.length-pos) D own s m D own s := by
  have hn : p.length-pos = 0 := by omega
  rw [hn]
  refine ⟨?_,fun o ho hlt => absurd ho (by omega),h,rfl⟩
  rw [withCopy_self hopen.copy]
  exact wroteTo_stop (grown_refl hopen.stored hopen.copy) (fun hlt => absurd hlt (Nat.lt_irrefl 0))

theorem appendLoop_spec {left : ℕ} {off' : ℕ} {s' : Build} {din : Dinode} (h : Ready s)
    (hopen : Open superblock D own ⟨view s,m⟩ k i) (hfuel : p.length ≤ pos+left)
    (hpos : pos ≤ p.length)
    (hloop : appendLoop left s (D i) off (p.drop pos) = some (s',din,off')) :
    off' = off+(p.length-pos) ∧ off' ≤ max off (maxfile*bsize) ∧
      ∃ D' own', D' i = din ∧
        Extended k i p pos off (p.length-pos) D own s m D' own' s' := by
  induction left generalizing pos off s m D own with
  | zero =>
    cases hloop
    have heq : pos = p.length := by omega
    exact ⟨by omega,by omega,D,own,rfl,extended_stop h hopen heq⟩
  | succ left ih =>
    rw [appendLoop] at hloop
    split_ifs at hloop with hnil hmax
    · cases hloop
      have heq : pos = p.length := by
        have := List.drop_eq_nil_iff.mp hnil
        omega
      exact ⟨by omega,by omega,D,own,rfl,extended_stop h hopen heq⟩
    · obtain ⟨⟨s₁,d₁,x⟩,hblock,hloop⟩ := Option.bind_eq_some_iff.mp hloop
      obtain ⟨buf,hrd,hloop⟩ := Option.bind_eq_some_iff.mp hloop
      obtain ⟨hroom,hbuf⟩ := rsect_some hrd
      have hbn : off/bsize < maxfile := by omega
      obtain ⟨D₁,own₁,hD,happ,haddr,h0⟩ := appendBlock_spec h hopen hbn hblock hroom
      subst hD
      have hopen₁ := open_grown hopen happ.grown
      have hb : bsize = 1024 := rfl
      have hpos' : pos < p.length := by
        by_contra hge
        exact hnil (List.drop_eq_nil_iff.mpr (by omega))
      have hmod : off-off/bsize*bsize = off%bsize := by
        have := Nat.div_add_mod' off bsize
        omega
      obtain ⟨n,hn⟩ : ∃ n, n = min (p.drop pos).length ((off/bsize+1)*bsize-off) := ⟨_,rfl⟩
      rw [hmod, ← hn, List.drop_drop] at hloop
      rw [List.length_drop] at hn
      have hlen : ((p.drop pos).take n).length = n := by
        rw [List.length_take, List.length_drop]
        omega
      have hin : off%bsize+n ≤ bsize ∧ off+n ≤ maxfile*bsize ∧ 0 < n := by
        have hmb : maxfile = 268 := rfl
        simp only [hb, hmb] at hn hbn ⊢
        omega
      obtain ⟨hwrote,hread,hready⟩ := appendBytes_spec happ.ready hopen₁ haddr h0
        ((p.drop pos).take n) (by omega) (by omega)
      rw [← hbuf, hlen] at hwrote hread
      rw [← hbuf] at hready
      obtain ⟨hoff,hmax',D',own',hD,hext⟩ := ih hready (open_wrote hopen₁ hwrote) (by omega)
        (by omega) hloop
      have hend : n = p.length-pos ∨ (off+n)%bsize = 0 := by
        simp only [hb] at hn ⊢
        omega
      have hrest := hext.wrote
      rw [withCopy_withCopy, show p.length-(pos+n) = p.length-pos-n by omega] at hrest
      have hfilled : Dense (view (wsect s₁ x (paste buf (off%bsize) ((p.drop pos).take n))))
          (D₁ i) off n := by
        intro o hlo hhi
        have hblk : o/bsize = off/bsize := by
          simp only [hb] at hin hlo hhi ⊢
          omega
        have h₁ := hwrote.keep i hopen.inum_lt (placeOf (off/bsize)) (by rw [haddr]; exact h0)
        rw [hblk, h₁, haddr]
        exact h0
      have hto := wroteTo_step happ.grown hwrote rfl (by omega) (by omega) hend
        (hread (by omega)) (fun l hl => by cases hl; rfl) hopen.inum_lt hfilled hrest
      rw [show n+(p.length-pos-n) = p.length-pos by omega] at hto
      exact ⟨by omega,by omega,D',own',hD,hto,hto.filled,hext.ready,
        hext.inodes.trans happ.inodes⟩

end Loop

section Built
variable {s s' : Build} {D : Inodes} {own : Owners} {C : ℕ → List UInt8} {i : ℕ}

structure Built (s : Build) (D : Inodes) (own : Owners) (C : ℕ → List UInt8) : Prop where
  ready : Ready s
  stored : Stored superblock D own (view s)
  disk : ∀ i, i < ninodes → diskInode superblock (view s) i = D i
  clean : ∀ b, own b ≠ .held ∧ own b ≠ .lost
  size : ∀ i, i < ninodes → (D i).size.toNat = (C i).length
  bytes : ∀ i, i < ninodes → ∀ o, o < maxfile*bsize → byteAt (view s) (D i) o = (C i).getD o 0
  dense : ∀ i, i < ninodes → ∀ o, o < (C i).length → addrOf (view s) (D i) (placeOf (o/bsize)) ≠ 0

theorem iblock_fits (hi : i < ninodes) : iblock superblock i < superblock.bmapstart :=
  iblock_lt layout hi

theorem rinode_eq (hi : i < ninodes) : rinode s i = some (diskInode superblock (view s) i) := by
  have hlt := iblock_fits hi
  have hb : superblock.bmapstart < fssize := by decide
  rw [rinode, rsect, if_pos (by omega), diskInode, view_of_ne (by omega)]
  rfl

theorem winode_spec {d : Dinode} (hi : i < ninodes) (h : Ready s) (hw : winode s i d = some s') :
    (∀ m, view s' = (inodeWritten superblock ⟨view s,m⟩ i d).blocks) ∧ Ready s' ∧
      s'.freeinode = s.freeinode := by
  have hlt := iblock_fits hi
  have hb : superblock.bmapstart < nmeta := by decide
  have hd := h.data
  obtain ⟨buf,hrd,heq⟩ := Option.bind_eq_some_iff.mp hw
  cases heq
  obtain ⟨-,rfl⟩ := rsect_some hrd
  have hview : view s (iblock superblock i) = s.image (iblock superblock i) :=
    view_of_ne (by omega)
  refine ⟨fun m => ?_,ready_wsect h (by omega) _,rfl⟩
  rw [view_wsect (by omega), ← hview]
  rfl

variable {p : List UInt8}

theorem built_wrote {k : Fin ninode} {m m' : Mem} {D' : Inodes} {own' : Owners}
    (h : Built s D own C) (hi : i < ninodes)
    (hw : Wrote superblock k i (C i).length ((C i).length+p.length) D own ⟨view s,
      m⟩ D' own' ⟨view s',m'⟩)
    (hready : Ready s') (hsync : diskInode superblock (view s') i = D' i)
    (hsize : (D' i).size.toNat = (C i).length+p.length)
    (hread : ∀ j, j < p.length → byteAt (view s') (D' i) ((C i).length+j) = p.getD j 0)
    (hdense : ∀ o, (C i).length ≤ o → o < (C i).length+p.length →
      addrOf (view s') (D' i) (placeOf (o/bsize)) ≠ 0) :
    Built s' D' own' (update C i (C i ++ p)) where
  ready := hready
  stored := hw.stored
  disk := fun j hj => by
    by_cases hji : j = i
    · rw [hji, hsync]
    · rw [hw.other j hji, ← h.disk j hj]
      exact hw.disk j hj hji
  clean := fun b => ⟨fun hb => (h.clean b).1 (hw.held b hb),fun hb => (h.clean b).2 (hw.lost b hb)⟩
  size := fun j hj => by
    by_cases hji : j = i
    · rw [hji, update_self, List.length_append, hsize]
    · rw [update_of_ne hji, hw.other j hji, h.size j hj]
  bytes := fun j hj o ho => by
    by_cases hji : j = i
    · rw [hji, update_self]
      rcases lt_or_ge o (C i).length with hlt | hge
      · rw [List.getD_append _ _ _ _ hlt, ← h.bytes i hi o ho]
        exact hw.bytes o ho (.inl hlt)
      · rw [List.getD_append_right _ _ _ _ hge]
        by_cases hin : o < (C i).length+p.length
        · have := hread (o-(C i).length) (by omega)
          rwa [Nat.add_sub_cancel' hge] at this
        · have hold := h.bytes i hi o ho
          rw [List.getD_eq_default _ _ hge] at hold
          rw [List.getD_eq_default _ _ (by omega), ← hold]
          exact hw.bytes o ho (.inr (by omega))
    · rw [update_of_ne hji, hw.other j hji, ← h.bytes j hj o ho]
      exact hw.frame j hj hji _ (sub_refl _) o
  dense := fun j hj o ho => by
    have hold : o < (C j).length → addrOf (view s') (D' j) (placeOf (o/bsize)) ≠ 0 := by
      intro hlt
      have h0 := h.dense j hj o hlt
      rw [hw.keep j hj _ h0]
      exact h0
    by_cases hji : j = i
    · subst hji
      rw [update_self, List.length_append] at ho
      rcases lt_or_ge o (C j).length with hlt | hge
      · exact hold hlt
      · exact hdense o hge ho
    · rw [update_of_ne hji] at ho
      exact hold ho

theorem iappend_spec (h : Built s D own C) (hi : i < ninodes) (htype : (D i).type ≠ 0)
    (hp : iappend s i p = some s') :
    (C i).length+p.length ≤ maxfile*bsize ∧ s'.freeinode = s.freeinode ∧
      ∃ D' own', Built s' D' own' (update C i (C i ++ p)) ∧
        (∀ j, j ≠ i → D' j = D j) ∧
        D' i = { D i with size := (D' i).size, addrs := (D' i).addrs } := by
  have hmb : maxfile*bsize < 2^32 := by decide
  have hsize := h.size i hi
  have hsize_le := h.stored.size_le i hi
  have hopen : Open superblock D own ⟨view s,withCopy bootMem 0 (D i)⟩ 0 i :=
    ⟨h.stored,hi,htype,withCopy_copy _ _ _⟩
  rw [iappend, rinode_eq hi, h.disk i hi, Option.bind_eq_bind, Option.bind_some] at hp
  obtain ⟨⟨s₁,din,off⟩,hloop,hw⟩ := Option.bind_eq_some_iff.mp hp
  have hloop : appendLoop p.length s (D i) (D i).size.toNat (p.drop 0) = some (s₁,din,off) := hloop
  obtain ⟨hoff,hmax,D₁,own₁,hD,hext⟩ := appendLoop_spec h.ready hopen (by omega)
    (Nat.zero_le _) hloop
  subst hD
  rw [Nat.sub_zero] at hoff hext
  obtain ⟨hwr,hread⟩ := hext.wrote.kernel p rfl
  obtain ⟨d,hd⟩ : ∃ d, d = { D₁ i with size := BitVec.ofNat 32 off } := ⟨_,rfl⟩
  dsimp only at hw
  rw [← hd] at hw
  obtain ⟨hblocks,hready,hfree⟩ := winode_spec hi hext.ready hw
  have hdsize : d.size.toNat = (C i).length+p.length := by
    rw [hd]
    exact (toNat_addr (by omega)).trans (by omega)
  have hfields : d = { D i with size := d.size, addrs := d.addrs } := by
    rw [hd, hwr.fields]
  have hsave := wrote_save layout hi hwr (d := d) (by rw [hd]) hfields htype (by omega)
  have hstate : ∀ m, inodeSaved superblock ⟨view s₁,m⟩ 0 i d = ⟨view s',withCopy m 0 d⟩ := by
    intro m
    rw [hblocks (withCopy m 0 d)]
    rfl
  have hst := stored_fields hext.wrote.wrote.stored (d := d) (i := i) (by rw [hd])
    (.inl (by rw [hfields]; exact htype)) (by omega)
  have hbyte : ∀ o, byteAt (view s') d o = byteAt (view s₁) (D₁ i) o := by
    intro o
    rw [hblocks bootMem]
    refine (inodeWritten_byteAt layout hst hi hi (by rw [update_self]; exact sub_refl _)
      o).trans (byteAt_congr (by rw [hd]) o)
  have haddr : ∀ pl, addrOf (view s') d pl = addrOf (view s₁) (D₁ i) pl := by
    intro pl
    rw [hblocks bootMem]
    refine (inodeWritten_addrOf layout hst hi hi (by rw [update_self]; exact sub_refl _)
      pl).trans (addrOf_congr (by rw [hd]) pl)
  rw [hstate, hsize] at hsave
  refine ⟨by omega,hfree.trans hext.inodes,update D₁ i d,own₁,
    built_wrote h hi hsave hready ?_ ?_ ?_ ?_,hsave.other,hsave.fields⟩
  · rw [update_self, hblocks bootMem]
    exact (inodeWritten_disk i i d).trans (if_pos rfl)
  · rw [update_self]
    exact hdsize
  · intro j hj
    have := hread j hj
    rw [Nat.zero_add, hsize] at this
    rw [update_self, hbyte]
    exact this
  · intro o ho hlt
    rw [update_self, haddr]
    exact hext.dense o (by omega) (by omega)

theorem ialloc_spec {type : BitVec 16} {inum : ℕ} (h : Built s D own C)
    (hlt : s.freeinode < ninodes) (hzero : D s.freeinode = zeroDinode) (htype : type ≠ 0)
    (halloc : ialloc s type = some (inum,s')) :
    inum = s.freeinode ∧ s'.freeinode = s.freeinode+1 ∧
      Built s' (update D inum { zeroDinode with type := type, nlink := 1 }) own C := by
  obtain ⟨s₁,hw,heq⟩ := Option.bind_eq_some_iff.mp halloc
  cases heq
  obtain ⟨d,hd⟩ : ∃ d : Dinode, d = { zeroDinode with type := type, nlink := 1 } := ⟨_,rfl⟩
  rw [← hd] at hw ⊢
  have hready : Ready { s with freeinode := s.freeinode+1 } :=
    ⟨h.ready.data,h.ready.room,h.ready.zeros⟩
  obtain ⟨hblocks,hready',hfree⟩ := winode_spec hlt hready hw
  have hview : view s' = (inodeWritten superblock ⟨view s,bootMem⟩ s.freeinode d).blocks :=
    hblocks bootMem
  have haddrs : d.addrs = (D s.freeinode).addrs := by rw [hd, hzero]
  have hsize : d.size = (D s.freeinode).size := by rw [hd, hzero]
  have hbyte : ∀ i, i < ninodes → ∀ o, byteAt (view s') (update D s.freeinode d i) o =
      byteAt (view s) (D i) o := by
    intro i hi o
    have hframe : byteAt (view s') (D i) o = byteAt (view s) (D i) o := by
      rw [hview]
      exact inodeWritten_byteAt layout h.stored hlt hi (sub_refl _) o
    rw [← hframe]
    by_cases heq : i = s.freeinode
    · rw [heq, update_self, byteAt_congr haddrs]
    · rw [update_of_ne heq]
  have haddr : ∀ i, i < ninodes → ∀ pl, addrOf (view s') (update D s.freeinode d i) pl =
      addrOf (view s) (D i) pl := by
    intro i hi pl
    have hframe : addrOf (view s') (D i) pl = addrOf (view s) (D i) pl := by
      rw [hview]
      exact inodeWritten_addrOf layout h.stored hlt hi (sub_refl _) pl
    rw [← hframe]
    by_cases heq : i = s.freeinode
    · rw [heq, update_self, addrOf_congr haddrs]
    · rw [update_of_ne heq]
  refine ⟨rfl,hfree,hready',?_,fun i hi => ?_,h.clean,fun i hi => ?_,fun i hi o ho => ?_,
    fun i hi o ho => ?_⟩
  · rw [hview]
    apply stored_fields (stored_inodeWritten layout h.stored hlt d) haddrs
    · rw [hd]
      exact .inl htype
    · rw [hsize]
      exact h.stored.size_le _ hlt
  · rw [hview, inodeWritten_disk]
    by_cases heq : i = s.freeinode
    · rw [if_pos heq, heq, update_self]
    · rw [if_neg heq, update_of_ne heq]
      exact h.disk i hi
  · rw [← h.size i hi]
    by_cases heq : i = s.freeinode
    · rw [heq, update_self, hsize]
    · rw [update_of_ne heq]
  · rw [hbyte i hi]
    exact h.bytes i hi o ho
  · rw [haddr i hi]
    exact h.dense i hi o ho

end Built

end GreenOS.MkfsImage
