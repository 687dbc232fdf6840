import GreenOS.FsOwned

/-!
# Allocating and freeing blocks

What `balloc` and `bfree` do to the blocks and to the record of owners. A block
that no inode refers to can be written, allocated or freed without any inode
or its content changing.
-/

namespace GreenOS.FsBlocks
open Programs ProgramTraces ByteBlock LogCode DiskLayout
open BufferSeq (Env)
open FsCode FsDirect Ownership FsOwned
open Function (update update_self update_of_ne)

section Stored
variable {sb : Superblock} {D : Inodes} {own : Owners} {blocks : Blocks}

variable {b i : ℕ} {d : Dinode}

theorem placed_range (h : Stored sb D own blocks) {x : ℕ × Place}
    (hb : own b = .place x) : dataStart sb ≤ b ∧ b < sb.size := by
  constructor
  · by_contra hlt
    have := (h.reserved b).mp (by omega)
    rw [hb] at this
    cases this
  · exact h.below b (by rw [hb]; nofun)

theorem reserved_unplaced (h : Stored sb D own blocks) (hb : b < dataStart sb) :
    Unplaced (own b) := by
  intro i
  rw [(h.reserved b).mp hb]
  nofun

theorem free_unplaced (hb : own b = .free) : Unplaced (own b) := by
  intro i
  rw [hb]
  nofun

theorem held_unplaced (hb : own b = .held) : Unplaced (own b) := by
  intro i
  rw [hb]
  nofun

theorem owned_of_sub (h : Stored sb D own blocks) (hi : i < sb.ninodes) (hd : Sub d (D i))
    {pl : Place} (h0 : addrOf blocks d pl ≠ 0) :
    own (addrOf blocks d pl) = .place (i,pl) := by
  have heq := addrOf_sub hd pl h0
  rw [heq] at h0 ⊢
  exact h.tracks.owned (i,pl) hi h0

theorem indirect_of_sub (h : Stored sb D own blocks) (hi : i < sb.ninodes) (hd : Sub d (D i))
    (h0 : d.addrs indirect ≠ 0) :
    own (d.addrs indirect).toNat = .place (i,.inl indirect) := by
  have hne : addrOf blocks d (.inl indirect) ≠ 0 := fun hz => h0 (BitVec.eq_of_toNat_eq hz)
  exact owned_of_sub h hi hd hne

theorem ne_of_unplaced (h : Stored sb D own blocks) (hi : i < sb.ninodes) (hd : Sub d (D i))
    (hb : Unplaced (own b)) (pl : Place) (h0 : addrOf blocks d pl ≠ 0) :
    addrOf blocks d pl ≠ b := by
  intro heq
  exact hb (i,pl) (heq ▸ owned_of_sub h hi hd h0)

theorem indirect_ne_of_unplaced (h : Stored sb D own blocks) (hi : i < sb.ninodes)
    (hd : Sub d (D i)) (hb : Unplaced (own b)) (h0 : d.addrs indirect ≠ 0) :
    (d.addrs indirect).toNat ≠ b :=
  ne_of_unplaced h hi hd hb (.inl indirect) (fun hz => h0 (BitVec.eq_of_toNat_eq hz))

theorem addrOf_unplaced (h : Stored sb D own blocks) (hi : i < sb.ninodes) (hd : Sub d (D i))
    (hb : Unplaced (own b)) (data : Block) (pl : Place) :
    addrOf (update blocks b data) d pl = addrOf blocks d pl :=
  addrOf_update (indirect_ne_of_unplaced h hi hd hb) pl

theorem byteAt_unplaced (h : Stored sb D own blocks) (hi : i < sb.ninodes) (hd : Sub d (D i))
    (hb : Unplaced (own b)) (data : Block) (o : ℕ) :
    byteAt (update blocks b data) d o = byteAt blocks d o :=
  byteAt_update (ne_of_unplaced h hi hd hb) o

theorem tracks_unplaced (h : Stored sb D own blocks) (hb : Unplaced (own b))
    (data : Block) : Tracks (fun x : ℕ × Place => x.1 < sb.ninodes) 0
      (fun x => addrOf (update blocks b data) (D x.1) x.2) own :=
  tracks_congr h.tracks (fun x hx => addrOf_unplaced h hx (sub_refl _) hb data x.2)

theorem stored_write_unplaced (h : Stored sb D own blocks) (hb : Unplaced (own b))
    (hdata : dataStart sb ≤ b) (data : Block) :
    Stored sb D own (update blocks b data) := by
  have hbits : ∀ b', b' < sb.size → bblock sb b' ≠ b := by
    intro b' hb'
    have := bblock_lt hb'
    omega
  exact ⟨tracks_unplaced h hb data,h.reserved,h.below,
    fun b' hb' => by rw [bitOf_update_of_ne (hbits b' hb')]; exact h.bits b' hb',
    h.empty,h.size_le⟩

theorem stored_relabel (h : Stored sb D own blocks) {o : Owner (ℕ × Place)} {data : Block}
    (hb : Unplaced (own b)) (hr : own b ≠ .reserved) (ho : Unplaced o) (hor : o ≠ .reserved)
    (hsize : b < sb.size) (hself : bitOf sb (update blocks (bblock sb b) data) b = true ↔ o ≠ .free)
    (hother : ∀ b', b' ≠ b → bitOf sb (update blocks (bblock sb b) data) b' = bitOf sb blocks b') :
    Stored sb D (update own b o) (update blocks (bblock sb b) data) := by
  have hmeta := reserved_unplaced h (bblock_lt hsize)
  constructor
  · exact tracks_relabel (tracks_unplaced h hmeta data) hb ho
  · intro b'
    rw [h.reserved b']
    by_cases heq : b' = b
    · rw [heq, update_self]
      exact ⟨fun h => absurd h hr,fun h => absurd h hor⟩
    · rw [update_of_ne heq]
  · intro b' hb'
    by_cases heq : b' = b
    · exact heq ▸ hsize
    · rw [update_of_ne heq] at hb'
      exact h.below b' hb'
  · intro b' hb'
    by_cases heq : b' = b
    · rw [heq, hself, update_self]
    · rw [hother b' heq, update_of_ne heq]
      exact h.bits b' hb'
  · exact h.empty
  · exact h.size_le

theorem stored_setBit (h : Stored sb D own blocks) (hb : own b = .free)
    (hsize : b < sb.size) : Stored sb D (update own b .held)
      (update blocks (bblock sb b) (setBit (blocks (bblock sb b)) (b%bpb))) := by
  apply stored_relabel h (o := .held) (free_unplaced hb) (by rw [hb]; nofun) nofun nofun hsize
  · simp [bitOf_setBit]
  · intro b' hne
    simp [bitOf_setBit, Ne.symm hne]

end Stored

def allocated (sb : Superblock) (s : Fs) (a : ℕ) : Fs :=
  setBlock (setBlock s (bblock sb a) (setBit (s.blocks (bblock sb a)) (a%bpb))) a zeros

def freed (sb : Superblock) (s : Fs) (b : ℕ) : Fs :=
  setBlock s (bblock sb b) (clearBit (s.blocks (bblock sb b)) (b%bpb))

section Specs
variable {sb : Superblock} {env : Env} {E : String → Prop} {s : Fs}

variable {data : Block} {b left bi bj : ℕ}

theorem freeBit_some (h : freeBit sb data b left bi = some bj) :
    bj < bi+left ∧ b+bj < sb.size ∧ testBit data bj = false := by
  induction left generalizing bi with
  | zero => cases h
  | succ left ih =>
    rw [freeBit] at h
    split_ifs at h with hsize hbit
    · cases h
      exact ⟨by omega,hsize,hbit⟩
    · have := ih h
      exact ⟨by omega,this.2⟩

theorem freeBit_none (h : freeBit sb data b left bi = none) (hlo : bi ≤ bj) (hhi : bj < bi+left)
    (hsize : b+bj < sb.size) : testBit data bj = true := by
  induction left generalizing bi with
  | zero => omega
  | succ left ih =>
    rw [freeBit, if_pos (by omega)] at h
    split_ifs at h with hbit
    by_cases heq : bj = bi
    · rw [heq]
      exact Bool.eq_true_of_not_eq_false hbit
    · exact ih h (by omega) (by omega)

/-- `balloc` finds the bitmap full, or takes a block whose bit is clear and logs
that block and the one with its bit. -/
theorem wpt_balloc {Q : ℕ → Fs → List ℕ → Prop} (hfull : Full sb s.blocks → Q 0 s [])
    (hfound : ∀ a, a < sb.size → bitOf sb s.blocks a = false →
      Q a (allocated sb s a) [bblock sb a,a]) :
    wpt (handle env) logged E (balloc sb) Q s := by
  have hbpb : bpb = 8192 := rfl
  -- every bit below `b` was looked at and found set
  have hloop : ∀ n b, b%bpb = 0 → (∀ x, x < b → x < sb.size → bitOf sb s.blocks x = true) →
      sb.size ≤ b+n*bpb → wpt (handle env) logged E (ballocFrom sb n b) Q s := by
    intro n
    induction n with
    | zero =>
      intro b _ hset hsize
      rw [ballocFrom]
      exact wpt_pure.mpr (hfull (fun x hx => hset x (by omega) hx))
    | succ n ih =>
      intro b hb hset hsize
      rw [ballocFrom, wpt_silent_bind (silent_bread _), wp_bread]
      cases hbit : freeBit sb (s.blocks (bblock sb b)) b bpb 0 with
      | none =>
        rw [wpt_silent_bind (silent_brelse _), wp_brelse]
        refine ih (b+bpb) (by rw [Nat.add_mod_right, hb]) (fun x hx hlt => ?_)
          (by rw [Nat.succ_mul] at hsize; omega)
        by_cases hxb : x < b
        · exact hset x hxb hlt
        · have hblk : bblock sb x = bblock sb b := by
            simp only [bblock, hbpb] at hb hx ⊢
            omega
          have hmod : x%bpb = x-b := by
            simp only [hbpb] at hb hx ⊢
            omega
          rw [bitOf, hblk, hmod]
          exact freeBit_none hbit (Nat.zero_le _) (by omega) (by omega)
      | some bi =>
        have hbi := freeBit_some hbit
        have hblk : bblock sb (b+bi) = bblock sb b := by
          simp only [bblock, hbpb] at hb hbi ⊢
          omega
        have hmod : (b+bi)%bpb = bi := by
          simp only [hbpb] at hb hbi ⊢
          omega
        have hclear : bitOf sb s.blocks (b+bi) = false := by
          rw [bitOf, hblk, hmod]
          exact hbi.2.2
        have hQ := hfound (b+bi) hbi.2.1 hclear
        rw [allocated, hblk, hmod] at hQ
        simp only [wpt_bind, wpt_silent (silent_setData _ _), wp_setData, wpt_logWrite,
          wpt_silent (silent_brelse _), wp_brelse, bzero, wpt_silent (silent_bread _), wp_bread,
          wpt_pure]
        exact hQ
  refine hloop _ 0 (Nat.zero_mod _) (fun x hx => absurd hx (Nat.not_lt_zero x)) ?_
  simp only [hbpb]
  omega

theorem wpt_bfree {Q : Unit → Fs → List ℕ → Prop} (hset : bitOf sb s.blocks b = true)
    (hQ : Q () (freed sb s b) [bblock sb b]) : wpt (handle env) logged E (bfree sb b) Q s := by
  rw [bfree, wpt_silent_bind (silent_bread _), wp_bread]
  rw [bitOf] at hset
  rw [if_neg (by rw [hset]; decide), wpt_silent_bind (silent_setData _ _), wp_setData, wpt_bind,
    wpt_logWrite, wpt_silent (silent_brelse _), wp_brelse]
  exact hQ

end Specs

section Allocated
variable {sb : Superblock} {D : Inodes} {own : Owners} {s : Fs}

variable {a i : ℕ} {d : Dinode}

theorem free_of_bit (h : Stored sb D own s.blocks) (ha : a < sb.size)
    (hbit : bitOf sb s.blocks a = false) : own a = .free := by
  by_contra hne
  rw [(h.bits a ha).mpr hne] at hbit
  cases hbit

theorem free_data (h : Stored sb D own s.blocks) (ha : own a = .free) :
    dataStart sb ≤ a := by
  by_contra hlt
  have := (h.reserved a).mp (by omega)
  rw [ha] at this
  cases this

theorem stored_allocated (h : Stored sb D own s.blocks) (ha : own a = .free) (hsize : a < sb.size) :
    Stored sb D (update own a .held) (allocated sb s a).blocks := by
  have hset := stored_setBit h ha hsize
  exact stored_write_unplaced hset (held_unplaced (update_self a _ own))
    (free_data h ha) zeros

theorem allocated_addrOf (h : Stored sb D own s.blocks) (ha : own a = .free) (hsize : a < sb.size)
    (hi : i < sb.ninodes) (hd : Sub d (D i))
    (pl : Place) : addrOf (allocated sb s a).blocks d pl = addrOf s.blocks d pl := by
  have hset := stored_setBit h ha hsize
  have hheld := held_unplaced (update_self a Owner.held own)
  have hmeta := reserved_unplaced h (bblock_lt hsize)
  exact (addrOf_unplaced hset hi hd hheld zeros pl).trans (addrOf_unplaced h hi hd hmeta _ pl)

theorem allocated_byteAt (h : Stored sb D own s.blocks) (ha : own a = .free) (hsize : a < sb.size)
    (hi : i < sb.ninodes) (hd : Sub d (D i))
    (o : ℕ) : byteAt (allocated sb s a).blocks d o = byteAt s.blocks d o := by
  have hset := stored_setBit h ha hsize
  have hheld := held_unplaced (update_self a Owner.held own)
  have hmeta := reserved_unplaced h (bblock_lt hsize)
  exact (byteAt_unplaced hset hi hd hheld zeros o).trans (byteAt_unplaced h hi hd hmeta _ o)

theorem allocated_diskInode (hsb : Layout sb) (h : Stored sb D own s.blocks) (ha : own a = .free)
    (hi : i < sb.ninodes) :
    diskInode sb (allocated sb s a).blocks i = diskInode sb s.blocks i := by
  have hdata := free_data h ha
  have hib := iblock_lt_data hsb hi
  have hne : iblock sb i ≠ a := by omega
  exact (diskInode_update_of_ne hne).trans (diskInode_update_of_ne (iblock_ne_bblock hsb hi))

theorem allocated_self (s : Fs) (a : ℕ) : (allocated sb s a).blocks a = zeros :=
  update_self a _ _

end Allocated

end GreenOS.FsBlocks
