import GreenOS.FsDirect
import GreenOS.FsCode
import GreenOS.Ownership

/-!
# Which inode owns which block

The blocks of a file system seen through its inodes: the address in each place
of an inode, the bytes of its content, the inodes on disk and the bitmap.
`Stored` ties them together. An inode map `D` gives each inode as the kernel
uses it, from memory or from disk, and `own` records the owner of each block.
-/

namespace GreenOS.FsOwned
open ByteBlock LogCode DiskLayout
open FsCode Ownership
open Function (update update_self update_of_ne)

instance : NeZero nindirect := ⟨by decide⟩

abbrev Blocks := ℕ → Block

abbrev Place := Fin (ndirect+1) ⊕ Fin nindirect

abbrev Inodes := ℕ → Dinode

abbrev Owners := ℕ → Owner (ℕ × Place)

def dataStart (sb : Superblock) : ℕ := sb.bmapstart+(sb.size/bpb+1)

structure Layout (sb : Superblock) : Prop where
  inodes : sb.inodestart+(sb.ninodes/ipb+1) ≤ sb.bmapstart
  data : dataStart sb ≤ sb.size
  size : sb.size < 2^31
  ninodes : sb.ninodes ≤ 2^16

theorem addr_lt {sb : Superblock} (h : Layout sb) {b : ℕ} (hb : b < sb.size) : b < 2^32 :=
  lt_trans (lt_trans hb h.size) (by decide)

def diskInode (sb : Superblock) (blocks : Blocks) (i : ℕ) : Dinode :=
  getDinode (blocks (iblock sb i)) (i%ipb)

def bitOf (sb : Superblock) (blocks : Blocks) (b : ℕ) : Bool :=
  testBit (blocks (bblock sb b)) (b%bpb)

def Full (sb : Superblock) (blocks : Blocks) : Prop :=
  ∀ b, b < sb.size → bitOf sb blocks b = true

def addrOf (blocks : Blocks) (d : Dinode) : Place → ℕ
  | .inl k => (d.addrs k).toNat
  | .inr j => if d.addrs indirect = 0 then 0
    else (getAddr (blocks (d.addrs indirect).toNat) j.val).toNat

def Refers (blocks : Blocks) (d : Dinode) (b : ℕ) : Prop := b ≠ 0 ∧ ∃ pl, addrOf blocks d pl = b

def placeOf (bn : ℕ) : Place :=
  if bn < ndirect then .inl (direct bn) else .inr (Fin.ofNat nindirect (bn-ndirect))

/-- Byte `o` of the content of an inode; a block not yet allocated reads as
zeros. -/
def byteAt (blocks : Blocks) (d : Dinode) (o : ℕ) : UInt8 :=
  if addrOf blocks d (placeOf (o/bsize)) = 0 then 0
  else get (blocks (addrOf blocks d (placeOf (o/bsize)))) (o%bsize)

def Sub (d e : Dinode) : Prop := ∀ k, d.addrs k = 0 ∨ d.addrs k = e.addrs k

theorem sub_refl (d : Dinode) : Sub d d := fun _ => .inr rfl

theorem sub_trans {d e f : Dinode} (hde : Sub d e) (hef : Sub e f) : Sub d f := by
  intro k
  cases hde k with
  | inl h => exact .inl h
  | inr h =>
    cases hef k with
    | inl h' => exact .inl (h.trans h')
    | inr h' => exact .inr (h.trans h')

structure Stored (sb : Superblock) (D : Inodes) (own : Owners) (blocks : Blocks) : Prop where
  tracks : Tracks (fun x : ℕ × Place => x.1 < sb.ninodes) 0
    (fun x => addrOf blocks (D x.1) x.2) own
  reserved : ∀ b, b < dataStart sb ↔ own b = .reserved
  below : ∀ b, own b ≠ .free → b < sb.size
  bits : ∀ b, b < sb.size → (bitOf sb blocks b = true ↔ own b ≠ .free)
  empty : ∀ i, i < sb.ninodes → (D i).type = 0 → ∀ k, (D i).addrs k = 0
  size_le : ∀ i, i < sb.ninodes → (D i).size.toNat ≤ maxfile*bsize

section Layout
variable {sb : Superblock} (hsb : Layout sb)
include hsb

variable {i b : ℕ}

theorem iblock_lt (hi : i < sb.ninodes) : iblock sb i < sb.bmapstart := by
  have h := hsb.inodes
  have hipb : ipb = 16 := rfl
  rw [hipb] at h
  simp only [iblock, hipb]
  omega

theorem iblock_lt_data (hi : i < sb.ninodes) : iblock sb i < dataStart sb :=
  lt_of_lt_of_le (iblock_lt hsb hi) (Nat.le_add_right _ _)

omit hsb in
theorem bblock_lt (hb : b < sb.size) : bblock sb b < dataStart sb := by
  have hbpb : bpb = 8192 := rfl
  simp only [bblock, dataStart, hbpb]
  omega

theorem iblock_ne_bblock (hi : i < sb.ninodes) : iblock sb i ≠ bblock sb b := by
  have h := iblock_lt hsb hi
  have : sb.bmapstart ≤ bblock sb b := Nat.le_add_left _ _
  omega

end Layout

theorem ipb_mod_lt (i : ℕ) : i%ipb < ipb := Nat.mod_lt _ (by decide)

theorem bpb_mod_lt (b : ℕ) : b%bpb < bpb := Nat.mod_lt _ (by decide)

section Frames
variable {sb : Superblock} {blocks : Blocks}

variable {b b' : ℕ} {data : Block} {d : Dinode}

theorem diskInode_update_of_ne {i : ℕ} (h : iblock sb i ≠ b) :
    diskInode sb (update blocks b data) i = diskInode sb blocks i := by
  rw [diskInode, update_of_ne h, diskInode]

theorem bitOf_update_of_ne (h : bblock sb b' ≠ b) :
    bitOf sb (update blocks b data) b' = bitOf sb blocks b' := by
  rw [bitOf, update_of_ne h, bitOf]

theorem bit_place_inj (hblk : bblock sb b = bblock sb b') (hbit : b%bpb = b'%bpb) :
    b = b' := by
  have hbpb : bpb = 8192 := rfl
  simp only [bblock, hbpb] at hblk hbit
  omega

theorem bitOf_setBit (b b' : ℕ) :
    bitOf sb (update blocks (bblock sb b) (setBit (blocks (bblock sb b)) (b%bpb))) b' =
      (decide (b = b') || bitOf sb blocks b') := by
  by_cases hblk : bblock sb b' = bblock sb b
  · rw [bitOf, hblk, update_self, testBit_setBit _ _ (bpb_mod_lt b), bitOf, hblk]
    congr 1
    exact decide_eq_decide.mpr ⟨fun h => bit_place_inj hblk.symm h,fun h => by rw [h]⟩
  · rw [bitOf_update_of_ne hblk]
    have : b ≠ b' := fun h => hblk (by rw [h])
    simp [this]

theorem bitOf_clearBit (b b' : ℕ) :
    bitOf sb (update blocks (bblock sb b) (clearBit (blocks (bblock sb b)) (b%bpb))) b' =
      (!decide (b = b') && bitOf sb blocks b') := by
  by_cases hblk : bblock sb b' = bblock sb b
  · rw [bitOf, hblk, update_self, testBit_clearBit _ _ (bpb_mod_lt b), bitOf, hblk]
    congr 2
    exact decide_eq_decide.mpr ⟨fun h => bit_place_inj hblk.symm h,fun h => by rw [h]⟩
  · rw [bitOf_update_of_ne hblk]
    have : b ≠ b' := fun h => hblk (by rw [h])
    simp [this]

theorem diskInode_putDinode (i i' : ℕ) (d : Dinode) :
    diskInode sb (update blocks (iblock sb i)
      (putDinode (blocks (iblock sb i)) (i%ipb) d)) i' =
      if i' = i then d else diskInode sb blocks i' := by
  split_ifs with h
  · rw [h, diskInode, update_self]
    exact getDinode_putDinode_same _ d (ipb_mod_lt i)
  · by_cases hblk : iblock sb i' = iblock sb i
    · have hipb : ipb = 16 := rfl
      have hmod : i%ipb ≠ i'%ipb := by
        simp only [iblock, hipb] at hblk ⊢
        omega
      rw [diskInode, hblk, update_self, getDinode_putDinode_other _ d hmod, diskInode,
        hblk]
    · exact diskInode_update_of_ne hblk

theorem addrOf_update (h : d.addrs indirect ≠ 0 → (d.addrs indirect).toNat ≠ b) (pl : Place) :
    addrOf (update blocks b data) d pl = addrOf blocks d pl := by
  cases pl with
  | inl k => rfl
  | inr j =>
    simp only [addrOf]
    split_ifs with h0
    · rfl
    · rw [update_of_ne (h h0)]

theorem byteAt_update (h : ∀ pl, addrOf blocks d pl ≠ 0 → addrOf blocks d pl ≠ b) (o : ℕ) :
    byteAt (update blocks b data) d o = byteAt blocks d o := by
  have hind : d.addrs indirect ≠ 0 → (d.addrs indirect).toNat ≠ b := by
    intro h0
    have htn : (d.addrs indirect).toNat ≠ 0 := fun hz => h0 (BitVec.eq_of_toNat_eq hz)
    exact h (.inl indirect) htn
  simp only [byteAt, addrOf_update hind]
  split_ifs with h0
  · rfl
  · rw [update_of_ne (h _ h0)]

theorem addrOf_sub {e : Dinode} (h : Sub d e) (pl : Place) (h0 : addrOf blocks d pl ≠ 0) :
    addrOf blocks d pl = addrOf blocks e pl := by
  cases pl with
  | inl k =>
    simp only [addrOf] at h0 ⊢
    cases h k with
    | inl hz => exact absurd (by rw [hz]; rfl) h0
    | inr heq => rw [heq]
  | inr j =>
    simp only [addrOf] at h0 ⊢
    split_ifs at h0 with hz
    · exact absurd rfl h0
    · cases h indirect with
      | inl hz' => exact absurd hz' hz
      | inr heq => rw [← heq, if_neg hz]

end Frames

end GreenOS.FsOwned
