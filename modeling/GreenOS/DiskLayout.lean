import Mathlib.Data.Nat.Bitwise
import GreenOS.LogCode

/-!
# The on-disk format

Inodes, directory entries, indirect blocks and the free bit map as the kernel
reads and writes them inside a block of bytes. Each kind of record has a read
and a write function, and a write changes the record it names and no other.
-/

namespace GreenOS.DiskLayout
open ByteBlock LogCode

structure Superblock where
  size : ℕ
  ninodes : ℕ
  logstart : ℕ
  inodestart : ℕ
  bmapstart : ℕ

def ndirect : ℕ := 12

instance (priority := 2000) slotsPos : NeZero (ndirect+1) := ⟨by decide⟩

def nindirect : ℕ := bsize/4

def maxfile : ℕ := ndirect+nindirect

def ipb : ℕ := bsize/64

def bpb : ℕ := bsize*8

def dirsiz : ℕ := 14

def rootino : ℕ := 1

def iblock (sb : Superblock) (inum : ℕ) : ℕ := inum/ipb+sb.inodestart

def bblock (sb : Superblock) (b : ℕ) : ℕ := b/bpb+sb.bmapstart

def tDir : BitVec 16 := 1

def tFile : BitVec 16 := 2

structure Dinode where
  type : BitVec 16
  major : BitVec 16
  minor : BitVec 16
  nlink : BitVec 16
  size : BitVec 32
  addrs : Fin (ndirect+1) → BitVec 32

@[ext] theorem dinode_ext {d e : Dinode} (htype : d.type = e.type) (hmajor : d.major = e.major)
    (hminor : d.minor = e.minor) (hnlink : d.nlink = e.nlink) (hsize : d.size = e.size)
    (haddrs : d.addrs = e.addrs) : d = e := by
  cases d
  cases e
  simp_all

def zeroDinode : Dinode where
  type := 0
  major := 0
  minor := 0
  nlink := 0
  size := 0
  addrs := fun _ => 0

def dinodeByte (d : Dinode) (j : ℕ) : UInt8 :=
  if j < 2 then byteOf d.type.toNat j
  else if j < 4 then byteOf d.major.toNat (j-2)
  else if j < 6 then byteOf d.minor.toNat (j-4)
  else if j < 8 then byteOf d.nlink.toNat (j-6)
  else if j < 12 then byteOf d.size.toNat (j-8)
  else byteOf (d.addrs (Fin.ofNat (ndirect+1) ((j-12)/4))).toNat ((j-12)%4)

def getDinode (b : Block) (k : ℕ) : Dinode where
  type := BitVec.ofNat 16 (getLE b (64*k) 2)
  major := BitVec.ofNat 16 (getLE b (64*k+2) 2)
  minor := BitVec.ofNat 16 (getLE b (64*k+4) 2)
  nlink := BitVec.ofNat 16 (getLE b (64*k+6) 2)
  size := BitVec.ofNat 32 (getLE b (64*k+8) 4)
  addrs := fun i => BitVec.ofNat 32 (getLE b (64*k+(12+4*i.val)) 4)

def putDinode (b : Block) (k : ℕ) (d : Dinode) : Block := splice b (64*k) 64 (dinodeByte d)

variable {w k j bi : ℕ}

theorem ofNat_le {m : ℕ} (v : BitVec w) (h : 256^m = 2^w) :
    BitVec.ofNat w (le m (byteOf v.toNat)) = v := by
  rw [le_byteOf, h, Nat.mod_eq_of_lt v.isLt, BitVec.ofNat_toNat, BitVec.setWidth_eq]

theorem getLE_putDinode (b : Block) {o : ℕ} (d : Dinode) (hk : k < ipb) (ho : o+w ≤ 64) :
    getLE (putDinode b k d) (64*k+o) w = le w (fun j => dinodeByte d (o+j)) := by
  have hipb : ipb = 16 := rfl
  exact getLE_splice_in b (dinodeByte d) (by simp [bsize]; omega) ho

theorem getDinode_putDinode_same (b : Block) (d : Dinode) (hk : k < ipb) :
    getDinode (putDinode b k d) k = d := by
  have hfield : ∀ {m w : ℕ} (o : ℕ) (v : BitVec w), o+m ≤ 64 → 256^m = 2^w →
      (∀ j < m, dinodeByte d (o+j) = byteOf v.toNat j) →
      BitVec.ofNat w (getLE (putDinode b k d) (64*k+o) m) = v := by
    intro m w o v ho hw hbytes
    rw [getLE_putDinode b d hk ho, le_congr hbytes, ofNat_le v hw]
  apply dinode_ext
  · exact hfield 0 d.type (by omega) rfl (fun j hj => by simp [dinodeByte, hj])
  · exact hfield 2 d.major (by omega) rfl (fun j hj => by
      rw [dinodeByte, if_neg (by omega), if_pos (by omega), Nat.add_sub_cancel_left])
  · exact hfield 4 d.minor (by omega) rfl (fun j hj => by
      rw [dinodeByte, if_neg (by omega), if_neg (by omega), if_pos (by omega),
        Nat.add_sub_cancel_left])
  · exact hfield 6 d.nlink (by omega) rfl (fun j hj => by
      rw [dinodeByte, if_neg (by omega), if_neg (by omega), if_neg (by omega), if_pos (by omega),
        Nat.add_sub_cancel_left])
  · exact hfield 8 d.size (by omega) rfl (fun j hj => by
      rw [dinodeByte, if_neg (by omega), if_neg (by omega), if_neg (by omega), if_neg (by omega),
        if_pos (by omega), Nat.add_sub_cancel_left])
  · funext i
    have hi : i.val < 13 := i.isLt
    refine hfield (12+4*i.val) (d.addrs i) (by omega) rfl (fun j hj => ?_)
    have hdiv : (12+4*i.val+j-12)/4 = i.val := by omega
    have hmod : (12+4*i.val+j-12)%4 = j := by omega
    rw [dinodeByte, if_neg (by omega), if_neg (by omega), if_neg (by omega), if_neg (by omega),
      if_neg (by omega), hdiv, hmod]
    congr 3
    exact Fin.ext (Nat.mod_eq_of_lt i.isLt)

theorem getDinode_putDinode_other (b : Block) {k' : ℕ} (d : Dinode) (h : k ≠ k') :
    getDinode (putDinode b k d) k' = getDinode b k' := by
  have hfield : ∀ o w, o+w ≤ 64 →
      getLE (putDinode b k d) (64*k'+o) w = getLE b (64*k'+o) w :=
    fun o w ho => getLE_splice_out b _ (by omega)
  simp only [getDinode]
  congr 1
  · rw [← add_zero (64*k'), hfield 0 2 (by omega)]
  · rw [hfield 2 2 (by omega)]
  · rw [hfield 4 2 (by omega)]
  · rw [hfield 6 2 (by omega)]
  · rw [hfield 8 4 (by omega)]
  · funext i
    have hi : i.val < 13 := i.isLt
    rw [hfield (12+4*i.val) 4 (by omega)]

theorem getDinode_zeros (k : ℕ) : getDinode zeros k = zeroDinode := by
  simp only [getDinode, getLE_zeros]
  rfl

def getAddr (b : Block) (j : ℕ) : BitVec 32 := BitVec.ofNat 32 (getLE b (4*j) 4)

def putAddr (b : Block) (j : ℕ) (a : BitVec 32) : Block := putLE b (4*j) 4 a.toNat

theorem getAddr_putAddr_same (b : Block) (a : BitVec 32) (hj : j < nindirect) :
    getAddr (putAddr b j a) j = a := by
  have hn : nindirect = 256 := rfl
  have hput := getLE_putLE_same b (o := 4*j) (w := 4) a.toNat (by simp [bsize]; omega)
  rw [getAddr, putAddr, hput, Nat.mod_eq_of_lt (lt_of_lt_of_le a.isLt (by norm_num)),
    BitVec.ofNat_toNat, BitVec.setWidth_eq]

theorem getAddr_putAddr_other (b : Block) {j' : ℕ} (a : BitVec 32) (h : j ≠ j') :
    getAddr (putAddr b j a) j' = getAddr b j' := by
  rw [getAddr, putAddr, getLE_putLE_other _ _ (by omega), getAddr]

theorem getAddr_zeros (j : ℕ) : getAddr zeros j = 0 := by
  rw [getAddr, getLE_zeros]
  rfl

def bitMask (bi : ℕ) : UInt8 := UInt8.ofNat (2^(bi%8))

def testBit (b : Block) (bi : ℕ) : Bool := get b (bi/8) &&& bitMask bi != 0

def setBit (b : Block) (bi : ℕ) : Block :=
  splice b (bi/8) 1 (fun _ => get b (bi/8) ||| bitMask bi)

def clearBit (b : Block) (bi : ℕ) : Block :=
  splice b (bi/8) 1 (fun _ => get b (bi/8) &&& ~~~ bitMask bi)

theorem and_mask (x : UInt8) (hj : j < 8) :
    (x &&& UInt8.ofNat (2^j) != 0) = x.toBitVec.getLsbD j := by
  have hpow : 2^j < 256 :=
    lt_of_le_of_lt (Nat.pow_le_pow_right (by norm_num) (Nat.le_of_lt_succ hj))
    (by norm_num)
  have hand : (x &&& UInt8.ofNat (2^j)).toNat = (x.toNat.testBit j).toNat*2^j := by
    rw [UInt8.toNat_and, UInt8.toNat_ofNat_of_lt' hpow, Nat.and_two_pow]
  have hbit : x.toNat.testBit j = x.toBitVec.getLsbD j := rfl
  have hpos : 0 < 2^j := Nat.two_pow_pos j
  rw [← hbit]
  cases h : x.toNat.testBit j with
  | false =>
    rw [h] at hand
    have : x &&& UInt8.ofNat (2^j) = 0 := UInt8.toNat.inj (by simpa using hand)
    simp [this]
  | true =>
    rw [h] at hand
    have : x &&& UInt8.ofNat (2^j) ≠ 0 := by
      intro hzero
      rw [hzero] at hand
      simp at hand
      omega
    simpa using this

theorem bitMask_lt (bi : ℕ) : bi%8 < 8 := Nat.mod_lt _ (by norm_num)

theorem getLsbD_mask {i : ℕ} (hj : j < 8) :
    (UInt8.ofNat (2^i)).toBitVec.getLsbD j = decide (i = j) := by
  have : (UInt8.ofNat (2^i)).toBitVec.getLsbD j = (BitVec.ofNat 8 (2^i)).getLsbD j := rfl
  rw [this, BitVec.getLsbD_ofNat, Nat.testBit_two_pow]
  simp [hj]

theorem testBit_setBit (b : Block) (bj : ℕ) (hbi : bi < bpb) :
    testBit (setBit b bi) bj = (decide (bi = bj) || testBit b bj) := by
  have hn : bpb = 8192 := rfl
  have hblk : bsize = 1024 := rfl
  by_cases hbyte : bi/8 = bj/8
  · have hget : get (setBit b bi) (bj/8) = get b (bj/8) ||| bitMask bi := by
      rw [setBit, ← hbyte]
      exact get_splice_in b (fun _ => get b (bi/8) ||| bitMask bi) (by omega) Nat.zero_lt_one
    have hiff : (bi%8 = bj%8) ↔ bi = bj := by omega
    rw [testBit, hget, testBit, bitMask, bitMask, and_mask _ (bitMask_lt bj),
      and_mask _ (bitMask_lt bj), UInt8.toBitVec_or, BitVec.getLsbD_or,
      getLsbD_mask (bitMask_lt bj), Bool.or_comm]
    simp [hiff]
  · have hget : get (setBit b bi) (bj/8) = get b (bj/8) :=
      get_splice_out b _ (by omega)
    have hne : bi ≠ bj := fun h => hbyte (by rw [h])
    simp [testBit, hget, hne]

theorem testBit_clearBit (b : Block) (bj : ℕ) (hbi : bi < bpb) :
    testBit (clearBit b bi) bj = (!decide (bi = bj) && testBit b bj) := by
  have hn : bpb = 8192 := rfl
  have hblk : bsize = 1024 := rfl
  by_cases hbyte : bi/8 = bj/8
  · have hget : get (clearBit b bi) (bj/8) = get b (bj/8) &&& ~~~ bitMask bi := by
      rw [clearBit, ← hbyte]
      exact get_splice_in b (fun _ => get b (bi/8) &&& ~~~ bitMask bi) (by omega) Nat.zero_lt_one
    have hiff : (bi%8 = bj%8) ↔ bi = bj := by omega
    rw [testBit, hget, testBit, bitMask, bitMask, and_mask _ (bitMask_lt bj),
      and_mask _ (bitMask_lt bj), UInt8.toBitVec_and, BitVec.getLsbD_and, UInt8.toBitVec_not,
      BitVec.getLsbD_not, getLsbD_mask (bitMask_lt bj), Bool.and_comm]
    simp [hiff, bitMask_lt bj]
  · have hget : get (clearBit b bi) (bj/8) = get b (bj/8) :=
      get_splice_out b _ (by omega)
    have hne : bi ≠ bj := fun h => hbyte (by rw [h])
    simp [testBit, hget, hne]

end GreenOS.DiskLayout
