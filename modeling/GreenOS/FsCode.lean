import GreenOS.FsMemory

/-!
# The code of `fs.c`: blocks and inodes

Each function of the source as a program over the buffer commands. A loop
carries the number of iterations it may still make, which its caller sets high
enough for the loop to end by its own test.
-/

namespace GreenOS.FsCode
open ByteBlock LogCode DiskLayout ProcTable
open FsMemory

variable (sb : Superblock)

def bzero (bno : ℕ) : F Unit := do
  let _ ← bread bno
  setData bno zeros
  logWrite bno
  brelse bno

/-- The inner loop of `balloc`: the first clear bit from `bi` on of a bitmap
block whose first bit stands for block `b`. -/
def freeBit (data : Block) (b : ℕ) : ℕ → ℕ → Option ℕ
  | 0, _ => none
  | left+1, bi =>
    if b+bi < sb.size then
      if testBit data bi = false then some bi else freeBit data b left (bi+1)
    else none

/-- The outer loop of `balloc`, over the bitmap blocks from block number `b`. -/
def ballocFrom : ℕ → ℕ → F ℕ
  | 0, _ => pure 0
  | blocks+1, b => do
    let data ← bread (bblock sb b)
    match freeBit sb data b bpb 0 with
    | some bi =>
      setData (bblock sb b) (setBit data bi)
      logWrite (bblock sb b)
      brelse (bblock sb b)
      bzero (b+bi)
      pure (b+bi)
    | none =>
      brelse (bblock sb b)
      ballocFrom blocks (b+bpb)

def balloc : F ℕ := ballocFrom sb ((sb.size+bpb-1)/bpb) 0

def bfree (b : ℕ) : F Unit := do
  let data ← bread (bblock sb b)
  if testBit data (b%bpb) = false then kpanic "freeing free block"
  else
    setData (bblock sb b) (clearBit data (b%bpb))
    logWrite (bblock sb b)
    brelse (bblock sb b)

def iallocFrom (type : BitVec 16) : ℕ → ℕ → F (Option (Fin ninode))
  | 0, _ => pure none
  | left+1, inum => do
    let data ← bread (iblock sb inum)
    if (getDinode data (inum%ipb)).type = 0 then
      setData (iblock sb inum) (putDinode data (inum%ipb) { zeroDinode with type := type })
      logWrite (iblock sb inum)
      brelse (iblock sb inum)
      let ip ← iget inum
      pure (some ip)
    else
      brelse (iblock sb inum)
      iallocFrom type left (inum+1)

def ialloc (type : BitVec 16) : F (Option (Fin ninode)) := iallocFrom sb type (sb.ninodes-1) 1

def iupdate (k : Fin ninode) : F Unit := do
  let ip ← getInode k
  let data ← bread (iblock sb ip.inum)
  setData (iblock sb ip.inum) (putDinode data (ip.inum%ipb) ip.copy)
  logWrite (iblock sb ip.inum)
  brelse (iblock sb ip.inum)

def ilock (p : Slot) (k : Fin ninode) : F Unit := do
  let ip ← getInode k
  if ip.ref < 1 then kpanic "ilock"
  else
    acquiresleep p k
    let ip ← getInode k
    if ip.valid then pure ()
    else
      let data ← bread (iblock sb ip.inum)
      modifyCopy k (fun _ => getDinode data (ip.inum%ipb))
      brelse (iblock sb ip.inum)
      modifyInode k (fun ip => { ip with valid := true })
      let ip ← getInode k
      if ip.copy.type = 0 then kpanic "ilock: no type" else pure ()

def iunlock (p : Slot) (k : Fin ninode) : F Unit := do
  let ip ← getInode k
  if ip.lock ≠ some p ∨ ip.ref < 1 then kpanic "iunlock" else releasesleep k

def setAddrs (i : Fin (ndirect+1)) (a : BitVec 32) (d : Dinode) : Dinode :=
  { d with addrs := Function.update d.addrs i a }

def indirect : Fin (ndirect+1) := Fin.last ndirect

def direct (bn : ℕ) : Fin (ndirect+1) := Fin.ofNat (ndirect+1) bn

def bmapSlot (k : Fin ninode) (i : Fin (ndirect+1)) : F ℕ := do
  let ip ← getInode k
  if ip.copy.addrs i = 0 then
    let addr ← balloc sb
    if addr = 0 then pure 0
    else
      modifyCopy k (setAddrs i (BitVec.ofNat 32 addr))
      pure addr
  else pure (ip.copy.addrs i).toNat

/-- An entry of the indirect block `ind`, filled by `balloc` if it is empty. -/
def bmapIndirect (ind j : ℕ) : F ℕ := do
  let data ← bread ind
  if getAddr data j = 0 then
    let addr ← balloc sb
    if addr = 0 then pure () else
      setData ind (putAddr data j (BitVec.ofNat 32 addr))
      logWrite ind
    brelse ind
    pure addr
  else
    brelse ind
    pure (getAddr data j).toNat

/-- The disk block address of block `bn` of an inode, or 0 if out of space. -/
def bmap (k : Fin ninode) (bn : ℕ) : F ℕ := do
  if bn < ndirect then bmapSlot sb k (direct bn)
  else if bn-ndirect < nindirect then
    let ind ← bmapSlot sb k indirect
    if ind = 0 then pure 0 else bmapIndirect sb ind (bn-ndirect)
  else kpanic "bmap: out of range"

def truncDirect (k : Fin ninode) : ℕ → ℕ → F Unit
  | 0, _ => pure ()
  | left+1, i => do
    let ip ← getInode k
    if ip.copy.addrs (direct i) = 0 then pure () else
      bfree sb (ip.copy.addrs (direct i)).toNat
      modifyCopy k (setAddrs (direct i) 0)
    truncDirect k left (i+1)

def truncIndirect (data : Block) : ℕ → ℕ → F Unit
  | 0, _ => pure ()
  | left+1, j => do
    if getAddr data j = 0 then pure () else bfree sb (getAddr data j).toNat
    truncIndirect data left (j+1)

def itrunc (k : Fin ninode) : F Unit := do
  truncDirect sb k ndirect 0
  let ip ← getInode k
  if ip.copy.addrs indirect = 0 then pure () else
    let ind := (ip.copy.addrs indirect).toNat
    let data ← bread ind
    truncIndirect sb data nindirect 0
    brelse ind
    bfree sb ind
    modifyCopy k (setAddrs indirect 0)
  modifyCopy k (fun d => { d with size := 0 })
  iupdate sb k

/-- The first critical section of `iput`: it takes the inode to be freed, or
drops the reference. -/
def iputEnter (p : Slot) (k : Fin ninode) : F Bool :=
  atomic (fun m =>
    let ip := m.itable k
    if ip.ref = 1 ∧ ip.valid = true ∧ ip.copy.nlink = 0 then
      if ip.lock.isSome then none else some (true,setInode m k { ip with lock := some p })
    else some (false,setInode m k { ip with ref := ip.ref-1 }))

def iput (p : Slot) (k : Fin ninode) : F Unit := do
  let last ← iputEnter p k
  if last then
    itrunc sb k
    modifyCopy k (fun d => { d with type := 0 })
    iupdate sb k
    modifyInode k (fun ip => { ip with valid := false })
    releasesleep k
    modifyInode k (fun ip => { ip with ref := ip.ref-1 })
  else pure ()

def iunlockput (p : Slot) (k : Fin ninode) : F Unit := do
  iunlock p k
  iput sb p k

end GreenOS.FsCode
