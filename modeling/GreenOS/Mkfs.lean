import GreenOS.FsNames

/-!
# Building the first file system

The program `mkfs`: it lays out an image of `FSSIZE` blocks and appends to the
root directory an entry for each file it is given. A run that a failing
`assert`, `read` or `open` ends has no image. The host's byte order is the
image's, so `xshort` and `xint` are the identity.
-/

namespace GreenOS.Mkfs
open ByteBlock LogCode DiskLayout FsCode FsNames

def fssize : ℕ := 2000

def ninodes : ℕ := 200

def nbitmap : ℕ := fssize/bpb+1

def ninodeblocks : ℕ := ninodes/ipb+1

def nlog : ℕ := logblocks+1

def nmeta : ℕ := 2+nlog+ninodeblocks+nbitmap

def fsmagic : ℕ := 0x10203040

def superblock : Superblock where
  size := fssize
  ninodes := ninodes
  logstart := 2
  inodestart := 2+nlog
  bmapstart := 2+nlog+ninodeblocks

structure Input where
  path : List UInt8
  data : List UInt8

structure Build where
  image : ℕ → Block
  freeinode : ℕ
  freeblock : ℕ

def rsect (s : Build) (sec : ℕ) : Option Block := if sec < fssize then some (s.image sec) else none

def wsect (s : Build) (sec : ℕ) (buf : Block) : Build :=
  { s with image := Function.update s.image sec buf }

def winode (s : Build) (inum : ℕ) (din : Dinode) : Option Build := do
  let buf ← rsect s (iblock superblock inum)
  some (wsect s (iblock superblock inum) (putDinode buf (inum%ipb) din))

def rinode (s : Build) (inum : ℕ) : Option Dinode := do
  let buf ← rsect s (iblock superblock inum)
  some (getDinode buf (inum%ipb))

def ialloc (s : Build) (type : BitVec 16) : Option (ℕ × Build) := do
  let s' ← winode { s with freeinode := s.freeinode+1 } s.freeinode
    { zeroDinode with type := type, nlink := 1 }
  some (s.freeinode,s')

def appendSlot (s : Build) (din : Dinode) (i : Fin (ndirect+1)) : Build × Dinode :=
  if din.addrs i = 0 then
    ({ s with freeblock := s.freeblock+1 },setAddrs i (BitVec.ofNat 32 s.freeblock) din)
  else (s,din)

def appendBlock (s : Build) (din : Dinode) (fbn : ℕ) : Option (Build × Dinode × ℕ) :=
  if fbn < ndirect then
    let (s,din) := appendSlot s din (direct fbn)
    some (s,din,(din.addrs (direct fbn)).toNat)
  else do
    let (s,din) := appendSlot s din indirect
    let ind ← rsect s (din.addrs indirect).toNat
    if getAddr ind (fbn-ndirect) = 0 then
      let ind := putAddr ind (fbn-ndirect) (BitVec.ofNat 32 s.freeblock)
      some (wsect { s with freeblock := s.freeblock+1 } (din.addrs indirect).toNat ind,din,
        (getAddr ind (fbn-ndirect)).toNat)
    else some (s,din,(getAddr ind (fbn-ndirect)).toNat)

def appendLoop : ℕ → Build → Dinode → ℕ → List UInt8 → Option (Build × Dinode × ℕ)
  | 0, s, din, off, _ => some (s,din,off)
  | left+1, s, din, off, p =>
    if p = [] then some (s,din,off)
    else if maxfile ≤ off/bsize then none
    else do
      let (s,din,x) ← appendBlock s din (off/bsize)
      let n1 := min p.length ((off/bsize+1)*bsize-off)
      let buf ← rsect s x
      appendLoop left (wsect s x (paste buf (off-off/bsize*bsize) (p.take n1))) din (off+n1)
        (p.drop n1)

def iappend (s : Build) (inum : ℕ) (p : List UInt8) : Option Build := do
  let din ← rinode s inum
  let (s,din,off) ← appendLoop p.length s din din.size.toNat p
  winode s inum { din with size := BitVec.ofNat 32 off }

def appendData (inum : ℕ) : ℕ → Build → List UInt8 → Option Build
  | 0, s, _ => some s
  | left+1, s, data =>
    if data = [] then some s
    else do
      let s ← iappend s inum (data.take bsize)
      appendData inum left s (data.drop bsize)

def userDir : List UInt8 := [117,115,101,114,47]

def underscore : UInt8 := 95

def shortname (path : List UInt8) : Option Name :=
  let name := if userDir.isPrefixOf path then path.drop 5 else path
  if slash ∈ name then none
  else
    let name := if name.head? = some underscore then name.drop 1 else name
    if name.length ≤ dirsiz then some name else none

def appendFile (s : Build) (f : Input) : Option Build := do
  let name ← shortname f.path
  let (inum,s) ← ialloc s tFile
  let s ← iappend s rootino (direntBytes inum name)
  appendData inum (f.data.length+1) s f.data

def appendFiles : Build → List Input → Option Build
  | s, [] => some s
  | s, f::fs => do
    let s ← appendFile s f
    appendFiles s fs

def bitmap (used : ℕ) : Block := (List.range used).foldl setBit zeros

def balloc (s : Build) (used : ℕ) : Option Build :=
  if used < bpb then some (wsect s superblock.bmapstart (bitmap used)) else none

def superBytes : List ℕ :=
  [fsmagic,fssize,fssize-nmeta,ninodes,nlog,superblock.logstart,superblock.inodestart,
    superblock.bmapstart]

def putInts (buf : Block) : ℕ → List ℕ → Block
  | _, [] => buf
  | i, x::xs => putInts (putLE buf (4*i) 4 x) (i+1) xs

def emptyImage : Build where
  image := Function.update (fun _ => zeros) 1 (putInts zeros 0 superBytes)
  freeinode := 1
  freeblock := nmeta

def makeRoot (s : Build) : Option Build := do
  let (root,s) ← ialloc s tDir
  let s ← iappend s root (direntBytes root dot)
  iappend s root (direntBytes root dotdot)

def fixRoot (s : Build) : Option Build := do
  let din ← rinode s rootino
  winode s rootino { din with size := BitVec.ofNat 32 ((din.size.toNat/bsize+1)*bsize) }

def mkfs (files : List Input) : Option (ℕ → Block) := do
  let s ← makeRoot emptyImage
  let s ← appendFiles s files
  let s ← fixRoot s
  let s ← balloc s s.freeblock
  some s.image

end GreenOS.Mkfs
