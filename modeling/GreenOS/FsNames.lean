import GreenOS.FsCode

/-!
# The code of `fs.c`: contents, directories and paths

Names and paths are C strings without their terminating NUL. A directory entry
holds a name of at most `DIRSIZ` bytes, and names are compared as `strncmp`
compares them.
-/

namespace GreenOS.FsNames
open ByteBlock LogCode DiskLayout ProcTable
open FsMemory FsCode

inductive Dst where
  | kernel
  | user (addr : BitVec 64)

inductive Src where
  | kernel (bytes : List UInt8)
  | user (addr : BitVec 64)

def window (data : Block) (o len : ℕ) : List UInt8 := (List.range len).map (fun k => get data (o+k))

def paste (data : Block) (o : ℕ) (bytes : List UInt8) : Block :=
  splice data o bytes.length (fun k => bytes.getD k 0)

def eitherCopyout (dst : Dst) (tot : ℕ) (bytes : List UInt8) : F Bool :=
  match dst with
  | .kernel => pure true
  | .user addr => copyout (addr+BitVec.ofNat 64 tot) bytes

def eitherCopyin (src : Src) (tot m : ℕ) : F (List UInt8 × Bool) :=
  match src with
  | .kernel bytes => pure ((bytes.drop tot).take m,true)
  | .user addr => copyin (addr+BitVec.ofNat 64 tot) m

section
variable (sb : Superblock)

def readLoop (k : Fin ninode) (dst : Dst) (n : ℕ) :
    ℕ → ℕ → ℕ → List UInt8 → F (ℤ × List UInt8)
  | 0, tot, _, acc => pure (tot,acc)
  | left+1, tot, off, acc => do
    if tot < n then
      let addr ← bmap sb k (off/bsize)
      if addr = 0 then pure (tot,acc)
      else
        let data ← bread addr
        let m := min (n-tot) (bsize-off%bsize)
        let ok ← eitherCopyout dst tot (window data (off%bsize) m)
        brelse addr
        if ok then readLoop k dst n left (tot+m) (off+m) (acc ++ window data (off%bsize) m)
        else pure (-1,acc)
    else pure (tot,acc)

def readi (k : Fin ninode) (dst : Dst) (off n : ℕ) : F (ℤ × List UInt8) := do
  let ip ← getInode k
  if ip.copy.size.toNat < off ∨ (off+n)%2^32 < off then pure (0,[])
  else
    let n := if ip.copy.size.toNat < off+n then ip.copy.size.toNat-off else n
    readLoop sb k dst n n 0 off []

def writeLoop (k : Fin ninode) (src : Src) (n : ℕ) : ℕ → ℕ → ℕ → F (ℕ × ℕ)
  | 0, tot, off => pure (tot,off)
  | left+1, tot, off => do
    if tot < n then
      let addr ← bmap sb k (off/bsize)
      if addr = 0 then pure (tot,off)
      else
        let data ← bread addr
        let m := min (n-tot) (bsize-off%bsize)
        let (bytes,ok) ← eitherCopyin src tot m
        setData addr (paste data (off%bsize) bytes)
        if ok then
          logWrite addr
          brelse addr
          writeLoop k src n left (tot+m) (off+m)
        else
          brelse addr
          pure (tot,off)
    else pure (tot,off)

def writei (k : Fin ninode) (src : Src) (off n : ℕ) : F ℤ := do
  let ip ← getInode k
  if ip.copy.size.toNat < off ∨ (off+n)%2^32 < off then pure (-1)
  else if maxfile*bsize < off+n then pure (-1)
  else
    let (tot,off) ← writeLoop sb k src n n 0 off
    let ip ← getInode k
    if ip.copy.size.toNat < off then
      modifyCopy k (fun d => { d with size := BitVec.ofNat 32 off })
    else pure ()
    iupdate sb k
    pure tot

end

def strncmp (p q : ℕ → UInt8) : ℕ → ℤ
  | 0 => 0
  | n+1 =>
    if p 0 ≠ 0 ∧ p 0 = q 0 then strncmp (fun i => p (i+1)) (fun i => q (i+1)) n
    else (p 0).toNat-(q 0).toNat

abbrev Name := List UInt8

def dot : Name := [46]

def dotdot : Name := [46,46]

def cstr (s : Name) : ℕ → UInt8 := fun i => s.getD i 0

def namecmp (s t : ℕ → UInt8) : ℤ := strncmp s t dirsiz

def direntSize : ℕ := 16

/-- `struct dirent` as 16 bytes, the name filled up with zeros as by `strncpy`. -/
def direntBytes (inum : ℕ) (name : Name) : List UInt8 :=
  (List.range direntSize).map (fun j => if j < 2 then byteOf inum j else cstr name (j-2))

def direntInum (de : List UInt8) : ℕ := le 2 (fun j => de.getD j 0)

def direntName (de : List UInt8) : ℕ → UInt8 := fun i => de.getD (i+2) 0

section
variable (sb : Superblock)

def lookupLoop (k : Fin ninode) (name : Name) (size : ℕ) :
    ℕ → ℕ → F (Option (Fin ninode × ℕ))
  | 0, _ => pure none
  | left+1, off => do
    if off < size then
      let (r,de) ← readi sb k .kernel off direntSize
      if r ≠ direntSize then kpanic "dirlookup read"
      else if direntInum de = 0 then lookupLoop k name size left (off+direntSize)
      else if namecmp (cstr name) (direntName de) = 0 then
        let ip ← iget (direntInum de)
        pure (some (ip,off))
      else lookupLoop k name size left (off+direntSize)
    else pure none

def dirlookup (k : Fin ninode) (name : Name) : F (Option (Fin ninode × ℕ)) := do
  let dp ← getInode k
  if dp.copy.type ≠ tDir then kpanic "dirlookup not DIR"
  else lookupLoop sb k name dp.copy.size.toNat (dp.copy.size.toNat+1) 0

def emptyLoop (k : Fin ninode) (size : ℕ) : ℕ → ℕ → F ℕ
  | 0, off => pure off
  | left+1, off => do
    if off < size then
      let (r,de) ← readi sb k .kernel off direntSize
      if r ≠ direntSize then kpanic "dirlink read"
      else if direntInum de = 0 then pure off
      else emptyLoop k size left (off+direntSize)
    else pure off

def dirlink (p : Slot) (k : Fin ninode) (name : Name) (inum : ℕ) : F ℤ := do
  let found ← dirlookup sb k name
  match found with
  | some (ip,_) =>
    iput sb p ip
    pure (-1)
  | none =>
    let dp ← getInode k
    let off ← emptyLoop sb k dp.copy.size.toNat (dp.copy.size.toNat+1) 0
    let r ← writei sb k (.kernel (direntBytes inum name)) off direntSize
    if r ≠ direntSize then pure (-1) else pure 0

end

def slash : UInt8 := 47

/-- The next path element, cut to `DIRSIZ` bytes, and the path after it. -/
def skipelem (path : List UInt8) : Option (Name × List UInt8) :=
  let path := path.dropWhile (· == slash)
  if path = [] then none
  else
    let len := (path.takeWhile (· != slash)).length
    some ((path.take len).take dirsiz,(path.drop len).dropWhile (· == slash))

section
variable (sb : Superblock)

def namexLoop (p : Slot) (nameiparent : Bool) :
    ℕ → Fin ninode → List UInt8 → Name → F (Option (Fin ninode × Name))
  | 0, ip, _, name => pure (some (ip,name))
  | left+1, ip, path, name =>
    match skipelem path with
    | none => do
      if nameiparent then
        iput sb p ip
        pure none
      else pure (some (ip,name))
    | some (name,path) => do
      ilock sb p ip
      let inode ← getInode ip
      if inode.copy.type ≠ tDir then
        iunlockput sb p ip
        pure none
      else if nameiparent ∧ path = [] then
        iunlock p ip
        pure (some (ip,name))
      else
        let next ← dirlookup sb ip name
        match next with
        | none =>
          iunlockput sb p ip
          pure none
        | some (next,_) =>
          iunlockput sb p ip
          namexLoop p nameiparent left next path name

def namex (p : Slot) (path : List UInt8) (nameiparent : Bool) :
    F (Option (Fin ninode × Name)) := do
  let cwd ← readMem (fun m => m.cwd p)
  if path.head? = some slash then
    let ip ← iget rootino
    namexLoop sb p nameiparent (path.length+1) ip path []
  else
    match cwd with
    | none => kpanic "idup"
    | some ip =>
      let ip ← idup ip
      namexLoop sb p nameiparent (path.length+1) ip path []

def namei (p : Slot) (path : List UInt8) : F (Option (Fin ninode)) := do
  let r ← namex sb p path false
  pure (r.map Prod.fst)

def nameiparent (p : Slot) (path : List UInt8) : F (Option (Fin ninode × Name)) :=
  namex sb p path true

end

end GreenOS.FsNames
