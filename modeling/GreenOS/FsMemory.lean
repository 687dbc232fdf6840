import GreenOS.DiskLayout
import GreenOS.ProcTable

/-!
# The file system's memory

The inode table, the file table and what each process refers to, with the
critical sections of `itable.lock`, `ftable.lock` and the inodes' sleep locks
as commands on them. There is one device, so inodes carry no device number.
-/

namespace GreenOS.FsMemory
open LogCode DiskLayout ProcTable

def ninode : ℕ := 50

def nfile : ℕ := 100

instance : NeZero ninode := ⟨by decide⟩

instance : NeZero nfile := ⟨by decide⟩

/-- An in-memory inode; `lock` is the holder of its sleep lock and `copy` the
fields that are a copy of the disk inode. -/
structure Inode where
  inum : ℕ
  ref : ℕ
  lock : Option Slot
  valid : Bool
  copy : Dinode

inductive FileType where
  | none
  | pipe
  | inode
  | device
  deriving DecidableEq

structure File where
  type : FileType
  ref : ℕ
  readable : Bool
  writable : Bool
  ip : Option (Fin ninode)
  off : ℕ
  major : BitVec 16

structure Mem where
  itable : Fin ninode → Inode
  ftable : Fin nfile → File
  cwd : Slot → Option (Fin ninode)
  ofile : Slot → Fin nofile → Option (Fin nfile)

def bootMem : Mem where
  itable := fun _ => ⟨0,0,none,false,zeroDinode⟩
  ftable := fun _ => ⟨.none,0,false,false,none,0,0⟩
  cwd := fun _ => none
  ofile := fun _ _ => none

abbrev F (α : Type) := P Mem α

def setInode (m : Mem) (k : Fin ninode) (ip : Inode) : Mem :=
  { m with itable := Function.update m.itable k ip }

def setFile (m : Mem) (k : Fin nfile) (f : File) : Mem :=
  { m with ftable := Function.update m.ftable k f }

def readMem {β : Type} (f : Mem → β) : F β := atomic (fun m => some (f m,m))

def writeMem (f : Mem → Mem) : F Unit := atomic (fun m => some ((),f m))

def getInode (k : Fin ninode) : F Inode := readMem (fun m => m.itable k)

def modifyInode (k : Fin ninode) (f : Inode → Inode) : F Unit :=
  writeMem (fun m => setInode m k (f (m.itable k)))

def modifyCopy (k : Fin ninode) (f : Dinode → Dinode) : F Unit :=
  modifyInode k (fun ip => { ip with copy := f ip.copy })

def acquiresleep (p : Slot) (k : Fin ninode) : F Unit :=
  atomic (fun m => if (m.itable k).lock.isSome then none
    else some ((),setInode m k { m.itable k with lock := some p }))

def releasesleep (k : Fin ninode) : F Unit :=
  modifyInode k (fun ip => { ip with lock := none })

/-- The table entry `iget` finds for an inode number: the entry that has it, or
the first free one. -/
def igetEntry (t : Fin ninode → Inode) (inum : ℕ) : Option (Fin ninode) :=
  match (List.finRange ninode).find? (fun k => 0 < (t k).ref ∧ (t k).inum = inum) with
  | some k => some k
  | none => (List.finRange ninode).find? (fun k => (t k).ref = 0)

def igetInode (ip : Inode) (inum : ℕ) : Inode :=
  if 0 < ip.ref then { ip with ref := ip.ref+1 }
  else { ip with inum := inum, ref := 1, valid := false }

def iget (inum : ℕ) : F (Fin ninode) := do
  let found ← atomic (fun m =>
    match igetEntry m.itable inum with
    | some k => some (some k,setInode m k (igetInode (m.itable k) inum))
    | none => some (none,m))
  match found with
  | some k => pure k
  | none => kpanic "iget: no inodes"

def idup (k : Fin ninode) : F (Fin ninode) := do
  modifyInode k (fun ip => { ip with ref := ip.ref+1 })
  pure k

end GreenOS.FsMemory
