import GreenOS.ByteBlock
import GreenOS.Programs

/-!
# Buffer commands and the code of the log

The code of `log.c` as programs over the interface of `bio.c` and the critical
sections of `log.lock`. A buffer is named by its block number, since the cache
holds a block at most once. `M` stands for the rest of the kernel's memory,
which file system code changes in critical sections of its own.
-/

namespace GreenOS.LogCode
open Programs ByteBlock

def bsize : ℕ := 1024

def maxopblocks : ℕ := 10

def logblocks : ℕ := maxopblocks*3

/-- The header block of the log or one of the blocks behind it. -/
def InLog (start b : ℕ) : Prop := start ≤ b ∧ b ≤ start+logblocks

def nbuf : ℕ := maxopblocks*3

abbrev Block := Bytes bsize

structure Log where
  start : ℕ
  outstanding : ℕ
  committing : Bool
  lh : List ℕ

/-- Commands of kernel code. `atomic` is a critical section on the rest of the
memory, which waits when it answers nothing. -/
inductive Cmd (M : Type) : Type 1 where
  | panic (msg : String)
  | bread (b : ℕ)
  | setData (b : ℕ) (data : Block)
  | bwrite (b : ℕ)
  | brelse (b : ℕ)
  | bunpin (b : ℕ)
  | logWrite (b : ℕ)
  | logBegin
  | logEnd
  | logCommitted
  | getLog
  | setHeader (lh : List ℕ)
  | atomic (β : Type) (f : M → Option (β × M))
  | copyin (src : BitVec 64) (n : ℕ)
  | copyout (dst : BitVec 64) (bytes : List UInt8)

/-- What a command answers. `copyin` answers the bytes it managed to copy and
whether it succeeded. -/
def Res {M : Type} : Cmd M → Type
  | .panic _ => Empty
  | .bread _ => Block
  | .logEnd => Bool
  | .getLog => Log
  | .atomic β _ => β
  | .copyin _ _ => List UInt8 × Bool
  | .copyout _ _ => Bool
  | _ => Unit

abbrev P (M : Type) (α : Type) := Prog (Cmd M) Res α

section
variable {M : Type} {α β : Type}

def cmd (c : Cmd M) : P M (Res c) := perform c

def kpanic (msg : String) : P M α := .step (.panic msg) Empty.elim

theorem every_kpanic {Q : Cmd M → Prop} {msg : String} (h : Q (.panic msg)) :
    Every Q (kpanic msg : P M α) :=
  ⟨h,fun r => r.elim⟩

def bread (b : ℕ) : P M Block := cmd (.bread b)

def setData (b : ℕ) (data : Block) : P M Unit := cmd (.setData b data)

def bwrite (b : ℕ) : P M Unit := cmd (.bwrite b)

def brelse (b : ℕ) : P M Unit := cmd (.brelse b)

def bunpin (b : ℕ) : P M Unit := cmd (.bunpin b)

def logWrite (b : ℕ) : P M Unit := cmd (.logWrite b)

def getLog : P M Log := cmd .getLog

def setHeader (lh : List ℕ) : P M Unit := cmd (.setHeader lh)

def atomic (f : M → Option (β × M)) : P M β := cmd (.atomic β f)

def copyin (src : BitVec 64) (n : ℕ) : P M (List UInt8 × Bool) := cmd (.copyin src n)

def copyout (dst : BitVec 64) (bytes : List UInt8) : P M Bool := cmd (.copyout dst bytes)

def headerN (hb : Block) : ℕ := (BitVec.ofNat 32 (getLE hb 0 4)).toInt.toNat

def headerBlocks (hb : Block) : List ℕ :=
  (List.range (headerN hb)).map (fun i => getLE hb (4+4*i) 4)

def putBlocks (hb : Block) : ℕ → List ℕ → Block
  | _, [] => hb
  | i, b::bs => putBlocks (putLE hb (4+4*i) 4 b) (i+1) bs

def putHeader (hb : Block) (lh : List ℕ) : Block := putBlocks (putLE hb 0 4 lh.length) 0 lh

def installFrom (recovering : Bool) (start : ℕ) : ℕ → List ℕ → P M Unit
  | _, [] => pure ()
  | tail, b::bs => do
    let lbuf ← bread (start+tail+1)
    let _ ← bread b
    setData b lbuf
    bwrite b
    if recovering then pure () else bunpin b
    brelse (start+tail+1)
    brelse b
    installFrom recovering start (tail+1) bs

def installTrans (recovering : Bool) : P M Unit := do
  let log ← getLog
  installFrom recovering log.start 0 log.lh

def readHead : P M Unit := do
  let log ← getLog
  let buf ← bread log.start
  setHeader (headerBlocks buf)
  brelse log.start

def writeHead : P M Unit := do
  let log ← getLog
  let buf ← bread log.start
  setData log.start (putHeader buf log.lh)
  bwrite log.start
  brelse log.start

def recoverFromLog : P M Unit := do
  readHead
  installTrans true
  setHeader []
  writeHead

def writeLogFrom (start : ℕ) : ℕ → List ℕ → P M Unit
  | _, [] => pure ()
  | tail, b::bs => do
    let _ ← bread (start+tail+1)
    let src ← bread b
    setData (start+tail+1) src
    bwrite (start+tail+1)
    brelse b
    brelse (start+tail+1)
    writeLogFrom start (tail+1) bs

def writeLog : P M Unit := do
  let log ← getLog
  writeLogFrom log.start 0 log.lh

def commit : P M Unit := do
  let log ← getLog
  if 0 < log.lh.length then
    writeLog
    writeHead
    installTrans false
    setHeader []
    writeHead
  else pure ()

def beginOp : P M Unit := cmd .logBegin

def logEnd : P M Bool := cmd .logEnd

def endOp : P M Unit := do
  let doCommit ← logEnd
  if doCommit then
    commit
    cmd .logCommitted
  else pure ()

end

end GreenOS.LogCode
