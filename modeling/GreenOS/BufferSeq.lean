import GreenOS.LogCode
import GreenOS.Writes

/-!
# The buffer cache, run by one process

Kernel code run to completion over a disk and a cache that never evicts. Of the
cache only its content matters here: what `bread` returns for a block, which is
the cached copy if there is one and else the disk's.
-/

namespace GreenOS.BufferSeq
open Programs LogCode

abbrev Disk := ℕ → Block

structure Sys (M : Type) where
  disk : Disk
  content : ℕ → Block
  held : ℕ → Bool
  log : Log
  mem : M
  writes : List (ℕ × Block)

/-- User memory as `copyin` and `copyout` find it. A `copyin` copies at most the
bytes it was asked for, and all of them when it succeeds. -/
structure Env where
  copyin : BitVec 64 → ℕ → List UInt8 × Bool
  copyout : BitVec 64 → List UInt8 → Bool
  copyin_le : ∀ src n, (copyin src n).1.length ≤ n
  copyin_full : ∀ src n, (copyin src n).2 = true → (copyin src n).1.length = n

def quiet : Env where
  copyin := fun _ _ => ([],false)
  copyout := fun _ _ => false
  copyin_le := fun _ _ => Nat.zero_le _
  copyin_full := fun _ _ h => Bool.noConfusion h

section
variable {M : Type}

def hold (s : Sys M) (b : ℕ) (h : Bool) : Sys M := { s with held := Function.update s.held b h }

def setContent (s : Sys M) (b : ℕ) (data : Block) : Sys M :=
  { s with content := Function.update s.content b data }

def toDisk (s : Sys M) (b : ℕ) : Sys M :=
  { s with
    disk := Function.update s.disk b (s.content b)
    writes := s.writes ++ [(b,s.content b)] }

def setLog (s : Sys M) (log : Log) : Sys M := { s with log := log }

def logWriteStep (s : Sys M) (b : ℕ) : Outcome (Unit × Sys M) :=
  if logblocks ≤ s.log.lh.length then .panic "too big a transaction"
  else if s.log.outstanding < 1 then .panic "log_write outside of trans"
  else if b ∈ s.log.lh then .ok ((),s)
  else .ok ((),setLog s { s.log with lh := s.log.lh ++ [b] })

def logBeginStep (s : Sys M) : Outcome (Unit × Sys M) :=
  if s.log.committing then .wait
  else if logblocks < s.log.lh.length+(s.log.outstanding+1)*maxopblocks then .wait
  else .ok ((),setLog s { s.log with outstanding := s.log.outstanding+1 })

def logEndStep (s : Sys M) : Outcome (Bool × Sys M) :=
  let log := { s.log with outstanding := s.log.outstanding-1 }
  if log.committing then .panic "log.committing"
  else if log.outstanding = 0 then .ok (true,setLog s { log with committing := true })
  else .ok (false,setLog s log)

def handle (env : Env) : (c : Cmd M) → Sys M → Outcome (Res c × Sys M)
  | .panic msg, _ => .panic msg
  | .bread b, s => if s.held b then .wait else .ok (s.content b,hold s b true)
  | .setData b data, s => .ok ((),setContent s b data)
  | .bwrite b, s => if s.held b then .ok ((),toDisk s b) else .panic "bwrite"
  | .brelse b, s => if s.held b then .ok ((),hold s b false) else .panic "brelse"
  | .bunpin _, s => .ok ((),s)
  | .logWrite b, s => logWriteStep s b
  | .logBegin, s => logBeginStep s
  | .logEnd, s => logEndStep s
  | .logCommitted, s => .ok ((),setLog s { s.log with committing := false })
  | .getLog, s => .ok (s.log,s)
  | .setHeader lh, s => .ok ((),setLog s { s.log with lh := lh })
  | .atomic _ f, s =>
    match f s.mem with
    | none => .wait
    | some (r,mem) => .ok (r,{ s with mem := mem })
  | .copyin src n, s => .ok (env.copyin src n,s)
  | .copyout dst bytes, s => .ok (env.copyout dst bytes,s)

section
variable (env : Env) (s : Sys M) (b : ℕ)

theorem exec_bread (h : s.held b = false) :
    exec (handle env) (bread b) s = .ok (s.content b,hold s b true) :=
  (exec_perform _ s).trans (if_neg (by simp [h]))

theorem exec_setData (data : Block) :
    exec (handle env) (setData b data) s = .ok ((),setContent s b data) := rfl

theorem exec_bwrite (h : s.held b = true) :
    exec (handle env) (bwrite b) s = .ok ((),toDisk s b) :=
  (exec_perform _ s).trans (if_pos h)

theorem exec_brelse (h : s.held b = true) :
    exec (handle env) (brelse b) s = .ok ((),hold s b false) :=
  (exec_perform _ s).trans (if_pos h)

theorem exec_bunpin : exec (handle env) (bunpin b) s = .ok ((),s) := rfl

theorem exec_getLog : exec (handle env) (getLog : P M Log) s = .ok (s.log,s) := rfl

theorem exec_setHeader (lh : List ℕ) : exec (handle env) (setHeader lh) s =
    .ok ((),setLog s { s.log with lh := lh }) := rfl

end

end

end GreenOS.BufferSeq
