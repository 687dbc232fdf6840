import GreenOS.BufferSeq
import GreenOS.FsMemory
import GreenOS.ProgramTraces

/-!
# File system code read over plain blocks

The direct reading of file system code: a block is what the buffer cache holds
for it, a read of it and a write to it take effect at once, and the log is not
seen. `FsLogged` adds the transaction and the panics of the log.
-/

namespace GreenOS.FsDirect
open Programs ProgramTraces LogCode BufferSeq FsMemory

structure Fs where
  blocks : ℕ → Block
  mem : Mem

def setBlock (s : Fs) (b : ℕ) (data : Block) : Fs :=
  { s with blocks := Function.update s.blocks b data }

def setMem (s : Fs) (m : Mem) : Fs := { s with mem := m }

def noLog : Log where
  start := 0
  outstanding := 0
  committing := false
  lh := []

/-- What each command does to plain blocks. The last operation to end does not
commit here, since a commit changes no block outside the log. -/
def handle (env : Env) : (c : Cmd Mem) → Fs → Outcome (Res c × Fs)
  | .panic msg, _ => .panic msg
  | .bread b, s => .ok (s.blocks b,s)
  | .setData b data, s => .ok ((),setBlock s b data)
  | .bwrite _, s => .ok ((),s)
  | .brelse _, s => .ok ((),s)
  | .bunpin _, s => .ok ((),s)
  | .logWrite _, s => .ok ((),s)
  | .logBegin, s => .ok ((),s)
  | .logEnd, s => .ok (false,s)
  | .logCommitted, s => .ok ((),s)
  | .getLog, s => .ok (noLog,s)
  | .setHeader _, s => .ok ((),s)
  | .atomic _ f, s =>
    match f s.mem with
    | none => .wait
    | some (r,mem) => .ok (r,setMem s mem)
  | .copyin src n, s => .ok (env.copyin src n,s)
  | .copyout dst bytes, s => .ok (env.copyout dst bytes,s)

section Rules
variable {env : Env} {E : String → Prop} {s : Fs}

theorem wp_kpanic {α : Type} {msg : String} {Q : α → Fs → Prop} :
    wp (handle env) E (kpanic msg) Q s ↔ E msg := wp_def _ _ _

variable {b : ℕ} {Q : Unit → Fs → Prop}

theorem wp_bread {Q : Block → Fs → Prop} :
    wp (handle env) E (bread b) Q s ↔ Q (s.blocks b) s := wp_def _ _ _

theorem wp_setData {data : Block} :
    wp (handle env) E (setData b data) Q s ↔ Q () (setBlock s b data) := wp_def _ _ _

theorem wp_brelse :
    wp (handle env) E (brelse b) Q s ↔ Q () s := wp_def _ _ _

theorem wp_logWrite :
    wp (handle env) E (logWrite b) Q s ↔ Q () s := wp_def _ _ _

theorem wp_beginOp :
    wp (handle env) E beginOp Q s ↔ Q () s := wp_def _ _ _

theorem wp_readMem {β : Type} {f : Mem → β} {Q : β → Fs → Prop} :
    wp (handle env) E (readMem f) Q s ↔ Q (f s.mem) s := wp_def _ _ _

theorem wp_writeMem {f : Mem → Mem} :
    wp (handle env) E (writeMem f) Q s ↔ Q () (setMem s (f s.mem)) := wp_def _ _ _

theorem wp_copyin {src : BitVec 64} {n : ℕ} {Q : List UInt8 × Bool → Fs → Prop} :
    wp (handle env) E (copyin src n) Q s ↔ Q (env.copyin src n) s := wp_def _ _ _

theorem wp_copyout {dst : BitVec 64} {bytes : List UInt8} {Q : Bool → Fs → Prop} :
    wp (handle env) E (copyout dst bytes) Q s ↔ Q (env.copyout dst bytes) s := wp_def _ _ _

theorem exec_atomic {β : Type} (f : Mem → Option (β × Mem)) :
    exec (handle env) (atomic f) s = match f s.mem with
      | none => .wait
      | some (r,m) => .ok (r,setMem s m) :=
  exec_perform (Cmd.atomic β f) s

theorem exec_readMem {β : Type} (f : Mem → β) :
    exec (handle env) (readMem f) s = .ok (f s.mem,s) := rfl

theorem exec_writeMem (f : Mem → Mem) :
    exec (handle env) (writeMem f) s = .ok ((),setMem s (f s.mem)) := rfl

theorem wp_atomic {β : Type} {f : Mem → Option (β × Mem)} {Q : β → Fs → Prop}
    (h : ∀ r m, f s.mem = some (r,m) → Q r (setMem s m)) :
    wp (handle env) E (atomic f) Q s := by
  rw [wp_def, exec_atomic]
  cases hf : f s.mem with
  | none => trivial
  | some rm => exact h rm.1 rm.2 hf

end Rules

def logged : Cmd Mem → List ℕ
  | .logWrite b => [b]
  | _ => []

theorem wpt_logWrite {env : Env} {E : String → Prop} {s : Fs} {b : ℕ}
    {Q : Unit → Fs → List ℕ → Prop} :
    wpt (handle env) logged E (logWrite b) Q s ↔ Q () s [b] := wp_def _ _ _

abbrev Silent (c : Cmd Mem) : Prop := logged c = []

theorem silent_readMem {β : Type} (f : Mem → β) : Every Silent (readMem f) := every_perform rfl

theorem silent_writeMem (f : Mem → Mem) : Every Silent (writeMem f) := every_perform rfl

theorem silent_atomic {β : Type} (f : Mem → Option (β × Mem)) : Every Silent (atomic f) :=
  every_perform rfl

theorem silent_beginOp : Every Silent beginOp := every_perform rfl

theorem silent_bread (b : ℕ) : Every Silent (bread b) := every_perform rfl

theorem silent_setData (b : ℕ) (data : Block) : Every Silent (setData b data) := every_perform rfl

theorem silent_brelse (b : ℕ) : Every Silent (brelse b) := every_perform rfl

def Prompt : Cmd Mem → Prop
  | .atomic _ f => ∀ m, f m ≠ none
  | .logBegin | .logEnd => False
  | _ => True

theorem prompt_not_wait (env : Env) (c : Cmd Mem) (s : Fs) (h : Prompt c) :
    handle env c s ≠ .wait := by
  cases c with
  | atomic β f =>
    simp only [handle]
    cases hf : f s.mem with
    | none => exact absurd hf (h s.mem)
    | some rm => nofun
  | _ => nofun

theorem every_prompt_readMem {β : Type} (f : Mem → β) : Every Prompt (readMem f) :=
  every_perform (fun _ => nofun)

theorem every_prompt_writeMem (f : Mem → Mem) : Every Prompt (writeMem f) :=
  every_perform (fun _ => nofun)

end GreenOS.FsDirect
