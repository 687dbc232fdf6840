import GreenOS.WriteChunk
import GreenOS.StepRun

/-!
# Writers that share an open file

Any number of processes run `filewrite` on one `struct file`, their commands
interleaved in any way. Between `ilock` and `iunlock` a writer reads `f->off`,
stores a chunk there and advances `f->off`. A ledger records each chunk as its
writer locks the inode, with the offset it finds. `run_refines` relates the
machine to the text of `filewrite`, and `exec_inner` says what the critical
section does when nothing interferes.
-/

namespace GreenOS.SharedWrites
open Programs LogCode DiskLayout ProcTable
open BufferSeq (Env quiet)
open FsMemory FsCode FsDirect FsOwned
open FsMap FsNames
open FsState FsTable FileBytes WriteChunk
open Function (update update_self)

/-- A call of `filewrite`: the memory of its process, in which the bytes to write
can be read at `addr`. -/
structure Call where
  env : Env
  addr : BitVec 64
  bytes : List UInt8
  readable : ∀ tot m, tot+m ≤ bytes.length →
    env.copyin (addr+BitVec.ofNat 64 tot) m = ((bytes.drop tot).take m,true)

def chunkLen (c : Call) (i : ℕ) : ℕ := min (c.bytes.length-i) maxChunk

def chunkBytes (c : Call) (i : ℕ) : List UInt8 := (c.bytes.drop i).take (chunkLen c i)

/-- Where a process is in a call; `i` is the source's counter of the same name and
`r` what `writei` returned. -/
inductive Phase where
  | idle
  | head (c : Call) (i : ℕ)
  | lock (c : Call) (i : ℕ)
  | acquire (c : Call) (i : ℕ)
  | inside (c : Call) (i : ℕ) (body : F ℤ)
  | release (c : Call) (i : ℕ) (r : ℤ)
  | finish (c : Call) (i : ℕ) (r : ℤ)

/-- A chunk in the ledger: its writer, how many calls this had completed, the
offset found and the bytes. -/
structure Chunk where
  proc : Slot
  call : ℕ
  start : ℕ
  bytes : List UInt8

/-- The kernel, with the ledger and the calls that each process has completed with
what they returned. -/
structure Sys where
  fs : Fs
  phase : Slot → Phase
  ledger : List Chunk
  finished : Slot → List (Call × ℤ)

inductive Event where
  | start (p : Slot) (c : Call)
  | run (p : Slot)

def setPhase (s : Sys) (p : Slot) (f : Phase) : Sys :=
  { s with phase := update s.phase p f }

def result (c : Call) (i : ℕ) : ℤ := if i = c.bytes.length then c.bytes.length else -1

def complete (s : Sys) (p : Slot) (c : Call) (i : ℕ) : Sys :=
  { setPhase s p .idle with
    finished := update s.finished p (s.finished p++[(c,result c i)]) }

section Machine
variable (sb : Superblock) (fi : Fin nfile) (k : Fin ninode)

def loadInode : F Unit := do
  let ip ← getInode k
  if ip.valid then pure ()
  else
    let data ← bread (iblock sb ip.inum)
    modifyCopy k (fun _ => getDinode data (ip.inum%ipb))
    brelse (iblock sb ip.inum)
    modifyInode k (fun ip => { ip with valid := true })
    let ip ← getInode k
    if ip.copy.type = 0 then kpanic "ilock: no type" else pure ()

def inner (c : Call) (i : ℕ) : F ℤ := do
  loadInode sb k
  writeLocked sb fi k (c.addr+BitVec.ofNat 64 i) (chunkLen c i)

def step : Event → Sys → Option Sys
  | .start p c, s =>
    match s.phase p with
    | .idle => some (setPhase s p (.head c 0))
    | _ => none
  | .run p, s =>
    match s.phase p with
    | .idle => none
    | .head c i =>
      if i < c.bytes.length then some (setPhase s p (.lock c i)) else some (complete s p c i)
    | .lock c i =>
      if (s.fs.mem.itable k).ref < 1 then none else some (setPhase s p (.acquire c i))
    | .acquire c i =>
      if (s.fs.mem.itable k).lock.isSome then none
      else some { setPhase s p (.inside c i (inner sb fi k c i)) with
        fs := setEntry s.fs k { s.fs.mem.itable k with lock := some p }
        ledger := s.ledger++[⟨p,(s.finished p).length,(s.fs.mem.ftable fi).off,chunkBytes c i⟩] }
    | .inside c i (.step cmd next) =>
      match handle c.env cmd s.fs with
      | .ok (r,fs) => some { setPhase s p (.inside c i (next r)) with fs := fs }
      | .panic _ => none
      | .wait => none
    | .inside c i (.pure r) =>
      if (s.fs.mem.itable k).lock ≠ some p ∨ (s.fs.mem.itable k).ref < 1 then none
      else some (setPhase s p (.release c i r))
    | .release c i r =>
      some { setPhase s p (.finish c i r) with
        fs := setEntry s.fs k { s.fs.mem.itable k with lock := none } }
    | .finish c i r =>
      if r ≠ chunkLen c i then some (complete s p c i)
      else some (setPhase s p (.head c (i+chunkLen c i)))

def ending (p : Slot) (c : Call) (i : ℕ) (r : ℤ) : F ℤ := do
  endOp
  if r ≠ chunkLen c i then pure (result c i)
  else
    let j := i+chunkLen c i
    filewriteLoop sb p fi k c.addr c.bytes.length (c.bytes.length-j) j

def rest (p : Slot) : Phase → F ℤ
  | .idle => pure 0
  | .head c i => filewriteLoop sb p fi k c.addr c.bytes.length (c.bytes.length-i) i
  | .lock c i => do
    ilock sb p k
    let r ← writeLocked sb fi k (c.addr+BitVec.ofNat 64 i) (chunkLen c i)
    iunlock p k
    ending sb fi k p c i r
  | .acquire c i => do
    acquiresleep p k
    let r ← inner sb fi k c i
    iunlock p k
    ending sb fi k p c i r
  | .inside c i body => do
    let r ← body
    iunlock p k
    ending sb fi k p c i r
  | .release c i r => do
    releasesleep k
    ending sb fi k p c i r
  | .finish c i r => ending sb fi k p c i r

end Machine

section Refine
variable {sb : Superblock} {fi : Fin nfile} {k : Fin ninode} {p : Slot} {s s' : Sys}

theorem maxChunk_pos : 0 < maxChunk := by decide

theorem filewriteLoop_fuel (addr : BitVec 64) {n left left' i : ℕ} (h : n ≤ i+left)
    (h' : n ≤ i+left') :
    filewriteLoop sb p fi k addr n left i = filewriteLoop sb p fi k addr n left' i := by
  have hmax := maxChunk_pos
  induction left generalizing left' i with
  | zero =>
    cases left' with
    | zero => rfl
    | succ left' => rw [filewriteLoop, filewriteLoop, if_neg (by omega : ¬i < n)]
  | succ left ih =>
    cases left' with
    | zero => rw [filewriteLoop, filewriteLoop, if_neg (by omega : ¬i < n)]
    | succ left' =>
      rw [filewriteLoop, filewriteLoop]
      by_cases hi : i < n
      · rw [if_pos hi, if_pos hi, @ih left' (i+min (n-i) maxChunk) (by omega)
          (by omega)]
      · rw [if_neg hi, if_neg hi]

theorem rest_head {c : Call} {i : ℕ} (hi : i < c.bytes.length) :
    rest sb fi k p (.head c i) = (do beginOp; rest sb fi k p (.lock c i)) := by
  obtain ⟨left,hleft⟩ : ∃ left, c.bytes.length-i = left+1 := ⟨c.bytes.length-i-1,by omega⟩
  have hmax := maxChunk_pos
  have hlen : chunkLen c i = min (left+1) maxChunk := by rw [chunkLen, hleft]
  have hfuel : filewriteLoop sb p fi k c.addr c.bytes.length
      (c.bytes.length-(i+min (left+1) maxChunk)) (i+min (left+1) maxChunk) =
      filewriteLoop sb p fi k c.addr c.bytes.length left (i+min (left+1) maxChunk) :=
    filewriteLoop_fuel c.addr (by omega) (by omega)
  simp only [rest, hleft, filewriteLoop, if_pos hi, writeChunk, ending, bind_assoc, pure_bind, hlen,
    hfuel]
  rfl

def callOf : Phase → Option Call
  | .idle => none
  | .head c _ | .lock c _ | .acquire c _ | .inside c _ _ | .release c _ _ | .finish c _ _ => some c

/-- `code` is what is left of the call `c` after a turn of `p`, down to the result it returns. -/
def Remains (sb : Superblock) (fi : Fin nfile) (k : Fin ninode) (p : Slot) (c : Call) (s s' : Sys)
    (code : F ℤ) : Prop :=
  (callOf (s'.phase p) = some c ∧ s'.finished p = s.finished p ∧
    code = rest sb fi k p (s'.phase p)) ∨
  ∃ r, s'.phase p = .idle ∧ s'.finished p = s.finished p++[(c,r)] ∧ code = pure r

/-- One command of what is left of the call `c` is taken, in the memory of its caller, or a result
only looked at. -/
def Follows (sb : Superblock) (fi : Fin nfile) (k : Fin ninode) (p : Slot) (c : Call)
    (s s' : Sys) : Prop :=
  ∃ code, Remains sb fi k p c s s' code ∧
    ((s'.fs = s.fs ∧ code = rest sb fi k p (s.phase p)) ∨
      ∃ cmd next r, rest sb fi k p (s.phase p) = .step cmd next ∧
        handle c.env cmd s.fs = .ok (r,s'.fs) ∧ code = next r)

theorem follows_cmd {c : Call} {f : Phase} {fs : Fs} {l : List Chunk} (cmd : Cmd Mem)
    (next : Res cmd → F ℤ) (r : Res cmd) (hrest : rest sb fi k p (s.phase p) = .step cmd next)
    (hc : handle c.env cmd s.fs = .ok (r,fs)) (hf : callOf f = some c)
    (hnext : rest sb fi k p f = next r) :
    Follows sb fi k p c s { setPhase s p f with fs := fs, ledger := l } := by
  have hphase : (setPhase s p f).phase p = f := update_self _ _ _
  refine ⟨next r,.inl ⟨?_,rfl,?_⟩,.inr ⟨cmd,next,r,hrest,hc,rfl⟩⟩
  · dsimp only
    rw [hphase, hf]
  · dsimp only
    rw [hphase, hnext]

theorem remains_complete (c : Call) (i : ℕ) :
    Remains sb fi k p c s (complete s p c i) (pure (result c i)) :=
  .inr ⟨_,update_self _ _ _,update_self _ _ _,rfl⟩

/-- A turn of a process follows the code of its `filewrite`, to the result it returns. -/
theorem run_refines (h : step sb fi k (.run p) s = some s') :
    ∃ c, callOf (s.phase p) = some c ∧ Follows sb fi k p c s s' := by
  cases hp : s.phase p with
  | idle =>
    rw [step, hp] at h
    cases h
  | head c i =>
    rw [step, hp] at h
    dsimp only at h
    refine ⟨c,rfl,?_⟩
    split_ifs at h with hi
    · cases h
      exact follows_cmd .logBegin _ () (by rw [hp]; exact rest_head hi) rfl rfl rfl
    · cases h
      refine ⟨_,remains_complete c i,.inl ⟨rfl,?_⟩⟩
      rw [hp, rest, Nat.sub_eq_zero_of_le (not_lt.mp hi)]
      rfl
  | lock c i =>
    rw [step, hp] at h
    dsimp only at h
    split_ifs at h with href
    cases h
    refine ⟨c,rfl,follows_cmd (.atomic Inode (fun m => some (m.itable k,m)))
      (fun ip => (if ip.ref < 1 then kpanic "ilock" else do
        acquiresleep p k
        loadInode sb k) >>= fun _ =>
          (writeLocked sb fi k (c.addr+BitVec.ofNat 64 i) (chunkLen c i) >>= fun r =>
            iunlock p k >>= fun _ => ending sb fi k p c i r)) (s.fs.mem.itable k)
      (by rw [hp]; rfl) rfl rfl ?_⟩
    simp only [rest, if_neg href, inner, bind_assoc]
  | acquire c i =>
    rw [step, hp] at h
    dsimp only at h
    split_ifs at h with hlock
    cases h
    refine ⟨c,rfl,follows_cmd (.atomic Unit (fun m => if (m.itable k).lock.isSome then none
      else some ((),setInode m k { m.itable k with lock := some p }))) _ ()
      (by rw [hp]; rfl) ?_ rfl rfl⟩
    simp only [handle, if_neg hlock]
    rfl
  | inside c i body =>
    refine ⟨c,rfl,?_⟩
    cases body with
    | pure r =>
      rw [step, hp] at h
      dsimp only at h
      split_ifs at h with hlock
      cases h
      refine follows_cmd (.atomic Inode (fun m => some (m.itable k,m)))
        (fun ip => (if ip.lock ≠ some p ∨ ip.ref < 1 then kpanic "iunlock"
          else releasesleep k) >>= fun _ => ending sb fi k p c i r) (s.fs.mem.itable k)
        (by rw [hp]; rfl) rfl rfl ?_
      simp only [rest, if_neg hlock]
    | step cmd next =>
      rw [step, hp] at h
      dsimp only at h
      cases hc : handle c.env cmd s.fs with
      | ok rf =>
        rw [hc] at h
        cases h
        exact follows_cmd cmd _ rf.1 (by rw [hp]; rfl) hc rfl rfl
      | panic msg =>
        rw [hc] at h
        cases h
      | wait =>
        rw [hc] at h
        cases h
  | release c i r =>
    rw [step, hp] at h
    cases h
    exact ⟨c,rfl,follows_cmd (.atomic Unit (fun m =>
      some ((),setInode m k { m.itable k with lock := none }))) _ () (by rw [hp]; rfl) rfl rfl rfl⟩
  | finish c i r =>
    rw [step, hp] at h
    dsimp only at h
    refine ⟨c,rfl,?_⟩
    split_ifs at h with hr
    · cases h
      refine ⟨_,remains_complete c i,.inr ⟨.logEnd,_,false,by rw [hp]; rfl,rfl,?_⟩⟩
      dsimp only
      rw [if_pos hr]
      rfl
    · cases h
      refine follows_cmd .logEnd _ false (by rw [hp]; rfl) rfl rfl ?_
      simp only [rest, if_neg hr]
      rfl

end Refine

/-- The inode in entry `k` as the kernel has it, in memory or still on disk. -/
def inodeOf (sb : Superblock) (k : Fin ninode) (fs : Fs) : Dinode :=
  if (fs.mem.itable k).valid then (fs.mem.itable k).copy
  else diskInode sb fs.blocks (fs.mem.itable k).inum

def fileBytes (sb : Superblock) (k : Fin ninode) (fs : Fs) : List UInt8 :=
  bytesOf fs.blocks (inodeOf sb k fs)

/-- A file system in order in which entry `k` is a file with bytes `a`, and `fi` is at
`off` of it. -/
structure Holds (sb : Superblock) (fi : Fin nfile) (k : Fin ninode) (a : List UInt8) (off : ℕ)
    (D : Inodes) (own : Owners) (fs : Fs) : Prop where
  stored : Stored sb D own fs.blocks
  inum_lt : (fs.mem.itable k).inum < sb.ninodes
  inode : inodeOf sb k fs = D (fs.mem.itable k).inum
  type_ne : (D (fs.mem.itable k).inum).type ≠ 0
  ref : 0 < (fs.mem.itable k).ref
  bytes : fileBytes sb k fs = a
  off_eq : (fs.mem.ftable fi).off = off
  off_lt : off < 2^32

section Inside
variable {sb : Superblock} {fi : Fin nfile} {k : Fin ninode} {a : List UInt8} {off : ℕ}
variable {D : Inodes} {own : Owners} {fs : Fs} {env : Env}

def loaded (sb : Superblock) (k : Fin ninode) (fs : Fs) : Fs :=
  setEntry fs k { fs.mem.itable k with valid := true, copy := inodeOf sb k fs }

theorem prompt_loadInode : Every Prompt (loadInode sb k) := by
  rw [loadInode]
  apply every_bind (every_prompt_readMem _)
  intro ip
  apply every_ite (every_pure _)
  apply every_bind (every_perform trivial)
  intro data
  apply every_bind (every_prompt_writeMem _)
  intro _
  apply every_bind (every_perform trivial)
  intro _
  apply every_bind (every_prompt_writeMem _)
  intro _
  apply every_bind (every_prompt_readMem _)
  exact fun ip => every_ite (every_kpanic trivial) (every_pure _)

theorem exec_loadInode (h : Holds sb fi k a off D own fs) :
    exec (handle env) (loadInode sb k) fs = .ok ((),loaded sb k fs) := by
  have hwp : wp (handle env) (fun _ => False) (loadInode sb k)
      (fun _ fs' => fs' = loaded sb k fs) fs := by
    rw [loadInode, wp_bind, wp_getInode]
    apply wp_ite
    · intro hv
      rw [wp_pure, loaded, inodeOf, if_pos hv, ← hv]
      simp [setEntry, setMem, setInode]
    · intro hv
      have hdisk : inodeOf sb k fs = getDinode (fs.blocks (iblock sb (fs.mem.itable k).inum))
          ((fs.mem.itable k).inum%ipb) := if_neg hv
      simp only [wp_bind, wp_bread, modifyCopy, wp_modifyInode, wp_brelse, wp_getInode,
        setEntry_self, setEntry_setEntry, ← hdisk]
      rw [if_neg (by rw [h.inode]; exact h.type_ne), wp_pure]
      rfl
  obtain ⟨_,fs',hexec,rfl⟩ :=
    exec_ok hwp (exec_not_wait (prompt_not_wait env) prompt_loadInode fs)
  exact hexec

theorem open_loaded (h : Holds sb fi k a off D own fs) :
    Open sb D own (loaded sb k fs) k (fs.mem.itable k).inum where
  stored := h.stored
  inum_lt := h.inum_lt
  type_ne := h.type_ne
  copy := by rw [loaded, setEntry_self]; exact h.inode

theorem gives_chunk (c : Call) {i : ℕ} (hi : i ≤ c.bytes.length) :
    Gives c.env (.user (c.addr+BitVec.ofNat 64 i)) (chunkLen c i) (chunkBytes c i) := by
  have hlen : chunkLen c i ≤ c.bytes.length-i := Nat.min_le_left _ _
  constructor
  · rw [chunkBytes, List.length_take, List.length_drop]
    omega
  · intro tot m s hle
    have haddr : c.addr+BitVec.ofNat 64 i+BitVec.ofNat 64 tot =
        c.addr+BitVec.ofNat 64 (i+tot) := by
      rw [BitVec.ofNat_add, BitVec.add_assoc]
    have hread := c.readable (i+tot) m (by omega)
    refine (exec_perform _ s).trans ?_
    simp only [handle, haddr, hread, chunkBytes, List.drop_take, List.drop_drop, List.take_take,
      Nat.min_eq_left (by omega : m ≤ chunkLen c i-tot)]
    rfl

theorem exec_inner (hsb : Layout sb) (h : Holds sb fi k a off D own fs) (c : Call) {i : ℕ}
    (hi : i < c.bytes.length) :
    ∃ r fs', exec (handle c.env) (inner sb fi k c i) fs = .ok (r,fs') ∧
      (r = chunkLen c i → off ≤ a.length ∧
        ∃ D' own', Holds sb fi k (overwrite a off (chunkBytes c i)) (off+chunkLen c i) D'
          own' fs') := by
  have hmax := maxChunk_pos
  have hpos : 0 < chunkLen c i := by
    rw [chunkLen]
    omega
  have hn : chunkLen c i < 2^32 :=
    lt_of_le_of_lt (Nat.min_le_right _ _) (by decide : maxChunk < 2^32)
  have hsize : a.length = (D (fs.mem.itable k).inum).size.toNat := by
    rw [← h.bytes, fileBytes, length_bytesOf, h.inode]
  have hgives := gives_chunk c hi.le
  have hinum : ((loaded sb k fs).mem.itable k).inum = (fs.mem.itable k).inum := by
    rw [loaded, setEntry_self]
  obtain ⟨hbad,hgood⟩ := writei_spec hsb (open_loaded h) hinum h.off_lt hn hgives
  have hoff : ((loaded sb k fs).mem.ftable fi).off = off := h.off_eq
  rw [inner, exec_bind_ok (exec_loadInode h), writeLocked, getFile, exec_bind_ok (exec_readMem _),
    hoff]
  by_cases hrefused : (D (fs.mem.itable k).inum).size.toNat < off ∨ 2^32 ≤ off+chunkLen c i ∨
      maxfile*bsize < off+chunkLen c i
  · rw [exec_bind_ok (hbad hrefused), advance, exec_bind_ok (exec_writeMem _)]
    exact ⟨-1,_,rfl,fun hr => by omega⟩
  · obtain ⟨t,D',own',s₁,hexec,hle,-,hrep⟩ := hgood hrefused
    rw [exec_bind_ok hexec, advance, exec_bind_ok (exec_writeMem _)]
    refine ⟨t,_,rfl,fun ht => ⟨by omega,D',own',?_⟩⟩
    obtain rfl : t = chunkLen c i := Nat.cast_inj.mp ht
    rw [if_pos (by omega)]
    have hentry : s₁.mem.itable k = { fs.mem.itable k with
        valid := true
        copy := D' (fs.mem.itable k).inum } := by
      rw [hrep.mem, withCopy_itable_self, loaded, setEntry_self]
    have hfile : (s₁.mem.ftable fi).off = off := by
      rw [hrep.mem]
      exact hoff
    have hinode : inodeOf sb k (setMem s₁ (setFile s₁.mem fi { s₁.mem.ftable fi with
        off := ((s₁.mem.ftable fi).off+(chunkLen c i : ℤ).toNat)%2^32 })) =
        D' (fs.mem.itable k).inum := by
      simp [inodeOf, setMem, setFile, hentry]
    have hmaxfile : maxfile*bsize < 2^32 := by decide
    constructor
    · exact hrep.opened.stored
    · simp only [setMem, setFile, hentry]
      exact h.inum_lt
    · rw [hinode]
      simp only [setMem, setFile, hentry]
    · simp only [setMem, setFile, hentry]
      exact hrep.opened.type_ne
    · simp only [setMem, setFile, hentry]
      exact h.ref
    · have htake : (chunkBytes c i).take (chunkLen c i) = chunkBytes c i :=
        List.take_of_length_le hgives.1.le
      have hcontent := hrep.content
      rw [htake, ← h.inode] at hcontent
      rw [fileBytes, hinode]
      exact hcontent.trans (by rw [← h.bytes]; rfl)
    · simp only [setMem, setFile, update_self, hfile, Int.toNat_natCast]
      exact Nat.mod_eq_of_lt (by omega)
    · omega

end Inside

/-- A command that leaves the lock and the references of entry `k` alone. -/
def KeepsLock (k : Fin ninode) : Cmd Mem → Prop
  | .atomic _ f => ∀ m r m', f m = some (r,m') →
    (m'.itable k).lock = (m.itable k).lock ∧ (m'.itable k).ref = (m.itable k).ref
  | _ => True

section KeepsLock
variable {sb : Superblock} {fi : Fin nfile} {k : Fin ninode}

theorem keepsLock_handle {env : Env} {cmd : Cmd Mem} {fs fs' : Fs} {r : Res cmd}
    (hc : KeepsLock k cmd) (h : handle env cmd fs = .ok (r,fs')) :
    (fs'.mem.itable k).lock = (fs.mem.itable k).lock ∧
      (fs'.mem.itable k).ref = (fs.mem.itable k).ref := by
  cases cmd with
  | panic msg => cases h
  | atomic β f =>
    simp only [handle] at h
    cases hf : f fs.mem with
    | none =>
      rw [hf] at h
      cases h
    | some rm =>
      rw [hf] at h
      cases h
      exact hc fs.mem _ rm.2 hf
  | _ =>
    cases h
    exact ⟨rfl,rfl⟩

theorem keepsLock_readMem {β : Type} (f : Mem → β) : Every (KeepsLock k) (readMem f) :=
  every_perform (fun m r m' h => by cases h; exact ⟨rfl,rfl⟩)

theorem keepsLock_modifyInode {f : Inode → Inode} (hlock : ∀ ip, (f ip).lock = ip.lock)
    (href : ∀ ip, (f ip).ref = ip.ref) : Every (KeepsLock k) (modifyInode k f) :=
  every_perform (fun m r m' h => by
    cases h
    simp [setInode, hlock, href])

theorem keepsLock_local (c : Cmd Mem) (hc : Local k c) : KeepsLock k c := by
  cases c with
  | atomic β f =>
    intro m r m' h
    obtain ⟨r',d,hf⟩ := hc m
    rw [hf] at h
    cases h
    exact ⟨(withCopy_fields m k k d).2.2.2,(withCopy_fields m k k d).1⟩
  | _ => trivial

theorem keepsLock_loadInode : Every (KeepsLock k) (loadInode sb k) := by
  rw [loadInode]
  apply every_bind (keepsLock_readMem _)
  intro ip
  apply every_ite (every_pure _)
  apply every_bind (every_perform trivial)
  intro data
  refine every_bind (keepsLock_modifyInode ?_ ?_) (fun _ => ?_)
  · exact fun _ => rfl
  · exact fun _ => rfl
  apply every_bind (every_perform trivial)
  intro _
  refine every_bind (keepsLock_modifyInode ?_ ?_) (fun _ => ?_)
  · exact fun _ => rfl
  · exact fun _ => rfl
  apply every_bind (keepsLock_readMem _)
  exact fun ip => every_ite (every_kpanic trivial) (every_pure _)

theorem keepsLock_inner (c : Call) (i : ℕ) : Every (KeepsLock k) (inner sb fi k c i) := by
  rw [inner]
  apply every_bind keepsLock_loadInode
  intro _
  rw [writeLocked]
  apply every_bind (keepsLock_readMem _)
  intro f
  apply every_bind (every_mono keepsLock_local (local_writei _ _ _))
  intro r
  apply every_bind
  · refine every_perform (fun m r' m' h => ?_)
    cases h
    split_ifs <;> exact ⟨rfl,rfl⟩
  · exact fun _ => every_pure _

end KeepsLock

end GreenOS.SharedWrites
