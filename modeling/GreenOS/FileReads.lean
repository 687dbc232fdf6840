import GreenOS.LoggedFiles
import GreenOS.StreamReads

/-!
# Reads of an open file

`fileread` gives its length, a signed number, to a pipe, to the console or to an
inode. The first two count up to it and so read nothing when it is negative.
`readi` takes it for an unsigned number and cuts it to the size of the file: a
negative length reads what is left of the file, unless its sum with the offset
wraps around.
-/

namespace GreenOS.FileReads
open Programs ProgramTraces ByteBlock LogCode DiskLayout
open ProcTable RingBuffer
open BufferSeq (Env quiet)
open FsMemory FsCode FsDirect FsOwned
open FsMap FsNames FsContent
open FsState FsTable FileBytes WriteChunk LoggedFiles
open FsLogged (Body Unlogged body_of_unlogged silent_of_unlogged)
open PipeMachine (Pipe)
open ConsoleLine (Cons Outcome Result ctrlD newline)

/-- What a reader of a pipe or of the console finds each time it looks for bytes: whether
it has been killed, and the stream. -/
structure Seen where
  pipe : List (Bool × Pipe)
  cons : List (Bool × Cons)

def ndev : ℕ := 10

def consoleMajor : ℤ := 1

section Code

def asleep : F ℤ := atomic (fun _ => none)

def pipeCopy (addr : BitVec 64) : ℕ → ℕ → Pipe → F (ℤ × Pipe)
  | 0, i, pi => pure (i,pi)
  | left+1, i, pi =>
    if pi.nread = pi.nwrite then pure (i,pi)
    else do
      let ok ← copyout (addr+BitVec.ofNat 64 i) [pi.data (PipeMachine.index pi.nread)]
      if ok then pipeCopy addr left (i+1) { pi with nread := pi.nread+1 }
      else pure (if i = 0 then -1 else i,pi)

def piperead (addr : BitVec 64) (n : ℤ) : List (Bool × Pipe) → F ℤ
  | [] => asleep
  | (killed,pi)::seen =>
    if pi.nread = pi.nwrite ∧ pi.writeopen = true then
      if killed then pure (-1) else piperead addr n seen
    else do
      let out ← pipeCopy addr n.toNat 0 pi
      pure out.1

def consoleCopy (killed : Bool) (addr : BitVec 64) (target : ℕ) :
    ℕ → List UInt8 → Cons → F (Outcome × List UInt8 × Cons)
  | 0, bytes, c => pure (.finished (.returned target bytes),[],c)
  | n+1, bytes, c =>
    if c.r = c.w then
      pure (if killed then .finished (.killed bytes) else .waiting (n+1) bytes,[],c)
    else
      let b := c.buf (index c.r)
      let c' := { c with r := c.r+1 }
      if b = ctrlD then
        if n+1 < target then
          pure (.finished (.returned (target-(n+1)) bytes),[],{ c' with r := c'.r-1 })
        else pure (.finished (.returned (target-(n+1)) bytes),[b],c')
      else do
        let ok ← copyout (addr+BitVec.ofNat 64 (target-(n+1))) [b]
        if ok then
          if b = newline then pure (.finished (.returned (target-n) (bytes++[b])),[b],c')
          else
            let out ← consoleCopy killed addr target n (bytes++[b]) c'
            pure (out.1,b::out.2.1,out.2.2)
        else pure (.finished (.returned (target-(n+1)) bytes),[b],c')

def consoleWait (addr : BitVec 64) (target : ℕ) : List (Bool × Cons) → ℕ → List UInt8 → F ℤ
  | [], _, _ => asleep
  | (killed,c)::seen, n, bytes => do
    let out ← consoleCopy killed addr target n bytes c
    match out.1 with
    | .waiting n bytes => consoleWait addr target seen n bytes
    | .finished (.returned count _) => pure count
    | .finished (.killed _) => pure (-1)

def consoleread (addr : BitVec 64) (n : ℤ) (seen : List (Bool × Cons)) : F ℤ :=
  if 0 < n then consoleWait addr n.toNat seen n.toNat [] else pure 0

variable (sb : Superblock) (p : Slot) (fi : Fin nfile)

/-- What `fileread` does while it holds the lock of inode `k`. The length becomes
unsigned. -/
def readLocked (k : Fin ninode) (addr : BitVec 64) (n : ℤ) : F ℤ := do
  let f ← getFile fi
  let out ← readi sb k (.user addr) f.off (n%2^32).toNat
  advance fi out.1
  pure out.1

def fileread (seen : Seen) (addr : BitVec 64) (n : ℤ) : F ℤ := do
  let f ← getFile fi
  if f.readable = false then pure (-1)
  else match f.type, f.ip with
  | .pipe, _ => piperead addr n seen.pipe
  | .device, _ =>
    if f.major.toInt < 0 ∨ (ndev : ℤ) ≤ f.major.toInt ∨ f.major.toInt ≠ consoleMajor then pure (-1)
    else consoleread addr n seen.cons
  | .inode, some k => do
    ilock sb p k
    let r ← readLocked sb fi k addr n
    iunlock p k
    pure r
  | _, _ => kpanic "fileread"

end Code

def stores : Cmd Mem → List (BitVec 64)
  | .copyout dst bytes => (List.range bytes.length).map (fun j => dst+BitVec.ofNat 64 j)
  | _ => []

section Unlogged

theorem unlogged_pipeCopy (addr : BitVec 64) (left i : ℕ) (pi : Pipe) :
    Every Unlogged (pipeCopy addr left i pi) := by
  induction left generalizing i pi with
  | zero => exact every_pure _
  | succ left ih =>
    rw [pipeCopy]
    apply every_ite (every_pure _)
    apply every_bind (every_perform trivial)
    intro (ok : Bool)
    exact every_ite (ih _ _) (every_pure _)

theorem unlogged_piperead (addr : BitVec 64) (n : ℤ) (seen : List (Bool × Pipe)) :
    Every Unlogged (piperead addr n seen) := by
  induction seen with
  | nil => exact every_perform trivial
  | cons x seen ih =>
    rw [piperead]
    apply every_ite (every_ite (every_pure _) ih)
    exact every_bind (unlogged_pipeCopy _ _ _ _) (fun _ => every_pure _)

theorem unlogged_consoleCopy (killed : Bool) (addr : BitVec 64) (target n : ℕ)
    (bytes : List UInt8) (c : Cons) :
    Every Unlogged (consoleCopy killed addr target n bytes c) := by
  induction n generalizing bytes c with
  | zero => exact every_pure _
  | succ n ih =>
    rw [consoleCopy]
    apply every_ite (every_pure _)
    apply every_ite (every_ite (every_pure _) (every_pure _))
    apply every_bind (every_perform trivial)
    intro (ok : Bool)
    refine every_ite (every_ite (every_pure _) ?_) (every_pure _)
    exact every_bind (ih _ _) (fun _ => every_pure _)

theorem unlogged_consoleread (addr : BitVec 64) (n : ℤ) (seen : List (Bool × Cons)) :
    Every Unlogged (consoleread addr n seen) := by
  have hwait : ∀ left bytes, Every Unlogged (consoleWait addr n.toNat seen left bytes) := by
    induction seen with
    | nil => exact fun _ _ => every_perform trivial
    | cons x seen ih =>
      intro left bytes
      rw [consoleWait]
      apply every_bind (unlogged_consoleCopy _ _ _ _ _ _)
      intro out
      split
      · exact ih _ _
      · exact every_pure _
      · exact every_pure _
  exact every_ite (hwait _ _) (every_pure _)

end Unlogged

section Streams
variable {env : Env} {E : String → Prop} {s : Fs} {addr : BitVec 64}

variable {Q : ℤ → Fs → List (BitVec 64) → Prop}

theorem wpt_copyout {dst : BitVec 64} {bytes : List UInt8} {Q : Bool → Fs → List (BitVec 64) → Prop}
    (hQ : ∀ ok l, l.length = bytes.length → Q ok s l) : wpt (handle env) stores E
    (copyout dst bytes) Q s := by
  rw [wpt, wp_def]
  change Q (env.copyout dst bytes) s (stores (.copyout dst bytes)++[])
  exact hQ _ _ (by simp [stores])

theorem wpt_asleep : wpt (handle env) stores E asleep Q s :=
  (wp_def _ _ _).mpr trivial

theorem wpt_pipeCopy (left i : ℕ) (pi : Pipe) {Q : ℤ × Pipe → Fs → List (BitVec 64) → Prop}
    (hQ : ∀ r pi' l, r ≤ ↑(i+left) → l.length ≤ left → Q (r,pi') s l) :
    wpt (handle env) stores E (pipeCopy addr left i pi) Q s := by
  induction left generalizing i pi Q with
  | zero => exact wpt_pure.mpr (hQ i pi [] (by omega) (Nat.zero_le _))
  | succ left ih =>
    rw [pipeCopy]
    apply wpt_ite
    · exact fun _ => wpt_pure.mpr (hQ i pi [] (by omega) (Nat.zero_le _))
    · intro _
      rw [wpt_bind]
      apply wpt_copyout
      intro ok l₁ hl₁
      simp only [List.length_singleton] at hl₁
      apply wpt_ite
      · intro _
        apply ih
        intro r pi' l hr hl
        exact hQ r pi' _ (by omega) (by rw [List.length_append]; omega)
      · intro _
        rw [wpt_pure, List.append_nil]
        refine hQ _ pi _ ?_ (by omega)
        split_ifs <;> omega

theorem wpt_piperead (n : ℤ) (seen : List (Bool × Pipe))
    (hQ : ∀ r l, r ≤ max n 0 → l.length ≤ n.toNat → Q r s l) :
    wpt (handle env) stores E (piperead addr n seen) Q s := by
  induction seen with
  | nil => exact wpt_asleep
  | cons look seen ih =>
    obtain ⟨killed,pi⟩ := look
    rw [piperead]
    apply wpt_ite
    · intro _
      apply wpt_ite
      · exact fun _ => wpt_pure.mpr (hQ (-1) [] (by omega) (Nat.zero_le _))
      · exact fun _ => ih
    · intro _
      rw [wpt_bind]
      apply wpt_pipeCopy
      intro r pi' l hr hl
      rw [wpt_pure, List.append_nil]
      exact hQ r l (by omega) hl

/-- A run of the loop of `consoleread` with `n` bytes to go stored no more than those, and none
of them is counted as still to go. -/
def Counts (target n : ℕ) (stored : ℕ) : Outcome → Prop
  | .waiting m _ => stored+m ≤ n
  | .finished (.returned count _) => stored ≤ n ∧ count ≤ target
  | .finished (.killed _) => stored ≤ n

theorem counts_succ {target n stored : ℕ} {o : Outcome} (h : Counts target n stored o) :
    Counts target (n+1) (stored+1) o := by
  cases o with
  | waiting m bytes =>
    have hle : stored+m ≤ n := h
    exact show stored+1+m ≤ n+1 by omega
  | finished result =>
    cases result with
    | returned count bytes => exact ⟨Nat.succ_le_succ h.1,h.2⟩
    | killed bytes => exact Nat.succ_le_succ h

theorem wpt_consoleCopy (killed : Bool) (target n : ℕ) (bytes : List UInt8) (c : Cons)
    {Q : Outcome × List UInt8 × Cons → Fs → List (BitVec 64) → Prop}
    (hQ : ∀ o taken c' l, Counts target n l.length o → Q (o,taken,c') s l) :
    wpt (handle env) stores E (consoleCopy killed addr target n bytes c) Q s := by
  induction n generalizing bytes c Q with
  | zero => exact wpt_pure.mpr (hQ _ _ _ [] ⟨le_refl _,le_refl _⟩)
  | succ n ih =>
    have hdone : ∀ (count : ℕ) bytes l, l.length ≤ n+1 → count ≤ target →
        ∀ taken c', Q (.finished (.returned count bytes),taken,c') s l :=
      fun count bytes l hl hle taken c' => hQ _ taken c' l ⟨hl,hle⟩
    rw [consoleCopy]
    apply wpt_ite
    · intro _
      refine wpt_pure.mpr (hQ _ _ _ [] ?_)
      cases killed with
      | true => exact Nat.zero_le _
      | false => exact le_of_eq (Nat.zero_add _)
    · intro _
      dsimp only
      apply wpt_ite
      · intro _
        apply wpt_ite
        · exact fun _ => wpt_pure.mpr (hdone _ _ [] (Nat.zero_le _) (Nat.sub_le _ _) _ _)
        · exact fun _ => wpt_pure.mpr (hdone _ _ [] (Nat.zero_le _) (Nat.sub_le _ _) _ _)
      · intro _
        rw [wpt_bind]
        apply wpt_copyout
        intro ok l₁ hl₁
        simp only [List.length_singleton] at hl₁
        have hone : ∀ (count : ℕ) bytes, count ≤ target →
            ∀ taken c', Q (.finished (.returned count bytes),taken,c') s (l₁++[]) :=
              fun count bytes hle taken c' =>
          hdone count bytes _ (by rw [List.append_nil]; omega) hle taken c'
        apply wpt_ite
        · intro _
          apply wpt_ite
          · exact fun _ => wpt_pure.mpr (hone _ _ (Nat.sub_le _ _) _ _)
          · intro _
            rw [wpt_bind]
            apply ih
            intro o taken c' l hcounts
            rw [wpt_pure, List.append_nil]
            refine hQ _ _ _ _ ?_
            rw [List.length_append, hl₁, Nat.add_comm 1]
            exact counts_succ hcounts
        · exact fun _ => wpt_pure.mpr (hone _ _ (Nat.sub_le _ _) _ _)

theorem wpt_consoleWait (target : ℕ) (seen : List (Bool × Cons)) (n : ℕ) (bytes : List UInt8)
    (hQ : ∀ (r : ℤ) l, r ≤ target → l.length ≤ n → Q r s l) :
    wpt (handle env) stores E (consoleWait addr target seen n bytes) Q s := by
  induction seen generalizing n bytes Q with
  | nil => exact wpt_asleep
  | cons look seen ih =>
    obtain ⟨killed,c⟩ := look
    rw [consoleWait, wpt_bind]
    apply wpt_consoleCopy
    intro o taken c' l hcounts
    cases o with
    | waiting m bytes' =>
      have hle : l.length+m ≤ n := hcounts
      apply ih
      intro r l' hr hl'
      exact hQ r _ hr (by rw [List.length_append]; omega)
    | finished result =>
      cases result with
      | returned count bytes' =>
        obtain ⟨hl,hcount⟩ := hcounts
        rw [wpt_pure, List.append_nil]
        exact hQ count l (by omega) hl
      | killed bytes' =>
        rw [wpt_pure, List.append_nil]
        exact hQ (-1) l (by omega) hcounts

theorem wpt_consoleread (n : ℤ) (seen : List (Bool × Cons))
    (hQ : ∀ r l, r ≤ max n 0 → l.length ≤ n.toNat → Q r s l) :
    wpt (handle env) stores E (consoleread addr n seen) Q s := by
  rw [consoleread]
  apply wpt_ite
  · intro hn
    apply wpt_consoleWait
    exact fun r l hr hl => hQ r l (by omega) hl
  · exact fun hn => wpt_pure.mpr (hQ 0 [] (by omega) (Nat.zero_le _))

end Streams

abbrev Private (c : Cmd Mem) : Prop := stores c = []

section Inode
variable {sb : Superblock} {k : Fin ninode} {i : ℕ} {D : Inodes} {own : Owners} {X : ℕ → Prop}
variable {s : Fs} {env : Env} {E : String → Prop} {p : Slot} {fi : Fin nfile} {addr : BitVec 64}

theorem private_inner {c : Cmd Mem} (h : Inner k c) : Private c := by
  cases c with
  | copyout dst bytes => exact h.elim
  | _ => rfl

theorem wp_any {α : Type} {prog : F α} (hE : ∀ msg, E msg) {Q : α → Fs → Prop}
    (hQ : ∀ a s', Q a s') :
    wp (handle env) E prog Q s := by
  rw [wp_def]
  cases exec (handle env) prog s with
  | ok r => exact hQ r.1 r.2
  | panic msg => exact hE msg
  | wait => trivial

theorem private_bmap (bn : ℕ) : Every Private (bmap sb k bn) :=
  every_mono (fun _ => private_inner) (inner_bmap bn)

theorem private_readMem {β : Type} (f : Mem → β) : Every Private (readMem f) := every_perform rfl

theorem private_writeMem (f : Mem → Mem) : Every Private (writeMem f) := every_perform rfl

theorem private_bread (b : ℕ) : Every Private (bread b) := every_perform rfl

theorem private_brelse (b : ℕ) : Every Private (brelse b) := every_perform rfl

theorem private_ilock : Every Private (ilock sb p k) := by
  rw [ilock]
  apply every_bind (private_readMem _)
  intro ip
  refine every_ite (every_kpanic rfl) ⟨rfl,fun _ => ?_⟩
  apply every_bind (private_readMem _)
  intro ip
  refine every_ite (every_pure _) ⟨rfl,fun data => ?_⟩
  apply every_bind (private_writeMem _)
  intro _
  refine ⟨rfl,fun _ => ?_⟩
  apply every_bind (private_writeMem _)
  intro _
  apply every_bind (private_readMem _)
  exact fun ip => every_ite (every_kpanic rfl) (every_pure _)

theorem private_iunlock : Every Private (iunlock p k) :=
  every_bind (private_readMem _) (fun _ => every_ite (every_kpanic rfl) (private_writeMem _))

variable {Q : ℤ × List UInt8 → Fs → List (BitVec 64) → Prop} {dst : Dst} {n : ℕ}

theorem wpt_readLoop_length (hE : ∀ msg, E msg) (n left tot off : ℕ) (acc : List UInt8)
    (hQ : ∀ out s' l, l.length ≤ n-tot → Q out s' l) :
    wpt (handle env) stores E (readLoop sb k (.user addr) n left tot off acc) Q s := by
  induction left generalizing tot off acc s Q with
  | zero => exact wpt_pure.mpr (hQ _ _ _ (Nat.zero_le _))
  | succ left ih =>
    rw [readLoop]
    apply wpt_ite
    · intro hlt
      rw [wpt_silent_bind (private_bmap _)]
      refine wp_any hE fun a s₁ => ?_
      apply wpt_ite
      · exact fun _ => wpt_pure.mpr (hQ _ _ _ (Nat.zero_le _))
      · intro _
        rw [wpt_silent_bind (private_bread a), wp_bread]
        dsimp only
        obtain ⟨m,hm⟩ : ∃ m, m = min (n-tot) (bsize-off%bsize) := ⟨_,rfl⟩
        rw [← hm, wpt_bind]
        apply wpt_copyout
        intro ok l hl
        simp only [window, List.length_map, List.length_range] at hl
        rw [wpt_silent_bind (private_brelse a), wp_brelse]
        apply wpt_ite
        · intro _
          apply ih
          intro out s' l' hl'
          exact hQ out s' _ (by rw [List.length_append]; omega)
        · intro _
          rw [wpt_pure, List.append_nil]
          exact hQ _ _ _ (by omega)
    · exact fun _ => wpt_pure.mpr (hQ _ _ _ (Nat.zero_le _))

theorem wpt_readi_length (hE : ∀ msg, E msg) (off n : ℕ)
    (hQ : ∀ out s' l, l.length ≤ n → Q out s' l) :
    wpt (handle env) stores E (readi sb k (.user addr) off n) Q s := by
  rw [readi, getInode, wpt_silent_bind (private_readMem _), wp_readMem]
  apply wpt_ite
  · exact fun _ => wpt_pure.mpr (hQ _ _ _ (Nat.zero_le _))
  · intro hin
    dsimp only
    apply wpt_readLoop_length hE
    intro out s' l hl
    exact hQ out s' l (by split_ifs at hl <;> omega)

end Inode

/-- What a read of `n` bytes may do: it returns and stores no more than those, and the offset
of an inode's file moves by what it returns. -/
structure Bounded (s : Fs) (fi : Fin nfile) (n r : ℤ) (s' : Fs) (l : List (BitVec 64)) : Prop where
  result : r ≤ max n 0
  stored : (l.toFinset.card : ℤ) ≤ max n 0
  offset : (s.mem.ftable fi).type = .inode → ((s'.mem.ftable fi).off : ℤ) =
    (s.mem.ftable fi).off+max r 0

/-- File `fi` is open; if it is an inode's, the file has no holes and nobody has the inode
locked. -/
structure OpenFile (sb : Superblock) (D : Inodes) (s : Fs) (fi : Fin nfile) : Prop where
  type_ne : (s.mem.ftable fi).type ≠ .none
  off_lt : (s.mem.ftable fi).off < 2^32
  inode : (s.mem.ftable fi).type = .inode → ∃ k, (s.mem.ftable fi).ip = some k ∧
    0 < (s.mem.itable k).ref ∧
    (s.mem.itable k).lock = none ∧ (s.mem.itable k).inum < sb.ninodes ∧
    (D (s.mem.itable k).inum).type ≠ 0 ∧ NoHoles s.blocks (D (s.mem.itable k).inum)

/-- A negative length that `readi` takes for a large one: the file is an inode's, the sum of the
length with the offset does not wrap and the offset is inside the file. -/
def Overruns (D : Inodes) (s : Fs) (fi : Fin nfile) (n : ℤ) : Prop :=
  (s.mem.ftable fi).readable = true ∧ (s.mem.ftable fi).type = .inode ∧ n < 0 ∧
    (s.mem.ftable fi).off < -n ∧
    ∃ k, (s.mem.ftable fi).ip = some k ∧
      (s.mem.ftable fi).off < (D (s.mem.itable k).inum).size.toNat

section Inode
variable {sb : Superblock} {k : Fin ninode} {i : ℕ} {D : Inodes} {own : Owners} {X : ℕ → Prop}
variable {s : Fs} {env : Env} {E : String → Prop} {p : Slot} {fi : Fin nfile} {addr : BitVec 64}
    {n : ℤ} {off : ℕ}

/-- What `readi` has done when it returned `r` after it stored to the addresses `l`. -/
structure ReadIn (k : Fin ninode) (s : Fs) (off : ℕ) (n r : ℤ) (s' : Fs)
    (l : List (BitVec 64)) : Prop where
  mem : ∃ d, s'.mem = withCopy s.mem k d
  result : r ≤ max n 0
  stored : l.length ≤ n.toNat
  offset : off+r < 2^32

theorem wpt_readi_within (hsb : Layout sb) (h : Open sb D own s k i) (hoff : off < 2^32)
    (hn : 0 ≤ n) (hn' : n < 2^31) :
    wpt (handle env) stores E (readi sb k (.user addr) off (n%2^32).toNat)
      (fun out s' l => ReadIn k s off n out.1 s' l) s := by
  have hmod : (n%2^32).toNat = n.toNat := by omega
  have hread : wp (handle env) E (readi sb k (.user addr) off (n%2^32).toNat)
      (fun out s' => (∃ d, s'.mem = withCopy s.mem k d) ∧ out.1 ≤ max n 0 ∧
        off+out.1 < 2^32) s := by
    apply wp_readi hsb h
    · exact fun _ => ⟨⟨_,(withCopy_self rfl).symm⟩,le_max_right _ _,by simpa using hoff⟩
    · intro m t r D' own' s' hm _ hle hto hr
      have ht := hto.le
      have hsize := (D i).size.isLt
      refine ⟨⟨_,hto.grown.mem⟩,?_⟩
      constructor
      · dsimp only
        omega
      · dsimp only
        omega
  have hlen : wpt (handle env) stores (fun _ => True) (readi sb k (.user addr) off (n%2^32).toNat)
      (fun _ _ l => l.length ≤ (n%2^32).toNat) s := wpt_readi_length (fun _ => trivial) _ _
        (fun _ _ _ hl => hl)
  apply wpt_mono (wpt_and hread hlen)
  rintro out s' l ⟨⟨hmem,hresult,hoffset⟩,hl⟩
  exact ⟨hmem,hresult,hmod ▸ hl,hoffset⟩

theorem wpt_readi_nothing (h : Open sb D own s k i) (hoff : off < 2^32)
    (hn : n < 0) (hn' : -2^31 ≤ n) (hnot : off < -n → (D i).size.toNat ≤ off) :
    wpt (handle env) stores E (readi sb k (.user addr) off (n%2^32).toNat)
      (fun out s' l => ReadIn k s off n out.1 s' l) s := by
  have hzero : ReadIn k s off n 0 s [] :=
    ⟨⟨_,(withCopy_self rfl).symm⟩,le_max_right _ _,Nat.zero_le _,by simpa using hoff⟩
  have hsize := h.stored.size_le i h.inum_lt
  rw [readi, getInode, wpt_silent_bind (private_readMem _), wp_readMem, h.copy]
  apply wpt_ite
  · exact fun _ => wpt_pure.mpr hzero
  · intro hin
    push Not at hin
    have hmax : maxfile*bsize < 2^31 := by decide
    have hend : (D i).size.toNat-off = 0 := by omega
    dsimp only
    rw [if_pos (by omega), hend]
    exact wpt_pure.mpr hzero

theorem wpt_readEnd {s₀ s' : Fs} {r : ℤ} {l : List (BitVec 64)}
    (hlock : (s₀.mem.itable k).lock = some p)
    (href : 0 < (s₀.mem.itable k).ref) (hfile : s₀.mem.ftable = s.mem.ftable)
    (h : ReadIn k s₀ (s.mem.ftable fi).off n r s' l) :
    wpt (handle env) stores E (do
      let r ← (do advance fi r; pure r : F ℤ)
      iunlock p k
      pure r) (fun r s' l' => Bounded s fi n r s' (l++l')) s' := by
  obtain ⟨d,hmem⟩ := h.mem
  have hfields := withCopy_fields s₀.mem k k d
  rw [← hmem] at hfields
  have hfile' : s'.mem.ftable = s.mem.ftable := by
    rw [hmem]
    exact hfile
  have htable : ∀ m : Mem, (if 0 < r then
      setFile m fi { m.ftable fi with off := ((m.ftable fi).off+r.toNat)%2^32 } else m).itable =
        m.itable := by
    intro m
    split_ifs <;> rfl
  rw [bind_assoc, advance, wpt_silent_bind (private_writeMem _), wp_writeMem, pure_bind,
    wpt_silent_bind private_iunlock]
  apply wp_iunlock
  · simp only [setMem, htable, hfields.2.2.2, hlock]
  · simp only [setMem, htable, hfields.1, href]
  · rw [wpt_pure, List.append_nil]
    refine ⟨h.result,?_,fun _ => ?_⟩
    · have hcard := List.toFinset_card_le l
      have := h.stored
      omega
    · change (((if 0 < r then setFile s'.mem fi { s'.mem.ftable fi with
        off := ((s'.mem.ftable fi).off+r.toNat)%2^32 } else s'.mem).ftable fi).off : ℤ) = _
      have hoff := h.offset
      split_ifs with hr
      · simp only [setFile, Function.update_self, hfile']
        omega
      · rw [hfile', max_eq_right (by omega), add_zero]

theorem wpt_fileread_inode (h : Good sb D own X s) (hinum : (s.mem.itable k).inum = i)
    (hi : i < sb.ninodes) (href : 0 < (s.mem.itable k).ref) (htype : (D i).type ≠ 0)
    (hread : ∀ own', Open sb D own' (locked s k p (D i)) k i → wpt (handle env) stores E
      (readi sb k (.user addr) (s.mem.ftable fi).off (n%2^32).toNat)
      (fun out s' l => ReadIn k (locked s k p (D i)) (s.mem.ftable fi).off n out.1 s' l)
        (locked s k p (D i))) :
    wpt (handle env) stores E (do
      ilock sb p k
      let r ← readLocked sb fi k addr n
      iunlock p k
      pure r) (fun r s' l => Bounded s fi n r s' l) s := by
  rw [wpt_silent_bind private_ilock]
  apply wp_ilock h hinum hi (.inl href) (.inl htype)
  intro _ _ _
  have hgood := good_locked (p := p) h href hinum hi htype
  have hin := inUse_locked (p := p) href hinum (D i)
  have hlocked : ((locked s k p (D i)).mem.itable k).lock = some p := by
    rw [locked, setEntry_self]
  rw [readLocked, getFile, bind_assoc, wpt_silent_bind (private_readMem _), wp_readMem,
    bind_assoc, wpt_bind]
  apply wpt_mono (hread own (good_open hgood hin))
  intro out s' l hout
  exact wpt_readEnd hlocked hin.ref rfl hout

end Inode

section Main
variable {sb : Superblock} {D : Inodes} {own : Owners} {X : ℕ → Prop} {s : Fs} {p : Slot}
    {fi : Fin nfile} {n : ℤ}

variable {env : Env} {k : Fin ninode}

theorem wpt_fileread (hsb : Layout sb) (h : Good sb D own X s) (hopen : OpenFile sb D s fi)
    (hlo : -2^31 ≤ n) (hhi : n < 2^31) (hnot : ¬Overruns D s fi n) (seen : Seen)
    (addr : BitVec 64) :
    wpt (handle env) stores (fun _ => False) (fileread sb p fi seen addr n) (Bounded s fi n) s := by
  have hstream : (s.mem.ftable fi).type ≠ .inode → ∀ (r : ℤ) l, r ≤ max n 0 → l.length ≤ n.toNat →
      Bounded s fi n r s l := fun hne r l hr hl =>
    ⟨hr,by have := List.toFinset_card_le l; omega,fun ht => absurd ht hne⟩
  rw [fileread, getFile, wpt_silent_bind (private_readMem _), wp_readMem]
  apply wpt_ite
  · intro _
    exact wpt_pure.mpr ⟨by omega,by simp,fun _ => by simp⟩
  · intro hreadable
    cases htype : (s.mem.ftable fi).type with
    | none => exact absurd htype hopen.type_ne
    | pipe => exact wpt_piperead n _ (hstream (by simp [htype]))
    | device =>
      apply wpt_ite
      · exact fun _ => wpt_pure.mpr (hstream (by simp [htype]) (-1) [] (by omega) (Nat.zero_le _))
      · exact fun _ => wpt_consoleread n _ (hstream (by simp [htype]))
    | inode =>
      obtain ⟨k,hip,href,hlock,hi,hne,-⟩ := hopen.inode htype
      rw [hip]
      apply wpt_fileread_inode h rfl hi href hne
      intro own' hopen'
      by_cases hneg : 0 ≤ n
      · exact wpt_readi_within hsb hopen' hopen.off_lt hneg hhi
      · refine wpt_readi_nothing hopen' hopen.off_lt (by omega) hlo fun hwrap => ?_
        by_contra hlt
        exact hnot ⟨by simpa using hreadable,htype,by omega,hwrap,k,hip,by omega⟩

def accepting : Env := { quiet with copyout := fun _ _ => true }

theorem takes_accepting (addr : BitVec 64) (m : ℕ) : Takes accepting (.user addr) m :=
  fun _ _ _ _ => rfl

theorem wp_readi_overruns {i off : ℕ} {addr : BitVec 64} (hsb : Layout sb) (h : Open sb D own s k i)
    (hd : NoHoles s.blocks (D i)) (hlo : -2^31 ≤ n) (hneg : n < 0) (hwrap : off < -n)
    (hsize : off < (D i).size.toNat)
    {Q : ℤ × List UInt8 → Fs → Prop} (hQ : ∀ out s', 0 < out.1 → Q out s') :
    wp (handle accepting) (fun _ => True) (readi sb k (.user addr) off (n%2^32).toNat) Q s := by
  have hmax := h.stored.size_le i h.inum_lt
  have hlt : maxfile*bsize < 2^31 := by decide
  have hlen : (readAt (bytesOf s.blocks (D i)) off (n%2^32).toNat).length =
      (D i).size.toNat-off := by
    rw [readAt, if_neg (by rw [length_bytesOf]; omega), List.length_take, List.length_drop,
      length_bytesOf]
    omega
  rw [wp_def, readi_takes (takes_accepting addr _), readi_kernel hsb h hd (by omega) (by omega)]
  refine hQ _ _ ?_
  dsimp only
  rw [hlen]
  omega

theorem fileread_overruns (hsb : Layout sb) (h : Good sb D own X s) (hopen : OpenFile sb D s fi)
    (hlo : -2^31 ≤ n) (hover : Overruns D s fi n) :
    wp (handle accepting) (fun _ => True) (fileread sb p fi ⟨[],[]⟩ 0 n) (fun r _ => 0 < r) s := by
  obtain ⟨hreadable,htype,hneg,hwrap,k,hip,hsize⟩ := hover
  obtain ⟨k',hip',href,hlock,hi,hne,hd⟩ := hopen.inode htype
  obtain rfl : k' = k := Option.some.inj (hip'.symm.trans hip)
  have hopen' := good_open (good_locked (p := p) h href rfl hi hne)
    (inUse_locked (p := p) href rfl _)
  rw [fileread, getFile, wp_bind, wp_readMem, if_neg (by simp [hreadable]), htype, hip]
  dsimp only
  rw [wp_bind]
  apply wp_ilock h rfl hi (.inl href) (.inl hne)
  intro _ _ _
  rw [readLocked, getFile, bind_assoc, wp_bind, wp_readMem, bind_assoc, wp_bind]
  apply wp_readi_overruns hsb hopen' hd hlo hneg hwrap hsize
  intro out s₁ hpos
  rw [bind_assoc, advance, wp_bind, wp_writeMem, pure_bind, wp_bind]
  exact wp_any (fun _ => trivial) (fun _ _ => wp_pure.mpr hpos)

theorem fileread_not_wait (htype : (s.mem.ftable fi).type = .inode)
    (hip : (s.mem.ftable fi).ip = some k) (hlock : (s.mem.itable k).lock = none) (seen : Seen)
    (addr : BitVec 64) :
    exec (handle env) (fileread sb p fi seen addr n) s ≠ .wait := by
  rw [fileread, getFile]
  apply bind_not_wait (by rw [exec_readMem]; simp)
  intro f s₁ hget
  rw [exec_readMem] at hget
  cases hget
  rw [htype, hip]
  by_cases hreadable : (s.mem.ftable fi).readable = false
  · rw [if_pos hreadable]
    intro h
    cases h
  · rw [if_neg hreadable]
    apply bind_not_wait (ilock_not_wait hlock)
    intro _ s₂ _
    apply bind_not_wait
    · rw [readLocked]
      apply bind_not_wait (exec_not_wait (prompt_not_wait env) (every_prompt_readMem _) s₂)
      intro f s₃ _
      apply bind_not_wait (exec_not_wait (local_not_wait env) (local_readi (k := k) _ _ _) s₃)
      intro out s₄ _
      exact exec_not_wait (prompt_not_wait env)
        (every_bind (every_prompt_writeMem _) (fun _ => every_pure _)) s₄
    · intro r s₃ _
      refine exec_not_wait (prompt_not_wait env) (every_bind ?_ (fun _ => every_pure _)) s₃
      exact every_bind (every_prompt_readMem _) (fun _ =>
        every_ite (every_kpanic trivial) (every_prompt_writeMem _))

theorem body_fileread (seen : Seen) (addr : BitVec 64) :
    Every Body (fileread sb p fi seen addr n) := by
  rw [fileread]
  apply every_bind (every_perform trivial)
  intro f
  apply every_ite (every_pure _)
  split
  · exact every_mono body_of_unlogged (unlogged_piperead _ _ _)
  · exact every_ite (every_pure _) (every_mono body_of_unlogged (unlogged_consoleread _ _ _))
  · apply every_bind (every_mono body_of_unlogged unlogged_ilock)
    intro _
    apply every_bind
    · apply every_bind (every_perform trivial)
      intro f
      apply every_bind (every_mono body_of_local (local_readi _ _ _))
      exact fun out => every_bind (every_perform trivial) (fun _ => every_pure _)
    · exact fun r => every_bind (every_mono body_of_unlogged unlogged_iunlock)
        (fun _ => every_pure _)
  · exact every_kpanic trivial

theorem trace_fileread (h : Good sb D own X s) (hopen : OpenFile sb D s fi) (seen : Seen)
    (addr : BitVec 64) : trace (handle env) logged (fileread sb p fi seen addr n) s = [] := by
  have hget : ∀ s, exec (handle env) (getFile fi) s = .ok (s.mem.ftable fi,s) := fun _ => rfl
  have hsilent : ∀ s, trace (handle env) logged (getFile fi) s = [] :=
    trace_silent (silent_readMem _)
  rw [fileread, trace_bind (hget s), hsilent, List.nil_append]
  by_cases hreadable : (s.mem.ftable fi).readable = false
  · rw [if_pos hreadable]
    rfl
  rw [if_neg hreadable]
  cases htype : (s.mem.ftable fi).type with
  | none => exact absurd htype hopen.type_ne
  | pipe => exact trace_silent (every_mono silent_of_unlogged (unlogged_piperead _ _ _)) s
  | device =>
    exact trace_silent (every_ite (every_pure _)
      (every_mono silent_of_unlogged (unlogged_consoleread _ _ _))) s
  | inode =>
    obtain ⟨k,hip,href,hlock,hi,hne,hd⟩ := hopen.inode htype
    rw [hip]
    have hopen' := good_open (good_locked (p := p) h href rfl hi hne)
      (inUse_locked (p := p) href rfl (D (s.mem.itable k).inum))
    have hlocked : wp (handle env) (fun _ => False) (ilock sb p k)
        (fun _ s' => s' = locked s k p (D (s.mem.itable k).inum)) s :=
      wp_ilock h rfl hi (.inl href) (.inl hne) (fun _ _ _ => rfl)
    obtain ⟨_,_,hx,rfl⟩ := exec_ok hlocked (ilock_not_wait hlock)
    dsimp only
    rw [trace_bind hx, trace_silent silent_ilock, List.nil_append, readLocked, bind_assoc,
      trace_bind (hget _), hsilent, List.nil_append, bind_assoc]
    obtain ⟨out,s₁,hread,-,hl⟩ := exec_ok (wpt_readi_solid hopen' hd _ _ _)
      (exec_not_wait (local_not_wait env) (local_readi (k := k) _ _ _) _)
    rw [trace_bind hread, hl, List.nil_append]
    exact trace_silent (every_bind (every_bind (silent_advance _) (fun _ => every_pure _))
      (fun _ => every_bind silent_iunlock (fun _ => every_pure _))) s₁

/-- A read stores and returns no more than it was asked for, and moves the offset by what it
returns, exactly when it does not overrun. It works outside a transaction. -/
theorem fileread_bounded_iff (hsb : Layout sb) (h : Good sb D own X s) (hopen : OpenFile sb D s fi)
    (hlo : -2^31 ≤ n) (hhi : n < 2^31) :
    (∀ env seen addr t, wpt (FsLogged.handle env) stores (fun _ => False)
      (fileread sb p fi seen addr n) (fun r s' l => Bounded s fi n r s'.fs l) ⟨s,t⟩) ↔
      ¬Overruns D s fi n := by
  have hlift : ∀ env seen addr t, wpt (FsLogged.handle env) stores (fun _ => False)
      (fileread sb p fi seen addr n) (fun r s' l => Bounded s fi n r s'.fs l) ⟨s,t⟩ ↔
      wpt (handle env) stores (fun _ => False) (fileread sb p fi seen addr n)
        (Bounded s fi n) s := by
    intro env seen addr t
    have hlog : FsLogged.writes (trace (handle env) logged (fileread sb p fi seen addr n) s) t =
        .ok t := by
      rw [trace_fileread h hopen]
      rfl
    exact FsLogged.wpt_logged (body_fileread seen addr) hlog
  simp only [hlift]
  constructor
  · intro hall hover
    obtain ⟨-,htype,hneg,-⟩ := id hover
    obtain ⟨k,hip,-,hlock,-⟩ := hopen.inode htype
    obtain ⟨r,s',hexec,hbound⟩ :=
      exec_ok (hall accepting ⟨[],[]⟩ 0 FsLogged.idle) (fileread_not_wait htype hip hlock _ _)
    have hpos := fileread_overruns (p := p) hsb h hopen hlo hover
    rw [wp_def, hexec] at hpos
    have hle := hbound.result
    rw [max_eq_right (le_of_lt hneg)] at hle
    exact absurd hpos (not_lt.mpr hle)
  · exact fun hnot env seen addr _ => wpt_fileread hsb h hopen hlo hhi hnot seen addr

end Main

/-- A read of -1 bytes returns all 16 bytes of the file, and stores them. -/
theorem tiny_overrun :
    LoggedFiles.resultOf (exec (FsLogged.handle accepting) (fileread tiny 0 0 ⟨[],[]⟩ 4096 (-1))
      ⟨opened tinyFs 0,FsLogged.idle⟩) = some 16 ∧
      (trace (FsLogged.handle accepting) stores (fileread tiny 0 0 ⟨[],[]⟩ 4096 (-1))
        ⟨opened tinyFs 0,FsLogged.idle⟩).length = 16 := by
  decide +kernel

/-- A read of five bytes from the end of the file. -/
theorem tiny_read_bounded : wpt (FsLogged.handle accepting) stores (fun _ => False)
    (fileread tiny 0 0 ⟨[],[]⟩ 4096 5)
    (fun r s' l => Bounded (opened tinyFs 14) 0 5 r s'.fs l) ⟨opened tinyFs 14,FsLogged.idle⟩ := by
  have hopen : OpenFile tiny tinyInodes (opened tinyFs 14) 0 :=
    ⟨nofun,by decide,
      fun _ => ⟨0,rfl,by decide,rfl,tiny_open.inum_lt,tiny_open.type_ne,tiny_noHoles⟩⟩
  exact (fileread_bounded_iff tiny_layout (opened_good 14) hopen (by decide) (by decide)).mpr
    (fun hover => absurd hover.2.2.1 (by decide)) accepting ⟨[],[]⟩ 4096 FsLogged.idle

end GreenOS.FileReads
