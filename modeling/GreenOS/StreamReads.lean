import GreenOS.PipeFifo
import GreenOS.ConsoleLine

/-!
# Reads of a byte stream that fail

`piperead` and `consoleread` move bytes out of a ring one at a time and stop
where a copy to the user fails.
-/

namespace GreenOS.StreamReads
open StepRun RingBuffer PipeFifo
open PipeMachine (Pipe)
open ConsoleLine (Cons Outcome Result readLoop committed span ctrlD newline inputBufSize)

/-- The copy loop of `piperead`, with `i` bytes copied and `left` to go: what it
returns, the bytes it copies and the pipe. -/
def pipeLoop (writable : ℕ → Bool) : ℕ → ℕ → Pipe → ℤ × List UInt8 × Pipe
  | 0, i, pi => (i,[],pi)
  | left+1, i, pi =>
    if pi.nread = pi.nwrite then (i,[],pi)
    else if writable i then
      let (r,bytes,pi') := pipeLoop writable left (i+1) { pi with nread := pi.nread+1 }
      (r,pi.data (PipeMachine.index pi.nread)::bytes,pi')
    else (if i = 0 then -1 else i,[],pi)

inductive Stream where
  | pipe (pi : Pipe)
  | console (cons : Cons)

def readable : Stream → List UInt8
  | .pipe pi => buffered pi
  | .console cons => committed cons

def isPipe : Stream → Bool
  | .pipe _ => true
  | .console _ => false

def Copied : Stream → UInt8 → Prop
  | .pipe _, _ => True
  | .console _, c => c ≠ ctrlD

def Passed : Stream → UInt8 → Prop
  | .pipe _, _ => True
  | .console _, c => c ≠ ctrlD ∧ c ≠ newline

def bytesOf : Outcome → List UInt8
  | .waiting _ bytes => bytes
  | .finished (.returned _ bytes) => bytes
  | .finished (.killed bytes) => bytes

/-- A read with `n` bytes to go and `done` already copied, from where it finds the stream unlocked
until it returns or waits: the bytes copied by the call, and the stream. -/
def read (killed : Bool) (writable : ℕ → Bool) (done : List UInt8) (n : ℕ) : Stream →
    List UInt8 × Stream
  | .pipe pi =>
    let (_,bytes,pi) := pipeLoop writable n done.length pi
    (done++bytes,.pipe pi)
  | .console cons =>
    let (o,_,cons) := readLoop killed writable (done.length+n) n done cons
    (bytesOf o,.console cons)

section Fails
variable {writable : ℕ → Bool} {pre rest : List UInt8} {c : UInt8}

variable {pi : Pipe} {l : List UInt8} {cons : Cons}

theorem buffered_cons (h : buffered pi = c::l) :
    pi.nread ≠ pi.nwrite ∧ pi.data (PipeMachine.index pi.nread) = c ∧
      buffered { pi with nread := pi.nread+1 } = l := by
  have hpos : 0 < size (ring pi) := by
    rw [← length_contents, show contents (ring pi) = c::l from h]
    exact Nat.succ_pos _
  have hpop := contents_pop hpos
  rw [show contents (ring pi) = c::l from h, List.cons.injEq] at hpop
  exact ⟨fun heq => hpos.ne' (empty_iff.mp heq),hpop.1.symm,hpop.2.symm⟩

theorem committed_cons (h : committed cons = c::l) :
    cons.r ≠ cons.w ∧ cons.buf (index cons.r) = c ∧ committed { cons with r := cons.r+1 } = l := by
  have hpos : 0 < size (span cons cons.r cons.w) := by
    rw [← length_contents, show contents (span cons cons.r cons.w) = c::l from h]
    exact Nat.succ_pos _
  have hpop := contents_pop hpos
  rw [show contents (span cons cons.r cons.w) = c::l from h, List.cons.injEq] at hpop
  exact ⟨fun heq => hpos.ne' (empty_iff.mp heq),hpop.1.symm,hpop.2.symm⟩

theorem pipeLoop_fails (left i : ℕ) (hbytes : buffered pi = pre++c::rest) (hlen : pre.length < left)
    (hcopied : ∀ j < pre.length, writable (i+j) = true) (hfail : writable (i+pre.length) = false) :
    (pipeLoop writable left i pi).2.1 = pre ∧ buffered (pipeLoop writable left i pi).2.2
      = c::rest := by
  induction pre generalizing left i pi with
  | nil =>
    obtain ⟨left,rfl⟩ : ∃ m, left = m+1 := ⟨left-1,by simp at hlen; omega⟩
    obtain ⟨hne,-,-⟩ := buffered_cons hbytes
    simp only [List.length_nil, Nat.add_zero] at hfail
    simpa [pipeLoop, hne, hfail] using hbytes
  | cons b pre ih =>
    obtain ⟨left,rfl⟩ : ∃ m, left = m+1 := ⟨left-1,by simp at hlen; omega⟩
    obtain ⟨hne,hb,hnext⟩ := buffered_cons hbytes
    have hfirst : writable i = true := hcopied 0 (by simp)
    simp only [List.length_cons] at hlen hcopied hfail
    obtain ⟨hpre,hrest⟩ := ih left (i+1) hnext (by omega)
      (fun j hj => by have := hcopied (j+1) (by omega); rwa [show i+(j+1) = i+1+j by omega] at this)
      (by rwa [show i+(pre.length+1) = i+1+pre.length by omega] at hfail)
    simp only [pipeLoop, hne, if_false, hfirst, if_true, hb]
    exact ⟨congrArg (b::·) hpre,hrest⟩

theorem readLoop_fails (killed : Bool) (target n : ℕ) (done : List UInt8)
    (htarget : done.length+n = target) (hbytes : committed cons = pre++c::rest)
    (hlen : pre.length < n) (hline : ∀ b ∈ pre, b ≠ ctrlD ∧ b ≠ newline) (hc : c ≠ ctrlD)
    (hcopied : ∀ j < pre.length, writable (done.length+j) = true)
    (hfail : writable (done.length+pre.length) = false) :
    bytesOf (readLoop killed writable target n done cons).1 = done++pre ∧
      committed (readLoop killed writable target n done cons).2.2 = rest := by
  induction pre generalizing n done cons with
  | nil =>
    obtain ⟨n,rfl⟩ : ∃ m, n = m+1 := ⟨n-1,by simp at hlen; omega⟩
    obtain ⟨hne,hbyte,hnext⟩ := committed_cons hbytes
    have hindex : target-(n+1) = done.length := by omega
    simp only [List.length_nil, Nat.add_zero] at hfail
    simp only [readLoop, hne, if_false, hbyte, hc, hindex, hfail, Bool.false_eq_true, bytesOf]
    exact ⟨(List.append_nil _).symm,hnext⟩
  | cons b pre ih =>
    obtain ⟨n,rfl⟩ : ∃ m, n = m+1 := ⟨n-1,by simp at hlen; omega⟩
    obtain ⟨hne,hbyte,hnext⟩ := committed_cons hbytes
    have hindex : target-(n+1) = done.length := by omega
    have hfirst : writable done.length = true := hcopied 0 (by simp)
    obtain ⟨hbD,hbN⟩ := hline b List.mem_cons_self
    simp only [List.length_cons] at hlen hcopied hfail
    have hdone : (done++[b]).length = done.length+1 := by simp
    obtain ⟨hpre,hrest⟩ := ih n (done++[b]) (by omega) hnext (by omega)
      (fun b' hb' => hline b' (List.mem_cons_of_mem _ hb'))
      (fun j hj => by
        have := hcopied (j+1) (by omega);
        rwa [hdone, show done.length+1+j = done.length+(j+1) by omega])
      (by rwa [hdone, show done.length+1+pre.length = done.length+(pre.length+1) by omega])
    simp only [readLoop, hne, if_false, hbyte, hbD, hindex, hfirst, if_true, hbN]
    exact ⟨hpre.trans (by simp),hrest⟩

theorem read_pipe_cons {m : ℕ} (killed : Bool) (h : buffered pi = c::l) (hm : 0 < m) :
    ∃ later, (read killed (fun _ => true) [] m (.pipe pi)).1 = c::later := by
  obtain ⟨m,rfl⟩ : ∃ k, m = k+1 := ⟨m-1,by omega⟩
  obtain ⟨hne,hb,-⟩ := buffered_cons h
  simp [read, pipeLoop, hne, hb]

/-- A read whose copy fails leaves the byte and those behind it to the next reader
exactly when it reads a pipe. -/
theorem failed_read_loses_nothing_iff (st : Stream) (killed : Bool) (writable : ℕ → Bool)
    (done : List UInt8) (n : ℕ)
    (pre : List UInt8) (c : UInt8) (rest : List UInt8) (hbytes : readable st = pre++c::rest)
    (hlen : pre.length < n)
    (hline : ∀ b ∈ pre, Passed st b) (hc : Copied st c) (hcopied : ∀ j < pre.length,
      writable (done.length+j) = true)
    (hfail : writable (done.length+pre.length) = false) :
    (let failed := read killed writable done n st
     failed.1 = done++pre ∧ readable failed.2 = c::rest ∧
       ∀ killed m, 0 < m → ∃ later, (read killed (fun _ => true) [] m failed.2).1 = c::later) ↔
         isPipe st = true := by
  cases st with
  | pipe pi =>
    obtain ⟨hpre,hrest⟩ := pipeLoop_fails n done.length hbytes hlen hcopied hfail
    refine iff_of_true ⟨congrArg (done++·) hpre,hrest,?_⟩ rfl
    intro killed' m hm
    exact read_pipe_cons killed' hrest hm
  | console cons =>
    obtain ⟨-,hrest⟩ := readLoop_fails killed (done.length+n) n done rfl hbytes hlen hline
      hc hcopied hfail
    refine iff_of_false (fun h => ?_) Bool.false_ne_true
    -- The byte is gone: what is left is shorter than it and the bytes behind it.
    have hkept : rest = c::rest := hrest.symm.trans h.2.1
    exact absurd (congrArg List.length hkept) (by simp)

end Fails

/-- A line is typed, a read to an address that cannot be written fails, and the next
reader finds the line without its first character. -/
theorem console_read_loses_byte :
    ((run ConsoleLine.step [.intr 97,.intr 98,.intr newline,.read 1 2 fun _ =>
      false,.read 1 3 fun _ => true]
      ConsoleLine.boot).map fun t =>
        t.2.reads) = some [(1,.returned 0 []),(1,.returned 2 [98,newline])] := by
  decide +kernel

def somePipe : Pipe := ⟨fun i => if i = 0 then 97 else 98,0,2,true,true⟩

theorem somePipe_keeps_byte :
    let failed := read false (fun i => decide (i = 0)) [] 2 (.pipe somePipe)
    failed.1 = [97] ∧ readable failed.2 = [98] ∧
      ∀ killed m, 0 < m → ∃ later, (read killed (fun _ => true) [] m failed.2).1 = 98::later :=
  (failed_read_loses_nothing_iff (.pipe somePipe) false (fun i => decide (i = 0)) [] 2 [97] 98 []
    (by decide +kernel) (by decide) (fun _ _ => trivial) trivial (by decide) (by decide)).mpr rfl

end GreenOS.StreamReads
