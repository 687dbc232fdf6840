import GreenOS.PipeMachine
import GreenOS.RingBuffer
import GreenOS.StepRun

/-!
# The pipe is a queue of bytes

The buffer of a pipe is a ring with 32-bit counters. Two points of the code
touch it: a writer that found room stores a byte, and a reader that found one
takes it.
-/

namespace GreenOS.PipeFifo
open StepRun ProcTable PipeMachine RingBuffer

def ring (pi : Pipe) : Ring pipesize 32 UInt8 := ⟨pi.data,pi.nread,pi.nwrite⟩

def buffered (pi : Pipe) : List UInt8 := contents (ring pi)

def storedBy : Event → Sys → List UInt8
  | .advance p mem, s =>
    match s.point p with
    | .writeBody addr _ i _ =>
      if full s.pipe then [] else (mem.load (addr+BitVec.ofNat 64 i)).toList
    | _ => []
  | _, _ => []

def stored : List Event → Sys → List UInt8
  | [], _ => []
  | e::es, s => storedBy e s ++ ((step e s).map (stored es)).getD []

structure SameRing (s s' : Sys) : Prop where
  ring : ring s'.pipe = ring s.pipe
  copied : s'.copied = s.copied

section Steps
variable {s s' : Sys} {p : Slot}

variable {c : Point} {chan : Chan}

theorem sameRing_acquire (h : acquire s p c = some s') : SameRing s s' := by
  unfold acquire at h
  split_ifs at h
  cases h
  exact ⟨rfl,rfl⟩

theorem sameRing_wakeVisit {q : Slot} (h : wakeVisit s p chan q c = some s') : SameRing s s' := by
  unfold wakeVisit at h
  split_ifs at h
  · cases h
    exact ⟨rfl,rfl⟩
  · cases h
    exact ⟨rfl,rfl⟩

theorem sameRing_wakeLoop {j : ℕ} {done : Sys}
    (h : (match slot? j with | none => some done | some q => wakeVisit s p chan q c) = some s')
    (hdone : SameRing s done) : SameRing s s' := by
  cases hj : slot? j with
  | none =>
    rw [hj] at h
    cases h
    exact hdone
  | some q =>
    rw [hj] at h
    exact sameRing_wakeVisit h

theorem sameRing_closeEnd : SameRing s (closeEnd s p) := by
  unfold closeEnd
  split_ifs
  · exact ⟨rfl,rfl⟩
  · exact ⟨rfl,rfl⟩

theorem ring_closeFlag (pi : Pipe) (writable : Bool) : ring (closeFlag pi writable) = ring pi := by
  cases writable
  · rfl
  · rfl

end Steps

inductive RingStep (s s' : Sys) : List UInt8 → Prop
  | same (h : SameRing s s') : RingStep s s' []
  | store (ch : UInt8) (hroom : full s.pipe = false) (hring : ring s'.pipe = push (ring s.pipe) ch)
      (hcopied : s'.copied = s.copied) : RingStep s s' [ch]
  | take (hne : s.pipe.nread ≠ s.pipe.nwrite) (hring : ring s'.pipe = pop (ring s.pipe))
      (hcopied : s'.copied = s.copied ++ [s.pipe.data (PipeMachine.index s.pipe.nread)]) :
      RingStep s s' []

section Advance
variable {s s' : Sys} {p : Slot} {mem : UserMem}

theorem ringStep_writeBody {addr : BitVec 64} {n : ℤ} {i quiet : ℕ}
    (hpoint : s.point p = .writeBody addr n i quiet) :
    RingStep s (writeBody s p mem addr n i quiet) (storedBy (.advance p mem) s) := by
  simp only [storedBy, hpoint]
  unfold writeBody
  cases hfull : full s.pipe with
  | true => exact .same ⟨rfl,rfl⟩
  | false =>
    cases hload : mem.load (addr+BitVec.ofNat 64 i) with
    | none => exact .same ⟨rfl,rfl⟩
    | some ch => exact .store ch hfull rfl rfl

theorem ringStep_readCopy (addr : BitVec 64) (n : ℤ) (i : ℕ) :
    RingStep s (readCopy s p mem addr n i) [] := by
  unfold readCopy
  split_ifs with hlt hempty hw
  · exact .same ⟨rfl,rfl⟩
  · exact .take hempty rfl rfl
  all_goals exact .same ⟨rfl,rfl⟩

def idlePoint : Point → Bool
  | .writeBody _ _ _ _ => false
  | .readCopy _ _ _ => false
  | _ => true

theorem sameRing_advance (hidle : idlePoint (s.point p) = true) (h : advance s p mem = some s') :
    SameRing s s' := by
  unfold advance at h
  cases hpoint : s.point p with
  | user =>
    rw [hpoint] at h
    cases h
  | writeEnter addr n i =>
    rw [hpoint] at h
    exact sameRing_acquire h
  | writeLoop addr n i quiet =>
    rw [hpoint] at h
    dsimp only at h
    split_ifs at h
    all_goals
      cases h
      exact ⟨rfl,rfl⟩
  | writeBody addr n i quiet =>
    rw [hpoint] at hidle
    cases hidle
  | writeFull addr n i j =>
    rw [hpoint] at h
    exact sameRing_wakeLoop h ⟨rfl,rfl⟩
  | writeSleep addr n i =>
    rw [hpoint] at h
    cases h
    exact ⟨rfl,rfl⟩
  | writeDone i j =>
    rw [hpoint] at h
    exact sameRing_wakeLoop h ⟨rfl,rfl⟩
  | readEnter addr n =>
    rw [hpoint] at h
    exact sameRing_acquire h
  | readTest addr n =>
    rw [hpoint] at h
    dsimp only at h
    split_ifs at h
    all_goals
      cases h
      exact ⟨rfl,rfl⟩
  | readSleep addr n =>
    rw [hpoint] at h
    cases h
    exact ⟨rfl,rfl⟩
  | readCopy addr n i =>
    rw [hpoint] at hidle
    cases hidle
  | readDone result j =>
    rw [hpoint] at h
    exact sameRing_wakeLoop h ⟨rfl,rfl⟩
  | closeEnter writable =>
    rw [hpoint] at h
    obtain ⟨s₁,hacq,rfl⟩ := Option.map_eq_some_iff.mp h
    have hsame := sameRing_acquire hacq
    exact ⟨(ring_closeFlag _ _).trans hsame.ring,hsame.copied⟩
  | closeWake writable j =>
    rw [hpoint] at h
    exact sameRing_wakeLoop h sameRing_closeEnd
  | dozing chan resume =>
    rw [hpoint] at h
    cases h
    exact ⟨rfl,rfl⟩
  | asleep resume =>
    rw [hpoint] at h
    cases h

theorem storedBy_idle (hidle : idlePoint (s.point p) = true) :
    storedBy (.advance p mem) s = [] := by
  unfold storedBy
  cases hpoint : s.point p with
  | writeBody addr n i quiet =>
    rw [hpoint] at hidle
    cases hidle
  | _ => simp only [hpoint]

theorem ringStep_advance (h : advance s p mem = some s') :
    RingStep s s' (storedBy (.advance p mem) s) := by
  by_cases hidle : idlePoint (s.point p) = true
  · rw [storedBy_idle hidle]
    exact .same (sameRing_advance hidle h)
  · unfold advance at h
    cases hpoint : s.point p with
    | writeBody addr n i quiet =>
      rw [hpoint] at h
      cases h
      exact ringStep_writeBody hpoint
    | readCopy addr n i =>
      rw [hpoint] at h
      cases h
      have hstored : storedBy (.advance p mem) s = [] := by simp only [storedBy, hpoint]
      rw [hstored]
      exact ringStep_readCopy addr n i
    | _ =>
      rw [hpoint] at hidle
      exact absurd rfl hidle

end Advance

theorem sameRing_fileclose (s : Sys) (p : Slot) (writable : Bool) :
    SameRing s (fileclose s p writable) := by
  unfold fileclose
  dsimp only
  split_ifs
  all_goals exact ⟨rfl,rfl⟩

theorem sameRing_switchTo (s : Sys) (p : Slot) : SameRing s (switchTo s p) := by
  unfold switchTo
  split
  · exact ⟨rfl,rfl⟩
  · exact ⟨rfl,rfl⟩

variable {s s' : Sys} {sent : List UInt8}

theorem ringStep_step {e : Event} (h : step e s = some s') :
    RingStep s s' (storedBy e s) := by
  cases e with
  | advance p mem =>
    simp only [step] at h
    split_ifs at h
    exact ringStep_advance h
  | close p writable =>
    simp only [step] at h
    split_ifs at h
    cases h
    exact .same (sameRing_fileclose s p writable)
  | dispatch p =>
    simp only [step] at h
    split_ifs at h
    cases h
    exact .same (sameRing_switchTo s p)
  | dup p writable =>
    simp only [step] at h
    split_ifs at h
    all_goals
      cases h
      exact .same ⟨rfl,rfl⟩
  | _ =>
    simp only [step] at h
    split_ifs at h
    cases h
    exact .same ⟨rfl,rfl⟩

/-- The counters are at most the pipe's size apart, and the bytes delivered and
buffered are those in `sent`. -/
structure Queue (s : Sys) (sent : List UInt8) : Prop where
  room : (s.pipe.nwrite-s.pipe.nread).toNat ≤ pipesize
  bytes : s.copied ++ buffered s.pipe = sent

theorem size_ring (pi : Pipe) : size (ring pi) = (pi.nwrite-pi.nread).toNat := rfl

theorem full_iff_size (pi : Pipe) : full pi = true ↔ size (ring pi) = pipesize := by
  rw [← full_iff (by decide), full, beq_iff_eq]
  rfl

theorem queue_step {bytes : List UInt8} (h : Queue s sent)
    (hstep : RingStep s s' bytes) : Queue s' (sent ++ bytes) := by
  have hroom := h.room
  rw [← size_ring] at hroom
  cases hstep with
  | same hsame =>
    refine ⟨?_,?_⟩
    · rw [← size_ring, hsame.ring]
      exact hroom
    · rw [buffered, hsame.ring, hsame.copied, List.append_nil]
      exact h.bytes
  | store ch hfull hring hcopied =>
    have hlt : size (ring s.pipe) < pipesize := by
      apply lt_of_le_of_ne hroom
      intro heq
      rw [(full_iff_size s.pipe).mpr heq] at hfull
      cases hfull
    have hmax : pipesize+1 < 2^32 := by decide
    refine ⟨?_,?_⟩
    · rw [← size_ring, hring, size_push ch (by omega)]
      exact hlt
    · rw [buffered, hring, hcopied, contents_push (by decide) (by decide) hlt, ← List.append_assoc,
        ← h.bytes]
      rfl
  | take hne hring hcopied =>
    have hpos : 0 < size (ring s.pipe) := by
      apply Nat.pos_of_ne_zero
      exact fun h0 => hne (empty_iff.mpr h0)
    have hhead : s.pipe.data (PipeMachine.index s.pipe.nread) =
        (ring s.pipe).data (RingBuffer.index (ring s.pipe).head) := rfl
    refine ⟨?_,?_⟩
    · rw [← size_ring, hring, size_pop hpos]
      omega
    · rw [buffered, hring, hcopied, hhead, List.append_assoc, List.singleton_append,
        ← contents_pop hpos, List.append_nil]
      exact h.bytes

theorem queue_run {es : List Event} (h : Queue s sent)
    (hrun : run step es s = some s') : Queue s' (sent ++ stored es s) := by
  induction es generalizing s sent with
  | nil =>
    cases hrun
    rw [stored, List.append_nil]
    exact h
  | cons e es ih =>
    obtain ⟨s₁,he,hrun⟩ := (run_cons step).mp hrun
    have := ih (queue_step h (ringStep_step he)) hrun
    rw [stored, he, ← List.append_assoc]
    exact this

theorem queue_create (t : Table) (base : ℕ) (data : Fin pipesize → UInt8) (p : Slot) :
    Queue (create t base data p) [] := by
  constructor
  · show ((0 : BitVec 32)-0).toNat ≤ pipesize
    decide
  · simp [buffered, contents, size, ring, create]

/-- In every state of a run the counters are at most `PIPESIZE` apart, and what
the readers got followed by what is buffered is what the writers stored. -/
theorem pipe_fifo (t : Table) (base : ℕ) (data : Fin pipesize → UInt8) (p : Slot) (es : List Event)
    (s : Sys) (hrun : run step es (create t base data p) = some s) :
    (s.pipe.nwrite-s.pipe.nread).toNat ≤ pipesize ∧
      s.copied ++ buffered s.pipe = stored es (create t base data p) := by
  have h := queue_run (queue_create t base data p) hrun
  rw [List.nil_append] at h
  exact ⟨h.room,h.bytes⟩

def busy : Table := fun _ => { zeroProc with state := .running }

def counting : UserMem where
  load := fun a => some (UInt8.ofNat a.toNat)
  writable := fun _ => true

/-- Three bytes are written, and two of them read. -/
def passThree : List Event :=
  .write 0 0 3::List.replicate 73 (.advance 0 counting)++
    .read 0 0 2::List.replicate 4 (.advance 0 counting)

theorem passThree_fifo : ∃ s, run step passThree (create busy 0 (fun _ => 0) 0) = some s ∧
    stored passThree (create busy 0 (fun _ => 0) 0) = [0,1,2] ∧ s.copied = [0,1] ∧
      s.copied ++ buffered s.pipe = stored passThree (create busy 0 (fun _ => 0) 0) := by
  have hrun : (run step passThree (create busy 0 (fun _ => 0) 0)).any (fun s => s.copied = [0,1]) =
      true := by decide +kernel
  obtain ⟨s,hs,hcopied⟩ := (Option.any_eq_true _ _).mp hrun
  exact ⟨s,hs,by decide +kernel,of_decide_eq_true hcopied,
    (pipe_fifo busy 0 (fun _ => 0) 0 passThree s hs).2⟩

end GreenOS.PipeFifo
