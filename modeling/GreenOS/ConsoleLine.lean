import GreenOS.RingBuffer
import GreenOS.StepRun

/-!
# The console's line buffer

Three free-running indices into one ring: readers take characters at `r`, the
characters before `w` are committed to them, and the interrupt handler edits the
line between `w` and `e`. The ring shows two texts, the committed one and the
line being edited.
-/

namespace GreenOS.ConsoleLine
open RingBuffer StepRun
open Function (update update_of_ne)

def inputBufSize : ℕ := 128

instance : NeZero inputBufSize := ⟨by decide⟩

-- C('D'), C('H'), C('P') and C('U')
def ctrlD : UInt8 := 4
def ctrlH : UInt8 := 8
def ctrlP : UInt8 := 16
def ctrlU : UInt8 := 21
def newline : UInt8 := 10
def carriageReturn : UInt8 := 13
def delete : UInt8 := 127

structure Cons where
  buf : Fin inputBufSize → UInt8
  r : BitVec 32
  w : BitVec 32
  e : BitVec 32

def killLoop : ℕ → Cons → Cons
  | 0, s => s
  | n+1, s =>
    if s.e ≠ s.w ∧ s.buf (index (s.e-1)) ≠ newline then killLoop n { s with e := s.e-1 } else s

def consoleintr (c : UInt8) (s : Cons) : Cons :=
  if c = ctrlP then s
  else if c = ctrlU then killLoop (s.e-s.w).toNat s
  else if c = ctrlH ∨ c = delete then
    if s.e ≠ s.w then { s with e := s.e-1 } else s
  else if c ≠ 0 ∧ (s.e-s.r).toNat < inputBufSize then
    let c := if c = carriageReturn then newline else c
    let s := { s with buf := update s.buf (index s.e) c, e := s.e+1 }
    if c = newline ∨ c = ctrlD ∨ (s.e-s.r).toNat = inputBufSize then { s with w := s.e } else s
  else s

/-- A read that is over: it returned a number of bytes, or its process was
killed while it waited. -/
inductive Result where
  | returned (count : ℕ) (bytes : List UInt8)
  | killed (bytes : List UInt8)
  deriving DecidableEq

inductive Outcome where
  | waiting (n : ℕ) (bytes : List UInt8)
  | finished (result : Result)
  deriving DecidableEq

/-- The loop of `consoleread` from one iteration on, with `n` bytes to go and
`bytes` already copied out, until it returns or waits. It yields the outcome,
the characters it removed from the buffer, and the buffer. -/
def readLoop (killed : Bool) (writable : ℕ → Bool) (target : ℕ) :
    ℕ → List UInt8 → Cons → Outcome × List UInt8 × Cons
  | 0, bytes, s => (.finished (.returned target bytes),[],s)
  | n+1, bytes, s =>
    if s.r = s.w then
      (if killed then .finished (.killed bytes) else .waiting (n+1) bytes,[],s)
    else
      let c := s.buf (index s.r)
      let s' := { s with r := s.r+1 }
      if c = ctrlD then
        -- A ^D behind other bytes is put back for the next read.
        if n+1 < target then
          (.finished (.returned (target-(n+1)) bytes),[],{ s' with r := s'.r-1 })
        else (.finished (.returned (target-(n+1)) bytes),[c],s')
      else if writable (target-(n+1)) then
        if c = newline then (.finished (.returned (target-n) (bytes++[c])),[c],s')
        else
          let (o,taken,s') := readLoop killed writable target n (bytes++[c]) s'
          (o,c::taken,s')
      else (.finished (.returned (target-(n+1)) bytes),[c],s')

structure Reader where
  writable : ℕ → Bool
  target : ℕ
  n : ℕ
  bytes : List UInt8

structure Sys where
  cons : Cons
  readers : ℕ → Option Reader
  killed : ℕ → Bool

/-- What happened so far: the characters accepted and not erased, the
characters taken, each with the process that took it, and the finished reads
of positive length. -/
structure Ledger where
  kept : List UInt8
  taken : List (ℕ × UInt8)
  reads : List (ℕ × Result)

inductive Event where
  | intr (c : UInt8)
  | read (p : ℕ) (n : ℤ) (writable : ℕ → Bool)
  | resume (p : ℕ)
  | kill (p : ℕ)

/-- The accepted characters after an interrupt: an erase removes the last one
of the line being edited, a kill all of them. -/
def keep (c : UInt8) (s : Cons) (kept : List UInt8) : List UInt8 :=
  if c = ctrlP then kept
  else if c = ctrlU then kept.take (kept.length-(s.e-s.w).toNat)
  else if c = ctrlH ∨ c = delete then if s.e ≠ s.w then kept.dropLast else kept
  else if c ≠ 0 ∧ (s.e-s.r).toNat < inputBufSize then
    kept++[if c = carriageReturn then newline else c]
  else kept

def serve (p : ℕ) (rd : Reader) (s : Sys) (l : Ledger) : Sys × Ledger :=
  let (o,taken,cons) := readLoop (s.killed p) rd.writable rd.target rd.n rd.bytes s.cons
  let l := { l with taken := l.taken++taken.map fun c => (p,c) }
  match o with
  | .waiting n bytes =>
    ({ s with
       cons := cons
       readers := update s.readers p (some { rd with n := n, bytes := bytes }) },l)
  | .finished result =>
    ({ s with cons := cons, readers := update s.readers p none },
     { l with reads := l.reads++[(p,result)] })

def step : Event → Sys × Ledger → Option (Sys × Ledger)
  | .intr c, (s,l) =>
    some ({ s with cons := consoleintr c s.cons },{ l with kept := keep c s.cons l.kept })
  | .read p n writable, (s,l) =>
    if s.readers p ≠ none then none
    else if n ≤ 0 then some (s,l)
    else some (serve p ⟨writable,n.toNat,n.toNat,[]⟩ s l)
  | .resume p, (s,l) => (s.readers p).map fun rd => serve p rd s l
  | .kill p, (s,l) => some ({ s with killed := update s.killed p true },l)

def boot : Sys × Ledger :=
  (⟨⟨fun _ => 0,0,0,0⟩,fun _ => none,fun _ => false⟩,⟨[],[],[]⟩)

def span (s : Cons) (a b : BitVec 32) : Ring inputBufSize 32 UInt8 := ⟨s.buf,a,b⟩

def ring (s : Cons) : Ring inputBufSize 32 UInt8 := span s s.r s.e

def committed (s : Cons) : List UInt8 := contents (span s s.r s.w)

structure Shows (s : Cons) (unread edit : List UInt8) : Prop where
  text : contents (ring s) = unread++edit
  mark : s.w = s.r+BitVec.ofNat 32 unread.length
  room : unread.length+edit.length ≤ inputBufSize
  line : newline ∉ edit

theorem ring_dvd : inputBufSize ∣ 2^32 := by decide
theorem ring_lt : inputBufSize < 2^32 := by decide

section
variable {s : Cons} {unread edit : List UInt8}

theorem Shows.size_eq (h : Shows s unread edit) :
    size (ring s) = unread.length+edit.length := by
  rw [← length_contents, h.text, List.length_append]

theorem Shows.unread_size (h : Shows s unread edit) : size (span s s.r s.w) = unread.length := by
  have hroom := h.room
  have hN := ring_lt
  exact size_of_tail (by omega) h.mark

theorem Shows.end_eq (h : Shows s unread edit) :
    s.e = s.w+BitVec.ofNat 32 edit.length := by
  have htail := tail_eq (r := ring s)
  rw [h.size_eq, BitVec.ofNat_add, ← BitVec.add_assoc] at htail
  rw [h.mark]
  exact htail

theorem Shows.edit_size (h : Shows s unread edit) : size (span s s.w s.e) = edit.length := by
  have hroom := h.room
  have hN := ring_lt
  exact size_of_tail (by omega) h.end_eq

theorem Shows.edit_nil (h : Shows s unread edit) : s.e = s.w ↔ edit = [] := by
  rw [eq_comm, show s.w = s.e ↔ _ from empty_iff (r := span s s.w s.e), h.edit_size,
    List.length_eq_zero_iff]

theorem Shows.unread_nil (h : Shows s unread edit) : s.r = s.w ↔ unread = [] := by
  rw [show s.r = s.w ↔ _ from empty_iff (r := span s s.r s.w), h.unread_size,
    List.length_eq_zero_iff]

theorem Shows.committed_eq (h : Shows s unread edit) : committed s = unread := by
  have htake : committed s = (contents (ring s)).take unread.length := by
    unfold committed contents
    rw [← List.map_take, List.take_range, h.size_eq, h.unread_size, min_eq_left (by omega)]
    rfl
  rw [htake, h.text, List.take_left]

theorem Shows.take {c : UInt8} (h : Shows s (c::unread) edit) :
    s.buf (index s.r) = c ∧ Shows { s with r := s.r+1 } unread edit := by
  have hsize := h.size_eq
  have hpos : 0 < size (ring s) := by simp [hsize]
  have hpop := contents_pop hpos
  rw [h.text, List.cons_append, List.cons.injEq] at hpop
  refine ⟨hpop.1.symm,hpop.2.symm,?_,?_,h.line⟩
  · have hmark := h.mark
    rw [List.length_cons, Nat.add_comm, BitVec.ofNat_add, ← BitVec.add_assoc] at hmark
    exact hmark
  · have := h.room
    simp only [List.length_cons] at this
    omega

theorem Shows.last {c : UInt8} (h : Shows s unread (edit++[c])) :
    s.buf (index (s.e-1)) = c ∧ Shows { s with e := s.e-1 } unread edit := by
  have hpos : 0 < size (ring s) := by
    rw [h.size_eq]
    simp
  have hlast := contents_retract hpos
  rw [h.text, ← List.append_assoc] at hlast
  obtain ⟨hinit,hc⟩ := List.append_inj' hlast rfl
  refine ⟨(List.singleton_inj.mp hc).symm,hinit.symm,h.mark,?_,?_⟩
  · have := h.room
    simp only [List.length_append, List.length_singleton] at this
    omega
  · exact fun hn => h.line (List.mem_append_left _ hn)

theorem Shows.store (h : Shows s unread edit) (hroom : unread.length+edit.length < inputBufSize)
    (c : UInt8) : contents (ring { s with
      buf := update s.buf (index s.e) c, e := s.e+1 }) = unread++(edit++[c]) := by
  have hpush := contents_push (r := ring s) ring_dvd ring_lt (h.size_eq ▸ hroom) c
  rw [h.text, List.append_assoc] at hpush
  exact hpush

theorem killLoop_shows (n : ℕ) (h : Shows s unread edit) (hn : n = edit.length) :
    Shows (killLoop n s) unread [] := by
  induction n generalizing s edit with
  | zero =>
    obtain rfl := List.eq_nil_of_length_eq_zero hn.symm
    exact h
  | succ n ih =>
    obtain ⟨init,c,rfl⟩ : ∃ init c, edit = init++[c] :=
      ⟨_,_,(List.dropLast_append_getLast (List.ne_nil_of_length_pos (by omega))).symm⟩
    obtain ⟨hc,hinit⟩ := h.last
    have hne : s.e ≠ s.w := by simp [h.edit_nil]
    have hnl : s.buf (index (s.e-1)) ≠ newline := by
      rw [hc]
      rintro rfl
      exact h.line (by simp)
    rw [killLoop, if_pos ⟨hne,hnl⟩]
    exact ih hinit (by simpa using hn)

theorem intr_shows (h : Shows s unread edit) (c : UInt8) (before : List UInt8) :
    ∃ unread' edit', Shows (consoleintr c s) unread' edit' ∧
      keep c s (before++(unread++edit)) = before++(unread'++edit') ∧
      (c = ctrlU ∨ c = ctrlH ∨ c = delete → unread' = unread) := by
  unfold consoleintr keep
  by_cases hP : c = ctrlP
  · rw [if_pos hP, if_pos hP]
    exact ⟨_,_,h,rfl,fun _ => rfl⟩
  rw [if_neg hP, if_neg hP]
  by_cases hU : c = ctrlU
  · rw [if_pos hU, if_pos hU]
    have hsize : (s.e-s.w).toNat = edit.length := h.edit_size
    refine ⟨unread,[],killLoop_shows _ h hsize,?_,fun _ => rfl⟩
    rw [hsize, ← List.append_assoc, List.length_append, Nat.add_sub_cancel, List.take_left,
      List.append_nil]
  rw [if_neg hU, if_neg hU]
  by_cases hH : c = ctrlH ∨ c = delete
  · rw [if_pos hH, if_pos hH]
    rcases List.eq_nil_or_concat' edit with rfl | ⟨init,d,rfl⟩
    · have he : ¬s.e ≠ s.w := by simp [h.edit_nil]
      rw [if_neg he, if_neg he]
      exact ⟨_,_,h,rfl,fun _ => rfl⟩
    · have he : s.e ≠ s.w := by simp [h.edit_nil]
      rw [if_pos he, if_pos he]
      refine ⟨unread,init,h.last.2,?_,fun _ => rfl⟩
      rw [← List.append_assoc, ← List.append_assoc, List.dropLast_concat, List.append_assoc]
  rw [if_neg hH, if_neg hH]
  have herase : ∀ u, c = ctrlU ∨ c = ctrlH ∨ c = delete → u = unread :=
    fun u hc => absurd hc (by simpa [hU] using hH)
  by_cases hroom : c ≠ 0 ∧ (s.e-s.r).toNat < inputBufSize
  · rw [if_pos hroom, if_pos hroom]
    have hsize : (s.e-s.r).toNat = unread.length+edit.length := h.size_eq
    have hlt : unread.length+edit.length < inputBufSize := hsize ▸ hroom.2
    generalize (if c = carriageReturn then newline else c) = d
    have htext := h.store hlt d
    have hend : s.e+1 = s.r+BitVec.ofNat 32 (unread++(edit++[d])).length := by
      have htail : s.e = s.r+BitVec.ofNat 32 (size (ring s)) := tail_eq (r := ring s)
      rw [h.size_eq] at htail
      rw [List.length_append, List.length_append, List.length_singleton, ← Nat.add_assoc,
        BitVec.ofNat_add, ← BitVec.add_assoc, ← htail]
      rfl
    dsimp only
    split_ifs with hcommit
    · refine ⟨unread++(edit++[d]),[],⟨by rw [List.append_nil]; exact htext,hend,?_,
        by simp⟩,?_,herase _⟩
      · simp only [List.length_append, List.length_singleton, List.length_nil]
        omega
      · simp
    · refine ⟨unread,edit++[d],⟨htext,h.mark,?_,?_⟩,?_,herase _⟩
      · simp only [List.length_append, List.length_singleton]
        omega
      · simp only [not_or] at hcommit
        simpa [h.line] using Ne.symm hcommit.1
      · simp
  · rw [if_neg hroom, if_neg hroom]
    exact ⟨_,_,h,rfl,herase _⟩

end

/-- The characters a finished read took from the buffer: its bytes, or the
^D that made it return none. -/
def chars : Result → List UInt8
  | .returned _ bytes => if bytes = [] then [ctrlD] else bytes
  | .killed bytes => bytes

def Honest : Result → Prop
  | .returned count bytes => count = bytes.length ∧ ctrlD ∉ bytes
  | .killed bytes => ctrlD ∉ bytes

def Served (target : ℕ) (all : List UInt8) : Outcome → Prop
  | .waiting n bytes => bytes = all ∧ bytes.length+n = target ∧ 0 < n ∧ ctrlD ∉ bytes
  | .finished result => chars result = all ∧ Honest result

theorem readLoop_served (killed : Bool) {writable : ℕ → Bool} {target : ℕ}
    (hw : ∀ i < target, writable i = true) (hpos : 0 < target) (n : ℕ) (bytes : List UInt8)
    (s : Cons) (unread edit : List UInt8) (h : Shows s unread edit)
    (hlen : bytes.length+n = target) (hD : ctrlD ∉ bytes) :
    let out := readLoop killed writable target n bytes s
    ∃ rest, unread = out.2.1++rest ∧ Shows out.2.2 rest edit ∧
      Served target (bytes++out.2.1) out.1 := by
  induction n generalizing bytes s unread with
  | zero =>
    have hne : bytes ≠ [] := List.ne_nil_of_length_pos (by omega)
    exact ⟨unread,rfl,h,by simp [readLoop, chars, hne],by omega,hD⟩
  | succ n ih =>
    simp only [readLoop]
    cases unread with
    | nil =>
      have hr : s.r = s.w := h.unread_nil.mpr rfl
      rw [if_pos hr]
      refine ⟨[],rfl,h,?_⟩
      split_ifs
      · exact ⟨by simp [chars],hD⟩
      · exact ⟨by simp,hlen,by omega,hD⟩
    | cons c unread =>
      have hr : s.r ≠ s.w := by simp [h.unread_nil]
      obtain ⟨hc,htake⟩ := h.take
      rw [if_neg hr, hc]
      by_cases hcD : c = ctrlD
      · rw [if_pos hcD]
        split_ifs with hn
        · have hne : bytes ≠ [] := List.ne_nil_of_length_pos (by omega)
          refine ⟨c::unread,rfl,?_,by simp [chars, hne],by omega,hD⟩
          rw [BitVec.add_sub_cancel]
          exact h
        · have hnil : bytes = [] := List.eq_nil_of_length_eq_zero (by omega)
          subst hnil
          exact ⟨unread,rfl,htake,by simp [chars, hcD],by simp; omega,hD⟩
      · rw [if_neg hcD, if_pos (hw _ (by omega))]
        have hD' : ctrlD ∉ bytes++[c] := by simpa [hD] using Ne.symm hcD
        have hlen' : (bytes++[c]).length+n = target := by
          simp only [List.length_append, List.length_singleton]
          omega
        split_ifs with hnl
        · exact ⟨unread,rfl,htake,by simp [chars],by omega,hD'⟩
        · obtain ⟨rest,h₁,h₂,h₃⟩ := ih (bytes++[c]) _ unread htake hlen' hD'
          refine ⟨rest,by simp [h₁],h₂,?_⟩
          simpa using h₃

def pending (s : Sys) (p : ℕ) : List UInt8 := ((s.readers p).map Reader.bytes).getD []

/-- The characters process `p` took, and those its finished reads account for. -/
def takenBy (p : ℕ) (l : Ledger) : List UInt8 := (l.taken.filter (·.1 = p)).map Prod.snd
def readBy (p : ℕ) (l : Ledger) : List UInt8 :=
  (l.reads.filter (·.1 = p)).flatMap fun x => chars x.2

structure Ready (rd : Reader) : Prop where
  valid : ∀ i < rd.target, rd.writable i = true
  length : rd.bytes.length+rd.n = rd.target
  more : 0 < rd.n
  noEof : ctrlD ∉ rd.bytes

structure Inv (s : Sys) (l : Ledger) : Prop where
  shows : ∃ unread edit, Shows s.cons unread edit ∧
    l.kept = l.taken.map Prod.snd++(unread++edit)
  readers : ∀ p rd, s.readers p = some rd → Ready rd
  accounts : ∀ p, takenBy p l = readBy p l++pending s p
  honest : ∀ x ∈ l.reads, Honest x.2

theorem takenBy_append (p q : ℕ) (l : Ledger) (cs : List UInt8) :
    takenBy q { l with taken := l.taken++cs.map fun c => (p,c) } =
      takenBy q l++if q = p then cs else [] := by
  unfold takenBy
  rw [List.filter_append, List.map_append, List.filter_map]
  congr 1
  by_cases hqp : q = p
  · have hall : cs.filter ((fun x : ℕ × UInt8 => decide (x.1 = q)) ∘ fun c => (p,c)) = cs :=
      List.filter_eq_self.mpr fun c _ => by simp [hqp]
    rw [hall, if_pos hqp, List.map_map]
    exact List.map_id cs
  · have hnone : cs.filter ((fun x : ℕ × UInt8 => decide (x.1 = q)) ∘ fun c => (p,c)) = [] :=
      List.filter_eq_nil_iff.mpr fun c _ => by simp [Ne.symm hqp]
    rw [hnone, if_neg hqp]
    rfl

theorem ready_update {readers : ℕ → Option Reader} (h : ∀ p rd, readers p = some rd → Ready rd)
    (p : ℕ) (x : Option Reader) (hx : ∀ rd, x = some rd → Ready rd) :
    ∀ q rd, update readers p x q = some rd → Ready rd := by
  intro q rd hq
  by_cases hqp : q = p
  · subst hqp
    rw [Function.update_self] at hq
    exact hx rd hq
  · rw [update_of_ne hqp] at hq
    exact h q rd hq

theorem inv_serve {s : Sys} {l : Ledger} (hI : Inv s l) (p : ℕ) (rd : Reader) (hrd : Ready rd)
    (hbytes : rd.bytes = pending s p) : Inv (serve p rd s l).1 (serve p rd s l).2 := by
  obtain ⟨unread,edit,hshow,hkept⟩ := hI.shows
  obtain ⟨rest,hunread,hrest,hserved⟩ := readLoop_served (s.killed p) hrd.valid
    (by have := hrd.more; have := hrd.length; omega) rd.n rd.bytes s.cons unread edit hshow
    hrd.length hrd.noEof
  unfold serve
  generalize readLoop (s.killed p) rd.writable rd.target rd.n rd.bytes s.cons = out at *
  obtain ⟨o,taken,cons⟩ := out
  dsimp only at *
  have htext : l.kept = (l.taken++taken.map fun c => (p,c)).map Prod.snd++(rest++edit) := by
    rw [hkept, hunread]
    simp [Function.comp_def]
  have hother : ∀ q, q ≠ p → ∀ x, ((update s.readers p x q).map Reader.bytes).getD [] =
      pending s q := by
    intro q hq x
    rw [update_of_ne hq]
    rfl
  cases o with
  | waiting n bytes =>
    obtain ⟨hall,hlen,hmore,hD⟩ := hserved
    dsimp only
    refine ⟨⟨rest,edit,hrest,htext⟩,ready_update hI.readers p _ ?_,?_,hI.honest⟩
    · rintro _ ⟨⟩
      exact ⟨hrd.valid,hlen,hmore,hD⟩
    · intro q
      rw [takenBy_append, hI.accounts q]
      by_cases hqp : q = p
      · subst hqp
        simp [pending, readBy, hall, hbytes, List.append_assoc]
      · simp only [hqp, if_false, List.append_nil, pending, hother q hqp]
        rfl
  | finished result =>
    obtain ⟨hall,hhonest⟩ := hserved
    dsimp only
    refine ⟨⟨rest,edit,hrest,htext⟩,ready_update hI.readers p _ (by simp),?_,?_⟩
    · intro q
      have htaken := takenBy_append p q l taken
      unfold takenBy at htaken ⊢
      rw [htaken]
      have hacc := hI.accounts q
      unfold takenBy at hacc
      rw [hacc]
      by_cases hqp : q = p
      · subst hqp
        simp [pending, readBy, hall, hbytes, List.filter_append, List.append_assoc]
      · simp only [hqp, if_false, List.append_nil, pending, hother q hqp, readBy,
          List.filter_append, List.flatMap_append]
        simp [Ne.symm hqp]
    · intro x hx
      rcases List.mem_append.mp hx with hx | hx
      · exact hI.honest x hx
      · obtain rfl := List.mem_singleton.mp hx
        exact hhonest

def ValidRead : Event → Sys × Ledger → Prop
  | .read _ n writable, _ => ∀ i : ℕ, (i : ℤ) < n → writable i = true
  | _, _ => True

theorem inv_step (e : Event) (t t' : Sys × Ledger) (hI : Inv t.1 t.2) (hok : ValidRead e t)
    (h : step e t = some t') : Inv t'.1 t'.2 := by
  obtain ⟨s,l⟩ := t
  cases e with
  | intr c =>
    simp only [step, Option.some.injEq] at h
    subst h
    obtain ⟨unread,edit,hshow,hkept⟩ := hI.shows
    obtain ⟨unread',edit',hshow',hkeep,_⟩ := intr_shows hshow c (l.taken.map Prod.snd)
    refine ⟨⟨unread',edit',hshow',?_⟩,hI.readers,hI.accounts,hI.honest⟩
    rw [← hkeep, ← hkept]
  | read p n writable =>
    simp only [step, ne_eq, ite_not] at h
    split_ifs at h with hnone hn
    · obtain rfl := Option.some.inj h
      exact hI
    · obtain rfl := Option.some.inj h
      refine inv_serve hI p _ ⟨fun i hi => hok i ?_,by simp,?_,by simp⟩ ?_
      · dsimp only at hi
        omega
      · dsimp only
        omega
      · simp [pending, hnone]
  | resume p =>
    simp only [step, Option.map_eq_some_iff] at h
    obtain ⟨rd,hrd,rfl⟩ := h
    exact inv_serve hI p rd (hI.readers p rd hrd) (by simp [pending, hrd])
  | kill p =>
    simp only [step, Option.some.injEq] at h
    subst h
    exact ⟨hI.shows,hI.readers,hI.accounts,hI.honest⟩

theorem inv_boot : Inv boot.1 boot.2 := by
  refine ⟨⟨[],[],⟨rfl,rfl,by decide,by simp⟩,rfl⟩,?_,?_,?_⟩
  · intro p rd h
    simp [boot] at h
  · intro p
    rfl
  · intro x hx
    simp [boot] at hx

/-- In every run of interrupts and reads into valid buffers the indices stay in
order, erasing leaves the committed characters alone, and the characters taken
followed by those still buffered are the accepted characters that were not
erased. Each process accounts for what it took: the bytes its reads returned
and one ^D for each read that returned none. With a single reader these are
the bytes of its successive reads. -/
theorem console_faithful (es : List Event) (s : Sys) (l : Ledger)
    (hok : Meets step ValidRead es boot) (hrun : run step es boot = some (s,l)) :
    ((s.cons.w-s.cons.r).toNat ≤ (s.cons.e-s.cons.r).toNat ∧
      (s.cons.e-s.cons.r).toNat ≤ inputBufSize) ∧
    (∀ c, c = ctrlU ∨ c = ctrlH ∨ c = delete →
      committed (consoleintr c s.cons) = committed s.cons) ∧
    l.kept = l.taken.map Prod.snd++contents (ring s.cons) ∧
    (∀ p, takenBy p l = readBy p l++pending s p) ∧
    (∀ x ∈ l.reads, Honest x.2) ∧
    (∀ p, (∀ x ∈ l.taken, x.1 = p) →
      l.kept = readBy p l++pending s p++contents (ring s.cons)) := by
  have hI : Inv s l := run_guarded step ValidRead (fun t => Inv t.1 t.2)
    (fun e t t' h₁ h₂ h₃ => inv_step e t t' h₁ h₂ h₃) es boot (s,l) inv_boot hok hrun
  obtain ⟨unread,edit,hshow,hkept⟩ := hI.shows
  have hunread : (s.cons.w-s.cons.r).toNat = unread.length := hshow.unread_size
  have hbuffered : (s.cons.e-s.cons.r).toNat = unread.length+edit.length := hshow.size_eq
  have hroom := hshow.room
  refine ⟨⟨by omega,by omega⟩,?_,?_,hI.accounts,hI.honest,?_⟩
  · intro c hc
    obtain ⟨unread',edit',hshow',_,hsame⟩ := intr_shows hshow c []
    rw [hshow'.committed_eq, hshow.committed_eq, hsame hc]
  · rw [hkept, hshow.text]
  · intro p hp
    have hall : takenBy p l = l.taken.map Prod.snd := by
      rw [takenBy, List.filter_eq_self.mpr fun x hx => by simp [hp x hx]]
    rw [← hI.accounts p, hall, hkept, hshow.text]

/-- The line `a`, an erased `b`, then ^D: the first read gets the line, the
second one end of file. -/
def typed : List Event :=
  [.read 1 8 (fun _ => true),.intr 97,.intr 98,.intr delete,.intr carriageReturn,.resume 1,
   .intr ctrlD,.read 1 8 (fun _ => true)]

theorem typed_faithful : ∃ s l, run step typed boot = some (s,l) ∧
    l.reads = [(1,.returned 2 [97,newline]),(1,.returned 0 [])] ∧
    l.kept = readBy 1 l++pending s 1++contents (ring s.cons) := by
  have hsome : (run step typed boot).any (fun t => decide (t.2.reads =
      [(1,.returned 2 [97,newline]),(1,.returned 0 [])] ∧ ∀ x ∈ t.2.taken, x.1 = 1)) = true := by
    decide +kernel
  obtain ⟨⟨s,l⟩,ht,hreads⟩ := (Option.any_eq_true _ _).mp hsome
  simp only [decide_eq_true_eq] at hreads
  have hok : Meets step ValidRead typed boot := by
    simp [typed, Meets, ValidRead]
  exact ⟨s,l,ht,hreads.1,(console_faithful typed s l hok ht).2.2.2.2.2 1 hreads.2⟩

end GreenOS.ConsoleLine
