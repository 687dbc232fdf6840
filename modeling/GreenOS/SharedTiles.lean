import GreenOS.SharedWrites

/-!
# The chunks of shared writers

Only the holder of the inode's lock changes the inode or the offset. So the
chunks in the ledger follow each other without overlap or gap, the file holds
their bytes, and those of a call stand in order.
-/

namespace GreenOS.SharedTiles
open Programs LogCode DiskLayout ProcTable
open BufferSeq (Env)
open FsMemory FsDirect FsOwned
open FsTable FileBytes WriteChunk StepRun SharedWrites
open Function (update update_self update_of_ne)

def Tiles : ℕ → List Chunk → ℕ → Prop
  | lo, [], hi => lo = hi
  | lo, x::xs, hi => x.start = lo ∧ Tiles (lo+x.bytes.length) xs hi

def written (l : List Chunk) : List UInt8 := l.flatMap (fun x => x.bytes)

def pieces (l : List Chunk) (p : Slot) (m : ℕ) : List UInt8 :=
  written (l.filter (fun x => x.proc = p ∧ x.call = m))

section Ledger
variable {l : List Chunk} {x : Chunk} {lo hi : ℕ} {a : List UInt8}

theorem written_snoc : written (l++[x]) = written l++x.bytes := by
  simp [written]

theorem tiles_snoc (h : Tiles lo l hi) (hx : x.start = hi) :
    Tiles lo (l++[x]) (hi+x.bytes.length) := by
  induction l generalizing lo with
  | nil =>
    obtain rfl : lo = hi := h
    exact ⟨hx,rfl⟩
  | cons y ys ih => exact ⟨h.1,ih h.2⟩

theorem pieces_snoc_self : pieces (l++[x]) x.proc x.call = pieces l x.proc x.call++x.bytes := by
  simp [pieces, written, List.filter_append]

theorem pieces_snoc_of_ne {p : Slot} {m : ℕ} (h : x.proc ≠ p ∨ x.call ≠ m) :
    pieces (l++[x]) p m = pieces l p m := by
  have hx : ¬(x.proc = p ∧ x.call = m) := by tauto
  simp [pieces, List.filter_append, hx]

variable {off : ℕ} {b : List UInt8}

theorem overwrite_overwrite {c : List UInt8} (h : off ≤ a.length) :
    overwrite (overwrite a off b) (off+b.length) c = overwrite a off (b++c) := by
  have hlen : (a.take off++b).length = off+b.length := by
    rw [List.length_append, List.length_take, Nat.min_eq_left h]
  unfold overwrite
  rw [List.take_left' hlen, List.length_append, ← List.append_assoc (a.take off) b c]
  congr 1
  rw [← Nat.add_assoc, ← List.drop_drop, List.drop_left' hlen, List.drop_drop]

theorem le_of_le_overwrite (h : off+b.length ≤ (overwrite a off b).length) : off ≤ a.length := by
  simp only [overwrite, List.length_append, List.length_take, List.length_drop] at h
  omega

theorem placed_of_tiles (h : Tiles lo l hi) (hlo : lo ≤ a.length) (hx : x ∈ l) :
    ((overwrite a lo (written l)).drop x.start).take x.bytes.length = x.bytes := by
  induction l generalizing lo a with
  | nil => cases hx
  | cons y ys ih =>
    have hsplit : overwrite a lo (written (y::ys)) =
        overwrite (overwrite a lo y.bytes) (lo+y.bytes.length) (written ys) := by
      rw [overwrite_overwrite hlo]
      rfl
    have hroom : lo+y.bytes.length ≤ (overwrite a lo y.bytes).length := by
      simp only [overwrite, List.length_append, List.length_take, List.length_drop]
      omega
    rcases List.mem_cons.mp hx with rfl | hx
    · have hlen : (a.take lo).length = lo := by rw [List.length_take, Nat.min_eq_left hlo]
      rw [h.1, overwrite, List.append_assoc, List.drop_left' hlen]
      simp [written]
    · rw [hsplit]
      exact ih h.2 hroom hx

end Ledger

def InLock : Phase → Prop
  | .inside _ _ _ => True
  | .release _ _ _ => True
  | _ => False

/-- How far a process is: its completed calls have written all their bytes, and
the current one those before its counter. -/
structure Progress (f : Phase) (done : List (Call × ℤ)) (out : ℕ → List UInt8) : Prop where
  current : match f with
    | .idle => out done.length = []
    | .head c i => i ≤ c.bytes.length ∧ out done.length = c.bytes.take i
    | .lock c i => i < c.bytes.length ∧ out done.length = c.bytes.take i
    | .acquire c i => i < c.bytes.length ∧ out done.length = c.bytes.take i
    | .inside c i _ => i < c.bytes.length ∧ out done.length = c.bytes.take (i+chunkLen c i)
    | .release c i r => i < c.bytes.length ∧ r = chunkLen c i ∧
      out done.length = c.bytes.take (i+chunkLen c i)
    | .finish c i r => i < c.bytes.length ∧ r = chunkLen c i ∧
      out done.length = c.bytes.take (i+chunkLen c i)
  completed : ∀ m c r, done[m]? = some (c,r) → r = c.bytes.length ∧ out m = c.bytes
  later : ∀ m, done.length < m → out m = []

section Progress
variable {f : Phase} {done : List (Call × ℤ)} {out out' : ℕ → List UInt8} {c : Call} {i : ℕ}

theorem progress_complete (h : Progress (.head c i) done out) (hi : ¬i < c.bytes.length) :
    Progress .idle (done++[(c,result c i)]) out := by
  obtain ⟨hle,hout⟩ := h.current
  obtain rfl : i = c.bytes.length := by omega
  rw [List.take_length] at hout
  constructor
  · exact h.later _ (by simp)
  · intro m c' r hm
    rcases Nat.lt_trichotomy m done.length with hlt | rfl | hgt
    · rw [List.getElem?_append_left hlt] at hm
      exact h.completed m c' r hm
    · rw [List.getElem?_concat_length] at hm
      cases hm
      exact ⟨if_pos rfl,hout⟩
    · rw [List.getElem?_eq_none (by simp; omega)] at hm
      cases hm
  · intro m hm
    exact h.later m (by simp at hm; omega)

theorem progress_running (h : Progress f done out) (hc : callOf f = some c) :
    out done.length <+: c.bytes := by
  have hcur := h.current
  cases f with
  | idle => cases hc
  | head c' i | lock c' i | acquire c' i | inside c' i body =>
    cases hc
    rw [hcur.2]
    exact List.take_prefix _ _
  | release c' i r | finish c' i r =>
    cases hc
    rw [hcur.2.2]
    exact List.take_prefix _ _

theorem progress_chunk (h : Progress (.acquire c i) done out) (body : F ℤ)
    (hself : out' done.length = out done.length++chunkBytes c i)
    (hother : ∀ m, m ≠ done.length → out' m = out m) :
    Progress (.inside c i body) done out' := by
  obtain ⟨hi,hout⟩ := h.current
  constructor
  · refine ⟨hi,?_⟩
    rw [hself, hout, chunkBytes, ← List.take_add]
  · intro m c' r hm
    have hlt : m < done.length := (List.getElem?_eq_some_iff.mp hm).1
    rw [hother m (by omega)]
    exact h.completed m c' r hm
  · intro m hm
    rw [hother m (by omega)]
    exact h.later m hm

end Progress

def Settled (sb : Superblock) (fi : Fin nfile) (k : Fin ninode) (a : List UInt8) (off : ℕ)
    (l : List Chunk) (fs : Fs) : Prop :=
  ∃ D own, Holds sb fi k (overwrite a off (written l)) (off+(written l).length) D own fs

def Busy (sb : Superblock) (fi : Fin nfile) (k : Fin ninode) (a : List UInt8) (off : ℕ)
    (l : List Chunk) (fs : Fs) : Phase → Prop
  | .inside c i body => Every (KeepsLock k) body ∧ ∃ r fs',
      exec (handle c.env) body fs = .ok (r,fs') ∧
      (r = chunkLen c i → off ≤ a.length ∧ Settled sb fi k a off l fs')
  | .release _ _ _ => off ≤ a.length ∧ Settled sb fi k a off l fs
  | _ => False

structure Inv (sb : Superblock) (fi : Fin nfile) (k : Fin ninode) (a : List UInt8) (off : ℕ)
    (s : Sys) : Prop where
  tiles : Tiles off s.ledger (off+(written s.ledger).length)
  sizes : ∀ x ∈ s.ledger, 0 < x.bytes.length ∧ x.bytes.length ≤ maxChunk
  free : (s.fs.mem.itable k).lock = none →
    (s.ledger = [] ∨ off ≤ a.length) ∧ Settled sb fi k a off s.ledger s.fs
  holder : ∀ p, InLock (s.phase p) → (s.fs.mem.itable k).lock = some p
  busy : ∀ p, (s.fs.mem.itable k).lock = some p → Busy sb fi k a off s.ledger s.fs (s.phase p)
  progress : ∀ p, Progress (s.phase p) (s.finished p) (pieces s.ledger p)

/-- `writei`, if it has returned, has returned as many bytes as it was given. -/
def Whole : Phase → Prop
  | .inside c i (.pure r) => r = chunkLen c i
  | _ => True

def Succeeds : Event → Sys → Prop
  | .run p, s => Whole (s.phase p)
  | .start _ _, _ => True

section Step
variable {sb : Superblock} {fi : Fin nfile} {k : Fin ninode} {a : List UInt8} {off : ℕ}
variable {s s' : Sys} {p : Slot} {l : List Chunk} {fs : Fs}

theorem settled_lock (h : Settled sb fi k a off l fs) (lk : Option Slot) :
    Settled sb fi k a off l (setEntry fs k { fs.mem.itable k with lock := lk }) := by
  obtain ⟨D,own,h⟩ := h
  have hinode : inodeOf sb k (setEntry fs k { fs.mem.itable k with lock := lk }) =
      inodeOf sb k fs := by
    simp only [inodeOf, setEntry_self, setEntry_blocks]
  refine ⟨D,own,h.stored,?_,?_,?_,?_,?_,h.off_eq,h.off_lt⟩
  · rw [setEntry_self]
    exact h.inum_lt
  · rw [hinode, setEntry_self]
    exact h.inode
  · rw [setEntry_self]
    exact h.type_ne
  · rw [setEntry_self]
    exact h.ref
  · rw [fileBytes, hinode]
    exact h.bytes

theorem holder_ne (h : Inv sb fi k a off s) (hp : ¬InLock (s.phase p)) {q : Slot}
    (hq : (s.fs.mem.itable k).lock = some q) : q ≠ p := by
  rintro rfl
  have := h.busy q hq
  cases hf : s.phase q <;> rw [hf] at this hp <;> first | exact this | exact hp trivial

variable {f : Phase} {c : Call} {i : ℕ}

theorem inv_outside (h : Inv sb fi k a off s) {done : List (Call × ℤ)} (hold : ¬InLock (s.phase p))
    (hnew : ¬InLock f) (hprog : Progress f done (pieces s.ledger p)) :
    Inv sb fi k a off { s with
      phase := update s.phase p f
      finished := update s.finished p done } := by
  constructor
  · exact h.tiles
  · exact h.sizes
  · exact h.free
  · intro q hq
    dsimp only at hq ⊢
    by_cases hqp : q = p
    · rw [hqp, update_self] at hq
      exact absurd hq hnew
    · rw [update_of_ne hqp] at hq
      exact h.holder q hq
  · intro q hq
    dsimp only at hq ⊢
    rw [update_of_ne (holder_ne h hold hq)]
    exact h.busy q hq
  · intro q
    dsimp only
    by_cases hqp : q = p
    · rw [hqp, update_self, update_self]
      exact hprog
    · rw [update_of_ne hqp, update_of_ne hqp]
      exact h.progress q

theorem inv_setPhase (h : Inv sb fi k a off s) (hold : ¬InLock (s.phase p)) (hnew : ¬InLock f)
    (hprog : Progress f (s.finished p) (pieces s.ledger p)) :
    Inv sb fi k a off (setPhase s p f) := by
  have := inv_outside h hold hnew hprog
  rwa [Function.update_eq_self] at this

theorem inv_acquire (hsb : Layout sb) (h : Inv sb fi k a off s) (hp : s.phase p = .acquire c i)
    (hlock : (s.fs.mem.itable k).lock = none) :
    Inv sb fi k a off { setPhase s p (.inside c i (inner sb fi k c i)) with
      fs := setEntry s.fs k { s.fs.mem.itable k with lock := some p }
      ledger :=
        s.ledger++[⟨p,(s.finished p).length,(s.fs.mem.ftable fi).off,chunkBytes c i⟩] } := by
  obtain ⟨hroom,hsettled⟩ := h.free hlock
  have hprog := h.progress p
  rw [hp] at hprog
  have hi := hprog.current.1
  have hlen : (chunkBytes c i).length = chunkLen c i := (gives_chunk c hi.le).1
  have hoff : (s.fs.mem.ftable fi).off = off+(written s.ledger).length := by
    obtain ⟨D,own,hholds⟩ := hsettled
    exact hholds.off_eq
  have hlocked : ((setEntry s.fs k { s.fs.mem.itable k with lock := some p }).mem.itable k).lock =
      some p := by rw [setEntry_self]
  constructor
  · dsimp only
    rw [written_snoc, List.length_append, ← Nat.add_assoc]
    exact tiles_snoc h.tiles hoff
  · intro x hx
    rcases List.mem_append.mp hx with hx | hx
    · exact h.sizes x hx
    · rw [List.mem_singleton.mp hx]
      dsimp only
      have hmax := maxChunk_pos
      rw [hlen, chunkLen]
      omega
  · intro hnone
    dsimp only at hnone
    rw [hlocked] at hnone
    cases hnone
  · intro q hq
    dsimp only [setPhase] at hq ⊢
    rw [hlocked]
    by_cases hqp : q = p
    · rw [hqp]
    · rw [update_of_ne hqp] at hq
      have := h.holder q hq
      rw [hlock] at this
      cases this
  · intro q hq
    dsimp only [setPhase] at hq ⊢
    rw [hlocked] at hq
    cases hq
    rw [update_self]
    refine ⟨keepsLock_inner c i,?_⟩
    obtain ⟨D,own,hholds⟩ := settled_lock hsettled (some p)
    obtain ⟨r,fs',hexec,hdone⟩ := exec_inner hsb hholds c hi
    refine ⟨r,fs',hexec,fun hr => ?_⟩
    obtain ⟨hle,D',own',hholds'⟩ := hdone hr
    have hle' := le_of_le_overwrite hle
    refine ⟨hle',D',own',?_⟩
    rw [written_snoc, List.length_append, ← Nat.add_assoc, ← overwrite_overwrite hle', hlen]
    exact hholds'
  · intro q
    dsimp only [setPhase]
    by_cases hqp : q = p
    · subst hqp
      rw [update_self]
      apply progress_chunk hprog
      · exact pieces_snoc_self (x := ⟨q,(s.finished q).length,_,chunkBytes c i⟩)
      · exact fun m hm => pieces_snoc_of_ne (.inr (Ne.symm hm))
    · rw [update_of_ne hqp]
      have hsame : pieces (s.ledger++[⟨p,(s.finished p).length,(s.fs.mem.ftable fi).off,
          chunkBytes c i⟩]) q = pieces s.ledger q :=
        funext (fun m => pieces_snoc_of_ne (.inl (Ne.symm hqp)))
      rw [hsame]
      exact h.progress q

theorem inv_inside (h : Inv sb fi k a off s) {fs : Fs} (hold : InLock (s.phase p))
    (hlock : (fs.mem.itable k).lock = (s.fs.mem.itable k).lock)
    (hbusy : Busy sb fi k a off s.ledger fs f)
    (hprog : Progress f (s.finished p) (pieces s.ledger p)) :
    Inv sb fi k a off { setPhase s p f with fs := fs } := by
  have hp := h.holder p hold
  constructor
  · exact h.tiles
  · exact h.sizes
  · intro hnone
    dsimp only at hnone
    rw [hlock, hp] at hnone
    cases hnone
  · intro q hq
    dsimp only [setPhase] at hq ⊢
    rw [hlock]
    by_cases hqp : q = p
    · rw [hqp]
      exact hp
    · rw [update_of_ne hqp] at hq
      exact h.holder q hq
  · intro q hq
    dsimp only [setPhase] at hq ⊢
    rw [hlock, hp] at hq
    cases hq
    rw [update_self]
    exact hbusy
  · intro q
    dsimp only [setPhase]
    by_cases hqp : q = p
    · rw [hqp, update_self]
      exact hprog
    · rw [update_of_ne hqp]
      exact h.progress q

theorem inv_release (h : Inv sb fi k a off s) {r : ℤ} (hp : s.phase p = .release c i r) :
    Inv sb fi k a off { setPhase s p (.finish c i r) with
      fs := setEntry s.fs k { s.fs.mem.itable k with lock := none } } := by
  have hlock := h.holder p (by rw [hp]; trivial)
  have hbusy := h.busy p hlock
  have hprog := h.progress p
  rw [hp] at hbusy hprog
  have hnone : ((setEntry s.fs k { s.fs.mem.itable k with lock := none }).mem.itable k).lock =
      none := by rw [setEntry_self]
  constructor
  · exact h.tiles
  · exact h.sizes
  · exact fun _ => ⟨.inr hbusy.1,settled_lock hbusy.2 none⟩
  · intro q hq
    dsimp only [setPhase] at hq
    by_cases hqp : q = p
    · rw [hqp, update_self] at hq
      exact hq.elim
    · rw [update_of_ne hqp] at hq
      have := h.holder q hq
      rw [hlock] at this
      exact absurd (Option.some.inj this).symm hqp
  · intro q hq
    dsimp only at hq
    rw [hnone] at hq
    cases hq
  · intro q
    dsimp only [setPhase]
    by_cases hqp : q = p
    · rw [hqp, update_self]
      exact ⟨hprog.current,hprog.completed,hprog.later⟩
    · rw [update_of_ne hqp]
      exact h.progress q

theorem inv_step (hsb : Layout sb) (e : Event) (s s' : Sys) (h : Inv sb fi k a off s)
    (hok : Succeeds e s) (hstep : step sb fi k e s = some s') : Inv sb fi k a off s' := by
  cases e with
  | start p c =>
    have hprog := h.progress p
    cases hp : s.phase p with
    | idle =>
      rw [step, hp] at hstep
      cases hstep
      rw [hp] at hprog
      exact inv_setPhase h (by rw [hp]; exact id) id
        ⟨⟨Nat.zero_le _,hprog.current⟩,hprog.completed,hprog.later⟩
    | _ =>
      rw [step, hp] at hstep
      cases hstep
  | run p =>
    have hprog := h.progress p
    cases hp : s.phase p with
    | idle =>
      rw [step, hp] at hstep
      cases hstep
    | head c i =>
      rw [hp] at hprog
      rw [step, hp] at hstep
      dsimp only at hstep
      split_ifs at hstep with hi
      · cases hstep
        exact inv_setPhase h (by rw [hp]; exact id) id
          ⟨⟨hi,hprog.current.2⟩,hprog.completed,hprog.later⟩
      · cases hstep
        exact inv_outside h (by rw [hp]; exact id) id (progress_complete hprog hi)
    | lock c i =>
      rw [hp] at hprog
      rw [step, hp] at hstep
      dsimp only at hstep
      split_ifs at hstep with href
      cases hstep
      exact inv_setPhase h (by rw [hp]; exact id) id
        ⟨hprog.current,hprog.completed,hprog.later⟩
    | acquire c i =>
      rw [step, hp] at hstep
      dsimp only at hstep
      split_ifs at hstep with hlock
      cases hstep
      exact inv_acquire hsb h hp (by simpa using hlock)
    | inside c i body =>
      have hin : InLock (s.phase p) := by
        rw [hp]
        trivial
      have hbusy := h.busy p (h.holder p hin)
      rw [hp] at hprog hbusy
      obtain ⟨hevery,r,fs',hexec,hdone⟩ := hbusy
      cases body with
      | pure r₀ =>
        cases hexec
        rw [Succeeds, hp] at hok
        rw [step, hp] at hstep
        dsimp only at hstep
        split_ifs at hstep with hlock
        cases hstep
        exact inv_inside h hin rfl (hdone hok)
          ⟨⟨hprog.current.1,hok,hprog.current.2⟩,hprog.completed,hprog.later⟩
      | step cmd next =>
        rw [step, hp] at hstep
        dsimp only at hstep
        rw [exec] at hexec
        cases hc : handle c.env cmd s.fs with
        | ok rf =>
          rw [hc] at hstep hexec
          cases hstep
          exact inv_inside h hin (keepsLock_handle hevery.1 hc).1
            ⟨hevery.2 rf.1,r,fs',hexec,hdone⟩ ⟨hprog.current,hprog.completed,hprog.later⟩
        | panic msg =>
          rw [hc] at hstep
          cases hstep
        | wait =>
          rw [hc] at hstep
          cases hstep
    | release c i r =>
      rw [step, hp] at hstep
      cases hstep
      exact inv_release h hp
    | finish c i r =>
      rw [hp] at hprog
      obtain ⟨hi,hr,hout⟩ := hprog.current
      rw [step, hp] at hstep
      dsimp only at hstep
      rw [if_neg (not_not.mpr hr)] at hstep
      cases hstep
      refine inv_setPhase h (by rw [hp]; exact id) id ⟨⟨?_,hout⟩,hprog.completed,hprog.later⟩
      rw [chunkLen]
      omega

end Step

structure Start (sb : Superblock) (fi : Fin nfile) (k : Fin ninode) (D : Inodes) (own : Owners)
    (s : Sys) : Prop where
  holds : Holds sb fi k (fileBytes sb k s.fs) (s.fs.mem.ftable fi).off D own s.fs
  ip : (s.fs.mem.ftable fi).ip = some k
  lock : (s.fs.mem.itable k).lock = none
  idle : ∀ p, s.phase p = .idle
  ledger : s.ledger = []
  finished : ∀ p, s.finished p = []

structure Tiled (sb : Superblock) (fi : Fin nfile) (k : Fin ninode) (s₀ s : Sys) : Prop where
  sizes : ∀ x ∈ s.ledger, 0 < x.bytes.length ∧ x.bytes.length ≤ maxChunk
  tiles : (s.fs.mem.itable k).lock = none →
    Tiles (s₀.fs.mem.ftable fi).off s.ledger (s.fs.mem.ftable fi).off
  stored : (s.fs.mem.itable k).lock = none → fileBytes sb k s.fs =
    overwrite (fileBytes sb k s₀.fs) (s₀.fs.mem.ftable fi).off (written s.ledger)
  placed : (s.fs.mem.itable k).lock = none → ∀ x ∈ s.ledger,
    ((fileBytes sb k s.fs).drop x.start).take x.bytes.length = x.bytes
  order : ∀ p m c r, (s.finished p)[m]? = some (c,r) →
    r = c.bytes.length ∧ pieces s.ledger p m = c.bytes
  running : ∀ p c, callOf (s.phase p) = some c →
    pieces s.ledger p (s.finished p).length <+: c.bytes

section Main
variable {sb : Superblock} {fi : Fin nfile} {k : Fin ninode} {D : Inodes} {own : Owners}

theorem overwrite_nil (a : List UInt8) (off : ℕ) : overwrite a off [] = a := by
  simp [overwrite]

theorem inv_start {s : Sys} (h : Start sb fi k D own s) :
    Inv sb fi k (fileBytes sb k s.fs) (s.fs.mem.ftable fi).off s := by
  have hempty : ∀ p m, pieces s.ledger p m = [] := by
    intro p m
    rw [h.ledger]
    rfl
  constructor
  · rw [h.ledger]
    rfl
  · rw [h.ledger]
    nofun
  · intro _
    refine ⟨.inl h.ledger,D,own,?_⟩
    rw [h.ledger]
    have hw : written [] = [] := rfl
    rw [hw, overwrite_nil]
    exact h.holds
  · intro p hp
    rw [h.idle p] at hp
    exact hp.elim
  · intro p hp
    rw [h.lock] at hp
    cases hp
  · intro p
    rw [h.idle p, h.finished p]
    exact ⟨hempty p 0,fun m c r hm => by simp at hm,fun m _ => hempty p m⟩

/-- Writers that share a file lose no update: whatever their interleaving, their
chunks follow each other from the first offset to the last, each stands where
`f->off` was when its writer locked the inode, and those of a call are its bytes
in order. -/
theorem shared_writes_tile (hsb : Layout sb) (s₀ s : Sys) (es : List Event)
    (h₀ : Start sb fi k D own s₀) (hok : Meets (step sb fi k) Succeeds es s₀)
    (hrun : run (step sb fi k) es s₀ = some s) : Tiled sb fi k s₀ s := by
  have hinv := run_guarded (step sb fi k) Succeeds _ (inv_step hsb) es s₀ s (inv_start h₀) hok hrun
  constructor
  · exact hinv.sizes
  · intro hlock
    obtain ⟨_,D',own',hholds⟩ := hinv.free hlock
    rw [hholds.off_eq]
    exact hinv.tiles
  · intro hlock
    obtain ⟨_,D',own',hholds⟩ := hinv.free hlock
    exact hholds.bytes
  · intro hlock x hx
    obtain ⟨hroom,D',own',hholds⟩ := hinv.free hlock
    rw [hholds.bytes]
    have hle := hroom.resolve_left (fun hnil => by rw [hnil] at hx; cases hx)
    exact placed_of_tiles hinv.tiles hle hx
  · exact fun p m c r hm => (hinv.progress p).completed m c r hm
  · exact fun p c hc => progress_running (hinv.progress p) hc

end Main

instance : (f : Phase) → Decidable (Whole f)
  | .inside c i (.pure r) => inferInstanceAs (Decidable (r = chunkLen c i))
  | .inside _ _ (.step _ _) => isTrue trivial
  | .idle | .head _ _ | .lock _ _ | .acquire _ _ | .release _ _ _ | .finish _ _ _ => isTrue trivial

instance : (e : Event) → (s : Sys) → Decidable (Succeeds e s)
  | .run p, s => inferInstanceAs (Decidable (Whole (s.phase p)))
  | .start _ _, _ => isTrue trivial

def lowMemory (bytes : List UInt8) : Env where
  copyin := fun src n => if src.toNat+n ≤ bytes.length then ((bytes.drop src.toNat).take n,true)
    else ([],false)
  copyout := fun _ _ => false
  copyin_le := fun src n => by
    split_ifs
    · exact (List.length_take_le _ _)
    · exact Nat.zero_le _
  copyin_full := fun src n h => by
    split_ifs at h ⊢ with hle
    rw [List.length_take, List.length_drop]
    omega

def lowCall (bytes : List UInt8) (h : bytes.length < 2^64) : Call where
  env := lowMemory bytes
  addr := 0
  bytes := bytes
  readable := fun tot m hle => by
    have haddr : ((0 : BitVec 64)+BitVec.ofNat 64 tot).toNat = tot := by
      simp only [BitVec.ofNat_eq_ofNat, BitVec.zero_add, BitVec.toNat_ofNat]
      exact Nat.mod_eq_of_lt (by omega)
    simp only [lowMemory, haddr, if_pos hle]

def tinySys : Sys where
  fs := setMem tinyFs (setFile tinyFs.mem 0 ⟨.inode,1,true,true,some 0,0,0⟩)
  phase := fun _ => .idle
  ledger := []
  finished := fun _ => []

theorem tinySys_start : Start tiny 0 0 tinyInodes tinyOwners tinySys where
  holds :=
    { stored := tiny_open.stored
      inum_lt := tiny_open.inum_lt
      inode := tiny_open.copy
      type_ne := tiny_open.type_ne
      ref := by decide
      bytes := rfl
      off_eq := rfl
      off_lt := by decide }
  ip := rfl
  lock := rfl
  idle := fun _ => rfl
  ledger := rfl
  finished := fun _ => rfl

def twoWriters : List Event :=
  [.start 0 (lowCall [1,2,3] (by decide)),.start 1 (lowCall [4,5] (by decide))]++
    List.replicate 3 (.run 0)++List.replicate 2 (.run 1)++List.replicate 20 (.run 0)++
    List.replicate 21 (.run 1)

theorem twoWriters_tile : ∃ s, run (step tiny 0 0) twoWriters tinySys = some s ∧
    Tiled tiny 0 0 tinySys s := by
  have hsome : (run (step tiny 0 0) twoWriters tinySys).isSome = true := by decide +kernel
  have hok : Meets (step tiny 0 0) Succeeds twoWriters tinySys := by decide +kernel
  obtain ⟨s,hrun⟩ := Option.isSome_iff_exists.mp hsome
  exact ⟨s,hrun,shared_writes_tile tiny_layout tinySys s twoWriters tinySys_start hok hrun⟩

/-- The last turn, in which the second writer returns. -/
theorem twoWriters_follows : ∃ s s' c, run (step tiny 0 0) twoWriters.dropLast tinySys = some s ∧
    step tiny 0 0 (.run 1) s = some s' ∧ callOf (s.phase 1) = some c ∧
    Follows tiny 0 0 1 c s s' := by
  have hsome : ((run (step tiny 0 0) twoWriters.dropLast tinySys).bind
      (step tiny 0 0 (.run 1))).isSome = true := by decide +kernel
  obtain ⟨s',hs'⟩ := Option.isSome_iff_exists.mp hsome
  obtain ⟨s,hrun,hstep⟩ := Option.bind_eq_some_iff.mp hs'
  obtain ⟨c,hc,hfollows⟩ := run_refines hstep
  exact ⟨s,s',c,hrun,hstep,hc,hfollows⟩

end GreenOS.SharedTiles
