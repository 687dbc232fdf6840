import GreenOS.BufferSeq

/-!
# The buffer cache with its recycling

`bio.c` with its `NBUF` buffers, their reference counts and the list that orders
them by last use.
-/

namespace GreenOS.BufferCache
open Programs LogCode
open BufferSeq (Disk)
open Function (update update_self update_of_ne)

def rootdev : ℕ := 1

structure Buf where
  dev : ℕ
  blockno : ℕ
  valid : Bool
  refcnt : ℕ
  locked : Bool
  data : Block

/-- The cache, the disk `ROOTDEV` below it and the log above it. `order` is the
list from `head.next` on, most recently used first. -/
structure Sys where
  disk : Disk
  buf : Fin nbuf → Buf
  order : List (Fin nbuf)
  log : Log

def caches (x : Buf) (b : ℕ) : Prop := x.dev = rootdev ∧ x.blockno = b

instance (x : Buf) (b : ℕ) : Decidable (caches x b) := inferInstanceAs (Decidable (_ ∧ _))

def lookup (s : Sys) (b : ℕ) : Option (Fin nbuf) := s.order.find? (fun i => caches (s.buf i) b)

def recyclable (s : Sys) : Option (Fin nbuf) :=
  s.order.reverse.find? (fun i => (s.buf i).refcnt = 0)

def setBuf (s : Sys) (i : Fin nbuf) (x : Buf) : Sys := { s with buf := update s.buf i x }

/-- `acquiresleep(&b->lock)` and the return of `b`, with the fields set before. -/
def lockBuf (s : Sys) (i : Fin nbuf) (x : Buf) : Outcome (Fin nbuf × Sys) :=
  if x.locked then .wait else .ok (i,setBuf s i { x with locked := true })

def bget (s : Sys) (b : ℕ) : Outcome (Fin nbuf × Sys) :=
  match lookup s b with
  | some i => lockBuf s i { s.buf i with refcnt := (s.buf i).refcnt+1 }
  | none =>
    match recyclable s with
    | some i => lockBuf s i
        { s.buf i with dev := rootdev, blockno := b, valid := false, refcnt := 1 }
    | none => .panic "bget: no buffers"

def fetch (disk : Disk) (x : Buf) : Buf :=
  if x.valid then x else { x with valid := true, data := disk x.blockno }

def bread (s : Sys) (b : ℕ) : Outcome (Block × Sys) :=
  match bget s b with
  | .ok (i,s) => .ok ((fetch s.disk (s.buf i)).data,setBuf s i (fetch s.disk (s.buf i)))
  | .panic msg => .panic msg
  | .wait => .wait

/-- Run an operation on the buffer of a block. A pointer to a buffer is only
used while its block is cached. -/
def onBuf (s : Sys) (b : ℕ) (f : Fin nbuf → Outcome (Unit × Sys)) : Outcome (Unit × Sys) :=
  match lookup s b with
  | some i => f i
  | none => .panic "no buffer"

def setData (s : Sys) (b : ℕ) (data : Block) : Outcome (Unit × Sys) :=
  onBuf s b (fun i => .ok ((),setBuf s i { s.buf i with data := data }))

def bwrite (s : Sys) (b : ℕ) : Outcome (Unit × Sys) :=
  onBuf s b (fun i =>
    if (s.buf i).locked then
      .ok ((),{ s with disk := update s.disk b (s.buf i).data })
    else .panic "bwrite")

/-- The list after `b->refcnt--`: an unused buffer moves to the front. -/
def moveFront (s : Sys) (i : Fin nbuf) : List (Fin nbuf) :=
  if (s.buf i).refcnt-1 = 0 then i::s.order.erase i else s.order

def brelse (s : Sys) (b : ℕ) : Outcome (Unit × Sys) :=
  onBuf s b (fun i =>
    if (s.buf i).locked then
      .ok ((),{ setBuf s i { s.buf i with locked := false, refcnt := (s.buf i).refcnt-1 } with
        order := moveFront s i })
    else .panic "brelse")

def bpin (s : Sys) (b : ℕ) : Outcome (Unit × Sys) :=
  onBuf s b (fun i => .ok ((),setBuf s i { s.buf i with refcnt := (s.buf i).refcnt+1 }))

def bunpin (s : Sys) (b : ℕ) : Outcome (Unit × Sys) :=
  onBuf s b (fun i => .ok ((),setBuf s i { s.buf i with refcnt := (s.buf i).refcnt-1 }))

def setLog (s : Sys) (log : Log) : Sys := { s with log := log }

/-- A critical section of `log.lock` that touches nothing but the log. -/
def onLog {α : Type} (s : Sys) (f : BufferSeq.Sys Unit → Outcome (α × BufferSeq.Sys Unit)) :
    Outcome (α × Sys) :=
  match f ⟨s.disk,s.disk,fun _ => false,s.log,(),[]⟩ with
  | .ok (a,t) => .ok (a,setLog s t.log)
  | .panic msg => .panic msg
  | .wait => .wait

def logWrite (s : Sys) (b : ℕ) : Outcome (Unit × Sys) :=
  if logblocks ≤ s.log.lh.length then .panic "too big a transaction"
  else if s.log.outstanding < 1 then .panic "log_write outside of trans"
  else if b ∈ s.log.lh then .ok ((),s)
  else bpin (setLog s { s.log with lh := s.log.lh ++ [b] }) b

def handle : (c : Cmd Unit) → Sys → Outcome (Res c × Sys)
  | .panic msg, _ => .panic msg
  | .bread b, s => bread s b
  | .setData b data, s => setData s b data
  | .bwrite b, s => bwrite s b
  | .brelse b, s => brelse s b
  | .bunpin b, s => bunpin s b
  | .logWrite b, s => logWrite s b
  | .logBegin, s => onLog s BufferSeq.logBeginStep
  | .logEnd, s => onLog s BufferSeq.logEndStep
  | .logCommitted, s => .ok ((),setLog s { s.log with committing := false })
  | .getLog, s => .ok (s.log,s)
  | .setHeader lh, s => .ok ((),setLog s { s.log with lh := lh })
  | .atomic _ f, s =>
    match f () with
    | none => .wait
    | some (r,_) => .ok (r,s)
  | .copyin _ _, s => .ok (([],false),s)
  | .copyout _ _, s => .ok (false,s)

def binit (disk : Disk) (start : ℕ) : Sys where
  disk := disk
  buf := fun _ => ⟨0,0,false,0,false,fun _ => 0⟩
  order := (List.finRange nbuf).reverse
  log := ⟨start,0,false,[]⟩

def among (S : Finset ℕ) (x : Buf) : ℕ := if x.dev = rootdev ∧ x.blockno ∈ S then 1 else 0

/-- The blocks of `P` are pinned once, those of `L` are locked by the process
that runs, and nobody else refers to a buffer. -/
structure Held (P L : Finset ℕ) (s : Sys) : Prop where
  listed : ∀ i, i ∈ s.order
  unique : ∀ b i j, caches (s.buf i) b → caches (s.buf j) b → i = j
  cached : ∀ b ∈ P ∪ L, ∃ i, caches (s.buf i) b
  refs : ∀ i, (s.buf i).refcnt = among P (s.buf i)+among L (s.buf i)
  lock : ∀ i, (s.buf i).locked = true ↔ among L (s.buf i) = 1

section
variable {P L : Finset ℕ} {s : Sys} {i j : Fin nbuf} {b : ℕ} {x : Buf}

theorem among_caches (S : Finset ℕ) (h : caches x b) : among S x = if b ∈ S then 1 else 0 := by
  simp [among, h.1, h.2]

theorem among_insert (S : Finset ℕ) (h : ¬ caches x b) : among (insert b S) x = among S x := by
  have hne : x.dev = rootdev → x.blockno ≠ b := fun hd hb => h ⟨hd,hb⟩
  simp only [among, Finset.mem_insert]
  congr 1
  exact propext ⟨fun ⟨hd,hb⟩ => ⟨hd,hb.resolve_left (hne hd)⟩,fun ⟨hd,hb⟩ => ⟨hd,.inr hb⟩⟩

theorem among_erase (S : Finset ℕ) (h : ¬ caches x b) : among (S.erase b) x = among S x := by
  have hne : x.dev = rootdev → x.blockno ≠ b := fun hd hb => h ⟨hd,hb⟩
  simp only [among, Finset.mem_erase]
  congr 1
  exact propext ⟨fun ⟨hd,hb⟩ => ⟨hd,hb.2⟩,fun ⟨hd,hb⟩ => ⟨hd,hne hd,hb⟩⟩

theorem caches_of_among {S : Finset ℕ} (h : among S x ≠ 0) : ∃ b ∈ S, caches x b := by
  unfold among at h
  split_ifs at h with hx
  · exact ⟨x.blockno,hx.2,hx.1,rfl⟩
  · exact absurd rfl h

theorem lookup_eq (h : Held P L s) (hi : caches (s.buf i) b) : lookup s b = some i := by
  cases hf : lookup s b with
  | none => exact absurd hi (by simpa using List.find?_eq_none.mp hf i (h.listed i))
  | some j =>
    have hj : caches (s.buf j) b := by simpa using List.find?_some hf
    rw [h.unique b j i hj hi]

theorem lookup_none (hb : ∀ i, ¬ caches (s.buf i) b) : lookup s b = none :=
  List.find?_eq_none.mpr (fun i _ => by simpa using hb i)

theorem onBuf_eq (hl : lookup s b = some i) (f : Fin nbuf → Outcome (Unit × Sys)) :
    onBuf s b f = f i := by
  rw [onBuf, hl]

@[simp] theorem setBuf_buf (s : Sys) (i : Fin nbuf) (x : Buf) :
    (setBuf s i x).buf = update s.buf i x := rfl

/-- The invariant after one buffer changed, in terms of that buffer alone: the
sets may change at block `b` only, which it caches afterwards. -/
theorem held_setBuf {P' L' : Finset ℕ} (h : Held P L s) (hx : caches x b)
    (hold : ∀ c ∈ P' ∪ L', c ≠ b → c ∈ P ∪ L ∧ ¬ caches (s.buf i) c)
    (hfree : ∀ j ≠ i, ¬ caches (s.buf j) b)
    (hrefs : x.refcnt = (if b ∈ P' then 1 else 0)+if b ∈ L' then 1 else 0)
    (hlock : x.locked = decide (b ∈ L'))
    (hP : ∀ y, ¬ caches y b → among P' y = among P y)
    (hL : ∀ y, ¬ caches y b → among L' y = among L y) : Held P' L' (setBuf s i x) where
  listed := h.listed
  unique := by
    intro c j k hj hk
    by_cases hji : j = i <;> by_cases hki : k = i
    · rw [hji, hki]
    · subst hji
      simp only [setBuf_buf, update_self, update_of_ne hki] at hj hk
      obtain rfl : b = c := hx.2.symm.trans hj.2
      exact absurd hk (hfree k hki)
    · subst hki
      simp only [setBuf_buf, update_self, update_of_ne hji] at hj hk
      obtain rfl : b = c := hx.2.symm.trans hk.2
      exact absurd hj (hfree j hji)
    · simp only [setBuf_buf, update_of_ne hki, update_of_ne hji] at hj hk
      exact h.unique c j k hj hk
  cached := by
    intro c hc
    by_cases hcb : c = b
    · exact ⟨i,by simpa [hcb] using hx⟩
    · obtain ⟨hin,hne⟩ := hold c hc hcb
      obtain ⟨j,hj⟩ := h.cached c hin
      have hji : j ≠ i := fun he => hne (he ▸ hj)
      exact ⟨j,by simpa [update_of_ne hji] using hj⟩
  refs := by
    intro j
    by_cases hji : j = i
    · subst hji
      simpa [among_caches _ hx] using hrefs
    · rw [setBuf_buf, update_of_ne hji, hP _ (hfree j hji), hL _ (hfree j hji)]
      exact h.refs j
  lock := by
    intro j
    by_cases hji : j = i
    · subst hji
      simp [among_caches _ hx, hlock]
    · rw [setBuf_buf, update_of_ne hji, hL _ (hfree j hji)]
      exact h.lock j

theorem others_free (h : Held P L s) (hi : caches (s.buf i) b) : ∀ j ≠ i, ¬ caches (s.buf j) b :=
  fun j hji hj => hji (h.unique b j i hj hi)

theorem held_same (h : Held P L s) (hi : caches (s.buf i) b) (hd : x.dev = (s.buf i).dev)
    (hn : x.blockno = (s.buf i).blockno) (hr : x.refcnt = (s.buf i).refcnt)
    (hl : x.locked = (s.buf i).locked) : Held P L (setBuf s i x) := by
  have hlock := h.lock i
  have hrefs := h.refs i
  rw [among_caches _ hi] at hlock
  rw [among_caches _ hi, among_caches _ hi] at hrefs
  refine held_setBuf h ⟨hd.trans hi.1,hn.trans hi.2⟩
    (fun c hc hcb => ⟨hc,fun hi' => hcb (hi'.2.symm.trans hi.2)⟩) (others_free h hi) ?_ ?_
    (fun _ _ => rfl) (fun _ _ => rfl)
  · rw [hr, hrefs]
  · rw [hl, Bool.eq_iff_iff, hlock]
    simp

theorem bget_hit (h : Held P L s) (hb : b ∉ L) (hi : caches (s.buf i) b) :
    bget s b = .ok (i,setBuf s i { s.buf i with refcnt := (s.buf i).refcnt+1, locked := true }) ∧
      Held P (insert b L)
        (setBuf s i { s.buf i with refcnt := (s.buf i).refcnt+1, locked := true }) := by
  have hout : among L (s.buf i) = 0 := by rw [among_caches L hi, if_neg hb]
  have hopen : (s.buf i).locked = false := by
    rw [Bool.eq_false_iff]
    intro hl
    rw [h.lock i, hout] at hl
    exact Nat.zero_ne_one hl
  refine ⟨?_,held_setBuf h (b := b) hi ?_ (others_free h hi) ?_ ?_ (fun _ _ => rfl)
    (fun y hy => among_insert L hy)⟩
  · simp [bget, lookup_eq h hi, lockBuf, hopen]
  · intro c hc hcb
    refine ⟨?_,fun hi' => hcb (hi'.2.symm.trans hi.2)⟩
    simpa [hcb] using hc
  · have hr := h.refs i
    rw [hout, among_caches P hi] at hr
    rw [if_pos (Finset.mem_insert_self b L)]
    exact congrArg (·+1) hr
  · exact (decide_eq_true (Finset.mem_insert_self b L)).symm

theorem bget_miss (h : Held P L s) (hb : ∀ i, ¬ caches (s.buf i) b) (hi : recyclable s = some i) :
    bget s b = .ok (i,setBuf s i ⟨rootdev,b,false,1,true,(s.buf i).data⟩) ∧
      Held P (insert b L) (setBuf s i ⟨rootdev,b,false,1,true,(s.buf i).data⟩) := by
  have hzero : (s.buf i).refcnt = 0 := by simpa using List.find?_some hi
  have hout : among P (s.buf i) = 0 ∧ among L (s.buf i) = 0 := by
    have hr := h.refs i
    omega
  have hopen : (s.buf i).locked = false := by
    rw [Bool.eq_false_iff]
    intro hl
    rw [h.lock i, hout.2] at hl
    exact Nat.zero_ne_one hl
  have hbP : b ∉ P := fun hP => by
    obtain ⟨j,hj⟩ := h.cached b (Finset.mem_union_left L hP)
    exact hb j hj
  have hx : caches ⟨rootdev,b,false,1,true,(s.buf i).data⟩ b := ⟨rfl,rfl⟩
  refine ⟨?_,held_setBuf h hx ?_ (fun j _ => hb j) ?_ ?_ (fun _ _ => rfl)
    (fun y hy => among_insert L hy)⟩
  · simp [bget, lookup_none hb, hi, lockBuf, hopen]
  · intro c hc hcb
    have hin : c ∈ P ∪ L := by simpa [hcb] using hc
    refine ⟨hin,fun hc' => ?_⟩
    have hP := among_caches P hc'
    have hL := among_caches L hc'
    rw [hout.1] at hP
    rw [hout.2] at hL
    rcases Finset.mem_union.mp hin with hm | hm
    · rw [if_pos hm] at hP
      exact Nat.zero_ne_one hP
    · rw [if_pos hm] at hL
      exact Nat.zero_ne_one hL
  · rw [if_neg hbP, if_pos (Finset.mem_insert_self b L)]
  · exact (decide_eq_true (Finset.mem_insert_self b L)).symm

theorem recyclable_some (h : Held P L s) (hlt : (P ∪ L).card < nbuf) :
    ∃ i, recyclable s = some i := by
  by_contra hnone
  have hall : ∀ i, (s.buf i).refcnt ≠ 0 := by
    intro i hi
    have hf : recyclable s = none := Option.eq_none_iff_forall_ne_some.mpr (not_exists.mp hnone)
    exact absurd hi (by simpa using List.find?_eq_none.mp hf i (by simpa using h.listed i))
  have hin : ∀ i, ∃ b ∈ P ∪ L, caches (s.buf i) b := by
    intro i
    have hr := h.refs i
    by_cases hP : among P (s.buf i) = 0
    · obtain ⟨b,hb,hc⟩ := caches_of_among (x := s.buf i) (S := L) (by have := hall i; omega)
      exact ⟨b,Finset.mem_union_right P hb,hc⟩
    · obtain ⟨b,hb,hc⟩ := caches_of_among hP
      exact ⟨b,Finset.mem_union_left L hb,hc⟩
  choose f hf hc using hin
  have hinj : Function.Injective f := fun i j hij => h.unique (f i) i j (hc i) (hij ▸ hc j)
  have hle : (Finset.univ : Finset (Fin nbuf)).card ≤ (P ∪ L).card :=
    Finset.card_le_card_of_injOn f (fun i _ => hf i) hinj.injOn
  rw [Finset.card_fin] at hle
  omega

theorem all_pinned (h : Held P L s) (hfull : nbuf ≤ P.card) (i : Fin nbuf) :
    ∃ b ∈ P, caches (s.buf i) b := by
  have hex : ∀ b : P, ∃ i, caches (s.buf i) b := fun b =>
    h.cached b (Finset.mem_union_left L b.2)
  choose f hf using hex
  have hinj : Function.Injective f := fun b c hbc =>
    Subtype.ext ((hf b).2.symm.trans ((congrArg (fun i => (s.buf i).blockno) hbc).trans (hf c).2))
  have hbij : Function.Bijective f := by
    refine (Fintype.bijective_iff_injective_and_card f).mpr ⟨hinj,?_⟩
    have hle := Fintype.card_le_of_injective f hinj
    rw [Fintype.card_coe, Fintype.card_fin] at *
    omega
  obtain ⟨b,rfl⟩ := hbij.2 i
  exact ⟨b,b.2,hf b⟩

theorem bget_panics (h : Held P L s) (hfull : nbuf ≤ P.card) (hb : b ∉ P) :
    bget s b = .panic "bget: no buffers" := by
  have hmiss : ∀ i, ¬ caches (s.buf i) b := by
    intro i hi
    obtain ⟨c,hc,hic⟩ := all_pinned h hfull i
    exact hb (hi.2.symm.trans hic.2 ▸ hc)
  have hnone : recyclable s = none := by
    refine List.find?_eq_none.mpr (fun i _ => ?_)
    obtain ⟨c,hc,hic⟩ := all_pinned h hfull i
    have hr := h.refs i
    rw [among_caches P hic, if_pos hc] at hr
    simpa using by omega
  simp [bget, lookup_none hmiss, hnone]

theorem held_setLog (h : Held P L s) (log : Log) : Held P L (setLog s log) where
  listed := h.listed
  unique := h.unique
  cached := h.cached
  refs := h.refs
  lock := h.lock

end

end GreenOS.BufferCache
