import GreenOS.RingBuffer
import GreenOS.StepRun

/-!
# The disk driver's request queue

`virtio_disk_rw` and `virtio_disk_intr` with the device they share memory with.
A request is a chain of three descriptors whose head goes through the `avail`
ring to the device and comes back through the `used` ring; both rings are read
and written through free-running 16-bit indices. Driver code runs under
`vdisk_lock` and sleeps only where the source sleeps; a sleeping process may
return from `sleep` at any time, as after a wakeup or a `kill`. The device runs
without the lock: it takes `avail` entries in order and completes the chains it
has taken in any order, each once and with status 0.
-/

namespace GreenOS.VirtioQueue
open RingBuffer
open Function (update)

def num : ℕ := 8

instance : NeZero num := ⟨by decide⟩

def descNext : BitVec 16 := 1
def descWrite : BitVec 16 := 2

inductive Addr (β : Type) where
  | null
  | op (i : Fin num)
  | data (b : β)
  | status (i : Fin num)
  deriving DecidableEq

structure Desc (β : Type) where
  addr : Addr β
  len : ℕ
  flags : BitVec 16
  next : ℕ

def noDesc {β : Type} : Desc β := ⟨.null,0,0,0⟩

structure BlkReq where
  type : ℕ
  reserved : ℕ
  sector : BitVec 64

structure Info (β : Type) where
  b : Option β
  status : BitVec 8

/-- A ring of the queue, `idx` counting the entries ever written to it. -/
structure Entries where
  idx : BitVec 16
  ring : Fin num → ℕ

structure Disk (β : Type) where
  desc : Fin num → Desc β
  avail : Entries
  used : Entries
  free : Fin num → Bool
  usedIdx : BitVec 16
  info : Fin num → Info β
  ops : Fin num → BlkReq
  busy : β → Bool

structure Chain where
  head : Fin num
  data : Fin num
  status : Fin num
  deriving DecidableEq

def members (c : Chain) : List (Fin num) := [c.head,c.data,c.status]

section Descriptors
variable {β : Type}

def allocDesc (d : Disk β) : Option (Fin num) × Disk β :=
  match (List.finRange num).find? d.free with
  | some i => (some i,{ d with free := update d.free i false })
  | none => (none,d)

def freeDesc (i : ℕ) (d : Disk β) : Except String (Disk β) :=
  if h : i < num then
    if d.free ⟨i,h⟩ then .error "free_desc 2"
    else .ok { d with
      desc := update d.desc ⟨i,h⟩ noDesc
      free := update d.free ⟨i,h⟩ true }
  else .error "free_desc 1"

/-- The loop of `free_chain`. Every round frees a descriptor that was not free,
so no more than `num` rounds succeed. -/
def freeChain : ℕ → ℕ → Disk β → Except String (Disk β)
  | 0, _, _ => .error "free_desc 2"
  | left+1, i, d =>
    if h : i < num then do
      let desc := d.desc ⟨i,h⟩
      let d ← freeDesc i d
      if desc.flags&&&descNext ≠ 0#16 then freeChain left desc.next d else .ok d
    -- the fields are read outside the array, then `free_desc` stops
    else .error "free_desc 1"

def alloc3Desc (d : Disk β) : Except String (Option Chain × Disk β) :=
  match allocDesc d with
  | (none,d) => .ok (none,d)
  | (some i,d) =>
    match allocDesc d with
    | (none,d) => do
      let d ← freeDesc i d
      .ok (none,d)
    | (some j,d) =>
      match allocDesc d with
      | (none,d) => do
        let d ← freeDesc i d
        let d ← freeDesc j d
        .ok (none,d)
      | (some k,d) => .ok (some ⟨i,j,k⟩,d)

variable [DecidableEq β] (blockno : β → BitVec 32)

/-- The part of `virtio_disk_rw` from the allocated descriptors to the entry in
the `avail` ring, which the device does not look at before `idx` moves. -/
def format (b : β) (write : Bool) (c : Chain) (d : Disk β) : Disk β :=
  let sector := (blockno b*2).setWidth 64
  { d with
    ops := update d.ops c.head ⟨if write then 1 else 0,0,sector⟩
    desc := update (update (update d.desc
      c.head ⟨.op c.head,16,descNext,c.data⟩)
      c.data ⟨.data b,1024,(if write then 0 else descWrite)|||descNext,c.status⟩)
      c.status ⟨.status c.head,1,descWrite,0⟩
    info := update d.info c.head ⟨some b,0xff⟩
    busy := update d.busy b true
    avail := { d.avail with
      ring := update d.avail.ring (index d.avail.idx) c.head } }

def giveBack (c : Chain) (d : Disk β) : Except String (Disk β) :=
  freeChain (num+1) c.head
    { d with info := update d.info c.head { d.info c.head with b := none } }

/-- One round of the loop of `virtio_disk_intr`, or none when the rings agree.
An entry that names no request would be followed through a bad pointer. -/
def intrRound (d : Disk β) : Option (Except String (Disk β)) :=
  if d.usedIdx = d.used.idx then none
  else
    let id := d.used.ring (index d.usedIdx)
    some <| if h : id < num then
      if (d.info ⟨id,h⟩).status ≠ 0#8 then .error "virtio_disk_intr status"
      else match (d.info ⟨id,h⟩).b with
        | some b => .ok { d with busy := update d.busy b false, usedIdx := d.usedIdx+1 }
        | none => .error "bad pointer"
    else .error "bad pointer"

end Descriptors

/-- Where the device puts the status of the chain that starts at `head`. -/
def statusOf {β : Type} (d : Disk β) (head : ℕ) : Option (Fin num) :=
  if h : head < num then
    if h' : (d.desc ⟨head,h⟩).next < num then
      if h'' : (d.desc ⟨_,h'⟩).next < num then
        match (d.desc ⟨_,h''⟩).addr with
        | .status i => some i
        | _ => none
      else none
    else none
  else none

inductive Pc (β : Type) where
  | out
  | alloc (b : β) (write : Bool)
  | post (b : β) (c : Chain)
  | wait (b : β) (c : Chain)

inductive Owner (π : Type) where
  | proc (p : π)
  | intr
  deriving DecidableEq

/-- The driver, its callers and the device. `holder` is who has locked a buffer;
`next` and `taken` are the device's own: the next `avail` entry and the heads of
the chains it works on. `served` is history: whether the device has completed the
chain of this head since it was last posted. -/
structure Sys (π β : Type) where
  disk : Disk β
  pc : π → Pc β
  holder : β → Option π
  lock : Option (Owner π)
  next : BitVec 16
  taken : List ℕ
  served : Fin num → Bool

inductive Event (π β : Type) where
  | call (p : π) (b : β) (write : Bool)
  | acquire (p : π)
  | publish (p : π)
  | wake (p : π)
  | intr
  | intrLoop
  | take
  | complete (head : ℕ)

section Machine
variable {π β : Type} [DecidableEq π] [DecidableEq β] (blockno : β → BitVec 32)

def perform : Event π β → Sys π β → Option (Except String (Sys π β))
  | .call p b write, s =>
    match s.pc p, s.holder b with
    | .out, none => some (.ok { s with
        pc := update s.pc p (.alloc b write)
        holder := update s.holder b (some p) })
    | _, _ => none
  | .acquire p, s =>
    match s.pc p, s.lock with
    | .alloc b write, none => some do
      let (c,d) ← alloc3Desc s.disk
      match c with
      -- sleep on free[0]
      | none => .ok { s with disk := d }
      | some c => .ok { s with
          disk := format blockno b write c d
          pc := update s.pc p (.post b c)
          lock := some (.proc p)
          served := update s.served c.head false }
    | _, _ => none
  | .publish p, s =>
    match s.pc p with
    | .post b c => some (.ok { s with
        disk := { s.disk with avail := { s.disk.avail with idx := s.disk.avail.idx+1 } }
        pc := update s.pc p (.wait b c)
        lock := none })
    | _ => none
  | .wake p, s =>
    match s.pc p, s.lock with
    | .wait b c, none =>
      if s.disk.busy b then some (.ok s)
      else some do
        let d ← giveBack c s.disk
        .ok { s with
          disk := d
          pc := update s.pc p .out
          holder := update s.holder b none }
    | _, _ => none
  | .intr, s =>
    match s.lock with
    | none => some (.ok { s with lock := some .intr })
    | some _ => none
  | .intrLoop, s =>
    match s.lock with
    | some .intr =>
      match intrRound s.disk with
      | none => some (.ok { s with lock := none })
      | some r => some do
        let d ← r
        .ok { s with disk := d }
    | _ => none
  | .take, s =>
    if s.next = s.disk.avail.idx then none
    else some (.ok { s with
      next := s.next+1
      taken := s.disk.avail.ring (index s.next)::s.taken })
  | .complete head, s =>
    match statusOf s.disk head with
    | none => none
    | some i =>
      if head ∈ s.taken then
        some (.ok { s with
          taken := s.taken.erase head
          disk := { s.disk with
            info := update s.disk.info i { s.disk.info i with status := 0 }
            used :=
              { idx := s.disk.used.idx+1
                ring := update s.disk.used.ring (index s.disk.used.idx) head } }
          served := fun k => s.served k || k = head })
      else none

def step (e : Event π β) (s : Sys π β) : Option (Sys π β) :=
  match perform blockno e s with
  | some (.ok s') => some s'
  | _ => none

end Machine

def init {π β : Type} : Sys π β where
  disk :=
    { desc := fun _ => noDesc
      avail := ⟨0,fun _ => 0⟩
      used := ⟨0,fun _ => 0⟩
      free := fun _ => true
      usedIdx := 0
      info := fun _ => ⟨none,0⟩
      ops := fun _ => ⟨0,0,0⟩
      busy := fun _ => false }
  pc := fun _ => .out
  holder := fun _ => none
  lock := none
  next := 0
  taken := []
  served := fun _ => false

end GreenOS.VirtioQueue
