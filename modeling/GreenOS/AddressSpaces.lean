import GreenOS.UserMemory
import GreenOS.StepRun

/-!
# The address spaces of all processes

The system calls and faults that take pages from the allocator or give them
back: `fork`, `exec`, `sbrk`, page faults, copies to and from user memory,
pipes, `exit` and `wait`. A step is one of them, done by a live process. What
comes from the disk or from user memory (program headers, arguments, copied
data) is part of the event, and so is whether there were free files and
descriptors.
-/

namespace GreenOS.AddressSpaces
open PageTable UserMemory

abbrev Slot := Fin 64

instance slotPos : NeZero 64 := ⟨by decide⟩

/-- The states of a process, as far as memory goes; `live` is everything between
`allocproc` and `exit`. -/
inductive Life where
  | unused
  | live
  | zombie
  deriving DecidableEq, Repr

structure Proc where
  life : Life
  pagetable : Option Word
  trapframe : Option Word
  sz : Word
  parent : Option Slot

structure Pipe where
  page : Word
  readopen : Bool
  writeopen : Bool
  deriving DecidableEq

structure Sys where
  vm : Vm
  procs : Slot → Proc
  pipes : List Pipe

def initproc : Slot := 0

structure Proghdr where
  type : BitVec 32
  flags : BitVec 32
  vaddr : Word
  filesz : Word
  memsz : Word
  readable : ℕ
  data : Word → Index → Word

/-- A file as `exec` finds it: whether its start is an ELF header, and the
program headers, `none` where reading one fails. -/
structure Image where
  elf : Bool
  headers : List (Option Proghdr)

def setProc (p : Slot) (pr : Proc) (t : Sys) : Sys :=
  { t with procs := Function.update t.procs p pr }

section
variable (kend text : Word)

def freeTrapframe : Option Word → Vm → Except String Vm
  | none, s => .ok s
  | some frame, s => kfree kend frame s

def freePagetable : Option Word → Word → Vm → Except String Vm
  | none, _, s => .ok s
  | some root, sz, s => procFreepagetable kend root sz s

def freeproc (p : Slot) (t : Sys) : Except String Sys := do
  let s ← freeTrapframe kend (t.procs p).trapframe t.vm
  let s ← freePagetable kend (t.procs p).pagetable (t.procs p).sz s
  .ok (setProc p ⟨.unused,none,none,0,none⟩ { t with vm := s })

def allocproc (t : Sys) : Except String (Option Slot × Sys) :=
  match (List.finRange 64).find? (fun p => (t.procs p).life = .unused) with
  | none => .ok (none,t)
  | some p =>
    let pr := { t.procs p with life := .live }
    match kalloc t.vm with
    | (none,s) => do
      let t ← freeproc kend p (setProc p { pr with trapframe := none } { t with vm := s })
      .ok (none,t)
    | (some frame,s) => do
      let (root,s) ← procPagetable kend text frame s
      let t := setProc p { pr with trapframe := some frame, pagetable := root } { t with vm := s }
      match root with
      | none => do
        let t ← freeproc kend p t
        .ok (none,t)
      | some _ => .ok (some p,t)

def growproc (root sz : Word) (n : BitVec 32) (s : Vm) : Except String (Option Word × Vm) :=
  if 0 < n.toInt then
    if trapframe < sz+n.signExtend 64 then .ok (none,s)
    else do
      let (sz,s) ← uvmalloc kend root sz (sz+n.signExtend 64) pteW s
      if sz = 0#64 then .ok (none,s) else .ok (some sz,s)
  else if n.toInt < 0 then do
    let (sz,s) ← uvmdealloc kend root sz (sz+n.signExtend 64) s
    .ok (some sz,s)
  else .ok (some sz,s)

def sbrkEager : BitVec 32 := 1

def sysSbrk (root sz : Word) (n mode : BitVec 32) (s : Vm) : Except String (Option Word × Vm) :=
  if mode = sbrkEager ∨ n.toInt < 0 then growproc kend root sz n s
  else if sz+n.signExtend 64 < sz then .ok (none,s)
  else if trapframe < sz+n.signExtend 64 then .ok (none,s)
  else .ok (some (sz+n.signExtend 64),s)

def kfork (p : Slot) (root : Word) (t : Sys) : Except String Sys := do
  let (np,t) ← allocproc kend text t
  match np with
  | none => .ok t
  | some np =>
    match (t.procs np).pagetable with
    | none => .error "null pointer"
    | some new => do
      let (r,s) ← uvmcopy kend root new (t.procs p).sz t.vm
      if r < 0 then freeproc kend np { t with vm := s }
      else .ok (setProc np { t.procs np with sz := (t.procs p).sz, parent := some p }
        { t with vm := s })

def flags2perm (flags : BitVec 32) : Word :=
  (if flags&&&1 ≠ 0 then pteX else 0)|||(if flags&&&2 ≠ 0 then pteW else 0)

def loadsegLoop (root va : Word) (sz : BitVec 32) (data : Word → Index → Word) :
    ℕ → BitVec 32 → ℕ → Vm → Except String (ℤ × Vm)
  | 0, _, _, s => .ok (0,s)
  | n+1, i, readable, s =>
    if i < sz then do
      let pa ← walkaddr root (va+i.setWidth 64) s
      if pa = 0#64 then .error "loadseg: address should exist"
      else
        match readable with
        | 0 => .ok (-1,store pa (data pa) s)
        | readable+1 => loadsegLoop root va sz data n (i+4096) readable (store pa (data pa) s)
    else .ok (0,s)

def loadseg (root : Word) (ph : Proghdr) (s : Vm) : Except String (ℤ × Vm) :=
  let sz := ph.filesz.setWidth 32
  loadsegLoop root ph.vaddr sz ph.data (sz.toNat/4096+1) 0 ph.readable s

/-- The loop of `kexec` over the program headers: whether it goes on, and the size. -/
def loadLoop (root : Word) : List (Option Proghdr) → Word → Vm → Except String (Bool × Word × Vm)
  | [], sz, s => .ok (true,sz,s)
  | none::_, sz, s => .ok (false,sz,s)
  | some ph::phs, sz, s =>
    if ph.type ≠ 1 then loadLoop root phs sz s
    else if ph.memsz < ph.filesz then .ok (false,sz,s)
    else if ph.vaddr+ph.memsz < ph.vaddr then .ok (false,sz,s)
    else if ph.vaddr%pgsize ≠ 0#64 then .ok (false,sz,s)
    else do
      let (sz1,s) ← uvmalloc kend root sz (ph.vaddr+ph.memsz) (flags2perm ph.flags) s
      if sz1 = 0#64 then .ok (false,sz,s)
      else do
        let (r,s) ← loadseg root ph s
        if r < 0 then .ok (false,sz1,s) else loadLoop root phs sz1 s

def push (proot psz root stackbase : Word) (data : Word → Index → Word) (sp len : Word) (s : Vm) :
    Except String (Option Word × Vm) :=
  let sp := sp-len
  let sp := sp-sp%16
  if sp < stackbase then .ok (none,s)
  else do
    let (r,s) ← copyout kend proot psz root sp len data s
    if r < 0 then .ok (none,s) else .ok (some sp,s)

def pushArgs (proot psz root stackbase : Word) (data : Word → Index → Word) :
    List Word → ℕ → Word → Vm → Except String (Option Word × Vm)
  | [], argc, sp, s => push kend proot psz root stackbase data sp (BitVec.ofNat 64 ((argc+1)*8)) s
  | len::lens, argc, sp, s =>
    if 32 ≤ argc then .ok (none,s)
    else do
      let (sp,s) ← push kend proot psz root stackbase data sp (len+1) s
      match sp with
      | none => .ok (none,s)
      | some sp => pushArgs proot psz root stackbase data lens (argc+1) sp s

def kexecBad (root sz : Word) (s : Vm) : Except String (Option (Word × Word) × Vm) := do
  let s ← procFreepagetable kend root sz s
  .ok (none,s)

/-- `kexec` of the process with page table `proot`, size `psz` and trapframe
`frame`: the new page table and its size, or `none`. -/
def kexec (proot psz frame : Word) (image : Option Image) (lens : List Word)
    (data : Word → Index → Word)
    (s : Vm) : Except String (Option (Word × Word) × Vm) :=
  match image with
  | none => .ok (none,s)
  | some image =>
    if ¬ image.elf then .ok (none,s)
    else do
      let (root,s) ← procPagetable kend text frame s
      match root with
      | none => .ok (none,s)
      | some root => do
        let (good,sz,s) ← loadLoop kend root image.headers 0 s
        if ¬ good then kexecBad kend root sz s
        else do
          let sz := pgroundup sz
          let (sz1,s) ← uvmalloc kend root sz (sz+2*pgsize) pteW s
          if sz1 = 0#64 then kexecBad kend root sz s
          else do
            let s ← uvmclear root (sz1-2*pgsize) s
            let (sp,s) ← pushArgs kend proot psz root (sz1-pgsize) data lens 0 sz1 s
            match sp with
            | none => kexecBad kend root sz1 s
            | some _ => do
              let s ← procFreepagetable kend proot psz s
              .ok (some (root,sz1),s)

def fetchaddr (root sz addr : Word) (s : Vm) : Except String (ℤ × Vm) :=
  if sz ≤ addr ∨ sz < addr+8 then .ok (-1,s)
  else do
    let (r,s) ← copyin kend root sz root addr 8 s
    if r ≠ 0 then .ok (-1,s) else .ok (0,s)

/-- The loop of `sys_exec`: the arguments are given by address and length, up to
the null pointer; the pages taken for them come back, last first. -/
def fetchArgs (root sz uargv : Word) :
    List (Word × Word) → ℕ → List Word → Vm → Except String (Bool × List Word × Vm)
  | args, i, argv, s =>
    if 32 ≤ i then .ok (false,argv,s)
    else do
      let (r,s) ← fetchaddr kend root sz (uargv+8*BitVec.ofNat 64 i) s
      if r < 0 then .ok (false,argv,s)
      else
        match args with
        | [] => .ok (true,argv,s)
        | (uarg,len)::args =>
          match kalloc s with
          | (none,s) => .ok (false,argv,s)
          | (some page,s) => do
            let r ← copyinstr root uarg len pgsize s
            if r < 0 then .ok (false,page::argv,s)
            else fetchArgs root sz uargv args (i+1) (page::argv) s

def kfreeAll : List Word → Vm → Except String Vm
  | [], s => .ok s
  | page::pages, s => do
    let s ← kfree kend page s
    kfreeAll pages s

def sysExec (root sz frame uargv : Word) (args : List (Word × Word)) (image : Option Image)
    (data : Word → Index → Word) (s : Vm) : Except String (Option (Word × Word) × Vm) := do
  let (good,argv,s) ← fetchArgs kend root sz uargv args 0 [] s
  if good then do
    let (r,s) ← kexec kend text root sz frame image (args.map Prod.snd) data s
    let s ← kfreeAll kend argv.reverse s
    .ok (r,s)
  else do
    let s ← kfreeAll kend argv.reverse s
    .ok (none,s)

def pipeBad (pi : Word) (s : Vm) : Except String (Option Word × Vm) := do
  let s ← kfree kend pi s
  .ok (none,s)

def sysPipe (root sz : Word) (files fds : Bool) (fdarray : Word) (data : Word → Index →
    Word) (s : Vm) :
    Except String (Option Word × Vm) :=
  if ¬ files then .ok (none,s)
  else
    match kalloc s with
    | (none,s) => .ok (none,s)
    | (some pi,s) =>
      if ¬ fds then pipeBad kend pi s
      else do
        let (r,s) ← copyout kend root sz root fdarray 4 data s
        if r < 0 then pipeBad kend pi s
        else do
          let (r,s) ← copyout kend root sz root (fdarray+4) 4 data s
          if r < 0 then pipeBad kend pi s else .ok (some pi,s)

def closeEnd (pi : Pipe) (writable : Bool) : Pipe :=
  if writable then { pi with writeopen := false } else { pi with readopen := false }

def pipeclose (pi : Pipe) (writable : Bool) (t : Sys) : Except String Sys :=
  if ¬ (closeEnd pi writable).readopen ∧ ¬ (closeEnd pi writable).writeopen then do
    let s ← kfree kend pi.page t.vm
    .ok { t with vm := s, pipes := t.pipes.erase pi }
  else .ok { t with pipes := closeEnd pi writable::t.pipes.erase pi }

def reparent (p : Slot) (procs : Slot → Proc) : Slot → Proc :=
  fun q => if (procs q).parent = some p then { procs q with parent := some initproc } else procs q

def kexit (p : Slot) (t : Sys) : Except String Sys :=
  if p = initproc then .error "init exiting"
  else
    let procs := reparent p t.procs
    .ok { t with procs := Function.update procs p { procs p with life := .zombie } }

def kwait (p : Slot) (root addr : Word) (data : Word → Index → Word) (t : Sys) :
    Except String Sys :=
  match (List.finRange 64).find? (fun q => (t.procs q).parent = some p ∧
    (t.procs q).life = .zombie) with
  | none => .ok t
  | some q => do
    if addr ≠ 0#64 then do
      let (r,s) ← copyout kend root (t.procs p).sz root addr 4 data t.vm
      if r < 0 then .ok { t with vm := s } else freeproc kend q { t with vm := s }
    else freeproc kend q t

inductive Call where
  | fork
  | exec (uargv : Word) (args : List (Word × Word)) (image : Option Image)
    (data : Word → Index → Word)
  | sbrk (n mode : BitVec 32)
  | fault (va : Word)
  | copyin (srcva len : Word)
  | copyout (dstva len : Word) (data : Word → Index → Word)
  | copyinstr (srcva len max : Word)
  | pipe (files fds : Bool) (fdarray : Word) (data : Word → Index → Word)
  | exit
  | wait (addr : Word) (data : Word → Index → Word)
  | forkret (image : Option Image) (data : Word → Index → Word)
  | store (va : Word) (data : Index → Word)
  | trap (data : Index → Word)

inductive Event where
  | call (p : Slot) (c : Call)
  | pipeclose (pi : Pipe) (writable : Bool)
  | pipewrite (pi : Pipe) (data : Index → Word)

def commit (p : Slot) (t : Sys) : Option (Word × Word) × Vm → Sys
  | (none,s) => { t with vm := s }
  | (some (root,sz),s) =>
    setProc p { t.procs p with pagetable := some root, sz := sz } { t with vm := s }

def resize (p : Slot) (t : Sys) : Option Word × Vm → Sys
  | (none,s) => { t with vm := s }
  | (some sz,s) => setProc p { t.procs p with sz := sz } { t with vm := s }

def addPipe (t : Sys) : Option Word × Vm → Sys
  | (none,s) => { t with vm := s }
  | (some pi,s) => { t with vm := s, pipes := ⟨pi,true,true⟩::t.pipes }

def userStore (root va : Word) (data : Index → Word) (s : Vm) : Vm :=
  if maxva ≤ va then s
  else
    match translate s root (pgrounddown va) with
    | none => s
    | some pte => if pte&&&pteU ≠ 0#64 ∧ pte&&&pteW ≠ 0#64 then store (pte2pa pte) data s else s

/-- A call of the process `p` with page table `root` and trapframe `frame`. -/
def call (p : Slot) (root frame : Word) (t : Sys) : Call → Except String Sys
  | .fork => kfork kend text p root t
  | .exec uargv args image data => do
    let r ← sysExec kend text root (t.procs p).sz frame uargv args image data t.vm
    .ok (commit p t r)
  | .sbrk n mode => do
    let r ← sysSbrk kend root (t.procs p).sz n mode t.vm
    .ok (resize p t r)
  | .fault va => do
    let (_,s) ← vmfault kend root (t.procs p).sz root va t.vm
    .ok { t with vm := s }
  | .copyin srcva len => do
    let (_,s) ← copyin kend root (t.procs p).sz root srcva len t.vm
    .ok { t with vm := s }
  | .copyout dstva len data => do
    let (_,s) ← copyout kend root (t.procs p).sz root dstva len data t.vm
    .ok { t with vm := s }
  | .copyinstr srcva len max => do
    let _ ← copyinstr root srcva len max t.vm
    .ok t
  | .pipe files fds fdarray data => do
    let r ← sysPipe kend root (t.procs p).sz files fds fdarray data t.vm
    .ok (addPipe t r)
  | .exit => kexit p t
  | .wait addr data => kwait kend p root addr data t
  | .forkret image data => do
    -- "/init" is the only argument
    let r ← kexec kend text root (t.procs p).sz frame image [5] data t.vm
    .ok (commit p t r)
  | .store va data => .ok { t with vm := userStore root va data t.vm }
  -- a trap saves the registers in the trapframe
  | .trap data => .ok { t with vm := store frame data t.vm }

def perform (t : Sys) : Event → Option (Except String Sys)
  | .call p c =>
    if (t.procs p).life = .live then
      match (t.procs p).pagetable, (t.procs p).trapframe with
      | some root, some frame => some (call kend text p root frame t c)
      | _, _ => some (.error "null pointer")
    else none
  | .pipeclose pi writable =>
    if pi ∈ t.pipes ∧ (if writable then pi.writeopen else pi.readopen) = true then
      some (pipeclose kend pi writable t)
    else none
  | .pipewrite pi data =>
    if pi ∈ t.pipes then some (.ok { t with vm := store pi.page data t.vm }) else none

def step (e : Event) (t : Sys) : Option Sys := (perform kend text t e).bind Except.toOption

/-- `userinit`, with the pages that booting has left on the free list. -/
def boot (vm : Vm) : Option Sys :=
  match allocproc kend text ⟨vm,fun _ => ⟨.unused,none,none,0,none⟩,[]⟩ with
  | .ok (some _,t) => some t
  | _ => none

end

end GreenOS.AddressSpaces
