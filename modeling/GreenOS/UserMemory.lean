import GreenOS.PageTable

/-!
# User memory

The functions of `vm.c` and `proc.c` that build, grow, copy and free the memory
of a process, over the page tables and the allocator. What a user page holds
after a copy into it is given from outside (`data`); only the words of the
page tables matter here.
-/

namespace GreenOS.UserMemory
open PageTable

def trampoline : Word := maxva-pgsize

def trapframe : Word := trampoline-pgsize

def pgroundup (sz : Word) : Word := (sz+pgsize-1)&&&~~~(pgsize-1)

def pgrounddown (a : Word) : Word := a&&&~~~(pgsize-1)

def store (pa : Word) (data : Index → Word) (s : Vm) : Vm :=
  { s with mem := Function.update s.mem pa data }

def uvmcreate (s : Vm) : Option Word × Vm :=
  match kalloc s with
  | (none,s) => (none,s)
  | (some a,s) => (some a,fill a 0#64 s)

section
variable (kend : Word)

def uvmdealloc (root oldsz newsz : Word) (s : Vm) : Except String (Word × Vm) :=
  if oldsz ≤ newsz then .ok (oldsz,s)
  else if pgroundup newsz < pgroundup oldsz then do
    let npages := ((pgroundup oldsz-pgroundup newsz)/pgsize).setWidth 32
    let s ← uvmunmap kend root (pgroundup newsz) (npages.signExtend 64) true s
    .ok (newsz,s)
  else .ok (newsz,s)

def uvmallocLoop (root oldsz newsz xperm : Word) : ℕ → Word → Vm → Except String (Word × Vm)
  | 0, _, s => .ok (newsz,s)
  | n+1, a, s =>
    if a < newsz then
      match kalloc s with
      | (none,s) => do
        let (_,s) ← uvmdealloc kend root a oldsz s
        .ok (0,s)
      | (some mem,s) => do
        let (r,s) ← mappages root a pgsize mem (pteR|||pteU|||xperm) (fill mem 0#64 s)
        if r ≠ 0 then do
          let s ← kfree kend mem s
          let (_,s) ← uvmdealloc kend root a oldsz s
          .ok (0,s)
        else uvmallocLoop root oldsz newsz xperm n (a+pgsize) s
    else .ok (newsz,s)

def uvmalloc (root oldsz newsz xperm : Word) (s : Vm) : Except String (Word × Vm) :=
  if newsz < oldsz then .ok (oldsz,s)
  else uvmallocLoop kend root (pgroundup oldsz) newsz xperm ((newsz/pgsize).toNat+1)
    (pgroundup oldsz) s

/-- The entries of a table, visited in order; `sub` frees the table behind one. -/
def freeEntries (sub : Word → Vm → Except String Vm) (t : Word) : List Index → Vm → Except String Vm
  | [], s => .ok s
  | i::is, s =>
    let pte := s.mem t i
    if valid pte ∧ pte&&&(pteR|||pteW|||pteX) = 0#64 then do
      let s ← sub (pte2pa pte) s
      freeEntries sub t is (setPte t i 0#64 s)
    else if valid pte then .error "freewalk: leaf"
    else freeEntries sub t is s

def indices : List Index := (List.range 512).map (BitVec.ofNat 9)

def freewalk : ℕ → Word → Vm → Except String Vm
  | 0, t, s => do
    let s ← freeEntries (fun _ _ => .error "freewalk: too deep") t indices s
    kfree kend t s
  | depth+1, t, s => do
    let s ← freeEntries (freewalk depth) t indices s
    kfree kend t s

def uvmfree (root sz : Word) (s : Vm) : Except String Vm := do
  let s ← if 0#64 < sz then uvmunmap kend root 0#64 (pgroundup sz/pgsize) true s else .ok s
  freewalk kend 2 root s

def uvmcopyLoop (old new sz : Word) : ℕ → Word → Vm → Except String (ℤ × Vm)
  | 0, _, s => .ok (0,s)
  | n+1, i, s =>
    if i < sz then do
      let (pte,s) ← walk old i false s
      match pte with
      | none => uvmcopyLoop old new sz n (i+pgsize) s
      | some (t,k) =>
        let pte := s.mem t k
        if ¬ valid pte then uvmcopyLoop old new sz n (i+pgsize) s
        else
          match kalloc s with
          | (none,s) => do
            let s ← uvmunmap kend new 0#64 (i/pgsize) true s
            .ok (-1,s)
          | (some mem,s) => do
            let s := store mem (s.mem (pte2pa pte)) s
            let (r,s) ← mappages new i pgsize mem (pteFlags pte) s
            if r ≠ 0 then do
              let s ← kfree kend mem s
              let s ← uvmunmap kend new 0#64 (i/pgsize) true s
              .ok (-1,s)
            else uvmcopyLoop old new sz n (i+pgsize) s
    else .ok (0,s)

def uvmcopy (old new sz : Word) (s : Vm) : Except String (ℤ × Vm) :=
  uvmcopyLoop kend old new sz ((sz/pgsize).toNat+1) 0 s

def uvmclear (root va : Word) (s : Vm) : Except String Vm := do
  let (pte,s) ← walk root va false s
  match pte with
  | none => .error "uvmclear"
  | some (t,i) => .ok (setPte t i (s.mem t i&&&~~~pteU) s)

def ismapped (root va : Word) (s : Vm) : Except String Bool := do
  let (pte,s) ← walk root va false s
  match pte with
  | none => .ok false
  | some (t,i) => .ok (valid (s.mem t i))

/-- `vmfault`, for the process with page table `proot` and size `psz`. -/
def vmfault (proot psz root va : Word) (s : Vm) : Except String (Word × Vm) :=
  if psz ≤ va then .ok (0,s)
  else do
    let va := pgrounddown va
    let mapped ← ismapped root va s
    if mapped then .ok (0,s)
    else
      match kalloc s with
      | (none,s) => .ok (0,s)
      | (some mem,s) => do
        let (r,s) ← mappages proot va pgsize mem (pteW|||pteU|||pteR) (fill mem 0#64 s)
        if r ≠ 0 then do
          let s ← kfree kend mem s
          .ok (0,s)
        else .ok (mem,s)

/-- The page behind a user address, as `copyout` and `copyin` find it: a missing page is mapped
first. -/
def userPage (proot psz root va : Word) (s : Vm) : Except String (Word × Vm) := do
  let pa ← walkaddr root va s
  if pa = 0#64 then vmfault kend proot psz root va s else .ok (pa,s)

def copyoutLoop (proot psz root : Word) (data : Word → Index → Word) :
    ℕ → Word → Word → Vm → Except String (ℤ × Vm)
  | 0, _, _, s => .ok (0,s)
  | n+1, dstva, len, s =>
    if 0#64 < len then
      let va := pgrounddown dstva
      if maxva ≤ va then .ok (-1,s)
      else do
        let (pa,s) ← userPage kend proot psz root va s
        if pa = 0#64 then .ok (-1,s)
        else do
          let (pte,s) ← walk root va false s
          match pte with
          | none => .error "null pointer"
          | some (t,i) =>
            if s.mem t i&&&pteW = 0#64 then .ok (-1,s)
            else
              let k := if len < pgsize-(dstva-va) then len else pgsize-(dstva-va)
              copyoutLoop proot psz root data n (va+pgsize) (len-k) (store pa (data pa) s)
    else .ok (0,s)

def copyout (proot psz root dstva len : Word) (data : Word → Index → Word) (s : Vm) :
    Except String (ℤ × Vm) :=
  copyoutLoop kend proot psz root data ((len/pgsize).toNat+2) dstva len s

def copyinLoop (proot psz root : Word) : ℕ → Word → Word → Vm → Except String (ℤ × Vm)
  | 0, _, _, s => .ok (0,s)
  | n+1, srcva, len, s =>
    if 0#64 < len then do
      let va := pgrounddown srcva
      let (pa,s) ← userPage kend proot psz root va s
      if pa = 0#64 then .ok (-1,s)
      else
        let k := if len < pgsize-(srcva-va) then len else pgsize-(srcva-va)
        copyinLoop proot psz root n (va+pgsize) (len-k) s
    else .ok (0,s)

def copyin (proot psz root srcva len : Word) (s : Vm) : Except String (ℤ × Vm) :=
  copyinLoop kend proot psz root ((len/pgsize).toNat+2) srcva len s

/-- The loop of `copyinstr`; the string has its nul `nul` bytes after `srcva`. -/
def copyinstrLoop (root : Word) : ℕ → Word → Word → Word → Vm → Except String ℤ
  | 0, _, _, _, _ => .ok (-1)
  | n+1, srcva, nul, max, s =>
    if 0#64 < max then do
      let va := pgrounddown srcva
      let pa ← walkaddr root va s
      if pa = 0#64 then .ok (-1)
      else
        let k := if max < pgsize-(srcva-va) then max else pgsize-(srcva-va)
        if nul < k then .ok 0
        else copyinstrLoop root n (va+pgsize) (nul-k) (max-k) s
    else .ok (-1)

def copyinstr (root srcva nul max : Word) (s : Vm) : Except String ℤ :=
  copyinstrLoop root ((max/pgsize).toNat+2) srcva nul max s

def procPagetable (text frame : Word) (s : Vm) : Except String (Option Word × Vm) :=
  match uvmcreate s with
  | (none,s) => .ok (none,s)
  | (some root,s) => do
    let (r,s) ← mappages root trampoline pgsize text (pteR|||pteX) s
    if r < 0 then do
      let s ← uvmfree kend root 0#64 s
      .ok (none,s)
    else do
      let (r,s) ← mappages root trapframe pgsize frame (pteR|||pteW) s
      if r < 0 then do
        let s ← uvmunmap kend root trampoline 1#64 false s
        let s ← uvmfree kend root 0#64 s
        .ok (none,s)
      else .ok (some root,s)

def procFreepagetable (root sz : Word) (s : Vm) : Except String Vm := do
  let s ← uvmunmap kend root trampoline 1#64 false s
  let s ← uvmunmap kend root trapframe 1#64 false s
  uvmfree kend root sz s

end

end GreenOS.UserMemory
