import GreenOS.RadixTree

/-!
# Page tables

The functions of `vm.c` that walk, extend and cut a three-level page table, and
the page allocator under them. Memory is seen as pages of 512 entries, a page
named by its address; the free list is kept beside the pages instead of in their
first words.
-/

namespace GreenOS.PageTable
open RadixTree

abbrev Word := BitVec 64

abbrev Index := BitVec 9

def pgsize : Word := 4096

def pteV : Word := 1
def pteR : Word := 2
def pteW : Word := 4
def pteX : Word := 8
def pteU : Word := 16

def pa2pte (pa : Word) : Word := (pa>>>12)<<<10

def pte2pa (pte : Word) : Word := (pte>>>10)<<<12

def pteFlags (pte : Word) : Word := pte&&&0x3ff

def px (level : ℕ) (va : Word) : Index := ((va>>>(12+9*level))&&&0x1ff).setWidth 9

def maxva : Word := 1<<<38

def phystop : Word := 0x88000000

def valid (pte : Word) : Bool := pte&&&pteV ≠ 0#64

structure Vm where
  mem : Word → Index → Word
  free : List Word

def fill (pa w : Word) (s : Vm) : Vm := { s with mem := Function.update s.mem pa (fun _ => w) }

def setPte (t : Word) (i : Index) (pte : Word) (s : Vm) : Vm :=
  { s with mem := write s.mem t i pte }

def kalloc (s : Vm) : Option Word × Vm :=
  match s.free with
  | [] => (none,s)
  | r::rest => (some r,fill r 0x0505050505050505 { s with free := rest })

def kfree (kend pa : Word) (s : Vm) : Except String Vm :=
  if pa%pgsize ≠ 0#64 ∨ pa < kend ∨ phystop ≤ pa then .error "kfree"
  else
    let s := fill pa 0x0101010101010101 s
    .ok { s with free := pa::s.free }

/-- One level of `walk`: the table behind an entry, made if asked for. -/
def descend (t : Word) (i : Index) (alloc : Bool) (s : Vm) : Option Word × Vm :=
  if valid (s.mem t i) then (some (pte2pa (s.mem t i)),s)
  else if alloc then
    match kalloc s with
    | (none,s) => (none,s)
    | (some a,s) => (some a,setPte t i (pa2pte a|||pteV) (fill a 0#64 s))
  else (none,s)

def walk (root va : Word) (alloc : Bool) (s : Vm) : Except String (Option (Word × Index) × Vm) :=
  if maxva ≤ va then .error "walk"
  else
    match descend root (px 2 va) alloc s with
    | (none,s) => .ok (none,s)
    | (some t,s) =>
      match descend t (px 1 va) alloc s with
      | (none,s) => .ok (none,s)
      | (some t,s) => .ok (some (t,px 0 va),s)

def walkaddr (root va : Word) (s : Vm) : Except String Word :=
  if maxva ≤ va then .ok 0
  else do
    let (pte,s) ← walk root va false s
    match pte with
    | none => .ok 0
    | some (t,i) =>
      if ¬ valid (s.mem t i) then .ok 0
      else if s.mem t i&&&pteU = 0#64 then .ok 0
      else .ok (pte2pa (s.mem t i))

def mapLoop (root last perm : Word) : ℕ → Word → Word → Vm → Except String (ℤ × Vm)
  | 0, _, _, s => .ok (0,s)
  | n+1, a, pa, s => do
    let (pte,s) ← walk root a true s
    match pte with
    | none => .ok (-1,s)
    | some (t,i) =>
      if valid (s.mem t i) then .error "mappages: remap"
      else
        let s := setPte t i (pa2pte pa|||perm|||pteV) s
        if a = last then .ok (0,s) else mapLoop root last perm n (a+pgsize) (pa+pgsize) s

def mappages (root va size pa perm : Word) (s : Vm) : Except String (ℤ × Vm) :=
  if va%pgsize ≠ 0#64 then .error "mappages: va not aligned"
  else if size%pgsize ≠ 0#64 then .error "mappages: size not aligned"
  else if size = 0#64 then .error "mappages: size"
  else mapLoop root (va+size-pgsize) perm (size/pgsize).toNat va pa s

def unmapPage (kend root a : Word) (doFree : Bool) (s : Vm) : Except String Vm := do
  let (pte,s) ← walk root a false s
  match pte with
  | none => .ok s
  | some (t,i) =>
    if valid (s.mem t i) then do
      let s ← if doFree then kfree kend (pte2pa (s.mem t i)) s else .ok s
      .ok (setPte t i 0#64 s)
    else .ok s

/-- The loop of `uvmunmap`; it never takes more rounds than there are pages. -/
def unmapLoop (kend root stop : Word) (doFree : Bool) : ℕ → Word → Vm → Except String Vm
  | 0, _, s => .ok s
  | n+1, a, s =>
    if a < stop then do
      let s ← unmapPage kend root a doFree s
      unmapLoop kend root stop doFree n (a+pgsize) s
    else .ok s

def uvmunmap (kend root va npages : Word) (doFree : Bool) (s : Vm) : Except String Vm :=
  if va%pgsize ≠ 0#64 then .error "uvmunmap: not aligned"
  else unmapLoop kend root (va+npages*pgsize) doFree npages.toNat va s

def child (pte : Word) : Option Word := if valid pte then some (pte2pa pte) else none

def lookup (s : Vm) (root va : Word) : Option (Word × Index) :=
  (tableAt child s.mem root [px 2 va,px 1 va]).map (fun t => (t,px 0 va))

def translate (s : Vm) (root va : Word) : Option Word :=
  (lookup s root va).bind (fun x => if valid (s.mem x.1 x.2) then some (s.mem x.1 x.2) else none)

end GreenOS.PageTable
