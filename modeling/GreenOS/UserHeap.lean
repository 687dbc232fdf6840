import GreenOS.HeapBlocks

/-!
# The allocator of user programs

`malloc` and `free` over the headers in memory, and the free list as a ring of
blocks through `base`.
-/

namespace GreenOS.UserHeap

open HeapBlocks
open Function (update update_self update_of_ne)

structure Heap where
  ptr : ℕ → ℕ
  size : ℕ → ℕ
  freep : ℕ

def Heap.setPtr (h : Heap) (p q : ℕ) : Heap := { h with ptr := update h.ptr p q }

def Heap.setSize (h : Heap) (p n : ℕ) : Heap := { h with size := update h.size p (n%2^32) }

/-- The loop of `free`: the header after which the block at `bp` belongs. -/
def freeLoop (h : Heap) (bp : ℕ) : ℕ → ℕ → Option ℕ
  | 0, _ => none
  | fuel+1, p =>
    if p < bp ∧ bp < h.ptr p then some p
    else if h.ptr p ≤ p ∧ (p < bp ∨ bp < h.ptr p) then some p
    else freeLoop h bp fuel (h.ptr p)

/-- The block at `bp` before the one that follows `p`, or joined with it. -/
def joinUpper (h : Heap) (bp p : ℕ) : Heap :=
  if bp+headerSize*h.size bp = h.ptr p then
    let h := h.setSize bp (h.size bp+h.size (h.ptr p))
    h.setPtr bp (h.ptr (h.ptr p))
  else h.setPtr bp (h.ptr p)

def joinLower (h : Heap) (bp p : ℕ) : Heap :=
  if p+headerSize*h.size p = bp then
    let h := h.setSize p (h.size p+h.size bp)
    h.setPtr p (h.ptr bp)
  else h.setPtr p bp

def free (fuel : ℕ) (h : Heap) (ap : ℕ) : Option Heap := do
  let bp := ap-headerSize
  let p ← freeLoop h bp fuel h.freep
  return { joinLower (joinUpper h bp p) bp p with freep := p }

section Malloc
variable {σ : Type} (sbrk : ℕ → σ → Option (Option ℕ × σ))

/-- `morecore`, for a `sbrk` that is given the number of units; what it returns is 0 or `freep`. -/
def morecore (fuel nu : ℕ) (h : Heap) (s : σ) : Option (ℕ × Heap × σ) := do
  let nu := if nu < 4096 then 4096 else nu
  let (p,s) ← sbrk nu s
  match p with
  | none => return (0,h,s)
  | some hp =>
    let h ← free fuel (h.setSize hp nu) (hp+headerSize)
    return (h.freep,h,s)

def carve (h : Heap) (nunits prevp p : ℕ) : ℕ × Heap :=
  if h.size p = nunits then (p+headerSize,{ h.setPtr prevp (h.ptr p) with freep := prevp })
  else
    let h := h.setSize p (h.size p-nunits)
    let p := p+headerSize*h.size p
    (p+headerSize,{ h.setSize p nunits with freep := prevp })

def mallocLoop (nunits : ℕ) : ℕ → Heap → σ → ℕ → ℕ → Option (ℕ × Heap × σ)
  | 0, _, _, _, _ => none
  | fuel+1, h, s, prevp, p =>
    if nunits ≤ h.size p then
      let (r,h) := carve h nunits prevp p
      some (r,h,s)
    else if p = h.freep then do
      let (p,h,s) ← morecore sbrk fuel nunits h s
      if p = 0 then some (0,h,s) else mallocLoop nunits fuel h s p (h.ptr p)
    else mallocLoop nunits fuel h s p (h.ptr p)

/-- The units for a number of bytes and their header. The sum is of type `size_t`, and the result
fits in a `uint`. -/
def units (nbytes : BitVec 32) : ℕ := (nbytes.toNat+headerSize-1)/headerSize+1

def prepare (base : ℕ) (h : Heap) : Heap :=
  if h.freep = 0 then { (h.setPtr base base).setSize base 0 with freep := base } else h

def malloc (base fuel : ℕ) (nbytes : BitVec 32) (h : Heap) (s : σ) : Option (ℕ × Heap × σ) :=
  let h := prepare base h
  mallocLoop sbrk (units nbytes) fuel h s h.freep (h.ptr h.freep)

end Malloc

def first : List Block → ℕ → ℕ
  | [], q => q
  | b::_, _ => b.addr

def Leads (ptr : ℕ → ℕ) : List Block → ℕ → Prop
  | [], _ => True
  | b::bs, q => ptr b.addr = first bs q ∧ Leads ptr bs q

def nodes (base : ℕ) (blocks : List Block) : List Block := ⟨base,0⟩::blocks

theorem nodes_append (base : ℕ) (P B : List Block) : nodes base (P++B) = nodes base P++B := rfl

/-- The free list is one cycle through `base` in the order of the addresses, and no block of it
ends where the next one begins. -/
structure Ring (base : ℕ) (h : Heap) (blocks : List Block) : Prop where
  order : (nodes base blocks).Pairwise (fun a b => a.stop < b.addr)
  links : Leads h.ptr (nodes base blocks) base
  sizes : ∀ b ∈ nodes base blocks, h.size b.addr = b.size
  rover : ∃ b ∈ nodes base blocks, h.freep = b.addr

section Leads
variable {ptr ptr' : ℕ → ℕ} {bs cs : List Block} {q : ℕ}

theorem first_append (bs cs : List Block) (q : ℕ) : first (bs++cs) q = first bs (first cs q) := by
  cases bs <;> rfl

theorem leads_append : Leads ptr (bs++cs) q ↔ Leads ptr bs (first cs q) ∧ Leads ptr cs q := by
  induction bs with
  | nil => simp [Leads]
  | cons b bs ih => rw [List.cons_append, Leads, Leads, ih, first_append, and_assoc]

theorem Leads.congr (h : Leads ptr bs q) (heq : ∀ b ∈ bs, ptr' b.addr = ptr b.addr) :
    Leads ptr' bs q := by
  induction bs with
  | nil => trivial
  | cons b bs ih =>
    obtain ⟨hb,hbs⟩ := List.forall_mem_cons.mp heq
    exact ⟨hb.trans h.1,ih h.2 hbs⟩

theorem Leads.rotate {base : ℕ} {blocks A B : List Block} {f : Block}
    (h : Leads ptr (nodes base blocks) base)
    (heq : nodes base blocks = A++f::B) : Leads ptr (f::B++A) f.addr := by
  have hfirst : first A f.addr = base := by
    have := congrArg (first · base) heq
    rw [first_append] at this
    exact this.symm
  rw [heq] at h
  obtain ⟨hA,hB⟩ := leads_append.mp h
  exact leads_append.mpr ⟨hfirst.symm ▸ hB,hA⟩

end Leads

section Free
variable {base bp fuel : ℕ} {h : Heap} {blocks : List Block}

def Stops (h : Heap) (bp p : ℕ) : Prop := (p < bp ∧ bp < h.ptr p) ∨
    (h.ptr p ≤ p ∧ (p < bp ∨ bp < h.ptr p))

theorem freeLoop_spec {bs : List Block} {q : ℕ} (hlinks : Leads h.ptr bs q)
    (hex : ∃ x ∈ bs, Stops h bp x.addr)
    (hfuel : bs.length ≤ fuel) : ∃ x ∈ bs, Stops h bp x.addr ∧ freeLoop h bp fuel (first bs q) =
      some x.addr := by
  induction bs generalizing fuel with
  | nil =>
    obtain ⟨x,hx,-⟩ := hex
    cases hx
  | cons b bs ih =>
    obtain ⟨fuel,rfl⟩ := Nat.exists_eq_add_one_of_ne_zero (Nat.ne_zero_of_lt hfuel)
    rw [first, freeLoop]
    by_cases h₁ : b.addr < bp ∧ bp < h.ptr b.addr
    · rw [if_pos h₁]
      exact ⟨b,List.mem_cons_self,.inl h₁,rfl⟩
    rw [if_neg h₁]
    by_cases h₂ : h.ptr b.addr ≤ b.addr ∧ (b.addr < bp ∨ bp < h.ptr b.addr)
    · rw [if_pos h₂]
      exact ⟨b,List.mem_cons_self,.inr h₂,rfl⟩
    rw [if_neg h₂, hlinks.1]
    have hne : ¬Stops h bp b.addr := fun hs => hs.elim h₁ h₂
    have hex' : ∃ x ∈ bs, Stops h bp x.addr := by
      obtain ⟨x,hx,hs⟩ := hex
      obtain rfl | hx := List.mem_cons.mp hx
      · exact absurd hs hne
      · exact ⟨x,hx,hs⟩
    obtain ⟨x,hx,hs,heq⟩ := ih hlinks.2 hex' (Nat.le_of_succ_le_succ hfuel)
    exact ⟨x,List.mem_cons_of_mem _ hx,hs,heq⟩

theorem addr_le_stop (b : Block) : b.addr ≤ b.stop := Nat.le_add_right _ _

structure At (base : ℕ) (h : Heap) (blocks A : List Block) (x : Block) (B : List Block) : Prop where
  split : nodes base blocks = A++x::B
  next : h.ptr x.addr = first B base
  below : ∀ a ∈ A, a.stop < x.addr
  above : ∀ y ∈ B, x.stop < y.addr
  low : base ≤ x.addr

variable {A B got rest : List Block} {x b : Block}

theorem Ring.at (hr : Ring base h blocks) (heq : nodes base blocks = A++x::B) :
    At base h blocks A x B := by
  have horder := hr.order
  have hlinks := hr.links
  rw [heq] at horder hlinks
  obtain ⟨-,hx,hA⟩ := List.pairwise_append.mp horder
  obtain ⟨hB,-⟩ := List.pairwise_cons.mp hx
  refine ⟨heq,(leads_append.mp hlinks).2.1,fun a ha => hA a ha x List.mem_cons_self,hB,?_⟩
  have hx : x ∈ nodes base blocks := heq ▸ List.mem_append_right _ List.mem_cons_self
  obtain rfl | hx := List.mem_cons.mp hx
  · exact le_rfl
  · have := (List.pairwise_cons.mp hr.order).1 x hx
    exact (addr_le_stop ⟨base,0⟩).trans this.le

theorem Ring.stops_iff (hr : Ring base h blocks) (hbp : base < bp)
    (heq : nodes base blocks = A++x::B) : Stops h bp x.addr ↔ x.addr < bp ∧ ∀ y ∈ B,
      bp < y.addr := by
  have hat := hr.at heq
  have hlow := hat.low
  rw [Stops, hat.next]
  cases B with
  | nil =>
    simp only [first, List.not_mem_nil, false_implies, implies_true, and_true]
    omega
  | cons y B =>
    have horder := hr.order
    rw [heq] at horder
    have hy :=
      (List.pairwise_cons.mp (List.pairwise_cons.mp (List.pairwise_append.mp horder).2.1).2).1
    have hxy := hat.above y List.mem_cons_self
    have hx := addr_le_stop x
    rw [List.forall_mem_cons, first]
    constructor
    · intro hs
      refine ⟨by omega,by omega,fun z hz => ?_⟩
      have := hy z hz
      have := addr_le_stop y
      omega
    · rintro ⟨h₁,h₂,-⟩
      exact .inl ⟨h₁,h₂⟩

theorem exists_last {α : Type*} {P : α → Prop} {l : List α} (h : ∃ x ∈ l, P x) :
    ∃ A x B, l = A++x::B ∧ P x ∧ ∀ y ∈ B, ¬P y := by
  induction l with
  | nil =>
    obtain ⟨x,hx,-⟩ := h
    cases hx
  | cons a l ih =>
    by_cases hl : ∃ x ∈ l, P x
    · obtain ⟨A,x,B,rfl,hx⟩ := ih hl
      exact ⟨a::A,x,B,rfl,hx⟩
    · obtain ⟨x,hx,hp⟩ := h
      obtain rfl | hx := List.mem_cons.mp hx
      · exact ⟨[],x,l,rfl,hp,fun y hy hp => hl ⟨y,hy,hp⟩⟩
      · exact absurd ⟨x,hx,hp⟩ hl

theorem Ring.freeLoop (hr : Ring base h blocks) (hbp : base < bp)
    (hne : ∀ y ∈ nodes base blocks, y.addr ≠ bp)
    (hfuel : (nodes base blocks).length ≤ fuel) : ∃ A x B, nodes base blocks =
      A++x::B ∧ x.addr < bp ∧
      (∀ y ∈ B, bp < y.addr) ∧ freeLoop h bp fuel h.freep = some x.addr := by
  -- The node after which the block belongs is one of those the loop comes to.
  obtain ⟨A,x,B,heq,hx,hB⟩ := exists_last (l := nodes base blocks) (P := fun y => y.addr < bp)
    ⟨⟨base,0⟩,List.mem_cons_self,hbp⟩
  have hB' : ∀ y ∈ B, bp < y.addr := fun y hy =>
    lt_of_le_of_ne (Nat.le_of_not_lt (hB y hy))
      (hne y (heq ▸ List.mem_append_right _ (List.mem_cons_of_mem _ hy))).symm
  have hstop := (hr.stops_iff hbp heq).mpr ⟨hx,hB'⟩
  obtain ⟨f,hf,hfree⟩ := hr.rover
  obtain ⟨C,D,hsplit⟩ := List.append_of_mem hf
  have hmem : ∀ y, y ∈ f::D++C ↔ y ∈ nodes base blocks := by
    intro y
    rw [hsplit, List.mem_append, List.mem_append, or_comm]
  obtain ⟨y,hy,hstop',hloop⟩ := freeLoop_spec (hr.links.rotate hsplit)
    ⟨x,(hmem x).mpr (heq ▸ List.mem_append_right _ List.mem_cons_self),hstop⟩
    (by
      rw [hsplit] at hfuel
      simp only [List.length_append, List.length_cons] at hfuel ⊢
      omega : _ ≤ fuel)
  obtain ⟨A',B',heq'⟩ := List.append_of_mem ((hmem y).mp hy)
  obtain ⟨hlt,hgt⟩ := (hr.stops_iff hbp heq').mp hstop'
  rw [hfree]
  exact ⟨A',y,B',heq',hlt,hgt,hloop⟩

def joined (b : Block) : List Block → Block × List Block
  | [] => (b,[])
  | y::B => if b.stop = y.addr then (⟨b.addr,b.size+y.size⟩,B) else (b,y::B)

theorem joined_tiles (rest : List Block) (h : Tiles (b::(B++rest)) got) :
    Tiles ((joined b B).1::((joined b B).2++rest)) got := by
  cases B with
  | nil => exact h
  | cons y B =>
    rw [joined]
    by_cases hy : b.stop = y.addr
    · have hpos := List.forall_mem_cons.mp h.pos
      rw [if_pos hy]
      refine (tiles_cut hpos.1 (hpos.2 y List.mem_cons_self)).mpr ?_
      change b.addr+headerSize*b.size = y.addr at hy
      rwa [hy]
    · rwa [if_neg hy]

theorem joined_above (horder : B.Pairwise (fun a b => a.stop < b.addr))
    (hB : ∀ y ∈ B, b.stop ≤ y.addr) : ∀ y ∈ (joined b B).2, (joined b B).1.stop < y.addr := by
  cases B with
  | nil => nofun
  | cons y B =>
    rw [joined]
    obtain ⟨hy,-⟩ := List.pairwise_cons.mp horder
    by_cases heq : b.stop = y.addr
    · rw [if_pos heq]
      intro z hz
      have := hy z hz
      simp only [Block.stop] at heq this ⊢
      rw [Nat.mul_add]
      omega
    · rw [if_neg heq]
      have hlt : b.stop < y.addr := lt_of_le_of_ne (hB y List.mem_cons_self) heq
      exact List.forall_mem_cons.mpr ⟨hlt,fun z hz =>
        (hlt.trans_le (addr_le_stop y)).trans (hy z hz)⟩

theorem joined_suffix (b : Block) (B : List Block) : (joined b B).2 <:+ B := by
  cases B with
  | nil => exact List.suffix_rfl
  | cons y B =>
    rw [joined]
    split
    · exact List.suffix_cons y B
    · exact List.suffix_rfl

theorem joined_addr (b : Block) (B : List Block) : (joined b B).1.addr = b.addr := by
  cases B with
  | nil => rfl
  | cons y B =>
    rw [joined]
    split <;> rfl

theorem joined_size (b : Block) (B : List Block) : b.size ≤ (joined b B).1.size := by
  cases B with
  | nil => exact le_rfl
  | cons y B =>
    rw [joined]
    split
    · exact Nat.le_add_right _ _
    · exact le_rfl

theorem joinUpper_eq (hsize : h.size b.addr = b.size) (hlow : base < b.addr)
    (hnext : h.ptr x.addr = first B base) (hlinks : Leads h.ptr B base)
    (hsizes : ∀ y ∈ B, h.size y.addr = y.size) (hsmall : (joined b B).1.size < 2^32) :
    joinUpper h b.addr x.addr = { h with
      ptr := update h.ptr b.addr (first (joined b B).2 base)
      size := update h.size b.addr (joined b B).1.size } := by
  have hkeep : update h.size b.addr b.size = h.size := by rw [← hsize, Function.update_eq_self]
  have hstop : b.addr+headerSize*h.size b.addr = b.stop := by rw [hsize, Block.stop]
  rw [joinUpper, hnext, hstop]
  cases B with
  | nil =>
    have hne : b.stop ≠ base := (hlow.trans_le (addr_le_stop b)).ne'
    rw [first, if_neg hne, joined, hkeep]
    rfl
  | cons y B =>
    rw [joined] at hsmall ⊢
    by_cases heq : b.stop = y.addr
    · rw [if_pos heq] at hsmall ⊢
      have hsum : (h.size b.addr+h.size y.addr)%2^32 = b.size+y.size := by
        rw [hsize, hsizes y List.mem_cons_self, Nat.mod_eq_of_lt hsmall]
      simp only [first, if_pos heq, Heap.setSize, Heap.setPtr, hsum, hnext, hlinks.1]
    · rw [if_neg heq, first, if_neg heq, hkeep]
      rfl

theorem joinLower_eq (hsize : h.size b.addr = b.size) (hx : h.size x.addr = x.size)
    (hsmall : x.size+b.size < 2^32) : joinLower h b.addr x.addr =
      if x.stop = b.addr then { h with
        ptr := update h.ptr x.addr (h.ptr b.addr)
        size := update h.size x.addr (x.size+b.size) }
      else { h with ptr := update h.ptr x.addr b.addr } := by
  have hstop : x.addr+headerSize*h.size x.addr = x.stop := by rw [hx, Block.stop]
  rw [joinLower, hstop]
  by_cases heq : x.stop = b.addr
  · simp only [if_pos heq, Heap.setSize, Heap.setPtr, hsize, hx, Nat.mod_eq_of_lt hsmall]
  · rw [if_neg heq, if_neg heq]
    rfl

def insertAfter (x b : Block) (B : List Block) : List Block :=
  if x.stop = b.addr then ⟨x.addr,x.size+(joined b B).1.size⟩::(joined b B).2
  else x::(joined b B).1::(joined b B).2

theorem insertAfter_tiles (hpos : 0 < x.size)
    (h : Tiles (x::b::(B++rest)) got) : Tiles (insertAfter x b B++rest) got := by
  have hj : Tiles (x::(joined b B).1::((joined b B).2++rest)) got := by
    have hp : (x::b::(B++rest)).Perm (b::(B++x::rest)) :=
      List.perm_iff_count.mpr fun c => by simp only [List.count_append, List.count_cons]; omega
    refine (joined_tiles _ (h.perm hp)).perm (List.perm_iff_count.mpr fun c => ?_)
    simp only [List.count_append, List.count_cons]
    omega
  rw [insertAfter]
  by_cases heq : x.stop = b.addr
  · rw [if_pos heq]
    refine (tiles_cut hpos (hj.pos _ (List.mem_cons_of_mem _ List.mem_cons_self))).mpr ?_
    have hadd : x.addr+headerSize*x.size = (joined b B).1.addr := heq.trans (joined_addr b B).symm
    rwa [hadd]
  · rwa [if_neg heq]

/-- Where a block stands among the nodes: after `x` and before the blocks `B`. -/
structure Between (base : ℕ) (h : Heap) (A : List Block) (x b : Block) (B : List Block) : Prop where
  order : (A++x::B).Pairwise (fun a b => a.stop < b.addr)
  links : Leads h.ptr (A++x::B) base
  sizes : ∀ y ∈ A++x::B, h.size y.addr = y.size
  size : h.size b.addr = b.size
  low : base < b.addr
  below : x.stop ≤ b.addr
  before : x.addr < b.addr
  above : ∀ y ∈ B, b.stop ≤ y.addr
  pos : 0 < b.size

section Between
variable {A B : List Block} {x b : Block}

theorem Between.lower (h : Between base h A x b B) : (∀ a ∈ A, a.stop < x.addr) ∧ ∀ y ∈ B,
    x.stop < y.addr := by
  obtain ⟨-,hx,hA⟩ := List.pairwise_append.mp h.order
  exact ⟨fun a ha => hA a ha x List.mem_cons_self,(List.pairwise_cons.mp hx).1⟩

theorem Between.insert_order (h : Between base h A x b B) :
    (A++insertAfter x b B).Pairwise (fun a b => a.stop < b.addr) := by
  obtain ⟨hA,hx,hAx⟩ := List.pairwise_append.mp h.order
  obtain ⟨hxB,hB⟩ := List.pairwise_cons.mp hx
  have hsub := joined_suffix b B
  have habove := joined_above hB h.above
  have hpart : (joined b B).2.Pairwise (fun a b => a.stop < b.addr) := hB.sublist hsub.sublist
  have hAB : ∀ a ∈ A, ∀ y ∈ (joined b B).2, a.stop < y.addr :=
    fun a ha y hy => hAx a ha y (List.mem_cons_of_mem _ (hsub.subset hy))
  have hAx' : ∀ a ∈ A, a.stop < x.addr := fun a ha => hAx a ha x List.mem_cons_self
  rw [insertAfter]
  by_cases heq : x.stop = b.addr
  · rw [if_pos heq]
    have hstop : Block.stop ⟨x.addr,x.size+(joined b B).1.size⟩ = (joined b B).1.stop := by
      have := joined_addr b B
      simp only [Block.stop, Nat.mul_add] at heq ⊢
      omega
    refine List.pairwise_append.mpr ⟨hA,List.pairwise_cons.mpr ⟨fun y hy => ?_,hpart⟩,fun a ha =>
      List.forall_mem_cons.mpr ⟨hAx' a ha,hAB a ha⟩⟩
    rw [hstop]
    exact habove y hy
  · rw [if_neg heq]
    have hlt : x.stop < (joined b B).1.addr := by
      rw [joined_addr]
      exact lt_of_le_of_ne h.below heq
    refine List.pairwise_append.mpr
      ⟨hA,List.pairwise_cons.mpr ⟨List.forall_mem_cons.mpr ⟨hlt,fun y hy =>
      hxB y (hsub.subset hy)⟩,List.pairwise_cons.mpr ⟨habove,hpart⟩⟩,fun a ha =>
      List.forall_mem_cons.mpr ⟨hAx' a ha,List.forall_mem_cons.mpr ⟨?_,hAB a ha⟩⟩⟩
    exact ((hAx' a ha).trans_le (addr_le_stop x)).trans hlt

theorem Between.insert_eq (hb : Between base h A x b B)
    (hsmall : x.size+(joined b B).1.size < 2^32) :
    ∃ ptr' size', joinLower (joinUpper h b.addr x.addr) b.addr x.addr =
      { h with ptr := ptr', size := size' } ∧
      Leads ptr' (A++insertAfter x b B) base ∧ (∀ y ∈ A++insertAfter x b B, size' y.addr = y.size) ∧
      ∀ z, z ≠ b.addr → z ≠ x.addr → size' z = h.size z := by
  obtain ⟨hlA,hlx⟩ := leads_append.mp hb.links
  obtain ⟨hAx,hxB⟩ := hb.lower
  obtain ⟨hsA,hsx⟩ := List.forall_mem_append.mp hb.sizes
  obtain ⟨hsx,hsB⟩ := List.forall_mem_cons.mp hsx
  have hsub := joined_suffix b B
  have hne : x.addr ≠ b.addr := hb.before.ne
  have hA : ∀ a ∈ A, a.addr ≠ b.addr ∧ a.addr ≠ x.addr := by
    intro a ha
    have := addr_le_stop a
    have := hAx a ha
    have := hb.before
    omega
  have hB : ∀ y ∈ (joined b B).2, y.addr ≠ b.addr ∧ y.addr ≠ x.addr := by
    intro y hy
    have := hb.above y (hsub.subset hy)
    have := hxB y (hsub.subset hy)
    have := addr_le_stop x
    have hpos := hb.pos
    simp only [Block.stop, headerSize] at *
    omega
  have hlB : Leads h.ptr (joined b B).2 base := by
    obtain ⟨C,hC⟩ := hsub
    have := hlx.2
    rw [← hC] at this
    exact (leads_append.mp this).2
  have hupper := joinUpper_eq hb.size hb.low hlx.1 hlx.2 hsB
    (lt_of_le_of_lt (Nat.le_add_left _ _) hsmall)
  have hlower := joinLower_eq (h := joinUpper h b.addr x.addr) (b := (joined b B).1) (x := x)
    (by rw [hupper, joined_addr]; exact update_self ..)
    (by rw [hupper]; exact (update_of_ne hne ..).trans hsx) hsmall
  rw [joined_addr] at hlower
  rw [hlower, insertAfter]
  by_cases heq : x.stop = b.addr
  · rw [if_pos heq, if_pos heq, hupper]
    dsimp only
    refine ⟨_,_,rfl,leads_append.mpr ⟨hlA.congr fun a ha => ?_,?_,hlB.congr fun y hy => ?_⟩,
      List.forall_mem_append.mpr ⟨fun a ha => ?_,List.forall_mem_cons.mpr ⟨?_,fun y hy => ?_⟩⟩,
        fun z hz hz' => ?_⟩
    · rw [update_of_ne (hA a ha).2, update_of_ne (hA a ha).1]
    · rw [update_self, update_self]
    · rw [update_of_ne (hB y hy).2, update_of_ne (hB y hy).1]
    · rw [update_of_ne (hA a ha).2, update_of_ne (hA a ha).1, hsA a ha]
    · rw [update_self]
    · rw [update_of_ne (hB y hy).2, update_of_ne (hB y hy).1, hsB y (hsub.subset hy)]
    · rw [update_of_ne hz', update_of_ne hz]
  · rw [if_neg heq, if_neg heq, hupper]
    dsimp only
    refine ⟨_,_,rfl,leads_append.mpr ⟨hlA.congr fun a ha => ?_,?_,?_,hlB.congr fun y hy => ?_⟩,
      List.forall_mem_append.mpr ⟨fun a ha =>
        ?_,List.forall_mem_cons.mpr ⟨?_,List.forall_mem_cons.mpr ⟨?_,fun y hy =>
        ?_⟩⟩⟩,fun z hz hz' => ?_⟩
    · rw [update_of_ne (hA a ha).2, update_of_ne (hA a ha).1]
    · rw [update_self, first, joined_addr]
    · rw [joined_addr, update_of_ne hne.symm, update_self]
    · rw [update_of_ne (hB y hy).2, update_of_ne (hB y hy).1]
    · rw [update_of_ne (hA a ha).1, hsA a ha]
    · rw [update_of_ne hne, hsx]
    · rw [joined_addr, update_self]
    · rw [update_of_ne (hB y hy).1, hsB y (hsub.subset hy)]
    · rw [update_of_ne hz]

end Between

theorem insertAfter_length (x b : Block) (B : List Block) : (insertAfter x b B).length ≤
    B.length+2 := by
  have := (joined_suffix b B).length_le
  rw [insertAfter]
  split <;> simp only [List.length_cons] <;> omega

theorem insertAfter_large (x b : Block) (B : List Block) : ∃ c ∈ insertAfter x b B,
    b.size ≤ c.size := by
  have hsize := joined_size b B
  rw [insertAfter]
  split
  · exact ⟨_,List.mem_cons_self,hsize.trans (Nat.le_add_left _ _)⟩
  · exact ⟨_,List.mem_cons_of_mem _ List.mem_cons_self,hsize⟩

theorem node_ne (ht : Tiles (blocks++rest) got) (hlow : ∀ g ∈ got, base < g.addr) {y : Block}
    (hy : y ∈ rest) (hx : x ∈ nodes base blocks) : y.addr ≠ x.addr := by
  obtain rfl | hx := List.mem_cons.mp hx
  · exact Nat.ne_of_gt (ht.addr_ge hlow (List.mem_append_right _ hy))
  · obtain ⟨A,B,rfl⟩ := List.append_of_mem hx
    have ht' : Tiles (x::(A++B++rest)) got := ht.perm (by
      rw [List.append_assoc, List.append_assoc]
      exact List.perm_middle)
    exact ht'.addr_ne (List.mem_append_right _ hy)

/-- The sizes that `free` may add to that of a block have a sum of type `uint`. -/
def SumFits (base : ℕ) (blocks : List Block) (b : Block) : Prop :=
  ∀ A x B, nodes base blocks = A++x::B → x.addr < b.addr → (∀ y ∈ B, b.addr < y.addr) →
    x.size+(joined b B).1.size < 2^32

theorem sumFits_of_total (ht : Tiles (b::(blocks++rest)) got)
    (hsmall : total got < 2^32) : SumFits base blocks b := by
  intro A x B heq _ _
  cases A with
  | nil =>
    obtain ⟨rfl,rfl⟩ := List.cons.inj heq
    have hle := (joined_tiles _ ht).total
    rw [total_cons] at hle
    rw [Nat.zero_add]
    omega
  | cons a A =>
    obtain ⟨rfl,hblocks⟩ := List.cons.inj heq
    replace hblocks : blocks = A++x::B := hblocks
    subst hblocks
    have hj := joined_tiles (x::(A++rest)) (ht.perm (List.perm_iff_count.mpr fun c => by
      simp only [List.count_append, List.count_cons]
      omega) : Tiles (b::(B++x::(A++rest))) got)
    have htotal := hj.total
    rw [total_cons, total_perm List.perm_middle, total_cons] at htotal
    omega

theorem insertAfter_small (hx : x.size < 2^32) (hB : ∀ y ∈ B, y.size < 2^32)
    (hsum : x.size+(joined b B).1.size < 2^32) : ∀ c ∈ insertAfter x b B, c.size < 2^32 := by
  have hB' : ∀ y ∈ (joined b B).2, y.size < 2^32 := fun y hy => hB y ((joined_suffix b B).subset hy)
  rw [insertAfter]
  split
  · exact List.forall_mem_cons.mpr ⟨hsum,hB'⟩
  · exact List.forall_mem_cons.mpr ⟨hx,List.forall_mem_cons.mpr ⟨by omega,hB'⟩⟩

theorem free_spec (hr : Ring base h blocks) (hsize : h.size b.addr = b.size)
    (ht : Tiles (b::(blocks++rest)) got) (hlow : ∀ g ∈ got, base < g.addr)
    (hsum : SumFits base blocks b) (hsmall : ∀ c ∈ blocks, c.size < 2^32)
    (hfuel : blocks.length+1 ≤ fuel) :
    ∃ h' blocks', free fuel h (b.addr+headerSize) = some h' ∧ Ring base h' blocks' ∧
      Tiles (blocks'++rest) got ∧
      (∀ y ∈ rest, h'.size y.addr = h.size y.addr) ∧ blocks'.length ≤ blocks.length+1 ∧
      (∀ c ∈ blocks', c.size < 2^32) ∧ ∃ c ∈ blocks', b.size ≤ c.size := by
  have hbase : base < b.addr := ht.addr_ge hlow List.mem_cons_self
  have hpos := List.forall_mem_cons.mp ht.pos
  have hapart : ∀ y ∈ blocks, 0 < y.size ∧ Apart b y := fun y hy =>
    ⟨hpos.2 y (List.mem_append_left _ hy),(List.pairwise_cons.mp ht.apart).1 y
      (List.mem_append_left _ hy)⟩
  have hnode : ∀ y ∈ nodes base blocks, y.stop ≤ b.addr ∨ b.stop ≤ y.addr := by
    refine List.forall_mem_cons.mpr ⟨.inl hbase.le,fun y hy => (hapart y hy).2.symm⟩
  have hlong : b.addr < b.stop := by
    have := hpos.1
    simp only [Block.stop, headerSize]
    omega
  have hne : ∀ y ∈ nodes base blocks, y.addr ≠ b.addr :=
    List.forall_mem_cons.mpr ⟨hbase.ne,fun y hy => ht.addr_ne (List.mem_append_left _ hy)⟩
  obtain ⟨A,x,B,heq,hx,hB,hloop⟩ := hr.freeLoop hbase hne hfuel
  have hxmem : x ∈ nodes base blocks := heq ▸ List.mem_append_right _ List.mem_cons_self
  have hxle := addr_le_stop x
  have hbetween : Between base h A x b B := by
    refine ⟨heq ▸ hr.order,heq ▸ hr.links,heq ▸ hr.sizes,hsize,hbase,?_,hx,fun y hy => ?_,hpos.1⟩
    · have := hnode x hxmem
      omega
    · have := hnode y (heq ▸ List.mem_append_right _ (List.mem_cons_of_mem _ hy))
      have := hB y hy
      have := addr_le_stop y
      omega
  replace hsum := hsum A x B heq hx hB
  -- The list with the block in it, which still begins with `base`.
  have hnew : ∃ blocks', A++insertAfter x b B = nodes base blocks' ∧ Tiles (blocks'++rest) got ∧
      blocks'.length ≤ blocks.length+1 ∧ ∃ c ∈ blocks', b.size ≤ c.size := by
    cases A with
    | nil =>
      obtain ⟨rfl,rfl⟩ := List.cons.inj heq
      have hsub := (joined_suffix b blocks).length_le
      have hstop : Block.stop ⟨base,0⟩ ≠ b.addr := hbase.ne
      refine ⟨(joined b blocks).1::(joined b blocks).2,?_,joined_tiles _ ht,by simpa using hsub,
        _,List.mem_cons_self,joined_size b blocks⟩
      rw [insertAfter, if_neg hstop]
      rfl
    | cons a A =>
      obtain ⟨rfl,hblocks⟩ := List.cons.inj heq
      replace hblocks : blocks = A++x::B := hblocks
      subst hblocks
      have hxpos : 0 < x.size := (hapart x (List.mem_append_right _ List.mem_cons_self)).1
      have ht' : Tiles (x::b::(B++(A++rest))) got := ht.perm (List.perm_iff_count.mpr fun c => by
        simp only [List.count_append, List.count_cons]
        omega)
      obtain ⟨c,hc,hle⟩ := insertAfter_large x b B
      have hlen := insertAfter_length x b B
      refine ⟨A++insertAfter x b B,rfl,?_,?_,c,List.mem_append_right _ hc,hle⟩
      · refine (insertAfter_tiles hxpos ht').perm (List.perm_iff_count.mpr fun c => ?_)
        simp only [List.count_append]
        omega
      · simp only [List.length_append, List.length_cons]
        omega
  obtain ⟨blocks',hnodes,htiles,hlen,hlarge⟩ := hnew
  obtain ⟨ptr',size',hjoin,hlinks,hsizes,hsame⟩ := hbetween.insert_eq hsum
  have horder := hbetween.insert_order
  rw [hnodes] at hlinks hsizes horder
  have hrover : ∃ c ∈ nodes base blocks', x.addr = c.addr := by
    rw [← hnodes, insertAfter]
    split
    · exact ⟨_,List.mem_append_right _ List.mem_cons_self,rfl⟩
    · exact ⟨_,List.mem_append_right _ List.mem_cons_self,rfl⟩
  have hall : ∀ c ∈ nodes base blocks, c.size < 2^32 :=
    List.forall_mem_cons.mpr ⟨Nat.two_pow_pos 32,hsmall⟩
  rw [heq] at hall
  obtain ⟨hA,hxB⟩ := List.forall_mem_append.mp hall
  obtain ⟨hxs,hBs⟩ := List.forall_mem_cons.mp hxB
  have hsmall' : ∀ c ∈ nodes base blocks', c.size < 2^32 :=
    hnodes ▸ List.forall_mem_append.mpr ⟨hA,insertAfter_small hxs hBs hsum⟩
  refine ⟨⟨ptr',size',x.addr⟩,blocks',?_,⟨horder,hlinks,hsizes,hrover⟩,htiles,fun y hy => ?_,hlen,
    (List.forall_mem_cons.mp hsmall').2,hlarge⟩
  · rw [free, Nat.add_sub_cancel, hloop]
    simp only [Option.bind_eq_bind, Option.bind_some, hjoin]
    rfl
  · exact hsame _ (ht.addr_ne (List.mem_append_right _ hy))
      (node_ne (ht.perm List.perm_middle.symm) hlow (List.mem_cons_of_mem _ hy) hxmem)

end Free

section Carve
variable {base nunits : ℕ} {h : Heap} {blocks rest got : List Block}

variable {a c : Block} {B : List Block}

theorem Ring.before (hr : Ring base h blocks) (ha : a ∈ nodes base blocks)
    (hne : h.ptr a.addr ≠ base) :
    ∃ A c B, nodes base blocks = A++a::c::B ∧ c.addr = h.ptr a.addr := by
  obtain ⟨A,B,heq⟩ := List.append_of_mem ha
  have hnext := (hr.at heq).next
  cases B with
  | nil => exact absurd hnext hne
  | cons c B => exact ⟨A,c,B,heq,hnext.symm⟩

structure Taken (base nunits : ℕ) (h h' : Heap) (blocks' rest got : List Block)
    (r : Block) : Prop where
  ring : Ring base h' blocks'
  tiles : Tiles (r::(blocks'++rest)) got
  size : h'.size r.addr = nunits
  units : r.size = nunits
  same : ∀ y ∈ rest, h'.size y.addr = h.size y.addr

theorem Ring.unlink (hr : Ring base h blocks) {A : List Block}
    (heq : nodes base blocks = A++a::c::B) : ∃ P, blocks = P++c::B ∧
      Ring base { h.setPtr a.addr (h.ptr c.addr) with freep := a.addr } (P++B) := by
  obtain ⟨P,rfl,hP⟩ : ∃ P, blocks = P++c::B ∧ nodes base P = A++[a] := by
    cases A with
    | nil =>
      obtain ⟨rfl,rfl⟩ := List.cons.inj heq
      exact ⟨[],rfl,rfl⟩
    | cons a' A =>
      obtain ⟨rfl,hblocks⟩ := List.cons.inj heq
      exact ⟨A++[a],by rw [List.append_assoc]; exact hblocks,rfl⟩
  have hnodes : nodes base (P++B) = A++a::B := by
    rw [nodes_append, hP, List.append_assoc]
    rfl
  have hsub : (A++a::B).Sublist (A++a::c::B) :=
    ((List.sublist_cons_self c B).cons_cons a).append_left A
  have horder : (A++a::c::B).Pairwise (fun a b => a.stop < b.addr) := heq ▸ hr.order
  have hlinks : Leads h.ptr (A++a::c::B) base := heq ▸ hr.links
  obtain ⟨hlA,-,hlc,hlB⟩ := leads_append.mp hlinks
  have hat := hr.at heq
  have hne : ∀ y ∈ B, y.addr ≠ a.addr := fun y hy =>
    ((addr_le_stop a).trans_lt (hat.above y (List.mem_cons_of_mem _ hy))).ne'
  refine ⟨P,rfl,?_,?_,?_,⟨a,?_,rfl⟩⟩ <;> rw [hnodes]
  · exact horder.sublist hsub
  · refine leads_append.mpr ⟨hlA.congr fun y hy => ?_,?_,hlB.congr fun y hy =>
      update_of_ne (hne y hy) ..⟩
    · exact update_of_ne ((addr_le_stop y).trans_lt (hat.below y hy)).ne ..
    · exact (update_self ..).trans hlc
  · exact fun y hy => hr.sizes y (heq ▸ hsub.subset hy)
  · exact List.mem_append_right _ List.mem_cons_self

theorem Ring.shrink {P : List Block} {m k : ℕ} (hr : Ring base h (P++c::B)) (hc : c.size = m+k)
    (hm : 0 < m) (hsmall : c.size < 2^32) (ha : a ∈ nodes base (P++c::B)) :
    Ring base { (h.setSize c.addr m).setSize (c.addr+headerSize*m) k with freep := a.addr }
      (P++⟨c.addr,m⟩::B) := by
  have hle : Block.stop ⟨c.addr,m⟩ ≤ c.stop := by
    simp only [Block.stop, headerSize, hc]
    omega
  have hat := hr.at (nodes_append base P (c::B))
  have horder := hr.order
  have hlinks := hr.links
  have hsizes := hr.sizes
  rw [nodes_append] at ha horder hlinks hsizes
  obtain ⟨hP,hcB,hPc⟩ := List.pairwise_append.mp horder
  obtain ⟨hlP,hlc,hlB⟩ := leads_append.mp hlinks
  obtain ⟨hsP,hsc⟩ := List.forall_mem_append.mp hsizes
  have hpart : c.addr < c.addr+headerSize*m ∧ c.addr+headerSize*m ≤ c.stop := by
    simp only [Block.stop, headerSize, hc]
    omega
  have hmod : m%2^32 = m := Nat.mod_eq_of_lt (by omega)
  -- No other node lies in the block.
  have hout : ∀ y, y ∈ nodes base P ∨ y ∈ B → y.addr ≠ c.addr ∧ y.addr ≠ c.addr+headerSize*m := by
    rintro y (hy | hy)
    · have := addr_le_stop y
      have := hat.below y hy
      omega
    · have := hat.above y hy
      omega
  refine ⟨?_,?_,?_,?_⟩ <;> rw [nodes_append]
  · refine List.pairwise_append.mpr
      ⟨hP,List.pairwise_cons.mpr ⟨fun y hy => hle.trans_lt (hat.above y hy),
      (List.pairwise_cons.mp hcB).2⟩,fun y hy => ?_⟩
    exact List.forall_mem_cons.mpr ⟨hat.below y hy,fun z hz =>
      hPc y hy z (List.mem_cons_of_mem _ hz)⟩
  · exact leads_append.mpr ⟨hlP,hlc,hlB⟩
  · refine List.forall_mem_append.mpr ⟨fun y hy => ?_,List.forall_mem_cons.mpr ⟨?_,fun y hy => ?_⟩⟩
    · exact (update_of_ne (hout y (.inl hy)).2 ..).trans
        ((update_of_ne (hout y (.inl hy)).1 ..).trans (hsP y hy))
    · exact (update_of_ne hpart.1.ne ..).trans ((update_self ..).trans hmod)
    · exact (update_of_ne (hout y (.inr hy)).2 ..).trans
        ((update_of_ne (hout y (.inr hy)).1 ..).trans
        (hsc y (List.mem_cons_of_mem _ hy)))
  · obtain ha | ha := List.mem_append.mp ha
    · exact ⟨a,List.mem_append_left _ ha,rfl⟩
    · obtain rfl | ha := List.mem_cons.mp ha
      · exact ⟨⟨a.addr,m⟩,List.mem_append_right _ List.mem_cons_self,rfl⟩
      · exact ⟨a,List.mem_append_right _ (List.mem_cons_of_mem _ ha),rfl⟩

theorem carve_spec (hr : Ring base h blocks) (ht : Tiles (blocks++rest) got)
    (hsmall : ∀ c ∈ blocks, c.size < 2^32) (ha : a ∈ nodes base blocks) (hpos : 0 < nunits)
    (hfit : nunits ≤ h.size (h.ptr a.addr)) :
    (∃ c ∈ blocks, nunits ≤ c.size) ∧ ∃ r h' blocks', carve h nunits a.addr (h.ptr a.addr) =
    (r.addr+headerSize,h') ∧
      Taken base nunits h h' blocks' rest got r := by
  have hne : h.ptr a.addr ≠ base := by
    intro heq
    have hzero : h.size base = 0 := hr.sizes ⟨base,0⟩ List.mem_cons_self
    rw [heq, hzero] at hfit
    omega
  obtain ⟨A,c,B,heq,hc⟩ := hr.before ha hne
  obtain ⟨P,rfl,hunlink⟩ := hr.unlink heq
  have hsize : h.size c.addr = c.size :=
    hr.sizes c (List.mem_append_right (nodes base P) List.mem_cons_self)
  have hcsmall : c.size < 2^32 := hsmall c (List.mem_append_right _ List.mem_cons_self)
  have hout : Tiles (c::(P++B++rest)) got := by
    refine ht.perm ?_
    rw [List.append_assoc, List.append_assoc]
    exact List.perm_middle
  rw [← hc, hsize] at hfit
  refine ⟨⟨c,List.mem_append_right _ List.mem_cons_self,hfit⟩,?_⟩
  rw [← hc, carve, hsize]
  by_cases hexact : c.size = nunits
  · rw [if_pos hexact]
    exact ⟨c,_,P++B,rfl,hunlink,hout,hsize.trans hexact,hexact,fun _ _ => rfl⟩
  · obtain ⟨m,hm⟩ := Nat.exists_eq_add_of_le' hfit
    have hpos' : 0 < m := by omega
    have hsub : c.size-nunits = m := by omega
    have hleft : (h.setSize c.addr m).size c.addr = m :=
      (update_self ..).trans (Nat.mod_eq_of_lt (by omega))
    have htiles : Tiles (⟨c.addr+headerSize*m,nunits⟩::(P++⟨c.addr,m⟩::B++rest)) got := by
      have hcut : Tiles (⟨c.addr,m+nunits⟩::(P++B++rest)) got := by rwa [← hm]
      refine ((tiles_cut hpos' hpos).mp hcut).perm (List.perm_iff_count.mpr fun z => ?_)
      simp only [List.count_append, List.count_cons]
      omega
    rw [if_neg hexact, hsub]
    dsimp only
    rw [hleft]
    refine ⟨⟨c.addr+headerSize*m,nunits⟩,_,P++⟨c.addr,m⟩::B,rfl,hr.shrink hm hpos' hcsmall ha,
      htiles,?_,rfl,
      fun y hy => ?_⟩
    · exact (update_self ..).trans (Nat.mod_eq_of_lt (by omega))
    · have h₁ := htiles.addr_ne (List.mem_append_right _ hy)
      have h₂ := hout.addr_ne (List.mem_append_right _ hy)
      exact (update_of_ne h₁ ..).trans (update_of_ne h₂ ..)

end Carve

end GreenOS.UserHeap
