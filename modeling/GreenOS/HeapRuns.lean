import GreenOS.StepRun
import GreenOS.UserHeap

/-!
# Runs of the user heap

The search of `malloc`, and what a call of `malloc` or `free` does to a sound heap.
-/

namespace GreenOS.HeapRuns

open HeapBlocks UserHeap StepRun

section Search
variable {σ : Type} {sbrk : ℕ → σ → Option (Option ℕ × σ)} {base nunits fuel : ℕ} {h : Heap} {s : σ}
variable {blocks rest got : List Block}

def mallocMore (sbrk : ℕ → σ → Option (Option ℕ × σ)) (nunits fuel : ℕ) (h : Heap) (s : σ) :
    Option (ℕ × Heap × σ) := do
  let (p,h,s) ← morecore sbrk fuel nunits h s
  if p = 0 then some (0,h,s) else mallocLoop sbrk nunits fuel h s p (h.ptr p)

variable (sbrk nunits s) in
theorem mallocLoop_spec {xs : List Block} {f : Block} {prev q : ℕ}
    (hlinks : Leads h.ptr (xs++[f]) q)
    (hprev : h.ptr prev = first (xs++[f]) q) (hf : h.freep = f.addr)
    (hxs : ∀ x ∈ xs, x.addr ≠ f.addr)
    (hfuel : xs.length+1 ≤ fuel) :
    (∃ z, (z = prev ∨ ∃ x ∈ xs, z = x.addr) ∧ nunits ≤ h.size (h.ptr z) ∧
      mallocLoop sbrk nunits fuel h s prev (h.ptr prev) =
        some ((carve h nunits z (h.ptr z)).1,(carve h nunits z (h.ptr z)).2,s)) ∨
    (∀ x ∈ xs++[f], h.size x.addr < nunits) ∧ ∃ fuel', fuel = fuel'+(xs.length+1) ∧
      mallocLoop sbrk nunits fuel h s prev (h.ptr prev) = mallocMore sbrk nunits fuel' h s := by
  induction xs generalizing prev fuel with
  | nil =>
    obtain ⟨fuel,rfl⟩ := Nat.exists_eq_add_one_of_ne_zero (Nat.ne_zero_of_lt hfuel)
    replace hprev : h.ptr prev = f.addr := hprev
    rw [mallocLoop]
    by_cases hfit : nunits ≤ h.size (h.ptr prev)
    · exact .inl ⟨prev,.inl rfl,hfit,by rw [if_pos hfit]⟩
    · rw [if_neg hfit, if_pos (hprev.trans hf.symm)]
      refine .inr ⟨?_,fuel,rfl,rfl⟩
      rw [hprev] at hfit
      simpa using hfit
  | cons x xs ih =>
    obtain ⟨fuel,rfl⟩ := Nat.exists_eq_add_one_of_ne_zero (Nat.ne_zero_of_lt hfuel)
    replace hprev : h.ptr prev = x.addr := hprev
    obtain ⟨hx,hxs⟩ := List.forall_mem_cons.mp hxs
    rw [mallocLoop]
    by_cases hfit : nunits ≤ h.size (h.ptr prev)
    · exact .inl ⟨prev,.inl rfl,hfit,by rw [if_pos hfit]⟩
    · have hne : h.ptr prev ≠ h.freep := by rwa [hprev, hf]
      rw [if_neg hfit, if_neg hne, hprev]
      obtain ⟨z,hz,hlarge,heq⟩ | ⟨hnone,fuel',hlen,heq⟩ :=
        ih hlinks.2 hlinks.1 hxs (Nat.le_of_succ_le_succ hfuel)
      · refine .inl ⟨z,.inr ?_,hlarge,heq⟩
        obtain rfl | ⟨y,hy,rfl⟩ := hz
        · exact ⟨x,List.mem_cons_self,rfl⟩
        · exact ⟨y,List.mem_cons_of_mem _ hy,rfl⟩
      · rw [hprev] at hfit
        exact .inr ⟨List.forall_mem_cons.mpr ⟨Nat.lt_of_not_le hfit,hnone⟩,fuel',
          by rw [hlen]; rfl,heq⟩

variable (sbrk nunits s) in
theorem search_spec (hr : Ring base h blocks) (hfuel : blocks.length+1 ≤ fuel) :
    (∃ z ∈ nodes base blocks, nunits ≤ h.size (h.ptr z.addr) ∧
      mallocLoop sbrk nunits fuel h s h.freep (h.ptr h.freep) =
        some ((carve h nunits z.addr (h.ptr z.addr)).1,
          (carve h nunits z.addr (h.ptr z.addr)).2,s)) ∨
    (∀ b ∈ blocks, b.size < nunits) ∧ ∃ fuel', fuel = fuel'+(blocks.length+1) ∧
      mallocLoop sbrk nunits fuel h s h.freep (h.ptr h.freep) = mallocMore sbrk nunits
        fuel' h s := by
  obtain ⟨f,hf,hfree⟩ := hr.rover
  obtain ⟨C,D,hsplit⟩ := List.append_of_mem hf
  have hat := hr.at hsplit
  have hrot := hr.links.rotate hsplit
  have hlinks : Leads h.ptr (D++C++[f]) (h.ptr f.addr) := leads_append.mpr ⟨hrot.2,rfl,trivial⟩
  have hfirst : h.ptr f.addr = first (D++C++[f]) (h.ptr f.addr) := by
    rw [first_append]
    exact hrot.1
  have hne : ∀ x ∈ D++C, x.addr ≠ f.addr := by
    intro x hx
    obtain hx | hx := List.mem_append.mp hx
    · exact ((addr_le_stop f).trans_lt (hat.above x hx)).ne'
    · exact ((addr_le_stop x).trans_lt (hat.below x hx)).ne
  have hmem : ∀ x, x ∈ D++C++[f] ↔ x ∈ nodes base blocks := by
    intro x
    rw [hsplit]
    simp only [List.mem_append, List.mem_cons, List.not_mem_nil, or_false]
    tauto
  have hlen : (D++C).length+1 = blocks.length+1 := by
    have := congrArg List.length hsplit
    simp only [nodes, List.length_append, List.length_cons] at this ⊢
    omega
  rw [hfree]
  obtain ⟨z,hz,hlarge,heq⟩ | ⟨hnone,fuel',hlen',heq⟩ :=
    mallocLoop_spec sbrk nunits s hlinks hfirst hfree hne (by omega : _ ≤ fuel)
  · refine .inl ?_
    obtain rfl | ⟨x,hx,rfl⟩ := hz
    · exact ⟨f,hf,hlarge,heq⟩
    · exact ⟨x,(hmem x).mp (List.mem_append_left _ hx),hlarge,heq⟩
  · refine .inr ⟨fun b hb => ?_,fuel',by omega,heq⟩
    have hb' : b ∈ nodes base blocks := List.mem_cons_of_mem _ hb
    rw [← hr.sizes b hb']
    exact hnone b ((hmem b).mpr hb')

def request (nunits : ℕ) : ℕ := if nunits < 4096 then 4096 else nunits

theorem le_request (nunits : ℕ) : nunits ≤ request nunits := by
  unfold request
  split <;> omega

variable {a : ℕ}

theorem Ring.setSize (hr : Ring base h blocks) {n : ℕ} (ha : ∀ b ∈ nodes base blocks, b.addr ≠ a) :
    Ring base (h.setSize a n) blocks :=
  ⟨hr.order,hr.links,fun b hb => (Function.update_of_ne (ha b hb) ..).trans
    (hr.sizes b hb),hr.rover⟩

theorem freep_pos (hr : Ring base h blocks) (hbase : 0 < base) : h.freep ≠ 0 := by
  obtain ⟨f,hf,hfree⟩ := hr.rover
  obtain ⟨A,B,heq⟩ := List.append_of_mem hf
  have := (hr.at heq).low
  omega

theorem mallocMore_spec (hr : Ring base h blocks) (ht : Tiles (blocks++rest) got)
    (hlow : ∀ g ∈ got, base < g.addr) (hbase : 0 < base) (hpos : 0 < nunits) {s' : σ}
    (hs : sbrk (request nunits) s = some (some a,s')) (ha : base < a)
    (habove : ∀ g ∈ got, g.stop ≤ a) (hnone : ∀ b ∈ blocks, b.size < nunits)
    (hsmall : nunits+request nunits < 2^32) (hfuel : blocks.length+2 ≤ fuel) :
    ∃ r h' blocks', mallocMore sbrk nunits fuel h s = some (r.addr+headerSize,h',s') ∧
      Taken base nunits h h' blocks' rest (⟨a,request nunits⟩::got) r := by
  have hreq := le_request nunits
  have hgrow : Tiles (⟨a,request nunits⟩::(blocks++rest)) (⟨a,request nunits⟩::got) :=
    ht.grow (g := ⟨a,request nunits⟩) (hpos.trans_le hreq) habove
  have hlow' : ∀ g ∈ (⟨a,request nunits⟩::got : List Block), base < g.addr :=
    List.forall_mem_cons.mpr ⟨ha,hlow⟩
  have hold : ∀ b ∈ blocks, b.size < 2^32 := fun b hb => (hnone b hb).trans (by omega)
  -- The new units are above all free blocks: they may be joined with the last one only.
  have hsum : SumFits base blocks ⟨a,request nunits⟩ := by
    intro A x B heq _ hB
    have hempty : B = [] := by
      rw [List.eq_nil_iff_forall_not_mem]
      intro y hy
      have hlt : a < y.addr := hB y hy
      have hmem : y ∈ nodes base blocks := heq ▸ List.mem_append_right _ (List.mem_cons_of_mem _ hy)
      obtain rfl | hmem := List.mem_cons.mp hmem
      · exact absurd hlt ha.not_gt
      · have := ht.stop_le habove (List.mem_append_left _ hmem)
        have := addr_le_stop y
        omega
    have hx : x ∈ nodes base blocks := heq ▸ List.mem_append_right _ List.mem_cons_self
    have hxsize : x.size ≤ nunits := by
      obtain rfl | hx := List.mem_cons.mp hx
      · exact Nat.zero_le _
      · exact (hnone x hx).le
    rw [hempty]
    change x.size+request nunits < 2^32
    omega
  have hne : ∀ y ∈ blocks++rest, y.addr ≠ a := fun y hy => hgrow.addr_ne hy
  have hring : Ring base (h.setSize a (request nunits)) blocks :=
    Ring.setSize hr (List.forall_mem_cons.mpr ⟨ha.ne,fun y hy => hne y (List.mem_append_left _ hy)⟩)
  have hsize : (h.setSize a (request nunits)).size a = request nunits :=
    (Function.update_self ..).trans (Nat.mod_eq_of_lt (by omega))
  obtain ⟨h₁,blocks₁,hfree,hr₁,ht₁,hsame₁,hlen,hsmall₁,c,hc,hle⟩ :=
    free_spec (b := ⟨a,request nunits⟩) hring hsize hgrow hlow' hsum hold
      (by omega : blocks.length+1 ≤ fuel)
  have hmore : mallocMore sbrk nunits fuel h s = mallocLoop sbrk nunits fuel h₁ s' h₁.freep
    (h₁.ptr h₁.freep) := by
    have hcore : morecore sbrk fuel nunits h s = some (h₁.freep,h₁,s') := by
      change (sbrk (request nunits) s).bind _ = _
      rw [hs, Option.bind_some]
      change (free fuel (h.setSize a (request nunits)) (a+headerSize)).bind _ = _
      rw [hfree]
      rfl
    rw [mallocMore, hcore]
    exact if_neg (freep_pos hr₁ hbase)
  rw [hmore]
  obtain ⟨z,hz,hfit,heq⟩ | ⟨hless,-⟩ := search_spec sbrk nunits s' hr₁
    (by omega : blocks₁.length+1 ≤ fuel)
  · obtain ⟨-,r,h',blocks',hcarve,htaken⟩ := carve_spec hr₁ ht₁ hsmall₁ hz hpos hfit
    rw [heq, hcarve]
    refine ⟨r,h',blocks',rfl,{ htaken with same := fun y hy => ?_ }⟩
    rw [htaken.same y hy, hsame₁ y hy]
    exact Function.update_of_ne (hne y (List.mem_append_right _ hy)) ..
  · have := hless c hc
    change request nunits ≤ c.size at hle
    omega

theorem units_small (nbytes : BitVec 32) : units nbytes+request (units nbytes) < 2^32 := by
  have := nbytes.isLt
  unfold request units headerSize
  split <;> omega

variable (sbrk s) in
theorem malloc_spec (nbytes : BitVec 32) (hr : Ring base h blocks) (ht : Tiles (blocks++rest) got)
    (hlow : ∀ g ∈ got, base < g.addr) (hbase : 0 < base) (hsmall : ∀ b ∈ blocks, b.size < 2^32)
    (hfuel : 2*blocks.length+3 ≤ fuel) :
    ((∃ b ∈ blocks, units nbytes ≤ b.size) ∧ ∃ r h' blocks',
      mallocLoop sbrk (units nbytes) fuel h s h.freep (h.ptr h.freep) = some
        (r.addr+headerSize,h',s) ∧
      Taken base (units nbytes) h h' blocks' rest got r) ∨
    (∀ b ∈ blocks, b.size < units nbytes) ∧ ∀ r s', sbrk (request (units nbytes)) s = some (r,s') →
      match r with
      | none => mallocLoop sbrk (units nbytes) fuel h s h.freep (h.ptr h.freep) = some (0,h,s')
      | some a => base < a → (∀ g ∈ got, g.stop ≤ a) →
        ∃ r h' blocks', mallocLoop sbrk (units nbytes) fuel h s h.freep (h.ptr h.freep) =
            some (r.addr+headerSize,h',s') ∧
          Taken base (units nbytes) h h' blocks' rest (⟨a,request (units nbytes)⟩::got) r := by
  have hpos : 0 < units nbytes := Nat.succ_pos _
  obtain ⟨z,hz,hfit,heq⟩ | ⟨hnone,fuel',hfuel',heq⟩ := search_spec sbrk (units nbytes) s hr
    (by omega : blocks.length+1 ≤ fuel)
  · obtain ⟨hlarge,r,h',blocks',hcarve,htaken⟩ := carve_spec hr ht hsmall hz hpos hfit
    rw [heq, hcarve]
    exact .inl ⟨hlarge,r,h',blocks',rfl,htaken⟩
  · refine .inr ⟨hnone,fun r s' hs => ?_⟩
    cases r with
    | none =>
      have hcore : morecore sbrk fuel' (units nbytes) h s = some (0,h,s') := by
        change (sbrk (request (units nbytes)) s).bind _ = _
        rw [hs]
        rfl
      dsimp only
      rw [heq, mallocMore, hcore]
      rfl
    | some a =>
      intro ha habove
      rw [heq]
      exact mallocMore_spec hr ht hlow hbase hpos hs ha habove hnone (units_small nbytes) (by omega)

end Search

section Fuel
variable {σ : Type} {sbrk : ℕ → σ → Option (Option ℕ × σ)} {fuel fuel' : ℕ} {h : Heap}

variable {p : ℕ} {s : σ} {r : ℕ × Heap × σ}

theorem freeLoop_mono {bp r : ℕ} (hle : fuel ≤ fuel') (heq : freeLoop h bp fuel p = some r) :
    freeLoop h bp fuel' p = some r := by
  induction fuel generalizing fuel' p with
  | zero => cases heq
  | succ fuel ih =>
    obtain ⟨fuel',rfl⟩ := Nat.exists_eq_add_one_of_ne_zero (Nat.ne_zero_of_lt hle)
    rw [freeLoop] at heq ⊢
    by_cases h₁ : p < bp ∧ bp < h.ptr p
    · rwa [if_pos h₁] at heq ⊢
    rw [if_neg h₁] at heq ⊢
    by_cases h₂ : h.ptr p ≤ p ∧ (p < bp ∨ bp < h.ptr p)
    · rwa [if_pos h₂] at heq ⊢
    · rw [if_neg h₂] at heq ⊢
      exact ih (Nat.le_of_succ_le_succ hle) heq

theorem free_mono {ap : ℕ} {h' : Heap} (hle : fuel ≤ fuel') (heq : free fuel h ap = some h') :
    free fuel' h ap = some h' := by
  obtain ⟨p,hp,heq⟩ := Option.bind_eq_some_iff.mp heq
  exact Option.bind_eq_some_iff.mpr ⟨p,freeLoop_mono hle hp,heq⟩

theorem morecore_mono {nu : ℕ} (hle : fuel ≤ fuel')
    (heq : morecore sbrk fuel nu h s = some r) : morecore sbrk fuel' nu h s = some r := by
  obtain ⟨⟨p,s'⟩,hs,heq⟩ := Option.bind_eq_some_iff.mp heq
  refine Option.bind_eq_some_iff.mpr ⟨(p,s'),hs,?_⟩
  cases p with
  | none => exact heq
  | some hp =>
    obtain ⟨h',hfree,heq⟩ := Option.bind_eq_some_iff.mp heq
    exact Option.bind_eq_some_iff.mpr ⟨h',free_mono hle hfree,heq⟩

theorem mallocLoop_mono {nunits prevp : ℕ} (hle : fuel ≤ fuel')
    (heq : mallocLoop sbrk nunits fuel h s prevp p = some r) :
    mallocLoop sbrk nunits fuel' h s prevp p = some r := by
  induction fuel generalizing fuel' h s prevp p with
  | zero => cases heq
  | succ fuel ih =>
    obtain ⟨fuel',rfl⟩ := Nat.exists_eq_add_one_of_ne_zero (Nat.ne_zero_of_lt hle)
    have hle' := Nat.le_of_succ_le_succ hle
    rw [mallocLoop] at heq ⊢
    by_cases h₁ : nunits ≤ h.size p
    · rwa [if_pos h₁] at heq ⊢
    rw [if_neg h₁] at heq ⊢
    by_cases h₂ : p = h.freep
    · rw [if_pos h₂] at heq ⊢
      obtain ⟨⟨p',h',s'⟩,hcore,heq⟩ := Option.bind_eq_some_iff.mp heq
      refine Option.bind_eq_some_iff.mpr ⟨(p',h',s'),morecore_mono hle' hcore,?_⟩
      by_cases h₃ : p' = 0
      · exact (if_pos h₃).trans ((if_pos h₃).symm.trans heq)
      · exact (if_neg h₃).trans (ih hle' ((if_neg h₃).symm.trans heq))
    · rw [if_neg h₂] at heq ⊢
      exact ih hle' heq

end Fuel

/-- A heap, the pointers that `malloc` returned and `free` has not got, with the bytes asked
for, and the units that `sbrk` gave. -/
structure State where
  heap : Heap
  live : List (ℕ × BitVec 32)
  got : List Block

def liveBlock (h : Heap) (l : ℕ × BitVec 32) : Block := ⟨l.1-headerSize,h.size (l.1-headerSize)⟩

/-- The free list is a ring, free and live blocks together are what `sbrk` gave, and every live
block has room for the bytes asked for. -/
structure Sound (base : ℕ) (s : State) (blocks : List Block) : Prop where
  ring : Ring base s.heap blocks
  tiles : Tiles (blocks++s.live.map (liveBlock s.heap)) s.got
  room : ∀ l ∈ s.live, headerSize ≤ l.1 ∧ units l.2 ≤ (liveBlock s.heap l).size

def Fresh (s : State) : Prop := s.heap.freep = 0 ∧ s.live = [] ∧ s.got = []

structure Inv (base : ℕ) (s : State) : Prop where
  sound : Fresh s ∨ ∃ blocks, Sound base s blocks
  low : ∀ g ∈ s.got, base+headerSize ≤ g.addr
  small : total s.got < 2^32

section Steps
variable {base fuel : ℕ} {s s' : State}

variable {h h' : Heap} {live : List (ℕ × BitVec 32)} {nbytes : BitVec 32} {p : ℕ}

theorem liveBlock_congr (hsame : ∀ y ∈ live.map (liveBlock h), h'.size y.addr = h.size y.addr) :
    live.map (liveBlock h') = live.map (liveBlock h) := by
  refine List.map_congr_left fun l hl => ?_
  have := hsame _ (List.mem_map_of_mem hl)
  simp only [liveBlock] at this ⊢
  rw [this]

theorem prepare_sound {blocks : List Block} (hs : Fresh s ∧ blocks = [] ∨ Sound base s blocks)
    (hbase : 0 < base) :
    Sound base { s with heap := prepare base s.heap } blocks := by
  obtain ⟨⟨hfree,hlive,hgot⟩,rfl⟩ | hs := hs
  · refine ⟨⟨?_,?_,?_,⟨base,0⟩,List.mem_cons_self,?_⟩,?_,?_⟩
    · exact List.pairwise_singleton ..
    · refine ⟨?_,trivial⟩
      rw [prepare, if_pos hfree]
      exact Function.update_self ..
    · intro b hb
      rw [List.mem_singleton.mp hb, prepare, if_pos hfree]
      exact Function.update_self ..
    · rw [prepare, if_pos hfree]
    · rw [hlive, hgot]
      exact ⟨nofun,.nil,fun x => by simp,rfl⟩
    · rw [hlive]
      nofun
  · have hprep : prepare base s.heap = s.heap := if_neg (freep_pos hs.ring hbase)
    rwa [hprep]

theorem sound_taken {got blocks' : List Block} {r : Block}
    (hroom : ∀ l ∈ live, headerSize ≤ l.1 ∧ units l.2 ≤ (liveBlock h l).size)
    (ht : Taken base (units nbytes) h h' blocks' (live.map (liveBlock h)) got r) :
    Sound base ⟨h',(r.addr+headerSize,nbytes)::live,got⟩ blocks' := by
  have hlive := liveBlock_congr ht.same
  have hr : liveBlock h' (r.addr+headerSize,nbytes) = r := by
    rw [liveBlock]
    dsimp only
    rw [Nat.add_sub_cancel, ht.size, ← ht.units]
  refine ⟨ht.ring,?_,?_⟩
  · dsimp only
    rw [List.map_cons, hr, hlive]
    exact ht.tiles.perm List.perm_middle.symm
  · refine List.forall_mem_cons.mpr ⟨⟨Nat.le_add_left _ _,?_⟩,fun l hl => ⟨(hroom l hl).1,?_⟩⟩
    · rw [hr, ht.units]
    · have : liveBlock h' l = liveBlock h l := List.map_inj_left.mp hlive l hl
      rw [this]
      exact (hroom l hl).2

theorem malloc_step {σ : Type} (sbrk : ℕ → σ → Option (Option ℕ × σ)) (g : σ)
    (nbytes : BitVec 32) (hi : Inv base s) (hbase : 0 < base) : ∃ n, ∀ fuel ≥ n,
    (∃ r h', malloc sbrk base fuel nbytes s.heap g = some (r,h',g) ∧ r ≠ 0 ∧
      Inv base ⟨h',(r,nbytes)::s.live,s.got⟩) ∨
    ∀ ans g', sbrk (request (units nbytes)) g = some (ans,g') →
      match ans with
      | none => ∃ h', malloc sbrk base fuel nbytes s.heap g = some (0,h',g') ∧
        Inv base ⟨h',s.live,s.got⟩
      | some a => base+headerSize ≤ a → (∀ x ∈ s.got, x.stop ≤ a) →
        total s.got+request (units nbytes) < 2^32 →
        ∃ r h', malloc sbrk base fuel nbytes s.heap g = some (r,h',g') ∧ r ≠ 0 ∧
          Inv base ⟨h',(r,nbytes)::s.live,⟨a,request (units nbytes)⟩::s.got⟩ := by
  obtain ⟨blocks,hblocks⟩ : ∃ blocks, Fresh s ∧ blocks = [] ∨ Sound base s blocks := by
    obtain hfresh | ⟨blocks,hs⟩ := hi.sound
    · exact ⟨[],.inl ⟨hfresh,rfl⟩⟩
    · exact ⟨blocks,.inr hs⟩
  have hs := prepare_sound hblocks hbase
  have hlow : ∀ g ∈ s.got, base < g.addr := fun g hg =>
    (Nat.lt_add_of_pos_right (by decide)).trans_le (hi.low g hg)
  refine ⟨2*blocks.length+3,fun fuel hfuel => ?_⟩
  obtain ⟨-,r,h',blocks',heq,htaken⟩ | ⟨-,hmore⟩ := malloc_spec sbrk g nbytes
    hs.ring hs.tiles hlow hbase (hs.tiles.sizes_lt hi.small) hfuel
  · exact .inl ⟨_,h',heq,Nat.succ_ne_zero _,.inr ⟨blocks',sound_taken hs.room htaken⟩,hi.low,
      hi.small⟩
  · refine .inr fun ans g' hans => ?_
    cases ans with
    | none => exact ⟨_,hmore none g' hans,.inr ⟨blocks,hs⟩,hi.low,hi.small⟩
    | some a =>
      intro hbelow habove hsum
      obtain ⟨r,h',blocks',heq,htaken⟩ := hmore (some a) g' hans
        ((Nat.lt_add_of_pos_right (by decide)).trans_le hbelow) habove
      refine ⟨_,h',heq,Nat.succ_ne_zero _,.inr ⟨blocks',sound_taken hs.room htaken⟩,
        List.forall_mem_cons.mpr ⟨hbelow,hi.low⟩,?_⟩
      dsimp only
      rw [total_cons, Nat.add_comm]
      exact hsum

theorem live_sound {l : ℕ × BitVec 32} (hi : Inv base s) (hl : l ∈ s.live) : ∃ blocks,
    Sound base s blocks := by
  obtain ⟨-,hlive,-⟩ | hs := hi.sound
  · rw [hlive] at hl
    cases hl
  · exact hs

theorem free_step (hi : Inv base s) (ha : ∃ l ∈ s.live, l.1 = p) :
    ∃ n, ∀ fuel ≥ n, ∃ h', free fuel s.heap p = some h' ∧
      Inv base ⟨h',s.live.eraseP (fun l => l.1 = p),s.got⟩ := by
  obtain ⟨l,hl,hp⟩ := ha
  obtain ⟨blocks,hs⟩ := live_sound hi hl
  obtain ⟨⟨p',nbytes⟩,l₁,l₂,-,hfirst,hlive,herase⟩ :=
    List.exists_of_eraseP (p := fun l => l.1 = p) hl (decide_eq_true hp)
  obtain rfl : p = p' := (of_decide_eq_true hfirst).symm
  rw [herase]
  have hroom := hs.room
  rw [hlive] at hroom
  obtain ⟨hr₁,hr₂⟩ := List.forall_mem_append.mp hroom
  obtain ⟨⟨hp,-⟩,hr₂⟩ := List.forall_mem_cons.mp hr₂
  have htiles :
    Tiles (liveBlock s.heap (p,nbytes)::(blocks++(l₁++l₂).map (liveBlock s.heap))) s.got := by
    refine hs.tiles.perm ?_
    rw [hlive, List.map_append, List.map_cons, List.map_append, ← List.append_assoc,
      ← List.append_assoc]
    exact List.perm_middle
  have hlow : ∀ g ∈ s.got, base < g.addr := fun g hg =>
    (Nat.lt_add_of_pos_right (by decide)).trans_le (hi.low g hg)
  refine ⟨blocks.length+1,fun fuel hfuel => ?_⟩
  obtain ⟨h',blocks',hfree,hring,htiles',hsame,-⟩ := free_spec hs.ring rfl htiles hlow
    (sumFits_of_total htiles hi.small) (hs.tiles.sizes_lt hi.small) hfuel
  have haddr : (liveBlock s.heap (p,nbytes)).addr+headerSize = p := Nat.sub_add_cancel hp
  rw [haddr] at hfree
  have hmap := liveBlock_congr hsame
  refine ⟨h',hfree,.inr ⟨blocks',hring,?_,fun l hl => ?_⟩,hi.low,hi.small⟩
  · dsimp only
    rwa [hmap]
  · have hkeep := (List.mem_append.mp hl).elim (hr₁ l) (hr₂ l)
    have : liveBlock h' l = liveBlock s.heap l := List.map_inj_left.mp hmap l hl
    rwa [this]

theorem store_step {ptr size : ℕ → ℕ} (hi : Inv base s) (ha : (∃ l ∈ s.live, l.1 = p) ∧ ∀ x,
      x+headerSize ≤ p ∨ p-headerSize+headerSize*s.heap.size (p-headerSize) ≤ x →
        ptr x = s.heap.ptr x ∧ size x = s.heap.size x) :
    Inv base { s with heap := { s.heap with ptr, size } } := by
  obtain ⟨⟨⟨p,nbytes⟩,hl,rfl⟩,hkeep⟩ := ha
  obtain ⟨blocks,hs⟩ := live_sound hi hl
  obtain ⟨hp,-⟩ := hs.room _ hl
  dsimp only at hp hkeep
  obtain ⟨l₁,l₂,hlive⟩ := List.append_of_mem hl
  have htiles :
    Tiles (liveBlock s.heap (p,nbytes)::(blocks++(l₁++l₂).map (liveBlock s.heap))) s.got := by
    refine hs.tiles.perm ?_
    rw [hlive, List.map_append, List.map_cons, List.map_append, ← List.append_assoc,
      ← List.append_assoc]
    exact List.perm_middle
  have hpos := List.forall_mem_cons.mp htiles.pos
  have hheader : ∀ y ∈ blocks++(l₁++l₂).map (liveBlock s.heap), ptr y.addr = s.heap.ptr y.addr ∧
      size y.addr = s.heap.size y.addr := by
    intro y hy
    have hapart := (List.pairwise_cons.mp htiles.apart).1 y hy
    have := hpos.2 y hy
    refine hkeep y.addr ?_
    simp only [Apart, Block.stop, liveBlock, headerSize] at hapart hp ⊢
    omega
  have hself : size (p-headerSize) = s.heap.size (p-headerSize) :=
    (hkeep _ (.inl (Nat.sub_add_cancel hp).le)).2
  have hbase : ptr base = s.heap.ptr base ∧ size base = s.heap.size base := by
    refine hkeep base (.inl ?_)
    have : base+headerSize ≤ p-headerSize := htiles.addr_ge hi.low List.mem_cons_self
    omega
  have hnode : ∀ y ∈ nodes base blocks, ptr y.addr = s.heap.ptr y.addr ∧
    size y.addr = s.heap.size y.addr :=
    List.forall_mem_cons.mpr ⟨hbase,fun y hy => hheader y (List.mem_append_left _ hy)⟩
  have hmap : s.live.map (liveBlock { s.heap with ptr, size }) = s.live.map (liveBlock s.heap) := by
    refine liveBlock_congr fun y hy => ?_
    rw [hlive, List.map_append, List.map_cons] at hy
    obtain hy | hy := List.mem_append.mp hy
    · exact (hheader y
        (List.mem_append_right _ (by rw [List.map_append]; exact List.mem_append_left _ hy))).2
    · obtain rfl | hy := List.mem_cons.mp hy
      · exact hself
      · exact (hheader y
          (List.mem_append_right _ (by rw [List.map_append]; exact List.mem_append_right _ hy))).2
  refine ⟨.inr ⟨blocks,⟨hs.ring.order,?_,?_,hs.ring.rover⟩,?_,fun l hl => ?_⟩,hi.low,hi.small⟩
  · exact hs.ring.links.congr fun y hy => (hnode y hy).1
  · exact fun y hy => (hnode y hy).2.trans (hs.ring.sizes y hy)
  · dsimp only
    rw [hmap]
    exact hs.tiles
  · have : liveBlock { s.heap with ptr, size } l = liveBlock s.heap l :=
      List.map_inj_left.mp hmap l hl
    dsimp only
    rw [this]
    exact hs.room l hl

end Steps

def start (ptr size : ℕ → ℕ) : State := ⟨⟨ptr,size,0⟩,[],[]⟩

end GreenOS.HeapRuns
