import Mathlib.Tactic

/-!
# Blocks of a heap

Blocks of memory in units of a header, and lists of them that cover a region without
overlap.
-/

namespace GreenOS.HeapBlocks

def headerSize : ℕ := 16

structure Block where
  addr : ℕ
  size : ℕ
  deriving DecidableEq, Repr

def Block.stop (b : Block) : ℕ := b.addr+headerSize*b.size

def Block.Has (b : Block) (x : ℕ) : Prop := b.addr ≤ x ∧ x < b.stop

def Apart (a b : Block) : Prop := a.stop ≤ b.addr ∨ b.stop ≤ a.addr

theorem Apart.symm {a b : Block} (h : Apart a b) : Apart b a := Or.symm h

def total (bs : List Block) : ℕ := (bs.map Block.size).sum

/-- The blocks are nonempty, do not overlap and cover exactly what `got` covers. -/
structure Tiles (bs got : List Block) : Prop where
  pos : ∀ b ∈ bs, 0 < b.size
  apart : bs.Pairwise Apart
  cover : ∀ x, (∃ b ∈ bs, b.Has x) ↔ ∃ g ∈ got, g.Has x
  total : total bs = HeapBlocks.total got

section Tiles
variable {bs bs' got : List Block} {b g : Block} {a m k : ℕ}

theorem total_cons : total (b::bs) = b.size+total bs := by simp [total]

theorem total_perm (h : bs.Perm bs') : total bs = total bs' := (h.map Block.size).sum_eq

theorem Tiles.perm (h : Tiles bs got) (hp : bs.Perm bs') : Tiles bs' got where
  pos b hb := h.pos b (hp.mem_iff.mpr hb)
  apart := (hp.pairwise_iff Apart.symm).mp h.apart
  cover x := by
    rw [← h.cover x]
    simp only [hp.mem_iff]
  total := (total_perm hp).symm.trans h.total

theorem has_add (a m k x : ℕ) :
    Block.Has ⟨a,m+k⟩ x ↔ Block.Has ⟨a,m⟩ x ∨ Block.Has ⟨a+headerSize*m,k⟩ x := by
  simp only [Block.Has, Block.stop, headerSize]
  omega

theorem tiles_cut (hm : 0 < m) (hk : 0 < k) :
    Tiles (⟨a,m+k⟩::bs) got ↔ Tiles (⟨a,m⟩::⟨a+headerSize*m,k⟩::bs) got := by
  have hcover : ∀ x, (∃ b ∈ (⟨a,m+k⟩::bs : List Block), b.Has x) ↔
      ∃ b ∈ (⟨a,m⟩::⟨a+headerSize*m,k⟩::bs : List Block), b.Has x := by
    intro x
    simp only [List.exists_mem_cons_iff, has_add, or_assoc]
  have htotal : total (⟨a,m+k⟩::bs) = total (⟨a,m⟩::⟨a+headerSize*m,k⟩::bs) := by
    simp only [total_cons, Nat.add_assoc]
  constructor
  · intro h
    have hrest := List.forall_mem_cons.mp h.pos
    obtain ⟨hne,happ⟩ := List.pairwise_cons.mp h.apart
    refine ⟨?_,?_,fun x => (hcover x).symm.trans (h.cover x),htotal.symm.trans h.total⟩
    · exact List.forall_mem_cons.mpr ⟨hm,List.forall_mem_cons.mpr ⟨hk,hrest.2⟩⟩
    · refine List.pairwise_cons.mpr ⟨List.forall_mem_cons.mpr ⟨.inl le_rfl,fun c hc => ?_⟩,
        List.pairwise_cons.mpr ⟨fun c hc => ?_,happ⟩⟩ <;>
      · have := hne c hc
        simp only [Apart, Block.stop, headerSize] at this ⊢
        omega
  · intro h
    obtain ⟨-,hpos⟩ := List.forall_mem_cons.mp h.pos
    obtain ⟨-,hpos⟩ := List.forall_mem_cons.mp hpos
    obtain ⟨hne,happ⟩ := List.pairwise_cons.mp h.apart
    obtain ⟨hne',happ⟩ := List.pairwise_cons.mp happ
    refine ⟨?_,?_,fun x => (hcover x).trans (h.cover x),htotal.trans h.total⟩
    · exact List.forall_mem_cons.mpr ⟨Nat.add_pos_left hm k,hpos⟩
    · refine List.pairwise_cons.mpr ⟨fun c hc => ?_,happ⟩
      have h₁ := hne c (List.mem_cons_of_mem _ hc)
      have h₂ := hne' c hc
      have h₃ := hpos c hc
      simp only [Apart, Block.stop, headerSize] at h₁ h₂ ⊢
      omega

theorem Tiles.addr_ge (h : Tiles bs got) {low : ℕ} (hlow : ∀ c ∈ got, low ≤ c.addr) (hb : b ∈ bs) :
    low ≤ b.addr := by
  have hsize := h.pos b hb
  obtain ⟨c,hc,hhas⟩ :=
    (h.cover b.addr).mp ⟨b,hb,by simp only [Block.Has, Block.stop, headerSize]; omega⟩
  exact (hlow c hc).trans hhas.1

theorem Tiles.stop_le (h : Tiles bs got) {high : ℕ} (hhigh : ∀ c ∈ got, c.stop ≤ high)
    (hb : b ∈ bs) :
    b.stop ≤ high := by
  have hsize := h.pos b hb
  obtain ⟨c,hc,hhas⟩ :=
    (h.cover (b.stop-1)).mp ⟨b,hb,by simp only [Block.Has, Block.stop, headerSize]; omega⟩
  have := hhigh c hc
  simp only [Block.Has, Block.stop, headerSize] at hhas this ⊢
  omega

theorem Tiles.addr_ne (h : Tiles (b::bs) got) {c : Block} (hc : c ∈ bs) : c.addr ≠ b.addr := by
  obtain ⟨hb,hbs⟩ := List.forall_mem_cons.mp h.pos
  have hapart := (List.pairwise_cons.mp h.apart).1 c hc
  have := hbs c hc
  simp only [Apart, Block.stop, headerSize] at hapart
  omega

theorem total_mem (hb : b ∈ bs) : b.size ≤ total bs := List.le_sum_of_mem (List.mem_map_of_mem hb)

theorem Tiles.sizes_lt (h : Tiles (bs++bs') got) {n : ℕ} (hn : HeapBlocks.total got < n) : ∀ b ∈ bs,
    b.size < n := by
  intro b hb
  have := total_mem (List.mem_append_left bs' hb)
  rw [h.total] at this
  omega

theorem Tiles.grow (h : Tiles bs got) (hpos : 0 < g.size) (habove : ∀ c ∈ got, c.stop ≤ g.addr) :
    Tiles (g::bs) (g::got) where
  pos := List.forall_mem_cons.mpr ⟨hpos,h.pos⟩
  apart := by
    exact List.pairwise_cons.mpr ⟨fun b hb => .inr (h.stop_le habove hb),h.apart⟩
  cover x := by simp only [List.exists_mem_cons_iff, h.cover x]
  total := by rw [total_cons, total_cons, h.total]

end Tiles

end GreenOS.HeapBlocks
