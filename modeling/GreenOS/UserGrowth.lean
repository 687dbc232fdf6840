import GreenOS.PageFree
import GreenOS.PageFrames

/-!
# Growing, shrinking and copying user memory

What `uvmdealloc`, `uvmalloc`, `uvmfree` and `uvmcopy` do among the page tables
of the system, also when memory runs out on the way. A page table whose pages
are all present below an address cannot reach far: there are not enough pages.
-/

namespace GreenOS.UserGrowth
open RadixTree PageTable PageMap UserMemory PageOwners PageMoves PageFree PageFrames

variable {kend : Word} {all : Set Word} {s s' : Vm} {roots hand : List Word} {root a va : Word}

def up (n : ℕ) : ℕ := (n+4095)/4096*4096

theorem toNat_clear (x : Word) : (x&&&~~~(pgsize-1)).toNat = x.toNat/4096*4096 := by
  have hshift : x&&&~~~(pgsize-1) = (x>>>12)<<<12 := by
    apply BitVec.eq_of_getLsbD_eq
    intro j hj
    rw [BitVec.getLsbD_and, BitVec.getLsbD_not, BitVec.getLsbD_shiftLeft,
      BitVec.getLsbD_ushiftRight]
    have hmask : (pgsize-1).getLsbD j = decide (j < 12) := by
      have hones : pgsize-1 = BitVec.setWidth 64 (BitVec.allOnes 12) := by decide
      rw [hones, BitVec.getLsbD_setWidth, BitVec.getLsbD_allOnes]
      simp [hj]
    rw [hmask]
    by_cases h12 : j < 12
    · simp [h12]
    · rw [show 12+(j-12) = j by omega]
      simp [h12, hj]
  rw [hshift, BitVec.toNat_shiftLeft, BitVec.toNat_ushiftRight, Nat.shiftLeft_eq,
    Nat.shiftRight_eq_div_pow]
  have := x.isLt
  omega

theorem toNat_pgrounddown (x : Word) : (pgrounddown x).toNat = x.toNat/4096*4096 := toNat_clear x

theorem toNat_pgroundup (sz : Word) (h : sz.toNat < 2^64-4096) : (pgroundup sz).toNat =
    up sz.toNat := by
  rw [pgroundup, toNat_clear, up]
  have hsum : (sz+pgsize-1).toNat = sz.toNat+4095 := by
    rw [BitVec.toNat_sub, BitVec.toNat_add, toNat_pgsize]
    have hone : BitVec.toNat (1 : Word) = 1 := by decide
    rw [hone]
    omega
  rw [hsum]

def Within (roots : List Word) (root : Word) (bound : ℕ) (s s' : Vm) : Prop :=
  ∀ root' ∈ roots, ∀ va, IsVa va → translate s' root' va = translate s root' va ∨
    root' = root ∧ UserVa va ∧ va.toNat < bound

theorem Same.within (h : Same roots s s') (bound : ℕ) : Within roots root bound s s' :=
  fun root' hroot' va hva => .inl (h root' hroot' va hva)

variable {s₁ s₂ : Vm} {bound n lo hi : ℕ} {pte : Option Word} {oldsz newsz xperm mem : Word}

theorem Within.trans {s₃ : Vm} (h : Within roots root bound s₁ s₂)
    (h' : Within roots root bound s₂ s₃) : Within roots root bound s₁ s₃ := by
  intro root' hroot' va hva
  rcases h' root' hroot' va hva with h' | h'
  · rcases h root' hroot' va hva with h | h
    · exact .inl (h'.trans h)
    · exact .inr h
  · exact .inr h'

theorem Put.within (h : Put roots root va pte s s') (hva : UserVa va)
    (hlt : va.toNat < bound) : Within roots root bound s s' := by
  intro root' hroot' va' hva'
  by_cases hx : root' = root ∧ va' = va
  · obtain ⟨rfl,rfl⟩ := hx
    exact .inr ⟨rfl,hva,hlt⟩
  · left
    rw [h root' hroot' va' hva', if_neg hx]

def Ends (s : Vm) (root : Word) (bound : ℕ) : Prop :=
  ∀ va, UserVa va → bound ≤ va.toNat → translate s root va = none

def Dense (s : Vm) (root : Word) (bound : ℕ) : Prop :=
  ∀ va, IsVa va → va.toNat < bound → ∃ pte, translate s root va = some pte ∧ pte&&&pteU ≠ 0#64

theorem dense_bound (h : Kept kend all s roots hand) (hroot : root ∈ roots)
    (hdense : Dense s root (n*4096)) (hn : n*4096 ≤ 2^38-8192) : n ≤ 0x88000 := by
  have hpage : ∀ k : Fin n, ∃ pte, translate s root (BitVec.ofNat 64 (k*4096)) = some pte ∧
      Holds s roots (.leaf root (BitVec.ofNat 64 (k*4096))) (pte2pa pte) := by
    intro k
    have hk := k.isLt
    have hnat : (BitVec.ofNat 64 (k*4096)).toNat = k*4096 := by
      rw [BitVec.toNat_ofNat]
      omega
    have huser : UserVa (BitVec.ofNat 64 (k*4096)) := by
      rw [userVa_iff, hnat]
      omega
    obtain ⟨pte,hpte,-⟩ := hdense _ huser.1 (by rw [hnat]; omega)
    exact ⟨pte,hpte,hroot,huser,pte,hpte,rfl⟩
  choose f hf using hpage
  have hram : ∀ k, (pte2pa (f k)).toNat < 0x88000000 ∧ (pte2pa (f k)).toNat%4096 = 0 := by
    intro k
    obtain ⟨halign,-,hlt⟩ := h.ram (hf k).2
    exact ⟨BitVec.lt_def.mp hlt,aligned_iff.mp halign⟩
  let g : Fin n → Fin 0x88000 := fun k => ⟨(pte2pa (f k)).toNat/4096,by have := hram k; omega⟩
  have hinj : Function.Injective g := by
    intro k l hkl
    have hdiv : (pte2pa (f k)).toNat/4096 = (pte2pa (f l)).toNat/4096 := congrArg Fin.val hkl
    have heq : pte2pa (f k) = pte2pa (f l) := by
      apply BitVec.eq_of_toNat_eq
      have := hram k
      have := hram l
      omega
    have hplace := h.one _ _ _ (hf k).2 (heq ▸ (hf l).2)
    have hva := congrArg BitVec.toNat (Place.leaf.inj hplace).2
    simp only [BitVec.toNat_ofNat] at hva
    have := k.isLt
    have := l.isLt
    apply Fin.ext
    omega
  simpa using Fintype.card_le_of_injective g hinj

theorem toNat_dealloc_pages (hold : oldsz.toNat ≤ 2^38-8192)
    (hlt : up newsz.toNat < up oldsz.toNat) :
    ((((pgroundup oldsz-pgroundup newsz)/pgsize).setWidth 32).signExtend 64).toNat =
      (up oldsz.toNat-up newsz.toNat)/4096 := by
  have hnew : newsz.toNat < oldsz.toNat := by
    unfold up at hlt
    omega
  have hdiv : ((pgroundup oldsz-pgroundup newsz)/pgsize).toNat =
    (up oldsz.toNat-up newsz.toNat)/4096 := by
    rw [BitVec.toNat_udiv, toNat_pgsize, BitVec.toNat_sub, toNat_pgroundup newsz (by omega),
      toNat_pgroundup oldsz (by omega)]
    unfold up at hlt ⊢
    omega
  have hsmall : (up oldsz.toNat-up newsz.toNat)/4096 < 2^31 := by
    unfold up
    omega
  have hset : (((pgroundup oldsz-pgroundup newsz)/pgsize).setWidth 32).toNat =
      (up oldsz.toNat-up newsz.toNat)/4096 := by
    rw [BitVec.toNat_setWidth, hdiv]
    omega
  rw [BitVec.signExtend_eq_setWidth_of_msb_false, BitVec.toNat_setWidth, hset]
  · omega
  · rw [BitVec.msb_eq_decide, hset]
    simp only [decide_eq_false_iff_not]
    omega

theorem uvmdealloc_ok (newsz : Word) (h : Kept kend all s roots hand) (hroot : root ∈ roots)
    (hold : oldsz.toNat ≤ 2^38-8192) :
    ∃ s', uvmdealloc kend root oldsz newsz s = .ok (if oldsz ≤ newsz then oldsz else newsz,s') ∧
      Kept kend all s' roots hand ∧ Cut roots root (up newsz.toNat) (up oldsz.toNat) s s' ∧
      Dropped root (up newsz.toNat) (up oldsz.toNat) s s' := by
  have hnone : up oldsz.toNat ≤ up newsz.toNat → Cut roots root (up newsz.toNat)
    (up oldsz.toNat) s s ∧
      Dropped root (up newsz.toNat) (up oldsz.toNat) s s := by
    intro hle
    refine ⟨fun root' _ va' _ => ?_,Dropped.none hle⟩
    rw [if_neg (by omega)]
  unfold uvmdealloc
  by_cases hle : oldsz ≤ newsz
  · rw [if_pos hle, if_pos hle]
    rw [BitVec.le_def] at hle
    exact ⟨s,rfl,h,hnone (by unfold up; omega)⟩
  · rw [if_neg hle, if_neg hle]
    rw [BitVec.le_def, not_le] at hle
    have hupnew := toNat_pgroundup newsz (by omega)
    have hupold := toNat_pgroundup oldsz (by omega)
    by_cases hlt : pgroundup newsz < pgroundup oldsz
    · rw [if_pos hlt]
      rw [BitVec.lt_def, hupnew, hupold] at hlt
      have hpages := toNat_dealloc_pages hold hlt
      obtain ⟨s',hok,hkept,hcut⟩ := uvmunmap_user (pgroundup newsz)
        ((((pgroundup oldsz-pgroundup newsz)/pgsize).setWidth 32).signExtend 64) h hroot
        (by rw [hupnew, up]; omega) (by rw [hpages, hupnew]; unfold up at hlt ⊢; omega)
      refine ⟨s',by simp only [hok, bind, Except.bind],hkept,?_⟩
      rw [hpages, hupnew] at hcut
      rwa [show up newsz.toNat+(up oldsz.toNat-up newsz.toNat)/4096*4096 = up oldsz.toNat by
        unfold up at hlt ⊢; omega] at hcut
    · rw [if_neg hlt]
      rw [BitVec.lt_def, hupnew, hupold, not_lt] at hlt
      exact ⟨s,rfl,h,hnone hlt⟩

theorem isPerm_or {p q : Word} (hp : IsPerm p) (hq : IsPerm q) : IsPerm (p|||q) := by
  obtain ⟨x,rfl⟩ := hp
  obtain ⟨y,rfl⟩ := hq
  exact ⟨x|||y,BitVec.setWidth_or.symm⟩

theorem isPerm_write : IsPerm pteW := ⟨4,by decide⟩

theorem isPerm_flags (pte : Word) : IsPerm (pteFlags pte) := by
  refine ⟨pte.setWidth 10,?_⟩
  apply BitVec.eq_of_toNat_eq
  rw [pteFlags, BitVec.toNat_and, BitVec.toNat_setWidth, BitVec.toNat_setWidth,
    show BitVec.toNat (0x3ff : Word) = 2^10-1 by decide, Nat.and_two_pow_sub_one_eq_mod]
  omega

theorem made_user (perm : Word) : (pa2pte a|||(pteR|||pteU|||perm)|||pteV)&&&pteU ≠ 0#64 := by
  intro h
  have hbit := congrArg (fun w => w.getLsbD 4) h
  simp [pteU] at hbit

def Grow (roots : List Word) (root : Word) (lo hi : ℕ) (s s' : Vm) : Prop :=
  ∀ root' ∈ roots, ∀ va, IsVa va →
    if root' = root ∧ lo ≤ va.toNat ∧ va.toNat < hi then
      ∃ pte, translate s' root' va = some pte ∧ pte&&&pteU ≠ 0#64
    else translate s' root' va = translate s root' va

theorem Grow.within (h : Grow roots root lo hi s s') (hhi : up hi ≤ 2^38-8192) :
    Within roots root (up hi) s s' := by
  intro root' hroot' va hva
  have hgrow := h root' hroot' va hva
  split_ifs at hgrow with hx
  · rw [isVa_iff] at hva
    refine .inr ⟨hx.1,userVa_iff.mpr ⟨hva.1,?_⟩,?_⟩
    all_goals unfold up at *; omega
  · exact .inl hgrow

theorem grow_nil (h : hi ≤ lo) : Grow roots root lo hi s s := by
  intro root' _ va _
  rw [if_neg (by omega)]

theorem grow_cons {pte : Word} (hva : IsVa va) (hhi : va.toNat < hi)
    (hput : Put roots root va (some pte) s s₁) (huser : pte&&&pteU ≠ 0#64)
    (hgrow : Grow roots root (va.toNat+4096) hi s₁ s') : Grow roots root va.toNat hi s s' := by
  intro root' hroot' va' hva'
  have h := hgrow root' hroot' va' hva'
  have hput := hput root' hroot' va' hva'
  rw [isVa_iff] at hva hva'
  by_cases heq : root' = root ∧ va' = va
  · obtain ⟨rfl,rfl⟩ := heq
    rw [if_neg (by omega)] at h
    rw [if_pos ⟨rfl,le_rfl,hhi⟩]
    rw [if_pos ⟨rfl,rfl⟩] at hput
    exact ⟨pte,h.trans hput,huser⟩
  · rw [if_neg heq] at hput
    rw [hput] at h
    have hiff : (root' = root ∧ va.toNat+4096 ≤ va'.toNat ∧ va'.toNat < hi) ↔
        (root' = root ∧ va.toNat ≤ va'.toNat ∧ va'.toNat < hi) := by
      refine and_congr_right fun hr => ?_
      have hne : va'.toNat ≠ va.toNat := fun h => heq ⟨hr,BitVec.eq_of_toNat_eq h⟩
      omega
    simpa only [hiff] using h

theorem cut_put (hlo : lo ≤ va.toNat) (hhi : va.toNat < hi) (hput : Put roots root va pte s s₁)
    (hcut : Cut roots root lo hi s₁ s') : Cut roots root lo hi s s' := by
  intro root' hroot' va' hva'
  rw [hcut root' hroot' va' hva', hput root' hroot' va' hva']
  by_cases heq : root' = root ∧ va' = va
  · obtain ⟨rfl,rfl⟩ := heq
    rw [if_pos ⟨rfl,hlo,hhi⟩, if_pos ⟨rfl,hlo,hhi⟩]
  · rw [if_neg heq]

theorem cut_shorten (hva : IsVa va) (hnone : translate s root va = none)
    (hcut : Cut roots root lo (va.toNat+4096) s s') : Cut roots root lo va.toNat s s' := by
  intro root' hroot' va' hva'
  rw [hcut root' hroot' va' hva']
  rw [isVa_iff] at hva hva'
  by_cases heq : root' = root ∧ va' = va
  · obtain ⟨rfl,rfl⟩ := heq
    simp [hnone]
  · refine if_congr (and_congr_right fun hr => ?_) rfl rfl
    have hne : va'.toNat ≠ va.toNat := fun h => heq ⟨hr,BitVec.eq_of_toNat_eq h⟩
    omega

theorem Cut.of_same (hsame : Same roots s s₁) (hcut : Cut roots root lo hi s₁ s') :
    Cut roots root lo hi s s' := by
  intro root' hroot' va' hva'
  rw [hcut root' hroot' va' hva', hsame root' hroot' va' hva']

theorem Cut.back (hcut : Cut roots root lo hi s s') (hroot : root ∈ roots) (va pte : Word)
    (hva : UserVa va)
    (hpte : translate s' root va = some pte) : translate s root va = some pte := by
  rw [hcut root hroot va hva.1] at hpte
  split_ifs at hpte
  exact hpte

theorem ends_put (hroot : root ∈ roots) (hput : Put roots root va pte s s') (hlt : va.toNat < bound)
    (h : Ends s root va.toNat) : Ends s' root bound := by
  intro va' hva' hle
  have hne : va' ≠ va := by
    rintro rfl
    omega
  rw [hput root hroot va' hva'.1, if_neg (fun hx => hne hx.2)]
  exact h va' hva' (by omega)

theorem dense_put {pte : Word} (hroot : root ∈ roots) (hput : Put roots root va (some pte) s s')
    (huser : pte&&&pteU ≠ 0#64) (ha : va.toNat%4096 = 0) (h : Dense s root va.toNat) :
    Dense s' root (va.toNat+4096) := by
  intro va' hva' hlt
  rw [hput root hroot va' hva']
  by_cases heq : va' = va
  · rw [if_pos ⟨rfl,heq⟩]
    exact ⟨pte,rfl,huser⟩
  · rw [if_neg (fun hx => heq hx.2)]
    refine h va' hva' ?_
    have hne : va'.toNat ≠ va.toNat := fun h => heq (BitVec.eq_of_toNat_eq h)
    have := (isVa_iff.mp hva').1
    omega

theorem up_of_aligned (h : n%4096 = 0) : up n = n := by
  unfold up
  omega

theorem uvmallocLoop_next (hlt : a < newsz) (hk : kalloc s = (some mem,s₁))
    (hmap : mappages root a pgsize mem (pteR|||pteU|||xperm) (fill mem 0#64 s₁) = .ok (0,s₂)) :
    uvmallocLoop kend root oldsz newsz xperm (n+1) a s =
      uvmallocLoop kend root oldsz newsz xperm n (a+pgsize) s₂ := by
  rw [uvmallocLoop, if_pos hlt]
  simp [hk, hmap, bind, Except.bind]

def Zeroed (root perm : Word) (lo hi : ℕ) (s s' : Vm) : Prop :=
  ∀ va, IsVa va → lo ≤ va.toNat → va.toNat < hi → ∃ mem ∈ s.free,
    translate s' root va = some (pa2pte mem|||perm|||pteV) ∧ s'.mem mem = fun _ => 0#64

theorem zeroed_cons {perm : Word} (h : Kept kend all s₁ roots hand) (hroot : root ∈ roots)
    (hva : UserVa va) (hperm : IsPerm perm) (hmem : Freeable kend mem)
    (hput : Put roots root va (some (pa2pte mem|||perm|||pteV)) s s₁)
    (hgrown : Grown root va (fun _ => 0#64) mem s s₁) (htakes : Takes root s₁ s')
    (hgrow : Grow roots root (va.toNat+4096) hi s₁ s')
    (hrest : Zeroed root perm (va.toNat+4096) hi s₁ s') : Zeroed root perm va.toNat hi s s' := by
  intro va' hva' hlo hhi
  by_cases heq : va' = va
  · subst heq
    have hpte : translate s₁ root va' = some (pa2pte mem|||perm|||pteV) := by
      rw [hput root hroot va' hva', if_pos ⟨rfl,rfl⟩]
    have hafter := hgrow root hroot va' hva'
    rw [if_neg (by omega)] at hafter
    have hoff : Off s₁ root mem :=
      off_of_leaf h hroot ⟨hroot,hva,_,hpte,pte2pa_perm hperm hmem⟩
    exact ⟨mem,hgrown.took,hafter.trans hpte,(htakes mem hoff).2.trans hgrown.holds⟩
  · have hne : va'.toNat ≠ va.toNat := fun h => heq (BitVec.eq_of_toNat_eq h)
    have h₁ := (isVa_iff.mp hva').1
    have h₂ := (userVa_iff.mp hva).1
    obtain ⟨mem',hmem',hpte',hzero⟩ := hrest va' hva' (by omega) hhi
    exact ⟨mem',hgrown.sub mem' hmem',hpte',hzero⟩

def pagesFrom : ℕ → Word → List Word
  | 0, _ => []
  | n+1, a => a::pagesFrom n (a+pgsize)

def pagesTo (a : Word) (hi : ℕ) : List Word := pagesFrom ((up hi-a.toNat)/4096) a

theorem pagesTo_cons (ha : a.toNat%4096 = 0) (hbound : a.toNat < 2^64-4096) (hlt : a.toNat < hi) :
    pagesTo a hi = a::pagesTo (a+pgsize) hi := by
  have hcount : (up hi-a.toNat)/4096 = (up hi-(a+pgsize).toNat)/4096+1 := by
    rw [toNat_next hbound, up]
    omega
  rw [pagesTo, hcount]
  rfl

theorem pagesTo_nil (ha : a.toNat%4096 = 0) (hle : hi ≤ a.toNat) : pagesTo a hi = [] := by
  have hcount : (up hi-a.toNat)/4096 = 0 := by
    rw [up]
    omega
  rw [pagesTo, hcount]
  rfl

theorem needed_done (ha : a.toNat%4096 = 0) (hle : hi ≤ a.toNat) :
    needed s root (pagesTo a hi) ≤ s.free.length := by
  rw [pagesTo_nil ha hle, needed_nil]
  exact Nat.zero_le _

/-- The loop of `uvmalloc`: all pages up to the new size when there is memory for them, and else
none of those it has added. -/
theorem uvmallocLoop_exact (hx : IsPerm xperm) (n : ℕ) (h : Kept kend all s roots hand)
    (hroot : root ∈ roots) (hold : oldsz.toNat%4096 = 0) (ha : a.toNat%4096 = 0)
    (hle : oldsz.toNat ≤ a.toNat) (hbound : a.toNat ≤ 2^38-8192) (hends : Ends s root a.toNat)
    (hreach : newsz.toNat ≤ 2^38-8192 ∨ Dense s root a.toNat)
    (hfuel : newsz.toNat ≤ a.toNat+n*4096) :
    (s.free.length < needed s root (pagesTo a newsz.toNat) ∧
      ∃ s', uvmallocLoop kend root oldsz newsz xperm n a s = .ok (0,s') ∧
        Kept kend all s' roots hand ∧
        Cut roots root oldsz.toNat a.toNat s s' ∧ Leaves root s s' ∧ Detour root s s') ∨
    needed s root (pagesTo a newsz.toNat) ≤ s.free.length ∧
      ∃ s', uvmallocLoop kend root oldsz newsz xperm n a s = .ok (newsz,s') ∧
        Kept kend all s' roots hand ∧
        newsz.toNat ≤ 2^38-8192 ∧ Grow roots root a.toNat newsz.toNat s s' ∧ Leaves root s s' ∧
          Takes root s s' ∧
        Zeroed root (pteR|||pteU|||xperm) a.toNat newsz.toNat s s' := by
  induction n generalizing a s with
  | zero =>
    have hge : newsz.toNat ≤ a.toNat := by omega
    exact .inr ⟨needed_done ha hge,s,rfl,h,by omega,grow_nil hge,Leaves.refl root s,
      Takes.refl root s,
      fun va _ hlo hhi => by omega⟩
  | succ n ih =>
    by_cases hlt : a < newsz
    · have hlt' := BitVec.lt_def.mp hlt
      -- there is room for one more page below the trapframe
      have hroom : a.toNat+4096 ≤ 2^38-8192 := by
        rcases hreach with hnew | hdense
        · omega
        · have hpages := dense_bound h hroot (n := a.toNat/4096)
            (by rwa [show a.toNat/4096*4096 = a.toNat by omega]) (by omega)
          omega
      have huser : UserVa a := userVa_iff.mpr ⟨ha,by omega⟩
      have hnone : translate s root a = none := hends a huser le_rfl
      have hback : ∀ s₁, Kept kend all s₁ roots hand → Same roots s s₁ → Takes root s s₁ →
          ∃ s', uvmdealloc kend root a oldsz s₁ = .ok (if a ≤ oldsz then a else oldsz,s') ∧
            Kept kend all s' roots hand ∧ Cut roots root oldsz.toNat a.toNat s s' ∧
              Leaves root s s' ∧
            Detour root s s' := by
        intro s₁ hkept₁ hsame₁ htakes₁
        obtain ⟨s',hok,hkept,hcut,hdropped⟩ := uvmdealloc_ok oldsz hkept₁ hroot hbound
        have hleaves := (leaves_of_same htakes₁ hroot hsame₁).trans
          (hdropped.leaves (Cut.back hcut hroot))
        rw [up_of_aligned hold, up_of_aligned ha] at hcut
        exact ⟨s',hok,hkept,Cut.of_same hsame₁ hcut,hleaves,s₁,htakes₁,hdropped.gives⟩
      have hperm : IsPerm (pteR|||pteU|||xperm) := isPerm_or ⟨18,by decide⟩ hx
      rw [pagesTo_cons ha (by omega) hlt']
      rcases grow_exact hperm (fun _ _ => 0#64) h hroot huser hnone with
        ⟨hfew,hk | ⟨mem,s₁,s₂,s₃,hk,hmap,hfree,hkept₃,hsame₃,htakes₃⟩⟩ | ⟨mem,s₁,s₂,hk,hmap,
          hkept₂,hput,hgrown⟩
      · obtain ⟨s',hok,hrest⟩ := hback s h (Same.refl roots s) (Takes.refl root s)
        refine .inl ⟨hfew.trans_le (needed_head_le ..),s',?_,hrest⟩
        rw [uvmallocLoop, if_pos hlt]
        simp only [hk, hok, bind, Except.bind]
      · obtain ⟨s',hok,hrest⟩ := hback s₃ hkept₃ hsame₃ htakes₃
        refine .inl ⟨hfew.trans_le (needed_head_le ..),s',?_,hrest⟩
        change mappages root a pgsize mem _ (fill mem 0#64 s₁) = _ at hmap
        rw [uvmallocLoop, if_pos hlt]
        simp [hk, hmap, hfree, hok, bind, Except.bind]
      · have hmade := made_user (a := mem) xperm
        have hnext : (a+pgsize).toNat = a.toNat+4096 := toNat_next (by omega)
        have hends₂ : Ends s₂ root (a+pgsize).toNat := by
          rw [hnext]
          exact ends_put hroot hput (by omega) hends
        have hreach₂ : newsz.toNat ≤ 2^38-8192 ∨ Dense s₂ root (a+pgsize).toNat := by
          rw [hnext]
          exact hreach.imp_right (dense_put hroot hput hmade ha)
        have hleaves := hgrown.leaves h hroot hperm hput
        have hcount := hgrown.rest (pagesTo (a+pgsize) newsz.toNat)
        have hfirst := hgrown.room
        have hleft := hgrown.free
        rw [uvmallocLoop_next hlt hk hmap]
        rcases ih (a := a+pgsize) hkept₂ (by omega) (by omega) (by omega) hends₂ hreach₂
          (by omega) with
          ⟨hfew,s',hok,hkept,hcut,hleaves',s₃,htakes₃,hgives₃⟩ |
          ⟨henough,s',hok,hkept,hsz,hgrow,hleaves',htakes,hzero⟩
        · rw [hnext] at hcut
          have hcut := cut_put hle (by omega) hput hcut
          exact .inl ⟨by omega,s',hok,hkept,cut_shorten huser.1 hnone hcut,
            hleaves.trans hleaves',s₃,hgrown.takes.trans htakes₃,hgives₃⟩
        · rw [hnext] at hgrow hzero
          have hmem : Freeable kend mem := h.pool (List.mem_append_left _ hgrown.took)
          exact .inr ⟨by omega,s',hok,hkept,hsz,grow_cons huser.1 hlt' hput hmade hgrow,
            hleaves.trans hleaves',hgrown.takes.trans htakes,
            zeroed_cons hkept₂ hroot huser hperm hmem hput hgrown htakes hgrow hzero⟩
    · rw [uvmallocLoop, if_neg hlt]
      rw [BitVec.lt_def, not_lt] at hlt
      exact .inr ⟨needed_done ha hlt,s,rfl,h,by omega,grow_nil hlt,Leaves.refl root s,
        Takes.refl root s,
        fun va _ hlo hhi => by omega⟩

theorem uvmalloc_exact (newsz : Word) (hx : IsPerm xperm) (h : Kept kend all s roots hand)
    (hroot : root ∈ roots) (hold : oldsz.toNat ≤ 2^38-8192) (hends : Ends s root (up oldsz.toNat))
    (hreach : newsz.toNat ≤ 2^38-8192 ∨ Dense s root (up oldsz.toNat)) :
    (newsz.toNat < oldsz.toNat ∧ uvmalloc kend root oldsz newsz xperm s = .ok (oldsz,s)) ∨
    (s.free.length < needed s root (pagesTo (pgroundup oldsz) newsz.toNat) ∧
      ∃ s', uvmalloc kend root oldsz newsz xperm s = .ok (0,s') ∧ Kept kend all s' roots hand ∧
        Same roots s s' ∧ Leaves root s s' ∧ Detour root s s') ∨
    needed s root (pagesTo (pgroundup oldsz) newsz.toNat) ≤ s.free.length ∧
      ∃ s', uvmalloc kend root oldsz newsz xperm s = .ok (newsz,s') ∧ Kept kend all s' roots hand ∧
        oldsz.toNat ≤ newsz.toNat ∧ newsz.toNat ≤ 2^38-8192 ∧
        Grow roots root (up oldsz.toNat) newsz.toNat s s' ∧ Leaves root s s' ∧ Takes root s s' ∧
        Zeroed root (pteR|||pteU|||xperm) (up oldsz.toNat) newsz.toNat s s' := by
  unfold uvmalloc
  by_cases hlt : newsz < oldsz
  · rw [if_pos hlt]
    exact .inl ⟨BitVec.lt_def.mp hlt,rfl⟩
  · rw [if_neg hlt]
    rw [BitVec.lt_def, not_lt] at hlt
    have hup := toNat_pgroundup oldsz (by omega)
    have halign : (pgroundup oldsz).toNat%4096 = 0 := by
      rw [hup, up]
      omega
    have hfuel : newsz.toNat ≤ (pgroundup oldsz).toNat+((newsz/pgsize).toNat+1)*4096 := by
      rw [BitVec.toNat_udiv, toNat_pgsize]
      omega
    rw [← hup] at hends hreach ⊢
    have hbound : (pgroundup oldsz).toNat ≤ 2^38-8192 := by
      rw [hup, up]
      omega
    rcases uvmallocLoop_exact hx _ h hroot halign halign le_rfl hbound hends hreach hfuel with
      ⟨hfew,s',hok,hkept,hcut,hdetour⟩ | ⟨henough,s',hok,hkept,hsz,hgrow⟩
    · refine .inr (.inl ⟨hfew,s',hok,hkept,?_,hdetour⟩)
      intro root' hroot' va' hva'
      rw [hcut root' hroot' va' hva', if_neg (by omega)]
    · exact .inr (.inr ⟨henough,s',hok,hkept,hlt,hsz,hgrow⟩)

theorem uvmalloc_ok (newsz : Word) (hx : IsPerm xperm) (h : Kept kend all s roots hand)
    (hroot : root ∈ roots) (hold : oldsz.toNat ≤ 2^38-8192) (hends : Ends s root (up oldsz.toNat))
    (hreach : newsz.toNat ≤ 2^38-8192 ∨ Dense s root (up oldsz.toNat)) :
    (newsz.toNat < oldsz.toNat ∧ uvmalloc kend root oldsz newsz xperm s = .ok (oldsz,s)) ∨
    (∃ s', uvmalloc kend root oldsz newsz xperm s = .ok (0,s') ∧ Kept kend all s' roots hand ∧
      Same roots s s' ∧ Leaves root s s') ∨
    ∃ s', uvmalloc kend root oldsz newsz xperm s = .ok (newsz,s') ∧ Kept kend all s' roots hand ∧
      oldsz.toNat ≤ newsz.toNat ∧ newsz.toNat ≤ 2^38-8192 ∧
        Grow roots root (up oldsz.toNat) newsz.toNat s s' ∧
      Leaves root s s' := by
  rcases uvmalloc_exact newsz hx h hroot hold hends hreach with
    hless | ⟨-,s',hok,hkept,hsame,hleaves,-⟩ | ⟨-,s',hok,hkept,hle,hsz,hgrow,hleaves,-⟩
  · exact .inl hless
  · exact .inr (.inl ⟨s',hok,hkept,hsame,hleaves⟩)
  · exact .inr (.inr ⟨s',hok,hkept,hle,hsz,hgrow,hleaves⟩)

theorem freewalk_sheds (h : Kept kend all s (root::roots) hand) (hempty : ∀ va, IsVa va →
    translate s root va = none)
    (hok : freewalk kend 2 root s = .ok s') : Sheds root s s' := by
  obtain ⟨s₀,l,hok₀,hfreed⟩ := freewalk_ok 2 s root (Kept.tree h List.mem_cons_self hempty)
  obtain rfl := Except.ok.inj (hok₀.symm.trans hok)
  intro a ha
  have hnot : ¬ ∃ p : List Index, p.length ≤ 2 ∧ tableAt child s.mem root p = some a :=
    fun ⟨p,hp,ht⟩ => ha.off.plain p hp ht
  refine ⟨?_,hfreed.same a hnot⟩
  rw [hfreed.free, List.mem_append, not_or]
  exact ⟨fun hl => hnot ((hfreed.mem a).mp hl),ha.off.used⟩

theorem uvmfree_ok (sz : Word) (h : Kept kend all s (root::roots) hand) (hnot : root ∉ roots)
    (hsz : sz.toNat ≤ 2^38-8192)
    (hends : ∀ va, IsVa va → up sz.toNat ≤ va.toNat → translate s root va = none) :
    ∃ s', uvmfree kend root sz s = .ok s' ∧ Kept kend all s' roots hand ∧ Sheds root s s' := by
  have hroot : root ∈ root::roots := List.mem_cons_self
  have hunmap : ∃ s₁,
    (if 0#64 < sz then uvmunmap kend root 0#64 (pgroundup sz/pgsize) true s else .ok s) =
      .ok s₁ ∧ Kept kend all s₁ (root::roots) hand ∧ Cut (root::roots) root 0 (up sz.toNat) s s₁ ∧
      Dropped root 0 (up sz.toNat) s s₁ := by
    by_cases hpos : 0#64 < sz
    · rw [if_pos hpos]
      have hpages : (pgroundup sz/pgsize).toNat*4096 = up sz.toNat := by
        rw [BitVec.toNat_udiv, toNat_pgsize, toNat_pgroundup sz (by omega), up]
        omega
      obtain ⟨s₁,hok,hkept,hcut⟩ := uvmunmap_user 0#64 (pgroundup sz/pgsize) h hroot rfl (by
        rw [hpages, show BitVec.toNat 0#64 = 0 from rfl, up]
        omega)
      rw [hpages, show BitVec.toNat 0#64 = 0 from rfl, Nat.zero_add] at hcut
      exact ⟨s₁,hok,hkept,hcut⟩
    · rw [if_neg hpos]
      rw [BitVec.lt_def] at hpos
      have hzero : up sz.toNat = 0 := by
        simp only [BitVec.toNat_ofNat] at hpos
        rw [up]
        omega
      refine ⟨s,rfl,h,fun root' _ va' _ => ?_,Dropped.none hzero.le⟩
      rw [if_neg (by omega)]
  obtain ⟨s₁,hok₁,hkept₁,hcut₁,hdropped⟩ := hunmap
  have hempty : ∀ va, IsVa va → translate s₁ root va = none := by
    intro va hva
    rw [hcut₁ root hroot va hva]
    split_ifs with hx
    · rfl
    · exact hends va hva (not_lt.mp fun hlt => hx ⟨rfl,Nat.zero_le _,hlt⟩)
  obtain ⟨s',hok,hkept,-⟩ := Kept.freewalk hkept₁ hnot hempty
  refine ⟨s',?_,hkept,Leaves.sheds (hdropped.leaves (Cut.back hcut₁ hroot))
    (freewalk_sheds hkept₁ hempty hok)⟩
  unfold uvmfree
  by_cases hpos : 0#64 < sz
  · rw [if_pos hpos] at hok₁ ⊢
    simp only [hok₁, bind, Except.bind]
    exact hok
  · rw [if_neg hpos] at hok₁ ⊢
    cases hok₁
    simp only [bind, Except.bind]
    exact hok

end GreenOS.UserGrowth
