import GreenOS.LogRun

/-!
# Crash atomicity of the log

The machine may stop between any two disk writes of `commit`, and again between
any two writes of each recovery.
-/

namespace GreenOS.LogCrash
open ByteBlock LogCode Writes BufferSeq
open LogRun

theorem getLE_putBlocks_out (hb : Block) (i : ℕ) (bs : List ℕ) (o : ℕ)
    (ho : o+4 ≤ 4+4*i ∨ 4+4*(i+bs.length) ≤ o) :
    getLE (putBlocks hb i bs) o 4 = getLE hb o 4 := by
  induction bs generalizing hb i with
  | nil => rfl
  | cons b bs ih =>
    simp only [putBlocks, List.length_cons] at ho ⊢
    rw [ih _ (i+1) (by omega), getLE_putLE_other _ _ (by omega)]

theorem getLE_putBlocks (hb : Block) (i : ℕ) (bs : List ℕ) (j : ℕ) (hj : j < bs.length)
    (hlen : i+bs.length ≤ logblocks) :
    getLE (putBlocks hb i bs) (4+4*(i+j)) 4 = (bs.get ⟨j,hj⟩) % 2^32 := by
  induction bs generalizing hb i j with
  | nil => simp at hj
  | cons b bs ih =>
    have hblk : logblocks = 30 := rfl
    simp only [List.length_cons] at hlen hj
    cases j with
    | zero =>
      simp only [putBlocks, add_zero]
      rw [getLE_putBlocks_out _ _ _ _ (by omega), getLE_putLE_same _ _ (by simp [bsize]; omega)]
      rfl
    | succ j =>
      have := ih (putLE hb (4+4*i) 4 b) (i+1) j (by omega) (by omega)
      simp only [putBlocks]
      rw [show i+(j+1) = i+1+j by omega]
      exact this

theorem headerN_putHeader (hb : Block) (lh : List ℕ) (hlen : lh.length ≤ logblocks) :
    headerN (putHeader hb lh) = lh.length := by
  have hblk : logblocks = 30 := rfl
  have hraw : getLE (putHeader hb lh) 0 4 = lh.length := by
    rw [putHeader, getLE_putBlocks_out _ _ _ _ (by omega), getLE_putLE_same _ _ (by simp [bsize])]
    omega
  have hint : (BitVec.ofNat 32 lh.length).toInt = lh.length := by
    rw [BitVec.toInt_eq_toNat_of_lt] <;> simp <;> omega
  rw [headerN, hraw, hint]
  simp

theorem headerBlocks_putHeader (hb : Block) (lh : List ℕ) (hlen : lh.length ≤ logblocks)
    (hint : ∀ b ∈ lh, b < 2^31) : headerBlocks (putHeader hb lh) = lh := by
  apply List.ext_getElem
  · simp [headerBlocks, headerN_putHeader hb lh hlen]
  · intro j h₁ h₂
    have hj := getLE_putBlocks (putLE hb 0 4 lh.length) 0 lh j h₂ (by simpa using hlen)
    have hb := hint _ (List.getElem_mem h₂)
    simp only [headerBlocks, List.getElem_map, List.getElem_range, putHeader]
    rw [zero_add] at hj
    rw [hj]
    exact Nat.mod_eq_of_lt (lt_trans hb (by norm_num))

theorem headerN_zero {hb : Block} (h : getLE hb 0 4 = 0) : headerBlocks hb = [] := by
  simp [headerBlocks, headerN, h]

structure Idle (start : ℕ) (g : ℕ → Block) (d : Disk) : Prop where
  header : getLE (d start) 0 4 = 0
  home : ∀ b, ¬ InLog start b → d b = g b

/-- The header names `lh` and the log holds `c` for it; of the home blocks those
in `lh` may or may not be installed. -/
structure Committed (start : ℕ) (g c : ℕ → Block) (lh : List ℕ) (d : Disk) : Prop where
  header : headerBlocks (d start) = lh
  log : ∀ i (h : i < lh.length), d (start+i+1) = c (lh.get ⟨i,h⟩)
  home : ∀ b, ¬ InLog start b → b ∉ lh → d b = g b

def after (g c : ℕ → Block) (lh : List ℕ) (b : ℕ) : Block := if b ∈ lh then c b else g b

theorem start_inLog (start : ℕ) : InLog start start := ⟨le_refl _,Nat.le_add_right _ _⟩

section
variable {start : ℕ} {g c : ℕ → Block} {lh : List ℕ} {d : Disk}

theorem idle_header (h : ∀ b, ¬ InLog start b → d b = g b) (e : ℕ → Block) :
    Idle start g (apply d [header start e []]) where
  header := by
    simp only [header, apply_cons, apply_nil, Function.update_self, putHeader, putBlocks]
    rw [getLE_putLE_same _ _ (by simp [bsize])]
    rfl
  home := by
    intro b hb
    have hne : b ≠ start := fun he => hb (he ▸ start_inLog start)
    simpa [header, apply, hne] using h b hb

theorem idle_recovery (h : Idle start g d) (j : ℕ) :
    Idle start g (apply d ((recoverPlan start d).take j)) := by
  have hplan : recoverPlan start d = [header start d []] := by
    simp [recoverPlan, headerN_zero h.header, homeWrites]
  rw [hplan]
  cases j with
  | zero => simpa using h
  | succ j => simpa using idle_header h.home d

theorem homeWrites_eq (e : ℕ → Block) (tail : ℕ) (bs : List ℕ)
    (h : ∀ i (hi : i < bs.length), e (start+(tail+i)+1) = c (bs.get ⟨i,hi⟩)) :
    homeWrites start e tail bs = bs.map (fun b => (b,c b)) := by
  induction bs generalizing tail with
  | nil => rfl
  | cons b bs ih =>
    have h₀ := h 0 (by simp)
    simp only [homeWrites, List.map_cons, List.cons.injEq, Prod.mk.injEq, true_and]
    refine ⟨by simpa using h₀,ih (tail+1) ?_⟩
    intro i hi
    have := h (i+1) (by simpa using hi)
    rw [show tail+1+i = tail+(i+1) by omega]
    simpa using this

theorem committed_install (h : Committed start g c lh d) (hout : ∀ b ∈ lh, ¬ InLog start b)
    (hlen : lh.length ≤ logblocks) (ws : List (ℕ × Block))
    (hws : ∀ w ∈ ws, w.1 ∈ lh) : Committed start g c lh (apply d ws) := by
  have hlog : ∀ b, InLog start b → apply d ws b = d b := by
    intro b hb
    refine apply_other d ws b (fun w hw he => ?_)
    exact hout w.1 (hws w hw) (he ▸ hb)
  constructor
  · rw [hlog start (start_inLog start)]
    exact h.header
  · intro i hi
    rw [hlog _ ⟨by omega,by omega⟩]
    exact h.log i hi
  · intro b hb hbl
    rw [apply_other d ws b (fun w hw he => hbl (he ▸ hws w hw))]
    exact h.home b hb hbl

theorem committed_done (h : Committed start g c lh d) (e : ℕ → Block) :
    Idle start (after g c lh) (apply d (lh.map (fun b => (b,c b)) ++ [header start e []])) := by
  rw [apply_append]
  refine idle_header (fun b hb => ?_) e
  rw [apply_target d c _ (by simp)]
  by_cases hbl : b ∈ lh
  · simp [after, hbl]
  · simpa [after, hbl] using h.home b hb hbl

theorem committed_plan (h : Committed start g c lh d) : recoverPlan start d =
    lh.map (fun b => (b,c b)) ++ [header start (apply d (lh.map (fun b => (b,c b)))) []] := by
  have hhome : homeWrites start d 0 lh = lh.map (fun b => (b,c b)) :=
    homeWrites_eq d 0 lh (fun i hi => by simpa using h.log i hi)
  simp [recoverPlan, h.header, hhome]

theorem committed_recovery (h : Committed start g c lh d) (hout : ∀ b ∈ lh, ¬ InLog start b)
    (hlen : lh.length ≤ logblocks) (j : ℕ) :
    Committed start g c lh (apply d ((recoverPlan start d).take j)) ∨
      Idle start (after g c lh) (apply d ((recoverPlan start d).take j)) := by
  rw [committed_plan h]
  by_cases hj : j ≤ lh.length
  · left
    rw [List.take_append_of_le_length (by simpa using hj)]
    refine committed_install h hout hlen _ (fun w hw => ?_)
    obtain ⟨b,hb,rfl⟩ := List.mem_map.mp (List.mem_of_mem_take hw)
    exact hb
  · right
    rw [List.take_of_length_le (by simp; omega)]
    exact committed_done h _

theorem committed_complete (h : Committed start g c lh d) :
    Idle start (after g c lh) (apply d (recoverPlan start d)) := by
  rw [committed_plan h]
  exact committed_done h _

end

end GreenOS.LogCrash
