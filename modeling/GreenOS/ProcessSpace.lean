import GreenOS.UserCopies
import GreenOS.AddressSpaces

/-!
# The page table of one process

The pages a process maps lie below its size; above them are the trapframe and
the trampoline. The functions that make, grow and free such a page table keep
it so, and leave the other page tables alone.
-/

namespace GreenOS.ProcessSpace
open PageTable PageMap UserMemory PageOwners PageMoves PageFrames UserGrowth UserCopies

variable {kend text frame : Word} {all : Set Word} {s s' : Vm} {roots hand : List Word}
    {root sz : Word}

structure Space (text frame : Word) (s : Vm) (root sz : Word) : Prop where
  size : sz.toNat ≤ 2^38-8192
  tramp : translate s root trampoline = some (pa2pte text|||(pteR|||pteX)|||pteV)
  frame : translate s root trapframe = some (pa2pte frame|||(pteR|||pteW)|||pteV)
  ends : Ends s root (up sz.toNat)

theorem isVa_trampoline : IsVa trampoline := isVa_iff.mpr (by decide)

theorem isVa_trapframe : IsVa trapframe := isVa_iff.mpr (by decide)

theorem not_user_trampoline : ¬ UserVa trampoline := fun h => by
  rw [userVa_iff] at h
  exact absurd h (by decide)

theorem not_user_trapframe : ¬ UserVa trapframe := fun h => by
  rw [userVa_iff] at h
  exact absurd h (by decide)

theorem isVa_cases {va : Word} (hva : IsVa va) : UserVa va ∨ va = trapframe ∨ va = trampoline := by
  rw [userVa_iff, ← BitVec.toNat_inj, ← BitVec.toNat_inj, toNat_trapframe, toNat_trampoline]
  rw [isVa_iff] at hva
  omega

theorem up_le {n : ℕ} (h : n ≤ 2^38-8192) : up n ≤ 2^38-8192 := by
  unfold up
  omega

theorem le_up (n : ℕ) : n ≤ up n := by
  unfold up
  omega

theorem made_private (a : Word) {perm : Word} (h : perm.getLsbD 4 = false) :
    (pa2pte a|||perm|||pteV)&&&pteU = 0#64 := by
  have hU : pteU = BitVec.twoPow 64 4 := by decide
  apply BitVec.eq_of_getLsbD_eq
  intro j hj
  rw [hU, BitVec.getLsbD_and, BitVec.getLsbD_twoPow, BitVec.getLsbD_zero]
  by_cases h4 : j = 4
  · subst h4
    have hpa : (pa2pte a).getLsbD 4 = false := by simp [pa2pte]
    have hV : pteV.getLsbD 4 = false := by decide
    rw [BitVec.getLsbD_or, BitVec.getLsbD_or, hpa, h, hV]
    rfl
  · simp [Ne.symm h4]

theorem Space.shielded (h : Space text frame s root sz) : Shielded s root := by
  intro va pte hva hother hpte
  rcases isVa_cases hva with huser | rfl | rfl
  · exact absurd huser hother
  · rw [h.frame] at hpte
    cases hpte
    exact made_private _ (by decide)
  · rw [h.tramp] at hpte
    cases hpte
    exact made_private _ (by decide)

theorem Space.within {root' sz' : Word} {bound : ℕ} (h : Space text frame s root sz)
    (hroot : root ∈ roots)
    (hsz : sz'.toNat ≤ 2^38-8192) (hle : up sz.toNat ≤ up sz'.toNat)
    (hw : Within roots root' bound s s')
    (hbound : root = root' → bound ≤ up sz'.toNat) : Space text frame s' root sz' := by
  have hother : ∀ va, IsVa va → ¬ UserVa va → translate s' root va = translate s root va := by
    intro va hva hnot
    rcases hw root hroot va hva with heq | ⟨-,huser,-⟩
    · exact heq
    · exact absurd huser hnot
  constructor
  · exact hsz
  · rw [hother _ isVa_trampoline not_user_trampoline, h.tramp]
  · rw [hother _ isVa_trapframe not_user_trapframe, h.frame]
  · intro va hva hge
    rcases hw root hroot va hva.1 with heq | ⟨hr,-,hlt⟩
    · rw [heq]
      exact h.ends va hva (hle.trans hge)
    · have := hbound hr
      omega

theorem Space.same (h : Space text frame s root sz) (hroot : root ∈ roots)
    (hsame : Same roots s s') :
    Space text frame s' root sz :=
  have hwithin : Within roots root 0 s s' := Same.within hsame 0
  h.within hroot h.size le_rfl hwithin (fun _ => Nat.zero_le _)

theorem Space.enlarge {sz' : Word} (h : Space text frame s root sz) (hsz : sz'.toNat ≤ 2^38-8192)
    (hle : up sz.toNat ≤ up sz'.toNat) : Space text frame s root sz' :=
  ⟨hsz,h.tramp,h.frame,fun va hva hge => h.ends va hva (hle.trans hge)⟩

theorem procPagetable_ok (text frame : Word) (h : Kept kend all s roots hand) :
    (∃ s', procPagetable kend text frame s = .ok (none,s') ∧ Kept kend all s' roots hand ∧
      Spares s s') ∨
    ∃ root s', procPagetable kend text frame s = .ok (some root,s') ∧
      Kept kend all s' (root::roots) hand ∧
      root ∉ roots ∧ Starts root s s' ∧ Space text frame s' root 0#64 := by
  unfold procPagetable
  rcases uvmcreate_cases h with hcreate | ⟨root,s₁,hcreate,hkept₁,hnot,hempty₁,hstarts₁⟩
  · exact .inl ⟨s,by rw [hcreate],h,Spares.refl s⟩
  · have hroot : root ∈ root::roots := List.mem_cons_self
    have hzero : up (BitVec.toNat 0#64) = 0 := by decide
    rcases mappages_other text (pteR|||pteX) hkept₁ hroot isVa_trampoline not_user_trampoline
      (hempty₁ _) with
      ⟨s₂,hmap₂,hkept₂,hsame₂,hleaves₂⟩ | ⟨s₂,hmap₂,hkept₂,hput₂,hleaves₂⟩
    · obtain ⟨s₃,hfree₃,hkept₃,hsheds₃⟩ := uvmfree_ok 0#64 hkept₂ hnot (by simp) (by
        intro va hva _
        rw [hsame₂ root hroot va hva, hempty₁])
      refine .inl ⟨s₃,?_,hkept₃,(hstarts₁.leaves hleaves₂).sheds hsheds₃⟩
      simp [hcreate, hmap₂, hfree₃, bind, Except.bind]
    · have hstarts₂ := hstarts₁.leaves hleaves₂
      have hnone₂ : translate s₂ root trapframe = none := by
        rw [hput₂ root hroot _ isVa_trapframe, if_neg (fun hx => absurd hx.2 (by decide)), hempty₁]
      rcases mappages_other frame (pteR|||pteW) hkept₂ hroot isVa_trapframe
        not_user_trapframe hnone₂ with
        ⟨s₃,hmap₃,hkept₃,hsame₃,hleaves₃⟩ | ⟨s₃,hmap₃,hkept₃,hput₃,hleaves₃⟩
      · obtain ⟨s₄,hunmap₄,hkept₄,hput₄,hleaves₄⟩ :=
          uvmunmap_other hkept₃ hroot isVa_trampoline not_user_trampoline
        obtain ⟨s₅,hfree₅,hkept₅,hsheds₅⟩ := uvmfree_ok 0#64 hkept₄ hnot (by simp) (by
          intro va hva _
          rw [hput₄ root hroot va hva]
          split_ifs with hx
          · rfl
          · rw [hsame₃ root hroot va hva, hput₂ root hroot va hva, if_neg hx, hempty₁])
        refine .inl ⟨s₅,?_,hkept₅,((hstarts₂.leaves hleaves₃).leaves hleaves₄).sheds hsheds₅⟩
        simp [hcreate, hmap₂, hmap₃, hunmap₄, hfree₅, bind, Except.bind]
      · refine .inr ⟨root,s₃,?_,hkept₃,hnot,hstarts₂.leaves hleaves₃,?_⟩
        · simp [hcreate, hmap₂, hmap₃, bind, Except.bind]
        · constructor
          · simp
          · rw [hput₃ root hroot _ isVa_trampoline, if_neg (fun hx => absurd hx.2 (by decide)),
              hput₂ root hroot _ isVa_trampoline, if_pos ⟨rfl,rfl⟩]
          · rw [hput₃ root hroot _ isVa_trapframe, if_pos ⟨rfl,rfl⟩]
          · intro va hva _
            have h₁ : va ≠ trapframe := by
              rintro rfl
              exact not_user_trapframe hva
            have h₂ : va ≠ trampoline := by
              rintro rfl
              exact not_user_trampoline hva
            rw [hput₃ root hroot va hva.1, if_neg (fun hx => h₁ hx.2), hput₂ root hroot va hva.1,
              if_neg (fun hx => h₂ hx.2), hempty₁]

theorem procFreepagetable_ok (h : Kept kend all s (root::roots) hand) (hnot : root ∉ roots)
    (hspace : Space text frame s root sz) :
    ∃ s', procFreepagetable kend root sz s = .ok s' ∧ Kept kend all s' roots hand ∧
      Sheds root s s' := by
  have hroot : root ∈ root::roots := List.mem_cons_self
  obtain ⟨s₁,hok₁,hkept₁,hput₁,hleaves₁⟩ :=
    uvmunmap_other h hroot isVa_trampoline not_user_trampoline
  obtain ⟨s₂,hok₂,hkept₂,hput₂,hleaves₂⟩ :=
    uvmunmap_other hkept₁ hroot isVa_trapframe not_user_trapframe
  obtain ⟨s₃,hok₃,hkept₃,hsheds₃⟩ := uvmfree_ok sz hkept₂ hnot hspace.size (by
    intro va hva hge
    rw [hput₂ root hroot va hva, hput₁ root hroot va hva]
    rcases isVa_cases hva with huser | rfl | rfl
    · rw [hspace.ends va huser hge]
      simp
    · rw [if_pos ⟨rfl,rfl⟩]
    · rw [if_pos (show root = root ∧ trampoline = trampoline from ⟨rfl,rfl⟩)]
      simp)
  refine ⟨s₃,?_,hkept₃,(hleaves₁.trans hleaves₂).sheds hsheds₃⟩
  simp only [procFreepagetable, hok₁, hok₂, bind, Except.bind]
  exact hok₃

end GreenOS.ProcessSpace
