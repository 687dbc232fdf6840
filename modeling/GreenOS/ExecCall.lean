import GreenOS.ExecSpace

/-!
# The system call around `exec`

`sys_exec` takes a page for every argument before it calls `kexec` and gives
them back afterwards, whatever has happened in between. Reading the arguments
may map missing pages of the process.
-/

namespace GreenOS.ExecCall
open RadixTree PageTable UserMemory PageOwners PageMoves PageFrames UserGrowth UserCopies
open AddressSpaces ProcessSpace ExecSpace

variable {kend text frame : Word} {all : Set Word} {s s' : Vm} {roots hand : List Word}
    {root sz : Word}

theorem copyinstr_short {srcva nul max : Word} {r : ℤ} (h : copyinstr root srcva nul max s = .ok r)
    (hr : ¬ r < 0) : nul.toNat < max.toNat := by
  unfold copyinstr at h
  generalize (max/pgsize).toNat+2 = n at h
  induction n generalizing srcva nul max with
  | zero =>
    cases h
    exact absurd (by decide) hr
  | succ n ih =>
    unfold copyinstrLoop at h
    obtain ⟨pa,hwalk,-⟩ := walkaddr_ok s root (pgrounddown srcva)
    by_cases hmax : 0#64 < max
    · simp only [hmax, if_true, hwalk, bind, Except.bind] at h
      by_cases hpa : pa = 0#64
      · rw [if_pos hpa] at h
        cases h
        exact absurd (by decide) hr
      · rw [if_neg hpa] at h
        obtain ⟨k,hk⟩ : ∃ k, k = if max < pgsize-(srcva-pgrounddown srcva) then max
          else pgsize-(srcva-pgrounddown srcva) := ⟨_,rfl⟩
        have hle : k.toNat ≤ max.toNat := by
          rw [hk]
          split_ifs with hlt
          · exact le_rfl
          · rw [BitVec.lt_def, not_lt] at hlt
            exact hlt
        rw [← hk] at h
        by_cases hnul : nul < k
        · exact (BitVec.lt_def.mp hnul).trans_le hle
        · rw [if_neg hnul] at h
          have hrec := ih h
          rw [BitVec.lt_def, not_lt] at hnul
          have hsub : ∀ x : Word, k.toNat ≤ x.toNat → (x-k).toNat = x.toNat-k.toNat := by
            intro x hx
            rw [BitVec.toNat_sub]
            have := x.isLt
            omega
          rw [hsub nul hnul, hsub max hle] at hrec
          omega
    · rw [if_neg hmax] at h
      cases h
      exact absurd (by decide) hr

theorem kfreeAll_ok (pages : List Word) (h : Kept kend all s roots (pages++hand)) :
    ∃ s', kfreeAll kend pages s = .ok s' ∧ Kept kend all s' roots hand ∧ Same roots s s' ∧
      ∀ a, a ∉ s.free → a ∉ pages → a ∉ s'.free ∧ s'.mem a = s.mem a := by
  induction pages generalizing s with
  | nil => exact ⟨s,rfl,h,Same.refl roots s,fun a ha _ => ⟨ha,rfl⟩⟩
  | cons page pages ih =>
    obtain ⟨s₁,hok₁,hkept₁,hfree₁,htrans₁⟩ := h.kfree
    obtain ⟨s',hok,hkept,hsame,hframe⟩ := ih hkept₁
    refine ⟨s',by simp only [kfreeAll, hok₁, bind, Except.bind, hok],hkept,?_,?_⟩
    · intro root' hroot' va hva
      rw [hsame root' hroot' va hva, htrans₁ root' hroot' va]
    · intro a ha hne
      rw [List.mem_cons, not_or] at hne
      obtain ⟨hused,hmem⟩ := hframe a (by simp [hfree₁, hne.1, ha]) hne.2
      exact ⟨hused,hmem.trans ((kfree_frame hok₁).2 a hne.1)⟩

theorem fetchaddr_ok (h : Kept kend all s roots hand) (hroot : root ∈ roots)
    (hspace : Space text frame s root sz)
    (addr : Word) : ∃ r s', fetchaddr kend root sz addr s = .ok (r,s') ∧
      Kept kend all s' roots hand ∧
      Faulted roots root sz.toNat s s' := by
  unfold fetchaddr
  by_cases haddr : sz ≤ addr ∨ sz < addr+8
  · rw [if_pos haddr]
    exact ⟨-1,s,rfl,h,Faulted.refl s⟩
  · rw [if_neg haddr]
    obtain ⟨r,s',hok,hkept,hfaulted⟩ := copyin_ok hroot hspace.size addr 8 h hspace.shielded
    simp only [hok, bind, Except.bind]
    by_cases hr : r ≠ 0
    · rw [if_pos hr]
      exact ⟨-1,s',rfl,hkept,hfaulted⟩
    · rw [if_neg hr]
      exact ⟨0,s',rfl,hkept,hfaulted⟩

theorem Space.faulted (hroot : root ∈ roots) (h : Space text frame s root sz)
    (hwithin : Within roots root sz.toNat s s') : Space text frame s' root sz :=
  h.within hroot h.size le_rfl hwithin (fun _ => le_up _)

theorem fetchArgs_ok (hroot : root ∈ roots) (uargv : Word) (args : List (Word × Word)) (i : ℕ)
    (argv : List Word)
    (h : Kept kend all s roots (argv++hand)) (hspace : Space text frame s root sz) :
    ∃ good argv' s', fetchArgs kend root sz uargv args i argv s = .ok (good,argv',s') ∧
      Kept kend all s' roots (argv'++hand) ∧ Faulted roots root sz.toNat s s' ∧
      (∀ a, Off s root a → a ∉ argv → a ∉ argv') ∧
      (good = true → ∀ len ∈ args.map Prod.snd, len.toNat < 4096) := by
  induction args generalizing i argv s with
  | nil =>
    unfold fetchArgs
    by_cases hi : 32 ≤ i
    · rw [if_pos hi]
      exact ⟨false,argv,s,rfl,h,Faulted.refl s,fun _ _ ha => ha,fun h => by cases h⟩
    rw [if_neg hi]
    obtain ⟨r,s',hok,hkept,hfaulted⟩ := fetchaddr_ok h hroot hspace (uargv+8*BitVec.ofNat 64 i)
    simp only [hok, bind, Except.bind]
    by_cases hr : r < 0
    · rw [if_pos hr]
      exact ⟨false,argv,s',rfl,hkept,hfaulted,fun _ _ ha => ha,fun h => by cases h⟩
    · rw [if_neg hr]
      exact ⟨true,argv,s',rfl,hkept,hfaulted,fun _ _ ha => ha,fun _ => by simp⟩
  | cons arg args ih =>
    obtain ⟨uarg,len⟩ := arg
    unfold fetchArgs
    by_cases hi : 32 ≤ i
    · rw [if_pos hi]
      exact ⟨false,argv,s,rfl,h,Faulted.refl s,fun _ _ ha => ha,fun h => by cases h⟩
    rw [if_neg hi]
    obtain ⟨r,s₁,hok₁,hkept₁,hfaulted₁⟩ := fetchaddr_ok h hroot hspace (uargv+8*BitVec.ofNat 64 i)
    simp only [hok₁, bind, Except.bind]
    by_cases hr : r < 0
    · rw [if_pos hr]
      exact ⟨false,argv,s₁,rfl,hkept₁,hfaulted₁,fun _ _ ha => ha,fun h => by cases h⟩
    rw [if_neg hr]
    rcases hk : kalloc s₁ with ⟨_ | page,s₂⟩
    · obtain rfl := kalloc_none hk
      exact ⟨false,argv,_,rfl,hkept₁,hfaulted₁,fun _ _ ha => ha,fun h => by cases h⟩
    · obtain ⟨hkept₂,htrans₂⟩ := hkept₁.kalloc_some hk
      obtain ⟨hfree₁,htakes₂,-⟩ := kalloc_takes (hkept₁.wellFormed hroot) hk
      have hfaulted₂ : Faulted roots root sz.toNat s s₂ := hfaulted₁.trans
        (faulted_of_same htakes₂ fun root' hroot' va _ => htrans₂ root' hroot' va) hkept₁ hroot
      -- a page that was in use is not the one taken
      have hpage : ∀ a, Off s root a → a ∉ argv → a ∉ page::argv := by
        intro a ha hargv
        refine List.not_mem_cons_of_ne_of_not_mem ?_ hargv
        rintro rfl
        exact (hfaulted₁.takes a ha).1.used (by simp [hfree₁])
      obtain ⟨r',hstr⟩ := copyinstr_ok s₂ root uarg len pgsize
      simp only [hstr]
      by_cases hr' : r' < 0
      · rw [if_pos hr']
        exact ⟨false,page::argv,s₂,rfl,hkept₂,hfaulted₂,hpage,fun h => by cases h⟩
      · rw [if_neg hr']
        obtain ⟨good,argv',s',hok,hkept,hfaulted,hargv,hlens⟩ := ih (i+1) (page::argv) hkept₂
          (Space.faulted hroot hspace hfaulted₂.within)
        refine ⟨good,argv',s',hok,hkept,hfaulted₂.trans hfaulted hkept₂ hroot,
          fun a ha hnot => hargv a (hfaulted₂.takes a ha).1 (hpage a ha hnot),?_⟩
        intro hgood l hl
        rcases List.mem_cons.mp hl with rfl | hl
        · exact copyinstr_short hstr hr'
        · exact hlens hgood l hl

theorem faulted_undo {bound : ℕ} {s₁ : Vm} {argv : List Word} (h : Faulted roots root bound s s₁)
    (hkept : Kept kend all s₁ roots (argv++hand)) (hroot : root ∈ roots)
    (hargv : ∀ a, Off s root a → a ∉ argv)
    (hspared : ∀ a, a ∉ s₁.free → a ∉ argv → a ∉ s'.free ∧ s'.mem a = s₁.mem a) :
    Faulted roots root bound s s' := by
  have hmem : ∀ x a, Holds s₁ roots x a → a ∉ s'.free ∧ s'.mem a = s₁.mem a := by
    intro x a hx
    refine hspared a (fun hfree => hkept.apart a (List.mem_append_left _ hfree) x hx) fun ha => ?_
    exact hkept.apart a (List.mem_append_right _ (List.mem_append_left _ ha)) x hx
  have htable : ∀ r ∈ roots, ∀ (p : List Index) (b : Word), p.length ≤ 2 →
      tableAt child s₁.mem r p = some b → s'.mem b = s₁.mem b :=
    fun r hr p b hp hb => (hmem (.table r p) b ⟨hr,hp,hb⟩).2
  refine ⟨?_,fun root' hroot' va hva => ?_⟩
  · intro a ha
    obtain ⟨hoff,hsame⟩ := h.takes a ha
    obtain ⟨hused,hsame'⟩ := hspared a hoff.used (hargv a ha)
    refine ⟨⟨hused,fun p hp => ?_⟩,hsame'.trans hsame⟩
    rw [(view_of_agree (htable root hroot)).1 p hp]
    exact hoff.plain p hp
  · rw [same_of_tables htable root' hroot' va hva]
    rcases h.maps root' hroot' va hva with hsame | ⟨rfl,huser,hlt,hnone,pte,hpte,hzero⟩
    · exact .inl hsame
    · refine .inr ⟨rfl,huser,hlt,hnone,pte,
        by rw [same_of_tables htable root' hroot va hva, hpte],?_⟩
      rw [(hmem (.leaf root' va) _ ⟨hroot,huser,pte,hpte,rfl⟩).2, hzero]

theorem sysExec_ok (hkend : 0#64 < kend) (uargv : Word) (args : List (Word × Word))
    (image : Option Image)
    (data : Word → Index → Word) (h : Kept kend all s (root::roots) hand) (hnot : root ∉ roots)
    (hspace : Space text frame s root sz) :
    ∃ r s₁, sysExec kend text root sz frame uargv args image data s = .ok r ∧
      Faulted (root::roots) root sz.toNat s s₁ ∧ Replaced kend all text frame root roots hand s₁ r ∧
      (r.1 = none → Faulted (root::roots) root sz.toNat s r.2) := by
  have hroot : root ∈ root::roots := List.mem_cons_self
  obtain ⟨good,argv,s₁,hok₁,hkept₁,hfaulted₁,hargv,hlens⟩ :=
    fetchArgs_ok hroot uargv args 0 [] h hspace
  have hargv : ∀ a, Off s root a → a ∉ argv := fun a ha => hargv a ha List.not_mem_nil
  have hperm : (argv++hand).Perm (argv.reverse++hand) :=
    (List.reverse_perm argv).symm.append_right hand
  simp only [sysExec, hok₁, bind, Except.bind]
  cases good with
  | false =>
    obtain ⟨s₂,hok₂,hkept₂,hsame₂,hframe₂⟩ := kfreeAll_ok argv.reverse (hkept₁.perm hperm)
    refine ⟨(none,s₂),s₁,by simp [hok₂],hfaulted₁,⟨hkept₂,hsame₂⟩,fun _ => ?_⟩
    exact faulted_undo hfaulted₁ hkept₁ hroot hargv fun a ha hnot =>
      hframe₂ a ha (by simpa using hnot)
  | true =>
    have hspace₁ := Space.faulted hroot hspace hfaulted₁.within
    obtain ⟨⟨r,s₂⟩,hok₂,hrep,hspares₂⟩ :=
      kexec_ok hkend image _ (hlens rfl) data hkept₁ hnot hspace₁
    have hfree : ∀ roots' : List Word, Kept kend all s₂ roots' (argv++hand) →
        ∃ s₃, kfreeAll kend argv.reverse s₂ = .ok s₃ ∧ Kept kend all s₃ roots' hand ∧
          Same roots' s₂ s₃ ∧
          ∀ a, a ∉ s₂.free → a ∉ argv.reverse → a ∉ s₃.free ∧ s₃.mem a = s₂.mem a :=
      fun roots' hkept => kfreeAll_ok argv.reverse (hkept.perm hperm)
    cases r with
    | none =>
      obtain ⟨hkept₂,hsame₂⟩ := hrep
      obtain ⟨s₃,hok₃,hkept₃,hsame₃,hframe₃⟩ := hfree _ hkept₂
      refine ⟨(none,s₃),s₁,by simp [hok₂, hok₃],hfaulted₁,⟨hkept₃,hsame₂.trans hsame₃⟩,fun _ => ?_⟩
      refine faulted_undo hfaulted₁ hkept₁ hroot hargv fun a ha hnot => ?_
      obtain ⟨hused₂,hmem₂⟩ := hspares₂ rfl a ha
      obtain ⟨hused₃,hmem₃⟩ := hframe₃ a hused₂ (by simpa using hnot)
      exact ⟨hused₃,hmem₃.trans hmem₂⟩
    | some x =>
      obtain ⟨new,newsz⟩ := x
      obtain ⟨hkept₂,hfresh,hsame₂,hspace₂⟩ := hrep
      obtain ⟨s₃,hok₃,hkept₃,hsame₃,-⟩ := hfree _ hkept₂
      refine ⟨(some (new,newsz),s₃),s₁,by simp [hok₂, hok₃],hfaulted₁,⟨hkept₃,hfresh,?_,?_⟩,
        fun hr => by cases hr⟩
      · intro root' hroot' va hva
        rw [hsame₃ root' (List.mem_cons_of_mem _ hroot') va hva, hsame₂ root' hroot' va hva]
      · exact hspace₂.same List.mem_cons_self hsame₃

end GreenOS.ExecCall
