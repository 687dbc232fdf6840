import GreenOS.SpaceRuns

/-!
# Every page has one user

A page of the allocator is free, a trapframe, the page of a pipe, a table of a
process's page table or a page the process maps below its trapframe, and it is
so in one way only.
-/

namespace GreenOS.PageUsers
open RadixTree PageTable PageMap UserMemory PageOwners PageMoves
open AddressSpaces ProcessSpace OptionTable SpaceSteps SpaceRuns StepRun

inductive Use where
  | free (i : ℕ)
  | trapframe (p : Slot)
  | pipe (i : ℕ)
  | table (p : Slot) (path : List Index)
  | user (p : Slot) (va : Word)

def Uses (t : Sys) : Use → Word → Prop
  | .free i, a => t.vm.free[i]? = some a
  | .trapframe p, a => (t.procs p).trapframe = some a
  | .pipe i, a => (t.pipes.map Pipe.page)[i]? = some a
  | .table p path, a => path.length ≤ 2 ∧ ∃ root, (t.procs p).pagetable = some root ∧
      tableAt child t.vm.mem root path = some a
  | .user p va, a => va%pgsize = 0#64 ∧ va < UserMemory.trapframe ∧ ∃ root pte,
      (t.procs p).pagetable = some root ∧ translate t.vm root va = some pte ∧ pte2pa pte = a

variable {kend text : Word} {all : Set Word} {t : Sys} {u v : Use} {a : Word}

def place (t : Sys) : Use → Option Place
  | .table p path => (t.procs p).pagetable.map (fun root => .table root path)
  | .user p va => (t.procs p).pagetable.map (fun root => .leaf root va)
  | _ => none

def pooled : Use → Bool
  | .free _ => true
  | .trapframe _ => true
  | .pipe _ => true
  | _ => false

theorem userVa_of {va : Word} (ha : va%pgsize = 0#64) (hlt : va < UserMemory.trapframe) :
    UserVa va := by
  rw [userVa_iff]
  rw [BitVec.lt_def, toNat_trapframe] at hlt
  exact ⟨aligned_iff.mp ha,hlt⟩

theorem uses_cases (h : Uses t u a) : (∃ x, place t u = some x ∧ Holds t.vm (tables t) x a) ∨
    (pooled u = true ∧ a ∈ t.vm.free++inHand t) := by
  cases u with
  | free i => exact .inr ⟨rfl,List.mem_append_left _ (List.mem_of_getElem? h)⟩
  | trapframe p =>
    exact .inr ⟨rfl,List.mem_append_right _ (List.mem_append_left _ (mem_entries.mpr ⟨p,h⟩))⟩
  | pipe i =>
    exact .inr ⟨rfl,List.mem_append_right _ (List.mem_append_right _ (List.mem_of_getElem? h))⟩
  | table p path =>
    obtain ⟨hlen,root,hroot,htable⟩ := h
    exact .inl ⟨.table root path,by rw [place, hroot]; rfl,mem_tables hroot,hlen,htable⟩
  | user p va =>
    obtain ⟨ha,hlt,root,pte,hroot,hpte,hpa⟩ := h
    exact .inl ⟨.leaf root va,by rw [place, hroot]; rfl,mem_tables hroot,
      userVa_of ha hlt,pte,hpte,hpa⟩

theorem place_inj (h : Based kend all t) {x : Place} (hu : place t u = some x)
    (hv : place t v = some x) : u = v := by
  have hproc : ∀ {p q : Slot} {root : Word}, (t.procs p).pagetable = some root →
      (t.procs q).pagetable = some root → p = q := fun hp hq => entries_inj h.nodup hp hq
  cases u <;> simp only [place, reduceCtorEq, Option.map_eq_some_iff] at hu
  all_goals
    obtain ⟨root,hroot,rfl⟩ := hu
    cases v <;> simp only [place, reduceCtorEq, Option.map_eq_some_iff, and_false,
      exists_false] at hv
    obtain ⟨root',hroot',heq⟩ := hv
    cases heq
    rw [hproc hroot hroot']

theorem pool_inj (h : Based kend all t) (hu : Uses t u a) (hv : Uses t v a) (hpu : pooled u = true)
    (hpv : pooled v = true) : u = v := by
  have hnodup := h.kept.nodup
  have hfree := hnodup.of_append_left
  have hhand := hnodup.of_append_right
  have hframes : (frames t).Nodup := hhand.of_append_left
  have hpipes : (t.pipes.map Pipe.page).Nodup := hhand.of_append_right
  have hindex : ∀ {l : List Word} {i j : ℕ}, l.Nodup → l[i]? = some a → l[j]? = some a → i = j := by
    intro l i j hl hi hj
    obtain ⟨hi',hia⟩ := List.getElem?_eq_some_iff.mp hi
    obtain ⟨hj',hja⟩ := List.getElem?_eq_some_iff.mp hj
    exact (List.Nodup.getElem_inj_iff hl).mp (hia.trans hja.symm)
  have hdisj₁ : a ∈ t.vm.free → a ∉ inHand t := fun hf hh =>
    List.disjoint_of_nodup_append hnodup hf hh
  have hdisj₂ : a ∈ frames t → a ∉ t.pipes.map Pipe.page :=
    fun hf hh => List.disjoint_of_nodup_append hhand hf hh
  have hmemf : ∀ {p : Slot}, (t.procs p).trapframe = some a → a ∈ frames t := fun hp =>
    mem_entries.mpr ⟨_,hp⟩
  have hin : a ∈ frames t ∨ a ∈ t.pipes.map Pipe.page → a ∈ inHand t := List.mem_append.mpr
  cases u with
  | free i =>
    cases v with
    | free j => rw [hindex hfree hu hv]
    | trapframe q => exact absurd (hin (.inl (hmemf hv))) (hdisj₁ (List.mem_of_getElem? hu))
    | pipe j =>
      exact absurd (hin (.inr (List.mem_of_getElem? hv))) (hdisj₁ (List.mem_of_getElem? hu))
    | table q path => cases hpv
    | user q va => cases hpv
  | trapframe p =>
    cases v with
    | free j => exact absurd (hin (.inl (hmemf hu))) (hdisj₁ (List.mem_of_getElem? hv))
    | trapframe q => rw [entries_inj hframes hu hv]
    | pipe j => exact absurd (List.mem_of_getElem? hv) (hdisj₂ (hmemf hu))
    | table q path => cases hpv
    | user q va => cases hpv
  | pipe i =>
    cases v with
    | free j =>
      exact absurd (hin (.inr (List.mem_of_getElem? hu))) (hdisj₁ (List.mem_of_getElem? hv))
    | trapframe q => exact absurd (List.mem_of_getElem? hu) (hdisj₂ (hmemf hv))
    | pipe j => rw [hindex hpipes hu hv]
    | table q path => cases hpv
    | user q va => cases hpv
  | table p path => cases hpu
  | user p va => cases hpu

theorem uses_inj (h : Based kend all t) (hu : Uses t u a) (hv : Uses t v a) : u = v := by
  rcases uses_cases hu with ⟨x,hx,hholds⟩ | ⟨hpu,hpool⟩
  · rcases uses_cases hv with ⟨y,hy,hholds'⟩ | ⟨-,hpool'⟩
    · obtain rfl := h.kept.one x y a hholds hholds'
      exact place_inj h hx hy
    · exact absurd hholds (h.kept.apart a hpool' x)
  · rcases uses_cases hv with ⟨y,-,hholds'⟩ | ⟨hpv,-⟩
    · exact absurd hholds' (h.kept.apart a hpool y)
    · exact pool_inj h hu hv hpu hpv

theorem user_private (h : Inv kend all text t) (hpage : text%pgsize = 0#64)
    (htext : text < kend) {p q : Slot}
    {root root' va va' pte pte' : Word} (hroot : (t.procs p).pagetable = some root)
    (hroot' : (t.procs q).pagetable = some root') (hva : IsVa va) (hva' : IsVa va')
    (hpte : translate t.vm root va = some pte) (hu : pte&&&pteU ≠ 0#64)
    (hpte' : translate t.vm root' va' = some pte') (hsame : pte2pa pte' = pte2pa pte) : q = p ∧
      va' = va := by
  obtain ⟨frame,-,hspace⟩ := h.space hroot
  obtain ⟨frame',hframe',hspace'⟩ := h.space hroot'
  have huser : UserVa va := by
    by_contra hother
    exact hu (hspace.shielded va pte hva hother hpte)
  have huse : Uses t (.user p va) (pte2pa pte) := ⟨hva.1,huser.2,root,pte,hroot,hpte,rfl⟩
  have hram : Freeable kend (pte2pa pte) :=
    h.based.kept.ram (x := .leaf root va) ⟨mem_tables hroot,huser,pte,hpte,rfl⟩
  rcases isVa_cases hva' with huser' | rfl | rfl
  · have huse' : Uses t (.user q va') (pte2pa pte) :=
      ⟨hva'.1,huser'.2,root',pte',hroot',hpte',hsame⟩
    cases uses_inj h.based huse' huse
    exact ⟨rfl,rfl⟩
  · -- the trapframe of a process is no user page
    rw [hspace'.frame] at hpte'
    cases hpte'
    have hin : frame' ∈ t.vm.free++inHand t :=
      List.mem_append_right _ (List.mem_append_left _ (mem_entries.mpr ⟨q,hframe'⟩))
    rw [pte2pa_perm ⟨6,by decide⟩ (h.based.kept.pool hin)] at hsame
    have hframe : Uses t (.trapframe q) (pte2pa pte) := hsame ▸ hframe'
    cases uses_inj h.based hframe huse
  · -- the trampoline is part of the kernel
    rw [hspace'.tramp] at hpte'
    cases hpte'
    have hlt : text < phystop := by
      have h₁ := BitVec.lt_def.mp htext
      have h₂ := BitVec.le_def.mp hram.2.1
      have h₃ := BitVec.lt_def.mp hram.2.2
      exact BitVec.lt_def.mpr (by omega)
    have hfree : Freeable 0#64 text := ⟨hpage,BitVec.le_def.mpr (Nat.zero_le _),hlt⟩
    rw [pte2pa_perm ⟨10,by decide⟩ hfree] at hsame
    rw [← hsame] at hram
    exact absurd htext (BitVec.not_lt.mpr hram.2.1)

/-- Each page has one use in every state that can be reached, and a page that a process may use
belongs to that process alone. -/
theorem page_users {vm : Vm} {es : List Event} {s : Sys} (hpage : text%pgsize = 0#64)
    (htext : text < kend)
    (hnodup : vm.free.Nodup) (hram : ∀ a ∈ vm.free, Freeable kend a)
    (hboot : boot kend text vm = some s)
    (hrun : run (step kend text) es s = some t) :
    (∀ u v a, Uses t u a → Uses t v a → u = v) ∧
    ∀ p root va pte, (t.procs p).pagetable = some root → va%pgsize = 0#64 → va < maxva →
      translate t.vm root va = some pte → pte&&&pteU ≠ 0#64 →
      pte2pa pte ∉ t.vm.free ∧ (∀ q path, ¬ Uses t (.table q path) (pte2pa pte)) ∧
      ∀ q root' va' pte', (t.procs q).pagetable = some root' → va'%pgsize = 0#64 → va' < maxva →
        translate t.vm root' va' = some pte' → pte2pa pte' = pte2pa pte → q = p ∧ va' = va := by
  have hkend := kend_pos htext
  have hinv := run_inv hkend hnodup hram hboot hrun
  refine ⟨fun u v a hu hv => uses_inj hinv.based hu hv,?_⟩
  intro p root va pte hroot ha hlt hpte hu
  have huse : Uses t (.user p va) (pte2pa pte) := by
    refine ⟨ha,?_,root,pte,hroot,hpte,rfl⟩
    obtain ⟨frame,-,hspace⟩ := hinv.space hroot
    by_contra hge
    exact hu (hspace.shielded va pte ⟨ha,hlt⟩ (fun huser => hge huser.2) hpte)
  refine ⟨?_,?_,?_⟩
  · intro hfree
    obtain ⟨i,hi⟩ := List.mem_iff_getElem?.mp hfree
    have hfreeUse : Uses t (.free i) (pte2pa pte) := hi
    cases uses_inj hinv.based hfreeUse huse
  · intro q path htable
    cases uses_inj hinv.based htable huse
  · exact fun q root' va' pte' hroot' ha' hlt' hpte' hsame =>
      user_private hinv hpage htext hroot hroot' ⟨ha,hlt⟩ ⟨ha',hlt'⟩ hpte hu hpte' hsame

theorem someLife_users : ∃ s t, boot 0x80030000#64 0x80001000#64 somePages = some s ∧
    run (step 0x80030000#64 0x80001000#64) someLife s = some t ∧ ∀ u v a, Uses t u a →
      Uses t v a → u = v := by
  obtain ⟨s,t,hs,ht⟩ := someLife_run
  exact ⟨s,t,hs,ht,(page_users (by decide) (by decide) somePages_free.1 somePages_free.2 hs ht).1⟩

theorem pool_used (h : a ∈ t.vm.free++inHand t) : ∃ u, Uses t u a := by
  rcases List.mem_append.mp h with hfree | hhand
  · obtain ⟨i,hi⟩ := List.mem_iff_getElem?.mp hfree
    exact ⟨.free i,hi⟩
  · rcases List.mem_append.mp hhand with hframe | hpipe
    · obtain ⟨p,hp⟩ := mem_entries.mp hframe
      exact ⟨.trapframe p,hp⟩
    · obtain ⟨i,hi⟩ := List.mem_iff_getElem?.mp hpipe
      exact ⟨.pipe i,hi⟩

/-- No page is lost: in every state that can be reached, the pages that booting found free are
those in use or free, each in one way. -/
theorem pages_accounted {vm : Vm} {es : List Event} {s : Sys} (htext : text < kend)
    (hnodup : vm.free.Nodup)
    (hram : ∀ a ∈ vm.free, Freeable kend a) (hboot : boot kend text vm = some s)
    (hrun : run (step kend text) es s = some t) (a : Word) :
    (a ∈ vm.free → ∃! u, Uses t u a) ∧ ∀ u, Uses t u a → a ∈ vm.free := by
  have hinv := run_inv (kend_pos htext) hnodup hram hboot hrun
  have hcover := hinv.based.kept.cover a
  constructor
  · intro ha
    obtain ⟨u,hu⟩ : ∃ u, Uses t u a := by
      rcases hcover.mp ha with hpool | ⟨⟨root,path⟩ | ⟨root,va⟩,hx⟩
      · exact pool_used hpool
      · obtain ⟨p,hp⟩ := mem_entries.mp hx.1
        exact ⟨.table p path,hx.2.1,root,hp,hx.2.2⟩
      · obtain ⟨hroot,huser,pte,hpte,hpa⟩ := hx
        obtain ⟨p,hp⟩ := mem_entries.mp hroot
        exact ⟨.user p va,huser.1.1,huser.2,root,pte,hp,hpte,hpa⟩
    exact ⟨u,hu,fun v hv => uses_inj hinv.based hv hu⟩
  · intro u hu
    rcases uses_cases hu with ⟨x,-,hx⟩ | ⟨-,hpool⟩
    · exact hcover.mpr (.inr ⟨x,hx⟩)
    · exact hcover.mpr (.inl hpool)

theorem someLife_accounted : ∃ s t, boot 0x80030000#64 0x80001000#64 somePages = some s ∧
    run (step 0x80030000#64 0x80001000#64) someLife s = some t ∧ ∀ a ∈ somePages.free, ∃! u,
      Uses t u a := by
  obtain ⟨s,t,hs,ht⟩ := someLife_run
  exact ⟨s,t,hs,ht,fun a =>
    (pages_accounted (by decide) somePages_free.1 somePages_free.2 hs ht a).1⟩

end GreenOS.PageUsers
