import GreenOS.ExecCall
import GreenOS.OptionTable

/-!
# What a step does to the address spaces

All page tables of the system are those of its processes, and the pages in hand
are the trapframes and the pipes. Every step keeps the account of the pages and
the shape of every address space, and no step fails but the exit of the first
process.
-/

namespace GreenOS.SpaceSteps
open RadixTree PageTable PageMap UserMemory PageOwners PageMoves PageFrames UserGrowth
open AddressSpaces ProcessSpace OptionTable
open Function (update update_self update_of_ne update_eq_self)

def tables (t : Sys) : List Word := entries (fun p => (t.procs p).pagetable)

def frames (t : Sys) : List Word := entries (fun p => (t.procs p).trapframe)

def inHand (t : Sys) : List Word := frames t++t.pipes.map Pipe.page

structure Based (kend : Word) (all : Set Word) (t : Sys) : Prop where
  kept : Kept kend all t.vm (tables t) (inHand t)
  nodup : (tables t).Nodup

def Fits (text : Word) (s : Vm) (pr : Proc) : Prop :=
  if pr.life = .unused then pr.pagetable = none ∧ pr.trapframe = none ∧ pr.sz = 0#64
  else ∃ root frame, pr.pagetable = some root ∧ pr.trapframe = some frame ∧
    Space text frame s root pr.sz

structure Inv (kend : Word) (all : Set Word) (text : Word) (t : Sys) : Prop where
  based : Based kend all t
  fits : ∀ p, Fits text t.vm (t.procs p)

variable {kend text : Word} {all : Set Word} {t : Sys} {s : Vm} {p : Slot} {root frame : Word}

theorem tables_setProc (p : Slot) (pr : Proc) (t : Sys) :
    tables (setProc p pr t) = entries (update (fun q => (t.procs q).pagetable) p pr.pagetable) := by
  unfold tables setProc
  congr 1
  funext q
  by_cases hq : q = p
  · subst hq
    simp
  · simp [hq]

theorem frames_setProc (p : Slot) (pr : Proc) (t : Sys) :
    frames (setProc p pr t) = entries (update (fun q => (t.procs q).trapframe) p pr.trapframe) := by
  unfold frames setProc
  congr 1
  funext q
  by_cases hq : q = p
  · subst hq
    simp
  · simp [hq]

def others (t : Sys) (p : Slot) : List Word :=
  entries (update (fun q => (t.procs q).pagetable) p none)

theorem tables_perm (hp : (t.procs p).pagetable = some root) : (tables t).Perm (root::others t p) :=
  entries_clear hp

theorem Based.not_others (h : Based kend all t) (hp : (t.procs p).pagetable = some root) :
    root ∉ others t p :=
  (List.nodup_cons.mp ((tables_perm hp).nodup_iff.mp h.nodup)).1

theorem Based.current (h : Based kend all t) (hp : (t.procs p).pagetable = some root) :
    Kept kend all t.vm (root::others t p) (inHand t) :=
  h.kept.congr fun _ => (tables_perm hp).mem_iff.symm

theorem mem_tables (hp : (t.procs p).pagetable = some root) : root ∈ tables t :=
  mem_entries.mpr ⟨p,hp⟩

theorem mem_others {q : Slot} (hq : (t.procs q).pagetable = some root) (hne : q ≠ p) :
    root ∈ others t p :=
  mem_entries.mpr ⟨q,by rw [update_of_ne hne]; exact hq⟩

variable {roots hand : List Word} {pr : Proc}

theorem Fits.same (h : Fits text t.vm pr) (hroots : ∀ root, pr.pagetable = some root → root ∈ roots)
    (hsame : Same roots t.vm s) : Fits text s pr := by
  unfold Fits at h ⊢
  split_ifs at h ⊢ with hlife
  · exact h
  · obtain ⟨root,frame,hroot,hframe,hspace⟩ := h
    exact ⟨root,frame,hroot,hframe,hspace.same (hroots root hroot) hsame⟩

theorem fits_setProc (hfits : ∀ q, q ≠ p → Fits text t.vm (t.procs q))
    (hsame : Same (others t p) t.vm s) (hpr : Fits text s pr) (q : Slot) :
    Fits text (setProc p pr { t with vm := s }).vm ((setProc p pr { t with vm := s }).procs q) := by
  by_cases hq : q = p
  · subst hq
    simp only [setProc, update_self]
    exact hpr
  · simp only [setProc, update_of_ne hq]
    exact (hfits q hq).same (fun r hr => mem_others hr hq) hsame

theorem Inv.process (h : Inv kend all text t) (hp : (t.procs p).life ≠ .unused) :
    ∃ root frame, (t.procs p).pagetable = some root ∧ (t.procs p).trapframe = some frame ∧
      Space text frame t.vm root (t.procs p).sz := by
  have hfits := h.fits p
  unfold Fits at hfits
  rwa [if_neg hp] at hfits

theorem Inv.space (h : Inv kend all text t) (hroot : (t.procs p).pagetable = some root) :
    ∃ frame, (t.procs p).trapframe = some frame ∧ Space text frame t.vm root (t.procs p).sz := by
  have hlife : (t.procs p).life ≠ .unused := by
    intro hlife
    have hfits := h.fits p
    rw [Fits, if_pos hlife, hroot] at hfits
    cases hfits.1
  obtain ⟨root',frame,hroot',hframe,hspace⟩ := h.process hlife
  obtain rfl := Option.some.inj (hroot.symm.trans hroot')
  exact ⟨frame,hframe,hspace⟩

theorem mapped_off {root' va pte : Word} {q : Slot} (h : Inv kend all text t)
    (hpage : text%pgsize = 0#64)
    (htext : text < kend) (hroot : root ∈ tables t) (hq : (t.procs q).pagetable = some root')
    (hva : IsVa va)
    (hpte : translate t.vm root' va = some pte) : Off t.vm root (pte2pa pte) := by
  have hkept := h.based.kept
  have hram : ∀ a ∈ all, kend ≤ a ∧ a < phystop := fun a ha => (hkept.freeable a ha).2
  obtain ⟨frame,hframe,hspace⟩ := h.space hq
  rcases isVa_cases hva with huser | rfl | rfl
  · exact off_of_leaf hkept hroot ⟨mem_tables hq,huser,pte,hpte,rfl⟩
  · rw [hspace.frame] at hpte
    cases hpte
    have hin : frame ∈ inHand t := List.mem_append_left _ (mem_entries.mpr ⟨q,hframe⟩)
    have hperm : IsPerm (pteR|||pteW) := ⟨6,by decide⟩
    rw [pte2pa_perm hperm (hkept.pool (List.mem_append_right _ hin))]
    exact off_of_hand hkept hroot hin
  · -- the trampoline is part of the kernel
    rw [hspace.tramp] at hpte
    cases hpte
    have hall : root ∈ all := (hkept.cover root).mpr (.inr ⟨.table root [],hroot,by simp,rfl⟩)
    have hlt : text < phystop := by
      have h₁ := BitVec.lt_def.mp htext
      have h₂ := BitVec.le_def.mp (hram root hall).1
      have h₃ := BitVec.lt_def.mp (hram root hall).2
      exact BitVec.lt_def.mpr (by omega)
    have hfree : Freeable 0#64 text := ⟨hpage,BitVec.le_def.mpr (Nat.zero_le _),hlt⟩
    have hperm : IsPerm (pteR|||pteX) := ⟨10,by decide⟩
    rw [pte2pa_perm hperm hfree]
    exact off_of_outside hkept hroot (fun ha => absurd htext (BitVec.not_lt.mpr (hram text ha).1))

theorem Inv.replace {root' : Word} (h : Inv kend all text t)
    (hroot : (t.procs p).pagetable = some root) (hframe : (t.procs p).trapframe = some frame)
    (hlife : pr.life ≠ .unused) (hpt : pr.pagetable = some root') (htf : pr.trapframe = some frame)
    (hkept : Kept kend all s (root'::others t p) (inHand t)) (hnot : root' ∉ others t p)
    (hsame : Same (others t p) t.vm s) (hspace : Space text frame s root' pr.sz) :
    Inv kend all text (setProc p pr { t with vm := s }) := by
  have htables : (tables (setProc p pr { t with vm := s })).Perm (root'::others t p) := by
    rw [tables_setProc, hpt]
    have hfill := entries_fill (f := update (fun q => (t.procs q).pagetable) p none) (p := p)
      (update_self ..) root'
    rwa [Function.update_idem] at hfill
  have hframes : frames (setProc p pr { t with vm := s }) = frames t := by
    rw [frames_setProc, htf, ← hframe]
    exact congrArg entries (update_eq_self p _)
  refine ⟨⟨?_,?_⟩,?_⟩
  · rw [inHand, hframes]
    exact hkept.congr fun _ => htables.mem_iff
  · refine htables.nodup_iff.mpr (List.nodup_cons.mpr ⟨hnot,?_⟩)
    exact (List.nodup_cons.mp ((tables_perm hroot).nodup_iff.mp h.based.nodup)).2
  · refine fits_setProc (fun q _ => h.fits q) hsame ?_
    unfold Fits
    rw [if_neg hlife]
    exact ⟨root',frame,hpt,htf,hspace⟩

theorem Inv.fits_faulted (h : Inv kend all text t) (hroot : (t.procs p).pagetable = some root)
    (hwithin : Within (tables t) root (t.procs p).sz.toNat t.vm s) (q : Slot) :
    Fits text s (t.procs q) := by
  have hfits := h.fits q
  unfold Fits at hfits ⊢
  split_ifs at hfits ⊢ with hlife
  · exact hfits
  · obtain ⟨root',frame,hroot',hframe,hspace⟩ := hfits
    refine ⟨root',frame,hroot',hframe,
      hspace.within (mem_tables hroot') hspace.size le_rfl hwithin ?_⟩
    rintro rfl
    rw [entries_inj h.based.nodup hroot' hroot]
    exact le_up _

theorem Inv.faulted (h : Inv kend all text t) (hroot : (t.procs p).pagetable = some root)
    (hkept : Kept kend all s (tables t) (inHand t))
    (hwithin : Within (tables t) root (t.procs p).sz.toNat t.vm s) :
    Inv kend all text { t with vm := s } :=
  ⟨⟨hkept,h.based.nodup⟩,h.fits_faulted hroot hwithin⟩

theorem Inv.same (h : Inv kend all text t) (hkept : Kept kend all s (tables t) (inHand t))
    (hsame : Same (tables t) t.vm s) : Inv kend all text { t with vm := s } :=
  ⟨⟨hkept,h.based.nodup⟩,fun q => (h.fits q).same (fun _ hr => mem_tables hr) hsame⟩

theorem store_inHand {pa : Word} (h : Kept kend all s roots hand) (hpa : pa ∈ hand)
    (data : Index → Word) : Kept kend all (store pa data s) roots hand ∧
      Same roots s (store pa data s) := by
  obtain ⟨hkept,htrans⟩ := h.store pa
    (fun root p => h.apart pa (List.mem_append_right _ hpa) (.table root p)) data
  exact ⟨hkept,fun root hroot va _ => htrans root hroot va⟩

theorem freeTrapframe_ok (frame : Option Word) (hand : List Word)
    (h : Kept kend all s roots (frame.toList++hand)) :
    ∃ s', freeTrapframe kend frame s = .ok s' ∧ Kept kend all s' roots hand ∧
      ∀ a, a ∉ s.free → frame ≠ some a → a ∉ s'.free ∧ s'.mem a = s.mem a := by
  cases frame with
  | none => exact ⟨s,rfl,h,fun a ha _ => ⟨ha,rfl⟩⟩
  | some frame =>
    obtain ⟨s',hok,hkept,hfree,-⟩ := h.kfree
    refine ⟨s',hok,hkept,?_⟩
    intro a ha hne
    have hne : a ≠ frame := fun heq => hne (heq ▸ rfl)
    exact ⟨by simp [hfree, hne, ha],(kfree_frame hok).2 a hne⟩

theorem freePagetable_ok {sz : Word} (root : Option Word) (roots : List Word)
    (h : Kept kend all s (root.toList++roots) hand)
    (hroot : ∀ r, root = some r → r ∉ roots ∧ ∃ frame, Space text frame s r sz) :
    ∃ s', freePagetable kend root sz s = .ok s' ∧ Kept kend all s' roots hand ∧
      ∀ a, a ∉ s.free → (∀ r, root = some r → Away s r a) → a ∉ s'.free ∧ s'.mem a = s.mem a := by
  cases root with
  | none => exact ⟨s,rfl,h,fun a ha _ => ⟨ha,rfl⟩⟩
  | some root =>
    obtain ⟨hnot,frame,hspace⟩ := hroot root rfl
    obtain ⟨s',hok,hkept,hsheds⟩ := procFreepagetable_ok h hnot hspace
    exact ⟨s',hok,hkept,fun a _ haway => hsheds a (haway root rfl)⟩

theorem freeproc_ok (h : Based kend all t)
    (hspace : ∀ root, (t.procs p).pagetable = some root → ∃ frame, Space text frame t.vm root
      (t.procs p).sz) :
    ∃ s', freeproc kend p t = .ok (setProc p ⟨.unused,none,none,0,none⟩ { t with vm := s' }) ∧
      Based kend all (setProc p ⟨.unused,none,none,0,none⟩ { t with vm := s' }) ∧
      ∀ a, a ∉ t.vm.free → (t.procs p).trapframe ≠ some a →
        (∀ root, (t.procs p).pagetable = some root → Away t.vm root a) → a ∉ s'.free ∧
          s'.mem a = t.vm.mem a := by
  have hframes := entries_split (fun q => (t.procs q).trapframe) p
  have htables := entries_split (fun q => (t.procs q).pagetable) p
  have hkept₀ : Kept kend all t.vm (tables t) ((t.procs p).trapframe.toList++
      (entries (update (fun q => (t.procs q).trapframe) p none)++t.pipes.map Pipe.page)) := by
    refine h.kept.perm ?_
    rw [← List.append_assoc]
    exact hframes.append_right _
  obtain ⟨s₁,hok₁,hkept₁,hframe₁⟩ := freeTrapframe_ok _ _ hkept₀
  -- the trapframe is no table, so freeing it moves nothing
  have htable : ∀ r ∈ tables t, ∀ (q : List Index) (b : Word), q.length ≤ 2 →
      tableAt child t.vm.mem r q = some b → s₁.mem b = t.vm.mem b := by
    intro r hr q b hq hb
    refine (hframe₁ b (used_of_table h.kept hr hq hb) fun hf => ?_).2
    refine h.kept.apart b (List.mem_append_right _ ?_) (.table r q) ⟨hr,hq,hb⟩
    exact List.mem_append_left _ (mem_entries.mpr ⟨p,hf⟩)
  have hnot : ∀ r, (t.procs p).pagetable = some r → r ∉ others t p ∧
      ∃ frame, Space text frame s₁ r (t.procs p).sz := by
    intro r hr
    obtain ⟨frame,hsp⟩ := hspace r hr
    exact ⟨h.not_others hr,frame,hsp.same (mem_tables hr) (same_of_tables htable)⟩
  obtain ⟨s₂,hok₂,hkept₂,hframe₂⟩ := freePagetable_ok _ (others t p)
    (hkept₁.congr fun _ => htables.mem_iff.symm) hnot
  refine ⟨s₂,by simp only [freeproc, hok₁, hok₂, bind, Except.bind],⟨?_,?_⟩,?_⟩
  · rw [inHand, frames_setProc, tables_setProc]
    exact hkept₂
  · rw [tables_setProc]
    exact (htables.nodup_iff.mp h.nodup).of_append_right
  · intro a ha hne haway
    obtain ⟨hused₁,hmem₁⟩ := hframe₁ a ha hne
    obtain ⟨hused₂,hmem₂⟩ := hframe₂ a hused₁ fun r hr =>
      away_of_tables (htable r (mem_tables hr)) (haway r hr) hused₁
    exact ⟨hused₂,hmem₂.trans hmem₁⟩

theorem Based.others_tables {s' : Vm} (h : Based kend all t)
    (hframe : ∀ a, a ∉ t.vm.free → (t.procs p).trapframe ≠ some a →
      (∀ root, (t.procs p).pagetable = some root → Away t.vm root a) → a ∉ s'.free ∧
        s'.mem a = t.vm.mem a) :
    ∀ r ∈ others t p, ∀ (q : List Index) (b : Word), q.length ≤ 2 →
      tableAt child t.vm.mem r q = some b →
      s'.mem b = t.vm.mem b := by
  intro r hr q b hq hb
  have hmem : r ∈ tables t := (entries_split (fun q => (t.procs q).pagetable) p).mem_iff.mpr
    (List.mem_append_right _ hr)
  refine (hframe b (used_of_table h.kept hmem hq hb) (fun hf => ?_) fun root hroot => ?_).2
  · refine h.kept.apart b (List.mem_append_right _ ?_) (.table r q) ⟨hmem,hq,hb⟩
    exact List.mem_append_left _ (mem_entries.mpr ⟨p,hf⟩)
  · exact away_of_table (h.current hroot) (h.not_others hroot) hr hq hb

theorem fits_unused (s : Vm) : Fits text s ⟨.unused,none,none,0,none⟩ := ⟨rfl,rfl,rfl⟩

theorem Inv.freeproc (h : Inv kend all text t) (p : Slot) :
    ∃ s', AddressSpaces.freeproc kend p t = .ok
      (setProc p ⟨.unused,none,none,0,none⟩ { t with vm := s' }) ∧
      Inv kend all text (setProc p ⟨.unused,none,none,0,none⟩ { t with vm := s' }) ∧
      ∀ a, a ∉ t.vm.free → (t.procs p).trapframe ≠ some a →
        (∀ root, (t.procs p).pagetable = some root → Away t.vm root a) → a ∉ s'.free ∧
          s'.mem a = t.vm.mem a := by
  have hspace : ∀ root, (t.procs p).pagetable = some root →
      ∃ frame, Space text frame t.vm root (t.procs p).sz := by
    intro root hroot
    obtain ⟨frame,-,hsp⟩ := h.space hroot
    exact ⟨frame,hsp⟩
  obtain ⟨s',hok,hbased,hframe⟩ := freeproc_ok h.based hspace
  exact ⟨s',hok,⟨hbased,fits_setProc (fun q _ => h.fits q)
    (same_of_tables (h.based.others_tables hframe)) (fits_unused s')⟩,hframe⟩

theorem setProc_idem (p : Slot) (pr pr' : Proc) (t : Sys) (s : Vm) :
    setProc p pr { setProc p pr' t with vm := s } = setProc p pr { t with vm := s } := by
  simp [setProc]

theorem based_setProc (pr : Proc) (h : Inv kend all text t) (hp : (t.procs p).life = .unused)
    (hkept : Kept kend all s (pr.pagetable.toList++tables t) (pr.trapframe.toList++inHand t))
    (hnot : ∀ root, pr.pagetable = some root → root ∉ tables t) :
    Based kend all (setProc p pr { t with vm := s }) := by
  have hfits := h.fits p
  unfold Fits at hfits
  rw [if_pos hp] at hfits
  obtain ⟨hnone,hnone',-⟩ := hfits
  have hperm : ∀ {f : Slot → Option Word} (x : Option Word), f p = none →
      (entries (update f p x)).Perm (x.toList++entries f) := by
    intro f x hf
    cases x with
    | none => rw [← hf, update_eq_self, hf]; exact List.Perm.refl _
    | some a => exact entries_fill hf a
  have htables := hperm (f := fun q => (t.procs q).pagetable) pr.pagetable hnone
  have hframes := hperm (f := fun q => (t.procs q).trapframe) pr.trapframe hnone'
  constructor
  · rw [inHand, frames_setProc, tables_setProc]
    refine (hkept.congr fun _ => htables.mem_iff).perm ?_
    rw [inHand, ← List.append_assoc]
    exact (hframes.symm).append_right _
  · rw [tables_setProc]
    refine htables.nodup_iff.mpr ?_
    cases hpt : pr.pagetable with
    | none => exact h.based.nodup
    | some root => exact List.nodup_cons.mpr ⟨hnot root hpt,h.based.nodup⟩

theorem others_unused (h : Inv kend all text t) (hp : (t.procs p).life = .unused) :
    others t p = tables t := by
  have hfits := h.fits p
  unfold Fits at hfits
  rw [if_pos hp] at hfits
  unfold others tables
  rw [← hfits.1, update_eq_self]

theorem unalloc_ok (pr : Proc) (h : Inv kend all text t) (hp : (t.procs p).life = .unused)
    (hkept : Kept kend all s (tables t) (pr.trapframe.toList++inHand t)) (hpt : pr.pagetable = none)
    (hspares : ∀ a, a ∉ t.vm.free → a ∉ s.free ∧ pr.trapframe ≠ some a ∧ s.mem a = t.vm.mem a) :
    ∃ t', freeproc kend p (setProc p pr { t with vm := s }) = .ok t' ∧ Inv kend all text t' ∧
      Spares t.vm t'.vm := by
  have hbased : Based kend all (setProc p pr { t with vm := s }) := by
    apply based_setProc pr h hp
    · rw [hpt]
      exact hkept
    · intro root hroot
      rw [hpt] at hroot
      cases hroot
  have hnone : ∀ {P : Word → Prop} root,
      ((setProc p pr { t with vm := s }).procs p).pagetable = some root → P root := by
    intro P root hroot
    simp only [setProc, update_self, hpt] at hroot
    cases hroot
  obtain ⟨s',hok,hbased',hframe⟩ := @freeproc_ok kend text all _ p hbased hnone
  rw [setProc_idem] at hok hbased'
  have hspared : Spares t.vm s' := by
    intro a ha
    obtain ⟨hused₁,hne,hmem₁⟩ := hspares a ha
    obtain ⟨hused₂,hmem₂⟩ := hframe a hused₁ (by simpa [setProc] using hne) hnone
    exact ⟨hused₂,hmem₂.trans hmem₁⟩
  refine ⟨_,hok,⟨hbased',fits_setProc (t := t) (fun q _ => h.fits q) ?_ (fits_unused s')⟩,hspared⟩
  rw [others_unused h hp]
  exact hspared.same h.based.kept

theorem allocproc_ok (h : Inv kend all text t) :
    ∃ np t', allocproc kend text t = .ok (np,t') ∧ Inv kend all text t' ∧
      (np = none → Spares t.vm t'.vm) ∧
      ∀ q, np = some q → (t.procs q).life = .unused ∧ (t'.procs q).life = .live ∧
        (t'.procs q).sz = 0#64 ∧
        (∀ r, r ≠ q → t'.procs r = t.procs r) ∧ ∃ new frame, (t'.procs q).pagetable = some new ∧
          (t'.procs q).trapframe = some frame ∧ Starts new t.vm t'.vm ∧ ∀ a, a ∉ t.vm.free →
            a ≠ frame := by
  unfold allocproc
  cases hfind : (List.finRange 64).find? (fun p => (t.procs p).life = .unused) with
  | none => exact ⟨none,t,rfl,h,fun _ => Spares.refl _,fun q hq => by cases hq⟩
  | some p =>
    have hp : (t.procs p).life = .unused := by simpa using List.find?_some hfind
    have hfits := h.fits p
    unfold Fits at hfits
    rw [if_pos hp] at hfits
    dsimp only
    rcases hk : kalloc t.vm with ⟨_ | frame,s₁⟩
    · obtain rfl := kalloc_none hk
      obtain ⟨t',hok,hinv,hspares⟩ := unalloc_ok { t.procs p with life := .live, trapframe := none }
        h hp h.based.kept hfits.1 (fun a ha => ⟨ha,by simp,rfl⟩)
      exact ⟨none,t',by simp only [hok, bind, Except.bind],hinv,fun _ =>
        hspares,fun q hq => by cases hq⟩
    · obtain ⟨hkept₁,-⟩ := h.based.kept.kalloc_some hk
      have hspares₁ := kalloc_spares hk
      rcases procPagetable_ok text frame hkept₁ with
        ⟨s₂,hok₂,hkept₂,hspares₂⟩ | ⟨root,s₂,hok₂,hkept₂,hfresh,hstarts₂,hspace₂⟩
      · obtain ⟨t',hok,hinv,hspares⟩ := unalloc_ok
          { t.procs p with life := .live, trapframe := some frame, pagetable := none }
          h hp hkept₂ rfl (by
            intro a ha
            obtain ⟨hused₁,hne,hmem₁⟩ := hspares₁ a ha
            obtain ⟨hused₂,hmem₂⟩ := hspares₂ a hused₁
            exact ⟨hused₂,fun heq => hne (Option.some.inj heq).symm,hmem₂.trans hmem₁⟩)
        exact ⟨none,t',by simp only [hok₂, hok, bind, Except.bind],hinv,fun _ =>
          hspares,fun q hq => by cases hq⟩
      · have hbased := based_setProc
          { t.procs p with life := .live, trapframe := some frame, pagetable := some root }
          h hp hkept₂ (fun r hr => by cases hr; exact hfresh)
        have hstarts : Starts root t.vm s₂ := by
          intro a ha
          obtain ⟨hused₁,-,hmem₁⟩ := hspares₁ a ha
          obtain ⟨haway,hmem₂⟩ := hstarts₂ a hused₁
          exact ⟨haway,hmem₂.trans hmem₁⟩
        refine ⟨some p,_,by simp only [hok₂, bind, Except.bind],⟨hbased,?_⟩,fun hnp =>
          (by cases hnp),?_⟩
        · refine fits_setProc (fun q _ => h.fits q) ?_ ?_
          · rw [others_unused h hp]
            exact hstarts.same h.based.kept
          · refine ⟨root,frame,rfl,rfl,?_⟩
            rw [hfits.2.2]
            exact hspace₂
        · intro q hq
          cases hq
          refine ⟨hp,by simp [setProc],by simp [setProc, hfits.2.2],fun r hr => by
            simp [setProc, hr],root,frame,
            by simp [setProc],by simp [setProc],hstarts,fun a ha => (hspares₁ a ha).2.1⟩

end GreenOS.SpaceSteps
