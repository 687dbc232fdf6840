import GreenOS.CopyStrings
import GreenOS.SpaceRuns

/-!
# Copies in every state of the system

The copies with their bytes are the copies of the system's steps, so what they
do can be said for every state that the system reaches: `copyout` and `copyin`
are exact and stay within the pages of the process, and `copyinstr` agrees with
`copyin` except where a string runs into a page that is not mapped yet.
-/

namespace GreenOS.CopyRuns
open RadixTree PageTable PageTree PageMap PageOwners PageMoves PageFrames UserGrowth UserCopies
open PageBytes CopyBytes CopyStrings AddressSpaces OptionTable SpaceSteps SpaceRuns StepRun
open UserMemory hiding copyin copyinLoop copyout copyoutLoop copyinstr copyinstrLoop

section Refinement
variable {kend : Word} {all : Set Word} {s s' : Vm} {roots hand : List Word} {root psz : Word}

theorem copyinLoop_refines {proot : Word} {r : ℤ} {bytes : List UInt8} (n : ℕ) (srcva len : Word)
    (hok : copyinLoop kend proot psz root n srcva len s = .ok (r,bytes,s')) :
    UserMemory.copyinLoop kend proot psz root n srcva len s = .ok (r,s') := by
  induction n generalizing srcva len s bytes with
  | zero =>
    cases hok
    rfl
  | succ n ih =>
    unfold copyinLoop at hok
    unfold UserMemory.copyinLoop
    by_cases hlen : 0#64 < len
    · simp only [hlen, if_true, bind, Except.bind] at hok ⊢
      cases hpage : userPage kend proot psz root (pgrounddown srcva) s with
      | error e =>
        rw [hpage] at hok
        cases hok
      | ok x =>
        obtain ⟨pa,s₁⟩ := x
        simp only [hpage] at hok ⊢
        by_cases hpa : pa = 0#64
        · rw [if_pos hpa] at hok ⊢
          cases hok
          rfl
        · rw [if_neg hpa] at hok ⊢
          cases hrest : copyinLoop kend proot psz root n (pgrounddown srcva+pgsize)
            (len-chunk srcva len) s₁ with
          | error e =>
            rw [hrest] at hok
            cases hok
          | ok y =>
            obtain ⟨r',rest,s₂⟩ := y
            simp only [hrest, Except.ok.injEq, Prod.mk.injEq] at hok
            obtain ⟨rfl,-,rfl⟩ := hok
            exact ih _ _ hrest
    · rw [if_neg hlen] at hok ⊢
      cases hok
      rfl

theorem page_kept {s₂ : Vm} {pte : Word} {a b k : ℕ} {src : ℕ → UInt8} {l : List Word}
    (ha : a < 2^38-8192)
    (hroot : root ∈ roots) (hserved : Served roots root psz l s₂ s')
    (hpte : translate s₂ root (pageOf a) = some pte)
    (hb : a/4096*4096+4096 ≤ b)
    (hbytes : ∀ x < 2^38-8192, userByte s' root x = UserBytes.store (userByte s₂ root) b k src x) :
    s'.mem (pte2pa pte) = s₂.mem (pte2pa pte) := by
  have huser := userVa_pageOf ha
  have hpte' := hserved.user hroot huser.1 hpte
  apply page_ext
  intro j hj
  have hpage : pageOf (a/4096*4096+j) = pageOf a := by
    rw [pageOf, pageOf, show (a/4096*4096+j)/4096*4096 = a/4096*4096 by omega]
  have hmod : (a/4096*4096+j)%4096 = j := by omega
  have hbyte := hbytes (a/4096*4096+j) (by omega)
  rw [UserBytes.store, if_neg (by omega), userByte_some (by rw [hpage]; exact hpte'),
    userByte_some (by rw [hpage]; exact hpte), hmod] at hbyte
  exact hbyte

theorem copyoutLoop_refines {r : ℤ} (hkend : 0#64 < kend) (hroot : root ∈ roots)
    (hsz : psz.toNat ≤ 2^38-8192)
    (n : ℕ) (dstva len : Word) (src : ℕ → UInt8) (h : Kept kend all s roots hand)
    (hs : Shielded s root)
    (hfuel : dstva.toNat%4096+len.toNat ≤ n*4096)
    (hok : copyoutLoop kend root psz root n dstva len src s = .ok (r,s')) :
    UserMemory.copyoutLoop kend root psz root s'.mem n dstva len s = .ok (r,s') := by
  induction n generalizing dstva len src s with
  | zero =>
    cases hok
    rfl
  | succ n ih =>
    unfold copyoutLoop at hok
    unfold UserMemory.copyoutLoop
    by_cases hlen : 0#64 < len
    · simp only [hlen, if_true] at hok ⊢
      by_cases hmax : maxva ≤ pgrounddown dstva
      · rw [if_pos hmax] at hok ⊢
        exact hok
      · rw [if_neg hmax] at hok ⊢
        have haligned : (pgrounddown dstva).toNat%4096 = 0 := by
          rw [toNat_pgrounddown]
          omega
        rcases userPage_exact hkend h hroot hsz hs haligned with
          ⟨s₁,hpage,-,-,-,-⟩ | ⟨pte,s₁,hpage,hpa,hopen⟩
        · simp only [hpage, bind, Except.bind] at hok ⊢
          exact hok
        · obtain ⟨t,ht,hentry,-⟩ := translate_eq_some.mp hopen.here
          simp only [hpage, bind, Except.bind, hpa, if_false, walk_look hopen.inside.1.2,
            lookup_eq.mpr ⟨ht,rfl⟩,
            hentry] at hok ⊢
          by_cases hw : pte&&&pteW = 0#64
          · rw [if_pos hw] at hok ⊢
            exact hok
          · rw [if_neg hw] at hok ⊢
            have hpos : 0 < len.toNat := BitVec.lt_def.mp hlen
            have hrest := toNat_rest dstva len
            rw [toNat_offset, toNat_chunk, pgrounddown_eq] at hok
            rw [pgrounddown_eq] at hopen
            have huser := userVa_iff.mp hopen.inside
            rw [toNat_pageOf dstva.isLt] at huser
            have hnext := toNat_nextPage (a := dstva) (by omega)
            obtain ⟨hkept₂,hserved₂,-,-⟩ := hopen.write src hpos (by omega) h hroot hw
            have hs₂ := hserved₂.shielded hroot hsz hs
            have hfuel₂ : (pageOf dstva.toNat+pgsize).toNat%4096+(len-chunk dstva len).toNat
              ≤ n*4096 := by
              omega
            -- the page just written is as it is in the end
            obtain ⟨r',k,s'',hok',-,hserved',-,hbytes⟩ := copyoutLoop_exact hkend hroot hsz n _ _
              (fun i => src (min (4096-dstva.toNat%4096) len.toNat+i)) hkept₂ hs₂ hfuel₂
            obtain ⟨rfl,rfl⟩ := Prod.mk.inj (Except.ok.inj (hok'.symm.trans hok))
            have hhere :=
              ((store_user hopen.kept hroot ⟨hopen.inside,pte,hopen.here,rfl⟩ (spliceBytes
              (s₁.mem (pte2pa pte)) (dstva.toNat%4096) (min (4096-dstva.toNat%4096) len.toNat)
                src)).2 root hroot _
              hopen.inside.1).trans hopen.here
            have hkeep := page_kept (by omega) hroot hserved' hhere (by omega) hbytes
            rw [store_self] at hkeep
            have hchunk : (if len < pgsize-(dstva-pageOf dstva.toNat) then len else
                pgsize-(dstva-pageOf dstva.toNat)) = chunk dstva len := by
              simp only [chunk, pgrounddown_eq]
            rw [hkeep, pgrounddown_eq, hchunk]
            exact ih _ _ _ hkept₂ hs₂ hfuel₂ hok'
    · rw [if_neg hlen] at hok ⊢
      exact hok

end Refinement

section Results
variable {kend text : Word} {all : Set Word} {t : Sys} {p : Slot} {root : Word}

/-- A page that a copy has written was free, a table of the page table or writable by the user;
what the page tables map stays, and pages of the range that were missing may be added. -/
structure Confined (t : Sys) (p : Slot) (root : Word) (missing : List Word) (s' : Vm) : Prop where
  pages : ∀ b, s'.mem b ≠ t.vm.mem b → b ∈ t.vm.free ∨
    (∃ path : List Index, path.length ≤ 2 ∧ tableAt child t.vm.mem root path = some b) ∨
    ∃ va pte, UserVa va ∧ translate t.vm root va = some pte ∧ pte&&&pteU ≠ 0#64 ∧
      pte&&&pteW ≠ 0#64 ∧ pte2pa pte = b
  maps : ∀ q root' va, (t.procs q).pagetable = some root' → IsVa va →
    translate s' root' va = translate t.vm root' va ∨ q = p ∧ va ∈ missing

theorem confined_of_served {len : ℕ} {a : ℕ} {s' : Vm} (h : Inv kend all text t)
    (hroot : (t.procs p).pagetable = some root)
    (hserved : Served (tables t) root (t.procs p).sz (touched a len) t.vm s') :
    Confined t p root (absent t.vm root (t.procs p).sz a len) s' := by
  constructor
  · intro b hne
    by_contra hnot
    rw [not_or, not_or] at hnot
    obtain ⟨hused,hplain,hmapped⟩ := hnot
    refine hne (hserved.confined b ⟨⟨hused,fun path hlen htable => hplain ⟨path,hlen,htable⟩⟩,?_⟩).2
    exact fun va pte huser hpte hu hw hb => hmapped ⟨va,pte,huser,hpte,hu,hw,hb⟩
  · intro q root' va hroot' hva
    rcases hserved.maps root' (mem_tables hroot') va hva with hsame | ⟨rfl,hmem,hlazy⟩
    · exact .inl hsame
    · exact .inr ⟨entries_inj h.based.nodup hroot' hroot,List.mem_filter.mpr ⟨hmem,
        decide_eq_true hlazy⟩⟩

/-- `copyout` and `copyin` are exact and confined in every state that can be reached. -/
theorem copies_exact {vm : Vm} {es : List Event} {s : Sys} (htext : text < kend)
    (hnodup : vm.free.Nodup) (hram : ∀ a ∈ vm.free, Freeable kend a)
    (hboot : boot kend text vm = some s)
    (hrun : run (step kend text) es s = some t) (hlive : (t.procs p).life = .live) (a len : Word) :
    ∃ root, (t.procs p).pagetable = some root ∧
      (∀ src, ∃ r s', copyout kend root (t.procs p).sz root a len src t.vm = .ok (r,s') ∧
        (r = 0 ∨ r = -1) ∧
        (r = 0 ↔ Possible t.vm root (t.procs p).sz true a.toNat len.toNat) ∧
        (r = 0 → ∀ x < trapframe.toNat, userByte s' root x =
          if a.toNat ≤ x ∧ x < a.toNat+len.toNat then src (x-a.toNat) else userByte t.vm root x) ∧
        Confined t p root (absent t.vm root (t.procs p).sz a.toNat len.toNat) s') ∧
      ∃ r bytes s', copyin kend root (t.procs p).sz root a len t.vm = .ok (r,bytes,s') ∧
        (r = 0 ∨ r = -1) ∧
        (r = 0 ↔ Possible t.vm root (t.procs p).sz false a.toNat len.toNat) ∧
        (r = 0 → bytes = (List.range len.toNat).map fun i => userByte t.vm root (a.toNat+i)) ∧
        Confined t p root (absent t.vm root (t.procs p).sz a.toNat len.toNat) s' ∧
        ∀ i < bytes.length, ∃ pte, translate s' root (pageOf (a.toNat+i)) = some pte ∧
          pte&&&pteU ≠ 0#64 ∧
          bytes[i]? = some (pageByte (s'.mem (pte2pa pte)) ((a.toNat+i)%4096)) := by
  have hkend := kend_pos htext
  have hinv := run_inv hkend hnodup hram hboot hrun
  obtain ⟨root,frame,hroot,-,hspace⟩ := hinv.process (p := p) (by rw [hlive]; decide)
  refine ⟨root,hroot,?_,?_⟩
  · intro src
    obtain ⟨r,k,s',hok,-,hserved,hr,hbytes⟩ :=
      copyout_exact hkend (mem_tables hroot) hspace.size a len src
      hinv.based.kept hspace.shielded
    refine ⟨r,s',hok,?_,?_,?_,confined_of_served hinv hroot hserved⟩
    · exact hr.imp (fun hx => hx.2.1) (fun hx => hx.2.1)
    · rcases hr with ⟨hposs,hr,-⟩ | ⟨hnot,hr,-⟩
      · exact ⟨fun _ => hposs,fun _ => hr⟩
      · exact ⟨fun hzero => by omega,fun hposs => absurd hposs hnot⟩
    · intro hzero x hx
      rw [toNat_trapframe] at hx
      obtain ⟨-,-,rfl⟩ := hr.resolve_right (fun hx => by omega)
      exact hbytes x hx
  · obtain ⟨r,k,s',hok,-,hserved,hr,hsame,hread⟩ :=
      copyin_exact hkend (mem_tables hroot) hspace.size a len
      hinv.based.kept hspace.shielded
    refine ⟨r,_,s',hok,?_,?_,?_,confined_of_served hinv hroot hserved,?_⟩
    · exact hr.imp (fun hx => hx.2.1) (fun hx => hx.2.1)
    · rcases hr with ⟨hposs,hr,-⟩ | ⟨hnot,hr,-⟩
      · exact ⟨fun _ => hposs,fun _ => hr⟩
      · exact ⟨fun hzero => by omega,fun hposs => absurd hposs hnot⟩
    · intro hzero
      obtain ⟨-,-,rfl⟩ := hr.resolve_right (fun hx => by omega)
      rfl
    · intro i hi
      rw [List.length_map, List.length_range] at hi
      obtain ⟨hlt,pte,hpte,hu⟩ := hread i hi
      refine ⟨pte,hpte,hu,?_⟩
      rw [← userByte_some hpte, hsame _ hlt]
      simp [hi]

/-- In the life of the first process its page 0 is still missing, its page table has all tables
for it and there is memory; its next page is mapped. -/
theorem someLife_missing : ∃ s t root table s',
    boot 0x80030000#64 0x80001000#64 somePages = some s ∧
    run (step 0x80030000#64 0x80001000#64) someLife s = some t ∧ (t.procs 0).life = .live ∧
    (t.procs 0).pagetable = some root ∧ Lazy t.vm root (t.procs 0).sz 0#64 ∧
    ¬ Lazy t.vm root (t.procs 0).sz 4096#64 ∧ 3 ≤ t.vm.free.length ∧
    copyout 0x80030000#64 root (t.procs 0).sz root 0#64 1#64 (fun _ => 7) t.vm = .ok (0,s') ∧
    tableAt child t.vm.mem root [0,0] = some table ∧ tableAt child s'.mem root [0,0] = some table ∧
    s'.mem table 0 ≠ t.vm.mem table 0 := by
  have hsome : ((boot 0x80030000#64 0x80001000#64 somePages).bind fun s =>
      (run (step 0x80030000#64 0x80001000#64) someLife s).bind fun t =>
        (t.procs 0).pagetable.bind fun root =>
          (copyout 0x80030000#64 root (t.procs 0).sz root 0#64 1#64 (fun _ => 7) t.vm).toOption.bind
            fun x =>
            (tableAt child t.vm.mem root [0,0]).filter fun table =>
              (t.procs 0).life = .live ∧ Lazy t.vm root (t.procs 0).sz 0#64 ∧
              ¬ Lazy t.vm root (t.procs 0).sz 4096#64 ∧ 3 ≤ t.vm.free.length ∧ x.1 = 0 ∧
              tableAt child x.2.mem root [0,0] = some table ∧ x.2.mem table 0 ≠
                t.vm.mem table 0).isSome = true := by
    decide +kernel
  obtain ⟨table,hsome⟩ := Option.isSome_iff_exists.mp hsome
  obtain ⟨s,hs,hsome⟩ := Option.bind_eq_some_iff.mp hsome
  obtain ⟨t,ht,hsome⟩ := Option.bind_eq_some_iff.mp hsome
  obtain ⟨root,hroot,hsome⟩ := Option.bind_eq_some_iff.mp hsome
  obtain ⟨⟨r,s'⟩,hcopy,hsome⟩ := Option.bind_eq_some_iff.mp hsome
  obtain ⟨htable,hsome⟩ := Option.filter_eq_some_iff.mp hsome
  rw [decide_eq_true_eq] at hsome
  obtain ⟨hlive,hlazy,hmapped,hroom,rfl,htable',hne⟩ := hsome
  refine ⟨s,t,root,table,s',hs,ht,hlive,hroot,hlazy,hmapped,hroom,?_,htable,htable',hne⟩
  cases hok : copyout 0x80030000#64 root (t.procs 0).sz root 0#64 1#64 (fun _ => 7) t.vm with
  | error e =>
    rw [hok] at hcopy
    cases hcopy
  | ok y =>
    rw [hok] at hcopy
    cases hcopy
    rfl

theorem table_unmapped {s : Vm} {roots hand : List Word} {table : Word} {path : List Index}
    (h : Kept kend all s roots hand) (hroot : root ∈ roots) (hs : Shielded s root)
    (hlen : path.length ≤ 2)
    (htable : tableAt child s.mem root path = some table) (va pte : Word) (hva : IsVa va)
    (hpte : translate s root va = some pte) (hu : pte&&&pteU ≠ 0#64) : pte2pa pte ≠ table := by
  intro heq
  have huser : UserVa va := by
    by_contra hother
    exact hu (hs va pte hva hother hpte)
  cases h.one (.leaf root va) (.table root path) table ⟨hroot,huser,pte,hpte,heq⟩
    ⟨hroot,hlen,htable⟩

/-- A `copyout` of one byte to the missing page succeeds and writes a page that the user cannot
reach: the table that now maps the page. -/
theorem someLife_table_written : ∃ s t root s' b,
    boot 0x80030000#64 0x80001000#64 somePages = some s ∧
    run (step 0x80030000#64 0x80001000#64) someLife s = some t ∧ (t.procs 0).life = .live ∧
    (t.procs 0).pagetable = some root ∧
    copyout 0x80030000#64 root (t.procs 0).sz root 0#64 1#64 (fun _ => 7) t.vm = .ok (0,s') ∧
    (∀ va pte, IsVa va → translate t.vm root va = some pte ∨ translate s' root va = some pte →
      pte&&&pteU ≠ 0#64 → pte&&&pteW ≠ 0#64 → pte2pa pte ≠ b) ∧ s'.mem b ≠ t.vm.mem b := by
  obtain ⟨s,t,root,table,s',hs,ht,hlive,hroot,-,-,-,hcopy,htable,htable',hne⟩ := someLife_missing
  have hkend : 0#64 < 0x80030000#64 := by decide
  have hinv := run_inv hkend somePages_free.1 somePages_free.2 hs ht
  obtain ⟨frame,-,hspace⟩ := hinv.space hroot
  obtain ⟨r,k,s'',hok,hkept,hserved,-,-⟩ :=
    copyout_exact hkend (mem_tables hroot) hspace.size 0#64 1#64
    (fun _ => 7) hinv.based.kept hspace.shielded
  obtain ⟨-,rfl⟩ := Prod.mk.inj (Except.ok.inj (hok.symm.trans hcopy))
  refine ⟨s,t,root,s'',table,hs,ht,hlive,hroot,hcopy,?_,fun heq => hne (congrFun heq 0)⟩
  rintro va pte hva (hpte | hpte) hu -
  · exact table_unmapped hinv.based.kept (mem_tables hroot) hspace.shielded
      (by simp) htable va pte hva hpte hu
  · exact table_unmapped hkept (mem_tables hroot)
      (hserved.shielded (mem_tables hroot) hspace.size hspace.shielded)
      (by simp) htable' va pte hva hpte hu

theorem someLife_copies : ∃ (t : Sys) (root : Word) (r : ℤ) (s' : Vm),
    (t.procs 0).pagetable = some root ∧
    copyout 0x80030000#64 root (t.procs 0).sz root 0#64 1#64 (fun _ => 7) t.vm = .ok
      (r,s') ∧ r = 0 ∧
    userByte s' root 0 = 7 := by
  obtain ⟨s,t,root,table,s',hs,ht,hlive,hroot,-,-,-,hcopy,-,-,-⟩ := someLife_missing
  obtain ⟨root',hroot',hout,-⟩ :=
    copies_exact (p := 0) (by decide) somePages_free.1 somePages_free.2 hs ht hlive
    0#64 1#64
  cases hroot.symm.trans hroot'
  obtain ⟨r,s'',hok,-,-,hbytes,-⟩ := hout (fun _ => 7)
  obtain ⟨rfl,rfl⟩ := Prod.mk.inj (Except.ok.inj (hok.symm.trans hcopy))
  exact ⟨t,root,0,s'',hroot,hok,rfl,hbytes rfl 0 (by decide)⟩

/-- In every state that can be reached, `copyout` and `copyin` with their bytes are steps of the
system. -/
theorem copies_are_steps {vm : Vm} {es : List Event} {s : Sys} (htext : text < kend)
    (hnodup : vm.free.Nodup) (hram : ∀ a ∈ vm.free, Freeable kend a)
    (hboot : boot kend text vm = some s)
    (hrun : run (step kend text) es s = some t) (hlive : (t.procs p).life = .live) (a len : Word)
    (src : ℕ → UInt8) :
    ∃ root, (t.procs p).pagetable = some root ∧
      (∃ r s', copyout kend root (t.procs p).sz root a len src t.vm = .ok (r,s') ∧
        step kend text (.call p (.copyout a len s'.mem)) t = some { t with vm := s' }) ∧
      ∃ r bytes s', copyin kend root (t.procs p).sz root a len t.vm = .ok (r,bytes,s') ∧
        step kend text (.call p (.copyin a len)) t = some { t with vm := s' } := by
  have hkend := kend_pos htext
  have hinv := run_inv hkend hnodup hram hboot hrun
  obtain ⟨root,frame,hroot,hframe,hspace⟩ := hinv.process (p := p) (by rw [hlive]; decide)
  have hstep : ∀ c s', call kend text p root frame t c = .ok { t with vm := s' } →
      step kend text (.call p c) t = some { t with vm := s' } := by
    intro c s' hc
    simp [step, perform, hlive, hroot, hframe, hc, Except.toOption]
  refine ⟨root,hroot,?_,?_⟩
  · obtain ⟨r,-,s',hok,-⟩ := copyout_exact hkend (mem_tables hroot) hspace.size a len src
      hinv.based.kept
      hspace.shielded
    have hrefines := copyoutLoop_refines hkend (mem_tables hroot) hspace.size _ a len src
      hinv.based.kept
      hspace.shielded (rounds_suffice a len) hok
    exact ⟨r,s',hok,
      hstep _ _ (by simp only [call, UserMemory.copyout, hrefines, bind, Except.bind])⟩
  · obtain ⟨r,k,s',hok,-⟩ := copyin_exact hkend (mem_tables hroot) hspace.size a len hinv.based.kept
      hspace.shielded
    have hrefines := copyinLoop_refines _ a len hok
    exact ⟨r,_,s',hok,
      hstep _ _ (by simp only [call, UserMemory.copyin, hrefines, bind, Except.bind])⟩

theorem someLife_copy_steps : ∃ (t : Sys) (s' : Vm), step 0x80030000#64 0x80001000#64
    (.call 0 (.copyout 0#64 1#64 s'.mem)) t = some { t with vm := s' } := by
  obtain ⟨s,t,-,-,-,hs,ht,hlive,-⟩ := someLife_missing
  obtain ⟨-,-,⟨-,s',-,hstep⟩,-⟩ :=
    copies_are_steps (by decide) somePages_free.1 somePages_free.2 hs ht hlive
    0#64 1#64 (fun _ => 7)
  exact ⟨t,s',hstep⟩

/-- `copyinstr` agrees with `copyin` on a range of bytes: it succeeds with a string exactly when
`copyin` finds it, stores it with its nul and at most `max` bytes, and returns -1 otherwise. -/
def Agrees (kend psz root srcva max : Word) (s : Vm) : Prop :=
  (∀ l, copyinstr root srcva max s = .ok (0,l++[0]) ↔ IsString kend psz root srcva max s l) ∧
  ∃ r bytes, copyinstr root srcva max s = .ok (r,bytes) ∧ bytes.length ≤ max.toNat ∧
    (r = 0 ∧ (∃ l, 0 ∉ l ∧ bytes = l++[0]) ∨ r = -1)

/-- In every state that can be reached and has memory for one page more, `copyinstr` agrees with
`copyin` exactly when the string does not run into a page that is not mapped yet. -/
theorem strings_agree {vm : Vm} {es : List Event} {s : Sys} (htext : text < kend)
    (hnodup : vm.free.Nodup) (hram : ∀ a ∈ vm.free, Freeable kend a)
    (hboot : boot kend text vm = some s)
    (hrun : run (step kend text) es s = some t) (hroot : (t.procs p).pagetable = some root)
    (hmem : ∀ va, Lazy t.vm root (t.procs p).sz va → needed t.vm root [va] ≤ t.vm.free.length)
    (srcva max : Word) :
    Agrees kend (t.procs p).sz root srcva max t.vm ↔
      ¬ RunsOut t.vm root (t.procs p).sz srcva.toNat max.toNat := by
  have hkend := kend_pos htext
  have hinv := run_inv hkend hnodup hram hboot hrun
  obtain ⟨frame,-,hspace⟩ := hinv.space hroot
  have hagree := copyinstr_agrees hkend (mem_tables hroot) hspace.size hinv.based.kept
    hspace.shielded srcva max hmem
  obtain ⟨r,k,hok,hk,-,hr⟩ :=
    copyinstr_exact hkend (mem_tables hroot) hinv.based.kept hspace.shielded srcva max
  refine Iff.trans (and_iff_left ⟨r,_,hok,by simpa using hk,?_⟩) hagree
  rcases hr with ⟨hr,j,rfl,hnul,hne⟩ | ⟨hr,-,-⟩
  · refine .inl ⟨hr,(List.range j).map fun i => userByte t.vm root (srcva.toNat+i),?_,
      range_append_nul (fun i => userByte t.vm root (srcva.toNat+i)) hnul⟩
    intro hmem
    obtain ⟨i,hi,hzero⟩ := List.mem_map.mp hmem
    exact hne i (List.mem_range.mp hi) hzero
  · exact .inr hr

theorem needed_le_three (s : Vm) (root va : Word) : needed s root [va] ≤ 3 := by
  have : (missing s root va).length ≤ 2 := List.length_filter_le ..
  rw [needed_single]
  omega

/-- In the missing page `copyin` finds the empty string and `copyinstr` nothing. -/
theorem someLife_disagree : ∃ s t root, boot 0x80030000#64 0x80001000#64 somePages = some s ∧
    run (step 0x80030000#64 0x80001000#64) someLife s = some t ∧ (t.procs 0).pagetable = some root ∧
    (∀ va, Lazy t.vm root (t.procs 0).sz va → needed t.vm root [va] ≤ t.vm.free.length) ∧
    copyinstr root 0#64 1#64 t.vm = .ok (-1,[]) ∧ IsString 0x80030000#64 (t.procs 0).sz root 0#64
      1#64 t.vm [] := by
  obtain ⟨s,t,root,table,s',hs,ht,hlive,hroot,hlazy,-,hroom,-,-,-,-⟩ := someLife_missing
  have hkend : 0#64 < 0x80030000#64 := by decide
  have hmem : ∀ va, Lazy t.vm root (t.procs 0).sz va → needed t.vm root [va] ≤ t.vm.free.length :=
    fun va _ => (needed_le_three t.vm root va).trans hroom
  have hinv := run_inv hkend somePages_free.1 somePages_free.2 hs ht
  obtain ⟨frame,-,hspace⟩ := hinv.space hroot
  have hpage : pageOf 0 = 0#64 := by decide
  have hnone : ¬ Mapped t.vm root 0 := fun hmapped => hmapped.not_lazy (hpage.symm ▸ hlazy)
  refine ⟨s,t,root,hs,ht,hroot,hmem,?_,?_⟩
  · obtain ⟨r,k,hok,-,hmapped,hr⟩ :=
      copyinstr_exact hkend (mem_tables hroot) hinv.based.kept hspace.shielded
      0#64 1#64
    obtain rfl : k = 0 := by
      by_contra hk
      exact hnone (hmapped 0 (by omega))
    rcases hr with ⟨-,j,hj,-,-⟩ | ⟨rfl,-,-⟩
    · cases hj
    · exact hok
  · rw [isString_iff hkend (mem_tables hroot) hspace.size hinv.based.kept hspace.shielded]
    refine ⟨0,by decide,possible_last nofun (by decide) (hpage.symm ▸ hlazy) ?_,rfl,?_,nofun⟩
    · exact (needed_le_three t.vm root _).trans hroom
    · rw [userByte, lazy_missing (hpage.symm ▸ hlazy) (by decide)]

theorem someLife_strings : ∃ (t : Sys) (root : Word),
    Agrees 0x80030000#64 (t.procs 0).sz root 4096#64 1#64 t.vm := by
  obtain ⟨s,t,root,table,s',hs,ht,hlive,hroot,-,hmapped,hroom,-,-,-,-⟩ := someLife_missing
  refine ⟨t,root,(strings_agree (by decide) somePages_free.1 somePages_free.2 hs ht hroot
    (fun va _ => (needed_le_three t.vm root va).trans hroom) 4096#64 1#64).mpr ?_⟩
  rintro ⟨i,hi,hlazy,-⟩
  obtain rfl : i = 0 := by simpa using hi
  exact hmapped hlazy

end Results

end GreenOS.CopyRuns
