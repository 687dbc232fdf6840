import GreenOS.PageBytes
import GreenOS.ProcessSpace
import GreenOS.UserBytes

/-!
# The bytes that `copyout` and `copyin` move

The copy loops of `vm.c` with the bytes they move. A copy goes page by page; a
page below the size of the process that is missing is mapped first and reads as
zeros.
-/

namespace GreenOS.CopyBytes
open RadixTree PageTable PageTree PageMap UserMemory PageOwners PageMoves PageFrames
  UserGrowth UserCopies
open PageBytes

def chunk (a len : Word) : Word :=
  let n := pgsize-(a-pgrounddown a)
  if len < n then len else n

section
variable (kend proot psz root : Word)

def copyoutLoop : ℕ → Word → Word → (ℕ → UInt8) → Vm → Except String (ℤ × Vm)
  | 0, _, _, _, s => .ok (0,s)
  | n+1, dstva, len, src, s =>
    if 0#64 < len then
      let va := pgrounddown dstva
      if maxva ≤ va then .ok (-1,s)
      else do
        let (pa,s) ← userPage kend proot psz root va s
        if pa = 0#64 then .ok (-1,s)
        else do
          let (pte,s) ← walk root va false s
          match pte with
          | none => .error "null pointer"
          | some (t,i) =>
            if s.mem t i&&&pteW = 0#64 then .ok (-1,s)
            else
              let k := (chunk dstva len).toNat
              let page := spliceBytes (s.mem pa) (dstva-va).toNat k src
              copyoutLoop n (va+pgsize) (len-chunk dstva len) (fun i => src (k+i)) (store pa page s)
    else .ok (0,s)

def copyout (dstva len : Word) (src : ℕ → UInt8) (s : Vm) : Except String (ℤ × Vm) :=
  copyoutLoop kend proot psz root ((len/pgsize).toNat+2) dstva len src s

/-- The loop of `copyin`, with the bytes that have been moved to `dst` when it ends. -/
def copyinLoop : ℕ → Word → Word → Vm → Except String (ℤ × List UInt8 × Vm)
  | 0, _, _, s => .ok (0,[],s)
  | n+1, srcva, len, s =>
    if 0#64 < len then do
      let va := pgrounddown srcva
      let (pa,s) ← userPage kend proot psz root va s
      if pa = 0#64 then .ok (-1,[],s)
      else
        let bytes := (List.range (chunk srcva len).toNat).map fun i =>
          pageByte (s.mem pa) ((srcva-va).toNat+i)
        let (r,rest,s) ← copyinLoop n (va+pgsize) (len-chunk srcva len) s
        .ok (r,bytes++rest,s)
    else .ok (0,[],s)

def copyin (srcva len : Word) (s : Vm) : Except String (ℤ × List UInt8 × Vm) :=
  copyinLoop kend proot psz root ((len/pgsize).toNat+2) srcva len s

end

section Ranges

def pageOf (x : ℕ) : Word := BitVec.ofNat 64 (x/4096*4096)

theorem toNat_pageOf {x : ℕ} (h : x < 2^64) : (pageOf x).toNat = x/4096*4096 := by
  rw [pageOf, BitVec.toNat_ofNat]
  omega

theorem pgrounddown_eq (a : Word) : pgrounddown a = pageOf a.toNat := by
  apply BitVec.eq_of_toNat_eq
  rw [toNat_pageOf a.isLt, toNat_pgrounddown]

theorem toNat_offset (a : Word) : (a-pgrounddown a).toNat = a.toNat%4096 := by
  have hdown := toNat_pgrounddown a
  have := a.isLt
  rw [BitVec.toNat_sub]
  omega

theorem toNat_chunk (a len : Word) : (chunk a len).toNat = min (4096-a.toNat%4096) len.toNat := by
  have hroom : (pgsize-(a-pgrounddown a)).toNat = 4096-a.toNat%4096 := by
    rw [BitVec.toNat_sub, toNat_offset, toNat_pgsize]
    omega
  simp only [chunk]
  split_ifs with hlt
  · rw [BitVec.lt_def, hroom] at hlt
    omega
  · rw [BitVec.lt_def, hroom] at hlt
    omega

theorem toNat_rest (a len : Word) :
    (len-chunk a len).toNat = len.toNat-min (4096-a.toNat%4096) len.toNat := by
  rw [BitVec.toNat_sub_of_le, toNat_chunk]
  rw [BitVec.le_def, toNat_chunk]
  omega

variable {a i len : ℕ}

theorem same_page (hi : i < min (4096-a%4096) len) :
    pageOf (a+i) = pageOf a ∧ (a+i)%4096 = a%4096+i := by
  constructor
  · rw [pageOf, pageOf, show (a+i)/4096*4096 = a/4096*4096 by omega]
  · omega

theorem next_start (len : ℕ) (hi : i < len-min (4096-a%4096) len) :
    a/4096*4096+4096+i = a+(min (4096-a%4096) len+i) := by
  omega

theorem toNat_nextPage {a : Word} (h : a.toNat < 2^38) :
    (pageOf a.toNat+pgsize).toNat = a.toNat/4096*4096+4096 := by
  rw [toNat_next (by rw [toNat_pageOf a.isLt]; omega), toNat_pageOf a.isLt]

def touched (a len : ℕ) : List Word :=
  (List.range (if len = 0 then 0 else (a%4096+len+4095)/4096)).map fun i => pageOf (a+i*4096)

theorem touched_nil (a : ℕ) : touched a 0 = [] := rfl

theorem touched_cons (h : 0 < len) :
    touched a len = pageOf a::touched (a/4096*4096+4096) (len-min (4096-a%4096) len) := by
  have hcount : (if len = 0 then 0 else (a%4096+len+4095)/4096) =
      (if len-min (4096-a%4096) len = 0 then 0
        else ((a/4096*4096+4096)%4096+(len-min (4096-a%4096) len)+4095)/4096)+1 := by
    have := Nat.mod_lt a (show 0 < 4096 by decide)
    rw [if_neg h.ne']
    rcases Nat.lt_or_ge (4096-a%4096) len with hlt | hge
    · rw [min_eq_left hlt.le, if_neg (by omega)]
      omega
    · rw [min_eq_right hge, if_pos (by omega)]
      omega
  unfold touched
  rw [hcount, List.range_succ_eq_map, List.map_cons, List.map_map]
  refine List.cons_eq_cons.mpr ⟨by rw [Nat.zero_mul, Nat.add_zero],?_⟩
  apply List.map_congr_left
  intro i _
  have hpage : (a+(i+1)*4096)/4096*4096 = (a/4096*4096+4096+i*4096)/4096*4096 := by omega
  rw [Function.comp_apply, pageOf, pageOf, Nat.succ_eq_add_one, hpage]

end Ranges

section Pages
variable {kend : Word} {all : Set Word} {s s₁ s' : Vm} {roots hand : List Word}
    {root psz va pte : Word}

instance (s : Vm) (root psz va : Word) : Decidable (Lazy s root psz va) :=
  inferInstanceAs (Decidable (_ ∧ _))

def Usable (s : Vm) (root psz : Word) (w : Bool) (va : Word) : Prop :=
  (∃ pte, translate s root va = some pte ∧ pte&&&pteU ≠ 0#64 ∧ (w = true → pte&&&pteW ≠ 0#64)) ∨
    Lazy s root psz va

def Ready (s : Vm) (root psz : Word) (w : Bool) (a len : ℕ) : Prop :=
  ∀ x, a ≤ x → x < a+len → x < 2^38 ∧ Usable s root psz w (pageOf x)

def absent (s : Vm) (root psz : Word) (a len : ℕ) : List Word :=
  (touched a len).filter (fun va => Lazy s root psz va)

def userByte (s : Vm) (root : Word) (x : ℕ) : UInt8 :=
  match translate s root (pageOf x) with
  | some pte => pageByte (s.mem (pte2pa pte)) (x%4096)
  | none => 0

variable {x : ℕ} {w : Bool}

theorem userByte_some (h : translate s root (pageOf x) = some pte) :
    userByte s root x = pageByte (s.mem (pte2pa pte)) (x%4096) := by
  rw [userByte, h]

theorem userVa_pageOf (h : x < 2^38-8192) : UserVa (pageOf x) := by
  rw [userVa_iff, toNat_pageOf (by omega)]
  omega

theorem pgrounddown_page (hva : va.toNat%4096 = 0) : pgrounddown va = va := by
  apply BitVec.eq_of_toNat_eq
  rw [toNat_pgrounddown]
  omega

structure Opened (kend : Word) (all : Set Word) (roots hand : List Word)
    (root psz va pte : Word) (s s' : Vm) :
    Prop where
  kept : Kept kend all s' roots hand
  inside : UserVa va
  here : translate s' root va = some pte
  user : pte&&&pteU ≠ 0#64
  others : ∀ root' ∈ roots, ∀ va', IsVa va' → ¬ (root' = root ∧ va' = va) →
    translate s' root' va' = translate s root' va'
  how : (translate s root va = some pte ∧ s' = s) ∨
    Lazy s root psz va ∧ pte&&&pteW ≠ 0#64 ∧ Grown root va (fun _ => 0#64) (pte2pa pte) s s'

theorem flag_made {perm bit : Word} (hperm : IsPerm perm) (mem : Word)
    (hbit : (0x3ff : Word)&&&bit = bit) :
    (pa2pte mem|||perm|||pteV)&&&bit = (perm|||pteV)&&&bit := by
  rw [← pteFlags_perm hperm mem, pteFlags, BitVec.and_assoc, hbit]

theorem page_real (hkend : 0#64 < kend) (h : Kept kend all s roots hand) (hroot : root ∈ roots)
    (huser : UserVa va)
    (hpte : translate s root va = some pte) : pte2pa pte ≠ 0#64 := by
  intro hzero
  have := (h.ram (x := .leaf root va) ⟨hroot,huser,pte,hpte,hzero⟩).2.1
  exact absurd hkend (BitVec.not_lt.mpr this)

theorem userVa_of_flag (hs : Shielded s root) (hva : va.toNat%4096 = 0) (hmax : va < maxva)
    (hpte : translate s root va = some pte) (hu : pte&&&pteU ≠ 0#64) : UserVa va := by
  rw [BitVec.lt_def, toNat_maxva] at hmax
  by_contra hother
  exact hu (hs va pte (isVa_iff.mpr ⟨hva,hmax⟩) hother hpte)

theorem userPage_exact (hkend : 0#64 < kend) (h : Kept kend all s roots hand) (hroot : root ∈ roots)
    (hsz : psz.toNat ≤ 2^38-8192) (hs : Shielded s root) (hva : va.toNat%4096 = 0) :
    (∃ s', userPage kend root psz root va s = .ok (0,s') ∧ Kept kend all s' roots hand ∧
      Same roots s s' ∧
      Takes root s s' ∧ ¬ (va < maxva ∧ Usable s root psz false va ∧
        needed s root ([va].filter fun va => Lazy s root psz va) ≤ s.free.length)) ∨
    ∃ pte s', userPage kend root psz root va s = .ok (pte2pa pte,s') ∧ pte2pa pte ≠ 0#64 ∧
      Opened kend all roots hand root psz va pte s s' := by
  obtain ⟨pa,hwalk,hfound⟩ := walkaddr_ok s root va
  by_cases hzero : pa = 0#64
  · subst hzero
    have hpage : userPage kend root psz root va s = vmfault kend root psz root va s := by
      simp [userPage, hwalk, bind, Except.bind]
    have hexact := vmfault_exact va h hroot hsz
    rw [pgrounddown_page hva] at hexact
    rw [hpage]
    rcases hexact with ⟨hnot,hok⟩ | ⟨hlazy,huser,⟨hfew,s',hok,hkept,hsame,htakes⟩ | ⟨mem,s',hok,
      hkept,hput,hgrown⟩⟩
    · refine .inl ⟨s,hok,h,Same.refl roots s,Takes.refl root s,?_⟩
      rintro ⟨hmax,⟨pte,hpte,hu,-⟩ | hlazy,-⟩
      · rw [walkaddr_user hmax hpte hu, Except.ok.injEq] at hwalk
        exact page_real hkend h hroot (userVa_of_flag hs hva hmax hpte hu) hpte hwalk
      · exact hnot hlazy
    · refine .inl ⟨s',hok,hkept,hsame,htakes,?_⟩
      rintro ⟨-,-,hroom⟩
      rw [List.filter_singleton, decide_eq_true hlazy] at hroom
      exact absurd hfew (not_lt.mpr hroom)
    · have hperm : IsPerm (pteW|||pteU|||pteR) := ⟨22,by decide⟩
      have hpa := pte2pa_perm hperm (h.pool (List.mem_append_left _ hgrown.took))
      have hhere : translate s' root va = some (pa2pte mem|||(pteW|||pteU|||pteR)|||pteV) := by
        rw [hput root hroot va huser.1, if_pos ⟨rfl,rfl⟩]
      refine .inr ⟨_,s',by rw [hpa]; exact hok,page_real hkend hkept hroot huser hhere,hkept,
        huser,hhere,?_,?_,
        .inr ⟨hlazy,?_,by rw [hpa]; exact hgrown⟩⟩
      · rw [flag_made hperm mem (by decide)]
        decide
      · intro root' hroot' va' hva' hne
        rw [hput root' hroot' va' hva', if_neg hne]
      · rw [flag_made hperm mem (by decide)]
        decide
  · obtain ⟨hmax,pte,hpte,hu,rfl⟩ := hfound hzero
    have huser := userVa_of_flag hs hva hmax hpte hu
    have hpage : userPage kend root psz root va s = .ok (pte2pa pte,s) := by
      simp [userPage, hwalk, bind, Except.bind, hzero]
    exact .inr ⟨pte,s,hpage,hzero,h,huser,hpte,hu,fun _ _ _ _ _ => rfl,.inl ⟨hpte,rfl⟩⟩

theorem Opened.takes (h : Opened kend all roots hand root psz va pte s s') : Takes root s s' := by
  rcases h.how with ⟨-,rfl⟩ | ⟨-,-,hgrown⟩
  · exact Takes.refl root s'
  · exact hgrown.takes

theorem lazy_missing (h : Lazy s root psz va) (hva : va.toNat%4096 = 0) :
    translate s root va = none := by
  have := h.2
  rwa [pgrounddown_page hva] at this

theorem lazy_congr (hva : va.toNat%4096 = 0) (h : translate s' root va = translate s root va) :
    Lazy s' root psz va ↔ Lazy s root psz va := by
  rw [Lazy, Lazy, pgrounddown_page hva, h]

theorem usable_congr (hva : va.toNat%4096 = 0) (h : translate s' root va = translate s root va) :
    Usable s' root psz w va ↔ Usable s root psz w va := by
  rw [Usable, Usable, lazy_congr hva h, h]

theorem Opened.usable (h : Opened kend all roots hand root psz va pte s s')
    (hw : w = true → pte&&&pteW ≠ 0#64) : Usable s root psz w va := by
  rcases h.how with ⟨hpte,-⟩ | ⟨hlazy,-,-⟩
  · exact .inl ⟨pte,hpte,h.user,hw⟩
  · exact .inr hlazy

theorem Opened.writable (h : Opened kend all roots hand root psz va pte s s')
    (hu : Usable s root psz true va) : pte&&&pteW ≠ 0#64 := by
  rcases h.how with ⟨hpte,-⟩ | ⟨-,hw,-⟩
  · rcases hu with ⟨pte',hpte',-,hw⟩ | hlazy
    · cases hpte.symm.trans hpte'
      exact hw rfl
    · have := lazy_missing hlazy (userVa_iff.mp h.inside).1
      cases hpte.symm.trans this
  · exact hw

/-- Memory suffices for a page and those after it exactly when it suffices for those after it, now
that the page has been opened. -/
theorem Opened.budget {vas : List Word} (h : Opened kend all roots hand root psz va pte s s')
    (hvas : ∀ va' ∈ vas, Lazy s' root psz va' ↔ Lazy s root psz va') :
    needed s root ((va::vas).filter fun va => Lazy s root psz va) ≤ s.free.length ↔
      needed s' root (vas.filter fun va => Lazy s' root psz va) ≤ s'.free.length := by
  have hfilter : (vas.filter fun va => Lazy s' root psz va) = vas.filter fun va =>
    Lazy s root psz va :=
    List.filter_congr fun va' hva' => by simp only [hvas va' hva']
  rw [hfilter]
  rcases h.how with ⟨hpte,rfl⟩ | ⟨hlazy,-,hgrown⟩
  · have hnot : ¬ Lazy s' root psz va := fun hlazy => by
      cases hpte.symm.trans (lazy_missing hlazy (userVa_iff.mp h.inside).1)
    rw [List.filter_cons_of_neg (by simpa using hnot)]
  · rw [List.filter_cons_of_pos (by simpa using hlazy), hgrown.rest, hgrown.free]
    have := hgrown.room
    omega

theorem bytes_of_takes (h : Kept kend all s roots hand) (hroot : root ∈ roots)
    (htakes : Takes root s s') (hx : x < 2^38-8192)
    (hsame : translate s' root (pageOf x) = translate s root (pageOf x)) :
    userByte s' root x = userByte s root x := by
  cases hpte : translate s root (pageOf x) with
  | none => rw [userByte, hsame.trans hpte, userByte, hpte]
  | some pte =>
    rw [userByte_some (hsame.trans hpte), userByte_some hpte,
      (htakes _ (off_of_leaf h hroot ⟨hroot,userVa_pageOf hx,pte,hpte,rfl⟩)).2]

theorem Opened.bytes (h : Opened kend all roots hand root psz va pte s s')
    (hkept : Kept kend all s roots hand) (hroot : root ∈ roots)
    (hx : x < 2^38-8192) : userByte s' root x = userByte s root x := by
  have huser := userVa_pageOf hx
  by_cases hpage : pageOf x = va
  · subst hpage
    rcases h.how with ⟨-,rfl⟩ | ⟨hlazy,-,hgrown⟩
    · rfl
    · rw [userByte_some h.here, hgrown.holds, pageByte_zero, userByte,
        lazy_missing hlazy (userVa_iff.mp huser).1]
  · exact bytes_of_takes hkept hroot h.takes hx
      (h.others root hroot _ huser.1 (fun hx => hpage hx.2))

end Pages

section Frames
variable {kend : Word} {all : Set Word} {s s₁ s' : Vm} {roots hand l l' : List Word}
    {root psz va pte a : Word}

/-- A page that is neither free, nor a table of `root`, nor mapped there for the user to write. -/
structure Shut (s : Vm) (root a : Word) : Prop where
  off : Off s root a
  unmapped : ∀ va pte, UserVa va → translate s root va = some pte → pte&&&pteU ≠ 0#64 →
    pte&&&pteW ≠ 0#64 →
    pte2pa pte ≠ a

/-- Of the pages `l` some have been mapped that were missing; nothing that was shut has been
written. -/
structure Served (roots : List Word) (root psz : Word) (l : List Word) (s s' : Vm) : Prop where
  confined : ∀ a, Shut s root a → Shut s' root a ∧ s'.mem a = s.mem a
  maps : ∀ root' ∈ roots, ∀ va, IsVa va → translate s' root' va = translate s root' va ∨
    root' = root ∧ va ∈ l ∧ Lazy s root psz va

theorem Served.trans (h : Served roots root psz l s s₁) (h' : Served roots root psz l' s₁ s') :
    Served roots root psz (l++l') s s' := by
  constructor
  · intro a ha
    obtain ⟨ha₁,hmem₁⟩ := h.confined a ha
    obtain ⟨ha',hmem'⟩ := h'.confined a ha₁
    exact ⟨ha',hmem'.trans hmem₁⟩
  · intro root' hroot' va hva
    rcases h.maps root' hroot' va hva with hsame | ⟨hr,hmem,hlazy⟩
    · rcases h'.maps root' hroot' va hva with hsame' | ⟨rfl,hmem,hlazy⟩
      · exact .inl (hsame'.trans hsame)
      · exact .inr ⟨rfl,List.mem_append_right _ hmem,
          (lazy_congr (isVa_iff.mp hva).1 hsame).mp hlazy⟩
    · exact .inr ⟨hr,List.mem_append_left _ hmem,hlazy⟩

theorem Served.mono (h : Served roots root psz l s s') (hsub : l ⊆ l') :
    Served roots root psz l' s s' :=
  ⟨h.confined,fun root' hroot' va hva => (h.maps root' hroot' va hva).imp_right fun hx =>
    ⟨hx.1,hsub hx.2.1,hx.2.2⟩⟩

theorem served_of_same (hroot : root ∈ roots) (hsame : Same roots s s') (htakes : Takes root s s') :
    Served roots root psz l s s' := by
  refine ⟨?_,fun root' hroot' va hva => .inl (hsame root' hroot' va hva)⟩
  intro a ha
  obtain ⟨hoff,hmem⟩ := htakes a ha.off
  refine ⟨⟨hoff,?_⟩,hmem⟩
  intro va pte huser hpte
  exact ha.unmapped va pte huser ((hsame root hroot va huser.1).symm.trans hpte)

theorem Opened.served (h : Opened kend all roots hand root psz va pte s s') (hroot : root ∈ roots) :
    Served roots root psz [va] s s' := by
  constructor
  · intro a ha
    obtain ⟨hoff,hmem⟩ := h.takes a ha.off
    refine ⟨⟨hoff,?_⟩,hmem⟩
    intro va' pte' huser hpte hu hw
    by_cases hva : va' = va
    · subst hva
      cases h.here.symm.trans hpte
      rcases h.how with ⟨hwas,-⟩ | ⟨-,-,hgrown⟩
      · exact ha.unmapped va' pte huser hwas hu hw
      · rintro rfl
        exact ha.off.used hgrown.took
    · exact ha.unmapped va' pte' huser
        ((h.others root hroot va' huser.1 (fun hx => hva hx.2)).symm.trans hpte) hu hw
  · intro root' hroot' va' hva'
    by_cases hx : root' = root ∧ va' = va
    · obtain ⟨rfl,rfl⟩ := hx
      rcases h.how with ⟨-,rfl⟩ | ⟨hlazy,-,-⟩
      · exact .inl rfl
      · exact .inr ⟨rfl,by simp,hlazy⟩
    · exact .inl (h.others root' hroot' va' hva' hx)

theorem store_self (data : Index → Word) (s : Vm) : (store a data s).mem a = data :=
  Function.update_self ..

theorem store_other {b : Word} {data : Index → Word} (h : b ≠ a) :
    (store a data s).mem b = s.mem b :=
  Function.update_of_ne h ..

theorem served_store (h : Kept kend all s roots hand) (hroot : root ∈ roots) (huser : UserVa va)
    (hpte : translate s root va = some pte) (hu : pte&&&pteU ≠ 0#64) (hw : pte&&&pteW ≠ 0#64)
    (data : Index → Word) : Served roots root psz l s (store (pte2pa pte) data s) := by
  obtain ⟨hkept,hsame⟩ := store_user h hroot ⟨huser,pte,hpte,rfl⟩ data
  refine ⟨?_,fun root' hroot' va hva => .inl (hsame root' hroot' va hva)⟩
  intro a ha
  have htable := store_tables data (off_of_leaf h hroot ⟨hroot,huser,pte,hpte,rfl⟩)
  refine ⟨⟨⟨ha.off.used,fun p hp => by rw [htable p hp]; exact ha.off.plain p hp⟩,?_⟩,?_⟩
  · intro va' pte' huser' hpte'
    exact ha.unmapped va' pte' huser' ((hsame root hroot va' huser'.1).symm.trans hpte')
  · exact store_other (ha.unmapped va pte huser hpte hu hw).symm

theorem store_bytes (h : Kept kend all s roots hand) (hroot : root ∈ roots) {b k x : ℕ}
    (src : ℕ → UInt8)
    (hb : b < 2^38-8192) (hk : b%4096+k ≤ 4096) (hpte : translate s root (pageOf b) = some pte)
    (hx : x < 2^38-8192) :
    userByte (store (pte2pa pte) (spliceBytes (s.mem (pte2pa pte)) (b%4096) k src) s) root x =
      UserBytes.store (userByte s root) b k src x := by
  have huser := userVa_pageOf hb
  have huser' := userVa_pageOf hx
  obtain ⟨-,hsame⟩ := store_user h hroot ⟨huser,pte,hpte,rfl⟩
    (spliceBytes (s.mem (pte2pa pte)) (b%4096) k src)
  have hkeep := hsame root hroot _ huser'.1
  by_cases hpage : pageOf x = pageOf b
  · have hnum := congrArg BitVec.toNat hpage
    rw [toNat_pageOf (by omega), toNat_pageOf (by omega)] at hnum
    rw [hpage] at hkeep
    rw [userByte_some (by rw [hpage]; exact hkeep.trans hpte), store_self, pageByte_splice _ _ _ _
      (Nat.mod_lt _ (by decide)),
      UserBytes.store, userByte_some (by rw [hpage]; exact hpte)]
    by_cases hin : b ≤ x ∧ x < b+k
    · rw [if_pos hin, if_pos (by omega), show x%4096-b%4096 = x-b by omega]
    · rw [if_neg hin, if_neg (by omega)]
  · have hout : ¬ (b ≤ x ∧ x < b+k) := by
      rintro ⟨hle,hlt⟩
      apply hpage
      rw [pageOf, pageOf, show x/4096*4096 = b/4096*4096 by omega]
    rw [UserBytes.store, if_neg hout]
    cases hx' : translate s root (pageOf x) with
    | none => rw [userByte, hkeep.trans hx', userByte, hx']
    | some pte' =>
      have hne : pte2pa pte' ≠ pte2pa pte := by
        intro heq
        have := h.one (.leaf root (pageOf x)) (.leaf root (pageOf b)) (pte2pa pte)
          ⟨hroot,huser',pte',hx',heq⟩
          ⟨hroot,huser,pte,hpte,rfl⟩
        exact hpage (Place.leaf.inj this).2
      rw [userByte_some (hkeep.trans hx'), userByte_some hx', store_other hne]

end Frames

section Loops
variable {kend : Word} {all : Set Word} {s s₁ s' : Vm} {roots hand : List Word}
    {root psz pte : Word} {w : Bool}

variable {a len : ℕ} {va : Word} {l : List Word}

theorem mem_touched (h : va ∈ touched a len) : ∃ x, a ≤ x ∧ x < a+len ∧ va = pageOf x := by
  obtain ⟨i,hi,rfl⟩ := List.mem_map.mp h
  rw [List.mem_range] at hi
  have hlen : len ≠ 0 := by
    rintro rfl
    simp at hi
  rw [if_neg hlen] at hi
  by_cases hzero : i = 0
  · exact ⟨a,le_rfl,by omega,by rw [hzero, Nat.zero_mul, Nat.add_zero]⟩
  · refine ⟨(a/4096+i)*4096,by omega,by omega,?_⟩
    rw [pageOf, pageOf, show (a+i*4096)/4096*4096 = (a/4096+i)*4096/4096*4096 by omega]

theorem ready_nil (s : Vm) (root psz : Word) (w : Bool) (a : ℕ) : Ready s root psz w a 0 :=
  fun x _ _ => by omega

theorem ready_split (hlen : 0 < len) : Ready s root psz w a len ↔
    (a < 2^38 ∧ Usable s root psz w (pageOf a)) ∧
      Ready s root psz w (a/4096*4096+4096) (len-min (4096-a%4096) len) := by
  constructor
  · intro h
    exact ⟨h a le_rfl (by omega),fun x hx hx' => h x (by omega) (by omega)⟩
  · rintro ⟨⟨hlt,huse⟩,hrest⟩ x hx hx'
    by_cases hin : x < a/4096*4096+4096
    · refine ⟨by omega,?_⟩
      rwa [pageOf, show x/4096*4096 = a/4096*4096 by omega]
    · exact hrest x (by omega) (by omega)

theorem isVa_later {x : ℕ} (hx : a/4096*4096+4096 ≤ x) (hlt : x < 2^38) :
    IsVa (pageOf x) ∧ pageOf x ≠ pageOf a := by
  constructor
  · rw [isVa_iff, toNat_pageOf (by omega)]
    omega
  · intro heq
    have hnum := congrArg BitVec.toNat heq
    rw [toNat_pageOf (by omega), toNat_pageOf (by omega)] at hnum
    omega

theorem later_congr (psz : Word) (w : Bool) (len : ℕ)
    (hsame : ∀ va, IsVa va → va ≠ pageOf a → translate s' root va = translate s root va) :
    (Ready s' root psz w (a/4096*4096+4096) len ↔ Ready s root psz w (a/4096*4096+4096) len) ∧
    (Ready s root psz w (a/4096*4096+4096) len → ∀ va ∈ touched (a/4096*4096+4096) len,
      Lazy s' root psz va ↔ Lazy s root psz va) := by
  constructor
  · apply forall_congr'
    intro x
    apply forall_congr'
    intro hx
    apply forall_congr'
    intro _
    apply and_congr_right
    intro hlt
    obtain ⟨hva,hne⟩ := isVa_later hx hlt
    exact usable_congr (isVa_iff.mp hva).1 (hsame _ hva hne)
  · intro hready va hmem
    obtain ⟨x,hx,hx',rfl⟩ := mem_touched hmem
    obtain ⟨hva,hne⟩ := isVa_later hx (hready x hx hx').1
    exact lazy_congr (isVa_iff.mp hva).1 (hsame _ hva hne)

theorem Served.shielded (h : Served roots root psz l s s') (hroot : root ∈ roots)
    (hsz : psz.toNat ≤ 2^38-8192) (hs : Shielded s root) : Shielded s' root := by
  intro va pte hva hother hpte
  rcases h.maps root hroot va hva with heq | ⟨-,-,hlazy⟩
  · exact hs va pte hva hother (heq ▸ hpte)
  · refine absurd (userVa_iff.mpr ⟨(isVa_iff.mp hva).1,?_⟩) hother
    have := BitVec.lt_def.mp hlazy.1
    omega

def Possible (s : Vm) (root psz : Word) (w : Bool) (a len : ℕ) : Prop :=
  Ready s root psz w a len ∧ needed s root (absent s root psz a len) ≤ s.free.length

theorem possible_nil (s : Vm) (root psz : Word) (w : Bool) (a : ℕ) : Possible s root psz w a 0 := by
  refine ⟨ready_nil s root psz w a,?_⟩
  rw [absent, touched_nil, List.filter_nil, needed_nil]
  exact Nat.zero_le _

theorem Possible.first (h : Possible s root psz w a len) (hlen : 0 < len) :
    a < 2^38 ∧ Usable s root psz w (pageOf a) ∧
      needed s root ([pageOf a].filter fun va => Lazy s root psz va) ≤ s.free.length := by
  obtain ⟨hready,hroom⟩ := h
  obtain ⟨⟨ha,huse⟩,-⟩ := (ready_split hlen).mp hready
  refine ⟨ha,huse,?_⟩
  rw [absent, touched_cons hlen] at hroom
  by_cases hlazy : Lazy s root psz (pageOf a)
  · rw [List.filter_cons_of_pos (by simpa using hlazy)] at hroom ⊢
    exact (needed_head_le s root _ _).trans hroom
  · rw [List.filter_cons_of_neg (by simpa using hlazy), List.filter_nil, needed_nil]
    exact Nat.zero_le _

theorem possible_next (hlen : 0 < len) (ha : a < 2^38) (hroot : root ∈ roots)
    (hopen : Opened kend all roots hand root psz (pageOf a) pte s s₁)
    (huse : Usable s root psz w (pageOf a)) (hfree : s'.free = s₁.free) (hsame : Same roots s₁ s')
    (htable : ∀ p : List Index, p.length ≤ 2 → tableAt child s'.mem root p =
      tableAt child s₁.mem root p) :
    Possible s root psz w a len ↔
      Possible s' root psz w (a/4096*4096+4096) (len-min (4096-a%4096) len) := by
  have hothers : ∀ va, IsVa va → va ≠ pageOf a → translate s₁ root va = translate s root va :=
    fun va hva hne => hopen.others root hroot va hva (fun hx => hne hx.2)
  have hothers' : ∀ va, IsVa va → va ≠ pageOf a → translate s' root va = translate s₁ root va :=
    fun va hva _ => hsame root hroot va hva
  obtain ⟨hready₁,hlazy₁⟩ := later_congr psz w (len-min (4096-a%4096) len) hothers
  obtain ⟨hready',hlazy'⟩ := later_congr psz w (len-min (4096-a%4096) len) hothers'
  rw [Possible, Possible, ready_split hlen, and_iff_right (And.intro ha huse), hready', hready₁]
  apply and_congr_right
  intro hready
  rw [absent, touched_cons hlen, hopen.budget (hlazy₁ hready), hfree, absent,
    List.filter_congr fun va hva => decide_eq_decide.mpr (hlazy' (hready₁.mpr hready) va hva),
      needed_congr htable]

theorem Opened.write (src : ℕ → UInt8) (hlen : 0 < len) (ha : a < 2^38-8192)
    (hopen : Opened kend all roots hand root psz (pageOf a) pte s s₁)
    (h : Kept kend all s roots hand) (hroot : root ∈ roots) (hw : pte&&&pteW ≠ 0#64) :
    let page := spliceBytes (s₁.mem (pte2pa pte)) (a%4096) (min (4096-a%4096) len) src
    let s₂ := store (pte2pa pte) page s₁
    Kept kend all s₂ roots hand ∧ Served roots root psz [pageOf a] s s₂ ∧
      (Possible s root psz true a len ↔
        Possible s₂ root psz true (a/4096*4096+4096) (len-min (4096-a%4096) len)) ∧
      ∀ x < 2^38-8192, userByte s₂ root x =
        UserBytes.store (userByte s root) a (min (4096-a%4096) len) src x := by
  intro page s₂
  obtain ⟨hkept,hsame⟩ := store_user hopen.kept hroot ⟨hopen.inside,pte,hopen.here,rfl⟩ page
  have htable :=
    store_tables page (off_of_leaf hopen.kept hroot ⟨hroot,hopen.inside,pte,hopen.here,rfl⟩)
  refine ⟨hkept,?_,?_,?_⟩
  · have hdata : Served roots root psz [] s₁ s₂ :=
      served_store hopen.kept hroot hopen.inside hopen.here hopen.user hw page
    exact (hopen.served hroot).trans hdata
  · exact possible_next hlen (by omega) hroot hopen (hopen.usable fun _ => hw) rfl hsame htable
  · intro x hx
    rw [store_bytes hopen.kept hroot src ha (by omega) hopen.here hx]
    unfold UserBytes.store
    rw [hopen.bytes h hroot hx]

theorem bytes_append {m m₂ m' src : ℕ → UInt8} {k top : ℕ}
    (h : ∀ x < top, m₂ x = UserBytes.store m a (min (4096-a%4096) len) src x)
    (h' : ∀ x < top, m' x =
      UserBytes.store m₂ (a/4096*4096+4096) k (fun i => src (min (4096-a%4096) len+i)) x)
    (hk : k ≤ len-min (4096-a%4096) len) :
    ∀ x < top, m' x = UserBytes.store m a (min (4096-a%4096) len+k) src x := by
  intro x hx
  have hall :=
    congrFun (UserBytes.store_append m a (min (4096-a%4096) len) (min (4096-a%4096) len+k) src
    (Nat.le_add_right _ _)) x
  rw [Nat.add_sub_cancel_left] at hall
  rw [← hall, h' x hx]
  -- the next page starts where this one ends, unless nothing is left
  rcases Nat.lt_or_ge (4096-a%4096) len with hlt | hge
  · rw [min_eq_left hlt.le, show a/4096*4096+4096 = a+(4096-a%4096) by omega] at *
    unfold UserBytes.store at *
    rw [h x hx]
  · obtain rfl : k = 0 := by omega
    rw [UserBytes.store_zero, UserBytes.store_zero, h x hx]

theorem copyoutLoop_exact (hkend : 0#64 < kend) (hroot : root ∈ roots)
    (hsz : psz.toNat ≤ 2^38-8192) (n : ℕ)
    (dstva len : Word) (src : ℕ → UInt8) (h : Kept kend all s roots hand) (hs : Shielded s root)
    (hfuel : dstva.toNat%4096+len.toNat ≤ n*4096) :
    ∃ r k s', copyoutLoop kend root psz root n dstva len src s = .ok (r,s') ∧
      Kept kend all s' roots hand ∧
      Served roots root psz (touched dstva.toNat len.toNat) s s' ∧
      (Possible s root psz true dstva.toNat len.toNat ∧ r = 0 ∧ k = len.toNat ∨
        ¬ Possible s root psz true dstva.toNat len.toNat ∧ r = -1 ∧ k ≤ len.toNat) ∧
      ∀ x < 2^38-8192, userByte s' root x = UserBytes.store
        (userByte s root) dstva.toNat k src x := by
  induction n generalizing dstva len src s with
  | zero =>
    obtain hlen : len.toNat = 0 := by omega
    refine ⟨0,0,s,rfl,h,served_of_same hroot (Same.refl roots s) (Takes.refl root s),?_,?_⟩
    · rw [hlen]
      exact .inl ⟨possible_nil s root psz true _,rfl,rfl⟩
    · intro x _
      rw [UserBytes.store_zero]
  | succ n ih =>
    unfold copyoutLoop
    by_cases hlen : 0#64 < len
    · have hpos : 0 < len.toNat := BitVec.lt_def.mp hlen
      have hsplit := touched_cons (a := dstva.toNat) hpos
      rw [if_pos hlen]
      simp only [pgrounddown_eq dstva]
      by_cases hmax : maxva ≤ pageOf dstva.toNat
      · rw [if_pos hmax]
        refine ⟨-1,0,s,rfl,h,served_of_same hroot (Same.refl roots s) (Takes.refl root s),
          .inr ⟨?_,rfl,Nat.zero_le _⟩,?_⟩
        · intro hposs
          have ha := (hposs.first hpos).1
          rw [BitVec.le_def, toNat_maxva, toNat_pageOf dstva.isLt] at hmax
          omega
        · intro x _
          rw [UserBytes.store_zero]
      · rw [if_neg hmax]
        have ha : dstva.toNat < 2^38 := by
          rw [BitVec.le_def, toNat_maxva, toNat_pageOf dstva.isLt] at hmax
          omega
        have haligned : (pageOf dstva.toNat).toNat%4096 = 0 := by
          rw [toNat_pageOf dstva.isLt]
          omega
        rcases userPage_exact hkend h hroot hsz hs haligned with
          ⟨s₁,hpage,hkept₁,hsame₁,htakes₁,hnot⟩ | ⟨pte,s₁,hpage,hpa,hopen⟩
        · refine ⟨-1,0,s₁,?_,hkept₁,served_of_same hroot hsame₁ htakes₁,
            .inr ⟨?_,rfl,Nat.zero_le _⟩,?_⟩
          · simp [hpage, bind, Except.bind]
          · intro hposs
            obtain ⟨-,huse,hroom⟩ := hposs.first hpos
            exact hnot ⟨BitVec.not_le.mp hmax,huse.imp_left fun ⟨pte,hpte,hu,_⟩ =>
              ⟨pte,hpte,hu,nofun⟩,hroom⟩
          · intro x hx
            rw [UserBytes.store_zero]
            exact bytes_of_takes h hroot htakes₁ hx (hsame₁ root hroot _ (userVa_pageOf hx).1)
        · obtain ⟨t,ht,hentry,-⟩ := translate_eq_some.mp hopen.here
          simp only [hpage, bind, Except.bind, hpa, if_false, walk_look hopen.inside.1.2,
            lookup_eq.mpr ⟨ht,rfl⟩,
            hentry]
          by_cases hw : pte&&&pteW = 0#64
          · rw [if_pos hw]
            refine ⟨-1,0,s₁,rfl,hopen.kept,(hopen.served hroot).mono (by rw [hsplit]; simp),
              .inr ⟨?_,rfl,Nat.zero_le _⟩,?_⟩
            · intro hposs
              exact hopen.writable (hposs.first hpos).2.1 hw
            · intro x hx
              rw [UserBytes.store_zero]
              exact hopen.bytes h hroot hx
          · rw [if_neg hw]
            have huser : dstva.toNat < 2^38-8192 := by
              have := userVa_iff.mp hopen.inside
              rw [toNat_pageOf dstva.isLt] at this
              omega
            have hoffset := toNat_offset dstva
            have hchunk := toNat_chunk dstva len
            have hrest := toNat_rest dstva len
            rw [pgrounddown_eq] at hoffset
            rw [hoffset, hchunk]
            have hnext := toNat_nextPage ha
            obtain ⟨hkept₂,hserved₂,hposs,hbytes₂⟩ := hopen.write src hpos huser h hroot hw
            obtain ⟨r,k,s',hok,hkept',hserved',hr,hbytes⟩ :=
              ih (pageOf dstva.toNat+pgsize) (len-chunk dstva len)
              (fun i => src (min (4096-dstva.toNat%4096) len.toNat+i)) hkept₂
              (hserved₂.shielded hroot hsz hs) (by omega)
            rw [hnext, hrest] at hserved' hr
            rw [hnext] at hbytes
            rw [← hposs] at hr
            refine ⟨r,min (4096-dstva.toNat%4096) len.toNat+k,s',hok,hkept',?_,?_,?_⟩
            · rw [hsplit]
              exact hserved₂.trans hserved'
            · rcases hr with ⟨hp,hr,hk⟩ | ⟨hp,hr,hk⟩
              · exact .inl ⟨hp,hr,by omega⟩
              · exact .inr ⟨hp,hr,by omega⟩
            · exact bytes_append hbytes₂ hbytes (by omega)
    · have hzero : len.toNat = 0 := by
        rw [BitVec.lt_def] at hlen
        simpa using hlen
      rw [if_neg hlen]
      refine ⟨0,0,s,rfl,h,served_of_same hroot (Same.refl roots s) (Takes.refl root s),?_,?_⟩
      · rw [hzero]
        exact .inl ⟨possible_nil s root psz true _,rfl,rfl⟩
      · intro x _
        rw [UserBytes.store_zero]

theorem Served.user (h : Served roots root psz l s s') (hroot : root ∈ roots) (hva : IsVa va)
    (hpte : translate s root va = some pte) : translate s' root va = some pte := by
  rcases h.maps root hroot va hva with hsame | ⟨-,-,hlazy⟩
  · exact hsame.trans hpte
  · cases hpte.symm.trans (lazy_missing hlazy (isVa_iff.mp hva).1)

theorem copyinLoop_exact (hkend : 0#64 < kend) (hroot : root ∈ roots)
    (hsz : psz.toNat ≤ 2^38-8192) (n : ℕ)
    (srcva len : Word) (h : Kept kend all s roots hand) (hs : Shielded s root)
    (hfuel : srcva.toNat%4096+len.toNat ≤ n*4096) :
    ∃ r k s', copyinLoop kend root psz root n srcva len s =
        .ok (r,(List.range k).map fun i => userByte s root (srcva.toNat+i),s') ∧
          Kept kend all s' roots hand ∧
      Served roots root psz (touched srcva.toNat len.toNat) s s' ∧
      (Possible s root psz false srcva.toNat len.toNat ∧ r = 0 ∧ k = len.toNat ∨
        ¬ Possible s root psz false srcva.toNat len.toNat ∧ r = -1 ∧ k ≤ len.toNat) ∧
      (∀ x < 2^38-8192, userByte s' root x = userByte s root x) ∧
      ∀ i < k, srcva.toNat+i < 2^38-8192 ∧
        ∃ pte, translate s' root (pageOf (srcva.toNat+i)) = some pte ∧ pte&&&pteU ≠ 0#64 := by
  induction n generalizing srcva len s with
  | zero =>
    obtain hlen : len.toNat = 0 := by omega
    refine ⟨0,0,s,rfl,h,served_of_same hroot (Same.refl roots s) (Takes.refl root s),?_,
      fun _ _ => rfl,nofun⟩
    rw [hlen]
    exact .inl ⟨possible_nil s root psz false _,rfl,rfl⟩
  | succ n ih =>
    unfold copyinLoop
    by_cases hlen : 0#64 < len
    · have hpos : 0 < len.toNat := BitVec.lt_def.mp hlen
      have hsplit := touched_cons (a := srcva.toNat) hpos
      rw [if_pos hlen]
      simp only [pgrounddown_eq srcva]
      have haligned : (pageOf srcva.toNat).toNat%4096 = 0 := by
        rw [toNat_pageOf srcva.isLt]
        omega
      rcases userPage_exact hkend h hroot hsz hs haligned with
        ⟨s₁,hpage,hkept₁,hsame₁,htakes₁,hnot⟩ | ⟨pte,s₁,hpage,hpa,hopen⟩
      · refine ⟨-1,0,s₁,?_,hkept₁,served_of_same hroot hsame₁ htakes₁,
          .inr ⟨?_,rfl,Nat.zero_le _⟩,?_,nofun⟩
        · simp [hpage, bind, Except.bind]
        · intro hposs
          obtain ⟨ha,huse,hroom⟩ := hposs.first hpos
          refine hnot ⟨?_,huse,hroom⟩
          rw [BitVec.lt_def, toNat_maxva, toNat_pageOf srcva.isLt]
          omega
        · intro x hx
          exact bytes_of_takes h hroot htakes₁ hx (hsame₁ root hroot _ (userVa_pageOf hx).1)
      · have huser : srcva.toNat/4096*4096+4096 ≤ 2^38-8192 := by
          have := userVa_iff.mp hopen.inside
          rw [toNat_pageOf srcva.isLt] at this
          omega
        have hoffset := toNat_offset srcva
        have hchunk := toNat_chunk srcva len
        have hrest := toNat_rest srcva len
        rw [pgrounddown_eq] at hoffset
        have hnext := toNat_nextPage (a := srcva) (by omega)
        have hserved₁ := hopen.served hroot
        have hposs := possible_next hpos (by omega) hroot hopen (hopen.usable (w := false) nofun)
          (Eq.refl s₁.free) (Same.refl roots s₁) (fun _ _ => rfl)
        obtain ⟨r,k,s',hok,hkept',hserved',hr,hsame',hread⟩ := ih (pageOf srcva.toNat+pgsize)
          (len-chunk srcva len) hopen.kept (hserved₁.shielded hroot hsz hs) (by omega)
        rw [hnext, hrest] at hserved' hr
        rw [hnext] at hok hread
        rw [← hposs] at hr
        simp only [hpage, bind, Except.bind, hpa, if_false, hok, hoffset, hchunk]
        have hfirst : ∀ i < min (4096-srcva.toNat%4096) len.toNat, pageOf (srcva.toNat+i) =
          pageOf srcva.toNat ∧
            userByte s root (srcva.toNat+i) = pageByte (s₁.mem (pte2pa pte))
              (srcva.toNat%4096+i) := by
          intro i hi
          obtain ⟨hsame,hmod⟩ := same_page hi
          refine ⟨hsame,?_⟩
          rw [← hopen.bytes h hroot (by omega),
            userByte_some (by rw [hsame]; exact hopen.here), hmod]
        refine ⟨r,min (4096-srcva.toNat%4096) len.toNat+k,s',?_,hkept',?_,?_,?_,?_⟩
        · have hhead : (List.range (min (4096-srcva.toNat%4096) len.toNat)).map (fun i =>
              pageByte (s₁.mem (pte2pa pte)) (srcva.toNat%4096+i)) =
              (List.range (min (4096-srcva.toNat%4096) len.toNat)).map fun i =>
                userByte s root (srcva.toNat+i) :=
            List.map_congr_left fun i hi => (hfirst i (List.mem_range.mp hi)).2.symm
          have htail : (List.range k).map (fun i =>
            userByte s₁ root (srcva.toNat/4096*4096+4096+i)) =
              (List.range k).map fun i =>
                userByte s root (srcva.toNat+(min (4096-srcva.toNat%4096) len.toNat+i)) := by
            apply List.map_congr_left
            intro i hi
            have hlt := List.mem_range.mp hi
            rw [hopen.bytes h hroot (hread i hlt).1, next_start len.toNat (by omega)]
          rw [hhead, htail, List.range_add, List.map_append, List.map_map]
          rfl
        · rw [hsplit]
          exact hserved₁.trans hserved'
        · rcases hr with ⟨hp,hr,hk⟩ | ⟨hp,hr,hk⟩
          · exact .inl ⟨hp,hr,by omega⟩
          · exact .inr ⟨hp,hr,by omega⟩
        · intro x hx
          exact (hsame' x hx).trans (hopen.bytes h hroot hx)
        · intro i hi
          by_cases hin : i < min (4096-srcva.toNat%4096) len.toNat
          · refine ⟨by omega,pte,?_,hopen.user⟩
            rw [(hfirst i hin).1]
            exact hserved'.user hroot hopen.inside.1 hopen.here
          · have hread' := hread (i-min (4096-srcva.toNat%4096) len.toNat) (by omega)
            rwa [show srcva.toNat/4096*4096+4096+(i-min (4096-srcva.toNat%4096) len.toNat) =
              srcva.toNat+i by omega]
              at hread'
    · have hzero : len.toNat = 0 := by
        rw [BitVec.lt_def] at hlen
        simpa using hlen
      rw [if_neg hlen]
      refine ⟨0,0,s,rfl,h,served_of_same hroot (Same.refl roots s) (Takes.refl root s),?_,
        fun _ _ => rfl,nofun⟩
      rw [hzero]
      exact .inl ⟨possible_nil s root psz false _,rfl,rfl⟩

theorem rounds_suffice (a len : Word) : a.toNat%4096+len.toNat ≤ ((len/pgsize).toNat+2)*4096 := by
  rw [BitVec.toNat_udiv, toNat_pgsize]
  omega

theorem copyout_exact (hkend : 0#64 < kend) (hroot : root ∈ roots) (hsz : psz.toNat ≤ 2^38-8192)
    (dstva len : Word)
    (src : ℕ → UInt8) (h : Kept kend all s roots hand) (hs : Shielded s root) :
    ∃ r k s', copyout kend root psz root dstva len src s = .ok (r,s') ∧
      Kept kend all s' roots hand ∧
      Served roots root psz (touched dstva.toNat len.toNat) s s' ∧
      (Possible s root psz true dstva.toNat len.toNat ∧ r = 0 ∧ k = len.toNat ∨
        ¬ Possible s root psz true dstva.toNat len.toNat ∧ r = -1 ∧ k ≤ len.toNat) ∧
      ∀ x < 2^38-8192, userByte s' root x = UserBytes.store (userByte s root) dstva.toNat k src x :=
  copyoutLoop_exact hkend hroot hsz _ dstva len src h hs (rounds_suffice dstva len)

theorem copyin_exact (hkend : 0#64 < kend) (hroot : root ∈ roots) (hsz : psz.toNat ≤ 2^38-8192)
    (srcva len : Word)
    (h : Kept kend all s roots hand) (hs : Shielded s root) :
    ∃ r k s', copyin kend root psz root srcva len s =
        .ok (r,(List.range k).map fun i => userByte s root (srcva.toNat+i),s') ∧
          Kept kend all s' roots hand ∧
      Served roots root psz (touched srcva.toNat len.toNat) s s' ∧
      (Possible s root psz false srcva.toNat len.toNat ∧ r = 0 ∧ k = len.toNat ∨
        ¬ Possible s root psz false srcva.toNat len.toNat ∧ r = -1 ∧ k ≤ len.toNat) ∧
      (∀ x < 2^38-8192, userByte s' root x = userByte s root x) ∧
      ∀ i < k, srcva.toNat+i < 2^38-8192 ∧
        ∃ pte, translate s' root (pageOf (srcva.toNat+i)) = some pte ∧ pte&&&pteU ≠ 0#64 :=
  copyinLoop_exact hkend hroot hsz _ srcva len h hs (rounds_suffice srcva len)

end Loops

end GreenOS.CopyBytes
