import GreenOS.CopyBytes

/-!
# The strings that `copyinstr` moves

`copyinstr` scans the pages of the user for a nul. Unlike `copyin` it does not
map a page that is missing: where a string runs into one, `copyin` finds the nul
there and `copyinstr` gives up.
-/

namespace GreenOS.CopyStrings
open PageTable PageOwners PageMoves PageFrames UserCopies PageBytes CopyBytes
open UserMemory hiding copyin copyinLoop copyinstr copyinstrLoop

/-- The inner loop of `copyinstr` over `n` bytes: what it stores, and whether it has met the nul. -/
def scan : ℕ → (ℕ → UInt8) → List UInt8 × Bool
  | 0, _ => ([],false)
  | n+1, p =>
    if p 0 = 0 then ([0],true)
    else
      let (l,gotNull) := scan n (fun i => p (i+1))
      (p 0::l,gotNull)

/-- The loop of `copyinstr`, with the bytes that have been stored when it ends. -/
def copyinstrLoop (root : Word) : ℕ → Word → Word → Vm → Except String (ℤ × List UInt8)
  | 0, _, _, _ => .ok (-1,[])
  | n+1, srcva, max, s =>
    if 0#64 < max then do
      let va := pgrounddown srcva
      let pa ← walkaddr root va s
      if pa = 0#64 then .ok (-1,[])
      else
        let (l,gotNull) :=
          scan (chunk srcva max).toNat (fun i => pageByte (s.mem pa) ((srcva-va).toNat+i))
        if gotNull then .ok (0,l)
        else do
          let (r,rest) ← copyinstrLoop root n (va+pgsize) (max-chunk srcva max) s
          .ok (r,l++rest)
    else .ok (-1,[])

def copyinstr (root srcva max : Word) (s : Vm) : Except String (ℤ × List UInt8) :=
  copyinstrLoop root ((max/pgsize).toNat+2) srcva max s

theorem scan_cases (n : ℕ) (p : ℕ → UInt8) :
    (scan n p = ((List.range n).map p,false) ∧ ∀ i < n, p i ≠ 0) ∨
    ∃ j < n, scan n p = ((List.range (j+1)).map p,true) ∧ p j = 0 ∧ ∀ i < j, p i ≠ 0 := by
  induction n generalizing p with
  | zero => exact .inl ⟨rfl,nofun⟩
  | succ n ih =>
    unfold scan
    by_cases hzero : p 0 = 0
    · exact .inr ⟨0,by omega,by rw [if_pos hzero]; simp [hzero],hzero,nofun⟩
    · rw [if_neg hzero]
      have hcons : ∀ m, p 0::(List.range m).map (fun i => p (i+1)) = (List.range (m+1)).map p := by
        intro m
        rw [List.range_succ_eq_map, List.map_cons, List.map_map]
        rfl
      have hstep : ∀ m, (∀ i < m, p (i+1) ≠ 0) → ∀ i < m+1, p i ≠ 0 := by
        intro m hm i hi
        cases i with
        | zero => exact hzero
        | succ i => exact hm i (by omega)
      rcases ih (fun i => p (i+1)) with ⟨hscan,hall⟩ | ⟨j,hj,hscan,hnul,hall⟩
      · exact .inl ⟨by rw [hscan, ← hcons],hstep n hall⟩
      · exact .inr ⟨j+1,by omega,by rw [hscan, ← hcons],hnul,hstep j hall⟩

theorem scan_congr {n : ℕ} {p q : ℕ → UInt8} (h : ∀ i < n, p i = q i) : scan n p = scan n q := by
  induction n generalizing p q with
  | zero => rfl
  | succ n ih => rw [scan, scan, h 0 (by omega), ih fun i hi => h (i+1) (by omega)]

section Loops
variable {kend : Word} {all : Set Word} {s : Vm} {roots hand : List Word} {root psz : Word}

def Mapped (s : Vm) (root : Word) (x : ℕ) : Prop :=
  x < 2^38 ∧ ∃ pte, translate s root (pageOf x) = some pte ∧ pte&&&pteU ≠ 0#64

theorem pageOf_lt {x : ℕ} (h : x < 2^38) : pageOf x < maxva := by
  rw [BitVec.lt_def, toNat_maxva, toNat_pageOf (by omega)]
  omega

theorem copyinstrLoop_exact (hkend : 0#64 < kend) (hroot : root ∈ roots)
    (h : Kept kend all s roots hand)
    (hs : Shielded s root) (n : ℕ) (srcva max : Word)
    (hfuel : srcva.toNat%4096+max.toNat ≤ n*4096) :
    ∃ r k, copyinstrLoop root n srcva max s =
        .ok (r,(List.range k).map fun i => userByte s root (srcva.toNat+i)) ∧ k ≤ max.toNat ∧
      (∀ i < k, Mapped s root (srcva.toNat+i)) ∧
      ((r = 0 ∧ ∃ j, k = j+1 ∧ userByte s root (srcva.toNat+j) = 0 ∧
          ∀ i < j, userByte s root (srcva.toNat+i) ≠ 0) ∨
        r = -1 ∧ (∀ i < k, userByte s root (srcva.toNat+i) ≠ 0) ∧
          (k = max.toNat ∨ ¬ Mapped s root (srcva.toNat+k))) := by
  induction n generalizing srcva max with
  | zero => exact ⟨-1,0,rfl,Nat.zero_le _,nofun,.inr ⟨rfl,nofun,.inl (by omega)⟩⟩
  | succ n ih =>
    unfold copyinstrLoop
    by_cases hmax : 0#64 < max
    · have hpos : 0 < max.toNat := BitVec.lt_def.mp hmax
      rw [if_pos hmax]
      simp only [pgrounddown_eq srcva]
      have haligned : (pageOf srcva.toNat).toNat%4096 = 0 := by
        rw [toNat_pageOf srcva.isLt]
        omega
      obtain ⟨pa,hwalk,hfound⟩ := walkaddr_ok s root (pageOf srcva.toNat)
      simp only [hwalk, bind, Except.bind]
      by_cases hzero : pa = 0#64
      · rw [if_pos hzero]
        refine ⟨-1,0,rfl,Nat.zero_le _,nofun,.inr ⟨rfl,nofun,.inr ?_⟩⟩
        rintro ⟨hlt,pte,hpte,hu⟩
        rw [Nat.add_zero] at hlt hpte
        have hva := pageOf_lt hlt
        rw [walkaddr_user hva hpte hu, hzero, Except.ok.injEq] at hwalk
        exact page_real hkend h hroot (userVa_of_flag hs haligned hva hpte hu) hpte hwalk
      · rw [if_neg hzero]
        obtain ⟨hlt,pte,hpte,hu,rfl⟩ := hfound hzero
        have hinside := userVa_iff.mp (userVa_of_flag hs haligned hlt hpte hu)
        rw [toNat_pageOf srcva.isLt] at hinside
        have hoffset := toNat_offset srcva
        have hchunk := toNat_chunk srcva max
        have hrest := toNat_rest srcva max
        rw [pgrounddown_eq] at hoffset
        rw [hoffset, hchunk]
        have hnext := toNat_nextPage (a := srcva) (by omega)
        have hfirst : ∀ i < min (4096-srcva.toNat%4096) max.toNat, Mapped s root (srcva.toNat+i) ∧
            pageByte (s.mem (pte2pa pte)) (srcva.toNat%4096+i) = userByte s root
              (srcva.toNat+i) := by
          intro i hi
          obtain ⟨hsame,hmod⟩ := same_page hi
          have hpte' : translate s root (pageOf (srcva.toNat+i)) = some pte := by
            rw [hsame]
            exact hpte
          exact ⟨⟨by omega,pte,hpte',hu⟩,by rw [userByte_some hpte', hmod]⟩
        -- the scan sees the bytes of the user
        have hscan : scan (min (4096-srcva.toNat%4096) max.toNat) (fun i =>
            pageByte (s.mem (pte2pa pte)) (srcva.toNat%4096+i)) =
            scan (min (4096-srcva.toNat%4096) max.toNat) (fun i =>
              userByte s root (srcva.toNat+i)) :=
          scan_congr fun i hi => (hfirst i hi).2
        rw [hscan]
        rcases scan_cases (min (4096-srcva.toNat%4096) max.toNat) (fun i =>
          userByte s root (srcva.toNat+i)) with
          ⟨hscan,hall⟩ | ⟨j,hj,hscan,hnul,hall⟩
        · obtain ⟨r,k,hok,hk,hmapped,hr⟩ :=
            ih (pageOf srcva.toNat+pgsize) (max-chunk srcva max) (by omega)
          rw [hnext] at hok hmapped hr
          rw [hrest] at hk hr
          simp only [hscan, hok, Bool.false_eq_true, if_false]
          have htail : ∀ i < max.toNat-min (4096-srcva.toNat%4096) max.toNat,
            srcva.toNat/4096*4096+4096+i =
              srcva.toNat+(min (4096-srcva.toNat%4096) max.toNat+i) := fun i hi =>
                next_start max.toNat hi
          have hle : min (4096-srcva.toNat%4096) max.toNat ≤ max.toNat := min_le_right _ _
          generalize min (4096-srcva.toNat%4096) max.toNat = first at *
          refine ⟨r,first+k,?_,?_,?_,?_⟩
          · have hbytes : (List.range k).map (fun i =>
              userByte s root (srcva.toNat/4096*4096+4096+i)) =
                (List.range k).map fun i => userByte s root (srcva.toNat+(first+i)) :=
              List.map_congr_left fun i hi => by rw [htail i ((List.mem_range.mp hi).trans_le hk)]
            rw [hbytes, List.range_add, List.map_append, List.map_map]
            rfl
          · omega
          · intro i hi
            by_cases hin : i < first
            · exact (hfirst i hin).1
            · have hmap := hmapped (i-first) (by omega)
              rwa [htail (i-first) (by omega), Nat.add_sub_cancel' (by omega)] at hmap
          · have hbyte : ∀ m ≤ k, (∀ i < m, userByte s root (srcva.toNat/4096*4096+4096+i) ≠ 0) →
                ∀ i < first+m, userByte s root (srcva.toNat+i) ≠ 0 := by
              intro m hm hne i hi
              by_cases hin : i < first
              · exact hall i hin
              · have hne' := hne (i-first) (by omega)
                rwa [htail (i-first) (by omega), Nat.add_sub_cancel' (by omega)] at hne'
            rcases hr with ⟨hr,j,hj,hnul,hne⟩ | ⟨hr,hne,hstop⟩
            · rw [htail j (by omega)] at hnul
              exact .inl ⟨hr,first+j,by omega,hnul,hbyte j (by omega) hne⟩
            · refine .inr ⟨hr,hbyte k le_rfl hne,?_⟩
              rcases Nat.lt_or_ge k (max.toNat-first) with hlt | hge
              · rw [htail k hlt] at hstop
                exact .inr (hstop.resolve_left (by omega))
              · exact .inl (by omega)
        · refine ⟨0,j+1,by rw [hscan]; rfl,by omega,fun i hi => (hfirst i (by omega)).1,
            .inl ⟨rfl,j,rfl,hnul,hall⟩⟩
    · rw [if_neg hmax]
      refine ⟨-1,0,rfl,Nat.zero_le _,nofun,.inr ⟨rfl,nofun,.inl ?_⟩⟩
      rw [BitVec.lt_def] at hmax
      simpa using (Nat.eq_zero_of_not_pos hmax).symm

theorem copyinstr_exact (hkend : 0#64 < kend) (hroot : root ∈ roots)
    (h : Kept kend all s roots hand)
    (hs : Shielded s root) (srcva max : Word) :
    ∃ r k, copyinstr root srcva max s =
        .ok (r,(List.range k).map fun i => userByte s root (srcva.toNat+i)) ∧ k ≤ max.toNat ∧
      (∀ i < k, Mapped s root (srcva.toNat+i)) ∧
      ((r = 0 ∧ ∃ j, k = j+1 ∧ userByte s root (srcva.toNat+j) = 0 ∧
          ∀ i < j, userByte s root (srcva.toNat+i) ≠ 0) ∨
        r = -1 ∧ (∀ i < k, userByte s root (srcva.toNat+i) ≠ 0) ∧
          (k = max.toNat ∨ ¬ Mapped s root (srcva.toNat+k))) :=
  copyinstrLoop_exact hkend hroot h hs _ srcva max (rounds_suffice srcva max)

end Loops

section Agreement
variable {kend : Word} {all : Set Word} {s : Vm} {roots hand : List Word} {root psz : Word}

/-- What `copyin` returns is the string `l` and its nul, within the first `max` bytes. -/
def IsString (kend psz root srcva max : Word) (s : Vm) (l : List UInt8) : Prop :=
  0 ∉ l ∧ l.length+1 ≤ max.toNat ∧
    ∃ s', copyin kend root psz root srcva (BitVec.ofNat 64 (l.length+1)) s = .ok (0,l++[0],s')

def RunsOut (s : Vm) (root psz : Word) (a max : ℕ) : Prop :=
  ∃ i < max, Lazy s root psz (pageOf (a+i)) ∧ ∀ j < i, Mapped s root (a+j) ∧
    userByte s root (a+j) ≠ 0

variable {x a len j : ℕ}

theorem Mapped.not_lazy (h : Mapped s root x) : ¬ Lazy s root psz (pageOf x) := by
  obtain ⟨hlt,pte,hpte,-⟩ := h
  intro hlazy
  cases hpte.symm.trans (lazy_missing hlazy (by rw [toNat_pageOf (by omega)]; omega))

theorem mapped_or_lazy (h : Ready s root psz false a len) (hx : a ≤ x) (hx' : x < a+len) :
    Mapped s root x ∨ Lazy s root psz (pageOf x) := by
  obtain ⟨hlt,⟨pte,hpte,hu,-⟩ | hlazy⟩ := h x hx hx'
  · exact .inl ⟨hlt,pte,hpte,hu⟩
  · exact .inr hlazy

theorem possible_mapped (h : ∀ i < len, Mapped s root (a+i)) : Possible s root psz false a len := by
  have hall : ∀ x, a ≤ x → x < a+len → Mapped s root x := by
    intro x hx hx'
    have := h (x-a) (by omega)
    rwa [Nat.add_sub_cancel' hx] at this
  refine ⟨fun x hx hx' => ?_,?_⟩
  · obtain ⟨hlt,pte,hpte,hu⟩ := hall x hx hx'
    exact ⟨hlt,.inl ⟨pte,hpte,hu,nofun⟩⟩
  · have hnone : absent s root psz a len = [] := by
      apply List.filter_eq_nil_iff.mpr
      intro va hva
      obtain ⟨x,hx,hx',rfl⟩ := mem_touched hva
      simpa using (hall x hx hx').not_lazy
    rw [hnone, needed_nil]
    exact Nat.zero_le _

theorem touched_nodup (h : a+len ≤ 2^38) : (touched a len).Nodup := by
  refine List.Nodup.map_on ?_ List.nodup_range
  intro i hi j hj heq
  rw [List.mem_range] at hi hj
  have hnum := congrArg BitVec.toNat heq
  split_ifs at hi hj with hlen
  · omega
  · rw [toNat_pageOf (by omega), toNat_pageOf (by omega)] at hnum
    omega

theorem possible_last {n : ℕ} (h : ∀ i < n, Mapped s root (a+i)) (ha : a+n < 2^38)
    (hlazy : Lazy s root psz (pageOf (a+n))) (hmem : needed s root [pageOf (a+n)] ≤ s.free.length) :
    Possible s root psz false a (n+1) := by
  have hall : ∀ x, a ≤ x → x < a+(n+1) → x = a+n ∨ Mapped s root x := by
    intro x hx hx'
    by_cases hlast : x = a+n
    · exact .inl hlast
    · have := h (x-a) (by omega)
      rw [Nat.add_sub_cancel' hx] at this
      exact .inr this
  refine ⟨fun x hx hx' => ?_,?_⟩
  · rcases hall x hx hx' with rfl | ⟨hlt,pte,hpte,hu⟩
    · exact ⟨ha,.inr hlazy⟩
    · exact ⟨hlt,.inl ⟨pte,hpte,hu,nofun⟩⟩
  · have honly : ∀ va ∈ absent s root psz a (n+1), va = pageOf (a+n) := by
      intro va hva
      obtain ⟨hva,hl⟩ := List.mem_filter.mp hva
      obtain ⟨x,hx,hx',rfl⟩ := mem_touched hva
      rcases hall x hx hx' with rfl | hmapped
      · rfl
      · exact absurd (of_decide_eq_true hl) hmapped.not_lazy
    have hrep := List.eq_replicate_of_mem honly
    have hnodup : (absent s root psz a (n+1)).Nodup := (touched_nodup (by omega)).filter _
    rw [hrep, List.nodup_replicate] at hnodup
    rw [hrep]
    rcases Nat.lt_or_ge (absent s root psz a (n+1)).length 1 with hlt | hge
    · rw [Nat.lt_one_iff.mp hlt, List.replicate_zero, needed_nil]
      exact Nat.zero_le _
    · rw [le_antisymm hnodup hge]
      exact hmem

theorem range_nul {f : ℕ → UInt8} {l : List UInt8} :
    (List.range (j+1)).map f = l++[0] ↔ l = (List.range j).map f ∧ f j = 0 := by
  rw [List.range_succ, List.map_append, List.map_singleton]
  constructor
  · intro h
    obtain ⟨hl,hnul⟩ := List.append_inj' h rfl
    exact ⟨hl.symm,by simpa using hnul⟩
  · rintro ⟨rfl,hnul⟩
    rw [hnul]

theorem range_append_nul (f : ℕ → UInt8) (h : f j = 0) :
    (List.range (j+1)).map f = (List.range j).map f++[0] :=
  range_nul.mpr ⟨rfl,h⟩

theorem isString_iff (hkend : 0#64 < kend) (hroot : root ∈ roots) (hsz : psz.toNat ≤ 2^38-8192)
    (h : Kept kend all s roots hand) (hs : Shielded s root) (srcva max : Word) (l : List UInt8) :
    IsString kend psz root srcva max s l ↔ ∃ n, n+1 ≤ max.toNat ∧
      Possible s root psz false srcva.toNat (n+1) ∧
      l = (List.range n).map (fun i => userByte s root (srcva.toNat+i)) ∧
        userByte s root (srcva.toNat+n) = 0 ∧
      ∀ i < n, userByte s root (srcva.toNat+i) ≠ 0 := by
  have hcopy : ∀ n, n+1 ≤ max.toNat → ∃ r k s', copyin kend root psz root srcva
    (BitVec.ofNat 64 (n+1)) s =
        .ok (r,(List.range k).map fun i => userByte s root (srcva.toNat+i),s') ∧
      (Possible s root psz false srcva.toNat (n+1) ∧ r = 0 ∧ k = n+1 ∨
        ¬ Possible s root psz false srcva.toNat (n+1) ∧ r = -1) := by
    intro n hn
    have hlen : (BitVec.ofNat 64 (n+1)).toNat = n+1 := by
      have := max.isLt
      rw [BitVec.toNat_ofNat]
      omega
    obtain ⟨r,k,s',hok,-,-,hr,-,-⟩ :=
      copyin_exact hkend hroot hsz srcva (BitVec.ofNat 64 (n+1)) h hs
    rw [hlen] at hr
    exact ⟨r,k,s',hok,hr.imp_right fun hx => ⟨hx.1,hx.2.1⟩⟩
  constructor
  · rintro ⟨hnul,hmax,s',hok⟩
    obtain ⟨r,k,s'',hok',hr⟩ := hcopy l.length hmax
    obtain ⟨rfl,hbytes⟩ := Prod.mk.inj (Except.ok.inj (hok'.symm.trans hok))
    obtain ⟨hposs,-,rfl⟩ := hr.resolve_right (fun hx => by omega)
    obtain ⟨hl,hend⟩ := range_nul.mp (Prod.mk.inj hbytes).1
    refine ⟨l.length,hmax,hposs,hl,hend,fun i hi hzero => hnul ?_⟩
    rw [hl]
    exact List.mem_map.mpr ⟨i,List.mem_range.mpr hi,hzero⟩
  · rintro ⟨n,hmax,hposs,rfl,hend,hne⟩
    have hlen : ((List.range n).map fun i => userByte s root (srcva.toNat+i)).length = n := by simp
    obtain ⟨r,k,s',hok,hr⟩ := hcopy n hmax
    obtain ⟨-,rfl,rfl⟩ := hr.resolve_right (fun hx => hx.1 hposs)
    refine ⟨?_,by rwa [hlen],s',?_⟩
    · intro hmem
      obtain ⟨i,hi,hzero⟩ := List.mem_map.mp hmem
      exact hne i (List.mem_range.mp hi) hzero
    · rw [hlen, hok, range_append_nul (fun i => userByte s root (srcva.toNat+i)) hend]

theorem copyinstr_agrees (hkend : 0#64 < kend) (hroot : root ∈ roots) (hsz : psz.toNat ≤ 2^38-8192)
    (h : Kept kend all s roots hand) (hs : Shielded s root) (srcva max : Word)
    (hmem : ∀ va, Lazy s root psz va → needed s root [va] ≤ s.free.length) :
    (∀ l, copyinstr root srcva max s = .ok (0,l++[0]) ↔ IsString kend psz root srcva max s l) ↔
      ¬ RunsOut s root psz srcva.toNat max.toNat := by
  obtain ⟨r,k,hok,hk,hmapped,hr⟩ := copyinstr_exact hkend hroot h hs srcva max
  constructor
  · rintro hagree ⟨i,hi,hlazy,hbefore⟩
    have hlt : srcva.toNat+i < 2^38 := by
      have := BitVec.lt_def.mp hlazy.1
      cases i with
      | zero =>
        rw [Nat.add_zero, toNat_pageOf srcva.isLt] at this
        omega
      | succ i =>
        have hprev := (hbefore i (by omega)).1.1
        rw [toNat_pageOf (by omega)] at this
        omega
    have hzero : userByte s root (srcva.toNat+i) = 0 := by
      rw [userByte, lazy_missing hlazy (by rw [toNat_pageOf (by omega)]; omega)]
    have hposs := possible_last (fun j hj => (hbefore j hj).1) hlt hlazy (hmem _ hlazy)
    have hstring := (isString_iff hkend hroot hsz h hs srcva max _).mpr
      ⟨i,by omega,hposs,rfl,hzero,fun j hj => (hbefore j hj).2⟩
    obtain ⟨rfl,hbytes⟩ := Prod.mk.inj (Except.ok.inj (hok.symm.trans ((hagree _).mpr hstring)))
    have hlength := congrArg List.length hbytes
    simp only [List.length_map, List.length_range, List.length_append, List.length_singleton]
      at hlength
    exact (hmapped i (by omega)).not_lazy hlazy
  · intro hno l
    rw [isString_iff hkend hroot hsz h hs, hok]
    constructor
    · intro hcopy
      obtain ⟨rfl,hbytes⟩ := Prod.mk.inj (Except.ok.inj hcopy)
      obtain ⟨-,j,rfl,hend,hne⟩ := hr.resolve_right (fun hx => by omega)
      exact ⟨j,hk,possible_mapped hmapped,(range_nul.mp hbytes).1,hend,hne⟩
    · rintro ⟨n,hmax,hposs,rfl,hend,hne⟩
      -- each page is mapped, as no page before it has ended the string
      have hall : ∀ i ≤ n, Mapped s root (srcva.toNat+i) := by
        intro i
        induction i using Nat.strong_induction_on with
        | h i ih =>
          intro hi
          refine (mapped_or_lazy hposs.1 (by omega) (by omega)).resolve_right fun hlazy => ?_
          exact hno ⟨i,by omega,hlazy,fun j hj => ⟨ih j hj (by omega),hne j (by omega)⟩⟩
      rcases hr with ⟨rfl,j,rfl,hnul,hbefore⟩ | ⟨-,hnone,hstop⟩
      · obtain rfl : j = n := by
          rcases Nat.lt_trichotomy j n with hlt | heq | hgt
          · exact absurd hnul (hne j hlt)
          · exact heq
          · exact absurd hend (hbefore n hgt)
        rw [range_append_nul (fun i => userByte s root (srcva.toNat+i)) hend]
      · exfalso
        rcases Nat.lt_or_ge n k with hlt | hge
        · exact hnone n hlt hend
        · exact hstop.elim (fun heq => by omega) (fun hnot => hnot (hall k hge))

end Agreement

end GreenOS.CopyStrings
