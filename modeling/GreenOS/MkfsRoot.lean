import GreenOS.MkfsImage
import GreenOS.FsDirs

/-!
# The files and the root directory of the image

The inodes below `freeinode` are the root directory and one file for each
input; the root directory lists them. `mkfs_image` says what the finished image
is.
-/

namespace GreenOS.MkfsRoot
open ByteBlock LogCode DiskLayout FsMemory FsCode
open FsNames FsOwned
open FsMap FsContent FsInodes FsTrunc
open FsDirs Mkfs MkfsImage
open Function (update update_self update_of_ne update_eq_self)

abbrev Entry := ℕ × Name

def listing (es : List Entry) : List UInt8 := es.flatMap (fun e => direntBytes e.1 e.2)

theorem listing_length (es : List Entry) : (listing es).length = direntSize*es.length := by
  induction es with
  | nil => rfl
  | cons e es ih =>
    have : listing (e::es) = direntBytes e.1 e.2 ++ listing es := rfl
    rw [this, List.length_append, direntBytes_length, ih, List.length_cons, Nat.mul_succ,
      Nat.add_comm]

theorem listing_append (es es' : List Entry) : listing (es++es') = listing es ++ listing es' :=
  List.flatMap_append

variable {es : List Entry} {s : Build} {files : List Input} {img : ℕ → Block}

theorem getD_listing {n j : ℕ} {e : Entry} (h : es[n]? = some e)
    (hj : j < direntSize) : (listing es).getD (direntSize*n+j) 0 =
    (direntBytes e.1 e.2).getD j 0 := by
  induction es generalizing n with
  | nil => cases h
  | cons a es ih =>
    have hcons : listing (a::es) = direntBytes a.1 a.2 ++ listing es := rfl
    have hlen := direntBytes_length a.1 a.2
    cases n with
    | zero =>
      cases h
      rw [hcons, Nat.mul_zero, Nat.zero_add, List.getD_append _ _ _ _ (by omega)]
    | succ n =>
      rw [hcons, List.getD_append_right _ _ _ _ (by rw [hlen, Nat.mul_succ]; omega), hlen,
        ← ih (n := n) h]
      congr 1
      rw [Nat.mul_succ]
      omega

section Slots
variable {s s' : Build} {d d' : Dinode}

theorem appendSlot_slots {i j : Fin (ndirect+1)} (hslot : appendSlot s d i = (s',d'))
    (hne : j ≠ i) : d'.addrs j = d.addrs j := by
  unfold appendSlot at hslot
  split_ifs at hslot
  · cases hslot
    exact setAddrs_of_ne hne _ _
  · cases hslot
    rfl

variable {j : ℕ}

theorem appendBlock_slots {fbn x : ℕ} (hj : j < ndirect) (hne : j ≠ fbn)
    (hblock : appendBlock s d fbn = some (s',d',x)) :
    d'.addrs (direct j) = d.addrs (direct j) := by
  unfold appendBlock at hblock
  split_ifs at hblock with hdirect
  · cases hslot : appendSlot s d (direct fbn) with
    | mk s₁ d₁ =>
      rw [hslot] at hblock
      cases hblock
      apply appendSlot_slots hslot
      intro heq
      have := congrArg Fin.val heq
      rw [direct_val hj, direct_val hdirect] at this
      exact hne this
  · cases hslot : appendSlot s d indirect with
    | mk s₁ d₁ =>
      rw [hslot] at hblock
      obtain ⟨ind,-,hblock⟩ := Option.bind_eq_some_iff.mp hblock
      have hd := appendSlot_slots hslot (direct_ne_indirect hj)
      split_ifs at hblock <;> cases hblock <;> exact hd

theorem appendLoop_slots {left off off' : ℕ} {p : List UInt8} (hj : j < ndirect)
    (hend : off+p.length ≤ j*bsize) (hloop : appendLoop left s d off p = some (s',d',off')) :
    d'.addrs (direct j) = d.addrs (direct j) := by
  have hb : bsize = 1024 := rfl
  induction left generalizing s d off p with
  | zero =>
    cases hloop
    rfl
  | succ left ih =>
    rw [appendLoop] at hloop
    split_ifs at hloop with hnil hmax
    · cases hloop
      rfl
    · obtain ⟨⟨s₁,d₁,x⟩,hblock,hloop⟩ := Option.bind_eq_some_iff.mp hloop
      obtain ⟨buf,-,hloop⟩ := Option.bind_eq_some_iff.mp hloop
      have hpos : 0 < p.length := List.length_pos_iff.mpr hnil
      have hne : j ≠ off/bsize := by
        rw [hb] at hend ⊢
        omega
      refine (ih ?_ hloop).trans (appendBlock_slots hj hne hblock)
      rw [List.length_drop]
      omega

end Slots

section Populated
variable {s s' : Build} {D : Inodes} {own : Owners} {C : ℕ → List UInt8}

def Trimmed (D : Inodes) (C : ℕ → List UInt8) : Prop :=
  ∀ i j, i < ninodes → j < ndirect → (C i).length ≤ j*bsize → (D i).addrs (direct j) = 0

variable {i : ℕ} {p : List UInt8} {es : List Entry}

theorem iappend_slots (h : Built s D own C) (hi : i < ninodes) (hp : iappend s i p = some s')
    {j : ℕ} (hj : j < ndirect) (hend : (C i).length+p.length ≤ j*bsize) :
    (diskInode superblock (view s') i).addrs (direct j) = (D i).addrs (direct j) := by
  have hlt := iblock_fits hi
  rw [iappend, rinode_eq hi, h.disk i hi, Option.bind_eq_bind, Option.bind_some] at hp
  obtain ⟨⟨s₁,din,off⟩,hloop,hw⟩ := Option.bind_eq_some_iff.mp hp
  obtain ⟨buf,hrd,hw⟩ := Option.bind_eq_some_iff.mp hw
  cases hw
  obtain ⟨-,rfl⟩ := rsect_some hrd
  rw [diskInode, view_of_ne (by omega), ← diskInode, wsect, diskInode_putDinode, if_pos rfl]
  rw [← h.size i hi] at hend
  have hslot : din.addrs (direct j) = (D i).addrs (direct j) := appendLoop_slots hj hend hloop
  exact hslot

structure Populated (s : Build) (D : Inodes) (own : Owners) (C : ℕ → List UInt8) : Prop where
  built : Built s D own C
  rooted : rootino < s.freeinode
  unused : ∀ i, i < ninodes → i = 0 ∨ s.freeinode ≤ i → D i = zeroDinode
  used : ∀ i, 0 < i → i < s.freeinode →
    (D i).type = (if i = rootino then tDir else tFile) ∧ (D i).nlink = 1

theorem used_type (h : Populated s D own C) (h0 : 0 < i) (hi : i < s.freeinode) :
    (D i).type ≠ 0 := by
  rw [(h.used i h0 hi).1]
  split_ifs <;> decide

theorem populated_append (h : Populated s D own C) (h0 : 0 < i) (hi : i < s.freeinode)
    (hlt : s.freeinode ≤ ninodes) (hp : iappend s i p = some s') :
    s'.freeinode = s.freeinode ∧
      ∃ D' own', Populated s' D' own' (update C i (C i ++ p)) ∧
        (Trimmed D C → Trimmed D' (update C i (C i ++ p))) := by
  have hin := lt_of_lt_of_le hi hlt
  obtain ⟨-,hfree,D',own',hbuilt,hother,hfields⟩ :=
    iappend_spec h.built hin (used_type h h0 hi) hp
  refine ⟨hfree,D',own',⟨hbuilt,hfree ▸ h.rooted,fun j hj hunused => ?_,fun j hj0 hj => ?_⟩,
    fun htrim k j hk hj hend => ?_⟩
  · rw [hfree] at hunused
    rw [hother j (by omega)]
    exact h.unused j hj hunused
  · rw [hfree] at hj
    by_cases hji : j = i
    · rw [hji, hfields]
      exact h.used i h0 hi
    · rw [hother j hji]
      exact h.used j hj0 hj
  · by_cases hki : k = i
    · subst hki
      rw [update_self, List.length_append] at hend
      rw [← hbuilt.disk k hk, iappend_slots h.built hk hp hj hend]
      exact htrim k j hk hj (by omega)
    · rw [update_of_ne hki] at hend
      rw [hother k hki]
      exact htrim k j hk hj hend

theorem appendData_spec {left : ℕ} {data : List UInt8} (h : Populated s D own C) (h0 : 0 < i)
    (hi : i < s.freeinode) (hlt : s.freeinode ≤ ninodes) (hfuel : data.length ≤ left)
    (hdata : appendData i left s data = some s') :
    s'.freeinode = s.freeinode ∧
      ∃ D' own', Populated s' D' own' (update C i (C i ++ data)) ∧
        (Trimmed D C → Trimmed D' (update C i (C i ++ data))) := by
  have hstop : data = [] → update C i (C i ++ data) = C := by
    rintro rfl
    rw [List.append_nil, update_eq_self]
  induction left generalizing s D own C data with
  | zero =>
    cases hdata
    rw [hstop (List.length_eq_zero_iff.mp (Nat.le_zero.mp hfuel))]
    exact ⟨rfl,D,own,h,id⟩
  | succ left ih =>
    rw [appendData] at hdata
    split_ifs at hdata with hnil
    · cases hdata
      rw [hstop hnil]
      exact ⟨rfl,D,own,h,id⟩
    · obtain ⟨s₁,happ,hdata⟩ := Option.bind_eq_some_iff.mp hdata
      obtain ⟨hfree,D₁,own₁,h₁,htrim₁⟩ := populated_append h h0 hi hlt happ
      have hpos : 0 < data.length := List.length_pos_iff.mpr hnil
      have hb : bsize = 1024 := rfl
      obtain ⟨hfree',D',own',h',htrim'⟩ := ih h₁ (hfree ▸ hi) (hfree ▸ hlt)
        (by rw [List.length_drop]; omega) hdata
        (by rintro h0; rw [h0, List.append_nil, update_eq_self])
      rw [Function.update_idem, update_self, List.append_assoc,
        List.take_append_drop] at h' htrim'
      exact ⟨hfree'.trans hfree,D',own',h',fun ht => htrim' (htrim₁ ht)⟩

def nameOf (f : Input) : Name := (shortname f.path).getD []

theorem appendFile_spec {f : Input} (h : Populated s D own C) (hlt : s.freeinode < ninodes)
    (hroot : C rootino = listing es) (hf : appendFile s f = some s') :
    s'.freeinode = s.freeinode+1 ∧ shortname f.path = some (nameOf f) ∧
      ∃ D' own' C', Populated s' D' own' C' ∧ (Trimmed D C → Trimmed D' C') ∧
        C' rootino = listing (es ++ [(s.freeinode,nameOf f)]) ∧ C' s.freeinode = f.data ∧
        ∀ j, j ≠ rootino → j ≠ s.freeinode → C' j = C j := by
  have hr : rootino = 1 := rfl
  have hrooted := h.rooted
  obtain ⟨name,hname,hf⟩ := Option.bind_eq_some_iff.mp hf
  obtain ⟨⟨inum,s₁⟩,halloc,hf⟩ := Option.bind_eq_some_iff.mp hf
  obtain ⟨s₂,hroot',hf⟩ := Option.bind_eq_some_iff.mp hf
  have hzero := h.unused s.freeinode hlt (.inr (le_refl _))
  obtain ⟨hinum,hfree₁,hbuilt₁⟩ := ialloc_spec h.built hlt hzero (by decide) halloc
  subst hinum
  have h₁ : Populated s₁ (update D s.freeinode
      { zeroDinode with type := tFile, nlink := 1 }) own C := by
    refine ⟨hbuilt₁,by omega,fun i hi hunused => ?_,fun i h0 hi => ?_⟩
    · rw [update_of_ne (by omega)]
      exact h.unused i hi (by omega)
    · by_cases heq : i = s.freeinode
      · rw [heq, update_self, if_neg (by omega)]
        exact ⟨rfl,rfl⟩
      · rw [update_of_ne heq]
        exact h.used i h0 (by omega)
  obtain ⟨hfree₂,D₂,own₂,h₂,htrim₂⟩ :=
    populated_append h₁ (by decide) (by omega) (by omega) hroot'
  obtain ⟨hfree₃,D₃,own₃,h₃,htrim₃⟩ :=
    appendData_spec h₂ (by omega) (by omega) (by omega) (Nat.le_succ _) hf
  have hnameOf : nameOf f = name := by rw [nameOf, hname, Option.getD_some]
  have hempty : C s.freeinode = [] := by
    rw [← List.length_eq_zero_iff, ← h.built.size s.freeinode hlt, hzero]
    rfl
  refine ⟨by omega,by rw [hname, hnameOf],D₃,own₃,_,h₃,fun ht => htrim₃ (htrim₂ ?_),?_,?_,?_⟩
  · intro i j hi hj hend
    by_cases heq : i = s.freeinode
    · rw [heq, update_self]
      rfl
    · rw [update_of_ne heq]
      exact ht i j hi hj hend
  · rw [update_of_ne (by omega), update_self, hroot, listing_append, hnameOf]
    simp [listing]
  · rw [update_self, update_of_ne (by omega), hempty, List.nil_append]
  · intro j hj hj'
    rw [update_of_ne hj', update_of_ne hj]

def fileEntries : ℕ → List Input → List Entry
  | _, [] => []
  | n, f::fs => (n,nameOf f)::fileEntries (n+1) fs

theorem appendFiles_spec {files : List Input} (h : Populated s D own C)
    (hlt : s.freeinode+files.length ≤ ninodes) (hroot : C rootino = listing es)
    (hf : appendFiles s files = some s') :
    s'.freeinode = s.freeinode+files.length ∧
      (∀ f ∈ files, shortname f.path = some (nameOf f)) ∧
      ∃ D' own' C', Populated s' D' own' C' ∧ (Trimmed D C → Trimmed D' C') ∧
        C' rootino = listing (es ++ fileEntries s.freeinode files) ∧
        (∀ n f, files[n]? = some f → C' (s.freeinode+n) = f.data) ∧
        ∀ j, j ≠ rootino → j < s.freeinode → C' j = C j := by
  induction files generalizing s D own C es with
  | nil =>
    cases hf
    refine ⟨rfl,nofun,D,own,C,h,id,?_,nofun,fun _ _ _ => rfl⟩
    rw [fileEntries, List.append_nil]
    exact hroot
  | cons f files ih =>
    rw [List.length_cons] at hlt ⊢
    obtain ⟨s₁,hfile,hf⟩ := Option.bind_eq_some_iff.mp hf
    obtain ⟨hfree,hname,D₁,own₁,C₁,h₁,htrim₁,hroot₁,hdata₁,hold₁⟩ :=
      appendFile_spec h (by omega) hroot hfile
    obtain ⟨hfree',hnames,D',own',C',h',htrim',hroot',hdata',hold'⟩ :=
      ih h₁ (by omega) hroot₁ hf
    have hrooted := h.rooted
    refine ⟨by omega,?_,D',own',C',h',fun ht => htrim' (htrim₁ ht),?_,?_,?_⟩
    · intro g hg
      cases hg with
      | head => exact hname
      | tail _ hg => exact hnames g hg
    · rw [hroot', List.append_assoc, hfree]
      rfl
    · intro n g hg
      cases n with
      | zero =>
        cases hg
        rw [Nat.add_zero, hold' s.freeinode (by omega) (by omega), hdata₁]
      | succ n =>
        have := hdata' n g hg
        rwa [hfree, Nat.add_assoc, Nat.add_comm 1] at this
    · intro j hj hlt'
      rw [hold' j hj (by omega), hold₁ j hj (by omega)]

end Populated

theorem addrOf_zeroDinode (blocks : Blocks) (pl : Place) : addrOf blocks zeroDinode pl = 0 := by
  cases pl <;> simp [addrOf, zeroDinode]

theorem byteAt_zeroDinode (blocks : Blocks) (o : ℕ) : byteAt blocks zeroDinode o = 0 := by
  rw [byteAt, if_pos (addrOf_zeroDinode blocks _)]

theorem emptyImage_zeros {b : ℕ} (h : b ≠ 1) : emptyImage.image b = zeros := by
  simp [emptyImage, h]

theorem ready_emptyImage : Ready emptyImage where
  data := le_refl _
  room := by decide
  zeros := fun b hb => by
    have hne : b ≠ 1 := by
      have : 1 < nmeta := by decide
      have hb : nmeta ≤ b := hb
      omega
    exact emptyImage_zeros hne

def metaOwners : Owners := fun b => if b < nmeta then .reserved else .free

theorem built_emptyImage : Built emptyImage (fun _ => zeroDinode) metaOwners (fun _ => []) where
  ready := ready_emptyImage
  stored := by
    have hfree : ∀ b, metaOwners b ≠ .free ↔ b < nmeta := by
      intro b
      unfold metaOwners
      split_ifs with h
      · exact iff_of_true (by simp) h
      · exact iff_of_false (not_not.mpr rfl) h
    refine ⟨⟨?_,?_⟩,?_,?_,?_,fun _ _ _ _ => rfl,fun _ _ => Nat.zero_le _⟩
    · exact fun x _ hne => absurd (addrOf_zeroDinode _ x.2) hne
    · intro b x hb
      unfold metaOwners at hb
      split_ifs at hb
    · intro b
      rw [dataStart_eq]
      unfold metaOwners
      split_ifs with h
      · exact iff_of_true h rfl
      · exact iff_of_false h (by simp)
    · intro b hb
      have := (hfree b).mp hb
      have hm : nmeta < fssize := by decide
      exact lt_trans this hm
    · intro b hb
      rw [bitOf_view ready_emptyImage hb, hfree]
      exact decide_eq_true_iff
  disk := fun i hi => by
    have hlt := iblock_fits hi
    have hge : 2 ≤ iblock superblock i := le_trans (by decide) (Nat.le_add_left _ _)
    rw [diskInode, view_of_ne (by omega), emptyImage_zeros (by omega), getDinode_zeros]
  clean := fun b => by
    unfold metaOwners
    split_ifs
    · simp
    · simp
  size := fun _ _ => rfl
  bytes := fun _ _ o _ => byteAt_zeroDinode _ o
  dense := fun _ _ _ ho => absurd ho (Nat.not_lt_zero _)

def dots (i parent : ℕ) : List Entry := [(i,dot),(parent,dotdot)]

theorem makeRoot_spec (h : makeRoot emptyImage = some s) :
    s.freeinode = 2 ∧ ∃ D own C, Populated s D own C ∧ Trimmed D C ∧
      C rootino = listing (dots rootino rootino) := by
  rw [makeRoot] at h
  obtain ⟨⟨root,s₁⟩,halloc,h⟩ := Option.bind_eq_some_iff.mp h
  obtain ⟨s₂,hdot,hdotdot⟩ := Option.bind_eq_some_iff.mp h
  obtain ⟨hroot,hfree₁,hbuilt₁⟩ := ialloc_spec built_emptyImage (by decide) rfl (by decide) halloc
  subst hroot
  have hfree₁ : s₁.freeinode = 2 := hfree₁
  have hone : emptyImage.freeinode = rootino := rfl
  rw [hone] at hbuilt₁ hdot hdotdot
  have h₁ : Populated s₁ (update (fun _ => zeroDinode) rootino
      { zeroDinode with type := tDir, nlink := 1 }) metaOwners (fun _ => []) := by
    have hr : rootino = 1 := rfl
    refine ⟨hbuilt₁,by omega,fun i hi hunused => ?_,fun i h0 hi => ?_⟩
    · rw [update_of_ne (by omega)]
    · have heq : i = rootino := by omega
      rw [heq, update_self, if_pos rfl]
      exact ⟨rfl,rfl⟩
  have hn : 2 ≤ ninodes := by decide
  have hr : rootino < 2 := by decide
  have htrim : Trimmed (update (fun _ => zeroDinode) rootino
      { zeroDinode with type := tDir, nlink := 1 }) (fun _ => []) := by
    intro i j _ _ _
    by_cases heq : i = rootino
    · rw [heq, update_self]
      rfl
    · rw [update_of_ne heq]
      rfl
  obtain ⟨hfree₂,D₂,own₂,h₂,htrim₂⟩ :=
    populated_append h₁ (by decide) (by omega) (by omega) hdot
  obtain ⟨hfree₃,D₃,own₃,h₃,htrim₃⟩ :=
    populated_append h₂ (by decide) (by omega) (by omega) hdotdot
  refine ⟨by omega,D₃,own₃,_,h₃,htrim₃ (htrim₂ htrim),?_⟩
  rw [update_self, update_self]
  rfl

/-- A finished image: `n` inodes in use, the root directory with entries `es`. -/
structure Image (img : Blocks) (D : Inodes) (own : Owners) (es : List Entry) (n : ℕ) : Prop where
  stored : Stored superblock D own img
  disk : ∀ i, i < ninodes → diskInode superblock img i = D i
  clean : ∀ b, own b ≠ .held ∧ own b ≠ .lost
  unused : ∀ i, i < ninodes → i = 0 ∨ n ≤ i → D i = zeroDinode
  used : ∀ i, 0 < i → i < n →
    (D i).type = (if i = rootino then tDir else tFile) ∧ (D i).nlink = 1
  size : (D rootino).size.toNat = (direntSize*es.length/bsize+1)*bsize
  entries : ∀ m e, es[m]? = some e → dent img (D rootino) m = direntBytes e.1 e.2
  tail : ∀ o, o < maxfile*bsize → direntSize*es.length ≤ o → byteAt img (D rootino) o = 0
  dense : ∀ o, o < direntSize*es.length → addrOf img (D rootino) (placeOf (o/bsize)) ≠ 0

theorem eq_of_getD {l l' : List UInt8} (hlen : l.length = l'.length)
    (h : ∀ j, j < l.length → l.getD j 0 = l'.getD j 0) : l = l' := by
  apply List.ext_getElem hlen
  intro j hj hj'
  have := h j hj
  rwa [List.getD_eq_getElem _ _ hj, List.getD_eq_getElem _ _ hj'] at this

theorem dent_length (blocks : Blocks) (d : Dinode) (n : ℕ) :
    (dent blocks d n).length = direntSize := by
  simp [dent, content]

theorem image_fixRoot {s' s'' : Build} {D : Inodes} {own : Owners} {C : ℕ → List UInt8}
    (h : Populated s D own C) (hroot : C rootino = listing es)
    (hes : direntSize*es.length < (maxfile-1)*bsize) (hfix : fixRoot s = some s')
    (hballoc : balloc s' s'.freeblock = some s'') :
    ∃ D' own', Image s''.image D' own' es s.freeinode ∧
      (D' rootino).addrs = (D rootino).addrs ∧ (∀ i, i ≠ rootino → D' i = D i) ∧
      (∀ i, i < ninodes → ∀ o, byteAt s''.image (D i) o = byteAt (view s) (D i) o) ∧
      ∀ i, i < ninodes → ∀ pl, addrOf s''.image (D i) pl = addrOf (view s) (D i) pl := by
  have hr : rootino < ninodes := by decide
  have hb : bsize = 1024 := rfl
  have hmf : maxfile = 268 := rfl
  have hsize : (D rootino).size.toNat = direntSize*es.length := by
    rw [h.built.size rootino hr, hroot, listing_length]
  have hround : (direntSize*es.length/bsize+1)*bsize ≤ maxfile*bsize := by
    simp only [hb, hmf] at hes ⊢
    omega
  rw [fixRoot, rinode_eq hr, h.built.disk rootino hr, Option.bind_eq_bind, Option.bind_some,
    hsize] at hfix
  obtain ⟨d,hd⟩ : ∃ d, d = { D rootino with
    size := BitVec.ofNat 32 ((direntSize*es.length/bsize+1)*bsize) } := ⟨_,rfl⟩
  rw [← hd] at hfix
  obtain ⟨hblocks,-,-⟩ := winode_spec hr h.built.ready hfix
  have himage : s''.image = (inodeWritten superblock ⟨view s,bootMem⟩ rootino d).blocks := by
    rw [← hblocks]
    unfold Mkfs.balloc at hballoc
    split_ifs at hballoc
    cases hballoc
    rfl
  have haddrs : d.addrs = (D rootino).addrs := by rw [hd]
  have htype := used_type h Nat.one_pos h.rooted
  have hdsize : d.size.toNat = (direntSize*es.length/bsize+1)*bsize := by
    rw [hd]
    exact toNat_addr (lt_of_le_of_lt hround (by decide))
  have hbyte : ∀ o, byteAt s''.image d o = byteAt (view s) (D rootino) o := by
    intro o
    rw [byteAt_congr haddrs, himage]
    exact inodeWritten_byteAt layout h.built.stored hr hr (sub_refl _) o
  have hself : update D rootino d rootino = d := update_self _ _ _
  refine ⟨update D rootino d,own,?_,by rw [hself, haddrs],
    fun i hi => update_of_ne hi _ _,fun i hi o => ?_,fun i hi pl => ?_⟩
  case refine_2 =>
    rw [himage]
    exact inodeWritten_byteAt layout h.built.stored hr hi (sub_refl _) o
  case refine_3 =>
    rw [himage]
    exact inodeWritten_addrOf layout h.built.stored hr hi (sub_refl _) pl
  constructor
  · rw [himage]
    apply stored_fields (stored_inodeWritten layout h.built.stored hr d) haddrs
    · rw [hd]
      exact .inl htype
    · omega
  · intro i hi
    rw [himage, inodeWritten_disk]
    by_cases heq : i = rootino
    · rw [if_pos heq, heq, hself]
    · rw [if_neg heq, update_of_ne heq]
      exact h.built.disk i hi
  · exact h.built.clean
  · intro i hi hunused
    have := h.rooted
    have hone : rootino = 1 := rfl
    rw [update_of_ne (by omega)]
    exact h.unused i hi hunused
  · intro i h0 hi
    by_cases heq : i = rootino
    · rw [heq, hself, hd]
      exact h.used rootino Nat.one_pos h.rooted
    · rw [update_of_ne heq]
      exact h.used i h0 hi
  · rw [hself, hdsize]
  · intro m e he
    rw [hself]
    have hm : m < es.length := (List.getElem?_eq_some_iff.mp he).1
    have hds : direntSize = 16 := rfl
    apply eq_of_getD
    · rw [dent_length, direntBytes_length]
    · intro j hj
      rw [dent_length] at hj
      rw [getD_dent m hj, hbyte, h.built.bytes rootino hr, hroot, getD_listing he hj]
      simp only [hds, hb, hmf] at hes hj ⊢
      omega
  · intro o ho hge
    rw [hself, hbyte, h.built.bytes rootino hr o ho, hroot, List.getD_eq_default]
    rw [listing_length]
    exact hge
  · intro o ho
    rw [hself, addrOf_congr haddrs, himage]
    have := h.built.dense rootino hr o (by rw [hroot, listing_length]; exact ho)
    rwa [inodeWritten_addrOf layout h.built.stored hr hr (sub_refl _)]

def rootEntries (files : List Input) : List Entry := dots rootino rootino ++ fileEntries 2 files

theorem fileEntries_length (n : ℕ) (files : List Input) :
    (fileEntries n files).length = files.length := by
  induction files generalizing n with
  | nil => rfl
  | cons f files ih => rw [fileEntries, List.length_cons, List.length_cons, ih]

/-- An inode of the image holds the bytes `data`, in blocks of its own. -/
structure FileAt (img : Blocks) (d : Dinode) (data : List UInt8) : Prop where
  size : d.size.toNat = data.length
  bytes : ∀ o, o < maxfile*bsize → byteAt img d o = data.getD o 0
  dense : ∀ o, o < data.length → addrOf img d (placeOf (o/bsize)) ≠ 0

structure Holds (img : Blocks) (D : Inodes) (files : List Input) : Prop where
  file : ∀ n f, files[n]? = some f → FileAt img (D (n+2)) f.data
  trimmed : ∀ j, j < ndirect → direntSize*(files.length+2) ≤ j*bsize →
    (D rootino).addrs (direct j) = 0

theorem mkfs_files (hfit : files.length+2 ≤ ninodes) (h : mkfs files = some img) :
    (∀ f ∈ files, shortname f.path = some (nameOf f)) ∧
      ∃ D own, Image img D own (rootEntries files) (files.length+2) ∧ Holds img D files := by
  rw [mkfs] at h
  obtain ⟨s₁,hroot,h⟩ := Option.bind_eq_some_iff.mp h
  obtain ⟨s₂,hfiles,h⟩ := Option.bind_eq_some_iff.mp h
  obtain ⟨s₃,hfix,h⟩ := Option.bind_eq_some_iff.mp h
  obtain ⟨s₄,hballoc,h⟩ := Option.bind_eq_some_iff.mp h
  cases h
  obtain ⟨hfree₁,D₁,own₁,C₁,h₁,htrim₁,hC₁⟩ := makeRoot_spec hroot
  obtain ⟨hfree₂,hnames,D₂,own₂,C₂,h₂,htrim₂,hC₂,hdata,-⟩ :=
    appendFiles_spec h₁ (by omega) hC₁ hfiles
  rw [hfree₁] at hC₂ hdata
  have hlen : (rootEntries files).length = files.length+2 := by
    rw [rootEntries, List.length_append, fileEntries_length]
    exact Nat.add_comm _ _
  have hn : ninodes = 200 := rfl
  have hC₂ : C₂ rootino = listing (rootEntries files) := hC₂
  obtain ⟨D,own,himg,haddrs,hother,hbyte,haddr⟩ := image_fixRoot h₂ hC₂ (by
    have hds : direntSize = 16 := rfl
    have hmax : (maxfile-1)*bsize = 273408 := rfl
    rw [hlen, hds, hmax]
    omega) hfix hballoc
  rw [hfree₂, hfree₁, Nat.add_comm] at himg
  refine ⟨hnames,D,own,himg,fun n f hf => ?_,fun j hj hend => ?_⟩
  · have hlt : n < files.length := (List.getElem?_eq_some_iff.mp hf).1
    have hi : n+2 < ninodes := by omega
    have hC : C₂ (n+2) = f.data := by rw [Nat.add_comm]; exact hdata n f hf
    have hr : rootino = 1 := rfl
    rw [hother (n+2) (by omega)]
    refine ⟨?_,fun o ho => ?_,fun o ho => ?_⟩
    · rw [h₂.built.size _ hi, hC]
    · rw [hbyte _ hi, h₂.built.bytes _ hi o ho, hC]
    · rw [haddr _ hi]
      exact h₂.built.dense _ hi o (by rw [hC]; exact ho)
  · rw [haddrs]
    apply htrim₂ htrim₁ rootino j (by decide) hj
    rw [hC₂, listing_length, hlen]
    exact hend

theorem mkfs_image (hfit : files.length+2 ≤ ninodes) (h : mkfs files = some img) :
    (∀ f ∈ files, shortname f.path = some (nameOf f)) ∧
      ∃ D own, Image img D own (rootEntries files) (files.length+2) := by
  obtain ⟨hnames,D,own,himg,-⟩ := mkfs_files hfit h
  exact ⟨hnames,D,own,himg⟩

end GreenOS.MkfsRoot
