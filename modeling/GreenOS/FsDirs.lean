import GreenOS.FsTable

/-!
# Directories

A directory is its entries, numbered from 0. `dirlookup` finds the first entry
with a name; `dirlink` writes a new entry into the first empty one, or behind
the last.
-/

namespace GreenOS.FsDirs
open Programs ByteBlock LogCode DiskLayout ProcTable
open BufferSeq (Env)
open FsMemory FsCode FsDirect FsOwned
open FsMap FsContent FsInodes
open FsState FsTable FsNames

def grave : List String := ["freeing free block","ilock: no type","unlink: nlink < 1"]

def Tolerates (E : String → Prop) : Prop := ∀ msg, msg ∉ grave → E msg

section Names

def text (p : ℕ → UInt8) : ℕ → Name
  | 0 => []
  | n+1 => if p 0 = 0 then [] else p 0::text (fun i => p (i+1)) n

theorem strncmp_text (p q : ℕ → UInt8) (n : ℕ) : strncmp p q n = 0 ↔ text p n = text q n := by
  induction n generalizing p q with
  | zero => exact iff_of_true rfl rfl
  | succ n ih =>
    have hsub : ((p 0).toNat : ℤ)-(q 0).toNat = 0 ↔ p 0 = q 0 := by
      rw [sub_eq_zero, Nat.cast_inj, UInt8.toNat_inj]
    rw [strncmp, text, text]
    by_cases heq : p 0 = q 0
    · by_cases hz : q 0 = 0
      · simp [heq, hz]
      · simp [heq, hz, ih]
    · rw [if_neg (fun h => heq h.2), hsub]
      refine iff_of_false heq (fun htext => ?_)
      split_ifs at htext with hp hq
      · exact heq (hp.trans hq.symm)
      · exact heq (List.cons.inj htext).1

variable {n : ℕ}

theorem text_congr {p q : ℕ → UInt8} (h : ∀ j < n, p j = q j) : text p n = text q n := by
  induction n generalizing p q with
  | zero => rfl
  | succ n ih =>
    rw [text, text, h 0 (Nat.succ_pos n), ih (fun j hj => h (j+1) (Nat.succ_lt_succ hj))]

theorem text_cstr {a : Name} (hn : a.length ≤ n) (h0 : 0 ∉ a) : text (cstr a) n = a := by
  induction n generalizing a with
  | zero => exact (List.length_eq_zero_iff.mp (Nat.le_zero.mp hn)).symm
  | succ n ih =>
    cases a with
    | nil => rfl
    | cons x a =>
      have hx : x ≠ 0 := fun hx => h0 (hx ▸ List.mem_cons_self)
      have htail := ih (Nat.le_of_succ_le_succ hn) (fun h => h0 (List.mem_cons_of_mem x h))
      rw [text]
      exact (if_neg hx).trans (congrArg (x::·) htail)

theorem direntName_lt (inum : ℕ) (name : Name) {i : ℕ} (hi : i < dirsiz) :
    direntName (direntBytes inum name) i = cstr name i := by
  have hdir : dirsiz = 14 := rfl
  have hds : direntSize = 16 := rfl
  simp [direntName, direntBytes, List.getD_eq_getElem?_getD, hds, show i+2 < 16 by omega]

theorem direntInum_bytes {inum : ℕ} (h : inum < 2^16) (name : Name) :
    direntInum (direntBytes inum name) = inum := by
  have hbytes : ∀ j < 2, (direntBytes inum name).getD j 0 = byteOf inum j := by
    intro j hj
    have hds : direntSize = 16 := rfl
    simp only [direntBytes, List.getD_eq_getElem?_getD, hds, List.getElem?_map,
      List.getElem?_range (show j < 16 by omega), Option.map_some, if_pos hj, Option.getD_some]
  rw [direntInum, le_congr hbytes, le_byteOf]
  exact Nat.mod_eq_of_lt h

end Names

def dent (blocks : Blocks) (d : Dinode) (n : ℕ) : List UInt8 :=
  content blocks d (direntSize*n) direntSize

def Matches (de : List UInt8) (name : Name) : Prop :=
  direntInum de ≠ 0 ∧ namecmp (cstr name) (direntName de) = 0

variable {blocks : Blocks} {d : Dinode} {n : ℕ}

theorem dent_congr {blocks' : Blocks} {d' : Dinode}
    (h : ∀ o, byteAt blocks' d' o = byteAt blocks d o) (n : ℕ) :
    dent blocks' d' n = dent blocks d n := content_congr h _ _

theorem getD_dent (n : ℕ) {j : ℕ} (hj : j < direntSize) :
    (dent blocks d n).getD j 0 = byteAt blocks d (direntSize*n+j) := by
  simp [dent, content, List.getD_eq_getElem?_getD, hj]

theorem dent_used (h : direntInum (dent blocks d n) ≠ 0) :
    ∃ j, j < direntSize ∧ byteAt blocks d (direntSize*n+j) ≠ 0 := by
  by_contra hall
  push Not at hall
  apply h
  have hz : ∀ j, j < direntSize → (dent blocks d n).getD j 0 = 0 := fun j hj =>
    (getD_dent n hj).trans (hall j hj)
  have h0 := hz 0 (by decide)
  have h1 := hz 1 (by decide)
  simp only [direntInum, le, h0, h1, Nat.zero_add]
  rfl

theorem addr_used (h : direntInum (dent blocks d n) ≠ 0) :
    addrOf blocks d (placeOf (direntSize*n/bsize)) ≠ 0 := by
  obtain ⟨j,hj,hbyte⟩ := dent_used h
  intro hz
  have hblk : (direntSize*n+j)/bsize = direntSize*n/bsize := by
    have hds : direntSize = 16 := rfl
    have hb : bsize = 1024 := rfl
    simp only [hds, hb] at hj ⊢
    omega
  rw [byteAt, hblk, if_pos hz] at hbyte
  exact hbyte rfl

def Readable (blocks : Blocks) (d : Dinode) : Prop :=
  direntSize ∣ d.size.toNat ∧ Dense blocks d 0 d.size.toNat

theorem Readable.entry (h : Readable blocks d) (hlt : direntSize*n < d.size.toNat) :
    Dense blocks d (direntSize*n) direntSize ∧ direntSize*n+direntSize ≤ d.size.toNat := by
  obtain ⟨⟨c,hc⟩,hdense⟩ := h
  have hn : n < c := Nat.lt_of_mul_lt_mul_left (hc ▸ hlt)
  have hend : direntSize*n+direntSize ≤ d.size.toNat := by
    rw [hc, ← Nat.mul_succ]
    exact Nat.mul_le_mul_left _ hn
  exact ⟨fun o _ ho => hdense o (Nat.zero_le o) (by omega),hend⟩

structure Scans (E : String → Prop) (s : Fs) (d : Dinode) : Prop where
  iget : Room s ∨ E "iget: no inodes"
  type : d.type = tDir ∨ E "dirlookup not DIR"
  lookup : Readable s.blocks d ∨ E "dirlookup read"
  link : Readable s.blocks d ∨ E "dirlink read"

theorem scans_of_tolerates {E : String → Prop} (hE : Tolerates E) (s : Fs) (d : Dinode) :
    Scans E s d where
  iget := .inr (hE _ (by decide))
  type := .inr (hE _ (by decide))
  lookup := .inr (hE _ (by decide))
  link := .inr (hE _ (by decide))

section Lookup
variable {sb : Superblock} {k : Fin ninode} {i : ℕ} {D : Inodes} {own : Owners} {s : Fs}
variable {env : Env} {E : String → Prop} {name : Name}

variable {D' D₁ : Inodes} {own' own₁ : Owners} {s' s₁ : Fs} {n : ℕ}
variable {Q : Option (Fin ninode × ℕ) → Fs → Prop}

theorem room_grown (h : Room s) (hg : Grown sb k i D own s D' own' s') :
    Room s' := by
  obtain ⟨k',hk'⟩ := h
  refine ⟨k',?_⟩
  rw [hg.mem, (withCopy_fields s.mem k k' _).1, hk']

theorem scans_grown (h : Scans E s (D i)) (hlt : direntSize*n < (D i).size.toNat)
    (hg : Grown sb k i D own s D' own' s')
    (hdense : Dense s.blocks (D i) (direntSize*n) direntSize → s' = s ∧ D' = D ∧ own' = own) :
    Scans E s' (D' i) := by
  by_cases hread : Readable s.blocks (D i)
  · obtain ⟨rfl,rfl,-⟩ := hdense (hread.entry hlt).1
    exact h
  · refine ⟨h.iget.imp_left (room_grown · hg),?_,.inr (h.lookup.resolve_left hread),
      .inr (h.link.resolve_left hread)⟩
    rw [hg.fields]
    exact h.type

structure Found (sb : Superblock) (k : Fin ninode) (i : ℕ) (name : Name) (n e : ℕ) (D : Inodes)
    (own : Owners) (s : Fs) (D' : Inodes) (own' : Owners) (s' : Fs) : Prop where
  grown : Grown sb k i D own s D' own' s'
  le : n ≤ e
  bound : direntSize*e+direntSize ≤ (D i).size.toNat
  hit : Matches (dent s.blocks (D i) e) name
  first : ∀ m, n ≤ m → m < e → ¬ Matches (dent s.blocks (D i) m) name
  dense : Dense s.blocks (D i) (direntSize*n) (direntSize*(e+1)-direntSize*n) →
    s' = s ∧ D' = D ∧ own' = own

theorem found_skip {e : ℕ} (hg : Grown sb k i D own s D₁ own₁ s₁)
    (hdense : Dense s.blocks (D i) (direntSize*n) direntSize → s₁ = s ∧ D₁ = D ∧ own₁ = own)
    (hmiss : ¬ Matches (dent s.blocks (D i) n) name)
    (h : Found sb k i name (n+1) e D₁ own₁ s₁ D' own' s') :
    Found sb k i name n e D own s D' own' s' where
  grown := grown_trans hg h.grown
  le := Nat.le_of_succ_le h.le
  bound := by
    have := h.bound
    rwa [hg.fields] at this
  hit := by
    have := h.hit
    rwa [dent_congr hg.bytes] at this
  first := fun m hm hme => by
    rcases Nat.eq_or_lt_of_le hm with rfl | hlt
    · exact hmiss
    · have := h.first m hlt hme
      rwa [dent_congr hg.bytes] at this
  dense := fun hd => by
    have hle := h.le
    have hds : direntSize = 16 := rfl
    obtain ⟨rfl,rfl,rfl⟩ := hdense (fun o ho hlt => hd o ho (by rw [hds] at *; omega))
    exact h.dense (fun o ho hlt => hd o (by rw [hds] at *; omega) (by rw [hds] at *; omega))

structure Missed (sb : Superblock) (k : Fin ninode) (i : ℕ) (name : Name) (n : ℕ) (D : Inodes)
    (own : Owners) (s : Fs) (D' : Inodes) (own' : Owners) (s' : Fs) : Prop where
  grown : Grown sb k i D own s D' own' s'
  none : ∀ m, n ≤ m → direntSize*m < (D i).size.toNat → ¬ Matches (dent s.blocks (D i) m) name
  dense : Dense s.blocks (D i) (direntSize*n) ((D i).size.toNat-direntSize*n) →
    s' = s ∧ D' = D ∧ own' = own

theorem missed_skip (hg : Grown sb k i D own s D₁ own₁ s₁)
    (hdense : Dense s.blocks (D i) (direntSize*n) direntSize → s₁ = s ∧ D₁ = D ∧ own₁ = own)
    (hbound : direntSize*n+direntSize ≤ (D i).size.toNat)
    (hmiss : ¬ Matches (dent s.blocks (D i) n) name)
    (h : Missed sb k i name (n+1) D₁ own₁ s₁ D' own' s') :
    Missed sb k i name n D own s D' own' s' where
  grown := grown_trans hg h.grown
  none := fun m hm hlt => by
    rcases Nat.eq_or_lt_of_le hm with rfl | hm'
    · exact hmiss
    · have := h.none m hm' (by rw [hg.fields]; exact hlt)
      rwa [dent_congr hg.bytes] at this
  dense := fun hd => by
    have hds : direntSize = 16 := rfl
    obtain ⟨rfl,rfl,rfl⟩ := hdense (fun o ho hlt => hd o ho (by omega))
    exact h.dense (fun o ho hlt => hd o (by rw [hds] at *; omega) (by rw [hds] at *; omega))

theorem missed_end (h : Open sb D own s k i) (hend : (D i).size.toNat ≤ direntSize*n) :
    Missed sb k i name n D own s D own s where
  grown := grown_refl h.stored h.copy
  none := fun m hm hlt => by
    have hds : direntSize = 16 := rfl
    rw [hds] at hend hlt
    omega
  dense := fun _ => ⟨rfl,rfl,rfl⟩

theorem scans_missed (h : Scans E s (D i))
    (hm : Missed sb k i name 0 D own s D' own' s') : Scans E s' (D' i) := by
  by_cases hread : Readable s.blocks (D i)
  · obtain ⟨rfl,rfl,-⟩ := hm.dense hread.2
    exact h
  · refine ⟨h.iget.imp_left (room_grown · hm.grown),?_,.inr (h.lookup.resolve_left hread),
      .inr (h.link.resolve_left hread)⟩
    rw [hm.grown.fields]
    exact h.type

theorem wp_lookupLoop (hsb : Layout sb) (hE : Scans E s (D i)) {size left : ℕ}
    (h : Open sb D own s k i) (hsize : size = (D i).size.toNat) (hfuel : size ≤ direntSize*n+left)
    (hnone : ∀ D' own' s', Missed sb k i name n D own s D' own' s' → Q none s')
    (hsome : ∀ e ip D' own' s', Found sb k i name n e D own s D' own' s' →
      Gets s' (direntInum (dent s.blocks (D i) e)) ip →
      Q (some (ip,direntSize*e)) (got s' (direntInum (dent s.blocks (D i) e)) ip)) :
    wp (handle env) E (lookupLoop sb k name size left (direntSize*n)) Q s := by
  have hds : direntSize = 16 := rfl
  induction left generalizing n D own s with
  | zero => exact wp_pure.mpr (hnone D own s (missed_end h (by omega)))
  | succ left ih =>
    rw [lookupLoop]
    apply wp_ite
    · intro hlt
      rw [wp_bind]
      apply wp_readEntry hsb h
      · intro r bytes s' hr hbad
        dsimp only
        rw [if_pos hr]
        exact wp_kpanic.mpr (hE.lookup.resolve_left (fun hread => hbad (hread.entry (hsize ▸ hlt))))
      · intro D₁ own₁ s₁ hg hdense hbound
        dsimp only
        rw [if_neg (not_not.mpr rfl)]
        have hE₁ := scans_grown hE (hsize ▸ hlt) hg hdense
        have hnext : ¬ Matches (dent s.blocks (D i) n) name →
            wp (handle env) E (lookupLoop sb k name size left (direntSize*n+direntSize)) Q s₁ := by
          intro hmiss
          rw [← Nat.mul_succ]
          apply ih hE₁ (open_grown h hg) (by rw [hg.fields]; exact hsize) (by rw [hds] at *; omega)
          · intro D' own' s' hm
            exact hnone D' own' s' (missed_skip hg hdense hbound hmiss hm)
          · intro e ip D' own' s' hf hgets
            rw [dent_congr hg.bytes] at hgets ⊢
            exact hsome e ip D' own' s' (found_skip hg hdense hmiss hf) hgets
        apply wp_ite
        · exact fun hempty => hnext (fun hmatch => hmatch.1 hempty)
        · intro hused
          apply wp_ite
          · intro hname
            rw [wp_bind]
            apply wp_iget hE₁.iget
            intro ip hgets
            refine wp_pure.mpr (hsome n ip D₁ own₁ s₁ ⟨hg,le_refl n,hbound,⟨hused,hname⟩,?_,?_⟩
              hgets)
            · exact fun m hm hlt' => absurd hlt' (by omega)
            · exact fun hd => hdense (fun o ho hlt' => hd o ho (by rw [hds] at *; omega))
          · exact fun hname => hnext (fun hmatch => hname hmatch.2)
    · exact fun hge => wp_pure.mpr (hnone D own s (missed_end h (by omega)))

theorem wp_dirlookup (hsb : Layout sb) (hE : Scans E s (D i)) (h : Open sb D own s k i)
    (hnone : ∀ D' own' s', (D i).type = tDir → Missed sb k i name 0 D own s D' own' s' → Q none s')
    (hsome : ∀ e ip D' own' s', (D i).type = tDir → Found sb k i name 0 e D own s D' own' s' →
      Gets s' (direntInum (dent s.blocks (D i) e)) ip →
      Q (some (ip,direntSize*e)) (got s' (direntInum (dent s.blocks (D i) e)) ip)) :
    wp (handle env) E (dirlookup sb k name) Q s := by
  rw [dirlookup, wp_bind, wp_getInode, h.copy]
  apply wp_ite
  · exact fun htype => wp_kpanic.mpr (hE.type.resolve_left htype)
  · intro htype
    push Not at htype
    apply wp_lookupLoop (n := 0) hsb hE h rfl (by omega)
    · exact fun D' own' s' hm => hnone D' own' s' htype hm
    · exact fun e ip D' own' s' hf hgets => hsome e ip D' own' s' htype hf hgets

end Lookup

section Link
variable {sb : Superblock} {k : Fin ninode} {i : ℕ} {D : Inodes} {own : Owners} {s : Fs}
variable {env : Env} {E : String → Prop} {name : Name} {X : ℕ → Prop}

structure Vacant (sb : Superblock) (k : Fin ninode) (i n e : ℕ) (D : Inodes) (own : Owners) (s : Fs)
    (D' : Inodes) (own' : Owners) (s' : Fs) : Prop where
  grown : Grown sb k i D own s D' own' s'
  le : n ≤ e
  full : ∀ m, n ≤ m → m < e → direntInum (dent s.blocks (D i) m) ≠ 0 ∧
    direntSize*m+direntSize ≤ (D i).size.toNat
  here : (direntSize*e+direntSize ≤ (D i).size.toNat ∧ direntInum (dent s.blocks (D i) e) = 0) ∨
    (D i).size.toNat ≤ direntSize*e
  dense : Dense s.blocks (D i) (direntSize*n) ((D i).size.toNat-direntSize*n) →
    s' = s ∧ D' = D ∧ own' = own

variable {n e inum : ℕ} {D₁ D' : Inodes} {own₁ own' : Owners} {s₁ s' : Fs} {ip : Fin ninode}
variable {p : Slot}

theorem vacant_skip (hg : Grown sb k i D own s D₁ own₁ s₁)
    (hdense : Dense s.blocks (D i) (direntSize*n) direntSize → s₁ = s ∧ D₁ = D ∧ own₁ = own)
    (hused : direntInum (dent s.blocks (D i) n) ≠ 0)
    (hbound : direntSize*n+direntSize ≤ (D i).size.toNat)
    (h : Vacant sb k i (n+1) e D₁ own₁ s₁ D' own' s') :
    Vacant sb k i n e D own s D' own' s' := by
  have hsize : (D₁ i).size = (D i).size := by rw [hg.fields]
  constructor
  · exact grown_trans hg h.grown
  · exact Nat.le_of_succ_le h.le
  · intro m hm hme
    rcases Nat.eq_or_lt_of_le hm with rfl | hlt
    · exact ⟨hused,hbound⟩
    · have := h.full m hlt hme
      rwa [dent_congr hg.bytes, hsize] at this
  · have := h.here
    rwa [dent_congr hg.bytes, hsize] at this
  · intro hd
    have hds : direntSize = 16 := rfl
    obtain ⟨rfl,rfl,rfl⟩ := hdense (fun o ho hlt => hd o ho (by omega))
    exact h.dense (fun o ho hlt => hd o (by rw [hds] at *; omega) (by rw [hds] at *; omega))

theorem vacant_end (h : Open sb D own s k i) (hend : (D i).size.toNat ≤ direntSize*n) :
    Vacant sb k i n n D own s D own s :=
  ⟨grown_refl h.stored h.copy,le_refl n,fun m hm hlt => absurd hlt (by omega),.inr hend,
    fun _ => ⟨rfl,rfl,rfl⟩⟩

theorem wp_emptyLoop (hsb : Layout sb) (hE : Scans E s (D i)) {size left : ℕ}
    (h : Open sb D own s k i) (hsize : size = (D i).size.toNat) (hfuel : size ≤ direntSize*n+left)
    {Q : ℕ → Fs → Prop}
    (hQ : ∀ e D' own' s', Vacant sb k i n e D own s D' own' s' → Q (direntSize*e) s') :
    wp (handle env) E (emptyLoop sb k size left (direntSize*n)) Q s := by
  have hds : direntSize = 16 := rfl
  induction left generalizing n D own s with
  | zero => exact wp_pure.mpr (hQ n D own s (vacant_end h (by omega)))
  | succ left ih =>
    rw [emptyLoop]
    apply wp_ite
    · intro hlt
      rw [wp_bind]
      apply wp_readEntry hsb h
      · intro r bytes s' hr hbad
        dsimp only
        rw [if_pos hr]
        exact wp_kpanic.mpr (hE.link.resolve_left (fun hread => hbad (hread.entry (hsize ▸ hlt))))
      · intro D₁ own₁ s₁ hg hdense hbound
        dsimp only
        rw [if_neg (not_not.mpr rfl)]
        apply wp_ite
        · intro hempty
          refine wp_pure.mpr (hQ n D₁ own₁ s₁ ⟨hg,le_refl n,
            fun m hm hlt' => absurd hlt' (by omega),.inl ⟨hbound,hempty⟩,fun hd => ?_⟩)
          exact hdense (fun o ho hlt' => hd o ho (by omega))
        · intro hused
          rw [← Nat.mul_succ]
          apply ih (scans_grown hE (hsize ▸ hlt) hg hdense) (open_grown h hg)
            (by rw [hg.fields]; exact hsize)
            (by rw [hds] at *; omega)
          intro e D' own' s' hv
          exact hQ e D' own' s' (vacant_skip hg hdense hused hbound hv)
    · exact fun hge => wp_pure.mpr (hQ n D own s (vacant_end h (by omega)))

theorem vacant_missed (hm : Missed sb k i name n D own s D₁ own₁ s₁)
    (h : Vacant sb k i n e D₁ own₁ s₁ D' own' s') :
    Vacant sb k i n e D own s D' own' s' := by
  have hg := hm.grown
  have hsize : (D₁ i).size = (D i).size := by rw [hg.fields]
  constructor
  · exact grown_trans hg h.grown
  · exact h.le
  · intro m hm hme
    have := h.full m hm hme
    rwa [dent_congr hg.bytes, hsize] at this
  · have := h.here
    rwa [dent_congr hg.bytes, hsize] at this
  · intro hd
    obtain ⟨rfl,rfl,rfl⟩ := hm.dense hd
    exact h.dense hd

structure SameTable (s s' : Fs) : Prop where
  blocks : s'.blocks = s.blocks
  entries : ∀ k, 0 < (s.mem.itable k).ref → s'.mem.itable k = s.mem.itable k
  free : ∀ k, (s.mem.itable k).ref = 0 → (s'.mem.itable k).ref = 0
  locks : ∀ k, (s'.mem.itable k).lock = (s.mem.itable k).lock
  ftable : s'.mem.ftable = s.mem.ftable
  cwd : s'.mem.cwd = s.mem.cwd
  ofile : s'.mem.ofile = s.mem.ofile

theorem igetInode_drop {ip : Inode} (href : 0 < ip.ref) :
    { igetInode ip inum with ref := (igetInode ip inum).ref-1 } = ip := by
  rw [igetInode, if_pos href]
  cases ip
  rfl

theorem sameTable_got (h : Gets s inum ip) :
    SameTable s (dropped (got s inum ip) ip) := by
  have hself : (dropped (got s inum ip) ip).mem.itable ip =
      { igetInode (s.mem.itable ip) inum with
        ref := (igetInode (s.mem.itable ip) inum).ref-1 } := by
    rw [dropped, setEntry_self, got, setEntry_self]
  have hother : ∀ k', k' ≠ ip →
      (dropped (got s inum ip) ip).mem.itable k' = s.mem.itable k' := by
    intro k' hk
    rw [dropped, setEntry_of_ne hk, got, setEntry_of_ne hk]
  have hgot := got_entry h
  refine ⟨rfl,fun k' hr => ?_,fun k' hr => ?_,fun k' => ?_,rfl,rfl,rfl⟩
  · by_cases hk : k' = ip
    · subst hk
      rw [hself, igetInode_drop hr]
    · exact hother k' hk
  · by_cases hk : k' = ip
    · subst hk
      rw [hself, igetInode, if_neg (by omega)]
      rfl
    · rw [hother k' hk, hr]
  · by_cases hk : k' = ip
    · subst hk
      rw [hself]
      rw [got, setEntry_self] at hgot
      exact hgot.2.2
    · rw [hother k' hk]

theorem wp_iput_got (hsb : Layout sb) (h : Good sb D own X s) (hgets : Gets s inum ip)
    {Q : Unit → Fs → Prop} (hQ : ∀ s', SameTable s s' → Good sb D own X s' → Q () s') :
    wp (handle env) E (iput sb p ip) Q (got s inum ip) := by
  have hentry := got_entry hgets
  have hstale : ((got s inum ip).mem.itable ip).ref = 1 →
      ((got s inum ip).mem.itable ip).valid = false := by
    intro hr
    rw [got, setEntry_self, igetInode, if_neg (by omega)]
  apply wp_iput hsb (good_got h hgets) hentry.1
  · intro _
    apply hQ _ (sameTable_got hgets)
    apply good_dropped (good_got h hgets) hentry.1
    by_cases hr : 1 < ((got s inum ip).mem.itable ip).ref
    · exact .inl hr
    · exact .inr (.inl (hstale (by omega)))
  · intro s' hin hr
    have := hin.valid
    rw [hstale hr] at this
    cases this

theorem direntBytes_length (inum : ℕ) (name : Name) : (direntBytes inum name).length =
    direntSize := by
  simp [direntBytes]

theorem wp_dirlink (hsb : Layout sb) (hE : Scans E s (D i)) (h : Good sb D own X s)
    (hk : InUse s k i) {Q : ℤ → Fs → Prop}
    (hfound : ∀ e D₁ own₁ s₁ s', (D i).type = tDir →
      Found sb k i name 0 e D own s D₁ own₁ s₁ → SameTable s₁ s' →
      Good sb D₁ own₁ X s' → Q (-1) s')
    (hfull : ∀ e D₁ own₁ s₁, (D i).type = tDir → Vacant sb k i 0 e D own s D₁ own₁ s₁ →
      (D i).size.toNat < direntSize*e ∨ maxfile*bsize < direntSize*e+direntSize → Q (-1) s₁)
    (hdone : ∀ e t D₁ own₁ s₁ D' own' s', (D i).type = tDir →
      (∀ m, direntSize*m < (D i).size.toNat → ¬ Matches (dent s.blocks (D i) m) name) →
      Vacant sb k i 0 e D own s D₁ own₁ s₁ →
      WriteDone sb k i (.kernel (direntBytes inum name)) (direntSize*e) direntSize t D₁ own₁ s₁
        D' own' s' → Q (if t = direntSize then 0 else -1) s') :
    wp (handle env) E (dirlink sb p k name inum) Q s := by
  have hopen := good_open h hk
  rw [dirlink, wp_bind]
  apply wp_dirlookup hsb hE hopen
  · intro D₀ own₀ s₀ htype hmiss
    have hg := hmiss.grown
    have hopen₀ := open_grown hopen hg
    dsimp only
    rw [wp_bind, wp_getInode, hopen₀.copy, wp_bind]
    apply wp_emptyLoop (n := 0) hsb (scans_missed hE hmiss) hopen₀ rfl (by omega)
    intro e D₁ own₁ s₁ hv
    have hv' := vacant_missed hmiss hv
    have hsize₁ : (D₁ i).size = (D i).size := by rw [hv'.grown.fields]
    rw [wp_bind]
    apply wp_writei hsb (open_grown hopen hv'.grown) (inUse_withCopy hk _ hv'.grown.mem).inum
    · intro l hl
      cases hl
      rw [direntBytes_length]
    · intro hbad
      rw [if_pos (by decide), wp_pure]
      apply hfull e D₁ own₁ s₁ htype hv'
      rw [hsize₁] at hbad
      have hmax : maxfile*bsize < 2^32 := by decide
      rcases hbad with hbad | hbad | hbad
      · exact .inl hbad
      · right
        by_contra hle
        rw [Nat.mod_eq_of_lt (by omega)] at hbad
        omega
      · exact .inr hbad
    · intro t D' own' s' hw
      have := hdone e t D₁ own₁ s₁ D' own' s' htype
        (fun m hm => hmiss.none m (Nat.zero_le m) hm) hv' hw
      by_cases ht : t = direntSize
      · rw [if_neg (by rw [ht]; exact not_not.mpr rfl)]
        rw [if_pos ht] at this
        exact wp_pure.mpr this
      · rw [if_pos (fun hc => ht (Nat.cast_inj.mp hc))]
        rw [if_neg ht] at this
        exact wp_pure.mpr this
  · intro e ip D₁ own₁ s₁ htype hf hgets
    have hgood := good_grown h hk hf.grown
    dsimp only
    rw [wp_bind]
    apply wp_iput_got hsb hgood hgets
    intro s' hsame hgood'
    exact wp_pure.mpr (hfound e D₁ own₁ s₁ s' htype hf hsame hgood')

end Link

end GreenOS.FsDirs
