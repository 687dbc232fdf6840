import GreenOS.FsDirs
import GreenOS.SlotMap
import GreenOS.WriteChunk

/-!
# A directory is a finite map

The entries of a directory are slots that hold a name and an inode number. A
name is what `strncmp` sees of it, the bytes before a NUL among the first
`DIRSIZ`, so `skipelem`, `strncpy` and `strncmp` agree on names that fill the
field.
-/

namespace GreenOS.DirMap
open Programs LogCode DiskLayout ProcTable
open BufferSeq (Env quiet)
open FsMemory FsCode FsDirect FsOwned
open FsMap FsContent FsInodes
open FsState FsTable FsNames FsDirs FileBytes WriteChunk
open SlotMap
open Function (update update_self update_of_ne)

def key (name : Name) : Name := text (cstr name) dirsiz

def slotOf (de : List UInt8) : Option (Name × ℕ) :=
  if direntInum de = 0 then none else some (text (direntName de) dirsiz,direntInum de)

def slots (blocks : Blocks) (d : Dinode) (m : ℕ) : Option (Name × ℕ) :=
  if direntSize*m+direntSize ≤ d.size.toNat then slotOf (dent blocks d m) else none

def dirSlots (s : Fs) (k : Fin ninode) : ℕ → Option (Name × ℕ) :=
  slots s.blocks (s.mem.itable k).copy

/-- Entry `k` is a directory, in which no name stands twice, of a file system in order. -/
structure Dir (sb : Superblock) (s : Fs) (k : Fin ninode) : Prop where
  inode : ∃ D own X i, Good sb D own X s ∧ InUse s k i ∧ (D i).type = tDir ∧
    direntSize ∣ (D i).size.toNat
  distinct : Distinct (dirSlots s k)

section Slots
variable {blocks blocks' : Blocks} {d d' : Dinode} {name : Name} {de : List UInt8} {e m : ℕ}

theorem matches_iff : Matches de name ↔ ∃ v, slotOf de = some (key name,v) := by
  rw [Matches, namecmp, strncmp_text, slotOf]
  by_cases hz : direntInum de = 0
  · simp [hz]
  · simp [hz, key, eq_comm]

theorem slotOf_bytes {inum : ℕ} (h0 : inum ≠ 0) (hlt : inum < 2^16) (name : Name) :
    slotOf (direntBytes inum name) = some (key name,inum) := by
  rw [slotOf, direntInum_bytes hlt, if_neg h0,
    text_congr (fun j hj => direntName_lt inum name hj), key]

theorem slotOf_zeros : slotOf (List.replicate direntSize 0) = none := by decide

theorem slots_in {x : Name × ℕ} (h : slots blocks d m = some x) :
    direntSize*m+direntSize ≤ d.size.toNat ∧ slotOf (dent blocks d m) = some x := by
  unfold slots at h
  split_ifs at h with hin
  exact ⟨hin,h⟩

theorem dent_congr_on (h : ∀ j, j < direntSize → byteAt blocks' d' (direntSize*m+j) =
    byteAt blocks d (direntSize*m+j)) :
    dent blocks' d' m = dent blocks d m :=
  List.map_congr_left (fun j hj => h j (List.mem_range.mp hj))

theorem slots_congr (hsize : d'.size = d.size) (h : ∀ o, o < d.size.toNat → byteAt blocks' d' o =
    byteAt blocks d o) :
    slots blocks' d' = slots blocks d := by
  funext m
  rw [slots, slots, hsize]
  split_ifs with hin
  · rw [dent_congr_on (fun j hj => h _ (by omega))]
  · rfl

theorem slots_written {bytes : List UInt8} (hd : direntSize ∣ d.size.toNat)
    (hbytes : bytes.length = direntSize)
    (hstart : direntSize*e ≤ d.size.toNat)
    (hsize : d'.size.toNat = max d.size.toNat (direntSize*e+direntSize))
    (hroom : d'.size.toNat ≤ maxfile*bsize)
    (hkeep : ∀ o, o < maxfile*bsize → o < direntSize*e ∨ direntSize*e+direntSize ≤ o →
      byteAt blocks' d' o = byteAt blocks d o)
    (hnew : ∀ j, j < direntSize → byteAt blocks' d' (direntSize*e+j) = bytes.getD j 0) :
    slots blocks' d' = update (slots blocks d) e (slotOf bytes) := by
  have hds : direntSize = 16 := rfl
  obtain ⟨c,hc⟩ := hd
  funext m
  by_cases hm : m = e
  · subst hm
    have hdent : dent blocks' d' m = bytes := by
      apply List.ext_getElem
      · simp [dent, content, hbytes]
      · intro j hj hj'
        have := hnew j (hbytes ▸ hj')
        rw [List.getD_eq_getElem _ _ hj'] at this
        simpa [dent, content] using this
    rw [update_self, slots, if_pos (by omega), hdent]
  · rw [update_of_ne hm, slots, slots]
    have hiff : direntSize*m+direntSize ≤ d'.size.toNat ↔ direntSize*m+direntSize ≤
      d.size.toNat := by
      simp only [hds] at hc hstart hsize ⊢
      omega
    by_cases hin : direntSize*m+direntSize ≤ d.size.toNat
    · have hdent : dent blocks' d' m = dent blocks d m := by
        apply dent_congr_on
        intro j hj
        apply hkeep
        · omega
        · simp only [hds] at hj ⊢
          omega
      rw [if_pos hin, if_pos (hiff.mpr hin), hdent]
    · rw [if_neg hin, if_neg (fun h => hin (hiff.mp h))]

end Slots

section Code
variable {sb : Superblock} {s s' : Fs} {k : Fin ninode} {i : ℕ} {D D' : Inodes} {own own' : Owners}
    {X : ℕ → Prop}
variable {env : Env} {E : String → Prop} {name : Name} {p : Slot} {inum : ℕ}

theorem dirSlots_eq (h : Good sb D own X s) (hk : InUse s k i) :
    dirSlots s k = slots s.blocks (D i) := by
  rw [dirSlots, (good_open h hk).copy]

theorem slots_grown (hg : Grown sb k i D own s D' own' s') :
    slots s'.blocks (D' i) = slots s.blocks (D i) :=
  slots_congr (by rw [hg.fields]) (fun o _ => hg.bytes o)

theorem dir_of_slots (h : Good sb D own X s) (hk : InUse s k i) (htype : (D i).type = tDir)
    (hsize : direntSize ∣ (D i).size.toNat) (hd : Distinct (slots s.blocks (D i))) : Dir sb s k :=
  ⟨⟨D,own,X,i,h,hk,htype,hsize⟩,by rwa [dirSlots_eq h hk]⟩

/-- The panics that the functions on a directory may end in: an inode table without a free entry,
and a directory with holes that cannot be read. -/
def Panics (s : Fs) (k : Fin ninode) (msg : String) : Prop :=
  (msg = "iget: no inodes" ∧ ¬Room s) ∨ (msg = "dirlookup read" ∨ msg = "dirlink read") ∧
    ¬Dense s.blocks (s.mem.itable k).copy 0 (s.mem.itable k).copy.size.toNat

theorem scans_dir (h : Good sb D own X s) (hk : InUse s k i) (htype : (D i).type = tDir)
    (hsize : direntSize ∣ (D i).size.toNat) : Scans (Panics s k) s (D i) := by
  have hread : ∀ msg, msg = "dirlookup read" ∨ msg = "dirlink read" → Readable s.blocks (D i) ∨
    Panics s k msg := by
    intro msg hmsg
    by_cases hdense : Dense s.blocks (D i) 0 (D i).size.toNat
    · exact .inl ⟨hsize,hdense⟩
    · refine .inr (.inr ⟨hmsg,?_⟩)
      rwa [(good_open h hk).copy]
  have higet : Room s ∨ Panics s k "iget: no inodes" :=
    (em (Room s)).imp_right fun hfull => .inl ⟨rfl,hfull⟩
  exact ⟨higet,.inl htype,hread _ (.inl rfl),hread _ (.inr rfl)⟩

def LookedUp (s s' : Fs) (k : Fin ninode) (name : Name) : Option (Fin ninode × ℕ) → Prop
  | none => ∀ v, (key name,v) ∉ entries (dirSlots s k)
  | some (ip,off) => ∃ e v, off = direntSize*e ∧ dirSlots s k e = some (key name,v) ∧
      (s'.mem.itable ip).inum = v ∧ 0 < (s'.mem.itable ip).ref

theorem inUse_got {ip : Fin ninode} (hk : InUse s k i) (hgets : Gets s inum ip) :
    InUse (got s inum ip) k i := by
  by_cases hki : k = ip
  · subst hki
    have hentry : (got s inum k).mem.itable k =
      { s.mem.itable k with ref := (s.mem.itable k).ref+1 } := by
      rw [got, setEntry_self, igetInode, if_pos hk.ref]
    exact ⟨by rw [hentry]; exact Nat.succ_pos _,by rw [hentry]; exact hk.valid,
      by rw [hentry]; exact hk.inum⟩
  · have hentry : (got s inum ip).mem.itable k = s.mem.itable k := by
      rw [got, setEntry_of_ne hki]
    exact ⟨by rw [hentry]; exact hk.ref,by rw [hentry]; exact hk.valid,
      by rw [hentry]; exact hk.inum⟩

theorem dirlookup_map (hsb : Layout sb) (h : Dir sb s k) :
    wp (handle env) (Panics s k) (dirlookup sb k name)
      (fun r s' => Dir sb s' k ∧ dirSlots s' k = dirSlots s k ∧ LookedUp s s' k name r) s := by
  obtain ⟨⟨D,own,X,i,hgood,hk,htype,hsize⟩,hd⟩ := h
  have hslots := dirSlots_eq hgood hk
  have hafter : ∀ {D' own' s'}, Grown sb k i D own s D' own' s' → ∀ {t},
    Good sb D' own' X t → InUse t k i →
      t.blocks = s'.blocks → Dir sb t k ∧ dirSlots t k = dirSlots s k := by
    intro D' own' s' hg t hgood' hk' hblocks
    have heq : dirSlots t k = dirSlots s k := by
      rw [dirSlots_eq hgood' hk', hblocks, slots_grown hg, hslots]
    refine ⟨⟨⟨D',own',X,i,hgood',hk',?_,?_⟩,heq ▸ hd⟩,heq⟩
    · rw [hg.fields]
      exact htype
    · rw [hg.fields]
      exact hsize
  apply wp_dirlookup hsb (scans_dir hgood hk htype hsize) (good_open hgood hk)
  · intro D' own' s' _ hmiss
    have hk' := inUse_withCopy hk _ hmiss.grown.mem
    obtain ⟨hdir,heq⟩ := hafter hmiss.grown (good_grown hgood hk hmiss.grown) hk' rfl
    refine ⟨hdir,heq,fun v => ?_⟩
    rintro ⟨m,hm⟩
    rw [hslots] at hm
    obtain ⟨hin,hslot⟩ := slots_in hm
    exact hmiss.none m (Nat.zero_le m) (by have : direntSize = 16 := rfl; omega)
      (matches_iff.mpr ⟨v,hslot⟩)
  · intro e ip D' own' s' _ hf hgets
    have hk' := inUse_withCopy hk _ hf.grown.mem
    obtain ⟨hdir,heq⟩ := hafter hf.grown (good_got (good_grown hgood hk hf.grown) hgets)
      (inUse_got hk' hgets) rfl
    obtain ⟨v,hv⟩ := matches_iff.mp hf.hit
    have hentry := got_entry hgets
    have hinum : direntInum (dent s.blocks (D i) e) = v := by
      rw [slotOf, if_neg hf.hit.1] at hv
      exact (Prod.mk.inj (Option.some.inj hv)).2
    refine ⟨hdir,heq,e,v,rfl,?_,hentry.1.trans hinum,hentry.2.1 ▸ Nat.succ_pos _⟩
    rw [hslots, slots, if_pos hf.bound, hv]

/-- What `dirlink` did. It never takes a name that is there; when it fails, nothing changes. -/
structure Linked (s s' : Fs) (k : Fin ninode) (name : Name) (inum : ℕ) (r : ℤ) : Prop where
  present : ∀ v, (key name,v) ∈ entries (dirSlots s k) → r = -1
  result : r = 0 ∨ r = -1
  failed : r = -1 → dirSlots s' k = dirSlots s k
  added : r = 0 → entries (dirSlots s' k) = insert (key name,inum) (entries (dirSlots s k))
  kept : ∀ m x, dirSlots s k m = some x → dirSlots s' k m = some x

theorem linked_fails (heq : dirSlots s' k = dirSlots s k) : Linked s s' k name inum (-1) :=
  ⟨fun _ _ => rfl,.inr rfl,fun _ => heq,nofun,fun _ _ hm => heq ▸ hm⟩

variable {bytes : List UInt8} {e t : ℕ}

theorem entry_whole
    (hw : WriteDone sb k i (.kernel bytes) (direntSize*e) direntSize t D own s D' own' s') : t = 0 ∨
      t = direntSize := by
  have hds : direntSize = 16 := rfl
  have hb : bsize = 1024 := rfl
  have hle := hw.le
  have hcut := hw.cut bytes rfl
  simp only [hds, hb] at hle hcut ⊢
  omega

theorem slots_writeDone (hbytes : bytes.length = direntSize) (hd : direntSize ∣ (D i).size.toNat)
    (hi : i < sb.ninodes)
    (hw : WriteDone sb k i (.kernel bytes) (direntSize*e) direntSize t D own s D' own' s') :
    slots s'.blocks (D' i) = (if t = direntSize then update (slots s.blocks (D i)) e (slotOf bytes)
      else slots s.blocks (D i)) ∧ direntSize ∣ (D' i).size.toNat := by
  have hsize := hw.size
  have hstart := hw.start
  have hroom := hw.wrote.stored.size_le i hi
  obtain ⟨hwrote,hnew⟩ := hw.kernel bytes rfl
  rcases entry_whole hw with rfl | rfl
  · have hsame : (D' i).size = (D i).size := BitVec.eq_of_toNat_eq (by omega)
    refine ⟨?_,hsame ▸ hd⟩
    rw [if_neg (by decide)]
    exact slots_congr hsame (fun o ho => hwrote.bytes o (by omega) (by omega))
  · rw [if_pos rfl]
    refine ⟨slots_written hd hbytes hstart hsize hroom hwrote.bytes hnew,?_⟩
    rw [hsize]
    rcases max_cases (D i).size.toNat (direntSize*e+direntSize) with ⟨hmax,-⟩ | ⟨hmax,-⟩
    · rwa [hmax]
    · rw [hmax]
      exact ⟨e+1,(Nat.mul_succ _ _).symm⟩

theorem good_writeDone {src : Src} {off n : ℕ} (h : Good sb D own X s) (hk : InUse s k i)
    (hw : WriteDone sb k i src off n t D own s D' own' s') :
    Good sb D' own' (fun j => X j ∧ j ≠ i) s' ∧ InUse s' k i := by
  have hopen := good_open h hk
  refine ⟨good_save h hk hw.wrote.stored hw.wrote.other ?_ hw.wrote.mem hw.wrote.disk hw.synced
    hw.wrote.frame,
    inUse_withCopy hk _ hw.wrote.mem⟩
  rw [hw.wrote.fields]
  exact hopen.type_ne

theorem dirlink_map (hsb : Layout sb) (h : Dir sb s k) (h0 : inum ≠ 0) (hlt : inum < 2^16) :
    wp (handle env) (Panics s k) (dirlink sb p k name inum)
      (fun r s' => Dir sb s' k ∧ Linked s s' k name inum r) s := by
  obtain ⟨⟨D,own,X,i,hgood,hk,htype,hsize⟩,hd⟩ := h
  have hslots := dirSlots_eq hgood hk
  have hgrown : ∀ {D' own' s'}, Grown sb k i D own s D' own' s' →
      (D' i).type = tDir ∧ direntSize ∣ (D' i).size.toNat ∧ slots s'.blocks (D' i) =
        dirSlots s k := by
    intro D' own' s' hg
    rw [slots_grown hg, hslots, hg.fields]
    exact ⟨htype,hsize,rfl⟩
  apply wp_dirlink hsb (scans_dir hgood hk htype hsize) hgood hk
  · intro e D₁ own₁ s₁ s' _ hf hsame hgood'
    obtain ⟨htype₁,hsize₁,hslots₁⟩ := hgrown hf.grown
    have hk₁ := inUse_withCopy hk _ hf.grown.mem
    have hentry := hsame.entries k hk₁.ref
    have hk' : InUse s' k i := ⟨by rw [hentry]; exact hk₁.ref,by rw [hentry]; exact hk₁.valid,
      by rw [hentry]; exact hk₁.inum⟩
    have heq : dirSlots s' k = dirSlots s k := by
      rw [dirSlots_eq hgood' hk', hsame.blocks, hslots₁]
    exact ⟨⟨⟨D₁,own₁,X,i,hgood',hk',htype₁,hsize₁⟩,heq ▸ hd⟩,linked_fails heq⟩
  · intro e D₁ own₁ s₁ _ hv _
    obtain ⟨htype₁,hsize₁,hslots₁⟩ := hgrown hv.grown
    have hgood₁ := good_grown hgood hk hv.grown
    have hk₁ := inUse_withCopy hk _ hv.grown.mem
    have heq : dirSlots s₁ k = dirSlots s k := by
      rw [dirSlots_eq hgood₁ hk₁, hslots₁]
    exact ⟨⟨⟨D₁,own₁,X,i,hgood₁,hk₁,htype₁,hsize₁⟩,heq ▸ hd⟩,linked_fails heq⟩
  · intro e t D₁ own₁ s₁ D' own' s' _ hnone hv hw
    obtain ⟨htype₁,hsize₁,hslots₁⟩ := hgrown hv.grown
    have hk₁ := inUse_withCopy hk _ hv.grown.mem
    obtain ⟨hgood',hk'⟩ := good_writeDone (good_grown hgood hk hv.grown) hk₁ hw
    obtain ⟨hslots',hsize'⟩ := slots_writeDone (direntBytes_length inum name) hsize₁
      (good_open hgood hk).inum_lt hw
    have htype' : (D' i).type = tDir := by
      rw [hw.wrote.fields]
      exact htype₁
    rw [hslots₁, slotOf_bytes h0 hlt, ← dirSlots_eq hgood' hk'] at hslots'
    by_cases ht : t = direntSize
    · rw [if_pos ht] at hslots' ⊢
      have hnew : ∀ v, (key name,v) ∉ entries (dirSlots s k) := by
        rintro v ⟨m,hm⟩
        rw [hslots] at hm
        obtain ⟨hin,hslot⟩ := slots_in hm
        exact hnone m (by have : direntSize = 16 := rfl; omega) (matches_iff.mpr ⟨v,hslot⟩)
      have hempty : dirSlots s k e = none := by
        rw [hslots, slots]
        rcases hv.here with ⟨-,hz⟩ | hend
        · simp [slotOf, hz]
        · exact if_neg (by have : direntSize = 16 := rfl; omega)
      refine ⟨⟨⟨D',own',_,i,hgood',hk',htype',hsize'⟩,hslots' ▸ distinct_set hd hnew⟩,?_,.inl rfl,
        nofun,fun _ => ?_,?_⟩
      · exact fun v hv => absurd hv (hnew v)
      · rw [hslots', entries_set hempty]
      · intro m x hm
        have hne : m ≠ e := by
          rintro rfl
          rw [hempty] at hm
          cases hm
        rw [hslots', update_of_ne hne, hm]
    · rw [if_neg ht] at hslots' ⊢
      exact ⟨⟨⟨D',own',_,i,hgood',hk',htype',hsize'⟩,hslots' ▸ hd⟩,linked_fails hslots'⟩

theorem wp_writei_entry (hsb : Layout sb) (h : Open sb D own s k i)
    (hin : direntSize*e+direntSize ≤ (D i).size.toNat)
    (ha : addrOf s.blocks (D i) (placeOf (direntSize*e/bsize)) ≠ 0) :
    wp (handle env) E (writei sb k (.kernel bytes) (direntSize*e) direntSize) (fun r _ =>
      r = direntSize) s := by
  have hds : direntSize = 16 := rfl
  have hb : bsize = 1024 := rfl
  have hmax : maxfile*bsize < 2^32 := by decide
  have hsize := h.stored.size_le i h.inum_lt
  have hbn : direntSize*e/bsize < maxfile := by
    rw [Nat.div_lt_iff_lt_mul (by decide)]
    omega
  have hwhole : min (direntSize-0) (bsize-direntSize*e%bsize) = direntSize := by
    simp only [hds, hb]
    omega
  rw [writei, wp_bind, wp_getInode, h.copy, if_neg (by rw [Nat.mod_eq_of_lt (by omega)]; omega),
    if_neg (by omega),
    wp_bind, show writeLoop sb k (.kernel bytes) direntSize direntSize 0 (direntSize*e) =
      writeLoop sb k (.kernel bytes) direntSize (15+1) 0 (direntSize*e) from
        rfl, writeLoop, if_pos (by decide), wp_bind]
  apply wp_bmap hsb h hbn
  intro a D' own' s' hmap
  obtain ⟨ha',-⟩ := hmap.found ha
  rw [if_neg ha', wp_bind, wp_bread]
  dsimp only
  rw [hwhole, eitherCopyin, pure_bind]
  dsimp only
  rw [wp_bind, wp_setData, if_pos rfl, wp_bind, wp_logWrite, wp_bind, wp_brelse, writeLoop,
    if_neg (by decide), wp_pure]
  dsimp only
  rw [wp_bind, wp_getInode]
  apply wp_ite
  · intro _
    rw [wp_bind, wp_modifyCopy, wp_bind, wp_iupdate, wp_pure, Nat.zero_add]
  · intro _
    rw [wp_bind, wp_iupdate, wp_pure, Nat.zero_add]

theorem zero_map (hsb : Layout sb) (h : Dir sb s k) {x : Name × ℕ} (hx : dirSlots s k e = some x) :
    wp (handle env) E (writei sb k (.kernel (List.replicate direntSize 0))
      (direntSize*e) direntSize)
      (fun r s' => r = direntSize ∧ Dir sb s' k ∧ entries (dirSlots s' k) =
        {y ∈ entries (dirSlots s k) | y.1 ≠ x.1}) s := by
  obtain ⟨⟨D,own,X,i,hgood,hk,htype,hsize⟩,hd⟩ := h
  have hopen := good_open hgood hk
  have hslots := dirSlots_eq hgood hk
  have hin := slots_in (hslots ▸ hx)
  have hused : direntInum (dent s.blocks (D i) e) ≠ 0 := by
    intro hz
    rw [slotOf, if_pos hz] at hin
    cases hin.2
  have hlen : (List.replicate direntSize (0 : UInt8)).length = direntSize :=
    List.length_replicate ..
  refine wp_mono (wp_and (wp_writei_entry hsb hopen hin.1 (addr_used hused))
    (wp_writei hsb hopen hk.inum
    (E := fun _ => True) (Q := fun r s' => r = direntSize → Dir sb s' k ∧
      entries (dirSlots s' k) = {y ∈ entries (dirSlots s k) | y.1 ≠ x.1}) ?_ (fun _ => nofun) ?_))
    (fun r s' h => ⟨h.1,h.2 h.1⟩)
  · rintro l ⟨⟩
    exact hlen.ge
  · intro t D' own' s' hw ht
    obtain rfl : t = direntSize := Nat.cast_inj.mp ht
    obtain ⟨hgood',hk'⟩ := good_writeDone hgood hk hw
    obtain ⟨hslots',hsize'⟩ := slots_writeDone hlen hsize hopen.inum_lt hw
    have htype' : (D' i).type = tDir := by
      rw [hw.wrote.fields]
      exact htype
    rw [if_pos rfl, slotOf_zeros, ← hslots, ← dirSlots_eq hgood' hk'] at hslots'
    refine ⟨⟨⟨D',own',_,i,hgood',hk',htype',hsize'⟩,hslots' ▸ distinct_clear hd⟩,?_⟩
    rw [hslots', entries_clear hd hx]

theorem prompt_of_local (c : Cmd Mem) (h : Local k c) : Prompt c := by
  cases c with
  | atomic β f =>
    intro m hnone
    obtain ⟨r,d,hf⟩ := h m
    rw [hf] at hnone
    cases hnone
  | logBegin | logEnd => exact h.elim
  | _ => trivial

theorem prompt_iget : Every Prompt (iget inum) := by
  apply every_bind (every_perform ?_)
  · intro found
    cases found with
    | none => exact every_kpanic trivial
    | some k => exact every_pure k
  · intro m
    dsimp only
    split <;> nofun

theorem prompt_readi (off : ℕ) : Every Prompt (readi sb k .kernel off direntSize) :=
  every_mono prompt_of_local (local_readi (k := k) _ _ _)

theorem prompt_dirlookup : Every Prompt (dirlookup sb k name) := by
  have hloop : ∀ size left off, Every Prompt (lookupLoop sb k name size left off) := by
    intro size left
    induction left with
    | zero => exact fun _ => every_pure _
    | succ left ih =>
      intro off
      rw [lookupLoop]
      apply every_ite _ (every_pure _)
      apply every_bind (prompt_readi off)
      intro out
      refine every_ite (every_kpanic trivial) ?_
      apply every_ite (ih _)
      apply every_ite _ (ih _)
      exact every_bind prompt_iget (fun _ => every_pure _)
  rw [dirlookup]
  apply every_bind (every_prompt_readMem _)
  exact fun _ => every_ite (every_kpanic trivial) (hloop _ _ _)

theorem prompt_emptyLoop (size left off : ℕ) : Every Prompt (emptyLoop sb k size left off) := by
  induction left generalizing off with
  | zero => exact every_pure _
  | succ left ih =>
    rw [emptyLoop]
    apply every_ite _ (every_pure _)
    apply every_bind (prompt_readi off)
    intro out
    refine every_ite (every_kpanic trivial) ?_
    exact every_ite (every_pure _) (ih _)

theorem iput_not_wait (h : ¬((s.mem.itable k).ref = 1 ∧ (s.mem.itable k).valid = true ∧
    (s.mem.itable k).copy.nlink = 0)) :
    exec (handle env) (iput sb p k) s ≠ .wait := by
  have henter : exec (handle env) (iputEnter p k) s = .ok (false,dropped s k) := by
    rw [iputEnter, exec_atomic]
    simp only [if_neg h]
    rfl
  rw [iput, exec_bind_ok henter]
  intro h
  cases h

theorem dirlink_not_wait (hsb : Layout sb) (h : Dir sb s k) :
    exec (handle env) (dirlink sb p k name inum) s ≠ .wait := by
  obtain ⟨⟨D,own,X,i,hgood,hk,htype,hsize⟩,-⟩ := h
  have hstale : wp (handle env) (Panics s k) (dirlookup sb k name) (fun r s' =>
    ∀ ip off, r = some (ip,off) →
      ¬((s'.mem.itable ip).ref = 1 ∧ (s'.mem.itable ip).valid = true ∧
        (s'.mem.itable ip).copy.nlink = 0)) s := by
    apply wp_dirlookup hsb (scans_dir hgood hk htype hsize) (good_open hgood hk)
    · rintro _ _ _ _ _ _ _ ⟨⟩
    · rintro e ip D' own' s' - - hgets _ _ ⟨⟩ ⟨hone,hvalid,-⟩
      rw [(got_entry hgets).2.1] at hone
      rw [got, setEntry_self, igetInode, if_neg (by omega)] at hvalid
      cases hvalid
  rw [dirlink]
  apply bind_not_wait (exec_not_wait (prompt_not_wait env) prompt_dirlookup s)
  intro r s' hexec
  rw [wp_def, hexec] at hstale
  cases r with
  | some found =>
    obtain ⟨ip,off⟩ := found
    exact bind_not_wait (iput_not_wait (hstale ip off rfl)) (fun _ _ _ h => by cases h)
  | none =>
    refine exec_not_wait (prompt_not_wait env) ?_ s'
    apply every_bind (every_prompt_readMem _)
    intro dp
    apply every_bind (prompt_emptyLoop _ _ _)
    intro off
    apply every_bind (every_mono prompt_of_local (local_writei (k := k) _ _ _))
    exact fun r => every_ite (every_pure _) (every_pure _)

/-- `dirlookup` reads the map that the entries are, `dirlink` adds a pair to it or fails and
changes nothing, and zeroing an entry in use removes its pair. -/
theorem directory_is_finite_map (hsb : Layout sb) (h : Dir sb s k) (env : Env) (p : Slot)
    (name : Name) (inum : ℕ)
    (h0 : inum ≠ 0) (hlt : inum < 2^16) :
    (exec (handle env) (dirlookup sb k name) s ≠ .wait ∧ wp (handle env) (Panics s k)
      (dirlookup sb k name)
      (fun r s' => Dir sb s' k ∧ dirSlots s' k = dirSlots s k ∧ LookedUp s s' k name r) s) ∧
    (exec (handle env) (dirlink sb p k name inum) s ≠ .wait ∧ wp (handle env) (Panics s k)
      (dirlink sb p k name inum)
      (fun r s' => Dir sb s' k ∧ Linked s s' k name inum r) s) ∧
    ∀ e x, dirSlots s k e = some x →
      ∃ s', exec (handle env) (writei sb k (.kernel (List.replicate direntSize 0))
        (direntSize*e) direntSize) s =
          .ok (direntSize,s') ∧ Dir sb s' k ∧
        entries (dirSlots s' k) = {y ∈ entries (dirSlots s k) | y.1 ≠ x.1} := by
  refine ⟨⟨exec_not_wait (prompt_not_wait env) prompt_dirlookup s,dirlookup_map hsb h⟩,
    ⟨dirlink_not_wait hsb h,dirlink_map hsb h h0 hlt⟩,fun e x hx => ?_⟩
  obtain ⟨r,s',hexec,rfl,hdir,hentries⟩ := exec_ok (zero_map hsb h hx)
    (exec_not_wait (local_not_wait env) (local_writei (k := k) _ _ _) s)
  exact ⟨s',hexec,hdir,hentries⟩

end Code

def emptyDir : Dinode := { shortFile with type := tDir }

def tinyDir : Fs := inodeSaved tiny tinyFs 0 1 emptyDir

theorem tinyDir_dir : Dir tiny tinyDir 0 := by
  have hk : InUse tinyFs 0 1 := ⟨by decide,rfl,rfl⟩
  have hgood := good_fields tiny_layout tiny_good hk (d := emptyDir) rfl rfl (by decide)
  have hk' : InUse tinyDir 0 1 := ⟨by decide,rfl,rfl⟩
  refine dir_of_slots hgood hk' ?_ ?_ ?_
  · rw [update_self]
    rfl
  · rw [update_self]
    exact ⟨1,rfl⟩
  · intro m m' x x' hm
    rw [update_self] at hm
    obtain ⟨hin,hslot⟩ := slots_in hm
    obtain rfl : m = 0 := by
      change 16*m+16 ≤ 16 at hin
      omega
    have hnone : slotOf (dent tinyDir.blocks emptyDir 0) = none := by decide +kernel
    cases hnone.symm.trans hslot

def linkThenLookup : P Mem (ℤ × Option (Fin ninode × ℕ)) := do
  let r ← dirlink tiny 0 0 [97] 1
  let found ← dirlookup tiny 0 [97]
  pure (r,found)

def finds : Outcome ((ℤ × Option (Fin ninode × ℕ)) × Fs) → Bool
  | .ok ((0,some _),_) => true
  | _ => false

theorem tinyDir_finds : ∃ s₁ s₂ ip off,
    exec (handle quiet) (dirlink tiny 0 0 [97] 1) tinyDir = .ok (0,s₁) ∧
    exec (handle quiet) (dirlookup tiny 0 [97]) s₁ = .ok (some (ip,off),s₂) := by
  have hfinds : finds (exec (handle quiet) linkThenLookup tinyDir) = true := by decide +kernel
  rw [linkThenLookup, exec_bind] at hfinds
  split at hfinds
  case h_1 r s₁ hlink =>
    rw [exec_bind] at hfinds
    split at hfinds
    case h_1 found s₂ hlookup =>
      change finds (.ok ((r,found),s₂)) = true at hfinds
      unfold finds at hfinds
      split at hfinds
      case h_1 ip t heq =>
        cases heq
        exact ⟨s₁,s₂,ip.1,ip.2,hlink,hlookup⟩
      case h_2 => cases hfinds
    all_goals cases hfinds
  all_goals cases hfinds

/-- A name is added to it, found and taken out again. -/
theorem tinyDir_link : ∃ s₁ s₂ s₃ ip off e,
    exec (handle quiet) (dirlink tiny 0 0 [97] 1) tinyDir = .ok (0,s₁) ∧ Dir tiny s₁ 0 ∧
    entries (dirSlots s₁ 0) = insert (key [97],1) (entries (dirSlots tinyDir 0)) ∧
    exec (handle quiet) (dirlookup tiny 0 [97]) s₁ = .ok (some (ip,off),s₂) ∧
    dirSlots s₂ 0 = dirSlots s₁ 0 ∧ LookedUp s₁ s₂ 0 [97] (some (ip,off)) ∧
    exec (handle quiet) (writei tiny 0 (.kernel (List.replicate direntSize 0)) (direntSize*e)
      direntSize) s₁ = .ok (direntSize,s₃) ∧
    entries (dirSlots s₃ 0) = {y ∈ entries (dirSlots s₁ 0) | y.1 ≠ key [97]} := by
  obtain ⟨s₁,s₂,ip,off,hlink,hlookup⟩ := tinyDir_finds
  have hmap := directory_is_finite_map tiny_layout tinyDir_dir quiet 0 [97] 1
    (by decide) (by decide)
  obtain ⟨hdir,hlinked⟩ : Dir tiny s₁ 0 ∧ Linked tinyDir s₁ 0 [97] 1 0 := by
    have hpost := hmap.2.1.2
    rwa [wp_def, hlink] at hpost
  have hmap' := directory_is_finite_map tiny_layout hdir quiet 0 [97] 1 (by decide) (by decide)
  obtain ⟨-,hsame,hfound⟩ : Dir tiny s₂ 0 ∧ dirSlots s₂ 0 = dirSlots s₁ 0 ∧
      LookedUp s₁ s₂ 0 [97] (some (ip,off)) := by
    have hpost := hmap'.1.2
    rwa [wp_def, hlookup] at hpost
  obtain ⟨e,v,-,hslot,-⟩ := id hfound
  obtain ⟨s₃,hzero,-,hentries⟩ := hmap'.2.2 e _ hslot
  exact ⟨s₁,s₂,s₃,ip,off,e,hlink,hdir,hlinked.added rfl,hlookup,hsame,hfound,hzero,hentries⟩

end GreenOS.DirMap
