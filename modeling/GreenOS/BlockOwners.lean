import GreenOS.FsDirs
import GreenOS.StepRun

/-!
# Operations on inodes, one after another

A machine whose steps are whole operations on inodes, each made by a process
that may make it: one that holds a reference, or the lock of a valid inode.
`Inv` is what every operation keeps.
-/

namespace GreenOS.BlockOwners
open Programs ByteBlock LogCode DiskLayout ProcTable
open BufferSeq (Env quiet)
open FsMemory FsCode FsDirect FsOwned
open FsMap FsContent FsInodes FsTrunc
open FsState FsTable FsDirs FsNames
open Function (update update_self update_of_ne)

inductive Op where
  | iget (inum : ℕ)
  | idup (k : Fin ninode)
  | ilock (p : Slot) (k : Fin ninode)
  | iunlock (p : Slot) (k : Fin ninode)
  | ialloc (type : BitVec 16)
  | setFields (p : Slot) (k : Fin ninode) (major minor nlink : BitVec 16)
  | writei (p : Slot) (k : Fin ninode) (src : Src) (off n : ℕ) (env : Env)
  | dirlink (p : Slot) (k : Fin ninode) (name : Name) (inum : ℕ)
  | erase (p : Slot) (k : Fin ninode) (n : ℕ)
  | itrunc (p : Slot) (k : Fin ninode)
  | iput (p : Slot) (k : Fin ninode)

section Machine
variable (sb : Superblock)

def prog : Op → F Unit
  | .iget inum => do
    let _ ← iget inum
    pure ()
  | .idup k => do
    let _ ← idup k
    pure ()
  | .ilock p k => ilock sb p k
  | .iunlock p k => iunlock p k
  | .ialloc type => do
    let _ ← ialloc sb type
    pure ()
  | .setFields _ k major minor nlink => do
    modifyCopy k (fun d => { d with major := major, minor := minor, nlink := nlink })
    iupdate sb k
  | .writei _ k src off n _ => do
    let _ ← writei sb k src off n
    pure ()
  | .dirlink p k name inum => do
    let _ ← dirlink sb p k name inum
    pure ()
  | .erase _ k n => do
    let _ ← writei sb k (.kernel (List.replicate direntSize 0)) (direntSize*n) direntSize
    pure ()
  | .itrunc _ k => itrunc sb k
  | .iput p k => iput sb p k

def envOf : Op → Env
  | .writei _ _ _ _ _ env => env
  | _ => quiet

def holds (s : Fs) (p : Slot) (k : Fin ninode) : Bool :=
  (s.mem.itable k).lock = some p ∧ 0 < (s.mem.itable k).ref ∧ (s.mem.itable k).valid = true

def srcHas (n : ℕ) : Src → Bool
  | .kernel l => n ≤ l.length
  | .user _ => true

def allowed (s : Fs) : Op → Bool
  | .iget _ => true
  | .idup k => 0 < (s.mem.itable k).ref
  | .ilock _ k => 0 < (s.mem.itable k).ref ∧ (s.mem.itable k).inum < sb.ninodes
  | .iunlock p k => holds s p k
  | .ialloc type => type ≠ 0
  | .setFields p k _ _ _ => holds s p k
  | .writei p k src _ n _ => holds s p k ∧ (s.mem.itable k).copy.type ≠ tDir ∧ srcHas n src
  | .dirlink p k _ _ => holds s p k
  | .erase p k n => holds s p k ∧ direntSize*n+direntSize ≤ (s.mem.itable k).copy.size.toNat
  | .itrunc p k => holds s p k
  | .iput _ k => 0 < (s.mem.itable k).ref

def outcome (op : Op) (s : Fs) : Outcome (Unit × Fs) := exec (handle (envOf op)) (prog sb op) s

def step (op : Op) (s : Fs) : Option Fs :=
  if allowed sb s op then
    match outcome sb op s with
    | .ok (_,s') => some s'
    | _ => none
  else none

end Machine

def Filled (blocks : Blocks) (d : Dinode) : Prop :=
  ∀ o, o < d.size.toNat → byteAt blocks d o ≠ 0 → ∀ o', o'/bsize ≤ o/bsize →
    addrOf blocks d (placeOf (o'/bsize)) ≠ 0

structure Sound (sb : Superblock) (D : Inodes) (own : Owners) (s : Fs) : Prop where
  good : Good sb D own (fun _ => False) s
  synced : ∀ i, i < sb.ninodes → diskInode sb s.blocks i = D i
  clean : ∀ b, own b ≠ .held ∧ own b ≠ .lost
  filled : ∀ i, i < sb.ninodes → (D i).type = tDir → Filled s.blocks (D i)

def Inv (sb : Superblock) (s : Fs) : Prop := ∃ D own, Sound sb D own s

section Steps
variable {sb : Superblock} {D D' : Inodes} {own own' : Owners} {s s' : Fs} {k : Fin ninode} {i : ℕ}
variable {env : Env} {E : String → Prop}

theorem inUse_of_holds {p : Slot} (h : holds s p k = true) :
    InUse s k (s.mem.itable k).inum := by
  have hh := of_decide_eq_true h
  exact ⟨hh.2.1,hh.2.2,rfl⟩

theorem sound_table (h : Sound sb D own s) (hgood : Good sb D own (fun _ => False) s')
    (hblocks : s'.blocks = s.blocks) : Sound sb D own s' where
  good := hgood
  synced := by
    rw [hblocks]
    exact h.synced
  clean := h.clean
  filled := by
    rw [hblocks]
    exact h.filled

theorem good_none (h : Good sb D own (fun j => False ∧ j ≠ i) s) :
    Good sb D own (fun _ => False) s where
  stored := h.stored
  copies := h.copies
  unique := h.unique
  absent := h.absent
  lag := fun j hj _ => h.lag j hj And.left

theorem sound_save (h : Sound sb D own s) (hgood : Good sb D' own' (fun _ => False) s')
    (hother : ∀ j, j ≠ i → D' j = D j)
    (hdisk : ∀ j, j < sb.ninodes → j ≠ i → diskInode sb s'.blocks j = diskInode sb s.blocks j)
    (hsync : diskInode sb s'.blocks i = D' i) (hclean : ∀ b, own' b ≠ .held ∧ own' b ≠ .lost)
    (hbytes : ∀ j, j < sb.ninodes → j ≠ i → ∀ o, byteAt s'.blocks (D j) o = byteAt s.blocks (D j) o)
    (hkeep : ∀ j, j < sb.ninodes → j ≠ i → ∀ pl, addrOf s.blocks (D j) pl ≠ 0 →
      addrOf s'.blocks (D j) pl = addrOf s.blocks (D j) pl)
    (hfilled : (D' i).type = tDir → Filled s'.blocks (D' i)) : Sound sb D' own' s' where
  good := hgood
  synced := fun j hj => by
    by_cases hji : j = i
    · rw [hji, hsync]
    · rw [hdisk j hj hji, hother j hji, h.synced j hj]
  clean := hclean
  filled := fun j hj htype => by
    by_cases hji : j = i
    · subst hji
      exact hfilled htype
    · rw [hother j hji] at htype ⊢
      intro o ho hne o' ho'
      rw [hbytes j hj hji] at hne
      have h0 := h.filled j hj htype o ho hne o' ho'
      rw [hkeep j hj hji _ h0]
      exact h0

theorem sound_wrote (h : Sound sb D own s) (hk : InUse s k i) {lo hi : ℕ}
    (hwr : Wrote sb k i lo hi D own s D' own' s') (hsync : diskInode sb s'.blocks i = D' i)
    (hfilled : (D' i).type = tDir → Filled s'.blocks (D' i)) : Sound sb D' own' s' := by
  have hopen := good_open h.good hk
  have htype : (D' i).type ≠ 0 := by
    rw [hwr.fields]
    exact hopen.type_ne
  apply sound_save h (good_none (good_save h.good hk hwr.stored hwr.other htype hwr.mem hwr.disk
    hsync hwr.frame)) hwr.other hwr.disk hsync
  · exact fun b => ⟨fun hb => (h.clean b).1 (hwr.held b hb),fun hb => (h.clean b).2 (hwr.lost b hb)⟩
  · exact fun j hj hji o => hwr.frame j hj hji _ (sub_refl _) o
  · intro j hj hji pl h0
    have := hwr.keep j hj pl h0
    rwa [hwr.other j hji] at this
  · exact hfilled

theorem entry_block (e : ℕ) {j : ℕ} (hj : j < direntSize) :
    (direntSize*e+j)/bsize = direntSize*e/bsize := by
  have hds : direntSize = 16 := rfl
  have hb : bsize = 1024 := rfl
  rw [hds] at hj ⊢
  rw [hb]
  omega

variable {blocks : Blocks} {d : Dinode} {e t : ℕ} {D₁ : Inodes} {own₁ : Owners} {s₁ : Fs}

theorem filled_used (h : Filled blocks d) (hbound : direntSize*e+direntSize ≤ d.size.toNat)
    (hused : direntInum (dent blocks d e) ≠ 0) {o : ℕ}
    (ho : o/bsize ≤ direntSize*e/bsize) : addrOf blocks d (placeOf (o/bsize)) ≠ 0 := by
  obtain ⟨j,hj,hne⟩ := dent_used hused
  exact h (direntSize*e+j) (by omega) hne o (by rw [entry_block e hj]; exact ho)

theorem dense_used (h : Filled blocks d) (hbound : direntSize*e+direntSize ≤ d.size.toNat)
    (hused : direntInum (dent blocks d e) ≠ 0) :
    Dense blocks d 0 (direntSize*(e+1)) := by
  intro o _ ho
  apply filled_used h hbound hused
  have hlt : o ≤ direntSize*e+(direntSize-1) := by
    have hds : direntSize = 16 := rfl
    rw [hds] at ho ⊢
    omega
  calc o/bsize ≤ (direntSize*e+(direntSize-1))/bsize := Nat.div_le_div_right hlt
    _ = direntSize*e/bsize := entry_block e (by decide)

theorem filled_link {name : Name} {inum : ℕ} (h : Filled s.blocks (D i)) (hi : i < sb.ninodes)
    (hv : Vacant sb k i 0 e D own s D₁ own₁ s₁)
    (hw : WriteDone sb k i (.kernel (direntBytes inum name)) (direntSize*e) direntSize t D₁ own₁ s₁
      D' own' s') : Filled s'.blocks (D' i) := by
  have hds : direntSize = 16 := rfl
  have hsize₁ : (D₁ i).size = (D i).size := by rw [hv.grown.fields]
  obtain ⟨hwr,-⟩ := hw.kernel _ rfl
  have hkeep : ∀ pl, addrOf s.blocks (D i) pl ≠ 0 → addrOf s'.blocks (D' i) pl ≠ 0 := by
    intro pl h0
    have h₁ := hv.grown.keep i hi pl h0
    rw [hwr.keep i hi pl (h₁ ▸ h0), h₁]
    exact h0
  have hstart := hw.start
  have hroom := hw.room
  have hle := hw.le
  rw [hsize₁] at hstart
  intro o ho hne o' ho'
  rw [hw.size, hsize₁] at ho
  by_cases hin : direntSize*e ≤ o ∧ o < direntSize*e+t
  · have hblk : o/bsize = direntSize*e/bsize := by
      have := entry_block e (show o-direntSize*e < direntSize by omega)
      rwa [Nat.add_sub_cancel' hin.1] at this
    rw [hblk] at ho'
    rcases Nat.lt_or_eq_of_le ho' with hlt | heq
    · -- the first entry of an earlier block is in use
      have hb : bsize = 1024 := rfl
      have hme : 64*(o'/bsize) < e := by
        rw [hds, hb] at hlt
        rw [hb]
        omega
      obtain ⟨hused,hbound⟩ := hv.full _ (Nat.zero_le _) hme
      apply hkeep
      apply filled_used h hbound hused
      rw [hds, hb]
      omega
    · intro hz
      apply hne
      rw [byteAt, hblk, ← heq, hz, if_pos rfl]
  · have hbyte : byteAt s'.blocks (D' i) o = byteAt s.blocks (D i) o := by
      have hsz := (hwr.stored.size_le i hi)
      rw [hw.size, hsize₁] at hsz
      rw [hwr.bytes o (by omega) (by omega), hv.grown.bytes o]
    rw [hbyte] at hne
    exact hkeep _ (h o (by omega) hne o' ho')

theorem filled_erase {off n : ℕ} (h : Filled s.blocks (D i)) (hi : i < sb.ninodes)
    (hin : off+n ≤ (D i).size.toNat)
    (hw : WriteDone sb k i (.kernel (List.replicate n 0)) off n t D own s D' own' s') :
    Filled s'.blocks (D' i) := by
  obtain ⟨hwr,hzero⟩ := hw.kernel _ rfl
  have hle := hw.le
  have hsize := hw.size
  rw [max_eq_left (by omega)] at hsize
  intro o ho hne o' ho'
  rw [hsize] at ho
  by_cases hin' : off ≤ o ∧ o < off+t
  · have := hzero (o-off) (by omega)
    rw [Nat.add_sub_cancel' hin'.1] at this
    rw [this] at hne
    exact absurd (by simp [List.getD_eq_getElem?_getD]) hne
  · have hsz := h
    have hmax := hwr.stored.size_le i hi
    rw [hwr.bytes o (by omega) (by omega)] at hne
    have h0 := h o ho hne o' ho'
    rw [hwr.keep i hi _ h0]
    exact h0

theorem dense_full (h : Filled s.blocks (D i)) (hmax : (D i).size.toNat ≤ maxfile*bsize)
    (hv : Vacant sb k i 0 e D own s D₁ own₁ s₁)
    (hfull : (D i).size.toNat < direntSize*e ∨ maxfile*bsize < direntSize*e+direntSize) :
    Dense s.blocks (D i) 0 (D i).size.toNat := by
  have hds : direntSize = 16 := rfl
  have hmb : maxfile*bsize = 274432 := rfl
  rw [hmb] at hmax hfull
  rw [hds] at hfull
  have hend : (D i).size.toNat ≤ 16*e := by
    rcases hv.here with ⟨hin,-⟩ | hend
    · rw [hds] at hin
      omega
    · exact hend
  obtain ⟨m,rfl⟩ : ∃ m, e = m+1 := ⟨e-1,by omega⟩
  obtain ⟨hused,hbound⟩ := hv.full m (Nat.zero_le m) (Nat.lt_succ_self m)
  intro o ho hlt
  exact dense_used h hbound hused o ho (by rw [hds]; omega)

end Steps

def Spares (msg : String) : Prop := msg ≠ "freeing free block"

theorem tolerates_spares : Tolerates Spares := fun msg hmsg heq => by
  subst heq
  exact hmsg (by decide)

section Ops
variable {sb : Superblock} {D : Inodes} {own : Owners} {s : Fs} {k : Fin ninode} {env : Env}
variable {p : Slot}

theorem wp_iget_inv (h : Sound sb D own s) (inum : ℕ) :
    wp (handle env) Spares (prog sb (.iget inum)) (fun _ s' => Inv sb s') s := by
  rw [prog, wp_bind]
  apply wp_iget (.inr (tolerates_spares _ (by decide)))
  intro k' hgets
  exact wp_pure.mpr ⟨D,own,sound_table h (good_got h.good hgets) rfl⟩

theorem wp_idup_inv (h : Sound sb D own s) (href : 0 < (s.mem.itable k).ref) :
    wp (handle env) Spares (prog sb (.idup k)) (fun _ s' => Inv sb s') s := by
  rw [prog, idup, wp_bind, wp_bind, wp_modifyInode, wp_pure, wp_pure]
  exact ⟨D,own,sound_table h (good_entry_fields h.good href (Nat.succ_pos _)) rfl⟩

theorem wp_ilock_inv (h : Sound sb D own s) (href : 0 < (s.mem.itable k).ref)
    (hinum : (s.mem.itable k).inum < sb.ninodes) :
    wp (handle env) Spares (prog sb (.ilock p k)) (fun _ s' => Inv sb s') s := by
  apply wp_ilock h.good rfl hinum (.inl href) (.inr (by unfold Spares; decide))
  intro _ _ htype
  exact ⟨D,own,sound_table h (good_locked h.good href rfl hinum htype) rfl⟩

theorem wp_iunlock_inv (h : Sound sb D own s) (hlock : holds s p k = true) :
    wp (handle env) Spares (prog sb (.iunlock p k)) (fun _ s' => Inv sb s') s := by
  have hk := inUse_of_holds hlock
  apply wp_iunlock (of_decide_eq_true hlock).1 hk.ref
  exact ⟨D,own,sound_table h (good_unlocked h.good hk.ref) rfl⟩

theorem wp_ialloc_inv (hsb : Layout sb) (h : Sound sb D own s) {type : BitVec 16}
    (htype : type ≠ 0) :
    wp (handle env) Spares (prog sb (.ialloc type)) (fun _ s' => Inv sb s') s := by
  rw [prog, wp_bind]
  apply wp_ialloc (.inr (tolerates_spares _ (by decide))) (wp_pure.mpr ⟨D,own,h⟩)
  intro i k' _ hi hfree hgets
  have hgood := good_ialloc hsb h.good hi not_false hfree htype
  have hframe : ∀ j, j < sb.ninodes → ∀ o, byteAt (inodeWritten sb s i (freshInode type)).blocks
      (D j) o = byteAt s.blocks (D j) o :=
    fun j hj o => inodeWritten_byteAt hsb h.good.stored hi hj (sub_refl _) o
  have hsound : Sound sb (update D i (freshInode type)) own
      (inodeWritten sb s i (freshInode type)) := by
    apply sound_save h hgood (fun j hji => update_of_ne hji _ _)
    · exact fun j _ hji => (inodeWritten_disk i j _).trans (if_neg hji)
    · rw [inodeWritten_disk, if_pos rfl, update_self]
    · exact h.clean
    · exact fun j hj _ => hframe j hj
    · exact fun j hj _ pl _ => inodeWritten_addrOf hsb h.good.stored hi hj (sub_refl _) pl
    · intro _ o ho
      rw [update_self] at ho
      exact absurd ho (Nat.not_lt_zero o)
  exact wp_pure.mpr ⟨_,own,sound_table hsound (good_got hgood hgets) rfl⟩

variable {d : Dinode} {n : ℕ}

theorem filled_congr {blocks blocks' : Blocks} {d' : Dinode} (h : Filled blocks d)
    (hsize : d'.size = d.size) (hbytes : ∀ o, byteAt blocks' d' o = byteAt blocks d o)
    (haddrs : ∀ pl, addrOf blocks' d' pl = addrOf blocks d pl) : Filled blocks' d' := by
  intro o ho hne o' ho'
  rw [hsize] at ho
  rw [hbytes] at hne
  rw [haddrs]
  exact h o ho hne o' ho'

theorem wp_setFields_inv (hsb : Layout sb) (h : Sound sb D own s) (hlock : holds s p k = true)
    (major minor nlink : BitVec 16) :
    wp (handle env) Spares (prog sb (.setFields p k major minor nlink))
      (fun _ s' => Inv sb s') s := by
  obtain ⟨i,hk⟩ : ∃ i, InUse s k i := ⟨_,inUse_of_holds hlock⟩
  have hopen := good_open h.good hk
  rw [prog, wp_bind, wp_modifyCopy, wp_iupdate, saved_eq, hopen.copy, hk.inum]
  generalize hd : ({ D i with major := major, minor := minor, nlink := nlink } : Dinode) = d
  have haddrs : d.addrs = (D i).addrs := by rw [← hd]
  have hsize : d.size = (D i).size := by rw [← hd]
  have htype : d.type = (D i).type := by rw [← hd]
  have hsaved := fieldsSaved (k := k) hsb h.good.stored hopen.inum_lt d
  refine ⟨update D i d,own,sound_save h
    (good_none (good_fields hsb h.good hk haddrs hsize (htype ▸ hopen.type_ne)))
    (fun j hji => update_of_ne hji _ _) (fun j _ hji => (hsaved.disk j).trans (if_neg hji))
    ?_ h.clean (fun j hj _ => hsaved.bytes j hj _ (sub_refl _))
    (fun j hj _ pl _ => hsaved.addrs j hj pl) ?_⟩
  · rw [update_self, hsaved.disk, if_pos rfl]
  · rw [update_self]
    intro ht
    apply filled_congr (h.filled i hopen.inum_lt (htype ▸ ht)) hsize
    · intro o
      rw [byteAt_congr haddrs]
      exact hsaved.bytes i hopen.inum_lt _ (sub_refl _) o
    · intro pl
      rw [addrOf_congr haddrs]
      exact hsaved.addrs i hopen.inum_lt pl

theorem wp_writei_inv (hsb : Layout sb) (h : Sound sb D own s) (hlock : holds s p k = true)
    (htype : (s.mem.itable k).copy.type ≠ tDir) {src : Src} (hsrc : srcHas n src = true)
    (off : ℕ) : wp (handle env) Spares (prog sb (.writei p k src off n env))
      (fun _ s' => Inv sb s') s := by
  obtain ⟨i,hk⟩ : ∃ i, InUse s k i := ⟨_,inUse_of_holds hlock⟩
  have hopen := good_open h.good hk
  rw [prog, wp_bind]
  apply wp_writei hsb hopen hk.inum
  · intro l hl
    rw [hl] at hsrc
    exact of_decide_eq_true hsrc
  · exact fun _ => wp_pure.mpr ⟨D,own,h⟩
  · intro t D' own' s' hw
    refine wp_pure.mpr ⟨D',own',sound_wrote h hk hw.wrote hw.synced (fun hdir => ?_)⟩
    rw [hw.wrote.fields] at hdir
    rw [hopen.copy] at htype
    exact absurd hdir htype

theorem wp_dirlink_inv (hsb : Layout sb) (h : Sound sb D own s) (hlock : holds s p k = true)
    (name : Name) (inum : ℕ) :
    wp (handle env) Spares (prog sb (.dirlink p k name inum)) (fun _ s' => Inv sb s') s := by
  obtain ⟨i,hk⟩ : ∃ i, InUse s k i := ⟨_,inUse_of_holds hlock⟩
  have hi := (good_open h.good hk).inum_lt
  rw [prog, wp_bind]
  apply wp_dirlink hsb (scans_of_tolerates tolerates_spares _ _) h.good hk
  · intro e D₁ own₁ s₁ s' htype hf hsame hgood
    obtain ⟨rfl,rfl,rfl⟩ := hf.dense (dense_used (h.filled i hi htype) hf.bound hf.hit.1)
    exact wp_pure.mpr ⟨D₁,own₁,sound_table h hgood hsame.blocks⟩
  · intro e D₁ own₁ s₁ htype hv hfull
    obtain ⟨rfl,rfl,rfl⟩ := hv.dense
      (dense_full (h.filled i hi htype) (h.good.stored.size_le i hi) hv hfull)
    exact wp_pure.mpr ⟨D₁,own₁,h⟩
  · intro e t D₁ own₁ s₁ D' own' s' htype _ hv hw
    have hwr := wrote_trans (wrote_of_grown hv.grown _ _) hw.wrote (fun _ ho => ⟨ho,ho⟩)
    exact wp_pure.mpr ⟨D',own',sound_wrote h hk hwr hw.synced
      (fun _ => filled_link (h.filled i hi htype) hi hv hw)⟩

theorem wp_erase_inv (hsb : Layout sb) (h : Sound sb D own s) (hlock : holds s p k = true)
    (hin : direntSize*n+direntSize ≤ (s.mem.itable k).copy.size.toNat) :
    wp (handle env) Spares (prog sb (.erase p k n)) (fun _ s' => Inv sb s') s := by
  obtain ⟨i,hk⟩ : ∃ i, InUse s k i := ⟨_,inUse_of_holds hlock⟩
  have hopen := good_open h.good hk
  rw [hopen.copy] at hin
  rw [prog, wp_bind]
  apply wp_writei hsb hopen hk.inum
  · rintro l ⟨⟩
    exact (List.length_replicate ..).ge
  · exact fun _ => wp_pure.mpr ⟨D,own,h⟩
  · intro t D' own' s' hw
    refine wp_pure.mpr ⟨D',own',sound_wrote h hk hw.wrote hw.synced (fun hdir => ?_)⟩
    rw [hw.wrote.fields] at hdir
    exact filled_erase (h.filled i hopen.inum_lt hdir) hopen.inum_lt hin hw

theorem handOver_clean (h : ∀ b, own b ≠ .held ∧ own b ≠ .lost) (i b : ℕ) :
    handOver own i .free b ≠ .held ∧ handOver own i .free b ≠ .lost := by
  by_cases hpl : ∃ pl, own b = .place (i,pl)
  · obtain ⟨pl,hpl⟩ := hpl
    rw [handOver_self hpl]
    exact ⟨nofun,nofun⟩
  · rw [handOver_other (not_exists.mp hpl)]
    exact h b

theorem sound_emptied (h : Sound sb D own s) {i : ℕ} {s' : Fs}
    (hgood : Good sb (update D i d) (handOver own i .free) (fun _ => False) s') (hsize : d.size = 0)
    (hdisk : ∀ j, j < sb.ninodes → diskInode sb s'.blocks j = if j = i then d
      else diskInode sb s.blocks j)
    (hdata : ∀ b, dataStart sb ≤ b → s'.blocks b = s.blocks b) (hi : i < sb.ninodes) :
    Sound sb (update D i d) (handOver own i .free) s' := by
  apply sound_save h hgood (fun j hji => update_of_ne hji _ _)
  · exact fun j hj hji => (hdisk j hj).trans (if_neg hji)
  · rw [hdisk i hi, if_pos rfl, update_self]
  · exact handOver_clean h.clean i
  · exact fun j hj _ o => byteAt_data h.good.stored hdata hj (sub_refl _) o
  · exact fun j hj _ pl _ => addrOf_data h.good.stored hdata hj (sub_refl _) pl
  · intro _ o ho
    rw [update_self, hsize] at ho
    exact absurd ho (Nat.not_lt_zero o)

theorem wp_itrunc_inv (hsb : Layout sb) (h : Sound sb D own s) (hlock : holds s p k = true) :
    wp (handle env) Spares (prog sb (.itrunc p k)) (fun _ s' => Inv sb s') s := by
  obtain ⟨i,hk⟩ : ∃ i, InUse s k i := ⟨_,inUse_of_holds hlock⟩
  have hopen := good_open h.good hk
  apply wp_itrunc hsb hopen hk.inum
  intro s' ht
  exact ⟨_,_,sound_emptied h (good_none (good_truncated h.good hk ht)) rfl ht.disk ht.data
    hopen.inum_lt⟩

theorem wp_iput_inv (hsb : Layout sb) (h : Sound sb D own s) (href : 0 < (s.mem.itable k).ref) :
    wp (handle env) Spares (prog sb (.iput p k)) (fun _ s' => Inv sb s') s := by
  apply wp_iput hsb h.good rfl
  · intro _
    refine ⟨D,own,sound_table h (good_dropped h.good rfl (.inr ?_)) rfl⟩
    cases hvalid : (s.mem.itable k).valid with
    | false => exact .inl rfl
    | true => exact .inr (h.synced _ (h.good.copies k href hvalid).1)
  · intro s' hin hone _ _ hf
    have hopen := good_open h.good hin
    exact ⟨_,_,sound_emptied h (good_freed h.good rfl hone hf) rfl hf.disk hf.data hopen.inum_lt⟩

theorem wp_prog_inv (hsb : Layout sb) (h : Inv sb s) {op : Op} (hop : allowed sb s op = true) :
    wp (handle (envOf op)) Spares (prog sb op) (fun _ s' => Inv sb s') s := by
  obtain ⟨D,own,h⟩ := h
  cases op with
  | iget inum => exact wp_iget_inv h inum
  | idup k => exact wp_idup_inv h (of_decide_eq_true hop)
  | ilock p k =>
    have hop := of_decide_eq_true hop
    exact wp_ilock_inv h hop.1 hop.2
  | iunlock p k => exact wp_iunlock_inv h hop
  | ialloc type => exact wp_ialloc_inv hsb h (of_decide_eq_true hop)
  | setFields p k major minor nlink => exact wp_setFields_inv hsb h hop major minor nlink
  | writei p k src off n env =>
    have hop := of_decide_eq_true hop
    exact wp_writei_inv hsb h hop.1 hop.2.1 hop.2.2 off
  | dirlink p k name inum => exact wp_dirlink_inv hsb h hop name inum
  | erase p k n =>
    have hop := of_decide_eq_true hop
    exact wp_erase_inv hsb h hop.1 hop.2
  | itrunc p k => exact wp_itrunc_inv hsb h hop
  | iput p k => exact wp_iput_inv hsb h (of_decide_eq_true hop)

end Ops

end GreenOS.BlockOwners
