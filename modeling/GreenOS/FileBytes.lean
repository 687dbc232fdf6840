import GreenOS.FsInodes

/-!
# A file as an array of bytes

What `readi` and `writei` do to an inode without holes, read as operations on
the list of its bytes. The destination and the source may lie in the kernel or
in user memory; all that matters is that the copies from and to them succeed.
-/

namespace GreenOS.FileBytes
open Programs ByteBlock LogCode DiskLayout
open BufferSeq (Env quiet)
open FsMemory FsCode FsDirect FsOwned
open FsMap FsNames FsContent FsInodes

/-- A command inside a transaction that changes memory in the copy of the inode in entry `k` at
most, and never waits. -/
def Local (k : Fin ninode) : Cmd Mem → Prop
  | .atomic _ f => ∀ m, ∃ r d, f m = some (r,withCopy m k d)
  | .logBegin | .logEnd => False
  | _ => True

def Inner (k : Fin ninode) : Cmd Mem → Prop
  | .copyin _ _ => False
  | .copyout _ _ => False
  | c => Local k c

section Local
variable {sb : Superblock} {k : Fin ninode}

theorem inner_local (c : Cmd Mem) (h : Inner k c) : Local k c := by
  cases c with
  | copyin src n => exact h.elim
  | copyout dst bytes => exact h.elim
  | _ => exact h

theorem local_not_wait (env : Env) (c : Cmd Mem) (s : Fs) (h : Local k c) :
    handle env c s ≠ .wait := by
  cases c with
  | atomic β f =>
    obtain ⟨r,d,hf⟩ := h s.mem
    simp only [handle, hf]
    intro h
    cases h
  | _ =>
    intro h
    cases h

theorem inner_readMem {β : Type} (f : Mem → β) : Every (Inner k) (readMem f) :=
  every_perform (fun m => ⟨f m,(m.itable k).copy,by rw [withCopy_self rfl]⟩)

theorem inner_modifyCopy (f : Dinode → Dinode) : Every (Inner k) (modifyCopy k f) :=
  every_perform (fun m => ⟨(),f (m.itable k).copy,rfl⟩)

theorem inner_balloc : Every (Inner k) (balloc sb) := by
  have hloop : ∀ n b, Every (Inner k) (ballocFrom sb n b) := by
    intro n
    induction n with
    | zero => exact fun b => every_pure 0
    | succ n ih =>
      intro b
      rw [ballocFrom]
      apply every_bind (every_perform trivial)
      intro data
      cases freeBit sb data b bpb 0 with
      | none => exact ⟨trivial,fun _ => ih (b+bpb)⟩
      | some bi =>
        exact ⟨trivial,fun _ => ⟨trivial,fun _ => ⟨trivial,fun _ => ⟨trivial,fun _ =>
          ⟨trivial,fun _ => ⟨trivial,fun _ => ⟨trivial,fun _ => trivial⟩⟩⟩⟩⟩⟩⟩
  exact hloop _ 0

theorem inner_bmapSlot (i : Fin (ndirect+1)) : Every (Inner k) (bmapSlot sb k i) := by
  rw [bmapSlot]
  apply every_bind (inner_readMem _)
  intro ip
  apply every_ite _ (every_pure _)
  apply every_bind inner_balloc
  intro a
  exact every_ite (every_pure _) (every_bind (inner_modifyCopy _) (fun _ => every_pure _))

theorem inner_bmapIndirect (ind j : ℕ) : Every (Inner k) (bmapIndirect sb ind j) := by
  rw [bmapIndirect]
  refine ⟨trivial,fun data => ?_⟩
  apply every_ite
  · apply every_bind inner_balloc
    intro a
    apply every_ite
    · exact ⟨trivial,fun _ => trivial⟩
    · exact ⟨trivial,fun _ => ⟨trivial,fun _ => ⟨trivial,fun _ => trivial⟩⟩⟩
  · exact ⟨trivial,fun _ => trivial⟩

theorem inner_bmap (bn : ℕ) : Every (Inner k) (bmap sb k bn) := by
  rw [bmap]
  apply every_ite (inner_bmapSlot _)
  apply every_ite
  · apply every_bind (inner_bmapSlot _)
    exact fun _ => every_ite (every_pure _) (inner_bmapIndirect _ _)
  · exact every_kpanic trivial

theorem local_readMem {β : Type} (f : Mem → β) : Every (Local k) (readMem f) :=
  every_mono inner_local (inner_readMem f)

theorem local_modifyCopy (f : Dinode → Dinode) : Every (Local k) (modifyCopy k f) :=
  every_mono inner_local (inner_modifyCopy f)

theorem local_iupdate : Every (Local k) (iupdate sb k) :=
  every_bind (local_readMem _) (fun _ =>
    ⟨trivial,fun _ => ⟨trivial,fun _ => ⟨trivial,fun _ => ⟨trivial,fun _ => trivial⟩⟩⟩⟩)

theorem local_bmap (bn : ℕ) : Every (Local k) (bmap sb k bn) :=
  every_mono inner_local (inner_bmap bn)

theorem local_eitherCopyout (dst : Dst) (tot : ℕ) (bytes : List UInt8) :
    Every (Local k) (eitherCopyout dst tot bytes) := by
  cases dst with
  | kernel => exact every_pure true
  | user addr => exact ⟨trivial,fun _ => trivial⟩

theorem local_eitherCopyin (src : Src) (tot m : ℕ) :
    Every (Local k) (eitherCopyin src tot m) := by
  cases src with
  | kernel l => exact every_pure _
  | user addr => exact ⟨trivial,fun _ => trivial⟩

theorem local_readi (dst : Dst) (off n : ℕ) : Every (Local k) (readi sb k dst off n) := by
  have hloop : ∀ n left tot off acc, Every (Local k) (readLoop sb k dst n left tot off acc) := by
    intro n left
    induction left with
    | zero => exact fun _ _ _ => every_pure _
    | succ left ih =>
      intro tot off acc
      rw [readLoop]
      apply every_ite _ (every_pure _)
      apply every_bind (local_bmap _)
      intro a
      apply every_ite (every_pure _)
      refine ⟨trivial,fun data => ?_⟩
      apply every_bind (local_eitherCopyout _ _ _)
      intro ok
      exact ⟨trivial,fun _ => every_ite (ih _ _ _) (every_pure _)⟩
  rw [readi]
  apply every_bind (local_readMem _)
  exact fun ip => every_ite (every_pure _) (hloop _ _ _ _ _)

theorem local_writei (src : Src) (off n : ℕ) : Every (Local k) (writei sb k src off n) := by
  have hloop : ∀ left tot off, Every (Local k) (writeLoop sb k src n left tot off) := by
    intro left
    induction left with
    | zero => exact fun _ _ => every_pure _
    | succ left ih =>
      intro tot off
      rw [writeLoop]
      apply every_ite _ (every_pure _)
      apply every_bind (local_bmap _)
      intro a
      apply every_ite (every_pure _)
      refine ⟨trivial,fun data => ?_⟩
      apply every_bind (local_eitherCopyin _ _ _)
      intro r
      refine ⟨trivial,fun _ => ?_⟩
      apply every_ite
      · exact ⟨trivial,fun _ => ⟨trivial,fun _ => ih _ _⟩⟩
      · exact ⟨trivial,fun _ => trivial⟩
  rw [writei]
  apply every_bind (local_readMem _)
  intro ip
  apply every_ite (every_pure _)
  apply every_ite (every_pure _)
  apply every_bind (hloop _ _ _)
  intro r
  apply every_bind (local_readMem _)
  intro ip
  have hend : Every (Local k) (do iupdate sb k; pure (r.1 : ℤ)) :=
    every_bind local_iupdate (fun _ => every_pure _)
  exact every_ite (every_bind (local_modifyCopy _) (fun _ => hend)) hend

end Local

def Takes (env : Env) (dst : Dst) (n : ℕ) : Prop :=
  ∀ tot bytes s, tot+bytes.length ≤ n →
    exec (handle env) (eitherCopyout dst tot bytes) s = .ok (true,s)

/-- Every copy of a part of `n` bytes from the source succeeds and gives that part
of `bytes`. -/
def Gives (env : Env) (src : Src) (n : ℕ) (bytes : List UInt8) : Prop :=
  bytes.length = n ∧ ∀ tot m s, tot+m ≤ n →
    exec (handle env) (eitherCopyin src tot m) s = .ok (((bytes.drop tot).take m,true),s)

section Sides
variable {sb : Superblock} {k : Fin ninode} {env : Env}

variable {dst : Dst} {n : ℕ} {src : Src} {bytes : List UInt8}

theorem readLoop_takes (h : Takes env dst n) (left tot off : ℕ) (acc : List UInt8) (s : Fs) :
    exec (handle env) (readLoop sb k dst n left tot off acc) s =
      exec (handle env) (readLoop sb k .kernel n left tot off acc) s := by
  induction left generalizing tot off acc s with
  | zero => rfl
  | succ left ih =>
    rw [readLoop, readLoop]
    split_ifs with hlt
    · apply exec_bind_congr
      intro a s₁ _
      split_ifs with ha
      · rfl
      · apply exec_bind_congr
        intro data s₂ _
        have hcopy := h tot (window data (off%bsize) (min (n-tot) (bsize-off%bsize))) s₂ (by
          simp only [window, List.length_map, List.length_range]
          omega)
        refine (exec_bind_ok hcopy).trans (Eq.trans ?_ (exec_bind_ok (exec_pure true s₂)).symm)
        apply exec_bind_congr
        intro _ s₃ _
        rw [if_pos rfl, if_pos rfl]
        exact ih _ _ _ _
    · rfl

theorem readi_takes (h : Takes env dst n) (off : ℕ) (s : Fs) :
    exec (handle env) (readi sb k dst off n) s =
      exec (handle env) (readi sb k .kernel off n) s := by
  rw [readi, readi]
  apply exec_bind_congr
  intro ip s₁ _
  split_ifs with hout hend
  · rfl
  · exact readLoop_takes (fun tot bytes s hle => h tot bytes s (by omega)) _ _ _ _ _
  · exact readLoop_takes h _ _ _ _ _

theorem writeLoop_gives (h : Gives env src n bytes) (left tot off : ℕ) (s : Fs) :
    exec (handle env) (writeLoop sb k src n left tot off) s =
      exec (handle env) (writeLoop sb k (.kernel bytes) n left tot off) s := by
  induction left generalizing tot off s with
  | zero => rfl
  | succ left ih =>
    rw [writeLoop, writeLoop]
    split_ifs with hlt
    · apply exec_bind_congr
      intro a s₁ _
      split_ifs with ha
      · rfl
      · apply exec_bind_congr
        intro data s₂ _
        have hcopy := h.2 tot (min (n-tot) (bsize-off%bsize)) s₂ (by omega)
        refine (exec_bind_ok hcopy).trans (Eq.trans ?_ (exec_bind_ok (exec_pure _ s₂)).symm)
        apply exec_bind_congr
        intro _ s₃ _
        rw [if_pos rfl, if_pos rfl]
        apply exec_bind_congr
        intro _ s₄ _
        apply exec_bind_congr
        intro _ s₅ _
        exact ih _ _ _
    · rfl

theorem writei_gives (h : Gives env src n bytes) (off : ℕ)
    (s : Fs) : exec (handle env) (writei sb k src off n) s =
      exec (handle env) (writei sb k (.kernel bytes) off n) s := by
  rw [writei, writei]
  apply exec_bind_congr
  intro ip s₁ _
  split_ifs with hout hmax
  · rfl
  · rfl
  · rw [exec_bind, exec_bind, writeLoop_gives h]

end Sides

def bytesOf (blocks : Blocks) (d : Dinode) : List UInt8 := content blocks d 0 d.size.toNat

def NoHoles (blocks : Blocks) (d : Dinode) : Prop :=
  ∀ bn, bn < (d.size.toNat+bsize-1)/bsize → addrOf blocks d (placeOf bn) ≠ 0

def readAt (a : List UInt8) (off n : ℕ) : List UInt8 :=
  if a.length < off ∨ 2^32 ≤ off+n then [] else (a.drop off).take n

/-- An array with some bytes at `off` replaced, or added behind its end. -/
def overwrite (a : List UInt8) (off : ℕ) (bytes : List UInt8) : List UInt8 :=
  a.take off++bytes++a.drop (off+bytes.length)

section Array
variable {blocks : Blocks} {d : Dinode}

@[simp] theorem length_content (off n : ℕ) : (content blocks d off n).length = n := by
  simp [content]

@[simp] theorem length_bytesOf : (bytesOf blocks d).length = d.size.toNat := length_content _ _

variable {off n m : ℕ}

theorem take_content (h : m ≤ n) :
    (content blocks d off n).take m = content blocks d off m := by
  obtain ⟨l,rfl⟩ := Nat.exists_eq_add_of_le h
  rw [content_append, List.take_left' (length_content off m)]

theorem drop_content (h : m ≤ n) :
    (content blocks d off n).drop m = content blocks d (off+m) (n-m) := by
  obtain ⟨l,rfl⟩ := Nat.exists_eq_add_of_le h
  rw [content_append, List.drop_left' (length_content off m), Nat.add_sub_cancel_left]

theorem content_congr_on {blocks' : Blocks} {d' : Dinode}
    (h : ∀ o, off ≤ o → o < off+n → byteAt blocks' d' o = byteAt blocks d o) :
    content blocks' d' off n = content blocks d off n := by
  apply List.map_congr_left
  intro j hj
  have := List.mem_range.mp hj
  exact h (off+j) (by omega) (by omega)

theorem dense_of_noHoles (h : NoHoles blocks d) (hle : off+n ≤ d.size.toNat) :
    Dense blocks d off n := by
  intro o _ hlt
  apply h
  have hb : bsize = 1024 := rfl
  simp only [hb]
  omega

theorem noHoles_of_dense (h : Dense blocks d 0 d.size.toNat) : NoHoles blocks d := by
  intro bn hbn
  have hb : bsize = 1024 := rfl
  have hlt : bn*bsize < 0+d.size.toNat := by
    simp only [hb] at hbn ⊢
    omega
  have := h (bn*bsize) (Nat.zero_le _) hlt
  rwa [Nat.mul_div_cancel bn (by decide)] at this

theorem readAt_bytesOf (hoff : off ≤ d.size.toNat) (hwrap : off+n < 2^32) :
    readAt (bytesOf blocks d) off n = content blocks d off (min n (d.size.toNat-off)) := by
  rw [readAt, if_neg (by simp only [length_bytesOf]; omega), bytesOf, drop_content hoff,
    Nat.zero_add]
  rcases Nat.le_total n (d.size.toNat-off) with h | h
  · rw [take_content h, Nat.min_eq_left h]
  · rw [List.take_of_length_le (by rw [length_content]; exact h), Nat.min_eq_right h]

end Array

/-- What a `writei` at `off` that stored `bytes` has done to a file system. -/
structure Replaced (sb : Superblock) (k : Fin ninode) (i off : ℕ) (bytes : List UInt8)
    (D : Inodes) (own : Owners) (s : Fs) (D' : Inodes) (own' : Owners) (s' : Fs) : Prop where
  opened : Open sb D' own' s' k i
  content : bytesOf s'.blocks (D' i) = overwrite (bytesOf s.blocks (D i)) off bytes
  size : (D' i).size.toNat = max (D i).size.toNat (off+bytes.length)
  noHoles : NoHoles s.blocks (D i) → NoHoles s'.blocks (D' i)
  other : ∀ j, j < sb.ninodes → j ≠ i →
    D' j = D j ∧ bytesOf s'.blocks (D' j) = bytesOf s.blocks (D j)
  saved : diskInode sb s'.blocks i = D' i
  fields : D' i = { D i with size := (D' i).size, addrs := (D' i).addrs }
  mem : s'.mem = withCopy s.mem k (D' i)

section Spec
variable {sb : Superblock} {k : Fin ninode} {i : ℕ} {D D' : Inodes} {own own' : Owners}
variable {s s' : Fs} {env : Env}

variable {off n t : ℕ} {bytes : List UInt8}

theorem wraps_iff (hn : n < 2^32) (hoff : off < 2^32) :
    (off+n)%2^32 < off ↔ 2^32 ≤ off+n := by
  constructor
  · intro h
    by_contra hlt
    rw [Nat.mod_eq_of_lt (by omega)] at h
    omega
  · intro h
    rw [Nat.mod_eq_sub_mod h, Nat.mod_eq_of_lt (by omega)]
    omega

theorem readi_kernel (hsb : Layout sb) (h : Open sb D own s k i) (hd : NoHoles s.blocks (D i))
    (hoff : off < 2^32) (hn : n < 2^32) :
    exec (handle env) (readi sb k .kernel off n) s =
      .ok ((((readAt (bytesOf s.blocks (D i)) off n).length : ℤ),
        readAt (bytesOf s.blocks (D i)) off n),s) := by
  have hwp : wp (handle env) (fun _ => False) (readi sb k .kernel off n)
      (fun a s' => a = (((readAt (bytesOf s.blocks (D i)) off n).length : ℤ),
        readAt (bytesOf s.blocks (D i)) off n) ∧ s' = s) s := by
    rw [readi, wp_bind, wp_getInode, h.copy]
    apply wp_ite
    · rw [wraps_iff hn hoff]
      intro hout
      have hnil : readAt (bytesOf s.blocks (D i)) off n = [] :=
        if_pos (by rwa [length_bytesOf])
      rw [hnil]
      exact wp_pure.mpr ⟨rfl,rfl⟩
    · rw [wraps_iff hn hoff]
      intro hin
      push Not at hin
      have hsize := h.stored.size_le i h.inum_lt
      have hmin : (if (D i).size.toNat < off+n then (D i).size.toNat-off else n) =
          min n ((D i).size.toNat-off) := by
        split_ifs <;> omega
      dsimp only
      rw [hmin, readAt_bytesOf hin.1 hin.2, length_content]
      apply wp_readLoop hsb h (Nat.zero_le _) (by omega) (by omega)
      intro t r D' own' s' hread hr
      obtain ⟨hs,-,-,ht⟩ := hread.dense (dense_of_noHoles hd (by omega))
      rw [Nat.sub_zero] at ht
      have hr' := hr.resolve_right (fun hr => hread.failed hr rfl)
      rw [hr', ht rfl, Nat.zero_add, List.nil_append]
      exact ⟨rfl,hs⟩
  obtain ⟨a,s',hexec,rfl,rfl⟩ :=
    exec_ok hwp (exec_not_wait (local_not_wait env) (local_readi (k := k) _ _ _) s)
  exact hexec

theorem bytesOf_write {blocks blocks' : Blocks} {d d' : Dinode} (hoff : off ≤ d.size.toNat)
    (hsize : d'.size.toNat = max d.size.toNat (off+t)) (hlen : bytes.length = t)
    (hin : ∀ j, j < t → byteAt blocks' d' (off+j) = bytes.getD j 0)
    (hout : ∀ o, o < d.size.toNat → o < off ∨ off+t ≤ o → byteAt blocks' d' o = byteAt blocks d o) :
    bytesOf blocks' d' = overwrite (bytesOf blocks d) off bytes := by
  have hsplit : d'.size.toNat = off+t+(d.size.toNat-(off+t)) := by omega
  have hbytes : content blocks' d' off t = bytes := by
    apply List.ext_getElem
    · rw [length_content, hlen]
    · intro j hj _
      rw [length_content] at hj
      simp only [content, List.getElem_map, List.getElem_range]
      rw [hin j hj, List.getD_eq_getElem _ _ (by omega)]
  rw [bytesOf, hsplit, content_append, content_append, overwrite, bytesOf, take_content hoff,
    Nat.zero_add, hbytes, hlen]
  congr 1
  · rw [content_congr_on (fun o _ ho => hout o (by omega) (.inl (by omega)))]
  · rcases Nat.le_total (off+t) d.size.toNat with hle | hle
    · rw [drop_content hle, Nat.zero_add]
      exact content_congr_on (fun o hlo hhi => hout o (by omega) (.inr hlo))
    · rw [Nat.sub_eq_zero_of_le hle, content_zero,
        List.drop_eq_nil_of_le (by rw [length_content]; exact hle)]

theorem replaced_of_done (h : Open sb D own s k i) (hlen : bytes.length = n)
    (hw : WriteDone sb k i (.kernel bytes) off n t D own s D' own' s') :
    Replaced sb k i off (bytes.take t) D own s D' own' s' := by
  obtain ⟨hwrote,hread⟩ := hw.kernel bytes rfl
  have hle := hw.le
  have hroom := hw.room
  have hsize := h.stored.size_le i h.inum_lt
  have htake : (bytes.take t).length = t := by
    rw [List.length_take]
    omega
  constructor
  · exact open_wrote h hwrote
  · refine bytesOf_write hw.start hw.size htake (fun j hj => ?_)
      (fun o ho hout => hwrote.bytes o (by omega) hout)
    rw [hread j hj]
    simp [List.getD_eq_getElem?_getD, hj]
  · rw [htake]
    exact hw.size
  · intro hd
    apply noHoles_of_dense
    intro o _ ho
    by_cases hin : off ≤ o ∧ o < off+t
    · exact hw.filled o hin.1 hin.2
    · have hold : addrOf s.blocks (D i) (placeOf (o/bsize)) ≠ 0 := by
        have hsz := hw.size
        have hst := hw.start
        have hdense := dense_of_noHoles hd (Nat.zero_add (D i).size.toNat).le
        exact hdense o (Nat.zero_le _) (by omega)
      rw [hwrote.keep i h.inum_lt _ hold]
      exact hold
  · intro j hj hji
    refine ⟨hwrote.other j hji,?_⟩
    rw [hwrote.other j hji]
    exact content_congr (hwrote.frame j hj hji _ (sub_refl _)) _ _
  · exact hw.synced
  · exact hwrote.fields
  · exact hwrote.mem

theorem writei_spec (hsb : Layout sb) (h : Open sb D own s k i) (hinum : (s.mem.itable k).inum = i)
    (hoff : off < 2^32) (hn : n < 2^32) {src : Src} (hsrc : Gives env src n bytes) :
    ((D i).size.toNat < off ∨ 2^32 ≤ off+n ∨ maxfile*bsize < off+n →
      exec (handle env) (writei sb k src off n) s = .ok (-1,s)) ∧
    (¬((D i).size.toNat < off ∨ 2^32 ≤ off+n ∨ maxfile*bsize < off+n) →
      ∃ (t : ℕ) (D' : Inodes) (own' : Owners) (s' : Fs),
        exec (handle env) (writei sb k src off n) s = .ok ((t : ℤ),s') ∧ t ≤ n ∧
        (t < n → Full sb s'.blocks) ∧
        Replaced sb k i off (bytes.take t) D own s D' own' s') := by
  rw [writei_gives hsrc]
  constructor
  · intro hbad
    rw [writei, exec_bind_ok (exec_perform _ s)]
    dsimp only
    rw [h.copy]
    split_ifs with hout hmax
    · rfl
    · rfl
    · rw [wraps_iff hn hoff] at hout
      omega
  · intro hgood
    have hwp : wp (handle env) (fun _ => False) (writei sb k (.kernel bytes) off n)
        (fun r s' => ∃ (t : ℕ) (D' : Inodes) (own' : Owners), r = (t : ℤ) ∧
          WriteDone sb k i (.kernel bytes) off n t D own s D' own' s') s := by
      apply wp_writei hsb h hinum
      · intro l hl
        cases hl
        exact hsrc.1.ge
      · intro hbad
        rw [wraps_iff hn hoff] at hbad
        exact absurd hbad hgood
      · exact fun t D' own' s' hw => ⟨t,D',own',rfl,hw⟩
    obtain ⟨r,s',hexec,t,D',own',rfl,hw⟩ :=
      exec_ok hwp (exec_not_wait (local_not_wait env) (local_writei (k := k) _ _ _) s)
    exact ⟨t,D',own',s',hexec,hw.le,hw.full bytes rfl,replaced_of_done h hsrc.1 hw⟩

end Spec

def tiny : Superblock where
  size := 64
  ninodes := 2
  logstart := 0
  inodestart := 1
  bmapstart := 2

/-- A file of sixteen bytes, which are in block 3. -/
def shortFile : Dinode :=
  { zeroDinode with
    type := 2
    nlink := 1
    size := 16
    addrs := Function.update (fun _ => 0) 0 3 }

def tinyInodes : Inodes := Function.update (fun _ => zeroDinode) 1 shortFile

def tinyOwners : Owners := fun b =>
  if b < 3 then .reserved else if b = 3 then .place (1,.inl 0) else .free

def tinyFs : Fs where
  blocks := fun b => if b = 1 then putDinode zeros 1 shortFile
    else if b = 2 then setBit (setBit (setBit (setBit zeros 0) 1) 2) 3 else zeros
  mem := setInode bootMem 0 ⟨1,1,none,true,shortFile⟩

theorem tiny_layout : Layout tiny := ⟨by decide,by decide,by decide,by decide⟩

theorem tinyInodes_other {i : ℕ} (hi : i ≠ 1) : tinyInodes i = zeroDinode :=
  Function.update_of_ne hi _ _

theorem addrOf_tinyInodes (x : ℕ × Place) :
    addrOf tinyFs.blocks (tinyInodes x.1) x.2 = if x = (1,.inl 0) then 3 else 0 := by
  obtain ⟨i,pl⟩ := x
  by_cases hi : i = 1
  · subst hi
    cases pl with
    | inl k =>
      by_cases hk : k = 0
      · subst hk
        rfl
      · have haddr : shortFile.addrs k = 0 := by simp [shortFile, hk]
        rw [if_neg (by simpa using hk)]
        exact congrArg BitVec.toNat haddr
    | inr j => rfl
  · rw [if_neg (fun h => hi (congrArg Prod.fst h))]
    simp only [tinyInodes_other hi]
    cases pl <;> rfl

theorem tinyInodes_size_le (i : ℕ) : (tinyInodes i).size.toNat ≤ 16 := by
  by_cases hi : i = 1
  · subst hi
    decide
  · rw [tinyInodes_other hi]
    decide

theorem tiny_open : Open tiny tinyInodes tinyOwners tinyFs 0 1 := by
  have hfree : ∀ b, tinyOwners b ≠ .free ↔ b < 4 := by
    intro b
    unfold tinyOwners
    split_ifs <;> simp
    all_goals omega
  have hplace : ∀ b x, tinyOwners b = .place x ↔ b = 3 ∧ x = (1,.inl 0) := by
    intro b x
    unfold tinyOwners
    split_ifs with h3 heq
    · exact iff_of_false nofun (by omega)
    · simp [heq, eq_comm]
    · exact iff_of_false nofun (by omega)
  have hbits : ∀ b < 64, bitOf tiny tinyFs.blocks b = decide (b < 4) := by decide +kernel
  refine ⟨⟨⟨fun x _ h0 => ?_,fun b x hb => ?_⟩,fun b => ?_,fun b hb => ?_,fun b hb => ?_,
    fun i _ h0 k => ?_,fun i _ => le_trans (tinyInodes_size_le i) (by decide)⟩,by decide,by decide,
    rfl⟩
  · rw [addrOf_tinyInodes] at h0 ⊢
    split_ifs at h0 ⊢ with hx
    · exact (hplace _ _).mpr ⟨rfl,hx⟩
    · exact absurd rfl h0
  · obtain ⟨rfl,rfl⟩ := (hplace b x).mp hb
    exact ⟨by decide,rfl,by decide⟩
  · unfold tinyOwners
    split_ifs with h3
    · exact iff_of_true h3 rfl
    · exact iff_of_false h3 (by simp)
    · exact iff_of_false h3 (by simp)
  · exact lt_of_lt_of_le ((hfree b).mp hb) (by decide)
  · rw [hbits b hb, hfree, decide_eq_true_iff]
  · have hi : i ≠ 1 := by
      rintro rfl
      exact absurd h0 (by decide)
    rw [tinyInodes_other hi]
    rfl

theorem tiny_noHoles : NoHoles tinyFs.blocks (tinyInodes 1) := by
  intro bn hbn
  obtain rfl : bn = 0 := Nat.lt_one_iff.mp hbn
  decide +kernel

end GreenOS.FileBytes
