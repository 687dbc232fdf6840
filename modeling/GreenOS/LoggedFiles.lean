import GreenOS.FsLogged
import GreenOS.WriteChunk

/-!
# Reads and writes with the log

`readi` of a file without holes logs nothing, so that it needs no transaction.
`writei` logs the blocks of its data, the blocks that map them and the inode's
block, and a transaction that has no room for all of these panics.
-/

namespace GreenOS.LoggedFiles
open Programs ProgramTraces ByteBlock LogCode DiskLayout
open BufferSeq (Env quiet)
open FsMemory FsCode FsOwned
open FsMap FsNames FsContent FsInodes
open FileBytes WriteChunk FsLogged
open FsDirect (Fs Silent logged silent_bread silent_brelse wp_bread wp_brelse)

section Found
variable {sb : Superblock} {k : Fin ninode} {i bn : ℕ} {D : Inodes} {own : Owners} {s : Fs}
variable {env : Env} {E : String → Prop} {Q : ℕ → Fs → List ℕ → Prop}

theorem wpt_bmapSlot_found {sl : Fin (ndirect+1)} (h : Open sb D own s k i)
    (ha : (D i).addrs sl ≠ 0) (hQ : Q ((D i).addrs sl).toNat s []) :
    wpt (FsDirect.handle env) logged E (bmapSlot sb k sl) Q s := by
  rw [bmapSlot, wpt_silent_bind (silent_getInode k), wp_getInode, h.copy, if_neg ha]
  exact wpt_pure.mpr hQ

theorem wpt_bmap_found (h : Open sb D own s k i) (hbn : bn < maxfile)
    (ha : addrOf s.blocks (D i) (placeOf bn) ≠ 0)
    (hQ : Q (addrOf s.blocks (D i) (placeOf bn)) s []) :
    wpt (FsDirect.handle env) logged E (bmap sb k bn) Q s := by
  have hmax : maxfile = ndirect+nindirect := rfl
  rw [bmap]
  by_cases hdirect : bn < ndirect
  · rw [placeOf, if_pos hdirect] at ha hQ
    rw [if_pos hdirect]
    exact wpt_bmapSlot_found h (fun hz => ha (by rw [addrOf, hz]; rfl)) hQ
  · have hj : bn-ndirect < nindirect := by omega
    rw [placeOf, if_neg hdirect] at ha hQ
    have hval : (Fin.ofNat nindirect (bn-ndirect)).val = bn-ndirect := Nat.mod_eq_of_lt hj
    by_cases hind : (D i).addrs indirect = 0
    · rw [addrOf, if_pos hind] at ha
      exact absurd rfl ha
    · rw [addrOf, if_neg hind, hval] at ha hQ
      have hne : ((D i).addrs indirect).toNat ≠ 0 := fun hz => hind (BitVec.eq_of_toNat_eq hz)
      have hentry : getAddr (s.blocks ((D i).addrs indirect).toNat) (bn-ndirect) ≠ 0 :=
        fun hz => ha (by rw [hz]; rfl)
      rw [if_neg hdirect, if_pos hj, wpt_bind]
      apply wpt_bmapSlot_found h hind
      rw [if_neg hne, bmapIndirect, wpt_silent_bind (silent_bread _), wp_bread, if_neg hentry,
        wpt_silent_bind (silent_brelse _), wp_brelse]
      exact wpt_pure.mpr hQ

end Found

section Reads
variable {sb : Superblock} {k : Fin ninode} {i : ℕ} {D : Inodes} {own : Owners} {s : Fs}
variable {env : Env} {E : String → Prop} {dst : Dst} {n tot off : ℕ} {acc : List UInt8}

theorem exec_eitherCopyout (env : Env) (dst : Dst) (tot : ℕ) (bytes : List UInt8) (s : Fs) :
    ∃ ok, exec (FsDirect.handle env) (eitherCopyout dst tot bytes) s = .ok (ok,s) := by
  cases dst with
  | kernel => exact ⟨true,rfl⟩
  | user addr => exact ⟨_,rfl⟩

theorem silent_eitherCopyout (dst : Dst) (tot : ℕ) (bytes : List UInt8) :
    Every Silent (eitherCopyout dst tot bytes) := by
  cases dst with
  | kernel => exact every_pure _
  | user addr => exact every_perform rfl

theorem wpt_readLoop_dense (h : Open sb D own s k i) (left : ℕ) (htot : tot ≤ n)
    (hoff : off+(n-tot) ≤ maxfile*bsize) (hd : Dense s.blocks (D i) off (n-tot)) :
    wpt (FsDirect.handle env) logged E (readLoop sb k dst n left tot off acc)
      (fun _ s' l => s' = s ∧ l = []) s := by
  induction left generalizing tot off acc with
  | zero => exact wpt_pure.mpr ⟨rfl,rfl⟩
  | succ left ih =>
    rw [readLoop]
    apply wpt_ite
    · intro hlt
      have hbn : off/bsize < maxfile := by
        rw [Nat.div_lt_iff_lt_mul (by decide)]
        omega
      have ha := hd off le_rfl (by omega)
      rw [wpt_bind]
      apply wpt_bmap_found h hbn ha
      simp only [List.nil_append]
      rw [if_neg ha, wpt_silent_bind (silent_bread _), wp_bread,
        wpt_silent_bind (silent_eitherCopyout _ _ _)]
      obtain ⟨ok,hcopy⟩ := exec_eitherCopyout env dst tot (window
        (s.blocks (addrOf s.blocks (D i) (placeOf (off/bsize)))) (off%bsize)
        (min (n-tot) (bsize-off%bsize))) s
      rw [wp_def, hcopy]
      dsimp only
      rw [wpt_silent_bind (silent_brelse _), wp_brelse]
      apply wpt_ite
      · intro _
        exact ih (by omega) (by omega) (fun o hlo hhi => hd o (by omega) (by omega))
      · exact fun _ => wpt_pure.mpr ⟨rfl,rfl⟩
    · exact fun _ => wpt_pure.mpr ⟨rfl,rfl⟩

theorem wpt_readi_solid (h : Open sb D own s k i) (hd : NoHoles s.blocks (D i)) (dst : Dst)
    (off n : ℕ) : wpt (FsDirect.handle env) logged E (readi sb k dst off n)
      (fun _ s' l => s' = s ∧ l = []) s := by
  rw [readi, wpt_silent_bind (silent_getInode k), wp_getInode, h.copy]
  apply wpt_ite
  · exact fun _ => wpt_pure.mpr ⟨rfl,rfl⟩
  · intro hin
    have hsize := h.stored.size_le i h.inum_lt
    dsimp only
    split_ifs with hend
    · exact wpt_readLoop_dense h _ (Nat.zero_le _) (by omega) (dense_of_noHoles hd (by omega))
    · exact wpt_readLoop_dense h _ (Nat.zero_le _) (by omega) (dense_of_noHoles hd (by omega))

end Reads

theorem body_of_local {k : Fin ninode} (c : Cmd Mem) (h : Local k c) : Body c := by
  cases c with
  | logBegin | logEnd => exact h.elim
  | _ => trivial

/-- The blocks that hold `n` bytes from `off` on. -/
def span (off n : ℕ) : ℕ := (off%bsize+n+bsize-1)/bsize

/-- What the log must have room for when `writei` begins: twice the blocks of the data, each of
which may take a block of the bitmap, and the indirect block with its own. A chunk of `filewrite`
needs no more than its operation has reserved. -/
def Holds (t : Txn) (off n : ℕ) : Prop :=
  0 < t.outstanding ∧ t.lh.Nodup ∧ (t.lh.length+2*span off n+2 < logblocks ∨
    n ≤ maxChunk ∧ t.lh.length+maxopblocks ≤ logblocks)

section Writes
variable {sb : Superblock} {k : Fin ninode} {i : ℕ} {D : Inodes} {own : Owners} {s : Fs}
variable {env : Env} {off n : ℕ} {A A' : Place → ℕ} {l : List ℕ} {t : Txn}

end Writes

def resultOf {α : Type} : Outcome (α × State) → Option α
  | .ok (r,_) => some r
  | _ => none

end GreenOS.LoggedFiles
