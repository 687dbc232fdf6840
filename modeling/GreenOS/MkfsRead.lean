import GreenOS.MkfsRoot

/-!
# The kernel reads what mkfs wrote

The kernel's `bmap`, `readi` and `dirlookup` run over an image. Where every block
has its address they change nothing, so what they return can be computed: the
content of the inode, and the first entry that has the name.
-/

namespace GreenOS.MkfsRead
open Programs LogCode DiskLayout FsMemory
open BufferSeq (Env)
open FsCode FsDirect FsNames FsOwned
open FsContent FsTable FsDirs Mkfs
open MkfsRoot

section Read
variable {env : Env} {sb : Superblock} {s : Fs} {k : Fin ninode} {d : Dinode}

theorem exec_getInode : exec (handle env) (getInode k) s = .ok (s.mem.itable k,s) := rfl

theorem exec_bread (b : ℕ) : exec (handle env) (bread b) s = .ok (s.blocks b,s) := rfl

theorem exec_brelse (b : ℕ) : exec (handle env) (brelse b) s = .ok ((),s) := rfl

theorem exec_copyout (tot : ℕ) (bytes : List UInt8) :
    exec (handle env) (eitherCopyout .kernel tot bytes) s = .ok (true,s) := rfl

theorem exec_bmapSlot {i : Fin (ndirect+1)} (hd : (s.mem.itable k).copy = d) (h0 : d.addrs i ≠ 0) :
    exec (handle env) (bmapSlot sb k i) s = .ok ((d.addrs i).toNat,s) := by
  rw [bmapSlot, exec_bind_ok exec_getInode, hd, if_neg h0]
  rfl

theorem exec_bmap {bn a : ℕ} (hd : (s.mem.itable k).copy = d) (hbn : bn < maxfile)
    (ha : addrOf s.blocks d (placeOf bn) = a) (h0 : a ≠ 0) :
    exec (handle env) (bmap sb k bn) s = .ok (a,s) := by
  have hmax : maxfile = ndirect+nindirect := rfl
  unfold placeOf at ha
  split_ifs at ha with hdirect
  · have hne : d.addrs (direct bn) ≠ 0 := fun hz => h0 (by rw [← ha, addrOf, hz]; rfl)
    rw [bmap, if_pos hdirect, exec_bmapSlot hd hne]
    exact congrArg (fun a => Outcome.ok (a,s)) ha
  · have hj : bn-ndirect < nindirect := by omega
    have hval : (Fin.ofNat nindirect (bn-ndirect)).val = bn-ndirect := Nat.mod_eq_of_lt hj
    rw [addrOf, hval] at ha
    split_ifs at ha with hz
    · exact absurd ha.symm h0
    · have hind : (d.addrs indirect).toNat ≠ 0 := fun h => hz (BitVec.eq_of_toNat_eq h)
      have hentry : getAddr (s.blocks (d.addrs indirect).toNat) (bn-ndirect) ≠ 0 :=
        fun h => h0 (by rw [← ha, h]; rfl)
      rw [bmap, if_neg hdirect, if_pos hj, exec_bind_ok (exec_bmapSlot hd hz), if_neg hind,
        bmapIndirect, exec_bind_ok (exec_bread _),
        if_neg hentry, ← ha]
      rfl

theorem exec_readLoop {n left tot off : ℕ} {acc : List UInt8} (hd : (s.mem.itable k).copy = d)
    (htot : tot ≤ n) (hoff : off+(n-tot) ≤ maxfile*bsize) (hfuel : n ≤ tot+left)
    (hdense : Dense s.blocks d off (n-tot)) :
    exec (handle env) (readLoop sb k .kernel n left tot off acc) s =
      .ok ((n,acc ++ content s.blocks d off (n-tot)),s) := by
  have hb : bsize = 1024 := rfl
  have hm : maxfile = 268 := rfl
  induction left generalizing tot off acc with
  | zero =>
    obtain rfl : tot = n := by omega
    rw [Nat.sub_self, content_zero, List.append_nil]
    rfl
  | succ left ih =>
    rw [readLoop]
    split_ifs with hlt
    · obtain ⟨m,hm'⟩ : ∃ m, m = min (n-tot) (bsize-off%bsize) := ⟨_,rfl⟩
      have hin : off%bsize+m ≤ bsize ∧ 0 < m ∧ m ≤ n-tot := by
        rw [hb] at hm' ⊢
        omega
      have ha := hdense off (le_refl _) (by omega)
      rw [exec_bind_ok (exec_bmap hd (by rw [hb, hm] at *; omega) rfl ha), if_neg ha,
        exec_bind_ok (exec_bread _), ← hm', exec_bind_ok (exec_copyout _ _),
        exec_bind_ok (exec_brelse _), if_pos rfl, window_content rfl ha hin.1,
        ih (by omega) (by omega) (by omega) (fun o ho hlt' => hdense o (by omega) (by omega)),
        List.append_assoc, show n-(tot+m) = n-tot-m by omega, ← content_append,
        show m+(n-tot-m) = n-tot by omega]
    · obtain rfl : tot = n := by omega
      rw [Nat.sub_self, content_zero, List.append_nil]
      rfl

theorem exec_readi {off n m : ℕ} (hd : (s.mem.itable k).copy = d)
    (hsize : d.size.toNat ≤ maxfile*bsize) (hoff : off ≤ d.size.toNat) (hn : off+n < 2^32)
    (hm : m = min n (d.size.toNat-off)) (hdense : Dense s.blocks d off m) :
    exec (handle env) (readi sb k .kernel off n) s = .ok ((m,content s.blocks d off m),s) := by
  have hcut : (if d.size.toNat < off+n then d.size.toNat-off else n) = m := by
    split_ifs <;> omega
  rw [readi, exec_bind_ok exec_getInode, hd, if_neg (by rw [Nat.mod_eq_of_lt hn]; omega)]
  dsimp only
  rw [hcut]
  rw [exec_readLoop hd (Nat.zero_le m) (by omega) (by omega) hdense, Nat.sub_zero,
    List.nil_append]

end Read

section Names

theorem strncmp_eq_zero_iff {n : ℕ} {a b : Name} (ha : a.length ≤ n) (hb : b.length ≤ n)
    (ha0 : 0 ∉ a) (hb0 : 0 ∉ b) : strncmp (cstr a) (cstr b) n = 0 ↔ a = b := by
  rw [strncmp_text, text_cstr ha ha0, text_cstr hb hb0]

def Fits (name : Name) : Prop := name.length ≤ dirsiz ∧ 0 ∉ name

theorem direntName_bytes {name : Name} (h : name.length ≤ dirsiz) (inum : ℕ) :
    direntName (direntBytes inum name) = cstr name := by
  funext i
  have hds : direntSize = dirsiz+2 := rfl
  by_cases hi : i < dirsiz
  · exact direntName_lt inum name hi
  · rw [direntName, List.getD_eq_default _ _ (by rw [direntBytes_length]; omega), cstr,
      List.getD_eq_default _ _ (by omega)]

theorem matches_bytes_iff {inum : ℕ} {name name' : Name} (hi : inum < 2^16) (h0 : inum ≠ 0)
    (hname : Fits name) (hname' : Fits name') :
    Matches (direntBytes inum name') name ↔ name = name' := by
  rw [Matches, direntInum_bytes hi, direntName_bytes hname'.1, namecmp,
    strncmp_eq_zero_iff hname.1 hname'.1 hname.2 hname'.2]
  exact and_iff_right h0

end Names

section Lookup
variable {env : Env} {sb : Superblock} {s : Fs} {k ip : Fin ninode} {d : Dinode} {name : Name}

theorem exec_iget {inum : ℕ} (h : igetEntry s.mem.itable inum = some ip) :
    exec (handle env) (iget inum) s = .ok (ip,got s inum ip) := by
  rw [iget, exec_bind, exec_atomic, h]
  rfl

theorem exec_lookupLoop {left n e : ℕ} (hd : (s.mem.itable k).copy = d)
    (hsize : d.size.toNat ≤ maxfile*bsize) (hn : n ≤ e) (hfuel : e < n+left)
    (hbound : direntSize*(e+1) ≤ d.size.toNat)
    (hdense : Dense s.blocks d 0 (direntSize*(e+1)))
    (hfirst : ∀ m, n ≤ m → m < e → ¬ Matches (dent s.blocks d m) name)
    (hhit : Matches (dent s.blocks d e) name)
    (hget : igetEntry s.mem.itable (direntInum (dent s.blocks d e)) = some ip) :
    exec (handle env) (lookupLoop sb k name d.size.toNat left (direntSize*n)) s =
      .ok (some (ip,direntSize*e),got s (direntInum (dent s.blocks d e)) ip) := by
  have hds : direntSize = 16 := rfl
  have hmb : maxfile*bsize < 2^31 := by decide
  induction left generalizing n with
  | zero => omega
  | succ left ih =>
    have hle : direntSize*n+direntSize ≤ direntSize*(e+1) := by
      rw [← Nat.mul_succ]
      exact Nat.mul_le_mul_left _ (Nat.succ_le_succ hn)
    have hread : exec (handle env) (readi sb k .kernel (direntSize*n) direntSize) s =
        .ok ((direntSize,dent s.blocks d n),s) := by
      apply exec_readi hd hsize (by omega) (by omega) (by omega)
      exact fun o _ ho => hdense o (Nat.zero_le _) (by omega)
    rw [lookupLoop, if_pos (by omega), exec_bind_ok hread]
    dsimp only
    rw [if_neg (not_not.mpr rfl)]
    rcases Nat.eq_or_lt_of_le hn with rfl | hlt
    · rw [if_neg hhit.1, if_pos hhit.2, exec_bind_ok (exec_iget hget)]
      rfl
    · have hmiss := hfirst n (le_refl n) hlt
      have hnext := ih hlt (by omega) (fun m hm => hfirst m (by omega))
      rw [Nat.mul_succ] at hnext
      split_ifs with hempty hname
      · exact hnext
      · exact absurd ⟨hempty,hname⟩ hmiss
      · exact hnext

theorem exec_dirlookup {e : ℕ} (hd : (s.mem.itable k).copy = d) (htype : d.type = tDir)
    (hsize : d.size.toNat ≤ maxfile*bsize) (hbound : direntSize*(e+1) ≤ d.size.toNat)
    (hdense : Dense s.blocks d 0 (direntSize*(e+1)))
    (hfirst : ∀ m, m < e → ¬ Matches (dent s.blocks d m) name)
    (hhit : Matches (dent s.blocks d e) name)
    (hget : igetEntry s.mem.itable (direntInum (dent s.blocks d e)) = some ip) :
    exec (handle env) (dirlookup sb k name) s =
      .ok (some (ip,direntSize*e),got s (direntInum (dent s.blocks d e)) ip) := by
  have hds : direntSize = 16 := rfl
  rw [dirlookup, exec_bind_ok exec_getInode, hd, if_neg (not_not.mpr htype)]
  exact exec_lookupLoop (n := 0) hd hsize (Nat.zero_le e)
    (by rw [hds] at hbound; omega) hbound hdense
    (fun m _ => hfirst m) hhit hget

end Lookup

section Agree
variable {files : List Input} {img : Blocks} {D : Inodes} {own : Owners}

theorem shortname_some {path : List UInt8} {name : Name} (h : shortname path = some name) :
    name.length ≤ dirsiz ∧ ∀ x ∈ name, x ∈ path := by
  obtain ⟨base,hbase⟩ : ∃ base, base = if userDir.isPrefixOf path then path.drop 5 else path :=
    ⟨_,rfl⟩
  obtain ⟨short,hshort⟩ : ∃ short, short = if base.head? = some underscore then base.drop 1
      else base := ⟨_,rfl⟩
  have hpath : ∀ x ∈ base, x ∈ path := by
    intro x hx
    rw [hbase] at hx
    split_ifs at hx
    · exact List.mem_of_mem_drop hx
    · exact hx
  have hsub : ∀ x ∈ short, x ∈ base := by
    intro x hx
    rw [hshort] at hx
    split_ifs at hx
    · exact List.mem_of_mem_drop hx
    · exact hx
  simp only [shortname, ← hbase, ← hshort] at h
  split_ifs at h with hslash hlen
  cases h
  exact ⟨hlen,fun x hx => hpath x (hsub x hx)⟩

theorem fileEntries_get (files : List Input) (k n : ℕ) :
    (fileEntries k files)[n]? = files[n]?.map (fun f => (k+n,nameOf f)) := by
  induction files generalizing k n with
  | nil => rfl
  | cons f files ih =>
    cases n with
    | zero => rfl
    | succ n =>
      rw [fileEntries, List.getElem?_cons_succ, List.getElem?_cons_succ, ih]
      simp only [Nat.add_assoc, Nat.add_comm 1]

theorem rootEntries_get {n : ℕ} {f : Input} (h : files[n]? = some f) :
    (rootEntries files)[n+2]? = some (n+2,nameOf f) := by
  have hdots : (rootEntries files)[n+2]? = (fileEntries 2 files)[n]? := rfl
  rw [hdots, fileEntries_get, h, Nat.add_comm]
  rfl

theorem fits_nameOf (hshort : ∀ f ∈ files, shortname f.path = some (nameOf f))
    (hpaths : ∀ f ∈ files, 0 ∉ f.path) {f : Input} (hf : f ∈ files) : Fits (nameOf f) := by
  obtain ⟨hlen,hsub⟩ := shortname_some (hshort f hf)
  exact ⟨hlen,fun h0 => hpaths f hf (hsub 0 h0)⟩

theorem earlier_entry (hfit : files.length+2 ≤ ninodes) (hfits : ∀ f ∈ files, Fits (nameOf f))
    (hnames : ∀ f ∈ files, nameOf f ≠ dot ∧ nameOf f ≠ dotdot)
    (hdistinct : (files.map nameOf).Nodup) {n m : ℕ} {f : Input} (hf : files[n]? = some f)
    (hm : m < n+2) : ∃ e, (rootEntries files)[m]? = some e ∧ e.1 ≠ 0 ∧ e.1 < ninodes ∧
      Fits e.2 ∧ nameOf f ≠ e.2 := by
  have hlt : n < files.length := (List.getElem?_eq_some_iff.mp hf).1
  have hmem : f ∈ files := List.mem_of_getElem? hf
  match m, hm with
  | 0, _ => exact ⟨(rootino,dot),rfl,by decide,by decide,by unfold Fits; decide,(hnames f hmem).1⟩
  | 1, _ =>
    exact ⟨(rootino,dotdot),rfl,by decide,by decide,by unfold Fits; decide,(hnames f hmem).2⟩
  | m+2, hm =>
    have hmlt : m < files.length := by omega
    have hg : files[m]? = some files[m] := List.getElem?_eq_getElem hmlt
    refine ⟨(m+2,nameOf files[m]),rootEntries_get hg,by omega,?_,
      hfits _ (List.getElem_mem hmlt),fun heq => ?_⟩
    · exact lt_of_lt_of_le (Nat.add_lt_add_right hmlt 2) hfit
    · have hget : f = files[n] := (List.getElem?_eq_some_iff.mp hf).2.symm
      rw [hget] at heq
      have hinj := List.nodup_iff_injective_getElem.mp hdistinct
      have hlen : (files.map nameOf).length = files.length := List.length_map _
      have hnm : (⟨n,by omega⟩ : Fin (files.map nameOf).length) = ⟨m,by omega⟩ :=
        hinj (by simpa using heq)
      have := congrArg Fin.val hnm
      dsimp only at this
      omega

theorem content_file {d : Dinode} {data : List UInt8} (h : FileAt img d data)
    (hmax : data.length ≤ maxfile*bsize) (off len : ℕ) :
    content img d off (min len (data.length-off)) = (data.drop off).take len := by
  apply eq_of_getD
  · simp [content]
  · intro j hj
    have hlen : j < min len (data.length-off) := by simpa [content] using hj
    rw [content, List.getD_eq_getElem?_getD, List.getElem?_map, List.getElem?_range hlen]
    simp only [Option.map_some, Option.getD_some]
    rw [h.bytes _ (by omega), List.getD_eq_getElem?_getD, List.getD_eq_getElem?_getD,
      List.getElem?_take_of_lt (by omega), List.getElem?_drop]

/-- The image as the kernel sees it: the names are found in the root directory, the
files are read back, and the blocks in use are marked. -/
structure Agrees (files : List Input) (img : Blocks) : Prop where
  finds : ∀ env m k ip n f, files[n]? = some f →
    (m.itable k).copy = diskInode superblock img rootino →
    igetEntry m.itable (n+2) = some ip →
    exec (handle env) (dirlookup superblock k (nameOf f)) ⟨img,m⟩ =
      .ok (some (ip,direntSize*(n+2)),got ⟨img,m⟩ (n+2) ip)
  length : ∀ n f, files[n]? = some f →
    (diskInode superblock img (n+2)).size.toNat = f.data.length
  reads : ∀ env m k n f off len, files[n]? = some f →
    (m.itable k).copy = diskInode superblock img (n+2) → off ≤ f.data.length → off+len < 2^32 →
    exec (handle env) (readi superblock k .kernel off len) ⟨img,m⟩ =
      .ok ((↑(min len (f.data.length-off)),(f.data.drop off).take len),⟨img,m⟩)
  metadata : ∀ b, b < nmeta → bitOf superblock img b = true
  reachable : ∀ i pl, i < ninodes → addrOf img (diskInode superblock img i) pl ≠ 0 →
    bitOf superblock img (addrOf img (diskInode superblock img i) pl) = true

theorem agrees_bits (h : Stored superblock D own img) {b : ℕ} (hb : own b ≠ .free) :
    bitOf superblock img b = true :=
  (h.bits b (h.below b hb)).mpr hb

/-- The kernel finds and reads every file of the image. -/
theorem image_agrees (files : List Input) (img : ℕ → Block) (hfit : files.length+2 ≤ ninodes)
    (himg : mkfs files = some img) (hpaths : ∀ f ∈ files, 0 ∉ f.path)
    (hnames : ∀ f ∈ files, nameOf f ≠ dot ∧ nameOf f ≠ dotdot)
    (hdistinct : (files.map nameOf).Nodup) : Agrees files img := by
  obtain ⟨hshort,D,own,h,hfiles⟩ := mkfs_files hfit himg
  have hn : ninodes = 200 := rfl
  have hin : ∀ {n f}, files[n]? = some f → n+2 < ninodes := fun hf => by
    have := (List.getElem?_eq_some_iff.mp hf).1
    omega
  have hroot : diskInode superblock img rootino = D rootino := h.disk rootino (by decide)
  have hsizes := h.stored.size_le
  constructor
  · intro env m k ip n f hf hcopy hget
    have hfits : ∀ g ∈ files, Fits (nameOf g) := fun g hg => fits_nameOf hshort hpaths hg
    have hone : rootino = 1 := rfl
    have hlt : n < files.length := (List.getElem?_eq_some_iff.mp hf).1
    have hmem : f ∈ files := List.mem_of_getElem? hf
    have hentry := h.entries (n+2) _ (rootEntries_get hf)
    have hinum : direntInum (dent img (D rootino) (n+2)) = n+2 := by
      rw [hentry]
      exact direntInum_bytes (lt_trans (hin hf) (by decide)) _
    have hlen : direntSize*(n+2+1) ≤ direntSize*(rootEntries files).length := by
      rw [rootEntries, List.length_append, fileEntries_length]
      exact Nat.mul_le_mul_left _ (by change n+2+1 ≤ 2+files.length; omega)
    have hround : direntSize*(rootEntries files).length ≤ (D rootino).size.toNat := by
      have hb : bsize = 1024 := rfl
      rw [h.size, hb]
      omega
    rw [hroot] at hcopy
    have hhit : Matches (dent img (D rootino) (n+2)) (nameOf f) := by
      rw [hentry]
      exact (matches_bytes_iff (lt_trans (hin hf) (by decide)) (Nat.succ_ne_zero _)
        (hfits f hmem) (hfits f hmem)).mpr rfl
    have hfirst : ∀ e, e < n+2 → ¬ Matches (dent img (D rootino) e) (nameOf f) := by
      intro e he
      obtain ⟨x,hx,hx0,hxlt,hxfits,hne⟩ := earlier_entry hfit hfits hnames hdistinct hf he
      rw [h.entries e x hx,
        matches_bytes_iff (lt_trans hxlt (by decide)) hx0 (hfits f hmem) hxfits]
      exact hne
    have hlook : exec (handle env) (dirlookup superblock k (nameOf f)) ⟨img,m⟩ =
        .ok (some (ip,direntSize*(n+2)),got ⟨img,m⟩ (direntInum (dent img (D rootino) (n+2))) ip) :=
      exec_dirlookup hcopy (h.used rootino (by decide) (by rw [hone]; omega)).1
        (hsizes rootino (by decide)) (hlen.trans hround) (fun o _ ho => h.dense o (by omega))
        hfirst hhit (by rw [hinum]; exact hget)
    rwa [hinum] at hlook
  · intro n f hf
    rw [h.disk _ (hin hf)]
    exact (hfiles.file n f hf).size
  · intro env m k n f off len hf hcopy hoff hlen
    have hat := hfiles.file n f hf
    rw [h.disk _ (hin hf)] at hcopy
    have hmax := hsizes (n+2) (hin hf)
    rw [← content_file hat (hat.size ▸ hmax) off len]
    apply exec_readi hcopy hmax (hat.size ▸ hoff) hlen (by rw [hat.size])
    exact fun o _ ho => hat.dense o (by omega)
  · intro b hb
    apply agrees_bits h.stored
    rw [(h.stored.reserved b).mp hb]
    intro h
    cases h
  · intro i pl hi h0
    rw [h.disk i hi] at h0 ⊢
    apply agrees_bits h.stored
    rw [h.stored.tracks.owned (i,pl) hi h0]
    intro h
    cases h

end Agree

def greeting : List Input := [⟨[117,115,101,114,47,95,97],[104,105]⟩]

/-- One file `user/_a` with the content `hi`. -/
theorem greeting_agrees : ∃ img, mkfs greeting = some img ∧ Agrees greeting img := by
  have hrun : (mkfs greeting).isSome = true := by decide +kernel
  obtain ⟨img,himg⟩ := Option.isSome_iff_exists.mp hrun
  exact ⟨img,himg,image_agrees greeting img (by decide) himg (by decide) (by decide) (by decide)⟩

end GreenOS.MkfsRead
