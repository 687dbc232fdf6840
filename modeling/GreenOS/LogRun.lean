import GreenOS.BufferSeq

/-!
# The disk writes of commit and recovery

Each phase of the log code writes a list of blocks that depends only on what
the cache holds when it starts. Inside these phases every change of a buffer is
written to disk at once, so disk and cache move by the same list.
-/

namespace GreenOS.LogRun
open Programs LogCode Writes BufferSeq
open Function (update)

section
variable {M : Type}

def through (s : Sys M) (ws : List (ℕ × Block)) : Sys M :=
  { s with disk := apply s.disk ws, content := apply s.content ws, writes := s.writes ++ ws }

theorem through_through (s : Sys M) (ws vs : List (ℕ × Block)) :
    through (through s ws) vs = through s (ws++vs) := by
  simp [through, apply_append]

theorem through_nil (s : Sys M) : through s [] = s := by
  simp [through]

/-- The writes of `write_log`, from the blocks `lh` to the log blocks. -/
def logWrites (start : ℕ) (c : ℕ → Block) : ℕ → List ℕ → List (ℕ × Block)
  | _, [] => []
  | tail, b::bs => (start+tail+1,c b)::logWrites start c (tail+1) bs

/-- The writes of `install_trans`, from the log blocks to the blocks `lh`. -/
def homeWrites (start : ℕ) (c : ℕ → Block) : ℕ → List ℕ → List (ℕ × Block)
  | _, [] => []
  | tail, b::bs => (b,c (start+tail+1))::homeWrites start c (tail+1) bs

theorem logWrites_congr (start : ℕ) (c c' : ℕ → Block) (tail : ℕ) (bs : List ℕ)
    (h : ∀ b ∈ bs, c b = c' b) : logWrites start c tail bs = logWrites start c' tail bs := by
  induction bs generalizing tail with
  | nil => rfl
  | cons b bs ih =>
    simp only [logWrites]
    rw [h b List.mem_cons_self, ih (tail+1) (fun b' hb' => h b' (List.mem_cons_of_mem b hb'))]

theorem homeWrites_congr (start : ℕ) (c c' : ℕ → Block) (tail : ℕ) (bs : List ℕ)
    (h : ∀ i, tail ≤ i → i < tail+bs.length → c (start+i+1) = c' (start+i+1)) :
    homeWrites start c tail bs = homeWrites start c' tail bs := by
  induction bs generalizing tail with
  | nil => rfl
  | cons b bs ih =>
    simp only [homeWrites, List.length_cons] at h ⊢
    rw [h tail (le_refl _) (by omega), ih (tail+1) (fun i hi hlt => h i (by omega) (by omega))]

theorem held_restored (held : ℕ → Bool) (t b : ℕ) (ht : held t = false) (hb : held b = false) :
    update (update (update held t true) b false) t false = held := by
  funext x
  by_cases hxt : x = t <;> by_cases hxb : x = b <;> simp_all

theorem held_restored_twice (held : ℕ → Bool) (t b : ℕ) (ht : held t = false)
    (hb : held b = false) : update (update (update
      (update held t true) b true) t false) b false = held := by
  funext x
  by_cases hxt : x = t <;> by_cases hxb : x = b <;> simp_all

theorem held_restored_one (held : ℕ → Bool) (t : ℕ) (ht : held t = false) :
    update held t false = held := by
  rw [← ht, Function.update_eq_self]

variable (env : Env)

theorem exec_writeLogFrom (start tail : ℕ) (bs : List ℕ) (s : Sys M)
    (hheld : ∀ x, s.held x = false)
    (hout : ∀ b ∈ bs, b ≤ start+tail ∨ start+tail+bs.length < b) :
    exec (handle env) (writeLogFrom start tail bs) s =
      .ok ((),through s (logWrites start s.content tail bs)) := by
  induction bs generalizing tail s with
  | nil => simp [writeLogFrom, logWrites, through_nil, exec_pure]
  | cons b bs ih =>
    have hb := hout b List.mem_cons_self
    simp only [List.length_cons] at hb
    have htb : start+tail+1 ≠ b := by omega
    have hstep : exec (handle env) (writeLogFrom start tail (b::bs)) s =
        exec (handle env) (writeLogFrom start (tail+1) bs)
          (through s [(start+tail+1,s.content b)]) := by
      simp [writeLogFrom, exec_bind, exec_bread, exec_setData, exec_bwrite, exec_brelse, hheld,
        hold, setContent, toDisk, htb, Ne.symm htb, through, apply, held_restored]
    rw [hstep, ih]
    · rw [through_through, List.singleton_append, logWrites]
      congr 3
      refine congrArg _ (logWrites_congr _ _ _ _ _ (fun b' hb' => ?_))
      have := hout b' (List.mem_cons_of_mem b hb')
      simp only [List.length_cons] at this
      exact apply_other _ _ _ (by simp; omega)
    · exact hheld
    · intro b' hb'
      have := hout b' (List.mem_cons_of_mem b hb')
      simp only [List.length_cons] at this
      omega

theorem exec_installFrom (recovering : Bool) (start tail : ℕ) (bs : List ℕ) (s : Sys M)
    (hheld : ∀ x, s.held x = false)
    (hout : ∀ b ∈ bs, b ≤ start+tail ∨ start+tail+bs.length < b) :
    exec (handle env) (installFrom recovering start tail bs) s =
      .ok ((),through s (homeWrites start s.content tail bs)) := by
  induction bs generalizing tail s with
  | nil => simp [installFrom, homeWrites, through_nil, exec_pure]
  | cons b bs ih =>
    have hb := hout b List.mem_cons_self
    simp only [List.length_cons] at hb
    have htb : start+tail+1 ≠ b := by omega
    have hstep : exec (handle env) (installFrom recovering start tail (b::bs)) s =
        exec (handle env) (installFrom recovering start (tail+1) bs)
          (through s [(b,s.content (start+tail+1))]) := by
      cases recovering <;>
        simp [installFrom, exec_bind, exec_bread, exec_setData, exec_bwrite, exec_brelse,
          exec_bunpin, hheld, hold, setContent, toDisk, htb, Ne.symm htb, through, apply,
          held_restored_twice]
    rw [hstep, ih]
    · rw [through_through, List.singleton_append, homeWrites]
      congr 3
      refine congrArg _ (homeWrites_congr _ _ _ _ _ (fun i hi hlt => ?_))
      exact apply_other _ _ _ (by simp; omega)
    · exact hheld
    · intro b' hb'
      have := hout b' (List.mem_cons_of_mem b hb')
      simp only [List.length_cons] at this
      omega

theorem exec_writeHead (s : Sys M) (hheld : ∀ x, s.held x = false) :
    exec (handle env) writeHead s = .ok ((),through s
      [(s.log.start,putHeader (s.content s.log.start) s.log.lh)]) := by
  simp [writeHead, exec_bind, exec_getLog, exec_bread, exec_setData, exec_bwrite,
    exec_brelse, hheld,
    hold, setContent, toDisk, through, apply, held_restored_one]

def header (start : ℕ) (c : ℕ → Block) (lh : List ℕ) : ℕ × Block := (start,putHeader (c start) lh)

theorem exec_writeHead_through (s : Sys M) (ws : List (ℕ × Block))
    (hheld : ∀ x, s.held x = false) : exec (handle env) writeHead (through s ws) =
      .ok ((),through s (ws ++ [header s.log.start (apply s.content ws) s.log.lh])) := by
  rw [exec_writeHead env (through s ws) hheld, through_through]
  rfl

theorem exec_clear (s : Sys M) (ws : List (ℕ × Block)) (hheld : ∀ x, s.held x = false) :
    exec (handle env) (do
      setHeader []
      writeHead : P M Unit) (through s ws) = .ok ((),setLog
        (through s (ws ++ [header s.log.start (apply s.content ws) []]))
        { s.log with lh := [] }) := by
  rw [exec_bind_ok (exec_setHeader env _ _)]
  exact exec_writeHead_through env (setLog s { s.log with lh := [] }) ws hheld

def commitPlan (start : ℕ) (c : ℕ → Block) (lh : List ℕ) : List (ℕ × Block) :=
  let logged := logWrites start c 0 lh
  let copied := logged ++ [header start (apply c logged) lh]
  let installed := copied ++ homeWrites start (apply c copied) 0 lh
  installed ++ [header start (apply c installed) []]

def recoverPlan (start : ℕ) (c : ℕ → Block) : List (ℕ × Block) :=
  let installed := homeWrites start c 0 (headerBlocks (c start))
  installed ++ [header start (apply c installed) []]

theorem logWrites_mem {start tail : ℕ} {c : ℕ → Block} {bs : List ℕ} {w : ℕ × Block}
    (h : w ∈ logWrites start c tail bs) :
    start+tail+1 ≤ w.1 ∧ w.1 ≤ start+tail+bs.length := by
  induction bs generalizing tail with
  | nil => simp [logWrites] at h
  | cons b bs ih =>
    simp only [logWrites, List.mem_cons, List.length_cons] at h ⊢
    rcases h with rfl | h
    · simp only
      omega
    · have := ih h
      omega

theorem outside_log {start : ℕ} {lh : List ℕ} (hlen : lh.length ≤ logblocks)
    (hout : ∀ b ∈ lh, ¬ InLog start b) (b : ℕ) (hb : b ∈ lh) :
    b ≤ start+0 ∨ start+0+lh.length < b := by
  have := hout b hb
  unfold InLog at this
  omega

theorem exec_commit (s : Sys M) (hheld : ∀ x, s.held x = false) (hpos : 0 < s.log.lh.length)
    (hlen : s.log.lh.length ≤ logblocks) (hout : ∀ b ∈ s.log.lh, ¬ InLog s.log.start b) :
    exec (handle env) commit s = .ok ((),setLog
      (through s (commitPlan s.log.start s.content s.log.lh)) { s.log with lh := [] }) := by
  have hblocks := outside_log hlen hout
  have hlog : exec (handle env) writeLog s =
      .ok ((),through s (logWrites s.log.start s.content 0 s.log.lh)) :=
    (exec_bind_ok (exec_getLog env s)).trans (exec_writeLogFrom env _ _ _ _ hheld hblocks)
  have hinstall : ∀ ws, exec (handle env) (installTrans false) (through s ws) =
      .ok ((),through (through s ws) (homeWrites s.log.start (apply s.content ws) 0 s.log.lh)) :=
    fun ws => (exec_bind_ok (exec_getLog env _)).trans
      (exec_installFrom env false _ _ _ (through s ws) hheld hblocks)
  rw [commit, exec_bind_ok (exec_getLog env s), if_pos hpos, exec_bind_ok hlog,
    exec_bind_ok (exec_writeHead_through env s _ hheld), exec_bind_ok (hinstall _),
    through_through, exec_clear env s _ hheld]
  rfl

theorem exec_recover (s : Sys M) (hheld : ∀ x, s.held x = false)
    (hlen : (headerBlocks (s.content s.log.start)).length ≤ logblocks)
    (hout : ∀ b ∈ headerBlocks (s.content s.log.start), ¬ InLog s.log.start b) :
    exec (handle env) recoverFromLog s = .ok ((),setLog
      (through s (recoverPlan s.log.start s.content)) { s.log with lh := [] }) := by
  have hblocks := outside_log hlen hout
  have hread : exec (handle env) readHead s = .ok ((),setLog s
      { s.log with lh := headerBlocks (s.content s.log.start) }) := by
    simp [readHead, exec_bind, exec_getLog, exec_bread, exec_setHeader, exec_brelse, hheld, hold,
      setLog, held_restored_one]
  have hinstall : ∀ lh : List ℕ, (∀ b ∈ lh, b ≤ s.log.start+0 ∨ s.log.start+0+lh.length < b) →
      exec (handle env) (installTrans true) (setLog s { s.log with lh := lh }) =
        .ok ((),through (setLog s { s.log with lh := lh })
          (homeWrites s.log.start s.content 0 lh)) := by
    intro lh hlh
    rw [installTrans, exec_bind_ok (exec_getLog env _)]
    exact exec_installFrom env true s.log.start 0 lh _ hheld hlh
  rw [recoverFromLog, exec_bind_ok hread, exec_bind_ok (hinstall _ hblocks)]
  exact exec_clear env (setLog s { s.log with lh := headerBlocks (s.content s.log.start) }) _ hheld

end

end GreenOS.LogRun
