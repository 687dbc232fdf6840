import GreenOS.MemMove
import GreenOS.PatternMatch

/-!
# The lines that `grep` prints

The loop of `grep` over its buffer, and the matching lines of what it reads.
-/

namespace GreenOS.Grep

open MemMove PatternMatch
open Function (update update_self update_of_ne)

def newline : UInt8 := 10

def bufSize : ℕ := 1024

/-- The user library's `strchr`, for a string that ends within `fuel` bytes. -/
def strchr (mem : Mem) (c : UInt8) : ℕ → ℕ → Option ℕ
  | 0, _ => none
  | fuel+1, s => if mem s = 0 then none else if mem s = c then some s else strchr mem c fuel (s+1)

def cstr (mem : Mem) : ℕ → ℕ → List UInt8
  | 0, _ => []
  | fuel+1, s => if mem s = 0 then [] else mem s::cstr mem fuel (s+1)

/-- The loop over the newlines of the buffer: the buffer, where it left `p`, and what it wrote. -/
def lineLoop (pattern : List UInt8) : ℕ → Mem → ℕ → Option (Mem × ℕ × List UInt8)
  | 0, _, _ => none
  | fuel+1, mem, p =>
    match strchr mem newline bufSize p with
    | none => some (mem,p,[])
    | some q =>
      let mem := update mem q 0
      if matchText pattern (cstr mem bufSize p) then
        let mem := update mem q newline
        (lineLoop pattern fuel mem (q+1)).map (fun r => (r.1,r.2.1,bytes mem p (q+1-p)++r.2.2))
      else lineLoop pattern fuel mem (q+1)

def store (mem : Mem) (p : ℕ) (data : List UInt8) : Mem :=
  fun i => if p ≤ i ∧ i < p+data.length then data.getD (i-p) 0 else mem i

/-- The loop over the calls of `read`. Call `i` gives at most `chunk i+1` bytes, and none only
if none is asked for or none is left. -/
def readLoop (pattern : List UInt8) (chunk : ℕ → ℕ) : ℕ → ℕ → Mem → ℕ → List UInt8 →
    Option (List UInt8)
  | 0, _, _, _, _ => none
  | fuel+1, i, mem, m, input =>
    let n := min (min (chunk i+1) (bufSize-m-1)) input.length
    if n = 0 then some []
    else do
      let mem := update (store mem m (input.take n)) (m+n) 0
      let (mem,p,out) ← lineLoop pattern bufSize mem 0
      let (mem,m) := if 0 < m+n then (User.memmove mem 0 p (m+n-p : ℕ),m+n-p) else (mem,m+n)
      let rest ← readLoop pattern chunk fuel (i+1) mem m (input.drop n)
      return out++rest

def grep (pattern : List UInt8) (chunk : ℕ → ℕ) (buf : Mem) (input : List UInt8) :
    Option (List UInt8) :=
  readLoop pattern chunk (input.length+1) 0 buf 0 input

def split : List UInt8 → List (List UInt8) × List UInt8
  | [] => ([],[])
  | c::s =>
    if c = newline then ([]::(split s).1,(split s).2)
    else
      match (split s).1 with
      | [] => ([],c::(split s).2)
      | l::ls => ((c::l)::ls,(split s).2)

def lines (s : List UInt8) : List (List UInt8) := (split s).1

def select (pattern : List UInt8) (ls : List (List UInt8)) : List UInt8 :=
  (ls.filter (matchText pattern)).flatMap (·++[newline])

section Lines
variable {pattern s r l : List UInt8} {ls : List (List UInt8)}

theorem split_line (hl : newline ∉ l) : split (l++newline::r) = (l::(split r).1,(split r).2) := by
  induction l with
  | nil => rw [List.nil_append, split, if_pos rfl]
  | cons c l ih =>
    have hc : c ≠ newline := fun h => hl (h ▸ List.mem_cons_self)
    rw [List.cons_append, split, if_neg hc, ih (fun h => hl (List.mem_cons_of_mem _ h))]

theorem split_none (hl : newline ∉ l) : split l = ([],l) := by
  induction l with
  | nil => rfl
  | cons c l ih =>
    have hc : c ≠ newline := fun h => hl (h ▸ List.mem_cons_self)
    rw [split, if_neg hc, ih (fun h => hl (List.mem_cons_of_mem _ h))]

theorem line_cases (s : List UInt8) : newline ∉ s ∨ ∃ l r, newline ∉ l ∧ s = l++newline::r := by
  by_cases h : newline ∈ s
  · obtain ⟨l,r,rfl,hl⟩ := List.eq_append_cons_of_mem h
    exact .inr ⟨l,r,hl,rfl⟩
  · exact .inl h

theorem line_induction {P : List UInt8 → Prop} (hnone : ∀ s, newline ∉ s → P s)
    (hline : ∀ l r, newline ∉ l → P r → P (l++newline::r)) (s : List UInt8) : P s := by
  induction hn : s.length using Nat.strong_induction_on generalizing s with
  | _ n ih =>
    obtain hs | ⟨l,r,hl,rfl⟩ := line_cases s
    · exact hnone s hs
    · refine hline l r hl (ih r.length ?_ r rfl)
      rw [← hn, List.length_append, List.length_cons]
      omega

theorem split_append (s r : List UInt8) :
    split (s++r) = ((split s).1++(split ((split s).2++r)).1,(split ((split s).2++r)).2) := by
  induction s using line_induction with
  | hnone s hs => rw [split_none hs, List.nil_append]
  | hline l r' hl ih =>
    rw [List.append_assoc, List.cons_append, split_line hl, ih, split_line hl, List.cons_append]

theorem tail_none (s : List UInt8) : newline ∉ (split s).2 := by
  induction s using line_induction with
  | hnone s hs => rwa [split_none hs]
  | hline l r hl ih => rwa [split_line hl]

theorem tail_mem {c : UInt8} (s : List UInt8) (hc : c ∈ (split s).2) : c ∈ s := by
  induction s using line_induction with
  | hnone s hs => rwa [split_none hs] at hc
  | hline l r hl ih =>
    rw [split_line hl] at hc
    exact List.mem_append_right _ (List.mem_cons_of_mem _ (ih hc))

theorem line_short (s : List UInt8) : ∀ l ∈ lines s, l.length < s.length := by
  induction s using line_induction with
  | hnone s hs =>
    rw [lines, split_none hs]
    nofun
  | hline l r hl ih =>
    rw [lines, split_line hl]
    intro l' hl'
    rw [List.length_append, List.length_cons]
    obtain rfl | hl' := List.mem_cons.mp hl'
    · omega
    · have := ih l' hl'
      omega

theorem select_append (pattern : List UInt8) (a b : List (List UInt8)) :
    select pattern (a++b) = select pattern a++select pattern b := by
  rw [select, List.filter_append, List.flatMap_append]
  rfl

theorem select_cons (pattern l : List UInt8) (ls : List (List UInt8)) :
    select pattern (l::ls) = (if matchText pattern l then l++[newline] else [])++select
      pattern ls := by
  rw [← List.singleton_append, select_append]
  congr 1
  unfold select
  by_cases h : matchText pattern l = true
  · rw [List.filter_cons_of_pos h, if_pos h]
    simp
  · rw [List.filter_cons_of_neg h, if_neg h]
    rfl

theorem select_eq_nil : select pattern ls = [] ↔ ∀ l ∈ ls, matchText pattern l = false := by
  rw [select, List.flatMap_eq_nil_iff]
  constructor
  · intro h l hl
    by_contra hm
    have := h l (List.mem_filter.mpr ⟨hl,by simpa using hm⟩)
    exact absurd this (by simp)
  · intro h l hl
    obtain ⟨hl,hm⟩ := List.mem_filter.mp hl
    rw [h l hl] at hm
    cases hm

end Lines

section Buffer
variable {pattern w l r : List UInt8} {mem : Mem} {p fuel : ℕ}

theorem strchr_none (hw : Holds mem p w) (hline : newline ∉ w) (hend : mem (p+w.length) = 0) :
    strchr mem newline fuel p = none := by
  induction fuel generalizing p w with
  | zero => rfl
  | succ fuel ih =>
    rw [strchr]
    cases w with
    | nil => exact if_pos hend
    | cons c w =>
      obtain ⟨hc,hw⟩ := holds_cons.mp hw
      have hne : mem p ≠ newline := fun h => hline (hc ▸ h ▸ List.mem_cons_self)
      rw [if_neg hne, ih hw (fun h => hline (List.mem_cons_of_mem _ h)), ite_self]
      rwa [Nat.add_assoc, Nat.add_comm 1]

theorem strchr_line (hl : Holds mem p l) (hq : mem (p+l.length) = newline) (hline : newline ∉ l)
    (hnul : 0 ∉ l)
    (hfuel : l.length < fuel) : strchr mem newline fuel p = some (p+l.length) := by
  induction fuel generalizing p l with
  | zero => exact absurd hfuel (Nat.not_lt_zero _)
  | succ fuel ih =>
    rw [strchr]
    cases l with
    | nil =>
      rw [List.length_nil, Nat.add_zero] at hq
      rw [hq, if_neg (by decide), if_pos rfl]
      rfl
    | cons c l =>
      obtain ⟨rfl,ht⟩ := holds_cons.mp hl
      have hz : mem p ≠ 0 := fun h => hnul (h ▸ List.mem_cons_self)
      have hn : mem p ≠ newline := fun h => hline (h ▸ List.mem_cons_self)
      rw [List.length_cons, Nat.add_comm l.length, ← Nat.add_assoc] at hq
      rw [if_neg hz, if_neg hn, ih ht hq (fun h => hline (List.mem_cons_of_mem _ h)) (fun h =>
        hnul (List.mem_cons_of_mem _ h))
          (Nat.lt_of_succ_lt_succ hfuel), List.length_cons, Nat.add_comm l.length, Nat.add_assoc]

theorem cstr_eq (hl : Holds mem p l) (hq : mem (p+l.length) = 0) (hnul : 0 ∉ l)
    (hfuel : l.length < fuel) :
    cstr mem fuel p = l := by
  induction fuel generalizing p l with
  | zero => exact absurd hfuel (Nat.not_lt_zero _)
  | succ fuel ih =>
    rw [cstr]
    cases l with
    | nil => exact if_pos hq
    | cons c l =>
      obtain ⟨rfl,ht⟩ := holds_cons.mp hl
      have hz : mem p ≠ 0 := fun h => hnul (h ▸ List.mem_cons_self)
      rw [List.length_cons, Nat.add_comm l.length, ← Nat.add_assoc] at hq
      rw [if_neg hz, ih ht hq (fun h => hnul (List.mem_cons_of_mem _ h))
        (Nat.lt_of_succ_lt_succ hfuel)]

theorem lineLoop_eq (pattern w : List UInt8) (hw : Holds mem p w) (hend : mem (p+w.length) = 0)
    (hnul : 0 ∉ w)
    (hsize : w.length < bufSize) (hfuel : w.length < fuel) :
    ∃ mem' p', lineLoop pattern fuel mem p = some (mem',p',select pattern (lines w)) ∧
      Holds mem' p' (split w).2 ∧ p'+(split w).2.length = p+w.length := by
  induction w using line_induction generalizing mem p fuel with
  | hnone w hline =>
    obtain ⟨fuel,rfl⟩ := Nat.exists_eq_add_one_of_ne_zero (Nat.ne_zero_of_lt hfuel)
    rw [lineLoop, strchr_none hw hline hend, lines, split_none hline]
    exact ⟨mem,p,rfl,hw,rfl⟩
  | hline l r hline ih =>
    obtain ⟨fuel,rfl⟩ := Nat.exists_eq_add_one_of_ne_zero (Nat.ne_zero_of_lt hfuel)
    have hlen : (l++newline::r).length = l.length+1+r.length := by
      rw [List.length_append, List.length_cons]
      omega
    rw [hlen] at hend hsize hfuel ⊢
    rw [List.mem_append, List.mem_cons, not_or, not_or] at hnul
    obtain ⟨hl,hrest⟩ := holds_append.mp hw
    obtain ⟨hq,hr⟩ := holds_cons.mp hrest
    have hstr : cstr (update mem (p+l.length) 0) bufSize p = l :=
      cstr_eq (hl.update (.inr le_rfl)) (update_self ..) hnul.1 (by omega)
    -- What follows the newline, whether or not the newline is put back.
    have hstep : ∀ mem₂ : Mem, (∀ i, p+l.length < i → mem₂ i = mem i) → ∃ mem' p',
        lineLoop pattern fuel mem₂ (p+l.length+1) = some (mem',p',select pattern (lines r)) ∧
          Holds mem' p' (split r).2 ∧ p'+(split r).2.length = p+(l.length+1+r.length) := by
      intro mem₂ hmem
      have hr₂ : Holds mem₂ (p+l.length+1) r := hr.congr (fun i _ => hmem _ (by omega))
      have hend₂ : mem₂ (p+l.length+1+r.length) = 0 := by
        rw [hmem _ (by omega), ← hend]
        congr 1
        omega
      obtain ⟨mem',p',hloop,hp,heq⟩ := ih hr₂ hend₂ hnul.2.2 (by omega) (by omega : r.length < fuel)
      exact ⟨mem',p',hloop,hp,by omega⟩
    rw [lineLoop, strchr_line hl hq hline hnul.1 (by omega)]
    simp only [hstr]
    rw [lines, split_line hline, select_cons]
    by_cases hm : matchText pattern l = true
    · obtain ⟨mem',p',hloop,hp⟩ := hstep (update (update mem (p+l.length) 0) (p+l.length) newline)
        (fun i hi => by rw [update_of_ne (by omega), update_of_ne (by omega)])
      have hout : bytes (update (update mem (p+l.length) 0) (p+l.length) newline) p
          (p+l.length+1-p) = l++[newline] := by
        have hlong : p+l.length+1-p = (l++[newline]).length := by
          rw [List.length_append, List.length_singleton]
          omega
        rw [hlong]
        exact holds_append.mpr ⟨(hl.update (.inr le_rfl)).update (.inr le_rfl),
          holds_cons.mpr ⟨update_self ..,rfl⟩⟩
      rw [if_pos hm, if_pos hm, hloop, Option.map_some, hout]
      exact ⟨mem',p',rfl,hp⟩
    · obtain ⟨mem',p',hloop,hp⟩ := hstep (update mem (p+l.length) 0)
        (fun i hi => update_of_ne (by omega) ..)
      rw [if_neg hm, if_neg hm, hloop]
      exact ⟨mem',p',rfl,hp⟩

theorem holds_store (hw : Holds mem 0 w) (r : List UInt8) :
    Holds (store mem w.length r) 0 (w++r) := by
  refine holds_append.mpr ⟨hw.congr fun i hi => ?_,?_⟩
  · rw [store, if_neg (by omega)]
  · rw [Nat.zero_add]
    refine List.ext_getElem length_bytes fun i hi hi' => ?_
    rw [bytes_getElem, store, if_pos (by omega), Nat.add_sub_cancel_left,
      List.getD_eq_getElem?_getD, List.getElem?_eq_getElem hi', Option.getD_some]

def short (l : List UInt8) : Bool := l.length < bufSize-1

theorem readLoop_eq (pattern : List UInt8) (chunk : ℕ → ℕ) (fuel i : ℕ) {mem : Mem}
    {b input : List UInt8}
    (hb : Holds mem 0 b) (hline : newline ∉ b) (hsize : b.length < bufSize) (hnul : 0 ∉ b)
    (hnul' : 0 ∉ input)
    (hfuel : input.length < fuel) :
    readLoop pattern chunk fuel i mem b.length input =
      some (select pattern ((lines (b++input)).takeWhile short)) := by
  induction fuel generalizing i mem b input with
  | zero => exact absurd hfuel (Nat.not_lt_zero _)
  | succ fuel ih =>
    rw [readLoop]
    generalize hn : min (min (chunk i+1) (bufSize-b.length-1)) input.length = n
    dsimp only
    by_cases h0 : n = 0
    · -- The input is at its end, or the buffer is full of a line that is too long.
      rw [if_pos h0]
      obtain hnone | ⟨l,r,hl,heq⟩ := line_cases (b++input)
      · rw [lines, split_none hnone]
        rfl
      · have hlong : short l = false := by
          have hin : input ≠ [] := by
            rintro rfl
            rw [List.append_nil] at heq
            exact hline (heq ▸ List.mem_append_right _ List.mem_cons_self)
          have hpos := List.length_pos_iff.mpr hin
          have hfull : bufSize-1 ≤ b.length := by omega
          -- The newline stands after the bytes in the buffer.
          have hle : b.length ≤ l.length := by
            by_contra hlt
            have hget : (b++input)[l.length]? = some newline := by
              rw [heq, List.getElem?_append_right le_rfl, Nat.sub_self]
              rfl
            rw [List.getElem?_append_left (by omega)] at hget
            exact hline (List.mem_of_getElem? hget)
          exact decide_eq_false (by omega)
        rw [lines, heq, split_line hl, List.takeWhile_cons_of_neg (by simp [hlong])]
        rfl
    · rw [if_neg h0]
      have htake : (input.take n).length = n := List.length_take_of_le (by omega)
      have hlen : (b++input.take n).length = b.length+n := by rw [List.length_append, htake]
      have hnul₂ : 0 ∉ b++input.take n := fun h =>
        (List.mem_append.mp h).elim hnul (fun h => hnul' (List.mem_of_mem_take h))
      have hw : Holds (update (store mem b.length (input.take n)) (b.length+n) 0) 0
        (b++input.take n) :=
        (holds_store hb _).update (.inr (by omega))
      obtain ⟨mem',p,hloop,hp,hlast⟩ := lineLoop_eq pattern _ hw
        (by rw [Nat.zero_add, hlen, update_self]) hnul₂ (by omega)
        (by omega : (b++input.take n).length < bufSize)
      rw [Nat.zero_add, hlen] at hlast
      have hm : b.length+n-p = (split (b++input.take n)).2.length := by omega
      have hpos : 0 < b.length+n := by omega
      have hnul₃ : 0 ∉ input.drop n := fun h => hnul' (List.mem_of_mem_drop h)
      have hrest := ih (i+1) (hp.moved 0) (tail_none _) (by omega) (fun h =>
        hnul₂ (tail_mem _ h)) hnul₃
        (by rw [List.length_drop]; omega)
      have hall : ∀ l ∈ lines (b++input.take n), short l = true := by
        intro l hl
        have := line_short _ l hl
        exact decide_eq_true (by omega)
      have hsplit : lines (b++input) =
          lines (b++input.take n)++lines ((split (b++input.take n)).2++input.drop n) := by
        conv_lhs => rw [← List.take_append_drop n input, ← List.append_assoc, lines, split_append]
        rfl
      simp only [hloop, Option.bind_eq_bind, Option.bind_some, if_pos hpos, hm, User.memmove_eq,
        Int.toNat_natCast,
        hrest]
      rw [hsplit, List.takeWhile_append_of_pos hall, select_append]
      rfl

end Buffer

/-- `grep` writes the matching lines up to the first one that does not fit in its buffer, however
`read` cuts the input. -/
theorem grep_eq (pattern : List UInt8) (chunk : ℕ → ℕ) (buf : Mem) {input : List UInt8}
    (hinput : 0 ∉ input) :
    grep pattern chunk buf input = some (select pattern ((lines input).takeWhile short)) :=
  readLoop_eq pattern chunk (input.length+1) 0 (b := []) rfl List.not_mem_nil
    (by decide) List.not_mem_nil hinput
    (Nat.lt_succ_self _)

/-- `grep` writes exactly the matching lines if and only if no line matches from the first one
of 1023 bytes or more on. -/
theorem grep_exact_iff (pattern : List UInt8) (chunk : ℕ → ℕ) (buf : Mem) (input : List UInt8)
    (hinput : 0 ∉ input) :
    grep pattern chunk buf input = some (select pattern (lines input)) ↔
      ∀ l ∈ (lines input).dropWhile short, matchText pattern l = false := by
  rw [grep_eq pattern chunk buf hinput, Option.some_inj, ← select_eq_nil]
  have hall := select_append pattern ((lines input).takeWhile short) ((lines input).dropWhile short)
  rw [List.takeWhile_append_dropWhile] at hall
  rw [hall, List.self_eq_append_right]

theorem grep_exact_short : 0 ∉ ([98,10,97,98,10,99] : List UInt8) ∧
    grep [97] (fun _ => 0) (fun _ => 0) [98,10,97,98,10,99] = some [97,98,10] :=
  ⟨by decide,(grep_exact_iff [97] (fun _ => 0) (fun _ => 0) [98,10,97,98,10,99] (by decide)).mpr
    (by decide)⟩

/-- A line of 1023 bytes, and after it the line `a`, which `grep ^a` does not print. -/
theorem grep_drops_line :
    let input : List UInt8 := List.replicate 1023 98++10::[97,10]
    grep [94,97] (fun _ => 1023) (fun _ => 0) input = some [] ∧
      select [94,97] (lines input) = [97,10] := by
  have hline : newline ∉ List.replicate 1023 (98 : UInt8) := fun h =>
    absurd (List.eq_of_mem_replicate h) (by decide)
  have hlines : lines (List.replicate 1023 98++10::[97,10]) = [List.replicate 1023 98,[97]] :=
    congrArg Prod.fst (split_line (r := [97,10]) hline)
  have hnul : 0 ∉ List.replicate 1023 (98 : UInt8)++10::[97,10] := by
    rw [List.mem_append, not_or]
    exact ⟨fun h => absurd (List.eq_of_mem_replicate h) (by decide),by decide⟩
  have hlong : ¬short (List.replicate 1023 98) = true := by
    rw [short, List.length_replicate]
    decide
  constructor
  · rw [grep_eq _ _ _ hnul, hlines, List.takeWhile_cons_of_neg hlong]
    rfl
  · have hm : ¬matchText [94,97] (List.replicate 1023 98) = true := by
      rw [List.replicate_succ]
      exact Bool.false_ne_true
    rw [hlines, select_cons, if_neg hm]
    rfl

end GreenOS.Grep
