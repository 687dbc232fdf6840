import GreenOS.EnergyInfo

/-!
# energytop

The user program asks for the energy information of the pids 1 to 63 and
prints a row for each process it finds. Its formats carry field widths, which
the user-level `vprintf` does not know: an unknown directive is printed as it
stands and takes no argument.
-/

namespace GreenOS.EnergyTop
open ProcTable EnergyScore UserBytes EnergyInfo
open ProcLifecycle (boot)

inductive Arg where
  | int (x : ℤ)
  | word (x : ℕ)
  | str (s : Option (List Char))

def digits : List Char := "0123456789ABCDEF".toList

def digitLoop (base : ℕ) : ℕ → ℕ → List Char
  | 0, _ => []
  | n+1, x => digits.getD (x%base) ' '::(if x/base ≠ 0 then digitLoop base n (x/base) else [])

def printint (xx : ℤ) (base : ℕ) (sgn : Bool) : List Char :=
  let neg := sgn && decide (xx < 0)
  let x := ((if neg then -xx else xx)%18446744073709551616).toNat
  (digitLoop base 20 x++if neg then ['-'] else []).reverse

def printptr (x : ℕ) : List Char :=
  '0' :: 'x' :: (List.range 16).map fun i => digits.getD (x/16^(15-i)%16) ' '

def nul : Char := Char.ofNat 0

def uint32 (x : ℤ) : ℤ := x%4294967296
def int64 (x : ℕ) : ℤ := Int.bmod x 18446744073709551616

-- An argument of another type than the directive takes is undefined behaviour.
def takeInt : List Arg → Option (ℤ × List Arg)
  | .int x::ap => some (x,ap)
  | _ => none

def takeWord : List Arg → Option (ℕ × List Arg)
  | .word x::ap => some (x,ap)
  | _ => none

def takeStr : List Arg → Option (Option (List Char) × List Arg)
  | .str s::ap => some (s,ap)
  | _ => none

/-- A directive of `vprintf`: the text, how many characters after `c0` it
takes, and the arguments left. -/
def directive (c0 c1 c2 : Char) (ap : List Arg) : Option (List Char × ℕ × List Arg) :=
  if c0 = 'd' then (takeInt ap).map fun (x,ap) => (printint x 10 true,0,ap)
  else if c0 = 'l' ∧ c1 = 'd' then
    (takeWord ap).map fun (x,ap) => (printint (int64 x) 10 true,1,ap)
  else if c0 = 'l' ∧ c1 = 'l' ∧ c2 = 'd' then
    (takeWord ap).map fun (x,ap) => (printint (int64 x) 10 true,2,ap)
  else if c0 = 'u' then (takeInt ap).map fun (x,ap) => (printint (uint32 x) 10 false,0,ap)
  else if c0 = 'l' ∧ c1 = 'u' then
    (takeWord ap).map fun (x,ap) => (printint (int64 x) 10 false,1,ap)
  else if c0 = 'l' ∧ c1 = 'l' ∧ c2 = 'u' then
    (takeWord ap).map fun (x,ap) => (printint (int64 x) 10 false,2,ap)
  else if c0 = 'x' then (takeInt ap).map fun (x,ap) => (printint (uint32 x) 16 false,0,ap)
  else if c0 = 'l' ∧ c1 = 'x' then
    (takeWord ap).map fun (x,ap) => (printint (int64 x) 16 false,1,ap)
  else if c0 = 'l' ∧ c1 = 'l' ∧ c2 = 'x' then
    (takeWord ap).map fun (x,ap) => (printint (int64 x) 16 false,2,ap)
  else if c0 = 'p' then (takeWord ap).map fun (x,ap) => (printptr x,0,ap)
  else if c0 = 'c' then
    (takeInt ap).map fun (x,ap) => ([Char.ofNat (uint32 x%256).toNat],0,ap)
  else if c0 = 's' then
    (takeStr ap).map fun (s,ap) => (s.getD "(null)".toList,0,ap)
  else if c0 = '%' then some (['%'],0,ap)
  else some (['%',c0],0,ap)

def vprintf : ℕ → List Char → List Arg → Option (List Char)
  | 0, _, _ => some []
  | _+1, [], _ => some []
  | n+1, c::fmt, ap =>
    if c = '%' then
      match fmt with
      | [] => some []
      | c0::fmt =>
        match directive c0 (fmt.headD nul) (fmt.tail.headD nul) ap with
        | none => none
        | some (text,k,ap) => (vprintf n (fmt.drop k) ap).map (text++·)
    else
      (vprintf n fmt ap).map (c::·)

def printf (fmt : List Char) (ap : List Arg) : Option (List Char) :=
  vprintf fmt.length fmt ap

-- The rules of the source are string literals of seventy-nine signs.
def doubleRule : List Char := List.replicate 79 '='++['\n']
def singleRule : List Char := List.replicate 79 '-'++['\n']
def title : List Char := "ENERGYTOP - GreenOS Process Energy Profiler\n".toList
def headFormat : List Char := "%-6s %-16s %-10s %-10s %-10s %-12s\n".toList
def rowFormat : List Char := "%-6d %-16s %-10d %-10d %-10d %-12d\n".toList
def exitHint : List Char := "Press Ctrl+C to exit\n".toList
def noneText : List Char := "No processes found.\n".toList
def totalFormat : List Char := "Total processes: %d\n".toList

def printHeader : Option (List Char) := do
  let a ← printf doubleRule []
  let b ← printf title []
  let c ← printf doubleRule []
  let d ← printf headFormat (["PID","NAME","CPU_TICKS","SLEEPS","WAKES","ENERGY_SCORE"].map
    fun s => .str (some s.toList))
  let e ← printf singleRule []
  some (a++b++c++d++e)

def printFooter : Option (List Char) := do
  let a ← printf doubleRule []
  let b ← printf exitHint []
  some (a++b)

def printRow (pid : ℤ) (info : ℕ) (u : User) : Option (List Char) :=
  printf rowFormat [.int pid,.str (some "(unknown)".toList),.int (readInt u info),
    .int (readInt u (info+4)),.int (readInt u (info+8)),.int (readInt u (info+12))]

def maxProc : ℕ := 64

/-- The loop of `main` from one pid on: what it prints and the count it ends
with. The variable `info` is on the stack of the program. -/
def mainLoop (info : ℕ) : List ℤ → Table → User → ℕ → Option (List Char × ℕ)
  | [], _, _, count => some ([],count)
  | pid::pids, t, u, count =>
    let (r,t,u) := sysGetEnergyInfo pid info t u
    if r = 0 then do
      let row ← printRow pid info u
      let (text,count) ← mainLoop info pids t u (count+1)
      some (row++text,count)
    else
      mainLoop info pids t u count

def pids : List ℤ := (List.range' 1 (maxProc-1)).map (fun n : ℕ => (n : ℤ))

def printTotal (count : ℕ) : Option (List Char) :=
  if count = 0 then printf noneText []
  else do
    let a ← printf singleRule []
    let b ← printf totalFormat [.int count]
    some (a++b)

def main (info : ℕ) (t : Table) (u : User) : Option (List Char) := do
  let header ← printHeader
  let (text,count) ← mainLoop info pids t u 0
  let total ← printTotal count
  let footer ← printFooter
  some (header++text++total++footer)

def decimal (x : ℤ) : List Char :=
  (if x < 0 then ['-'] else [])++Nat.toDigits 10 x.natAbs

theorem digit_char {d : ℕ} (h : d < 10) : digits.getD d ' ' = Nat.digitChar d := by
  interval_cases d <;> rfl

theorem digitLoop_eq (n x : ℕ) (h : x < 10^n) (hn : 0 < n) :
    (digitLoop 10 n x).reverse = Nat.toDigits 10 x := by
  induction n generalizing x with
  | zero => omega
  | succ n ih =>
    have hd := digit_char (Nat.mod_lt x (show 0 < 10 by decide))
    rw [Nat.toDigits_eq_if (by decide), digitLoop, hd]
    by_cases hx : x < 10
    · simp [hx, Nat.div_eq_of_lt hx, Nat.mod_eq_of_lt hx]
    · have hq : x/10 < 10^n := by
        rw [pow_succ] at h
        omega
      have hpos : 0 < n := by
        rcases Nat.eq_zero_or_pos n with rfl | hpos
        · omega
        · exact hpos
      rw [if_pos (by omega), if_neg hx, List.reverse_cons, ih _ hq hpos]

theorem printint_decimal (x : ℤ) (hl : -9223372036854775808 ≤ x)
    (hu : x < 9223372036854775808) : printint x 10 true = decimal x := by
  unfold printint decimal
  by_cases hneg : x < 0
  · have hx : ((-x)%18446744073709551616).toNat = x.natAbs := by omega
    simp only [hneg, decide_true, Bool.and_true, if_true, List.reverse_append,
      hx, digitLoop_eq 20 x.natAbs (by norm_num; omega) (by decide)]
    rfl
  · have hx : (x%18446744073709551616).toNat = x.natAbs := by omega
    simp only [hneg, decide_false, Bool.and_false, Bool.false_eq_true, if_false,
      List.append_nil, List.nil_append, hx,
      digitLoop_eq 20 x.natAbs (by norm_num; omega) (by decide)]

def totalPrefix : List Char := "Total processes: ".toList

-- A format is a literal, so the text it gives is found by running `vprintf`.
theorem total_format (x : ℤ) : printf totalFormat [.int x] =
    some (totalPrefix++(printint x 10 true++['\n'])) := by
  rw [show totalFormat = _ from String.toList_ofList, show totalPrefix = _ from
    String.toList_ofList]
  rfl

theorem rule_format (c : Char) (h : c ≠ '%') (ap : List Arg) :
    printf (List.replicate 79 c++['\n']) ap = some (List.replicate 79 c++['\n']) := by
  simp [printf, vprintf, h]

def unlines (ls : List (List Char)) : List Char := ls.flatMap (·++['\n'])

def lines (text : List Char) : List (List Char) := text.splitOn '\n'

def words (line : List Char) : List (List Char) := (line.splitOn ' ').filter (· ≠ [])

def endsInDigit (w : List Char) : Bool := w.getLast?.any Char.isDigit

def numbers (line : List Char) : List (List Char) := (words line).filter endsInDigit

theorem lines_unlines (ls : List (List Char)) (h : ∀ l ∈ ls, '\n' ∉ l) :
    lines (unlines ls) = ls++[[]] := by
  induction ls with
  | nil => rfl
  | cons l ls ih =>
    have hl : ∀ c ∈ l, (c == '\n') = false := by
      intro c hc
      simp only [beq_eq_false_iff_ne, ne_eq]
      rintro rfl
      exact h l (by simp) hc
    have hrest := ih fun k hk => h k (by simp [hk])
    unfold lines List.splitOn at hrest ⊢
    rw [unlines, List.flatMap_cons, List.append_assoc, List.singleton_append,
      List.splitOnP_append_cons_of_forall_mem hl _ (by decide)]
    exact congrArg (l::·) hrest

theorem unlines_append (ks ls : List (List Char)) :
    unlines (ks++ls) = unlines ks++unlines ls := by
  simp [unlines]

theorem unlines_cons (l : List Char) (ls : List (List Char)) :
    unlines (l::ls) = unlines [l]++unlines ls := by
  simp [unlines]

theorem unlines_single (a b : List Char) : unlines [a++b] = a++(b++['\n']) := by
  simp [unlines]

def ruleLine : List Char := List.replicate 79 '-'

def headerLines : List (List Char) :=
  [List.replicate 79 '=',
   "ENERGYTOP - GreenOS Process Energy Profiler".toList,
   List.replicate 79 '=',
   "%-6s %-16s %-10s %-10s %-10s %-12s".toList,
   ruleLine]

def rowLine : List Char := "%-6d %-16s %-10d %-10d %-10d %-12d".toList

def totalLine (n : ℕ) : List Char := totalPrefix++decimal n

def noneLine : List Char := "No processes found.".toList

def totalLines (count : ℕ) : List (List Char) :=
  if count = 0 then [noneLine] else [ruleLine,totalLine count]

def footerLines : List (List Char) :=
  [List.replicate 79 '=',"Press Ctrl+C to exit".toList]

theorem header_text : printHeader = some (unlines headerLines) := by
  have htitle : printf title [] =
      some ("ENERGYTOP - GreenOS Process Energy Profiler".toList++['\n']) := by
    rw [show title = _ from String.toList_ofList,
      show "ENERGYTOP - GreenOS Process Energy Profiler".toList = _ from String.toList_ofList]
    rfl
  have hhead : ∀ ap, printf headFormat ap =
      some ("%-6s %-16s %-10s %-10s %-10s %-12s".toList++['\n']) := by
    rw [show headFormat = _ from String.toList_ofList,
      show "%-6s %-16s %-10s %-10s %-10s %-12s".toList = _ from String.toList_ofList]
    exact fun ap => rfl
  rw [printHeader, doubleRule, singleRule, rule_format '=' (by decide), rule_format '-' (by decide),
    htitle, hhead]
  simp [unlines, headerLines, ruleLine]

theorem footer_text : printFooter = some (unlines footerLines) := by
  rw [printFooter, doubleRule, rule_format '=' (by decide),
    show exitHint = _ from String.toList_ofList, footerLines,
    show "Press Ctrl+C to exit".toList = _ from String.toList_ofList]
  rfl

theorem row_text (pid : ℤ) (info : ℕ) (u : User) :
    printRow pid info u = some (unlines [rowLine]) := by
  rw [printRow, show rowFormat = _ from String.toList_ofList, show rowLine = _ from
    String.toList_ofList]
  rfl

theorem total_text (count : ℕ) (h : count < 64) :
    printTotal count = some (unlines (totalLines count)) := by
  by_cases hzero : count = 0
  · rw [printTotal, totalLines, if_pos hzero, if_pos hzero, show noneText = _ from
      String.toList_ofList,
      show noneLine = _ from String.toList_ofList]
    rfl
  · have hline : unlines [totalLine count] =
        totalPrefix++(decimal count++['\n']) := unlines_single _ _
    rw [printTotal, totalLines, if_neg hzero, if_neg hzero, singleRule,
      rule_format '-' (by decide), total_format, printint_decimal (count : ℤ) (by omega) (by omega),
      unlines_cons, hline]
    rfl

def present (t : Table) (ps : List ℤ) : ℕ := ps.countP fun pid => ∃ i, (t i).pid = pid

section
variable {info : ℕ} {u : User}

theorem info_succeeds (hw : Writable u info 16) (pid : ℤ) (t : Table) :
    (sysGetEnergyInfo pid info t u).1 = 0 ↔ ∃ i, (t i).pid = pid := by
  by_cases h : ∃ i, (t i).pid = pid
  · obtain ⟨i,hi,hfirst⟩ := first_slot h
    obtain ⟨_,hr⟩ := info_at info u hi hfirst
    rcases hr with ⟨_,hr,_⟩ | ⟨hn,_⟩
    · exact iff_of_true hr h
    · exact absurd hw hn
  · rw [info_none info u fun i hi => h ⟨i,hi⟩]
    exact iff_of_false (by simp) h

theorem info_keeps (hw : Writable u info 16) (pid : ℤ) (t : Table) :
    (∀ i, ((sysGetEnergyInfo pid info t u).2.1 i).pid = (t i).pid) ∧
    Writable (sysGetEnergyInfo pid info t u).2.2 info 16 := by
  have hpid := find_identity pid (List.finRange nproc) t
  unfold sysGetEnergyInfo
  split
  · rename_i t' h
    rw [h] at hpid
    exact ⟨fun i => (hpid i).pid,hw⟩
  · rename_i data t' h
    rw [h] at hpid
    rcases copyout_spec info 16 (intBytes data) u with ⟨_,hc⟩ | ⟨hn,_⟩
    · rw [hc]
      exact ⟨fun i => (hpid i).pid,hw⟩
    · exact absurd hw hn

theorem mainLoop_text (hw : Writable u info 16) (ps : List ℤ) (t : Table) (count : ℕ) :
    mainLoop info ps t u count =
      some (unlines (List.replicate (present t ps) rowLine),count+present t ps) := by
  induction ps generalizing t u count with
  | nil => rfl
  | cons pid ps ih =>
    obtain ⟨hkeep,hw'⟩ := info_keeps hw pid t
    have hrest : present (sysGetEnergyInfo pid info t u).2.1 ps = present t ps := by
      simp only [present, hkeep]
    have hloop := ih hw' (sysGetEnergyInfo pid info t u).2.1
    simp only [hrest] at hloop
    simp only [mainLoop, row_text]
    by_cases h : ∃ i, (t i).pid = pid
    · have hcount : present t (pid::ps) = present t ps+1 := by
        rw [present, List.countP_cons_of_pos (by simpa using h)]
        rfl
      simp only [(info_succeeds hw pid t).mpr h, if_true, hloop, Option.bind_eq_bind,
        Option.bind_some, hcount]
      rw [List.replicate_succ, unlines_cons rowLine (List.replicate _ _), Nat.add_right_comm,
        Nat.add_assoc count]
    · have hcount : present t (pid::ps) = present t ps := by
        rw [present, List.countP_cons_of_neg (by simpa using h)]
        rfl
      rw [if_neg (mt (info_succeeds hw pid t).mp h), hloop, hcount]

theorem present_le (t : Table) : present t pids ≤ 63 := by
  have h : pids.length = 63 := by decide
  exact h ▸ List.countP_le_length

def outputLines (count : ℕ) : List (List Char) :=
  headerLines++List.replicate count rowLine++totalLines count++footerLines

theorem main_text (hw : Writable u info 16) (t : Table) :
    main info t u = some (unlines (outputLines (present t pids))) := by
  have hle := present_le t
  unfold main
  rw [header_text, mainLoop_text hw, footer_text, Nat.zero_add]
  simp only [Option.bind_eq_bind, Option.bind_some,
    total_text _ (show present t pids < 64 by omega)]
  rw [outputLines, unlines_append, unlines_append, unlines_append]

end

theorem decimal_nat (n : ℕ) : decimal n = Nat.toDigits 10 n := by
  rw [decimal, if_neg (by omega), List.nil_append, Int.natAbs_natCast]

theorem decimal_digits (n : ℕ) : ∀ c ∈ decimal n, c.isDigit = true := by
  intro c hc
  exact Nat.isDigit_of_mem_toDigits (by decide) (by decide) (decimal_nat n ▸ hc)

variable {n count : ℕ} {a : List Char}

theorem decimal_injective {m : ℕ} (h : decimal n = decimal m) : n = m := by
  rw [decimal_nat, decimal_nat] at h
  rw [← Nat.ofDigitChars_toDigits (b := 10) (n := n) (by decide) (by decide), h,
    Nat.ofDigitChars_toDigits (by decide) (by decide)]

def fixedLines : List (List Char) := headerLines++[rowLine,ruleLine,[]]++footerLines

theorem fixed_plain : ∀ l ∈ noneLine::fixedLines,
    '\n' ∉ l ∧ l.take 5 ≠ ['T','o','t','a','l'] ∧ (numbers l).length ≤ 1 := by
  rw [fixedLines, headerLines, footerLines, show noneLine = _ from String.toList_ofList,
    show rowLine = _ from String.toList_ofList,
    show "ENERGYTOP - GreenOS Process Energy Profiler".toList = _ from String.toList_ofList,
    show "%-6s %-16s %-10s %-10s %-10s %-12s".toList = _ from String.toList_ofList,
    show "Press Ctrl+C to exit".toList = _ from String.toList_ofList]
  decide +kernel

theorem mem_output {l : List Char} (hl : l ∈ outputLines count++[[]]) :
    l ∈ fixedLines ∨ (count = 0 ∧ l = noneLine) ∨ (count ≠ 0 ∧ l = totalLine count) := by
  simp only [outputLines, List.append_assoc, List.mem_append, List.mem_singleton] at hl
  unfold fixedLines
  rcases hl with hl | hl | hl | hl | hl
  · exact .inl (by simp [hl])
  · exact .inl (by simp [List.eq_of_mem_replicate hl])
  · unfold totalLines at hl
    split_ifs at hl with hzero
    · exact .inr (.inl ⟨hzero,List.mem_singleton.mp hl⟩)
    · rcases List.mem_cons.mp hl with hl | hl
      · exact .inl (by simp [hl])
      · exact .inr (.inr ⟨hzero,List.mem_singleton.mp hl⟩)
  · exact .inl (by simp [hl])
  · exact .inl (by simp [hl])

theorem output_plain (count : ℕ) : ∀ l ∈ outputLines count, '\n' ∉ l := by
  have hpre : '\n' ∉ totalPrefix := by
    rw [show totalPrefix = _ from String.toList_ofList]
    decide
  intro l hl
  rcases mem_output (List.mem_append_left _ hl) with hl | ⟨_,rfl⟩ | ⟨_,rfl⟩
  · exact (fixed_plain l (by simp [hl])).1
  · exact (fixed_plain _ (by simp)).1
  · intro hmem
    rcases List.mem_append.mp hmem with hmem | hmem
    · exact hpre hmem
    · exact absurd (decimal_digits count _ hmem) (by decide)

theorem totalLine_new (n : ℕ) : totalLine n ∉ noneLine::fixedLines := by
  have htake : (totalLine n).take 5 = ['T','o','t','a','l'] := by
    rw [totalLine, show totalPrefix = _ from String.toList_ofList]
    rfl
  exact fun h => (fixed_plain _ h).2.1 htake

theorem noneLine_mem : noneLine ∈ outputLines count++[[]] ↔ count = 0 := by
  have hfixed : noneLine ∉ fixedLines := by
    rw [show noneLine = _ from String.toList_ofList, fixedLines, headerLines, footerLines]
    decide +kernel
  constructor
  · intro hl
    rcases mem_output hl with hl | hl | hl
    · exact absurd hl hfixed
    · exact hl.1
    · exact absurd (by simp [hl.2]) (totalLine_new count)
  · rintro rfl
    simp [outputLines, totalLines]

theorem totalLine_mem (hpos : n ≠ 0) :
    totalLine n ∈ outputLines count++[[]] ↔ count = n := by
  constructor
  · intro hl
    rcases mem_output hl with hl | hl | hl
    · exact absurd (by simp [hl]) (totalLine_new n)
    · exact absurd (by simp [hl.2]) (totalLine_new n)
    · exact (decimal_injective (List.append_cancel_left hl.2)).symm
  · rintro rfl
    simp [outputLines, totalLines, hpos]

theorem decimal_ends (x : ℤ) : endsInDigit (decimal x) = true := by
  have hne : Nat.toDigits 10 x.natAbs ≠ [] := Nat.toDigits_ne_nil
  unfold endsInDigit decimal
  rw [List.getLast?_append_of_ne_nil _ hne, List.getLast?_eq_getLast_of_ne_nil hne]
  exact Nat.isDigit_of_mem_toDigits (by decide) (by decide) (List.getLast_mem hne)

theorem not_space (h : ' ' ∉ a) : ∀ c ∈ a, (c == ' ') = false := by
  intro c hc
  simp only [beq_eq_false_iff_ne, ne_eq]
  rintro rfl
  exact h hc

theorem split_word (h : ' ' ∉ a) : a.splitOn ' ' = [a] :=
  List.splitOnP_eq_singleton fun c hc => by simp [not_space h c hc]

theorem numbers_append (a b : List Char) (h : ' ' ∉ a) :
    numbers (a++ ' ' :: b) = numbers a++numbers b := by
  unfold numbers words
  rw [split_word h, List.splitOn,
    List.splitOnP_append_cons_of_forall_mem (not_space h) _ (by decide), ← List.filter_append,
    ← List.filter_append]
  rfl

theorem numbers_word (h : ' ' ∉ a) : (numbers a).length ≤ 1 := by
  unfold numbers words
  rw [split_word h]
  exact (List.length_filter_le _ _).trans (List.length_filter_le _ _)

theorem few_numbers (count : ℕ) : ∀ l ∈ outputLines count++[[]], (numbers l).length ≤ 1 := by
  intro l hl
  rcases mem_output hl with hl | ⟨_,rfl⟩ | ⟨_,rfl⟩
  · exact (fixed_plain l (by simp [hl])).2.2
  · exact (fixed_plain _ (by simp)).2.2
  · -- Of the three words of this line only the last ends in a digit.
    have hline : totalLine count = ['T','o','t','a','l']++ ' ' ::
        (['p','r','o','c','e','s','s','e','s',':']++ ' ' :: decimal count) := by
      rw [totalLine, show totalPrefix = _ from String.toList_ofList]
      rfl
    have hspace : ' ' ∉ decimal count := fun h => absurd (decimal_digits count _ h) (by decide)
    rw [hline, numbers_append _ _ (by decide), numbers_append _ _ (by decide)]
    exact numbers_word hspace

def live (t : Table) : Finset Slot := Finset.univ.filter fun i => (t i).state ≠ .unused

def HasRows (t : Table) (out : List Char) : Prop :=
  ∀ i, (t i).state ≠ .unused → ∃ line ∈ lines out,
    ([(t i).pid,(t i).cpuTicks,(t i).sleepCount,(t i).wakeCount,
      (updateEnergyScore (t i)).energyScore].map decimal).Sublist (words line)

def HasTotal (t : Table) (out : List Char) : Prop :=
  if (live t).card = 0 then noneLine ∈ lines out else totalLine (live t).card ∈ lines out

section
variable {t : Table}

theorem rows_missing (count : ℕ) {i : Slot} (hi : (t i).state ≠ .unused) :
    ¬HasRows t (unlines (outputLines count)) := by
  intro hrows
  obtain ⟨line,hline,hsub⟩ := hrows i hi
  rw [lines_unlines _ (output_plain count)] at hline
  have hfew := few_numbers count line hline
  have hfive := (hsub.filter endsInDigit).length_le
  simp only [List.map_cons, List.map_nil, List.filter_cons, decimal_ends, if_true,
    List.filter_nil, List.length_cons, List.length_nil] at hfive
  unfold numbers at hfew
  omega

theorem total_iff (count : ℕ) :
    HasTotal t (unlines (outputLines count)) ↔ count = (live t).card := by
  unfold HasTotal
  rw [lines_unlines _ (output_plain count)]
  split_ifs with hzero
  · rw [noneLine_mem, hzero]
  · exact totalLine_mem hzero

theorem mem_pids {p : ℤ} : p ∈ pids ↔ 1 ≤ p ∧ p < 64 := by
  simp only [pids, maxProc, List.mem_map, List.mem_range'_1]
  constructor
  · rintro ⟨n,hn,rfl⟩
    omega
  · intro h
    exact ⟨p.toNat,by omega,by omega⟩

theorem present_zero : present t pids = 0 ↔ ∀ i, ¬(1 ≤ (t i).pid ∧ (t i).pid < 64) := by
  unfold present
  rw [List.countP_eq_zero]
  simp only [mem_pids, decide_eq_true_eq, not_exists]
  constructor
  · intro h i hi
    exact h _ hi i rfl
  · rintro h p hp i rfl
    exact h i hp

/-- When free slots have pid 0 and pids are distinct, the loop counts the live
processes with a pid from 1 to 63. -/
theorem present_card (hfree : ∀ i, (t i).state = .unused → (t i).pid = 0)
    (huniq : ∀ i j, (t i).state ≠ .unused → (t j).state ≠ .unused → (t i).pid = (t j).pid → i = j) :
    present t pids = ((live t).filter fun i => 1 ≤ (t i).pid ∧ (t i).pid < 64).card := by
  have hnodup : pids.Nodup := by decide +kernel
  have himage : (pids.filter fun p => ∃ i, (t i).pid = p).toFinset =
      ((live t).filter fun i => 1 ≤ (t i).pid ∧ (t i).pid < 64).image fun i => (t i).pid := by
    ext p
    simp only [List.mem_toFinset, List.mem_filter, mem_pids, decide_eq_true_eq,
      Finset.mem_image, Finset.mem_filter, live, Finset.mem_univ, true_and]
    constructor
    · rintro ⟨hp,i,rfl⟩
      refine ⟨i,⟨?_,hp⟩,rfl⟩
      intro hu
      have := hfree i hu
      omega
    · rintro ⟨i,⟨_,hp⟩,rfl⟩
      exact ⟨hp,i,rfl⟩
  rw [present, List.countP_eq_length_filter, ← List.toFinset_card_of_nodup (hnodup.filter _),
    himage]
  refine Finset.card_image_of_injOn ?_
  intro i hi j hj hij
  simp only [live, Finset.coe_filter, Finset.mem_filter, Finset.mem_univ, true_and,
    Set.mem_ofPred_eq] at hi hj
  exact huniq i j hi.1 hj.1 hij

end

/-- What `energytop` prints for a table that does not change: it lists every
live process with the right total exactly when no process is live and no slot
has a pid from 1 to 63, since a row shows its format and not its values. The
total alone is right exactly when every live pid is from 1 to 63. -/
theorem energytop_output (info : ℕ) (t : Table) (u : User) (hw : Writable u info 16) :
    ∃ out, main info t u = some out ∧
      (HasRows t out ∧ HasTotal t out ↔
        (∀ i, (t i).state = .unused) ∧ ∀ i, ¬(1 ≤ (t i).pid ∧ (t i).pid < 64)) ∧
      ((∀ i, (t i).state = .unused → (t i).pid = 0) →
        (∀ i j, (t i).state ≠ .unused → (t j).state ≠ .unused →
          (t i).pid = (t j).pid → i = j) →
        (HasTotal t out ↔ ∀ i, (t i).state ≠ .unused → 1 ≤ (t i).pid ∧ (t i).pid < 64)) := by
  refine ⟨_,main_text hw t,?_,?_⟩
  · by_cases hlive : ∃ i, (t i).state ≠ .unused
    · obtain ⟨i,hi⟩ := hlive
      exact iff_of_false (fun h => rows_missing _ hi h.1) (fun h => hi (h.1 i))
    · push Not at hlive
      have hcard : (live t).card = 0 := by simp [live, hlive]
      rw [total_iff, hcard, present_zero]
      refine ⟨fun h => ⟨hlive,h.2⟩,fun h => ⟨fun i hi => absurd (hlive i) hi,h.2⟩⟩
  · intro hfree huniq
    rw [total_iff, present_card hfree huniq, Finset.card_filter_eq_iff]
    simp [live]

theorem boot_pids : (∀ i, ((boot 1 2 3).table i).state = .unused → ((boot 1 2 3).table i).pid = 0) ∧
    ∀ i j, ((boot 1 2 3).table i).state ≠ .unused → ((boot 1 2 3).table j).state ≠ .unused →
      ((boot 1 2 3).table i).pid = ((boot 1 2 3).table j).pid → i = j := by
  decide +kernel

/-- Right after boot the total is right and the row is not. -/
theorem boot_total : ∃ out, main 4096 (boot 1 2 3).table roomy = some out ∧
    HasTotal (boot 1 2 3).table out := by
  obtain ⟨out,hout,_,htotal⟩ := energytop_output 4096 (boot 1 2 3).table roomy roomy_writable
  exact ⟨out,hout,(htotal boot_pids.1 boot_pids.2).mpr (by decide +kernel)⟩

/-- The first process has pid 1 and no ticks, and its row reads
`%-6d %-16s %-10d %-10d %-10d %-12d`. -/
theorem boot_row_missing : ∃ out, main 4096 (boot 1 2 3).table roomy = some out ∧
    ((boot 1 2 3).table 0).state = .runnable ∧ ((boot 1 2 3).table 0).pid = 1 ∧
    lines out = outputLines 1++[[]] ∧ ¬HasRows (boot 1 2 3).table out := by
  have hcount : present (boot 1 2 3).table pids = 1 := by
    rw [present_card boot_pids.1 boot_pids.2]
    decide +kernel
  refine ⟨_,main_text roomy_writable _,by decide +kernel,by decide +kernel,?_,?_⟩
  · rw [hcount]
    exact lines_unlines _ (output_plain 1)
  · rw [hcount]
    exact rows_missing 1 (i := 0) (by decide +kernel)

end GreenOS.EnergyTop
