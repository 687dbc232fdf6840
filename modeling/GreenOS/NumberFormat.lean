import Mathlib.Data.Nat.Digits.Lemmas

/-!
# Numbers in `printf`

`printint` of the kernel and of the user library. Each puts the digits of a
number into a buffer of 20 bytes, the lowest one first, then the sign, and emits
the buffer from its end.
-/

namespace GreenOS.NumberFormat

/-- The bytes of `char buf[20]` that are in use; the index `i` is their number. -/
abbrev Buf := List UInt8

def bufSize : ℕ := 20

def store (buf : Buf) (c : UInt8) : Option Buf :=
  if buf.length < bufSize then some (buf++[c]) else none

def digitLoop (digits : List UInt8) (base : ℕ) : ℕ → BitVec 64 → Buf → Option Buf
  | 0, _, _ => none
  | left+1, x, buf => do
    let buf ← store buf (digits.getD (x%BitVec.ofNat 64 base).toNat 0)
    if x/BitVec.ofNat 64 base ≠ 0 then digitLoop digits base left (x/BitVec.ofNat 64 base) buf
    else some buf

def emit (buf : Buf) : ℕ → List UInt8
  | 0 => []
  | i+1 => buf.getD i 0::emit buf i

def printDigits (digits : List UInt8) (x : BitVec 64) (base : ℕ) (neg : Bool) :
    Option (List UInt8) := do
  let buf ← digitLoop digits base 64 x []
  let buf ← if neg then store buf 45 else some buf
  some (emit buf buf.length)

namespace Kernel

def digits : List UInt8 := [48,49,50,51,52,53,54,55,56,57,97,98,99,100,101,102]

def printint (xx : BitVec 64) (base : ℕ) (sign : Bool) : Option (List UInt8) :=
  let neg := if sign then decide (xx.toInt < 0) else sign
  printDigits digits (if neg then -xx else xx) base neg

end Kernel

namespace User

def digits : List UInt8 := [48,49,50,51,52,53,54,55,56,57,65,66,67,68,69,70]

def printint (xx : BitVec 64) (base : ℕ) (sgn : Bool) : Option (List UInt8) :=
  if sgn ∧ xx.toInt < 0 then printDigits digits (-xx) base true
  else printDigits digits xx base false

end User

def digitOf (c : UInt8) : Option ℕ :=
  if 48 ≤ c ∧ c ≤ 57 then some (c.toNat-48)
  else if 65 ≤ c ∧ c ≤ 70 then some (c.toNat-55)
  else if 97 ≤ c ∧ c ≤ 102 then some (c.toNat-87)
  else none

def parseDigits (base : ℕ) : List UInt8 → ℕ → Option ℕ
  | [], n => some n
  | c::cs, n => do
    let d ← digitOf c
    if d < base then parseDigits base cs (n*base+d) else none

def parse (base : ℕ) : List UInt8 → Option ℤ
  | [] => none
  | c::cs =>
    if c = 45 then if cs = [] then none else (parseDigits base cs 0).map (fun n => -n)
    else (parseDigits base (c::cs) 0).map (fun n => n)

def NoLeadingZero (out : List UInt8) : Prop :=
  ∀ ds, out = ds ∨ out = 45::ds → ds.head? = some 48 → ds = [48]

def lower (c : UInt8) : UInt8 := if 65 ≤ c ∧ c ≤ 90 then c+32 else c

section Digits
variable {base : ℕ} {digits : List UInt8}

def numeral (base n : ℕ) : List ℕ := if n = 0 then [0] else base.digits n

def Table (digits : List UInt8) : Prop := ∀ d, d < 16 → digitOf (digits.getD d 0) = some d

theorem numeral_step (hb : 1 < base) (n : ℕ) :
    numeral base n = n%base::(if n/base ≠ 0 then numeral base (n/base) else []) := by
  unfold numeral
  split_ifs with h0 hq h1
  · rw [h0, Nat.zero_div] at hq
    exact absurd rfl hq
  · rw [h0, Nat.zero_mod]
  · rw [Nat.digits_def' hb (Nat.pos_of_ne_zero h0)]
  · rw [Nat.digits_def' hb (Nat.pos_of_ne_zero h0), not_not.mp h1, Nat.digits_zero]

theorem numeral_ne_nil (n : ℕ) : numeral base n ≠ [] := by
  unfold numeral
  split_ifs with h0
  · nofun
  · exact Nat.digits_ne_nil_iff_ne_zero.mpr h0

theorem numeral_lt (hb : 1 < base) (n : ℕ) : ∀ d ∈ numeral base n, d < base := by
  unfold numeral
  split_ifs with h0
  · intro d hd
    rw [List.mem_singleton.mp hd]
    omega
  · exact fun d hd => Nat.digits_lt_base hb hd

theorem ofDigits_numeral (n : ℕ) : Nat.ofDigits base (numeral base n) = n := by
  unfold numeral
  split_ifs with h0
  · rw [h0, Nat.ofDigits_singleton]
  · exact Nat.ofDigits_digits base n

theorem length_numeral (hb : 1 < base) {n k : ℕ} (hk : 0 < k) (hn : n < base^k) :
    (numeral base n).length ≤ k := by
  unfold numeral
  split_ifs with h0
  · exact hk
  · exact (Nat.digits_length_le_iff hb n).mpr hn

theorem numeral_last (n : ℕ) (h : (numeral base n).getLast? = some 0) : numeral base n = [0] := by
  unfold numeral at h ⊢
  split_ifs at h ⊢ with h0
  · rfl
  · have hne := Nat.digits_ne_nil_iff_ne_zero (b := base).mpr h0
    rw [List.getLast?_eq_some_getLast hne] at h
    exact absurd (Option.some.inj h) (Nat.getLast_digit_ne_zero base h0)

theorem digitLoop_eq (hb : 1 < base) (hb' : base ≤ 16) {left : ℕ} {x : BitVec 64} {buf : Buf}
    (hleft : (numeral base x.toNat).length ≤ left)
    (hroom : buf.length+(numeral base x.toNat).length ≤ bufSize) :
    digitLoop digits base left x buf = some
      (buf++(numeral base x.toNat).map (fun d => digits.getD d 0)) := by
  have hbase : (BitVec.ofNat 64 base).toNat = base := by
    rw [BitVec.toNat_ofNat, Nat.mod_eq_of_lt (by omega)]
  induction left generalizing x buf with
  | zero => exact absurd (List.length_eq_zero_iff.mp (Nat.le_zero.mp hleft)) (numeral_ne_nil _)
  | succ left ih =>
    have hstep := numeral_step hb x.toNat
    have hdiv : (x/BitVec.ofNat 64 base).toNat = x.toNat/base := by
      rw [BitVec.toNat_udiv, hbase]
    have hzero : x/BitVec.ofNat 64 base ≠ 0 ↔ x.toNat/base ≠ 0 := by
      rw [← hdiv]
      exact not_congr BitVec.toNat_inj.symm
    rw [hstep] at hleft hroom ⊢
    rw [List.length_cons] at hleft hroom
    rw [digitLoop, store, if_pos (by omega), Option.bind_eq_bind, Option.bind_some,
      BitVec.toNat_umod, hbase]
    by_cases hq : x.toNat/base = 0
    · rw [if_neg (fun h => hzero.mp h hq), if_neg (not_not.mpr hq)]
      rfl
    · rw [if_pos hq] at hleft hroom ⊢
      rw [← hdiv] at hleft hroom ⊢
      rw [if_pos (hzero.mpr hq),
        ih (by omega) (by rw [List.length_append, List.length_singleton]; omega),
        List.append_assoc]
      rfl

theorem emit_reverse (buf rest : Buf) : emit (buf++rest) buf.length = buf.reverse := by
  induction buf using List.reverseRecOn generalizing rest with
  | nil => rfl
  | append_singleton buf c ih =>
    rw [List.length_append, List.length_singleton, emit, List.reverse_append, List.append_assoc, ih]
    simp [List.getD_eq_getElem?_getD]

def chars (digits : List UInt8) (base : ℕ) (neg : Bool) (n : ℕ) : List UInt8 :=
  (if neg then [45] else [])++(numeral base n).reverse.map (fun d => digits.getD d 0)

theorem printDigits_eq (hb : 1 < base) (hb' : base ≤ 16) {x : BitVec 64} {neg : Bool}
    (hroom : (numeral base x.toNat).length+neg.toNat ≤ bufSize) :
    printDigits digits x base neg = some (chars digits base neg x.toNat) := by
  have hsize : bufSize = 20 := rfl
  have hemit : ∀ buf : Buf, emit buf buf.length = buf.reverse := by
    intro buf
    have := emit_reverse buf []
    rwa [List.append_nil] at this
  rw [printDigits, digitLoop_eq hb hb' (by omega) (by rw [List.length_nil]; omega),
    Option.bind_eq_bind,
    Option.bind_some, List.nil_append]
  cases neg with
  | false =>
    rw [if_neg (by decide), Option.bind_some]
    dsimp only
    rw [hemit, ← List.map_reverse]
    rfl
  | true =>
    rw [Bool.toNat_true] at hroom
    rw [if_pos rfl, store, if_pos (by rw [List.length_map]; omega), Option.bind_some]
    dsimp only
    rw [hemit, List.reverse_append, ← List.map_reverse]
    rfl

theorem parseDigits_map (hb' : base ≤ 16) (ht : Table digits) {ds : List ℕ}
    (hds : ∀ d ∈ ds, d < base) (n : ℕ) :
    parseDigits base (ds.map (fun d => digits.getD d 0)) n = some
      (n*base^ds.length+Nat.ofDigits base ds.reverse) := by
  induction ds generalizing n with
  | nil => simp [parseDigits]
  | cons d ds ih =>
    have hd := hds d List.mem_cons_self
    rw [List.map_cons, parseDigits, ht d (by omega), Option.bind_eq_bind,
      Option.bind_some, if_pos hd,
      ih (fun d' hd' => hds d' (List.mem_cons_of_mem d hd')), List.reverse_cons,
        Nat.ofDigits_append,
      Nat.ofDigits_singleton, List.length_reverse, List.length_cons]
    congr 1
    ring

theorem Table.ne_minus (ht : Table digits) {d : ℕ} (hd : d < 16) : digits.getD d 0 ≠ 45 := by
  intro h
  have hread := ht d hd
  rw [h, show digitOf 45 = none by decide] at hread
  cases hread

theorem parse_chars (hb : 1 < base) (hb' : base ≤ 16) (ht : Table digits) (neg : Bool) (n : ℕ) :
    parse base (chars digits base neg n) = some (if neg then -(n : ℤ) else n) := by
  have hdigits : parseDigits base ((numeral base n).reverse.map (fun d => digits.getD d 0)) 0
    = some n := by
    rw [parseDigits_map hb' ht (fun d hd => numeral_lt hb n d (List.mem_reverse.mp hd)),
      Nat.zero_mul, Nat.zero_add,
      List.reverse_reverse, ofDigits_numeral]
  obtain ⟨d,ds,hcons⟩ : ∃ d ds, (numeral base n).reverse = d::ds :=
    List.exists_cons_of_ne_nil (List.reverse_ne_nil_iff.mpr (numeral_ne_nil n))
  have hd : d < base := numeral_lt hb n d (List.mem_reverse.mp (hcons ▸ List.mem_cons_self))
  have hne := ht.ne_minus (show d < 16 by omega)
  rw [hcons, List.map_cons] at hdigits
  rw [chars, hcons, List.map_cons]
  cases neg with
  | true =>
    simp only [if_true, List.cons_append, List.nil_append, parse]
    rw [if_neg nofun, hdigits]
    rfl
  | false =>
    simp only [Bool.false_eq_true, if_false, List.nil_append, parse, hne]
    rw [hdigits]
    rfl

theorem chars_noLeadingZero (hb : 1 < base) (hb' : base ≤ 16) (ht : Table digits)
    (neg : Bool) (n : ℕ) :
    NoLeadingZero (chars digits base neg n) := by
  have hchar : ∀ d ∈ (numeral base n).reverse, digits.getD d 0 = 48 → d = 0 := by
    intro d hd h
    have := ht d (lt_of_lt_of_le (numeral_lt hb n d (List.mem_reverse.mp hd)) hb')
    rw [h] at this
    exact (Option.some.inj this).symm
  have hzero : ((numeral base n).reverse.map (fun d => digits.getD d 0)).head? = some 48 →
      (numeral base n).reverse.map (fun d => digits.getD d 0) = [48] := by
    intro h
    cases hrev : (numeral base n).reverse with
    | nil => exact absurd (List.reverse_eq_nil_iff.mp hrev) (numeral_ne_nil n)
    | cons d ds =>
      rw [hrev, List.map_cons, List.head?_cons] at h
      have hd : d = 0 := hchar d (hrev ▸ List.mem_cons_self) (Option.some.inj h)
      have hlast : (numeral base n).getLast? = some 0 := by
        rw [← List.head?_reverse, hrev, hd]
        rfl
      rw [numeral_last n hlast] at hrev
      obtain ⟨rfl,rfl⟩ := List.cons.inj hrev
      exact congrArg (·::[]) (Option.some.inj h)
  intro ds hds hhead
  cases neg with
  | true =>
    rw [chars, if_pos rfl, List.singleton_append] at hds
    rcases hds with rfl | hds
    · exact absurd hhead (show some (45 : UInt8) ≠ some 48 by decide)
    · obtain rfl := (List.cons.inj hds).2
      exact hzero hhead
  | false =>
    rw [chars, if_neg (by decide), List.nil_append] at hds
    rcases hds with rfl | hds
    · exact hzero hhead
    · have hmem : (45 : UInt8) ∈ (numeral base n).reverse.map (fun d => digits.getD d 0) :=
        hds ▸ List.mem_cons_self
      obtain ⟨d,hd,heq⟩ := List.mem_map.mp hmem
      have hlt := numeral_lt hb n d (List.mem_reverse.mp hd)
      exact absurd heq (ht.ne_minus (by omega))

end Digits

section Printint
variable {base : ℕ}

theorem kernel_table : Table Kernel.digits := by
  unfold Table
  decide

theorem user_table : Table User.digits := by
  unfold Table
  decide

theorem lower_digits : ∀ d, d < 16 → lower (Kernel.digits.getD d 0) = lower
    (User.digits.getD d 0) := by
  decide

def magnitude (xx : BitVec 64) (neg : Bool) : ℕ := if neg then (-xx).toNat else xx.toNat

theorem magnitude_room (hb : base = 10 ∨ base = 16) {xx : BitVec 64} {neg : Bool}
    (hneg : neg = true → xx.toInt < 0) :
    (numeral base (magnitude xx neg)).length+neg.toNat ≤ bufSize := by
  have hx := xx.isLt
  have hb1 : 1 < base := by omega
  have hpow : ∀ k, 10^k ≤ base^k := fun k => Nat.pow_le_pow_left (by omega) k
  have hsize : bufSize = 20 := rfl
  cases neg with
  | false =>
    have := length_numeral hb1 (n := xx.toNat) (k := 20) (by decide)
      (lt_of_lt_of_le (by omega) (hpow 20))
    simpa [magnitude, hsize] using this
  | true =>
    have hlt : (-xx).toNat ≤ 2^63 := by
      have := hneg rfl
      rw [BitVec.toInt_eq_toNat_cond] at this
      rw [BitVec.toNat_neg]
      split_ifs at this <;> omega
    have := length_numeral hb1 (n := (-xx).toNat) (k := 19) (by decide)
      (lt_of_lt_of_le (by omega) (hpow 19))
    simp only [magnitude, if_true, Bool.toNat_true, hsize]
    omega

theorem kernel_printint (hb : base = 10 ∨ base = 16) (xx : BitVec 64) (sign : Bool) :
    Kernel.printint xx base sign = some (chars Kernel.digits base (sign && decide (xx.toInt < 0))
      (magnitude xx (sign && decide (xx.toInt < 0)))) := by
  have hneg : (if sign then decide (xx.toInt < 0) else sign) = (sign && decide (xx.toInt < 0)) := by
    cases sign <;> rfl
  have hmag : ∀ neg : Bool, (if neg then -xx else xx).toNat = magnitude xx neg := by
    intro neg
    cases neg <;> rfl
  unfold Kernel.printint
  rw [hneg]
  dsimp only
  rw [printDigits_eq (by omega) (by omega), hmag]
  rw [hmag]
  exact magnitude_room hb (by simp)

theorem user_printint (hb : base = 10 ∨ base = 16) (xx : BitVec 64) (sgn : Bool) :
    User.printint xx base sgn = some (chars User.digits base (sgn && decide (xx.toInt < 0))
      (magnitude xx (sgn && decide (xx.toInt < 0)))) := by
  unfold User.printint
  by_cases h : sgn = true ∧ xx.toInt < 0
  · have hroom : (numeral base (magnitude xx true)).length+true.toNat ≤ bufSize :=
      magnitude_room hb (fun _ => h.2)
    rw [if_pos h, h.1, decide_eq_true h.2, Bool.and_self]
    exact printDigits_eq (by omega) (by omega) hroom
  · have hneg : (sgn && decide (xx.toInt < 0)) = false := by
      cases sgn with
      | false => rfl
      | true => simpa using h
    have hroom : (numeral base (magnitude xx false)).length+false.toNat ≤ bufSize :=
      magnitude_room hb nofun
    rw [if_neg h, hneg]
    exact printDigits_eq (by omega) (by omega) hroom

theorem magnitude_value (xx : BitVec 64) (sign : Bool) :
    (if (sign && decide (xx.toInt < 0)) = true
      then -(magnitude xx (sign && decide (xx.toInt < 0)) : ℤ)
      else magnitude xx (sign && decide (xx.toInt < 0))) = if sign then xx.toInt else xx.toNat := by
  have hx := xx.isLt
  cases sign with
  | false => rfl
  | true =>
    have hint := BitVec.toInt_eq_toNat_cond xx
    by_cases hneg : xx.toInt < 0
    · have hnat : ((-xx).toNat : ℤ) = -xx.toInt := by
        rw [BitVec.toNat_neg]
        split_ifs at hint <;> omega
      rw [Bool.true_and, decide_eq_true hneg, if_pos rfl, if_pos rfl, magnitude, if_pos rfl,
        hnat, neg_neg]
    · have hnat : (xx.toNat : ℤ) = xx.toInt := by
        split_ifs at hint <;> omega
      rw [Bool.true_and, decide_eq_false hneg, if_neg (by decide), if_pos rfl, magnitude,
        if_neg (by decide), hnat]

/-- Both functions print a numeral of the number without leading zeros, the same one but for
the case of its letters, and stay within their buffers. -/
theorem printint_faithful (xx : BitVec 64) (hb : base = 10 ∨ base = 16) (sign : Bool) :
    ∃ out out', Kernel.printint xx base sign = some out ∧ User.printint xx base sign = some out' ∧
      NoLeadingZero out ∧ NoLeadingZero out' ∧
      parse base out = some (if sign then xx.toInt else xx.toNat) ∧
      parse base out' = some (if sign then xx.toInt else xx.toNat) ∧
        out.map lower = out'.map lower := by
  have hb1 : 1 < base := by omega
  have hb16 : base ≤ 16 := by omega
  refine ⟨_,_,kernel_printint hb xx sign,user_printint hb xx sign,
    chars_noLeadingZero hb1 hb16 kernel_table _ _,
    chars_noLeadingZero hb1 hb16 user_table _ _,?_,?_,?_⟩
  · rw [parse_chars hb1 hb16 kernel_table, magnitude_value]
  · rw [parse_chars hb1 hb16 user_table, magnitude_value]
  · simp only [chars, List.map_append, List.map_map]
    congr 1
    apply List.map_congr_left
    intro d hd
    exact lower_digits d (lt_of_lt_of_le (numeral_lt hb1 _ d (List.mem_reverse.mp hd)) hb16)

/-- The most negative number. -/
theorem printint_min : ∃ out out', Kernel.printint (BitVec.intMin 64) 10 true = some out ∧
    User.printint (BitVec.intMin 64) 10 true = some out' ∧ parse 10 out = some (-2^63) := by
  obtain ⟨out,out',hk,hu,-,-,hp,-⟩ := @printint_faithful 10 (BitVec.intMin 64) (.inl rfl) true
  exact ⟨out,out',hk,hu,hp⟩

end Printint

end GreenOS.NumberFormat
