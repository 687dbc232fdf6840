import Mathlib.Computability.Language

/-!
# The patterns of `grep`

`match` with its two functions, on C strings without their NUL, and the language
that a pattern stands for.
-/

namespace GreenOS.PatternMatch

def caret : UInt8 := 94

def dollar : UInt8 := 36

def period : UInt8 := 46

/-- The loop of `matchstar`, with the search for what follows the star. -/
def matchstar (here : List UInt8 → Bool) (c : UInt8) : List UInt8 → Bool
  | [] => here []
  | t::text => here (t::text) || ((t = c || c = period) && matchstar here c text)

def matchhere : List UInt8 → List UInt8 → Bool
  | [], _ => true
  | c::42::re, text => matchstar (fun text => matchhere re text) c text
  | c::re, text =>
    if c = dollar ∧ re = [] then text = []
    else
      match text with
      | [] => false
      | t::text => if c = period ∨ c = t then matchhere re text else false

def matchFrom (re : List UInt8) : List UInt8 → Bool
  | [] => matchhere re []
  | t::text => matchhere re (t::text) || matchFrom re text

def matchText (re text : List UInt8) : Bool :=
  match re with
  | [] => matchFrom [] text
  | c::re => if c = caret then matchhere re text else matchFrom (c::re) text

inductive Item where
  | one (c : UInt8)
  | star (c : UInt8)

def Accepts (c t : UInt8) : Prop := c = period ∨ c = t

def single (c : UInt8) : Language UInt8 := {w | ∃ t, Accepts c t ∧ w = [t]}

def Item.lang : Item → Language UInt8
  | .one c => single c
  | .star c => KStar.kstar (single c)

def items : List UInt8 → List Item × Bool
  | [] => ([],false)
  | c::42::re => (.star c::(items re).1,(items re).2)
  | c::re => if c = dollar ∧ re = [] then ([],true) else (.one c::(items re).1,(items re).2)

def lang (is : List Item) : Language UInt8 := (is.map Item.lang).prod

def Begins (re text : List UInt8) : Prop :=
  ∃ w post, text = w++post ∧ w ∈ lang (items re).1 ∧ ((items re).2 = true → post = [])

section Items
variable {c t : UInt8} {re text w : List UInt8}

theorem mem_star : w ∈ Item.lang (.star c) ↔ ∀ t ∈ w, Accepts c t := by
  rw [Item.lang, Language.mem_kstar]
  constructor
  · rintro ⟨l,rfl,hl⟩ t ht
    obtain ⟨y,hy,ht⟩ := List.mem_flatten.mp ht
    obtain ⟨t',hacc,rfl⟩ := hl y hy
    rwa [List.mem_singleton.mp ht]
  · intro h
    refine ⟨w.map (fun t => [t]),?_,?_⟩
    · rw [← List.flatMap_def, List.flatMap_singleton']
    · intro y hy
      obtain ⟨t,ht,rfl⟩ := List.mem_map.mp hy
      exact ⟨t,h t ht,rfl⟩

theorem mem_lang_cons {i : Item} {is : List Item} :
    w ∈ lang (i::is) ↔ ∃ w₁ w₂, w₁ ∈ i.lang ∧ w₂ ∈ lang is ∧ w₁++w₂ = w := by
  rw [lang, List.map_cons, List.prod_cons, Language.mem_mul]
  exact ⟨fun ⟨w₁,h₁,w₂,h₂,heq⟩ => ⟨w₁,w₂,h₁,h₂,heq⟩,fun ⟨w₁,w₂,h₁,h₂,heq⟩ => ⟨w₁,h₁,w₂,h₂,heq⟩⟩

theorem mem_lang_nil : w ∈ lang [] ↔ w = [] := Language.mem_one w

theorem begins_nil : Begins [] text := ⟨[],text,rfl,mem_lang_nil.mpr rfl,nofun⟩

theorem begins_star : Begins (c::42::re) text ↔ ∃ w post, text = w++post ∧ (∀ t ∈ w, Accepts c t) ∧
    Begins re post := by
  unfold Begins
  rw [items]
  constructor
  · rintro ⟨w,post,rfl,hw,hend⟩
    obtain ⟨w₁,w₂,h₁,h₂,rfl⟩ := mem_lang_cons.mp hw
    exact ⟨w₁,w₂++post,List.append_assoc ..,mem_star.mp h₁,w₂,post,rfl,h₂,hend⟩
  · rintro ⟨w₁,-,rfl,h₁,w₂,post,rfl,h₂,hend⟩
    exact ⟨w₁++w₂,post,(List.append_assoc ..).symm,
      mem_lang_cons.mpr ⟨w₁,w₂,mem_star.mpr h₁,h₂,rfl⟩,hend⟩

theorem begins_dollar : Begins [dollar] text ↔ text = [] := by
  unfold Begins
  rw [items, if_pos ⟨rfl,rfl⟩]
  constructor
  · rintro ⟨w,post,rfl,hw,hend⟩
    rw [mem_lang_nil.mp hw, hend rfl]
    rfl
  · rintro rfl
    exact ⟨[],[],rfl,mem_lang_nil.mpr rfl,fun _ => rfl⟩
  · nofun

theorem begins_one (hstar : ∀ re', re ≠ 42::re') (hd : ¬(c = dollar ∧ re = [])) :
    Begins (c::re) text ↔ ∃ t post, text = t::post ∧ Accepts c t ∧ Begins re post := by
  unfold Begins
  rw [items, if_neg hd]
  constructor
  · rintro ⟨w,post,rfl,hw,hend⟩
    obtain ⟨-,w₂,⟨t,hacc,rfl⟩,h₂,rfl⟩ := mem_lang_cons.mp hw
    exact ⟨t,w₂++post,rfl,hacc,w₂,post,rfl,h₂,hend⟩
  · rintro ⟨t,-,rfl,hacc,w₂,post,rfl,h₂,hend⟩
    exact ⟨t::w₂,post,rfl,mem_lang_cons.mpr ⟨[t],w₂,⟨t,hacc,rfl⟩,h₂,rfl⟩,hend⟩
  · exact hstar

theorem matchstar_iff {here : List UInt8 → Bool} :
    matchstar here c text = true ↔ ∃ w post, text = w++post ∧ (∀ t ∈ w, Accepts c t) ∧
      here post = true := by
  induction text with
  | nil =>
    rw [matchstar]
    constructor
    · exact fun h => ⟨[],[],rfl,nofun,h⟩
    · rintro ⟨w,post,heq,-,h⟩
      rwa [(List.nil_eq_append_iff.mp heq).2] at h
  | cons t text ih =>
    rw [matchstar, Bool.or_eq_true, Bool.and_eq_true, ih]
    have hacc : (t = c || c = period) = true ↔ Accepts c t := by
      rw [Bool.or_eq_true, decide_eq_true_eq, decide_eq_true_eq, or_comm, eq_comm (a := t)]
      rfl
    rw [hacc]
    constructor
    · rintro (h | ⟨ht,w,post,rfl,hw,h⟩)
      · exact ⟨[],t::text,rfl,nofun,h⟩
      · exact ⟨t::w,post,rfl,List.forall_mem_cons.mpr ⟨ht,hw⟩,h⟩
    · rintro ⟨w,post,heq,hw,h⟩
      cases w with
      | nil =>
        rw [heq]
        exact .inl h
      | cons t' w =>
        obtain ⟨rfl,rfl⟩ := List.cons.inj heq
        obtain ⟨ht,hw⟩ := List.forall_mem_cons.mp hw
        exact .inr ⟨ht,w,post,rfl,hw,h⟩

theorem matchhere_iff (re text : List UInt8) : matchhere re text = true ↔ Begins re text := by
  fun_induction matchhere re text with
  | case1 text => exact iff_of_true rfl begins_nil
  | case2 text c re ih =>
    rw [matchstar_iff, begins_star]
    simp only [ih]
  | case3 text c re hstar hd =>
    obtain ⟨rfl,rfl⟩ := hd
    rw [begins_dollar, decide_eq_true_eq]
  | case4 c re hstar hd =>
    rw [begins_one hstar hd]
    exact iff_of_false Bool.false_ne_true (fun ⟨_,_,h,_⟩ => List.cons_ne_nil _ _ h.symm)
  | case5 c re hstar hd t text hacc ih =>
    rw [begins_one hstar hd, ih]
    constructor
    · exact fun h => ⟨t,text,rfl,hacc,h⟩
    · rintro ⟨t',post,heq,-,h⟩
      rwa [(List.cons.inj heq).2]
  | case6 c re hstar hd t text hacc =>
    rw [begins_one hstar hd]
    refine iff_of_false Bool.false_ne_true ?_
    rintro ⟨t',post,heq,h,-⟩
    exact hacc ((List.cons.inj heq).1 ▸ h)

theorem matchFrom_iff : matchFrom re text = true ↔ ∃ pre rest, text = pre++rest ∧
    Begins re rest := by
  induction text with
  | nil =>
    rw [matchFrom, matchhere_iff]
    constructor
    · exact fun h => ⟨[],[],rfl,h⟩
    · rintro ⟨pre,rest,heq,h⟩
      rwa [(List.nil_eq_append_iff.mp heq).2] at h
  | cons t text ih =>
    rw [matchFrom, Bool.or_eq_true, matchhere_iff, ih]
    constructor
    · rintro (h | ⟨pre,rest,rfl,h⟩)
      · exact ⟨[],t::text,rfl,h⟩
      · exact ⟨t::pre,rest,rfl,h⟩
    · rintro ⟨pre,rest,heq,h⟩
      cases pre with
      | nil =>
        rw [heq]
        exact .inl h
      | cons t' pre =>
        obtain ⟨rfl,rfl⟩ := List.cons.inj heq
        exact .inr ⟨pre,rest,rfl,h⟩

end Items

def anchored (re : List UInt8) : Bool := re.head? = some caret

def body (re : List UInt8) : List UInt8 := if anchored re then re.tail else re

/-- `match` finds a part of the text that is a word of the pattern, at the beginning of the text
after a `^` and at its end before a `$`. -/
theorem match_finds_words (re text : List UInt8) : matchText re text = true ↔
    ∃ pre w post, text = pre++w++post ∧ w ∈ lang (items (body re)).1 ∧
      (anchored re = true → pre = []) ∧ ((items (body re)).2 = true → post = []) := by
  have hfrom : ∀ {re}, anchored re = false → (matchFrom re text = true ↔
      ∃ pre w post, text = pre++w++post ∧ w ∈ lang (items (body re)).1 ∧
        (anchored re = true → pre = []) ∧ ((items (body re)).2 = true → post = [])) := by
    intro re ha
    rw [matchFrom_iff, body, ha]
    constructor
    · rintro ⟨pre,-,rfl,w,post,rfl,hw,hend⟩
      exact ⟨pre,w,post,(List.append_assoc ..).symm,hw,nofun,hend⟩
    · rintro ⟨pre,w,post,rfl,hw,-,hend⟩
      exact ⟨pre,w++post,List.append_assoc ..,w,post,rfl,hw,hend⟩
  cases re with
  | nil => exact hfrom rfl
  | cons c re =>
    rw [matchText]
    by_cases hc : c = caret
    · subst hc
      rw [if_pos rfl, matchhere_iff]
      constructor
      · rintro ⟨w,post,rfl,hw,hend⟩
        exact ⟨[],w,post,rfl,hw,fun _ => rfl,hend⟩
      · rintro ⟨pre,w,post,rfl,hw,hpre,hend⟩
        rw [hpre rfl]
        exact ⟨w,post,rfl,hw,hend⟩
    · rw [if_neg hc]
      exact hfrom (by simpa [anchored] using hc)

end GreenOS.PatternMatch
