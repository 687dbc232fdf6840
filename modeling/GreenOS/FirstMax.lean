import Mathlib.Data.List.MinMax
import Mathlib.Tactic

/-!
# The first maximum of a keyed list

A left-to-right scan that keeps its candidate unless a later entry is
strictly larger computes `List.argmax`. On a list whose keys increase, the
selected entry is characterised by the keys alone.
-/

namespace GreenOS.FirstMax

variable {ι : Type*}

abbrev Entry (ι : Type*) := ι × ℤ

def keep (best : Option (Entry ι)) (e : Entry ι) : Option (Entry ι) :=
  match best with
  | none => some e
  | some b => if b.2 < e.2 then some e else some b

theorem argmax_snoc (l : List (Entry ι)) (e : Entry ι) :
    List.argmax Prod.snd (l++[e]) = keep (List.argmax Prod.snd l) e := by
  rw [List.argmax_concat]
  cases List.argmax Prod.snd l <;> rfl

variable [LinearOrder ι]

def Sorted (l : List (Entry ι)) : Prop := l.Pairwise (fun a b => a.1 < b.1)

def Leads (l : List (Entry ι)) (m : Entry ι) : Prop :=
  ∀ a ∈ l, a.2 ≤ m.2 ∧ (a.1 < m.1 → a.2 < m.2)

variable {l : List (Entry ι)}

theorem sorted_snoc {e : Entry ι} :
    Sorted (l++[e]) ↔ Sorted l ∧ ∀ a ∈ l, a.1 < e.1 := by
  simp [Sorted, List.pairwise_append]

theorem sorted_key_eq (hl : Sorted l) {a b : Entry ι} (ha : a ∈ l) (hb : b ∈ l)
    (h : a.1 = b.1) : a = b := by
  obtain ⟨i,hi,rfl⟩ := List.mem_iff_getElem.mp ha
  obtain ⟨j,hj,rfl⟩ := List.mem_iff_getElem.mp hb
  rcases lt_trichotomy i j with hij | rfl | hij
  · exact absurd h (ne_of_lt (List.pairwise_iff_getElem.mp hl i j hi hj hij))
  · rfl
  · exact absurd h.symm (ne_of_lt (List.pairwise_iff_getElem.mp hl j i hj hi hij))

theorem argmax_leads (hl : Sorted l) {m : Entry ι}
    (h : List.argmax Prod.snd l = some m) : m ∈ l ∧ Leads l m := by
  induction l using List.reverseRecOn generalizing m with
  | nil => simp at h
  | append_singleton l e ih =>
    obtain ⟨hs,hlt⟩ := sorted_snoc.mp hl
    rw [argmax_snoc] at h
    cases hb : List.argmax Prod.snd l with
    | none =>
      obtain rfl : l = [] := List.argmax_eq_none.mp hb
      obtain rfl : e = m := by simpa [keep] using h
      simp [Leads]
    | some b =>
      obtain ⟨hbl,hlead⟩ := ih hs hb
      rw [hb] at h
      by_cases hlt2 : b.2 < e.2
      · obtain rfl : e = m := by simpa [keep, hlt2] using h
        refine ⟨by simp, fun a ha => ?_⟩
        rcases List.mem_append.mp ha with ha | ha
        · have := (hlead a ha).1
          exact ⟨by omega,fun _ => by omega⟩
        · obtain rfl : a = e := by simpa using ha
          exact ⟨le_refl _,fun h => absurd h (lt_irrefl _)⟩
      · obtain rfl : b = m := by simpa [keep, hlt2] using h
        refine ⟨by simp [hbl], fun a ha => ?_⟩
        rcases List.mem_append.mp ha with ha | ha
        · exact hlead a ha
        · obtain rfl : a = e := by simpa using ha
          exact ⟨by omega,fun h => absurd h (lt_asymm (hlt b hbl))⟩

theorem argmax_eq_iff (hl : Sorted l) (m : Entry ι) :
    List.argmax Prod.snd l = some m ↔ m ∈ l ∧ Leads l m := by
  refine ⟨argmax_leads hl, fun ⟨hm,hlead⟩ => ?_⟩
  cases hb : List.argmax Prod.snd l with
  | none => simp [List.argmax_eq_none.mp hb] at hm
  | some b =>
    obtain ⟨hbl,hb'⟩ := argmax_leads hl hb
    have h1 := hlead b hbl
    have h2 := hb' m hm
    rcases lt_trichotomy b.1 m.1 with hlt | heq | hgt
    · have := h1.2 hlt
      omega
    · rw [sorted_key_eq hl hbl hm heq]
    · have := h2.2 hgt
      omega

end GreenOS.FirstMax
