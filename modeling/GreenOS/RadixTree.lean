import Mathlib.Tactic

/-!
# Trees of tables in a flat memory

A memory maps an address and an index to an entry, and an entry may point to
another table. From a root, a list of indices leads to a table.
-/

namespace GreenOS.RadixTree

section
variable {α κ ε : Type*} (child : ε → Option α)

def tableAt (m : α → κ → ε) : α → List κ → Option α
  | t, [] => some t
  | t, i::is => (child (m t i)).bind (fun a => tableAt m a is)

def Distinct (n : ℕ) (m : α → κ → ε) (root : α) : Prop :=
  ∀ p q a, p.length ≤ n → q.length ≤ n → tableAt child m root p = some a →
    tableAt child m root q = some a → p = q

variable {child} {m m' : α → κ → ε} {root t a : α} {n : ℕ} {p q : List κ} {i : κ}

theorem tableAt_append (p q : List κ) :
    tableAt child m root (p++q) = (tableAt child m root p).bind (fun a => tableAt child m a q) := by
  induction p generalizing root with
  | nil => rfl
  | cons i p ih =>
    simp only [List.cons_append, tableAt, Option.bind_assoc]
    congr 1
    funext a
    exact ih

theorem tableAt_concat (p : List κ) (i : κ) :
    tableAt child m root (p++[i]) = (tableAt child m root p).bind (fun a => child (m a i)) := by
  rw [tableAt_append]
  congr 1
  funext a
  simp [tableAt]

theorem tableAt_congr (h : ∀ q i rest a, p = q++i::rest → tableAt child m root q = some a →
    m' a i = m a i) : tableAt child m' root p = tableAt child m root p := by
  induction p generalizing root with
  | nil => rfl
  | cons i p ih =>
    have hroot : m' root i = m root i := h [] i p root rfl rfl
    simp only [tableAt, hroot]
    cases hc : child (m root i) with
    | none => rfl
    | some b =>
      apply ih
      intro q j rest a hp hq
      refine h (i::q) j rest a (by rw [hp]; rfl) ?_
      simp only [tableAt, hc, Option.bind_some]
      exact hq

theorem tableAt_prefix (h : tableAt child m root (p++q) = some a) :
    ∃ b, tableAt child m root p = some b := by
  rw [tableAt_append] at h
  obtain ⟨b,hb,-⟩ := Option.bind_eq_some_iff.mp h
  exact ⟨b,hb⟩

variable [DecidableEq α]

theorem tableAt_outside {f : κ → ε} (ht : ∀ q, q.length < n → tableAt child m root q ≠ some t)
    (hp : p.length ≤ n) : tableAt child (Function.update m t f) root p =
      tableAt child m root p := by
  apply tableAt_congr
  intro q i rest a heq hq
  have hlen : q.length < n := by
    have := congrArg List.length heq
    simp only [List.length_append, List.length_cons] at this
    omega
  have hne : a ≠ t := by
    rintro rfl
    exact ht q hlen hq
  rw [Function.update_of_ne hne]

theorem tableAt_leaf {f : κ → ε} (h : Distinct child n m root)
    (hq : tableAt child m root q = some t)
    (hlen : q.length = n) (hp : p.length ≤ n) :
    tableAt child (Function.update m t f) root p = tableAt child m root p := by
  apply tableAt_outside _ hp
  intro q' hlen' hq'
  obtain rfl := h q' q t hlen'.le hlen.le hq' hq
  omega

omit [DecidableEq α] in
theorem distinct_congr (h : Distinct child n m root)
    (hsame : ∀ p, p.length ≤ n → tableAt child m' root p = tableAt child m root p) :
    Distinct child n m' root := by
  intro p q a hp hq hpa hqa
  rw [hsame p hp] at hpa
  rw [hsame q hq] at hqa
  exact h p q a hp hq hpa hqa

variable [DecidableEq κ]

def write (m : α → κ → ε) (t : α) (i : κ) (e : ε) : α → κ → ε :=
  Function.update m t (Function.update (m t) i e)

@[simp] theorem write_self (m : α → κ → ε) (t : α) (i : κ) (e : ε) : write m t i e t i = e := by
  simp [write]

theorem write_of_ne (m : α → κ → ε) {t b : α} {i j : κ} (e : ε) (h : ¬ (b = t ∧ j = i)) :
    write m t i e b j = m b j := by
  by_cases hb : b = t
  · subst hb
    have hj : j ≠ i := fun hj => h ⟨rfl,hj⟩
    simp [write, hj]
  · simp [write, hb]

theorem tableAt_attach {e : ε} (h : Distinct child n m root) (hq : tableAt child m root q = some t)
    (hlen : q.length < n) (hnone : child (m t i) = none)
    (hfresh : ∀ p, p.length ≤ n → tableAt child m root p ≠ some a)
    (hempty : ∀ j, child (m a j) = none)
    (he : child e = some a) (hp : p.length ≤ n) :
    tableAt child (write m t i e) root p =
      if p = q++[i] then some a else tableAt child m root p := by
  have hat : a ≠ t := by
    rintro rfl
    exact hfresh q hlen.le hq
  by_cases hpre : q++[i] <+: p
  · obtain ⟨rest,rfl⟩ := hpre
    -- up to the written entry the way is the old one
    have hway : tableAt child (write m t i e) root q = some t := by
      rw [← hq]
      apply tableAt_outside (n := q.length) _ le_rfl
      intro q' hlen' hq'
      obtain rfl := h q' q t (by omega) hlen.le hq' hq
      omega
    have hhead : tableAt child (write m t i e) root (q++[i]) = some a := by
      rw [tableAt_concat, hway, Option.bind_some, write_self, he]
    rw [tableAt_append, hhead, Option.bind_some]
    cases rest with
    | nil => simp [tableAt]
    | cons j rest =>
      have hnext : write m t i e a j = m a j := write_of_ne m e (fun h => hat h.1)
      rw [if_neg (by simp), tableAt, hnext, hempty, tableAt_append, tableAt_concat, hq,
        Option.bind_some, hnone]
      rfl
  · rw [if_neg (by rintro rfl; exact hpre (List.prefix_refl _))]
    apply tableAt_congr
    rintro q' j rest b rfl hb
    apply write_of_ne
    rintro ⟨rfl,rfl⟩
    have hlen' : q'.length ≤ n := by
      simp only [List.length_append, List.length_cons] at hp
      omega
    obtain rfl := h q' q b hlen' hlen.le hb hq
    exact hpre ⟨rest,by simp⟩

theorem distinct_attach {e : ε} (h : Distinct child n m root) (hq : tableAt child m root q = some t)
    (hlen : q.length < n) (hnone : child (m t i) = none)
    (hfresh : ∀ p, p.length ≤ n → tableAt child m root p ≠ some a)
    (hempty : ∀ j, child (m a j) = none)
    (he : child e = some a) : Distinct child n (write m t i e) root := by
  intro p p' b hp hp' hpb hpb'
  rw [tableAt_attach h hq hlen hnone hfresh hempty he hp] at hpb
  rw [tableAt_attach h hq hlen hnone hfresh hempty he hp'] at hpb'
  split_ifs at hpb hpb' with hp₁ hp₂
  · rw [hp₁, hp₂]
  · cases hpb
    exact absurd hpb' (hfresh p' hp')
  · cases hpb'
    exact absurd hpb (hfresh p hp)
  · exact h p p' b hp hp' hpb hpb'

end

end GreenOS.RadixTree
