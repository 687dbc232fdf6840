import Mathlib.Tactic

/-!
# Programs over a set of commands

A program is a tree of commands with a continuation for each answer. One text of
a program can be run by different handlers: a handler says what a command does
to a state, and may stop the run or leave it waiting.
-/

namespace GreenOS.Programs

universe u

inductive Prog (C : Type u) (R : C → Type) (α : Type) : Type u where
  | pure (a : α)
  | step (c : C) (k : R c → Prog C R α)

section Monad
variable {C : Type u} {R : C → Type} {α β γ : Type}

def Prog.bind : Prog C R α → (α → Prog C R β) → Prog C R β
  | .pure a, f => f a
  | .step c k, f => .step c (fun r => (k r).bind f)

instance : Monad (Prog C R) where
  pure := Prog.pure
  bind := Prog.bind

def perform (c : C) : Prog C R (R c) := .step c .pure

theorem bind_pure_right (p : Prog C R α) : p.bind .pure = p := by
  induction p with
  | pure a => rfl
  | step c k ih => simp only [Prog.bind, ih]

theorem bind_assoc_prog (p : Prog C R α) (f : α → Prog C R β) (g : β → Prog C R γ) :
    (p.bind f).bind g = p.bind (fun a => (f a).bind g) := by
  induction p with
  | pure a => rfl
  | step c k ih => simp only [Prog.bind, ih]

instance : LawfulMonad (Prog C R) := LawfulMonad.mk' _ bind_pure_right
  (fun _ _ => rfl) bind_assoc_prog

end Monad

section Every
variable {C : Type u} {R : C → Type} {α β : Type} {P : C → Prop}

def Every (P : C → Prop) : Prog C R α → Prop
  | .pure _ => True
  | .step c k => P c ∧ ∀ r, Every P (k r)

theorem every_pure (a : α) : Every P (pure a : Prog C R α) := trivial

theorem every_perform {c : C} (h : P c) : Every P (perform c : Prog C R (R c)) :=
  ⟨h,fun _ => trivial⟩

variable {p : Prog C R α}

theorem every_bind {f : α → Prog C R β} (hp : Every P p)
    (hf : ∀ a, Every P (f a)) : Every P (p >>= f) := by
  change Every P (p.bind f)
  induction p with
  | pure a => exact hf a
  | step c k ih => exact ⟨hp.1,fun r => ih r (hp.2 r)⟩

theorem every_ite {c : Prop} [Decidable c] {q : Prog C R α} (hp : Every P p) (hq : Every P q) :
    Every P (if c then p else q) := by
  split_ifs
  · exact hp
  · exact hq

theorem every_mono {Q : C → Prop} (hPQ : ∀ c, P c → Q c) (hp : Every P p) :
    Every Q p := by
  induction p with
  | pure a => trivial
  | step c k ih => exact ⟨hPQ c hp.1,fun r => ih r (hp.2 r)⟩

end Every

inductive Outcome (α : Type u) where
  | ok (a : α)
  | panic (msg : String)
  | wait

section Exec
variable {C : Type u} {R : C → Type} {σ α β : Type}

def exec (h : (c : C) → σ → Outcome (R c × σ)) : Prog C R α → σ → Outcome (α × σ)
  | .pure a, s => .ok (a,s)
  | .step c k, s =>
    match h c s with
    | .ok (r,s') => exec h (k r) s'
    | .panic msg => .panic msg
    | .wait => .wait

variable (h : (c : C) → σ → Outcome (R c × σ))

def wp (E : String → Prop) (p : Prog C R α) (Q : α → σ → Prop) (s : σ) : Prop :=
  match exec h p s with
  | .ok (a,s') => Q a s'
  | .panic msg => E msg
  | .wait => True

variable {h} {E : String → Prop}

theorem wp_def (p : Prog C R α) (Q : α → σ → Prop) (s : σ) : wp h E p Q s ↔ match exec h p s with
      | .ok (a,s') => Q a s'
      | .panic msg => E msg
      | .wait => True := Iff.rfl

variable {a : α} {Q Q' : α → σ → Prop} {s s' : σ} {p : Prog C R α} {f : α → Prog C R β}
variable {P : C → Prop}

theorem wp_pure : wp h E (pure a) Q s ↔ Q a s := Iff.rfl

theorem exec_pure (a : α) (s : σ) : exec h (pure a) s = .ok (a,s) := rfl

theorem exec_bind (p : Prog C R α) (f : α → Prog C R β) (s : σ) :
    exec h (p >>= f) s = match exec h p s with
      | .ok (a,s') => exec h (f a) s'
      | .panic msg => .panic msg
      | .wait => .wait := by
  change exec h (p.bind f) s = _
  induction p generalizing s with
  | pure a => rfl
  | step c k ih =>
    simp only [Prog.bind, exec]
    cases h c s with
    | ok r => exact ih r.1 r.2
    | panic msg => rfl
    | wait => rfl

theorem exec_bind_ok (hp : exec h p s = .ok (a,s')) : exec h (p >>= f) s = exec h (f a) s' := by
  rw [exec_bind, hp]

theorem exec_bind_congr {g : α → Prog C R β}
    (hfg : ∀ a s', exec h p s = .ok (a,s') → exec h (f a) s' = exec h (g a) s') :
    exec h (p >>= f) s = exec h (p >>= g) s := by
  rw [exec_bind, exec_bind]
  cases hx : exec h p s with
  | ok r => exact hfg r.1 r.2 hx
  | panic msg => rfl
  | wait => rfl

theorem exec_bind_panic {msg : String}
    (hp : exec h p s = .panic msg) : exec h (p >>= f) s = .panic msg := by
  rw [exec_bind, hp]

theorem wp_bind {Q : β → σ → Prop} :
    wp h E (p >>= f) Q s ↔ wp h E p (fun a s' => wp h E (f a) Q s') s := by
  unfold wp
  rw [exec_bind]
  cases exec h p s <;> rfl

theorem exec_perform (c : C) (s : σ) : exec h (perform c) s = h c s := by
  simp only [perform, exec]
  cases h c s <;> rfl

theorem wp_mono (hp : wp h E p Q s) (hq : ∀ a s', Q a s' → Q' a s') : wp h E p Q' s := by
  unfold wp at *
  cases hx : exec h p s with
  | ok r =>
    rw [hx] at hp
    exact hq r.1 r.2 hp
  | panic msg =>
    rw [hx] at hp
    exact hp
  | wait => trivial

theorem wp_and {E' : String → Prop} (hp : wp h E p Q s)
    (hp' : wp h E' p Q' s) : wp h E p (fun a s' => Q a s' ∧ Q' a s') s := by
  rw [wp_def] at hp hp' ⊢
  cases hx : exec h p s with
  | ok r =>
    rw [hx] at hp hp'
    exact ⟨hp,hp'⟩
  | panic msg =>
    rw [hx] at hp
    exact hp
  | wait => trivial

theorem wp_ite {c : Prop} [Decidable c] {q : Prog C R α} (ht : c → wp h E p Q s)
    (hf : ¬ c → wp h E q Q s) : wp h E (if c then p else q) Q s := by
  split_ifs with hc
  · exact ht hc
  · exact hf hc

attribute [irreducible] wp

theorem exec_not_wait (hP : ∀ c s, P c → h c s ≠ .wait) (hp : Every P p)
    (s : σ) : exec h p s ≠ .wait := by
  induction p generalizing s with
  | pure a => nofun
  | step c k ih =>
    have hc := hP c s hp.1
    rw [exec]
    cases hx : h c s with
    | ok r => exact ih r.1 (hp.2 r.1) r.2
    | panic msg => nofun
    | wait => exact absurd hx hc

theorem bind_not_wait (hp : exec h p s ≠ .wait)
    (hf : ∀ a s', exec h p s = .ok (a,s') → exec h (f a) s' ≠ .wait) :
    exec h (p >>= f) s ≠ .wait := by
  rw [exec_bind]
  cases hx : exec h p s with
  | ok r => exact hf r.1 r.2 hx
  | panic msg => nofun
  | wait => exact absurd hx hp

theorem exec_ok (hwp : wp h (fun _ => False) p Q s)
    (hwait : exec h p s ≠ .wait) : ∃ a s', exec h p s = .ok (a,s') ∧ Q a s' := by
  rw [wp_def] at hwp
  cases hx : exec h p s with
  | ok r =>
    rw [hx] at hwp
    exact ⟨r.1,r.2,rfl,hwp⟩
  | panic msg =>
    rw [hx] at hwp
    exact hwp.elim
  | wait => exact absurd hx hwait

def Returns (h : (c : C) → σ → Outcome (R c × σ)) (p : Prog C R α) (Q : α → σ → Prop) (s : σ) :
    Prop :=
  ∃ a s', exec h p s = .ok (a,s') ∧ Q a s'

theorem returns_pure (hq : Q a s) : Returns h (pure a) Q s :=
  ⟨a,s,rfl,hq⟩

theorem returns_perform {c : C} {r : R c} {Q : R c → σ → Prop} (hc : h c s = .ok (r,s'))
    (hq : Q r s') : Returns h (perform c) Q s :=
  ⟨r,s',(exec_perform c s).trans hc,hq⟩

theorem returns_bind {Q : β → σ → Prop}
    (hp : Returns h p (fun a s' => Returns h (f a) Q s') s) : Returns h (p >>= f) Q s := by
  obtain ⟨a,s',hx,b,s'',hf,hq⟩ := hp
  exact ⟨b,s'',(exec_bind_ok hx).trans hf,hq⟩

theorem returns_mono (hp : Returns h p Q s) (hq : ∀ a s', Q a s' → Q' a s') : Returns h p Q' s := by
  obtain ⟨a,s',hx,hs⟩ := hp
  exact ⟨a,s',hx,hq a s' hs⟩

end Exec

end GreenOS.Programs
