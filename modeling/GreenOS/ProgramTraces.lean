import GreenOS.Programs

/-!
# What a program leaves in a record

Some commands of a program leave marks, and a run of the program leaves the list
of them. `wpt` is a postcondition that speaks of this list too.
-/

namespace GreenOS.ProgramTraces
open Programs

universe u

variable {C : Type u} {R : C → Type} {σ α β κ : Type}

def trace (h : (c : C) → σ → Outcome (R c × σ)) (mark : C → List κ) : Prog C R α → σ → List κ
  | .pure _, _ => []
  | .step c k, s => mark c++
    match h c s with
    | .ok (r,s') => trace h mark (k r) s'
    | .panic _ => []
    | .wait => []

section Trace
variable {h : (c : C) → σ → Outcome (R c × σ)} {mark : C → List κ}

variable {p : Prog C R α}

theorem trace_bind {f : α → Prog C R β} {s s' : σ} {a : α} (hp : exec h p s = .ok (a,s')) :
    trace h mark (p >>= f) s = trace h mark p s++trace h mark (f a) s' := by
  change trace h mark (p.bind f) s = _
  induction p generalizing s with
  | pure b =>
    cases hp
    rfl
  | step c k ih =>
    simp only [Prog.bind, trace]
    rw [exec] at hp
    cases hc : h c s with
    | ok r =>
      rw [hc] at hp
      rw [List.append_assoc]
      exact congrArg _ (ih r.1 hp)
    | panic msg =>
      rw [hc] at hp
      cases hp
    | wait =>
      rw [hc] at hp
      cases hp

theorem trace_silent (hp : Every (fun c => mark c = []) p) (s : σ) :
    trace h mark p s = [] := by
  induction p generalizing s with
  | pure a => rfl
  | step c k ih =>
    rw [trace, hp.1, List.nil_append]
    cases h c s with
    | ok r => exact ih r.1 (hp.2 r.1) r.2
    | panic msg => rfl
    | wait => rfl

end Trace

variable (h : (c : C) → σ → Outcome (R c × σ)) (mark : C → List κ)

def wpt (E : String → Prop) (p : Prog C R α) (Q : α → σ → List κ → Prop) (s : σ) : Prop :=
  wp h E p (fun a s' => Q a s' (trace h mark p s)) s

variable {h mark} {E : String → Prop}

variable {Q Q' : α → σ → List κ → Prop} {s : σ} {p : Prog C R α} {f : α → Prog C R β}

theorem wpt_pure {a : α} :
    wpt h mark E (pure a) Q s ↔ Q a s [] := wp_pure

theorem wpt_mono (hp : wpt h mark E p Q s)
    (hq : ∀ a s' l, Q a s' l → Q' a s' l) : wpt h mark E p Q' s :=
  wp_mono hp (fun a s' hQ => hq a s' _ hQ)

theorem wpt_bind {Q : β → σ → List κ → Prop} :
    wpt h mark E (p >>= f) Q s ↔
      wpt h mark E p (fun a s' l => wpt h mark E (f a) (fun b s'' l' => Q b s'' (l++l')) s') s := by
  rw [wpt, wp_bind, wpt, wp_def, wp_def]
  cases hp : exec h p s with
  | ok r =>
    dsimp only
    rw [trace_bind hp]
    exact Iff.rfl
  | panic msg => exact Iff.rfl
  | wait => exact Iff.rfl

theorem wpt_ite {c : Prop} [Decidable c] {q : Prog C R α} (ht : c → wpt h mark E p Q s)
    (hf : ¬c → wpt h mark E q Q s) :
    wpt h mark E (if c then p else q) Q s := by
  split_ifs with hc
  · exact ht hc
  · exact hf hc

theorem wpt_silent (hp : Every (fun c => mark c = []) p) :
    wpt h mark E p Q s ↔ wp h E p (fun a s' => Q a s' []) s := by
  rw [wpt, trace_silent hp]

theorem wpt_silent_bind (hp : Every (fun c => mark c = []) p) {Q : β → σ → List κ → Prop} :
    wpt h mark E (p >>= f) Q s ↔ wp h E p (fun a s' => wpt h mark E (f a) Q s') s := by
  rw [wpt_bind, wpt_silent hp]
  rfl

theorem wp_of_wpt {Q : α → σ → Prop}
    (hp : wpt h mark E p (fun a s' _ => Q a s') s) : wp h E p Q s := hp

theorem wpt_and {E' : String → Prop} {Q : α → σ → Prop} (hp : wp h E p Q s)
    (ht : wpt h mark E' p Q' s) :
    wpt h mark E p (fun a s' l => Q a s' ∧ Q' a s' l) s := wp_and hp ht

end GreenOS.ProgramTraces
