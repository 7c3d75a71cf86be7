import Mathlib.Logic.Basic

/-!
# Runs of a labelled transition function

A system is a partial step function `step : σ → ι → Option σ`: the label says
which party moves and how the environment answers, `none` says the label is not
enabled. `Reach step ok s₀ s` is reachability by steps that all meet `ok`,
`runFrom` executes a list of labels, and `Along` states a property of every step
of one run.
-/

namespace Pintos.Base

variable {σ ι : Type}

/-- `s` is reached from `s₀` by steps that all meet `ok`. -/
inductive Reach (step : σ → ι → Option σ) (ok : σ → ι → Prop) (s₀ : σ) : σ → Prop where
  | refl : Reach step ok s₀ s₀
  | next {s s' : σ} {a : ι} : Reach step ok s₀ s → ok s a → step s a = some s' →
      Reach step ok s₀ s'

/-- Every step is allowed. -/
def Free (_ : σ) (_ : ι) : Prop := True

/-- Execute a list of labels. -/
def runFrom (step : σ → ι → Option σ) : σ → List ι → Option σ
  | s, [] => some s
  | s, a :: as => (step s a).bind fun s' => runFrom step s' as

/-- Every step the run of `as` from `s` takes meets `P`. -/
def Along (step : σ → ι → Option σ) (P : σ → ι → σ → Prop) : σ → List ι → Prop
  | _, [] => True
  | s, a :: as => ∀ s', step s a = some s' → P s a s' ∧ Along step P s' as

section

variable {step : σ → ι → Option σ} {ok : σ → ι → Prop} {s₀ : σ}

/-- **Invariant rule**: what holds initially and is kept by every allowed step
holds of every state reached. -/
theorem Reach.invariant {I : σ → Prop} (h0 : I s₀)
    (hstep : ∀ s a s', I s → ok s a → step s a = some s' → I s') {s : σ}
    (h : Reach step ok s₀ s) : I s := by
  induction h with
  | refl => exact h0
  | next _ hok hs ih => exact hstep _ _ _ ih hok hs

theorem Reach.mono {ok' : σ → ι → Prop} (hle : ∀ s a, ok s a → ok' s a) {s : σ}
    (h : Reach step ok s₀ s) : Reach step ok' s₀ s := by
  induction h with
  | refl => exact .refl
  | next _ hok hs ih => exact .next ih (hle _ _ hok) hs

theorem Reach.free {s : σ} (h : Reach step ok s₀ s) : Reach step Free s₀ s :=
  h.mono fun _ _ _ => trivial

theorem Reach.run {s : σ} (h : Reach step Free s₀ s) :
    ∀ {as : List ι} {s' : σ}, runFrom step s as = some s' → Reach step Free s₀ s'
  | [], s', e => by simp only [runFrom, Option.some.injEq] at e; subst e; exact h
  | a :: as, s', e => by
    simp only [runFrom, Option.bind_eq_some_iff] at e
    obtain ⟨s1, h1, e⟩ := e
    exact (Reach.next h trivial h1).run e

/-- An executed run reaches its end state. -/
theorem reach_of_run (as : List ι) {s : σ} (e : runFrom step s₀ as = some s) :
    Reach step Free s₀ s := Reach.refl.run e

/-- A step function cut down to the steps that meet `ok`. -/
def guarded (step : σ → ι → Option σ) (ok : σ → ι → Prop) [∀ s a, Decidable (ok s a)] (s : σ)
    (a : ι) : Option σ := if ok s a then step s a else none

theorem Reach.guarded_run [∀ s a, Decidable (ok s a)] {s : σ} (h : Reach step ok s₀ s) :
    ∀ {as : List ι} {s' : σ}, runFrom (guarded step ok) s as = some s' → Reach step ok s₀ s'
  | [], s', e => by simp only [runFrom, Option.some.injEq] at e; subst e; exact h
  | a :: as, s', e => by
    simp only [runFrom, guarded, Option.bind_eq_some_iff] at e
    obtain ⟨s1, h1, e⟩ := e
    split at h1
    · next hok => exact (Reach.next h hok h1).guarded_run e
    · cases h1

/-- A run executed under a decidable condition reaches its end state. -/
theorem reach_of_guarded [∀ s a, Decidable (ok s a)] (as : List ι) {s : σ}
    (e : runFrom (guarded step ok) s₀ as = some s) : Reach step ok s₀ s := Reach.refl.guarded_run e

/-- A property of every step holds of the step after any executed prefix. -/
theorem Along.at {P : σ → ι → σ → Prop} {a : ι} :
    ∀ {as : List ι} {s s1 s2 : σ}, Along step P s (as ++ [a]) → runFrom step s as = some s1 →
      step s1 a = some s2 → P s1 a s2
  | [], s, s1, s2, h, e, h2 => by
    simp only [runFrom, Option.some.injEq] at e
    subst e
    exact (h s2 h2).1
  | b :: as, s, s1, s2, h, e, h2 => by
    simp only [runFrom, Option.bind_eq_some_iff] at e
    obtain ⟨s', hs', e⟩ := e
    exact ((h s' hs').2).at e h2

/-- **Two step properties agree along runs** when, from states that meet the
invariant, each step has the one exactly when it has the other, and such steps
keep the invariant. -/
theorem along_iff {I : σ → Prop} {P Q : σ → ι → σ → Prop}
    (hiff : ∀ s a s', I s → step s a = some s' → (P s a s' ↔ Q s a s'))
    (hkeep : ∀ s a s', I s → step s a = some s' → Q s a s' → I s') :
    ∀ {as : List ι} {s : σ}, I s → (Along step P s as ↔ Along step Q s as)
  | [], _, _ => Iff.rfl
  | a :: as, s, hI => by
    refine forall₂_congr fun s' hs => ?_
    rw [hiff s a s' hI hs]
    exact and_congr_right fun hq => along_iff hiff hkeep (hkeep s a s' hI hs hq)

end

end Pintos.Base
