import Mathlib.Logic.Basic

/-!
# Programs over a state that may stop with an error

`Prog σ ε α` is state passing over `Except`: a program returns a value and a new
state, or stops with an error and no state at all. `Wp E m Q s` is its weakest
precondition: started in `s`, `m` returns with `Q` or stops with an error in `E`.
With `E` empty it says that `m` returns. The `wp_*` equivalences compute the
precondition of a `do` block; a call is discharged by `Wp.mono` and the
callee's own specification.
-/

namespace Pintos.Base

variable {σ ε α β : Type}

abbrev Prog (σ ε α : Type) : Type := StateT σ (Except ε) α

def Wp (E : ε → Prop) (m : Prog σ ε α) (Q : α → σ → Prop) (s : σ) : Prop :=
  (∀ a s', m s = .ok (a, s') → Q a s') ∧ ∀ e, m s = .error e → E e

section

variable {E : ε → Prop} {m : Prog σ ε α} {f : α → Prog σ ε β} {Q Q' : α → σ → Prop}
  {R : β → σ → Prop} {s : σ}

theorem Wp.ok {a : α} {s' : σ} (h : Wp E m Q s) (e : m s = .ok (a, s')) : Q a s' := h.1 a s' e

theorem wp_of_ok {a : α} {s' : σ} (e : m s = .ok (a, s')) : Wp E m Q s ↔ Q a s' := by
  constructor
  · intro h
    exact h.1 a s' e
  · intro h
    constructor
    · intro b t e'
      rw [e] at e'
      cases e'
      exact h
    · intro x e'
      rw [e] at e'
      cases e'

theorem wp_of_error {x : ε} (e : m s = .error x) : Wp E m Q s ↔ E x := by
  constructor
  · intro h
    exact h.2 x e
  · intro h
    constructor
    · intro b t e'
      rw [e] at e'
      cases e'
    · intro y e'
      rw [e] at e'
      cases e'
      exact h

theorem Wp.mono (h : Wp E m Q s) (hQ : ∀ a s', Q a s' → Q' a s') : Wp E m Q' s :=
  ⟨fun a s' e => hQ a s' (h.1 a s' e), h.2⟩

/-- With no error allowed the program returns. -/
theorem Wp.total (h : Wp (fun _ => False) m Q s) : ∃ a s', m s = .ok (a, s') ∧ Q a s' := by
  cases e : m s with
  | error x => exact (h.2 x e).elim
  | ok p => exact ⟨p.1, p.2, rfl, h.1 p.1 p.2 e⟩

@[simp] theorem bind_run (m : Prog σ ε α) (f : α → Prog σ ε β) (s : σ) :
    (m >>= f) s = (m s).bind fun p => f p.1 p.2 := rfl

/-! The `*_run` equations execute a `do` block. -/

@[simp] theorem ok_bind {γ δ : Type} (a : γ) (g : γ → Except ε δ) :
    (Except.ok a : Except ε γ).bind g = g a := rfl

@[simp] theorem error_bind {γ δ : Type} (e : ε) (g : γ → Except ε δ) :
    (Except.error e : Except ε γ).bind g = .error e := rfl

@[simp] theorem pure_run (a : α) (s : σ) : (pure a : Prog σ ε α) s = .ok (a, s) := rfl

@[simp] theorem get_run (s : σ) : (get : Prog σ ε σ) s = .ok (s, s) := rfl

@[simp] theorem set_run (t s : σ) : (set t : Prog σ ε PUnit) s = .ok (⟨⟩, t) := rfl

@[simp] theorem modify_run (g : σ → σ) (s : σ) :
    (modify g : Prog σ ε PUnit) s = .ok (⟨⟩, g s) := rfl

@[simp] theorem throw_run (e : ε) (s : σ) : (throw e : Prog σ ε α) s = .error e := rfl

/-- A block that returns, by its first part. -/
theorem ok_of_bind {r : β × σ} (h : (m >>= f) s = .ok r) :
    ∃ a s', m s = .ok (a, s') ∧ f a s' = .ok r := by
  rw [bind_run] at h
  cases e : m s with
  | error x =>
    rw [e] at h
    cases h
  | ok p =>
    rw [e] at h
    exact ⟨p.1, p.2, rfl, h⟩

theorem discard_run {a : α} {s s' : σ} (h : m s = .ok (a, s')) :
    (discard m : Prog σ ε PUnit) s = .ok (⟨⟩, s') := by
  show (m s).bind _ = _
  rw [h]
  rfl

theorem wp_bind : Wp E (m >>= f) R s ↔ Wp E m (fun a s' => Wp E (f a) R s') s := by
  cases e : m s with
  | error x => rw [wp_of_error e, wp_of_error (by rw [bind_run, e]; rfl)]
  | ok p =>
    obtain ⟨a, s'⟩ := p
    rw [wp_of_ok e]
    unfold Wp
    rw [show (m >>= f) s = f a s' by rw [bind_run, e]; rfl]

theorem wp_pure {a : α} : Wp E (pure a) Q s ↔ Q a s := wp_of_ok rfl

theorem wp_get {Q : σ → σ → Prop} : Wp E (get : Prog σ ε σ) Q s ↔ Q s s := wp_of_ok rfl

theorem wp_set {Q : PUnit → σ → Prop} {t : σ} : Wp E (set t : Prog σ ε PUnit) Q s ↔ Q ⟨⟩ t :=
  wp_of_ok rfl

theorem wp_modify {Q : PUnit → σ → Prop} {g : σ → σ} :
    Wp E (modify g : Prog σ ε PUnit) Q s ↔ Q ⟨⟩ (g s) := wp_of_ok rfl

theorem wp_throw {x : ε} : Wp E (throw x : Prog σ ε α) Q s ↔ E x := wp_of_error rfl

/-- A call and what follows it. -/
theorem Wp.bind (h : Wp E m Q s) (hf : ∀ a s', Q a s' → Wp E (f a) R s') : Wp E (m >>= f) R s :=
  wp_bind.mpr (h.mono hf)

theorem Wp.discard {P : σ → Prop} (h : Wp E m (fun _ s' => P s') s) :
    Wp E (discard m : Prog σ ε PUnit) (fun _ s' => P s') s :=
  h.bind fun _ _ hp => wp_pure.mpr hp

/-! ## Errors -/

/-- Every error of `m` is one of `E`. -/
def Throws (E : ε → Prop) (m : Prog σ ε α) : Prop := ∀ s e, m s = .error e → E e

theorem Throws.pure (a : α) : Throws E (pure a : Prog σ ε α) := fun _ _ h => (by cases h)

theorem Throws.get : Throws E (get : Prog σ ε σ) := fun _ _ h => (by cases h)

theorem Throws.set (t : σ) : Throws E (set t : Prog σ ε PUnit) := fun _ _ h => (by cases h)

theorem Throws.modify (g : σ → σ) : Throws E (modify g : Prog σ ε PUnit) := fun _ _ h => (by cases h)

theorem Throws.throw {e : ε} (he : E e) : Throws E (throw e : Prog σ ε α) := by
  intro s x h
  cases h
  exact he

theorem Throws.bind (h : Throws E m) (hf : ∀ a, Throws E (f a)) : Throws E (m >>= f) := by
  intro s e he
  rw [bind_run] at he
  cases hm : m s with
  | error x =>
    rw [hm] at he
    cases he
    exact h s e hm
  | ok p =>
    rw [hm] at he
    exact hf p.1 p.2 e he

/-- A program that stops with none of its errors returns. -/
theorem Throws.total (h : Throws E m) (hw : Wp (fun e => ¬ E e) m Q s) :
    ∃ a s', m s = .ok (a, s') ∧ Q a s' :=
  Wp.total ⟨hw.1, fun e he => hw.2 e he (h s e he)⟩

end

end Pintos.Base
