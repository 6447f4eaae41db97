/-
  Pintos.Base.Triple

  Pre- and postconditions of programs with a state that may stop early
  (`EStateM`): one postcondition for a normal return and one for a stop.

  The rules follow the constructs of `do` blocks.  A program is run by applying
  it to a state, so that a rule's hypotheses are triples of the parts.
-/

import Mathlib

namespace Pintos.Base

universe u

variable {ε σ α β : Type u}

/-- From a state in `P` the program returns in `Q` or stops in `E`. -/
def Triple (P : σ → Prop) (p : EStateM ε σ α) (Q : α → σ → Prop) (E : ε → σ → Prop) : Prop :=
  ∀ s, P s →
    match p s with
    | .ok a s' => Q a s'
    | .error e s' => E e s'

namespace Triple

variable {P P' : σ → Prop} {p : EStateM ε σ α} {Q Q' : α → σ → Prop} {E E' : ε → σ → Prop}

theorem ok (h : Triple P p Q E) {s s' : σ} {a : α} (hs : P s) (hp : p s = .ok a s') : Q a s' := by
  have := h s hs
  rw [hp] at this
  exact this

theorem error (h : Triple P p Q E) {s s' : σ} {e : ε} (hs : P s) (hp : p s = .error e s') :
    E e s' := by
  have := h s hs
  rw [hp] at this
  exact this

theorem conseq (h : Triple P p Q E) (hP : ∀ s, P' s → P s) (hQ : ∀ a s, Q a s → Q' a s)
    (hE : ∀ e s, E e s → E' e s) : Triple P' p Q' E' := by
  intro s hs
  have := h s (hP s hs)
  cases hp : p s with
  | ok a s' =>
    rw [hp] at this
    exact hQ a s' this
  | error e s' =>
    rw [hp] at this
    exact hE e s' this

theorem pre (h : Triple P p Q E) (hP : ∀ s, P' s → P s) : Triple P' p Q E :=
  h.conseq hP (fun _ _ h => h) fun _ _ h => h

theorem post (h : Triple P p Q E) (hQ : ∀ a s, Q a s → Q' a s) : Triple P p Q' E :=
  h.conseq (fun _ h => h) hQ fun _ _ h => h

theorem pure {a : α} (h : ∀ s, P s → Q a s) : Triple P (Pure.pure a : EStateM ε σ α) Q E :=
  fun s hs => h s hs

theorem throw {e : ε} (h : ∀ s, P s → E e s) :
    Triple P (MonadExcept.throw e : EStateM ε σ α) Q E :=
  fun s hs => h s hs

theorem bind {f : α → EStateM ε σ β} {R : β → σ → Prop} (hp : Triple P p Q E)
    (hf : ∀ a, Triple (Q a) (f a) R E) : Triple P (p >>= f) R E := by
  intro s hs
  have hbind : (p >>= f) s = EStateM.bind p f s := rfl
  rw [hbind, EStateM.bind]
  cases h : p s with
  | ok a s' => exact hf a s' (hp.ok hs h)
  | error e s' => exact hp.error hs h

theorem ite {c : Prop} [Decidable c] {q : EStateM ε σ α} (hp : c → Triple P p Q E)
    (hq : ¬c → Triple P q Q E) : Triple P (if c then p else q) Q E := by
  split
  · exact hp ‹_›
  · exact hq ‹_›

/-- A precondition that does not speak of the state is a hypothesis. -/
theorem of_imp {c : Prop} (h : c → Triple P p Q E) : Triple (fun s => c ∧ P s) p Q E :=
  fun s hs => h hs.1 s hs.2

end Triple

/-- A program that runs after another one. -/
theorem bind_ok {p : EStateM ε σ α} {f : α → EStateM ε σ β} {s s' : σ} {a : α}
    (h : p s = .ok a s') : (p >>= f) s = f a s' := by
  have hbind : (p >>= f) s = EStateM.bind p f s := rfl
  rw [hbind, EStateM.bind, h]

theorem bind_error {p : EStateM ε σ α} {f : α → EStateM ε σ β} {s s' : σ} {e : ε}
    (h : p s = .error e s') : (p >>= f) s = .error e s' := by
  have hbind : (p >>= f) s = EStateM.bind p f s := rfl
  rw [hbind, EStateM.bind, h]

/-- What a run of two programs was made of. -/
theorem bind_eq_ok {p : EStateM ε σ α} {f : α → EStateM ε σ β} {s s' : σ} {b : β}
    (h : (p >>= f) s = .ok b s') : ∃ a s₁, p s = .ok a s₁ ∧ f a s₁ = .ok b s' := by
  cases hp : p s with
  | ok a s₁ =>
    rw [bind_ok hp] at h
    exact ⟨a, s₁, rfl, h⟩
  | error e s₁ =>
    rw [bind_error hp] at h
    cases h

end Pintos.Base
