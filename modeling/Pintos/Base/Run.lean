/-
  Pintos.Base.Run

  Labelled transition systems given by a partial step function: a step is
  chosen by its label, and a label that is not enabled has no successor.

  `Reaches ok s` are the states reached by runs all of whose steps meet the
  condition `ok`, read in the state before the step; `Reachable s` puts no
  condition on the steps.  The invariant rule is stated once for both, and
  `run` replays a list of labels so that a concrete run can be evaluated.
-/

import Mathlib

namespace Pintos.Base

/-- A transition system: initial states and a partial step function. -/
structure System (σ : Type) (α : Type) where
  start : σ → Prop
  next : σ → α → Option σ

namespace System

variable {σ α : Type} (S : System σ α)

/-- States reached by runs all of whose steps meet `ok`. -/
inductive Reaches (ok : σ → α → Prop) : σ → Prop
  | start {s : σ} (h : S.start s) : Reaches ok s
  | step {s s' : σ} {a : α} (hs : Reaches ok s) (hok : ok s a)
      (hn : S.next s a = some s') : Reaches ok s'

/-- States reached by any run. -/
def Reachable (s : σ) : Prop := S.Reaches (fun _ _ => True) s

variable {S}

/-- The invariant rule: what holds at the start and is kept by every step that
    meets the condition holds in every state reached. -/
theorem Reaches.invariant {ok : σ → α → Prop} {I : σ → Prop} (hstart : ∀ s, S.start s → I s)
    (hstep : ∀ s a s', I s → ok s a → S.next s a = some s' → I s')
    {s : σ} (h : S.Reaches ok s) : I s := by
  induction h with
  | start h => exact hstart _ h
  | step _ hok hn ih => exact hstep _ _ _ ih hok hn

/-- The invariant rule for unconditioned runs. -/
theorem Reachable.invariant {I : σ → Prop} (hstart : ∀ s, S.start s → I s)
    (hstep : ∀ s a s', I s → S.next s a = some s' → I s')
    {s : σ} (h : S.Reachable s) : I s :=
  Reaches.invariant hstart (fun s a s' hs _ hn => hstep s a s' hs hn) h

/-- A run under a condition is a run. -/
theorem Reaches.reachable {ok : σ → α → Prop} {s : σ} (h : S.Reaches ok s) :
    S.Reachable s := by
  induction h with
  | start h => exact Reaches.start h
  | step _ _ hn ih => exact Reaches.step ih trivial hn

/-- A run under a condition is a run under every condition that is weaker in
    the states it passes through. -/
theorem Reaches.mono {ok ok' : σ → α → Prop} (himp : ∀ s a, S.Reaches ok s → ok s a → ok' s a)
    {s : σ} (h : S.Reaches ok s) : S.Reaches ok' s := by
  induction h with
  | start h => exact Reaches.start h
  | step hs hok hn ih => exact Reaches.step ih (himp _ _ hs hok) hn

variable (S)

/-- Replays a list of labels, as long as every step meets `ok`. -/
def run (ok : σ → α → Prop) [∀ s a, Decidable (ok s a)] : σ → List α → Option σ
  | s, [] => some s
  | s, a :: rest => if ok s a then (S.next s a).bind fun s' => run ok s' rest else none

variable {S}

/-- Where a replay ends is reached. -/
theorem Reaches.run {ok : σ → α → Prop} [∀ s a, Decidable (ok s a)] {s s' : σ} {l : List α}
    (hs : S.Reaches ok s) (h : S.run ok s l = some s') : S.Reaches ok s' := by
  induction l generalizing s with
  | nil =>
    simp only [System.run, Option.some.injEq] at h
    exact h ▸ hs
  | cons a rest ih =>
    simp only [System.run] at h
    split at h
    · rename_i hok
      obtain ⟨s₁, hn, h⟩ := Option.bind_eq_some_iff.mp h
      exact ih (Reaches.step hs hok hn) h
    · cases h

/-- A replay whose last state satisfies a test reaches such a state. -/
theorem reaches_of_run (ok : σ → α → Prop) [∀ s a, Decidable (ok s a)] {s : σ} (hs : S.start s)
    {l : List α} {p : σ → Bool} (h : (S.run ok s l).any p = true) :
    ∃ s', S.Reaches ok s' ∧ p s' = true := by
  obtain ⟨s', hr, hp⟩ := (Option.any_eq_true _ _).mp h
  exact ⟨s', Reaches.run (Reaches.start hs) hr, hp⟩

/-- A replay without a condition. -/
theorem reachable_of_run {s : σ} (hs : S.start s) {l : List α} {p : σ → Bool}
    (h : (S.run (fun _ _ => True) s l).any p = true) : ∃ s', S.Reachable s' ∧ p s' = true :=
  reaches_of_run (fun _ _ => True) hs h

end System

end Pintos.Base
