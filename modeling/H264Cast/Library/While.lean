import Mathlib.Tactic.Common

/-! # Loops

The body of a loop goes on with a new state or leaves the loop with a result, or it has no
answer and the loop stops there. A loop may also go on for ever, so that it ends with a result
is a relation, which has at most one result.
-/

namespace While

variable {σ ρ : Type*} {body : σ → Option (σ ⊕ ρ)} {s s' : σ} {r r' : ρ} {P : σ → Prop}
  {Q : ρ → Prop}

/-- The loop ends with a result. -/
inductive Ends (body : σ → Option (σ ⊕ ρ)) : σ → ρ → Prop
  | leave {s : σ} {r : ρ} : body s = some (.inr r) → Ends body s r
  | again {s s' : σ} {r : ρ} : body s = some (.inl s') → Ends body s' r → Ends body s r

theorem Ends.unique (h : Ends body s r) (h' : Ends body s r') : r = r' := by
  induction h with
  | leave hb =>
    cases h' with
    | leave hb' => exact Sum.inr.inj (Option.some.inj (hb.symm.trans hb'))
    | again hb' => cases hb.symm.trans hb'
  | again hb _ ih =>
    cases h' with
    | leave hb' => cases hb.symm.trans hb'
    | again hb' h' =>
      obtain rfl := Sum.inl.inj (Option.some.inj (hb.symm.trans hb'))
      exact ih h'

/-- An invariant of the loop gives what holds at its end, if there is one. -/
theorem Ends.invariant (h : Ends body s r) (hs : P s)
    (hagain : ∀ s s', P s → body s = some (.inl s') → P s')
    (hleave : ∀ s r, P s → body s = some (.inr r) → Q r) : Q r := by
  induction h with
  | leave hb => exact hleave _ _ hs hb
  | again hb _ ih => exact ih (hagain _ _ hs hb)

/-- A loop with an invariant and a measure that decreases ends. -/
theorem exists_ends (μ : σ → ℕ) (hs : P s)
    (hbody : ∀ s, P s → (∃ r, body s = some (.inr r) ∧ Q r) ∨
      ∃ s', body s = some (.inl s') ∧ P s' ∧ μ s' < μ s) : ∃ r, Ends body s r ∧ Q r := by
  induction s using (measure μ).wf.induction with
  | _ s ih =>
    rcases hbody s hs with ⟨r, hleave, hr⟩ | ⟨s', hagain, hs', hlt⟩
    · exact ⟨r, .leave hleave, hr⟩
    · obtain ⟨r, hends, hr⟩ := ih s' hlt hs'
      exact ⟨r, .again hagain hends, hr⟩

end While
