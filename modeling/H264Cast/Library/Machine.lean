import Mathlib.Tactic.Common

/-! # Machines

A machine answers each input with an output and a new state. A partial machine may also
leave its defined behaviour, and then there is no answer. A partial machine whose steps
match those of a total one has an answer on every run, and gives the same outputs.
-/

variable {σ τ ι ω : Type*}

/-- The outputs of a run. -/
def outputs (step : σ → ι → ω × σ) : σ → List ι → List ω
  | _, [] => []
  | s, i :: is => (step s i).1 :: outputs step (step s i).2 is

/-- The state after a run. -/
def final (step : σ → ι → ω × σ) : σ → List ι → σ
  | s, [] => s
  | s, i :: is => final step (step s i).2 is

/-- A run of a partial machine: its outputs and its last state. -/
def run (step : σ → ι → Option (ω × σ)) : σ → List ι → Option (List ω × σ)
  | s, [] => some ([], s)
  | s, i :: is =>
    (step s i).bind fun (out, s') => (run step s' is).map fun (outs, s') => (out :: outs, s')

theorem outputs_cons {step : σ → ι → ω × σ} {s : σ} {i : ι} {is : List ι} :
    outputs step s (i :: is) = (step s i).1 :: outputs step (step s i).2 is := rfl

theorem outputs_append (step : σ → ι → ω × σ) (s : σ) (is js : List ι) :
    outputs step s (is ++ js) = outputs step s is ++ outputs step (final step s is) js := by
  induction is generalizing s with
  | nil => rfl
  | cons i is ih => exact congrArg ((step s i).1 :: ·) (ih _)

theorem final_append (step : σ → ι → ω × σ) (s : σ) (is js : List ι) :
    final step s (is ++ js) = final step (final step s is) js := by
  induction is generalizing s with
  | nil => rfl
  | cons i is ih => exact ih _

/-- A partial machine that matches a total one step by step under a relation matches it on
every run. -/
theorem run_of_simulation {step : σ → ι → Option (ω × σ)} {step' : τ → ι → ω × τ}
    {R : σ → τ → Prop}
    (hstep : ∀ s t i, R s t → ∃ s', step s i = some ((step' t i).1, s') ∧ R s' (step' t i).2)
    {s : σ} {t : τ} (h : R s t) (is : List ι) :
    ∃ s', run step s is = some (outputs step' t is, s') ∧ R s' (final step' t is) := by
  induction is generalizing s t with
  | nil => exact ⟨s, rfl, h⟩
  | cons i is ih =>
    obtain ⟨s₁, hs₁, h₁⟩ := hstep s t i h
    obtain ⟨s', hs', h'⟩ := ih h₁
    refine ⟨s', ?_, h'⟩
    simp only [run, hs₁, hs', Option.bind_some, Option.map_some, outputs]

/-- The inputs of a run are admitted in the states in which they come. -/
def Admitted (step : σ → ι → Option (ω × σ)) (G : σ → ι → Prop) : σ → List ι → Prop
  | _, [] => True
  | s, i :: is => G s i ∧ ∀ out s', step s i = some (out, s') → Admitted step G s' is

theorem Admitted.cons {step : σ → ι → Option (ω × σ)} {G : σ → ι → Prop} {s s' : σ} {i : ι}
    {is : List ι} {out : ω} (hs : step s i = some (out, s')) (hi : G s i)
    (his : Admitted step G s' is) : Admitted step G s (i :: is) := by
  refine ⟨hi, fun out₁ s₁ hs₁ => ?_⟩
  obtain ⟨rfl, rfl⟩ := Prod.mk.inj (Option.some.inj (hs.symm.trans hs₁))
  exact his

/-- The inputs of a run are enabled in the states of a total machine in which they come. -/
def Enabled (step : τ → ι → ω × τ) (E : τ → ι → Prop) : τ → List ι → Prop
  | _, [] => True
  | t, i :: is => E t i ∧ Enabled step E (step t i).2 is

theorem Enabled.mono {step : τ → ι → ω × τ} {E E' : τ → ι → Prop} (hE : ∀ t i, E t i → E' t i)
    {t : τ} {is : List ι} (h : Enabled step E t is) : Enabled step E' t is := by
  induction is generalizing t with
  | nil => exact trivial
  | cons i is ih => exact ⟨hE t i h.1, ih h.2⟩

section Admitted

variable {step : σ → ι → Option (ω × σ)} {step' : τ → ι → ω × τ} {G : σ → ι → Prop}
  {E : τ → ι → Prop} {R : σ → τ → Prop} {s : σ} {t : τ} {is : List ι}

/-- A partial machine that matches a total one on the inputs admitted and enabled. -/
theorem run_of_enabled
    (hstep : ∀ s t i, R s t → G s i → E t i →
      ∃ s', step s i = some ((step' t i).1, s') ∧ R s' (step' t i).2)
    (h : R s t) (hG : Admitted step G s is) (hE : Enabled step' E t is) :
    ∃ s', run step s is = some (outputs step' t is, s') ∧ R s' (final step' t is) := by
  induction is generalizing s t with
  | nil => exact ⟨s, rfl, h⟩
  | cons i is ih =>
    obtain ⟨hi, his⟩ := hG
    obtain ⟨s₁, hs₁, h₁⟩ := hstep s t i h hi hE.1
    obtain ⟨s', hs', h'⟩ := ih h₁ (his _ _ hs₁) hE.2
    refine ⟨s', ?_, h'⟩
    simp only [run, hs₁, hs', Option.bind_some, Option.map_some, outputs]

/-- If it has no answer to the inputs that are not enabled, a run that contains one stops. -/
theorem run_eq_none
    (hstep : ∀ s t i, R s t → G s i → E t i →
      ∃ s', step s i = some ((step' t i).1, s') ∧ R s' (step' t i).2)
    (hstop : ∀ s t i, R s t → ¬ E t i → step s i = none)
    (h : R s t) (hG : Admitted step G s is) (hE : ¬ Enabled step' E t is) :
    run step s is = none := by
  induction is generalizing s t with
  | nil => exact absurd trivial hE
  | cons i is ih =>
    by_cases hi : E t i
    · obtain ⟨s₁, hs₁, h₁⟩ := hstep s t i h hG.1 hi
      have hrun := ih h₁ (hG.2 _ _ hs₁) fun his => hE ⟨hi, his⟩
      simp only [run, hs₁, hrun, Option.bind_some, Option.map_none]
    · simp only [run, hstop s t i h hi, Option.bind_none]

/-- A partial machine that matches a total one on the inputs admitted. -/
theorem run_of_admitted
    (hstep : ∀ s t i, R s t → G s i →
      ∃ s', step s i = some ((step' t i).1, s') ∧ R s' (step' t i).2)
    (h : R s t) (hG : Admitted step G s is) :
    ∃ s', run step s is = some (outputs step' t is, s') ∧ R s' (final step' t is) := by
  have hE : ∀ (is : List ι) (t : τ), Enabled step' (fun _ _ => True) t is := by
    intro is
    induction is with
    | nil => exact fun _ => trivial
    | cons i is ih => exact fun t => ⟨trivial, ih _⟩
  exact run_of_enabled (fun s t i hR hi _ => hstep s t i hR hi) h hG (hE is t)

end Admitted
