import H264Cast.Library.Memory

/-! # Memory accesses

A computation that inspects the cells of a memory one by one and ends with a result. It
has a result and a list of inspected cells on every memory; both are the same on two
memories that agree on the cells inspected.
-/

universe u v

/-- A computation that inspects cells of a memory. -/
inductive Probe (α : Type u) (β : Type v)
  | done (b : β)
  | peek (i : ℕ) (k : α → Probe α β)

namespace Probe

variable {α : Type u} {β γ : Type v}

/-- Go on with the result of a computation. -/
def bind : Probe α β → (β → Probe α γ) → Probe α γ
  | done b, f => f b
  | peek i k, f => peek i fun a => (k a).bind f

instance : Monad (Probe α) where
  pure := done
  bind := bind

/-- The result on a memory. -/
def run : Probe α β → Memory α → β
  | done b, _ => b
  | peek i k, m => (k (m i)).run m

/-- The cells inspected on a memory, in the order of inspection. -/
def inspected : Probe α β → Memory α → List ℕ
  | done _, _ => []
  | peek i k, m => i :: (k (m i)).inspected m

/-- Inspect one cell. -/
def load (i : ℕ) : Probe α α := peek i done

/-- Inspect the cells of a range. -/
def loads (p : ℕ) : ℕ → Probe α (List α)
  | 0 => pure []
  | n + 1 => peek p fun a => (loads (p + 1) n).bind fun as => pure (a :: as)

/-- The first index that passes a test. -/
def find? (test : ℕ → Probe α Bool) : List ℕ → Probe α (Option ℕ)
  | [] => pure none
  | i :: is => (test i).bind fun b => if b then pure (some i) else find? test is

variable {x : Probe α β} {f : β → Probe α γ} {m m' : Memory α} {i p n : ℕ} {is : List ℕ}
  {test : ℕ → Probe α Bool}

@[simp] theorem bind_eq : x >>= f = x.bind f := rfl
@[simp] theorem run_pure (b : β) : (pure b : Probe α β).run m = b := rfl
@[simp] theorem inspected_pure (b : β) : (pure b : Probe α β).inspected m = [] := rfl
@[simp] theorem run_load : (load i).run m = m i := by rw [load, run, run]
@[simp] theorem inspected_load : (load i).inspected m = [i] := rfl

@[simp] theorem run_bind : (x.bind f).run m = (f (x.run m)).run m := by
  induction x with
  | done b => rfl
  | peek i k ih => exact ih (m i)

@[simp] theorem inspected_bind :
    (x.bind f).inspected m = x.inspected m ++ (f (x.run m)).inspected m := by
  induction x with
  | done b => rfl
  | peek i k ih => exact congrArg (i :: ·) (ih (m i))

@[simp] theorem run_ite {c : Prop} [Decidable c] {y : Probe α β} :
    (if c then x else y).run m = if c then x.run m else y.run m := by
  split_ifs <;> rfl

@[simp] theorem inspected_ite {c : Prop} [Decidable c] {y : Probe α β} :
    (if c then x else y).inspected m = if c then x.inspected m else y.inspected m := by
  split_ifs <;> rfl

@[simp] theorem run_andM {x y : Probe α Bool} :
    (x <&&> y).run m = (x.run m && y.run m) := by
  change (x.bind _).run m = _
  rw [run_bind]
  cases x.run m <;> rfl

/-- The second test is made only when the first one passes. -/
@[simp] theorem inspected_andM {x y : Probe α Bool} :
    (x <&&> y).inspected m = x.inspected m ++ if x.run m then y.inspected m else [] := by
  change (x.bind _).inspected m = _
  rw [inspected_bind]
  cases x.run m <;> rfl

/-- The result and the cells inspected depend on the cells inspected alone. -/
theorem congr (h : ∀ i ∈ x.inspected m, m i = m' i) :
    x.run m = x.run m' ∧ x.inspected m = x.inspected m' := by
  induction x with
  | done b => exact ⟨rfl, rfl⟩
  | peek i k ih =>
    have hi : m i = m' i := h i List.mem_cons_self
    obtain ⟨hrun, hins⟩ := ih (m i) fun j hj => h j (List.mem_cons_of_mem _ hj)
    rw [hi] at hrun hins
    constructor
    · simpa only [run, hi] using hrun
    · simp only [inspected, hi, hins]

@[simp] theorem run_loads : (loads p n).run m = m.read p n := by
  induction n generalizing p with
  | zero => rfl
  | succ n ih => rw [loads, run, run_bind, ih, run_pure, Memory.read_succ]

@[simp] theorem inspected_loads : (loads p n).inspected m = List.range' p n := by
  induction n generalizing p with
  | zero => rfl
  | succ n ih =>
    rw [loads, inspected, inspected_bind, ih, inspected_pure, List.append_nil, List.range'_succ]

theorem run_find? : (find? test is).run m = is.find? fun i => (test i).run m := by
  induction is with
  | nil => rfl
  | cons i is ih =>
    rw [find?, run_bind, run_ite, run_pure, ih, List.find?_cons]
    cases (test i).run m <;> rfl

/-- Every index before the first that passes is tested, and that one too. -/
theorem mem_inspected_find? :
    i ∈ (find? test is).inspected m ↔ ∃ front j back, is = front ++ j :: back ∧
      (∀ q ∈ front, (test q).run m = false) ∧ i ∈ (test j).inspected m := by
  induction is with
  | nil => simp [find?]
  | cons k is ih =>
    rw [find?, inspected_bind, inspected_ite, inspected_pure, List.mem_append]
    constructor
    · rintro (h | h)
      · exact ⟨[], k, is, rfl, by simp, h⟩
      · split_ifs at h with hk
        · simp at h
        · obtain ⟨front, j, back, rfl, hfront, hj⟩ := ih.mp h
          refine ⟨k :: front, j, back, rfl, ?_, hj⟩
          simpa [hk] using hfront
    · rintro ⟨front, j, back, heq, hfront, hj⟩
      cases front with
      | nil =>
        obtain ⟨rfl, rfl⟩ := List.cons_eq_cons.mp heq
        exact Or.inl hj
      | cons q front =>
        obtain ⟨rfl, rfl⟩ := List.cons_eq_cons.mp heq
        rw [hfront k List.mem_cons_self]
        exact Or.inr (ih.mpr ⟨front, j, back, rfl,
          fun q hq => hfront q (List.mem_cons_of_mem _ hq), hj⟩)

end Probe
