import Mathlib.Algebra.BigOperators.Group.List.Basic
import Mathlib.Algebra.Ring.Nat

/-! # Reading from messages

A reader that wants a number of elements takes messages until it has them. What the last of
them has too much is lost, so that several readers get everything exactly when each of them
stops between two messages.
-/

namespace Messages

variable {α β : Type*} {ms front back rest : List (List α)} {xs : List α} {n k : ℕ} {ns : List ℕ}

/-- The place is between two messages. -/
def Boundary (ms : List (List α)) (k : ℕ) : Prop :=
  ∃ front back, ms = front ++ back ∧ front.flatten.length = k

/-- Messages are taken until there are enough elements. -/
def collect : ℕ → List (List α) → Option (List α × List (List α))
  | 0, ms => some ([], ms)
  | _ + 1, [] => none
  | n + 1, m :: ms =>
    (collect (n + 1 - m.length) ms).map fun r => (m.take (n + 1) ++ r.1, r.2)

@[simp] theorem collect_zero (ms : List (List α)) : collect 0 ms = some ([], ms) := by
  cases ms <;> rfl

theorem boundary_zero (ms : List (List α)) : Boundary ms 0 := ⟨[], ms, rfl, rfl⟩

theorem boundary_length (ms : List (List α)) : Boundary ms ms.flatten.length :=
  ⟨ms, [], (List.append_nil ms).symm, rfl⟩

theorem boundary_concat (m : List α) : Boundary (ms ++ [m]) k ↔
    Boundary ms k ∨ k = (ms ++ [m]).flatten.length := by
  constructor
  · rintro ⟨front, back, heq, rfl⟩
    rcases List.eq_nil_or_concat back with rfl | ⟨back, m', rfl⟩
    · exact Or.inr (by rw [heq, List.append_nil])
    · rw [List.concat_eq_append, ← List.append_assoc] at heq
      exact Or.inl ⟨front, back, (List.append_inj' heq rfl).1, rfl⟩
  · rintro (⟨front, back, rfl, rfl⟩ | rfl)
    · exact ⟨front, back ++ [m], List.append_assoc .., rfl⟩
    · exact boundary_length _

/-- The places behind a boundary. -/
theorem Boundary.append_iff (front rest : List (List α)) (k : ℕ) :
    Boundary (front ++ rest) (front.flatten.length + k) ↔ Boundary rest k := by
  constructor
  · rintro ⟨front', back, heq, hlen⟩
    rcases List.append_eq_append_iff.mp heq with ⟨mid, rfl, rfl⟩ | ⟨mid, rfl, rfl⟩
    · rw [List.flatten_append, List.length_append] at hlen
      exact ⟨mid, back, rfl, Nat.add_left_cancel hlen⟩
    · rw [List.flatten_append, List.length_append] at hlen
      obtain rfl : k = 0 := by omega
      exact boundary_zero rest
  · rintro ⟨mid, back, rfl, rfl⟩
    exact ⟨front ++ mid, back, (List.append_assoc ..).symm, by
      rw [List.flatten_append, List.length_append]⟩

/-! ### One reader -/

theorem collect_isSome : (collect n ms).isSome ↔ n ≤ ms.flatten.length := by
  induction ms generalizing n with
  | nil => cases n <;> simp [collect]
  | cons m ms ih =>
    cases n with
    | zero => simp
    | succ n =>
      rw [collect, Option.isSome_map, ih, List.flatten_cons, List.length_append]
      omega

/-- A reader gets the first elements, from the least number of messages that have them. -/
theorem exists_of_collect (h : collect n ms = some (xs, rest)) :
    ∃ front, ms = front ++ rest ∧ xs = front.flatten.take n ∧ n ≤ front.flatten.length ∧
      (Boundary ms n ↔ front.flatten.length = n) := by
  induction ms generalizing n xs with
  | nil =>
    cases n with
    | zero =>
      obtain ⟨rfl, rfl⟩ := Prod.mk.inj (Option.some.inj h)
      exact ⟨[], rfl, rfl, Nat.le_refl _, iff_of_true (boundary_zero _) rfl⟩
    | succ n => cases h
  | cons m ms ih =>
    cases n with
    | zero =>
      obtain ⟨rfl, rfl⟩ := Prod.mk.inj (Option.some.inj h)
      exact ⟨[], rfl, rfl, Nat.le_refl _, iff_of_true (boundary_zero _) rfl⟩
    | succ n =>
      rw [collect, Option.map_eq_some_iff] at h
      obtain ⟨⟨ys, rest'⟩, hys, heq⟩ := h
      obtain ⟨rfl, rfl⟩ := Prod.mk.inj heq
      obtain ⟨front, rfl, rfl, hle, hiff⟩ := ih hys
      refine ⟨m :: front, rfl, ?_, ?_, ?_⟩
      · rw [List.flatten_cons, List.take_append]
      · rw [List.flatten_cons, List.length_append]
        omega
      · rw [List.flatten_cons, List.length_append]
        rcases Nat.lt_or_ge (n + 1) m.length with hlt | hge
        · refine iff_of_false ?_ (by omega)
          rintro ⟨first, back, heq, hlen⟩
          cases first with
          | nil => cases hlen
          | cons m' first =>
            obtain ⟨rfl, -⟩ := List.cons_eq_cons.mp heq
            rw [List.flatten_cons, List.length_append] at hlen
            omega
        · have hplace := Boundary.append_iff [m] (front ++ rest') (n + 1 - m.length)
          rw [List.flatten_singleton, Nat.add_sub_cancel' hge, List.singleton_append] at hplace
          rw [hplace, hiff]
          omega

/-! ### Several readers -/

end Messages
