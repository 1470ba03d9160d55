import H264Cast.Library.Memory

/-! # Bounded queues in a ring of slots

A list as a queue of bounded capacity, and its representation in a ring: the elements
lie in consecutive slots from a start on, with positions taken modulo the number of
slots.
-/

variable {α : Type*}

namespace Fifo

/-- Append an element unless the queue is full. -/
def push (cap : ℕ) (x : α) (xs : List α) : Option (List α) :=
  if xs.length < cap then some (xs ++ [x]) else none

/-- Take the oldest element. -/
def pop : List α → Option (α × List α)
  | [] => none
  | x :: xs => some (x, xs)

end Fifo

namespace Ring

/-- The slots of a ring hold the elements from a start on. -/
structure Holds (slots : Memory α) (cap start : ℕ) (xs : List α) : Prop where
  length_le : xs.length ≤ cap
  apply : ∀ i (h : i < xs.length), slots ((start + i) % cap) = xs[i]

variable {slots slots' : Memory α} {cap start start' i n : ℕ} {x : α} {xs : List α}

/-- One revolution at most: an offset leads on, or once around. -/
theorem add_mod_cases (start : ℕ) (h : n ≤ cap) (hcap : 0 < cap) :
    start % cap + n < cap ∧ (start + n) % cap = start % cap + n ∨
      cap ≤ start % cap + n ∧ (start + n) % cap + cap = start % cap + n := by
  have hlt := Nat.mod_lt start hcap
  rw [← Nat.mod_add_mod]
  rcases Nat.lt_or_ge (start % cap + n) cap with hn | hn
  · exact Or.inl ⟨hn, Nat.mod_eq_of_lt hn⟩
  · refine Or.inr ⟨hn, ?_⟩
    rw [Nat.mod_eq_sub_mod hn, Nat.mod_eq_of_lt (by omega)]
    omega

/-- Positions less than one revolution apart are different. -/
theorem mod_ne (hi : i < n) (hn : n < cap) : (start + i) % cap ≠ (start + n) % cap := by
  have hcap : 0 < cap := Nat.lt_of_le_of_lt (Nat.zero_le n) hn
  rcases add_mod_cases start (Nat.le_of_lt (Nat.lt_trans hi hn)) hcap with h | h <;>
    rcases add_mod_cases start (Nat.le_of_lt hn) hcap with h' | h' <;> omega

theorem holds_nil (slots : Memory α) (cap start : ℕ) : Holds slots cap start [] :=
  ⟨Nat.zero_le _, fun _ h => (Nat.not_lt_zero _ h).elim⟩

/-- Only the position of the start in the ring matters. -/
theorem Holds.congr_start (h : Holds slots cap start xs) (hs : start % cap = start' % cap) :
    Holds slots cap start' xs where
  length_le := h.length_le
  apply i hi := by
    rw [← h.apply i hi, ← Nat.mod_add_mod start, hs, Nat.mod_add_mod]

/-- Storing an element in the slot behind the last one, and in no other, appends it. -/
theorem Holds.push (h : Holds slots cap start xs) (hlt : xs.length < cap)
    (hslot : slots' ((start + xs.length) % cap) = x)
    (hother : ∀ j, j < cap → j ≠ (start + xs.length) % cap → slots' j = slots j) :
    Holds slots' cap start (xs ++ [x]) where
  length_le := by
    rw [List.length_append, List.length_singleton]
    exact hlt
  apply i hi := by
    rcases Nat.lt_or_ge i xs.length with hi' | hi'
    · rw [List.getElem_append_left hi', ← h.apply i hi']
      exact hother _ (Nat.mod_lt _ (by omega)) (mod_ne hi' hlt)
    · rw [List.length_append, List.length_singleton] at hi
      obtain rfl : i = xs.length := by omega
      simpa using hslot

/-- The oldest element is in the first slot. -/
theorem Holds.head (h : Holds slots cap start (x :: xs)) : slots (start % cap) = x :=
  h.apply 0 (Nat.zero_lt_succ _)

theorem Holds.tail (h : Holds slots cap start (x :: xs)) : Holds slots cap (start + 1) xs where
  length_le := Nat.le_of_succ_le h.length_le
  apply i hi := by
    rw [Nat.add_assoc, Nat.add_comm 1 i]
    exact h.apply (i + 1) (Nat.succ_lt_succ hi)

theorem Holds.of_append {ys : List α} (h : Holds slots cap start (xs ++ ys)) :
    Holds slots cap start xs where
  length_le := by
    have hle := h.length_le
    rw [List.length_append] at hle
    omega
  apply i hi := by
    rw [h.apply i (by rw [List.length_append]; omega), List.getElem_append_left hi]

/-- Reading the slots from the start on. -/
theorem Holds.map_range (h : Holds slots cap start xs) (hn : n = xs.length) :
    (List.range n).map (fun i => slots ((start + i) % cap)) = xs := by
  subst hn
  apply List.ext_getElem
  · simp
  · intro i _ hi
    simpa using h.apply i hi

end Ring
