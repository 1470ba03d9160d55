import H264Cast.Library.Memory
import Mathlib.Data.List.TakeWhile

/-! # Strings in memory

A string begins at an address and ends in front of the first terminator. What is read of it
is bounded by the memory that may be accessed.
-/

namespace Memory

variable {α : Type*} [Zero α] [DecidableEq α] {m m' : Memory α} {p n k : ℕ} {s : List α}

/-- The string at an address, in a range of the given length. -/
def string (m : Memory α) (p n : ℕ) : List α := (m.read p n).takeWhile (· ≠ 0)

/-- The range has a terminator. -/
def Terminated (m : Memory α) (p n : ℕ) : Prop := 0 ∈ m.read p n

instance (m : Memory α) (p n : ℕ) : Decidable (Terminated m p n) :=
  inferInstanceAs (Decidable (_ ∈ _))

/-- Compare the string at an address with another one, character by character, until they
differ or both end. -/
def strEq (m : Memory α) : ℕ → List α → Bool
  | p, [] => m p = 0
  | p, c :: s => m p = c && strEq m (p + 1) s

theorem string_isPrefix (m : Memory α) (p n : ℕ) : m.string p n <+: m.read p n :=
  List.takeWhile_prefix _

theorem zero_notMem_string (m : Memory α) (p n : ℕ) : 0 ∉ m.string p n := by
  intro h
  simpa using List.mem_takeWhile_imp h

theorem Terminated.length_string_lt (hm : Terminated m p n) : (m.string p n).length < n := by
  have hfront := string_isPrefix m p n
  have hle := hfront.length_le
  rw [length_read] at hle
  refine Nat.lt_of_le_of_ne hle fun he => zero_notMem_string m p n ?_
  rwa [hfront.eq_of_length (by rw [length_read, he])]

omit [DecidableEq α] in
theorem terminated_of_eq_zero {i : ℕ} (hi : i < n) (hzero : m (p + i) = 0) : Terminated m p n := by
  rw [Terminated, List.mem_iff_getElem]
  exact ⟨i, by rwa [length_read], by rw [getElem_read, hzero]⟩

omit [DecidableEq α] in
theorem terminated_congr (h : ∀ i, p ≤ i → i < p + n → m i = m' i) :
    Terminated m p n ↔ Terminated m' p n := by
  rw [Terminated, Terminated, read_congr h]

omit [DecidableEq α] in
theorem terminated_add : Terminated m p (n + k) ↔ Terminated m p n ∨ Terminated m (p + n) k := by
  rw [Terminated, read_add, List.mem_append]
  rfl

/-- A string that ends in the first part of a range ends there in the whole range. -/
theorem Terminated.string_add (hm : Terminated m p n) : m.string p (n + k) = m.string p n := by
  induction n generalizing p with
  | zero => cases hm
  | succ n ih =>
    rw [string, string, Nat.add_right_comm, read_succ, read_succ]
    by_cases hp : m p = 0
    · rw [List.takeWhile_cons_of_neg (by simpa using hp),
        List.takeWhile_cons_of_neg (by simpa using hp)]
    · rw [Terminated, read_succ] at hm
      have htail : Terminated m (p + 1) n := (List.mem_cons.mp hm).resolve_left (Ne.symm hp)
      rw [List.takeWhile_cons_of_pos (by simpa using hp),
        List.takeWhile_cons_of_pos (by simpa using hp)]
      exact congrArg (m p :: ·) (ih htail)

theorem string_isPrefix_add (m : Memory α) (p n k : ℕ) : m.string p n <+: m.string p (n + k) := by
  rw [string, string, read_add, List.takeWhile_append]
  split_ifs with hall
  · rw [(List.takeWhile_prefix _).eq_of_length hall]
    exact List.prefix_append _ _
  · exact List.prefix_refl _

/-- There are no zeros in front of the end of a string. -/
theorem ne_zero_of_lt_string {i : ℕ} (hi : i < (m.string p n).length) : m (p + i) ≠ 0 := by
  have hmem : m (p + i) ∈ m.string p n := by
    have hlen := (string_isPrefix m p n).length_le
    have heq := (string_isPrefix m p n).getElem hi
    rw [getElem_read i (by omega)] at heq
    exact heq ▸ List.getElem_mem hi
  exact fun hzero => zero_notMem_string m p n (hzero ▸ hmem)

/-- Comparing stays in front of the terminator and tells whether the strings are equal. -/
theorem strEq_iff (hm : Terminated m p n) (hs : 0 ∉ s) :
    strEq m p s = true ↔ m.string p n = s := by
  induction n generalizing p s with
  | zero => cases hm
  | succ n ih =>
    rw [Terminated, read_succ] at hm
    rw [string, read_succ]
    by_cases hp : m p = 0
    · cases s with
      | nil => simp [strEq, hp]
      | cons c s =>
        have hc : c ≠ 0 := fun he => hs (he ▸ List.mem_cons_self)
        simp [strEq, hp, hc.symm]
    · have htail : Terminated m (p + 1) n := (List.mem_cons.mp hm).resolve_left (Ne.symm hp)
      cases s with
      | nil => simp [strEq, hp]
      | cons c s =>
        have hih := ih htail (s := s) fun hmem => hs (List.mem_cons_of_mem _ hmem)
        rw [string] at hih
        simp [strEq, hp, hih]

/-- A string that was just copied, with its terminator. -/
theorem string_write (m : Memory α) (p : ℕ) (hs : 0 ∉ s) (hn : s.length < n) :
    (m.write p (s ++ [0])).string p n = s ∧ Terminated (m.write p (s ++ [0])) p n := by
  obtain ⟨r, rfl⟩ := Nat.exists_eq_add_of_lt hn
  have hlen : (s ++ [0]).length = s.length + 1 := by simp
  have hread : (m.write p (s ++ [0])).read p (s.length + r + 1) =
      s ++ 0 :: (m.write p (s ++ [0])).read (p + (s.length + 1)) r := by
    rw [Nat.add_right_comm, read_add, read_write_self m p hlen, List.append_assoc,
      List.singleton_append]
  have hall : ∀ c ∈ s, decide (c ≠ 0) = true := fun c hc => by
    simpa using fun he : c = 0 => hs (he ▸ hc)
  constructor
  · rw [string, hread, List.takeWhile_append_of_pos hall]
    simp
  · rw [Terminated, hread]
    simp

end Memory
