import Mathlib.Data.List.Basic
import Mathlib.Tactic.Common

/-! # Flat memory

A memory assigns a value to every address, counted from the base of a buffer and
running on past its end. Reading and writing a range are described by the list of
values transferred, so a move between overlapping ranges is a write of a read.
-/

/-- The contents of memory, addressed from the base of a buffer. -/
abbrev Memory (α : Type*) := ℕ → α

namespace Memory

variable {α : Type*} {m m' : Memory α} {bs : List α} {p q n k : ℕ}

/-- The values stored in the range of the given length. -/
def read (m : Memory α) (p n : ℕ) : List α := (List.range n).map fun i => m (p + i)

/-- Store a list of values at consecutive addresses. -/
def write (m : Memory α) (p : ℕ) (bs : List α) : Memory α :=
  fun i => if p ≤ i then bs.getD (i - p) (m i) else m i

/-- Memory seen from a pointer into it. -/
def shift (m : Memory α) (p : ℕ) : Memory α := fun i => m (p + i)

@[simp] theorem shift_apply (i : ℕ) : m.shift p i = m (p + i) := rfl

@[simp] theorem read_shift : (m.shift p).read q n = m.read (p + q) n := by
  simp [read, Nat.add_assoc]

theorem shift_zero (m : Memory α) : m.shift 0 = m := by
  funext i
  rw [shift_apply, Nat.zero_add]

theorem shift_shift (m : Memory α) (p q : ℕ) : (m.shift p).shift q = m.shift (p + q) := by
  funext i
  rw [shift_apply, shift_apply, shift_apply, Nat.add_assoc]

@[simp] theorem length_read : (m.read p n).length = n := by simp [read]

@[simp] theorem read_zero : m.read p 0 = [] := rfl

theorem getElem_read (i : ℕ) (h : i < (m.read p n).length) : (m.read p n)[i] = m (p + i) := by
  simp [read]

theorem read_add (m : Memory α) (p n k : ℕ) :
    m.read p (n + k) = m.read p n ++ m.read (p + n) k := by
  simp [read, List.range_add, Nat.add_assoc]

theorem read_succ (m : Memory α) (p n : ℕ) : m.read p (n + 1) = m p :: m.read (p + 1) n := by
  rw [Nat.add_comm n 1, read_add]
  simp [read]

theorem read_congr (h : ∀ i, p ≤ i → i < p + n → m i = m' i) : m.read p n = m'.read p n := by
  apply List.map_congr_left
  intro i hi
  exact h _ (Nat.le_add_right _ _) (by simpa using hi)

theorem drop_read (m : Memory α) (p n k : ℕ) :
    (m.read p n).drop k = m.read (p + k) (n - k) := by
  rcases Nat.le_total k n with h | h
  · obtain ⟨r, rfl⟩ := Nat.exists_eq_add_of_le h
    rw [read_add, List.drop_left' length_read, Nat.add_sub_cancel_left]
  · rw [List.drop_of_length_le (by simpa using h), Nat.sub_eq_zero_of_le h, read_zero]

theorem read_isInfix (m : Memory α) (hp : p ≤ q) (hq : q + k ≤ p + n) :
    m.read q k <:+: m.read p n := by
  obtain ⟨i, rfl⟩ := Nat.exists_eq_add_of_le hp
  obtain ⟨j, rfl⟩ := Nat.exists_eq_add_of_le (show i + k ≤ n by omega)
  refine ⟨m.read p i, m.read (p + i + k) j, ?_⟩
  rw [read_add m p, read_add m p, Nat.add_assoc]

theorem take_read (m : Memory α) (p : ℕ) (h : k ≤ n) : (m.read p n).take k = m.read p k := by
  obtain ⟨r, rfl⟩ := Nat.exists_eq_add_of_le h
  rw [read_add, List.take_left' length_read]

theorem write_of_lt {i : ℕ} (h : i < p) : m.write p bs i = m i := by
  simp [write, Nat.not_le.mpr h]

theorem write_of_ge {i : ℕ} (h : p + bs.length ≤ i) : m.write p bs i = m i := by
  simp [write, show p ≤ i by omega, List.getElem?_eq_none (show bs.length ≤ i - p by omega)]

theorem write_of_outside {i : ℕ} (h : i < p ∨ p + bs.length ≤ i) : m.write p bs i = m i :=
  h.elim write_of_lt write_of_ge

theorem write_of_mem {i : ℕ} (h : i < bs.length) : m.write p bs (p + i) = bs[i] := by
  simp [write, h]

@[simp] theorem write_nil (m : Memory α) (p : ℕ) : m.write p [] = m := by
  funext i
  simp [write]

/-- Two writes of which the second begins where the first ends. -/
theorem write_write (m : Memory α) (p : ℕ) (as bs : List α) :
    (m.write p as).write (p + as.length) bs = m.write p (as ++ bs) := by
  funext i
  rcases Nat.lt_or_ge i (p + as.length) with hi | hi
  · rw [write_of_lt hi]
    rcases Nat.lt_or_ge i p with hp | hp
    · rw [write_of_lt hp, write_of_lt hp]
    · obtain ⟨j, rfl⟩ := Nat.exists_eq_add_of_le hp
      have hj : j < as.length := Nat.lt_of_add_lt_add_left hi
      rw [write_of_mem hj, write_of_mem (by rw [List.length_append]; omega),
        List.getElem_append_left hj]
  · obtain ⟨j, rfl⟩ := Nat.exists_eq_add_of_le hi
    rcases Nat.lt_or_ge j bs.length with hj | hj
    · rw [write_of_mem hj, Nat.add_assoc, write_of_mem (by rw [List.length_append]; omega),
        List.getElem_append_right (Nat.le_add_right _ _)]
      simp
    · rw [write_of_ge (by omega), write_of_ge (by omega),
        write_of_ge (by rw [List.length_append]; omega)]

/-- A range that is copied in two pieces. -/
theorem write_read_add (m m' : Memory α) (p n k : ℕ) :
    (m.write p (m'.read 0 n)).write (p + n) ((m'.shift n).read 0 k) =
      m.write p (m'.read 0 (n + k)) := by
  have hsnd := write_write m p (m'.read 0 n) ((m'.shift n).read 0 k)
  rw [length_read] at hsnd
  rw [hsnd, read_shift, Nat.add_zero, read_add, Nat.zero_add]

/-- What was just written does not depend on the contents before. -/
theorem write_congr {i : ℕ} (hp : p ≤ i) (hi : i < p + bs.length) :
    m.write p bs i = m'.write p bs i := by
  obtain ⟨j, rfl⟩ := Nat.exists_eq_add_of_le hp
  have hj : j < bs.length := Nat.lt_of_add_lt_add_left hi
  rw [write_of_mem hj, write_of_mem hj]

theorem read_write_self (m : Memory α) (p : ℕ) (h : bs.length = n) :
    (m.write p bs).read p n = bs := by
  apply List.ext_getElem (by simp [h])
  intro i _ hi
  rw [getElem_read, write_of_mem hi]

theorem read_write_before (h : p + n ≤ q) : (m.write q bs).read p n = m.read p n :=
  read_congr fun _ _ hi => write_of_lt (by omega)

theorem read_write_after (h : q + bs.length ≤ p) : (m.write q bs).read p n = m.read p n :=
  read_congr fun _ hi _ => write_of_ge (by omega)

/-- The range up to the end of the values just written. -/
theorem read_write_append (m : Memory α) (p : ℕ) (bs : List α) :
    (m.write p bs).read 0 (p + bs.length) = m.read 0 p ++ bs := by
  rw [read_add, Nat.zero_add, read_write_before (by omega),
    read_write_self _ _ rfl]

end Memory
