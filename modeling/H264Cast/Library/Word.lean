import H264Cast.Library.Memory

/-! # Integers in memory

Values wider than a byte are stored from their lowest byte on.
-/

namespace Memory

variable {w : ℕ} {m m' : Memory (BitVec 8)} {p q n i : ℕ} {v : BitVec 32} {bs : List (BitVec 8)}

/-- The lowest bytes of a value. -/
def wordBytes (n : ℕ) (v : BitVec w) : List (BitVec 8) :=
  (List.range n).map fun i => v.extractLsb' (8 * i) 8

def loadInt (m : Memory (BitVec 8)) (p : ℕ) : BitVec 32 :=
  m (p + 3) ++ m (p + 2) ++ m (p + 1) ++ m p

def storeInt (m : Memory (BitVec 8)) (p : ℕ) (v : BitVec 32) : Memory (BitVec 8) :=
  m.write p (wordBytes 4 v)

/-- Fill a range with zeros. -/
def clear (m : Memory (BitVec 8)) (p n : ℕ) : Memory (BitVec 8) :=
  m.write p (List.replicate n 0)

@[simp] theorem length_wordBytes (n : ℕ) (v : BitVec w) : (wordBytes n v).length = n := by
  simp [wordBytes]

theorem loadInt_congr (h : ∀ i, p ≤ i → i < p + 4 → m i = m' i) :
    m.loadInt p = m'.loadInt p := by
  rw [loadInt, loadInt, h p (by omega) (by omega), h (p + 1) (by omega) (by omega),
    h (p + 2) (by omega) (by omega), h (p + 3) (by omega) (by omega)]

theorem loadInt_write_before (h : p + 4 ≤ q) : (m.write q bs).loadInt p = m.loadInt p :=
  loadInt_congr fun _ _ hi => write_of_lt (by omega)

theorem loadInt_write_after (h : q + bs.length ≤ p) : (m.write q bs).loadInt p = m.loadInt p :=
  loadInt_congr fun _ hi _ => write_of_ge (by omega)

/-- A field of a record is not changed by a write to the fields behind it. -/
theorem loadInt_field_before {base : ℕ} (h : p + 4 ≤ q) :
    (m.write (base + q) bs).loadInt (base + p) = m.loadInt (base + p) :=
  loadInt_write_before (by omega)

/-- A field of a record is not changed by a write to the fields in front of it. -/
theorem loadInt_field_after {base : ℕ} (hn : bs.length = n) (h : q + n ≤ p) :
    (m.write (base + q) bs).loadInt (base + p) = m.loadInt (base + p) :=
  loadInt_write_after (by omega)

theorem loadInt_storeInt (m : Memory (BitVec 8)) (p : ℕ) (v : BitVec 32) :
    (m.storeInt p v).loadInt p = v := by
  have hbyte : ∀ i < 4, m.storeInt p v (p + i) = v.extractLsb' (8 * i) 8 := by
    intro i hi
    have hlt : i < (wordBytes 4 v).length := by simpa using hi
    rw [storeInt, write_of_mem hlt]
    simp [wordBytes]
  have hfirst := hbyte 0 (by omega)
  rw [Nat.add_zero] at hfirst
  rw [loadInt, hfirst, hbyte 1 (by omega), hbyte 2 (by omega), hbyte 3 (by omega)]
  ext i hi
  simp only [BitVec.getElem_append, BitVec.getElem_extractLsb']
  split_ifs
  · rw [Nat.mul_zero, Nat.zero_add]
    exact BitVec.getLsbD_eq_getElem hi
  · rw [show 8 * 1 + (i - 8) = i by omega]
    exact BitVec.getLsbD_eq_getElem hi
  · rw [show 8 * 2 + (i - 8 - 8) = i by omega]
    exact BitVec.getLsbD_eq_getElem hi
  · rw [show 8 * 3 + (i - 8 - 8 - 8) = i by omega]
    exact BitVec.getLsbD_eq_getElem hi

/-- The second byte of an integer. -/
theorem apply_of_loadInt (m : Memory (BitVec 8)) (p : ℕ) :
    m (p + 1) = (m.loadInt p).extractLsb' 8 8 := by
  ext i hi
  change (m (p + 1))[i] =
    ((m (p + 3) ++ m (p + 2) ++ m (p + 1) ++ m p).extractLsb' 8 8)[i]
  rw [BitVec.getElem_extractLsb', BitVec.getLsbD_append, if_neg (by omega),
    BitVec.getLsbD_append, if_pos (by omega), Nat.add_sub_cancel_left]
  exact (BitVec.getLsbD_eq_getElem hi).symm

theorem loadInt_of_zero (h : ∀ i < 4, m (p + i) = 0) : m.loadInt p = 0 := by
  have hfirst := h 0 (by omega)
  rw [Nat.add_zero] at hfirst
  rw [loadInt, hfirst, h 1 (by omega), h 2 (by omega), h 3 (by omega)]
  rfl

theorem clear_of_mem (h : i < n) : m.clear p n (p + i) = 0 := by
  rw [clear, write_of_mem (by simpa using h), List.getElem_replicate]

theorem read_clear {k : ℕ} (h : i + k ≤ n) :
    (m.clear p n).read (p + i) k = List.replicate k 0 := by
  apply List.ext_getElem (by simp)
  intro j hj _
  rw [length_read] at hj
  rw [getElem_read, List.getElem_replicate, Nat.add_assoc, clear_of_mem (by omega)]

end Memory
