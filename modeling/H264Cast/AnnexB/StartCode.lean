import H264Cast.Library.Memory

/-! # Start codes

The scan for the four-byte start code `00 00 00 01`. The clients, the servers and
the file parser each carry the same copy of it. Its loop stops four bytes before
the end of the given length, so a start code is seen only when one more byte of
that length follows it.
-/

namespace H264Cast

/-- An octet, as a vector of bits. -/
abbrev Byte := BitVec 8

/-- The four-byte start code. -/
def startCode : List Byte := [0x00, 0x00, 0x00, 0x01]

/-- The test made by the scan at one position. -/
def StartCodeAt (buff : Memory Byte) (i : ℕ) : Prop :=
  buff i = 0x00 ∧ buff (i + 1) = 0x00 ∧ buff (i + 2) = 0x00 ∧ buff (i + 3) = 0x01

instance (buff : Memory Byte) (i : ℕ) : Decidable (StartCodeAt buff i) :=
  inferInstanceAs (Decidable (_ ∧ _ ∧ _ ∧ _))

/-- The first start code at or after `p` in a stretch of the given length. -/
def findNalStartCode (buff : Memory Byte) (p nReadLen : ℕ) : Option ℕ :=
  if nReadLen < 4 then none
  else (List.range' p (nReadLen - 4)).find? fun i => decide (StartCodeAt buff i)

variable {buff buff' : Memory Byte} {p q e n k : ℕ}

theorem findNalStartCode_eq_some :
    findNalStartCode buff p n = some e ↔
      p ≤ e ∧ e + 4 < p + n ∧ StartCodeAt buff e ∧ ∀ q, p ≤ q → q < e → ¬ StartCodeAt buff q := by
  unfold findNalStartCode
  split_ifs with hn
  · simp only [false_iff]
    omega
  · simp only [List.find?_range'_eq_some, decide_eq_true_eq, List.mem_range'_1,
      Bool.not_eq_true', decide_eq_false_iff_not]
    constructor
    · rintro ⟨hs, ⟨hp, he⟩, hq⟩
      exact ⟨hp, by omega, hs, hq⟩
    · rintro ⟨hp, he, hs, hq⟩
      exact ⟨hs, ⟨hp, by omega⟩, hq⟩

theorem findNalStartCode_eq_none :
    findNalStartCode buff p n = none ↔ ∀ q, p ≤ q → q + 4 < p + n → ¬ StartCodeAt buff q := by
  unfold findNalStartCode
  split_ifs with hn
  · simp only [true_iff]
    omega
  · simp only [List.find?_range'_eq_none, Bool.not_eq_true', decide_eq_false_iff_not]
    constructor
    · exact fun h q hp hq => h q hp (by omega)
    · exact fun h q hp hq => h q hp (by omega)

/-- The scan is decided by the bytes it may look at. -/
theorem findNalStartCode_congr
    (h : ∀ q, p ≤ q → q + 4 < p + n → (StartCodeAt buff q ↔ StartCodeAt buff' q)) :
    findNalStartCode buff p n = findNalStartCode buff' p n := by
  cases hf : findNalStartCode buff' p n with
  | none =>
    rw [findNalStartCode_eq_none] at hf ⊢
    exact fun q hp hq => (h q hp hq).not.mpr (hf q hp hq)
  | some e =>
    rw [findNalStartCode_eq_some] at hf ⊢
    obtain ⟨hp, he, hs, hq⟩ := hf
    exact ⟨hp, he, (h e hp he).mpr hs, fun q hq' hlt => (h q hq' (by omega)).not.mpr (hq q hq' hlt)⟩

theorem startCodeAt_congr (h : ∀ i, p ≤ i → i < p + 4 → buff i = buff' i) :
    StartCodeAt buff p ↔ StartCodeAt buff' p := by
  simp only [StartCodeAt, h p (by omega) (by omega), h (p + 1) (by omega) (by omega),
    h (p + 2) (by omega) (by omega), h (p + 3) (by omega) (by omega)]

theorem startCodeAt_iff_read : StartCodeAt buff p ↔ buff.read p 4 = startCode := by
  simp [StartCodeAt, startCode, Memory.read, List.range_succ]

/-- Two start codes do not overlap. -/
theorem StartCodeAt.disjoint (hp : StartCodeAt buff p) (hq : StartCodeAt buff q) (h : p < q) :
    p + 4 ≤ q := by
  by_contra hlt
  have hone := hp.2.2.2
  have hcases : q = p + 1 ∨ q = p + 2 ∨ q = p + 3 := by omega
  rcases hcases with rfl | rfl | rfl
  · exact absurd (hone.symm.trans hq.2.2.1) (by decide)
  · exact absurd (hone.symm.trans hq.2.1) (by decide)
  · exact absurd (hone.symm.trans hq.1) (by decide)

/-- The scan from less than four bytes before a start code finds it. -/
theorem findNalStartCode_of_lt (hs : StartCodeAt buff e) (hp : p ≤ e) (hlt : e < p + 4)
    (hn : e + 4 < p + n) : findNalStartCode buff p n = some e := by
  refine findNalStartCode_eq_some.mpr ⟨hp, hn, hs, fun q hq hqe hs' => ?_⟩
  have hle := hs'.disjoint hs hqe
  omega

theorem findNalStartCode_self (hs : StartCodeAt buff p) (hn : 4 < n) :
    findNalStartCode buff p n = some p :=
  findNalStartCode_of_lt hs (Nat.le_refl _) (by omega) (by omega)

/-- A byte other than zero written over a start code leaves none at this place. -/
theorem StartCodeAt.not_startCodeAt_write {b : Byte} (hp : StartCodeAt buff 0)
    (hnext : ∀ q, 4 ≤ q → ¬ StartCodeAt buff q) (hb : b ≠ 0x00) :
    ¬ StartCodeAt (buff.write 0 [b]) q := by
  intro hs
  rcases Nat.eq_zero_or_pos q with rfl | hq
  · exact hb hs.1
  · have hold : StartCodeAt buff q := (startCodeAt_congr fun i hi _ =>
      Memory.write_of_ge (by rw [List.length_singleton]; omega)).mp hs
    exact hnext q (by have := hp.disjoint hold hq; omega) hold

end H264Cast
