import H264Cast.AnnexB.Scan
import Mathlib.Order.Bounds.Basic

/-! # The first start code

The start codes that fit in the first bytes of a buffer, and the one that the scan returns.
The loop leaves out the last place where a start code fits, so one that ends the buffer is
missed, although the length is then long enough for the guard.
-/

namespace H264Cast

/-- The places of the start codes in the first `n` bytes. -/
def startCodes (buff : Memory Byte) (n : ℕ) : Set ℕ := {i | i + 4 ≤ n ∧ StartCodeAt buff i}

/-- The scan returns the first start code or finds that there is none, and looks only at the
first `n` bytes. -/
structure FindsFirst (buff : Memory Byte) (n : ℕ) : Prop where
  some_iff : ∀ i, findNalStartCode buff 0 n = some i ↔ IsLeast (startCodes buff n) i
  none_iff : findNalStartCode buff 0 n = none ↔ startCodes buff n = ∅
  inside : ∀ i ∈ (Inspect.findNalStartCode 0 n).inspected buff, i < n

/-- No start code ends the buffer without another one in front of it. -/
def LastHasEarlier (buff : Memory Byte) (n : ℕ) : Prop :=
  ∀ i, i + 4 = n → StartCodeAt buff i → ∃ j < i, StartCodeAt buff j

variable {buff : Memory Byte} {n i : ℕ}

/-- The bytes that the scan looks at are those of a window that does not end the buffer. -/
theorem lt_of_mem_inspected (h : i ∈ (Inspect.findNalStartCode 0 n).inspected buff) : i < n := by
  obtain ⟨j, -, hj, -, hi⟩ := Inspect.mem_inspected_findNalStartCode.mp h
  obtain ⟨-, hlt, -⟩ := Inspect.mem_inspected_startCodeAt.mp hi
  omega

/-- The place returned is the least one, whether or not the last place has a start code. -/
theorem isLeast_of_findNalStartCode (h : findNalStartCode buff 0 n = some i) :
    IsLeast (startCodes buff n) i := by
  obtain ⟨-, hi, hs, hfirst⟩ := findNalStartCode_eq_some.mp h
  refine ⟨⟨by omega, hs⟩, fun j ⟨_, hj⟩ => ?_⟩
  by_contra hlt
  exact hfirst j (Nat.zero_le j) (Nat.lt_of_not_le hlt) hj

/-- The least start code is returned when it does not end the buffer. -/
theorem findNalStartCode_of_isLeast (h : IsLeast (startCodes buff n) i) (hi : i + 4 < n) :
    findNalStartCode buff 0 n = some i := by
  obtain ⟨⟨-, hs⟩, hleast⟩ := h
  refine findNalStartCode_eq_some.mpr ⟨Nat.zero_le i, by omega, hs, fun j _ hlt hj => ?_⟩
  exact absurd (hleast ⟨by omega, hj⟩) (Nat.not_le_of_lt hlt)

theorem LastHasEarlier.lt_of_isLeast (hlast : LastHasEarlier buff n)
    (h : IsLeast (startCodes buff n) i) : i + 4 < n := by
  obtain ⟨⟨hi, hs⟩, hleast⟩ := h
  refine Nat.lt_of_le_of_ne hi fun heq => ?_
  obtain ⟨j, hlt, hj⟩ := hlast i heq hs
  exact absurd (hleast ⟨by omega, hj⟩) (Nat.not_le_of_lt hlt)

theorem LastHasEarlier.startCodes_eq_empty (hlast : LastHasEarlier buff n)
    (h : findNalStartCode buff 0 n = none) : startCodes buff n = ∅ := by
  have hnone := findNalStartCode_eq_none.mp h
  refine Set.eq_empty_of_forall_notMem fun i ⟨hi, hs⟩ => ?_
  rcases Nat.lt_or_eq_of_le hi with hlt | heq
  · exact hnone i (Nat.zero_le i) (by omega) hs
  · obtain ⟨j, hlt, hj⟩ := hlast i heq hs
    exact hnone j (Nat.zero_le j) (by omega) hj

/-- The scan finds the first start code exactly when no start code ends the buffer without
another one in front of it. -/
theorem findsFirst_iff : FindsFirst buff n ↔ LastHasEarlier buff n := by
  constructor
  · rintro h i rfl hs
    by_contra hnone
    have hleast : IsLeast (startCodes buff (i + 4)) i := by
      refine ⟨⟨Nat.le_refl _, hs⟩, fun j ⟨_, hj⟩ => ?_⟩
      by_contra hlt
      exact hnone ⟨j, Nat.lt_of_not_le hlt, hj⟩
    obtain ⟨-, hlt, -⟩ := findNalStartCode_eq_some.mp ((h.some_iff i).mpr hleast)
    omega
  · intro hlast
    constructor
    · exact fun i => ⟨isLeast_of_findNalStartCode,
        fun h => findNalStartCode_of_isLeast h (hlast.lt_of_isLeast h)⟩
    · refine ⟨hlast.startCodes_eq_empty, fun hempty => ?_⟩
      refine Option.eq_none_iff_forall_ne_some.mpr fun i hi => ?_
      have hmem := (isLeast_of_findNalStartCode hi).1
      rw [hempty] at hmem
      exact hmem
    · exact fun i => lt_of_mem_inspected

/-- Four bytes that are a start code. -/
theorem not_findsFirst_four : ¬ ∀ (buff : Memory Byte) (n : ℕ), FindsFirst buff n := by
  intro hall
  have h := (hall (Memory.write (fun _ => 0xFF) 0 startCode) 4).some_iff 0
  have hmem : IsLeast (startCodes (Memory.write (fun _ => 0xFF) 0 startCode) 4) 0 :=
    ⟨⟨by decide, by decide⟩, fun j _ => Nat.zero_le j⟩
  exact absurd (h.mpr hmem) (by decide)

end H264Cast
