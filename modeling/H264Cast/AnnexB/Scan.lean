import H264Cast.AnnexB.Split
import H264Cast.Library.Probe

/-! # Bytes inspected by the scan

The scan for a start code with every access to the buffer written out. It looks at four
bytes from each place on and stops at the first that does not fit. The split loop goes on
from the first start code, but counts the length from the front of the buffer.
-/

namespace H264Cast

namespace Inspect

/-- Compare a byte of the buffer. -/
def byteEq (i : ℕ) (b : Byte) : Probe Byte Bool := do return (← Probe.load i) = b

/-- The test made by the scan at one position. -/
def startCodeAt (i : ℕ) : Probe Byte Bool :=
  byteEq i 0x00 <&&> byteEq (i + 1) 0x00 <&&> byteEq (i + 2) 0x00 <&&> byteEq (i + 3) 0x01

def findNalStartCode (p nReadLen : ℕ) : Probe Byte (Option ℕ) :=
  if nReadLen < 4 then pure none
  else Probe.find? startCodeAt (List.range' p (nReadLen - 4))

variable {buff : Memory Byte} {p n i j : ℕ} {b : Byte}

@[simp] theorem run_byteEq : (byteEq i b).run buff = decide (buff i = b) := rfl

@[simp] theorem inspected_byteEq : (byteEq i b).inspected buff = [i] := rfl

theorem run_startCodeAt : (startCodeAt i).run buff = decide (StartCodeAt buff i) := by
  rw [Bool.eq_iff_iff, decide_eq_true_iff]
  simp only [startCodeAt, Probe.run_andM, run_byteEq, Bool.and_eq_true, decide_eq_true_iff,
    StartCodeAt]

/-- The test goes on to a byte when those before it are zero. -/
theorem mem_inspected_startCodeAt :
    j ∈ (startCodeAt i).inspected buff ↔
      i ≤ j ∧ j < i + 4 ∧ ∀ k, i ≤ k → k < j → buff k = 0x00 := by
  have hmem : j ∈ (startCodeAt i).inspected buff ↔
      j = i ∨ buff i = 0x00 ∧ (j = i + 1 ∨ buff (i + 1) = 0x00 ∧
        (j = i + 2 ∨ buff (i + 2) = 0x00 ∧ j = i + 3)) := by
    simp only [startCodeAt, Probe.inspected_andM, inspected_byteEq, run_byteEq,
      decide_eq_true_iff, List.singleton_append, List.mem_cons]
    split_ifs <;> simp only [*, List.mem_cons, List.not_mem_nil, or_false, true_and, false_and]
  rw [hmem]
  constructor
  · rintro (rfl | ⟨h₀, rfl | ⟨h₁, rfl | ⟨h₂, rfl⟩⟩⟩)
    · exact ⟨Nat.le_refl _, by omega, fun k _ _ => by omega⟩
    · refine ⟨by omega, by omega, fun k _ _ => ?_⟩
      obtain rfl : k = i := by omega
      exact h₀
    · refine ⟨by omega, by omega, fun k _ _ => ?_⟩
      obtain rfl | rfl : k = i ∨ k = i + 1 := by omega
      · exact h₀
      · exact h₁
    · refine ⟨by omega, by omega, fun k _ _ => ?_⟩
      obtain rfl | rfl | rfl : k = i ∨ k = i + 1 ∨ k = i + 2 := by omega
      · exact h₀
      · exact h₁
      · exact h₂
  · rintro ⟨hi, hj, hzero⟩
    obtain rfl | rfl | rfl | rfl : j = i ∨ j = i + 1 ∨ j = i + 2 ∨ j = i + 3 := by omega
    · exact Or.inl rfl
    · exact Or.inr ⟨hzero i (by omega) (by omega), Or.inl rfl⟩
    · exact Or.inr ⟨hzero i (by omega) (by omega), Or.inr ⟨hzero _ (by omega) (by omega),
        Or.inl rfl⟩⟩
    · exact Or.inr ⟨hzero i (by omega) (by omega), Or.inr ⟨hzero _ (by omega) (by omega),
        Or.inr ⟨hzero _ (by omega) (by omega), rfl⟩⟩⟩

/-- The scan with its accesses written out is the scan. -/
theorem run_findNalStartCode :
    (findNalStartCode p n).run buff = H264Cast.findNalStartCode buff p n := by
  unfold findNalStartCode H264Cast.findNalStartCode
  split_ifs with hn
  · rfl
  · simp only [Probe.run_find?, run_startCodeAt]

/-- The places tested are those up to the first start code. -/
theorem mem_inspected_findNalStartCode :
    j ∈ (findNalStartCode p n).inspected buff ↔
      ∃ i, p ≤ i ∧ i + 4 < p + n ∧ (∀ q, p ≤ q → q < i → ¬ StartCodeAt buff q) ∧
        j ∈ (startCodeAt i).inspected buff := by
  unfold findNalStartCode
  split_ifs with hn
  · simp only [Probe.inspected_pure, List.not_mem_nil, false_iff]
    rintro ⟨i, hp, hi, -⟩
    omega
  · rw [Probe.mem_inspected_find?]
    constructor
    · rintro ⟨front, i, back, heq, hfront, hj⟩
      obtain ⟨k, hk, rfl, hback⟩ := List.range'_eq_append_iff.mp heq
      obtain ⟨rfl, hpos, -⟩ := List.range'_eq_cons_iff.mp hback.symm
      rw [Nat.mul_one] at hj
      refine ⟨p + k, Nat.le_add_right _ _, by omega, fun q hp hq => ?_, hj⟩
      simpa [run_startCodeAt] using hfront q (List.mem_range'_1.mpr ⟨hp, hq⟩)
    · rintro ⟨i, hp, hi, hnone, hj⟩
      have hrange : List.range' p (n - 4) =
          List.range' p (i - p) ++ i :: List.range' (i + 1) (p + n - i - 5) := by
        refine List.range'_eq_append_iff.mpr ⟨i - p, by omega, rfl, ?_⟩
        refine (List.range'_eq_cons_iff.mpr ⟨by omega, by omega, ?_⟩).symm
        congr 1
        omega
      refine ⟨_, i, _, hrange, fun q hq => ?_, hj⟩
      obtain ⟨hlo, hhi⟩ := List.mem_range'_1.mp hq
      simpa [run_startCodeAt] using hnone q hlo (by omega)

end Inspect

end H264Cast
