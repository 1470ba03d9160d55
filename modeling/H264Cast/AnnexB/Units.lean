import H264Cast.AnnexB.StartCode

/-! # Units of a byte stream

A stream in Annex B form is a concatenation of units, each a start code and a NAL.
A NAL never looks like a start code and does not end in a zero byte, so no start
code begins inside a unit, whatever bytes follow the unit in memory.
-/

namespace H264Cast

/-- The five low bits of a NAL header byte. -/
def nalType (b : Byte) : BitVec 5 := b.extractLsb' 0 5

/-- A NAL that can stand between two start codes. -/
structure Nal where
  bytes : List Byte
  ne_nil : bytes ≠ []
  no_zeros : ¬ [0x00, 0x00, 0x00] <:+: bytes
  no_startCode : ¬ [0x00, 0x00, 0x01] <:+: bytes
  last_ne_zero : bytes.getLast ne_nil ≠ 0x00

namespace Nal

/-- The type of a NAL, read from its first byte. -/
def unitType (v : Nal) : BitVec 5 := nalType (v.bytes.head v.ne_nil)

/-- A NAL behind its start code. -/
def unit (v : Nal) : List Byte := startCode ++ v.bytes

/-- A slice of one byte. -/
def slice : Nal where
  bytes := [0x65]
  ne_nil := by decide
  no_zeros := by decide
  no_startCode := by decide
  last_ne_zero := by decide

/-- A sequence parameter set of one byte. -/
def sps : Nal where
  bytes := [0x67]
  ne_nil := by decide
  no_zeros := by decide
  no_startCode := by decide
  last_ne_zero := by decide

end Nal

/-- The bytes of a sequence of units. -/
def stream (vs : List Nal) : List Byte := vs.flatMap Nal.unit

variable {v : Nal} {vs ws : List Nal} {m : Memory Byte} {p q n : ℕ}

@[simp] theorem stream_nil : stream [] = [] := rfl
@[simp] theorem stream_cons : stream (v :: vs) = v.unit ++ stream vs := by simp [stream]
@[simp] theorem stream_append : stream (vs ++ ws) = stream vs ++ stream ws := by simp [stream]

namespace Nal

@[simp] theorem length_unit : v.unit.length = v.bytes.length + 4 := by
  rw [unit, List.length_append, Nat.add_comm]
  rfl

theorem length_pos (v : Nal) : 0 < v.bytes.length := List.length_pos_iff.mpr v.ne_nil

theorem startCode_isPrefix (v : Nal) : startCode <+: v.unit := List.prefix_append _ _

/-- The last byte of a NAL stored in memory. -/
theorem apply_last (h : m.read p v.bytes.length = v.bytes) :
    m (p + (v.bytes.length - 1)) ≠ 0x00 := by
  have hl := v.last_ne_zero
  have hpos := v.length_pos
  have he : v.bytes.getLast v.ne_nil = m (p + (v.bytes.length - 1)) := by
    rw [List.getLast_eq_getElem, List.getElem_of_eq h.symm, Memory.getElem_read]
  rwa [he] at hl

theorem not_zeros_of_read (h : m.read p v.bytes.length = v.bytes) (hp : p ≤ q)
    (hq : q + 3 ≤ p + v.bytes.length) : ¬ (m q = 0x00 ∧ m (q + 1) = 0x00 ∧ m (q + 2) = 0x00) := by
  rintro ⟨h₀, h₁, h₂⟩
  apply v.no_zeros
  have hr : m.read q 3 = [0x00, 0x00, 0x00] := by
    simp [Memory.read, List.range_succ, h₀, h₁, h₂]
  have hs : v.bytes.length = (q - p) + (3 + (p + v.bytes.length - q - 3)) := by omega
  refine ⟨m.read p (q - p), m.read (q + 3) (p + v.bytes.length - q - 3), ?_⟩
  rw [← hr, List.append_assoc, ← Memory.read_add]
  conv_rhs => rw [← h, hs, Memory.read_add, Nat.add_sub_cancel' hp]

/-- No start code begins inside a NAL. -/
theorem not_startCodeAt_bytes (h : m.read p v.bytes.length = v.bytes) (hp : p ≤ q)
    (hq : q < p + v.bytes.length) : ¬ StartCodeAt m q := by
  intro hs
  by_cases hin : q + 3 ≤ p + v.bytes.length
  · exact not_zeros_of_read h hp hin ⟨hs.1, hs.2.1, hs.2.2.1⟩
  · have hlast := apply_last h
    have hcases : p + (v.bytes.length - 1) = q ∨ p + (v.bytes.length - 1) = q + 1 := by omega
    rcases hcases with he | he
    · exact hlast (he ▸ hs.1)
    · exact hlast (he ▸ hs.2.1)

theorem read_bytes (h : m.read p v.unit.length = v.unit) :
    m.read (p + 4) v.bytes.length = v.bytes := by
  have hd := congrArg (List.drop 4) h
  rw [Memory.drop_read, length_unit, Nat.add_sub_cancel] at hd
  exact hd

theorem startCodeAt_unit (h : m.read p v.unit.length = v.unit) : StartCodeAt m p := by
  rw [startCodeAt_iff_read, ← Memory.take_read m p (show 4 ≤ v.unit.length by simp), h]
  rfl

/-- The only start code that begins in a unit is its own. -/
theorem not_startCodeAt_unit (h : m.read p v.unit.length = v.unit) (hp : p < q)
    (hq : q < p + v.unit.length) : ¬ StartCodeAt m q := by
  intro hs
  have hd := (startCodeAt_unit h).disjoint hs hp
  exact not_startCodeAt_bytes (read_bytes h) hd (by simp at hq; omega) hs

/-- The header byte of a NAL stored behind its start code. -/
theorem apply_header (h : m.read p v.unit.length = v.unit) :
    m (p + 4) = v.bytes.head v.ne_nil := by
  have hb := read_bytes h
  obtain ⟨n, hn⟩ := Nat.exists_eq_add_of_lt v.length_pos
  rw [hn, Memory.read_succ] at hb
  simp only [← hb, List.head_cons]

/-- The scan from the front of a unit finds the unit behind it. -/
theorem findNalStartCode_next (h : m.read p v.unit.length = v.unit)
    (hs : StartCodeAt m (p + v.unit.length)) (hn : v.unit.length < n) :
    findNalStartCode m (p + 4) n = some (p + v.unit.length) := by
  have hlen : v.unit.length = v.bytes.length + 4 := v.length_unit
  refine findNalStartCode_eq_some.mpr ⟨by omega, by omega, hs, ?_⟩
  exact fun q hq hlt => not_startCodeAt_unit h (by omega) hlt

/-- The scan from the front of a unit stops at its end. -/
theorem findNalStartCode_last (h : m.read p v.unit.length = v.unit) (hn : n ≤ v.unit.length) :
    findNalStartCode m (p + 4) n = none :=
  findNalStartCode_eq_none.mpr fun q hq hlt => not_startCodeAt_unit h (by omega) (by omega)

end Nal

/-- The units are stored in memory one after another. -/
def Stored (m : Memory Byte) (p : ℕ) (vs : List Nal) : Prop :=
  m.read p (stream vs).length = stream vs

theorem stored_append :
    Stored m p (vs ++ ws) ↔ Stored m p vs ∧ Stored m (p + (stream vs).length) ws := by
  unfold Stored
  rw [stream_append, List.length_append, Memory.read_add]
  constructor
  · exact fun h => List.append_inj h (by simp)
  · rintro ⟨h, h'⟩
    rw [h, h']

theorem stored_cons :
    Stored m p (v :: vs) ↔ m.read p v.unit.length = v.unit ∧ Stored m (p + v.unit.length) vs := by
  have h : Stored m p ([v] ++ vs) ↔ _ := stored_append
  simpa [Stored] using h

theorem Stored.startCodeAt (h : Stored m p vs) (hn : vs ≠ []) : StartCodeAt m p := by
  cases vs with
  | nil => exact (hn rfl).elim
  | cons v vs => exact Nal.startCodeAt_unit (stored_cons.mp h).1

end H264Cast
