import H264Cast.Sample.FileSender

/-! # Splitting a stream

The function that reads a NAL is called again and again on one file. Between start codes of
three and of four bytes it gives back every NAL as it is. On other streams it counts the zeros
in front of a byte modulo four: after three of them it takes any byte for the end of a start
code but returns at `01` only, and after four it has forgotten them.
-/

namespace H264Cast.Splitter

open FileSender

/-- The loop: the value returned, the variables, and the rest of the file. -/
def readNal : List Byte → Scan → ℤ × Scan × List Byte
  | [], c => (-1, c, [])
  | b :: fp, c =>
    match stepByte c b with
    | (true, c) => (c.len, c, fp)
    | (false, c) => readNal fp c

/-- Read up to the next start code, with a buffer that has no end. -/
def copyNalFromFile (tmpbuf : Memory Byte) (fp : List Byte) (buf : Memory Byte) :
    ℤ × Scan × List Byte :=
  readNal fp ⟨0, tmpbuf, 0, buf⟩

/-- A call: the value returned, the bytes put into the buffer, and the rest of the file. -/
structure Call where
  ret : ℤ
  out : List Byte
  rest : List Byte

/-- The bytes put into the buffer. -/
def output (c : Scan) : List Byte := c.buf.read 0 c.len

/-- The first calls. Each of them finds something else in `tmpbuf`. -/
def calls (tmpbuf : ℕ → Memory Byte) : ℕ → List Byte → Memory Byte → List Call
  | 0, _, _ => []
  | k + 1, fp, buf =>
    let r := copyNalFromFile (tmpbuf 0) fp buf
    ⟨r.1, output r.2.1, r.2.2⟩ :: calls (fun i => tmpbuf (i + 1)) k r.2.2 r.2.1.buf

variable {c c' : Scan} {b : Byte} {fp front bs rest : List Byte} {tmpbuf : ℕ → Memory Byte}
  {buf : Memory Byte} {z : ℕ}

theorem push_of_put (h : c.put b = some c') : c.push b = c' := by
  unfold Scan.put at h
  split_ifs at h
  exact Option.some.inj h

/-- Where the bounded automaton goes on, the buffer without an end makes no difference. -/
theorem stepByte_of_scanByte {r : Bool × Scan} (h : scanByte c b = some r) : stepByte c b = r := by
  unfold scanByte at h
  unfold stepByte
  by_cases hflag : c.flag = 0
  · rw [if_pos hflag] at h ⊢
    split_ifs at h ⊢ with hb
    · obtain ⟨c₁, h₁, rfl⟩ := Option.map_eq_some_iff.mp h
      rw [push_of_put h₁]
    · exact Option.some.inj h
  · rw [if_neg hflag] at h ⊢
    split at h
    next hone =>
      split_ifs at h ⊢ with hb
      · exact Option.some.inj h
      · obtain ⟨c₁, h₁, h⟩ := Option.bind_eq_some_iff.mp h
        obtain ⟨c₂, h₂, h⟩ := Option.bind_eq_some_iff.mp h
        rw [push_of_put h₁, push_of_put h₂]
        exact Option.some.inj h
    next htwo =>
      split_ifs at h ⊢ with hb hb'
      · exact Option.some.inj h
      · exact Option.some.inj h
      · obtain ⟨c₁, h₁, h⟩ := Option.bind_eq_some_iff.mp h
        obtain ⟨c₂, h₂, h⟩ := Option.bind_eq_some_iff.mp h
        obtain ⟨c₃, h₃, h⟩ := Option.bind_eq_some_iff.mp h
        have htmp : c₁.tmpbuf = c.tmpbuf := by rw [← push_of_put h₁]; rfl
        rw [push_of_put h₁, ← htmp, push_of_put h₂, push_of_put h₃]
        exact Option.some.inj h
    next => exact Option.some.inj h
    next => exact Option.some.inj h

theorem readNal_of_scan {r : ℤ × Scan × List Byte} (h : scan fp c = some r) : readNal fp c = r := by
  induction fp generalizing c with
  | nil => exact Option.some.inj h
  | cons b fp ih =>
    rw [scan] at h
    rw [readNal]
    split at h
    · cases h
    next c₁ hstep =>
      rw [stepByte_of_scanByte hstep]
      exact Option.some.inj h
    next c₁ hstep =>
      rw [stepByte_of_scanByte hstep]
      exact ih h

/-- The bounded function agrees with this one as long as the buffer is not full. -/
theorem copyNalFromFile_of_bounded {tmpbuf : Memory Byte} {r : ℤ × Scan × List Byte}
    (h : FileSender.copyNalFromFile tmpbuf fp buf = some r) : copyNalFromFile tmpbuf fp buf = r :=
  readNal_of_scan h

/-! ## Conforming streams -/

/-- A start code of three or of four bytes. -/
def separator (short : Bool) : List Byte := if short then [0x00, 0x00, 0x01] else startCode

/-- A NAL with the kind of the start code behind it. -/
structure Item where
  nal : Nal
  short : Bool

/-- The bytes of the stream behind its first start code. -/
def body (items : List Item) : List Byte :=
  items.flatMap fun item => item.nal.bytes ++ separator item.short

end H264Cast.Splitter
