import H264Cast.Sample.Splitter

/-! # Runs of zeros

A stream as the bytes other than zero, each with the number of zeros right in front of it. The
function knows that number modulo four only. Reading to the end of the file therefore gives
back all bytes exactly when no number of zeros is mistaken for a smaller one.
-/

namespace H264Cast.Splitter

open FileSender

/-- A byte that is not zero, the number of zeros right in front of it, and what is behind it. -/
structure Run where
  zeros : ℕ
  byte : Byte
  rest : List Byte

/-- The bytes that are not zero, when some zeros come in front. -/
def runs : ℕ → List Byte → List Run
  | _, [] => []
  | z, b :: bs => if b = 0x00 then runs (z + 1) bs else ⟨z, b, bs⟩ :: runs 0 bs

namespace Run

/-- The byte ends a start code. -/
def EndsCode (r : Run) : Prop := r.byte = 0x01 ∧ 2 ≤ r.zeros

/-- The automaton returns at the byte. -/
def Returns (r : Run) : Prop := r.byte = 0x01 ∧ (r.zeros % 4 = 2 ∨ r.zeros % 4 = 3)

/-- The automaton puts the byte into the buffer. -/
def Emitted (r : Run) : Prop := r.zeros % 4 ≠ 3 ∧ ¬ r.Returns

instance (r : Run) : Decidable r.EndsCode := inferInstanceAs (Decidable (_ ∧ _))
instance (r : Run) : Decidable r.Returns := inferInstanceAs (Decidable (_ ∧ _))
instance (r : Run) : Decidable r.Emitted := inferInstanceAs (Decidable (_ ∧ _))

/-- The number of zeros is taken for what it is: a `01` that ends a start code has two or three
in front of it modulo four, and another byte does not have three. -/
def Regular (r : Run) : Prop :=
  if r.byte = 0x01 then r.zeros < 2 ∨ r.zeros % 4 = 2 ∨ r.zeros % 4 = 3 else r.zeros % 4 ≠ 3

end Run

/-- The bytes of a stream that are not zero, without those that end a start code. -/
def payload (fp : List Byte) : List Byte :=
  ((runs 0 fp).filter fun r => ¬ r.EndsCode).map Run.byte

variable {c c' : Scan} {b : Byte} {fp front bs rest : List Byte} {tmpbuf : ℕ → Memory Byte}
  {buf : Memory Byte} {z : ℕ} {r : Run} {rs : List Run}

/-! ## Start codes among the runs -/

/-- The bytes that are not zero. -/
def nonzero (bs : List Byte) : List Byte := bs.filter (· ≠ 0x00)

/-- The bytes put into the buffer at the given runs. -/
def emitted (rs : List Run) : List Byte := (rs.filter fun r => r.Emitted).map Run.byte

/-- What is left of the stream at every run where the automaton returns. -/
def returned (rs : List Run) : List (List Byte) := (rs.filter fun r => r.Returns).map Run.rest

theorem emitted_append (rs rs' : List Run) : emitted (rs ++ rs') = emitted rs ++ emitted rs' := by
  rw [emitted, List.filter_append, List.map_append]
  rfl

theorem returned_append (rs rs' : List Run) :
    returned (rs ++ rs') = returned rs ++ returned rs' := by
  rw [returned, List.filter_append, List.map_append]
  rfl

theorem emitted_singleton (r : Run) : emitted [r] = if r.Emitted then [r.byte] else [] := by
  by_cases hr : r.Emitted <;> simp [emitted, hr]

theorem returned_singleton (r : Run) : returned [r] = if r.Returns then [r.rest] else [] := by
  by_cases hr : r.Returns <;> simp [returned, hr]

/-- The automaton keeps back the zeros it has read, counted modulo four. -/
structure Pending (c : Scan) (z : ℕ) : Prop where
  flag_eq : c.flag = z % 4
  tmpbuf_eq : ∀ i < c.flag, c.tmpbuf i = 0x00

theorem pending_setFlag (c : Scan) : Pending (c.setFlag 0) 0 where
  flag_eq := rfl
  tmpbuf_eq _ hi := absurd hi (Nat.not_lt_zero _)

theorem Pending.push (h : Pending c 0) (b : Byte) : Pending (c.push b) 0 :=
  ⟨h.flag_eq, h.tmpbuf_eq⟩

theorem nonzero_output_push (c : Scan) (b : Byte) :
    nonzero (output (c.push b)) = nonzero (output c) ++ nonzero [b] := by
  rw [nonzero, nonzero, nonzero, ← List.filter_append]
  exact congrArg _ (Memory.read_write_append c.buf c.len [b])

theorem nonzero_output_push_zero (c : Scan) :
    nonzero (output (c.push 0x00)) = nonzero (output c) :=
  (nonzero_output_push c 0x00).trans (List.append_nil _)

theorem nonzero_output_push_of_ne (c : Scan) (hb : b ≠ 0x00) :
    nonzero (output (c.push b)) = nonzero (output c) ++ [b] := by
  rw [nonzero_output_push]
  congr 1
  exact List.filter_eq_self.mpr fun x hx => decide_eq_true (List.mem_singleton.mp hx ▸ hb)

/-- One more zero. -/
theorem Pending.stepByte_zero (h : Pending c z) :
    ∃ c', stepByte c 0x00 = (false, c') ∧ Pending c' (z + 1) ∧ output c' = output c := by
  have hflag := h.flag_eq
  by_cases hthree : c.flag = 3
  · refine ⟨c.setFlag 0, ?_, ⟨?_, (pending_setFlag c).tmpbuf_eq⟩, rfl⟩
    · rw [stepByte, if_neg (by omega)]
      simp only [hthree]
      rfl
    · change 0 = (z + 1) % 4
      omega
  · refine ⟨c.keep 0x00, ?_, ⟨?_, tmpbuf_keep h.tmpbuf_eq⟩, rfl⟩
    · have hcases : c.flag = 0 ∨ c.flag = 1 ∨ c.flag = 2 := by omega
      rcases hcases with hc | hc | hc <;> rw [stepByte] <;> simp only [hc] <;> rfl
    · change c.flag + 1 = (z + 1) % 4
      omega

/-- A byte that makes the automaton put it into the buffer behind the zeros kept back. -/
theorem Pending.stepByte_emit (h : Pending c z) (hb : b ≠ 0x00) (hlt : c.flag < 3)
    (hone : c.flag = 2 → b ≠ 0x01) :
    ∃ c', stepByte c b = (false, c') ∧ Pending c' 0 ∧
      nonzero (output c') = nonzero (output c) ++ [b] := by
  have hcases : c.flag = 0 ∨ c.flag = 1 ∨ c.flag = 2 := by omega
  rcases hcases with hc | hc | hc
  · refine ⟨c.push b, ?_, ⟨hc, h.tmpbuf_eq⟩, nonzero_output_push_of_ne c hb⟩
    rw [stepByte, if_pos hc, if_pos hb]
  · refine ⟨((c.setFlag 0).push 0x00).push b, ?_, ((pending_setFlag c).push _).push _, ?_⟩
    · rw [stepByte, if_neg (by omega), h.tmpbuf_eq 0 (by omega)]
      simp only [hc]
      exact if_neg hb
    · rw [nonzero_output_push_of_ne _ hb, nonzero_output_push_zero]
      rfl
  · refine ⟨(((c.setFlag 0).push 0x00).push 0x00).push b, ?_,
      (((pending_setFlag c).push _).push _).push _, ?_⟩
    · rw [stepByte, if_neg (by omega), h.tmpbuf_eq 0 (by omega), h.tmpbuf_eq 1 (by omega)]
      simp only [hc]
      rw [if_neg hb, if_neg (hone hc)]
    · rw [nonzero_output_push_of_ne _ hb, nonzero_output_push_zero, nonzero_output_push_zero]
      rfl

/-- A byte that makes the automaton forget the zeros kept back. -/
theorem stepByte_forget (hb : b ≠ 0x00) (hflag : c.flag = 3 ∨ c.flag = 2 ∧ b = 0x01) :
    stepByte c b = (decide (b = 0x01), c.setFlag 0) := by
  rcases hflag with hc | ⟨hc, hone⟩
  · rw [stepByte, if_neg (by omega)]
    simp only [hc]
  · rw [stepByte, if_neg (by omega)]
    simp only [hc]
    rw [if_neg hb, if_pos hone, decide_eq_true hone]

/-- A byte that is not zero. -/
theorem Pending.stepByte_of_ne (h : Pending c z) (hb : b ≠ 0x00) (bs : List Byte) :
    ∃ c', stepByte c b = (decide (Run.mk z b bs).Returns, c') ∧ Pending c' 0 ∧
      nonzero (output c') = nonzero (output c) ++ emitted [⟨z, b, bs⟩] := by
  have hflag := h.flag_eq
  have hreturns : (Run.mk z b bs).Returns ↔ b = 0x01 ∧ (c.flag = 2 ∨ c.flag = 3) := by
    rw [hflag]
    rfl
  have hemitted : (Run.mk z b bs).Emitted ↔ c.flag ≠ 3 ∧ ¬ (Run.mk z b bs).Returns := by
    rw [hflag]
    rfl
  rw [emitted_singleton]
  by_cases hforget : c.flag = 3 ∨ c.flag = 2 ∧ b = 0x01
  · refine ⟨c.setFlag 0, ?_, pending_setFlag c, ?_⟩
    · have hiff : b = 0x01 ↔ (Run.mk z b bs).Returns := by tauto
      rw [stepByte_forget hb hforget, decide_eq_decide.mpr hiff]
    · rw [if_neg (by tauto), List.append_nil]
      rfl
  · obtain ⟨hthree, htwo⟩ := not_or.mp hforget
    obtain ⟨c', hc', h', hout⟩ := h.stepByte_emit hb (by omega) (not_and.mp htwo)
    have hret : ¬ (Run.mk z b bs).Returns := by tauto
    refine ⟨c', ?_, h', ?_⟩
    · rw [hc', decide_eq_false hret]
    · rw [if_pos (hemitted.mpr ⟨hthree, hret⟩), hout]

/-- One call reads some of the runs. At most the last of them makes it return. -/
theorem Pending.readNal (h : Pending c z) (bs : List Byte) :
    ∃ front, runs z bs = front ++ runs 0 (readNal bs c).2.2 ∧
      nonzero (output (readNal bs c).2.1) = nonzero (output c) ++ emitted front ∧
      returned front = if (readNal bs c).1 = -1 then [] else [(readNal bs c).2.2] := by
  induction bs generalizing c z with
  | nil => exact ⟨[], rfl, (List.append_nil _).symm, rfl⟩
  | cons b bs ih =>
    rw [Splitter.readNal, runs]
    by_cases hb : b = 0x00
    · subst hb
      obtain ⟨c₁, hc₁, h₁, hout⟩ := h.stepByte_zero
      rw [if_pos rfl, hc₁, ← hout]
      exact ih h₁
    · obtain ⟨c₁, hc₁, h₁, hout⟩ := h.stepByte_of_ne hb bs
      have hfirst := returned_singleton ⟨z, b, bs⟩
      rw [if_neg hb, hc₁]
      by_cases hret : (Run.mk z b bs).Returns
      · rw [if_pos hret] at hfirst
        simp only [decide_eq_true hret]
        refine ⟨[⟨z, b, bs⟩], rfl, hout, ?_⟩
        rw [if_neg (by omega), hfirst]
      · obtain ⟨front, hfront, hemit, hreturned⟩ := ih h₁
        rw [if_neg hret] at hfirst
        simp only [decide_eq_false hret]
        refine ⟨⟨z, b, bs⟩ :: front, by rw [hfront]; rfl, ?_, ?_⟩
        · rw [hemit, hout, List.append_assoc, ← emitted_append]
          rfl
        · rw [← hreturned, ← List.singleton_append, returned_append, hfirst, List.nil_append]

end H264Cast.Splitter
