import H264Cast.AnnexB.Units
import Mathlib.Data.List.Sort

/-! # The file parser

The parser reports the header behind every start code of a buffer and returns how far it
came with the last one. The program that uses it reads a file in pieces: it keeps as many
bytes as the parser returned, taken from the end of the piece, and reads the next piece
behind them, and it hands to the parser as many bytes as were read. Each cell of the buffer
carries the place in the file it was read from.
-/

namespace H264Cast.FileParse

/-- The size of the buffer. -/
def maxBuffLen : ℕ := 1024

/-- A byte of the buffer and its place in the file, if it was read from there. -/
structure Cell where
  byte : Byte
  origin : Option ℕ

/-- A file. What the contents are behind its length does not matter. -/
structure File where
  content : Memory Byte
  length : ℕ

/-- The bytes of a file with their places. -/
def File.cell (f : File) : Memory Cell := fun x => ⟨f.content x, some x⟩

/-- The places of the start codes that are followed by a byte. -/
def File.startCodes (f : File) : List ℕ :=
  (List.range f.length).filter fun i => StartCodeAt f.content i ∧ i + 4 < f.length

/-- The bytes of a buffer. -/
def bytes (m : Memory Cell) : Memory Byte := fun i => (m i).byte

/-- The test for a start code, which does not look at a byte behind it. -/
def findNalType (m : Memory Cell) (p nReadLen : ℕ) : Prop :=
  4 ≤ nReadLen ∧ StartCodeAt (bytes m) p

instance (m : Memory Cell) (p n : ℕ) : Decidable (findNalType m p n) :=
  inferInstanceAs (Decidable (_ ∧ _))

/-- The loop of the parser: the headers reported from a place on, and the end of the last
start code. -/
def parseFrom (m : Memory Cell) (pBuff nReadLen pParseBuff : ℕ) : List Cell × ℕ :=
  if nReadLen = 0 then ([], pParseBuff)
  else if _h : findNalType m pBuff nReadLen then
    let r := parseFrom m (pBuff + 4) (nReadLen - 4) (pBuff + 4)
    (m (pBuff + 4) :: r.1, r.2)
  else parseFrom m (pBuff + 1) (nReadLen - 1) pParseBuff
termination_by nReadLen

def parseH264File (m : Memory Cell) (nReadLen : ℕ) : List Cell × ℕ :=
  parseFrom m 0 nReadLen 0

/-- The variables of the reading loop. -/
structure Reader where
  buff : Memory Cell
  pos : ℕ
  nParseRemainLen : ℕ

/-- A call of the parser: the bytes it was given and the headers it reported. -/
structure Call where
  given : List Cell
  reported : List Cell

/-- The bytes that the next `fread` returns. -/
def Reader.nReadLen (f : File) (s : Reader) : ℕ :=
  min (maxBuffLen - s.nParseRemainLen) (f.length - s.pos)

/-- The buffer after the next `fread`. -/
def Reader.fread (f : File) (s : Reader) : Memory Cell :=
  s.buff.write s.nParseRemainLen (f.cell.read s.pos (s.nReadLen f))

/-- The body of the loop. -/
def Reader.next (f : File) (s : Reader) : Call × Reader :=
  let n := s.nReadLen f
  let buff := s.fread f
  let (reported, nParseRemainLen) := parseH264File buff n
  (⟨buff.read 0 n, reported⟩,
    { buff := if nParseRemainLen ≠ 0 then
        buff.write 0 (buff.read (n - nParseRemainLen) nParseRemainLen) else buff
      pos := s.pos + n
      nParseRemainLen := nParseRemainLen })

/-- The calls of the parser until nothing is read. -/
def readLoop (f : File) (s : Reader) : List Call :=
  if _h : s.nReadLen f = 0 then []
  else (s.next f).1 :: readLoop f (s.next f).2
termination_by f.length - s.pos
decreasing_by
  simp only [Reader.next]
  simp only [Reader.nReadLen] at _h ⊢
  omega

/-- The start of the program. The memory behind the buffer may contain anything. -/
def Reader.start (beyond : Memory Byte) : Reader where
  buff i := ⟨if i < maxBuffLen then 0x00 else beyond i, none⟩
  pos := 0
  nParseRemainLen := 0

/-! ## What the parser reports -/

variable {f : File} {s : Reader} {m : Memory Cell} {p n q k : ℕ}

/-- The start codes that begin in a stretch of the given length. -/
def starts (m : Memory Byte) (p k : ℕ) : List ℕ :=
  (List.range' p k).filter fun i => StartCodeAt m i

theorem mem_starts {m : Memory Byte} {i : ℕ} :
    i ∈ starts m p k ↔ (p ≤ i ∧ i < p + k) ∧ StartCodeAt m i := by
  rw [starts, List.mem_filter, List.mem_range'_1, decide_eq_true_iff]

theorem starts_of_not_startCodeAt {m : Memory Byte} (h : ¬ StartCodeAt m p) (k : ℕ) :
    starts m p k = starts m (p + 1) (k - 1) := by
  cases k with
  | zero => rfl
  | succ k =>
    rw [starts, List.range'_succ, List.filter_cons_of_neg (by simpa using h)]
    rfl

/-- No start code begins inside another one. -/
theorem starts_of_startCodeAt {m : Memory Byte} (h : StartCodeAt m p) (k : ℕ) :
    starts m p (k + 1) = p :: starts m (p + 4) (k - 3) := by
  have hinside : ∀ i, p < i → i < p + 4 → ¬ StartCodeAt m i :=
    fun i hlt hi hs => Nat.not_le.mpr hi (h.disjoint hs hlt)
  rw [starts, List.range'_succ, List.filter_cons_of_pos (by simpa using h)]
  change p :: starts m (p + 1) k = _
  rw [starts_of_not_startCodeAt (hinside _ (by omega) (by omega)),
    starts_of_not_startCodeAt (hinside _ (by omega) (by omega)),
    starts_of_not_startCodeAt (hinside _ (by omega) (by omega))]
  rfl

/-- The start codes behind a place where the test fails. -/
theorem starts_of_not_findNalType (h : ¬ findNalType m p n) :
    starts (bytes m) p (n - 3) = starts (bytes m) (p + 1) (n - 1 - 3) := by
  by_cases hn : 4 ≤ n
  · rw [starts_of_not_startCodeAt (fun hs => h ⟨hn, hs⟩), Nat.sub_right_comm]
  · rw [show n - 1 - 3 = 0 by omega, show n - 3 = 0 by omega]
    rfl

theorem parseFrom_fst (m : Memory Cell) (p n q : ℕ) :
    (parseFrom m p n q).1 = (starts (bytes m) p (n - 3)).map fun i => m (i + 4) := by
  fun_induction parseFrom m p n q with
  | case1 => rfl
  | case2 p n q _ h r ih =>
    obtain ⟨k, rfl⟩ := Nat.exists_eq_add_of_le h.1
    rw [show 4 + k - 3 = k + 1 by omega, starts_of_startCodeAt h.2, List.map_cons]
    exact congrArg _ (ih.trans (by rw [Nat.add_sub_cancel_left]))
  | case3 p n q _ h ih =>
    rw [ih, starts_of_not_findNalType h]

/-- The parser returns the end of a start code when there is one. -/
theorem parseFrom_snd (m : Memory Cell) (p n q : ℕ) :
    ((parseFrom m p n q).2 = q ∧ starts (bytes m) p (n - 3) = []) ∨
      (p + 4 ≤ (parseFrom m p n q).2 ∧ (parseFrom m p n q).2 ≤ p + n ∧
        starts (bytes m) p (n - 3) ≠ []) := by
  fun_induction parseFrom m p n q with
  | case1 => exact Or.inl ⟨rfl, rfl⟩
  | case2 p n q _ h r ih =>
    have hn := h.1
    have hstarts : starts (bytes m) p (n - 3) ≠ [] := by
      rw [show n - 3 = n - 4 + 1 by omega, starts_of_startCodeAt h.2]
      exact List.cons_ne_nil _ _
    refine Or.inr ⟨?_, ?_, hstarts⟩
    · rcases ih with ⟨hr, -⟩ | ⟨hr, -⟩
      · exact hr.ge
      · exact Nat.le_of_add_right_le hr
    · rcases ih with ⟨hr, -⟩ | ⟨-, hr, -⟩
      · exact hr.le.trans (by omega)
      · exact hr.trans (by omega)
  | case3 p n q _ h ih =>
    rw [starts_of_not_findNalType h]
    rcases ih with ⟨hr, hnil⟩ | ⟨hlo, hhi, hne⟩
    · exact Or.inl ⟨hr, hnil⟩
    · exact Or.inr ⟨by omega, by omega, hne⟩

theorem parseH264File_fst (m : Memory Cell) (n : ℕ) :
    (parseH264File m n).1 = (starts (bytes m) 0 (n - 3)).map fun i => m (i + 4) :=
  parseFrom_fst m 0 n 0

theorem parseH264File_snd (m : Memory Cell) (n : ℕ) :
    ((parseH264File m n).2 = 0 ∧ starts (bytes m) 0 (n - 3) = []) ∨
      (4 ≤ (parseH264File m n).2 ∧ (parseH264File m n).2 ≤ n ∧
        starts (bytes m) 0 (n - 3) ≠ []) := by
  have h := parseFrom_snd m 0 n 0
  rwa [Nat.zero_add, Nat.zero_add] at h

/-! ## What the loop keeps -/

/-- The cells of the buffer after a read: the cells kept, the cells read, and old ones. -/
theorem fread_of_lt {i : ℕ} (hi : i < s.nParseRemainLen) : s.fread f i = s.buff i :=
  Memory.write_of_lt hi

theorem fread_of_mem {i : ℕ} (hi : i < s.nReadLen f) :
    s.fread f (s.nParseRemainLen + i) = f.cell (s.pos + i) := by
  rw [Reader.fread, Memory.write_of_mem (by simpa using hi), Memory.getElem_read]

theorem fread_of_ge {i : ℕ} (hi : s.nParseRemainLen + s.nReadLen f ≤ i) :
    s.fread f i = s.buff i :=
  Memory.write_of_ge (by simpa using hi)

theorem nParseRemainLen_next_le (f : File) (s : Reader) :
    (s.next f).2.nParseRemainLen ≤ s.nReadLen f := by
  change (parseH264File (s.fread f) (s.nReadLen f)).2 ≤ _
  rcases parseH264File_snd (s.fread f) (s.nReadLen f) with ⟨h, -⟩ | ⟨-, h, -⟩
  · rw [h]
    exact Nat.zero_le _
  · exact h

theorem buff_next (f : File) (s : Reader) :
    (s.next f).2.buff = if (s.next f).2.nParseRemainLen ≠ 0 then
      (s.fread f).write 0 ((s.fread f).read (s.nReadLen f - (s.next f).2.nParseRemainLen)
        (s.next f).2.nParseRemainLen) else s.fread f := rfl

/-- The cells kept for the next read are the last ones that the parser was given. -/
theorem buff_next_of_lt {i : ℕ} (hi : i < (s.next f).2.nParseRemainLen) :
    (s.next f).2.buff i =
      s.fread f (s.nReadLen f - (s.next f).2.nParseRemainLen + i) := by
  rw [buff_next, if_pos (Nat.ne_zero_of_lt hi)]
  conv_lhs => rw [← Nat.zero_add i]
  rw [Memory.write_of_mem (hi.trans_eq Memory.length_read.symm), Memory.getElem_read]

theorem readLoop_of_zero (h : s.nReadLen f = 0) : readLoop f s = [] := by
  rw [readLoop, dif_pos h]

theorem readLoop_of_ne_zero (h : s.nReadLen f ≠ 0) :
    readLoop f s = (s.next f).1 :: readLoop f (s.next f).2 := by
  rw [readLoop, dif_neg h]

end H264Cast.FileParse
