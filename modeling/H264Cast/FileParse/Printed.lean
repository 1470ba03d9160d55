import H264Cast.FileParse.Chunks

/-! # The lines of the file parser

The parser writes a line for every header, and a second one with the name of its type if the
type has one. Two static variables count the IDR slices and the other slices, over all pieces of
the file. The lines of a program that parses its file as a whole are told by the file alone.
-/

namespace H264Cast.FileParse

/-- The types with a name in the source. -/
inductive NalUnitType
  | nalSlice | nalDpa | nalDpb | nalDpc | nalIdrSlice | nalSei | nalSps | nalPps | nalAud
  | nalEndSequence | nalEndStream | nalFillerData | nalSpsExt | nalAuxiliarySlice | nalFfIgnore
  deriving DecidableEq

def NalUnitType.value : NalUnitType → ℕ
  | nalSlice => 1
  | nalDpa => 2
  | nalDpb => 3
  | nalDpc => 4
  | nalIdrSlice => 5
  | nalSei => 6
  | nalSps => 7
  | nalPps => 8
  | nalAud => 9
  | nalEndSequence => 10
  | nalEndStream => 11
  | nalFillerData => 12
  | nalSpsExt => 13
  | nalAuxiliarySlice => 19
  | nalFfIgnore => 0xff0f001

/-- An entry of the table of names. -/
structure NalStr where
  nalType : NalUnitType
  str : String

open NalUnitType in
def gNalStr : List NalStr := [
  ⟨nalSlice, "NAL_SLICE"⟩,
  ⟨nalDpa, "NAL_DPA"⟩,
  ⟨nalDpb, "NAL_DPB"⟩,
  ⟨nalDpc, "NAL_DPC"⟩,
  ⟨nalIdrSlice, "NAL_IDR_SLICE"⟩,
  ⟨nalSei, "NAL_SEI"⟩,
  ⟨nalSps, "NAL_SPS"⟩,
  ⟨nalPps, "NAL_PPS"⟩,
  ⟨nalAud, "NAL_AUD"⟩,
  ⟨nalEndSequence, "NAL_END_SEQUENCE"⟩,
  ⟨nalEndStream, "NAL_END_STREAM"⟩,
  ⟨nalFillerData, "NAL_FILLER_DATA"⟩,
  ⟨nalSpsExt, "NAL_SPS_EXT"⟩,
  ⟨nalAuxiliarySlice, "NAL_AUXILIARY_SLICE"⟩,
  ⟨nalFfIgnore, "NAL_FF_IGNORE"⟩]

/-- A line of the output, with the values that are printed in it. -/
inductive Line
  | nalHeard (nalType : ℕ) (head : Byte)
  | known (nalType : ℕ) (str : String) (I P : BitVec 32)
  deriving DecidableEq

/-- The static variables of `print_nal_type`. -/
structure Counters where
  I : BitVec 32
  P : BitVec 32
  deriving DecidableEq

/-- The entry of the table with the type. -/
def findNalStr (nalType : ℕ) : Option NalStr :=
  gNalStr.find? fun s => nalType = s.nalType.value

/-- What is returned, the counters and the lines. -/
def printNalType (nalType : ℕ) (c : Counters) : ℤ × Counters × List Line :=
  match findNalStr nalType with
  | none => (-1, c, [])
  | some s =>
    let c' : Counters :=
      if nalType = NalUnitType.nalIdrSlice.value then { c with I := c.I + 1 }
      else if nalType = NalUnitType.nalSlice.value then { c with P := c.P + 1 }
      else c
    (0, c', [.known s.nalType.value s.str c'.I c'.P])

/-- The type of a header as the number that is printed. -/
def typeOf (head : Byte) : ℕ := (nalType head).toNat

namespace Printing

/-- The loop of the parser with its lines, which takes the counters along. -/
def parseFrom (m : Memory Cell) (pBuff nReadLen pParseBuff : ℕ) (c : Counters) :
    List Line × Counters × ℕ :=
  if nReadLen = 0 then ([], c, pParseBuff)
  else if _h : findNalType m pBuff nReadLen then
    let head := (m (pBuff + 4)).byte
    let (_, c', lines) := printNalType (typeOf head) c
    let r := parseFrom m (pBuff + 4) (nReadLen - 4) (pBuff + 4) c'
    (.nalHeard (typeOf head) head :: lines ++ r.1, r.2)
  else parseFrom m (pBuff + 1) (nReadLen - 1) pParseBuff c
termination_by nReadLen

def parseH264File (m : Memory Cell) (nReadLen : ℕ) (c : Counters) : List Line × Counters × ℕ :=
  parseFrom m 0 nReadLen 0 c

/-- The body of the reading loop with its lines. -/
def next (f : File) (s : Reader) (c : Counters) : List Line × Counters × Reader :=
  let n := s.nReadLen f
  let buff := s.fread f
  let (lines, c', nParseRemainLen) := parseH264File buff n c
  (lines, c',
    { buff := if nParseRemainLen ≠ 0 then
        buff.write 0 (buff.read (n - nParseRemainLen) nParseRemainLen) else buff
      pos := s.pos + n
      nParseRemainLen := nParseRemainLen })

/-- The reading loop with its lines. -/
def readLoop (f : File) (s : Reader) (c : Counters) : List Line :=
  if _h : s.nReadLen f = 0 then []
  else (next f s c).1 ++ readLoop f (next f s c).2.2 (next f s c).2.1
termination_by f.length - s.pos
decreasing_by
  simp only [next]
  simp only [Reader.nReadLen] at _h ⊢
  omega

end Printing

/-- The lines of the program. -/
def printed (f : File) (beyond : Memory Byte) : List Line :=
  Printing.readLoop f (.start beyond) ⟨0, 0⟩

/-! ## The lines for a list of headers -/

/-- How many of the headers have the type. -/
def countOf (t : NalUnitType) (heads : List Byte) : ℕ := (heads.map typeOf).count t.value

/-- The lines for the last one of some headers: its type and the header itself, and if the type
has a name also the name and the numbers of IDR slices and of other slices up to here. -/
def describeLast (heads : List Byte) (head : Byte) : List Line :=
  .nalHeard (typeOf head) head ::
    (gNalStr.filter fun s => s.nalType.value = typeOf head).map fun s =>
      .known (typeOf head) s.str (.ofNat 32 (countOf .nalIdrSlice heads))
        (.ofNat 32 (countOf .nalSlice heads))

/-- The lines for headers in their order. -/
def describe (heads : List Byte) : List Line :=
  heads.zipIdx.flatMap fun (head, k) => describeLast (heads.take (k + 1)) head

variable {f : File} {s : Reader} {c : Counters} {heads : List Byte} {head : Byte} {cell : Cell}
  {m : Memory Cell} {beyond : Memory Byte} {i x p n q : ℕ}

theorem describe_append (heads : List Byte) (head : Byte) :
    describe (heads ++ [head]) = describe heads ++ describeLast (heads ++ [head]) head := by
  rw [describe, List.zipIdx_append, List.flatMap_append]
  congr 1
  · apply List.flatMap_congr
    intro p hp
    have hlt := List.snd_lt_of_mem_zipIdx hp
    change describeLast ((heads ++ [head]).take (p.2 + 1)) p.1 = _
    rw [List.take_append_of_le_length (by omega)]
  · simp [List.take_of_length_le]

/-- A test that two elements of a list do not both pass. -/
theorem filter_eq_toList_find? {α : Type*} {p : α → Bool} {l : List α}
    (h : l.Pairwise fun a b => p a → ¬ p b) : l.filter p = (l.find? p).toList := by
  induction h with
  | nil => rfl
  | @cons a l hall _ ih =>
    by_cases ha : p a
    · have hnil : l.filter p = [] := List.filter_eq_nil_iff.mpr fun b hb => hall b hb ha
      rw [List.filter_cons_of_pos ha, List.find?_cons_of_pos ha, hnil]
      rfl
    · rw [List.filter_cons_of_neg ha, List.find?_cons_of_neg ha, ih]

/-- No two entries of the table have the same type. -/
theorem filter_gNalStr (t : ℕ) :
    gNalStr.filter (fun s => s.nalType.value = t) = (findNalStr t).toList := by
  have hdistinct : gNalStr.Pairwise fun a b => a.nalType.value ≠ b.nalType.value := by decide
  rw [findNalStr, ← filter_eq_toList_find?]
  · exact List.filter_congr fun s _ => decide_eq_decide.mpr eq_comm
  · refine hdistinct.imp fun hne ha hb => hne ?_
    exact (of_decide_eq_true ha).symm.trans (of_decide_eq_true hb)

/-- The counters when some headers have been printed. -/
def countersOf (heads : List Byte) : Counters where
  I := .ofNat 32 (countOf .nalIdrSlice heads)
  P := .ofNat 32 (countOf .nalSlice heads)

theorem countOf_append (t : NalUnitType) (heads : List Byte) (head : Byte) :
    countOf t (heads ++ [head]) = countOf t heads + if typeOf head = t.value then 1 else 0 := by
  rw [countOf, List.map_append, List.count_append, List.map_singleton, List.count_singleton]
  simp [countOf]

theorem countersOf_append (heads : List Byte) (head : Byte) :
    countersOf (heads ++ [head]) =
      if typeOf head = NalUnitType.nalIdrSlice.value then
        { countersOf heads with I := (countersOf heads).I + 1 }
      else if typeOf head = NalUnitType.nalSlice.value then
        { countersOf heads with P := (countersOf heads).P + 1 }
      else countersOf heads := by
  rw [countersOf, countOf_append, countOf_append]
  split_ifs with hi hp
  · exact absurd (hi.symm.trans hp) (by decide)
  · rw [Nat.add_zero, BitVec.ofNat_add]
    rfl
  · rw [Nat.add_zero, BitVec.ofNat_add]
    rfl
  · rfl

/-- One more header. -/
theorem printNalType_countersOf (heads : List Byte) (head : Byte) :
    (printNalType (typeOf head) (countersOf heads)).2.1 = countersOf (heads ++ [head]) ∧
      .nalHeard (typeOf head) head :: (printNalType (typeOf head) (countersOf heads)).2.2 =
        describeLast (heads ++ [head]) head := by
  rw [printNalType, describeLast, filter_gNalStr, countersOf_append]
  cases hfind : findNalStr (typeOf head) with
  | none =>
    have hne (t : NalUnitType) (ht : (findNalStr t.value).isSome) : typeOf head ≠ t.value := by
      rintro heq
      rw [← heq, hfind] at ht
      exact absurd ht Bool.false_ne_true
    rw [if_neg (hne .nalIdrSlice rfl), if_neg (hne .nalSlice rfl)]
    exact ⟨rfl, rfl⟩
  | some s =>
    have hs : typeOf head = s.nalType.value := by
      rw [findNalStr] at hfind
      simpa using List.find?_some hfind
    refine ⟨rfl, ?_⟩
    simp only [← hs, ← countersOf_append]
    rfl

/-! ## The program -/

theorem Printing.parseFrom_of_findNalType (hne : n ≠ 0) (h : findNalType m p n) :
    parseFrom m p n q c =
      let t := printNalType (typeOf (m (p + 4)).byte) c
      let r := parseFrom m (p + 4) (n - 4) (p + 4) t.2.1
      (.nalHeard (typeOf (m (p + 4)).byte) (m (p + 4)).byte :: t.2.2 ++ r.1, r.2) := by
  rw [parseFrom, if_neg hne, dif_pos h]

/-- One call of the parser, wherever its loop is. -/
theorem parseFrom_countersOf (m : Memory Cell) (p n q : ℕ) (heads : List Byte) :
    ∃ lines, Printing.parseFrom m p n q (countersOf heads) =
        (lines, countersOf (heads ++ (parseFrom m p n q).1.map Cell.byte),
          (parseFrom m p n q).2) ∧
      describe (heads ++ (parseFrom m p n q).1.map Cell.byte) = describe heads ++ lines := by
  fun_induction parseFrom m p n q generalizing heads with
  | case1 p q =>
    rw [Printing.parseFrom, if_pos rfl]
    exact ⟨[], by simp⟩
  | case2 p n q hne h r ih =>
    obtain ⟨lines, hlines, hdescribe⟩ := ih (heads ++ [(m (p + 4)).byte])
    obtain ⟨hcounters, hlast⟩ := printNalType_countersOf heads (m (p + 4)).byte
    refine ⟨describeLast (heads ++ [(m (p + 4)).byte]) (m (p + 4)).byte ++ lines, ?_, ?_⟩
    · simp only [Printing.parseFrom_of_findNalType hne h, hcounters, hlines, hlast]
      rw [List.append_assoc]
      rfl
    · rw [List.map_cons, List.append_cons, hdescribe, describe_append, List.append_assoc]
  | case3 p n q hne h ih =>
    obtain ⟨lines, hlines, hdescribe⟩ := ih heads
    rw [Printing.parseFrom, if_neg hne, dif_neg h]
    exact ⟨lines, hlines, hdescribe⟩

/-- The body of the reading loop with its lines is the body without them. -/
theorem next_countersOf (f : File) (s : Reader) (heads : List Byte) :
    ∃ lines, Printing.next f s (countersOf heads) =
        (lines, countersOf (heads ++ (s.next f).1.reported.map Cell.byte), (s.next f).2) ∧
      describe (heads ++ (s.next f).1.reported.map Cell.byte) = describe heads ++ lines := by
  obtain ⟨lines, hlines, hdescribe⟩ :=
    parseFrom_countersOf (s.fread f) 0 (s.nReadLen f) 0 heads
  refine ⟨lines, ?_, hdescribe⟩
  simp only [Printing.next, Printing.parseH264File, hlines]
  rfl

/-- The program writes the lines for the headers that it reports. -/
theorem readLoop_countersOf (f : File) (s : Reader) (heads : List Byte) :
    describe (heads ++ (reported f s).map Cell.byte) =
      describe heads ++ Printing.readLoop f s (countersOf heads) := by
  fun_induction readLoop f s generalizing heads with
  | case1 s h =>
    rw [reported, readLoop_of_zero h, Printing.readLoop, dif_pos h]
    simp
  | case2 s h ih =>
    obtain ⟨lines, hlines, hdescribe⟩ := next_countersOf f s heads
    have hreported : reported f s = (s.next f).1.reported ++ reported f (s.next f).2 := by
      rw [reported, readLoop_of_ne_zero h]
      rfl
    rw [Printing.readLoop, dif_neg h, hlines, hreported, List.map_append, ← List.append_assoc,
      ih, hdescribe, List.append_assoc]

/-! ## The headers of the file -/

/-- A cell with a place holds the byte of the file there. -/
def Cell.IsFrom (f : File) (cell : Cell) : Prop :=
  ∀ x, cell.origin = some x → cell.byte = f.content x

theorem isFrom_start (beyond : Memory Byte) (i : ℕ) : ((Reader.start beyond).buff i).IsFrom f :=
  fun _ hx => nomatch hx

theorem isFrom_fread (h : ∀ i, (s.buff i).IsFrom f) (i : ℕ) : (s.fread f i).IsFrom f := by
  rcases Nat.lt_or_ge i (s.nParseRemainLen + s.nReadLen f) with hlt | hge
  · rcases fread_cases hlt with ⟨-, heq⟩ | ⟨j, hj, rfl, -⟩
    · rw [heq]
      exact h i
    · rw [fread_of_mem hj]
      rintro x hx
      obtain rfl := Option.some.inj hx
      rfl
  · rw [fread_of_ge hge]
    exact h i

theorem isFrom_next (h : ∀ i, (s.buff i).IsFrom f) (i : ℕ) : ((s.next f).2.buff i).IsFrom f := by
  rcases Nat.lt_or_ge i (s.next f).2.nParseRemainLen with hlt | hge
  · rw [buff_next_of_lt hlt]
    exact isFrom_fread h _
  · have heq : (s.next f).2.buff i = s.fread f i := by
      rw [buff_next]
      split_ifs
      · exact Memory.write_of_ge (by simpa using hge)
      · rfl
    rw [heq]
    exact isFrom_fread h i

theorem isFrom_of_mem_reported (h : ∀ i, (s.buff i).IsFrom f) (hc : cell ∈ reported f s) :
    cell.IsFrom f := by
  fun_induction readLoop f s with
  | case1 s hzero =>
    rw [reported, readLoop_of_zero hzero] at hc
    exact absurd hc List.not_mem_nil
  | case2 s hne ih =>
    rw [reported_of_ne_zero hne, List.mem_append] at hc
    rcases hc with hc | hc
    · obtain ⟨i, -, rfl⟩ := List.mem_map.mp hc
      exact isFrom_fread h _
    · exact ih (isFrom_next h) hc

/-- A file that is parsed as a whole: the headers reported are those behind its start codes. -/
theorem Whole.heads_eq (h : Whole f beyond) :
    (reported f (.start beyond)).map Cell.byte = f.startCodes.map fun i => f.content (i + 4) := by
  have hfrom : ∀ cell ∈ reported f (.start beyond), cell.IsFrom f :=
    fun _ hc => isFrom_of_mem_reported (isFrom_start beyond) hc
  have horigin := congrArg (List.map fun o : Option ℕ => o.elim 0x00 f.content) h.origins_eq
  rw [List.map_map, List.map_map] at horigin
  refine Eq.trans (List.map_congr_left fun cell hc => ?_) horigin
  obtain ⟨i, -, hi⟩ := List.mem_map.mp (h.origins_eq ▸ List.mem_map_of_mem hc)
  rw [hfrom cell hc _ hi.symm, Function.comp_apply, ← hi]
  rfl

/-- The output of the program for any file: a line for every header reported, in their order, and
where the type has a name one with the numbers of IDR slices and of other slices reported up to
there. The headers are those of the file when the start codes that are followed by a byte are
those in its last piece. -/
theorem printed_eq (f : File) (beyond : Memory Byte) :
    printed f beyond = describe ((reported f (.start beyond)).map Cell.byte) ∧
      ((∀ i, StartCodeAt f.content i → i + 4 ≤ f.length →
          (lastPiece f ≤ i ↔ i + 4 < f.length)) →
        printed f beyond = describe (f.startCodes.map fun i => f.content (i + 4))) := by
  have hprinted : printed f beyond = describe ((reported f (.start beyond)).map Cell.byte) :=
    (readLoop_countersOf f (.start beyond) []).symm
  refine ⟨hprinted, fun h => ?_⟩
  rw [hprinted, (whole_of_lastPiece beyond h).heads_eq]

/-- An IDR slice and another slice. -/
def twoSlices : File where
  content := Memory.write (fun _ => 0x00) 0 (startCode ++ [0x65] ++ startCode ++ [0x41])
  length := 10

/-- Both counters are one in the last line. -/
theorem printed_eq_twoSlices : printed twoSlices (fun _ => 0x00) =
    [.nalHeard 5 0x65, .known 5 "NAL_IDR_SLICE" 1 0, .nalHeard 1 0x41,
      .known 1 "NAL_SLICE" 1 1] := by
  refine ((printed_eq twoSlices _).2 fun i hs hle => ?_).trans (by decide)
  have hne : i ≠ 6 := by
    rintro rfl
    exact absurd hs (by decide)
  have hzero : lastPiece twoSlices = 0 := by decide
  rw [hzero, iff_true_left (Nat.zero_le i)]
  change i + 4 < 10
  change i + 4 ≤ 10 at hle
  omega

end H264Cast.FileParse
