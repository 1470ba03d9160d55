import H264Cast.AnnexB.Scan
import H264Cast.FileParse.Parser
import Mathlib.Algebra.Ring.Int.Defs

/-! # One call of the parser

The loop of a call with its length as the `int` of the source, which ends only when that is
exactly zero, and the same call with every access to the buffer written out. A start code in
the last four bytes passes the test for a start code, and its type is then taken from the
byte behind the buffer.
-/

namespace H264Cast.FileParse

/-- The variables of the loop, and the types reported so far. -/
structure Scan where
  pBuff : ℕ
  nReadLen : ℤ
  pParseBuff : ℕ
  types : List Byte

namespace Scan

/-- The body of the loop. -/
def next (m : Memory Byte) (c : Scan) : Scan :=
  if 4 ≤ c.nReadLen ∧ StartCodeAt m c.pBuff then
    { pBuff := c.pBuff + 4
      nReadLen := c.nReadLen - 4
      pParseBuff := c.pBuff + 4
      types := c.types ++ [m (c.pBuff + 4) &&& 0x1f] }
  else { c with pBuff := c.pBuff + 1, nReadLen := c.nReadLen - 1 }

/-- The start of a call. -/
def start (nReadLen : ℤ) : Scan := ⟨0, nReadLen, 0, []⟩

/-- The loop ends after `k` rounds, and the length is not negative on the way. -/
structure EndsAfter (m : Memory Byte) (c : Scan) (k : ℕ) : Prop where
  nReadLen_eq : ((next m)^[k] c).nReadLen = 0
  nReadLen_pos : ∀ j < k, 0 < ((next m)^[j] c).nReadLen

end Scan

/-- The bytes of a buffer as cells that do not come from a file. -/
def cells (m : Memory Byte) : Memory Cell := fun i => ⟨m i, none⟩

variable {m m' : Memory Byte} {c : Scan} {p n q i k : ℕ} {types : List Byte}

theorem Scan.EndsAfter.succ (hpos : 0 < c.nReadLen) (h : EndsAfter m (c.next m) k) :
    EndsAfter m c (k + 1) := by
  constructor
  · exact h.nReadLen_eq
  · intro j hj
    cases j with
    | zero => exact hpos
    | succ j => exact h.nReadLen_pos j (Nat.lt_of_succ_lt_succ hj)

/-- The loop from any of its states does what the parser does from there. -/
theorem Scan.endsAfter_parseFrom (m : Memory Byte) (p n q : ℕ) (types : List Byte) :
    ∃ k, EndsAfter m ⟨p, n, q, types⟩ k ∧ (next m)^[k] ⟨p, n, q, types⟩ =
      ⟨p + n, 0, (parseFrom (cells m) p n q).2,
        types ++ (parseFrom (cells m) p n q).1.map fun cell => cell.byte &&& 0x1f⟩ := by
  fun_induction parseFrom (cells m) p n q generalizing types with
  | case1 p q =>
    refine ⟨0, ⟨rfl, fun j hj => absurd hj (Nat.not_lt_zero j)⟩, ?_⟩
    simp
  | case2 p n q hne h r ih =>
    obtain ⟨hn, hs⟩ := h
    have hnext : next m ⟨p, n, q, types⟩ =
        ⟨p + 4, (n - 4 : ℕ), p + 4, types ++ [m (p + 4) &&& 0x1f]⟩ := by
      unfold next
      rw [if_pos ⟨Int.ofNat_le.mpr hn, hs⟩, Nat.cast_sub hn]
      rfl
    obtain ⟨k, hk, hend⟩ := ih (types ++ [m (p + 4) &&& 0x1f])
    refine ⟨k + 1, .succ (by simp only; omega) (by rwa [hnext]), ?_⟩
    rw [Function.iterate_succ_apply, hnext, hend]
    simp only [List.append_assoc, List.singleton_append, List.map_cons, Scan.mk.injEq, true_and]
    exact ⟨by omega, rfl, rfl⟩
  | case3 p n q hne h ih =>
    have hnext : next m ⟨p, n, q, types⟩ = ⟨p + 1, (n - 1 : ℕ), q, types⟩ := by
      unfold next
      rw [if_neg (fun hif => h ⟨Int.ofNat_le.mp hif.1, hif.2⟩), Nat.cast_sub (by omega)]
      rfl
    obtain ⟨k, hk, hend⟩ := ih types
    refine ⟨k + 1, .succ (by simp only; omega) (by rwa [hnext]), ?_⟩
    rw [Function.iterate_succ_apply, hnext, hend]
    simp only [Scan.mk.injEq, and_true]
    omega

/-- The parser returns the end of the last start code, or its argument if there is none. -/
theorem parseFrom_snd_eq (m : Memory Cell) (p n q : ℕ) :
    (parseFrom m p n q).2 = ((starts (bytes m) p (n - 3)).getLast?.map (· + 4)).getD q := by
  fun_induction parseFrom m p n q with
  | case1 => rfl
  | case2 p n q _ h r ih =>
    obtain ⟨k, rfl⟩ := Nat.exists_eq_add_of_le h.1
    rw [show 4 + k - 3 = k + 1 by omega, starts_of_startCodeAt h.2, List.getLast?_cons]
    change r.2 = _
    rw [ih, show 4 + k - 4 - 3 = k - 3 by omega]
    cases (starts (bytes m) (p + 4) (k - 3)).getLast? <;> rfl
  | case3 p n q _ h ih =>
    rw [ih, starts_of_not_findNalType h]

/-- The start codes that lie inside a buffer of the given length. -/
def startCodesIn (m : Memory Byte) (n : ℕ) : List ℕ :=
  (List.range n).filter fun i => i + 4 ≤ n ∧ StartCodeAt m i

theorem startCodesIn_eq_starts (m : Memory Byte) (n : ℕ) :
    startCodesIn m n = starts m 0 (n - 3) := by
  have hnil (l : List ℕ) (hl : ∀ i ∈ l, n < i + 4) :
      l.filter (fun i => decide (i + 4 ≤ n ∧ StartCodeAt m i)) = [] := by
    refine List.filter_eq_nil_iff.mpr fun i hi => ?_
    have := hl i hi
    simp only [decide_eq_true_eq]
    omega
  unfold startCodesIn starts
  rcases Nat.lt_or_ge n 3 with hn | hn
  · rw [hnil _ fun i _ => by omega, show n - 3 = 0 by omega]
    rfl
  · obtain ⟨k, rfl⟩ := Nat.exists_eq_add_of_le' hn
    rw [List.range_add, List.filter_append, hnil (List.map _ _), List.append_nil,
      Nat.add_sub_cancel, List.range_eq_range']
    · refine List.filter_congr fun i hi => decide_eq_decide.mpr ?_
      have hlt := (List.mem_range'_1.mp hi).2
      exact ⟨fun h => h.2, fun h => ⟨by omega, h⟩⟩
    · intro i hi
      obtain ⟨j, -, rfl⟩ := List.mem_map.mp hi
      omega

/-- A call on any buffer ends with the length exactly zero, and has then reported the types
behind the start codes inside the buffer, in order, and found the end of the last one. -/
theorem parseH264File_exact (m : Memory Byte) (n : ℕ) :
    ∃ k c, Scan.EndsAfter m (Scan.start n) k ∧ (Scan.next m)^[k] (Scan.start n) = c ∧
      c.types = (startCodesIn m n).map (fun i => m (i + 4) &&& 0x1f) ∧
      c.pParseBuff = ((startCodesIn m n).getLast?.map (· + 4)).getD 0 := by
  obtain ⟨k, hk, hend⟩ := Scan.endsAfter_parseFrom m 0 n 0 []
  refine ⟨k, _, hk, hend, ?_, ?_⟩
  · rw [startCodesIn_eq_starts, parseFrom_fst, List.map_map]
    rfl
  · rw [startCodesIn_eq_starts]
    exact parseFrom_snd_eq (cells m) 0 n 0

end H264Cast.FileParse

/-! ## Bytes inspected by a call -/

namespace H264Cast

namespace Inspect

def findNalType (p nReadLen : ℕ) : Probe Byte Bool :=
  if nReadLen < 4 then pure false else startCodeAt p

/-- The loop of the parser, with the types that it reports. -/
def parseFrom (pBuff nReadLen pParseBuff : ℕ) : Probe Byte (List Byte × ℕ) :=
  if nReadLen = 0 then pure ([], pParseBuff)
  else do
    if ← findNalType pBuff nReadLen then
      let header ← Probe.load (pBuff + 4)
      let r ← parseFrom (pBuff + 4) (nReadLen - 4) (pBuff + 4)
      return ((header &&& 0x1f) :: r.1, r.2)
    else parseFrom (pBuff + 1) (nReadLen - 1) pParseBuff
termination_by nReadLen

def parseH264File (nReadLen : ℕ) : Probe Byte (List Byte × ℕ) := parseFrom 0 nReadLen 0

end Inspect

/-- A call depends on the bytes it was given alone, and inspects no others. -/
structure ParsesWithin (m : Memory Byte) (n : ℕ) : Prop where
  same : ∀ m' : Memory Byte, (∀ i < n, m i = m' i) →
    (Inspect.parseH264File n).run m = (Inspect.parseH264File n).run m'
  inside : ∀ i ∈ (Inspect.parseH264File n).inspected m, i < n

namespace Inspect

variable {m : Memory Byte} {p n q i : ℕ}

theorem run_findNalType :
    (findNalType p n).run m = decide (FileParse.findNalType (FileParse.cells m) p n) := by
  unfold findNalType FileParse.findNalType
  split_ifs with hn
  · simp [Nat.not_le.mpr hn]
  · rw [run_startCodeAt]
    exact decide_eq_decide.mpr ⟨fun h => ⟨Nat.not_lt.mp hn, h⟩, fun h => h.2⟩

theorem lt_of_mem_findNalType (hi : i ∈ (findNalType p n).inspected m) : i < p + n := by
  unfold findNalType at hi
  split_ifs at hi with hn
  · simp at hi
  · have := (mem_inspected_startCodeAt.mp hi).2.1
    omega

/-- The parser with its accesses written out is the parser. -/
theorem run_parseFrom (m : Memory Byte) (p n q : ℕ) :
    (parseFrom p n q).run m =
      ((FileParse.parseFrom (FileParse.cells m) p n q).1.map fun cell => cell.byte &&& 0x1f,
        (FileParse.parseFrom (FileParse.cells m) p n q).2) := by
  fun_induction FileParse.parseFrom (FileParse.cells m) p n q with
  | case1 p q =>
    rw [parseFrom, if_pos rfl]
    rfl
  | case2 p n q hne h r ih =>
    rw [parseFrom, if_neg hne]
    simp only [Probe.bind_eq, Probe.run_bind, run_findNalType, h, decide_true, if_true,
      Probe.run_load, Probe.run_pure, ih, List.map_cons]
    rfl
  | case3 p n q hne h ih =>
    rw [parseFrom, if_neg hne]
    simp only [Probe.bind_eq, Probe.run_bind, run_findNalType, h, decide_false, if_false,
      Bool.false_eq_true, ih]

/-- The bytes behind the given ones are inspected only behind a start code at their end. -/
theorem lt_of_mem_parseFrom (hs : ¬ (4 ≤ n ∧ StartCodeAt m (p + n - 4)))
    (hi : i ∈ (parseFrom p n q).inspected m) : i < p + n := by
  fun_induction FileParse.parseFrom (FileParse.cells m) p n q with
  | case1 p q =>
    rw [parseFrom, if_pos rfl] at hi
    simp at hi
  | case2 p n q hne h r ih =>
    rw [parseFrom, if_neg hne] at hi
    simp only [Probe.bind_eq, Probe.inspected_bind, run_findNalType, h, decide_true, if_true,
      Probe.run_load, Probe.inspected_load, Probe.inspected_pure, List.mem_append,
      List.mem_singleton, List.not_mem_nil, or_false] at hi
    have hn : n ≠ 4 := by
      rintro rfl
      exact hs ⟨Nat.le_refl 4, h.2⟩
    have hle := h.1
    rcases hi with hi | rfl | hi
    · exact lt_of_mem_findNalType hi
    · omega
    · have hlast : ¬ (4 ≤ n - 4 ∧ StartCodeAt m (p + 4 + (n - 4) - 4)) := by
        rw [show p + 4 + (n - 4) - 4 = p + n - 4 by omega]
        exact fun hlast => hs ⟨hle, hlast.2⟩
      have := ih hlast hi
      omega
  | case3 p n q hne h ih =>
    rw [parseFrom, if_neg hne] at hi
    simp only [Probe.bind_eq, Probe.inspected_bind, run_findNalType, h, decide_false, if_false,
      Bool.false_eq_true, List.mem_append] at hi
    rcases hi with hi | hi
    · exact lt_of_mem_findNalType hi
    · have hlast : ¬ (4 ≤ n - 1 ∧ StartCodeAt m (p + 1 + (n - 1) - 4)) := by
        rw [show p + 1 + (n - 1) - 4 = p + n - 4 by omega]
        exact fun hlast => hs ⟨by omega, hlast.2⟩
      have := ih hlast hi
      omega

/-- The type behind every start code is inspected. -/
theorem mem_parseFrom_of_startCodeAt (hs : StartCodeAt m i) (hp : p ≤ i) (hi : i + 4 ≤ p + n) :
    i + 4 ∈ (parseFrom p n q).inspected m := by
  fun_induction FileParse.parseFrom (FileParse.cells m) p n q with
  | case1 p q => omega
  | case2 p n q hne h r ih =>
    rw [parseFrom, if_neg hne]
    simp only [Probe.bind_eq, Probe.inspected_bind, run_findNalType, h, decide_true, if_true,
      Probe.run_load, Probe.inspected_load, Probe.inspected_pure, List.mem_append,
      List.mem_singleton, List.not_mem_nil, or_false]
    rcases Nat.eq_or_lt_of_le hp with rfl | hlt
    · exact Or.inr (Or.inl rfl)
    · have hdisjoint : p + 4 ≤ i := StartCodeAt.disjoint h.2 hs hlt
      exact Or.inr (Or.inr (ih hdisjoint (by omega)))
  | case3 p n q hne h ih =>
    rw [parseFrom, if_neg hne]
    simp only [Probe.bind_eq, Probe.inspected_bind, run_findNalType, h, decide_false, if_false,
      Bool.false_eq_true, List.mem_append]
    have hne' : p ≠ i := by
      rintro rfl
      exact h ⟨by omega, hs⟩
    exact Or.inr (ih (by omega) (by omega))

end Inspect

variable {m : Memory Byte} {n : ℕ}

/-- A call stays within the bytes it was given exactly when they do not end in a start
code. -/
theorem parsesWithin_iff (m : Memory Byte) (n : ℕ) :
    ParsesWithin m n ↔ ¬ (4 ≤ n ∧ StartCodeAt m (n - 4)) := by
  constructor
  · rintro hw ⟨hn, hs⟩
    have hlt := hw.inside _ (Inspect.mem_parseFrom_of_startCodeAt (n := n) (q := 0) hs
      (Nat.zero_le _) (by omega))
    omega
  · intro hs
    have hinside : ∀ i ∈ (Inspect.parseH264File n).inspected m, i < n := by
      intro i hi
      have hlt := Inspect.lt_of_mem_parseFrom (p := 0) (by rwa [Nat.zero_add]) hi
      rwa [Nat.zero_add] at hlt
    exact ⟨fun m' hm => (Probe.congr fun i hi => hm i (hinside i hi)).1, hinside⟩

/-- A buffer that is a start code: the type reported is that of the byte behind it. -/
theorem not_parsesWithin_startCode : ¬ ∀ (m : Memory Byte) (n : ℕ), ParsesWithin m n := by
  intro hall
  let m : Memory Byte := Memory.write (fun _ => 0x65) 0 startCode
  let m' : Memory Byte := Memory.write (fun _ => 0x67) 0 startCode
  have hsame := (hall m 4).same m' fun i hi => Memory.write_congr (Nat.zero_le i) hi
  rw [Inspect.parseH264File, Inspect.run_parseFrom, Inspect.run_parseFrom, Prod.mk.injEq,
    FileParse.parseFrom_fst, FileParse.parseFrom_fst] at hsame
  exact absurd hsame.1 (by decide)

end H264Cast
