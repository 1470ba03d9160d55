import H264Cast.Library.Transition
import H264Cast.AnnexB.Split

/-! # The chunking loop of the clients

Both clients read a file into one buffer, cut the buffer at its start codes and send
the ranges. They differ only in what sending does, which is a parameter here. The
buffer keeps its old contents past the bytes read, and memory continues after it with
bytes that may change at any time.
-/

namespace H264Cast

/-- The two places where the loop sends a range, given a pointer and a length. Sending may
leave the program, and then there is no result. -/
structure Transport (σ : Type*) where
  inner : Memory Byte → ℕ → σ → Option σ
  tail : Memory Byte → ℕ → σ → Option σ

/-- The variables of the loop. `unread` is what is left of the open file, and `consumed`
records everything read so far. -/
structure Client (σ : Type*) where
  buf : Memory Byte
  nLast : ℕ
  unread : List Byte
  passes : ℕ
  consumed : List Byte
  out : σ

namespace Client

variable {σ : Type*}

/-- The variables before the first read. -/
def start (buf : Memory Byte) (file : List Byte) (out : σ) : Client σ where
  buf := buf
  nLast := 0
  unread := file
  passes := 0
  consumed := []
  out := out

/-- The bytes the next read returns. -/
def received (c : Client σ) : List Byte := c.unread.take (maxBuf - c.nLast)

/-- The number of valid bytes in the buffer after the read. -/
def filled (c : Client σ) : ℕ := c.received.length + c.nLast

/-- The read behind the retained bytes. -/
def fread (c : Client σ) : Client σ :=
  { c with
    buf := c.buf.write c.nLast c.received
    unread := c.unread.drop (maxBuf - c.nLast)
    consumed := c.consumed ++ c.received }

/-- The body of the inner loop, after a read that returned something. The move of the
retained bytes has no result when their number is negative. -/
def iterate (T : Transport σ) (c : Client σ) : Option (Client σ) :=
  let n := c.filled
  let c := c.fread
  match findNalStartCode c.buf 0 maxBuf with
  | none => some c
  | some startCode =>
    (splitLoop (fun startCode endCode => T.inner (c.buf.shift startCode) (endCode - startCode))
        c.buf n ⟨startCode, 0, 0, c.out⟩).bind fun l =>
      if 0 < l.sendCount ∧ n = maxBuf then
        if n < l.startCode then none
        else
          let nLast := n - l.startCode
          some { c with buf := c.buf.write 0 (c.buf.read l.startCode nLast), nLast, out := l.out }
      else
        (T.tail (c.buf.shift l.startCode) (n - l.sendLen) l.out).map fun out =>
          { c with nLast := 0, out }

/-- The steps of the program. Memory behind the buffer may change at any time; a read that
returns nothing ends the pass, and the file is opened again. The condition `ok` restricts
the states in which an iteration is taken. -/
inductive Step (T : Transport σ) (file : List Byte) (ok : Client σ → Prop) :
    Client σ → Client σ → Prop
  | behind (c : Client σ) (buf : Memory Byte) : (∀ i < maxBuf, buf i = c.buf i) →
      Step T file ok c { c with buf }
  | iterate {c c' : Client σ} : c.received ≠ [] → ok c → c.iterate T = some c' →
      Step T file ok c c'
  | reopen {c : Client σ} : c.received = [] →
      Step T file ok c { c with unread := file, passes := c.passes + 1 }

/-- The program from its start, with any contents of the buffer, restricted to iterations
taken under the condition. -/
def system (T : Transport σ) (file : List Byte) (out : σ) (ok : Client σ → Prop) :
    TransitionSystem (Client σ) where
  init c := ∃ buf, c = start buf file out
  step := Step T file ok

variable {T : Transport σ} {c c' : Client σ} {file : List Byte} {ok : Client σ → Prop}

@[simp] theorem fread_nLast : c.fread.nLast = c.nLast := rfl
@[simp] theorem fread_out : c.fread.out = c.out := rfl
@[simp] theorem fread_passes : c.fread.passes = c.passes := rfl
@[simp] theorem fread_consumed : c.fread.consumed = c.consumed ++ c.received := rfl

theorem received_start {buf : Memory Byte} {out : σ} :
    (start buf file out).received = file.take maxBuf := rfl

theorem unread_fread_start {buf : Memory Byte} {out : σ} :
    (start buf file out).fread.unread = file.drop maxBuf := rfl

theorem received_append_unread : c.received ++ c.fread.unread = c.unread :=
  List.take_append_drop _ _

/-- A read that leaves something unread has filled the buffer. -/
theorem filled_eq_of_unread (h : c.nLast < maxBuf) (hu : c.fread.unread ≠ []) :
    c.filled = maxBuf := by
  have hlt := List.length_pos_iff.mpr hu
  simp only [fread, List.length_drop] at hlt
  simp only [filled, received, List.length_take]
  omega

theorem read_fread : c.fread.buf.read 0 c.filled = c.buf.read 0 c.nLast ++ c.received := by
  rw [filled, Nat.add_comm]
  exact Memory.read_write_append _ _ _

theorem read_fread_nLast : c.fread.buf.read 0 c.nLast = c.buf.read 0 c.nLast :=
  Memory.read_write_before (Nat.le_of_eq (Nat.zero_add _))

/-- What one iteration can do. -/
theorem iterate_cases (h : c.iterate T = some c') :
    (findNalStartCode c.fread.buf 0 maxBuf = none ∧ c' = c.fread) ∨
    ∃ startCode l, findNalStartCode c.fread.buf 0 maxBuf = some startCode ∧
      splitLoop (fun startCode endCode =>
          T.inner (c.fread.buf.shift startCode) (endCode - startCode))
        c.fread.buf c.filled ⟨startCode, 0, 0, c.out⟩ = some l ∧
      ((0 < l.sendCount ∧ c.filled = maxBuf ∧ l.startCode ≤ c.filled ∧ c' = { c.fread with
          buf := c.fread.buf.write 0 (c.fread.buf.read l.startCode (c.filled - l.startCode))
          nLast := c.filled - l.startCode
          out := l.out }) ∨
        ((l.sendCount = 0 ∨ c.filled ≠ maxBuf) ∧ ∃ out,
          T.tail (c.fread.buf.shift l.startCode) (c.filled - l.sendLen) l.out = some out ∧
          c' = { c.fread with nLast := 0, out })) := by
  unfold iterate at h
  simp only [fread_out] at h
  split at h
  · rename_i hnone
    exact Or.inl ⟨hnone, (Option.some.inj h).symm⟩
  · rename_i startCode hsome
    obtain ⟨l, hl, h⟩ := Option.bind_eq_some_iff.mp h
    refine Or.inr ⟨startCode, l, hsome, hl, ?_⟩
    split_ifs at h with hif hle
    · exact Or.inl ⟨hif.1, hif.2, Nat.not_lt.mp hle, (Option.some.inj h).symm⟩
    · obtain ⟨out, hout, rfl⟩ := Option.map_eq_some_iff.mp h
      exact Or.inr ⟨by omega, out, hout, rfl⟩

theorem iterate_passes (h : c.iterate T = some c') : c'.passes = c.passes := by
  rcases iterate_cases h with ⟨-, rfl⟩ | ⟨_, _, -, -, ⟨-, -, -, rfl⟩ | ⟨-, _, -, rfl⟩⟩ <;> rfl

/-- An iteration that finds no start code keeps what it read out of the output. -/
theorem iterate_of_none (h : findNalStartCode c.fread.buf 0 maxBuf = none) :
    c.iterate T = some c.fread := by
  simp [iterate, h]

/-- An iteration that finds no second start code sends everything from the first on. -/
theorem iterate_of_single {startCode : ℕ}
    (hfirst : findNalStartCode c.fread.buf 0 maxBuf = some startCode)
    (hnext : findNalStartCode c.fread.buf (startCode + 4) c.filled = none) :
    c.iterate T = (T.tail (c.fread.buf.shift startCode) c.filled c.out).map
      fun out => { c.fread with nLast := 0, out } := by
  unfold iterate
  have hloop : nextStartCode c.fread.buf c.filled ⟨startCode, 0, 0, c.out⟩ = none := hnext
  simp [hfirst, splitLoop_none hloop]

/-- An iteration that finds two start codes in a buffer that is not full sends two ranges. -/
theorem iterate_of_pair {startCode endCode : ℕ} {out : σ}
    (hfirst : findNalStartCode c.fread.buf 0 maxBuf = some startCode)
    (hnext : findNalStartCode c.fread.buf (startCode + 4) c.filled = some endCode)
    (hlast : findNalStartCode c.fread.buf (endCode + 4) (c.filled - (endCode - startCode)) = none)
    (hinner : T.inner (c.fread.buf.shift startCode) (endCode - startCode) c.out = some out)
    (hfilled : c.filled ≠ maxBuf) :
    c.iterate T = (T.tail (c.fread.buf.shift endCode) (c.filled - (endCode - startCode)) out).map
      fun out => { c.fread with nLast := 0, out } := by
  have hloop : nextStartCode c.fread.buf c.filled ⟨startCode, 0, 0, c.out⟩ = some endCode := hnext
  have hend : nextStartCode c.fread.buf c.filled
      (Split.advance ⟨startCode, 0, 0, c.out⟩ endCode out) = none := by
    simpa [nextStartCode, Split.advance] using hlast
  have hl : splitLoop (fun startCode endCode =>
      T.inner (c.fread.buf.shift startCode) (endCode - startCode))
      c.fread.buf c.filled ⟨startCode, 0, 0, c.out⟩ =
        some ⟨endCode, 0 + (endCode - startCode), 0 + 1, out⟩ := by
    rw [splitLoop_some hloop, hinner]
    exact splitLoop_none hend
  unfold iterate
  simp [hfirst, hl, hfilled]

/-- An iteration whose split loop ends in a full buffer retains the rest. -/
theorem iterate_of_full {startCode : ℕ} {l : Split σ}
    (hfirst : findNalStartCode c.fread.buf 0 maxBuf = some startCode)
    (hl : splitLoop (fun startCode endCode =>
        T.inner (c.fread.buf.shift startCode) (endCode - startCode))
      c.fread.buf c.filled ⟨startCode, 0, 0, c.out⟩ = some l)
    (hcount : 0 < l.sendCount) (hfull : c.filled = maxBuf) (hle : l.startCode ≤ c.filled) :
    c.iterate T = some { c.fread with
      buf := c.fread.buf.write 0 (c.fread.buf.read l.startCode (c.filled - l.startCode))
      nLast := c.filled - l.startCode
      out := l.out } := by
  unfold iterate
  simp only [hfirst, fread_out, hl, Option.bind_some]
  rw [if_pos ⟨hcount, hfull⟩, if_neg (Nat.not_lt.mpr hle)]

/-- A property of the output that sending keeps. -/
structure Keeps (T : Transport σ) (P : σ → Prop) : Prop where
  inner : ∀ p len out out', P out → T.inner p len out = some out' → P out'
  tail : ∀ p len out out', P out → T.tail p len out = some out' → P out'

theorem Keeps.iterate {P : σ → Prop} (hT : Keeps T P) (hc : P c.out)
    (h : c.iterate T = some c') : P c'.out := by
  rcases iterate_cases h with ⟨-, rfl⟩ | ⟨startCode, l, -, hl, hcase⟩
  · exact hc
  have hout : P l.out := (splitLoop_invariant (P := fun l => P l.out) hl hc
    fun _ _ _ hP _ hbody => hT.inner _ _ _ _ hP hbody).1
  rcases hcase with ⟨-, -, -, rfl⟩ | ⟨-, out, hsend, rfl⟩
  · exact hout
  · exact hT.tail _ _ _ _ hout hsend

/-- A property that the first range of an aligned buffer establishes and that sending keeps
holds after the iteration. -/
theorem Keeps.iterate_first {P : σ → Prop} (hT : Keeps T P) (ha : StartCodeAt c.fread.buf 0)
    (hfilled : 4 ≤ c.filled)
    (hinner : ∀ p len out, StartCodeAt p 0 → 4 ≤ len → T.inner p len c.out = some out → P out)
    (htail : ∀ p len out, StartCodeAt p 0 → 4 ≤ len → T.tail p len c.out = some out → P out)
    (h : c.iterate T = some c') : P c'.out := by
  have hk : findNalStartCode c.fread.buf 0 maxBuf = some 0 :=
    findNalStartCode_self ha (by decide)
  have hshift : StartCodeAt (c.fread.buf.shift 0) 0 := ha
  rcases iterate_cases h with ⟨hnone, -⟩ | ⟨startCode, l, hsome, hl, hcase⟩
  · simp [hk] at hnone
  obtain rfl : 0 = startCode := Option.some.inj (hk.symm.trans hsome)
  cases hnext : nextStartCode c.fread.buf c.filled ⟨0, 0, 0, c.out⟩ with
  | none =>
    rw [splitLoop_none hnext] at hl
    obtain rfl := Option.some.inj hl
    rcases hcase with ⟨hcount, -⟩ | ⟨-, out, hsend, rfl⟩
    · simp at hcount
    · exact htail _ _ _ hshift hfilled hsend
  | some endCode =>
    obtain ⟨hle, -, -⟩ := nextStartCode_bounds hnext
    rw [splitLoop_some hnext] at hl
    obtain ⟨out, hsend, hl⟩ := Option.bind_eq_some_iff.mp hl
    have hout : P l.out := (splitLoop_invariant (P := fun l => P l.out) hl
      (hinner _ _ _ hshift hle hsend) fun _ _ _ hP _ hbody => hT.inner _ _ _ _ hP hbody).1
    rcases hcase with ⟨-, -, -, rfl⟩ | ⟨-, out, hsend, rfl⟩
    · exact hout
    · exact hT.tail _ _ _ _ hout hsend

/-- The number of retained bytes stays below the size of the buffer. -/
theorem nLast_lt {out₀ : σ} (h : (system T file out₀ ok).Reachable c) : c.nLast < maxBuf := by
  refine h.invariant (P := fun c => c.nLast < maxBuf) ?_ ?_
  · rintro _ ⟨buf, rfl⟩
    exact (by decide : 0 < maxBuf)
  · intro c c' hc hstep
    cases hstep with
    | behind => exact hc
    | reopen => exact hc
    | iterate _ _ hit =>
      rcases iterate_cases hit with ⟨-, rfl⟩ | ⟨startCode, l, -, hl, hcase⟩
      · exact hc
      have hpos : 0 < l.sendCount → 0 < l.startCode := by
        refine (splitLoop_invariant (P := fun l => 0 < l.sendCount → 0 < l.startCode) hl
          (by simp) ?_).1
        rintro l endCode out - hnext - -
        exact Nat.lt_of_lt_of_le (by simp) (nextStartCode_bounds hnext).1
      rcases hcase with ⟨hcount, hfull, hle, rfl⟩ | ⟨-, out, -, rfl⟩
      · have := hpos hcount
        simp only
        omega
      · exact (by decide : 0 < maxBuf)

end Client

end H264Cast
