import H264Cast.Client.Loop

/-! # Conservation of bytes in the chunking loop

In a run in which the buffer begins with a start code after every read, the ranges
sent so far and the retained bytes together are the bytes read so far. An iteration
whose buffer does not begin with a start code loses bytes.
-/

namespace H264Cast

namespace Client

variable {σ : Type*} {T : Transport σ} {c c' : Client σ} {file : List Byte} {out₀ : σ}
  {sent : σ → List (List Byte)} {buf : Memory Byte} {n k : ℕ}

/-- Sending at either place records the range that was sent. -/
structure Records (T : Transport σ) (sent : σ → List (List Byte)) : Prop where
  inner : ∀ p len out out', T.inner p len out = some out' → sent out' = sent out ++ [p.read 0 len]
  tail : ∀ p len out out', T.tail p len out = some out' → sent out' = sent out ++ [p.read 0 len]

/-- The ranges sent so far, followed by the retained bytes, are the bytes read so far. -/
def Conserved (sent : σ → List (List Byte)) (c : Client σ) : Prop :=
  (sent c.out).flatten ++ c.buf.read 0 c.nLast = c.consumed

/-- After the next read the buffer begins with a start code. -/
def Aligned (c : Client σ) : Prop := StartCodeAt c.fread.buf 0

instance : Decidable (Aligned c) := inferInstanceAs (Decidable (StartCodeAt _ _))

/-- A read of a start code into an empty buffer aligns it. -/
theorem aligned_of_received {bs : List Byte} (hlast : c.nLast = 0)
    (hread : c.received = startCode ++ bs) : Aligned c := by
  have hbytes := c.read_fread
  rw [filled, hlast, hread, Memory.read_zero, List.nil_append] at hbytes
  rw [Aligned, startCodeAt_iff_read, ← Memory.take_read c.fread.buf 0
    (show 4 ≤ (startCode ++ bs).length + 0 by simp [startCode]), hbytes]
  rfl

/-- A read of one unit without zero bytes leaves no second start code in the buffer. -/
theorem not_startCodeAt_fread {bs : List Byte} (hlast : c.nLast = 0)
    (hread : c.received = startCode ++ bs) (hbs : ∀ b ∈ bs, b ≠ 0x00)
    (hbuf : ∀ i, c.buf i ≠ 0x00) (q : ℕ) (hq : 4 ≤ q) : ¬ StartCodeAt c.fread.buf q := by
  intro hs
  obtain ⟨i, rfl⟩ := Nat.exists_eq_add_of_le' hq
  have hzero : bs.getD i (c.buf (i + 4)) = 0x00 := by
    have hz := hs.1
    simpa [Client.fread, hlast, hread, Memory.write, startCode] using hz
  rcases Nat.lt_or_ge i bs.length with hi | hi
  · rw [List.getD_eq_getElem?_getD, List.getElem?_eq_getElem hi] at hzero
    exact hbs _ (List.getElem_mem hi) hzero
  · rw [List.getD_eq_getElem?_getD, List.getElem?_eq_none hi] at hzero
    exact hbuf _ hzero

/-- Such a unit is sent in one piece. -/
theorem iterate_of_plain {bs : List Byte} (hlast : c.nLast = 0)
    (hread : c.received = startCode ++ bs) (hbs : ∀ b ∈ bs, b ≠ 0x00)
    (hbuf : ∀ i, c.buf i ≠ 0x00) :
    c.iterate T = (T.tail (c.fread.buf.shift 0) c.filled c.out).map
      fun out => { c.fread with nLast := 0, out } := by
  apply iterate_of_single
  · exact findNalStartCode_self (aligned_of_received hlast hread) (by decide)
  · exact findNalStartCode_eq_none.mpr fun q hq _ =>
      not_startCodeAt_fread hlast hread hbs hbuf q (by omega)

/-- The ranges handled by the split loop are adjacent, from the first start code on. -/
theorem splitLoop_conserves (hT : Records T sent) {l : Split σ}
    (h : splitLoop (fun startCode endCode => T.inner (buf.shift startCode) (endCode - startCode))
      buf n ⟨k, 0, 0, c.out⟩ = some l) (hn : 0 < n) :
    k ≤ l.startCode ∧ l.startCode = k + l.sendLen ∧ l.sendLen < n ∧
      (0 < l.sendCount → 0 < l.sendLen) ∧
      (sent l.out).flatten = (sent c.out).flatten ++ buf.read k l.sendLen := by
  refine (splitLoop_invariant (P := fun l => k ≤ l.startCode ∧ l.startCode = k + l.sendLen ∧
    l.sendLen < n ∧ (0 < l.sendCount → 0 < l.sendLen) ∧
    (sent l.out).flatten = (sent c.out).flatten ++ buf.read k l.sendLen) h ?_ ?_).1
  · exact ⟨Nat.le_refl _, rfl, hn, fun h => h, by simp⟩
  · rintro l endCode out ⟨hk, hstart, hlen, -, hsent⟩ hnext hout
    obtain ⟨hle, hlt, -⟩ := nextStartCode_bounds hnext
    have hbytes := hT.inner _ _ _ _ hout
    simp only [Split.advance]
    refine ⟨by omega, by omega, by omega, by omega, ?_⟩
    rw [hbytes, List.flatten_append, hsent, List.append_assoc, Memory.read_add, hstart]
    simp

/-- What one iteration sends and keeps, when the first start code is found at `k`. -/
theorem iterate_conserves (hT : Records T sent) (h : c.iterate T = some c')
    (hread : c.received ≠ []) (hk : findNalStartCode c.fread.buf 0 maxBuf = some k) :
    c'.consumed = c.consumed ++ c.received ∧
      ∃ len, (len = c.filled ∨ len + k = c.filled) ∧
        (sent c'.out).flatten ++ c'.buf.read 0 c'.nLast =
          (sent c.out).flatten ++ c.fread.buf.read k len := by
  have hfilled : 0 < c.filled := Nat.add_pos_left (List.length_pos_iff.mpr hread) _
  rcases iterate_cases h with ⟨hnone, -⟩ | ⟨startCode, l, hsome, hl, hcase⟩
  · simp [hk] at hnone
  obtain rfl : k = startCode := Option.some.inj (hk.symm.trans hsome)
  obtain ⟨hle, hstart, hlt, -, hsent⟩ := splitLoop_conserves hT hl hfilled
  rcases hcase with ⟨-, -, hin, rfl⟩ | ⟨-, out, hout, rfl⟩
  · refine ⟨rfl, c.filled - k, Or.inr (by omega), ?_⟩
    rw [Memory.read_write_self _ _ (Memory.length_read), hsent, List.append_assoc, hstart,
      ← Memory.read_add]
    congr 2
    omega
  · refine ⟨rfl, c.filled, Or.inl rfl, ?_⟩
    have hadd := Memory.read_add c.fread.buf k l.sendLen (c.filled - l.sendLen)
    rw [Nat.add_sub_cancel' (by omega)] at hadd
    simp [hT.tail _ _ _ _ hout, hsent, hstart, hadd]

/-- An iteration on an aligned buffer conserves the bytes. -/
theorem Conserved.iterate (hT : Records T sent) (hc : Conserved sent c) (ha : Aligned c)
    (hread : c.received ≠ []) (h : c.iterate T = some c') : Conserved sent c' := by
  have hk : findNalStartCode c.fread.buf 0 maxBuf = some 0 :=
    findNalStartCode_self ha (by decide)
  obtain ⟨hcons, len, hlen, hsent⟩ := iterate_conserves hT h hread hk
  have he : len = c.filled := by omega
  rw [Conserved, hcons, hsent, he, read_fread, ← List.append_assoc, hc]

/-- An iteration that finds no start code loses what was read. -/
theorem Conserved.not_fread (hc : Conserved sent c) (hread : c.received ≠ []) :
    ¬ Conserved sent c.fread := by
  rw [Conserved, fread_out, fread_nLast, read_fread_nLast, fread_consumed, hc]
  simpa using hread

/-- An iteration on a buffer of four or more valid bytes that is not aligned loses bytes or
sends bytes that were not read. -/
theorem Conserved.not_iterate (hT : Records T sent) (hc : Conserved sent c) (ha : ¬ Aligned c)
    (hread : c.received ≠ []) (hfilled : 4 ≤ c.filled) (h : c.iterate T = some c') :
    ¬ Conserved sent c' := by
  cases hk : findNalStartCode c.fread.buf 0 maxBuf with
  | none =>
    obtain rfl : c.fread = c' := Option.some.inj ((iterate_of_none hk).symm.trans h)
    exact hc.not_fread hread
  | some k =>
    intro hc'
    obtain ⟨hcons, len, hlen, hsent⟩ := iterate_conserves hT h hread hk
    rw [Conserved, hcons, hsent, ← hc, List.append_assoc, ← read_fread,
      List.append_right_inj] at hc'
    have hlen' : len = c.filled := by simpa using congrArg List.length hc'
    obtain ⟨-, -, hs, -⟩ := findNalStartCode_eq_some.mp hk
    apply ha
    rw [Aligned, startCodeAt_iff_read, ← Memory.take_read _ _ hfilled, ← hc', hlen',
      Memory.take_read _ _ hfilled, ← startCodeAt_iff_read]
    exact hs

/-- In every run whose iterations all start from an aligned buffer, no byte is lost,
duplicated or invented. -/
theorem conserved_of_reachable (hT : Records T sent) (hout : sent out₀ = [])
    (h : (system T file out₀ Aligned).Reachable c) : Conserved sent c := by
  induction h with
  | init h =>
    obtain ⟨buf, rfl⟩ := h
    simp [Conserved, start, hout]
  | step hr hstep ih =>
    cases hstep with
    | behind buf hbuf =>
      have hlt := nLast_lt hr
      rw [Conserved, Memory.read_congr (fun i _ hi => hbuf i (by simp only at hi; omega))]
      exact ih
    | iterate hread ha hit => exact ih.iterate hT ha hread hit
    | reopen hread => exact ih

end Client

end H264Cast
