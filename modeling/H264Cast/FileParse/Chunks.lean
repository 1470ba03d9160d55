import H264Cast.FileParse.Parser

/-! # Parsing in pieces

While no start code is found the pieces are those of the file, one behind the other. As soon
as one is found in a piece that is not the last, the parser is not given as many bytes as
the buffer holds, and some bytes of the file never reach it. A file is parsed as a whole
exactly when its start codes with a byte behind them are those in the last piece.
-/

namespace H264Cast.FileParse

/-- The cells that the parser was given. -/
def given (f : File) (s : Reader) : List Cell := (readLoop f s).flatMap Call.given

/-- The headers that the parser reported. -/
def reported (f : File) (s : Reader) : List Cell := (readLoop f s).flatMap Call.reported

/-- The file is parsed as a whole: the types reported are those behind its start codes, each
start code is reported once and in order, and the parser is given every byte. -/
structure Whole (f : File) (beyond : Memory Byte) : Prop where
  types_eq : (reported f (.start beyond)).map (fun c => nalType c.byte) =
    f.startCodes.map fun i => nalType (f.content (i + 4))
  origins_eq : (reported f (.start beyond)).map Cell.origin =
    f.startCodes.map fun i => some (i + 4)
  consumed : ∀ x < f.length, f.cell x ∈ given f (.start beyond)

/-- The start of the last piece of a file that is read in whole pieces. -/
def lastPiece (f : File) : ℕ := maxBuffLen * ((f.length - 1) / maxBuffLen)

variable {f : File} {s : Reader} {x i k : ℕ}

theorem given_of_ne_zero (h : s.nReadLen f ≠ 0) :
    given f s = (s.fread f).read 0 (s.nReadLen f) ++ given f (s.next f).2 := by
  rw [given, readLoop_of_ne_zero h]
  rfl

theorem reported_of_ne_zero (h : s.nReadLen f ≠ 0) :
    reported f s = ((starts (bytes (s.fread f)) 0 (s.nReadLen f - 3)).map fun i =>
      s.fread f (i + 4)) ++ reported f (s.next f).2 := by
  rw [reported, readLoop_of_ne_zero h, List.flatMap_cons, ← parseH264File_fst]
  rfl

/-! ## Bytes that are lost -/

/-- As far as the buffer was filled its cells were kept or read. -/
theorem fread_cases (hi : i < s.nParseRemainLen + s.nReadLen f) :
    i < s.nParseRemainLen ∧ s.fread f i = s.buff i ∨
      ∃ j < s.nReadLen f, i = s.nParseRemainLen + j ∧
        (s.fread f i).origin = some (s.pos + j) := by
  rcases Nat.lt_or_ge i s.nParseRemainLen with hlt | hge
  · exact Or.inl ⟨hlt, fread_of_lt hlt⟩
  · obtain ⟨j, rfl⟩ := Nat.exists_eq_add_of_le hge
    have hj : j < s.nReadLen f := Nat.lt_of_add_lt_add_left hi
    exact Or.inr ⟨j, hj, rfl, by rw [fread_of_mem hj]; rfl⟩

/-- No cell of the buffer, as far as it was filled, comes from the place. -/
theorem origin_fread_ne (hx : x < s.pos)
    (hbuff : ∀ i < s.nParseRemainLen, (s.buff i).origin ≠ some x)
    (hi : i < s.nParseRemainLen + s.nReadLen f) : (s.fread f i).origin ≠ some x := by
  rcases fread_cases hi with ⟨hlt, heq⟩ | ⟨j, -, -, heq⟩
  · rw [heq]
    exact hbuff i hlt
  · rw [heq, Ne, Option.some.injEq]
    omega

/-- A byte that was read and is not kept is never given to the parser. -/
theorem origin_ne_of_lost (hx : x < s.pos)
    (hbuff : ∀ i < s.nParseRemainLen, (s.buff i).origin ≠ some x) :
    ∀ c ∈ given f s, c.origin ≠ some x := by
  rw [given]
  fun_induction readLoop f s with
  | case1 => exact fun c hc => absurd hc List.not_mem_nil
  | case2 s hne ih =>
    intro c hc
    rw [List.flatMap_cons, List.mem_append] at hc
    rcases hc with hc | hc
    · obtain ⟨i, hi, rfl⟩ := List.mem_map.mp hc
      rw [Nat.zero_add]
      exact origin_fread_ne hx hbuff (Nat.lt_add_left _ (List.mem_range.mp hi))
    · refine ih (Nat.lt_add_right _ hx) (fun i hi => ?_) c hc
      rw [buff_next_of_lt hi]
      have hle := nParseRemainLen_next_le f s
      exact origin_fread_ne hx hbuff (by omega)

/-- When bytes are kept, the last bytes read are lost. -/
theorem exists_lost (hpos : s.pos < f.length) (hkept : 0 < s.nParseRemainLen)
    (hbuff : ∀ i < s.nParseRemainLen, ∀ y, (s.buff i).origin = some y → y < s.pos) :
    ∃ x, s.pos ≤ x ∧ x < f.length ∧ ∀ c ∈ given f s, c.origin ≠ some x := by
  by_cases hzero : s.nReadLen f = 0
  · refine ⟨s.pos, Nat.le_refl _, hpos, fun c hc => ?_⟩
    rw [given, readLoop_of_zero hzero] at hc
    exact absurd hc List.not_mem_nil
  · have hle : s.nReadLen f ≤ f.length - s.pos := Nat.min_le_right _ _
    have hne : ∀ i < s.nReadLen f, (s.fread f i).origin ≠ some (s.pos + s.nReadLen f - 1) := by
      intro i hi he
      rcases fread_cases (Nat.lt_add_left _ hi) with ⟨hlt, heq⟩ | ⟨j, -, rfl, heq⟩
      · rw [heq] at he
        have := hbuff i hlt _ he
        omega
      · rw [heq, Option.some.injEq] at he
        omega
    refine ⟨s.pos + s.nReadLen f - 1, by omega, by omega, fun c hc => ?_⟩
    rw [given_of_ne_zero hzero, List.mem_append] at hc
    rcases hc with hc | hc
    · obtain ⟨i, hi, rfl⟩ := List.mem_map.mp hc
      rw [Nat.zero_add]
      exact hne i (List.mem_range.mp hi)
    · refine origin_ne_of_lost (s := (s.next f).2) ?_ (fun i hi => ?_) c hc
      · change s.pos + s.nReadLen f - 1 < s.pos + s.nReadLen f
        omega
      · rw [buff_next_of_lt hi]
        have hnext := nParseRemainLen_next_le f s
        exact hne _ (by omega)

/-! ## Pieces without start codes -/

/-- Nothing is kept, and what is in the buffer was read to its place in a whole piece. -/
structure Clean (s : Reader) : Prop where
  kept_eq : s.nParseRemainLen = 0
  aligned : s.pos % maxBuffLen = 0
  origin_lt : ∀ i y, (s.buff i).origin = some y → y < s.pos
  origin_mod : ∀ i y, (s.buff i).origin = some y → y % maxBuffLen = i

theorem clean_start (beyond : Memory Byte) : Clean (.start beyond) where
  kept_eq := rfl
  aligned := rfl
  origin_lt _ _ h := nomatch h
  origin_mod _ _ h := nomatch h

theorem Clean.fread_of_lt (hc : Clean s) (hi : i < s.nReadLen f) :
    s.fread f i = f.cell (s.pos + i) := by
  have h := fread_of_mem hi
  rwa [hc.kept_eq, Nat.zero_add] at h

theorem Clean.fread_of_ge (hc : Clean s) (hi : s.nReadLen f ≤ i) : s.fread f i = s.buff i :=
  FileParse.fread_of_ge (by rwa [hc.kept_eq, Nat.zero_add])

theorem Clean.read_fread (hc : Clean s) :
    (s.fread f).read 0 (s.nReadLen f) = f.cell.read s.pos (s.nReadLen f) := by
  apply List.ext_getElem (by simp)
  intro i hi _
  rw [Memory.length_read] at hi
  rw [Memory.getElem_read, Memory.getElem_read, Nat.zero_add, hc.fread_of_lt hi]

/-- The start codes in the buffer are those of the piece. -/
theorem Clean.starts_fread (hc : Clean s) :
    (starts (bytes (s.fread f)) 0 (s.nReadLen f - 3)).map (s.pos + ·) =
      starts f.content s.pos (s.nReadLen f - 3) := by
  have hrange : List.range' s.pos (s.nReadLen f - 3) =
      (List.range' 0 (s.nReadLen f - 3)).map (s.pos + ·) := by
    rw [List.map_add_range', Nat.add_zero]
  rw [starts, starts, hrange, List.filter_map]
  congr 1
  apply List.filter_congr
  intro i hi
  rw [List.mem_range'_1] at hi
  have hcell : ∀ j < s.nReadLen f, bytes (s.fread f) j = f.content (s.pos + j) :=
    fun j hj => congrArg Cell.byte (hc.fread_of_lt hj)
  have hiff : StartCodeAt (bytes (s.fread f)) i ↔ StartCodeAt f.content (s.pos + i) := by
    rw [StartCodeAt, StartCodeAt, hcell i (by omega), hcell (i + 1) (by omega),
      hcell (i + 2) (by omega), hcell (i + 3) (by omega)]
    rfl
  exact decide_eq_decide.mpr hiff

theorem Clean.reported_piece (hc : Clean s) :
    ((starts (bytes (s.fread f)) 0 (s.nReadLen f - 3)).map fun i => s.fread f (i + 4)) =
      (starts f.content s.pos (s.nReadLen f - 3)).map fun x => s.fread f (x - s.pos + 4) := by
  rw [← hc.starts_fread, List.map_map]
  apply List.map_congr_left
  intro i _
  rw [Function.comp_apply, Nat.add_sub_cancel_left]

theorem Clean.starts_eq_nil_iff (hc : Clean s) :
    starts (bytes (s.fread f)) 0 (s.nReadLen f - 3) = [] ↔
      starts f.content s.pos (s.nReadLen f - 3) = [] := by
  rw [← hc.starts_fread, List.map_eq_nil_iff]

theorem Clean.origin_fread_lt (hc : Clean s) {y : ℕ} (h : (s.fread f i).origin = some y) :
    y < s.pos + s.nReadLen f := by
  rcases Nat.lt_or_ge i (s.nReadLen f) with hlt | hge
  · rw [hc.fread_of_lt hlt] at h
    have := Option.some.inj h
    omega
  · rw [hc.fread_of_ge hge] at h
    exact Nat.lt_add_right _ (hc.origin_lt i y h)

/-- A whole piece without start codes is followed by the next one. -/
theorem Clean.next (hc : Clean s) (hn : s.nReadLen f = maxBuffLen)
    (hnil : starts f.content s.pos (s.nReadLen f - 3) = []) : Clean (s.next f).2 := by
  have hkept : (s.next f).2.nParseRemainLen = 0 := by
    rcases parseH264File_snd (s.fread f) (s.nReadLen f) with ⟨h, -⟩ | ⟨-, -, h⟩
    · exact h
    · exact absurd (hc.starts_eq_nil_iff.mpr hnil) h
  have hbuff : (s.next f).2.buff = s.fread f := by
    rw [buff_next, if_neg (not_not_intro hkept)]
  constructor
  · exact hkept
  · change (s.pos + s.nReadLen f) % maxBuffLen = 0
    rw [hn, Nat.add_mod_right, hc.aligned]
  · intro i y h
    rw [hbuff] at h
    exact hc.origin_fread_lt h
  · intro i y h
    rw [hbuff] at h
    rcases Nat.lt_or_ge i (s.nReadLen f) with hlt | hge
    · rw [hc.fread_of_lt hlt] at h
      obtain rfl := Option.some.inj h
      rw [Nat.add_mod, hc.aligned, Nat.zero_add, Nat.mod_mod, Nat.mod_eq_of_lt (hn ▸ hlt)]
    · rw [hc.fread_of_ge hge] at h
      exact hc.origin_mod i y h

theorem lastPiece_le (f : File) : lastPiece f ≤ f.length - 1 := Nat.mul_div_le _ _

theorem lt_lastPiece_add (f : File) : f.length - 1 < lastPiece f + maxBuffLen := by
  have h := Nat.div_add_mod (f.length - 1) maxBuffLen
  have hlt := Nat.mod_lt (f.length - 1) (show maxBuffLen > 0 by decide)
  rw [lastPiece]
  omega

/-- A start code that lies in a piece from the given place on, but not in the last one. -/
def Early (f : File) (p : ℕ) : Prop :=
  ∃ i, p ≤ i ∧ i < lastPiece f ∧ i % maxBuffLen + 4 ≤ maxBuffLen ∧ StartCodeAt f.content i

/-- An early start code is in this piece or in a later one. -/
theorem early_iff (hp : k % maxBuffLen = 0) (hlast : k + maxBuffLen ≤ lastPiece f) :
    Early f k ↔ starts f.content k (maxBuffLen - 3) ≠ [] ∨ Early f (k + maxBuffLen) := by
  have hmod : ∀ i, k ≤ i → i < k + maxBuffLen → i % maxBuffLen = i - k := by
    intro i hlo hhi
    obtain ⟨j, rfl⟩ := Nat.exists_eq_add_of_le hlo
    rw [Nat.add_mod, hp, Nat.zero_add, Nat.mod_mod, Nat.mod_eq_of_lt (by omega)]
    omega
  constructor
  · rintro ⟨i, hlo, hhi, hin, hs⟩
    rcases Nat.lt_or_ge i (k + maxBuffLen) with hlt | hge
    · rw [hmod i hlo hlt] at hin
      exact Or.inl (List.ne_nil_of_mem (mem_starts.mpr ⟨⟨hlo, by omega⟩, hs⟩))
    · exact Or.inr ⟨i, hge, hhi, hin, hs⟩
  · rintro (hne | ⟨i, hlo, hhi, hin, hs⟩)
    · obtain ⟨i, hi⟩ := List.exists_mem_of_ne_nil _ hne
      obtain ⟨⟨hlo, hhi⟩, hs⟩ := mem_starts.mp hi
      refine ⟨i, hlo, by omega, ?_, hs⟩
      rw [hmod i hlo (by omega)]
      omega
    · exact ⟨i, Nat.le_of_add_right_le hlo, hhi, hin, hs⟩

theorem Clean.nReadLen_eq (hc : Clean s) (hlast : s.pos + maxBuffLen ≤ lastPiece f) :
    s.nReadLen f = maxBuffLen := by
  have hle := lastPiece_le f
  rw [Reader.nReadLen, hc.kept_eq]
  omega

theorem Clean.pos_next (hc : Clean s) (hlast : s.pos + maxBuffLen ≤ lastPiece f) :
    (s.next f).2.pos = s.pos + maxBuffLen := by
  rw [← hc.nReadLen_eq hlast]
  rfl

/-- An early start code makes the loop lose bytes. -/
theorem Clean.exists_lost (hc : Clean s) (hk : s.pos + maxBuffLen * k = lastPiece f)
    (h : Early f s.pos) :
    ∃ x, s.pos ≤ x ∧ x < f.length ∧ ∀ c ∈ given f s, c.origin ≠ some x := by
  induction k generalizing s with
  | zero =>
    obtain ⟨i, hlo, hhi, -⟩ := h
    omega
  | succ k ih =>
    rw [Nat.mul_succ] at hk
    have hlast : s.pos + maxBuffLen ≤ lastPiece f := by omega
    have hlen := lastPiece_le f
    have hsize : 0 < maxBuffLen := by decide
    have hn := hc.nReadLen_eq hlast
    have hpos := hc.pos_next hlast
    have hnext : ∃ x, (s.next f).2.pos ≤ x ∧ x < f.length ∧
        ∀ c ∈ given f (s.next f).2, c.origin ≠ some x := by
      by_cases hnil : starts f.content s.pos (s.nReadLen f - 3) = []
      · refine ih (hc.next hn hnil) (by omega) ?_
        rw [hpos]
        exact ((early_iff hc.aligned hlast).mp h).resolve_left (not_not_intro (hn ▸ hnil))
      · apply FileParse.exists_lost
        · omega
        · rcases parseH264File_snd (s.fread f) (s.nReadLen f) with ⟨-, hnone⟩ | ⟨hlo, -⟩
          · exact absurd (hc.starts_eq_nil_iff.mp hnone) hnil
          · exact Nat.lt_of_lt_of_le (by decide) hlo
        · intro i hi y hy
          rw [buff_next_of_lt hi] at hy
          exact hc.origin_fread_lt hy
    obtain ⟨x, hlo, hhi, hx⟩ := hnext
    refine ⟨x, by omega, hhi, fun c hcmem => ?_⟩
    rw [given_of_ne_zero (by omega), List.mem_append] at hcmem
    rcases hcmem with hcmem | hcmem
    · obtain ⟨i, hi, rfl⟩ := List.mem_map.mp hcmem
      intro he
      have := hc.origin_fread_lt he
      omega
    · exact hx c hcmem

/-- Without early start codes the loop comes to the last piece. -/
theorem Clean.run (hc : Clean s) (hk : s.pos + maxBuffLen * k = lastPiece f)
    (h : ¬ Early f s.pos) :
    ∃ t, Clean t ∧ t.pos = lastPiece f ∧ reported f s = reported f t ∧
      given f s = f.cell.read s.pos (lastPiece f - s.pos) ++ given f t := by
  induction k generalizing s with
  | zero =>
    rw [Nat.mul_zero, Nat.add_zero] at hk
    refine ⟨s, hc, hk, rfl, ?_⟩
    rw [hk, Nat.sub_self]
    rfl
  | succ k ih =>
    rw [Nat.mul_succ] at hk
    have hlast : s.pos + maxBuffLen ≤ lastPiece f := by omega
    have hsize : 0 < maxBuffLen := by decide
    have hn := hc.nReadLen_eq hlast
    have hpos := hc.pos_next hlast
    rw [early_iff hc.aligned hlast, not_or, not_not, ← hn] at h
    obtain ⟨hnil, hlater⟩ := h
    obtain ⟨t, ht, htpos, hrep, hgiven⟩ := ih (hc.next hn hnil) (by omega) hlater
    refine ⟨t, ht, htpos, ?_, ?_⟩
    · rw [reported_of_ne_zero (by omega), hc.reported_piece, hnil, List.map_nil, List.nil_append,
        hrep]
    · have hsplit : lastPiece f - s.pos =
          maxBuffLen + (lastPiece f - (s.pos + maxBuffLen)) := by omega
      rw [given_of_ne_zero (by omega), hc.read_fread, hgiven, hpos, hn, hsplit, Memory.read_add,
        List.append_assoc]

/-! ## The last piece -/

theorem Clean.nReadLen_last (hc : Clean s) (hpos : s.pos = lastPiece f) :
    s.nReadLen f = f.length - lastPiece f := by
  have hlt := lt_lastPiece_add f
  rw [Reader.nReadLen, hc.kept_eq]
  omega

/-- The last piece is read and parsed in one call. -/
theorem Clean.last (hc : Clean s) (hpos : s.pos = lastPiece f) :
    reported f s = (starts f.content s.pos (f.length - s.pos - 3)).map
        (fun x => s.fread f (x - s.pos + 4)) ∧
      given f s = f.cell.read s.pos (f.length - s.pos) := by
  have hn : s.nReadLen f = f.length - s.pos := by rw [hpos, hc.nReadLen_last hpos]
  by_cases hzero : s.nReadLen f = 0
  · rw [reported, given, readLoop_of_zero hzero, ← hn, hzero]
    exact ⟨rfl, rfl⟩
  · have hend : (s.next f).2.nReadLen f = 0 := by
      have hle : (s.next f).2.nReadLen f ≤ f.length - (s.next f).2.pos := Nat.min_le_right _ _
      have hpos' : (s.next f).2.pos = s.pos + s.nReadLen f := rfl
      omega
    constructor
    · rw [reported_of_ne_zero hzero, hc.reported_piece, reported, readLoop_of_zero hend, ← hn]
      exact List.append_nil _
    · rw [given_of_ne_zero hzero, hc.read_fread, given, readLoop_of_zero hend, ← hn]
      exact List.append_nil _

theorem mem_startCodes : i ∈ f.startCodes ↔ StartCodeAt f.content i ∧ i + 4 < f.length := by
  rw [File.startCodes, List.mem_filter, List.mem_range, decide_eq_true_iff]
  exact and_iff_right_of_imp fun h => by omega

/-- The start codes in the last piece are those of the file. -/
theorem starts_lastPiece
    (h : ∀ i, StartCodeAt f.content i → i + 4 ≤ f.length →
      (lastPiece f ≤ i ↔ i + 4 < f.length)) :
    starts f.content (lastPiece f) (f.length - lastPiece f - 3) = f.startCodes := by
  have hsorted : (starts f.content (lastPiece f) (f.length - lastPiece f - 3)).Pairwise (· < ·) :=
    List.Pairwise.filter _ List.pairwise_lt_range'
  have hsorted' : f.startCodes.Pairwise (· < ·) := List.Pairwise.filter _ List.pairwise_lt_range
  apply hsorted.eq_of_mem_iff hsorted'
  intro i
  rw [mem_starts, mem_startCodes]
  constructor
  · rintro ⟨⟨hlo, hhi⟩, hs⟩
    exact ⟨hs, (h i hs (by omega)).mp hlo⟩
  · rintro ⟨hs, hlt⟩
    exact ⟨⟨(h i hs hlt.le).mpr hlt, by have := (h i hs hlt.le).mpr hlt; omega⟩, hs⟩

theorem not_early (h : ∀ i, StartCodeAt f.content i → i + 4 ≤ f.length →
    (lastPiece f ≤ i ↔ i + 4 < f.length)) (p : ℕ) : ¬ Early f p := by
  rintro ⟨i, -, hlt, hin, hs⟩
  have hle := lastPiece_le f
  -- A start code in a piece ends in it, in front of the last one.
  have hend : i + 4 ≤ lastPiece f := by
    rw [lastPiece] at hlt ⊢
    have hdiv : i / maxBuffLen + 1 ≤ (f.length - 1) / maxBuffLen :=
      Nat.div_lt_of_lt_mul hlt
    have hmul := Nat.mul_le_mul_left maxBuffLen hdiv
    have hi := Nat.div_add_mod i maxBuffLen
    rw [Nat.mul_succ] at hmul
    omega
  have := (h i hs (by omega)).mpr (by omega)
  omega

/-- A file whose start codes are in the last piece is parsed as a whole. -/
theorem whole_of_lastPiece (beyond : Memory Byte)
    (h : ∀ i, StartCodeAt f.content i → i + 4 ≤ f.length →
      (lastPiece f ≤ i ↔ i + 4 < f.length)) : Whole f beyond := by
  obtain ⟨t, ht, hpos, hrep, hgiven⟩ :=
    (clean_start beyond).run (Nat.zero_add _) (not_early h _)
  obtain ⟨hlast, hgiven'⟩ := ht.last hpos
  have hle := lastPiece_le f
  have hheader : reported f (.start beyond) = f.startCodes.map fun i => f.cell (i + 4) := by
    rw [hrep, hlast, hpos, starts_lastPiece h]
    apply List.map_congr_left
    intro i hi
    obtain ⟨hs, hlt⟩ := mem_startCodes.mp hi
    have hlo := (h i hs hlt.le).mpr hlt
    have hn : i - lastPiece f + 4 < t.nReadLen f := by
      rw [ht.nReadLen_last hpos]
      omega
    rw [ht.fread_of_lt hn, hpos]
    congr 1
    omega
  constructor
  · rw [hheader, List.map_map]
    rfl
  · rw [hheader, List.map_map]
    rfl
  · intro x hx
    have hall : given f (.start beyond) = f.cell.read 0 f.length := by
      have hsplit : f.length = lastPiece f + (f.length - lastPiece f) := by omega
      rw [hgiven, hgiven', hpos]
      conv_rhs => rw [hsplit, Memory.read_add, Nat.zero_add]
      rfl
    rw [hall]
    exact List.mem_map.mpr ⟨x, List.mem_range.mpr hx, by rw [Nat.zero_add]⟩

/-- The header that is reported for a start code at the end of the file comes from an earlier
piece or from nowhere. -/
theorem Clean.stale (hc : Clean s) (hpos : s.pos = lastPiece f) (hearly : ¬ Early f 0)
    (hend : lastPiece f ≤ i) (hlen : i + 4 = f.length) :
    ∀ j ∈ f.startCodes, (s.fread f (i - s.pos + 4)).origin ≠ some (j + 4) := by
  intro j hj he
  obtain ⟨hs, hlt⟩ := mem_startCodes.mp hj
  have hmax := lt_lastPiece_add f
  rw [hc.fread_of_ge (by rw [hc.nReadLen_last hpos]; omega)] at he
  have hbefore := hc.origin_lt _ _ he
  have hmod := hc.origin_mod _ _ he
  refine hearly ⟨j, Nat.zero_le j, by omega, ?_, hs⟩
  simp only [maxBuffLen] at hmod ⊢
  omega

theorem lastPiece_of_whole {beyond : Memory Byte} (h : Whole f beyond)
    (hs : StartCodeAt f.content i) (hi : i + 4 ≤ f.length) :
    lastPiece f ≤ i ↔ i + 4 < f.length := by
  have hearly : ¬ Early f 0 := by
    intro hearly
    obtain ⟨x, -, hx, hlost⟩ := (clean_start beyond).exists_lost (Nat.zero_add _) hearly
    exact hlost _ (h.consumed x hx) rfl
  obtain ⟨t, ht, hpos, hrep, -⟩ := (clean_start beyond).run (Nat.zero_add _) hearly
  obtain ⟨hlast, -⟩ := ht.last hpos
  have horigins := h.origins_eq
  rw [hrep, hlast, List.map_map, hpos] at horigins
  constructor
  · intro hlo
    by_contra hnot
    -- The parser reports a start code at the end of the file.
    have hmem : i ∈ starts f.content (lastPiece f) (f.length - lastPiece f - 3) :=
      mem_starts.mpr ⟨⟨hlo, by omega⟩, hs⟩
    have hreport := List.mem_map_of_mem (f := Cell.origin ∘ fun x =>
      t.fread f (x - lastPiece f + 4)) hmem
    rw [horigins] at hreport
    obtain ⟨j, hj, he⟩ := List.mem_map.mp hreport
    exact ht.stale hpos hearly hlo (by omega) j hj (by rw [hpos]; exact he.symm)
  · intro hlt
    have hmem : some (i + 4) ∈ f.startCodes.map fun i => some (i + 4) :=
      List.mem_map_of_mem (mem_startCodes.mpr ⟨hs, hlt⟩)
    rw [← horigins] at hmem
    obtain ⟨j, hj, he⟩ := List.mem_map.mp hmem
    obtain ⟨⟨hlo, hhi⟩, hsj⟩ := mem_starts.mp hj
    by_cases hjlast : j + 4 = f.length
    · exact absurd (by rw [hpos]; exact he)
        (ht.stale hpos hearly hlo hjlast i (mem_startCodes.mpr ⟨hs, hlt⟩))
    · have hn : j - lastPiece f + 4 < t.nReadLen f := by
        rw [ht.nReadLen_last hpos]
        omega
      rw [Function.comp_apply, ht.fread_of_lt hn, hpos] at he
      have := Option.some.inj he
      omega

/-- A file is parsed as a whole exactly when the start codes in its last piece are those that
are followed by a byte. -/
theorem whole_iff (f : File) (beyond : Memory Byte) :
    Whole f beyond ↔ ∀ i, StartCodeAt f.content i → i + 4 ≤ f.length →
      (lastPiece f ≤ i ↔ i + 4 < f.length) :=
  ⟨fun h _ hs hi => lastPiece_of_whole h hs hi, whole_of_lastPiece beyond⟩

/-- A start code at the end of the first piece, with its header in the second one. -/
def boundary : File where
  content i := if i = 1023 then 0x01 else if i = 1024 then 0x65 else 0x00
  length := 1025

/-- The start code fills the buffer, and the loop ends without its header. -/
theorem not_whole_boundary : ¬ Whole boundary fun _ => 0x00 := by
  intro h
  have hiff := lastPiece_of_whole (i := 1020) h ⟨rfl, rfl, rfl, rfl⟩ (by decide)
  exact absurd (hiff.mpr (by decide)) (by decide)

end H264Cast.FileParse
