import H264Cast.AnnexB.Split
import Mathlib.Data.Finset.Card
import Mathlib.Order.Interval.Finset.Nat

/-! # The receive loop of the servers

Both servers receive datagrams into one buffer, cut them at their start codes and append
the ranges to a file. They count the SPS units they see: nothing in front of the first one
is recorded by the split loop, and the file is closed at a limit in which the two servers
differ. The buffer keeps its contents behind the bytes received.
-/

namespace H264Cast

/-- The two servers. -/
inductive Server
  | udp
  | multicast
  deriving DecidableEq

/-- The value of the counter at which the file is closed. -/
def Server.limit : Server → ℤ
  | .udp => 10
  | .multicast => 15

/-- The counter of SPS units and the bytes appended to the file. -/
structure Recording where
  start : ℤ
  file : List Byte
  deriving DecidableEq

namespace Recording

/-- Count a unit if it is an SPS. The counter is an `int`, and there is no result when it
overflows. -/
def count (header : Byte) (r : Recording) : Option Recording :=
  if nalType header = 7 then
    if r.start + 1 < 2 ^ 31 then some { r with start := r.start + 1 } else none
  else some r

def fwrite (bytes : List Byte) (r : Recording) : Recording :=
  { r with file := r.file ++ bytes }

/-- The body of the split loop. The unit that is counted is the next one. -/
def inner (buf : Memory Byte) (startCode endCode : ℕ) (r : Recording) : Option Recording :=
  (r.count (buf (endCode + 4))).map fun r =>
    if r.start ≠ 0 then r.fwrite (buf.read startCode (endCode - startCode)) else r

/-- The last range of a datagram. Its place is computed from the bytes handled by the loop. -/
def tail (buf : Memory Byte) (reveiveLen n : ℕ) (r : Recording) : Recording :=
  if r.start < 2 then r.fwrite (buf.read reveiveLen (n - reveiveLen))
  else if nalType (buf (reveiveLen + 4)) ≠ 7 ∧ nalType (buf (reveiveLen + 4)) ≠ 8 then
    r.fwrite (buf.read reveiveLen (n - reveiveLen))
  else r

end Recording

/-- The variables of the loop. -/
structure Receiver where
  buf : Memory Byte
  opened : Bool
  out : Recording

/-- The buffer with a datagram in front. What does not fit into it is lost. -/
def Receiver.fill (c : Receiver) (datagram : List Byte) : Memory Byte :=
  c.buf.write 0 (datagram.take maxBuf)

/-- One iteration on a datagram. There is no result when the first scan finds nothing, since
its result is used all the same, and when the number of bytes to move is negative. -/
def receive (server : Server) (datagram : List Byte) (c : Receiver) : Option Receiver :=
  let received := datagram.take maxBuf
  let n := received.length
  if n = 0 then some c
  else
    let buf := c.buf.write 0 received
    (findNalStartCode buf 0 maxBuf).bind fun startCode =>
      (c.out.count (buf (startCode + 4))).bind fun r =>
        if nalType (buf (startCode + 4)) = 7 ∧ r.start = server.limit then
          some ⟨buf, false, r⟩
        else
          (splitLoop (Recording.inner buf) buf n ⟨startCode, 0, 0, r⟩).bind fun l =>
            if 0 < l.sendCount ∧ n = maxBuf then
              if n < l.startCode then none
              else
                some ⟨buf.write 0 (buf.read l.startCode (n - l.startCode)), c.opened, l.out⟩
            else some ⟨buf, c.opened, l.out.tail buf l.sendLen n⟩

/-- The loop on a sequence of datagrams. It ends when the file is closed. -/
def receiveAll (server : Server) : List (List Byte) → Receiver → Option Receiver
  | [], c => some c
  | d :: ds, c =>
    if c.opened then (receive server d c).bind (receiveAll server ds) else some c

/-- The longest datagram. -/
def maxDatagram : ℕ := 65507

/-- An SPS unit begins at the position. -/
def SpsAt (buf : Memory Byte) (q : ℕ) : Prop :=
  StartCodeAt buf q ∧ nalType (buf (q + 4)) = 7

/-- What a unit adds to the counter. -/
def spsOf (header : Byte) : ℕ := if nalType header = 7 then 1 else 0

instance (buf : Memory Byte) (q : ℕ) : Decidable (SpsAt buf q) :=
  inferInstanceAs (Decidable (_ ∧ _))

/-- The number of SPS units that begin between two positions. -/
def spsCount (buf : Memory Byte) (p t : ℕ) : ℕ := ((Finset.Ico p t).filter (SpsAt buf)).card

variable {buf buf' : Memory Byte} {p q t n startCode endCode : ℕ} {r r' : Recording}
  {header : Byte} {server : Server} {d : List Byte} {c c' : Receiver} {l l' : Split Recording}

namespace Recording

@[simp] theorem fwrite_file (bytes : List Byte) : (r.fwrite bytes).file = r.file ++ bytes := rfl

/-- What counting can do. -/
theorem count_cases (h : r.count header = some r') :
    (nalType header = 7 ∧ r.start + 1 < 2 ^ 31 ∧ r' = { r with start := r.start + 1 }) ∨
      (nalType header ≠ 7 ∧ r' = r) := by
  unfold count at h
  split_ifs at h with ht hs
  · exact Or.inl ⟨ht, hs, (Option.some.inj h).symm⟩
  · exact Or.inr ⟨ht, (Option.some.inj h).symm⟩

theorem count_of_sps (ht : nalType header = 7) (hs : r.start + 1 < 2 ^ 31) :
    r.count header = some { r with start := r.start + 1 } := by
  rw [count, if_pos ht, if_pos hs]

theorem count_of_not_sps (ht : nalType header ≠ 7) : r.count header = some r := if_neg ht

/-- The body looks at the current range and at the header of the next unit. -/
theorem inner_congr (h : ∀ i, startCode ≤ i → i ≤ endCode + 4 → buf i = buf' i)
    (hle : startCode ≤ endCode) (r : Recording) :
    r.inner buf startCode endCode = r.inner buf' startCode endCode := by
  have hread : buf.read startCode (endCode - startCode) =
      buf'.read startCode (endCode - startCode) :=
    Memory.read_congr fun i hi hlt => h i hi (by omega)
  rw [inner, inner, h (endCode + 4) (by omega) (Nat.le_refl _), hread]

theorem tail_congr (h : ∀ i, p ≤ i → i < n → buf i = buf' i) (hlt : p + 4 < n) (r : Recording) :
    r.tail buf p n = r.tail buf' p n := by
  have hread : buf.read p (n - p) = buf'.read p (n - p) :=
    Memory.read_congr fun i hi hlt => h i hi (by omega)
  rw [tail, tail, h (p + 4) (by omega) hlt, hread]

/-- The last range is written or not. -/
theorem tail_cases (buf : Memory Byte) (reveiveLen n : ℕ) (r : Recording) :
    r.tail buf reveiveLen n = r ∨
      r.tail buf reveiveLen n = r.fwrite (buf.read reveiveLen (n - reveiveLen)) := by
  unfold tail
  split_ifs
  · exact Or.inr rfl
  · exact Or.inr rfl
  · exact Or.inl rfl

@[simp] theorem tail_start (buf : Memory Byte) (reveiveLen n : ℕ) (r : Recording) :
    (r.tail buf reveiveLen n).start = r.start := by
  rcases tail_cases buf reveiveLen n r with h | h <;> rw [h]
  rfl

/-- Counting adds what the unit is worth. -/
theorem count_start (h : r.count header = some r') :
    r'.start = r.start + spsOf header ∧ r'.file = r.file := by
  rcases count_cases h with ⟨ht, -, rfl⟩ | ⟨ht, rfl⟩
  · rw [spsOf, if_pos ht]
    exact ⟨rfl, rfl⟩
  · rw [spsOf, if_neg ht]
    exact ⟨(Int.add_zero _).symm, rfl⟩

theorem count_isSome (r : Recording) (header : Byte) (h : r.start + spsOf header < 2 ^ 31) :
    ∃ r', r.count header = some r' := by
  by_cases ht : nalType header = 7
  · rw [spsOf, if_pos ht] at h
    exact ⟨_, count_of_sps ht h⟩
  · exact ⟨_, count_of_not_sps ht⟩

theorem count_lt (hs : r.start < 2 ^ 31) (h : r.count header = some r') : r'.start < 2 ^ 31 := by
  rcases count_cases h with ⟨-, hlt, rfl⟩ | ⟨-, rfl⟩
  · exact hlt
  · exact hs

/-- The body of the split loop counts the next unit and may write the current one. -/
theorem inner_cases (h : r.inner buf startCode endCode = some r') :
    r'.start = r.start + spsOf (buf (endCode + 4)) ∧
      (r'.file = r.file ∨ r'.file = r.file ++ buf.read startCode (endCode - startCode)) := by
  obtain ⟨r₁, hcount, rfl⟩ := Option.map_eq_some_iff.mp h
  obtain ⟨hstart, hfile⟩ := count_start hcount
  split_ifs
  · exact ⟨hstart, Or.inr (by rw [fwrite_file, hfile])⟩
  · exact ⟨hstart, Or.inl hfile⟩

theorem inner_isSome (h : r.start + spsOf (buf (endCode + 4)) < 2 ^ 31) :
    ∃ r', r.inner buf startCode endCode = some r' := by
  obtain ⟨r₁, hcount⟩ := count_isSome r _ h
  exact ⟨_, congrArg (Option.map _) hcount⟩

end Recording

theorem spsCount_of_none (h : findNalStartCode buf p n = none) :
    spsCount buf p (p + n - 4) = 0 := by
  rw [spsCount, Finset.card_eq_zero, Finset.filter_eq_empty_iff]
  intro q hq hs
  obtain ⟨hp, ht⟩ := Finset.mem_Ico.mp hq
  exact findNalStartCode_eq_none.mp h q hp (by omega) hs.1

/-- The SPS units from the first start code on. -/
theorem spsCount_of_some (h : findNalStartCode buf p n = some endCode) :
    spsCount buf p (p + n - 4) =
      spsOf (buf (endCode + 4)) + spsCount buf (endCode + 4) (p + n - 4) := by
  obtain ⟨hp, hlt, hs, hfirst⟩ := findNalStartCode_eq_some.mp h
  have hcases : ∀ q, p ≤ q → SpsAt buf q → q = endCode ∨ endCode + 4 ≤ q := by
    intro q hq hsq
    rcases Nat.lt_trichotomy q endCode with hlt | rfl | hgt
    · exact (hfirst q hq hlt hsq.1).elim
    · exact Or.inl rfl
    · exact Or.inr (hs.disjoint hsq.1 hgt)
  by_cases ht : nalType (buf (endCode + 4)) = 7
  · have hmem : endCode ∉ (Finset.Ico (endCode + 4) (p + n - 4)).filter (SpsAt buf) := by simp
    rw [spsOf, if_pos ht, Nat.add_comm 1, spsCount, spsCount, ← Finset.card_insert_of_notMem hmem]
    congr 1
    ext q
    simp only [Finset.mem_filter, Finset.mem_Ico, Finset.mem_insert]
    constructor
    · rintro ⟨⟨hq, hqt⟩, hsq⟩
      rcases hcases q hq hsq with rfl | hge
      · exact Or.inl rfl
      · exact Or.inr ⟨⟨hge, hqt⟩, hsq⟩
    · rintro (rfl | ⟨⟨hq, hqt⟩, hsq⟩)
      · exact ⟨⟨hp, by omega⟩, hs, ht⟩
      · exact ⟨⟨by omega, hqt⟩, hsq⟩
  · rw [spsOf, if_neg ht, Nat.zero_add, spsCount, spsCount]
    congr 1
    ext q
    simp only [Finset.mem_filter, Finset.mem_Ico]
    constructor
    · rintro ⟨⟨hq, hqt⟩, hsq⟩
      rcases hcases q hq hsq with rfl | hge
      · exact (ht hsq.2).elim
      · exact ⟨⟨hge, hqt⟩, hsq⟩
    · rintro ⟨⟨hq, hqt⟩, hsq⟩
      exact ⟨⟨by omega, hqt⟩, hsq⟩

/-- The SPS units the split loop still has in front of it. -/
def Split.ahead (buf : Memory Byte) (n : ℕ) (l : Split Recording) : ℕ :=
  spsCount buf (l.startCode + 4) (l.startCode + (n - l.sendLen))

theorem ahead_of_none (h : nextStartCode buf n l = none) : l.ahead buf n = 0 := by
  have hcount := spsCount_of_none h
  rwa [Nat.add_right_comm, Nat.add_sub_cancel] at hcount

theorem ahead_of_some (h : nextStartCode buf n l = some endCode) (out : Recording) :
    l.ahead buf n = spsOf (buf (endCode + 4)) + (l.advance endCode out).ahead buf n := by
  have hcount := spsCount_of_some h
  obtain ⟨hle, hlt, -⟩ := nextStartCode_bounds h
  rw [Nat.add_right_comm, Nat.add_sub_cancel] at hcount
  have hend : endCode + (n - (l.sendLen + (endCode - l.startCode))) =
      l.startCode + (n - l.sendLen) := by omega
  rw [Split.ahead, hcount, Split.ahead, Split.advance, hend]

/-- The split loop counts the SPS units in front of it. -/
theorem splitLoop_start (h : splitLoop (Recording.inner buf) buf n l = some l') :
    l'.out.start = l.out.start + l.ahead buf n := by
  induction l using splitLoop.induct (Recording.inner buf) buf n with
  | case1 l hnone =>
    rw [splitLoop_none hnone] at h
    obtain rfl := Option.some.inj h
    simp [ahead_of_none hnone]
  | case2 l endCode hsome hfail => simp [splitLoop_some hsome, hfail] at h
  | case3 l endCode hsome out hout ih =>
    rw [splitLoop_some hsome, hout] at h
    have hahead := ahead_of_some hsome out
    have hstart : (l.advance endCode out).out.start = _ := (Recording.inner_cases hout).1
    rw [ih h, hstart, hahead]
    push_cast
    omega

/-- The split loop ends when the counter does not overflow. -/
theorem splitLoop_inner_isSome (buf : Memory Byte) (n : ℕ)
    (h : l.out.start + l.ahead buf n < 2 ^ 31) :
    ∃ l', splitLoop (Recording.inner buf) buf n l = some l' := by
  refine splitLoop_isSome (P := fun l => l.out.start + l.ahead buf n < 2 ^ 31) h ?_
  intro l endCode hl hsome
  have hahead := ahead_of_some hsome
  obtain ⟨out, hout⟩ : ∃ out, l.out.inner buf l.startCode endCode = some out :=
    Recording.inner_isSome (by have := hahead l.out; omega)
  have hstart : (l.advance endCode out).out.start = _ := (Recording.inner_cases hout).1
  refine ⟨out, hout, ?_⟩
  rw [hahead out] at hl
  rw [hstart]
  push_cast at hl
  omega

theorem take_datagram (hlen : d.length ≤ maxDatagram) : d.take maxBuf = d := by
  have hbuf : maxDatagram < maxBuf := by decide
  exact List.take_of_length_le (by omega)

/-- An iteration on a datagram that does not fill the buffer. -/
theorem receive_eq (hd : d ≠ []) (hlen : d.length ≤ maxDatagram) :
    receive server d c =
      (findNalStartCode (c.buf.write 0 d) 0 maxBuf).bind fun startCode =>
        (c.out.count (c.buf.write 0 d (startCode + 4))).bind fun r =>
          if nalType (c.buf.write 0 d (startCode + 4)) = 7 ∧ r.start = server.limit then
            some ⟨c.buf.write 0 d, false, r⟩
          else
            (splitLoop (Recording.inner (c.buf.write 0 d)) (c.buf.write 0 d) d.length
              ⟨startCode, 0, 0, r⟩).map fun l =>
                ⟨c.buf.write 0 d, c.opened, l.out.tail (c.buf.write 0 d) l.sendLen d.length⟩ := by
  have hbuf : maxDatagram < maxBuf := by decide
  have htake := take_datagram hlen
  have hpos : d.length ≠ 0 := by rwa [Ne, List.length_eq_zero_iff]
  have hfull : ∀ l : Split Recording, ¬ (0 < l.sendCount ∧ d.length = maxBuf) := fun l => by omega
  simp only [receive, htake, if_neg hpos, if_neg (hfull _), Option.map_eq_bind, Function.comp_def]

/-- An iteration that closes the file. -/
theorem receive_of_closing {k : ℕ} (hd : d ≠ []) (hlen : d.length ≤ maxDatagram)
    (hk : findNalStartCode (c.buf.write 0 d) 0 maxBuf = some k)
    (ht : nalType (c.buf.write 0 d (k + 4)) = 7) (hs : c.out.start + 1 = server.limit) :
    receive server d c =
      some ⟨c.buf.write 0 d, false, { c.out with start := server.limit }⟩ := by
  have hlim : server.limit < 2 ^ 31 := by cases server <;> decide
  have hcount := Recording.count_of_sps ht (hs ▸ hlim)
  rw [hs] at hcount
  rw [receive_eq hd hlen, hk, Option.bind_some, hcount, Option.bind_some, if_pos ⟨ht, rfl⟩]

/-- What an iteration can do. -/
theorem receive_cases (hd : d ≠ []) (h : receive server d c = some c') :
    ∃ k r, findNalStartCode (c.fill d) 0 maxBuf = some k ∧
      c.out.count (c.fill d (k + 4)) = some r ∧
      ((nalType (c.fill d (k + 4)) = 7 ∧ r.start = server.limit ∧ c' = ⟨c.fill d, false, r⟩) ∨
        (¬ (nalType (c.fill d (k + 4)) = 7 ∧ r.start = server.limit) ∧
          ∃ l, splitLoop (Recording.inner (c.fill d)) (c.fill d) (d.take maxBuf).length
              ⟨k, 0, 0, r⟩ = some l ∧
            c'.opened = c.opened ∧ c'.out.start = l.out.start)) := by
  have hpos : (d.take maxBuf).length ≠ 0 := by
    rw [Ne, List.length_eq_zero_iff, List.take_eq_nil_iff, not_or]
    exact ⟨by decide, hd⟩
  simp only [receive, if_neg hpos] at h
  obtain ⟨k, hk, h⟩ := Option.bind_eq_some_iff.mp h
  obtain ⟨r, hr, h⟩ := Option.bind_eq_some_iff.mp h
  refine ⟨k, r, hk, hr, ?_⟩
  split_ifs at h with hclose
  · exact Or.inl ⟨hclose.1, hclose.2, (Option.some.inj h).symm⟩
  · obtain ⟨l, hl, h⟩ := Option.bind_eq_some_iff.mp h
    refine Or.inr ⟨hclose, l, hl, ?_⟩
    split_ifs at h with hfull hmove
    · obtain rfl := Option.some.inj h
      exact ⟨rfl, rfl⟩
    · obtain rfl := Option.some.inj h
      exact ⟨rfl, Recording.tail_start _ _ _ _⟩

/-- The SPS units from a start code on. -/
theorem spsCount_of_startCodeAt (hs : StartCodeAt buf p) (hn : 0 < n) :
    spsCount buf p (p + n) = spsOf (buf (p + 4)) + spsCount buf (p + 4) (p + n) := by
  have hfind : findNalStartCode buf p (n + 4) = some p := findNalStartCode_self hs (by omega)
  exact spsCount_of_some hfind

/-- The counter after an iteration is the limit or has counted the SPS units. -/
theorem receive_counts (hd : d ≠ []) (h : receive server d c = some c') :
    ∃ k, findNalStartCode (c.fill d) 0 maxBuf = some k ∧
      ((nalType (c.fill d (k + 4)) = 7 ∧ c.out.start + 1 = server.limit ∧ c'.opened = false ∧
          c'.out.start = server.limit) ∨
        (¬ (nalType (c.fill d (k + 4)) = 7 ∧ c.out.start + 1 = server.limit) ∧
          c'.opened = c.opened ∧
          c'.out.start = c.out.start + spsCount (c.fill d) k (k + (d.take maxBuf).length))) := by
  obtain ⟨k, r, hk, hr, hcase⟩ := receive_cases hd h
  have hstart := (Recording.count_start hr).1
  have hpos : 0 < (d.take maxBuf).length := by
    rw [List.length_take, Nat.lt_min]
    exact ⟨by decide, List.length_pos_iff.mpr hd⟩
  refine ⟨k, hk, ?_⟩
  rcases hcase with ⟨ht, hlim, rfl⟩ | ⟨hclose, l, hl, hopened, hout⟩
  · rw [spsOf, if_pos ht] at hstart
    exact Or.inl ⟨ht, hstart.symm.trans hlim, rfl, hlim⟩
  · refine Or.inr ⟨?_, hopened, ?_⟩
    · rintro ⟨ht, hlim⟩
      rw [spsOf, if_pos ht] at hstart
      exact hclose ⟨ht, hstart.trans hlim⟩
    · have hs := (findNalStartCode_eq_some.mp hk).2.2.1
      have hloop := splitLoop_start hl
      rw [hout, hloop, hstart, spsCount_of_startCodeAt hs hpos]
      simp only [Split.ahead, Nat.sub_zero]
      push_cast
      omega

/-- The counter after an iteration on a datagram that fits. -/
theorem receive_start (hd : d ≠ []) (hlen : d.length ≤ maxDatagram)
    (h : receive server d c = some c') :
    ∃ k, findNalStartCode (c.buf.write 0 d) 0 maxBuf = some k ∧
      ((nalType (c.buf.write 0 d (k + 4)) = 7 ∧ c.out.start + 1 = server.limit ∧
          c'.out.start = server.limit) ∨
        (¬ (nalType (c.buf.write 0 d (k + 4)) = 7 ∧ c.out.start + 1 = server.limit) ∧
          c'.out.start = c.out.start + spsCount (c.buf.write 0 d) k (k + d.length))) := by
  obtain ⟨k, hk, hcase⟩ := receive_counts hd h
  rw [Receiver.fill, take_datagram hlen] at hk hcase
  refine ⟨k, hk, ?_⟩
  rcases hcase with ⟨ht, hs, -, hs'⟩ | ⟨hclose, -, hs'⟩
  · exact Or.inl ⟨ht, hs, hs'⟩
  · exact Or.inr ⟨hclose, hs'⟩

/-- The counter of an iteration stays an `int`. -/
theorem receive_start_lt (hd : d ≠ []) (hs : c.out.start < 2 ^ 31)
    (h : receive server d c = some c') : c'.out.start < 2 ^ 31 := by
  obtain ⟨k, r, -, hr, ⟨-, -, rfl⟩ | ⟨-, l, hl, -, hout⟩⟩ := receive_cases hd h
  · exact Recording.count_lt hs hr
  · rw [hout]
    refine (splitLoop_invariant (P := fun l => l.out.start < 2 ^ 31) hl
      (Recording.count_lt hs hr) ?_).1
    intro l endCode out hlt _ hout
    obtain ⟨r₁, hcount, rfl⟩ := Option.map_eq_some_iff.mp hout
    have hlt' := Recording.count_lt hlt hcount
    simp only [Split.advance]
    split_ifs <;> exact hlt'

end H264Cast
