import H264Cast.AnnexB.Units
import H264Cast.Server.Receive

/-! # What is left in the buffer

The scans of an iteration run past the bytes received: the first over the whole buffer, the
later ones over a window of the length of the datagram behind the first start code. The
bytes found there come from earlier datagrams. An iteration is decided by its datagram when
this begins with a start code and its last byte cannot belong to one, or when its first
start code ends the recording.
-/

namespace H264Cast

/-- The bytes are ranges of the datagram, one after another. -/
def RangesOf (d bytes : List Byte) : Prop :=
  ∃ ranges : List (List Byte), ranges.flatten = bytes ∧ ∀ r ∈ ranges, r <:+: d

/-- With any two contents of the rest of the buffer, an iteration is defined, appends the same
ranges of the datagram and leaves the same counter. -/
def Determined (server : Server) (start : ℤ) (d : List Byte) : Prop :=
  ∀ (buf buf' : Memory Byte) (file : List Byte), (∀ i, maxBuf ≤ i → buf i = buf' i) →
    ∃ c c' bytes, receive server d ⟨buf, true, ⟨start, file⟩⟩ = some c ∧
      receive server d ⟨buf', true, ⟨start, file⟩⟩ = some c' ∧
      c.out.start = c'.out.start ∧ c.out.file = file ++ bytes ∧ c'.out.file = file ++ bytes ∧
      RangesOf d bytes

/-- A datagram in a buffer without zero bytes behind it. -/
def datagramMemory (d : List Byte) : Memory Byte := Memory.write (fun _ => 0xff) 0 d

/-- The end of the datagram cannot belong to a start code that needs more bytes. -/
structure Sealed (d : List Byte) : Prop where
  last_ne_zero : d.getLast? ≠ some 0x00
  no_startCode : ¬ startCode <:+ d

/-- The condition on a datagram. -/
inductive SelfContained (server : Server) (start : ℤ) (d : List Byte) : Prop
  | closing {k : ℕ} : findNalStartCode (datagramMemory d) 0 d.length = some k →
      nalType (datagramMemory d (k + 4)) = 7 → start + 1 = server.limit →
      SelfContained server start d
  | framed : findNalStartCode (datagramMemory d) 0 d.length = some 0 → Sealed d →
      start + spsCount (datagramMemory d) 0 d.length < 2 ^ 31 → SelfContained server start d

variable {server : Server} {start : ℤ} {d rest front bytes bytes' : List Byte} {k q : ℕ}
  {buf buf' m m' : Memory Byte} {file : List Byte}

theorem RangesOf.nil : RangesOf d [] := ⟨[], rfl, by simp⟩

theorem RangesOf.append (h : RangesOf d bytes) (h' : bytes' <:+: d) :
    RangesOf d (bytes ++ bytes') := by
  obtain ⟨ranges, rfl, hr⟩ := h
  refine ⟨ranges ++ [bytes'], by simp, ?_⟩
  intro r hmem
  rcases List.mem_append.mp hmem with hmem | hmem
  · exact hr r hmem
  · rwa [List.mem_singleton.mp hmem]

/-- The bytes of the datagram do not depend on the rest of the buffer. -/
theorem write_eq (m m' : Memory Byte) (h : q < d.length) : m.write 0 d q = m'.write 0 d q :=
  Memory.write_congr (Nat.zero_le _) (by omega)

theorem startCodeAt_write (m m' : Memory Byte) (h : q + 4 ≤ d.length) :
    StartCodeAt (m.write 0 d) q ↔ StartCodeAt (m'.write 0 d) q :=
  startCodeAt_congr fun _ _ hi => write_eq m m' (by omega)

/-- A range of the datagram in the buffer. -/
theorem read_write_isInfix (m : Memory Byte) (h : q + k ≤ d.length) :
    (m.write 0 d).read q k <:+: d := by
  have hr := Memory.read_isInfix (m.write 0 d) (Nat.zero_le q) (by omega : q + k ≤ 0 + d.length)
  rwa [Memory.read_write_self m 0 rfl] at hr

/-- The first start code of the datagram is the first in the buffer, also when it ends the
datagram. -/
theorem findNalStartCode_of_first (hlen : d.length ≤ maxDatagram)
    (hs : StartCodeAt (datagramMemory d) k) (hk : k + 4 ≤ d.length)
    (hfirst : ∀ q < k, ¬ StartCodeAt (datagramMemory d) q) (m : Memory Byte) :
    findNalStartCode (m.write 0 d) 0 maxBuf = some k := by
  have hbuf : maxDatagram < maxBuf := by decide
  refine findNalStartCode_eq_some.mpr ⟨Nat.zero_le _, by omega, ?_, ?_⟩
  · exact (startCodeAt_write _ _ hk).mp hs
  · intro q _ hlt hsq
    exact hfirst q hlt ((startCodeAt_write _ _ (by omega)).mp hsq)

theorem findNalStartCode_write (hlen : d.length ≤ maxDatagram)
    (h : findNalStartCode (datagramMemory d) 0 d.length = some k) (m : Memory Byte) :
    findNalStartCode (m.write 0 d) 0 maxBuf = some k := by
  obtain ⟨-, hlt, hs, hfirst⟩ := findNalStartCode_eq_some.mp h
  exact findNalStartCode_of_first hlen hs (by omega) (fun q hq => hfirst q (Nat.zero_le _) hq) m

/-- A start code at the end of the datagram. -/
theorem eq_append_startCode (hs : StartCodeAt (m.write 0 d) q) (hq : d.length = q + 4) :
    d = (m.write 0 d).read 0 q ++ startCode := by
  have hread := Memory.read_write_self m 0 (rfl : d.length = d.length)
  rw [hq, Memory.read_add, Nat.zero_add, startCodeAt_iff_read.mp hs] at hread
  exact hread.symm

/-- A start code that begins in the datagram lies in it, with one more byte. -/
theorem Sealed.lt_length (hd : Sealed d) (hs : StartCodeAt (m.write 0 d) q) (hq : q < d.length) :
    q + 4 < d.length := by
  by_contra hge
  have hl : m.write 0 d (d.length - 1) ≠ 0x00 := by
    intro h0
    apply hd.last_ne_zero
    have hmem := Memory.write_of_mem (m := m) (p := 0) (show d.length - 1 < d.length by omega)
    rw [Nat.zero_add] at hmem
    rw [List.getLast?_eq_getElem?, List.getElem?_eq_getElem (by omega), ← hmem, h0]
  have hcases : d.length - 1 = q ∨ d.length - 1 = q + 1 ∨ d.length - 1 = q + 2 ∨
      d.length = q + 4 := by omega
  rcases hcases with he | he | he | he
  · exact hl (he ▸ hs.1)
  · exact hl (he ▸ hs.2.1)
  · exact hl (he ▸ hs.2.2.1)
  · exact hd.no_startCode ⟨_, (eq_append_startCode hs he).symm⟩

/-- The start codes that begin in the datagram do not depend on the rest of the buffer. -/
theorem Sealed.startCodeAt_iff (hd : Sealed d) (m m' : Memory Byte) (hq : q < d.length) :
    StartCodeAt (m.write 0 d) q ↔ StartCodeAt (m'.write 0 d) q := by
  by_cases hle : q + 4 ≤ d.length
  · exact startCodeAt_write m m' hle
  · constructor
    · exact fun hs => (hle (hd.lt_length hs hq).le).elim
    · exact fun hs => (hle (hd.lt_length hs hq).le).elim

/-- The variables of the split loop in a datagram that begins with a start code. -/
structure Inside (d file : List Byte) (l : Split Recording) : Prop where
  sendLen_eq : l.sendLen = l.startCode
  lt_length : l.startCode + 4 < d.length
  file_eq : ∃ bytes, l.out.file = file ++ bytes ∧ RangesOf d bytes

theorem nextStartCode_lt {l : Split Recording} {endCode : ℕ} (h : l.sendLen = l.startCode)
    (hnext : nextStartCode m d.length l = some endCode) : endCode < d.length := by
  have hb := (nextStartCode_bounds hnext).2.1
  omega

theorem Inside.advance {l : Split Recording} {endCode : ℕ} {out : Recording} (hd : Sealed d)
    (h : Inside d file l) (hnext : nextStartCode (m.write 0 d) d.length l = some endCode)
    (hout : l.out.inner (m.write 0 d) l.startCode endCode = some out) :
    Inside d file (l.advance endCode out) := by
  obtain ⟨hle, -, hs⟩ := nextStartCode_bounds hnext
  have hlt := nextStartCode_lt h.sendLen_eq hnext
  obtain ⟨bytes, hfile, hr⟩ := h.file_eq
  constructor
  · have := h.sendLen_eq
    simp only [Split.advance]
    omega
  · exact hd.lt_length hs hlt
  · rcases (Recording.inner_cases hout).2 with heq | heq
    · exact ⟨bytes, heq.trans hfile, hr⟩
    · have hin : (m.write 0 d).read l.startCode (endCode - l.startCode) <:+: d :=
        read_write_isInfix m (by omega)
      refine ⟨_, ?_, hr.append hin⟩
      rw [← List.append_assoc, ← hfile]
      exact heq

/-- The last range lies in the datagram, too. -/
theorem Inside.tail {l : Split Recording} (h : Inside d file l) (m : Memory Byte) :
    ∃ bytes, (l.out.tail (m.write 0 d) l.sendLen d.length).file = file ++ bytes ∧
      RangesOf d bytes := by
  obtain ⟨bytes, hbytes, hranges⟩ := h.file_eq
  rcases Recording.tail_cases (m.write 0 d) l.sendLen d.length l.out with heq | heq
  · exact ⟨bytes, by rw [heq, hbytes], hranges⟩
  · have hle := h.lt_length
    have heq' := h.sendLen_eq
    have hrange : (m.write 0 d).read l.sendLen (d.length - l.sendLen) <:+: d :=
      read_write_isInfix m (by omega)
    refine ⟨_, ?_, hranges.append hrange⟩
    rw [heq, Recording.fwrite_file, hbytes, List.append_assoc]

/-- The split loop does not look behind a sealed datagram. -/
theorem Inside.splitLoop_eq {l : Split Recording} (h : Inside d file l) (hd : Sealed d)
    (m m' : Memory Byte) :
    splitLoop (Recording.inner (m.write 0 d)) (m.write 0 d) d.length l =
      splitLoop (Recording.inner (m'.write 0 d)) (m'.write 0 d) d.length l := by
  refine splitLoop_congr (P := Inside d file) h ?_ ?_ ?_
  · intro l hl
    apply findNalStartCode_congr
    intro q _ hq
    have := hl.sendLen_eq
    exact hd.startCodeAt_iff m m' (by omega)
  · intro l endCode hl hnext
    obtain ⟨hle, -, hs⟩ := nextStartCode_bounds hnext
    have hlt := hd.lt_length hs (nextStartCode_lt hl.sendLen_eq hnext)
    exact Recording.inner_congr (fun i _ hi => write_eq m m' (by omega)) (by omega) _
  · exact fun l endCode out hl hnext hout => hl.advance hd hnext hout

/-- The loop on a framed datagram whose first unit was counted. -/
theorem splitLoop_of_framed {r : Recording} (hd : Sealed d) (hlt : 4 < d.length)
    (hfile : r.file = file)
    (hmax : r.start + spsCount (datagramMemory d) 4 d.length < 2 ^ 31) :
    ∃ l, (∀ m : Memory Byte, splitLoop (Recording.inner (m.write 0 d)) (m.write 0 d) d.length
      ⟨0, 0, 0, r⟩ = some l) ∧ Inside d file l := by
  have hinit : Inside d file ⟨0, 0, 0, r⟩ := by
    refine ⟨rfl, ?_, [], ?_, .nil⟩
    · rwa [Nat.zero_add]
    · rw [hfile, List.append_nil]
  have hahead : Split.ahead (datagramMemory d) d.length ⟨0, 0, 0, r⟩ =
      spsCount (datagramMemory d) 4 d.length := by
    rw [Split.ahead, Nat.zero_add, Nat.zero_add, Nat.sub_zero]
  obtain ⟨l, hl⟩ := splitLoop_inner_isSome (datagramMemory d) d.length (l := ⟨0, 0, 0, r⟩)
    (by rwa [hahead])
  obtain ⟨hin, -⟩ := splitLoop_invariant (P := Inside d file) hl hinit
    fun l endCode out hl hnext hout => hl.advance hd hnext hout
  exact ⟨l, fun m => (hinit.splitLoop_eq hd m _).trans hl, hin⟩

/-- A framed datagram that does not close the file is recorded in ranges. -/
theorem receive_of_framed (hlen : d.length ≤ maxDatagram)
    (hk : findNalStartCode (datagramMemory d) 0 d.length = some 0) (hd : Sealed d)
    (hmax : start + spsCount (datagramMemory d) 0 d.length < 2 ^ 31)
    (hclose : ¬ (nalType (datagramMemory d 4) = 7 ∧ start + 1 = server.limit)) (file : List Byte) :
    ∃ out bytes, out.file = file ++ bytes ∧ RangesOf d bytes ∧ ∀ buf : Memory Byte,
      receive server d ⟨buf, true, ⟨start, file⟩⟩ = some ⟨buf.write 0 d, true, out⟩ := by
  obtain ⟨-, hlt, hs, -⟩ := findNalStartCode_eq_some.mp hk
  have hne : d ≠ [] := List.length_pos_iff.mp (by omega)
  have hsplit := spsCount_of_startCodeAt hs (List.length_pos_iff.mpr hne)
  simp only [Nat.zero_add] at hsplit hlt
  rw [hsplit] at hmax
  push_cast at hmax
  obtain ⟨r, hr⟩ := Recording.count_isSome ⟨start, file⟩ (datagramMemory d 4) (by simp only; omega)
  obtain ⟨hstart, hfile⟩ := Recording.count_start hr
  obtain ⟨l, hl, hin⟩ := splitLoop_of_framed hd hlt hfile (by simp only at hstart; omega)
  obtain ⟨bytes, hbytes, hranges⟩ := hin.tail fun _ => 0xff
  refine ⟨_, bytes, hbytes, hranges, fun buf => ?_⟩
  have hheader : buf.write 0 d 4 = datagramMemory d 4 := write_eq _ _ hlt
  have hopen : ¬ (nalType (datagramMemory d 4) = 7 ∧ r.start = server.limit) := by
    rintro ⟨ht, hlim⟩
    rw [hstart, spsOf, if_pos ht] at hlim
    exact hclose ⟨ht, hlim⟩
  have htail : l.sendLen + 4 < d.length := hin.sendLen_eq ▸ hin.lt_length
  rw [receive_eq hne hlen, findNalStartCode_write hlen hk, Option.bind_some]
  simp only [Nat.zero_add]
  rw [hheader, hr, Option.bind_some, if_neg hopen, hl buf, Option.map_some,
    Recording.tail_congr (fun i _ hi => write_eq buf (fun _ => 0xff) hi) htail]

/-- The condition is enough. -/
theorem determined_of_selfContained (hlen : d.length ≤ maxDatagram)
    (h : SelfContained server start d) : Determined server start d := by
  intro buf buf' file _
  have hclosing : ∀ {k : ℕ}, findNalStartCode (datagramMemory d) 0 d.length = some k →
      nalType (datagramMemory d (k + 4)) = 7 → start + 1 = server.limit → ∀ buf : Memory Byte,
      receive server d ⟨buf, true, ⟨start, file⟩⟩ =
        some ⟨buf.write 0 d, false, ⟨server.limit, file⟩⟩ := by
    intro k hk ht hs buf
    have hlt := (findNalStartCode_eq_some.mp hk).2.1
    have hne : d ≠ [] := List.length_pos_iff.mp (by omega)
    rw [datagramMemory, write_eq _ buf (by omega)] at ht
    exact receive_of_closing hne hlen (findNalStartCode_write hlen hk buf) ht hs
  cases h with
  | closing hk ht hs =>
    exact ⟨_, _, [], hclosing hk ht hs buf, hclosing hk ht hs buf', rfl,
      (List.append_nil _).symm, (List.append_nil _).symm, RangesOf.nil⟩
  | framed hk hd hmax =>
    by_cases hclose : nalType (datagramMemory d 4) = 7 ∧ start + 1 = server.limit
    · have hrun := hclosing hk (by simpa using hclose.1) hclose.2
      exact ⟨_, _, [], hrun buf, hrun buf', rfl, (List.append_nil _).symm,
        (List.append_nil _).symm, RangesOf.nil⟩
    · obtain ⟨out, bytes, hfile, hranges, hrun⟩ :=
        receive_of_framed hlen hk hd hmax hclose file
      exact ⟨_, _, bytes, hrun buf, hrun buf', rfl, hfile, hfile, hranges⟩

theorem datagramMemory_of_ge (h : d.length ≤ q) : datagramMemory d q = 0xff :=
  Memory.write_of_ge (by omega)

theorem datagramMemory_append_of_lt (rest : List Byte) (h : q < d.length) :
    datagramMemory (d ++ rest) q = datagramMemory d q := by
  have hd := Memory.write_of_mem (m := fun _ => 0xff) (p := 0) h
  have hr := Memory.write_of_mem (m := fun _ => 0xff) (p := 0)
    (show q < (d ++ rest).length by rw [List.length_append]; omega)
  rw [Nat.zero_add] at hd hr
  rw [datagramMemory, datagramMemory, hd, hr, List.getElem_append_left h]

/-- Receiving a datagram over itself changes nothing. -/
theorem write_datagramMemory (d rest : List Byte) :
    (datagramMemory (d ++ rest)).write 0 d = datagramMemory (d ++ rest) := by
  funext i
  rcases Nat.lt_or_ge i d.length with hi | hi
  · rw [datagramMemory_append_of_lt rest hi]
    exact write_eq _ _ hi
  · exact Memory.write_of_ge (by omega)

theorem write_datagramMemory_self (d : List Byte) :
    (datagramMemory d).write 0 d = datagramMemory d := by
  have hwrite := write_datagramMemory d []
  rwa [List.append_nil] at hwrite

/-- Every start code lies in the datagram. -/
theorem le_of_startCodeAt (hs : StartCodeAt (datagramMemory d) q) : q + 4 ≤ d.length := by
  by_contra hlt
  have hff : datagramMemory d (q + 3) = 0xff := datagramMemory_of_ge (by omega)
  exact absurd (hff.symm.trans hs.2.2.2) (by decide)

theorem lt_of_spsAt (hs : SpsAt (datagramMemory d) q) : q + 4 < d.length := by
  by_contra hlt
  have ht := hs.2
  rw [datagramMemory_of_ge (by omega)] at ht
  exact absurd ht (by decide)

theorem spsCount_eq_zero (h : d.length ≤ k + 4) (n : ℕ) :
    spsCount (datagramMemory d) k n = 0 := by
  rw [spsCount, Finset.card_eq_zero, Finset.filter_eq_empty_iff]
  intro i hi hs
  have hlt := lt_of_spsAt hs
  have hk := (Finset.mem_Ico.mp hi).1
  omega

/-- The bytes behind the datagram complete an SPS unit. -/
theorem spsAt_of_append (h : d ++ rest = front ++ (startCode ++ [0x07])) :
    SpsAt (datagramMemory (d ++ rest)) front.length := by
  have hread : (datagramMemory (d ++ rest)).read front.length 5 = startCode ++ [0x07] := by
    have hall := Memory.read_write_self (fun _ => (0xff : Byte)) 0 (rfl : (d ++ rest).length = _)
    have hdrop := congrArg (List.drop front.length) hall
    rw [Memory.drop_read, h, List.drop_left, List.length_append, Nat.add_sub_cancel_left,
      Nat.zero_add, ← h] at hdrop
    exact hdrop
  simp only [Memory.read, List.range_succ, startCode] at hread
  simp at hread
  obtain ⟨h₀, h₁, h₂, h₃, h₄⟩ := hread
  exact ⟨⟨h₀, h₁, h₂, h₃⟩, by rw [h₄]; decide⟩

/-- It is counted only when these bytes are there. -/
theorem spsCount_lt (h : d ++ rest = front ++ (startCode ++ [0x07]))
    (hcover : d.length ≤ front.length + 4) (hk : k ≤ front.length)
    (hfront : front.length < k + d.length) :
    spsCount (datagramMemory d) k (k + d.length) <
      spsCount (datagramMemory (d ++ rest)) k (k + d.length) := by
  refine Finset.card_lt_card ((Finset.ssubset_iff_of_subset ?_).mpr ⟨front.length, ?_, ?_⟩)
  · intro i hi
    obtain ⟨hmem, hs⟩ := Finset.mem_filter.mp hi
    have hlt := lt_of_spsAt hs
    refine Finset.mem_filter.mpr ⟨hmem, ?_, ?_⟩
    · exact (startCodeAt_congr fun j _ hj => datagramMemory_append_of_lt rest (by omega)).mpr hs.1
    · rw [datagramMemory_append_of_lt rest hlt]
      exact hs.2
  · exact Finset.mem_filter.mpr ⟨Finset.mem_Ico.mpr ⟨hk, hfront⟩, spsAt_of_append h⟩
  · intro hmem
    have := lt_of_spsAt (Finset.mem_filter.mp hmem).2
    omega

/-- Two contents of the buffer that are told apart by the counter. -/
theorem not_determined (front rest : List Byte) (hlen : d.length ≤ maxDatagram)
    (h : d ++ rest = front ++ (startCode ++ [0x07])) (hcover : d.length ≤ front.length + 4)
    (hle : front.length ≤ d.length) (hk : k ≤ front.length) (hfront : front.length < k + d.length)
    (hfind : findNalStartCode (datagramMemory d) 0 maxBuf = some k)
    (hfind' : findNalStartCode (datagramMemory (d ++ rest)) 0 maxBuf = some k)
    (hopen : ¬ (nalType (datagramMemory d (k + 4)) = 7 ∧ start + 1 = server.limit)) :
    ¬ Determined server start d := by
  intro hdet
  have hbuf : maxDatagram + 5 < maxBuf := by decide
  have hlength : (d ++ rest).length = front.length + 5 := by rw [h, List.length_append]; rfl
  have hne : d ≠ [] := List.length_pos_iff.mp (by omega)
  obtain ⟨c, c', -, hc, hc', heq, -⟩ := hdet (datagramMemory d) (datagramMemory (d ++ rest)) []
    fun i hi => by rw [datagramMemory_of_ge (by omega), datagramMemory_of_ge (by omega)]
  obtain ⟨j, hj, hstart⟩ := receive_start hne hlen hc
  obtain ⟨j', hj', hstart'⟩ := receive_start hne hlen hc'
  simp only [write_datagramMemory_self, write_datagramMemory] at hj hj' hstart hstart'
  obtain rfl := Option.some.inj (hfind.symm.trans hj)
  obtain rfl := Option.some.inj (hfind'.symm.trans hj')
  have hlt := spsCount_lt h hcover hk hfront
  rcases hstart with hclosed | ⟨-, hstart⟩
  · exact hopen ⟨hclosed.1, hclosed.2.1⟩
  rcases hstart' with ⟨ht, hlim, hstart'⟩ | ⟨-, hstart'⟩
  · -- the header of the first unit must be one of the bytes behind the datagram
    have hge : d.length ≤ k + 4 := by
      by_contra hlt
      rw [datagramMemory_append_of_lt rest (Nat.not_le.mp hlt)] at ht
      exact hopen ⟨ht, hlim⟩
    rw [spsCount_eq_zero hge] at hstart
    omega
  · omega

/-- A datagram whose only start code ends it: the next byte decides whether its unit is an
SPS. -/
theorem not_determined_of_suffix (hlen : d.length ≤ maxDatagram)
    (hs : StartCodeAt (datagramMemory d) k) (hk : d.length = k + 4)
    (hfirst : ∀ q < k, ¬ StartCodeAt (datagramMemory d) q) : ¬ Determined server start d := by
  have hfind := findNalStartCode_of_first hlen hs (by omega) hfirst
  have hself := hfind (datagramMemory d)
  have hnext := hfind (datagramMemory (d ++ [0x07]))
  rw [write_datagramMemory_self] at hself
  rw [write_datagramMemory] at hnext
  have hfront : ((datagramMemory d).read 0 k).length = k := Memory.length_read
  refine not_determined ((datagramMemory d).read 0 k) _ hlen ?_ ?_ ?_ ?_ ?_ hself hnext ?_
  · rw [← List.append_assoc]
    exact congrArg (· ++ [0x07]) (eq_append_startCode hs hk)
  · omega
  · omega
  · omega
  · omega
  · rintro ⟨ht, -⟩
    rw [datagramMemory_of_ge (by omega)] at ht
    exact absurd ht (by decide)

/-- A datagram without a start code is not enough. -/
theorem Determined.exists_startCode (hd : d ≠ []) (hlen : d.length ≤ maxDatagram)
    (h : Determined server start d) :
    ∃ k, findNalStartCode (datagramMemory d) 0 d.length = some k := by
  by_contra hnone
  have hfirst : ∀ q, q + 4 < d.length → ¬ StartCodeAt (datagramMemory d) q := by
    have hn := Option.eq_none_iff_forall_ne_some.mpr fun k hk => hnone ⟨k, hk⟩
    exact fun q hq => findNalStartCode_eq_none.mp hn q (Nat.zero_le _) (by omega)
  obtain ⟨c, -, -, hc, -⟩ := h (datagramMemory d) (datagramMemory d) [] fun _ _ => rfl
  obtain ⟨k, hk, -⟩ := receive_start hd hlen hc
  rw [write_datagramMemory_self] at hk
  have hs := (findNalStartCode_eq_some.mp hk).2.2.1
  have hle := le_of_startCodeAt hs
  have hlength : d.length = k + 4 := by
    by_contra hne
    exact hfirst k (by omega) hs
  exact not_determined_of_suffix hlen hs hlength (fun q hq => hfirst q (by omega)) h

/-- The condition is needed. -/
theorem selfContained_of_determined (hd : d ≠ []) (hlen : d.length ≤ maxDatagram)
    (hs : start < 2 ^ 31) (h : Determined server start d) : SelfContained server start d := by
  obtain ⟨k, hk⟩ := h.exists_startCode hd hlen
  have hlt := (findNalStartCode_eq_some.mp hk).2.1
  by_cases hclose : nalType (datagramMemory d (k + 4)) = 7 ∧ start + 1 = server.limit
  · exact .closing hk hclose.1 hclose.2
  have hfind : ∀ rest, findNalStartCode (datagramMemory (d ++ rest)) 0 maxBuf = some k := by
    intro rest
    have hwrite := findNalStartCode_write hlen hk (datagramMemory (d ++ rest))
    rwa [write_datagramMemory] at hwrite
  have hself : findNalStartCode (datagramMemory d) 0 maxBuf = some k := by simpa using hfind []
  obtain rfl : 0 = k := by
    by_contra hne
    exact not_determined d _ hlen (rfl : d ++ (startCode ++ [0x07]) = _) (by omega) (by omega)
      (by omega) (by omega) hself (hfind _) hclose h
  refine .framed hk ⟨?_, ?_⟩ ?_
  · intro hlast
    obtain ⟨front, rfl⟩ := List.getLast?_eq_some_iff.mp hlast
    rw [List.length_append, List.length_singleton] at hlt
    exact not_determined front [0x00, 0x00, 0x01, 0x07] hlen
      (by simp [startCode]) (by simp) (by simp) (by omega) (by simp) hself (hfind _) hclose h
  · rintro ⟨front, rfl⟩
    exact not_determined front [0x07] hlen (by simp) (by simp [startCode])
      (by simp) (by omega) (by simp [startCode]) hself (hfind _) hclose h
  · obtain ⟨c, -, -, hc, -⟩ := h (datagramMemory d) (datagramMemory d) [] fun _ _ => rfl
    have hbound := receive_start_lt hd hs hc
    obtain ⟨j, hj, hstart⟩ := receive_start hd hlen hc
    simp only [write_datagramMemory_self] at hj hstart
    obtain rfl := Option.some.inj (hself.symm.trans hj)
    rcases hstart with ⟨ht, hlim, -⟩ | ⟨-, hstart⟩
    · exact (hclose ⟨ht, hlim⟩).elim
    · rw [Nat.zero_add] at hstart
      exact hstart ▸ hbound

/-- The bytes left in the buffer have no influence exactly under the condition. -/
theorem determined_iff_selfContained (hd : d ≠ []) (hlen : d.length ≤ maxDatagram)
    (hs : start < 2 ^ 31) : Determined server start d ↔ SelfContained server start d :=
  ⟨selfContained_of_determined hd hlen hs, determined_of_selfContained hlen⟩

theorem determined_iff_selfContained_slice :
    Determined .udp 0 Nal.slice.unit ∧ Determined .multicast 9 Nal.slice.unit :=
  ⟨(determined_iff_selfContained (by decide) (by decide) (by decide)).mpr
      (.framed (by decide) ⟨by decide, by decide⟩ (by decide)),
    (determined_iff_selfContained (by decide) (by decide) (by decide)).mpr
      (.framed (by decide) ⟨by decide, by decide⟩ (by decide))⟩

/-- A datagram of one byte has no start code. -/
theorem not_determined_headless :
    ¬ Determined .udp 0 [0x65] ∧ ¬ Determined .multicast 0 [0x65] := by
  have hnone : findNalStartCode (datagramMemory [0x65]) 0 1 = none := by decide
  have hnot : ∀ server, ¬ Determined server 0 [0x65] := by
    intro server hdet
    obtain ⟨k, hk⟩ := hdet.exists_startCode (by decide) (by decide)
    exact absurd (hnone.symm.trans hk) (by simp)
  exact ⟨hnot .udp, hnot .multicast⟩

end H264Cast
