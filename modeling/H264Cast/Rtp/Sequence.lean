import H264Cast.Rtp.Packetizer

/-! # Sequence numbers

The counter wraps by itself at 65536 and is in addition reduced modulo 65535 when it
is written to a packet. The packets of a run therefore carry consecutive numbers up
to 65534; the next packet carries 0 in place of 65535.
-/

namespace H264Cast

open Packetizer

/-- The sequence number of a packet, read in network order. -/
def seqNo (packet : List Byte) : BitVec 16 := packet.getD 2 0 ++ packet.getD 3 0

/-- Each packet carries the number of the one before it plus one, and packets less than
65536 apart carry different numbers. -/
def SequenceLaw (packets : List (List Byte)) : Prop :=
  (∀ i (h : i + 1 < packets.length), seqNo packets[i + 1] = seqNo packets[i] + 1) ∧
  ∀ i j (_ : i < j) (h : j < packets.length), j - i < 65536 → seqNo packets[i] ≠ seqNo packets[j]

/-- The number of packets a sequence of calls sends. -/
def packetTotal (calls : List Call) : ℕ := (calls.map fun a => packetCount a.naluLen).sum

variable {calls : List Call} {c c' : Packetizer} {packets : List (List Byte)} {n : ℕ}

theorem htons_bytes (x : BitVec 16) :
    (htons x).extractLsb' 0 8 ++ (htons x).extractLsb' 8 8 = x := by
  rw [htons, BitVec.extractLsb'_append_eq_right, BitVec.extractLsb'_append_eq_left]
  exact BitVec.extractLsb'_append_extractLsb'

theorem seqNo_header (h : RtpHeader) (x : BitVec 16) (body : List Byte) (hx : h.seqNo = htons x) :
    seqNo (h.toBytes ++ body) = x := by
  rw [← htons_bytes x, ← hx]
  rfl

theorem seqNo_packetOf (ts : BitVec 32) (seq : BitVec 16) (naluBuf : Memory Byte)
    (naluLen i : ℕ) :
    seqNo (packetOf ts seq naluBuf naluLen i) = (seq + 1 + BitVec.ofNat 16 i) % 0xffff := by
  unfold packetOf
  split_ifs <;> exact seqNo_header _ _ _ rfl

theorem map_seqNo_packetsOf (framerate : ℤ) (ts : BitVec 32) (seq : BitVec 16)
    (naluBuf : Memory Byte) (naluLen : ℕ) :
    (packetsOf framerate ts seq naluBuf naluLen).map seqNo =
      (List.range (packetCount naluLen)).map fun i => (seq + 1 + BitVec.ofNat 16 i) % 0xffff := by
  simp only [packetsOf, List.map_map, Function.comp_def, seqNo_packetOf]

/-- The sequence numbers sent by a run. -/
theorem map_seqNo_runCalls (h : runCalls calls c = some c') :
    c'.sent.map seqNo = c.sent.map seqNo ++ (List.range (packetTotal calls)).map
      fun i => (c.seqNum + 1 + BitVec.ofNat 16 i) % 0xffff := by
  induction calls generalizing c with
  | nil =>
    obtain rfl : c = c' := Option.some.inj h
    simp [packetTotal]
  | cons a calls ih =>
    obtain ⟨ret, c₁, h₁, hrest⟩ := runCalls_cons.mp h
    obtain ⟨-, -, -, hseq, hsent⟩ := h264nal2rtpSend_spec h₁
    have hshift (i : ℕ) : c₁.seqNum + 1 + BitVec.ofNat 16 i =
        c.seqNum + 1 + BitVec.ofNat 16 (packetCount a.naluLen + i) := by
      rw [hseq, BitVec.ofNat_add]
      ac_rfl
    simp only [ih hrest, hsent, List.map_append, map_seqNo_packetsOf, hshift, packetTotal,
      List.map_cons, List.sum_cons, List.range_add, List.map_map, Function.comp_def,
      List.append_assoc]

/-- The sequence numbers sent by a run from the zeroed counter. -/
theorem map_seqNo_of_zero {ts : BitVec 32} {sendBuffer : Memory Byte}
    (h : runCalls calls ⟨ts, 0, sendBuffer, []⟩ = some c) :
    c.sent.map seqNo = (List.range (packetTotal calls)).map
      fun i => (1 + BitVec.ofNat 16 i : BitVec 16) % 0xffff := by
  simpa using map_seqNo_runCalls h

theorem toNat_seqNo (i : ℕ) :
    ((1 + BitVec.ofNat 16 i : BitVec 16) % 0xffff).toNat = (1 + i) % 65536 % 65535 := by
  simp [BitVec.toNat_umod, BitVec.toNat_add]

/-- The law over numbers counted from one and reduced as the sender does. -/
theorem sequenceLaw_iff
    (h : packets.map seqNo =
      (List.range n).map fun i => (1 + BitVec.ofNat 16 i : BitVec 16) % 0xffff) :
    SequenceLaw packets ↔ n ≤ 65534 := by
  have hlen : packets.length = n := by simpa using congrArg List.length h
  have hnat (i : ℕ) (hi : i < packets.length) :
      (seqNo packets[i]).toNat = (1 + i) % 65536 % 65535 := by
    have he := List.getElem_of_eq h (show i < (packets.map seqNo).length by simpa using hi)
    simp only [List.getElem_map, List.getElem_range] at he
    rw [he, toNat_seqNo]
  constructor
  · rintro ⟨hnext, -⟩
    by_contra hn
    have hstep := congrArg BitVec.toNat (hnext 65533 (by omega))
    rw [BitVec.toNat_add, hnat _ (by omega), hnat _ (by omega)] at hstep
    revert hstep
    decide
  · intro hn
    refine ⟨fun i hi => BitVec.eq_of_toNat_eq ?_, fun i j hij hj _ he => ?_⟩
    · rw [BitVec.toNat_add, hnat _ hi, hnat _ (by omega)]
      change _ = (_ + 1) % 65536
      omega
    · have hv := congrArg BitVec.toNat he
      rw [hnat _ (by omega), hnat _ hj] at hv
      omega

/-- A run from the zeroed counter obeys the law exactly when it sends at most 65534
packets. -/
theorem sequenceLaw_runCalls (ts : BitVec 32) (sendBuffer : Memory Byte)
    (h : runCalls calls ⟨ts, 0, sendBuffer, []⟩ = some c) :
    SequenceLaw c.sent ↔ packetTotal calls ≤ 65534 :=
  sequenceLaw_iff (map_seqNo_of_zero h)

/-- A train of two fragments and a single packet. -/
theorem sequenceLaw_runCalls_two :
    ∃ c, runCalls [⟨25, fun _ => 0x65, 1401⟩, ⟨25, fun _ => 0x65, 1⟩] ⟨0, 0, fun _ => 0, []⟩ =
        some c ∧ c.sent.length = 3 ∧ SequenceLaw c.sent := by
  have hrate : ∀ a ∈ ([⟨25, fun _ => 0x65, 1401⟩, ⟨25, fun _ => 0x65, 1⟩] : List Call),
      a.framerate ≠ 0 := by simp
  obtain ⟨c, hc⟩ := runCalls_isSome hrate ⟨0, 0, fun _ => 0, []⟩
  refine ⟨c, hc, ?_, (sequenceLaw_runCalls 0 _ hc).mpr (by decide)⟩
  have hlen := congrArg List.length (map_seqNo_of_zero hc)
  rwa [List.length_map, List.length_map, List.length_range] at hlen

theorem packetTotal_replicate (k : ℕ) (a : Call) :
    packetTotal (List.replicate k a) = k * packetCount a.naluLen := by
  simp [packetTotal]

/-- After 65534 single packets the next one carries 0, not 65535. -/
theorem not_sequenceLaw_long :
    ∃ c, runCalls (List.replicate 65535 ⟨25, fun _ => 0x65, 1⟩) ⟨0, 0, fun _ => 0, []⟩ = some c ∧
      ¬ SequenceLaw c.sent := by
  have hrate : ∀ a ∈ List.replicate 65535 (⟨25, fun _ => 0x65, 1⟩ : Call), a.framerate ≠ 0 :=
    fun a ha => by rw [List.eq_of_mem_replicate ha]; decide
  obtain ⟨c, hc⟩ := runCalls_isSome hrate ⟨0, 0, fun _ => 0, []⟩
  refine ⟨c, hc, fun hlaw => ?_⟩
  have hseq := map_seqNo_of_zero hc
  rw [packetTotal_replicate] at hseq
  exact absurd ((sequenceLaw_iff hseq).mp hlaw) (by decide)

end H264Cast
