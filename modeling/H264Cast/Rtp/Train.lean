import H264Cast.Rtp.Packetizer

/-! # Trains of fragments

A NAL longer than the payload of one packet is sent as a train of FU-A fragments. The
number of fragments, the size of the last one and the offsets of the copied ranges are
computed by separate expressions of the source; a train is well formed when they fit
together.
-/

namespace H264Cast

open Packetizer

/-- A fragment: its three headers and the range of the NAL it copies. -/
structure Fragment where
  header : RtpHeader
  indicator : FuIndicator
  fu : FuHeader
  start : ℕ
  stop : ℕ

namespace Fragment

/-- The datagram of a fragment. -/
def toPacket (naluBuf : Memory Byte) (p : Fragment) : List Byte :=
  p.header.toBytes ++ p.indicator.toByte :: p.fu.toByte ::
    naluBuf.read p.start (p.stop - p.start)

/-- The offsets of the NAL that a fragment copies, in order. -/
def offsets (p : Fragment) : List ℕ := List.range' p.start (p.stop - p.start)

end Fragment

/-- A train is well formed for the NAL of the given length in the buffer. -/
structure WellFormedTrain (naluBuf : Memory Byte) (naluLen : ℕ) (train : List Fragment) : Prop where
  count : train.length = (naluLen + 1399) / 1400
  two_le : 2 ≤ train.length
  length_le : ∀ p ∈ train, (p.toPacket naluBuf).length ≤ 1414
  indicator : ∀ p ∈ train, p.indicator = { NaluHeader.view (naluBuf 0) with type := 28 }
  type : ∀ p ∈ train, p.fu.type = (NaluHeader.view (naluBuf 0)).type
  timestamp : ∀ p ∈ train, ∀ q ∈ train, p.header.timestamp = q.header.timestamp
  s : ∀ i (h : i < train.length), train[i].fu.s = 1 ↔ i = 0
  e : ∀ i (h : i < train.length), train[i].fu.e = 1 ↔ i + 1 = train.length
  marker : ∀ i (h : i < train.length), train[i].header.marker = 1 ↔ i + 1 = train.length
  not_both : ∀ p ∈ train, ¬ (p.fu.s = 1 ∧ p.fu.e = 1)
  nonempty : ∀ p ∈ train, p.start < p.stop
  offsets : train.flatMap Fragment.offsets = List.range' 1 (naluLen - 1)

variable {naluBuf naluBuf' : Memory Byte} {naluLen i k : ℕ} {ts : BitVec 32} {seq : BitVec 16}
  {framerate : ℤ} {c : Packetizer}

/-- The fragment with index `i` of a call that starts from these counters. -/
def fragmentOf (ts : BitVec 32) (seq : BitVec 16) (naluBuf : Memory Byte) (naluLen i : ℕ) :
    Fragment where
  header := rtpHeader (flag (i + 1 = fuPackNum naluLen)) ts (seq + 1 + BitVec.ofNat 16 i)
  indicator := fuIndicator naluBuf
  fu := fuHeader (flag (i = 0)) (flag (i + 1 = fuPackNum naluLen)) naluBuf
  start := fragmentStart i
  stop := fragmentStop naluLen i

/-- The train of one call. -/
def trainOf (ts : BitVec 32) (seq : BitVec 16) (naluBuf : Memory Byte) (naluLen : ℕ) :
    List Fragment :=
  (List.range (fuPackNum naluLen)).map (fragmentOf ts seq naluBuf naluLen)

theorem toPacket_fragmentOf (h : rtpPayloadMaxSize < naluLen) :
    (fragmentOf ts seq naluBuf naluLen i).toPacket naluBuf =
      packetOf ts seq naluBuf naluLen i := by
  unfold packetOf
  rw [if_neg (Nat.not_le.mpr h)]
  rfl

theorem packetsOf_eq_train (h : rtpPayloadMaxSize < naluLen) :
    packetsOf framerate ts seq naluBuf naluLen =
      (trainOf (nextTs framerate ts) seq naluBuf naluLen).map (Fragment.toPacket naluBuf) := by
  have hcount : packetCount naluLen = fuPackNum naluLen := by
    unfold packetCount
    rw [if_neg (by omega), if_neg (Nat.not_le.mpr h)]
  simp only [packetsOf, trainOf, hcount, List.map_map, Function.comp_def, toPacket_fragmentOf h]

theorem fuPackNum_eq (naluLen : ℕ) : fuPackNum naluLen = (naluLen + 1399) / 1400 := by
  unfold fuPackNum rtpPayloadMaxSize
  split_ifs <;> omega

theorem flag_eq_one (P : Prop) [Decidable P] : flag P = 1 ↔ P := by
  unfold flag
  split_ifs with h <;> simp [h]

theorem fragmentStart_lt_stop (h : rtpPayloadMaxSize < naluLen) (hi : i < fuPackNum naluLen) :
    fragmentStart i < fragmentStop naluLen i := by
  obtain ⟨-, hlt, -⟩ := fuPackNum_bounds h
  have hm : rtpPayloadMaxSize * i ≤ rtpPayloadMaxSize * (fuPackNum naluLen - 1) :=
    Nat.mul_le_mul_left _ (by omega)
  unfold fragmentStart fragmentStop rtpPayloadMaxSize at *
  split_ifs <;> omega

theorem fragmentStop_sub_le (naluLen i : ℕ) :
    fragmentStop naluLen i - fragmentStart i ≤ rtpPayloadMaxSize := by
  unfold fragmentStart fragmentStop rtpPayloadMaxSize
  split_ifs <;> omega

/-- The ranges of the first `k` fragments, one after another. -/
theorem flatMap_offsets (h : rtpPayloadMaxSize < naluLen) (hk : k ≤ fuPackNum naluLen) :
    (List.range k).flatMap (fun i => (fragmentOf ts seq naluBuf naluLen i).offsets) =
      List.range' 1 (min (rtpPayloadMaxSize * k) naluLen - 1) := by
  induction k with
  | zero => simp
  | succ k ih =>
    have hlt := fragmentStart_lt_stop h (Nat.lt_of_succ_le hk)
    have hstart : fragmentStart k = 1 + (min (rtpPayloadMaxSize * k) naluLen - 1) := by
      unfold fragmentStart fragmentStop rtpPayloadMaxSize at *
      split_ifs at * <;> omega
    have hsum : min (rtpPayloadMaxSize * k) naluLen - 1 +
        (fragmentStop naluLen k - fragmentStart k) = fragmentStop naluLen k - 1 := by omega
    have hoffsets : (fragmentOf ts seq naluBuf naluLen k).offsets =
        List.range' (1 + (min (rtpPayloadMaxSize * k) naluLen - 1))
          (fragmentStop naluLen k - fragmentStart k) := by
      rw [← hstart]
      rfl
    rw [List.range_succ, List.flatMap_append, ih (by omega), List.flatMap_singleton, hoffsets,
      List.range'_append_1, hsum, fragmentStop]

theorem wellFormed_trainOf (ts : BitVec 32) (seq : BitVec 16) (naluBuf : Memory Byte)
    (h : rtpPayloadMaxSize < naluLen) :
    WellFormedTrain naluBuf naluLen (trainOf ts seq naluBuf naluLen) := by
  obtain ⟨htwo, -, hle⟩ := fuPackNum_bounds h
  have hlen : (trainOf ts seq naluBuf naluLen).length = fuPackNum naluLen := by simp [trainOf]
  have hget (i : ℕ) (hi : i < (trainOf ts seq naluBuf naluLen).length) :
      (trainOf ts seq naluBuf naluLen)[i] = fragmentOf ts seq naluBuf naluLen i := by
    simp [trainOf]
  have hmem {P : Fragment → Prop}
      (hP : ∀ i < fuPackNum naluLen, P (fragmentOf ts seq naluBuf naluLen i)) :
      ∀ p ∈ trainOf ts seq naluBuf naluLen, P p := by
    intro p hp
    obtain ⟨i, hi, rfl⟩ := List.mem_map.mp hp
    exact hP i (List.mem_range.mp hi)
  have htype : (naluBuf 0 &&& 0x1f).setWidth 5 = (NaluHeader.view (naluBuf 0)).type :=
    congrArg NaluHeader.type (NaluHeader.ofNalu_eq_view (naluBuf 0))
  constructor
  case count => rw [hlen, fuPackNum_eq]
  case two_le => rwa [hlen]
  case length_le =>
    apply hmem
    intro i _
    have hsub := fragmentStop_sub_le naluLen i
    simp only [Fragment.toPacket, fragmentOf, List.length_append, RtpHeader.length_toBytes,
      List.length_cons, Memory.length_read]
    unfold rtpPayloadMaxSize at hsub
    omega
  case indicator =>
    apply hmem
    intro i _
    change fuIndicator naluBuf = _
    rw [fuIndicator, NaluHeader.ofNalu_eq_view]
  case type => exact hmem fun _ _ => htype
  case timestamp => exact hmem fun _ _ => hmem fun _ _ => rfl
  case s =>
    intro i hi
    rw [hget]
    exact flag_eq_one _
  case e =>
    intro i hi
    rw [hget, hlen]
    exact flag_eq_one _
  case marker =>
    intro i hi
    rw [hget, hlen]
    exact flag_eq_one _
  case not_both =>
    apply hmem
    rintro i _ ⟨hs, he⟩
    have hs' : i = 0 := (flag_eq_one _).mp hs
    have he' : i + 1 = fuPackNum naluLen := (flag_eq_one _).mp he
    omega
  case nonempty => exact hmem fun _ hi => fragmentStart_lt_stop h hi
  case offsets =>
    rw [trainOf, List.flatMap_map, flatMap_offsets h (Nat.le_refl _), Nat.min_eq_right hle]

/-- The packets of a call depend on the NAL alone. -/
theorem packetsOf_congr (h : rtpPayloadMaxSize < naluLen)
    (hm : ∀ i < naluLen, naluBuf i = naluBuf' i) :
    packetsOf framerate ts seq naluBuf naluLen = packetsOf framerate ts seq naluBuf' naluLen := by
  have hzero : naluBuf 0 = naluBuf' 0 := hm 0 (by omega)
  have hread (i : ℕ) : naluBuf.read (fragmentStart i) (fragmentStop naluLen i - fragmentStart i) =
      naluBuf'.read (fragmentStart i) (fragmentStop naluLen i - fragmentStart i) := by
    apply Memory.read_congr
    intro j _ hj
    apply hm
    unfold fragmentStop at hj
    omega
  unfold packetsOf
  apply List.map_congr_left
  intro i _
  unfold packetOf
  rw [if_neg (Nat.not_le.mpr h), if_neg (Nat.not_le.mpr h)]
  simp only [fuPayload, fuIndicator, fuHeader, hzero, hread]

/-- A call for a NAL of more than 1400 bytes sends a well-formed train, which fits the send
buffer and is the same for every memory that holds the NAL. -/
theorem h264nal2rtpSend_train (hf : framerate ≠ 0) (h : 1400 < naluLen)
    (naluBuf : Memory Byte) (c : Packetizer) :
    ∃ c' train, h264nal2rtpSend framerate naluBuf naluLen c = some (0, c') ∧
      c'.sent = c.sent ++ train.map (Fragment.toPacket naluBuf) ∧
      WellFormedTrain naluBuf naluLen train ∧
      (∀ p ∈ train, (p.toPacket naluBuf).length ≤ sendBufSize) ∧
      ∀ naluBuf' : Memory Byte, (∀ i < naluLen, naluBuf i = naluBuf' i) →
        ∃ c'', h264nal2rtpSend framerate naluBuf' naluLen c = some (0, c'') ∧
          c''.sent = c'.sent := by
  have hcall (m : Memory Byte) : ∃ c', h264nal2rtpSend framerate m naluLen c = some (0, c') ∧
      c'.sent = c.sent ++ packetsOf framerate c.tsCurrent c.seqNum m naluLen := by
    obtain ⟨ret, c', hc⟩ := h264nal2rtpSend_isSome hf m naluLen c
    obtain ⟨-, hret, -, -, hsent⟩ := h264nal2rtpSend_spec hc
    rw [if_neg (by omega)] at hret
    subst hret
    exact ⟨c', hc, hsent⟩
  obtain ⟨c', hc, hsent⟩ := hcall naluBuf
  have hwf := wellFormed_trainOf (nextTs framerate c.tsCurrent) c.seqNum naluBuf h
  refine ⟨c', trainOf (nextTs framerate c.tsCurrent) c.seqNum naluBuf naluLen, hc, ?_, hwf, ?_, ?_⟩
  · rw [hsent, packetsOf_eq_train h]
  · intro p hp
    exact Nat.le_trans (hwf.length_le p hp) (by decide)
  · intro naluBuf' hm
    obtain ⟨c'', hc'', hsent'⟩ := hcall naluBuf'
    exact ⟨c'', hc'', by rw [hsent, hsent', packetsOf_congr h hm]⟩

/-- A NAL of 1401 bytes: two fragments, the second with one byte. -/
theorem h264nal2rtpSend_train_two :
    ∃ c' train, h264nal2rtpSend 25 (fun _ => 0x65) 1401 ⟨0, 0, fun _ => 0, []⟩ = some (0, c') ∧
      c'.sent = [] ++ train.map (Fragment.toPacket fun _ => 0x65) ∧
      WellFormedTrain (fun _ => 0x65) 1401 train ∧
      (∀ p ∈ train, (p.toPacket fun _ => 0x65).length ≤ sendBufSize) ∧
      ∀ naluBuf' : Memory Byte, (∀ i < 1401, 0x65 = naluBuf' i) →
        ∃ c'', h264nal2rtpSend 25 naluBuf' 1401 ⟨0, 0, fun _ => 0, []⟩ = some (0, c'') ∧
          c''.sent = c'.sent :=
  h264nal2rtpSend_train (by decide) (by decide) _ _

end H264Cast
