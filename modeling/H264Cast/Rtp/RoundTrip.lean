import H264Cast.Rtp.Packetizer
import H264Cast.Rtp.Depacketizer

/-! # Round trip of the packetizer and the depacketizer

Feeding the packets of one call to the receive loop writes the NAL behind a start
code. For a train the induction is on the fragments received so far: after each of
them a prefix of the NAL has been written.
-/

namespace H264Cast

open Packetizer Depacketizer

variable {naluBuf : Memory Byte} {naluLen k : ℕ} {ts : BitVec 32} {seq : BitVec 16}
  {framerate : ℤ} {marker : BitVec 1}

theorem length_fragment_le :
    (naluBuf.read (fragmentStart k) (fragmentStop naluLen k - fragmentStart k)).length ≤ 1486 := by
  simp only [Memory.length_read, fragmentStop, fragmentStart, rtpPayloadMaxSize]
  split_ifs <;> omega

/-- The NAL up to the end of a fragment, from the NAL up to its start. -/
theorem read_fragment (h : rtpPayloadMaxSize < naluLen) (hk : k + 1 < fuPackNum naluLen) :
    naluBuf.read 0 (fragmentStop naluLen k) ++
        naluBuf.read (fragmentStart (k + 1))
          (fragmentStop naluLen (k + 1) - fragmentStart (k + 1)) =
      naluBuf.read 0 (fragmentStop naluLen (k + 1)) := by
  obtain ⟨-, hlt, -⟩ := fuPackNum_bounds h
  have hm : rtpPayloadMaxSize * (k + 1) ≤ rtpPayloadMaxSize * (fuPackNum naluLen - 1) :=
    Nat.mul_le_mul_left _ (by omega)
  have hstop : fragmentStop naluLen k = rtpPayloadMaxSize * (k + 1) :=
    Nat.min_eq_left (by omega)
  have hstart : fragmentStart (k + 1) = rtpPayloadMaxSize * (k + 1) := if_neg (Nat.succ_ne_zero k)
  have hle : rtpPayloadMaxSize * (k + 1) ≤ fragmentStop naluLen (k + 1) := by
    unfold fragmentStop
    exact Nat.le_min.mpr ⟨Nat.mul_le_mul_left _ (by omega), by omega⟩
  have hadd := Memory.read_add naluBuf 0 (rtpPayloadMaxSize * (k + 1))
    (fragmentStop naluLen (k + 1) - rtpPayloadMaxSize * (k + 1))
  rw [hstop, hstart, ← Nat.add_sub_cancel' hle, hadd, Nat.zero_add, Nat.add_sub_cancel_left]

theorem fuHeader_type (s e : BitVec 1) :
    (fuHeader s e naluBuf).type = (NaluHeader.view (naluBuf 0)).type :=
  congrArg NaluHeader.type (NaluHeader.ofNalu_eq_view (naluBuf 0))

/-- What the receiver writes for one fragment. -/
theorem receive_fuPayload (c : Depacketizer) (h : rtpPayloadMaxSize < naluLen)
    (hk : k < fuPackNum naluLen) :
    (c.receive ((rtpHeader marker ts seq).toBytes ++ fuPayload naluBuf naluLen k)).saved =
      c.saved ++ (if k = 0 then startCode ++ [naluBuf 0] else []) ++
        naluBuf.read (fragmentStart k) (fragmentStop naluLen k - fragmentStart k) := by
  obtain ⟨h₂, -⟩ := fuPackNum_bounds h
  rw [fuPayload, receive_fragment (RtpHeader.length_toBytes _) length_fragment_le rfl,
    fuHeader_type]
  by_cases hz : k = 0
  · subst hz
    have hview : h264NalHeader (NaluHeader.view (naluBuf 0)).type (fuIndicator naluBuf).nri
        (fuIndicator naluBuf).f = naluBuf 0 := by
      rw [fuIndicator, NaluHeader.ofNalu_eq_view]
      exact h264NalHeader_view _
    simp [fuHeader, hview, flag, show 1 ≠ fuPackNum naluLen by omega]
  · simp [fuHeader, hz, flag]

/-- After the first `k + 1` fragments the NAL has been written up to the end of the last
of them. -/
theorem receiveAll_fragments (naluBuf : Memory Byte) (ts : BitVec 32) (seq : BitVec 16)
    (c : Depacketizer) (h : rtpPayloadMaxSize < naluLen) (hk : k < fuPackNum naluLen) :
    (c.receiveAll ((List.range (k + 1)).map (packetOf ts seq naluBuf naluLen))).saved =
      c.saved ++ (startCode ++ naluBuf.read 0 (fragmentStop naluLen k)) := by
  have hpacket (i : ℕ) : packetOf ts seq naluBuf naluLen i =
      (rtpHeader (flag (i + 1 = fuPackNum naluLen)) ts (seq + 1 + BitVec.ofNat 16 i)).toBytes ++
        fuPayload naluBuf naluLen i := if_neg (Nat.not_le.mpr h)
  induction k with
  | zero =>
    have hstop : fragmentStop naluLen 0 = rtpPayloadMaxSize - 1 + 1 :=
      (Nat.min_eq_left (by omega)).trans rfl
    have hread := Memory.read_succ naluBuf 0 (rtpPayloadMaxSize - 1)
    change (c.receive (packetOf ts seq naluBuf naluLen 0)).saved = _
    rw [hpacket, receive_fuPayload c h hk, hstop, hread]
    simp [fragmentStart]
  | succ k ih =>
    rw [List.range_succ, List.map_append, receiveAll_append]
    change (Depacketizer.receive _ (packetOf ts seq naluBuf naluLen (k + 1))).saved = _
    rw [hpacket, receive_fuPayload _ h hk, ih (by omega), if_neg (Nat.succ_ne_zero k),
      ← read_fragment h hk]
    simp only [List.append_assoc, List.nil_append]

/-- The receiver writes the NAL of one call behind a start code. -/
theorem receiveAll_packetsOf (c : Depacketizer) (hlen : 1 ≤ naluLen)
    (ht : naluLen ≤ rtpPayloadMaxSize → nalType (naluBuf 0) ≠ 28) :
    (c.receiveAll (packetsOf framerate ts seq naluBuf naluLen)).saved =
      c.saved ++ (startCode ++ naluBuf.read 0 naluLen) := by
  unfold packetsOf packetCount
  rw [if_neg (by omega)]
  split_ifs with hmax
  · obtain ⟨k, rfl⟩ := Nat.exists_eq_add_of_le' hlen
    have hpacket : packetOf (nextTs framerate ts) seq naluBuf (k + 1) 0 =
        (rtpHeader 0 (nextTs framerate ts) (seq + 1 + BitVec.ofNat 16 0)).toBytes ++
          naluBuf 0 :: naluBuf.read 1 k := by
      rw [packetOf, if_pos hmax, Memory.read_succ]
    change (c.receive (packetOf (nextTs framerate ts) seq naluBuf (k + 1) 0)).saved = _
    rw [hpacket, receive_single (RtpHeader.length_toBytes _) _ (ht hmax), Memory.read_succ]
    simp only [rtpPayloadMaxSize, List.length_cons, Memory.length_read] at hmax ⊢
    omega
  · have hm := Nat.not_le.mp hmax
    obtain ⟨h₂, -, hle⟩ := fuPackNum_bounds hm
    have hr := receiveAll_fragments (k := fuPackNum naluLen - 1) naluBuf
      (nextTs framerate ts) seq c hm (by omega)
    rw [Nat.sub_add_cancel (by omega)] at hr
    rw [hr, fragmentStop, Nat.sub_add_cancel (by omega), Nat.min_eq_right hle]

/-- The receiver after a run of calls, from the receiver before it. -/
theorem receiveAll_runCalls {calls : List Call} {c c' : Packetizer}
    (hlen : ∀ a ∈ calls, 1 ≤ a.naluLen)
    (htype : ∀ a ∈ calls, a.naluLen ≤ rtpPayloadMaxSize → nalType (a.pstStream 0) ≠ 28)
    (h : runCalls calls c = some c') (d : Depacketizer) :
    (d.receiveAll c'.sent).saved =
      (d.receiveAll c.sent).saved ++ calls.flatMap fun a => startCode ++ a.nalu := by
  induction calls generalizing c with
  | nil =>
    obtain rfl : c = c' := Option.some.inj h
    simp
  | cons a calls ih =>
    obtain ⟨ret, c₁, h₁, hrest⟩ := runCalls_cons.mp h
    obtain ⟨-, -, -, -, hsent⟩ := h264nal2rtpSend_spec h₁
    rw [ih (fun b hb => hlen b (List.mem_cons_of_mem _ hb))
        (fun b hb => htype b (List.mem_cons_of_mem _ hb)) hrest,
      hsent, receiveAll_append, receiveAll_packetsOf _ (hlen a List.mem_cons_self)
        (htype a List.mem_cons_self), List.flatMap_cons, List.append_assoc]
    rfl

/-- Every list of NALs sent one after another is written back complete and in order. -/
theorem roundTrip (calls : List Call) (hrate : ∀ a ∈ calls, 0 < a.framerate)
    (hlen : ∀ a ∈ calls, 1 ≤ a.naluLen)
    (htype : ∀ a ∈ calls, a.naluLen ≤ rtpPayloadMaxSize → nalType (a.pstStream 0) ≠ 28)
    (ts : BitVec 32) (seq : BitVec 16) (sendBuffer recvBuffer : Memory Byte) :
    ∃ c, runCalls calls ⟨ts, seq, sendBuffer, []⟩ = some c ∧
      (receiveAll ⟨recvBuffer, []⟩ c.sent).saved =
        calls.flatMap fun a => startCode ++ a.nalu := by
  obtain ⟨c, hc⟩ := runCalls_isSome (fun a ha => Int.ne_of_gt (hrate a ha))
    ⟨ts, seq, sendBuffer, []⟩
  refine ⟨c, hc, ?_⟩
  rw [receiveAll_runCalls hlen htype hc, receiveAll_nil, List.nil_append]

/-- A single packet and a train of two fragments, the second carrying one byte. -/
theorem roundTrip_two :
    ∃ c, runCalls [⟨25, fun _ => 0x65, 2⟩, ⟨25, fun _ => 0x61, 1401⟩]
        ⟨0, 0, fun _ => 0, []⟩ = some c ∧
      (receiveAll ⟨fun _ => 0, []⟩ c.sent).saved =
        [⟨25, fun _ => 0x65, 2⟩, ⟨25, fun _ => 0x61, 1401⟩].flatMap
          fun a : Call => startCode ++ a.nalu :=
  roundTrip _ (by decide) (by decide) (by decide) 0 0 _ _

end H264Cast
