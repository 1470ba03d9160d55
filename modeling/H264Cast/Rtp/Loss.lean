import H264Cast.Library.Delivery
import H264Cast.Rtp.RoundTrip
import H264Cast.Rtp.Train

/-! # Loss of packets

The receive loop keeps nothing from one datagram to the next but the bytes it has written.
What a network makes of the packets of a run is therefore seen NAL by NAL: a NAL all of
whose packets arrive is written whole, whatever becomes of the others, and one that loses
packets loses the bytes they carry.
-/

namespace H264Cast

open Packetizer Depacketizer

/-- What is written for a fragment with these two header bytes. -/
def fragmentPayload (ind : FuIndicator) (fu : FuHeader) (bs : List Byte) : List Byte :=
  if fu.e = 0 ∧ fu.s = 1 then startCode ++ h264NalHeader fu.type ind.nri ind.f :: bs else bs

/-- What is written for the bytes behind the RTP header of a datagram. -/
def payload : List Byte → List Byte
  | [] => []
  | b :: bs =>
    if nalType b = 28 then
      match bs with
      | [] => []
      | b' :: bs => fragmentPayload (NaluHeader.view b) (FuHeader.view b') bs
    else startCode ++ b :: bs

def payloadOf (packet : List Byte) : List Byte := payload (packet.drop 12)

/-- A datagram that fits the receive buffer and holds the headers it announces. -/
structure WholePacket (packet : List Byte) : Prop where
  length_le : packet.length ≤ recvBufSize
  lt_length : 12 < packet.length
  fragment : nalType ((packet.drop 12).headD 0) = 28 → 13 < packet.length

/-- A NAL that is sent in one packet is not taken for a fragment. -/
def Packetizer.Call.Plain (a : Call) : Prop :=
  1 ≤ a.naluLen → a.naluLen ≤ rtpPayloadMaxSize → nalType (a.pstStream 0) ≠ 28

/-- What is written for a call none of whose packets is lost. An empty NAL is not sent. -/
def Packetizer.Call.written (a : Call) : List Byte :=
  if a.naluLen < 1 then [] else startCode ++ a.nalu

/-- The packets of each call, from the counters before the first. -/
def transmissions : List Call → BitVec 32 → BitVec 16 → List (List (List Byte))
  | [], _, _ => []
  | a :: calls, ts, seq =>
    packetsOf a.framerate ts seq a.pstStream a.naluLen ::
      transmissions calls (nextTs a.framerate ts) (seq + BitVec.ofNat 16 (packetCount a.naluLen))

variable {calls : List Call} {a : Call} {c c' : Packetizer} {packet : List Byte}
  {naluBuf : Memory Byte} {naluLen i : ℕ} {ts : BitVec 32} {seq : BitVec 16}
  {framerate : ℤ} {transfers : List (Transfer (List Byte))} {t : Transfer (List Byte)}

theorem FuHeader.toByte_view (b : Byte) : (FuHeader.view b).toByte = b := by
  revert b
  decide

theorem payloadOf_append {hdr : List Byte} (hh : hdr.length = 12) (body : List Byte) :
    payloadOf (hdr ++ body) = payload body := by
  rw [payloadOf, ← hh, List.drop_left]

theorem payload_single {b : Byte} (ht : nalType b ≠ 28) (bs : List Byte) :
    payload (b :: bs) = startCode ++ b :: bs := if_neg ht

theorem payload_fragment {b : Byte} (ht : nalType b = 28) (b' : Byte) (bs : List Byte) :
    payload (b :: b' :: bs) = fragmentPayload (NaluHeader.view b) (FuHeader.view b') bs :=
  if_pos ht

theorem wholePacket_append {hdr body : List Byte} (hh : hdr.length = 12) (hne : body ≠ [])
    (hle : body.length ≤ 1488) (hf : nalType (body.headD 0) = 28 → 1 < body.length) :
    WholePacket (hdr ++ body) := by
  have hpos := List.length_pos_iff.mpr hne
  constructor
  · rw [List.length_append, hh, recvBufSize]
    omega
  · rw [List.length_append]
    omega
  · rw [← hh, List.drop_left, List.length_append]
    intro ht
    have := hf ht
    omega

/-- The receive loop has no memory of the packets before. -/
theorem receive_memoryless :
    Memoryless Depacketizer.receive Depacketizer.saved WholePacket payloadOf where
  output_step := by
    rintro c packet ⟨hle, hlt, hfragment⟩
    obtain ⟨hdr, body, hh, rfl⟩ : ∃ hdr body, hdr.length = 12 ∧ packet = hdr ++ body :=
      ⟨packet.take 12, packet.drop 12, by simp; omega, (List.take_append_drop _ _).symm⟩
    rw [payloadOf_append hh]
    simp only [List.length_append, hh, recvBufSize] at hle hlt hfragment
    cases body with
    | nil => simp at hlt
    | cons b bs =>
      rw [List.drop_left' hh] at hfragment
      by_cases ht : nalType b = 28
      · cases bs with
        | nil =>
          have := hfragment ht
          simp at this
        | cons b' bs =>
          have hlen : bs.length ≤ 1486 := by
            simp only [List.length_cons] at hle
            omega
          rw [payload_fragment ht, ← NaluHeader.toByte_view b, ← FuHeader.toByte_view b',
            receive_fragment hh hlen ht, NaluHeader.toByte_view, FuHeader.toByte_view]
          rfl
      · rw [receive_single hh (by omega) ht, payload_single ht]

/-! ### The packets of a run -/

theorem map_length_transmissions (calls : List Call) (ts : BitVec 32) (seq : BitVec 16) :
    (transmissions calls ts seq).map List.length = calls.map fun a => packetCount a.naluLen := by
  induction calls generalizing ts seq with
  | nil => rfl
  | cons a calls ih => simp [transmissions, ih, packetsOf]

/-- The packets of a run are those of its calls, one after another. -/
theorem sent_runCalls (h : runCalls calls c = some c') :
    c'.sent = c.sent ++ (transmissions calls c.tsCurrent c.seqNum).flatten := by
  induction calls generalizing c with
  | nil =>
    obtain rfl : c = c' := Option.some.inj h
    simp [transmissions]
  | cons a calls ih =>
    obtain ⟨ret, c₁, h₁, hrest⟩ := runCalls_cons.mp h
    obtain ⟨-, -, hts, hseq, hsent⟩ := h264nal2rtpSend_spec h₁
    rw [ih hrest, hsent, hts, hseq, transmissions, List.flatten_cons, List.append_assoc]

theorem payloadOf_fuPayload (hdr : RtpHeader) (i : ℕ) :
    payloadOf (hdr.toBytes ++ fuPayload naluBuf naluLen i) =
      fragmentPayload (fuIndicator naluBuf)
        (fuHeader (flag (i = 0)) (flag (i + 1 = fuPackNum naluLen)) naluBuf)
        (naluBuf.read (fragmentStart i) (fragmentStop naluLen i - fragmentStart i)) := by
  have htype : nalType (fuIndicator naluBuf).toByte = 28 :=
    congrArg NaluHeader.type (NaluHeader.view_toByte (fuIndicator naluBuf))
  rw [payloadOf_append (RtpHeader.length_toBytes _), fuPayload, payload_fragment htype,
    NaluHeader.view_toByte, FuHeader.view_toByte]

/-- A packet is whole and carries something. -/
theorem packetOf_spec (hlen : 1 ≤ naluLen) (hi : i < packetCount naluLen)
    (ht : naluLen ≤ rtpPayloadMaxSize → nalType (naluBuf 0) ≠ 28) :
    WholePacket (packetOf ts seq naluBuf naluLen i) ∧
      payloadOf (packetOf ts seq naluBuf naluLen i) ≠ [] := by
  unfold packetOf
  split_ifs with hmax
  · obtain ⟨k, rfl⟩ := Nat.exists_eq_add_of_le' hlen
    have htype := ht hmax
    rw [payloadOf_append (RtpHeader.length_toBytes _), Memory.read_succ, payload_single htype]
    refine ⟨wholePacket_append (RtpHeader.length_toBytes _) (by simp) ?_ fun h28 => ?_,
      by simp [startCode]⟩
    · simp only [List.length_cons, Memory.length_read, rtpPayloadMaxSize] at hmax ⊢
      omega
    · exact absurd h28 htype
  · have hm := Nat.not_le.mp hmax
    rw [packetCount, if_neg (by omega), if_neg hmax] at hi
    have hlt := fragmentStart_lt_stop hm hi
    have hsub := fragmentStop_sub_le naluLen i
    rw [payloadOf_fuPayload, fragmentPayload]
    refine ⟨wholePacket_append (RtpHeader.length_toBytes _) (by simp [fuPayload]) ?_ fun _ => ?_,
      ?_⟩
    · simp only [fuPayload, List.length_cons, Memory.length_read, rtpPayloadMaxSize] at hsub ⊢
      omega
    · simp [fuPayload]
    · split_ifs
      · simp [startCode]
      · exact List.length_pos_iff.mp (by rw [Memory.length_read]; omega)

theorem packetsOf_of_empty (hlen : naluLen < 1) :
    packetsOf framerate ts seq naluBuf naluLen = [] := by
  rw [packetsOf, packetCount, if_pos hlen]
  rfl

theorem mem_packetsOf (ha : a.Plain)
    (hp : packet ∈ packetsOf framerate ts seq a.pstStream a.naluLen) :
    WholePacket packet ∧ payloadOf packet ≠ [] := by
  by_cases hlen : a.naluLen < 1
  · rw [packetsOf_of_empty hlen] at hp
    exact absurd hp List.not_mem_nil
  · obtain ⟨i, hi, rfl⟩ := List.mem_map.mp hp
    exact packetOf_spec (Nat.not_lt.mp hlen) (List.mem_range.mp hi) (ha (Nat.not_lt.mp hlen))

/-- The packets of a call carry its NAL. -/
theorem flatMap_payloadOf (ha : a.Plain) (framerate : ℤ) (ts : BitVec 32) (seq : BitVec 16) :
    (packetsOf framerate ts seq a.pstStream a.naluLen).flatMap payloadOf = a.written := by
  unfold Call.written
  split_ifs with hlen
  · rw [packetsOf_of_empty hlen, List.flatMap_nil]
  · have hone := Nat.not_lt.mp hlen
    refine (receive_memoryless.output_foldl (fun p hp => ?_) ⟨fun _ => 0x00, []⟩).symm.trans
      (receiveAll_packetsOf ⟨fun _ => 0x00, []⟩ hone (ha hone))
    exact (mem_packetsOf ha hp).1

/-- What arrives of the packets of a call is a part of its NAL, and the whole of it only when
all of them arrive. -/
def Isolated (a : Call) (t : Transfer (List Byte)) : Prop :=
  (t.carried payloadOf).Sublist a.written ∧ (t.carried payloadOf = a.written ↔ t.Complete)

theorem isolated_of_sent (ha : a.Plain)
    (ht : t.sent = packetsOf framerate ts seq a.pstStream a.naluLen) : Isolated a t := by
  rw [Isolated, ← flatMap_payloadOf ha framerate ts seq, ← ht]
  refine ⟨t.carried_sublist payloadOf, t.complete_iff fun p hp => ?_⟩
  rw [ht] at hp
  exact (mem_packetsOf ha hp).2

theorem forall₂_isolated (hplain : ∀ a ∈ calls, a.Plain)
    (ht : transfers.map Transfer.sent = transmissions calls ts seq) :
    List.Forall₂ Isolated calls transfers := by
  induction calls generalizing transfers ts seq with
  | nil =>
    obtain rfl := List.map_eq_nil_iff.mp ht
    exact .nil
  | cons a calls ih =>
    rw [List.forall_mem_cons] at hplain
    obtain ⟨t, rest, rfl, hsent, hrest⟩ := List.map_eq_cons_iff.mp ht
    exact .cons (isolated_of_sent hplain.1 hsent) (ih hplain.2 hrest)

theorem mem_transmissions (hplain : ∀ a ∈ calls, a.Plain) {sent : List (List Byte)}
    (hs : sent ∈ transmissions calls ts seq) (hp : packet ∈ sent) : WholePacket packet := by
  induction calls generalizing ts seq with
  | nil => exact absurd hs List.not_mem_nil
  | cons a calls ih =>
    rw [List.forall_mem_cons] at hplain
    rcases List.mem_cons.mp hs with rfl | hs
    · exact (mem_packetsOf hplain.1 hp).1
    · exact ih hplain.2 hs

/-- What the receiver writes for the packets of a run that arrive. -/
theorem saved_of_transfers (hplain : ∀ a ∈ calls, a.Plain)
    (ht : transfers.map Transfer.sent = transmissions calls ts seq) (d : Depacketizer) :
    (d.receiveAll (transfers.flatMap Transfer.arrived)).saved =
      d.saved ++ transfers.flatMap (Transfer.carried payloadOf) := by
  apply receive_memoryless.output_transfers
  intro t hmem p hp
  exact mem_transmissions hplain (ht ▸ List.mem_map_of_mem hmem) hp

/-- Over a network that loses packets of a run, any of them, the file is put together from
what arrives of each NAL, whatever the receiver has seen before. -/
theorem receiveAll_lossy (hplain : ∀ a ∈ calls, a.Plain) (h : runCalls calls c = some c')
    (ht : transfers.map Transfer.sent = transmissions calls c.tsCurrent c.seqNum)
    (d : Depacketizer) :
    c'.sent = c.sent ++ transfers.flatMap Transfer.sent ∧
      (d.receiveAll (transfers.flatMap Transfer.arrived)).saved =
        d.saved ++ transfers.flatMap (Transfer.carried payloadOf) ∧
      List.Forall₂ Isolated calls transfers := by
  refine ⟨?_, saved_of_transfers hplain ht d, forall₂_isolated hplain ht⟩
  rw [sent_runCalls h, ← ht, List.flatMap_def]

instance (a : Call) : Decidable a.Plain := inferInstanceAs (Decidable (_ → _ → _))

/-- Of a train of two fragments the first is lost, and the NAL behind it arrives. -/
theorem receiveAll_lossy_two :
    ∃ c transfers, runCalls [⟨25, fun _ => 0x61, 1401⟩, ⟨25, fun _ => 0x65, 2⟩]
        ⟨0, 0, fun _ => 0, []⟩ = some c ∧
      c.sent = [] ++ transfers.flatMap Transfer.sent ∧
      (receiveAll ⟨fun _ => 0, []⟩ (transfers.flatMap Transfer.arrived)).saved =
        [] ++ transfers.flatMap (Transfer.carried payloadOf) ∧
      List.Forall₂ Isolated [⟨25, fun _ => 0x61, 1401⟩, ⟨25, fun _ => 0x65, 2⟩] transfers := by
  let first := packetsOf 25 0 0 (fun _ => 0x61) 1401
  let second :=
    packetsOf 25 (nextTs 25 0) (0 + BitVec.ofNat 16 (packetCount 1401)) (fun _ => 0x65) 2
  exact ⟨_, [⟨first, first.tail, List.tail_sublist _⟩, ⟨second, second, .refl _⟩], rfl,
    receiveAll_lossy (c := ⟨0, 0, fun _ => 0, []⟩) (by decide) rfl rfl _⟩

end H264Cast
