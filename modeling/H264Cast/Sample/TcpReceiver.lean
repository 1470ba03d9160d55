import H264Cast.Rtp.RoundTrip

/-! # Receiving over TCP

The receiver takes every result of `recv` for a packet, but a connection keeps no packet
boundaries. When the results are the packets the file is right. When there is anything to
receive it may also come byte by byte, and then the length handed to `fwrite` is negative.
-/

namespace H264Cast.TcpReceiver

open Packetizer Depacketizer

/-- The size of the receive buffer. -/
def tcpBufSize : ℕ := 2000

/-- A result of `recv`: an error, or bytes, none of them when the peer has closed the
connection. -/
inductive Received
  | fail
  | data (bs : List Byte)

/-- The bytes of a packet that are not written as they are. -/
def headerSize (rtpBuf : Memory Byte) : ℕ :=
  if (NaluHeader.view (rtpBuf 12)).type = 28 then 14 else 13

/-- Decode a packet that lies in the buffer. There is no result when `fwrite` is to read
past the end of the buffer. -/
def decode (rtpBuf : Memory Byte) (len : ℤ) : Option (List Byte) :=
  if headerSize rtpBuf + sizeT (len - headerSize rtpBuf) ≤ tcpBufSize then
    some (decodeRtp2h264 rtpBuf len)
  else none

/-- The bytes written to the file for the results of `recv`. -/
def recvFun (recvBuf : Memory Byte) : List Received → Option (List Byte)
  | [] => some []
  | .fail :: rs => do
    let out ← decode recvBuf (-1)
    let rest ← recvFun recvBuf rs
    return out ++ rest
  | .data bs :: rs =>
    if bs = [] then some []
    else do
      let recvBuf := recvBuf.write 0 bs
      let out ← decode recvBuf bs.length
      let rest ← recvFun recvBuf rs
      return out ++ rest

/-- A NAL that is sent, with the frame rate of the call. -/
structure Delivery extends Call where
  framerate_pos : 0 < framerate
  length_pos : 1 ≤ naluLen
  type_ne : naluLen ≤ rtpPayloadMaxSize → nalType (pstStream 0) ≠ 28

/-- The file that is expected. -/
def expected (ds : List Delivery) : List Byte := ds.flatMap fun d => startCode ++ d.nalu

/-- The results of `recv` for a stream of bytes. -/
def Cut (stream : List Byte) (rs : List (List Byte)) : Prop :=
  rs.flatten = stream ∧ ∀ r ∈ rs, r ≠ [] ∧ r.length ≤ tcpBufSize

/-- However the stream of the packets is cut, the file is the expected one. -/
def Independent (ds : List Delivery) (c : Packetizer) (recvBuf : Memory Byte) : Prop :=
  ∃ c', runCalls (ds.map Delivery.toCall) c = some c' ∧
    ∃ sent, c'.sent = c.sent ++ sent ∧
      ∀ rs, Cut sent.flatten rs → recvFun recvBuf (rs.map .data) = some (expected ds)

/-- A result that can be decoded as a packet. -/
structure Packet (r : List Byte) : Prop where
  length_ge : 13 ≤ r.length
  length_le : r.length ≤ recvBufSize
  type_ne : r.length = 13 → ∀ m : Memory Byte, nalType (m.write 0 r 12) ≠ 28

variable {m : Memory Byte} {r : List Byte} {rs : List (List Byte)} {ds : List Delivery}
  {c : Packetizer} {d : Delivery} {len : ℕ}

theorem headerSize_le (m : Memory Byte) : headerSize m ≤ 14 := by
  rw [headerSize]
  split_ifs <;> decide

theorem decode_of_le (h : headerSize m ≤ len) (hlen : len ≤ tcpBufSize) :
    decode m len = some (decodeRtp2h264 m len) := by
  apply if_pos
  have hle := headerSize_le m
  have hsize : len ≤ 2000 := hlen
  rw [sizeT_of_nonneg (by omega) (by omega), ← Int.ofNat_sub h, Int.toNat_natCast]
  omega

/-- A result that is too short for a packet. -/
theorem decode_of_lt (h : len < headerSize m) : decode m len = none := by
  apply if_neg
  have hle := headerSize_le m
  have hwrap : sizeT ((len : ℤ) - headerSize m) = 2 ^ 64 - (headerSize m - len) := by
    rw [sizeT, ← Int.add_emod_right, Int.emod_eq_of_lt (by omega) (by omega)]
    omega
  rw [hwrap, tcpBufSize]
  omega

theorem Packet.headerSize_le (h : Packet r) (m : Memory Byte) :
    headerSize (m.write 0 r) ≤ r.length := by
  have hge := h.length_ge
  rw [headerSize]
  split_ifs with ht
  · rcases Nat.eq_or_lt_of_le hge with heq | hlt
    · exact absurd ht (h.type_ne heq.symm m)
    · exact hlt
  · exact hge

/-- Results that are packets are decoded as datagrams are. -/
theorem recvFun_packets (h : ∀ r ∈ rs, Packet r) (m : Memory Byte) (saved : List Byte) :
    ∃ out, recvFun m (rs.map .data) = some out ∧
      (receiveAll ⟨m, saved⟩ rs).saved = saved ++ out := by
  induction rs generalizing m saved with
  | nil => exact ⟨[], rfl, (List.append_nil saved).symm⟩
  | cons r rs ih =>
    obtain ⟨hr, hrs⟩ := List.forall_mem_cons.mp h
    have hne : r ≠ [] := List.ne_nil_of_length_pos (Nat.lt_of_lt_of_le (by decide) hr.length_ge)
    have hlen : r.length ≤ tcpBufSize := Nat.le_trans hr.length_le (by decide)
    obtain ⟨out, hout, hsaved⟩ := ih hrs (m.write 0 r)
      (saved ++ decodeRtp2h264 (m.write 0 r) r.length)
    refine ⟨decodeRtp2h264 (m.write 0 r) r.length ++ out, ?_, ?_⟩
    · rw [List.map_cons, recvFun, if_neg hne]
      simp only [decode_of_le (hr.headerSize_le m) hlen, hout, Option.bind_eq_bind,
        Option.bind_some]
      rfl
    · have hreceive : receive ⟨m, saved⟩ r =
          ⟨m.write 0 r, saved ++ decodeRtp2h264 (m.write 0 r) r.length⟩ := by
        simp only [receive, List.take_of_length_le hr.length_le]
      rw [← List.append_assoc, ← hsaved, ← hreceive]
      rfl

/-- Every packet of a call can be decoded. -/
theorem packet_packetOf (d : Delivery) (ts : BitVec 32) (seq : BitVec 16) (i : ℕ) :
    Packet (packetOf ts seq d.pstStream d.naluLen i) := by
  have hpos := d.length_pos
  by_cases hmax : d.naluLen ≤ rtpPayloadMaxSize
  · rw [packetOf, if_pos hmax]
    have hmax' : d.naluLen ≤ 1400 := hmax
    have hlen : ((rtpHeader 0 ts (seq + 1 + BitVec.ofNat 16 i)).toBytes ++
        d.pstStream.read 0 d.naluLen).length = 12 + d.naluLen := by
      rw [List.length_append, RtpHeader.length_toBytes, Memory.length_read]
    refine ⟨by omega, by rw [hlen, recvBufSize]; omega, fun _ m => ?_⟩
    -- The byte behind the header is the first one of the NAL.
    have hfirst : m.write 0 ((rtpHeader 0 ts (seq + 1 + BitVec.ofNat 16 i)).toBytes ++
        d.pstStream.read 0 d.naluLen) 12 = d.pstStream 0 := by
      rw [← Nat.zero_add 12, Memory.write_of_mem (by omega),
        List.getElem_append_right (by rw [RtpHeader.length_toBytes]), Memory.getElem_read]
      simp [RtpHeader.length_toBytes]
    rw [hfirst]
    exact d.type_ne hmax
  · rw [packetOf, if_neg hmax, fuPayload]
    have hle : (d.pstStream.read (fragmentStart i)
        (fragmentStop d.naluLen i - fragmentStart i)).length ≤ 1486 := length_fragment_le
    constructor
    · simp only [List.length_append, RtpHeader.length_toBytes, List.length_cons]
      omega
    · simp only [List.length_append, RtpHeader.length_toBytes, List.length_cons, recvBufSize]
      omega
    · intro hlen
      simp only [List.length_append, RtpHeader.length_toBytes, List.length_cons] at hlen
      omega

/-- The packets of a run of calls can be decoded, and give back the NALs. -/
theorem runCalls_packets (ds : List Delivery) (c : Packetizer) :
    ∃ c' sent, runCalls (ds.map Delivery.toCall) c = some c' ∧ c'.sent = c.sent ++ sent ∧
      (∀ r ∈ sent, Packet r) ∧
        ∀ p : Depacketizer, (p.receiveAll sent).saved = p.saved ++ expected ds := by
  induction ds generalizing c with
  | nil =>
    exact ⟨c, [], rfl, (List.append_nil _).symm, fun _ hr => absurd hr List.not_mem_nil,
      fun p => (List.append_nil _).symm⟩
  | cons d ds ih =>
    obtain ⟨ret, c₁, h₁⟩ :=
      h264nal2rtpSend_isSome (Int.ne_of_gt d.framerate_pos) d.pstStream d.naluLen c
    obtain ⟨-, -, -, -, hsent₁⟩ := h264nal2rtpSend_spec h₁
    obtain ⟨c', sent, hrun, hsent, hpackets, hdecode⟩ := ih c₁
    refine ⟨c', packetsOf d.framerate c.tsCurrent c.seqNum d.pstStream d.naluLen ++ sent,
      runCalls_cons.mpr ⟨ret, c₁, h₁, hrun⟩, ?_, ?_, fun p => ?_⟩
    · rw [hsent, hsent₁, List.append_assoc]
    · intro r hr
      rcases List.mem_append.mp hr with hr | hr
      · obtain ⟨i, -, rfl⟩ := List.mem_map.mp hr
        exact packet_packetOf d _ _ i
      · exact hpackets r hr
    · rw [receiveAll_append, hdecode, receiveAll_packetsOf _ d.length_pos d.type_ne, expected,
        expected, List.flatMap_cons, List.append_assoc]
      rfl

/-- When every result is a packet the file is the expected one. -/
theorem recvFun_of_packets (ds : List Delivery) (c : Packetizer) (recvBuf : Memory Byte) :
    ∃ c' sent, runCalls (ds.map Delivery.toCall) c = some c' ∧ c'.sent = c.sent ++ sent ∧
      Cut sent.flatten sent ∧ recvFun recvBuf (sent.map .data) = some (expected ds) := by
  obtain ⟨c', sent, hrun, hsent, hpackets, hdecode⟩ := runCalls_packets ds c
  obtain ⟨out, hout, hsaved⟩ := recvFun_packets hpackets recvBuf []
  obtain rfl : out = expected ds := (hsaved.symm.trans (hdecode _))
  refine ⟨c', sent, hrun, hsent, ⟨rfl, fun r hr => ⟨?_, ?_⟩⟩, hout⟩
  · exact List.ne_nil_of_length_pos
      (Nat.lt_of_lt_of_le (by decide) (hpackets r hr).length_ge)
  · exact Nat.le_trans (hpackets r hr).length_le (by decide)

/-- A stream may come byte by byte. -/
theorem cut_bytes (stream : List Byte) : Cut stream (stream.map fun b => [b]) := by
  constructor
  · rw [← List.flatMap_def, List.flatMap_singleton']
  · intro r hr
    obtain ⟨b, -, rfl⟩ := List.mem_map.mp hr
    exact ⟨List.cons_ne_nil _ _, show 1 ≤ tcpBufSize by decide⟩

/-- There is no file when the first result is a single byte. -/
theorem recvFun_byte (m : Memory Byte) (b : Byte) (rs : List Received) :
    recvFun m (.data [b] :: rs) = none := by
  have hlt : 1 < headerSize (m.write 0 [b]) := by
    rw [headerSize]
    split_ifs <;> decide
  have hnone : decode (m.write 0 [b]) [b].length = none := decode_of_lt hlt
  rw [recvFun, if_neg (List.cons_ne_nil _ _)]
  simp only [hnone, Option.bind_eq_bind, Option.bind_none]

theorem not_independent (hne : ds ≠ []) (c : Packetizer) (recvBuf : Memory Byte) :
    ¬ Independent ds c recvBuf := by
  obtain ⟨c', sent, hrun, hsent, hpackets, hdecode⟩ := runCalls_packets ds c
  rintro ⟨c'', hrun', sent', hsent', hall⟩
  obtain rfl := Option.some.inj (hrun.symm.trans hrun')
  obtain rfl := List.append_cancel_left (hsent.symm.trans hsent')
  have hfile := hall _ (cut_bytes sent.flatten)
  cases hstream : sent.flatten with
  | nil =>
    -- Nothing was sent, but something is expected.
    rw [hstream] at hfile
    have hnil : expected ds = [] := (Option.some.inj hfile).symm
    obtain ⟨d, ds, rfl⟩ := List.exists_cons_of_ne_nil hne
    rw [expected, List.flatMap_cons] at hnil
    cases hnil
  | cons b bs =>
    rw [hstream, List.map_cons, List.map_cons, recvFun_byte] at hfile
    cases hfile

/-- A stream without bytes has no results. -/
theorem independent_nil (c : Packetizer) (recvBuf : Memory Byte) : Independent [] c recvBuf := by
  refine ⟨c, rfl, [], (List.append_nil _).symm, fun rs hrs => ?_⟩
  obtain ⟨hflat, hresults⟩ := hrs
  obtain rfl : rs = [] := by
    cases rs with
    | nil => rfl
    | cons r rs =>
      rw [List.flatten_cons] at hflat
      exact absurd (List.append_eq_nil_iff.mp hflat).1 (hresults r List.mem_cons_self).1
  rfl

/-- The file does not depend on how the stream is cut exactly when nothing is sent. Results that
are the packets one by one are a way to cut it for which the file is the expected one. -/
theorem independent_iff (ds : List Delivery) (c : Packetizer) (recvBuf : Memory Byte) :
    (Independent ds c recvBuf ↔ ds = []) ∧
      ∃ c' sent, runCalls (ds.map Delivery.toCall) c = some c' ∧ c'.sent = c.sent ++ sent ∧
        Cut sent.flatten sent ∧ recvFun recvBuf (sent.map .data) = some (expected ds) := by
  refine ⟨⟨fun h => ?_, ?_⟩, recvFun_of_packets ds c recvBuf⟩
  · by_contra hne
    exact not_independent hne c recvBuf h
  · rintro rfl
    exact independent_nil c recvBuf

/-- A slice of fourteen bytes. -/
def slice : Delivery where
  framerate := 25
  pstStream _ := 0x65
  naluLen := 14
  framerate_pos := by decide
  length_pos := by decide
  type_ne := by decide

/-- The packet of the slice, cut in the middle. -/
def halves : List (List Byte) :=
  let stream := (packetsOf slice.framerate 0 0 slice.pstStream slice.naluLen).flatten
  [stream.take 13, stream.drop 13]

/-- A packet that comes in two results is decoded as two packets. -/
theorem not_independent_slice :
    ¬ Independent [slice] ⟨0, 0, fun _ => 0, []⟩ fun _ => 0 := by
  rintro ⟨c', hrun, sent, hsent, hall⟩
  obtain ⟨ret, c₁, hsend, hend⟩ := runCalls_cons.mp hrun
  obtain rfl : c₁ = c' := Option.some.inj hend
  obtain ⟨-, -, -, -, hsent₁⟩ := h264nal2rtpSend_spec hsend
  obtain rfl := hsent.symm.trans hsent₁
  have hfile := hall halves ⟨by decide +kernel, by decide +kernel⟩
  exact absurd hfile (by decide +kernel)

end H264Cast.TcpReceiver
