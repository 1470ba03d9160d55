import Mathlib.Algebra.Ring.Int.Defs
import Mathlib.Algebra.Ring.Nat
import H264Cast.Rtp.Header

/-! # The packetizer

`h264nal2rtp_send` turns one NAL into RTP packets: a single packet up to 1400 bytes,
a train of FU-A fragments above. Every packet is built in the static send buffer and
the counters persist from call to call. The packets of one call are given in closed
form by `packetsOf`.
-/

namespace H264Cast

def rtpPayloadMaxSize : ℕ := 1400
def sendBufSize : ℕ := 1500

/-- The static variables of the packetizer, and the datagrams handed to the socket. -/
structure Packetizer where
  tsCurrent : BitVec 32
  seqNum : BitVec 16
  sendBuffer : Memory Byte
  sent : List (List Byte)

namespace Packetizer

/-- The header fields assigned on every path. -/
def rtpHeader (marker : BitVec 1) (ts : BitVec 32) (seq : BitVec 16) : RtpHeader where
  csrcLen := 0
  extension := 0
  padding := 0
  version := 2
  payloadType := 96
  marker := marker
  seqNo := htons (seq % 0xffff)
  timestamp := htonl ts
  ssrc := htonl 10

def sendDataToServer (len : ℕ) (c : Packetizer) : Packetizer :=
  { c with sent := c.sent ++ [c.sendBuffer.read 0 len] }

/-- Clear the send buffer, advance the sequence number and lay out the RTP header. -/
def startPacket (marker : BitVec 1) (c : Packetizer) : Packetizer :=
  let seqNum := c.seqNum + 1
  let cleared := c.sendBuffer.write 0 (List.replicate sendBufSize 0x00)
  { c with
    seqNum := seqNum
    sendBuffer := cleared.write 0 (rtpHeader marker c.tsCurrent seqNum).toBytes }

/-- Store bytes in the send buffer. -/
def store (p : ℕ) (bs : List Byte) (c : Packetizer) : Packetizer :=
  { c with sendBuffer := c.sendBuffer.write p bs }

/-- The single NAL path. The marker bit is not assigned there and stays cleared. -/
def sendSingleNal (naluBuf : Memory Byte) (naluLen : ℕ) (c : Packetizer) : Packetizer :=
  startPacket 0 c
  |> store 12 [(NaluHeader.ofNalu (naluBuf 0)).toByte]
  |> store 13 (naluBuf.read 1 (naluLen - 1))
  |> sendDataToServer (12 + naluLen)

/-- The FU indicator of every fragment. -/
def fuIndicator (naluBuf : Memory Byte) : FuIndicator :=
  { NaluHeader.ofNalu (naluBuf 0) with type := 28 }

def fuHeader (s e : BitVec 1) (naluBuf : Memory Byte) : FuHeader where
  s := s
  e := e
  r := 0
  type := (naluBuf 0 &&& 0x1f).setWidth 5

/-- One fragment: its marker, its start and end bits, and the range it copies. -/
def sendFu (naluBuf : Memory Byte) (marker s e : BitVec 1) (src size : ℕ)
    (c : Packetizer) : Packetizer :=
  startPacket marker c
  |> store 12 [(fuIndicator naluBuf).toByte]
  |> store 13 [(fuHeader s e naluBuf).toByte]
  |> store 14 (naluBuf.read src size)
  |> sendDataToServer (12 + 2 + size)

def fuPackNum (naluLen : ℕ) : ℕ :=
  if naluLen % rtpPayloadMaxSize ≠ 0 then naluLen / rtpPayloadMaxSize + 1
  else naluLen / rtpPayloadMaxSize

def lastFuPackSize (naluLen : ℕ) : ℕ :=
  if naluLen % rtpPayloadMaxSize ≠ 0 then naluLen % rtpPayloadMaxSize else rtpPayloadMaxSize

/-- The body of the fragment loop: first, middle and last fragment. -/
def sendFuSeq (naluBuf : Memory Byte) (naluLen fuSeq : ℕ) (c : Packetizer) : Packetizer :=
  if fuSeq = 0 then
    sendFu naluBuf 0 1 0 1 (rtpPayloadMaxSize - 1) c
  else if fuSeq < fuPackNum naluLen - 1 then
    sendFu naluBuf 0 0 0 (rtpPayloadMaxSize * fuSeq) rtpPayloadMaxSize c
  else
    sendFu naluBuf 1 0 1 (rtpPayloadMaxSize * fuSeq) (lastFuPackSize naluLen) c

/-- One call. It has no result when the frame rate divides by zero; the result is the
returned code and the static variables after the call. -/
def h264nal2rtpSend (framerate : ℤ) (pstStream : Memory Byte) (naluLen : ℕ)
    (c : Packetizer) : Option (ℤ × Packetizer) :=
  if framerate = 0 then none
  else
    let c := { c with tsCurrent := c.tsCurrent + BitVec.ofInt 32 (Int.tdiv 90000 framerate) }
    if naluLen < 1 then some (-1, c)
    else if naluLen ≤ rtpPayloadMaxSize then some (0, sendSingleNal pstStream naluLen c)
    else
      some (0, (List.range (fuPackNum naluLen)).foldl
        (fun c fuSeq => sendFuSeq pstStream naluLen fuSeq c) c)

variable {naluBuf : Memory Byte} {naluLen fuSeq k n src size len : ℕ} {marker s e : BitVec 1}
  {p : ℕ} {bs : List Byte} {c c' : Packetizer} {framerate ret : ℤ}

@[simp] theorem store_tsCurrent : (store p bs c).tsCurrent = c.tsCurrent := rfl
@[simp] theorem store_seqNum : (store p bs c).seqNum = c.seqNum := rfl
@[simp] theorem store_sent : (store p bs c).sent = c.sent := rfl
@[simp] theorem sendDataToServer_tsCurrent : (sendDataToServer len c).tsCurrent = c.tsCurrent := rfl
@[simp] theorem sendDataToServer_seqNum : (sendDataToServer len c).seqNum = c.seqNum := rfl
@[simp] theorem startPacket_tsCurrent : (startPacket marker c).tsCurrent = c.tsCurrent := rfl
@[simp] theorem startPacket_seqNum : (startPacket marker c).seqNum = c.seqNum + 1 := rfl
@[simp] theorem startPacket_sent : (startPacket marker c).sent = c.sent := rfl

/-- Storing at the end of what has been laid out so far extends it. -/
theorem read_store (bs : List Byte) (h : p + bs.length = n) :
    (store p bs c).sendBuffer.read 0 n = c.sendBuffer.read 0 p ++ bs := by
  subst h
  exact Memory.read_write_append _ _ _

theorem read_startPacket :
    (startPacket marker c).sendBuffer.read 0 12 =
      (rtpHeader marker c.tsCurrent (c.seqNum + 1)).toBytes := by
  simp only [startPacket]
  exact Memory.read_write_self _ _ (RtpHeader.length_toBytes _)

theorem sendSingleNal_sent (hn : 1 ≤ naluLen) :
    (sendSingleNal naluBuf naluLen c).sent = c.sent ++
      [(rtpHeader 0 c.tsCurrent (c.seqNum + 1)).toBytes ++ naluBuf.read 0 naluLen] := by
  obtain ⟨k, rfl⟩ := Nat.exists_eq_add_of_le' hn
  simp only [sendSingleNal, sendDataToServer, store_sent, startPacket_sent]
  rw [read_store _ (by simp; omega), read_store _ (by rfl), read_startPacket,
    NaluHeader.toByte_ofNalu, Memory.read_succ, List.append_assoc]
  rfl

theorem sendFu_sent :
    (sendFu naluBuf marker s e src size c).sent = c.sent ++
      [(rtpHeader marker c.tsCurrent (c.seqNum + 1)).toBytes ++
        ((fuIndicator naluBuf).toByte :: (fuHeader s e naluBuf).toByte ::
          naluBuf.read src size)] := by
  simp only [sendFu, sendDataToServer, store_sent, startPacket_sent]
  rw [read_store _ (by simp), read_store _ (by rfl), read_store _ (by rfl), read_startPacket]
  simp only [List.append_assoc, List.cons_append, List.nil_append]

@[simp] theorem sendSingleNal_tsCurrent :
    (sendSingleNal naluBuf naluLen c).tsCurrent = c.tsCurrent := rfl
@[simp] theorem sendSingleNal_seqNum :
    (sendSingleNal naluBuf naluLen c).seqNum = c.seqNum + 1 := rfl
@[simp] theorem sendFu_tsCurrent :
    (sendFu naluBuf marker s e src size c).tsCurrent = c.tsCurrent := rfl
@[simp] theorem sendFu_seqNum : (sendFu naluBuf marker s e src size c).seqNum = c.seqNum + 1 := rfl

/-! ### The packets of one call -/

/-- The number of packets one call sends. -/
def packetCount (naluLen : ℕ) : ℕ :=
  if naluLen < 1 then 0
  else if naluLen ≤ rtpPayloadMaxSize then 1
  else fuPackNum naluLen

/-- The first byte of the NAL carried by a fragment. -/
def fragmentStart (i : ℕ) : ℕ := if i = 0 then 1 else rtpPayloadMaxSize * i

/-- The end of the range of the NAL carried by a fragment. -/
def fragmentStop (naluLen i : ℕ) : ℕ := min (rtpPayloadMaxSize * (i + 1)) naluLen

/-- The bit is set exactly when the condition holds. -/
def flag (P : Prop) [Decidable P] : BitVec 1 := if P then 1 else 0

/-- A fragment with its two header bytes. -/
def fuPayload (naluBuf : Memory Byte) (naluLen i : ℕ) : List Byte :=
  (fuIndicator naluBuf).toByte ::
    (fuHeader (flag (i = 0)) (flag (i + 1 = fuPackNum naluLen)) naluBuf).toByte ::
    naluBuf.read (fragmentStart i) (fragmentStop naluLen i - fragmentStart i)

/-- The packet with index `i` of a call that starts from these counters. -/
def packetOf (ts : BitVec 32) (seq : BitVec 16) (naluBuf : Memory Byte) (naluLen i : ℕ) :
    List Byte :=
  if naluLen ≤ rtpPayloadMaxSize then
    (rtpHeader 0 ts (seq + 1 + BitVec.ofNat 16 i)).toBytes ++ naluBuf.read 0 naluLen
  else
    (rtpHeader (flag (i + 1 = fuPackNum naluLen)) ts (seq + 1 + BitVec.ofNat 16 i)).toBytes ++
      fuPayload naluBuf naluLen i

/-- The timestamp after a call. -/
def nextTs (framerate : ℤ) (ts : BitVec 32) : BitVec 32 :=
  ts + BitVec.ofInt 32 (Int.tdiv 90000 framerate)

/-- The packets of one call, from the counters before it. -/
def packetsOf (framerate : ℤ) (ts : BitVec 32) (seq : BitVec 16) (naluBuf : Memory Byte)
    (naluLen : ℕ) : List (List Byte) :=
  (List.range (packetCount naluLen)).map (packetOf (nextTs framerate ts) seq naluBuf naluLen)

theorem fuPackNum_bounds (h : rtpPayloadMaxSize < naluLen) :
    2 ≤ fuPackNum naluLen ∧ rtpPayloadMaxSize * (fuPackNum naluLen - 1) < naluLen ∧
      naluLen ≤ rtpPayloadMaxSize * fuPackNum naluLen := by
  unfold fuPackNum rtpPayloadMaxSize at *
  split_ifs <;> omega

theorem lastFuPackSize_eq (h : rtpPayloadMaxSize < naluLen) :
    lastFuPackSize naluLen = naluLen - rtpPayloadMaxSize * (fuPackNum naluLen - 1) := by
  unfold lastFuPackSize fuPackNum rtpPayloadMaxSize at *
  split_ifs <;> omega

theorem sendFuSeq_sent (h : rtpPayloadMaxSize < naluLen) (hi : fuSeq < fuPackNum naluLen) :
    (sendFuSeq naluBuf naluLen fuSeq c).sent = c.sent ++
      [(rtpHeader (flag (fuSeq + 1 = fuPackNum naluLen)) c.tsCurrent (c.seqNum + 1)).toBytes ++
        fuPayload naluBuf naluLen fuSeq] := by
  obtain ⟨h₂, hlt, hle⟩ := fuPackNum_bounds h
  unfold sendFuSeq fuPayload
  split_ifs with hfirst hmiddle
  · subst hfirst
    rw [sendFu_sent]
    simp [flag, fragmentStart, fragmentStop, show 1 ≠ fuPackNum naluLen by omega,
      show min rtpPayloadMaxSize naluLen = rtpPayloadMaxSize by omega]
  · have hstop : fragmentStop naluLen fuSeq - fragmentStart fuSeq = rtpPayloadMaxSize := by
      have hm : rtpPayloadMaxSize * (fuSeq + 1) ≤ rtpPayloadMaxSize * (fuPackNum naluLen - 1) :=
        Nat.mul_le_mul_left _ (by omega)
      simp only [fragmentStop, fragmentStart, hfirst, if_false, Nat.mul_add_one] at hm ⊢
      omega
    rw [sendFu_sent, hstop]
    simp [flag, fragmentStart, hfirst, show fuSeq + 1 ≠ fuPackNum naluLen by omega]
  · have hlast : fuSeq = fuPackNum naluLen - 1 := by omega
    have hstop : fragmentStop naluLen fuSeq - fragmentStart fuSeq = lastFuPackSize naluLen := by
      rw [lastFuPackSize_eq h, fragmentStop, fragmentStart, if_neg hfirst,
        show fuSeq + 1 = fuPackNum naluLen by omega, Nat.min_eq_right hle, hlast]
    rw [sendFu_sent, hstop]
    simp [flag, fragmentStart, hfirst, show fuSeq + 1 = fuPackNum naluLen by omega]

@[simp] theorem sendFuSeq_tsCurrent :
    (sendFuSeq naluBuf naluLen fuSeq c).tsCurrent = c.tsCurrent := by
  unfold sendFuSeq
  split_ifs <;> rfl

@[simp] theorem sendFuSeq_seqNum :
    (sendFuSeq naluBuf naluLen fuSeq c).seqNum = c.seqNum + 1 := by
  unfold sendFuSeq
  split_ifs <;> rfl

/-- The fragment loop after its first `k` rounds. -/
theorem foldl_sendFuSeq (naluBuf : Memory Byte) (c : Packetizer)
    (h : rtpPayloadMaxSize < naluLen) (hk : k ≤ fuPackNum naluLen) :
    let c' := (List.range k).foldl (fun c fuSeq => sendFuSeq naluBuf naluLen fuSeq c) c
    c'.tsCurrent = c.tsCurrent ∧ c'.seqNum = c.seqNum + BitVec.ofNat 16 k ∧
      c'.sent = c.sent ++ (List.range k).map (packetOf c.tsCurrent c.seqNum naluBuf naluLen) := by
  induction k with
  | zero => simp
  | succ k ih =>
    obtain ⟨hts, hseq, hsent⟩ := ih (by omega)
    simp only [List.range_succ, List.foldl_append, List.foldl_cons, List.foldl_nil,
      sendFuSeq_tsCurrent, sendFuSeq_seqNum, List.map_append, List.map_cons, List.map_nil]
    refine ⟨hts, ?_, ?_⟩
    · rw [hseq, BitVec.ofNat_add, BitVec.add_assoc]
      rfl
    · rw [sendFuSeq_sent h (by omega), hts, hseq, hsent, List.append_assoc]
      simp only [packetOf, if_neg (Nat.not_le.mpr h), BitVec.add_assoc, BitVec.add_comm 1]

/-- What one call does to the static variables and which packets it sends. -/
theorem h264nal2rtpSend_spec (h : h264nal2rtpSend framerate naluBuf naluLen c = some (ret, c')) :
    framerate ≠ 0 ∧ ret = (if naluLen < 1 then -1 else 0) ∧
      c'.tsCurrent = nextTs framerate c.tsCurrent ∧
      c'.seqNum = c.seqNum + BitVec.ofNat 16 (packetCount naluLen) ∧
      c'.sent = c.sent ++ packetsOf framerate c.tsCurrent c.seqNum naluBuf naluLen := by
  unfold h264nal2rtpSend at h
  split_ifs at h with hf hlen hmax
  · obtain ⟨rfl, rfl⟩ := h
    simp [hf, hlen, nextTs, packetsOf, packetCount]
  · obtain ⟨rfl, rfl⟩ := h
    simp [hf, hlen, hmax, nextTs, packetsOf, packetCount, packetOf,
      sendSingleNal_sent (Nat.not_lt.mp hlen)]
  · obtain ⟨rfl, rfl⟩ := h
    have hm : rtpPayloadMaxSize < naluLen := Nat.not_le.mp hmax
    obtain ⟨hts, hseq, hsent⟩ := foldl_sendFuSeq naluBuf
      { c with tsCurrent := nextTs framerate c.tsCurrent } hm (Nat.le_refl _)
    simp only [packetsOf, packetCount, if_neg hlen, if_neg hmax]
    exact ⟨hf, by simp, hts, hseq, hsent⟩

/-- A call with a usable frame rate returns. -/
theorem h264nal2rtpSend_isSome (hf : framerate ≠ 0) (naluBuf : Memory Byte) (naluLen : ℕ)
    (c : Packetizer) : ∃ ret c', h264nal2rtpSend framerate naluBuf naluLen c = some (ret, c') := by
  unfold h264nal2rtpSend
  rw [if_neg hf]
  split_ifs <;> exact ⟨_, _, rfl⟩

/-- The arguments of one call. -/
structure Call where
  framerate : ℤ
  pstStream : Memory Byte
  naluLen : ℕ

/-- The NAL a call is given. -/
def Call.nalu (a : Call) : List Byte := a.pstStream.read 0 a.naluLen

/-- A sequence of calls, each starting from the static variables the last one left. -/
def runCalls (calls : List Call) (c : Packetizer) : Option Packetizer :=
  calls.foldlM (fun c a => (h264nal2rtpSend a.framerate a.pstStream a.naluLen c).map Prod.snd) c

theorem runCalls_cons {a : Call} {calls : List Call} :
    runCalls (a :: calls) c = some c' ↔ ∃ ret c₁,
      h264nal2rtpSend a.framerate a.pstStream a.naluLen c = some (ret, c₁) ∧
        runCalls calls c₁ = some c' := by
  simp only [runCalls, List.foldlM_cons, Option.bind_eq_bind, Option.bind_eq_some_iff,
    Option.map_eq_some_iff, Prod.exists]
  constructor
  · rintro ⟨_, ⟨ret, c₁, h, rfl⟩, hrest⟩
    exact ⟨ret, c₁, h, hrest⟩
  · rintro ⟨ret, c₁, h, hrest⟩
    exact ⟨c₁, ⟨ret, c₁, h, rfl⟩, hrest⟩

theorem runCalls_isSome {calls : List Call} (h : ∀ a ∈ calls, a.framerate ≠ 0)
    (c : Packetizer) : ∃ c', runCalls calls c = some c' := by
  induction calls generalizing c with
  | nil => exact ⟨c, rfl⟩
  | cons a calls ih =>
    obtain ⟨ret, c₁, h₁⟩ :=
      h264nal2rtpSend_isSome (h a List.mem_cons_self) a.pstStream a.naluLen c
    obtain ⟨c', h'⟩ := ih (fun b hb => h b (List.mem_cons_of_mem _ hb)) c₁
    exact ⟨c', runCalls_cons.mpr ⟨ret, c₁, h₁, h'⟩⟩

end Packetizer

end H264Cast
