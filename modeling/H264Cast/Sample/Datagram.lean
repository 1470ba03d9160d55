import H264Cast.Library.Probe
import H264Cast.Sample.TcpReceiver

/-! # Short datagrams

The depacketizer with every access to the receive buffer written out. It takes the type from
the byte behind the RTP header and subtracts thirteen or fourteen from the length, and neither
it nor the receive loops look at the length before. A loop over datagrams passes on an empty
one, and the loop over a connection passes on an error.
-/

namespace H264Cast

open TcpReceiver

/-- The lengths that the receive loops pass on. -/
def PassedOn (len : ℤ) : Prop :=
  (0 ≤ len ∧ len ≤ recvBufSize) ∨ len = -1 ∨ (1 ≤ len ∧ len ≤ tcpBufSize)

/-- What one call writes: the bytes of `fputc`, the length handed to `fwrite`, and the bytes
that it takes from the buffer. -/
structure Written where
  put : List Byte
  length : ℤ
  body : List Byte

/-- The bytes that reach the file. -/
def Written.bytes (w : Written) : List Byte := w.put ++ w.body

namespace Inspect

/-- Write a range of the buffer behind the bytes put before. -/
def fwrite (put : List Byte) (p : ℕ) (length : ℤ) : Probe Byte Written := do
  return ⟨put, length, ← Probe.loads p (sizeT length)⟩

def decodeRtp2h264 (len : ℤ) : Probe Byte Written := do
  let naluHeader := NaluHeader.view (← Probe.load 12)
  if naluHeader.type = 28 then
    let fuHeader := FuHeader.view (← Probe.load 13)
    if fuHeader.e = 1 then
      fwrite [] 14 (len - 14)
    else if fuHeader.s = 1 then
      fwrite (startCode ++ [h264NalHeader fuHeader.type naluHeader.nri naluHeader.f]) 14 (len - 14)
    else
      fwrite [] 14 (len - 14)
  else
    fwrite (startCode ++ [h264NalHeader naluHeader.type naluHeader.nri naluHeader.f]) 13 (len - 13)

end Inspect

/-- A call is safe for the packet that lies in the buffer: it inspects its bytes only, the
length handed to `fwrite` is not negative, and what is written is the same for every buffer
that holds the packet. -/
structure SafeDecode (rtpBuf : Memory Byte) (len : ℤ) : Prop where
  inside : ∀ i ∈ (Inspect.decodeRtp2h264 len).inspected rtpBuf, (i : ℤ) < len
  length_nonneg : 0 ≤ ((Inspect.decodeRtp2h264 len).run rtpBuf).length
  same : ∀ rtpBuf' : Memory Byte, (∀ i : ℕ, i < len → rtpBuf i = rtpBuf' i) →
    ((Inspect.decodeRtp2h264 len).run rtpBuf).bytes =
      ((Inspect.decodeRtp2h264 len).run rtpBuf').bytes

namespace Inspect

variable {rtpBuf : Memory Byte} {len length : ℤ} {put : List Byte} {p i : ℕ}

@[simp] theorem run_fwrite :
    (fwrite put p length).run rtpBuf = ⟨put, length, rtpBuf.read p (sizeT length)⟩ := by
  simp [fwrite]

@[simp] theorem inspected_fwrite :
    (fwrite put p length).inspected rtpBuf = List.range' p (sizeT length) := by
  simp [fwrite]

/-- The depacketizer with its accesses written out is the depacketizer. -/
theorem bytes_run_decodeRtp2h264 (rtpBuf : Memory Byte) (len : ℤ) :
    ((decodeRtp2h264 len).run rtpBuf).bytes = H264Cast.decodeRtp2h264 rtpBuf len := by
  simp only [decodeRtp2h264, H264Cast.decodeRtp2h264, Probe.bind_eq, Probe.run_bind,
    Probe.run_load, Probe.run_ite, run_fwrite]
  split_ifs <;>
    simp only [Written.bytes, List.nil_append, List.append_assoc, List.singleton_append]

theorem length_run_decodeRtp2h264 (rtpBuf : Memory Byte) (len : ℤ) :
    ((decodeRtp2h264 len).run rtpBuf).length = len - headerSize rtpBuf := by
  simp only [decodeRtp2h264, headerSize, Probe.bind_eq, Probe.run_bind, Probe.run_load,
    Probe.run_ite, run_fwrite]
  split_ifs <;> rfl

/-- The header bytes and the range that is written. -/
theorem mem_inspected_decodeRtp2h264 :
    i ∈ (decodeRtp2h264 len).inspected rtpBuf ↔
      12 ≤ i ∧ i < headerSize rtpBuf + sizeT (len - headerSize rtpBuf) := by
  simp only [decodeRtp2h264, headerSize, Probe.bind_eq, Probe.inspected_bind, Probe.run_load,
    Probe.inspected_load, Probe.inspected_ite, inspected_fwrite, ite_self]
  split_ifs with ht
  · simp only [List.singleton_append, List.mem_cons, List.mem_range'_1, Nat.cast_ofNat]
    omega
  · simp only [List.singleton_append, List.mem_cons, List.mem_range'_1, Nat.cast_ofNat]
    omega

end Inspect

variable {rtpBuf : Memory Byte} {len : ℤ}

theorem safeDecode_iff_headerSize (hlen : PassedOn len) :
    SafeDecode rtpBuf len ↔ (headerSize rtpBuf : ℤ) ≤ len := by
  have hle : len ≤ 2000 := by
    unfold PassedOn recvBufSize tcpBufSize at hlen
    omega
  constructor
  · intro h
    have := h.length_nonneg
    rw [Inspect.length_run_decodeRtp2h264] at this
    omega
  · intro h
    have hinside : ∀ i ∈ (Inspect.decodeRtp2h264 len).inspected rtpBuf, (i : ℤ) < len := by
      intro i hi
      obtain ⟨-, hlt⟩ := Inspect.mem_inspected_decodeRtp2h264.mp hi
      rw [sizeT_of_nonneg (by omega) (by omega)] at hlt
      omega
    refine ⟨hinside, ?_, fun rtpBuf' hsame => ?_⟩
    · rw [Inspect.length_run_decodeRtp2h264]
      omega
    · exact congrArg Written.bytes (Probe.congr fun i hi => hsame i (hinside i hi)).1

/-- A call is safe exactly for the packets of at least thirteen bytes, and fourteen when the
type is that of a fragment. -/
theorem safeDecode_iff (hlen : PassedOn len) (rtpBuf : Memory Byte) :
    SafeDecode rtpBuf len ↔ 13 ≤ len ∧ (nalType (rtpBuf 12) = 28 → 14 ≤ len) := by
  rw [safeDecode_iff_headerSize hlen]
  have htype : (NaluHeader.view (rtpBuf 12)).type = nalType (rtpBuf 12) := rfl
  unfold headerSize
  rw [htype]
  split_ifs with h
  · simp only [h, forall_const]
    omega
  · exact ⟨fun hle => ⟨hle, fun h' => absurd h' h⟩, And.left⟩

/-- A packet with one byte behind its header. -/
theorem safeDecode_iff_one :
    SafeDecode (fun _ => 0x65) 13 ↔ 13 ≤ (13 : ℤ) ∧ (nalType 0x65 = 28 → 14 ≤ (13 : ℤ)) :=
  safeDecode_iff (by unfold PassedOn; decide) _

/-- An empty datagram: thirteen is subtracted from zero. -/
theorem not_safeDecode_empty :
    ¬ ∀ (rtpBuf : Memory Byte) (len : ℤ), PassedOn len → SafeDecode rtpBuf len := by
  intro hall
  have h := (hall (fun _ => 0x65) 0 (by unfold PassedOn; decide)).length_nonneg
  rw [Inspect.length_run_decodeRtp2h264] at h
  exact absurd h (by decide)

end H264Cast
