import H264Cast.Rtp.Header
import Mathlib.Algebra.Ring.Int.Defs
import Mathlib.Algebra.Ring.Nat

/-! # The depacketizer

`decode_rtp2h264` writes the NAL bytes of one datagram to the output file, and the
receive loop hands it every datagram in the same buffer. Lengths are computed as
`int` and converted to `size_t` when they reach `fwrite`.
-/

namespace H264Cast

/-- Conversion of an `int` length to `size_t`. -/
def sizeT (x : ℤ) : ℕ := (x % 2 ^ 64).toNat

theorem sizeT_of_nonneg {x : ℤ} (h : 0 ≤ x) (hx : x < 2 ^ 64) : sizeT x = x.toNat := by
  rw [sizeT, Int.emod_eq_of_lt h hx]

/-- The bytes written for the packet of the given length that lies in the buffer. -/
def decodeRtp2h264 (rtpBuf : Memory Byte) (len : ℤ) : List Byte :=
  let naluHeader := NaluHeader.view (rtpBuf 12)
  if naluHeader.type = 28 then
    let fuHeader := FuHeader.view (rtpBuf 13)
    if fuHeader.e = 1 then
      rtpBuf.read 14 (sizeT (len - 14))
    else if fuHeader.s = 1 then
      startCode ++ h264NalHeader fuHeader.type naluHeader.nri naluHeader.f ::
        rtpBuf.read 14 (sizeT (len - 14))
    else
      rtpBuf.read 14 (sizeT (len - 14))
  else
    startCode ++ h264NalHeader naluHeader.type naluHeader.nri naluHeader.f ::
      rtpBuf.read 13 (sizeT (len - 13))

/-- The size of the receive buffer. -/
def recvBufSize : ℕ := 1500

/-- The receive buffer and the bytes written to the output file. -/
structure Depacketizer where
  buf : Memory Byte
  saved : List Byte

namespace Depacketizer

/-- One round of the receive loop. A datagram longer than the buffer is cut. -/
def receive (c : Depacketizer) (datagram : List Byte) : Depacketizer :=
  let got := datagram.take recvBufSize
  let buf := c.buf.write 0 got
  ⟨buf, c.saved ++ decodeRtp2h264 buf got.length⟩

/-- The receive loop over a sequence of datagrams. -/
def receiveAll (c : Depacketizer) (datagrams : List (List Byte)) : Depacketizer :=
  datagrams.foldl receive c

variable {c : Depacketizer} {hdr body bs : List Byte} {b b' : Byte} {d d' : List (List Byte)}

@[simp] theorem receiveAll_nil : c.receiveAll [] = c := rfl

theorem receiveAll_append : c.receiveAll (d ++ d') = (c.receiveAll d).receiveAll d' :=
  List.foldl_append

/-- The buffer behind the RTP header holds the payload of the datagram. -/
theorem read_receive (hh : hdr.length = 12) (hb : body.length ≤ 1488) :
    (c.buf.write 0 ((hdr ++ body).take recvBufSize)).read 12 body.length = body := by
  have ht : (hdr ++ body).take recvBufSize = hdr ++ body :=
    List.take_of_length_le (by simp [hh, recvBufSize]; omega)
  have hr := Memory.read_write_self (n := 12 + body.length) c.buf 0
    (show (hdr ++ body).length = 12 + body.length by simp [hh])
  rw [ht, ← Nat.zero_add 12]
  rw [Memory.read_add] at hr
  exact (List.append_inj hr (by simp [hh])).2

theorem receive_saved (hh : hdr.length = 12) (hb : body.length ≤ 1488) :
    ∃ m : Memory Byte, m.read 12 body.length = body ∧
      (c.receive (hdr ++ body)).saved = c.saved ++ decodeRtp2h264 m (12 + body.length : ℕ) := by
  refine ⟨_, read_receive (c := c) hh hb, ?_⟩
  simp only [receive, List.length_take, List.length_append, hh, recvBufSize]
  rw [Nat.min_eq_right (by omega)]

/-- A packet that does not carry a fragment is written behind a start code. -/
theorem receive_single (hh : hdr.length = 12) (hb : (b :: bs).length ≤ 1488)
    (ht : nalType b ≠ 28) :
    (c.receive (hdr ++ b :: bs)).saved = c.saved ++ (startCode ++ b :: bs) := by
  obtain ⟨m, hm, hs⟩ := receive_saved (c := c) hh hb
  rw [List.length_cons, Memory.read_succ, List.cons.injEq] at hm
  have ht' : (NaluHeader.view b).type ≠ 28 := ht
  rw [hs, decodeRtp2h264, hm.1, if_neg ht', h264NalHeader_view, List.length_cons]
  simp only [List.length_cons] at hb
  have hlen : sizeT (((12 + (bs.length + 1) : ℕ) : ℤ) - 13) = bs.length := by
    rw [sizeT_of_nonneg (by omega) (by omega)]
    omega
  rw [hlen, hm.2]

/-- A fragment is written without its two header bytes, behind a start code and the
rebuilt NAL header when its start bit alone is set. -/
theorem receive_fragment {ind : FuIndicator} {fu : FuHeader} (hh : hdr.length = 12)
    (hb : bs.length ≤ 1486) (ht : ind.type = 28) :
    (c.receive (hdr ++ ind.toByte :: fu.toByte :: bs)).saved = c.saved ++
      (if fu.e = 0 ∧ fu.s = 1 then startCode ++ h264NalHeader fu.type ind.nri ind.f :: bs
        else bs) := by
  have hb' : (ind.toByte :: fu.toByte :: bs).length ≤ 1488 := by
    rw [List.length_cons, List.length_cons]
    omega
  obtain ⟨m, hm, hs⟩ := receive_saved (c := c) hh hb'
  rw [List.length_cons, Memory.read_succ, List.cons.injEq, List.length_cons, Memory.read_succ,
    List.cons.injEq] at hm
  obtain ⟨hind, hfu, hbs⟩ := hm
  have hlen : sizeT (((12 + (bs.length + 1 + 1) : ℕ) : ℤ) - 14) = bs.length := by
    rw [sizeT_of_nonneg (by omega) (by omega)]
    omega
  rw [hs, decodeRtp2h264, hind, NaluHeader.view_toByte, if_pos ht, hfu, FuHeader.view_toByte]
  simp only [List.length_cons, hlen, hbs]
  rcases BitVec.eq_zero_or_eq_one fu.e with he | he <;> simp [he]

end Depacketizer

end H264Cast
