import H264Cast.AnnexB.Units

/-! # Packet headers

The bit-field records laid over the first bytes of a packet. A record is stored
with its first field in the low bits; multi-byte fields are stored low byte first,
so `htons` and `htonl` put them in network order.
-/

namespace H264Cast

/-- Swap the two bytes of a field, on a little-endian host. -/
def htons (x : BitVec 16) : BitVec 16 := x.extractLsb' 0 8 ++ x.extractLsb' 8 8

/-- Reverse the four bytes of a field, on a little-endian host. -/
def htonl (x : BitVec 32) : BitVec 32 :=
  x.extractLsb' 0 8 ++ x.extractLsb' 8 8 ++ x.extractLsb' 16 8 ++ x.extractLsb' 24 8

structure RtpHeader where
  csrcLen : BitVec 4
  extension : BitVec 1
  padding : BitVec 1
  version : BitVec 2
  payloadType : BitVec 7
  marker : BitVec 1
  seqNo : BitVec 16
  timestamp : BitVec 32
  ssrc : BitVec 32

/-- The twelve bytes of the header in memory. -/
def RtpHeader.toBytes (h : RtpHeader) : List Byte :=
  [h.version ++ h.padding ++ h.extension ++ h.csrcLen, h.marker ++ h.payloadType,
    h.seqNo.extractLsb' 0 8, h.seqNo.extractLsb' 8 8,
    h.timestamp.extractLsb' 0 8, h.timestamp.extractLsb' 8 8,
    h.timestamp.extractLsb' 16 8, h.timestamp.extractLsb' 24 8,
    h.ssrc.extractLsb' 0 8, h.ssrc.extractLsb' 8 8,
    h.ssrc.extractLsb' 16 8, h.ssrc.extractLsb' 24 8]

@[simp] theorem RtpHeader.length_toBytes (h : RtpHeader) : h.toBytes.length = 12 := rfl

@[ext] structure NaluHeader where
  type : BitVec 5
  nri : BitVec 2
  f : BitVec 1
  deriving DecidableEq

/-- The FU indicator has the layout of a NAL header. -/
abbrev FuIndicator := NaluHeader

@[ext] structure FuHeader where
  type : BitVec 5
  r : BitVec 1
  e : BitVec 1
  s : BitVec 1
  deriving DecidableEq

namespace NaluHeader

def toByte (h : NaluHeader) : Byte := h.f ++ h.nri ++ h.type

/-- The record laid over a byte. -/
def view (b : Byte) : NaluHeader where
  type := b.extractLsb' 0 5
  nri := b.extractLsb' 5 2
  f := b.extractLsb' 7 1

/-- The fields as the sender computes them from the first byte of the NAL. -/
def ofNalu (b : Byte) : NaluHeader where
  f := ((b &&& 0x80) >>> 7).setWidth 1
  nri := ((b &&& 0x60) >>> 5).setWidth 2
  type := (b &&& 0x1f).setWidth 5

@[simp] theorem view_toByte (h : NaluHeader) : view h.toByte = h := by
  obtain ⟨type, nri, f⟩ := h
  revert type nri f
  decide

theorem ofNalu_eq_view (b : Byte) : ofNalu b = view b := by
  revert b
  decide

@[simp] theorem toByte_view (b : Byte) : (view b).toByte = b := by
  revert b
  decide

@[simp] theorem toByte_ofNalu (b : Byte) : (ofNalu b).toByte = b := by
  rw [ofNalu_eq_view, toByte_view]

end NaluHeader

namespace FuHeader

def toByte (h : FuHeader) : Byte := h.s ++ h.e ++ h.r ++ h.type

/-- The record laid over a byte. -/
def view (b : Byte) : FuHeader where
  type := b.extractLsb' 0 5
  r := b.extractLsb' 5 1
  e := b.extractLsb' 6 1
  s := b.extractLsb' 7 1

@[simp] theorem view_toByte (h : FuHeader) : view h.toByte = h := by
  obtain ⟨type, r, e, s⟩ := h
  revert type r e s
  decide

end FuHeader

/-- The NAL header as the receiver puts it together from two records. -/
def h264NalHeader (type : BitVec 5) (nri : BitVec 2) (f : BitVec 1) : Byte :=
  (type.setWidth 8 &&& 0x1f) ||| (nri.setWidth 8 <<< 5) ||| (f.setWidth 8 <<< 7)

@[simp] theorem h264NalHeader_view (b : Byte) :
    h264NalHeader (NaluHeader.view b).type (NaluHeader.view b).nri (NaluHeader.view b).f = b := by
  revert b
  decide

end H264Cast
