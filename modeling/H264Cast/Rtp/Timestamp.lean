import H264Cast.Rtp.Sequence
import Mathlib.Data.List.Chain

/-! # Timestamps

The clock of the packetizer is advanced once a call, by 90000 over the frame rate of the
call, and every packet of the call carries it.
-/

namespace H264Cast

open Packetizer

/-- The timestamp of a packet, read in network order. -/
def timestamp (packet : List Byte) : BitVec 32 :=
  packet.getD 4 0 ++ packet.getD 5 0 ++ packet.getD 6 0 ++ packet.getD 7 0

/-- The ticks between two NALs at 25 frames a second. -/
def frameTicks : BitVec 32 := BitVec.ofNat 32 (90000 / 25)

/-- The NALs that were sent and their timestamps: every packet of a NAL carries its own. -/
structure Stamped (nals : List (List Byte)) (ts : List (BitVec 32)) (packets : List (List Byte)) :
    Prop where
  length_eq : ts.length = nals.length
  map_timestamp : packets.map timestamp =
    (List.zipWith (fun t nal => List.replicate (packetCount nal.length) t) ts nals).flatten

/-- The timestamps of consecutive NALs differ by the ticks of one frame. -/
def Uniform (nals packets : List (List Byte)) : Prop :=
  ∃ ts, Stamped nals ts packets ∧ ts.IsChain fun t t' => t' = t + frameTicks

variable {framerate : ℤ} {nals packets packets' : List (List Byte)} {ts ts' : List (BitVec 32)}
  {nal : List Byte} {t : BitVec 32} {n : ℕ}

theorem htonl_bytes (x : BitVec 32) :
    (htonl x).extractLsb' 0 8 ++ (htonl x).extractLsb' 8 8 ++ (htonl x).extractLsb' 16 8 ++
      (htonl x).extractLsb' 24 8 = x := by
  apply BitVec.eq_of_getLsbD_eq
  intro i hi
  simp only [htonl, BitVec.getLsbD_append, BitVec.getLsbD_extractLsb']
  grind

theorem timestamp_header (h : RtpHeader) (x : BitVec 32) (body : List Byte)
    (hx : h.timestamp = htonl x) : timestamp (h.toBytes ++ body) = x := by
  rw [← htonl_bytes x, ← hx]
  rfl

theorem timestamp_packetOf (ts : BitVec 32) (seq : BitVec 16) (naluBuf : Memory Byte)
    (naluLen i : ℕ) : timestamp (packetOf ts seq naluBuf naluLen i) = ts := by
  unfold packetOf
  split_ifs <;> exact timestamp_header _ _ _ rfl

/-- All packets of a call carry the clock after it was advanced. -/
theorem map_timestamp_packetsOf (framerate : ℤ) (ts : BitVec 32) (seq : BitVec 16)
    (naluBuf : Memory Byte) (naluLen : ℕ) :
    (packetsOf framerate ts seq naluBuf naluLen).map timestamp =
      List.replicate (packetCount naluLen) (nextTs framerate ts) := by
  simp only [packetsOf, List.map_map, Function.comp_def, timestamp_packetOf, List.map_const',
    List.length_range]

theorem packetCount_pos (h : 1 ≤ n) : 0 < packetCount n := by
  unfold packetCount fuPackNum rtpPayloadMaxSize
  split_ifs <;> omega

theorem ofInt_tdiv_eq_iff (framerate : ℤ) :
    BitVec.ofInt 32 (Int.tdiv 90000 framerate) = frameTicks ↔ framerate = 25 := by
  have hbound : -90000 ≤ Int.tdiv 90000 framerate ∧ Int.tdiv 90000 framerate ≤ 90000 := by
    have h := Int.natAbs_tdiv_le_natAbs 90000 framerate
    omega
  constructor
  · intro h
    have hq : Int.tdiv 90000 framerate = 3600 := by
      have hint := congrArg BitVec.toInt h
      rw [BitVec.toInt_ofInt, Int.bmod_eq_of_le (by omega) (by omega)] at hint
      exact hint
    rcases Int.lt_or_le 0 framerate with hpos | hneg
    · rw [Int.tdiv_eq_ediv_of_nonneg (by decide)] at hq
      have hle := Int.ediv_mul_le 90000 (Int.ne_of_gt hpos)
      have hlt := Int.lt_ediv_add_one_mul_self 90000 hpos
      rw [hq] at hle hlt
      omega
    · have := Int.tdiv_nonpos_of_nonneg_of_nonpos (show (0 : ℤ) ≤ 90000 by decide) hneg
      omega
  · rintro rfl
    rfl

/-- The clock advances by the ticks of one frame at 25 frames a second only. -/
theorem nextTs_eq_iff (framerate : ℤ) (t : BitVec 32) :
    nextTs framerate t = t + frameTicks ↔ framerate = 25 := by
  rw [← ofInt_tdiv_eq_iff, nextTs]
  exact BitVec.add_right_inj t

/-- The packets of one more NAL. -/
theorem Stamped.append (h : Stamped nals ts packets)
    (hp : packets'.map timestamp = List.replicate (packetCount nal.length) t) :
    Stamped (nals ++ [nal]) (ts ++ [t]) (packets ++ packets') := by
  constructor
  · simp [h.length_eq]
  · rw [List.map_append, h.map_timestamp, hp, List.zipWith_append h.length_eq, List.flatten_append]
    simp

/-- The timestamps of NALs that are not empty can be read off their packets. -/
theorem Stamped.unique (h : Stamped nals ts packets) (h' : Stamped nals ts' packets)
    (hne : ∀ nal ∈ nals, nal ≠ []) : ts = ts' := by
  obtain ⟨hlen, hmap⟩ := h
  obtain ⟨hlen', hmap'⟩ := h'
  rw [hmap] at hmap'
  clear hmap
  induction nals generalizing ts ts' with
  | nil =>
    rw [List.length_eq_zero_iff.mp hlen, List.length_eq_zero_iff.mp hlen']
  | cons nal nals ih =>
    obtain ⟨t, ts, rfl⟩ := List.exists_cons_of_length_eq_add_one hlen
    obtain ⟨t', ts', rfl⟩ := List.exists_cons_of_length_eq_add_one hlen'
    have hpos := packetCount_pos (List.length_pos_iff.mpr (hne nal List.mem_cons_self))
    simp only [List.zipWith_cons_cons, List.flatten_cons] at hmap'
    obtain ⟨hhead, htail⟩ := List.append_inj hmap' (by simp)
    obtain rfl : t = t' := (List.replicate_inj.mp hhead).2.resolve_left (by omega)
    rw [ih (fun nal hnal => hne nal (List.mem_cons_of_mem _ hnal)) (by simpa using hlen)
      (by simpa using hlen') htail]

end H264Cast
