import H264Cast.AnnexB.Units
import H264Cast.Rtp.Loss
import Mathlib.Tactic.TFAE

/-! # Packets in another order

The receive loop looks at no sequence number. Packets that are whole NALs may come in any order
and any number of times, and the file is made of NALs all the same. A NAL that is sent in
fragments is safe only from a network that keeps the order: when its last fragment comes first,
the file begins with something that is not a NAL.
-/

namespace H264Cast

open Packetizer Depacketizer

/-- The bytes are NALs of these calls, each behind its start code. -/
def WholeNals (calls : List Call) (bs : List Byte) : Prop :=
  ∃ as : List Call, as ⊆ calls ∧ bs = as.flatMap Call.written

variable {calls as : List Call} {a : Call} {c c' : Packetizer} {packet bs rest : List Byte}
  {ts : BitVec 32} {seq : BitVec 16} {delivered : List (List Byte)}

/-- What a NAL ends with does not begin with a start code, whatever comes behind it. -/
theorem Nal.not_startCode_isPrefix {v : Nal} (hbs : bs <:+ v.bytes) (hne : bs ≠ []) :
    ¬ startCode <+: bs ++ rest := by
  rintro ⟨tail, htail⟩
  obtain ⟨front, hfront⟩ := hbs
  let m : Memory Byte := Memory.write (fun _ => 0x00) 0 (v.bytes ++ rest)
  have hread : m.read 0 (v.bytes.length + rest.length) = v.bytes ++ rest :=
    Memory.read_write_self _ _ (List.length_append ..)
  have hbytes : m.read 0 v.bytes.length = v.bytes := by
    rw [← Memory.take_read m 0 (Nat.le_add_right _ rest.length), hread, List.take_left]
  have hcode : StartCodeAt m front.length := by
    have hsplit : v.bytes ++ rest = front ++ startCode ++ tail := by
      rw [← hfront, List.append_assoc, List.append_assoc, htail]
    have hlen := congrArg List.length hsplit
    have hfour : front.length + 4 ≤ v.bytes.length + rest.length := by
      simp only [List.length_append, startCode, List.length_cons, List.length_nil] at hlen
      omega
    have hstart := Memory.take_read m 0 hfour
    rw [hread, hsplit, List.take_left' (by rw [List.length_append]; rfl), Memory.read_add,
      Nat.zero_add] at hstart
    rw [startCodeAt_iff_read]
    exact (List.append_inj' hstart.symm Memory.length_read).2
  have hlt : front.length < 0 + v.bytes.length := by
    have hpos := List.length_pos_iff.mpr hne
    rw [← hfront, List.length_append]
    omega
  exact v.not_startCodeAt_bytes hbytes (Nat.zero_le _) hlt hcode

/-! ### The packets of a run -/

/-- Every packet of a run is one of a call. -/
theorem exists_call (h : packet ∈ (transmissions calls ts seq).flatten) :
    ∃ a ∈ calls, ∃ ts' seq', packet ∈ packetsOf a.framerate ts' seq' a.pstStream a.naluLen := by
  induction calls generalizing ts seq with
  | nil => exact absurd h List.not_mem_nil
  | cons a calls ih =>
    rw [transmissions, List.flatten_cons, List.mem_append] at h
    rcases h with h | h
    · exact ⟨a, List.mem_cons_self, _, _, h⟩
    · obtain ⟨b, hb, hpacket⟩ := ih h
      exact ⟨b, List.mem_cons_of_mem _ hb, hpacket⟩

/-- Every call sends its packets. -/
theorem exists_packets (ha : a ∈ calls) (ts : BitVec 32) (seq : BitVec 16) :
    ∃ ts' seq', packetsOf a.framerate ts' seq' a.pstStream a.naluLen ⊆
      (transmissions calls ts seq).flatten := by
  induction calls generalizing ts seq with
  | nil => exact absurd ha List.not_mem_nil
  | cons b calls ih =>
    rw [transmissions, List.flatten_cons]
    rcases List.mem_cons.mp ha with rfl | ha
    · exact ⟨_, _, List.subset_append_left _ _⟩
    · obtain ⟨ts', seq', hsub⟩ := ih ha _ _
      exact ⟨ts', seq', List.Subset.trans hsub (List.subset_append_right _ _)⟩

/-- A NAL that fits one packet is what the packet carries. -/
theorem payloadOf_of_le (ha : a.Plain) (hpos : 1 ≤ a.naluLen)
    (hle : a.naluLen ≤ rtpPayloadMaxSize)
    (h : packet ∈ packetsOf a.framerate ts seq a.pstStream a.naluLen) :
    payloadOf packet = a.written := by
  have hone : packetCount a.naluLen = 1 := by
    rw [packetCount, if_neg (Nat.not_lt.mpr hpos), if_pos hle]
  have hcarried := flatMap_payloadOf ha a.framerate ts seq
  rw [packetsOf, hone] at h hcarried
  obtain rfl := List.mem_singleton.mp h
  rw [← hcarried]
  exact (List.append_nil _).symm

/-- The last fragment of a NAL carries the end of it and no start code. -/
theorem exists_last_fragment (hlt : rtpPayloadMaxSize < a.naluLen) (ts : BitVec 32)
    (seq : BitVec 16) :
    ∃ packet ∈ packetsOf a.framerate ts seq a.pstStream a.naluLen,
      payloadOf packet ≠ [] ∧ payloadOf packet <:+ a.nalu := by
  obtain ⟨htwo, hstart, hstop⟩ := fuPackNum_bounds hlt
  have hcount : packetCount a.naluLen = fuPackNum a.naluLen := by
    rw [packetCount, if_neg (by omega), if_neg (Nat.not_le.mpr hlt)]
  obtain ⟨i, hi⟩ := Nat.exists_eq_add_of_le' htwo
  rw [hi] at hstart hstop
  have hne : i + 1 ≠ 0 := Nat.succ_ne_zero i
  refine ⟨_, List.mem_map_of_mem (List.mem_range.mpr (?_ : i + 1 < packetCount a.naluLen)), ?_⟩
  · omega
  · have hpayload : payloadOf (packetOf (nextTs a.framerate ts) seq a.pstStream a.naluLen
        (i + 1)) = a.pstStream.read (rtpPayloadMaxSize * (i + 1))
          (a.naluLen - rtpPayloadMaxSize * (i + 1)) := by
      rw [packetOf, if_neg (Nat.not_le.mpr hlt), payloadOf_fuPayload, fragmentPayload, if_neg]
      · rw [fragmentStart, if_neg hne, fragmentStop, Nat.min_eq_right hstop]
      · rintro ⟨-, hs⟩
        simp [fuHeader, flag] at hs
    have hlast : rtpPayloadMaxSize * (i + 1) < a.naluLen := by
      simpa using hstart
    rw [hpayload]
    refine ⟨List.length_pos_iff.mp (by rw [Memory.length_read]; omega), ?_⟩
    have hsplit := Memory.read_add a.pstStream 0 (rtpPayloadMaxSize * (i + 1))
      (a.naluLen - rtpPayloadMaxSize * (i + 1))
    rw [Nat.add_sub_cancel' (Nat.le_of_lt hlast), Nat.zero_add] at hsplit
    rw [Call.nalu, hsplit]
    exact List.suffix_append _ _

/-! ### What the receiver writes -/

theorem one_le_naluLen (ha : ∃ v : Nal, v.bytes = a.nalu) : 1 ≤ a.naluLen := by
  obtain ⟨v, hv⟩ := ha
  have hpos := v.length_pos
  rw [hv, Call.nalu, Memory.length_read] at hpos
  exact hpos

/-- Whole NALs begin with a start code. -/
theorem WholeNals.startCode_isPrefix (hpos : ∀ a ∈ calls, 1 ≤ a.naluLen)
    (h : WholeNals calls bs) (hne : bs ≠ []) : startCode <+: bs := by
  obtain ⟨as, hsub, rfl⟩ := h
  cases as with
  | nil => exact absurd rfl hne
  | cons a as =>
    have ha := hpos a (hsub List.mem_cons_self)
    rw [List.flatMap_cons, Call.written, if_neg (Nat.not_lt.mpr ha), List.append_assoc]
    exact List.prefix_append _ _

/-- What is written for packets of a run, in whatever order they come. -/
theorem saved_of_subset (hplain : ∀ a ∈ calls, a.Plain)
    (hsub : delivered ⊆ (transmissions calls ts seq).flatten) (d : Depacketizer) :
    (d.receiveAll delivered).saved = d.saved ++ delivered.flatMap payloadOf := by
  refine receive_memoryless.output_foldl (fun p hp => ?_) d
  obtain ⟨a, ha, _, _, hpacket⟩ := exists_call (hsub hp)
  exact (mem_packetsOf (hplain a ha) hpacket).1

/-- Packets that are whole NALs make a file of NALs. -/
theorem wholeNals_of_le (hplain : ∀ a ∈ calls, a.Plain) (hpos : ∀ a ∈ calls, 1 ≤ a.naluLen)
    (hle : ∀ a ∈ calls, a.naluLen ≤ rtpPayloadMaxSize)
    (hsub : delivered ⊆ (transmissions calls ts seq).flatten) :
    WholeNals calls (delivered.flatMap payloadOf) := by
  induction delivered with
  | nil => exact ⟨[], List.nil_subset _, rfl⟩
  | cons p delivered ih =>
    obtain ⟨hp, hsub⟩ := List.cons_subset.mp hsub
    obtain ⟨as, has, heq⟩ := ih hsub
    obtain ⟨a, ha, _, _, hpacket⟩ := exists_call hp
    refine ⟨a :: as, List.cons_subset.mpr ⟨ha, has⟩, ?_⟩
    rw [List.flatMap_cons, List.flatMap_cons, heq,
      payloadOf_of_le (hplain a ha) (hpos a ha) (hle a ha) hpacket]

/-- A NAL that is cut into fragments can arrive with its end in front. -/
theorem exists_perm_not_wholeNals (hnal : ∀ a ∈ calls, ∃ v : Nal, v.bytes = a.nalu)
    (ha : a ∈ calls) (hlt : rtpPayloadMaxSize < a.naluLen) (ts : BitVec 32) (seq : BitVec 16) :
    ∃ delivered : List (List Byte), delivered.Perm (transmissions calls ts seq).flatten ∧
      ¬ WholeNals calls (delivered.flatMap payloadOf) := by
  obtain ⟨ts', seq', hsub⟩ := exists_packets ha ts seq
  obtain ⟨packet, hpacket, hne, hsuffix⟩ := exists_last_fragment hlt ts' seq'
  obtain ⟨front, back, hsent⟩ := List.append_of_mem (hsub hpacket)
  refine ⟨packet :: (front ++ back), hsent ▸ List.perm_middle.symm, fun hwhole => ?_⟩
  obtain ⟨v, hv⟩ := hnal a ha
  have hcode := hwhole.startCode_isPrefix (fun b hb => one_le_naluLen (hnal b hb)) (by simp [hne])
  exact Nal.not_startCode_isPrefix (hv ▸ hsuffix) hne hcode

/-- A network that reorders and repeats packets leaves whole NALs exactly when no NAL is cut
into fragments. Packets may then be lost as well, and when a NAL is cut it is enough that they
come in another order. -/
theorem wholeNals_tfae (hplain : ∀ a ∈ calls, a.Plain)
    (hnal : ∀ a ∈ calls, ∃ v : Nal, v.bytes = a.nalu) (h : runCalls calls c = some c')
    (hc : c.sent = []) (d : Depacketizer) :
    [∀ delivered : List (List Byte), delivered ⊆ c'.sent →
        ∃ bs, (d.receiveAll delivered).saved = d.saved ++ bs ∧ WholeNals calls bs,
      ∀ delivered : List (List Byte), delivered.Perm c'.sent →
        ∃ bs, (d.receiveAll delivered).saved = d.saved ++ bs ∧ WholeNals calls bs,
      ∀ a ∈ calls, a.naluLen ≤ rtpPayloadMaxSize].TFAE := by
  have hsent : c'.sent = (transmissions calls c.tsCurrent c.seqNum).flatten := by
    rw [sent_runCalls h, hc, List.nil_append]
  rw [hsent]
  tfae_have 1 → 2 := fun hall delivered hperm => hall delivered hperm.subset
  tfae_have 2 → 3 := by
    intro hall a ha
    by_contra hlt
    obtain ⟨delivered, hperm, hnot⟩ :=
      exists_perm_not_wholeNals hnal ha (Nat.not_le.mp hlt) c.tsCurrent c.seqNum
    obtain ⟨bs, hbs, hwhole⟩ := hall delivered hperm
    rw [saved_of_subset hplain hperm.subset] at hbs
    exact hnot (List.append_cancel_left hbs ▸ hwhole)
  tfae_have 3 → 1 := fun hle delivered hsub =>
    ⟨_, saved_of_subset hplain hsub d,
      wholeNals_of_le hplain (fun a ha => one_le_naluLen (hnal a ha)) hle hsub⟩
  tfae_finish

/-- A slice and a parameter set, each of one byte. -/
def twoBytes : List Call := [⟨25, fun _ => 0x65, 1⟩, ⟨25, fun _ => 0x67, 1⟩]

/-- The two come in any order. -/
theorem wholeNals_tfae_two : ∃ c, runCalls twoBytes ⟨0, 0, fun _ => 0, []⟩ = some c ∧
    [∀ delivered : List (List Byte), delivered ⊆ c.sent →
        ∃ bs, (receiveAll ⟨fun _ => 0, []⟩ delivered).saved = [] ++ bs ∧ WholeNals twoBytes bs,
      ∀ delivered : List (List Byte), delivered.Perm c.sent →
        ∃ bs, (receiveAll ⟨fun _ => 0, []⟩ delivered).saved = [] ++ bs ∧ WholeNals twoBytes bs,
      ∀ a ∈ twoBytes, a.naluLen ≤ rtpPayloadMaxSize].TFAE := by
  have hnal : ∀ a ∈ twoBytes, ∃ v : Nal, v.bytes = a.nalu := by
    simp only [twoBytes, List.forall_mem_cons]
    exact ⟨⟨Nal.slice, rfl⟩, ⟨Nal.sps, rfl⟩, fun _ h => absurd h List.not_mem_nil⟩
  exact ⟨_, rfl, wholeNals_tfae (c := ⟨0, 0, fun _ => 0, []⟩) (by decide) hnal rfl rfl _⟩

end H264Cast
