import H264Cast.Client.Udp
import H264Cast.Rtp.RoundTrip

/-! # The UDP client end to end

The loop hands over ranges that begin with their start code, and the packetizer takes
its first byte for a NAL header. The receiver writes another start code in front, so
the output of a pass never is the file, unless the file is empty.
-/

namespace H264Cast

open Packetizer Depacketizer

/-- The type carried in a packet: that of the single NAL, or that of the FU header. -/
def carriedType (packet : List Byte) : BitVec 5 :=
  let type := (NaluHeader.view (packet.getD 12 0)).type
  if type = 28 then (FuHeader.view (packet.getD 13 0)).type else type

/-- The packets give back the units, and they come in groups, one for each NAL, that carry
its type. -/
def Faithful (nals : List Nal) (recvBuffer : Memory Byte) (packets : List (List Byte)) : Prop :=
  (receiveAll ⟨recvBuffer, []⟩ packets).saved = stream nals ∧
    ∃ groups : List (List (List Byte)), groups.flatten = packets ∧
      List.Forall₂ (fun v group => group ≠ [] ∧ ∀ p ∈ group, carriedType p = v.unitType) nals groups

namespace UdpSender

variable {s : ℤ} {file : List Byte} {ok : Client UdpSender → Prop} {c : Client UdpSender}
  {nals : List Nal} {recvBuffer : Memory Byte} {d d' : List (List Byte)}

/-- The first range handed over began with a start code. -/
def SentStartCode (o : UdpSender) : Prop :=
  ∃ framerate ts seq p len rest, StartCodeAt p 0 ∧ 4 ≤ len ∧
    o.rtp.sent = packetsOf framerate ts seq p len ++ rest

theorem sentStartCode_keeps : Client.Keeps (transport s) SentStartCode := by
  have hkeep {framerate p len o o'} (ho : SentStartCode o)
      (h : send framerate p len o = some o') : SentStartCode o' := by
    obtain ⟨f, ts, seq, q, k, rest, hs, hk, hsent⟩ := ho
    obtain ⟨rtp, hrtp, -, rfl⟩ := send_cases h
    obtain ⟨-, -, -, -, hsent'⟩ := h264nal2rtpSend_spec hrtp
    exact ⟨f, ts, seq, q, k, _, hs, hk, by rw [hsent', hsent, List.append_assoc]⟩
  exact ⟨fun _ _ _ _ => hkeep, fun _ _ _ _ => hkeep⟩

theorem sentStartCode_of_send {framerate : ℤ} {p : Memory Byte} {len : ℕ} {o o' : UdpSender}
    (ho : o.rtp.sent = []) (hs : StartCodeAt p 0) (hlen : 4 ≤ len)
    (h : send framerate p len o = some o') : SentStartCode o' := by
  obtain ⟨rtp, hrtp, -, rfl⟩ := send_cases h
  obtain ⟨-, -, -, -, hsent⟩ := h264nal2rtpSend_spec hrtp
  exact ⟨framerate, _, _, p, len, [], hs, hlen, by rw [hsent, ho, List.append_nil, List.nil_append]⟩

theorem saved_isPrefix (r : Depacketizer) : r.saved <+: (r.receiveAll d).saved := by
  induction d generalizing r with
  | nil => exact List.prefix_rfl
  | cons x d ih => exact List.IsPrefix.trans (List.prefix_append _ _) (ih (r.receive x))

/-- What is received after such a range begins with two start codes. -/
theorem SentStartCode.isPrefix {o : UdpSender} (h : SentStartCode o) :
    startCode ++ startCode <+: (receiveAll ⟨recvBuffer, []⟩ o.rtp.sent).saved := by
  obtain ⟨framerate, ts, seq, p, len, rest, hs, hlen, hsent⟩ := h
  have htype : nalType (p 0) ≠ 28 := by
    rw [hs.1]
    decide
  have hbytes : p.read 0 4 = startCode := startCodeAt_iff_read.mp hs
  rw [hsent, receiveAll_append]
  refine List.IsPrefix.trans ?_ (saved_isPrefix _)
  rw [receiveAll_packetsOf _ (by omega) fun _ => htype, List.nil_append, ← hbytes,
    ← Memory.take_read p 0 hlen]
  exact (List.prefix_append_right_inj _).mpr (List.take_prefix _ _)

/-- In the first pass over a file that begins with a start code, nothing has been read yet or
the first range was sent. -/
theorem sentStartCode_of_reachable (hr : (client s file ok).Reachable c)
    (hfile : startCode <+: file) (hpass : c.passes = 0) :
    (c.nLast = 0 ∧ c.unread = file ∧ c.out = initial) ∨ SentStartCode c.out := by
  induction hr with
  | init h =>
    obtain ⟨buf, rfl⟩ := h
    exact Or.inl ⟨rfl, rfl, rfl⟩
  | @step c c' _ hstep ih =>
    cases hstep with
    | behind => exact ih hpass
    | reopen => simp at hpass
    | iterate _ _ hit =>
      right
      rcases ih ((Client.iterate_passes hit).symm.trans hpass) with ⟨hlast, hunread, hout⟩ | hsent
      · obtain ⟨bs, rfl⟩ := hfile
        have hread : c.received = startCode ++ bs.take (maxBuf - 4) := by
          rw [Client.received, hunread, hlast, List.take_append, List.take_of_length_le (by decide)]
          rfl
        have hempty : c.out.rtp.sent = [] := by rw [hout]; rfl
        have hfilled : 4 ≤ c.filled := by
          simp [Client.filled, hread, startCode]
          omega
        exact sentStartCode_keeps.iterate_first (Client.aligned_of_received hlast hread) hfilled
          (fun _ _ _ => sentStartCode_of_send hempty) (fun _ _ _ => sentStartCode_of_send hempty)
          hit
      · exact sentStartCode_keeps.iterate hsent hit

/-- A run over an empty file sends nothing. -/
theorem sent_of_reachable_nil (hr : (client s [] ok).Reachable c) : c.out = initial := by
  have hinv : c.unread = [] ∧ c.out = initial := by
    refine hr.invariant (P := fun c => c.unread = [] ∧ c.out = initial) ?_ ?_
    · rintro _ ⟨buf, rfl⟩
      exact ⟨rfl, rfl⟩
    · rintro c c' ⟨hunread, hout⟩ hstep
      cases hstep with
      | behind => exact ⟨hunread, hout⟩
      | reopen => exact ⟨rfl, hout⟩
      | iterate hread _ _ => simp [Client.received, hunread] at hread
  exact hinv.2

end UdpSender

/-- No units begin with two start codes. -/
theorem not_isPrefix_stream {nals : List Nal} : ¬ startCode ++ startCode <+: stream nals := by
  intro h
  cases nals with
  | nil => simp [startCode] at h
  | cons v vs =>
    have hpos := v.length_pos
    have hstored : Stored (Memory.write (fun _ => 0x00) 0 (stream (v :: vs))) 0 (v :: vs) :=
      Memory.read_write_self _ _ rfl
    obtain ⟨bs, hbs⟩ := h
    have hs : StartCodeAt (Memory.write (fun _ => 0x00) 0 (stream (v :: vs))) 4 := by
      rw [← hbs]
      simp [StartCodeAt, Memory.write, startCode]
    exact Nal.not_startCodeAt_unit (stored_cons.mp hstored).1 (by omega) (by simp; omega) hs

namespace UdpSender

theorem not_faithful (hr : (client s (stream nals) ok).Reachable c) (hn : nals ≠ [])
    (hpass : c.passes = 0) (hend : c.unread = []) :
    ¬ Faithful nals recvBuffer c.out.rtp.sent := by
  rintro ⟨hsaved, -⟩
  obtain ⟨v, vs, rfl⟩ := List.exists_cons_of_ne_nil hn
  have hfile : startCode <+: stream (v :: vs) := by
    simpa using v.startCode_isPrefix.trans (List.prefix_append _ _)
  rcases sentStartCode_of_reachable hr hfile hpass with ⟨-, hunread, -⟩ | hsent
  · rw [← hunread, hend] at hfile
    simp [startCode] at hfile
  · exact not_isPrefix_stream (hsaved ▸ hsent.isPrefix)

/-- The packets of the first pass, whatever it retains, give back the file exactly when the
file is empty. -/
theorem faithful_iff (hr : (client s (stream nals) fun _ => True).Reachable c)
    (hpass : c.passes = 0) (hend : c.unread = []) (recvBuffer : Memory Byte) :
    Faithful nals recvBuffer c.out.rtp.sent ↔ nals = [] := by
  constructor
  · exact fun h => by_contra fun hn => not_faithful hr hn hpass hend h
  · rintro rfl
    rw [sent_of_reachable_nil hr]
    exact ⟨rfl, [], rfl, .nil⟩

theorem faithful_iff_shortUnit :
    ∃ c, (client 3 (stream [Nal.slice]) fun _ => True).Reachable c ∧
      (Faithful [Nal.slice] (fun _ => 0x00) c.out.rtp.sent ↔ [Nal.slice] = []) := by
  obtain ⟨c, hr, hpass, hend, -, -⟩ := reachable_shortUnit (fun _ => True) trivial
  exact ⟨c, hr, faithful_iff hr hpass hend _⟩

/-- The receiver does not write the short unit back. -/
theorem not_faithful_shortUnit :
    Nal.slice.unit.length ≤ maxBuf - 4 ∧ Nal.slice.unitType ≠ 28 ∧
      ∃ c, (client 3 (stream [Nal.slice]) fun _ => True).Reachable c ∧ c.passes = 0 ∧
        c.unread = [] ∧ c.nLast = 0 ∧ ¬ Faithful [Nal.slice] (fun _ => 0x00) c.out.rtp.sent := by
  obtain ⟨c, hr, hpass, hend, hlast, -⟩ := reachable_shortUnit (fun _ => True) trivial
  exact ⟨by decide, by decide, c, hr, hpass, hend, hlast, not_faithful hr (by simp) hpass hend⟩

end UdpSender

end H264Cast
