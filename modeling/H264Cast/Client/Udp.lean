import H264Cast.Client.Conservation
import H264Cast.Rtp.Packetizer

/-! # The UDP client

Here a range is sent by handing it to the packetizer. The inner loop passes the socket
in the place of the frame rate and the tail passes 25. No byte is lost as long as every
read leaves a start code at the front of the buffer; a unit that fills the buffer is
sent at once, and the rest of it is then dropped.
-/

namespace H264Cast

/-- The packetizer, and the ranges handed to it. -/
structure UdpSender where
  handed : List (List Byte)
  rtp : Packetizer

namespace UdpSender

/-- Hand a range to the packetizer. A negative result leaves the program. -/
def send (framerate : ℤ) (p : Memory Byte) (len : ℕ) (o : UdpSender) : Option UdpSender :=
  match Packetizer.h264nal2rtpSend framerate p len o.rtp with
  | none => none
  | some (ret, rtp) => if ret < 0 then none else some ⟨o.handed ++ [p.read 0 len], rtp⟩

/-- The zeroed static variables. -/
def initial : UdpSender := ⟨[], ⟨0, 0, fun _ => 0x00, []⟩⟩

/-- The two calls of the packetizer. -/
def transport (s : ℤ) : Transport UdpSender where
  inner := send s
  tail := send 25

/-- The program on a socket and a file. -/
def client (s : ℤ) (file : List Byte) (ok : Client UdpSender → Prop) :
    TransitionSystem (Client UdpSender) :=
  Client.system (transport s) file initial ok

variable {framerate s : ℤ} {p : Memory Byte} {len : ℕ} {o o' : UdpSender} {file : List Byte}
  {c : Client UdpSender}

/-- What handing over a range does. -/
theorem send_cases (h : send framerate p len o = some o') :
    ∃ rtp, Packetizer.h264nal2rtpSend framerate p len o.rtp = some (0, rtp) ∧ 1 ≤ len ∧
      o' = ⟨o.handed ++ [p.read 0 len], rtp⟩ := by
  unfold send at h
  split at h
  · simp at h
  · rename_i ret rtp hrtp
    obtain ⟨-, hret, -⟩ := Packetizer.h264nal2rtpSend_spec hrtp
    by_cases hlen : len < 1
    · rw [hret, if_pos hlen, if_pos (by decide)] at h
      simp at h
    · rw [if_neg hlen] at hret
      subst hret
      exact ⟨rtp, hrtp, Nat.not_lt.mp hlen, (Option.some.inj h).symm⟩

theorem send_isSome (hf : framerate ≠ 0) (hlen : 1 ≤ len) (o : UdpSender) :
    ∃ rtp, send framerate p len o = some ⟨o.handed ++ [p.read 0 len], rtp⟩ := by
  obtain ⟨ret, rtp, hrtp⟩ := Packetizer.h264nal2rtpSend_isSome hf p len o.rtp
  obtain ⟨-, hret, -⟩ := Packetizer.h264nal2rtpSend_spec hrtp
  rw [if_neg (by omega)] at hret
  subst hret
  exact ⟨rtp, by simp [send, hrtp]⟩

/-- The ranges handed over are recorded. -/
theorem transport_records : Client.Records (transport s) handed where
  inner _ _ _ _ h := by
    obtain ⟨rtp, -, -, rfl⟩ := send_cases h
    rfl
  tail _ _ _ _ h := by
    obtain ⟨rtp, -, -, rfl⟩ := send_cases h
    rfl

/-- In every run whose iterations all find a start code at the front of the buffer, the
ranges handed to the packetizer and the retained bytes are the bytes read. -/
theorem conserved_of_aligned (h : (client s file Client.Aligned).Reachable c) :
    Client.Conserved handed c :=
  Client.conserved_of_reachable transport_records rfl h

/-- A read of one unit without zero bytes is handed over whole. -/
theorem step_of_plain (s : ℤ) (file : List Byte) (ok : Client UdpSender → Prop) {bs : List Byte}
    (hok : ok c) (hlast : c.nLast = 0) (hread : c.received = startCode ++ bs)
    (hbs : ∀ b ∈ bs, b ≠ 0x00) (hbuf : ∀ i, c.buf i ≠ 0x00) :
    ∃ rtp, (client s file ok).step c { c.fread with
      nLast := 0, out := ⟨c.out.handed ++ [c.fread.buf.read 0 c.filled], rtp⟩ } := by
  have hne : c.received ≠ [] := by simp [hread, startCode]
  have hlen : 1 ≤ c.filled := Nat.add_pos_left (List.length_pos_iff.mpr hne) _
  obtain ⟨rtp, hrtp⟩ := send_isSome (p := c.fread.buf.shift 0) (show (25 : ℤ) ≠ 0 by decide) hlen
    c.out
  refine ⟨rtp, Client.Step.iterate hne hok ?_⟩
  rw [Client.iterate_of_plain hlast hread hbs hbuf]
  simp [transport, hrtp]

/-- A slice of one byte behind its start code. -/
def shortUnit : List Byte := [0x00, 0x00, 0x00, 0x01, 0x65]

/-- The first pass over a short file hands it over in one piece. -/
theorem reachable_shortUnit (ok : Client UdpSender → Prop)
    (hok : ok (Client.start (fun _ => 0x11) shortUnit initial)) :
    ∃ c, (client 3 shortUnit ok).Reachable c ∧ c.passes = 0 ∧ c.unread = [] ∧ c.nLast = 0 ∧
      c.consumed = shortUnit := by
  have hread : (Client.start (fun _ => 0x11) shortUnit initial).received =
      startCode ++ [0x65] := rfl
  obtain ⟨rtp, hstep⟩ := step_of_plain 3 shortUnit ok hok rfl hread (by decide) fun _ =>
    (by decide : (0x11 : Byte) ≠ 0x00)
  exact ⟨_, .step (.init ⟨_, rfl⟩) hstep, rfl, rfl, rfl, rfl⟩

/-- Two units of one byte. -/
def twoUnits : List Byte := shortUnit ++ shortUnit

/-- Before the first read of them. -/
def twoStart : Client UdpSender := Client.start (fun _ => 0x11) twoUnits initial

theorem find_twoUnits :
    findNalStartCode twoStart.fread.buf 0 maxBuf = some 0 ∧
      findNalStartCode twoStart.fread.buf (0 + 4) twoStart.filled = some 5 ∧
      findNalStartCode twoStart.fread.buf (5 + 4) (twoStart.filled - (5 - 0)) = none := by
  have hfilled : twoStart.filled = 10 := rfl
  rw [hfilled]
  refine ⟨findNalStartCode_self (by decide) (by decide),
    findNalStartCode_of_lt (by decide) (by decide) (by decide) (by decide),
    findNalStartCode_eq_none.mpr fun q hle hq => ?_⟩
  obtain rfl : q = 9 := by omega
  decide

/-- The first pass hands over the first unit in the inner loop, and the second one behind it. -/
theorem reachable_twoUnits (s : ℤ) (ok : Client UdpSender → Prop) (hs : s ≠ 0)
    (hok : ok twoStart) :
    ∃ c, (client s twoUnits ok).Reachable c ∧ c.passes = 0 ∧ c.consumed = twoUnits ∧
      c.out.handed = [shortUnit, shortUnit] := by
  obtain ⟨hfirst, hnext, hlast⟩ := find_twoUnits
  obtain ⟨rtp, hinner⟩ := send_isSome (p := twoStart.fread.buf.shift 0) hs
    (show 1 ≤ 5 - 0 by decide) twoStart.out
  obtain ⟨rtp', htail⟩ := send_isSome (p := twoStart.fread.buf.shift 5)
    (show (25 : ℤ) ≠ 0 by decide) (show 1 ≤ twoStart.filled - (5 - 0) by decide)
    ⟨twoStart.out.handed ++ [(twoStart.fread.buf.shift 0).read 0 (5 - 0)], rtp⟩
  have hit := Client.iterate_of_pair (T := transport s) hfirst hnext hlast hinner (by decide)
  simp only [transport, htail, Option.map_some] at hit
  exact ⟨_, .step (.init ⟨_, rfl⟩) (.iterate (List.cons_ne_nil _ _) hok hit), rfl, rfl, rfl⟩

theorem conserved_of_aligned_twoUnits :
    ∃ c, (client 3 twoUnits Client.Aligned).Reachable c ∧ c.consumed = twoUnits ∧
      c.out.handed = [shortUnit, shortUnit] ∧ Client.Conserved handed c := by
  obtain ⟨c, hr, -, hcons, hhanded⟩ :=
    reachable_twoUnits 3 Client.Aligned (by decide) (by decide)
  exact ⟨c, hr, hcons, hhanded, conserved_of_aligned hr⟩

/-- A unit one byte longer than the buffer. -/
def longUnit : List Byte := startCode ++ List.replicate (maxBuf - 4) 0x11 ++ [0x22]

theorem take_longUnit : longUnit.take maxBuf = startCode ++ List.replicate (maxBuf - 4) 0x11 :=
  List.take_left' (by rw [List.length_append, List.length_replicate]; rfl)

theorem drop_longUnit : longUnit.drop maxBuf = [0x22] :=
  List.drop_left' (by rw [List.length_append, List.length_replicate]; rfl)

/-- The first read fills the buffer, and everything is handed over. -/
theorem reachable_longUnit :
    ∃ c, (client 3 longUnit fun _ => True).Reachable c ∧ c.nLast = 0 ∧ c.unread = [0x22] ∧
      StartCodeAt c.buf 0 ∧ ∀ q, 4 ≤ q → ¬ StartCodeAt c.buf q := by
  have hread : (Client.start (fun _ => 0x11) longUnit initial).received =
      startCode ++ List.replicate (maxBuf - 4) 0x11 :=
    Client.received_start.trans take_longUnit
  have hne : ∀ b ∈ List.replicate (maxBuf - 4) (0x11 : Byte), b ≠ 0x00 := fun b hb => by
    rw [List.eq_of_mem_replicate hb]
    decide
  have hbuf : ∀ i, (Client.start (fun _ => 0x11) longUnit initial).buf i ≠ 0x00 := fun _ =>
    (by decide : (0x11 : Byte) ≠ 0x00)
  obtain ⟨rtp, hstep⟩ := step_of_plain 3 longUnit (fun _ => True) trivial rfl hread hne hbuf
  refine ⟨_, .step (.init ⟨_, rfl⟩) hstep, rfl, ?_, Client.aligned_of_received rfl hread,
    Client.not_startCodeAt_fread rfl hread hne hbuf⟩
  rw [Client.unread_fread_start, drop_longUnit]

/-- The second read puts the last byte over the start code, and nothing is handed over. -/
theorem not_conserved_longUnit :
    startCode <+: longUnit ∧
      ¬ ∀ c, (client 3 longUnit fun _ => True).Reachable c → Client.Conserved handed c := by
  refine ⟨⟨_, (List.append_assoc _ _ _).symm⟩, fun hall => ?_⟩
  obtain ⟨c, hr, hlast, hunread, hs, hnext⟩ := reachable_longUnit
  have hread : c.received = [0x22] := by
    rw [Client.received, hunread]
    exact List.take_of_length_le (by rw [hlast]; decide)
  have hnone : findNalStartCode c.fread.buf 0 maxBuf = none := by
    refine findNalStartCode_eq_none.mpr fun q _ _ => ?_
    rw [Client.fread, hread, hlast]
    exact hs.not_startCodeAt_write hnext (by decide)
  have hne : c.received ≠ [] := by simp [hread]
  exact (hall c hr).not_fread hne
    (hall _ (hr.step (.iterate hne trivial (Client.iterate_of_none hnone))))

end UdpSender

end H264Cast
