import H264Cast.Library.Transition
import H264Cast.Socket.TcpWrite

/-! # A TCP connection

A writer sends a buffer in packets and goes on after each call from where its result says. A
reader takes the bytes in calls of its own, at any time and in pieces of any size. What the
reader gets is always the beginning of what was taken from the writer, and that is the
beginning of the buffer as long as no call of the writer was given up inside a packet.
-/

namespace H264Cast.Connection

/-- A call of the writer: how many bytes it took for sent, and the outcomes. -/
structure WriteCall where
  start : ℕ
  errno : Errno
  outcomes : List TcpWrite.Outcome

/-- The writer's calls and the number of bytes it takes for sent, the bytes taken from it, and
the bytes the reader has got. -/
structure Session where
  calls : List WriteCall
  accounted : ℕ
  wire : List Byte
  got : List Byte

variable (fd fd' : ℤ) (src : Memory Byte) (size maxMtu : ℕ)

/-- A call of the writer for the rest of the buffer, or a call of the reader, whose stream is
what was taken and not read before. -/
inductive Session.Step : Session → Session → Prop
  | write {σ : Session} {errno : Errno} {outcomes : List TcpWrite.Outcome} {taken : List ℕ}
      {r : ℤ} :
      TcpWrite.commTcpWritePacket fd (size - σ.accounted : ℕ) maxMtu errno outcomes =
        (taken, some r) →
      Session.Step σ
        { σ with
          calls := σ.calls ++ [⟨σ.accounted, errno, outcomes⟩]
          accounted := σ.accounted + r.toNat
          wire := σ.wire ++ taken.map (src.shift σ.accounted) }
  | read {σ : Session} {n : ℕ} {buf stream : Memory Byte} {outcomes : List TcpRead.Outcome}
      {r : ℤ} {c : TcpRead.Conn} :
      stream.read 0 (σ.wire.length - σ.got.length) = σ.wire.drop σ.got.length →
      TcpRead.commTcpExRead fd' n ⟨buf, stream, outcomes⟩ = some (r, c) →
      r ≤ (σ.wire.length - σ.got.length : ℕ) →
      Session.Step σ { σ with got := σ.got ++ c.buf.read 0 r.toNat }

/-- The connection from its beginning on. -/
def session : TransitionSystem Session where
  init σ := σ = ⟨[], 0, [], []⟩
  step := Session.Step fd fd' src size maxMtu

/-- The call is not given up inside a packet. -/
def WriteCall.Keeps (a : WriteCall) : Prop :=
  TcpWrite.KeepsPackets maxMtu (size - a.start) a.errno a.outcomes

/-- The reader gets what was taken, in order. The writer takes no more bytes for sent than
were taken from it, and these are the same exactly when no call was given up inside a
packet. -/
structure Session.Delivers (σ : Session) : Prop where
  got_isPrefix : σ.got <+: σ.wire
  accounted_le : σ.accounted ≤ min size σ.wire.length
  wire_eq_iff : σ.wire = src.read 0 σ.accounted ↔ ∀ a ∈ σ.calls, a.Keeps size maxMtu

variable {fd fd' src size maxMtu}

/-! ### A call of the writer -/

section Writer

open TcpWrite

theorem next_packet_le {len : ℕ} {c c₁ : Progress} {o : Outcome} (hc : c.packet ≤ c.sent)
    (hnext : c.next maxMtu len o = some c₁) : c₁.packet ≤ c₁.sent := by
  cases o with
  | sent n =>
    rw [Progress.next] at hnext
    split_ifs at hnext
    all_goals obtain rfl := Option.some.inj hnext
    · exact Nat.le_add_right_of_le hc
    · exact Nat.le_refl _
  | sendFailed e =>
    rw [Progress.next] at hnext
    split_ifs at hnext
    obtain rfl := Option.some.inj hnext
    exact hc
  | selectFailed e =>
    rw [Progress.next] at hnext
    split_ifs at hnext
    obtain rfl := Option.some.inj hnext
    exact hc
  | timeout => cases hnext

/-- A packet begins before the place where the transfer is given up. -/
theorem packet_le_of_givesUp {len : ℕ} {c c' : Progress} {o : Outcome} {os : List Outcome}
    (hup : GivesUp maxMtu len c os c' o) (hc : c.packet ≤ c.sent) : c'.packet ≤ c'.sent := by
  induction hup with
  | here => exact hc
  | later _ hnext _ ih => exact ih (next_packet_le hc hnext)

/-- The bytes taken are the first ones. No more are returned, and all of them exactly when the
call is not given up inside a packet. -/
theorem exists_of_commTcpWritePacket (hfd : 0 ≤ fd) (hmtu : 0 < maxMtu) {len : ℕ} {errno : Errno}
    {outcomes : List Outcome} {taken : List ℕ} {r : ℤ}
    (h : commTcpWritePacket fd len maxMtu errno outcomes = (taken, some r)) :
    ∃ k ≤ len, taken = List.range k ∧ r.toNat ≤ k ∧
      (r.toNat = k ↔ KeepsPackets maxMtu len errno outcomes) := by
  obtain ⟨k, -, hk, htaken, hends⟩ :=
    packetLoop_spec (Int.not_lt.mpr hfd) hmtu (Nat.zero_le len) errno outcomes
  have hsize : (len : ℤ) - (0 : ℕ) = len := Int.sub_zero _
  rw [commTcpWritePacket] at h
  rw [hsize, h] at htaken hends
  have hkeeps := hends.keepsPackets_iff
  rw [Nat.sub_zero, ← List.range_eq_range'] at htaken
  have hle : 0 ≤ r ∧ r ≤ k := by
    cases hends with
    | sent => exact ⟨Int.natCast_nonneg k, Int.le_refl _⟩
    | givesUp hup hsent =>
      have hpacket := packet_le_of_givesUp hup (Nat.le_refl _)
      omega
  refine ⟨k, hk, htaken, by omega, ?_⟩
  rw [← hkeeps]
  constructor
  · rintro hr r' hr'
    obtain rfl := Option.some.inj hr'
    omega
  · intro hall
    have := hall r rfl
    omega

end Writer

/-! ### Runs -/

/-- What a call of the reader returns is the beginning of its stream. -/
theorem read_of_commTcpExRead {n : ℕ} {buf stream : Memory Byte} {outcomes : List TcpRead.Outcome}
    {r : ℤ} {c : TcpRead.Conn}
    (h : TcpRead.commTcpExRead fd' n ⟨buf, stream, outcomes⟩ = some (r, c)) :
    0 ≤ r ∧ c.buf.read 0 r.toNat = stream.read 0 r.toNat := by
  obtain ⟨k, -, rfl, hbuf, -⟩ := (TcpRead.reassembles fd' n stream buf outcomes).stores r c h
  refine ⟨Int.natCast_nonneg k, ?_⟩
  rw [hbuf, Int.toNat_natCast, Memory.read_write_self _ _ Memory.length_read]

variable {σ σ' : Session}

theorem Session.Delivers.step (hfd : 0 ≤ fd) (hmtu : 0 < maxMtu) (h : σ.Delivers src size maxMtu)
    (hstep : Session.Step fd fd' src size maxMtu σ σ') : σ'.Delivers src size maxMtu := by
  obtain ⟨hgot, hle, hiff⟩ := h
  cases hstep with
  | @write errno outcomes taken r hwrite =>
    obtain ⟨k, hk, rfl, hr, hkeeps⟩ := exists_of_commTcpWritePacket hfd hmtu hwrite
    have hnew : (List.range k).map (src.shift σ.accounted) = src.read σ.accounted k := rfl
    have hlen : (σ.wire ++ src.read σ.accounted k).length = σ.wire.length + k := by
      rw [List.length_append, Memory.length_read]
    rw [hnew]
    refine ⟨hgot.trans (List.prefix_append _ _), ?_, ?_⟩
    · dsimp only
      omega
    · dsimp only
      rw [List.forall_mem_append, List.forall_mem_singleton, ← hiff, WriteCall.Keeps, ← hkeeps]
      constructor
      · intro heq
        -- the lengths leave no room for a byte that was not accounted for
        have hlen' := congrArg List.length heq
        rw [hlen, Memory.length_read] at hlen'
        have hsum : σ.accounted + r.toNat = σ.accounted + k := by omega
        rw [hsum, Memory.read_add, Nat.zero_add] at heq
        exact ⟨(List.append_inj' heq rfl).1, by omega⟩
      · rintro ⟨hwire, hrk⟩
        rw [hrk, Memory.read_add, Nat.zero_add, ← hwire]
  | @read n buf stream outcomes r c hstream hread hr =>
    obtain ⟨hnonneg, hbuf⟩ := read_of_commTcpExRead hread
    obtain ⟨j, rfl⟩ := Int.eq_ofNat_of_zero_le hnonneg
    have hj : j ≤ σ.wire.length - σ.got.length := by omega
    refine ⟨?_, hle, hiff⟩
    dsimp only
    rw [hbuf, Int.toNat_natCast, ← Memory.take_read stream 0 hj, hstream]
    obtain ⟨rest, hrest⟩ := hgot
    rw [← hrest, List.drop_left, List.prefix_append_right_inj]
    exact List.take_prefix _ _

/-- Over every run, in whatever order the two sides make their calls and whatever becomes of
each of them. -/
theorem delivers_of_reachable (hfd : 0 ≤ fd) (hmtu : 0 < maxMtu)
    (h : (session fd fd' src size maxMtu).Reachable σ) : σ.Delivers src size maxMtu := by
  refine h.invariant ?_ fun _ _ hdelivers hstep => hdelivers.step hfd hmtu hstep
  rintro _ rfl
  exact ⟨List.prefix_refl _, Nat.zero_le _, iff_of_true rfl (by simp)⟩

theorem commTcpWritePacket_two : TcpWrite.commTcpWritePacket 3 (4 : ℕ) 2 .other
    [.sent 2, .sendFailed .other] = ([0, 1], some 2) := by
  have hsent : TcpWrite.commTcpWrite 3 0
      (if ((4 : ℕ) : ℤ) > (2 : ℕ) then ((2 : ℕ) : ℤ) else (4 : ℕ)) .other
        [.sent 2, .sendFailed .other] = ([0, 1], some ⟨2, .other, [.sendFailed .other]⟩) := rfl
  have hfailed : TcpWrite.packetLoop 3 2 2 2 .other [.sendFailed .other] = ([], some 2) :=
    TcpWrite.packetLoop_of_nonpos (by decide) rfl (by decide)
  rw [TcpWrite.commTcpWritePacket, TcpWrite.packetLoop_of_pos (by decide) hsent (by decide)]
  exact congrArg (fun r => ([0, 1] ++ r.1, r.2)) hfailed

theorem commTcpExRead_two (buf stream : Memory Byte) :
    TcpRead.commTcpExRead 4 (2 : ℕ) ⟨buf, stream, [.data 1]⟩ =
      some (2, ⟨buf.write 0 (stream.read 0 2), stream.shift 2, []⟩) := by
  have hdata : TcpRead.exReadLoop 4 (0 : ℕ) (2 : ℕ) ⟨buf, stream, [.data 1]⟩ = _ :=
    TcpRead.exReadLoop_data (by decide) (by decide) 1
  exact hdata.trans (TcpRead.exReadLoop_zero ..)

/-- The numbers as bytes. -/
def counting : Memory Byte := BitVec.ofNat 8

/-- A packet is sent, the next one is refused, and the first one is read. -/
theorem delivers_of_reachable_two : ∃ σ, (session 3 4 counting 4 2).Reachable σ ∧
    σ.got = [0, 1] ∧ σ.Delivers counting 4 2 := by
  have hstart : (session 3 4 counting 4 2).Reachable ⟨[], 0, [], []⟩ := .init rfl
  have hwritten := hstart.step (.write commTcpWritePacket_two)
  have hstream : counting.read 0 2 = [0, 1] := rfl
  have hread := hwritten.step
    (.read hstream (commTcpExRead_two counting counting) (Int.le_refl _))
  exact ⟨_, hread, rfl, delivers_of_reachable (by decide) (by decide) hread⟩

end H264Cast.Connection
