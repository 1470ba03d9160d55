import H264Cast.Client.Udp
import H264Cast.Rtp.Loss
import Mathlib.Data.List.Forall2

/-! # The UDP session

The UDP client on one side and the receive loop on the other. Between them is a network that
keeps the order and may lose any packet. Each range that the client hands to the packetizer is
on its own: it is written whole when its packets arrive, whatever becomes of the others. What
the client cuts the file into does not matter here.
-/

namespace H264Cast

namespace UdpSender

open Packetizer Depacketizer

/-- The client, the receiver, how many packets the network has dealt with, and those of them
that arrived. -/
structure Session where
  client : Client UdpSender
  receiver : Depacketizer
  passed : ℕ
  arrived : List (List Byte)

/-- The steps of a session: the client goes on, or the next packet arrives or is lost. -/
inductive Session.Step (s : ℤ) (file : List Byte) : Session → Session → Prop
  | client {σ : Session} {c : Client UdpSender} :
      Client.Step (transport s) file (fun _ => True) σ.client c →
        Step s file σ { σ with client := c }
  | arrive {σ : Session} {packet : List Byte} :
      σ.client.out.rtp.sent[σ.passed]? = some packet →
        Step s file σ { σ with
          receiver := σ.receiver.receive packet
          passed := σ.passed + 1
          arrived := σ.arrived ++ [packet] }
  | lose {σ : Session} : σ.passed < σ.client.out.rtp.sent.length →
      Step s file σ { σ with passed := σ.passed + 1 }

/-- The session on a socket and a file, with any contents of the two buffers. -/
def session (s : ℤ) (file : List Byte) : TransitionSystem Session where
  init σ := (client s file fun _ => True).init σ.client ∧
    (∃ buf, σ.receiver = ⟨buf, []⟩) ∧ σ.passed = 0 ∧ σ.arrived = []
  step := Session.Step s file

/-- What was handed over, as calls of the packetizer. Every range begins with a zero byte, that
of its start code. -/
structure Handed (o : UdpSender) (calls : List Call) : Prop where
  run : runCalls calls initial.rtp = some o.rtp
  handed : o.handed = calls.map Call.nalu
  zero : ∀ a ∈ calls, a.pstStream 0 = 0x00
  length_pos : ∀ a ∈ calls, 1 ≤ a.naluLen

variable {s : ℤ} {file : List Byte} {σ σ' : Session} {c c' : Client UdpSender} {o o' : UdpSender}
  {calls : List Call} {framerate : ℤ} {p : Memory Byte} {len : ℕ}

theorem handed_initial : Handed initial [] :=
  ⟨rfl, rfl, fun _ h => absurd h List.not_mem_nil, fun _ h => absurd h List.not_mem_nil⟩

theorem Handed.send (h : Handed o calls) (hp : p 0 = 0x00)
    (hsend : UdpSender.send framerate p len o = some o') :
    Handed o' (calls ++ [⟨framerate, p, len⟩]) := by
  obtain ⟨rtp, hrtp, hlen, rfl⟩ := send_cases hsend
  constructor
  · rw [runCalls, List.foldlM_append, Option.bind_eq_bind, Option.bind_eq_some_iff]
    exact ⟨o.rtp, h.run, by simp [hrtp]⟩
  · rw [h.handed, List.map_append]
    rfl
  · intro a ha
    rcases List.mem_append.mp ha with ha | ha
    · exact h.zero a ha
    · obtain rfl := List.mem_singleton.mp ha
      exact hp
  · intro a ha
    rcases List.mem_append.mp ha with ha | ha
    · exact h.length_pos a ha
    · obtain rfl := List.mem_singleton.mp ha
      exact hlen

theorem exists_handed_send (h : ∃ calls, Handed o calls) (hp : p 0 = 0x00)
    (hsend : UdpSender.send framerate p len o = some o') : ∃ calls, Handed o' calls := by
  obtain ⟨calls, h⟩ := h
  exact ⟨_, h.send hp hsend⟩

/-- The loop hands over ranges from a start code on. -/
theorem exists_handed_iterate (h : ∃ calls, Handed c.out calls)
    (hit : c.iterate (transport s) = some c') : ∃ calls, Handed c'.out calls := by
  rcases Client.iterate_cases hit with ⟨-, rfl⟩ | ⟨startCode, l, hfind, hl, hcase⟩
  · exact h
  have hinv : (∃ calls, Handed l.out calls) ∧ c.fread.buf l.startCode = 0x00 := by
    refine (splitLoop_invariant (P := fun l => (∃ calls, Handed l.out calls) ∧
      c.fread.buf l.startCode = 0x00) hl ⟨h, ?_⟩ ?_).1
    · exact (findNalStartCode_eq_some.mp hfind).2.2.1.1
    · rintro l endCode out ⟨hl, hz⟩ hnext hsend
      exact ⟨exists_handed_send hl (p := c.fread.buf.shift l.startCode) hz hsend,
        (nextStartCode_bounds hnext).2.2.1⟩
  obtain ⟨hl, hz⟩ := hinv
  rcases hcase with ⟨-, -, -, rfl⟩ | ⟨-, out, hsend, rfl⟩
  · exact hl
  · exact exists_handed_send hl (p := c.fread.buf.shift l.startCode) hz hsend

theorem client_reachable (h : (session s file).Reachable σ) :
    (client s file fun _ => True).Reachable σ.client := by
  refine h.map Session.client (fun σ hσ => hσ.1) ?_
  intro σ σ' hstep
  cases hstep with
  | client hstep => exact Or.inl hstep
  | arrive => exact Or.inr rfl
  | lose => exact Or.inr rfl

theorem exists_handed (h : (client s file fun _ => True).Reachable c) :
    ∃ calls, Handed c.out calls := by
  refine h.invariant (P := fun c => ∃ calls, Handed c.out calls) ?_ ?_
  · rintro _ ⟨buf, rfl⟩
    exact ⟨[], handed_initial⟩
  · intro c c' hc hstep
    cases hstep with
    | behind => exact hc
    | iterate _ _ hit => exact exists_handed_iterate hc hit
    | reopen => exact hc

theorem Handed.sent_eq (h : Handed o calls) : o.rtp.sent = (transmissions calls 0 0).flatten :=
  (sent_runCalls h.run).trans (List.nil_append _)

/-- The number of packets sent. -/
theorem length_sent (h : (client s file fun _ => True).Reachable c) :
    c.out.rtp.sent.length = (c.out.handed.map fun range => packetCount range.length).sum := by
  obtain ⟨calls, hcalls⟩ := exists_handed h
  have hlen : (fun range => packetCount range.length) ∘ Call.nalu =
      fun a => packetCount a.naluLen := by
    funext a
    rw [Function.comp_apply, Call.nalu, Memory.length_read]
  rw [hcalls.sent_eq, hcalls.handed, List.map_map, hlen, List.length_flatten,
    map_length_transmissions]

/-- The client takes back no packet. -/
theorem isPrefix_of_step (h : Client.Step (transport s) file (fun _ => True) c c') :
    c.out.rtp.sent <+: c'.out.rtp.sent := by
  have hsend : ∀ framerate p len (o o' : UdpSender), c.out.rtp.sent <+: o.rtp.sent →
      send framerate p len o = some o' → c.out.rtp.sent <+: o'.rtp.sent := by
    intro framerate p len o o' ho h
    obtain ⟨rtp, hrtp, -, rfl⟩ := send_cases h
    obtain ⟨-, -, -, -, hsent⟩ := h264nal2rtpSend_spec hrtp
    simp only [hsent]
    exact ho.trans (List.prefix_append _ _)
  have hkeeps : Client.Keeps (transport s) (fun o => c.out.rtp.sent <+: o.rtp.sent) :=
    ⟨fun _ _ _ _ => hsend _ _ _ _ _, fun _ _ _ _ => hsend _ _ _ _ _⟩
  cases h with
  | behind => exact List.prefix_rfl
  | iterate _ _ hit => exact hkeeps.iterate List.prefix_rfl hit
  | reopen => exact List.prefix_rfl

/-- What arrived are packets that the network has dealt with, and the receiver has seen no
others. -/
structure Session.Delivers (σ : Session) : Prop where
  passed_le : σ.passed ≤ σ.client.out.rtp.sent.length
  sublist : σ.arrived.Sublist (σ.client.out.rtp.sent.take σ.passed)
  receiver : ∃ buf, σ.receiver = Depacketizer.receiveAll ⟨buf, []⟩ σ.arrived

theorem Session.Delivers.step (h : σ.Delivers) (hstep : Session.Step s file σ σ') :
    σ'.Delivers := by
  obtain ⟨hpassed, hsub, buf, hrec⟩ := h
  cases hstep with
  | client hc =>
    have hprefix := isPrefix_of_step hc
    refine ⟨Nat.le_trans hpassed hprefix.length_le, ?_, buf, hrec⟩
    rwa [List.prefix_iff_eq_take.mp hprefix, List.take_take, Nat.min_eq_left hpassed] at hsub
  | @arrive packet hpacket =>
    obtain ⟨hlt, hget⟩ := List.getElem?_eq_some_iff.mp hpacket
    refine ⟨hlt, ?_, buf, ?_⟩
    · rw [List.take_succ_eq_append_getElem hlt, hget]
      exact hsub.append_right _
    · rw [receiveAll_append, ← hrec]
      rfl
  | lose hlt =>
    refine ⟨hlt, hsub.trans ?_, buf, hrec⟩
    rw [List.take_succ_eq_append_getElem hlt]
    exact List.sublist_append_left _ _

/-- What arrives of the packets of a range. -/
def Arrives (range : List Byte) (t : Transfer (List Byte)) : Prop :=
  (t.carried payloadOf).Sublist (startCode ++ range) ∧
    (t.carried payloadOf = startCode ++ range ↔ t.Complete)

theorem arrives_of_isolated {a : Call} {t : Transfer (List Byte)} (hlen : 1 ≤ a.naluLen)
    (h : Isolated a t) : Arrives a.nalu t := by
  rwa [Isolated, Call.written, if_neg (by omega)] at h

/-- In every run of the session the packets are those of the ranges the client has handed over,
range by range, and what the receiver has written is put together from what arrived of each
range: the range with a start code in front when all its packets arrived, and else a part of
that. -/
theorem arrives_of_reachable (h : (session s file).Reachable σ) :
    ∃ (calls : List Call) (transfers : List (Transfer (List Byte))),
      calls.map Call.nalu = σ.client.out.handed ∧
      transfers.map Transfer.sent = transmissions calls 0 0 ∧
      transfers.flatMap Transfer.sent = σ.client.out.rtp.sent ∧
      transfers.flatMap Transfer.arrived = σ.arrived ∧
      σ.receiver.saved = transfers.flatMap (Transfer.carried payloadOf) ∧
      List.Forall₂ Arrives σ.client.out.handed transfers := by
  have hdelivers : σ.Delivers := by
    refine h.invariant (P := Session.Delivers) ?_ fun _ _ => Session.Delivers.step
    rintro σ ⟨-, ⟨buf, hrec⟩, hpassed, harrived⟩
    exact ⟨hpassed ▸ Nat.zero_le _, harrived ▸ List.nil_sublist _, buf, harrived ▸ hrec⟩
  obtain ⟨calls, hcalls⟩ := exists_handed (client_reachable h)
  have hsent := hcalls.sent_eq
  obtain ⟨hrun, hhanded, hzero, hlen⟩ := hcalls
  have hsub : σ.arrived.Sublist (transmissions calls 0 0).flatten :=
    hsent ▸ hdelivers.sublist.trans (List.take_sublist _ _)
  obtain ⟨transfers, hmap, harrived⟩ := Transfer.exists_of_sublist hsub
  have hplain : ∀ a ∈ calls, a.Plain := by
    intro a ha _ _
    rw [hzero a ha]
    decide
  obtain ⟨buf, hrec⟩ := hdelivers.receiver
  refine ⟨calls, transfers, hhanded.symm, hmap, ?_, harrived, ?_, ?_⟩
  · rw [hsent, ← hmap, List.flatMap_def]
  · rw [hrec, ← harrived, saved_of_transfers hplain hmap]
    rfl
  · rw [hhanded, List.forall₂_map_left_iff]
    exact (List.forall₂_and_left calls transfers).mpr ⟨hlen, forall₂_isolated hplain hmap⟩
      |>.imp fun _ _ h => arrives_of_isolated h.1 h.2

theorem reachable_of_client (buf : Memory Byte) (h : (client s file fun _ => True).Reachable c) :
    (session s file).Reachable ⟨c, ⟨buf, []⟩, 0, []⟩ := by
  induction h with
  | init h => exact .init ⟨h, ⟨buf, rfl⟩, rfl, rfl⟩
  | step _ hstep ih => exact ih.step (.client hstep)

/-- Of the packets of two units the first is lost. -/
theorem arrives_of_reachable_twoUnits :
    ∃ σ, (session 3 twoUnits).Reachable σ ∧ σ.client.out.rtp.sent.length = 2 ∧
      σ.arrived.length = 1 ∧
      ∃ (calls : List Call) (transfers : List (Transfer (List Byte))),
        calls.map Call.nalu = σ.client.out.handed ∧
        transfers.map Transfer.sent = transmissions calls 0 0 ∧
        transfers.flatMap Transfer.sent = σ.client.out.rtp.sent ∧
        transfers.flatMap Transfer.arrived = σ.arrived ∧
        σ.receiver.saved = transfers.flatMap (Transfer.carried payloadOf) ∧
        List.Forall₂ Arrives σ.client.out.handed transfers := by
  obtain ⟨c, hr, -, -, hhanded⟩ := reachable_twoUnits 3 (fun _ => True) (by decide) trivial
  have hlen : c.out.rtp.sent.length = 2 := by
    rw [length_sent hr, hhanded]
    decide
  have hlost := (reachable_of_client (fun _ => 0x00) hr).step (.lose (by simp only; omega))
  have hreach := hlost.step (.arrive (List.getElem?_eq_getElem (by simp only; omega)))
  exact ⟨_, hreach, hlen, rfl, arrives_of_reachable hreach⟩

end UdpSender

end H264Cast
