import H264Cast.Library.Transition
import H264Cast.Server.Grouping

/-! # The limit of a recording

The counter of SPS units is compared with the limit only at the first unit of a datagram,
and for equality, while the units inside a datagram are counted as well. A recording ends
when the last SPS comes in front of a datagram, and otherwise the counter passes the limit
and the comparison is never true again.
-/

namespace H264Cast

namespace Server

/-- The receive loop from its start, on datagrams that begin with a start code, restricted to
iterations taken under the condition. -/
def system (server : Server) (ok : Receiver → List Byte → Prop) : TransitionSystem Receiver where
  init c := c.opened = true ∧ c.out = ⟨0, []⟩
  step c c' := c.opened = true ∧
    ∃ d, startCode <+: d ∧ ok c d ∧ receive server d c = some c'

/-- While the file is open the counter is below the limit, and it never passes the limit. -/
def Limited (server : Server) (c : Receiver) : Prop :=
  (c.opened = true → c.out.start < server.limit) ∧ c.out.start ≤ server.limit

/-- The datagram begins with the SPS that is the last one to come, or its SPS units leave the
counter below the limit. -/
def Calm (server : Server) (c : Receiver) (d : List Byte) : Prop :=
  nalType (c.fill d 4) = 7 ∧ c.out.start + 1 = server.limit ∨
    c.out.start + spsCount (c.fill d) 0 (d.take maxBuf).length < server.limit

variable {server : Server} {c c' : Receiver} {d : List Byte}

theorem startCodeAt_fill (hd : startCode <+: d) : StartCodeAt (c.fill d) 0 := by
  obtain ⟨rest, rfl⟩ := hd
  have hlen : 4 ≤ ((startCode ++ rest).take maxBuf).length := by
    rw [List.length_take, List.length_append]
    exact Nat.le_min.mpr ⟨by decide, Nat.le_add_right _ _⟩
  rw [startCodeAt_iff_read, Receiver.fill, ← Memory.take_read _ 0 hlen,
    Memory.read_write_self _ _ rfl, List.take_take]
  rfl

/-- The counter after an iteration on a datagram that begins with a start code. -/
theorem receive_of_isPrefix (hd : startCode <+: d) (h : receive server d c = some c') :
    (nalType (c.fill d 4) = 7 ∧ c.out.start + 1 = server.limit ∧ c'.opened = false ∧
        c'.out.start = server.limit) ∨
      (¬ (nalType (c.fill d 4) = 7 ∧ c.out.start + 1 = server.limit) ∧ c'.opened = c.opened ∧
        c'.out.start = c.out.start + spsCount (c.fill d) 0 (d.take maxBuf).length) := by
  have hne : d ≠ [] := by
    rintro rfl
    exact absurd hd (by decide)
  have hfind : findNalStartCode (c.fill d) 0 maxBuf = some 0 :=
    findNalStartCode_self (startCodeAt_fill hd) (by decide)
  obtain ⟨k, hk, hcase⟩ := receive_counts hne h
  obtain rfl := Option.some.inj (hfind.symm.trans hk)
  simpa only [Nat.zero_add] using hcase

/-- An iteration keeps to the limit exactly when it is calm. -/
theorem limited_iff_calm (hc : c.opened = true) (hl : Limited server c) (hd : startCode <+: d)
    (h : receive server d c = some c') : Limited server c' ↔ Calm server c d := by
  have hlt := hl.1 hc
  rcases receive_of_isPrefix hd h with ⟨ht, hs, hclosed, hs'⟩ | ⟨hopen, hopened, hs'⟩
  · refine iff_of_true ⟨?_, hs'.le⟩ (Or.inl ⟨ht, hs⟩)
    intro hopened
    rw [hclosed] at hopened
    cases hopened
  · rw [Calm, or_iff_right hopen, ← hs', Limited]
    constructor
    · exact fun hlim => hlim.1 (hopened.trans hc)
    · exact fun hlim => ⟨fun _ => hlim, hlim.le⟩

/-- In every run of calm iterations the recording keeps to its limit. -/
theorem limited_of_calm (server : Server) (c : Receiver)
    (h : (server.system (Calm server)).Reachable c) : Limited server c := by
  refine h.invariant ?_ ?_
  · rintro c ⟨-, hout⟩
    rw [Limited, hout]
    cases server <;> exact ⟨fun _ => by decide, by decide⟩
  · rintro c c' hl ⟨hc, d, hd, hcalm, hrec⟩
    exact (limited_iff_calm hc hl hd hrec).mpr hcalm

/-- The SPS behind the slice is counted in the split loop. -/
theorem limited_of_calm_two :
    ∃ c, Limited .udp c ∧ c.opened = true ∧ c.out.start = 1 := by
  obtain ⟨buf, hrec⟩ := receive_stream (g := [Nal.slice, Nal.sps]) (n := 0) .udp (fun _ => 0)
    (by simp) (by decide) (by decide) (by decide) []
  refine ⟨_, limited_of_calm .udp _ (.step (.init ⟨rfl, rfl⟩) ⟨rfl, _, ?_, ?_, hrec⟩), rfl, rfl⟩
  · exact ⟨[0x65] ++ Nal.sps.unit, by decide⟩
  · exact Or.inr (by decide +kernel)

/-- A slice and as many SPS units as the limit in one datagram leave the file open with the
counter at the limit. -/
theorem exists_open_at_limit (server : Server) :
    ∃ c, (server.system fun _ _ => True).Reachable c ∧ c.opened = true ∧
      c.out.start = server.limit := by
  obtain ⟨k, hk, hlen, hcount⟩ : ∃ k : ℕ, (k : ℤ) = server.limit ∧
      (stream (.slice :: List.replicate k .sps)).length ≤ maxDatagram ∧
      countSps (.slice :: List.replicate k .sps) = k := by
    cases server with
    | udp => exact ⟨10, by decide, by decide, by decide⟩
    | multicast => exact ⟨15, by decide, by decide, by decide⟩
  have hlim : server.limit < 2 ^ 31 ∧ (0 : ℤ) ≠ server.limit := by cases server <;> decide
  have hopen : ∀ v ∈ (Nal.slice :: List.replicate k .sps).head?,
      ((0 : ℕ) + countSps [v] : ℤ) ≠ server.limit := by
    rintro _ ⟨⟩
    exact hlim.2
  obtain ⟨buf, hrec⟩ := receive_stream (g := .slice :: List.replicate k .sps) (n := 0) server
    (fun _ => 0) (by simp) hlen (by omega) hopen []
  refine ⟨_, .step (.init ⟨rfl, rfl⟩) ⟨rfl, _, ?_, trivial, hrec⟩, rfl, ?_⟩
  · exact ⟨[0x65] ++ stream (List.replicate k .sps), by simp [Nal.unit, Nal.slice]⟩
  · rw [hcount, Nat.zero_add, hk]

theorem not_limited_slice :
    (¬ ∀ c, (Server.udp.system fun _ _ => True).Reachable c → Limited .udp c) ∧
      ¬ ∀ c, (Server.multicast.system fun _ _ => True).Reachable c → Limited .multicast c := by
  have hnot : ∀ server : Server,
      ¬ ∀ c, (server.system fun _ _ => True).Reachable c → Limited server c := by
    intro server hall
    obtain ⟨c, hr, hopened, hs⟩ := exists_open_at_limit server
    exact Int.lt_irrefl _ (hs ▸ (hall c hr).1 hopened)
  exact ⟨hnot .udp, hnot .multicast⟩

end Server

end H264Cast
