import H264Cast.Client.Udp
import H264Cast.Client.Window
import H264Cast.Rtp.Timestamp

/-! # The clock of the UDP client

The tail advances the clock by the ticks of one frame. The ranges of the inner loop are sent
with the socket in the place of the frame rate, so they divide by it; only the first NAL of
all may be sent there, with any socket but zero, since no timestamp comes before its own.
-/

namespace H264Cast

namespace UdpSender

open Packetizer

/-- The NALs handed over have uniform timestamps. -/
def Timed (o : UdpSender) : Prop := Uniform o.handed o.rtp.sent

/-- The split loop of an iteration, from any of its states. -/
abbrev splitFrom (s : ℤ) (c : Client UdpSender) (l : Split UdpSender) : Option (Split UdpSender) :=
  splitLoop (fun startCode endCode =>
      (transport s).inner (c.fread.buf.shift startCode) (endCode - startCode))
    c.fread.buf c.filled l

/-- The calls of the packetizer in an iteration return; none of them divides by zero. -/
def CallsReturn (s : ℤ) (c : Client UdpSender) : Prop :=
  ∀ startCode, findNalStartCode c.fread.buf 0 maxBuf = some startCode →
    ∃ l, splitFrom s c ⟨startCode, 0, 0, c.out⟩ = some l ∧
      (l.TailSent c.filled → ∃ out, (transport s).tail (c.fread.buf.shift l.startCode)
        (c.filled - l.sendLen) l.out = some out)

/-- The socket is 25, or the inner loop finds no range in the iteration, or it finds one only,
which is the first NAL of all, and the socket is not zero. -/
def Steady (s : ℤ) (c : Client UdpSender) : Prop :=
  s = 25 ∨ ∀ startCode endCode, findNalStartCode c.fread.buf 0 maxBuf = some startCode →
    findNalStartCode c.fread.buf (startCode + 4) c.filled = some endCode →
      s ≠ 0 ∧ c.out.handed = [] ∧
        findNalStartCode c.fread.buf (endCode + 4) (c.filled - (endCode - startCode)) = none

/-- The timestamps of the NALs handed over, up to the clock. -/
structure Clocked (ts : List (BitVec 32)) (o : UdpSender) : Prop where
  stamped : Stamped o.handed ts o.rtp.sent
  last : ∀ t ∈ ts.getLast?, t = o.rtp.tsCurrent
  ne_nil : ∀ nal ∈ o.handed, nal ≠ []

variable {framerate s : ℤ} {p : Memory Byte} {len n : ℕ} {o o' : UdpSender} {file : List Byte}
  {c c' : Client UdpSender} {ts : List (BitVec 32)} {ok : Client UdpSender → Prop}

/-! ## One call -/

theorem clocked_initial : Clocked [] initial where
  stamped := ⟨rfl, rfl⟩
  last _ h := nomatch h
  ne_nil _ h := nomatch h

theorem Clocked.timed_iff (h : Clocked ts o) :
    Timed o ↔ ts.IsChain fun t t' => t' = t + frameTicks := by
  constructor
  · rintro ⟨ts', hstamped, hchain⟩
    rwa [h.stamped.unique hstamped h.ne_nil]
  · exact fun hchain => ⟨ts, h.stamped, hchain⟩

theorem Clocked.send (h : Clocked ts o) (hs : send framerate p len o = some o') :
    Clocked (ts ++ [nextTs framerate o.rtp.tsCurrent]) o' := by
  obtain ⟨rtp, hrtp, hlen, rfl⟩ := send_cases hs
  obtain ⟨-, -, hts, -, hsent⟩ := h264nal2rtpSend_spec hrtp
  constructor
  · simp only [hsent]
    refine h.stamped.append ?_
    rw [map_timestamp_packetsOf, Memory.length_read]
  · simp [hts]
  · intro nal hnal
    rcases List.mem_append.mp hnal with hnal | hnal
    · exact h.ne_nil nal hnal
    · obtain rfl := List.mem_singleton.mp hnal
      exact List.ne_nil_of_length_pos (by rwa [Memory.length_read])

/-- A call keeps the timestamps uniform exactly when it sends the first NAL of all, or at 25
frames a second. -/
theorem Clocked.timed_send_iff (h : Clocked ts o)
    (hs : UdpSender.send framerate p len o = some o') :
    Timed o' ↔ Timed o ∧ (o.handed = [] ∨ framerate = 25) := by
  rw [(h.send hs).timed_iff, h.timed_iff, List.isChain_append]
  refine and_congr_right fun _ => ?_
  have hlen := h.stamped.length_eq
  rcases List.eq_nil_or_concat' ts with rfl | ⟨ts, t, rfl⟩
  · have hnil : o.handed = [] := List.length_eq_zero_iff.mp hlen.symm
    simp [hnil]
  · have ht : t = o.rtp.tsCurrent := h.last t (by simp)
    have hne : o.handed ≠ [] := by
      intro hnil
      simp [hnil] at hlen
    subst ht
    simp [hne, nextTs_eq_iff]

/-! ## One iteration -/

theorem clocked_keeps : Client.Keeps (transport s) fun o => ∃ ts, Clocked ts o :=
  ⟨fun _ _ _ _ ⟨_, h⟩ hs => ⟨_, h.send hs⟩, fun _ _ _ _ ⟨_, h⟩ hs => ⟨_, h.send hs⟩⟩

/-- Timestamps that are not uniform stay so. -/
theorem not_timed_keeps :
    Client.Keeps (transport s) fun o => (∃ ts, Clocked ts o) ∧ ¬ Timed o := by
  have hkeep {framerate p len o o'} (h : (∃ ts, Clocked ts o) ∧ ¬ Timed o)
      (hs : send framerate p len o = some o') : (∃ ts, Clocked ts o') ∧ ¬ Timed o' := by
    obtain ⟨⟨ts, hc⟩, hnot⟩ := h
    exact ⟨⟨_, hc.send hs⟩, fun ht => hnot ((hc.timed_send_iff hs).mp ht).1⟩
  exact ⟨fun _ _ _ _ => hkeep, fun _ _ _ _ => hkeep⟩

/-- At 25 frames a second uniform timestamps stay so. -/
theorem timed_keeps : Client.Keeps (transport 25) fun o => (∃ ts, Clocked ts o) ∧ Timed o := by
  have hkeep {p len o o'} (h : (∃ ts, Clocked ts o) ∧ Timed o)
      (hs : send 25 p len o = some o') : (∃ ts, Clocked ts o') ∧ Timed o' := by
    obtain ⟨⟨ts, hc⟩, ht⟩ := h
    exact ⟨⟨_, hc.send hs⟩, (hc.timed_send_iff hs).mpr ⟨ht, Or.inr rfl⟩⟩
  exact ⟨fun _ _ _ _ => hkeep, fun _ _ _ _ => hkeep⟩

theorem handed_ne_nil (hs : UdpSender.send framerate p len o = some o') :
    o'.handed ≠ [] := by
  obtain ⟨rtp, -, -, rfl⟩ := send_cases hs
  simp

/-- What is left after the split loop keeps uniform timestamps. -/
theorem timed_of_tail {l : Split UdpSender} (hl : (∃ ts, Clocked ts l.out) ∧ Timed l.out)
    (htail : (transport s).tail p len l.out = some o') : Timed o' := by
  obtain ⟨⟨ts, hc⟩, ht⟩ := hl
  exact (hc.timed_send_iff htail).mpr ⟨ht, Or.inr rfl⟩

/-- The split loop of a steady iteration keeps uniform timestamps. -/
theorem Steady.splitFrom (hsteady : Steady s c) (hc : (∃ ts, Clocked ts c.out) ∧ Timed c.out)
    {startCode : ℕ} (hfirst : findNalStartCode c.fread.buf 0 maxBuf = some startCode)
    {l : Split UdpSender} (hl : splitFrom s c ⟨startCode, 0, 0, c.out⟩ = some l) :
    (∃ ts, Clocked ts l.out) ∧ Timed l.out := by
  rcases hsteady with rfl | hsteady
  · exact (splitLoop_invariant (P := fun l => (∃ ts, Clocked ts l.out) ∧ Timed l.out) hl hc
      fun _ _ _ hP _ hbody => timed_keeps.inner _ _ _ _ hP hbody).1
  cases hnext : nextStartCode c.fread.buf c.filled (⟨startCode, 0, 0, c.out⟩ : Split UdpSender) with
  | none =>
    rw [UdpSender.splitFrom, splitLoop_none hnext] at hl
    obtain rfl := Option.some.inj hl
    exact hc
  | some endCode =>
    obtain ⟨-, hempty, hone⟩ := hsteady startCode endCode hfirst hnext
    rw [UdpSender.splitFrom, splitLoop_some hnext] at hl
    obtain ⟨out, hsend, hl⟩ := Option.bind_eq_some_iff.mp hl
    rw [splitLoop_none (by simpa [nextStartCode, Split.advance] using hone)] at hl
    obtain rfl := Option.some.inj hl
    obtain ⟨⟨ts, hclocked⟩, ht⟩ := hc
    exact ⟨⟨_, hclocked.send hsend⟩, (hclocked.timed_send_iff hsend).mpr ⟨ht, Or.inl hempty⟩⟩

theorem Steady.iterate (hsteady : Steady s c) (hc : (∃ ts, Clocked ts c.out) ∧ Timed c.out)
    (h : c.iterate (transport s) = some c') : Timed c'.out := by
  rcases Client.iterate_cases h with ⟨-, rfl⟩ | ⟨startCode, l, hfirst, hl, hcase⟩
  · exact hc.2
  have hout := hsteady.splitFrom hc hfirst hl
  rcases hcase with ⟨-, -, -, rfl⟩ | ⟨-, out, hsend, rfl⟩
  · exact hout.2
  · exact timed_of_tail hout hsend

/-- A range sent from the inner loop after another NAL breaks the law. -/
theorem Clocked.not_timed_inner (h : Clocked ts o) (hs : s ≠ 25) (hne : o.handed ≠ [])
    (hsend : (transport s).inner p len o = some o') : (∃ ts, Clocked ts o') ∧ ¬ Timed o' := by
  refine ⟨⟨_, h.send hsend⟩, fun ht => ?_⟩
  rcases ((h.timed_send_iff hsend).mp ht).2 with hempty | heq
  · exact hne hempty
  · exact hs heq

/-- An iteration that is not steady breaks the law. -/
theorem not_timed_of_not_steady (hsteady : ¬ Steady s c) (hc : ∃ ts, Clocked ts c.out)
    (h : c.iterate (transport s) = some c') : ¬ Timed c'.out := by
  obtain ⟨hs, hsteady⟩ := not_or.mp hsteady
  push Not at hsteady
  obtain ⟨startCode, endCode, hfirst, hnext, hmore⟩ := hsteady
  rcases Client.iterate_cases h with ⟨hnone, -⟩ | ⟨startCode', l, hfirst', hl, hcase⟩
  · simp [hfirst] at hnone
  obtain rfl : startCode = startCode' := Option.some.inj (hfirst.symm.trans hfirst')
  have hkept (l₀ : Split UdpSender) (hl₀ : (∃ ts, Clocked ts l₀.out) ∧ ¬ Timed l₀.out)
      (hl : splitFrom s c l₀ = some l) : ¬ Timed c'.out := by
    have hout := (splitLoop_invariant (P := fun l => (∃ ts, Clocked ts l.out) ∧ ¬ Timed l.out) hl
      hl₀ fun _ _ _ hP _ hbody => not_timed_keeps.inner _ _ _ _ hP hbody).1
    rcases hcase with ⟨-, -, -, rfl⟩ | ⟨-, out, hsend, rfl⟩
    · exact hout.2
    · exact ((not_timed_keeps (s := s)).tail _ _ _ _ hout hsend).2
  obtain ⟨ts, hclocked⟩ := hc
  have hnext' : nextStartCode c.fread.buf c.filled
    (⟨startCode, 0, 0, c.out⟩ : Split UdpSender) = some endCode := hnext
  rw [splitLoop_some hnext'] at hl
  obtain ⟨out, hsend, hl⟩ := Option.bind_eq_some_iff.mp hl
  by_cases hempty : c.out.handed = []
  · -- The first NAL of all is followed by another range of the inner loop.
    have hzero : s ≠ 0 := by
      obtain ⟨rtp, hrtp, -⟩ := send_cases hsend
      exact (h264nal2rtpSend_spec hrtp).1
    obtain ⟨endCode', hnext₂⟩ := Option.ne_none_iff_exists'.mp (hmore hzero hempty)
    rw [splitLoop_some (by simpa [nextStartCode, Split.advance] using hnext₂)] at hl
    obtain ⟨out₂, hsend₂, hl⟩ := Option.bind_eq_some_iff.mp hl
    exact hkept _ ((hclocked.send hsend).not_timed_inner hs (handed_ne_nil hsend) hsend₂) hl
  · exact hkept _ (hclocked.not_timed_inner hs hempty hsend) hl

/-- The calls return when no range is found in the inner loop, or the socket is not zero. -/
theorem callsReturn_of_inner (hread : c.received ≠ [])
    (hinner : s ≠ 0 ∨ ∀ startCode, findNalStartCode c.fread.buf 0 maxBuf = some startCode →
      findNalStartCode c.fread.buf (startCode + 4) c.filled = none) : CallsReturn s c := by
  intro startCode hfirst
  have hfilled : 1 ≤ c.filled := Nat.add_pos_left (List.length_pos_iff.mpr hread) _
  obtain ⟨l, hl⟩ : ∃ l, splitFrom s c ⟨startCode, 0, 0, c.out⟩ = some l := by
    rcases hinner with hs | hnone
    · refine splitLoop_isSome (P := fun _ => True) trivial fun l endCode _ hnext => ?_
      have hle := (nextStartCode_bounds hnext).1
      obtain ⟨rtp, hsend⟩ := send_isSome (p := c.fread.buf.shift l.startCode) hs
        (show 1 ≤ endCode - l.startCode by omega) l.out
      exact ⟨_, hsend, trivial⟩
    · exact ⟨_, splitLoop_none (hnone startCode hfirst)⟩
  obtain ⟨hr, -⟩ := splitLoop_reachable hl (.init ⟨startCode, hfirst, rfl⟩)
  have hlen : l.sendLen < c.filled := (scans_invariant hr hfilled hfirst).2
  refine ⟨l, hl, fun _ => ?_⟩
  obtain ⟨rtp, hsend⟩ := send_isSome (p := c.fread.buf.shift l.startCode)
    (show (25 : ℤ) ≠ 0 by decide) (show 1 ≤ c.filled - l.sendLen by omega) l.out
  exact ⟨_, hsend⟩

theorem Steady.callsReturn (hsteady : Steady s c) (hread : c.received ≠ []) : CallsReturn s c := by
  refine callsReturn_of_inner hread ?_
  by_cases hs : s = 0
  · refine Or.inr fun startCode hfirst => ?_
    rcases hsteady with heq | hsteady
    · omega
    · cases hnext : findNalStartCode c.fread.buf (startCode + 4) c.filled with
      | none => rfl
      | some endCode => exact absurd hs (hsteady startCode endCode hfirst hnext).1
  · exact Or.inl hs

/-! ## Runs -/

theorem clocked_of_reachable (hr : (client s file ok).Reachable c) : ∃ ts, Clocked ts c.out := by
  refine hr.invariant (P := fun c => ∃ ts, Clocked ts c.out) ?_ ?_
  · rintro _ ⟨buf, rfl⟩
    exact ⟨[], clocked_initial⟩
  · intro c c' hc hstep
    cases hstep with
    | behind => exact hc
    | reopen => exact hc
    | iterate _ _ hit => exact clocked_keeps.iterate hc hit

theorem timed_of_reachable (hr : (client s file (Steady s)).Reachable c) : Timed c.out := by
  induction hr with
  | init h =>
    obtain ⟨buf, rfl⟩ := h
    exact clocked_initial.timed_iff.mpr .nil
  | @step c c' hr hstep ih =>
    cases hstep with
    | behind => exact ih
    | reopen => exact ih
    | iterate _ hsteady hit => exact hsteady.iterate ⟨clocked_of_reachable hr, ih⟩ hit

/-- In a run of steady iterations no call divides by zero and the timestamps are uniform, and
the next iteration keeps them so exactly when it is steady. -/
theorem timed_of_steady (hr : (client s file (Steady s)).Reachable c) :
    Timed c.out ∧ (c.received ≠ [] → Steady s c → CallsReturn s c) ∧
      ∀ c', c.iterate (transport s) = some c' → (Timed c'.out ↔ Steady s c) := by
  have htimed := timed_of_reachable hr
  have hclocked := clocked_of_reachable hr
  refine ⟨htimed, fun hread hsteady => hsteady.callsReturn hread, fun c' hit => ?_⟩
  constructor
  · exact fun ht => by_contra fun hnot => not_timed_of_not_steady hnot hclocked hit ht
  · exact fun hsteady => hsteady.iterate ⟨hclocked, htimed⟩ hit

/-- Two units on socket 3: the inner loop sends the first NAL of all and no other. -/
theorem timed_of_steady_twoUnits :
    ∃ c, (client 3 twoUnits (Steady 3)).Reachable c ∧ c.out.handed = [shortUnit, shortUnit] ∧
      Timed c.out ∧ (c.received ≠ [] → Steady 3 c → CallsReturn 3 c) ∧
        ∀ c', c.iterate (transport 3) = some c' → (Timed c'.out ↔ Steady 3 c) := by
  obtain ⟨hfind, hsecond, hthird⟩ := find_twoUnits
  have hsteady : Steady 3 twoStart := by
    refine Or.inr fun startCode endCode hfirst hnext => ⟨by decide, rfl, ?_⟩
    obtain rfl := Option.some.inj (hfind.symm.trans hfirst)
    obtain rfl := Option.some.inj (hsecond.symm.trans hnext)
    exact hthird
  obtain ⟨c, hr, -, -, hhanded⟩ := reachable_twoUnits 3 (Steady 3) (by decide) hsteady
  exact ⟨c, hr, hhanded, timed_of_steady hr⟩

/-- An iteration whose calls return goes on, unless its buffer is full. -/
theorem CallsReturn.iterate_isSome (h : CallsReturn s c) (hfilled : c.filled ≠ maxBuf) :
    ∃ c', c.iterate (transport s) = some c' := by
  cases hfirst : findNalStartCode c.fread.buf 0 maxBuf with
  | none => exact ⟨_, Client.iterate_of_none hfirst⟩
  | some startCode =>
    obtain ⟨l, hl, htail⟩ := h startCode hfirst
    obtain ⟨out, hsend⟩ := htail fun hfull => hfilled hfull.2
    unfold Client.iterate
    simp only [hfirst, Client.fread_out]
    rw [UdpSender.splitFrom] at hl
    simp [hl, hfilled, hsend]

/-- Three units of one byte. -/
def threeUnits : List Byte := shortUnit ++ shortUnit ++ shortUnit

/-- Three units sent in one pass on socket 3: the second one is sent from the inner loop too. -/
theorem not_timed_threeUnits :
    ¬ ∀ (s : ℤ) (file : List Byte), 0 ≤ s → ∀ c, (client s file fun _ => True).Reachable c →
      Timed c.out ∧ (c.received ≠ [] → CallsReturn s c) := by
  intro hall
  let c : Client UdpSender := Client.start (fun _ => 0x11) threeUnits initial
  have hr : (client 3 threeUnits fun _ => True).Reachable c := .init ⟨_, rfl⟩
  have hread : c.received ≠ [] := List.cons_ne_nil _ _
  have hcalls : CallsReturn 3 c := (hall 3 threeUnits (by decide) c hr).2 hread
  obtain ⟨c', hit⟩ := hcalls.iterate_isSome (by decide)
  have hnot : ¬ Steady 3 c := by
    rintro (heq | hsteady)
    · exact absurd heq (by decide)
    have hfirst : findNalStartCode c.fread.buf 0 maxBuf = some 0 :=
      findNalStartCode_self (by decide) (by decide)
    have hsecond : findNalStartCode c.fread.buf (0 + 4) c.filled = some 5 :=
      findNalStartCode_of_lt (by decide) (by decide) (by decide) (by decide)
    have hthird := (hsteady 0 5 hfirst hsecond).2.2
    exact findNalStartCode_eq_none.mp hthird 10 (by decide) (by decide) (by decide)
  exact not_timed_of_not_steady hnot ⟨[], clocked_initial⟩ hit
    (hall 3 threeUnits (by decide) c' (hr.step (.iterate hread trivial hit))).1

end UdpSender

end H264Cast
