import H264Cast.Socket.TcpRead

/-! # Writing to a TCP socket

The loop hands the rest of the buffer to `send` whenever the socket is ready, and gives up
after an error, after eleven failed calls of `select`, or at a timeout. What it returns then
leaves out the bytes that were taken before, so that the loop over the packets goes back to
the beginning of the packet.
-/

namespace H264Cast.TcpWrite

/-- The outcome of a round: what `select` says, and if the socket is ready what `send` does. -/
inductive Outcome
  | sent (n : ℕ)
  | sendFailed (e : Errno)
  | selectFailed (e : Errno)
  | timeout
  deriving DecidableEq

/-- The variables of the loop, with the buffer as an offset. -/
structure Loop where
  buf : ℕ
  size : ℤ
  selectcnt : ℕ
  errno : Errno

/-- What a call returns, with `errno` and the outcomes that are left. -/
structure Returned where
  ret : ℤ
  errno : Errno
  outcomes : List Outcome

/-- The offsets of the bytes taken, in order, and what is returned unless the loop goes on. Of
a range `send` takes at most all bytes. -/
def Loop.run (size1 : ℤ) : Loop → List Outcome → List ℕ × Option Returned
  | c, [] => ([], if 0 < c.size then none else some ⟨size1 - c.size, c.errno, []⟩)
  | c, o :: os =>
    if 0 < c.size then
      match o with
      | .sent n =>
        let len := min n c.size.toNat
        let r := run size1 { c with buf := c.buf + len, size := c.size - len } os
        (List.range' c.buf len ++ r.1, r.2)
      | .sendFailed e =>
        if e.Transient then run size1 { c with errno := e } os else ([], some ⟨-1, e, os⟩)
      | .selectFailed e =>
        if e.Transient ∧ c.selectcnt + 1 < 11 then
          run size1 { c with selectcnt := c.selectcnt + 1, errno := e } os
        else ([], some ⟨-1, e, os⟩)
      | .timeout => ([], some ⟨if c.errno.Transient then 0 else -1, c.errno, os⟩)
    else ([], some ⟨size1 - c.size, c.errno, o :: os⟩)

def commTcpWrite (fd : ℤ) (buf : ℕ) (size : ℤ) (errno : Errno) (outcomes : List Outcome) :
    List ℕ × Option Returned :=
  if fd < 0 then ([], some ⟨-1, errno, outcomes⟩)
  else Loop.run size ⟨buf, size, 0, errno⟩ outcomes

def packetLoop (fd : ℤ) (maxMtu buf : ℕ) (size : ℤ) (errno : Errno) (outcomes : List Outcome) :
    List ℕ × Option ℤ :=
  if 0 < size then
    let r := commTcpWrite fd buf (if size > maxMtu then maxMtu else size) errno outcomes
    match r.2 with
    | none => (r.1, none)
    | some ⟨sendlen, errno, outcomes⟩ =>
      if sendlen ≤ 0 then (r.1, some buf)
      else
        let rest := packetLoop fd maxMtu (buf + sendlen.toNat) (size - sendlen) errno outcomes
        (r.1 ++ rest.1, rest.2)
  else ([], some buf)
termination_by size.toNat

def commTcpWritePacket (fd size : ℤ) (maxMtu : ℕ) (errno : Errno) (outcomes : List Outcome) :
    List ℕ × Option ℤ :=
  packetLoop fd maxMtu 0 size errno outcomes

/-- The bytes taken are the first ones, each of them once, and what is returned is how many
they are, unless it is an error. -/
def WriteAccounts (fd size : ℤ) (errno : Errno) (outcomes : List Outcome) : Prop :=
  ∃ k ≤ size.toNat, (commTcpWrite fd 0 size errno outcomes).1 = List.range k ∧
    ∀ r, (commTcpWrite fd 0 size errno outcomes).2 = some r → 0 ≤ r.ret → r.ret = k

/-- The same of a transfer in packets, which does not return errors. -/
def PacketAccounts (fd size : ℤ) (maxMtu : ℕ) (errno : Errno) (outcomes : List Outcome) :
    Prop :=
  ∃ k ≤ size.toNat, (commTcpWritePacket fd size maxMtu errno outcomes).1 = List.range k ∧
    ∀ r, (commTcpWritePacket fd size maxMtu errno outcomes).2 = some r → r = (k : ℤ)

/-! ## The transfer without the calls -/

/-- How far a transfer has come: the bytes sent, where the packet begins that is being sent,
the failed calls of `select` for this packet, and `errno`. -/
structure Progress where
  sent : ℕ
  packet : ℕ
  selectcnt : ℕ
  errno : Errno

def Progress.start (errno : Errno) : Progress := ⟨0, 0, 0, errno⟩

/-- The end of the packet. -/
def Progress.last (maxMtu size : ℕ) (c : Progress) : ℕ := min (c.packet + maxMtu) size

/-- A round, unless the transfer is given up. -/
def Progress.next (maxMtu size : ℕ) (c : Progress) : Outcome → Option Progress
  | .sent n =>
    if c.sent + n < c.last maxMtu size then some { c with sent := c.sent + n }
    else some ⟨c.last maxMtu size, c.last maxMtu size, 0, c.errno⟩
  | .sendFailed e => if e.Transient then some { c with errno := e } else none
  | .selectFailed e =>
    if e.Transient ∧ c.selectcnt + 1 < 11 then
      some { c with selectcnt := c.selectcnt + 1, errno := e }
    else none
  | .timeout => none

/-- The transfer is given up at a point at which an outcome ends it. -/
inductive GivesUp (maxMtu size : ℕ) : Progress → List Outcome → Progress → Outcome → Prop
  | here {c : Progress} {o : Outcome} {os : List Outcome} : c.sent < size →
      c.next maxMtu size o = none → GivesUp maxMtu size c (o :: os) c o
  | later {c c₁ c' : Progress} {o o' : Outcome} {os : List Outcome} : c.sent < size →
      c.next maxMtu size o = some c₁ → GivesUp maxMtu size c₁ os c' o' →
        GivesUp maxMtu size c (o :: os) c' o'

/-- No byte has been sent when a timeout comes after an interrupted call. -/
def KeepsWrite (size : ℕ) (errno : Errno) (outcomes : List Outcome) : Prop :=
  ∀ c, GivesUp size size (.start errno) outcomes c .timeout → c.errno.Transient → c.sent = 0

/-- The transfer is not given up inside a packet. -/
def KeepsPackets (maxMtu size : ℕ) (errno : Errno) (outcomes : List Outcome) : Prop :=
  ∀ c o, GivesUp maxMtu size (.start errno) outcomes c o → c.sent = c.packet

variable {fd size size1 : ℤ} {maxMtu len n k buf : ℕ} {errno e : Errno} {c c₁ c' : Progress}
  {o o' : Outcome} {os outcomes : List Outcome}

theorem Progress.last_le (maxMtu len : ℕ) (c : Progress) : c.last maxMtu len ≤ len :=
  Nat.min_le_right _ _

theorem range'_append_sub {i j : ℕ} (hij : i ≤ j) (hjk : j ≤ k) :
    List.range' i (j - i) ++ List.range' j (k - j) = List.range' i (k - i) := by
  have hlen : k - i = j - i + (k - j) := by omega
  rw [hlen, ← List.range'_append_1, Nat.add_sub_cancel' hij]

/-! ## Where a transfer is given up -/

theorem not_givesUp_nil : ¬ GivesUp maxMtu len c [] c' o' := by
  rintro ⟨⟩

theorem not_givesUp_of_le (h : len ≤ c.sent) : ¬ GivesUp maxMtu len c os c' o' := by
  intro hup
  cases hup with
  | here hlt => omega
  | later hlt => omega

theorem givesUp_iff_of_some (hlt : c.sent < len) (hnext : c.next maxMtu len o = some c₁) :
    GivesUp maxMtu len c (o :: os) c' o' ↔ GivesUp maxMtu len c₁ os c' o' := by
  constructor
  · intro h
    cases h with
    | here _ hnone => cases hnone.symm.trans hnext
    | later _ hnext' h => exact Option.some.inj (hnext'.symm.trans hnext) ▸ h
  · exact .later hlt hnext

/-- A transfer is given up at one point. -/
theorem GivesUp.unique {c₂ : Progress} {o₂ : Outcome} (h : GivesUp maxMtu len c os c' o')
    (h₂ : GivesUp maxMtu len c os c₂ o₂) : c' = c₂ ∧ o' = o₂ := by
  induction h with
  | here _ hnone =>
    cases h₂ with
    | here => exact ⟨rfl, rfl⟩
    | later _ hnext => cases hnone.symm.trans hnext
  | later hlt hnext _ ih => exact ih ((givesUp_iff_of_some hlt hnext).mp h₂)

/-! ## The loop of one call -/

theorem run_of_nonpos {l : Loop} (h : l.size ≤ 0) (os : List Outcome) :
    l.run size1 os = ([], some ⟨size1 - l.size, l.errno, os⟩) := by
  cases os with
  | nil => rw [Loop.run, if_neg (Int.not_lt.mpr h)]
  | cons o os => exact if_neg (Int.not_lt.mpr h)

/-- The variables of the loop in a transfer. -/
def Progress.loop (maxMtu len : ℕ) (c : Progress) : Loop :=
  ⟨c.sent, c.last maxMtu len - c.sent, c.selectcnt, c.errno⟩

theorem loop_size_pos (hlt : c.sent < c.last maxMtu len) : 0 < (c.loop maxMtu len).size := by
  simp only [Progress.loop]
  omega

/-- How the call for a packet ends: it waits for more outcomes, or the packet is sent, or the
transfer is given up. -/
inductive CallEnds (maxMtu len : ℕ) (size1 : ℤ) (c : Progress) (os : List Outcome) (k : ℕ) :
    Option Returned → Prop
  | waits : (∀ c' o', ¬ GivesUp maxMtu len c os c' o') → CallEnds maxMtu len size1 c os k none
  | sent {e : Errno} {rest : List Outcome} : k = c.last maxMtu len →
      (∀ c' o', GivesUp maxMtu len c os c' o' ↔ GivesUp maxMtu len ⟨k, k, 0, e⟩ rest c' o') →
        CallEnds maxMtu len size1 c os k (some ⟨size1, e, rest⟩)
  | givesUp {c' : Progress} {o' : Outcome} {e : Errno} {rest : List Outcome} :
      GivesUp maxMtu len c os c' o' → c'.sent = k → c'.packet = c.packet →
        CallEnds maxMtu len size1 c os k
          (some ⟨if o' = .timeout ∧ c'.errno.Transient then 0 else -1, e, rest⟩)

theorem CallEnds.later {r : Option Returned} (hlt : c.sent < len)
    (hnext : c.next maxMtu len o = some c₁) (hpacket : c₁.packet = c.packet)
    (h : CallEnds maxMtu len size1 c₁ os k r) : CallEnds maxMtu len size1 c (o :: os) k r := by
  cases h with
  | waits hwaits =>
    exact .waits fun c' o' h => hwaits c' o' ((givesUp_iff_of_some hlt hnext).mp h)
  | sent hk hiff =>
    refine .sent ?_ fun c' o' => (givesUp_iff_of_some hlt hnext).trans (hiff c' o')
    rw [hk, Progress.last, hpacket, Progress.last]
  | givesUp hup hk hp => exact .givesUp (.later hlt hnext hup) hk (hp.trans hpacket)

/-- A round of the loop inside the packet. -/
theorem run_of_lt (hlt : c.sent < c.last maxMtu len) (hnext : c.next maxMtu len o = some c₁)
    (h₁ : c₁.sent < c.last maxMtu len) (size1 : ℤ) (os : List Outcome) :
    c.sent ≤ c₁.sent ∧ c₁.packet = c.packet ∧ (c.loop maxMtu len).run size1 (o :: os) =
      (List.range' c.sent (c₁.sent - c.sent) ++ ((c₁.loop maxMtu len).run size1 os).1,
        ((c₁.loop maxMtu len).run size1 os).2) := by
  have hpos := loop_size_pos hlt
  cases o with
  | sent n =>
    rw [Progress.next] at hnext
    split_ifs at hnext with hn
    · obtain rfl := Option.some.inj hnext
      refine ⟨Nat.le_add_right _ _, rfl, ?_⟩
      have hmin : min n ((c.last maxMtu len : ℤ) - c.sent).toNat = n := by omega
      have hsize : (c.last maxMtu len : ℤ) - c.sent - n = c.last maxMtu len - (c.sent + n : ℕ) := by
        omega
      rw [Loop.run, if_pos hpos]
      simp only [Progress.loop, hmin, hsize, Nat.add_sub_cancel_left]
      rfl
    · obtain rfl := Option.some.inj hnext
      exact absurd h₁ (Nat.lt_irrefl _)
  | sendFailed e =>
    rw [Progress.next] at hnext
    split_ifs at hnext with he
    obtain rfl := Option.some.inj hnext
    refine ⟨Nat.le_refl _, rfl, ?_⟩
    rw [Loop.run, if_pos hpos, if_pos he, Nat.sub_self]
    rfl
  | selectFailed e =>
    rw [Progress.next] at hnext
    split_ifs at hnext with he
    obtain rfl := Option.some.inj hnext
    refine ⟨Nat.le_refl _, rfl, ?_⟩
    have he' : e.Transient ∧ (c.loop maxMtu len).selectcnt + 1 < 11 := he
    rw [Loop.run, if_pos hpos, if_pos he', Nat.sub_self]
    rfl
  | timeout => cases hnext

/-- The round that sends the last byte of the packet. -/
theorem run_of_last (hlt : c.sent < c.last maxMtu len) (hnext : c.next maxMtu len o = some c₁)
    (h₁ : ¬ c₁.sent < c.last maxMtu len) (size1 : ℤ) (os : List Outcome) :
    c₁ = ⟨c.last maxMtu len, c.last maxMtu len, 0, c.errno⟩ ∧
      (c.loop maxMtu len).run size1 (o :: os) =
        (List.range' c.sent (c.last maxMtu len - c.sent), some ⟨size1, c.errno, os⟩) := by
  have hpos := loop_size_pos hlt
  cases o with
  | sent n =>
    rw [Progress.next] at hnext
    split_ifs at hnext with hn
    · obtain rfl := Option.some.inj hnext
      exact absurd hn h₁
    · obtain rfl := Option.some.inj hnext
      refine ⟨rfl, ?_⟩
      have hmin : min n ((c.last maxMtu len : ℤ) - c.sent).toNat = c.last maxMtu len - c.sent := by
        omega
      have hsize : (c.last maxMtu len : ℤ) - c.sent - (c.last maxMtu len - c.sent : ℕ) = 0 := by
        omega
      rw [Loop.run, if_pos hpos]
      simp only [Progress.loop, hmin, hsize]
      rw [run_of_nonpos (Int.le_refl 0), List.append_nil, Int.sub_zero]
  | sendFailed e =>
    rw [Progress.next] at hnext
    split_ifs at hnext
    obtain rfl := Option.some.inj hnext
    exact absurd hlt h₁
  | selectFailed e =>
    rw [Progress.next] at hnext
    split_ifs at hnext
    obtain rfl := Option.some.inj hnext
    exact absurd hlt h₁
  | timeout => cases hnext

/-- The round in which the transfer is given up. -/
theorem run_of_none (hlt : c.sent < c.last maxMtu len) (hnext : c.next maxMtu len o = none)
    (size1 : ℤ) (os : List Outcome) : ∃ e, (c.loop maxMtu len).run size1 (o :: os) =
      ([], some ⟨if o = .timeout ∧ c.errno.Transient then 0 else -1, e, os⟩) := by
  have hpos := loop_size_pos hlt
  cases o with
  | sent n =>
    rw [Progress.next] at hnext
    split_ifs at hnext
  | sendFailed e =>
    rw [Progress.next] at hnext
    split_ifs at hnext with he
    exact ⟨e, by rw [Loop.run, if_pos hpos, if_neg he]; rfl⟩
  | selectFailed e =>
    rw [Progress.next] at hnext
    split_ifs at hnext with he
    exact ⟨e, by rw [Loop.run, if_pos hpos]; exact if_neg he⟩
  | timeout =>
    refine ⟨c.errno, ?_⟩
    rw [Loop.run, if_pos hpos]
    by_cases he : c.errno.Transient
    · simp [Progress.loop, he]
    · simp [Progress.loop, he]

/-- The call for a packet takes the bytes of the packet from where it begins on. -/
theorem run_spec (hlt : c.sent < c.last maxMtu len) (size1 : ℤ) (os : List Outcome) :
    ∃ k, c.sent ≤ k ∧ k ≤ c.last maxMtu len ∧
      ((c.loop maxMtu len).run size1 os).1 = List.range' c.sent (k - c.sent) ∧
        CallEnds maxMtu len size1 c os k ((c.loop maxMtu len).run size1 os).2 := by
  induction os generalizing c with
  | nil =>
    have hpos := loop_size_pos hlt
    refine ⟨c.sent, Nat.le_refl _, Nat.le_of_lt hlt, ?_⟩
    rw [Loop.run, if_pos hpos, Nat.sub_self]
    exact ⟨rfl, .waits fun _ _ => not_givesUp_nil⟩
  | cons o os ih =>
    have hlen : c.sent < len := Nat.lt_of_lt_of_le hlt (c.last_le maxMtu len)
    cases hnext : c.next maxMtu len o with
    | none =>
      obtain ⟨e, hrun⟩ := run_of_none hlt hnext size1 os
      refine ⟨c.sent, Nat.le_refl _, Nat.le_of_lt hlt, ?_⟩
      rw [hrun, Nat.sub_self]
      exact ⟨rfl, .givesUp (.here hlen hnext) rfl rfl⟩
    | some c₁ =>
      by_cases h₁ : c₁.sent < c.last maxMtu len
      · obtain ⟨hle, hpacket, hrun⟩ := run_of_lt hlt hnext h₁ size1 os
        have hlast : c₁.last maxMtu len = c.last maxMtu len := by
          rw [Progress.last, hpacket, Progress.last]
        obtain ⟨k, hk, hk', htaken, hends⟩ := ih (hlast ▸ h₁)
        refine ⟨k, Nat.le_trans hle hk, hlast ▸ hk', ?_, ?_⟩
        · rw [hrun, htaken]
          exact range'_append_sub hle hk
        · rw [hrun]
          exact hends.later hlen hnext hpacket
      · obtain ⟨rfl, hrun⟩ := run_of_last hlt hnext h₁ size1 os
        refine ⟨c.last maxMtu len, Nat.le_of_lt hlt, Nat.le_refl _, ?_⟩
        rw [hrun]
        exact ⟨rfl, .sent rfl fun _ _ => givesUp_iff_of_some hlen hnext⟩

/-! ## The loop over the packets -/

/-- How the transfer ends. What is returned is where the packet begins in which it is given
up. -/
inductive TransferEnds (maxMtu len : ℕ) (c : Progress) (os : List Outcome) (k : ℕ) :
    Option ℤ → Prop
  | waits : (∀ c' o', ¬ GivesUp maxMtu len c os c' o') → TransferEnds maxMtu len c os k none
  | sent : (∀ c' o', ¬ GivesUp maxMtu len c os c' o') → TransferEnds maxMtu len c os k (some k)
  | givesUp {c' : Progress} {o' : Outcome} : GivesUp maxMtu len c os c' o' → c'.sent = k →
      TransferEnds maxMtu len c os k (some c'.packet)

theorem TransferEnds.congr {os₁ : List Outcome} {r : Option ℤ}
    (hiff : ∀ c' o', GivesUp maxMtu len c os c' o' ↔ GivesUp maxMtu len c₁ os₁ c' o')
    (h : TransferEnds maxMtu len c₁ os₁ k r) : TransferEnds maxMtu len c os k r := by
  cases h with
  | waits hwaits => exact .waits fun c' o' => (hiff c' o').not.mpr (hwaits c' o')
  | sent hsent => exact .sent fun c' o' => (hiff c' o').not.mpr (hsent c' o')
  | givesUp hup hk => exact .givesUp ((hiff _ _).mpr hup) hk

/-- The call for the packet that begins at an offset. -/
theorem commTcpWrite_packet (hfd : ¬ fd < 0) (hmtu : 0 < maxMtu) (hlt : buf < len) (e : Errno)
    (os : List Outcome) :
    ∃ k ret, commTcpWrite fd buf (if (len : ℤ) - buf > maxMtu then (maxMtu : ℤ) else len - buf)
        e os = (List.range' buf (k - buf), ret) ∧
      buf ≤ k ∧ k ≤ Progress.last maxMtu len ⟨buf, buf, 0, e⟩ ∧
        CallEnds maxMtu len (Progress.last maxMtu len ⟨buf, buf, 0, e⟩ - buf) ⟨buf, buf, 0, e⟩ os k
          ret := by
  let c : Progress := ⟨buf, buf, 0, e⟩
  have hlast : c.sent < c.last maxMtu len := by
    simp only [c, Progress.last]
    omega
  have hsendlen : (if (len : ℤ) - buf > maxMtu then (maxMtu : ℤ) else len - buf) =
      c.last maxMtu len - buf := by
    simp only [c, Progress.last]
    split_ifs <;> omega
  obtain ⟨k, hk, hk', htaken, hends⟩ := run_spec hlast (c.last maxMtu len - buf) os
  refine ⟨k, _, Prod.ext ?_ rfl, hk, hk', ?_⟩
  · rw [commTcpWrite, if_neg hfd, hsendlen]
    exact htaken
  · rw [commTcpWrite, if_neg hfd, hsendlen]
    exact hends

theorem packetLoop_of_none {s : ℤ} {taken : List ℕ} (hs : 0 < s)
    (h : commTcpWrite fd buf (if s > maxMtu then (maxMtu : ℤ) else s) e os = (taken, none)) :
    packetLoop fd maxMtu buf s e os = (taken, none) := by
  rw [packetLoop, if_pos hs, h]

theorem packetLoop_of_nonpos {s : ℤ} {taken : List ℕ} {r : Returned} (hs : 0 < s)
    (h : commTcpWrite fd buf (if s > maxMtu then (maxMtu : ℤ) else s) e os = (taken, some r))
    (hr : r.ret ≤ 0) : packetLoop fd maxMtu buf s e os = (taken, some (buf : ℤ)) := by
  rw [packetLoop, if_pos hs, h]
  exact if_pos hr

theorem packetLoop_of_pos {s : ℤ} {taken : List ℕ} {r : Returned} (hs : 0 < s)
    (h : commTcpWrite fd buf (if s > maxMtu then (maxMtu : ℤ) else s) e os = (taken, some r))
    (hr : 0 < r.ret) : packetLoop fd maxMtu buf s e os =
      (taken ++ (packetLoop fd maxMtu (buf + r.ret.toNat) (s - r.ret) r.errno r.outcomes).1,
        (packetLoop fd maxMtu (buf + r.ret.toNat) (s - r.ret) r.errno r.outcomes).2) := by
  rw [packetLoop, if_pos hs, h]
  exact if_neg (Int.not_le.mpr hr)

theorem packetLoop_spec (hfd : ¬ fd < 0) (hmtu : 0 < maxMtu) (hle : buf ≤ len) (e : Errno)
    (os : List Outcome) :
    ∃ k, buf ≤ k ∧ k ≤ len ∧
      (packetLoop fd maxMtu buf (len - buf) e os).1 = List.range' buf (k - buf) ∧
        TransferEnds maxMtu len ⟨buf, buf, 0, e⟩ os k
          (packetLoop fd maxMtu buf (len - buf) e os).2 := by
  induction hn : len - buf using Nat.strong_induction_on generalizing buf e os with
  | _ n ih =>
    rcases Nat.eq_or_lt_of_le hle with rfl | hlt
    · refine ⟨buf, Nat.le_refl _, Nat.le_refl _, ?_⟩
      rw [packetLoop, if_neg (by omega), Nat.sub_self]
      exact ⟨rfl, .sent fun _ _ => not_givesUp_of_le (Nat.le_refl _)⟩
    have hs : 0 < (len : ℤ) - buf := by omega
    obtain ⟨k, ret, hcall, hk, hlast, hends⟩ := commTcpWrite_packet hfd hmtu hlt e os
    have hlen : k ≤ len := Nat.le_trans hlast (Progress.last_le _ _ _)
    cases hends with
    | waits hwaits =>
      rw [packetLoop_of_none hs hcall]
      exact ⟨k, hk, hlen, rfl, .waits hwaits⟩
    | @sent e' rest hend hiff =>
      -- the next packet begins where this one ends
      rw [← hend] at hcall
      have hlt' : buf < k := by
        rw [hend, Progress.last]
        dsimp only
        omega
      have hbuf : buf + ((k : ℤ) - buf).toNat = k := by omega
      have hsize : (len : ℤ) - buf - (k - buf) = len - k := by omega
      obtain ⟨k', hk', hlen', htaken, hends'⟩ := ih (len - k) (by omega) hlen e' rest rfl
      rw [packetLoop_of_pos hs hcall (by dsimp only; omega), hbuf, hsize, htaken]
      exact ⟨k', Nat.le_trans hk hk', hlen', range'_append_sub hk hk', hends'.congr hiff⟩
    | @givesUp c' o' e' rest hup hsent hpacket =>
      rw [packetLoop_of_nonpos hs hcall (by dsimp only; split_ifs <;> decide)]
      refine ⟨k, hk, hlen, rfl, ?_⟩
      have hbuf : c'.packet = buf := hpacket
      have hends := TransferEnds.givesUp hup hsent
      rwa [hbuf] at hends

/-! ## What the return values account for -/

theorem last_start (errno : Errno) (len : ℕ) : (Progress.start errno).last len len = len := by
  rw [Progress.last, Progress.start, Nat.zero_add, Nat.min_self]

/-- The number of bytes taken is the only one that can be meant. -/
theorem exists_range_iff {P : ℕ → Prop} {taken : List ℕ} (htaken : taken = List.range k)
    (hk : k ≤ n) : (∃ k' ≤ n, taken = List.range k' ∧ P k') ↔ P k := by
  constructor
  · rintro ⟨k', -, htaken', h⟩
    have hlen := congrArg List.length (htaken.symm.trans htaken')
    rw [List.length_range, List.length_range] at hlen
    exact hlen ▸ h
  · exact fun h => ⟨k, hk, htaken, h⟩

theorem CallEnds.keepsWrite_iff {ret : Option Returned}
    (h : CallEnds len len len (.start errno) os k ret) :
    (∀ r, ret = some r → 0 ≤ r.ret → r.ret = k) ↔ KeepsWrite len errno os := by
  cases h with
  | waits hwaits =>
    refine iff_of_true ?_ fun c hup => absurd hup (hwaits c .timeout)
    rintro r ⟨⟩
  | sent hend hiff =>
    rw [last_start] at hend
    subst hend
    refine iff_of_true ?_ fun c hup =>
      absurd ((hiff c .timeout).mp hup) (not_givesUp_of_le (Nat.le_refl _))
    rintro r ⟨⟩ -
    rfl
  | @givesUp c' o' e rest hup hsent =>
    constructor
    · intro hret c hup' htransient
      obtain ⟨rfl, rfl⟩ := hup'.unique hup
      have hzero := hret _ rfl
      simp only [htransient, and_self, if_true, le_refl, forall_const] at hzero
      omega
    · rintro hkeeps r ⟨⟩ hnonneg
      by_cases htimeout : o' = .timeout ∧ c'.errno.Transient
      · obtain ⟨rfl, htransient⟩ := htimeout
        rw [← hsent, hkeeps c' hup htransient]
        simp [htransient]
      · simp [htimeout] at hnonneg

theorem TransferEnds.keepsPackets_iff {ret : Option ℤ}
    (h : TransferEnds maxMtu len (.start errno) os k ret) :
    (∀ r, ret = some r → r = (k : ℤ)) ↔ KeepsPackets maxMtu len errno os := by
  cases h with
  | waits hwaits =>
    refine iff_of_true ?_ fun c o hup => absurd hup (hwaits c o)
    rintro r ⟨⟩
  | sent hsent =>
    refine iff_of_true ?_ fun c o hup => absurd hup (hsent c o)
    rintro r ⟨⟩
    rfl
  | givesUp hup hsent =>
    constructor
    · intro hret c o hup'
      obtain ⟨rfl, rfl⟩ := hup'.unique hup
      have hpacket := hret _ rfl
      omega
    · rintro hkeeps r ⟨⟩
      rw [← hsent, hkeeps _ _ hup]

theorem writeAccounts_iff (hfd : ¬ fd < 0) (hpos : 0 < len) (errno : Errno)
    (outcomes : List Outcome) :
    WriteAccounts fd len errno outcomes ↔ KeepsWrite len errno outcomes := by
  obtain ⟨k, ret, hcall, -, hk, hends⟩ := commTcpWrite_packet hfd hpos hpos errno outcomes
  have hsize : (if (len : ℤ) - (0 : ℕ) > len then (len : ℤ) else len - (0 : ℕ)) = len := by
    split_ifs <;> omega
  change k ≤ (Progress.start errno).last len len at hk
  change CallEnds len len ((Progress.start errno).last len len - (0 : ℕ)) (.start errno) outcomes
    k ret at hends
  rw [last_start] at hk hends
  rw [hsize] at hcall
  rw [WriteAccounts, hcall]
  exact (exists_range_iff (List.range_eq_range').symm hk).trans hends.keepsWrite_iff

theorem packetAccounts_iff (hfd : ¬ fd < 0) (hmtu : 0 < maxMtu) (len : ℕ) (errno : Errno)
    (outcomes : List Outcome) :
    PacketAccounts fd len maxMtu errno outcomes ↔ KeepsPackets maxMtu len errno outcomes := by
  obtain ⟨k, -, hk, htaken, hends⟩ := packetLoop_spec hfd hmtu (Nat.zero_le len) errno outcomes
  have hsize : (len : ℤ) - (0 : ℕ) = len := Int.sub_zero _
  rw [hsize] at htaken hends
  have htaken' := htaken.trans (List.range_eq_range').symm
  exact (exists_range_iff htaken' hk).trans hends.keepsPackets_iff

/-- Without a descriptor or without bytes nothing is sent and nothing is accounted for. -/
theorem writeAccounts_of_nothing (h : fd < 0 ∨ size ≤ 0) (errno : Errno)
    (outcomes : List Outcome) : WriteAccounts fd size errno outcomes := by
  refine ⟨0, Nat.zero_le _, ?_⟩
  rw [commTcpWrite]
  split_ifs with hfd
  · refine ⟨rfl, fun r hr hnonneg => ?_⟩
    obtain rfl := Option.some.inj hr
    exact absurd hnonneg (by simp)
  · have hsize := h.resolve_left hfd
    rw [run_of_nonpos hsize]
    refine ⟨rfl, fun r hr _ => ?_⟩
    obtain rfl := Option.some.inj hr
    exact Int.sub_self size

theorem packetAccounts_of_nothing (h : fd < 0 ∨ size ≤ 0) (maxMtu : ℕ) (errno : Errno)
    (outcomes : List Outcome) : PacketAccounts fd size maxMtu errno outcomes := by
  have hloop : packetLoop fd maxMtu 0 size errno outcomes = ([], some 0) := by
    rcases Int.lt_or_le 0 size with hpos | hsize
    · have hfd := h.resolve_right (Int.not_le.mpr hpos)
      exact packetLoop_of_nonpos hpos (if_pos hfd) (by simp)
    · rw [packetLoop, if_neg (Int.not_lt.mpr hsize)]
      rfl
  refine ⟨0, Nat.zero_le _, ?_⟩
  rw [commTcpWritePacket, hloop]
  exact ⟨rfl, fun r hr => (Option.some.inj hr).symm⟩

/-- Both calls account for every byte exactly when no timeout comes after an interrupted call
and some of the bytes, and no transfer is given up inside a packet. -/
theorem accounts_iff (hmtu : 0 < maxMtu) :
    WriteAccounts fd size errno outcomes ∧ PacketAccounts fd size maxMtu errno outcomes ↔
      fd < 0 ∨ KeepsWrite size.toNat errno outcomes ∧
        KeepsPackets maxMtu size.toNat errno outcomes := by
  by_cases hfd : fd < 0
  · exact iff_of_true ⟨writeAccounts_of_nothing (Or.inl hfd) errno outcomes,
      packetAccounts_of_nothing (Or.inl hfd) maxMtu errno outcomes⟩ (Or.inl hfd)
  rw [or_iff_right hfd]
  rcases Int.lt_or_le 0 size with hpos | hsize
  · obtain ⟨len, rfl⟩ := Int.eq_ofNat_of_zero_le (Int.le_of_lt hpos)
    exact and_congr (writeAccounts_iff hfd (Int.natCast_pos.mp hpos) errno outcomes)
      (packetAccounts_iff hfd hmtu len errno outcomes)
  · have hnever {m : ℕ} {c : Progress} {o : Outcome} :
        ¬ GivesUp m size.toNat (.start errno) outcomes c o :=
      not_givesUp_of_le (by rw [Int.toNat_of_nonpos hsize]; exact Nat.zero_le _)
    exact iff_of_true ⟨writeAccounts_of_nothing (Or.inr hsize) errno outcomes,
      packetAccounts_of_nothing (Or.inr hsize) maxMtu errno outcomes⟩
      ⟨fun c hup => absurd hup hnever, fun c o hup => absurd hup hnever⟩

/-- A packet is sent and the second one is refused. -/
theorem accounts_iff_two :
    WriteAccounts 3 4 .other [.sent 2, .sendFailed .other] ∧
        PacketAccounts 3 4 2 .other [.sent 2, .sendFailed .other] ↔
      (3 : ℤ) < 0 ∨ KeepsWrite (4 : ℤ).toNat .other [.sent 2, .sendFailed .other] ∧
        KeepsPackets 2 (4 : ℤ).toNat .other [.sent 2, .sendFailed .other] :=
  accounts_iff (by decide)

/-- One of two bytes is sent, the next call has to wait, and then there is a timeout: the
return value is zero. -/
theorem not_accounts_timeout : ¬ ∀ (fd size : ℤ) (maxMtu : ℕ) (errno : Errno)
    (outcomes : List Outcome), 0 < maxMtu →
      WriteAccounts fd size errno outcomes ∧ PacketAccounts fd size maxMtu errno outcomes := by
  intro hall
  obtain ⟨⟨k, -, htaken, hret⟩, -⟩ :=
    hall 3 2 1400 .other [.sent 1, .sendFailed .eagain, .timeout] (by decide)
  have hk : [0] = List.range k := htaken
  have hzero : (0 : ℤ) = k := hret ⟨0, .eagain, []⟩ rfl (Int.le_refl 0)
  obtain rfl : k = 0 := by omega
  cases hk

end H264Cast.TcpWrite
