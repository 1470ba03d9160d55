import H264Cast.Library.Messages
import H264Cast.Socket.TcpRead
import H264Cast.Socket.UdpPacket
import Mathlib.Data.List.TakeWhile

/-! # Reading from a UDP socket

A read waits for a datagram for as long as it takes, and stores as much of it as was asked
for. The loop around it takes datagrams until it has the bytes. What the last datagram has
behind them is lost, so that a buffer sent in datagrams is read back in several calls exactly
when each of them stops between two datagrams.
-/

namespace H264Cast.UdpRead

open Messages

/-- The outcome of a round: what `select` says, and if the socket is ready what `recvfrom`
does. -/
inductive Outcome
  | datagram (d : List Byte)
  | recvFailed (e : Errno)
  | selectFailed
  | timeout

/-- The buffer and the outcomes. -/
structure Conn where
  buf : Memory Byte
  outcomes : List Outcome

/-- The loop of a read to a place in the buffer. There is no result when the outcomes are used
up. -/
def readLoop (p size : ℕ) (buf : Memory Byte) : List Outcome → Option (ℤ × Conn)
  | [] => none
  | .datagram d :: os => some ((d.take size).length, ⟨buf.write p (d.take size), os⟩)
  | .recvFailed e :: os => if e.Transient then readLoop p size buf os else some (-1, ⟨buf, os⟩)
  | .selectFailed :: os => some (-1, ⟨buf, os⟩)
  | .timeout :: os => readLoop p size buf os

def commUdpSocketRead (p size : ℕ) (c : Conn) : Option (ℤ × Conn) :=
  readLoop p size c.buf c.outcomes

theorem length_lt_of_readLoop {p size : ℕ} {buf : Memory Byte} {os : List Outcome} {len : ℤ}
    {c : Conn} (h : readLoop p size buf os = some (len, c)) : c.outcomes.length < os.length := by
  induction os with
  | nil => cases h
  | cons o os ih =>
    cases o with
    | datagram d =>
      obtain ⟨-, rfl⟩ := Prod.mk.inj (Option.some.inj h)
      exact Nat.lt_succ_self _
    | recvFailed e =>
      rw [readLoop] at h
      split_ifs at h
      · exact Nat.lt_succ_of_lt (ih h)
      · obtain ⟨-, rfl⟩ := Prod.mk.inj (Option.some.inj h)
        exact Nat.lt_succ_self _
    | selectFailed =>
      obtain ⟨-, rfl⟩ := Prod.mk.inj (Option.some.inj h)
      exact Nat.lt_succ_self _
    | timeout => exact Nat.lt_succ_of_lt (ih h)

/-- The loop around the read, for a buffer at `p`. An empty datagram does not end it. -/
def exReadLoop (p : ℕ) (size1 size : ℤ) (c : Conn) : Option (ℤ × Conn) :=
  if 0 < size then
    match _h : commUdpSocketRead (p + size1.toNat) size.toNat c with
    | none => none
    | some (len, c') =>
      if len < 0 then some (size1, c') else exReadLoop p (size1 + len) (size - len) c'
  else some (size1, c)
termination_by c.outcomes.length
decreasing_by exact length_lt_of_readLoop _h

def commUdpSocketReadEx (p : ℕ) (size : ℤ) (c : Conn) : Option (ℤ × Conn) :=
  exReadLoop p 0 size c

/-- The outcome ends the loops. -/
def Outcome.Ending : Outcome → Prop
  | datagram _ => False
  | recvFailed e => ¬ e.Transient
  | selectFailed => True
  | timeout => False

instance : DecidablePred Outcome.Ending
  | .datagram _ => inferInstanceAs (Decidable False)
  | .recvFailed e => inferInstanceAs (Decidable (¬ e.Transient))
  | .selectFailed => inferInstanceAs (Decidable True)
  | .timeout => inferInstanceAs (Decidable False)

/-- The datagram that arrives, if one does. -/
def Outcome.arrival : Outcome → Option (List Byte)
  | datagram d => some d
  | _ => none

/-- The datagrams that arrive. -/
def arrived (os : List Outcome) : List (List Byte) := os.filterMap Outcome.arrival

variable {p size size1 : ℕ} {buf : Memory Byte} {d bs : List Byte} {o : Outcome}
  {os back : List Outcome} {c c' : Conn} {ds : List (List Byte)}

/-! ## One call -/

theorem exReadLoop_zero (p size1 : ℕ) (c : Conn) :
    exReadLoop p size1 (0 : ℕ) c = some ((size1 : ℤ), c) := by
  rw [exReadLoop]
  rfl

/-- The loop goes on by what a read returns. -/
theorem exReadLoop_of_pos {s1 s : ℤ} (hs : 0 < s) (p : ℕ) (c : Conn) :
    exReadLoop p s1 s c = (commUdpSocketRead (p + s1.toNat) s.toNat c).bind fun r =>
      if r.1 < 0 then some (s1, r.2) else exReadLoop p (s1 + r.1) (s - r.1) r.2 := by
  rw [exReadLoop, if_pos hs]
  split
  next h =>
    rw [h]
    rfl
  next h =>
    rw [h]
    rfl

theorem exReadLoop_nil (hsize : size ≠ 0) : exReadLoop p size1 size ⟨buf, []⟩ = none := by
  rw [exReadLoop_of_pos (by omega)]
  rfl

theorem exReadLoop_datagram (hsize : size ≠ 0) :
    exReadLoop p size1 size ⟨buf, .datagram d :: os⟩ =
      exReadLoop p (size1 + (d.take size).length : ℕ) (size - d.length : ℕ)
        ⟨buf.write (p + size1) (d.take size), os⟩ := by
  have hlen : (size : ℤ) - (d.take size).length = (size - d.length : ℕ) := by
    rw [List.length_take]
    omega
  rw [exReadLoop_of_pos (by omega), Int.toNat_natCast, Int.toNat_natCast, commUdpSocketRead,
    readLoop, Option.bind_some, if_neg (by omega), hlen, Nat.cast_add]

/-- A round in which nothing arrives. -/
theorem exReadLoop_idle (hsize : size ≠ 0) (ho : ¬ o.Ending) (harrival : o.arrival = none) :
    exReadLoop p size1 size ⟨buf, o :: os⟩ = exReadLoop p size1 size ⟨buf, os⟩ := by
  rw [exReadLoop_of_pos (by omega), exReadLoop_of_pos (by omega)]
  congr 1
  cases o with
  | datagram d => cases harrival
  | recvFailed e => exact if_pos (Decidable.not_not.mp ho)
  | selectFailed => exact absurd trivial ho
  | timeout => rfl

/-- An error ends the call with the bytes it has so far. -/
theorem exReadLoop_ending (hsize : size ≠ 0) (ho : o.Ending) :
    exReadLoop p size1 size ⟨buf, o :: os⟩ = some ((size1 : ℤ), ⟨buf, os⟩) := by
  have hread : commUdpSocketRead (p + (size1 : ℤ).toNat) (size : ℤ).toNat ⟨buf, o :: os⟩ =
      some (-1, ⟨buf, os⟩) := by
    cases o with
    | datagram d => exact ho.elim
    | recvFailed e => exact if_neg ho
    | selectFailed => rfl
    | timeout => exact ho.elim
  rw [exReadLoop_of_pos (by omega), hread]
  rfl

theorem arrived_cons (o : Outcome) (os : List Outcome) :
    arrived (o :: os) = o.arrival.toList ++ arrived os := by
  cases o <;> rfl

theorem eq_datagram (h : o.arrival = some d) : o = .datagram d := by
  cases o <;> cases h
  rfl

/-- The loops take datagrams until they have the bytes. -/
theorem exReadLoop_collect (p size1 : ℕ) (buf : Memory Byte) (back : List Outcome)
    (hos : ∀ o ∈ os, ¬ o.Ending) (h : collect size (arrived os) = some (bs, ds)) :
    ∃ os', exReadLoop p size1 size ⟨buf, os ++ back⟩ =
        some (((size1 + size : ℕ) : ℤ), ⟨buf.write (p + size1) bs, os' ++ back⟩) ∧
      arrived os' = ds ∧ ∀ o ∈ os', ¬ o.Ending := by
  induction os generalizing size size1 buf bs with
  | nil =>
    cases size with
    | zero =>
      obtain ⟨rfl, rfl⟩ := Prod.mk.inj (Option.some.inj h)
      exact ⟨[], by rw [exReadLoop_zero, Memory.write_nil, Nat.add_zero], rfl, hos⟩
    | succ size => cases h
  | cons o os ih =>
    cases size with
    | zero =>
      rw [collect_zero] at h
      obtain ⟨rfl, rfl⟩ := Prod.mk.inj (Option.some.inj h)
      exact ⟨o :: os, by rw [exReadLoop_zero, Memory.write_nil, Nat.add_zero], rfl, hos⟩
    | succ size =>
      rw [List.forall_mem_cons] at hos
      rw [arrived_cons] at h
      cases harrival : o.arrival with
      | none =>
        rw [harrival] at h
        rw [List.cons_append, exReadLoop_idle (Nat.succ_ne_zero _) hos.1 harrival]
        exact ih _ _ hos.2 h
      | some d =>
        obtain rfl := eq_datagram harrival
        obtain ⟨⟨bs', ds'⟩, hcollect, heq⟩ := Option.map_eq_some_iff.mp h
        obtain ⟨rfl, rfl⟩ := Prod.mk.inj heq
        obtain ⟨os', hloop, harrived, hos'⟩ := ih _ _ hos.2 hcollect
        refine ⟨os', ?_, harrived, hos'⟩
        have hsum : (d.take (size + 1)).length + (size + 1 - d.length) = size + 1 := by
          rw [List.length_take]
          omega
        rw [List.cons_append, exReadLoop_datagram (Nat.succ_ne_zero _), hloop,
          ← Nat.add_assoc p, Memory.write_write, Nat.add_assoc size1, hsum]

/-- When there are too few bytes they are stored, and the loop goes on. -/
theorem exReadLoop_of_lt (p size1 : ℕ) (buf : Memory Byte) (back : List Outcome)
    (hos : ∀ o ∈ os, ¬ o.Ending) (hlt : (arrived os).flatten.length < size) :
    exReadLoop p size1 size ⟨buf, os ++ back⟩ =
      exReadLoop p (size1 + (arrived os).flatten.length : ℕ)
        (size - (arrived os).flatten.length : ℕ)
        ⟨buf.write (p + size1) (arrived os).flatten, back⟩ := by
  induction os generalizing size size1 buf with
  | nil => exact congrArg _ (congrArg (Conn.mk · back) (Memory.write_nil _ _).symm)
  | cons o os ih =>
    have hsize : size ≠ 0 := Nat.ne_zero_of_lt hlt
    rw [List.forall_mem_cons] at hos
    rw [arrived_cons] at hlt ⊢
    cases harrival : o.arrival with
    | none =>
      rw [harrival] at hlt
      rw [List.cons_append, exReadLoop_idle hsize hos.1 harrival]
      exact ih _ _ hos.2 hlt
    | some d =>
      obtain rfl := eq_datagram harrival
      rw [harrival, Option.toList_some, List.singleton_append, List.flatten_cons,
        List.length_append] at hlt
      rw [Option.toList_some, List.singleton_append, List.flatten_cons, List.length_append,
        List.cons_append, exReadLoop_datagram hsize, ih _ _ hos.2 (by omega),
        List.take_of_length_le (by omega), ← Nat.add_assoc p, Memory.write_write,
        Nat.add_assoc, Nat.sub_sub]

/-- The bytes that arrive before an error. -/
def received (os : List Outcome) : List Byte :=
  (arrived (os.takeWhile fun o => ¬ o.Ending)).flatten

theorem not_ending_of_mem_takeWhile (ho : o ∈ os.takeWhile fun o => ¬ o.Ending) : ¬ o.Ending := by
  simpa using List.mem_takeWhile_imp ho

theorem commUdpSocketReadEx_eq_append (p size : ℕ) (buf : Memory Byte) (os : List Outcome) :
    commUdpSocketReadEx p size ⟨buf, os⟩ = exReadLoop p (0 : ℕ) size
      ⟨buf, os.takeWhile (fun o => ¬ o.Ending) ++ os.dropWhile fun o => ¬ o.Ending⟩ := by
  rw [List.takeWhile_append_dropWhile]
  rfl

/-- A call with enough bytes. -/
theorem commUdpSocketReadEx_of_le (p : ℕ) (buf : Memory Byte)
    (hle : size ≤ (received os).length) :
    ∃ os', commUdpSocketReadEx p size ⟨buf, os⟩ =
      some ((size : ℤ), ⟨buf.write p ((received os).take size), os'⟩) := by
  obtain ⟨⟨bs, ds⟩, hcollect⟩ := Option.isSome_iff_exists.mp (collect_isSome.mpr hle)
  obtain ⟨os', hloop, -⟩ :=
    exReadLoop_collect p 0 buf (os.dropWhile fun o => ¬ o.Ending)
      (fun o ho => not_ending_of_mem_takeWhile ho) hcollect
  obtain ⟨taken, happend, rfl, hlen, -⟩ := exists_of_collect hcollect
  refine ⟨os' ++ os.dropWhile fun o => ¬ o.Ending, ?_⟩
  rw [commUdpSocketReadEx_eq_append, hloop, received, happend, List.flatten_append,
    List.take_append_of_le_length hlen, Nat.zero_add, Nat.add_zero]

/-- A call without enough bytes waits for an error. -/
theorem commUdpSocketReadEx_of_lt (p : ℕ) (buf : Memory Byte)
    (hlt : (received os).length < size) :
    commUdpSocketReadEx p size ⟨buf, os⟩ =
      exReadLoop p (received os).length (size - (received os).length : ℕ)
        ⟨buf.write p (received os), os.dropWhile fun o => ¬ o.Ending⟩ := by
  rw [commUdpSocketReadEx_eq_append,
    exReadLoop_of_lt _ _ _ _ (fun o ho => not_ending_of_mem_takeWhile ho) hlt, Nat.zero_add,
    Nat.add_zero]
  rfl

/-- What a call does, whatever the outcomes are. A call without enough bytes and without an
error has no end. -/
theorem commUdpSocketReadEx_eq (p size : ℕ) (buf : Memory Byte) (os : List Outcome) :
    (commUdpSocketReadEx p size ⟨buf, os⟩).map (fun r => (r.1, r.2.buf)) =
      if size ≤ (received os).length ∨ ∃ o ∈ os, o.Ending then
        some (((min size (received os).length : ℕ) : ℤ), buf.write p ((received os).take size))
      else none := by
  rcases Nat.lt_or_ge (received os).length size with hlt | hle
  · have hrest : size - (received os).length ≠ 0 := Nat.sub_ne_zero_of_lt hlt
    rw [commUdpSocketReadEx_of_lt p buf hlt, Nat.min_eq_right hlt.le,
      List.take_of_length_le hlt.le]
    cases hback : os.dropWhile fun o => ¬ o.Ending with
    | nil =>
      have hnone : ∀ o ∈ os, ¬ o.Ending := fun o ho => by
        simpa using List.dropWhile_eq_nil_iff.mp hback o ho
      rw [exReadLoop_nil hrest, if_neg]
      · rfl
      · rintro (hle | ⟨o, ho, hend⟩)
        · exact absurd hle (Nat.not_le.mpr hlt)
        · exact hnone o ho hend
    | cons o back =>
      have hhead := List.head?_dropWhile_not (fun o : Outcome => ¬ o.Ending) os
      rw [hback] at hhead
      have ho : o.Ending := by simpa using hhead
      have hmem : o ∈ os :=
        (List.dropWhile_suffix _).subset (hback ▸ List.mem_cons_self)
      rw [exReadLoop_ending hrest ho, if_pos (Or.inr ⟨o, hmem, ho⟩)]
      rfl
  · obtain ⟨os', hcall⟩ := commUdpSocketReadEx_of_le p buf hle
    rw [hcall, if_pos (Or.inl hle), Nat.min_eq_left hle]
    rfl

/-! ## Several calls -/

open UdpWrite

/-- The datagrams sent so far end at the multiples of the greatest length, and where they all
end. -/
structure Cut (size maxMtu k : ℕ) (c : PacketLoop) : Prop extends c.Sent size maxMtu k where
  boundary_iff : ∀ j, Boundary c.datagrams j ↔ j ≤ k ∧ (maxMtu ∣ j ∨ j = k)
  dvd : 0 < c.size → maxMtu ∣ k

variable {maxMtu k : ℕ} {l l' : PacketLoop}

/-- A round sends the next datagram. -/
theorem Cut.next (h : Cut size maxMtu k l) (hsize : 0 < l.size) (hmtu : 0 < maxMtu)
    (hlen : l.sendlen maxMtu < 2 ^ 15)
    (hnext : PacketLoop.next maxMtu acceptAll l = some (.inl l')) :
    0 ≤ l'.size ∧ ∃ k', Cut size maxMtu k' l' := by
  obtain ⟨l₁, k', hnext₁, hsent, hnonneg, -⟩ := h.toSent.next hsize hmtu hlen
  have hbounds : 0 < l.sendlen maxMtu ∧ l.sendlen maxMtu ≤ maxMtu ∧
      (0 < l.size - l.sendlen maxMtu → l.sendlen maxMtu = maxMtu) := by
    unfold PacketLoop.sendlen
    split_ifs <;> omega
  obtain ⟨hpos, hle, hfull⟩ := hbounds
  have hmod : l.sendlen maxMtu % 2 ^ 16 = l.sendlen maxMtu := Nat.mod_eq_of_lt (by omega)
  have hround := next_acceptAll hsize (by omega : l.sendlen maxMtu % 2 ^ 16 ≠ 0)
  simp only [hmod, if_pos hlen] at hround
  obtain rfl := Sum.inl.inj (Option.some.inj (hnext₁.symm.trans hnext))
  obtain rfl := Sum.inl.inj (Option.some.inj (hnext.symm.trans hround))
  obtain rfl : k' = k + l.sendlen maxMtu := by
    have hk := h.buf_eq
    have hk' := hsent.buf_eq
    simp only at hk'
    omega
  have hk := h.dvd hsize
  refine ⟨hnonneg, _, hsent, fun j => ?_, fun hrest => ?_⟩
  · rw [boundary_concat, h.boundary_iff, hsent.flatten_eq, front, List.length_map,
      List.length_range]
    constructor
    · rintro (⟨hj, hdvd⟩ | rfl)
      · exact ⟨by omega, Or.inl (hdvd.elim id fun hj => hj ▸ hk)⟩
      · exact ⟨Nat.le_refl _, Or.inr rfl⟩
    · rintro ⟨hj, hdvd | rfl⟩
      · rcases Nat.lt_or_ge k j with hlt | hge
        · have hstep := Nat.le_of_dvd (Nat.sub_pos_of_lt hlt) (Nat.dvd_sub hdvd hk)
          exact Or.inr (by omega)
        · exact Or.inl ⟨hge, Or.inl hdvd⟩
      · exact Or.inr rfl
  · rw [hfull hrest]
    exact (Nat.dvd_add_right hk).mpr (Nat.dvd_refl _)

end H264Cast.UdpRead
