import H264Cast.Library.While
import H264Cast.Socket.UdpWrite

/-! # Writing a buffer in datagrams

The buffer is handed over piece by piece, and the loop goes on by what each call returned. A
call of `comm_udp_write` returns the last sixteen bits of the length of its piece with their
sign: zero keeps the loop where it is for ever, and a negative number ends it although the
datagram was sent.
-/

namespace H264Cast.UdpWrite

/-- The variables of the loop, with the number of calls made and the datagrams sent by them,
each given by the offsets of its bytes. -/
structure PacketLoop where
  buf : ℤ
  size : ℤ
  calls : ℕ
  datagrams : List (List ℤ)

/-- The length of the next piece. -/
def PacketLoop.sendlen (maxMtu : ℕ) (c : PacketLoop) : ℕ :=
  if c.size > maxMtu then maxMtu else c.size.toNat

/-- A round of the loop. What `sendto` does is given for every call of `comm_udp_write`. -/
def PacketLoop.next (maxMtu : ℕ) (sendto : ℕ → List Outcome) (c : PacketLoop) :
    Option (PacketLoop ⊕ ℤ × List (List ℤ)) :=
  if 0 < c.size then
    let r := commUdpWrite (c.sendlen maxMtu) (sendto c.calls)
    let datagrams := c.datagrams ++ r.1.map fun call => call.taken.map (c.buf + ·)
    r.2.map fun sendlen =>
      if sendlen < 0 then .inr (c.buf, datagrams)
      else .inl ⟨c.buf + sendlen, c.size - sendlen, c.calls + 1, datagrams⟩
  else some (.inr (c.buf, c.datagrams))

/-- The call returns a number after sending some datagrams. -/
def CommUdpWritePacket (size maxMtu : ℕ) (sendto : ℕ → List Outcome) :
    ℤ × List (List ℤ) → Prop :=
  While.Ends (PacketLoop.next maxMtu sendto) ⟨0, size, 0, []⟩

/-- Every datagram is taken whole. No piece handed to `sendto` has as many bytes. -/
def acceptAll (_ : ℕ) : List Outcome := [.sent (2 ^ 16)]

/-- The buffer is cut into datagrams. -/
def Segments (size maxMtu : ℕ) : Prop :=
  ∃ datagrams, CommUdpWritePacket size maxMtu acceptAll (size, datagrams) ∧
    (∀ datagram ∈ datagrams, 1 ≤ datagram.length ∧ datagram.length ≤ maxMtu) ∧
      datagrams.flatten = front size

variable {c c' : PacketLoop} {size maxMtu len i : ℕ} {sendto : ℕ → List Outcome}

/-- A call does not end in two ways. -/
theorem CommUdpWritePacket.unique {r r' : ℤ × List (List ℤ)}
    (h : CommUdpWritePacket size maxMtu sendto r) (h' : CommUdpWritePacket size maxMtu sendto r') :
    r = r' :=
  While.Ends.unique h h'

/-! ## One call -/

theorem result_acceptAll (hlen : len < 2 ^ 16) : (Outcome.sent (2 ^ 16)).result len = len := by
  rw [Outcome.result, Nat.min_eq_right (by omega)]

theorem run_acceptAll {loop : Loop} (hr : loop.remain ≠ 0) (i : ℕ) :
    loop.run (acceptAll i) = ([⟨loop, .sent (2 ^ 16), loop.next loop.remain.toNat⟩],
      some (loop.next loop.remain.toNat).slen.toInt) := by
  have hmin : min (2 ^ 16 + 1) loop.remain.toNat = loop.remain.toNat := by
    have := loop.remain.isLt
    omega
  have hend : (loop.next loop.remain.toNat).remain = 0 := by
    apply BitVec.eq_of_toNat_eq
    rw [toNat_remain_next (Nat.le_refl _), Nat.sub_self]
    rfl
  rw [acceptAll, run_sent hr, hmin, run_of_eq_zero hend]

/-- One datagram with the last sixteen bits of the length. -/
theorem commUdpWrite_acceptAll (hlen : len % 2 ^ 16 ≠ 0) (i : ℕ) :
    ∃ call : SendCall, commUdpWrite len (acceptAll i) = ([call], some (BitVec.ofNat 16 len).toInt) ∧
      call.taken = front (len % 2 ^ 16) := by
  have hto : (BitVec.ofNat 16 len).toNat = len % 2 ^ 16 := toNat_start len
  have hr : BitVec.ofNat 16 len ≠ 0 := by
    intro hz
    exact hlen (hto.symm.trans (congrArg BitVec.toNat hz))
  have hsent := (sent_start len).next (Nat.le_refl _)
  have hslen : BitVec.ofNat 16 (0 + len % 2 ^ 16) = BitVec.ofNat 16 len := by
    apply BitVec.eq_of_toNat_eq
    rw [Nat.zero_add, BitVec.toNat_ofNat, BitVec.toNat_ofNat, Nat.mod_mod]
  have hrun : commUdpWrite len (acceptAll i) = _ := run_acceptAll hr i
  rw [hsent.slen_eq, hto, hslen] at hrun
  refine ⟨_, hrun, ?_⟩
  simp only [SendCall.taken, hto, result_acceptAll (Nat.mod_lt len (by decide : 0 < 2 ^ 16)),
    Int.toNat_natCast, front, Int.zero_add]

theorem commUdpWrite_of_mod_eq_zero (hlen : len % 2 ^ 16 = 0) (outcomes : List Outcome) :
    commUdpWrite len outcomes = ([], some 0) := by
  have hr : BitVec.ofNat 16 len = 0 := BitVec.eq_of_toNat_eq ((toNat_start len).trans hlen)
  exact run_of_eq_zero hr outcomes

/-! ## One round -/

theorem next_of_size_le (h : c.size ≤ 0) :
    PacketLoop.next maxMtu sendto c = some (.inr (c.buf, c.datagrams)) :=
  if_neg (Int.not_lt.mpr h)

/-- The loop stays where it is. -/
theorem next_of_mod_eq_zero (h : 0 < c.size) (hlen : c.sendlen maxMtu % 2 ^ 16 = 0) :
    PacketLoop.next maxMtu sendto c = some (.inl { c with calls := c.calls + 1 }) := by
  rw [PacketLoop.next, if_pos h, commUdpWrite_of_mod_eq_zero hlen]
  simp

/-- A datagram is sent, and the loop goes on by what its length is as a `short`. -/
theorem next_acceptAll (h : 0 < c.size) (hlen : c.sendlen maxMtu % 2 ^ 16 ≠ 0) :
    PacketLoop.next maxMtu acceptAll c =
      let n := c.sendlen maxMtu % 2 ^ 16
      let datagrams := c.datagrams ++ [(front n).map (c.buf + ·)]
      if n < 2 ^ 15 then some (.inl ⟨c.buf + n, c.size - n, c.calls + 1, datagrams⟩)
      else some (.inr (c.buf, datagrams)) := by
  obtain ⟨call, hcall, htaken⟩ := commUdpWrite_acceptAll hlen c.calls
  have hint := BitVec.toInt_eq_toNat_cond (BitVec.ofNat 16 (c.sendlen maxMtu))
  rw [toNat_start] at hint
  have hlt := Nat.mod_lt (c.sendlen maxMtu) (by decide : 0 < 2 ^ 16)
  rw [PacketLoop.next, if_pos h, hcall]
  simp only [List.map_cons, List.map_nil, htaken, Option.map_some]
  by_cases hsmall : c.sendlen maxMtu % 2 ^ 16 < 2 ^ 15
  · rw [if_pos (by omega)] at hint
    rw [if_neg (by omega), if_pos hsmall, hint]
  · rw [if_neg (by omega)] at hint
    rw [if_pos (by omega), if_neg hsmall]

/-! ## All rounds -/

/-- The first `k` bytes are sent, in datagrams that are not empty and not too long. -/
structure PacketLoop.Sent (size maxMtu k : ℕ) (c : PacketLoop) : Prop where
  buf_eq : c.buf = k
  size_eq : c.size + k = size
  flatten_eq : c.datagrams.flatten = front k
  lengths : ∀ datagram ∈ c.datagrams, 1 ≤ datagram.length ∧ datagram.length ≤ maxMtu

theorem PacketLoop.Sent.next {k : ℕ} (h : c.Sent size maxMtu k) (hsize : 0 < c.size)
    (hmtu : 0 < maxMtu) (hlen : c.sendlen maxMtu < 2 ^ 15) :
    ∃ c' k', PacketLoop.next maxMtu acceptAll c = some (.inl c') ∧ c'.Sent size maxMtu k' ∧
      0 ≤ c'.size ∧ c'.size < c.size := by
  have hbounds : 0 < c.sendlen maxMtu ∧ c.sendlen maxMtu ≤ maxMtu ∧
      (c.sendlen maxMtu : ℤ) ≤ c.size := by
    unfold PacketLoop.sendlen
    split_ifs <;> omega
  obtain ⟨hpos, hle, hrest⟩ := hbounds
  have hmod : c.sendlen maxMtu % 2 ^ 16 = c.sendlen maxMtu := Nat.mod_eq_of_lt (by omega)
  have hnext := next_acceptAll hsize (by omega : c.sendlen maxMtu % 2 ^ 16 ≠ 0)
  simp only [hmod, if_pos hlen] at hnext
  refine ⟨_, k + c.sendlen maxMtu, hnext, ⟨?_, ?_, ?_, ?_⟩, Int.sub_nonneg_of_le hrest,
    Int.sub_lt_self _ (Int.natCast_pos.mpr hpos)⟩
  · simp only [h.buf_eq, Nat.cast_add]
  · rw [← h.size_eq, Nat.cast_add]
    simp only
    omega
  · rw [List.flatten_append, h.flatten_eq, h.buf_eq, List.flatten_singleton, ← front_add]
    simp only [front, List.map_map, Function.comp_def]
  · intro datagram hd
    rcases List.mem_append.mp hd with hd | hd
    · exact h.lengths datagram hd
    · rw [List.mem_singleton.mp hd, List.length_map, front, List.length_map, List.length_range]
      exact ⟨hpos, hle⟩

theorem PacketLoop.sent_zero (size maxMtu : ℕ) :
    PacketLoop.Sent size maxMtu 0 ⟨0, size, 0, []⟩ where
  buf_eq := rfl
  size_eq := Int.add_zero _
  flatten_eq := rfl
  lengths _ hd := absurd hd List.not_mem_nil

/-- Pieces whose lengths are positive as a `short` are sent one after another. -/
theorem segments_of_lt (hmtu : 0 < maxMtu) (h : size < 2 ^ 15 ∨ maxMtu < 2 ^ 15) :
    Segments size maxMtu := by
  let P (c : PacketLoop) : Prop := 0 ≤ c.size ∧ ∃ k, c.Sent size maxMtu k
  let Q (r : ℤ × List (List ℤ)) : Prop :=
    r.1 = size ∧ (∀ datagram ∈ r.2, 1 ≤ datagram.length ∧ datagram.length ≤ maxMtu) ∧
      r.2.flatten = front size
  have hstart : P ⟨0, size, 0, []⟩ := ⟨Int.natCast_nonneg size, 0, PacketLoop.sent_zero _ _⟩
  have hbody : ∀ c, P c → (∃ r, PacketLoop.next maxMtu acceptAll c = some (.inr r) ∧ Q r) ∨
      ∃ c', PacketLoop.next maxMtu acceptAll c = some (.inl c') ∧ P c' ∧
        c'.size.toNat < c.size.toNat := by
    rintro c ⟨hnonneg, k, hc⟩
    have hsum := hc.size_eq
    rcases Int.lt_or_le 0 c.size with hsize | hsize
    · have hlen : c.sendlen maxMtu < 2 ^ 15 := by
        unfold PacketLoop.sendlen
        split_ifs <;> omega
      obtain ⟨c', k', hnext, hc', hnonneg', hlt⟩ := hc.next hsize hmtu hlen
      exact Or.inr ⟨c', hnext, ⟨hnonneg', k', hc'⟩, by omega⟩
    · obtain rfl : k = size := by omega
      exact Or.inl ⟨_, next_of_size_le hsize, hc.buf_eq, hc.lengths, hc.flatten_eq⟩
  obtain ⟨⟨ret, datagrams⟩, hends, rfl, hlengths, hflatten⟩ :=
    While.exists_ends (fun c : PacketLoop => c.size.toNat) hstart hbody
  exact ⟨datagrams, hends, hlengths, hflatten⟩

/-- Of a long buffer in long pieces, the loop never has less than 32768 bytes left: it stays
where it is, or goes on by fewer bytes than are behind the last 32768, or ends too early. -/
theorem next_of_le (hsize : 2 ^ 15 ≤ c.size) (hmtu : 2 ^ 15 ≤ maxMtu) :
    (∃ c', PacketLoop.next maxMtu acceptAll c = some (.inl c') ∧ 2 ^ 15 ≤ c'.size ∧
        c'.buf + c'.size = c.buf + c.size) ∨
      ∃ datagrams, PacketLoop.next maxMtu acceptAll c = some (.inr (c.buf, datagrams)) := by
  have hpos : 0 < c.size := by omega
  have hbounds : 2 ^ 15 ≤ c.sendlen maxMtu ∧ (c.sendlen maxMtu : ℤ) ≤ c.size := by
    unfold PacketLoop.sendlen
    split_ifs <;> omega
  obtain ⟨hlong, hrest⟩ := hbounds
  by_cases hmod : c.sendlen maxMtu % 2 ^ 16 = 0
  · exact Or.inl ⟨_, next_of_mod_eq_zero hpos hmod, hsize, rfl⟩
  · have hnext := next_acceptAll hpos hmod
    by_cases hsmall : c.sendlen maxMtu % 2 ^ 16 < 2 ^ 15
    · simp only [if_pos hsmall] at hnext
      refine Or.inl ⟨_, hnext, ?_, ?_⟩
      · simp only
        omega
      · simp only
        omega
    · simp only [if_neg hsmall] at hnext
      exact Or.inr ⟨_, hnext⟩

/-- A call that ends returns less than the size. -/
theorem not_segments_of_le (hsize : 2 ^ 15 ≤ size) (hmtu : 2 ^ 15 ≤ maxMtu) :
    ¬ Segments size maxMtu := by
  rintro ⟨datagrams, hends, -, -⟩
  let P (c : PacketLoop) : Prop := 2 ^ 15 ≤ c.size ∧ c.buf + c.size = size
  let Q (r : ℤ × List (List ℤ)) : Prop := r.1 < size
  have hstart : P ⟨0, size, 0, []⟩ := ⟨by simp only; omega, Int.zero_add _⟩
  have hret : Q (size, datagrams) := by
    refine hends.invariant hstart ?_ ?_
    · rintro c c' ⟨hc, hsum⟩ hnext
      rcases next_of_le hc hmtu with ⟨c₁, hnext₁, hc₁, hsum₁⟩ | ⟨datagrams, hnext₁⟩
      · obtain rfl := Sum.inl.inj (Option.some.inj (hnext₁.symm.trans hnext))
        exact ⟨hc₁, hsum₁.trans hsum⟩
      · cases hnext₁.symm.trans hnext
    · rintro c r ⟨hc, hsum⟩ hnext
      rcases next_of_le hc hmtu with ⟨c₁, hnext₁, -⟩ | ⟨datagrams, hnext₁⟩
      · cases hnext₁.symm.trans hnext
      · obtain rfl := Sum.inr.inj (Option.some.inj (hnext₁.symm.trans hnext))
        change c.buf < size
        omega
  exact lt_irrefl _ hret

/-- A buffer is cut into datagrams exactly when it or every datagram is shorter than 32768
bytes. -/
theorem segments_iff (hmtu : 0 < maxMtu) :
    Segments size maxMtu ↔ size < 2 ^ 15 ∨ maxMtu < 2 ^ 15 := by
  constructor
  · intro h
    by_contra hlong
    obtain ⟨hsize, hlen⟩ := not_or.mp hlong
    exact not_segments_of_le (Nat.le_of_not_lt hsize) (Nat.le_of_not_lt hlen) h
  · exact segments_of_lt hmtu

/-- Five thousand bytes in datagrams of 1400. -/
theorem segments_iff_mtu : Segments 5000 1400 ↔ 5000 < 2 ^ 15 ∨ 1400 < 2 ^ 15 :=
  segments_iff (by decide)

/-- One datagram of 40000 bytes: it is sent, and the call does not return 40000. -/
theorem not_segments_long : ¬ ∀ size maxMtu : ℕ, 0 < maxMtu → Segments size maxMtu := fun hall =>
  not_segments_of_le (by decide) (by decide) (hall 40000 40000 (by decide))

end H264Cast.UdpWrite
