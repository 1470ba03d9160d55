import H264Cast.AnnexB.StartCode
import Mathlib.Algebra.BigOperators.Group.List.Basic
import Mathlib.Algebra.Ring.Int.Defs
import Mathlib.Data.BitVec

/-! # Reading from a TCP socket

A read waits until the socket has something, and tries again when it was interrupted. The
loop around it asks for the bytes that are missing until there are none or a read has no more
of them. How many bytes come at a time makes no difference to what is in the buffer.
-/

namespace H264Cast

/-- The number that a failed call leaves in `errno`. -/
inductive Errno
  | eintr
  | eagain
  | other
  deriving DecidableEq

/-- The call may be made again. -/
def Errno.Transient (e : Errno) : Prop := e = eintr ∨ e = eagain

instance : DecidablePred Errno.Transient := fun _ => inferInstanceAs (Decidable (_ ∨ _))

namespace TcpRead

/-- The outcome of a round: what `select` says, and if the socket is ready what `recv` does. -/
inductive Outcome
  | data (n : ℕ)
  | eof
  | recvFailed (e : Errno)
  | selectFailed (e : Errno)
  | timeout

/-- The buffer, the bytes that are to come from the peer, and the outcomes. -/
structure Conn where
  buf : Memory Byte
  stream : Memory Byte
  outcomes : List Outcome

/-- The loop of a read to a place in the buffer. Of a range `recv` stores at least one byte,
and at most all of them. There is no result when the outcomes are used up. -/
def readLoop (p size : ℕ) (buf stream : Memory Byte) : List Outcome → Option (ℤ × Conn)
  | [] => none
  | .data n :: os =>
    let len := min (n + 1) size
    some (len, ⟨buf.write p (stream.read 0 len), stream.shift len, os⟩)
  | .eof :: os => some (0, ⟨buf, stream, os⟩)
  | .recvFailed e :: os =>
    if e.Transient then readLoop p size buf stream os else some (-2, ⟨buf, stream, os⟩)
  | .selectFailed _ :: os => some (-1, ⟨buf, stream, os⟩)
  | .timeout :: os => some (0, ⟨buf, stream, os⟩)

def commTcpRead (fd : ℤ) (p size : ℕ) (c : Conn) : Option (ℤ × Conn) :=
  if fd < 0 then some (-1, c) else readLoop p size c.buf c.stream c.outcomes

def exReadLoop (fd size1 size : ℤ) (c : Conn) : Option (ℤ × Conn) :=
  if 0 < size then
    match commTcpRead fd size1.toNat size.toNat c with
    | none => none
    | some (len, c) =>
      if len ≤ 0 then some (size1, c) else exReadLoop fd (size1 + len) (size - len) c
  else some (size1, c)
termination_by size.toNat

def commTcpExRead (fd size : ℤ) (c : Conn) : Option (ℤ × Conn) := exReadLoop fd 0 size c

/-- The outcome ends the loops. -/
def Outcome.Ending : Outcome → Prop
  | data _ => False
  | recvFailed e => ¬ e.Transient
  | _ => True

instance : DecidablePred Outcome.Ending
  | .data _ => inferInstanceAs (Decidable False)
  | .recvFailed e => inferInstanceAs (Decidable (¬ e.Transient))
  | .eof => inferInstanceAs (Decidable True)
  | .selectFailed _ => inferInstanceAs (Decidable True)
  | .timeout => inferInstanceAs (Decidable True)

/-- The number of bytes that arrive, if as many are asked for. -/
def Outcome.len : Outcome → ℕ
  | data n => n + 1
  | _ => 0

/-- As many bytes as are asked for arrive before an ending outcome. -/
def Completes (size : ℕ) (outcomes : List Outcome) : Prop :=
  ∃ front back, outcomes = front ++ back ∧ (∀ o ∈ front, ¬ o.Ending) ∧
    size ≤ (front.map Outcome.len).sum

/-- The number of bytes received in one sequence of rounds, without the loops around them. -/
def received (size : ℕ) : List Outcome → Option ℕ
  | [] => if size = 0 then some 0 else none
  | o :: os =>
    if size = 0 ∨ o.Ending then some 0
    else (received (size - o.len) os).map (min o.len size + ·)

/-- The first bytes of the stream are put in the buffer, and how many they are does not
depend on how they arrive. -/
structure Reassembles (fd : ℤ) (size : ℕ) (stream buf : Memory Byte) (outcomes : List Outcome) :
    Prop where
  returns : (commTcpExRead fd size ⟨buf, stream, outcomes⟩).isSome ↔
    fd < 0 ∨ Completes size outcomes ∨ ∃ o ∈ outcomes, o.Ending
  stores : ∀ r c, commTcpExRead fd size ⟨buf, stream, outcomes⟩ = some (r, c) →
    ∃ k ≤ size, r = (k : ℤ) ∧ c.buf = buf.write 0 (stream.read 0 k) ∧ c.stream = stream.shift k
  full : 0 ≤ fd → Completes size outcomes → ∀ r c,
    commTcpExRead fd size ⟨buf, stream, outcomes⟩ = some (r, c) → r = size
  same : 0 ≤ fd → Completes size outcomes → ∀ outcomes', Completes size outcomes' → ∀ r c r' c',
    commTcpExRead fd size ⟨buf, stream, outcomes⟩ = some (r, c) →
    commTcpExRead fd size ⟨buf, stream, outcomes'⟩ = some (r', c') → r = r' ∧ c.buf = c'.buf

variable {fd : ℤ} {size size1 k n : ℕ} {buf stream : Memory Byte} {o : Outcome}
  {os outcomes front back : List Outcome} {c c' : Conn}

/-! ## The two loops -/

theorem exReadLoop_zero (fd : ℤ) (size1 : ℕ) (c : Conn) :
    exReadLoop fd size1 (0 : ℕ) c = some ((size1 : ℤ), c) := by
  rw [exReadLoop]
  rfl

@[simp] theorem received_zero (os : List Outcome) : received 0 os = some 0 := by
  cases os with
  | nil => rfl
  | cons o os => exact if_pos (Or.inl rfl)

/-- The loop depends on the first read only by what that returns. -/
theorem exReadLoop_congr {s1 s : ℤ}
    (h : commTcpRead fd s1.toNat s.toNat c = commTcpRead fd s1.toNat s.toNat c') (hs : 0 < s) :
    exReadLoop fd s1 s c = exReadLoop fd s1 s c' := by
  rw [exReadLoop, exReadLoop, if_pos hs, if_pos hs, h]

theorem exReadLoop_of_none {s1 s : ℤ} (hs : 0 < s)
    (h : commTcpRead fd s1.toNat s.toNat c = none) : exReadLoop fd s1 s c = none := by
  rw [exReadLoop, if_pos hs, h]

/-- A read without bytes ends the loop. -/
theorem exReadLoop_of_nonpos {s1 s len : ℤ} (hs : 0 < s)
    (h : commTcpRead fd s1.toNat s.toNat c = some (len, c')) (hlen : len ≤ 0) :
    exReadLoop fd s1 s c = some (s1, c') := by
  rw [exReadLoop, if_pos hs, h]
  exact if_pos hlen

theorem exReadLoop_of_pos {s1 s len : ℤ} (hs : 0 < s)
    (h : commTcpRead fd s1.toNat s.toNat c = some (len, c')) (hlen : 0 < len) :
    exReadLoop fd s1 s c = exReadLoop fd (s1 + len) (s - len) c' := by
  rw [exReadLoop, if_pos hs, h]
  exact if_neg (Int.not_le.mpr hlen)

theorem exReadLoop_data (hfd : ¬ fd < 0) (hsize : size ≠ 0) (n : ℕ) :
    exReadLoop fd size1 size ⟨buf, stream, .data n :: os⟩ =
      exReadLoop fd ((size1 + min (n + 1) size : ℕ) : ℤ) ((size - (n + 1) : ℕ) : ℤ)
        ⟨buf.write size1 (stream.read 0 (min (n + 1) size)), stream.shift (min (n + 1) size),
          os⟩ := by
  have hlen : (size : ℤ) - (min (n + 1) size : ℕ) = (size - (n + 1) : ℕ) := by omega
  rw [Nat.cast_add, ← hlen]
  refine exReadLoop_of_pos (by omega) ?_ (by omega)
  rw [commTcpRead, if_neg hfd]
  simp only [readLoop, Int.toNat_natCast]

theorem exReadLoop_ending (hfd : ¬ fd < 0) (hsize : size ≠ 0) (ho : o.Ending) (size1 : ℕ)
    (buf stream : Memory Byte) (os : List Outcome) :
    ∃ c : Conn, exReadLoop fd size1 size ⟨buf, stream, o :: os⟩ = some ((size1 : ℤ), c) ∧
      c.buf = buf ∧ c.stream = stream := by
  have hs : 0 < (size : ℤ) := by omega
  have hread : ∃ len ≤ 0, commTcpRead fd (size1 : ℤ).toNat (size : ℤ).toNat
      ⟨buf, stream, o :: os⟩ = some (len, ⟨buf, stream, os⟩) := by
    rw [commTcpRead, if_neg hfd]
    cases o with
    | data n => exact ho.elim
    | eof => exact ⟨0, by decide, rfl⟩
    | recvFailed e => exact ⟨-2, by decide, if_neg ho⟩
    | selectFailed e => exact ⟨-1, by decide, rfl⟩
    | timeout => exact ⟨0, by decide, rfl⟩
  obtain ⟨len, hlen, hread⟩ := hread
  exact ⟨_, exReadLoop_of_nonpos hs hread hlen, rfl, rfl⟩

/-- The loops receive what one sequence of rounds receives, and store the first bytes of the
stream. -/
theorem exReadLoop_eq (hfd : ¬ fd < 0) (size1 size : ℕ) (buf stream : Memory Byte)
    (os : List Outcome) :
    (exReadLoop fd size1 size ⟨buf, stream, os⟩).map (fun r => (r.1, r.2.buf, r.2.stream)) =
      (received size os).map fun k : ℕ =>
        (((size1 + k : ℕ) : ℤ), buf.write size1 (stream.read 0 k), stream.shift k) := by
  induction os generalizing size1 size buf stream with
  | nil =>
    rcases Nat.eq_zero_or_pos size with rfl | hsize
    · simp only [exReadLoop_zero, received_zero, Option.map_some, Memory.read_zero,
        Memory.write_nil, Memory.shift_zero, Nat.add_zero]
    · rw [exReadLoop_of_none (by omega) (by rw [commTcpRead, if_neg hfd, readLoop]), received,
        if_neg (Nat.ne_of_gt hsize)]
      rfl
  | cons o os ih =>
    rcases Nat.eq_zero_or_pos size with rfl | hpos
    · simp only [exReadLoop_zero, received_zero, Option.map_some, Memory.read_zero,
        Memory.write_nil, Memory.shift_zero, Nat.add_zero]
    have hsize : size ≠ 0 := Nat.ne_of_gt hpos
    by_cases ho : o.Ending
    · obtain ⟨c, hloop, hbuf, hstream⟩ := exReadLoop_ending hfd hsize ho size1 buf stream os
      rw [hloop, received, if_pos (Or.inr ho)]
      simp [hbuf, hstream, Memory.shift_zero]
    rw [received, if_neg (not_or.mpr ⟨hsize, ho⟩)]
    cases o with
    | data n =>
      rw [exReadLoop_data hfd hsize, ih, Option.map_map]
      refine Option.map_congr fun k _ => ?_
      rw [Function.comp_apply, Memory.write_read_add, Memory.shift_shift, Nat.add_assoc]
      rfl
    | recvFailed e =>
      have he : e.Transient := Decidable.not_not.mp ho
      have hskip : commTcpRead fd (size1 : ℤ).toNat (size : ℤ).toNat
          ⟨buf, stream, .recvFailed e :: os⟩ = commTcpRead fd (size1 : ℤ).toNat (size : ℤ).toNat
            ⟨buf, stream, os⟩ := by
        rw [commTcpRead, commTcpRead, if_neg hfd, if_neg hfd, readLoop, if_pos he]
      rw [exReadLoop_congr hskip (by omega), ih]
      simp [Outcome.len]
    | eof => exact absurd trivial ho
    | selectFailed e => exact absurd trivial ho
    | timeout => exact absurd trivial ho

theorem commTcpExRead_of_neg (hfd : fd < 0) (size : ℕ) (c : Conn) :
    commTcpExRead fd size c = some (0, c) := by
  rcases Nat.eq_zero_or_pos size with rfl | hpos
  · exact exReadLoop_zero fd 0 c
  · exact exReadLoop_of_nonpos (by omega) (if_pos hfd) (by decide)

/-- What a call returned and stored is a number of bytes received. -/
theorem exists_of_commTcpExRead (hfd : ¬ fd < 0) {r : ℤ}
    (h : commTcpExRead fd size ⟨buf, stream, os⟩ = some (r, c)) :
    ∃ k, received size os = some k ∧ r = (k : ℤ) ∧ c.buf = buf.write 0 (stream.read 0 k) ∧
      c.stream = stream.shift k := by
  have heq := exReadLoop_eq hfd 0 size buf stream os
  have h' : exReadLoop fd (0 : ℕ) size ⟨buf, stream, os⟩ = some (r, c) := h
  rw [h', Option.map_some, eq_comm, Option.map_eq_some_iff] at heq
  obtain ⟨k, hk, heq⟩ := heq
  simp only [Prod.mk.injEq, Nat.zero_add] at heq
  obtain ⟨hr, hbuf, hstream⟩ := heq
  exact ⟨k, hk, hr.symm, hbuf.symm, hstream.symm⟩

/-! ## The bytes received -/

theorem received_le (h : received size os = some k) : k ≤ size := by
  induction os generalizing size k with
  | nil =>
    rw [received] at h
    split_ifs at h
    exact Option.some.inj h ▸ Nat.zero_le _
  | cons o os ih =>
    rw [received] at h
    split_ifs at h
    · exact Option.some.inj h ▸ Nat.zero_le _
    · obtain ⟨k', hk', rfl⟩ := Option.map_eq_some_iff.mp h
      have := ih hk'
      omega

theorem completes_nil : Completes size [] ↔ size = 0 := by
  constructor
  · rintro ⟨front, back, heq, -, hle⟩
    rw [(List.nil_eq_append_iff.mp heq).1] at hle
    exact Nat.le_zero.mp hle
  · rintro rfl
    exact ⟨[], [], rfl, by simp, Nat.zero_le _⟩

theorem completes_cons (hsize : size ≠ 0) :
    Completes size (o :: os) ↔ ¬ o.Ending ∧ Completes (size - o.len) os := by
  constructor
  · rintro ⟨front, back, heq, hfront, hle⟩
    cases front with
    | nil => exact absurd (Nat.le_zero.mp hle) hsize
    | cons o' front =>
      obtain ⟨rfl, rfl⟩ := List.cons_eq_cons.mp heq
      rw [List.forall_mem_cons] at hfront
      rw [List.map_cons, List.sum_cons] at hle
      exact ⟨hfront.1, front, back, rfl, hfront.2, by omega⟩
  · rintro ⟨ho, front, back, rfl, hfront, hle⟩
    refine ⟨o :: front, back, rfl, List.forall_mem_cons.mpr ⟨ho, hfront⟩, ?_⟩
    rw [List.map_cons, List.sum_cons]
    omega

theorem received_of_completes (h : Completes size os) : received size os = some size := by
  induction os generalizing size with
  | nil =>
    rw [completes_nil.mp h]
    rfl
  | cons o os ih =>
    by_cases hsize : size = 0
    · rw [hsize, received_zero]
    · obtain ⟨ho, h⟩ := (completes_cons hsize).mp h
      rw [received, if_neg (not_or.mpr ⟨hsize, ho⟩), ih h, Option.map_some]
      congr 1
      omega

/-- The rounds are over when all the bytes have arrived or an outcome ends them. -/
theorem received_isSome :
    (received size os).isSome ↔ Completes size os ∨ ∃ o ∈ os, o.Ending := by
  induction os generalizing size with
  | nil =>
    rw [completes_nil, received]
    split_ifs with hsize
    · simp [hsize]
    · simp [hsize]
  | cons o os ih =>
    by_cases hsize : size = 0
    · subst hsize
      simp only [received_zero, Option.isSome_some, true_iff]
      exact Or.inl ⟨[], _, rfl, by simp, Nat.zero_le _⟩
    · rw [completes_cons hsize, received]
      by_cases ho : o.Ending
      · simp [ho]
      · simp [ho, hsize, ih]

theorem commTcpExRead_isSome (hfd : ¬ fd < 0) :
    (commTcpExRead fd size ⟨buf, stream, os⟩).isSome ↔
      Completes size os ∨ ∃ o ∈ os, o.Ending := by
  have heq := congrArg Option.isSome (exReadLoop_eq hfd 0 size buf stream os)
  rw [Option.isSome_map, Option.isSome_map] at heq
  rw [← received_isSome]
  exact Bool.eq_iff_iff.mp heq

/-- When all the bytes arrive they are returned and stored, however they arrive. -/
theorem commTcpExRead_of_completes (hfd : ¬ fd < 0) (hos : Completes size os) {r : ℤ}
    (h : commTcpExRead fd size ⟨buf, stream, os⟩ = some (r, c)) :
    r = size ∧ c.buf = buf.write 0 (stream.read 0 size) := by
  obtain ⟨k, hk, rfl, hbuf, -⟩ := exists_of_commTcpExRead hfd h
  obtain rfl := Option.some.inj (hk.symm.trans (received_of_completes hos))
  exact ⟨rfl, hbuf⟩

theorem reassembles_of_neg (hfd : fd < 0) (size : ℕ) (stream buf : Memory Byte)
    (outcomes : List Outcome) : Reassembles fd size stream buf outcomes := by
  have hret := commTcpExRead_of_neg hfd size ⟨buf, stream, outcomes⟩
  constructor
  · rw [hret]
    exact iff_of_true rfl (Or.inl hfd)
  · intro r c h
    obtain ⟨rfl, rfl⟩ := Prod.mk.inj (Option.some.inj (hret.symm.trans h))
    refine ⟨0, Nat.zero_le _, rfl, ?_, (Memory.shift_zero _).symm⟩
    rw [Memory.read_zero, Memory.write_nil]
  · exact fun hnonneg => absurd hfd (Int.not_lt.mpr hnonneg)
  · exact fun hnonneg => absurd hfd (Int.not_lt.mpr hnonneg)

/-- Whatever the outcomes are, the buffer holds the first bytes of the stream. -/
theorem reassembles (fd : ℤ) (size : ℕ) (stream buf : Memory Byte) (outcomes : List Outcome) :
    Reassembles fd size stream buf outcomes := by
  by_cases hfd : fd < 0
  · exact reassembles_of_neg hfd size stream buf outcomes
  constructor
  · rw [commTcpExRead_isSome hfd, or_iff_right hfd]
  · intro r c h
    obtain ⟨k, hk, hr⟩ := exists_of_commTcpExRead hfd h
    exact ⟨k, received_le hk, hr⟩
  · exact fun _ hos r c h => (commTcpExRead_of_completes hfd hos h).1
  · intro _ hos outcomes' hos' r c r' c' h h'
    obtain ⟨hr, hbuf⟩ := commTcpExRead_of_completes hfd hos h
    obtain ⟨hr', hbuf'⟩ := commTcpExRead_of_completes hfd hos' h'
    exact ⟨hr.trans hr'.symm, hbuf.trans hbuf'.symm⟩

end TcpRead

end H264Cast
