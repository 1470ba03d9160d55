import H264Cast.AnnexB.StartCode
import Mathlib.Algebra.Ring.Int.Defs
import Mathlib.Algebra.Ring.Nat
import Mathlib.Data.BitVec

/-! # Writing to a UDP socket

The loop hands the rest of the buffer to `sendto` until nothing remains. The number of bytes
that remain is an `unsigned short` and the number sent a `short`. An interrupted call does not
leave the loop, and the minus one it returned is then subtracted like a number of bytes.
-/

namespace H264Cast.UdpWrite

/-- The outcome of a call of `sendto`: it takes bytes, or sets `errno`. -/
inductive Outcome
  | sent (n : ℕ)
  | eintr
  | eagain
  | error
  deriving DecidableEq

/-- The call may be made again. -/
def Outcome.Transient (o : Outcome) : Prop := o = eintr ∨ o = eagain

/-- What the call returns. From a range it takes at least one byte, and at most all of them. -/
def Outcome.result (len : ℕ) : Outcome → ℤ
  | sent n => (min (n + 1) len : ℕ)
  | _ => -1

/-- The variables of the loop: the offset of `p`, and the two counters. -/
structure Loop where
  p : ℤ
  remain : BitVec 16
  slen : BitVec 16

/-- The end of a round. -/
def Loop.next (c : Loop) (n : ℤ) : Loop where
  p := c.p + n
  remain := c.remain - BitVec.ofInt 16 n
  slen := c.slen + BitVec.ofInt 16 n

/-- A call of `sendto` with the variables before it and after its round. -/
structure SendCall where
  before : Loop
  outcome : Outcome
  after : Loop

/-- The calls made for a sequence of outcomes, and what is returned unless the loop goes on. -/
def Loop.run (c : Loop) : List Outcome → List SendCall × Option ℤ
  | [] => ([], if c.remain = 0 then some c.slen.toInt else none)
  | o :: os =>
    if c.remain = 0 then ([], some c.slen.toInt)
    else
      let n := o.result c.remain.toNat
      if n < 0 ∧ o ≠ .eintr ∧ o ≠ .eagain then ([⟨c, o, c⟩], some (-1))
      else
        let r := (c.next n).run os
        (⟨c, o, c.next n⟩ :: r.1, r.2)

def commUdpWrite (size : ℕ) (outcomes : List Outcome) : List SendCall × Option ℤ :=
  Loop.run ⟨0, BitVec.ofNat 16 size, 0⟩ outcomes

/-- The offsets of the bytes that a call took. -/
def SendCall.taken (call : SendCall) : List ℤ :=
  (List.range (call.outcome.result call.before.remain.toNat).toNat).map
    fun i : ℕ => call.before.p + i

/-- The offsets of the bytes taken, in the order in which they were. -/
def taken (calls : List SendCall) : List ℤ := calls.flatMap SendCall.taken

/-- The offsets of the first bytes of the buffer, in order. -/
def front (k : ℕ) : List ℤ := (List.range k).map Nat.cast

/-- The buffer is sent once and the return value tells so. -/
structure SendsOnce (size : ℕ) (outcomes : List Outcome) : Prop where
  inside : ∀ call ∈ (commUdpWrite size outcomes).1,
    0 ≤ call.before.p ∧ call.before.p + call.before.remain.toNat ≤ size
  consecutive : ∃ k, taken (commUdpWrite size outcomes).1 = front k
  transient : ∀ call ∈ (commUdpWrite size outcomes).1, call.outcome.Transient →
    call.after.p = call.before.p ∧ call.after.remain = call.before.remain
  returns : ∀ r, (commUdpWrite size outcomes).2 = some r →
    (∀ call ∈ (commUdpWrite size outcomes).1, call.outcome ≠ .error) →
      r = size ∧ taken (commUdpWrite size outcomes).1 = front size
  error : (commUdpWrite size outcomes).2 = some (-1) ↔
    ∃ call ∈ (commUdpWrite size outcomes).1, call.outcome = .error

/-- The most bytes that a sequence of calls takes. -/
def total (ns : List ℕ) : ℕ := (ns.map (· + 1)).sum

/-- The outcomes begin with calls that take all of the given number of bytes. -/
def Completes (len : ℕ) (outcomes : List Outcome) : Prop :=
  ∃ ns rest, outcomes = ns.map .sent ++ rest ∧ len ≤ total ns

/-- A call is interrupted before all of the given number of bytes are taken. -/
def Interrupted (len : ℕ) (outcomes : List Outcome) : Prop :=
  ∃ ns o rest, outcomes = ns.map .sent ++ o :: rest ∧ o.Transient ∧ total ns < len

variable {c : Loop} {o : Outcome} {os outcomes : List Outcome} {n len size d : ℕ} {ns : List ℕ}

theorem run_of_eq_zero (h : c.remain = 0) (os : List Outcome) :
    c.run os = ([], some c.slen.toInt) := by
  cases os with
  | nil => rw [Loop.run, if_pos h]
  | cons o os => rw [Loop.run, if_pos h]

theorem run_sent (h : c.remain ≠ 0) (n : ℕ) (os : List Outcome) :
    c.run (.sent n :: os) =
      (⟨c, .sent n, c.next (min (n + 1) c.remain.toNat : ℕ)⟩ ::
        ((c.next (min (n + 1) c.remain.toNat : ℕ)).run os).1,
        ((c.next (min (n + 1) c.remain.toNat : ℕ)).run os).2) := by
  rw [Loop.run, if_neg h]
  exact if_neg fun hneg => absurd hneg.1 (Int.not_lt.mpr (Int.natCast_nonneg _))

theorem run_error (h : c.remain ≠ 0) (os : List Outcome) :
    c.run (.error :: os) = ([⟨c, .error, c⟩], some (-1)) := by
  rw [Loop.run, if_neg h]
  rfl

theorem run_transient (h : c.remain ≠ 0) (ho : o.Transient) (os : List Outcome) :
    c.run (o :: os) =
      (⟨c, o, c.next (-1)⟩ :: ((c.next (-1)).run os).1, ((c.next (-1)).run os).2) := by
  rw [Loop.run, if_neg h]
  rcases ho with rfl | rfl <;> rfl

/-! ## Runs without interruption -/

theorem completes_zero (outcomes : List Outcome) : Completes 0 outcomes :=
  ⟨[], outcomes, rfl, Nat.zero_le _⟩

theorem completes_sent_cons (h : len ≠ 0) :
    Completes len (.sent n :: os) ↔ Completes (len - (n + 1)) os := by
  constructor
  · rintro ⟨ns, rest, heq, hle⟩
    cases ns with
    | nil => exact absurd (Nat.le_zero.mp hle) h
    | cons m ns =>
      obtain ⟨hm, rfl⟩ := List.cons_eq_cons.mp heq
      obtain rfl : n = m := Outcome.sent.inj hm
      refine ⟨ns, rest, rfl, ?_⟩
      simp only [total, List.map_cons, List.sum_cons] at hle ⊢
      omega
  · rintro ⟨ns, rest, rfl, hle⟩
    refine ⟨n :: ns, rest, rfl, ?_⟩
    simp only [total, List.map_cons, List.sum_cons] at hle ⊢
    omega

theorem not_completes_error (h : len ≠ 0) : ¬ Completes len (.error :: os) := by
  rintro ⟨ns, rest, heq, hle⟩
  cases ns with
  | nil => exact h (Nat.le_zero.mp hle)
  | cons m ns => exact absurd (List.cons_eq_cons.mp heq).1 (by simp)

theorem not_completes_nil (h : len ≠ 0) : ¬ Completes len [] := by
  rintro ⟨ns, rest, heq, hle⟩
  obtain ⟨hns, -⟩ := List.append_eq_nil_iff.mp heq.symm
  rw [List.map_eq_nil_iff.mp hns] at hle
  exact h (Nat.le_zero.mp hle)

theorem interrupted_sent_cons (h : Interrupted (len - (n + 1)) os) :
    Interrupted len (.sent n :: os) := by
  obtain ⟨ns, o, rest, rfl, ho, hlt⟩ := h
  refine ⟨n :: ns, o, rest, rfl, ho, ?_⟩
  simp only [total, List.map_cons, List.sum_cons] at hlt ⊢
  omega

theorem interrupted_transient (h : len ≠ 0) (ho : o.Transient) : Interrupted len (o :: os) :=
  ⟨[], o, os, rfl, ho, Nat.pos_of_ne_zero h⟩

/-- The first `d` bytes are sent, and nothing else happened. -/
structure Sent (size d : ℕ) (c : Loop) : Prop where
  p_eq : c.p = d
  remain_eq : d + c.remain.toNat = size % 2 ^ 16
  slen_eq : c.slen = BitVec.ofNat 16 d

theorem sent_start (size : ℕ) : Sent size 0 ⟨0, BitVec.ofNat 16 size, 0⟩ :=
  ⟨rfl, by simp, rfl⟩

theorem toNat_remain_next (h : n ≤ c.remain.toNat) :
    (c.next n).remain.toNat = c.remain.toNat - n := by
  have hn : n < 2 ^ 16 := Nat.lt_of_le_of_lt h c.remain.isLt
  have hto : (BitVec.ofInt 16 (n : ℤ)).toNat = n := by
    rw [BitVec.ofInt_natCast, BitVec.toNat_ofNat, Nat.mod_eq_of_lt hn]
  rw [Loop.next, BitVec.toNat_sub_of_le (by rwa [BitVec.le_def, hto]), hto]

theorem toNat_remain_next_sent (c : Loop) (n : ℕ) :
    (c.next (min (n + 1) c.remain.toNat : ℕ)).remain.toNat = c.remain.toNat - (n + 1) := by
  rw [toNat_remain_next (Nat.min_le_right _ _)]
  omega

theorem toNat_remain_ne_zero (h : c.remain ≠ 0) : c.remain.toNat ≠ 0 :=
  fun hz => h (BitVec.eq_of_toNat_eq hz)

theorem Sent.next (h : Sent size d c) (hn : n ≤ c.remain.toNat) :
    Sent size (d + n) (c.next n) := by
  constructor
  · rw [Loop.next, h.p_eq, Nat.cast_add]
  · rw [toNat_remain_next hn, ← h.remain_eq]
    omega
  · rw [Loop.next, h.slen_eq, BitVec.ofInt_natCast, BitVec.ofNat_add]

/-- Induction over a run that is not interrupted. -/
@[elab_as_elim] theorem Sent.induction {P : ℕ → Loop → List Outcome → Prop}
    (hzero : ∀ d c os, Sent size d c → c.remain = 0 → P d c os)
    (hnil : ∀ d c, Sent size d c → c.remain ≠ 0 → P d c [])
    (herror : ∀ d c os, Sent size d c → c.remain ≠ 0 → P d c (.error :: os))
    (hsent : ∀ d c n os, Sent size d c → c.remain ≠ 0 →
      P (d + min (n + 1) c.remain.toNat) (c.next (min (n + 1) c.remain.toNat : ℕ)) os →
        P d c (.sent n :: os))
    (h : Sent size d c) (hi : ¬ Interrupted c.remain.toNat outcomes) : P d c outcomes := by
  induction outcomes generalizing d c with
  | nil =>
    by_cases hr : c.remain = 0
    · exact hzero d c [] h hr
    · exact hnil d c h hr
  | cons o os ih =>
    by_cases hr : c.remain = 0
    · exact hzero d c _ h hr
    have hlen := toNat_remain_ne_zero hr
    cases o with
    | sent n =>
      refine hsent d c n os h hr (ih (h.next (Nat.min_le_right _ _)) fun hn => hi ?_)
      rw [toNat_remain_next_sent] at hn
      exact interrupted_sent_cons hn
    | error => exact herror d c os h hr
    | eintr => exact absurd (interrupted_transient hlen (Or.inl rfl)) hi
    | eagain => exact absurd (interrupted_transient hlen (Or.inr rfl)) hi

theorem front_add (d n : ℕ) :
    front d ++ (List.range n).map (fun i : ℕ => (d : ℤ) + i) = front (d + n) := by
  simp only [front, List.range_add, List.map_append, List.map_map, Function.comp_def, Nat.cast_add]

theorem taken_cons (call : SendCall) (calls : List SendCall) :
    taken (call :: calls) = call.taken ++ taken calls := rfl

/-- The bytes taken follow the bytes sent before. -/
theorem Sent.taken_run (h : Sent size d c) (hi : ¬ Interrupted c.remain.toNat outcomes) :
    ∃ k, front d ++ taken (c.run outcomes).1 = front k ∧
      (Completes c.remain.toNat outcomes → k = size % 2 ^ 16) := by
  refine Sent.induction ?_ ?_ ?_ ?_ h hi
  · intro d c os h hr
    refine ⟨d, by simp [run_of_eq_zero hr, taken], fun _ => ?_⟩
    rw [← h.remain_eq, hr]
    rfl
  · intro d c h hr
    exact ⟨d, by simp [Loop.run, taken],
      fun hc => absurd hc (not_completes_nil (toNat_remain_ne_zero hr))⟩
  · intro d c os h hr
    exact ⟨d, by simp [run_error hr, taken, SendCall.taken, Outcome.result],
      fun hc => absurd hc (not_completes_error (toNat_remain_ne_zero hr))⟩
  · rintro d c n os h hr ⟨k, hk, hcomplete⟩
    refine ⟨k, ?_, fun hc => hcomplete ?_⟩
    · rw [run_sent hr, taken_cons, ← List.append_assoc, ← hk, ← front_add, ← h.p_eq]
      rfl
    · rw [toNat_remain_next_sent]
      exact (completes_sent_cons (toNat_remain_ne_zero hr)).mp hc

/-- Every call passes the rest of the bytes. -/
theorem Sent.calls_run (h : Sent size d c) (hi : ¬ Interrupted c.remain.toNat outcomes) :
    ∀ call ∈ (c.run outcomes).1, ¬ call.outcome.Transient ∧ 0 ≤ call.before.p ∧
      call.before.p + call.before.remain.toNat = (size % 2 ^ 16 : ℕ) := by
  have hrange {d : ℕ} {c : Loop} (h : Sent size d c) :
      0 ≤ c.p ∧ c.p + c.remain.toNat = (size % 2 ^ 16 : ℕ) := by
    rw [h.p_eq, ← h.remain_eq]
    exact ⟨Int.natCast_nonneg d, (Nat.cast_add _ _).symm⟩
  refine Sent.induction ?_ ?_ ?_ ?_ h hi
  · intro d c os h hr
    simp [run_of_eq_zero hr]
  · intro d c h hr
    simp [Loop.run]
  · intro d c os h hr call hcall
    rw [run_error hr, List.mem_singleton] at hcall
    subst hcall
    exact ⟨by simp [Outcome.Transient], hrange h⟩
  · intro d c n os h hr ih call hcall
    rw [run_sent hr, List.mem_cons] at hcall
    rcases hcall with rfl | hcall
    · exact ⟨by simp [Outcome.Transient], hrange h⟩
    · exact ih call hcall

/-- The loop goes on, or a hard error left it, or it sent all bytes. -/
theorem Sent.result_run (h : Sent size d c) (hi : ¬ Interrupted c.remain.toNat outcomes) :
    ((c.run outcomes).2 = none ∧ (∀ call ∈ (c.run outcomes).1, call.outcome ≠ .error) ∧
        ¬ Completes c.remain.toNat outcomes) ∨
      ((c.run outcomes).2 = some (-1) ∧ (∃ call ∈ (c.run outcomes).1, call.outcome = .error) ∧
        ¬ Completes c.remain.toNat outcomes) ∨
      ((c.run outcomes).2 = some (BitVec.ofNat 16 size).toInt ∧
        (∀ call ∈ (c.run outcomes).1, call.outcome ≠ .error) ∧
        Completes c.remain.toNat outcomes) := by
  refine Sent.induction ?_ ?_ ?_ ?_ h hi
  · intro d c os h hr
    have hslen : c.slen = BitVec.ofNat 16 size := by
      have hd : d = size % 2 ^ 16 := by
        rw [← h.remain_eq, hr]
        rfl
      apply BitVec.eq_of_toNat_eq
      rw [h.slen_eq, BitVec.toNat_ofNat, BitVec.toNat_ofNat, hd, Nat.mod_mod]
    refine Or.inr (Or.inr ?_)
    rw [run_of_eq_zero hr, hslen, hr]
    exact ⟨rfl, by simp, completes_zero os⟩
  · intro d c h hr
    refine Or.inl ⟨?_, by simp [Loop.run], not_completes_nil (toNat_remain_ne_zero hr)⟩
    rw [Loop.run, if_neg hr]
  · intro d c os h hr
    refine Or.inr (Or.inl ?_)
    rw [run_error hr]
    exact ⟨rfl, ⟨_, List.mem_singleton_self _, rfl⟩,
      not_completes_error (toNat_remain_ne_zero hr)⟩
  · intro d c n os h hr ih
    rw [toNat_remain_next_sent, ← completes_sent_cons (toNat_remain_ne_zero hr)] at ih
    rw [run_sent hr]
    simpa using ih

/-- An interruption moves the pointer back. -/
theorem exists_interrupted_call (h : Interrupted c.remain.toNat outcomes) :
    ∃ call ∈ (c.run outcomes).1, call.outcome.Transient ∧ call.after.p = call.before.p - 1 := by
  obtain ⟨ns, o, rest, rfl, ho, hlt⟩ := h
  induction ns generalizing c with
  | nil =>
    have hr : c.remain ≠ 0 := by
      rintro hr
      rw [hr] at hlt
      exact absurd hlt (Nat.not_lt_zero _)
    rw [List.map_nil, List.nil_append, run_transient hr ho]
    exact ⟨_, List.mem_cons_self, ho, rfl⟩
  | cons n ns ih =>
    have hr : c.remain ≠ 0 := by
      rintro hr
      rw [hr] at hlt
      exact absurd hlt (Nat.not_lt_zero _)
    have hlt' : total ns < (c.next (min (n + 1) c.remain.toNat : ℕ)).remain.toNat := by
      rw [toNat_remain_next_sent]
      simp only [total, List.map_cons, List.sum_cons] at hlt ⊢
      omega
    obtain ⟨call, hcall, htransient, hp⟩ := ih hlt'
    rw [List.map_cons, List.cons_append, run_sent hr]
    exact ⟨call, List.mem_cons_of_mem _ hcall, htransient, hp⟩

/-! ## When the buffer is sent once -/

theorem SendsOnce.not_interrupted (h : SendsOnce size outcomes) :
    ¬ Interrupted (size % 2 ^ 16) outcomes := by
  intro hi
  obtain ⟨call, hcall, htransient, hp⟩ :=
    exists_interrupted_call (c := ⟨0, BitVec.ofNat 16 size, 0⟩) (by simpa using hi)
  have := (h.transient call hcall htransient).1
  omega

theorem toInt_ofNat_eq_iff (size : ℕ) : (BitVec.ofNat 16 size).toInt = size ↔ size < 2 ^ 15 := by
  rw [BitVec.toInt_eq_toNat_cond, BitVec.toNat_ofNat]
  split_ifs <;> omega

theorem toNat_start (size : ℕ) : (BitVec.ofNat 16 size).toNat = size % 2 ^ 16 :=
  BitVec.toNat_ofNat size 16

/-- A size that is returned as it is fits the counter of the bytes sent. -/
theorem SendsOnce.size_lt (h : SendsOnce size outcomes)
    (hc : Completes (size % 2 ^ 16) outcomes) : size < 2 ^ 15 := by
  have hi := h.not_interrupted
  rw [← toNat_start] at hc hi
  rcases (sent_start size).result_run hi with ⟨-, -, hn⟩ | ⟨-, -, hn⟩ | ⟨hr, herror, -⟩
  · exact absurd hc hn
  · exact absurd hc hn
  · exact (toInt_ofNat_eq_iff size).mp (h.returns _ hr herror).1

theorem sendsOnce_of_not_interrupted (hi : ¬ Interrupted (size % 2 ^ 16) outcomes)
    (hsmall : Completes (size % 2 ^ 16) outcomes → size < 2 ^ 15) : SendsOnce size outcomes := by
  have hstart := sent_start size
  rw [← toNat_start] at hi hsmall
  obtain ⟨k, hk, hcomplete⟩ := hstart.taken_run hi
  have hcalls := hstart.calls_run hi
  constructor
  case inside =>
    intro call hcall
    obtain ⟨-, hp, hsum⟩ := hcalls call hcall
    have := Nat.mod_le size (2 ^ 16)
    exact ⟨hp, by omega⟩
  case consecutive => exact ⟨k, hk⟩
  case transient => exact fun call hcall ho => absurd ho (hcalls call hcall).1
  case returns =>
    intro r hr herror
    rcases hstart.result_run hi with ⟨hnone, -⟩ | ⟨-, ⟨call, hcall, he⟩, -⟩ | ⟨hsome, -, hc⟩
    · exact absurd (hnone.symm.trans hr) (by simp)
    · exact absurd he (herror call hcall)
    · have hlt := hsmall hc
      obtain rfl := Option.some.inj (hsome.symm.trans hr)
      refine ⟨(toInt_ofNat_eq_iff size).mpr hlt, ?_⟩
      rw [hcomplete hc, Nat.mod_eq_of_lt (by omega)] at hk
      exact hk
  case error =>
    rcases hstart.result_run hi with ⟨hnone, hne, -⟩ | ⟨hsome, he, -⟩ | ⟨hsome, hne, hc⟩
    · rw [commUdpWrite, hnone]
      exact iff_of_false (by simp) fun ⟨call, hcall, he⟩ => hne call hcall he
    · exact iff_of_true hsome he
    · rw [commUdpWrite, hsome, Option.some.injEq, (toInt_ofNat_eq_iff size).mpr (hsmall hc)]
      exact iff_of_false (by omega) fun ⟨call, hcall, he⟩ => hne call hcall he

/-- The buffer is sent once exactly when no call is interrupted before the end, and when the
calls take all bytes only for a buffer of less than 32768 bytes. Both lengths are taken modulo
65536, as the loop does. -/
theorem sendsOnce_iff (size : ℕ) (outcomes : List Outcome) :
    SendsOnce size outcomes ↔ ¬ Interrupted (size % 2 ^ 16) outcomes ∧
      (Completes (size % 2 ^ 16) outcomes → size < 2 ^ 15) := by
  constructor
  · exact fun h => ⟨h.not_interrupted, h.size_lt⟩
  · rintro ⟨hi, hsmall⟩
    exact sendsOnce_of_not_interrupted hi hsmall

/-- One byte is to be sent and the first call is interrupted: the next one is given two bytes
from the one before the buffer on. -/
theorem not_sendsOnce_interrupted :
    ¬ ∀ (size : ℕ) (outcomes : List Outcome), SendsOnce size outcomes := by
  intro hall
  have hi := (hall 1 [.eintr, .sent 1]).not_interrupted
  exact hi ⟨[], .eintr, [.sent 1], rfl, Or.inl rfl, by decide⟩

end H264Cast.UdpWrite
