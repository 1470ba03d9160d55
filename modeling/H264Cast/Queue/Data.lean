import H264Cast.AnnexB.StartCode
import H264Cast.Library.Block
import H264Cast.Library.Machine
import H264Cast.Library.Ring

/-! # The shared data queue

A ring of three slots in one block of bytes. The indices are advanced before the slot is
used, and one slot always stays free, so the queue holds at most two elements: those in
the slots behind `front` up to `rear`.
-/

namespace H264Cast

/-- `MAX_DATA_SEQUEUE`. -/
def maxDataSequeue : ℕ := 3

/-- The queue without its locks. -/
structure DataQueue where
  front : ℤ
  rear : ℤ
  data : Option (Block Byte)

namespace DataQueue

/-- The product of the sizes is an `int`. There is no queue when it overflows or when an
allocation fails; the block is what the allocation returned otherwise. -/
def createEmptyDataSequeue (oneDataSize : ℕ) (data : Option (Memory Byte)) : Option DataQueue :=
  if oneDataSize * maxDataSequeue < 2 ^ 31 then
    data.map fun contents => ⟨0, 0, some ⟨oneDataSize * maxDataSequeue, contents⟩⟩
  else none

def emptyDataSequeue (q : DataQueue) : ℤ :=
  if q.data.isNone then -1 else if q.front = q.rear then 1 else 0

def fullDataSequeue (q : DataQueue) : ℤ :=
  if q.data.isNone then -1
  else if (q.rear + 1).tmod maxDataSequeue = q.front then 1
  else 0

/-- The new slot is cleared and then filled. -/
def enDataQueue (q : DataQueue) (inData : List Byte) (oneDataSize : ℕ) :
    Option (ℤ × DataQueue) :=
  match q.data with
  | none => some (-1, q)
  | some data =>
    if q.fullDataSequeue = 1 then some (-1, q)
    else
      let rear := (q.rear + 1).tmod maxDataSequeue
      (data.store (rear * oneDataSize) (List.replicate oneDataSize 0x00)).bind fun data =>
        (data.store (rear * oneDataSize) inData).map fun data =>
          (0, { q with rear, data := some data })

/-- The second component is what was stored in the output buffer, if there is one. -/
def deDataQueue (q : DataQueue) (outData : Bool) (oneDataSize : ℕ) :
    Option (ℤ × Option (List Byte) × DataQueue) :=
  match q.data with
  | none => some (-1, none, q)
  | some data =>
    if q.emptyDataSequeue = 1 then some (-1, none, q)
    else
      let front := (q.front + 1).tmod maxDataSequeue
      if outData then
        (data.load (front * oneDataSize) oneDataSize).map fun bytes =>
          (0, some bytes, { q with front })
      else some (0, none, { q with front })

def deAllDataQueue (q : DataQueue) : ℤ × DataQueue :=
  if q.data.isNone then (-1, q) else (0, { q with front := 0, rear := 0 })

/-- The bytes of one element. -/
abbrev Element (s : ℕ) := { bytes : List Byte // bytes.length = s }

/-- The calls of a run, on elements of one size. -/
inductive Op (s : ℕ)
  | en (inData : Element s)
  | de (outData : Bool)
  | deAll

/-- What a caller sees: the result, and what was delivered. -/
structure Out where
  ret : ℤ
  delivered : Option (List Byte)
  deriving DecidableEq

def step {s : ℕ} (q : DataQueue) : Op s → Option (Out × DataQueue)
  | .en inData => (q.enDataQueue inData.1 s).map fun (ret, q) => (⟨ret, none⟩, q)
  | .de outData => (q.deDataQueue outData s).map fun (ret, bytes, q) => (⟨ret, bytes⟩, q)
  | .deAll => let (ret, q) := q.deAllDataQueue; some (⟨ret, none⟩, q)

/-- The same calls on a bounded queue. -/
def fifoStep {s : ℕ} (xs : List (Element s)) : Op s → Out × List (Element s)
  | .en inData =>
    match Fifo.push (maxDataSequeue - 1) inData xs with
    | none => (⟨-1, none⟩, xs)
    | some xs => (⟨0, none⟩, xs)
  | .de outData =>
    match Fifo.pop xs with
    | none => (⟨-1, none⟩, xs)
    | some (bytes, xs) => (⟨0, if outData then some bytes.1 else none⟩, xs)
  | .deAll => (⟨0, none⟩, [])

/-- The slots of the block. -/
def slots (s : ℕ) (contents : Memory Byte) : Memory (List Byte) := fun i => contents.read (i * s) s

/-- The queue holds the elements in the slots behind `front`. -/
def Represents {s : ℕ} (q : DataQueue) (xs : List (Element s)) : Prop :=
  ∃ (front : ℕ) (contents : Memory Byte), front < maxDataSequeue ∧ xs.length < maxDataSequeue ∧
    q = ⟨front, ((front + xs.length) % maxDataSequeue : ℕ),
      some ⟨s * maxDataSequeue, contents⟩⟩ ∧
    Ring.Holds (slots s contents) maxDataSequeue (front + 1) (xs.map Subtype.val)

variable {s i j : ℕ} {q q' : DataQueue} {xs : List (Element s)} {contents : Memory Byte}
  {bs bs' : List Byte}

theorem tmod_succ (i : ℕ) : ((i : ℤ) + 1).tmod maxDataSequeue = ((i + 1) % maxDataSequeue : ℕ) :=
  Int.ofNat_tmod (i + 1) maxDataSequeue

/-- Every slot lies inside the block. -/
theorem slot_le (hi : i < maxDataSequeue) : i * s + s ≤ s * maxDataSequeue := by
  rw [← Nat.succ_mul, Nat.mul_comm s]
  exact Nat.mul_le_mul_right s hi

/-- The contents after a slot was cleared and then filled. -/
def fillSlot (s i : ℕ) (bytes : List Byte) (contents : Memory Byte) : Memory Byte :=
  (contents.write (i * s) (List.replicate s 0x00)).write (i * s) bytes

theorem slots_write_ne (h : bs.length = s) (hj : j ≠ i) :
    slots s (contents.write (i * s) bs) j = slots s contents j := by
  rcases Nat.lt_or_gt_of_ne hj with hlt | hlt
  · apply Memory.read_write_before
    rw [← Nat.succ_mul]
    exact Nat.mul_le_mul_right s hlt
  · apply Memory.read_write_after
    rw [h, ← Nat.succ_mul]
    exact Nat.mul_le_mul_right s hlt

theorem slots_fillSlot_self (h : bs.length = s) : slots s (fillSlot s i bs contents) i = bs :=
  Memory.read_write_self _ _ h

theorem slots_fillSlot_ne (h : bs.length = s) (hj : j ≠ i) :
    slots s (fillSlot s i bs contents) j = slots s contents j := by
  rw [fillSlot, slots_write_ne h hj, slots_write_ne List.length_replicate hj]

namespace Represents

theorem emptyDataSequeue_iff (h : Represents q xs) : q.emptyDataSequeue = 1 ↔ xs = [] := by
  obtain ⟨front, contents, hfront, hlen, rfl, -⟩ := h
  simp only [maxDataSequeue] at hfront hlen
  rw [← List.length_eq_zero_iff]
  simp only [emptyDataSequeue, Option.isNone_some, Bool.false_eq_true, if_false, maxDataSequeue]
  split_ifs <;> omega

theorem fullDataSequeue_iff (h : Represents q xs) :
    q.fullDataSequeue = 1 ↔ ¬ xs.length < maxDataSequeue - 1 := by
  obtain ⟨front, contents, hfront, hlen, rfl, -⟩ := h
  simp only [fullDataSequeue, Option.isNone_some, Bool.false_eq_true, if_false, tmod_succ]
  simp only [maxDataSequeue] at hfront hlen ⊢
  split_ifs <;> omega

theorem enDataQueue_full (h : Represents q xs) (hge : ¬ xs.length < maxDataSequeue - 1)
    (inData : List Byte) : q.enDataQueue inData s = some (-1, q) := by
  have hfull := h.fullDataSequeue_iff.mpr hge
  obtain ⟨front, contents, -, -, rfl, -⟩ := h
  simp only [DataQueue.enDataQueue, hfull, if_true]

theorem enDataQueue (h : Represents q xs) (hlt : xs.length < maxDataSequeue - 1)
    (x : Element s) : ∃ q', q.enDataQueue x.1 s = some (0, q') ∧ Represents q' (xs ++ [x]) := by
  have hfull : q.fullDataSequeue ≠ 1 := h.fullDataSequeue_iff.not.mpr (not_not_intro hlt)
  obtain ⟨front, contents, hfront, hlen, rfl, hslots⟩ := h
  have hrear : ((front + xs.length) % maxDataSequeue + 1) % maxDataSequeue =
      (front + 1 + xs.length) % maxDataSequeue := by
    rw [Nat.mod_add_mod, Nat.add_right_comm]
  have hslot := Nat.mod_lt (front + 1 + xs.length) (show 0 < maxDataSequeue by decide)
  refine ⟨⟨front, ((front + 1 + xs.length) % maxDataSequeue : ℕ), some ⟨s * maxDataSequeue,
    fillSlot s ((front + 1 + xs.length) % maxDataSequeue) x.1 contents⟩⟩, ?_, front,
    fillSlot s ((front + 1 + xs.length) % maxDataSequeue) x.1 contents, hfront, ?_, ?_, ?_⟩
  · simp only [DataQueue.enDataQueue, if_neg hfull, tmod_succ, hrear, ← Int.natCast_mul]
    rw [Block.store_eq (by rw [List.length_replicate]; exact slot_le hslot), Option.bind_some,
      Block.store_eq (by rw [x.2]; exact slot_le hslot), Option.map_some]
    rfl
  · rw [List.length_append, List.length_singleton]
    omega
  · rw [List.length_append, List.length_singleton, Nat.add_right_comm, Nat.add_assoc]
  · rw [List.map_append]
    refine hslots.push (by rw [List.length_map]; omega) ?_ fun j _ hj => ?_
    · rw [List.length_map]
      exact slots_fillSlot_self x.2
    · rw [List.length_map] at hj
      exact slots_fillSlot_ne x.2 hj

theorem deDataQueue_empty (h : Represents q ([] : List (Element s))) (outData : Bool) :
    q.deDataQueue outData s = some (-1, none, q) := by
  have hempty := h.emptyDataSequeue_iff.mpr rfl
  obtain ⟨front, contents, -, -, rfl, -⟩ := h
  simp only [DataQueue.deDataQueue, hempty, if_true]

theorem deDataQueue {x : Element s} (h : Represents q (x :: xs)) (outData : Bool) :
    ∃ q', q.deDataQueue outData s = some (0, if outData then some x.1 else none, q') ∧
      Represents q' xs := by
  have hempty : q.emptyDataSequeue ≠ 1 := h.emptyDataSequeue_iff.not.mpr (List.cons_ne_nil _ _)
  obtain ⟨front, contents, hfront, hlen, rfl, hslots⟩ := h
  have hmod := Nat.mod_lt (front + 1) (show 0 < maxDataSequeue by decide)
  refine ⟨⟨((front + 1) % maxDataSequeue : ℕ), ((front + (x :: xs).length) % maxDataSequeue : ℕ),
    some ⟨s * maxDataSequeue, contents⟩⟩, ?_, (front + 1) % maxDataSequeue, contents, hmod,
    Nat.lt_of_succ_lt hlen, ?_, ?_⟩
  · simp only [DataQueue.deDataQueue, if_neg hempty, tmod_succ, ← Int.natCast_mul]
    rw [Block.load_eq (slot_le hmod)]
    have hx : contents.read ((front + 1) % maxDataSequeue * s) s = x.1 := hslots.head
    cases outData with
    | false => rfl
    | true => simp [hx]
  · rw [List.length_cons, Nat.mod_add_mod, Nat.add_assoc, Nat.add_comm 1]
  · exact hslots.tail.congr_start (Nat.mod_add_mod _ _ _).symm

theorem deAllDataQueue (h : Represents q xs) :
    ∃ q', q.deAllDataQueue = (0, q') ∧ Represents q' ([] : List (Element s)) := by
  obtain ⟨front, contents, -, -, rfl, -⟩ := h
  exact ⟨_, rfl, 0, contents, by decide, Nat.zero_lt_succ _, rfl, Ring.holds_nil _ _ _⟩

theorem bounds (h : Represents q xs) :
    (0 ≤ q.front ∧ q.front < maxDataSequeue) ∧ (0 ≤ q.rear ∧ q.rear < maxDataSequeue) := by
  obtain ⟨front, contents, hfront, -, rfl, -⟩ := h
  have hmod := Nat.mod_lt (front + xs.length) (show 0 < maxDataSequeue by decide)
  simp only
  omega

/-- Every call stays inside the block and answers as the bounded queue does. A call that fails
changes nothing. -/
theorem step (h : Represents q xs) (op : Op s) :
    ∃ q', q.step op = some ((fifoStep xs op).1, q') ∧ Represents q' (fifoStep xs op).2 ∧
      ((fifoStep xs op).1.ret = -1 → q' = q) := by
  cases op with
  | en inData =>
    by_cases hlt : xs.length < maxDataSequeue - 1
    · obtain ⟨q', hen, hq'⟩ := h.enDataQueue hlt inData
      have hfifo : fifoStep xs (.en inData) = (⟨0, none⟩, xs ++ [inData]) := by
        simp only [fifoStep, Fifo.push, if_pos hlt]
      rw [hfifo]
      refine ⟨q', ?_, hq', fun hret => absurd hret (by simp)⟩
      rw [DataQueue.step, hen, Option.map_some]
    · have hfifo : fifoStep xs (.en inData) = (⟨-1, none⟩, xs) := by
        simp only [fifoStep, Fifo.push, if_neg hlt]
      rw [hfifo]
      refine ⟨q, ?_, h, fun _ => rfl⟩
      rw [DataQueue.step, h.enDataQueue_full hlt, Option.map_some]
  | de outData =>
    cases xs with
    | nil =>
      refine ⟨q, ?_, h, fun _ => rfl⟩
      rw [DataQueue.step, h.deDataQueue_empty, Option.map_some]
      rfl
    | cons x xs =>
      obtain ⟨q', hde, hq'⟩ := h.deDataQueue outData
      refine ⟨q', ?_, hq', fun hret => absurd hret (by simp [fifoStep, Fifo.pop])⟩
      rw [DataQueue.step, hde, Option.map_some]
      rfl
  | deAll =>
    obtain ⟨q', hall, hq'⟩ := h.deAllDataQueue
    refine ⟨q', ?_, hq', fun hret => absurd hret (by simp [fifoStep])⟩
    rw [DataQueue.step, hall]
    rfl

end Represents

theorem represents_create {data : Option (Memory Byte)}
    (hq : createEmptyDataSequeue s data = some q) : Represents q ([] : List (Element s)) := by
  unfold createEmptyDataSequeue at hq
  split_ifs at hq with hsize
  obtain ⟨contents, -, rfl⟩ := Option.map_eq_some_iff.mp hq
  exact ⟨0, contents, by decide, Nat.zero_lt_succ _, rfl, Ring.holds_nil _ _ _⟩

/-- A queue just created answers every sequence of calls as a bounded queue of two elements.
No access leaves the block, the indices stay in their range, and a call that fails changes
nothing. -/
theorem refines_fifo {data : Option (Memory Byte)}
    (hq : createEmptyDataSequeue s data = some q) (ops : List (Op s)) :
    ∃ q', run step q ops = some (outputs fifoStep [] ops, q') ∧
      (0 ≤ q'.front ∧ q'.front < maxDataSequeue) ∧ (0 ≤ q'.rear ∧ q'.rear < maxDataSequeue) ∧
      ∀ (op : Op s) out q'', q'.step op = some (out, q'') → out.ret = -1 → q'' = q' := by
  obtain ⟨q', hrun, hq'⟩ := run_of_simulation (R := Represents)
    (fun q xs op h => by
      obtain ⟨q', hstep, hq', -⟩ := h.step op
      exact ⟨q', hstep, hq'⟩)
    (represents_create hq) ops
  obtain ⟨hfront, hrear⟩ := hq'.bounds
  refine ⟨q', hrun, hfront, hrear, fun op out q'' hstep hret => ?_⟩
  obtain ⟨q₁, hstep₁, -, hkeep⟩ := hq'.step op
  obtain ⟨rfl, rfl⟩ := Prod.mk.inj (Option.some.inj (hstep.symm.trans hstep₁))
  exact hkeep hret

theorem refines_fifo_two :
    ∃ q, createEmptyDataSequeue 2 (some fun _ => 0x55) = some q ∧
      ∃ q', run step q [.en ⟨[1, 2], rfl⟩, .en ⟨[3, 4], rfl⟩, .en ⟨[5, 6], rfl⟩, .de true] =
          some (outputs fifoStep []
            ([.en ⟨[1, 2], rfl⟩, .en ⟨[3, 4], rfl⟩, .en ⟨[5, 6], rfl⟩, .de true] : List (Op 2)),
            q') ∧
        (0 ≤ q'.front ∧ q'.front < maxDataSequeue) ∧ (0 ≤ q'.rear ∧ q'.rear < maxDataSequeue) ∧
        ∀ (op : Op 2) out q'', q'.step op = some (out, q'') → out.ret = -1 → q'' = q' := by
  have hq : createEmptyDataSequeue 2 (some fun _ => 0x55) = some _ := rfl
  exact ⟨_, hq, refines_fifo hq _⟩

/-- The third element is refused and the first one comes out. -/
example : outputs fifoStep []
    ([.en ⟨[1, 2], rfl⟩, .en ⟨[3, 4], rfl⟩, .en ⟨[5, 6], rfl⟩, .de true] : List (Op 2)) =
    [⟨0, none⟩, ⟨0, none⟩, ⟨-1, none⟩, ⟨0, some [1, 2]⟩] := by
  decide

end DataQueue

end H264Cast
