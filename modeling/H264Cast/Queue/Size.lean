import H264Cast.Queue.Data

/-! # The size of the queue

The size is computed from the two indices, which are equal in an empty queue. The comparison
takes them for a ring that is full instead, and an empty queue has the size of all the slots.
-/

namespace H264Cast

namespace DataQueue

def getSequeueSize (q : DataQueue) : ℤ :=
  if q.data.isNone then -1
  else if q.rear > q.front then q.rear - q.front
  else maxDataSequeue + q.rear - q.front

/-- The number of elements after a call, by what the call returned. -/
def count {s : ℕ} (n : ℤ) (call : Op s × Out) : ℤ :=
  if call.2.ret = 0 then
    match call.1 with
    | .en _ => n + 1
    | .de _ => n - 1
    | .deAll => 0
  else n

/-- The insertions that succeeded since the queue was last cleared, less the removals. -/
def stored {s : ℕ} (ops : List (Op s)) (outs : List Out) : ℤ := (ops.zip outs).foldl count 0

/-- The size is the number of elements, and agrees with the tests for an empty and for a full
queue. -/
structure SizeAgrees (q : DataQueue) (n : ℤ) : Prop where
  size_eq : q.getSequeueSize = n
  zero_iff : q.getSequeueSize = 0 ↔ q.emptyDataSequeue = 1
  max_iff : q.getSequeueSize = maxDataSequeue - 1 ↔ q.fullDataSequeue = 1

variable {s : ℕ} {q : DataQueue} {xs : List (Element s)}

/-! ## The number of elements -/

theorem count_fifoStep (xs : List (Element s)) (op : Op s) :
    count xs.length (op, (fifoStep xs op).1) = (fifoStep xs op).2.length := by
  cases op with
  | en inData =>
    by_cases hlt : xs.length < maxDataSequeue - 1
    · simp [fifoStep, Fifo.push, hlt, count]
    · simp [fifoStep, Fifo.push, hlt, count]
  | de outData =>
    cases xs with
    | nil => simp [fifoStep, Fifo.pop, count]
    | cons x xs => simp [fifoStep, Fifo.pop, count]
  | deAll => simp [fifoStep, count]

/-- The calls on a bounded queue count its elements. -/
theorem foldl_count_outputs (xs : List (Element s)) (ops : List (Op s)) :
    (ops.zip (outputs fifoStep xs ops)).foldl count xs.length =
      (final fifoStep xs ops).length := by
  induction ops generalizing xs with
  | nil => rfl
  | cons op ops ih =>
    rw [outputs_cons, List.zip_cons_cons, List.foldl_cons, count_fifoStep]
    exact ih _

/-! ## The size -/

/-- The size is right in every queue but the empty one. -/
theorem Represents.getSequeueSize (h : Represents q xs) :
    q.getSequeueSize = if xs = [] then (maxDataSequeue : ℤ) else xs.length := by
  obtain ⟨front, contents, hfront, hlen, rfl, -⟩ := h
  simp only [DataQueue.getSequeueSize, Option.isNone_some, Bool.false_eq_true, if_false,
    ← List.length_eq_zero_iff]
  simp only [maxDataSequeue] at hfront hlen ⊢
  split_ifs <;> omega

theorem Represents.sizeAgrees (h : Represents q xs) (hne : xs ≠ []) :
    SizeAgrees q xs.length := by
  have hsize := h.getSequeueSize
  rw [if_neg hne] at hsize
  have hpos := List.length_pos_iff.mpr hne
  have hlt : xs.length < maxDataSequeue := by
    obtain ⟨_, _, _, hlt, -⟩ := h
    exact hlt
  refine ⟨hsize, ?_, ?_⟩
  · rw [hsize, h.emptyDataSequeue_iff]
    exact iff_of_false (by omega) hne
  · rw [hsize, h.fullDataSequeue_iff]
    simp only [maxDataSequeue] at hlt ⊢
    omega

theorem Represents.not_sizeAgrees (h : Represents q ([] : List (Element s))) (n : ℤ) :
    ¬ SizeAgrees q n := by
  intro hagrees
  have hzero := hagrees.zero_iff.mpr (h.emptyDataSequeue_iff.mpr rfl)
  rw [h.getSequeueSize, if_pos rfl] at hzero
  exact absurd hzero (by decide)

/-- After every sequence of calls on a queue just created, the size is the number of elements
and agrees with the tests exactly when the queue is not empty. -/
theorem sizeAgrees_iff {data : Option (Memory Byte)}
    (hq : createEmptyDataSequeue s data = some q) (ops : List (Op s)) :
    ∃ outs q', run step q ops = some (outs, q') ∧
      (SizeAgrees q' (stored ops outs) ↔ q'.emptyDataSequeue ≠ 1) := by
  obtain ⟨q', hrun, hq'⟩ := run_of_simulation (R := Represents)
    (fun q xs op h => by
      obtain ⟨q', hstep, hq', -⟩ := h.step op
      exact ⟨q', hstep, hq'⟩)
    (represents_create hq) ops
  have hstored : stored ops (outputs fifoStep [] ops) = (final fifoStep [] ops).length :=
    foldl_count_outputs [] ops
  refine ⟨_, q', hrun, ?_⟩
  rw [hstored, Ne, hq'.emptyDataSequeue_iff]
  constructor
  · intro hagrees hnil
    rw [hnil] at hq'
    exact hq'.not_sizeAgrees _ hagrees
  · exact hq'.sizeAgrees

/-- Two elements are stored and one is taken. -/
theorem sizeAgrees_iff_two : ∃ q, createEmptyDataSequeue 2 (some fun _ => 0x55) = some q ∧
    ∃ outs q', run step q [.en ⟨[1, 2], rfl⟩, .en ⟨[3, 4], rfl⟩, .de true] = some (outs, q') ∧
      (SizeAgrees q' (stored (s := 2) [.en ⟨[1, 2], rfl⟩, .en ⟨[3, 4], rfl⟩, .de true] outs) ↔
        q'.emptyDataSequeue ≠ 1) := by
  have hq : createEmptyDataSequeue 2 (some fun _ => 0x55) = some _ := rfl
  exact ⟨_, hq, sizeAgrees_iff hq _⟩

/-- A queue just created has the size three. -/
theorem not_sizeAgrees_created : ¬ ∀ (s : ℕ) (data : Option (Memory Byte)) (q : DataQueue),
    createEmptyDataSequeue s data = some q → ∀ ops : List (Op s), ∃ outs q',
      run step q ops = some (outs, q') ∧ SizeAgrees q' (stored ops outs) := by
  intro hall
  have hq : createEmptyDataSequeue 1 (some fun _ => 0x00) = some _ := rfl
  obtain ⟨outs, q', hrun, hagrees⟩ := hall 1 _ _ hq []
  obtain ⟨rfl, rfl⟩ := Prod.mk.inj (Option.some.inj hrun)
  exact (represents_create hq).not_sizeAgrees _ hagrees

end DataQueue

end H264Cast
