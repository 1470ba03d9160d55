import H264Cast.Library.Machine
import H264Cast.Library.Ring
import Mathlib.Algebra.Ring.Int.Defs
import Mathlib.Algebra.Ring.Nat

/-! # The linear queue

A queue over a block of slots with two unsigned counters that are never reduced. Only
their remainders index the block, and full is told from empty by comparing both the
counters and the remainders. It is a bounded queue as long as the counters have not
wrapped, and after that when the number of slots divides 2^32.
-/

namespace H264Cast

/-- The queue. A size that is not positive is refused when it is created. -/
structure Queue (α : Type*) where
  head : BitVec 32
  rear : BitVec 32
  data : Option (Memory α)
  nodeSize : BitVec 32
  nodeSize_pos : 0 < nodeSize.toInt

namespace Queue

variable {α : Type*}

def emptyQueue (q : Queue α) : Bool :=
  if q.data.isNone then true else q.rear = q.head

def fullQueue (q : Queue α) : Bool :=
  if q.data.isNone then true
  else if q.emptyQueue then false
  else q.rear % q.nodeSize = q.head % q.nodeSize

def getQueueSize (q : Queue α) : ℤ :=
  if q.data.isNone then 0
  else if q.emptyQueue then 0
  else if q.head % q.nodeSize < q.rear % q.nodeSize then
    (q.rear % q.nodeSize - q.head % q.nodeSize).toInt
  else
    (q.nodeSize - q.head % q.nodeSize + q.rear % q.nodeSize).toInt

/-- The block is what the allocation returned. -/
def createQueue (size : BitVec 32) (block : Option (Memory α)) : Option (Queue α) :=
  if h : 0 < size.toInt then some ⟨0, 0, block, size, h⟩ else none

def pushQueue (q : Queue α) (node : α) : ℤ × Queue α :=
  if q.fullQueue then (-1, q)
  else (0, { q with
    data := q.data.map fun data => data.write (q.rear % q.nodeSize).toNat [node]
    rear := q.rear + 1 })

/-- The second component is the node stored through the pointer. -/
def popQueue (q : Queue α) : ℤ × Option α × Queue α :=
  if q.emptyQueue then (-1, none, q)
  else (0, q.data.map fun data => data (q.head % q.nodeSize).toNat, { q with head := q.head + 1 })

/-- The calls of a run. -/
inductive Op (α : Type*)
  | push (node : α)
  | pop

/-- What a caller sees: the result, the node, and the size asked for afterwards. -/
structure Out (α : Type*) where
  ret : ℤ
  node : Option α
  size : ℤ

def step (q : Queue α) : Op α → Out α × Queue α
  | .push node =>
    let (ret, q) := q.pushQueue node
    (⟨ret, none, q.getQueueSize⟩, q)
  | .pop =>
    let (ret, node, q) := q.popQueue
    (⟨ret, node, q.getQueueSize⟩, q)

/-- The same calls on a bounded queue. -/
def fifoStep (cap : ℕ) (xs : List α) : Op α → Out α × List α
  | .push node =>
    match Fifo.push cap node xs with
    | none => (⟨-1, none, xs.length⟩, xs)
    | some xs => (⟨0, none, xs.length⟩, xs)
  | .pop =>
    match Fifo.pop xs with
    | none => (⟨-1, none, xs.length⟩, xs)
    | some (node, xs) => (⟨0, some node, xs.length⟩, xs)

/-- The number of pushes that a bounded queue accepts. -/
def accepted (cap : ℕ) : List α → List (Op α) → ℕ
  | _, [] => 0
  | xs, .push node :: ops =>
    if xs.length < cap then accepted cap (xs ++ [node]) ops + 1 else accepted cap xs ops
  | xs, .pop :: ops => accepted cap xs.tail ops

/-- The queue holds the elements, the oldest pushed as number `h`. -/
structure Represents (q : Queue α) (h : ℕ) (xs : List α) : Prop where
  head_eq : q.head = BitVec.ofNat 32 h
  rear_eq : q.rear = BitVec.ofNat 32 (h + xs.length)
  holds : ∃ slots, q.data = some slots ∧ Ring.Holds slots q.nodeSize.toNat h xs

/-- Reducing the counter first does not change its remainder. -/
def Regular (q : Queue α) (r : ℕ) : Prop := q.nodeSize.toNat ∣ 2 ^ 32 ∨ r < 2 ^ 32

variable {q : Queue α} {h r : ℕ} {xs : List α} {x : α} {ops : List (Op α)}

theorem nodeSize_bounds (q : Queue α) : 0 < q.nodeSize.toNat ∧ q.nodeSize.toNat < 2 ^ 31 := by
  have hp := q.nodeSize_pos
  have hlt := q.nodeSize.isLt
  rw [BitVec.toInt_eq_toNat_cond] at hp
  split at hp <;> omega

theorem toNat_mod_of_regular (hr : Regular q r) {k : ℕ} (hk : k ≤ r) :
    (BitVec.ofNat 32 k % q.nodeSize).toNat = k % q.nodeSize.toNat := by
  rw [BitVec.toNat_umod, BitVec.toNat_ofNat]
  cases hr with
  | inl hd => exact Nat.mod_mod_of_dvd k hd
  | inr hlt => rw [Nat.mod_eq_of_lt (Nat.lt_of_le_of_lt hk hlt)]

namespace Represents

theorem data_isNone (hq : Represents q h xs) : q.data.isNone = false := by
  obtain ⟨slots, hdata, -⟩ := hq.holds
  rw [hdata]
  rfl

theorem length_le (hq : Represents q h xs) : xs.length ≤ q.nodeSize.toNat := by
  obtain ⟨slots, -, hslots⟩ := hq.holds
  exact hslots.length_le

/-- The counters agree exactly when nothing is stored. -/
theorem rear_eq_head (hq : Represents q h xs) : q.rear = q.head ↔ xs = [] := by
  have hle := hq.length_le
  have hlt := q.nodeSize_bounds
  rw [hq.head_eq, hq.rear_eq, ← List.length_eq_zero_iff]
  constructor
  · intro he
    have hn := congrArg BitVec.toNat he
    simp only [BitVec.toNat_ofNat] at hn
    omega
  · intro he
    rw [he, Nat.add_zero]

theorem emptyQueue_iff (hq : Represents q h xs) : q.emptyQueue = true ↔ xs = [] := by
  simp [emptyQueue, hq.data_isNone, hq.rear_eq_head]

theorem fullQueue_iff (hq : Represents q h xs) (hr : Regular q (h + xs.length)) :
    q.fullQueue = true ↔ xs.length = q.nodeSize.toNat := by
  have hpos := q.nodeSize_bounds.1
  have hmod := Ring.add_mod_cases h hq.length_le hpos
  have hrem : q.rear % q.nodeSize = q.head % q.nodeSize ↔
      (h + xs.length) % q.nodeSize.toNat = h % q.nodeSize.toNat := by
    rw [hq.head_eq, hq.rear_eq, ← BitVec.toNat_inj, toNat_mod_of_regular hr (Nat.le_refl _),
      toNat_mod_of_regular hr (Nat.le_add_right _ _)]
  by_cases he : xs = []
  · simp [fullQueue, hq.data_isNone, hq.emptyQueue_iff.mpr he, he]
    omega
  · have hne : q.emptyQueue = false := by simpa using hq.emptyQueue_iff.not.mpr he
    have hlen := List.length_pos_iff.mpr he
    simp only [fullQueue, hq.data_isNone, hne, hrem, Bool.false_eq_true, if_false,
      decide_eq_true_eq]
    omega

theorem getQueueSize_eq (hq : Represents q h xs) (hr : Regular q (h + xs.length)) :
    q.getQueueSize = xs.length := by
  have hbounds := q.nodeSize_bounds
  have hmod := Ring.add_mod_cases h hq.length_le hbounds.1
  by_cases he : xs = []
  · simp [getQueueSize, hq.data_isNone, hq.emptyQueue_iff.mpr he, he]
  · have hne : q.emptyQueue = false := by simpa using hq.emptyQueue_iff.not.mpr he
    have hhead : (q.head % q.nodeSize).toNat = h % q.nodeSize.toNat := by
      rw [hq.head_eq, toNat_mod_of_regular hr (Nat.le_add_right _ _)]
    have hrear : (q.rear % q.nodeSize).toNat = (h + xs.length) % q.nodeSize.toNat := by
      rw [hq.rear_eq, toNat_mod_of_regular hr (Nat.le_refl _)]
    have hlen := List.length_pos_iff.mpr he
    have hle := hq.length_le
    have hlt := Nat.mod_lt h hbounds.1
    have hlt' := Nat.mod_lt (h + xs.length) hbounds.1
    simp only [getQueueSize, hq.data_isNone, hne, BitVec.lt_def, hhead, hrear, Bool.false_eq_true,
      if_false]
    split_ifs with hcmp
    · have hsub : (q.rear % q.nodeSize - q.head % q.nodeSize).toNat = xs.length := by
        rw [BitVec.toNat_sub, hhead, hrear]
        simp only [Nat.reducePow]
        omega
      rw [BitVec.toInt_eq_toNat_of_lt (by omega), hsub]
    · have hsub : (q.nodeSize - q.head % q.nodeSize + q.rear % q.nodeSize).toNat = xs.length := by
        rw [BitVec.toNat_add, BitVec.toNat_sub, hhead, hrear]
        simp only [Nat.reducePow]
        omega
      rw [BitVec.toInt_eq_toNat_of_lt (by omega), hsub]

theorem pushQueue (hq : Represents q h xs) (hr : Regular q (h + xs.length))
    (hlt : xs.length < q.nodeSize.toNat) (x : α) :
    ∃ q', q.pushQueue x = (0, q') ∧ q'.nodeSize = q.nodeSize ∧ Represents q' h (xs ++ [x]) := by
  have hfull : q.fullQueue = false := by
    simpa using (hq.fullQueue_iff hr).not.mpr (Nat.ne_of_lt hlt)
  obtain ⟨slots, hdata, hslots⟩ := hq.holds
  have hidx : (q.rear % q.nodeSize).toNat = (h + xs.length) % q.nodeSize.toNat := by
    rw [hq.rear_eq, toNat_mod_of_regular hr (Nat.le_refl _)]
  refine ⟨{ q with
      data := some (slots.write ((h + xs.length) % q.nodeSize.toNat) [x])
      rear := q.rear + 1 }, ?_, rfl, hq.head_eq, ?_, _, rfl, ?_⟩
  · simp [Queue.pushQueue, hfull, hdata, hidx]
  · change q.rear + 1 = _
    rw [hq.rear_eq, List.length_append, ← Nat.add_assoc]
    exact (BitVec.ofNat_add _ _).symm
  · refine hslots.push hlt ?_ fun j _ hj => ?_
    · simp [Memory.write]
    · exact Memory.write_of_outside (Nat.lt_or_gt_of_ne hj)

theorem popQueue (hq : Represents q h (x :: xs)) (hr : Regular q (h + (x :: xs).length)) :
    ∃ q', q.popQueue = (0, some x, q') ∧ q'.nodeSize = q.nodeSize ∧ Represents q' (h + 1) xs := by
  have hne : q.emptyQueue = false := by
    simpa using hq.emptyQueue_iff.not.mpr (List.cons_ne_nil _ _)
  obtain ⟨slots, hdata, hslots⟩ := hq.holds
  have hidx : (q.head % q.nodeSize).toNat = h % q.nodeSize.toNat := by
    rw [hq.head_eq, toNat_mod_of_regular hr (Nat.le_add_right _ _)]
  refine ⟨{ q with head := q.head + 1 }, ?_, rfl, ?_, ?_, slots, hdata, hslots.tail⟩
  · simp [Queue.popQueue, hne, hdata, hidx, hslots.head]
  · change q.head + 1 = _
    rw [hq.head_eq, BitVec.ofNat_add]
    rfl
  · rw [hq.rear_eq, List.length_cons, Nat.add_assoc, Nat.add_comm 1]

/-- Once the counter of pushes has wrapped, the size is wrong unless the number of slots
divides 2^32. -/
theorem getQueueSize_ne (hq : Represents q h xs) (hne : xs ≠ []) (hr : h + xs.length = 2 ^ 32)
    (hd : ¬ q.nodeSize.toNat ∣ 2 ^ 32) : q.getQueueSize ≠ xs.length := by
  have hbounds := q.nodeSize_bounds
  have hempty : q.emptyQueue = false := by simpa using hq.emptyQueue_iff.not.mpr hne
  have hlen := List.length_pos_iff.mpr hne
  have hhead : (q.head % q.nodeSize).toNat = h % q.nodeSize.toNat := by
    rw [hq.head_eq, BitVec.toNat_umod, BitVec.toNat_ofNat, Nat.mod_eq_of_lt (a := h) (by omega)]
  have hrear : q.rear % q.nodeSize = 0 := by
    rw [hq.rear_eq, hr]
    simp
  have hlt := Nat.mod_lt h hbounds.1
  have hsub : (q.nodeSize - q.head % q.nodeSize + 0).toNat =
      q.nodeSize.toNat - h % q.nodeSize.toNat := by
    rw [BitVec.ofNat_eq_ofNat, BitVec.add_zero, BitVec.toNat_sub, hhead]
    simp only [Nat.reducePow]
    omega
  have hcmp : ¬ q.head % q.nodeSize < 0 := by simp
  simp only [getQueueSize, hq.data_isNone, hempty, hrear, hcmp, Bool.false_eq_true, if_false]
  rw [BitVec.toInt_eq_toNat_of_lt (by omega), hsub]
  intro he
  apply hd
  have hdiv := Nat.div_add_mod h q.nodeSize.toNat
  exact ⟨h / q.nodeSize.toNat + 1, by rw [Nat.mul_add_one]; omega⟩

theorem pushQueue_full (hq : Represents q h xs) (hr : Regular q (h + xs.length))
    (hge : ¬ xs.length < q.nodeSize.toNat) (x : α) : q.pushQueue x = (-1, q) := by
  have hfull := (hq.fullQueue_iff hr).mpr (Nat.le_antisymm hq.length_le (Nat.not_lt.mp hge))
  simp [Queue.pushQueue, hfull]

theorem popQueue_empty (hq : Represents q h ([] : List α)) : q.popQueue = (-1, none, q) := by
  simp [Queue.popQueue, hq.emptyQueue_iff.mpr rfl]

/-- One call answers as the bounded queue does, as long as its push does not wrap. -/
theorem step (hq : Represents q h xs) (hr : Regular q (h + xs.length)) (op : Op α)
    (hr' : Regular q (h + xs.length + accepted q.nodeSize.toNat xs [op])) :
    (q.step op).1 = (fifoStep q.nodeSize.toNat xs op).1 ∧
      (q.step op).2.nodeSize = q.nodeSize ∧
      ∃ h', Represents (q.step op).2 h' (fifoStep q.nodeSize.toNat xs op).2 ∧
        h' + (fifoStep q.nodeSize.toNat xs op).2.length =
          h + xs.length + accepted q.nodeSize.toNat xs [op] := by
  cases op with
  | push x =>
    by_cases hlt : xs.length < q.nodeSize.toNat
    · obtain ⟨q', hpush, hsize, hq'⟩ := hq.pushQueue hr hlt x
      have hreg : Regular q' (h + (xs ++ [x]).length) := by
        simpa [Regular, hsize, accepted, hlt, Nat.add_assoc] using hr'
      have hstep : q.step (.push x) = (⟨0, none, (xs ++ [x]).length⟩, q') := by
        simp only [Queue.step, hpush, hq'.getQueueSize_eq hreg]
      have hfifo : fifoStep q.nodeSize.toNat xs (.push x) =
          (⟨0, none, (xs ++ [x]).length⟩, xs ++ [x]) := by
        simp only [fifoStep, Fifo.push, if_pos hlt]
      rw [hstep, hfifo]
      exact ⟨rfl, hsize, h, hq', by simp [accepted, hlt, Nat.add_assoc]⟩
    · have hstep : q.step (.push x) = (⟨-1, none, xs.length⟩, q) := by
        simp only [Queue.step, hq.pushQueue_full hr hlt, hq.getQueueSize_eq hr]
      have hfifo : fifoStep q.nodeSize.toNat xs (.push x) = (⟨-1, none, xs.length⟩, xs) := by
        simp only [fifoStep, Fifo.push, if_neg hlt]
      rw [hstep, hfifo]
      exact ⟨rfl, rfl, h, hq, by simp [accepted, hlt]⟩
  | pop =>
    cases xs with
    | nil =>
      have hstep : q.step .pop = (⟨-1, none, ([] : List α).length⟩, q) := by
        simp only [Queue.step, hq.popQueue_empty, hq.getQueueSize_eq hr]
      rw [hstep]
      exact ⟨rfl, rfl, h, hq, rfl⟩
    | cons x xs =>
      obtain ⟨q', hpop, hsize, hq'⟩ := hq.popQueue hr
      have hlen : h + 1 + xs.length = h + (x :: xs).length := by
        rw [List.length_cons]
        omega
      have hreg : Regular q' (h + 1 + xs.length) := by
        rw [hlen]
        simpa [Regular, hsize] using hr
      have hstep : q.step .pop = (⟨0, some x, xs.length⟩, q') := by
        simp only [Queue.step, hpop, hq'.getQueueSize_eq hreg]
      rw [hstep]
      exact ⟨rfl, hsize, h + 1, hq', hlen⟩

/-- The push that wraps the counter reports a wrong size. -/
theorem step_ne (hq : Represents q h xs) (hr : h + xs.length + 1 = 2 ^ 32)
    (hlt : xs.length < q.nodeSize.toNat) (hd : ¬ q.nodeSize.toNat ∣ 2 ^ 32) (x : α) :
    (q.step (.push x)).1 ≠ (fifoStep q.nodeSize.toNat xs (.push x)).1 := by
  obtain ⟨q', hpush, hsize, hq'⟩ := hq.pushQueue (Or.inr (by omega)) hlt x
  have hne := hq'.getQueueSize_ne (by simp) (by simpa [← Nat.add_assoc] using hr) (hsize ▸ hd)
  simp only [Queue.step, hpush, fifoStep, Fifo.push, if_pos hlt]
  intro he
  exact hne (congrArg Out.size he)

end Represents

theorem accepted_cons (cap : ℕ) (xs : List α) (op : Op α) (ops : List (Op α)) :
    accepted cap xs (op :: ops) =
      accepted cap xs [op] + accepted cap (fifoStep cap xs op).2 ops := by
  cases op with
  | push x =>
    by_cases hlt : xs.length < cap
    · simp [accepted, fifoStep, Fifo.push, hlt, Nat.add_comm]
    · simp [accepted, fifoStep, Fifo.push, hlt]
  | pop => cases xs <;> simp [accepted, fifoStep, Fifo.pop]

/-- The outputs of a run are those of the bounded queue exactly when the number of slots
divides 2^32 or the counter of pushes does not wrap. -/
theorem outputs_eq_iff (hq : Represents q h xs) (hr : Regular q (h + xs.length))
    (ops : List (Op α)) :
    outputs step q ops = outputs (fifoStep q.nodeSize.toNat) xs ops ↔
      Regular q (h + xs.length + accepted q.nodeSize.toNat xs ops) := by
  induction ops generalizing q h xs with
  | nil => simp [outputs, accepted, hr]
  | cons op ops ih =>
    rw [outputs_cons, outputs_cons, List.cons.injEq, accepted_cons]
    by_cases hr' : Regular q (h + xs.length + accepted q.nodeSize.toNat xs [op])
    · obtain ⟨hout, hsize, h', hq', hlen⟩ := hq.step hr op hr'
      have hreg (r : ℕ) : Regular (q.step op).2 r ↔ Regular q r := by rw [Regular, hsize, Regular]
      have ih := ih hq' ((hreg _).mpr (hlen ▸ hr'))
      rw [hsize, hreg, hlen] at ih
      simp only [hout, true_and, ih, Nat.add_assoc]
    · have hnot : ¬ Regular q (h + xs.length + (accepted q.nodeSize.toNat xs [op] +
          accepted q.nodeSize.toNat (fifoStep q.nodeSize.toNat xs op).2 ops)) :=
        fun hreg => hr' (hreg.imp_right fun hlt => by omega)
      refine iff_of_false ?_ hnot
      rintro ⟨hout, -⟩
      obtain ⟨hd, hge⟩ := not_or.mp hr'
      have hlow := hr.resolve_left hd
      cases op with
      | pop => exact hge hlow
      | push x =>
        by_cases hlt : xs.length < q.nodeSize.toNat
        · simp only [accepted, if_pos hlt] at hge
          exact hq.step_ne (by omega) hlt hd x hout
        · simp only [accepted, if_neg hlt] at hge
          exact hge hlow

/-! ### Runs from the creation of a queue -/

theorem represents_createQueue {size : BitVec 32} {slots : Memory α}
    (hq : createQueue size (some slots) = some q) : q.nodeSize = size ∧ Represents q 0 [] := by
  unfold createQueue at hq
  split_ifs at hq with hsize
  obtain rfl := Option.some.inj hq
  exact ⟨rfl, rfl, rfl, slots, rfl, Ring.holds_nil _ _ _⟩

theorem step_of_data_none (hdata : q.data = none) (op : Op α) :
    q.step op = (⟨-1, none, 0⟩, q) := by
  cases op <;>
    simp [step, pushQueue, popQueue, fullQueue, emptyQueue, getQueueSize, hdata]

/-- Without a block every call fails. -/
theorem outputs_of_data_none (hdata : q.data = none) (ops : List (Op α)) :
    outputs step q ops = outputs (fifoStep q.nodeSize.toNat) [] ops ↔ ∀ x, Op.push x ∉ ops := by
  induction ops with
  | nil => simp [outputs]
  | cons op ops ih =>
    rw [outputs_cons, outputs_cons, step_of_data_none hdata]
    cases op with
    | push x =>
      have hpush : ¬ ∀ y, Op.push y ∉ Op.push x :: ops := fun h => h x List.mem_cons_self
      simp only [hpush, iff_false]
      simp [fifoStep, Fifo.push, q.nodeSize_bounds.1]
    | pop =>
      simpa [fifoStep, Fifo.pop] using ih

/-- A queue just created behaves as a bounded queue on a sequence of calls exactly when it has
a block and either its size divides 2^32 or fewer than 2^32 pushes are accepted, or it has no
block and nothing is pushed. -/
theorem outputs_createQueue {size : BitVec 32} {block : Option (Memory α)}
    (hq : createQueue size block = some q) (ops : List (Op α)) :
    outputs step q ops = outputs (fifoStep size.toNat) [] ops ↔
      (block.isSome ∧ (size.toNat ∣ 2 ^ 32 ∨ accepted size.toNat [] ops < 2 ^ 32)) ∨
        (block = none ∧ ∀ node, Op.push node ∉ ops) := by
  cases block with
  | none =>
    unfold createQueue at hq
    split_ifs at hq with hsize
    obtain rfl := Option.some.inj hq
    simpa using outputs_of_data_none rfl ops
  | some slots =>
    obtain ⟨rfl, hrep⟩ := represents_createQueue hq
    have hreg : Regular q (0 + ([] : List α).length) := Or.inr (by simp)
    simpa [Regular] using outputs_eq_iff hrep hreg ops

theorem outputs_createQueue_three :
    ∃ q, createQueue 3 (some fun _ => (0 : ℕ)) = some q ∧
      (outputs step q [.push 7, .push 8, .pop] =
          outputs (fifoStep (3 : BitVec 32).toNat) [] [.push 7, .push 8, .pop] ↔
        ((some fun _ : ℕ => (0 : ℕ)).isSome ∧ ((3 : BitVec 32).toNat ∣ 2 ^ 32 ∨
          accepted (3 : BitVec 32).toNat [] [.push 7, .push 8, .pop] < 2 ^ 32)) ∨
        ((some fun _ : ℕ => (0 : ℕ)) = none ∧ ∀ node, Op.push node ∉ [.push 7, .push 8, .pop])) :=
  ⟨_, rfl, outputs_createQueue rfl _⟩

/-- The queue over an array runs the same code with a fixed number of slots, and without the
test for the block. -/
def arrayQueue (data : Memory α) : Queue α := ⟨0, 0, some data, 3, by decide⟩

theorem outputs_arrayQueue (data : Memory α) (ops : List (Op α)) :
    outputs step (arrayQueue data) ops = outputs (fifoStep 3) [] ops ↔
      accepted 3 [] ops < 2 ^ 32 := by
  have hrep : Represents (arrayQueue data) 0 [] := ⟨rfl, rfl, data, rfl, Ring.holds_nil _ _ _⟩
  have hreg : Regular (arrayQueue data) (0 + ([] : List α).length) := Or.inr (by simp)
  have hd : ¬ 3 ∣ 2 ^ 32 := by decide
  simpa [Regular, arrayQueue, hd] using outputs_eq_iff hrep hreg ops

/-- Push and pop many times over, then push once more. -/
def longRun (k : ℕ) : List (Op Unit) :=
  match k with
  | 0 => [.push ()]
  | k + 1 => .push () :: .pop :: longRun k

theorem accepted_longRun (k : ℕ) : accepted 3 [] (longRun k) = k + 1 := by
  induction k with
  | zero => rfl
  | succ k ih =>
    have hcons : accepted 3 [] (longRun (k + 1)) = accepted 3 [] (longRun k) + 1 := rfl
    rw [hcons, ih]

/-- With three slots the size is wrong after the push that wraps the counter. -/
theorem not_outputs_longRun :
    ∃ q, createQueue 3 (some fun _ => ()) = some q ∧
      outputs step q (longRun (2 ^ 32 - 1)) ≠ outputs (fifoStep 3) [] (longRun (2 ^ 32 - 1)) := by
  refine ⟨arrayQueue fun _ => (), rfl, fun he => ?_⟩
  have hlt := (outputs_arrayQueue _ _).mp he
  rw [accepted_longRun] at hlt
  omega

end Queue

end H264Cast
