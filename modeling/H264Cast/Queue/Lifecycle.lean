import H264Cast.Library.Block
import H264Cast.Library.Heap
import H264Cast.Queue.Pointer

/-! # The life cycle of the linear queue

The queue with the block it allocates and frees. Whether it exists is read off the pointer
to the block, which destroying the queue does not reset, while the counters and the size
are. A destroyed queue is then an empty queue without slots: a push divides by zero and
another destruction frees the block again.
-/

namespace H264Cast

/-- The fields of the queue, with the heap its block lives in. -/
structure RawQueue (α : Type*) where
  heap : Heap (Block α)
  head : BitVec 32
  rear : BitVec 32
  data : Option ℕ
  nodeSize : BitVec 32

namespace RawQueue

variable {α : Type*}

/-- The remainder, which has no result for a zero divisor. -/
def remainder (x y : BitVec 32) : Option (BitVec 32) := if y = 0 then none else some (x % y)

def emptyQueue (q : RawQueue α) : Bool :=
  if q.data.isNone then true else q.rear = q.head

def fullQueue (q : RawQueue α) : Option Bool :=
  if q.data.isNone then some true
  else if q.emptyQueue then some false
  else
    (remainder q.rear q.nodeSize).bind fun rear =>
      (remainder q.head q.nodeSize).map fun head => rear = head

def getQueueSize (q : RawQueue α) : Option ℤ :=
  if q.data.isNone then some 0
  else if q.emptyQueue then some 0
  else
    (remainder q.rear q.nodeSize).bind fun rear =>
      (remainder q.head q.nodeSize).map fun head =>
        if head < rear then (rear - head).toInt else (q.nodeSize - head + rear).toInt

/-- The block is what the allocation returned, with whatever was there. -/
def createQueue (q : RawQueue α) (size : BitVec 32) (block : ℕ) (garbage : Memory α) :
    ℤ × RawQueue α :=
  if 0 < size.toInt then
    (0, ⟨q.heap.insert block ⟨size.toNat, garbage⟩, 0, 0, some block, size⟩)
  else (-1, q)

def pushQueue (q : RawQueue α) (node : α) : Option (ℤ × RawQueue α) :=
  q.fullQueue.bind fun full =>
    if full then some (-1, q)
    else
      q.data.bind fun data =>
        (remainder q.rear q.nodeSize).bind fun i =>
          (q.heap.lookup data).bind fun block =>
            (block.store i.toNat [node]).bind fun block =>
              (Heap.store q.heap data block).map fun heap =>
                (0, { q with heap := heap, rear := q.rear + 1 })

/-- The second component is the node stored through the pointer. -/
def popQueue (q : RawQueue α) : Option (ℤ × Option α × RawQueue α) :=
  if q.emptyQueue then some (-1, none, q)
  else
    q.data.bind fun data =>
      (remainder q.head q.nodeSize).bind fun i =>
        (q.heap.lookup data).bind fun block =>
          (block.load i.toNat 1).map fun nodes =>
            (0, nodes.head?, { q with head := q.head + 1 })

/-- Freeing a block that is not allocated has no result. -/
def destroyQueue (q : RawQueue α) : Option (ℤ × RawQueue α) :=
  match q.data with
  | none => some (-1, q)
  | some data =>
    (Heap.free q.heap data).map fun heap =>
      (0, { q with heap := heap, head := 0, rear := 0, nodeSize := 0 })

/-- The calls of the menu. -/
inductive Op (α : Type*)
  | create (size : BitVec 32) (block : ℕ) (garbage : Memory α)
  | push (node : α)
  | pop
  | getSize
  | destroy

def step (q : RawQueue α) : Op α → Option (ℤ × RawQueue α)
  | .create size block garbage => some (q.createQueue size block garbage)
  | .push node => q.pushQueue node
  | .pop => q.popQueue.map fun (ret, _, q) => (ret, q)
  | .getSize => q.getQueueSize.map fun size => (size, q)
  | .destroy => q.destroyQueue

/-- The call takes or puts a node. -/
def Op.isTransfer : Op α → Bool
  | .push _ => true
  | .pop => true
  | _ => false

/-- The queue has been destroyed and not been created since. -/
def Op.destroys (destroyed : Bool) : Op α → Bool
  | .create size _ _ => if 0 < size.toInt then false else destroyed
  | .destroy => true
  | _ => destroyed

/-- Every call of the run has a result, and from a destruction on pushes and pops fail until
the queue is created again. -/
def Lawful : Bool → RawQueue α → List (Op α) → Prop
  | _, _, [] => True
  | destroyed, q, op :: ops =>
    ∃ ret q', q.step op = some (ret, q') ∧ (destroyed → op.isTransfer → ret = -1) ∧
      Lawful (op.destroys destroyed) q' ops

/-- What the calls have made of the queue. -/
inductive Phase
  | absent
  | live
  | destroyed
  deriving DecidableEq

def Phase.next (s : Phase) : Op α → Phase
  | .create size _ _ => if 0 < size.toInt then .live else s
  | .destroy => if s = .live then .destroyed else s
  | _ => s

/-- A destroyed queue is not pushed to and not destroyed again. -/
def Phase.admits : Phase → Op α → Bool
  | .destroyed, .push _ => false
  | .destroyed, .destroy => false
  | _, _ => true

def Careful : Phase → List (Op α) → Prop
  | _, [] => True
  | s, op :: ops => s.admits op ∧ Careful (s.next op) ops

/-- The queue has its block, which contains the slots of the queue without a heap. -/
structure Models (q : RawQueue α) (p : Queue α) : Prop where
  head_eq : q.head = p.head
  rear_eq : q.rear = p.rear
  nodeSize_eq : q.nodeSize = p.nodeSize
  block : ∃ data slots, q.data = some data ∧
    q.heap.lookup data = some ⟨p.nodeSize.toNat, slots⟩ ∧ p.data = some slots

variable {q q' : RawQueue α} {p : Queue α} {s : Phase} {ops : List (Op α)} {destroyed : Bool}

theorem remainder_eq (p : Queue α) (x : BitVec 32) :
    remainder x p.nodeSize = some (x % p.nodeSize) := by
  have hpos := p.nodeSize_bounds.1
  have hne : p.nodeSize ≠ 0 := by
    intro hzero
    rw [hzero] at hpos
    exact Nat.lt_irrefl _ hpos
  rw [remainder, if_neg hne]

theorem index_lt (p : Queue α) (x : BitVec 32) : (x % p.nodeSize).toNat + 1 ≤ p.nodeSize.toNat := by
  rw [BitVec.toNat_umod]
  exact Nat.mod_lt _ p.nodeSize_bounds.1

namespace Models

theorem emptyQueue_eq (hq : Models q p) : q.emptyQueue = p.emptyQueue := by
  obtain ⟨data, slots, hdata, -, hslots⟩ := hq.block
  simp [emptyQueue, Queue.emptyQueue, hdata, hslots, hq.rear_eq, hq.head_eq]

theorem fullQueue_eq (hq : Models q p) : q.fullQueue = some p.fullQueue := by
  obtain ⟨data, slots, hdata, -, hslots⟩ := hq.block
  simp only [fullQueue, Queue.fullQueue, hdata, hslots, hq.emptyQueue_eq, remainder_eq,
    hq.rear_eq, hq.head_eq, hq.nodeSize_eq, Option.isNone_some, Bool.false_eq_true, if_false,
    Option.bind_some, Option.map_some]
  split_ifs <;> rfl

theorem getQueueSize_eq (hq : Models q p) : q.getQueueSize = some p.getQueueSize := by
  obtain ⟨data, slots, hdata, -, hslots⟩ := hq.block
  simp only [getQueueSize, Queue.getQueueSize, hdata, hslots, hq.emptyQueue_eq, hq.nodeSize_eq,
    remainder_eq, hq.rear_eq, hq.head_eq, Option.isNone_some, Bool.false_eq_true, if_false,
    Option.bind_some, Option.map_some]
  split_ifs <;> rfl

theorem pushQueue (hq : Models q p) (node : α) :
    ∃ q', q.pushQueue node = some ((p.pushQueue node).1, q') ∧
      Models q' (p.pushQueue node).2 := by
  obtain ⟨data, slots, hdata, hblock, hslots⟩ := hq.block
  have hfull := hq.fullQueue_eq
  cases hp : p.fullQueue with
  | true =>
    refine ⟨q, ?_, ?_⟩
    · simp [RawQueue.pushQueue, Queue.pushQueue, hfull, hp]
    · simpa [Queue.pushQueue, hp] using hq
  | false =>
    have hindex := index_lt p q.rear
    refine ⟨⟨q.heap.insert data ⟨p.nodeSize.toNat,
      slots.write (q.rear % p.nodeSize).toNat [node]⟩, q.head, q.rear + 1, q.data, p.nodeSize⟩,
      ?_, ?_⟩
    · simp only [RawQueue.pushQueue, Queue.pushQueue, hfull, hp, hdata, hq.nodeSize_eq,
        remainder_eq, hblock, Option.bind_some, Bool.false_eq_true, if_false]
      rw [Block.store_eq (by simpa using hindex), Option.bind_some, Heap.store_eq hblock,
        Option.map_some]
    · simp only [Queue.pushQueue, hp, Bool.false_eq_true, if_false]
      constructor
      case head_eq => exact hq.head_eq
      case rear_eq => exact congrArg (· + 1) hq.rear_eq
      case nodeSize_eq => rfl
      case block =>
        refine ⟨data, slots.write (q.rear % p.nodeSize).toNat [node], hdata,
          Finmap.lookup_insert _, ?_⟩
        simp [hslots, hq.rear_eq]

theorem popQueue (hq : Models q p) :
    ∃ q', q.popQueue = some (p.popQueue.1, p.popQueue.2.1, q') ∧ Models q' p.popQueue.2.2 := by
  obtain ⟨data, slots, hdata, hblock, hslots⟩ := hq.block
  have hempty := hq.emptyQueue_eq
  cases hp : p.emptyQueue with
  | true =>
    refine ⟨q, ?_, ?_⟩
    · simp [RawQueue.popQueue, Queue.popQueue, hempty, hp]
    · simpa [Queue.popQueue, hp] using hq
  | false =>
    have hindex := index_lt p q.head
    refine ⟨{ q with head := q.head + 1 }, ?_, ?_⟩
    · simp only [RawQueue.popQueue, Queue.popQueue, hempty, hp, hdata, hq.nodeSize_eq,
        remainder_eq, hblock, Option.bind_some, Bool.false_eq_true, if_false, hslots]
      rw [Block.load_eq (by simpa using hindex), Option.map_some]
      simp [Memory.read, hq.head_eq]
    · simp only [Queue.popQueue, hp, Bool.false_eq_true, if_false]
      exact ⟨congrArg (· + 1) hq.head_eq, hq.rear_eq, hq.nodeSize_eq, data, slots, hdata, hblock,
        hslots⟩

end Models

/-- The state of the queue in a phase. A destroyed queue keeps the address of its block. -/
def Phase.Describes : Phase → RawQueue α → Prop
  | .absent, q => q.data = none
  | .live, q => ∃ p, Models q p
  | .destroyed, q => ∃ data, q.data = some data ∧ data ∉ q.heap ∧ q.head = q.rear ∧ q.nodeSize = 0

theorem models_createQueue {size : BitVec 32} (hsize : 0 < size.toInt) (q : RawQueue α)
    (block : ℕ) (garbage : Memory α) :
    ∃ q', q.createQueue size block garbage = (0, q') ∧
      Models q' ⟨0, 0, some garbage, size, hsize⟩ :=
  ⟨_, if_pos hsize, rfl, rfl, rfl, block, garbage, rfl, Finmap.lookup_insert _, rfl⟩

theorem step_create (q : RawQueue α) (hs : s.Describes q) (size : BitVec 32) (block : ℕ)
    (garbage : Memory α) :
    ∃ ret q', q.step (.create size block garbage) = some (ret, q') ∧
      (s.next (.create size block garbage : Op α)).Describes q' := by
  by_cases hsize : 0 < size.toInt
  · obtain ⟨q', hcreate, hq'⟩ := models_createQueue hsize q block garbage
    refine ⟨0, q', congrArg some hcreate, ?_⟩
    rw [Phase.next, if_pos hsize]
    exact ⟨_, hq'⟩
  · refine ⟨-1, q, congrArg some (if_neg hsize), ?_⟩
    rw [Phase.next, if_neg hsize]
    exact hs

theorem step_push (hs : s.Describes q) (hpush : s ≠ .destroyed) (node : α) :
    ∃ ret q', q.step (.push node) = some (ret, q') ∧ s.Describes q' ∧ (s ≠ .live → ret = -1) := by
  cases s with
  | absent =>
    have hdata : q.data = none := hs
    refine ⟨-1, q, ?_, hs, fun _ => rfl⟩
    simp [step, pushQueue, fullQueue, hdata]
  | live =>
    obtain ⟨p, hp⟩ := hs
    obtain ⟨q', hpush, hq'⟩ := hp.pushQueue node
    exact ⟨_, q', hpush, ⟨_, hq'⟩, fun h => (h rfl).elim⟩
  | destroyed => exact (hpush rfl).elim

/-- A queue that is not live is empty. -/
theorem emptyQueue_of_ne_live (hs : s.Describes q) (hlive : s ≠ .live) : q.emptyQueue = true := by
  cases s with
  | absent => simp [emptyQueue, show q.data = none from hs]
  | live => exact (hlive rfl).elim
  | destroyed =>
    obtain ⟨data, hdata, -, hhead, -⟩ := hs
    simp [emptyQueue, hdata, hhead]

theorem step_pop (hs : s.Describes q) :
    ∃ ret q', q.step .pop = some (ret, q') ∧ s.Describes q' ∧ (s ≠ .live → ret = -1) := by
  by_cases hlive : s = .live
  · subst hlive
    obtain ⟨p, hp⟩ := hs
    obtain ⟨q', hpop, hq'⟩ := hp.popQueue
    refine ⟨p.popQueue.1, q', ?_, ⟨_, hq'⟩, fun h => (h rfl).elim⟩
    rw [step, hpop, Option.map_some]
  · refine ⟨-1, q, ?_, hs, fun _ => rfl⟩
    simp [step, popQueue, emptyQueue_of_ne_live hs hlive]

theorem step_getSize (hs : s.Describes q) : ∃ ret, q.step .getSize = some (ret, q) := by
  cases s with
  | absent =>
    have hdata : q.data = none := hs
    exact ⟨0, by simp [step, getQueueSize, hdata]⟩
  | live =>
    obtain ⟨p, hp⟩ := hs
    refine ⟨p.getQueueSize, ?_⟩
    rw [step, hp.getQueueSize_eq, Option.map_some]
  | destroyed =>
    obtain ⟨data, hdata, -, hhead, -⟩ := hs
    exact ⟨0, by simp [step, getQueueSize, emptyQueue, hdata, hhead]⟩

theorem step_destroy (hs : s.Describes q) (hdestroy : s ≠ .destroyed) :
    ∃ ret q', q.step .destroy = some (ret, q') ∧ (s.next (.destroy : Op α)).Describes q' := by
  cases s with
  | absent =>
    have hdata : q.data = none := hs
    exact ⟨-1, q, by simp [step, destroyQueue, hdata], hs⟩
  | live =>
    obtain ⟨p, hp⟩ := hs
    obtain ⟨data, slots, hdata, hblock, -⟩ := hp.block
    refine ⟨0, ⟨q.heap.erase data, 0, 0, some data, 0⟩, ?_,
      data, rfl, Finmap.notMem_erase_self, rfl, rfl⟩
    simp [step, destroyQueue, hdata, Heap.free_eq hblock]
  | destroyed => exact (hdestroy rfl).elim

/-- What a call does that is admitted in the phase. -/
theorem step_of_admits (hs : s.Describes q) (op : Op α) (hop : s.admits op = true) :
    ∃ ret q', q.step op = some (ret, q') ∧ (s.next op).Describes q' ∧
      (s ≠ .live → op.isTransfer → ret = -1) := by
  cases op with
  | create size block garbage =>
    obtain ⟨ret, q', hstep, hs'⟩ := step_create q hs size block garbage
    exact ⟨ret, q', hstep, hs', fun _ h => by cases h⟩
  | push node =>
    have hpush : s ≠ .destroyed := by
      rintro rfl
      cases hop
    obtain ⟨ret, q', hstep, hs', hret⟩ := step_push hs hpush node
    exact ⟨ret, q', hstep, hs', fun hlive _ => hret hlive⟩
  | pop =>
    obtain ⟨ret, q', hstep, hs', hret⟩ := step_pop hs
    exact ⟨ret, q', hstep, hs', fun hlive _ => hret hlive⟩
  | getSize =>
    obtain ⟨ret, hstep⟩ := step_getSize hs
    exact ⟨ret, q, hstep, hs, fun _ h => by cases h⟩
  | destroy =>
    have hdestroy : s ≠ .destroyed := by
      rintro rfl
      cases hop
    obtain ⟨ret, q', hstep, hs'⟩ := step_destroy hs hdestroy
    exact ⟨ret, q', hstep, hs', fun _ h => by cases h⟩

/-- Pushing to a destroyed queue divides by zero, and destroying it again frees the block
again. -/
theorem step_of_not_admits (hs : s.Describes q) {op : Op α} (hop : s.admits op ≠ true) :
    q.step op = none := by
  cases s with
  | absent => exact (hop rfl).elim
  | live => exact (hop rfl).elim
  | destroyed =>
    obtain ⟨data, hdata, hmem, hhead, hsize⟩ := hs
    cases op with
    | push node =>
      have hfull : q.fullQueue = some false := by
        simp [fullQueue, emptyQueue, hdata, hhead]
      simp [step, pushQueue, hfull, hdata, remainder, hsize]
    | destroy => simp [step, destroyQueue, hdata, Heap.free, hmem]
    | create size block garbage => exact (hop rfl).elim
    | pop => exact (hop rfl).elim
    | getSize => exact (hop rfl).elim

/-- What comes after a destruction is not a live queue. -/
theorem next_ne_live (op : Op α) (hs : destroyed = true → s ≠ .live)
    (h : op.destroys destroyed = true) : s.next op ≠ .live := by
  cases op with
  | create size block garbage =>
    by_cases hsize : 0 < size.toInt
    · simp [Op.destroys, hsize] at h
    · rw [Op.destroys, if_neg hsize] at h
      rw [Phase.next, if_neg hsize]
      exact hs h
  | push node => exact hs h
  | pop => exact hs h
  | getSize => exact hs h
  | destroy => cases s <;> simp [Phase.next]

theorem Phase.Describes.lawful_iff (hs : s.Describes q) (hd : destroyed = true → s ≠ .live) :
    Lawful destroyed q ops ↔ Careful s ops := by
  induction ops generalizing s q destroyed with
  | nil => exact Iff.rfl
  | cons op ops ih =>
    rw [Lawful, Careful]
    by_cases hop : s.admits op = true
    · obtain ⟨ret, q', hstep, hs', hret⟩ := step_of_admits hs op hop
      rw [and_iff_right hop, ← ih hs' (next_ne_live op hd)]
      constructor
      · rintro ⟨ret₁, q₁, hstep₁, -, hlaw⟩
        obtain ⟨rfl, rfl⟩ := Prod.mk.inj (Option.some.inj (hstep₁.symm.trans hstep))
        exact hlaw
      · exact fun hlaw => ⟨ret, q', hstep, fun h => hret (hd h), hlaw⟩
    · rw [step_of_not_admits hs hop]
      refine iff_of_false ?_ fun h => hop h.1
      rintro ⟨ret, q', hnone, -⟩
      cases hnone

/-- A run from the zeroed queue never divides by zero and never touches or frees a freed
block, with pushes and pops failing while the queue is destroyed, exactly when no queue that
has been destroyed is pushed to or destroyed again before it is created again. -/
theorem lawful_iff_careful (heap : Heap (Block α)) (ops : List (Op α)) :
    Lawful false ⟨heap, 0, 0, none, 0⟩ ops ↔ Careful .absent ops :=
  Phase.Describes.lawful_iff (s := .absent) rfl fun h => by cases h

/-- A push after the destruction divides by zero. -/
theorem not_lawful_destroyed :
    ¬ Lawful false (⟨∅, 0, 0, none, 0⟩ : RawQueue ℕ)
      [.create 3 4 (fun _ => 0), .destroy, .push 10] := by
  rintro ⟨_, q₁, hcreate, -, _, q₂, hdestroy, -, _, q₃, hpush, -⟩
  cases hcreate
  cases hdestroy
  cases hpush

end RawQueue

end H264Cast
