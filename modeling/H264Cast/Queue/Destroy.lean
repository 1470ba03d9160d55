import H264Cast.Queue.List

/-! # Destroying the list queue

The loop decrements the counter before it tests it, so of `n` nodes it frees the first
`n - 1` and leaves the last one in a queue whose counter is zero. The next destruction
starts below zero and runs into NULL. Only the destruction of an empty queue is right, and the
counter is right as long as it does not overflow.
-/

namespace H264Cast

namespace ListQueue

variable {α : Type*}

/-- The calls of a run with destructions. -/
inductive Call (α : Type*)
  | op (op : Op α)
  | destroy

def call (q : ListQueue α) : Call α → Option (Out α × ListQueue α)
  | .op op => q.step op
  | .destroy => q.destroyQueue.map fun (ret, q) => (⟨ret, none, q.getQueueSize⟩, q)

def FreshCall (q : ListQueue α) : Call α → Prop
  | .op op => FreshNode q op
  | .destroy => True

instance (q : ListQueue α) : DecidablePred (FreshCall q)
  | .op op => inferInstanceAs (Decidable (FreshNode q op))
  | .destroy => inferInstanceAs (Decidable True)

/-- The counter is the number of nodes. -/
def Counted (q : ListQueue α) : Prop :=
  ∃ nodes, Heap.Chain Node.next q.heap q.head nodes ∧ q.nodeSize = nodes.length

/-- The destruction ends, frees the nodes and nothing else, and leaves an empty queue that
behaves like a new one. A freed node cannot be freed again, so each is freed once. -/
def Destroys (q : ListQueue α) : Prop :=
  ∃ nodes q', Heap.Chain Node.next q.heap q.head nodes ∧ q.destroyQueue = some (0, q') ∧
    (∀ a, q'.heap.lookup a = if a ∈ Heap.addresses nodes then none else q.heap.lookup a) ∧
    q'.head = none ∧ q'.nodeSize = 0 ∧ q'.popQueue = some (-1, none, q') ∧
    ∀ temp x, q'.pushQueue temp x = q'.createQueue.pushQueue temp x

/-- In every state of the run the counter is right, every call has a result, and every
destruction is right. -/
def Lawful : ListQueue α → List (Call α) → Prop
  | q, [] => q.Counted
  | q, c :: cs =>
    q.Counted ∧ (c = .destroy → q.Destroys) ∧ ∃ out q', q.call c = some (out, q') ∧ Lawful q' cs

/-- Every destruction comes when as many elements have been taken as put in. The number is
that of the elements a FIFO holds. -/
def DestroysEmpty : ℕ → List (Call α) → Prop
  | _, [] => True
  | n, .op (.push _ _) :: cs => DestroysEmpty (n + 1) cs
  | n, .op .pop :: cs => DestroysEmpty (n - 1) cs
  | n, .destroy :: cs => n = 0 ∧ DestroysEmpty n cs

/-- No push overflows the counter. -/
def CountFits : ℕ → List (Call α) → Prop
  | _, [] => True
  | n, .op (.push _ _) :: cs => n + 1 < 2 ^ 31 ∧ CountFits (n + 1) cs
  | n, .op .pop :: cs => CountFits (n - 1) cs
  | n, .destroy :: cs => CountFits n cs

variable {q q' : ListQueue α} {heap : Heap (Node α)} {nodes front : List (ℕ × Node α)}
  {last : ℕ × Node α} {cs : List (Call α)} {temp : ℕ} {x : α}

theorem Holds.counted (hq : Holds heap q nodes) : q.Counted := ⟨nodes, hq.chain, hq.nodeSize_eq⟩

theorem freeHead_eq {node : ℕ × Node α}
    (hq : Heap.Chain Node.next q.heap q.head (node :: nodes)) :
    q.freeHead = some { q with heap := q.heap.erase node.1, head := node.2.next } ∧
      Heap.Chain Node.next (q.heap.erase node.1) node.2.next nodes := by
  have hnodup := List.nodup_cons.mp (Heap.Chain.nodup hq)
  obtain ⟨hhead, hnode, hchain⟩ := hq
  refine ⟨?_, Heap.Segment.erase hchain hnodup.1⟩
  simp only [freeHead, hhead, Option.bind_some, hnode, Heap.free_eq hnode, Option.map_some]

theorem destroyLoop_done (h : q.nodeSize = 1) :
    q.destroyLoop = some { q with nodeSize := 0 } := by
  rw [destroyLoop, h]
  rfl

theorem destroyLoop_next (hmin : -2 ^ 31 < q.nodeSize) (h : q.nodeSize ≠ 1) :
    q.destroyLoop = { q with nodeSize := q.nodeSize - 1 }.freeHead.bind destroyLoop := by
  rw [destroyLoop, decrement_eq (by omega)]
  simp only
  rw [if_neg (by omega)]
  split
  · next hnone => rw [hnone, Option.bind_none]
  · next q' hsome => rw [hsome, Option.bind_some]

/-- The loop leaves the last node. -/
theorem destroyLoop_eq (hq : Heap.Chain Node.next q.heap q.head (front ++ [last]))
    (hsize : q.nodeSize = front.length + 1) :
    ∃ q', q.destroyLoop = some q' ∧ Heap.Chain Node.next q'.heap q'.head [last] ∧
      q'.nodeSize = 0 := by
  induction front generalizing q with
  | nil => exact ⟨_, destroyLoop_done (by simpa using hsize), hq, rfl⟩
  | cons node front ih =>
    rw [List.length_cons] at hsize
    have hne : q.nodeSize ≠ 1 := by omega
    have hq₁ : Heap.Chain Node.next { q with nodeSize := q.nodeSize - 1 }.heap
        { q with nodeSize := q.nodeSize - 1 }.head (node :: (front ++ [last])) := hq
    obtain ⟨hfree, hchain⟩ := freeHead_eq hq₁
    obtain ⟨q', hloop, hq'⟩ := ih (q := ⟨q.heap.erase node.1, node.2.next, q.rear, q.nodeSize - 1⟩)
      hchain (by simp only; omega)
    refine ⟨q', ?_, hq'⟩
    rw [destroyLoop_next (by omega) hne, hfree, Option.bind_some, hloop]

theorem emptyQueue_eq_false (hq : Heap.Chain Node.next q.heap q.head (front ++ [last])) :
    q.emptyQueue = false := by
  cases hhead : q.head with
  | none =>
    rw [hhead] at hq
    have hnil := Heap.Chain.unique hq (Heap.chain_nil.mpr rfl)
    simp at hnil
  | some head => simp [emptyQueue, hhead]

/-- The destruction of a queue with nodes leaves one, with the counter at zero. -/
theorem destroyQueue_eq (hq : Heap.Chain Node.next q.heap q.head (front ++ [last]))
    (hsize : q.nodeSize = front.length + 1) :
    ∃ q', q.destroyQueue = some (0, q') ∧ Heap.Chain Node.next q'.heap q'.head [last] ∧
      q'.nodeSize = 0 := by
  obtain ⟨q', hloop, hq'⟩ := destroyLoop_eq hq hsize
  refine ⟨q', ?_, hq'⟩
  simp [destroyQueue, emptyQueue_eq_false hq, hloop]

/-- The second destruction in a row runs into NULL. -/
theorem destroyQueue_twice (hq : Heap.Chain Node.next q.heap q.head (front ++ [last]))
    (hsize : q.nodeSize = front.length + 1) :
    ∃ q', q.destroyQueue = some (0, q') ∧ q'.destroyQueue = none := by
  obtain ⟨q', hdestroy, hchain, hzero⟩ := destroyQueue_eq hq hsize
  refine ⟨q', hdestroy, ?_⟩
  have hq' : Heap.Chain Node.next { q' with nodeSize := q'.nodeSize - 1 }.heap
      { q' with nodeSize := q'.nodeSize - 1 }.head [last] := hchain
  obtain ⟨hfree, hnil⟩ := freeHead_eq hq'
  have hnone : last.2.next = none := hnil
  have hloop : q'.destroyLoop = none := by
    rw [destroyLoop_next (by omega) (by omega), hfree, Option.bind_some,
      destroyLoop_next (by simp [hzero]) (by simp [hzero])]
    simp [freeHead, hnone]
  have hchain' : Heap.Chain Node.next q'.heap q'.head ([] ++ [last]) := hchain
  simp [destroyQueue, emptyQueue_eq_false hchain', hloop]

theorem not_destroys (hq : Heap.Chain Node.next q.heap q.head (front ++ [last]))
    (hsize : q.nodeSize = front.length + 1) : ¬ q.Destroys := by
  rintro ⟨nodes, q₁, -, hdestroy₁, -, hhead, -⟩
  obtain ⟨q', hdestroy, hchain, -⟩ := destroyQueue_eq hq hsize
  obtain rfl : q₁ = q' := (Prod.mk.inj (Option.some.inj (hdestroy₁.symm.trans hdestroy))).2
  cases hhead.symm.trans hchain.1

/-- Destroying an empty queue does nothing, which is right. -/
theorem destroyQueue_of_head (hhead : q.head = none) : q.destroyQueue = some (0, q) := by
  simp [destroyQueue, emptyQueue, hhead]

theorem call_destroy_of_head (hhead : q.head = none) :
    q.call .destroy = some (⟨0, none, q.getQueueSize⟩, q) := by
  simp only [call, destroyQueue_of_head hhead, Option.map_some]

theorem Holds.destroys (hq : Holds heap q []) : q.Destroys := by
  have hhead : q.head = none := hq.chain
  have hsize : q.nodeSize = 0 := hq.nodeSize_eq
  refine ⟨[], q, hq.chain, destroyQueue_of_head hhead, ?_, hhead, hsize, hq.popQueue_nil, ?_⟩
  · simp
  · intro temp x
    simp only [ListQueue.pushQueue, createQueue, hhead, hsize]

/-- A call has one result. -/
theorem lawful_call_iff {c : Call α} {out : Out α} {q' : ListQueue α}
    (hc : q.call c = some (out, q')) :
    (∃ out q', q.call c = some (out, q') ∧ Lawful q' cs) ↔ Lawful q' cs := by
  constructor
  · rintro ⟨out₁, q₁, hc₁, hlaw⟩
    obtain rfl : q₁ = q' := (Prod.mk.inj (Option.some.inj (hc₁.symm.trans hc))).2
    exact hlaw
  · exact fun hlaw => ⟨out, q', hc, hlaw⟩

/-- A run is lawful exactly when it destroys empty queues only and the counter does not
overflow. -/
theorem Holds.lawful_iff (hq : Holds heap q nodes) (hcs : Admitted call FreshCall q cs) :
    Lawful q cs ↔ DestroysEmpty nodes.length cs ∧ CountFits nodes.length cs := by
  induction cs generalizing q nodes with
  | nil => exact iff_of_true hq.counted ⟨trivial, trivial⟩
  | cons c cs ih =>
    have hcall : ∀ {out q'} {nodes' : List (ℕ × Node α)}, q.call c = some (out, q') →
        Holds heap q' nodes' → ((∃ out q', q.call c = some (out, q') ∧ Lawful q' cs) ↔
          DestroysEmpty nodes'.length cs ∧ CountFits nodes'.length cs) := by
      intro out q' nodes' hc hq'
      rw [lawful_call_iff hc]
      exact ih hq' (hcs.2 _ _ hc)
    rw [Lawful, and_iff_right hq.counted]
    cases c with
    | op op =>
      rw [and_iff_right (by simp)]
      cases op with
      | push temp data =>
        rw [DestroysEmpty, CountFits, and_left_comm]
        by_cases hlt : nodes.length < 2 ^ 31 - 1
        · obtain ⟨q', nodes', hpush, hnodes', hdata, -⟩ := hq.pushQueue hcs.1 hlt data
          have hc : q.call (.op (.push temp data)) = some (⟨0, none, q'.getQueueSize⟩, q') := by
            simp only [call, step, hpush, Option.map_some]
          have hlen := congrArg List.length hdata
          rw [List.length_append, List.length_map, List.length_map, List.length_singleton] at hlen
          have hfits : nodes.length + 1 < 2 ^ 31 := by omega
          rw [hcall hc hnodes', hlen, and_iff_right hfits]
        · refine iff_of_false ?_ fun hfits => hlt (by omega)
          rintro ⟨out, q', hc, -⟩
          simp only [call, step, hq.pushQueue_overflow hlt, Option.map_none, reduceCtorEq] at hc
      | pop =>
        cases nodes with
        | nil =>
          have hc : q.call (.op .pop) = some (⟨-1, none, q.getQueueSize⟩, q) := by
            simp only [call, step, hq.popQueue_nil, Option.map_some]
          exact hcall hc hq
        | cons node nodes =>
          obtain ⟨q', hpop, hnodes'⟩ := hq.popQueue_cons
          have hc : q.call (.op .pop) = some (⟨0, some node.2.data, q'.getQueueSize⟩, q') := by
            simp only [call, step, hpop, Option.map_some]
          exact hcall hc hnodes'
    | destroy =>
      rcases List.eq_nil_or_concat' nodes with rfl | ⟨front, last, rfl⟩
      · have hhead : q.head = none := hq.chain
        rw [and_iff_right (fun _ => hq.destroys), hcall (call_destroy_of_head hhead) hq,
          DestroysEmpty, CountFits, and_iff_right (by rfl : ([] : List (ℕ × Node α)).length = 0)]
      · have hsize : q.nodeSize = front.length + 1 := by simp [hq.nodeSize_eq]
        refine iff_of_false ?_ ?_
        · rintro ⟨hd, -⟩
          exact not_destroys hq.chain hsize (hd rfl)
        · rintro ⟨⟨hzero, -⟩, -⟩
          simp at hzero

/-- In a run from the creation of the queue, whatever addresses the allocations return, the
counter and all destructions are right exactly when every destruction finds the queue
empty and every push fewer than 2^31 - 1 nodes. -/
theorem lawful_iff_destroysEmpty (q : ListQueue α) (cs : List (Call α))
    (hcs : Admitted call FreshCall q.createQueue cs) :
    Lawful q.createQueue cs ↔ DestroysEmpty 0 cs ∧ CountFits 0 cs :=
  (holds_createQueue q).lawful_iff hcs

theorem lawful_iff_destroysEmpty_two :
    Lawful (createQueue (⟨∅, none, none, 0⟩ : ListQueue ℕ))
        [.op (.push 4 10), .op .pop, .destroy, .op (.push 4 20)] ↔
      DestroysEmpty 0 [.op (.push 4 10), .op .pop, .destroy, .op (.push 4 20)] ∧
        CountFits 0 [.op (.push 4 10), .op .pop, .destroy, .op (.push 4 20)] :=
  lawful_iff_destroysEmpty (⟨∅, none, none, 0⟩ : ListQueue ℕ) _
    (.cons rfl (by decide) <| .cons rfl trivial <| .cons (call_destroy_of_head rfl) trivial <|
      .cons rfl (by decide) trivial)

/-- One element is enough. -/
theorem not_lawful_one :
    Admitted call FreshCall (createQueue (⟨∅, none, none, 0⟩ : ListQueue ℕ))
        [.op (.push 4 10), .destroy] ∧
      ¬ Lawful (createQueue (⟨∅, none, none, 0⟩ : ListQueue ℕ))
        [.op (.push 4 10), .destroy] := by
  have hpush : call (createQueue (⟨∅, none, none, 0⟩ : ListQueue ℕ)) (.op (.push 4 10)) =
      some (⟨0, none, 1⟩, ⟨Finmap.insert 4 ⟨10, none⟩ ∅, some 4, some 4, 1⟩) := rfl
  constructor
  · exact .cons hpush (by decide) ⟨trivial, fun _ _ _ => trivial⟩
  · rintro ⟨-, -, out, q', hq', -, hdestroys, -⟩
    obtain ⟨rfl, rfl⟩ := Prod.mk.inj (Option.some.inj (hpush.symm.trans hq'))
    have hchain : Heap.Chain Node.next (Finmap.insert 4 (⟨10, none⟩ : Node ℕ) ∅) (some 4)
        ([] ++ [(4, ⟨10, none⟩)]) := ⟨rfl, rfl, rfl⟩
    exact not_destroys hchain rfl (hdestroys rfl)

end ListQueue

end H264Cast
