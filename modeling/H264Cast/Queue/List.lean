import H264Cast.Library.Heap
import H264Cast.Library.Machine
import H264Cast.Library.Ring
import Mathlib.Algebra.Ring.Int.Defs
import Mathlib.Algebra.Ring.Nat

/-! # The list queue

A queue of nodes on the heap, linked from the oldest to the newest, with a counter, an
`int`, that bounds what the queue can store. The pointer to the newest node is not reset when
the queue runs empty and then leads to a freed node, but it is used only while the queue is
not empty. Destroying the queue goes by the counter instead of the links and stops one node
early.
-/

namespace H264Cast

/-- `++` of an `int`. There is no result when it overflows. -/
def increment (i : ℤ) : Option ℤ := if i + 1 < 2 ^ 31 then some (i + 1) else none

/-- `--` of an `int`. -/
def decrement (i : ℤ) : Option ℤ := if -2 ^ 31 ≤ i - 1 then some (i - 1) else none

/-- A node of the queue. -/
structure Node (α : Type*) where
  data : α
  next : Option ℕ

/-- The queue, with the heap its nodes live in. -/
structure ListQueue (α : Type*) where
  heap : Heap (Node α)
  head : Option ℕ
  rear : Option ℕ
  nodeSize : ℤ

namespace ListQueue

variable {α : Type*}

def emptyQueue (q : ListQueue α) : Bool := q.head.isNone

def getQueueSize (q : ListQueue α) : ℤ := if q.emptyQueue then 0 else q.nodeSize

def createQueue (q : ListQueue α) : ListQueue α :=
  { q with head := none, rear := none, nodeSize := 0 }

/-- The address is what the allocation returned. -/
def pushQueue (q : ListQueue α) (temp : ℕ) (data : α) : Option (ℤ × ListQueue α) :=
  let heap : Heap (Node α) := q.heap.insert temp ⟨data, none⟩
  match q.head with
  | none =>
    (increment q.nodeSize).map fun nodeSize => (0, ⟨heap, some temp, some temp, nodeSize⟩)
  | some head =>
    q.rear.bind fun rear =>
      (heap.lookup rear).bind fun last =>
        (heap.store rear { last with next := some temp }).bind fun heap =>
          (increment q.nodeSize).map fun nodeSize =>
            (0, ⟨heap, some head, some temp, nodeSize⟩)

/-- The second component is the data stored through the pointer. -/
def popQueue (q : ListQueue α) : Option (ℤ × Option α × ListQueue α) :=
  match q.head with
  | none => some (-1, none, q)
  | some temp =>
    (q.heap.lookup temp).bind fun node =>
      (q.heap.free temp).bind fun heap =>
        (decrement q.nodeSize).map fun nodeSize =>
          (0, some node.data, ⟨heap, node.next, q.rear, nodeSize⟩)

/-- The body of the loop that destroys the queue: take the first node off and free it. -/
def freeHead (q : ListQueue α) : Option (ListQueue α) :=
  q.head.bind fun temp =>
    (q.heap.lookup temp).bind fun node =>
      (q.heap.free temp).map fun heap => { q with heap := heap, head := node.next }

theorem card_freeHead {q q' : ListQueue α} (h : q.freeHead = some q') :
    q'.heap.keys.card < q.heap.keys.card := by
  obtain ⟨temp, -, h⟩ := Option.bind_eq_some_iff.mp h
  obtain ⟨node, hnode, h⟩ := Option.bind_eq_some_iff.mp h
  obtain ⟨heap, hheap, rfl⟩ := Option.map_eq_some_iff.mp h
  rw [Heap.free_eq hnode] at hheap
  obtain rfl := Option.some.inj hheap
  have hmem : temp ∈ q.heap.keys := Finmap.mem_keys.mpr (Finmap.mem_of_lookup_eq_some hnode)
  rw [Finmap.keys_erase]
  exact Finset.card_erase_lt_of_mem hmem

/-- The loop goes on until the counter is zero. Each iteration frees a node. -/
def destroyLoop (q : ListQueue α) : Option (ListQueue α) :=
  match decrement q.nodeSize with
  | none => none
  | some nodeSize =>
    if nodeSize = 0 then some { q with nodeSize := nodeSize }
    else
      match _h : { q with nodeSize := nodeSize }.freeHead with
      | none => none
      | some q' => q'.destroyLoop
termination_by q.heap.keys.card
decreasing_by
  have hlt := card_freeHead ‹_›
  exact hlt

def destroyQueue (q : ListQueue α) : Option (ℤ × ListQueue α) :=
  if q.emptyQueue then some (0, q) else q.destroyLoop.map fun q => (0, q)

/-- The calls of a run. A push comes with the address of its node. -/
inductive Op (α : Type*)
  | push (temp : ℕ) (data : α)
  | pop

/-- What a caller sees: the result, the data, and the size asked for afterwards. -/
structure Out (α : Type*) where
  ret : ℤ
  data : Option α
  size : ℤ

def step (q : ListQueue α) : Op α → Option (Out α × ListQueue α)
  | .push temp data =>
    (q.pushQueue temp data).map fun (ret, q) => (⟨ret, none, q.getQueueSize⟩, q)
  | .pop => q.popQueue.map fun (ret, data, q) => (⟨ret, data, q.getQueueSize⟩, q)

/-- A node is allocated at an address that is not in use. -/
def FreshNode (q : ListQueue α) : Op α → Prop
  | .push temp _ => temp ∉ q.heap
  | .pop => True

instance (q : ListQueue α) : DecidablePred (FreshNode q)
  | .push temp _ => inferInstanceAs (Decidable (temp ∉ q.heap))
  | .pop => inferInstanceAs (Decidable True)

/-- The same calls on an unbounded queue. -/
def fifoStep (xs : List α) : Op α → Out α × List α
  | .push _ data => (⟨0, none, (xs ++ [data]).length⟩, xs ++ [data])
  | .pop =>
    match Fifo.pop xs with
    | none => (⟨-1, none, xs.length⟩, xs)
    | some (data, xs) => (⟨0, some data, xs.length⟩, xs)

/-- There is room for what is pushed. -/
def HasRoom (cap : ℕ) (xs : List α) : Op α → Prop
  | .push _ _ => xs.length < cap
  | .pop => True

instance (cap : ℕ) (xs : List α) : DecidablePred (HasRoom cap xs)
  | .push _ _ => inferInstanceAs (Decidable (xs.length < cap))
  | .pop => inferInstanceAs (Decidable True)

/-- Every push of a run finds fewer elements than the capacity. -/
def RunHasRoom (cap : ℕ) (xs : List α) (ops : List (Op α)) : Prop :=
  Enabled fifoStep (HasRoom cap) xs ops

/-- The queue consists of the nodes, and the heap besides them is as it was at first. -/
structure Holds (heap : Heap (Node α)) (q : ListQueue α) (nodes : List (ℕ × Node α)) : Prop where
  chain : Heap.Chain Node.next q.heap q.head nodes
  rear_eq : ∀ last ∈ nodes.getLast?, q.rear = some last.1
  nodeSize_eq : q.nodeSize = nodes.length
  fresh : ∀ a ∈ Heap.addresses nodes, a ∉ heap
  frame : ∀ a ∉ Heap.addresses nodes, q.heap.lookup a = heap.lookup a

/-- The queue represents the list of elements. -/
def Represents (heap : Heap (Node α)) (q : ListQueue α) (xs : List α) : Prop :=
  ∃ nodes, Holds heap q nodes ∧ nodes.map (fun node => node.2.data) = xs

variable {q q' : ListQueue α} {heap : Heap (Node α)} {nodes : List (ℕ × Node α)} {xs : List α}
  {temp : ℕ} {x : α} {i : ℤ}

theorem increment_eq (h : i + 1 < 2 ^ 31) : increment i = some (i + 1) := if_pos h

theorem increment_eq_none (h : ¬ i + 1 < 2 ^ 31) : increment i = none := if_neg h

theorem decrement_eq (h : -2 ^ 31 ≤ i - 1) : decrement i = some (i - 1) := if_pos h

theorem HasRoom.mono {cap cap' : ℕ} (hcap : cap ≤ cap') (xs : List α) (op : Op α)
    (h : HasRoom cap xs op) : HasRoom cap' xs op := by
  cases op with
  | push => exact Nat.lt_of_lt_of_le h hcap
  | pop => exact trivial

theorem holds_createQueue (q : ListQueue α) : Holds q.heap q.createQueue [] where
  chain := rfl
  rear_eq _ h := by cases h
  nodeSize_eq := rfl
  fresh _ h := by cases h
  frame _ _ := rfl

namespace Holds

theorem head_eq_none (hq : Holds heap q nodes) : q.head = none ↔ nodes = [] := by
  constructor
  · intro hnone
    have hnil : Heap.Chain Node.next q.heap q.head [] := hnone
    exact hq.chain.unique hnil
  · rintro rfl
    exact hq.chain

theorem getQueueSize_eq (hq : Holds heap q nodes) : q.getQueueSize = nodes.length := by
  unfold getQueueSize emptyQueue
  cases hhead : q.head with
  | none => simp [hq.head_eq_none.mp hhead]
  | some head => simpa using hq.nodeSize_eq

/-- An address that is not in use is neither a node nor in the first heap. -/
theorem notMem (hq : Holds heap q nodes) (ht : temp ∉ q.heap) :
    temp ∉ Heap.addresses nodes ∧ temp ∉ heap := by
  have hnodes : temp ∉ Heap.addresses nodes := Heap.Segment.notMem hq.chain ht
  refine ⟨hnodes, ?_⟩
  rw [← Finmap.lookup_eq_none, ← hq.frame temp hnodes, Finmap.lookup_eq_none]
  exact ht

/-- The first node of an empty queue. -/
theorem pushQueue_nil (hq : Holds heap q []) (ht : temp ∉ q.heap) (x : α) :
    ∃ q', q.pushQueue temp x = some (0, q') ∧ Holds heap q' [(temp, ⟨x, none⟩)] := by
  have hhead : q.head = none := hq.chain
  have hsize : q.nodeSize = 0 := hq.nodeSize_eq
  refine ⟨⟨q.heap.insert temp ⟨x, none⟩, some temp, some temp, 1⟩, ?_, ?_⟩
  · rw [ListQueue.pushQueue, hhead, hsize]
    rfl
  · constructor
    case chain => exact ⟨rfl, Finmap.lookup_insert _, rfl⟩
    case rear_eq => simp
    case nodeSize_eq => rfl
    case fresh => simpa using (hq.notMem ht).2
    case frame =>
      intro a ha
      rw [Finmap.lookup_insert_of_ne _ (by simpa using ha)]
      exact hq.frame a List.not_mem_nil

/-- A node behind the last one. -/
theorem pushQueue_append {front : List (ℕ × Node α)} {last : ℕ} {node : Node α}
    (hq : Holds heap q (front ++ [(last, node)])) (ht : temp ∉ q.heap)
    (hlt : (front ++ [(last, node)]).length < 2 ^ 31 - 1) (x : α) :
    ∃ q', q.pushQueue temp x = some (0, q') ∧
      Holds heap q' (front ++ [(last, { node with next := some temp }), (temp, ⟨x, none⟩)]) := by
  obtain ⟨htn, hth⟩ := hq.notMem ht
  have hrear : q.rear = some last := hq.rear_eq (last, node) (by simp)
  have hne : q.head ≠ none := by simp [hq.head_eq_none]
  obtain ⟨head, hhead⟩ := Option.ne_none_iff_exists'.mp hne
  have hsize := hq.nodeSize_eq
  -- the allocation leaves the last node in place
  have hchain : Heap.Chain Node.next (q.heap.insert temp ⟨x, none⟩) q.head
      (front ++ [(last, node)]) := Heap.Segment.insert hq.chain htn
  have hlast : (q.heap.insert temp ⟨x, none⟩).lookup last = some node :=
    Heap.Segment.lookup hchain (x := (last, node)) (by simp)
  have hne : temp ≠ last := fun he => htn (by simp [he])
  refine ⟨⟨(q.heap.insert temp ⟨x, none⟩).insert last { node with next := some temp },
    some head, some temp, q.nodeSize + 1⟩, ?_, ?_⟩
  · rw [ListQueue.pushQueue, hhead, hrear]
    simp only [Option.bind_some, hlast, Heap.store_eq hlast, Option.map_some,
      increment_eq (show q.nodeSize + 1 < 2 ^ 31 by omega)]
  · constructor
    case chain =>
      rw [hhead] at hchain
      refine hchain.relink ⟨rfl, ?_, rfl⟩
      rw [Finmap.lookup_insert_of_ne _ hne]
      exact Finmap.lookup_insert _
    case rear_eq => simp
    case nodeSize_eq => simp [hsize, add_assoc]
    case fresh =>
      intro a ha
      have hcases : a ∈ Heap.addresses (front ++ [(last, node)]) ∨ a = temp := by
        simpa [or_assoc] using ha
      rcases hcases with ha | rfl
      · exact hq.fresh a ha
      · exact hth
    case frame =>
      intro a ha
      have hcases : a ∉ Heap.addresses (front ++ [(last, node)]) ∧ a ≠ last ∧ a ≠ temp := by
        simp at ha ⊢
        tauto
      rw [Finmap.lookup_insert_of_ne _ hcases.2.1, Finmap.lookup_insert_of_ne _ hcases.2.2]
      exact hq.frame a hcases.1

theorem pushQueue (hq : Holds heap q nodes) (ht : temp ∉ q.heap)
    (hlt : nodes.length < 2 ^ 31 - 1) (x : α) :
    ∃ q' nodes', q.pushQueue temp x = some (0, q') ∧ Holds heap q' nodes' ∧
      nodes'.map (fun node => node.2.data) = nodes.map (fun node => node.2.data) ++ [x] ∧
      Heap.addresses nodes' = Heap.addresses nodes ++ [temp] := by
  rcases List.eq_nil_or_concat' nodes with rfl | ⟨front, ⟨last, node⟩, rfl⟩
  · obtain ⟨q', hpush, hq'⟩ := hq.pushQueue_nil ht x
    exact ⟨q', _, hpush, hq', rfl, rfl⟩
  · obtain ⟨q', hpush, hq'⟩ := hq.pushQueue_append ht hlt x
    exact ⟨q', _, hpush, hq', by simp, by simp⟩

/-- The counter has no value for one more node. -/
theorem pushQueue_overflow (hq : Holds heap q nodes) (hge : ¬ nodes.length < 2 ^ 31 - 1)
    (temp : ℕ) (x : α) : q.pushQueue temp x = none := by
  have hsize := hq.nodeSize_eq
  have hnone : increment q.nodeSize = none := increment_eq_none (by omega)
  cases hhead : q.head <;> simp [ListQueue.pushQueue, hhead, hnone]

theorem popQueue_nil (hq : Holds heap q []) : q.popQueue = some (-1, none, q) := by
  have hhead : q.head = none := hq.chain
  rw [ListQueue.popQueue, hhead]

theorem popQueue_cons {node : ℕ × Node α} (hq : Holds heap q (node :: nodes)) :
    ∃ q', q.popQueue = some (0, some node.2.data, q') ∧ Holds heap q' nodes := by
  obtain ⟨hhead, hnode, hchain⟩ := hq.chain
  have hnodup := List.nodup_cons.mp hq.chain.nodup
  have hsize : q.nodeSize = nodes.length + 1 := hq.nodeSize_eq
  refine ⟨⟨q.heap.erase node.1, node.2.next, q.rear, q.nodeSize - 1⟩, ?_, ?_⟩
  · rw [ListQueue.popQueue, hhead]
    simp only [hnode, Option.bind_some, Heap.free_eq hnode, Option.map_some,
      decrement_eq (show -2 ^ 31 ≤ q.nodeSize - 1 by omega)]
  · constructor
    case chain => exact Heap.Segment.erase hchain hnodup.1
    case rear_eq =>
      intro last hlast
      apply hq.rear_eq
      rw [List.getLast?_cons, Option.mem_def.mp hlast]
      rfl
    case nodeSize_eq => simp [hsize]
    case fresh => exact fun a ha => hq.fresh a (List.mem_cons_of_mem _ ha)
    case frame =>
      intro a ha
      by_cases he : a = node.1
      · subst he
        rw [Finmap.lookup_erase, eq_comm, Finmap.lookup_eq_none]
        exact hq.fresh _ List.mem_cons_self
      · rw [Finmap.lookup_erase_ne he]
        exact hq.frame a (by simp [he, ha])

end Holds

theorem runHasRoom_cons {cap : ℕ} {op : Op α} {ops : List (Op α)} :
    RunHasRoom cap xs (op :: ops) ↔ HasRoom cap xs op ∧ RunHasRoom cap (fifoStep xs op).2 ops :=
  Iff.rfl

/-- As long as there is room, a call on the list queue is the call on the list of elements. -/
theorem step_represents (q : ListQueue α) (xs : List α) (op : Op α) (hq : Represents heap q xs)
    (hop : FreshNode q op) (hroom : HasRoom (2 ^ 31 - 1) xs op) :
    ∃ q', step q op = some ((fifoStep xs op).1, q') ∧ Represents heap q' (fifoStep xs op).2 := by
  obtain ⟨nodes, hnodes, rfl⟩ := hq
  cases op with
  | push temp data =>
    have hlt : nodes.length < 2 ^ 31 - 1 := by simpa [HasRoom] using hroom
    obtain ⟨q', nodes', hpush, hnodes', hdata, -⟩ := hnodes.pushQueue hop hlt data
    refine ⟨q', ?_, nodes', hnodes', hdata⟩
    have hlen := congrArg List.length hdata
    rw [List.length_map] at hlen
    simp only [step, hpush, Option.map_some, hnodes'.getQueueSize_eq, fifoStep, hlen]
  | pop =>
    cases nodes with
    | nil =>
      refine ⟨q, ?_, [], hnodes, rfl⟩
      simp only [step, hnodes.popQueue_nil, Option.map_some, hnodes.getQueueSize_eq, fifoStep,
        Fifo.pop, List.map_nil, List.length_nil]
    | cons node nodes =>
      obtain ⟨q', hpop, hnodes'⟩ := hnodes.popQueue_cons
      refine ⟨q', ?_, nodes, hnodes', rfl⟩
      simp only [step, hpop, Option.map_some, hnodes'.getQueueSize_eq, fifoStep, Fifo.pop,
        List.map_cons, List.length_map]

theorem step_eq_none (q : ListQueue α) (xs : List α) (op : Op α) (hq : Represents heap q xs)
    (hroom : ¬ HasRoom (2 ^ 31 - 1) xs op) : step q op = none := by
  obtain ⟨nodes, hnodes, rfl⟩ := hq
  cases op with
  | push temp data =>
    have hge : ¬ nodes.length < 2 ^ 31 - 1 := by simpa [HasRoom] using hroom
    simp only [step, hnodes.pushQueue_overflow hge, Option.map_none]
  | pop => exact absurd trivial hroom

theorem run_createQueue_eq_none (q : ListQueue α) {ops : List (Op α)}
    (hops : Admitted step FreshNode q.createQueue ops)
    (hroom : ¬ RunHasRoom (2 ^ 31 - 1) [] ops) : run step q.createQueue ops = none :=
  run_eq_none step_represents step_eq_none ⟨[], holds_createQueue q, rfl⟩ hops hroom

/-- From its creation on the list queue is an unbounded FIFO, whatever addresses the
allocations return, exactly as long as every push finds fewer than 2^31 - 1 elements. Its nodes
are in a list without cycles that ends at the newest one, no other part of the heap changes, and
no freed node is accessed: such an access has no result. -/
theorem refines_unboundedFifo (q : ListQueue α) (ops : List (Op α))
    (hops : Admitted step FreshNode q.createQueue ops) :
    (∃ q' nodes, run step q.createQueue ops = some (outputs fifoStep [] ops, q') ∧
      Heap.Chain Node.next q'.heap q'.head nodes ∧
      nodes.map (fun node => node.2.data) = final fifoStep [] ops ∧
      (Heap.addresses nodes).Nodup ∧
      (∀ last ∈ nodes.getLast?, q'.rear = some last.1) ∧
      q'.getQueueSize = nodes.length ∧
      ∀ a ∉ Heap.addresses nodes, q'.heap.lookup a = q.heap.lookup a) ↔
      RunHasRoom (2 ^ 31 - 1) [] ops := by
  constructor
  · rintro ⟨q', nodes, hrun, -⟩
    by_contra hroom
    cases hrun.symm.trans (run_createQueue_eq_none q hops hroom)
  · intro hroom
    have hinit : Represents q.heap q.createQueue [] := ⟨[], holds_createQueue q, rfl⟩
    obtain ⟨q', hrun, nodes, hnodes, hdata⟩ := run_of_enabled step_represents hinit hops hroom
    exact ⟨q', nodes, hrun, hnodes.chain, hdata, hnodes.chain.nodup, hnodes.rear_eq,
      hnodes.getQueueSize_eq, hnodes.frame⟩

/-- A push may get the address of the node that the rear pointer still leads to. -/
theorem refines_unboundedFifo_reused :
    ∃ q' nodes, run step (createQueue (⟨∅, none, none, 0⟩ : ListQueue ℕ))
        [.push 4 10, .pop, .push 4 20, .push 5 30] =
          some ([⟨0, none, 1⟩, ⟨0, some 10, 0⟩, ⟨0, none, 1⟩, ⟨0, none, 2⟩], q') ∧
      Heap.Chain Node.next q'.heap q'.head nodes ∧
      nodes.map (fun node => node.2.data) = [20, 30] := by
  obtain ⟨q', nodes, hrun, hchain, hdata, -⟩ :=
    (refines_unboundedFifo (⟨∅, none, none, 0⟩ : ListQueue ℕ)
      [.push 4 10, .pop, .push 4 20, .push 5 30]
      (.cons rfl (by decide) <| .cons rfl trivial <| .cons rfl (by decide) <|
        .cons rfl (by decide) trivial)).mpr
      ⟨by decide, trivial, by decide, by decide, trivial⟩
  exact ⟨q', nodes, hrun, hchain, hdata⟩

/-! ### Pushes without end -/

/-- Pushes that get one address after the other. -/
def pushesFrom (k n : ℕ) (x : α) : List (Op α) := (List.range' k n).map fun temp => .push temp x

theorem pushesFrom_succ (k n : ℕ) (x : α) :
    pushesFrom k (n + 1) x = .push k x :: pushesFrom (k + 1) n x := by
  rw [pushesFrom, List.range'_succ, List.map_cons, pushesFrom]

/-- They fit as long as the capacity is not exceeded. -/
theorem runHasRoom_pushesFrom {cap : ℕ} (xs : List α) (k n : ℕ) (x : α)
    (h : RunHasRoom cap xs (pushesFrom k n x)) : n ≤ cap - xs.length := by
  induction n generalizing xs k with
  | zero => omega
  | succ n ih =>
    rw [pushesFrom_succ] at h
    have hlt : xs.length < cap := h.1
    have hle := ih (xs ++ [x]) (k + 1) h.2
    rw [List.length_append, List.length_singleton] at hle
    omega

/-- An address behind those of the nodes is free if the heap was empty at first. -/
theorem admitted_pushesFrom {k : ℕ} (hq : Holds ∅ q nodes)
    (hk : ∀ a ∈ Heap.addresses nodes, a < k) (n : ℕ) (x : α) :
    Admitted step FreshNode q (pushesFrom k n x) := by
  induction n generalizing q nodes k with
  | zero => exact trivial
  | succ n ih =>
    have hfree : k ∉ Heap.addresses nodes := fun hmem => absurd (hk k hmem) (lt_irrefl k)
    have hfresh : k ∉ q.heap := by
      rw [← Finmap.lookup_eq_none, hq.frame k hfree]
      rfl
    rw [pushesFrom_succ]
    by_cases hlt : nodes.length < 2 ^ 31 - 1
    · obtain ⟨q', nodes', hpush, hq', -, haddr⟩ := hq.pushQueue hfresh hlt x
      have hstep : step q (.push k x) = some (⟨0, none, q'.getQueueSize⟩, q') := by
        simp only [step, hpush, Option.map_some]
      refine .cons hstep hfresh (ih hq' ?_)
      intro a ha
      rw [haddr, List.mem_append, List.mem_singleton] at ha
      rcases ha with ha | rfl
      · exact Nat.lt_succ_of_lt (hk a ha)
      · exact Nat.lt_succ_self a
    · refine ⟨hfresh, fun out q' hstep => ?_⟩
      simp only [step, hq.pushQueue_overflow hlt, Option.map_none, reduceCtorEq] at hstep

/-- The counter overflows when 2^31 elements are pushed. -/
theorem not_refines_unboundedFifo_overflow :
    Admitted step FreshNode (createQueue (⟨∅, none, none, 0⟩ : ListQueue ℕ))
        (pushesFrom 1 (2 ^ 31) 7) ∧
      run step (createQueue (⟨∅, none, none, 0⟩ : ListQueue ℕ)) (pushesFrom 1 (2 ^ 31) 7) =
        none := by
  have hops := admitted_pushesFrom (holds_createQueue (⟨∅, none, none, 0⟩ : ListQueue ℕ))
    (k := 1) (fun a ha => by cases ha) (2 ^ 31) 7
  refine ⟨hops, run_createQueue_eq_none _ hops fun hroom => ?_⟩
  have hle := runHasRoom_pushesFrom [] 1 (2 ^ 31) 7 hroom
  rw [List.length_nil] at hle
  omega

end ListQueue

end H264Cast
