import H264Cast.Queue.List
import H264Cast.Queue.Pointer

/-! # One queue in place of the other

The linear queue and the list queue offer the same functions. A caller of one of them sees what
it would see with the other as long as every push finds a free slot and the counters of the
linear queue do not wrap, unless they may wrap since the number of slots divides 2^32. The first
push that does not keep to this tells the two apart.
-/

namespace H264Cast

namespace Queue

variable {α : Type*}

/-- The call without the address of the node. -/
def Op.ofList : ListQueue.Op α → Op α
  | .push _ data => .push data
  | .pop => .pop

/-- The same as a caller of the list queue sees it. -/
def Out.toList (out : Out α) : ListQueue.Out α := ⟨out.ret, out.node, out.size⟩

/-- The number of pushes. -/
def pushes : List (ListQueue.Op α) → ℕ
  | [] => 0
  | .push _ _ :: ops => pushes ops + 1
  | .pop :: ops => pushes ops

open ListQueue (HasRoom RunHasRoom)

variable {q : Queue α} {cap h : ℕ} {xs : List α} {op : ListQueue.Op α}

theorem Out.toList_injective : Function.Injective (Out.toList : Out α → ListQueue.Out α) := by
  rintro ⟨ret, node, size⟩ ⟨ret', node', size'⟩ heq
  obtain ⟨rfl, rfl, rfl⟩ := ListQueue.Out.mk.inj heq
  rfl

theorem pushes_cons (op : ListQueue.Op α) (ops : List (ListQueue.Op α)) :
    pushes (op :: ops) = pushes [op] + pushes ops := by
  cases op with
  | push => exact Nat.add_comm _ _
  | pop => exact (Nat.zero_add _).symm

/-! ### One call -/

/-- With a free slot the bounded queue and the unbounded one do the same. -/
theorem fifoStep_of_hasRoom (hroom : HasRoom cap xs op) :
    (fifoStep cap xs (.ofList op)).1.toList = (ListQueue.fifoStep xs op).1 ∧
      (fifoStep cap xs (.ofList op)).2 = (ListQueue.fifoStep xs op).2 ∧
      accepted cap xs [.ofList op] = pushes [op] := by
  cases op with
  | push temp data =>
    have hlt : xs.length < cap := hroom
    simp [Op.ofList, fifoStep, Fifo.push, ListQueue.fifoStep, accepted, pushes, Out.toList, hlt]
  | pop => cases xs <;> exact ⟨rfl, rfl, rfl⟩

namespace Represents

/-- A call that keeps to the bounds answers as the list queue does. -/
theorem step_list (hq : Represents q h xs) (hr : Regular q (h + xs.length))
    (hroom : HasRoom q.nodeSize.toNat xs op) (hr' : Regular q (h + xs.length + pushes [op])) :
    (q.step (.ofList op)).1.toList = (ListQueue.fifoStep xs op).1 ∧
      (q.step (.ofList op)).2.nodeSize = q.nodeSize ∧
      ∃ h', Represents (q.step (.ofList op)).2 h' (ListQueue.fifoStep xs op).2 ∧
        h' + (ListQueue.fifoStep xs op).2.length = h + xs.length + pushes [op] := by
  obtain ⟨hout, hnext, haccepted⟩ := fifoStep_of_hasRoom hroom
  rw [← haccepted] at hr' ⊢
  rw [← hout, ← hnext]
  obtain ⟨hstep, hsize, hrest⟩ := hq.step hr (.ofList op) hr'
  exact ⟨congrArg Out.toList hstep, hsize, hrest⟩

/-- Only a push can break the bounds, and then it answers differently: it is refused, or the
size is wrong behind it. -/
theorem step_list_ne (hq : Represents q h xs) (hr : Regular q (h + xs.length))
    (hnot : ¬ (HasRoom q.nodeSize.toNat xs op ∧ Regular q (h + xs.length + pushes [op]))) :
    (q.step (.ofList op)).1.toList ≠ (ListQueue.fifoStep xs op).1 := by
  cases op with
  | pop => exact absurd ⟨trivial, hr⟩ hnot
  | push temp data =>
    by_cases hlt : xs.length < q.nodeSize.toNat
    · have hwrap : ¬ Regular q (h + xs.length + 1) := fun hreg => hnot ⟨hlt, hreg⟩
      obtain ⟨hd, hge⟩ := not_or.mp hwrap
      have hlow := hr.resolve_left hd
      have hroom : HasRoom q.nodeSize.toNat xs (.push temp data) := hlt
      rw [← (fifoStep_of_hasRoom hroom).1]
      exact fun heq => hq.step_ne (by omega) hlt hd data (Out.toList_injective heq)
    · have hstep : (q.step (.push data)).1 = ⟨-1, none, q.getQueueSize⟩ := by
        simp only [Queue.step, hq.pushQueue_full hr hlt]
      rw [Op.ofList, hstep]
      intro heq
      have hret : (-1 : ℤ) = 0 := congrArg ListQueue.Out.ret heq
      omega

end Represents

/-! ### Runs -/

/-- The queues answer the same in a run exactly when it keeps to the bounds. -/
theorem outputs_list_iff (hq : Represents q h xs) (hr : Regular q (h + xs.length))
    (ops : List (ListQueue.Op α)) :
    (outputs step q (ops.map .ofList)).map Out.toList = outputs ListQueue.fifoStep xs ops ↔
      RunHasRoom q.nodeSize.toNat xs ops ∧ Regular q (h + xs.length + pushes ops) := by
  induction ops generalizing q h xs with
  | nil => exact iff_of_true rfl ⟨trivial, hr⟩
  | cons op ops ih =>
    rw [List.map_cons, outputs_cons, List.map_cons, outputs_cons, List.cons.injEq, pushes_cons,
      ListQueue.runHasRoom_cons]
    by_cases hkeeps : HasRoom q.nodeSize.toNat xs op ∧ Regular q (h + xs.length + pushes [op])
    · obtain ⟨hout, hsize, h', hq', hlen⟩ := hq.step_list hr hkeeps.1 hkeeps.2
      have hreg (r : ℕ) : Regular (q.step (.ofList op)).2 r ↔ Regular q r := by
        rw [Regular, hsize, Regular]
      have ih := ih hq' ((hreg _).mpr (hlen ▸ hkeeps.2))
      rw [hsize, hreg, hlen] at ih
      simp only [hout, true_and, ih, hkeeps.1, Nat.add_assoc]
    · refine iff_of_false (fun heq => hq.step_list_ne hr hkeeps heq.1) fun hbounds => hkeeps ?_
      exact ⟨hbounds.1.1, hbounds.2.imp_right fun hlt => by omega⟩

/-- Room in the slots is room below the bound of the counter. -/
theorem runHasRoom_int (q : Queue α) {ops : List (ListQueue.Op α)}
    (h : RunHasRoom q.nodeSize.toNat xs ops) : RunHasRoom (2 ^ 31 - 1) xs ops :=
  h.mono (HasRoom.mono (by have := q.nodeSize_bounds; omega))

/-- A linear queue with a block and a list queue, both just created, answer all calls of a run
the same, with the same data and the same sizes, exactly when each push finds fewer elements
than there are slots, and there are fewer than 2^32 pushes or the number of slots divides 2^32.
The queue over an array is one that was created with three slots. -/
theorem interchangeable_iff {size : BitVec 32} {slots : Memory α}
    (hq : createQueue size (some slots) = some q) (l : ListQueue α)
    {ops : List (ListQueue.Op α)}
    (hops : Admitted ListQueue.step ListQueue.FreshNode l.createQueue ops) :
    (∃ l', run ListQueue.step l.createQueue ops =
        some ((outputs step q (ops.map .ofList)).map Out.toList, l')) ↔
      RunHasRoom size.toNat [] ops ∧ (size.toNat ∣ 2 ^ 32 ∨ pushes ops < 2 ^ 32) := by
  obtain ⟨rfl, hrep⟩ := represents_createQueue hq
  have hinit : ListQueue.Represents l.heap l.createQueue [] :=
    ⟨[], ListQueue.holds_createQueue l, rfl⟩
  have hiff := outputs_list_iff hrep (Or.inr (by simp)) ops
  rw [List.length_nil, Nat.zero_add] at hiff
  constructor
  · rintro ⟨l', hrun⟩
    have hroom : RunHasRoom (2 ^ 31 - 1) [] ops := by
      by_contra hnot
      cases hrun.symm.trans (ListQueue.run_createQueue_eq_none l hops hnot)
    obtain ⟨l'', hlist, -⟩ := run_of_enabled ListQueue.step_represents hinit hops hroom
    exact hiff.mp (Prod.mk.inj (Option.some.inj (hrun.symm.trans hlist))).1
  · intro hbounds
    obtain ⟨l', hlist, -⟩ := run_of_enabled ListQueue.step_represents hinit hops
      (runHasRoom_int q hbounds.1)
    exact ⟨l', by rw [hlist, hiff.mpr hbounds]⟩

/-- A node is allocated where the one that was popped has been freed. -/
theorem interchangeable_iff_three :
    ∃ q l', createQueue 3 (some fun _ => 0) = some q ∧
      run ListQueue.step (ListQueue.createQueue (⟨∅, none, none, 0⟩ : ListQueue ℕ))
          [.push 4 7, .push 5 8, .pop, .push 4 9] =
        some ((outputs step q [.push 7, .push 8, .pop, .push 9]).map Out.toList, l') := by
  have hq : createQueue 3 (some fun _ => 0) = some (arrayQueue fun _ => (0 : ℕ)) := rfl
  have hops : Admitted ListQueue.step ListQueue.FreshNode
      (ListQueue.createQueue (⟨∅, none, none, 0⟩ : ListQueue ℕ))
      [.push 4 7, .push 5 8, .pop, .push 4 9] :=
    .cons rfl (by decide) <| .cons rfl (by decide) <| .cons rfl trivial <|
      .cons rfl (by decide) trivial
  obtain ⟨l', hrun⟩ := (interchangeable_iff hq _ hops).mpr
    ⟨⟨by decide, by decide, trivial, by decide, trivial⟩, Or.inr (by decide)⟩
  exact ⟨_, l', hq, hrun⟩

end Queue

end H264Cast
