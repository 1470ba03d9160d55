import H264Cast.Sample.ClientList

/-! # Freeing the list of clients

The loop frees the node behind the head and links the next one in, but looks one node further
ahead before it goes on. With one node this follows a NULL pointer, and with more than one the
last node stays in the list.
-/

namespace H264Cast

namespace ClientList

variable (llist : ℕ)

/-- The call of `free`, which accepts NULL. -/
def free (h : Heap ClientNode) : Option ℕ → Option (Heap ClientNode)
  | none => some h
  | some a => h.free a

/-- The loop: the heap it leaves and the nodes freed. -/
def freeLoop : ℕ → Heap ClientNode → Option ℕ → List ℕ → Option (Heap ClientNode × List ℕ)
  | 0, _, _, _ => none
  | fuel + 1, h, q, freed =>
    (h.lookup llist).bind fun head =>
      (free h head.next).bind fun h =>
        (h.store llist { head with next := q }).bind fun h =>
          (h.deref q).bind fun node =>
            let freed := freed ++ head.next.toList
            match node.next with
            | none => some (h, freed)
            | some next => freeLoop fuel h (some next) freed

/-- The result with the heap and the nodes freed. -/
def freeLinklist (h : Heap ClientNode) : Option (ℤ × Heap ClientNode × List ℕ) :=
  (h.lookup llist).bind fun head =>
    match head.next with
    | none => some (0, h, [])
    | some a =>
      (h.lookup a).bind fun node =>
        (freeLoop llist h.keys.card h node.next []).map fun r => (1, r)

/-- The call frees every node once, and not the head, which has no next node afterwards. -/
def FreesAll (h : Heap ClientNode) (nodes : List (ℕ × ClientNode)) : Prop :=
  ∃ h' freed, freeLinklist llist h = some (if nodes = [] then 0 else 1, h', freed) ∧
    freed.Perm (Heap.addresses nodes) ∧ ∃ head, h'.lookup llist = some head ∧ head.next = none

variable {llist} {h : Heap ClientNode} {nodes : List (ℕ × ClientNode)} {x y : ℕ × ClientNode}
  {head : ClientNode} {fuel : ℕ}

/-- A round frees the first node and links the second one in. -/
theorem freeLoop_succ
    (hc : Heap.Chain ClientNode.next h (some llist) ((llist, head) :: x :: y :: nodes))
    (fuel : ℕ) (freed : List ℕ) :
    ∃ h', Heap.Chain ClientNode.next h' (some llist)
        ((llist, { head with next := some y.1 }) :: y :: nodes) ∧
      freeLoop llist (fuel + 1) h (some y.1) freed =
        match y.2.next with
        | none => some (h', freed ++ [x.1])
        | some next => freeLoop llist fuel h' (some next) (freed ++ [x.1]) := by
  have hnodup := hc.nodup
  simp only [Heap.addresses_cons, List.nodup_cons, List.mem_cons, not_or] at hnodup
  obtain ⟨⟨hne, -⟩, -⟩ := hnodup
  have hunlink : Heap.Chain ClientNode.next
      ((h.insert llist { head with next := some y.1 }).erase x.1) (some llist)
      ([] ++ (llist, { head with next := some y.1 }) :: y :: nodes) :=
    Heap.Chain.unlink hc _ hc.2.2.2.2.1.symm
  rw [← Heap.erase_insert_comm hne] at hunlink
  refine ⟨_, hunlink, ?_⟩
  have hy := Heap.Segment.lookup hunlink (List.mem_cons_of_mem _ List.mem_cons_self)
  obtain ⟨-, hhead, hx, hnode, -⟩ := hc
  have hnext : head.next = some x.1 := hx
  have hhead' : (h.erase x.1).lookup llist = some head := by
    rw [Finmap.lookup_erase_ne hne, hhead]
  simp only [freeLoop, hhead, Option.bind_some, hnext, free, Heap.free_eq hnode,
    Heap.store_eq hhead', Heap.deref, hy, Option.toList_some]

/-- The loop frees every node but the last one, which it leaves behind the head. -/
theorem freeLoop_eq
    (hc : Heap.Chain ClientNode.next h (some llist) ((llist, head) :: x :: y :: nodes))
    (hfuel : nodes.length < fuel) (freed : List ℕ) :
    ∃ h' head' last, freeLoop llist fuel h (some y.1) freed =
        some (h', freed ++ Heap.addresses (x :: y :: nodes).dropLast) ∧
      h'.lookup llist = some head' ∧ head'.next = some last := by
  induction nodes generalizing h head x y fuel freed with
  | nil =>
    cases fuel with
    | zero => cases hfuel
    | succ fuel =>
      obtain ⟨h', hc', hloop⟩ := freeLoop_succ hc fuel freed
      have hend : y.2.next = none := hc.2.2.2.2.2.2
      rw [hend] at hloop
      exact ⟨h', _, y.1, hloop, hc'.2.1, rfl⟩
  | cons z nodes ih =>
    cases fuel with
    | zero => cases hfuel
    | succ fuel =>
      obtain ⟨h', hc', hloop⟩ := freeLoop_succ hc fuel freed
      have hnext : y.2.next = some z.1 := hc.2.2.2.2.2.2.1
      obtain ⟨h'', head', last, heq, hhead', hlast⟩ :=
        ih hc' (Nat.lt_of_succ_lt_succ hfuel) (freed ++ [x.1])
      refine ⟨h'', head', last, ?_, hhead', hlast⟩
      rw [hloop, hnext]
      simpa using heq

/-- A list without a node needs no work. -/
theorem freesAll_nil (hc : Heap.Chain ClientNode.next h (some llist) [(llist, head)]) :
    FreesAll llist h [] := by
  obtain ⟨-, hhead, hnext⟩ := hc
  have hnone : head.next = none := Heap.chain_nil.mp hnext
  refine ⟨h, [], ?_, List.Perm.nil, head, hhead, hnone⟩
  simp only [freeLinklist, hhead, Option.bind_some, hnone, if_true]

/-- The only node is freed, and then the pointer behind it is followed. -/
theorem freeLinklist_singleton
    (hc : Heap.Chain ClientNode.next h (some llist) [(llist, head), x]) :
    freeLinklist llist h = none := by
  have hne : llist ≠ x.1 := by
    have hnodup := hc.nodup
    simpa using hnodup
  obtain ⟨-, hhead, hx, hnode, hend⟩ := hc
  have hnext : head.next = some x.1 := hx
  have hnone : x.2.next = none := Heap.chain_nil.mp hend
  have hhead' : (h.erase x.1).lookup llist = some head := by
    rw [Finmap.lookup_erase_ne hne, hhead]
  simp only [freeLinklist, hhead, hnext, hnode, hnone, Option.bind_some, Option.map_eq_none_iff]
  cases h.keys.card with
  | zero => rfl
  | succ fuel =>
    simp only [freeLoop, hhead, Option.bind_some, hnext, free, Heap.free_eq hnode,
      Heap.store_eq hhead', Heap.deref, Option.bind_none]

/-- Of two nodes or more the last one is not freed. -/
theorem freeLinklist_cons_cons
    (hc : Heap.Chain ClientNode.next h (some llist) ((llist, head) :: x :: y :: nodes)) :
    ∃ h' head' last, freeLinklist llist h =
        some (1, h', Heap.addresses (x :: y :: nodes).dropLast) ∧
      h'.lookup llist = some head' ∧ head'.next = some last := by
  have hfuel : nodes.length < h.keys.card := by
    have hle := hc.length_le
    simp only [List.length_cons] at hle
    omega
  obtain ⟨h', head', last, hloop, hhead', hlast⟩ := freeLoop_eq hc hfuel []
  refine ⟨h', head', last, ?_, hhead', hlast⟩
  obtain ⟨-, hhead, hx, hnode, hy, -⟩ := hc
  have hnext : head.next = some x.1 := hx
  simp only [freeLinklist, hhead, Option.bind_some, hnext, hnode, hy, hloop, Option.map_some,
    List.nil_append]

theorem not_freesAll_cons
    (hc : Heap.Chain ClientNode.next h (some llist) ((llist, head) :: x :: nodes)) :
    ¬ FreesAll llist h (x :: nodes) := by
  rintro ⟨h', freed, hret, -, head', hhead', hnext⟩
  cases nodes with
  | nil =>
    rw [freeLinklist_singleton hc] at hret
    cases hret
  | cons y nodes =>
    obtain ⟨h₁, head₁, last, hret₁, hhead₁, hlast⟩ := freeLinklist_cons_cons hc
    simp only [hret₁, Option.some.injEq, Prod.mk.injEq] at hret
    obtain ⟨-, rfl, -⟩ := hret
    obtain rfl := Option.some.inj (hhead₁.symm.trans hhead')
    cases hlast.symm.trans hnext

/-- The whole list is freed exactly when it has no node. -/
theorem freesAll_iff
    (hc : Heap.Chain ClientNode.next h (some llist) ((llist, head) :: nodes)) :
    FreesAll llist h nodes ↔ nodes = [] := by
  cases nodes with
  | nil => exact iff_of_true (freesAll_nil hc) rfl
  | cons x nodes => exact iff_of_false (not_freesAll_cons hc) (List.cons_ne_nil _ _)

/-- A list just created, and a list with two nodes. -/
theorem freesAll_iff_two :
    FreesAll 1 (createNullListLink 1 ∅ fun _ => 0x55) [] ∧
      ∃ (h : Heap ClientNode) (head : ClientNode) (nodes : List (ℕ × ClientNode)),
        Heap.Chain ClientNode.next h (some 1) ((1, head) :: nodes) ∧ nodes.length = 2 ∧
          ¬ FreesAll 1 h nodes := by
  let last : ClientNode := ⟨fun _ => 0x00, none⟩
  let first : ClientNode := ⟨fun _ => 0x00, some 3⟩
  let head : ClientNode := ⟨fun _ => 0x00, some 2⟩
  have hc : Heap.Chain ClientNode.next
      ((((∅ : Heap ClientNode).insert 3 last).insert 2 first).insert 1 head)
      (some 1) [(1, head), (2, first), (3, last)] := by
    refine ⟨rfl, Finmap.lookup_insert _, rfl, ?_, rfl, ?_, rfl⟩
    · rw [Finmap.lookup_insert_of_ne _ (by decide), Finmap.lookup_insert]
    · rw [Finmap.lookup_insert_of_ne _ (by decide), Finmap.lookup_insert_of_ne _ (by decide),
        Finmap.lookup_insert]
  have hnil : Heap.Chain ClientNode.next (createNullListLink 1 ∅ fun _ => 0x55) (some 1)
      [(1, ⟨fun _ => 0x55, none⟩)] := ⟨rfl, Finmap.lookup_insert _, rfl⟩
  refine ⟨(freesAll_iff hnil).mpr rfl, _, head, [(2, first), (3, last)], hc, rfl, fun h => ?_⟩
  cases (freesAll_iff hc).mp h

/-- A list with one node. -/
theorem not_freesAll_one : ¬ ∀ (llist : ℕ) (h : Heap ClientNode) (head : ClientNode)
    (nodes : List (ℕ × ClientNode)),
    Heap.Chain ClientNode.next h (some llist) ((llist, head) :: nodes) →
      FreesAll llist h nodes := by
  intro hall
  let node : ClientNode := ⟨fun _ => 0x00, none⟩
  let head : ClientNode := ⟨fun _ => 0x00, some 2⟩
  have hc : Heap.Chain ClientNode.next (((∅ : Heap ClientNode).insert 2 node).insert 1 head)
      (some 1) [(1, head), (2, node)] := by
    refine ⟨rfl, Finmap.lookup_insert _, rfl, ?_, rfl⟩
    rw [Finmap.lookup_insert_of_ne _ (by decide), Finmap.lookup_insert]
  exact not_freesAll_cons hc (hall 1 _ head _ hc)

end ClientList

end H264Cast
