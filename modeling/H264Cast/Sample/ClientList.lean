import H264Cast.AnnexB.StartCode
import H264Cast.Library.CString
import H264Cast.Library.Heap
import H264Cast.Library.Machine
import Mathlib.Data.BitVec

/-! # The list of clients

A linked list behind a head node that holds no address. An address is put in front of the
others when it is not in the list yet, so that no two nodes hold the same one and removing
the first match removes the address. Walks through the list are bounded by the number of
allocated nodes: one that takes longer goes round in a circle and never ends.
-/

namespace H264Cast

/-- A node of the list. -/
structure ClientNode where
  ipaddr : Memory Byte
  next : Option ℕ

/-- The size of the array that holds an address. -/
def ipaddrSize : ℕ := 16

/-- The address in a node. -/
def ClientNode.address (node : ClientNode) : List Byte := node.ipaddr.string 0 ipaddrSize

/-- The array has a terminator. -/
def ClientNode.Terminated (node : ClientNode) : Prop := node.ipaddr.Terminated 0 ipaddrSize

/-- The characters of an address that fits. -/
@[ext] structure Address where
  chars : List Byte
  zero_notMem : 0 ∉ chars
  length_lt : chars.length < ipaddrSize

namespace ClientList

variable (llist : ℕ)

/-- The head node. Its array is not written. -/
def createNullListLink (h : Heap ClientNode) (garbage : Memory Byte) : Heap ClientNode :=
  h.insert llist ⟨garbage, none⟩

/-- The address of the new node is what the allocation returned, with whatever was there. -/
def insertLink (h : Heap ClientNode) (q : ℕ) (garbage : Memory Byte) (ipaddr : Address) :
    Option (Heap ClientNode) :=
  (h.lookup llist).bind fun head =>
    let h : Heap ClientNode := h.insert q ⟨garbage.write 0 (ipaddr.chars ++ [0]), head.next⟩
    h.store llist { head with next := some q }

/-- The loop of the deletions: unlink and free the first node that is meant. The result is
the node in front of it, or the last one. -/
def deleteLoop (meant : ℕ → ClientNode → Bool) (h : Heap ClientNode) :
    ℕ → ℕ → ℕ → Option (ℕ × Heap ClientNode)
  | 0, _, _ => none
  | fuel + 1, p, q =>
    (h.lookup q).bind fun node =>
      if meant q node then
        (h.lookup p).bind fun prev =>
          (h.store p { prev with next := node.next }).bind fun h =>
            (h.free q).map fun h => (p, h)
      else
        match node.next with
        | none => some (q, h)
        | some next => deleteLoop meant h fuel q next

def delete (meant : ℕ → ClientNode → Bool) (h : Heap ClientNode) : Option (ℕ × Heap ClientNode) :=
  (h.lookup llist).bind fun head =>
    match head.next with
    | none => some (llist, h)
    | some q => deleteLoop meant h h.keys.card llist q

def deleteNode (h : Heap ClientNode) (ipaddr : Address) : Option (ℕ × Heap ClientNode) :=
  (delete llist (fun _ node => node.ipaddr.strEq 0 ipaddr.chars) h).map fun (_, h) => (llist, h)

def deleteThisNode (h : Heap ClientNode) (this : ℕ) : Option (ℕ × Heap ClientNode) :=
  delete llist (fun q _ => q = this) h

def searchLoop (h : Heap ClientNode) (ipaddr : Address) : ℕ → ℕ → Option (Option ℕ)
  | 0, _ => none
  | fuel + 1, q =>
    (h.lookup q).bind fun node =>
      if node.ipaddr.strEq 0 ipaddr.chars then some (some q)
      else
        match node.next with
        | none => some none
        | some next => searchLoop h ipaddr fuel next

def searchNode (h : Heap ClientNode) (ipaddr : Address) : Option (Option ℕ) :=
  (h.lookup llist).bind fun head =>
    match head.next with
    | none => some none
    | some q => searchLoop h ipaddr h.keys.card q

def numLoop (h : Heap ClientNode) : ℕ → ℕ → ℤ → Option ℤ
  | 0, _, _ => none
  | fuel + 1, llist, n =>
    (h.lookup llist).bind fun node =>
      match node.next with
      | none => some n
      | some next => numLoop h fuel next (n + 1)

def numNode (h : Heap ClientNode) : Option ℤ := numLoop h h.keys.card llist 0

def insertNodupNode (h : Heap ClientNode) (q : ℕ) (garbage : Memory Byte) (ipaddr : Address) :
    Option (ℤ × Heap ClientNode) :=
  (searchNode llist h ipaddr).bind fun found =>
    match found with
    | none => (insertLink llist h q garbage ipaddr).map fun h => (1, h)
    | some _ => some (0, h)

/-- The calls of a run. An insertion comes with the address and the contents of the node it
may allocate, and the deletion of a node with the address that the node holds. -/
inductive Op
  | insert (q : ℕ) (garbage : Memory Byte) (ipaddr : Address)
  | delete (ipaddr : Address)
  | deleteThis (this : ℕ) (ipaddr : Address)

/-- What a call returns. -/
inductive Ret
  | int (n : ℤ)
  | node (p : ℕ)
  deriving DecidableEq

def step (h : Heap ClientNode) : Op → Option (Ret × Heap ClientNode)
  | .insert q garbage ipaddr =>
    (insertNodupNode llist h q garbage ipaddr).map fun (ret, h) => (.int ret, h)
  | .delete ipaddr => (deleteNode llist h ipaddr).map fun (p, h) => (.node p, h)
  | .deleteThis this _ => (deleteThisNode llist h this).map fun (p, h) => (.node p, h)

/-- Where a node is and what address it holds. -/
abbrev Entry := ℕ × List Byte

def entry (node : ℕ × ClientNode) : Entry := (node.1, node.2.address)

/-- The nodes of the list are the entries, and besides them and the head nothing in the heap
has changed. -/
structure Holds (h₀ h : Heap ClientNode) (es : List Entry) : Prop where
  chain : ∃ head nodes, Heap.Chain ClientNode.next h (some llist) ((llist, head) :: nodes) ∧
    nodes.map entry = es ∧ ∀ node ∈ nodes, node.2.Terminated
  nodup : (es.map Prod.snd).Nodup
  fresh : llist ∉ h₀ ∧ ∀ e ∈ es, e.1 ∉ h₀
  frame : ∀ a, a ≠ llist → a ∉ es.map Prod.fst → h.lookup a = h₀.lookup a

/-- A node is allocated at an address that is not in use, and a node to delete is one of the
list and holds its address. -/
def Allowed (h : Heap ClientNode) : Op → Prop
  | .insert q _ _ => q ∉ h
  | .delete _ => True
  | .deleteThis this ipaddr =>
    ∃ head nodes, Heap.Chain ClientNode.next h (some llist) ((llist, head) :: nodes) ∧
      (this, ipaddr.chars) ∈ nodes.map entry

/-- The pointer in front of the first entry that is meant. -/
def predecessor (es : List Entry) (meant : Entry → Bool) : ℕ :=
  ((es.takeWhile fun e => !meant e).map Prod.fst).getLastD llist

/-- The calls on the list of entries. -/
def entryStep (es : List Entry) : Op → Ret × List Entry
  | .insert q _ ipaddr =>
    if ipaddr.chars ∈ es.map Prod.snd then (.int 0, es) else (.int 1, (q, ipaddr.chars) :: es)
  | .delete ipaddr => (.node llist, es.eraseP fun e => e.2 = ipaddr.chars)
  | .deleteThis this _ =>
    (.node (predecessor llist es fun e => e.1 = this), es.eraseP fun e => e.1 = this)

/-- The call deletes the address. -/
def Op.Deletes (ipaddr : Address) : Op → Prop
  | .insert _ _ _ => False
  | .delete a => a = ipaddr
  | .deleteThis _ a => a = ipaddr

/-- The address is inserted in the run and not deleted afterwards. -/
def Inserted (ipaddr : Address) (ops : List Op) : Prop :=
  ∃ before q garbage after, ops = before ++ .insert q garbage ipaddr :: after ∧
    ∀ op ∈ after, ¬ op.Deletes ipaddr

variable {llist} {h h₀ : Heap ClientNode} {es : List Entry}
  {nodes front back : List (ℕ × ClientNode)} {x : ℕ × ClientNode} {prev : ClientNode}
  {p q fuel : ℕ} {n : ℤ} {ipaddr : Address}
  {meant : ℕ → ClientNode → Bool} {P : Entry → Bool}

theorem strEq_address {node : ClientNode} (ht : node.Terminated) :
    node.ipaddr.strEq 0 ipaddr.chars = true ↔ node.address = ipaddr.chars :=
  Memory.strEq_iff ht ipaddr.zero_notMem

section Loops

theorem searchLoop_eq (hq : Heap.Chain ClientNode.next h (some q) nodes)
    (ht : ∀ node ∈ nodes, node.2.Terminated) (hfuel : nodes.length ≤ fuel) :
    searchLoop h ipaddr fuel q =
      some ((nodes.find? fun node => node.2.address = ipaddr.chars).map Prod.fst) := by
  induction nodes generalizing q fuel with
  | nil => cases Heap.chain_nil.mp hq
  | cons node nodes ih =>
    cases fuel with
    | zero => cases hfuel
    | succ fuel =>
      obtain ⟨hp, hnode, hnext⟩ := hq
      obtain rfl := Option.some.inj hp
      rw [List.forall_mem_cons] at ht
      simp only [searchLoop, hnode, Option.bind_some, strEq_address ht.1]
      by_cases hfound : node.2.address = ipaddr.chars
      · rw [if_pos hfound, List.find?_cons_of_pos (by simpa using hfound)]
        rfl
      · rw [if_neg hfound, List.find?_cons_of_neg (by simpa using hfound)]
        cases nodes with
        | nil =>
          rw [Heap.chain_nil.mp hnext]
          rfl
        | cons y nodes =>
          rw [hnext.1]
          exact ih (hnext.1 ▸ hnext) ht.2 (Nat.le_of_succ_le_succ hfuel)

theorem numLoop_eq (hp : Heap.Chain ClientNode.next h (some p) (x :: nodes))
    (hfuel : nodes.length < fuel) : numLoop h fuel p n = some (n + nodes.length) := by
  induction nodes generalizing p x fuel n with
  | nil =>
    cases fuel with
    | zero => cases hfuel
    | succ fuel =>
      obtain ⟨hx, hnode, hnext⟩ := hp
      obtain rfl := Option.some.inj hx
      simp [numLoop, hnode, Heap.chain_nil.mp hnext]
  | cons y nodes ih =>
    cases fuel with
    | zero => cases hfuel
    | succ fuel =>
      obtain ⟨hx, hnode, hnext⟩ := hp
      obtain rfl := Option.some.inj hx
      have hloop := ih (n := n + 1) (hnext.1 ▸ hnext) (Nat.lt_of_succ_lt_succ hfuel)
      simp only [numLoop, hnode, Option.bind_some, hnext.1, hloop, List.length_cons]
      push_cast
      rw [add_assoc, add_comm 1]

/-- Without a node that is meant the loop runs to the end. -/
theorem deleteLoop_none (hq : Heap.Chain ClientNode.next h (some q) nodes)
    (hmeant : ∀ y ∈ nodes, meant y.1 y.2 = false) (hfuel : nodes.length ≤ fuel) :
    deleteLoop meant h fuel p q = some ((Heap.addresses nodes).getLastD p, h) := by
  induction nodes generalizing p q fuel with
  | nil => cases Heap.chain_nil.mp hq
  | cons y nodes ih =>
    cases fuel with
    | zero => cases hfuel
    | succ fuel =>
      obtain ⟨hp, hy, hnext⟩ := hq
      obtain rfl := Option.some.inj hp
      rw [List.forall_mem_cons] at hmeant
      simp only [deleteLoop, hy, Option.bind_some, hmeant.1, Bool.false_eq_true, if_false]
      cases nodes with
      | nil =>
        rw [Heap.chain_nil.mp hnext]
        rfl
      | cons z nodes =>
        rw [hnext.1, Heap.addresses_cons, List.getLastD_cons]
        exact ih (hnext.1 ▸ hnext) hmeant.2 (Nat.le_of_succ_le_succ hfuel)

/-- The loop unlinks the first node that is meant. -/
theorem deleteLoop_found
    (hc : Heap.Chain ClientNode.next h (some p) ((p, prev) :: (front ++ x :: back)))
    (hq : prev.next = some q) (hfront : ∀ y ∈ front, meant y.1 y.2 = false)
    (hx : meant x.1 x.2 = true) (hfuel : front.length < fuel) :
    ∃ cs p' prev', (p, prev) :: front = cs ++ [(p', prev')] ∧
      deleteLoop meant h fuel p q =
        some (p', (h.insert p' { prev' with next := x.2.next }).erase x.1) := by
  induction front generalizing p prev q fuel with
  | nil =>
    cases fuel with
    | zero => cases hfuel
    | succ fuel =>
      have hnodup := (List.nodup_cons.mp hc.nodup).1
      obtain ⟨-, hprev, hqx, hnode, -⟩ := hc
      obtain rfl := Option.some.inj (hq.symm.trans hqx)
      have hne : x.1 ≠ p := fun he => hnodup (he ▸ List.mem_cons_self)
      have hnode' : (h.insert p { prev with next := x.2.next }).lookup x.1 = some x.2 := by
        rw [Finmap.lookup_insert_of_ne _ hne, hnode]
      refine ⟨[], p, prev, rfl, ?_⟩
      simp only [deleteLoop, hnode, Option.bind_some, hx, if_true, hprev, Heap.store_eq hprev,
        Heap.free_eq hnode', Option.map_some]
  | cons y front ih =>
    cases fuel with
    | zero => cases hfuel
    | succ fuel =>
      obtain ⟨-, hprev, hqy, hy, hnext⟩ := hc
      obtain rfl := Option.some.inj (hq.symm.trans hqy)
      rw [List.forall_mem_cons] at hfront
      -- a node that is not meant is followed by another one
      obtain ⟨q', hq'⟩ := Heap.Chain.exists_eq_some hnext
      have hc' : Heap.Chain ClientNode.next h (some y.1) ((y.1, y.2) :: (front ++ x :: back)) :=
        ⟨rfl, hy, hnext⟩
      obtain ⟨cs, p', prev', hcs, hloop⟩ :=
        ih hc' hq' hfront.2 (Nat.lt_of_succ_lt_succ hfuel)
      refine ⟨(p, prev) :: cs, p', prev', by rw [List.cons_append, ← hcs], ?_⟩
      simp only [deleteLoop, hy, Option.bind_some, hfront.1, Bool.false_eq_true, if_false, hq',
        hloop]

end Loops

theorem addresses_eq_map_entry (nodes : List (ℕ × ClientNode)) :
    Heap.addresses nodes = (nodes.map entry).map Prod.fst := by
  rw [List.map_map]
  rfl

/-- The pointer in front of the nodes that follow. -/
theorem eq_getLastD {cs : List (ℕ × ClientNode)} {p' : ℕ} {prev' : ClientNode}
    (h : (p, prev) :: front = cs ++ [(p', prev')]) : p' = (Heap.addresses front).getLastD p := by
  have hlast := congrArg (fun l => (Heap.addresses l).getLastD p) h
  rw [Heap.addresses_cons, List.getLastD_cons] at hlast
  rw [hlast, Heap.addresses_append]
  simp

theorem predecessor_append (hfront : ∀ y ∈ front, P (entry y) = false) {es : List Entry}
    (hes : ∀ e ∈ es.head?, P e = true) :
    predecessor llist (front.map entry ++ es) P = (Heap.addresses front).getLastD llist := by
  have hall : ∀ e ∈ front.map entry, (!P e) = true := by
    intro e he
    obtain ⟨y, hy, rfl⟩ := List.mem_map.mp he
    rw [hfront y hy]
    rfl
  rw [predecessor, List.takeWhile_append_of_pos hall, addresses_eq_map_entry]
  cases es with
  | nil => rw [List.takeWhile_nil, List.append_nil]
  | cons e es =>
    rw [List.takeWhile_cons_of_neg (by simp [hes e (by simp)]), List.append_nil]

/-- The first entry that is meant, and what is left without it. -/
theorem exists_of_meant (hex : ∃ x ∈ nodes, P (entry x) = true) :
    ∃ front x back, nodes = front ++ x :: back ∧ (∀ y ∈ front, P (entry y) = false) ∧
      P (entry x) = true ∧ (nodes.map entry).eraseP P = (front ++ back).map entry := by
  obtain ⟨x₀, hx₀, hP₀⟩ := hex
  obtain ⟨x, front, back, hfront, hx, rfl, herase⟩ :=
    List.exists_of_eraseP (p := P ∘ entry) hx₀ hP₀
  refine ⟨front, x, back, rfl, fun y hy => by simpa using hfront y hy, hx, ?_⟩
  rw [List.eraseP_map, herase]

theorem eraseP_congr {Q : Entry → Bool} (heq : ∀ e ∈ es, P e = Q e) :
    es.eraseP P = es.eraseP Q := by
  induction es with
  | nil => rfl
  | cons e es ih =>
    rw [List.forall_mem_cons] at heq
    rw [List.eraseP_cons, List.eraseP_cons, heq.1, ih heq.2]

/-- Erasing the entry of an address takes the address out. -/
theorem mem_eraseP (hnodup : (es.map Prod.snd).Nodup) {s t : List Byte} :
    s ∈ (es.eraseP fun e => e.2 = t).map Prod.snd ↔ s ∈ es.map Prod.snd ∧ s ≠ t := by
  have hmap : (es.eraseP fun e => e.2 = t).map Prod.snd = (es.map Prod.snd).erase t := by
    rw [List.erase_eq_eraseP', List.eraseP_map]
    congr 1
    apply eraseP_congr
    intro e _
    exact (beq_eq_decide e.2 t).symm
  rw [hmap, hnodup.mem_erase_iff, and_comm]

theorem find?_eq_none {s : List Byte} (hs : s ∉ es.map Prod.snd) :
    es.find? (fun e => e.2 = s) = none := by
  rw [List.find?_eq_none]
  intro e he heq
  exact hs (List.mem_map.mpr ⟨e, he, by simpa using heq⟩)

theorem exists_find? {s : List Byte} (hs : s ∈ es.map Prod.snd) :
    ∃ q, es.find? (fun e => e.2 = s) = some (q, s) ∧ (q, s) ∈ es := by
  obtain ⟨e, he, heq⟩ := List.mem_map.mp hs
  have hsome : (es.find? fun e => e.2 = s).isSome :=
    List.find?_isSome.mpr ⟨e, he, by simpa using heq⟩
  obtain ⟨⟨q, t⟩, hfind⟩ := Option.isSome_iff_exists.mp hsome
  obtain rfl : t = s := by simpa using List.find?_some hfind
  exact ⟨q, hfind, List.mem_of_find?_eq_some hfind⟩

namespace Holds

theorem card_pos (hH : Holds llist h₀ h es) : es.length < h.keys.card := by
  obtain ⟨head, nodes, hchain, rfl, -⟩ := hH.chain
  have hle := hchain.length_le
  rw [List.length_cons] at hle
  rwa [List.length_map]

theorem searchNode_eq (hH : Holds llist h₀ h es) (ipaddr : Address) :
    searchNode llist h ipaddr = some ((es.find? fun e => e.2 = ipaddr.chars).map Prod.fst) := by
  have hcard := hH.card_pos
  obtain ⟨head, nodes, ⟨-, hhead, hnext⟩, rfl, ht⟩ := hH.chain
  simp only [searchNode, hhead, Option.bind_some]
  cases nodes with
  | nil =>
    rw [Heap.chain_nil.mp hnext]
    rfl
  | cons node nodes =>
    rw [List.length_map] at hcard
    rw [hnext.1, List.find?_map, Option.map_map]
    exact searchLoop_eq (hnext.1 ▸ hnext) ht hcard.le

theorem numNode_eq (hH : Holds llist h₀ h es) : numNode llist h = some (es.length : ℤ) := by
  have hcard := hH.card_pos
  obtain ⟨head, nodes, hchain, rfl, -⟩ := hH.chain
  rw [List.length_map] at hcard ⊢
  rw [numNode, numLoop_eq hchain hcard, zero_add]

theorem notMem (hH : Holds llist h₀ h es) (hq : q ∉ h) :
    q ≠ llist ∧ q ∉ es.map Prod.fst ∧ q ∉ h₀ := by
  obtain ⟨head, nodes, hchain, rfl, -⟩ := hH.chain
  have hmem := Heap.Segment.notMem hchain hq
  rw [Heap.addresses_cons, List.mem_cons, not_or, addresses_eq_map_entry] at hmem
  refine ⟨hmem.1, hmem.2, ?_⟩
  rw [← Finmap.lookup_eq_none, ← hH.frame q hmem.1 hmem.2, Finmap.lookup_eq_none]
  exact hq

/-- A new node comes to stand in front of the others. -/
theorem insertLink (hH : Holds llist h₀ h es) (hq : q ∉ h) (garbage : Memory Byte)
    (hnew : ipaddr.chars ∉ es.map Prod.snd) :
    ∃ h', ClientList.insertLink llist h q garbage ipaddr = some h' ∧
      Holds llist h₀ h' ((q, ipaddr.chars) :: es) := by
  obtain ⟨hql, hqes, hq₀⟩ := hH.notMem hq
  obtain ⟨head, nodes, hchain, rfl, ht⟩ := hH.chain
  obtain ⟨hstring, hterm⟩ := Memory.string_write garbage 0 ipaddr.zero_notMem ipaddr.length_lt
  have hhead := hchain.2.1
  have hqn : q ∉ Heap.addresses ((llist, head) :: nodes) := Heap.Segment.notMem hchain hq
  have hln := (List.nodup_cons.mp hchain.nodup).1
  have hchain' : Heap.Chain ClientNode.next
      (h.insert q ⟨garbage.write 0 (ipaddr.chars ++ [0]), head.next⟩) (some llist)
      ([] ++ (llist, head) :: nodes) := Heap.Segment.insert hchain hqn
  refine ⟨(h.insert q ⟨garbage.write 0 (ipaddr.chars ++ [0]), head.next⟩).insert llist
    { head with next := some q }, ?_, ?_⟩
  · simp only [ClientList.insertLink, hhead, Option.bind_some]
    exact Heap.store_eq hchain'.2.1
  · constructor
    case chain =>
      refine ⟨{ head with next := some q },
        (q, ⟨garbage.write 0 (ipaddr.chars ++ [0]), head.next⟩) :: nodes, ?_, ?_, ?_⟩
      · refine Heap.Chain.relink hchain' ⟨rfl, ?_, ?_⟩
        · rw [Finmap.lookup_insert_of_ne _ hql, Finmap.lookup_insert]
        · exact Heap.Segment.insert hchain'.2.2 hln
      · have haddress : ClientNode.address ⟨garbage.write 0 (ipaddr.chars ++ [0]), head.next⟩ =
            ipaddr.chars := hstring
        rw [List.map_cons, entry, haddress]
      · exact List.forall_mem_cons.mpr ⟨hterm, ht⟩
    case nodup => exact List.nodup_cons.mpr ⟨hnew, hH.nodup⟩
    case fresh => exact ⟨hH.fresh.1, List.forall_mem_cons.mpr ⟨hq₀, hH.fresh.2⟩⟩
    case frame =>
      intro a hal ha
      rw [List.map_cons, List.mem_cons, not_or] at ha
      rw [Finmap.lookup_insert_of_ne _ hal, Finmap.lookup_insert_of_ne _ ha.1]
      exact hH.frame a hal ha.2

/-- Linking past a node and freeing it takes out its entry. -/
theorem unlink {cs : List (ℕ × ClientNode)} {head prev' : ClientNode} {p' : ℕ}
    (hH : Holds llist h₀ h ((front ++ x :: back).map entry))
    (hchain : Heap.Chain ClientNode.next h (some llist) ((llist, head) :: (front ++ x :: back)))
    (ht : ∀ node ∈ front ++ x :: back, node.2.Terminated)
    (hcs : (llist, head) :: front = cs ++ [(p', prev')]) :
    Holds llist h₀ ((h.insert p' { prev' with next := x.2.next }).erase x.1)
      ((front ++ back).map entry) := by
  have hsub : (front ++ back).Sublist (front ++ x :: back) :=
    (List.Sublist.refl front).append (List.sublist_cons_self x back)
  have hmem : p' ∈ Heap.addresses ((llist, head) :: front) := by
    rw [hcs]
    simp
  constructor
  case chain =>
    rw [← List.cons_append, hcs, List.append_assoc, List.singleton_append] at hchain
    have hnew := hchain.unlink { prev' with next := x.2.next } rfl
    cases cs with
    | nil =>
      obtain ⟨he, rfl⟩ := List.cons.inj hcs
      obtain ⟨rfl, rfl⟩ := Prod.mk.inj he
      exact ⟨_, back, hnew, rfl, fun y hy => ht y (hsub.mem hy)⟩
    | cons c cs =>
      obtain ⟨rfl, rfl⟩ := List.cons.inj hcs
      refine ⟨head, cs ++ (p', { prev' with next := x.2.next }) :: back, hnew, ?_, ?_⟩
      · simp [entry, ClientNode.address]
      · intro y hy
        rcases List.mem_append.mp hy with hy | hy
        · exact ht y (by simp [hy])
        · rcases List.mem_cons.mp hy with rfl | hy
          · exact ht (p', prev') (by simp)
          · exact ht y (by simp [hy])
  case nodup => exact hH.nodup.sublist ((hsub.map entry).map Prod.snd)
  case fresh => exact ⟨hH.fresh.1, fun e he => hH.fresh.2 e ((hsub.map entry).mem he)⟩
  case frame =>
    intro a hal ha
    by_cases hax : a = x.1
    · subst hax
      rw [Finmap.lookup_erase, eq_comm, Finmap.lookup_eq_none]
      exact hH.fresh.2 (entry x) (List.mem_map_of_mem (by simp))
    · rw [← addresses_eq_map_entry, Heap.addresses_append, List.mem_append, not_or] at ha
      have hap : a ≠ p' := by
        rintro rfl
        rcases List.mem_cons.mp hmem with he | hmem
        · exact hal he
        · exact ha.1 hmem
      rw [Finmap.lookup_erase_ne hax, Finmap.lookup_insert_of_ne _ hap]
      refine hH.frame a hal ?_
      rw [← addresses_eq_map_entry]
      simp [ha, hax]

/-- A deletion takes out the first entry that is meant and keeps the others. -/
theorem delete (hH : Holds llist h₀ h es) (meant : ℕ → ClientNode → Bool) (P : Entry → Bool)
    (hmeant : ∀ node : ℕ × ClientNode, node.2.Terminated →
      meant node.1 node.2 = P (entry node)) :
    ∃ h', ClientList.delete llist meant h = some (predecessor llist es P, h') ∧
      Holds llist h₀ h' (es.eraseP P) := by
  have hcard := hH.card_pos
  obtain ⟨head, nodes, hchain, rfl, ht⟩ := hH.chain
  have hhead := hchain.2.1
  have hnext := hchain.2.2
  rw [List.length_map] at hcard
  by_cases hex : ∃ x ∈ nodes, P (entry x) = true
  · obtain ⟨front, x, back, rfl, hfront, hx, herase⟩ := exists_of_meant hex
    have hpred : predecessor llist ((front ++ x :: back).map entry) P =
        (Heap.addresses front).getLastD llist := by
      rw [List.map_append, List.map_cons]
      exact predecessor_append hfront (by simpa using hx)
    obtain ⟨q, hq⟩ : ∃ q, head.next = some q := Heap.Chain.exists_eq_some hnext
    obtain ⟨cs, p', prev', hcs, hloop⟩ := deleteLoop_found hchain hq
      (fun y hy => (hmeant y (ht y (List.mem_append_left _ hy))).trans (hfront y hy))
      ((hmeant x (ht x (by simp))).trans hx)
      (Nat.lt_of_le_of_lt (by simp) hcard : front.length < h.keys.card)
    refine ⟨(h.insert p' { prev' with next := x.2.next }).erase x.1, ?_, ?_⟩
    · rw [hpred, ← eq_getLastD hcs]
      simp only [ClientList.delete, hhead, Option.bind_some, hq, hloop]
    · rw [herase]
      exact hH.unlink hchain ht hcs
  · have hall : ∀ y ∈ nodes, P (entry y) = false := fun y hy => by
      simpa using fun hP => hex ⟨y, hy, hP⟩
    have hpred : predecessor llist (nodes.map entry) P = (Heap.addresses nodes).getLastD llist := by
      have happ : predecessor llist (nodes.map entry ++ []) P = _ :=
        predecessor_append hall (by simp)
      rwa [List.append_nil] at happ
    have herase : (nodes.map entry).eraseP P = nodes.map entry := by
      rw [List.eraseP_eq_self_iff]
      intro e he
      obtain ⟨y, hy, rfl⟩ := List.mem_map.mp he
      simpa using hall y hy
    refine ⟨h, ?_, by rwa [herase]⟩
    simp only [ClientList.delete, hhead, Option.bind_some, hpred]
    cases nodes with
    | nil =>
      rw [Heap.chain_nil.mp hnext]
      rfl
    | cons y nodes =>
      rw [hnext.1]
      exact deleteLoop_none (hnext.1 ▸ hnext)
        (fun z hz => (hmeant z (ht z hz)).trans (hall z hz)) hcard.le

theorem nodup_fst (hH : Holds llist h₀ h es) : (es.map Prod.fst).Nodup := by
  obtain ⟨head, nodes, hchain, rfl, -⟩ := hH.chain
  rw [← addresses_eq_map_entry]
  exact (List.nodup_cons.mp hchain.nodup).2

/-- What is stored are addresses that fit. -/
theorem exists_address (hH : Holds llist h₀ h es) {s : List Byte} (hs : s ∈ es.map Prod.snd) :
    ∃ ipaddr : Address, ipaddr.chars = s := by
  obtain ⟨head, nodes, -, rfl, ht⟩ := hH.chain
  rw [List.map_map] at hs
  obtain ⟨node, hnode, rfl⟩ := List.mem_map.mp hs
  exact ⟨⟨node.2.address, Memory.zero_notMem_string _ _ _, (ht node hnode).length_string_lt⟩, rfl⟩

theorem mem_of_allowed {this : ℕ} (hH : Holds llist h₀ h es)
    (hop : Allowed llist h (.deleteThis this ipaddr)) : (this, ipaddr.chars) ∈ es := by
  obtain ⟨head, nodes, hchain, rfl, -⟩ := hH.chain
  obtain ⟨head', nodes', hchain', hmem⟩ := hop
  obtain ⟨-, rfl⟩ := List.cons.inj (hchain.unique hchain')
  exact hmem

/-- Every call on the list is the call on its entries. -/
theorem step (hH : Holds llist h₀ h es) (op : Op) (hop : Allowed llist h op) :
    ∃ h', ClientList.step llist h op = some ((entryStep llist es op).1, h') ∧
      Holds llist h₀ h' (entryStep llist es op).2 := by
  cases op with
  | insert q garbage ipaddr =>
    by_cases hmem : ipaddr.chars ∈ es.map Prod.snd
    · obtain ⟨q', hfind, -⟩ := exists_find? hmem
      rw [entryStep, if_pos hmem]
      refine ⟨h, ?_, hH⟩
      simp only [ClientList.step, insertNodupNode, hH.searchNode_eq, hfind, Option.map_some,
        Option.bind_some]
    · have hnone := find?_eq_none hmem
      obtain ⟨h', hinsert, hH'⟩ := hH.insertLink hop garbage hmem
      rw [entryStep, if_neg hmem]
      refine ⟨h', ?_, hH'⟩
      simp only [ClientList.step, insertNodupNode, hH.searchNode_eq, hnone, Option.map_none,
        Option.bind_some, hinsert, Option.map_some]
  | delete ipaddr =>
    obtain ⟨h', hdelete, hH'⟩ := hH.delete
      (fun _ node => node.ipaddr.strEq 0 ipaddr.chars) (fun e => e.2 = ipaddr.chars)
      fun node ht => Bool.eq_iff_iff.mpr ((strEq_address ht).trans decide_eq_true_iff.symm)
    refine ⟨h', ?_, hH'⟩
    simp only [ClientList.step, deleteNode, hdelete, Option.map_some, entryStep]
  | deleteThis this ipaddr =>
    obtain ⟨h', hdelete, hH'⟩ := hH.delete (fun q _ => q = this) (fun e => e.1 = this)
      fun _ _ => rfl
    refine ⟨h', ?_, hH'⟩
    simp only [ClientList.step, deleteThisNode, hdelete, Option.map_some, entryStep]

/-- Nodes and addresses correspond. -/
theorem fst_eq_iff {this : ℕ} {s : List Byte} (hH : Holds llist h₀ h es) (hmem : (this, s) ∈ es)
    {e : Entry} (he : e ∈ es) : e.1 = this ↔ e.2 = s := by
  constructor
  · intro heq
    rw [List.inj_on_of_nodup_map hH.nodup_fst he hmem heq]
  · intro heq
    rw [List.inj_on_of_nodup_map hH.nodup he hmem heq]

/-- The addresses after a call. -/
theorem mem_entryStep (hH : Holds llist h₀ h es) (op : Op) (hop : Allowed llist h op) :
    ipaddr.chars ∈ (entryStep llist es op).2.map Prod.snd ↔
      (∃ q garbage, op = .insert q garbage ipaddr) ∨
        ipaddr.chars ∈ es.map Prod.snd ∧ ¬ op.Deletes ipaddr := by
  have herase : ∀ a : Address, ipaddr.chars ∈ (es.eraseP fun e => e.2 = a.chars).map Prod.snd ↔
      ipaddr.chars ∈ es.map Prod.snd ∧ ¬ a = ipaddr := by
    intro a
    rw [mem_eraseP hH.nodup, Ne, Address.ext_iff, eq_comm (a := a.chars)]
  cases op with
  | insert q garbage a =>
    have hins : (∃ q' garbage', Op.insert q garbage a = .insert q' garbage' ipaddr) ↔
        ipaddr.chars = a.chars := by
      rw [← Address.ext_iff]
      constructor
      · rintro ⟨q', garbage', he⟩
        cases he
        rfl
      · rintro rfl
        exact ⟨q, garbage, rfl⟩
    rw [hins, entryStep]
    split_ifs with hmem
    · simp only [Op.Deletes, not_false_eq_true, and_true]
      exact (or_iff_right_of_imp fun he => he ▸ hmem).symm
    · simp [Op.Deletes]
  | delete a => simpa [entryStep, Op.Deletes] using herase a
  | deleteThis this a =>
    have hmem := hH.mem_of_allowed hop
    have hsame : es.eraseP (fun e => e.1 = this) = es.eraseP fun e => e.2 = a.chars :=
      eraseP_congr fun e he => decide_eq_decide.mpr (hH.fst_eq_iff hmem he)
    simp only [entryStep, hsame, Op.Deletes, reduceCtorEq, exists_false, false_or]
    exact herase a

/-- The addresses after a run are those inserted and not deleted since. -/
theorem mem_final (hH : Holds llist h₀ h es) (ipaddr : Address) {ops : List Op}
    (hops : Admitted (ClientList.step llist) (Allowed llist) h ops) :
    ipaddr.chars ∈ (final (entryStep llist) es ops).map Prod.snd ↔
      Inserted ipaddr ops ∨
        ipaddr.chars ∈ es.map Prod.snd ∧ ∀ op ∈ ops, ¬ op.Deletes ipaddr := by
  induction ops generalizing h es with
  | nil => simp [final, Inserted]
  | cons op ops ih =>
    obtain ⟨h', hstep, hH'⟩ := hH.step op hops.1
    have hcons : Inserted ipaddr (op :: ops) ↔
        (∃ q garbage, op = .insert q garbage ipaddr) ∧ (∀ op ∈ ops, ¬ op.Deletes ipaddr) ∨
          Inserted ipaddr ops := by
      constructor
      · rintro ⟨before, q, garbage, after, heq, hafter⟩
        cases before with
        | nil =>
          obtain ⟨rfl, rfl⟩ := List.cons.inj heq
          exact Or.inl ⟨⟨q, garbage, rfl⟩, hafter⟩
        | cons op' before =>
          obtain ⟨rfl, rfl⟩ := List.cons.inj heq
          exact Or.inr ⟨before, q, garbage, after, rfl, hafter⟩
      · rintro (⟨⟨q, garbage, rfl⟩, hafter⟩ | ⟨before, q, garbage, after, rfl, hafter⟩)
        · exact ⟨[], q, garbage, ops, rfl, hafter⟩
        · exact ⟨op :: before, q, garbage, after, rfl, hafter⟩
    rw [final, ih hH' (hops.2 _ _ hstep), hH.mem_entryStep op hops.1, hcons, List.forall_mem_cons,
      or_and_right, and_assoc, or_left_comm, or_assoc]

end Holds

theorem holds_createNullListLink {h : Heap ClientNode} (hl : llist ∉ h) (garbage : Memory Byte) :
    Holds llist h (createNullListLink llist h garbage) [] where
  chain := ⟨⟨garbage, none⟩, [], ⟨rfl, Finmap.lookup_insert _, rfl⟩, rfl, by simp⟩
  nodup := List.nodup_nil
  fresh := ⟨hl, by simp⟩
  frame a hal _ := Finmap.lookup_insert_of_ne _ hal

/-- From its creation on the list stores the addresses inserted and not deleted since, each
in one node. Its calls return what the calls on the list of entries return, and the head and
the nodes of the entries are all that the calls have left in the heap. -/
theorem refines_addresses (h : Heap ClientNode) (llist : ℕ) (garbage : Memory Byte)
    (hl : llist ∉ h) (ops : List Op)
    (hops : Admitted (step llist) (Allowed llist) (createNullListLink llist h garbage) ops) :
    ∃ h', run (step llist) (createNullListLink llist h garbage) ops =
        some (outputs (entryStep llist) [] ops, h') ∧
      Holds llist h h' (final (entryStep llist) [] ops) ∧
      (∀ ipaddr : Address, Inserted ipaddr ops → ∃ q, searchNode llist h' ipaddr = some (some q) ∧
        (q, ipaddr.chars) ∈ final (entryStep llist) [] ops) ∧
      (∀ ipaddr : Address, ¬ Inserted ipaddr ops → searchNode llist h' ipaddr = some none) ∧
      ∃ members : Finset (List Byte),
        (∀ s, s ∈ members ↔ ∃ ipaddr : Address, ipaddr.chars = s ∧ Inserted ipaddr ops) ∧
        numNode llist h' = some (members.card : ℤ) := by
  have hinit := holds_createNullListLink hl garbage
  have hmem : ∀ ipaddr : Address,
      ipaddr.chars ∈ (final (entryStep llist) [] ops).map Prod.snd ↔ Inserted ipaddr ops := by
    intro ipaddr
    simpa using hinit.mem_final ipaddr hops
  obtain ⟨h', hrun, hH⟩ := run_of_admitted (fun _ _ op hH hop => hH.step op hop) hinit hops
  refine ⟨h', hrun, hH, ?_, ?_, ((final (entryStep llist) [] ops).map Prod.snd).toFinset, ?_, ?_⟩
  · intro ipaddr hins
    obtain ⟨q, hfind, hq⟩ := exists_find? ((hmem ipaddr).mpr hins)
    refine ⟨q, ?_, hq⟩
    rw [hH.searchNode_eq, hfind]
    rfl
  · intro ipaddr hins
    rw [hH.searchNode_eq, find?_eq_none (mt (hmem ipaddr).mp hins)]
    rfl
  · intro s
    rw [List.mem_toFinset]
    constructor
    · intro hs
      obtain ⟨ipaddr, rfl⟩ := hH.exists_address hs
      exact ⟨ipaddr, rfl, (hmem ipaddr).mp hs⟩
    · rintro ⟨ipaddr, rfl, hins⟩
      exact (hmem ipaddr).mpr hins
  · rw [hH.numNode_eq, List.toFinset_card_of_nodup hH.nodup, List.length_map]

/-- Two addresses of one character each. -/
def addressOne : Address := ⟨[49], by decide, by decide⟩

def addressTwo : Address := ⟨[50], by decide, by decide⟩

/-- The second insertion of an address does nothing, and the node in front of the first one
inserted is the last one inserted. -/
theorem refines_addresses_two :
    ∃ h', run (step 0) (createNullListLink 0 ∅ fun _ => 7)
        [.insert 1 (fun _ => 7) addressOne, .insert 2 (fun _ => 7) addressTwo,
          .insert 3 (fun _ => 7) addressOne, .deleteThis 1 addressOne] =
        some ([.int 1, .int 1, .int 0, .node 2], h') ∧
      Holds 0 ∅ h' [(2, [50])] ∧
      ∃ q, searchNode 0 h' addressTwo = some (some q) ∧ (q, [50]) ∈ [(2, [50#8])] := by
  obtain ⟨h', hrun, hH, hfound, -⟩ := refines_addresses ∅ 0 (fun _ => 7) Finmap.notMem_empty
    [.insert 1 (fun _ => 7) addressOne, .insert 2 (fun _ => 7) addressTwo,
      .insert 3 (fun _ => 7) addressOne, .deleteThis 1 addressOne]
    (.cons rfl (by simp [Allowed]; decide) <| .cons rfl (by simp [Allowed]; decide) <|
      .cons rfl (by simp [Allowed]; decide) <| .cons rfl
        ⟨⟨fun _ => 7, some 2⟩,
          [(2, ⟨Memory.write (fun _ => 7) 0 [50, 0], some 1⟩),
            (1, ⟨Memory.write (fun _ => 7) 0 [49, 0], none⟩)],
          ⟨rfl, rfl, rfl, rfl, rfl, rfl, rfl⟩, by decide⟩ trivial)
  exact ⟨h', hrun, hH, hfound addressTwo
    ⟨[_], 2, _, [_, _], rfl, by simp [Op.Deletes, addressOne, addressTwo]⟩⟩

end ClientList

end H264Cast
