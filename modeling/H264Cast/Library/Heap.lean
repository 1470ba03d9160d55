import Mathlib.Data.Finmap

/-! # Heaps and linked lists

A heap holds a cell at each allocated address. A pointer is an address or NULL, and an
access through anything but an allocated address has no result. A list in the heap is
described by its cells in the order of the links, each with its address.
-/

/-- A finite heap. -/
abbrev Heap (α : Type*) := Finmap fun _ : ℕ => α

namespace Heap

variable {α : Type*} {h h' : Heap α} {a : ℕ} {c c' : α} {p q : Option ℕ}
  {cs ds : List (ℕ × α)}

/-- The cell behind a pointer. -/
def deref (h : Heap α) (p : Option ℕ) : Option α := p.bind fun a => h.lookup a

/-- Replace the cell at an allocated address. -/
def store (h : Heap α) (a : ℕ) (c : α) : Option (Heap α) :=
  if a ∈ h then some (h.insert a c) else none

/-- Give an allocated address back. -/
def free (h : Heap α) (a : ℕ) : Option (Heap α) :=
  if a ∈ h then some (h.erase a) else none

theorem store_eq (hc : h.lookup a = some c) : h.store a c' = some (h.insert a c') :=
  if_pos (Finmap.mem_of_lookup_eq_some hc)

theorem free_eq (hc : h.lookup a = some c) : h.free a = some (h.erase a) :=
  if_pos (Finmap.mem_of_lookup_eq_some hc)

theorem erase_insert_comm {b : ℕ} (hab : a ≠ b) :
    (h.erase b).insert a c = (h.insert a c).erase b := by
  refine Finmap.ext_lookup fun x => ?_
  by_cases hx : x = b
  · subst hx
    rw [Finmap.lookup_erase, Finmap.lookup_insert_of_ne _ hab.symm, Finmap.lookup_erase]
  · rw [Finmap.lookup_erase_ne hx]
    by_cases hxa : x = a
    · subst hxa
      rw [Finmap.lookup_insert, Finmap.lookup_insert]
    · rw [Finmap.lookup_insert_of_ne _ hxa, Finmap.lookup_insert_of_ne _ hxa,
        Finmap.lookup_erase_ne hx]

section Links

variable (next : α → Option ℕ)

/-- The cells that the links lead through from one pointer to another. -/
def Segment (h : Heap α) : Option ℕ → List (ℕ × α) → Option ℕ → Prop
  | p, [], q => p = q
  | p, c :: cs, q => p = some c.1 ∧ h.lookup c.1 = some c.2 ∧ Segment h (next c.2) cs q

/-- The cells that the links lead through from a pointer to NULL. -/
def Chain (h : Heap α) (p : Option ℕ) (cs : List (ℕ × α)) : Prop := Segment next h p cs none

/-- The addresses of cells. -/
def addresses (cs : List (ℕ × α)) : List ℕ := cs.map Prod.fst

variable {next}

@[simp] theorem addresses_nil : addresses ([] : List (ℕ × α)) = [] := rfl

@[simp] theorem addresses_cons (c : ℕ × α) : addresses (c :: cs) = c.1 :: addresses cs := rfl

@[simp] theorem addresses_append : addresses (cs ++ ds) = addresses cs ++ addresses ds :=
  List.map_append

@[simp] theorem length_addresses : (addresses cs).length = cs.length := List.length_map _

theorem chain_nil : Chain next h p [] ↔ p = none := Iff.rfl

theorem segment_append :
    Segment next h p (cs ++ ds) q ↔ ∃ r, Segment next h p cs r ∧ Segment next h r ds q := by
  induction cs generalizing p with
  | nil => simp [Segment]
  | cons c cs ih => simp only [List.cons_append, Segment, ih, exists_and_left, and_assoc]

theorem Segment.lookup (hs : Segment next h p cs q) {x : ℕ × α} (hx : x ∈ cs) :
    h.lookup x.1 = some x.2 := by
  induction cs generalizing p with
  | nil => cases hx
  | cons c cs ih =>
    obtain ⟨-, hc, hs⟩ := hs
    rcases List.mem_cons.mp hx with rfl | hx
    · exact hc
    · exact ih hs hx

/-- A segment depends on its own cells only. -/
theorem Segment.congr (hs : Segment next h p cs q)
    (heq : ∀ a ∈ addresses cs, h'.lookup a = h.lookup a) : Segment next h' p cs q := by
  induction cs generalizing p with
  | nil => exact hs
  | cons c cs ih =>
    obtain ⟨hp, hc, hs⟩ := hs
    rw [addresses_cons, List.forall_mem_cons] at heq
    exact ⟨hp, heq.1.trans hc, ih hs heq.2⟩

theorem Segment.insert (hs : Segment next h p cs q) (ha : a ∉ addresses cs) :
    Segment next (h.insert a c) p cs q :=
  hs.congr fun _ hb => Finmap.lookup_insert_of_ne h fun he => ha (he ▸ hb)

theorem Segment.erase (hs : Segment next h p cs q) (ha : a ∉ addresses cs) :
    Segment next (h.erase a) p cs q :=
  hs.congr fun _ hb => Finmap.lookup_erase_ne fun he => ha (he ▸ hb)

/-- An address that is not allocated is not one of the cells. -/
theorem Segment.notMem (hs : Segment next h p cs q) (ha : a ∉ h) : a ∉ addresses cs := by
  intro hmem
  obtain ⟨x, hx, rfl⟩ := List.mem_map.mp hmem
  exact ha (Finmap.mem_of_lookup_eq_some (hs.lookup hx))

/-- The pointer to a chain with a cell is not NULL. -/
theorem Chain.exists_eq_some {x : ℕ × α} (hcs : Chain next h p (cs ++ x :: ds)) :
    ∃ a, p = some a := by
  cases cs with
  | nil => exact ⟨_, hcs.1⟩
  | cons c cs => exact ⟨_, hcs.1⟩

/-- The links determine the cells. -/
theorem Chain.unique (hcs : Chain next h p cs) (hds : Chain next h p ds) : cs = ds := by
  induction cs generalizing p ds with
  | nil =>
    cases ds with
    | nil => rfl
    | cons d ds => cases (chain_nil.mp hcs).symm.trans hds.1
  | cons c cs ih =>
    cases ds with
    | nil => cases (chain_nil.mp hds).symm.trans hcs.1
    | cons d ds =>
      obtain ⟨hp, hc, hcs⟩ := hcs
      obtain ⟨hp', hd, hds⟩ := hds
      have ha : c.1 = d.1 := Option.some.inj (hp.symm.trans hp')
      have hv : c.2 = d.2 := Option.some.inj (hc.symm.trans (ha ▸ hd))
      obtain rfl : c = d := Prod.ext ha hv
      rw [ih hcs hds]

/-- Links that lead to NULL do not come back to a cell. -/
theorem Chain.nodup (hcs : Chain next h p cs) : (addresses cs).Nodup := by
  induction cs generalizing p with
  | nil => exact List.nodup_nil
  | cons c cs ih =>
    refine List.nodup_cons.mpr ⟨?_, ih hcs.2.2⟩
    intro hmem
    obtain ⟨x, hx, hxc⟩ := List.mem_map.mp hmem
    obtain ⟨ds, es, rfl⟩ := List.append_of_mem hx
    obtain ⟨r, -, hr⟩ := segment_append.mp hcs.2.2
    -- the chain from the second visit on is the whole chain, although it is shorter
    have hsame : Chain next h p (x :: es) := ⟨hcs.1.trans (congrArg some hxc.symm), hr.2⟩
    have hlen := congrArg List.length (hcs.unique hsame)
    simp at hlen
    omega

theorem Chain.length_le (hcs : Chain next h p cs) : cs.length ≤ h.keys.card := by
  rw [← length_addresses, ← List.toFinset_card_of_nodup hcs.nodup]
  refine Finset.card_le_card fun a ha => Finmap.mem_keys.mpr ?_
  by_contra hn
  exact Segment.notMem hcs hn (List.mem_toFinset.mp ha)

/-- Storing a cell inside a chain keeps what is in front of it and links in what the new
cell leads to. -/
theorem Chain.relink (hcs : Chain next h p (cs ++ (a, c) :: ds)) {es : List (ℕ × α)}
    (hes : Chain next (h.insert a c') (next c') es) :
    Chain next (h.insert a c') p (cs ++ (a, c') :: es) := by
  have hnodup := hcs.nodup
  rw [addresses_append, addresses_cons, List.nodup_append'] at hnodup
  have ha : a ∉ addresses cs := fun hmem => hnodup.2.2 hmem List.mem_cons_self
  obtain ⟨r, hfront, hr, -⟩ := segment_append.mp hcs
  exact segment_append.mpr ⟨r, Segment.insert hfront ha, hr, Finmap.lookup_insert h, hes⟩

/-- Linking past a cell and freeing it takes it out of the chain. -/
theorem Chain.unlink {x : ℕ × α} (hcs : Chain next h p (cs ++ (a, c) :: x :: ds)) (c' : α)
    (hc : next c' = next x.2) :
    Chain next ((h.insert a c').erase x.1) p (cs ++ (a, c') :: ds) := by
  have hnodup := hcs.nodup
  simp only [addresses_append, addresses_cons, List.nodup_append', List.nodup_cons] at hnodup
  obtain ⟨-, ⟨ha, hx, -⟩, hdisj⟩ := hnodup
  obtain ⟨r, -, -, -, -, -, hds⟩ := segment_append.mp hcs
  have hds' : Chain next (h.insert a c') (next c') ds := by
    rw [hc]
    exact Segment.insert hds fun hmem => ha (List.mem_cons_of_mem _ hmem)
  refine Segment.erase (hcs.relink hds') ?_
  rw [addresses_append, addresses_cons]
  intro hmem
  rcases List.mem_append.mp hmem with hmem | hmem
  · exact hdisj hmem (by simp)
  · rcases List.mem_cons.mp hmem with he | hmem
    · exact ha (he ▸ List.mem_cons_self)
    · exact hx hmem

end Links

end Heap
