import Mathlib.Data.List.Flatten

/-! # Delivery of packets

A receiver has no memory when what it puts out for a packet depends on the packet alone.
Its output is then put together from the packets that arrive, whatever a network does to
them, and a message that loses a packet loses what the packet carries and no more.
-/

variable {σ π β : Type*}

/-- The receiver appends to its output what the packet carries, for the packets admitted. -/
structure Memoryless (step : σ → π → σ) (output : σ → List β) (admitted : π → Prop)
    (carried : π → List β) : Prop where
  output_step : ∀ s p, admitted p → output (step s p) = output s ++ carried p

/-- A message on its way: the packets it was cut into, and those of them that arrive. -/
structure Transfer (π : Type*) where
  sent : List π
  arrived : List π
  sublist : arrived.Sublist sent

namespace Transfer

/-- No packet was lost. -/
def Complete (t : Transfer π) : Prop := t.arrived = t.sent

/-- What the packets that arrive carry. -/
def carried (f : π → List β) (t : Transfer π) : List β := t.arrived.flatMap f

theorem carried_sublist (t : Transfer π) (f : π → List β) :
    (t.carried f).Sublist (t.sent.flatMap f) :=
  t.sublist.flatMap f

/-- What arrives of the packets of several messages, message by message. -/
theorem exists_of_sublist {ps : List π} {messages : List (List π)}
    (h : ps.Sublist messages.flatten) :
    ∃ ts : List (Transfer π), ts.map sent = messages ∧ ts.flatMap arrived = ps := by
  induction messages generalizing ps with
  | nil =>
    obtain rfl := List.sublist_nil.mp h
    exact ⟨[], rfl, rfl⟩
  | cons m messages ih =>
    obtain ⟨first, rest, rfl, hfirst, hrest⟩ := List.sublist_append_iff.mp h
    obtain ⟨ts, rfl, rfl⟩ := ih hrest
    exact ⟨⟨m, first, hfirst⟩ :: ts, rfl, rfl⟩

end Transfer

/-- Packets that carry something are missed when they are lost. -/
theorem flatMap_eq_iff_of_sublist {f : π → List β} {l l' : List π} (h : l'.Sublist l)
    (hne : ∀ p ∈ l, f p ≠ []) : l'.flatMap f = l.flatMap f ↔ l' = l := by
  refine ⟨fun heq => ?_, congrArg _⟩
  induction h with
  | slnil => rfl
  | cons p h ih =>
    have hle := (h.flatMap f).length_le
    have hpos := List.length_pos_iff.mpr (hne p List.mem_cons_self)
    have hlen := congrArg List.length heq
    rw [List.flatMap_cons, List.length_append] at hlen
    omega
  | cons_cons p h ih =>
    rw [List.flatMap_cons, List.flatMap_cons] at heq
    rw [ih (fun q hq => hne q (List.mem_cons_of_mem _ hq)) (List.append_cancel_left heq)]

theorem Transfer.complete_iff (t : Transfer π) {f : π → List β} (hne : ∀ p ∈ t.sent, f p ≠ []) :
    t.carried f = t.sent.flatMap f ↔ t.Complete :=
  flatMap_eq_iff_of_sublist t.sublist hne

namespace Memoryless

variable {step : σ → π → σ} {output : σ → List β} {admitted : π → Prop} {carried : π → List β}

/-- The output over any sequence of packets. -/
theorem output_foldl (h : Memoryless step output admitted carried) {ps : List π}
    (hps : ∀ p ∈ ps, admitted p) (s : σ) :
    output (ps.foldl step s) = output s ++ ps.flatMap carried := by
  induction ps generalizing s with
  | nil => simp
  | cons p ps ih =>
    rw [List.foldl_cons, ih (fun q hq => hps q (List.mem_cons_of_mem _ hq)),
      h.output_step s p (hps p List.mem_cons_self), List.append_assoc, List.flatMap_cons]

/-- The output over messages that lose packets. -/
theorem output_transfers (h : Memoryless step output admitted carried)
    {ts : List (Transfer π)} (hts : ∀ t ∈ ts, ∀ p ∈ t.sent, admitted p) (s : σ) :
    output ((ts.flatMap Transfer.arrived).foldl step s) =
      output s ++ ts.flatMap (Transfer.carried carried) := by
  rw [h.output_foldl, List.flatMap_assoc]
  · rfl
  · intro p hp
    obtain ⟨t, ht, hp⟩ := List.mem_flatMap.mp hp
    exact hts t ht p (t.sublist.subset hp)

end Memoryless
