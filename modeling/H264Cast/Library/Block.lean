import H264Cast.Library.Memory
import Mathlib.Algebra.Ring.Int.Defs
import Mathlib.Algebra.Ring.Nat

/-! # Allocated blocks

A block of memory of a given size. An access that is not inside the block has no result.
-/

/-- A block: its size and its contents. -/
structure Block (α : Type*) where
  size : ℕ
  contents : Memory α

namespace Block

variable {α : Type*} {b : Block α} {bs : List α} {off n : ℕ}

/-- Read a range of the block. -/
def load (b : Block α) (off : ℤ) (n : ℕ) : Option (List α) :=
  if 0 ≤ off ∧ off + n ≤ b.size then some (b.contents.read off.toNat n) else none

/-- Store a list of values in the block. -/
def store (b : Block α) (off : ℤ) (bs : List α) : Option (Block α) :=
  if 0 ≤ off ∧ off + bs.length ≤ b.size then
    some { b with contents := b.contents.write off.toNat bs }
  else none

theorem load_eq (h : off + n ≤ b.size) : b.load off n = some (b.contents.read off n) := by
  rw [load, if_pos ⟨by omega, by omega⟩, Int.toNat_natCast]

theorem store_eq (h : off + bs.length ≤ b.size) :
    b.store off bs = some { b with contents := b.contents.write off bs } := by
  rw [store, if_pos ⟨by omega, by omega⟩, Int.toNat_natCast]

end Block
