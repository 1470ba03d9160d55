import Mathlib.Data.Option.Basic
import Mathlib.Logic.Function.Basic
import Mathlib.Logic.ExistsUnique
import Mathlib.Tactic.Common

/-! # Resources behind handles

A resource is opened under a handle and lives until the handle is closed. Resources are
numbered in the order in which they are opened, so that a handle may be used again while
every resource stays itself. When the handles that are open are those that some owner keeps,
a resource is either kept by exactly one owner or was closed exactly once.
-/

/-- The resources behind the open handles, how many were opened, and how often each was
closed. -/
structure Ledger (η : Type*) where
  resource : η → Option ℕ
  opened : ℕ
  closes : ℕ → ℕ

namespace Ledger

variable {η ι : Type*} [DecidableEq η] [DecidableEq ι] {l : Ledger η} {h : η} {c : ℕ}
  {u : ι → Option η} {i : ι}

/-- Open a new resource under a handle. -/
def acquire (l : Ledger η) (h : η) : Ledger η where
  resource := Function.update l.resource h (some l.opened)
  opened := l.opened + 1
  closes := l.closes

/-- Close the resource behind a handle, if there is one. -/
def release (l : Ledger η) (h : η) : Ledger η :=
  match l.resource h with
  | none => l
  | some c =>
    { l with
      resource := Function.update l.resource h none
      closes := Function.update l.closes c (l.closes c + 1) }

/-- The resources behind handles differ and are not closed, and the others are closed once. -/
structure WellFormed (l : Ledger η) : Prop where
  injective : ∀ h h' c, l.resource h = some c → l.resource h' = some c → h = h'
  lt_opened : ∀ h c, l.resource h = some c → c < l.opened
  closes_of_resource : ∀ h c, l.resource h = some c → l.closes c = 0
  open_or_closed : ∀ c < l.opened, (∃ h, l.resource h = some c) ∨ l.closes c = 1
  closes_of_ge : ∀ c, l.opened ≤ c → l.closes c = 0

/-- The open handles are those that the owners keep, and no two owners keep one. -/
structure OwnedBy (l : Ledger η) (u : ι → Option η) : Prop where
  open_iff : ∀ h, (∃ c, l.resource h = some c) ↔ ∃ i, u i = some h
  injective : ∀ i j h, u i = some h → u j = some h → i = j

theorem resource_acquire (l : Ledger η) (h : η) :
    (l.acquire h).resource = Function.update l.resource h (some l.opened) := rfl

theorem resource_acquire_self (l : Ledger η) (h : η) :
    (l.acquire h).resource h = some l.opened := Function.update_self ..

theorem release_of_resource (hc : l.resource h = some c) :
    l.release h =
      { l with
        resource := Function.update l.resource h none
        closes := Function.update l.closes c (l.closes c + 1) } := by
  simp only [release, hc]

theorem resource_acquire_release (hfree : l.resource h = none) :
    ((l.acquire h).release h).resource = l.resource := by
  rw [release_of_resource (resource_acquire_self l h)]
  change Function.update (l.acquire h).resource h none = l.resource
  rw [resource_acquire, Function.update_idem, ← hfree, Function.update_eq_self]

theorem WellFormed.acquire (hl : l.WellFormed) (hfree : l.resource h = none) :
    (l.acquire h).WellFormed := by
  have hcases : ∀ h' c, (l.acquire h).resource h' = some c →
      h' = h ∧ c = l.opened ∨ h' ≠ h ∧ l.resource h' = some c := by
    intro h' c hc
    rcases eq_or_ne h' h with rfl | hne
    · rw [resource_acquire_self] at hc
      exact Or.inl ⟨rfl, (Option.some.inj hc).symm⟩
    · rw [resource_acquire, Function.update_of_ne hne] at hc
      exact Or.inr ⟨hne, hc⟩
  constructor
  · intro h₁ h₂ c h₁c h₂c
    rcases hcases _ _ h₁c with ⟨rfl, rfl⟩ | ⟨-, hopen₁⟩ <;>
      rcases hcases _ _ h₂c with ⟨rfl, hc⟩ | ⟨-, hopen₂⟩
    · rfl
    · exact absurd (hl.lt_opened _ _ hopen₂) (Nat.lt_irrefl _)
    · exact absurd (hl.lt_opened _ _ hopen₁) (Nat.not_lt.mpr (Nat.le_of_eq hc.symm))
    · exact hl.injective _ _ _ hopen₁ hopen₂
  · intro h' c hc
    rcases hcases _ _ hc with ⟨-, rfl⟩ | ⟨-, hc⟩
    · exact Nat.lt_succ_self _
    · exact Nat.lt_succ_of_lt (hl.lt_opened _ _ hc)
  · intro h' c hc
    rcases hcases _ _ hc with ⟨-, rfl⟩ | ⟨-, hc⟩
    · exact hl.closes_of_ge _ (Nat.le_refl _)
    · exact hl.closes_of_resource _ _ hc
  · intro c hc
    rcases Nat.lt_succ_iff_lt_or_eq.mp hc with hlt | rfl
    · rcases hl.open_or_closed c hlt with ⟨h', hc'⟩ | hclosed
      · have hne : h' ≠ h := fun he => by simp [he, hfree] at hc'
        exact Or.inl ⟨h', (Function.update_of_ne hne _ _).trans hc'⟩
      · exact Or.inr hclosed
    · exact Or.inl ⟨h, Function.update_self ..⟩
  · exact fun c hc => hl.closes_of_ge c (Nat.le_of_succ_le hc)

theorem WellFormed.release (hl : l.WellFormed) (h : η) : (l.release h).WellFormed := by
  cases hc : l.resource h with
  | none =>
    have heq : l.release h = l := by simp only [Ledger.release, hc]
    rwa [heq]
  | some c =>
    rw [release_of_resource hc]
    -- A handle that is still open was open before, and behind it is another resource.
    have hcases : ∀ h' c', Function.update l.resource h none h' = some c' →
        l.resource h' = some c' ∧ c' ≠ c := by
      intro h' c' hc'
      rcases eq_or_ne h' h with rfl | hne
      · rw [Function.update_self] at hc'
        cases hc'
      · rw [Function.update_of_ne hne] at hc'
        exact ⟨hc', fun he => hne (hl.injective _ _ _ (he ▸ hc') hc)⟩
    constructor
    · exact fun h₁ h₂ c' h₁c h₂c => hl.injective _ _ _ (hcases _ _ h₁c).1 (hcases _ _ h₂c).1
    · exact fun h' c' hc' => hl.lt_opened _ _ (hcases _ _ hc').1
    · intro h' c' hc'
      obtain ⟨hopen, hne⟩ := hcases _ _ hc'
      exact (Function.update_of_ne hne _ _).trans (hl.closes_of_resource _ _ hopen)
    · intro c' hc'
      rcases eq_or_ne c' c with rfl | hne
      · right
        change Function.update l.closes c' _ c' = 1
        rw [Function.update_self, hl.closes_of_resource _ _ hc]
      · rcases hl.open_or_closed c' hc' with ⟨h', hopen⟩ | hclosed
        · have hne' : h' ≠ h := fun he => hne (Option.some.inj ((he ▸ hopen).symm.trans hc))
          exact Or.inl ⟨h', (Function.update_of_ne hne' _ _).trans hopen⟩
        · exact Or.inr ((Function.update_of_ne hne _ _).trans hclosed)
    · intro c' hc'
      have hne : c' ≠ c := by
        rintro rfl
        exact absurd (hl.lt_opened _ _ hc) (Nat.not_lt.mpr hc')
      exact (Function.update_of_ne hne _ _).trans (hl.closes_of_ge _ hc')

theorem OwnedBy.acquire (hu : l.OwnedBy u) (hfree : l.resource h = none) (hi : u i = none) :
    (l.acquire h).OwnedBy (Function.update u i (some h)) := by
  have hnew : ∀ j, u j ≠ some h := by
    intro j hj
    obtain ⟨c, hc⟩ := (hu.open_iff h).mpr ⟨j, hj⟩
    rw [hfree] at hc
    cases hc
  constructor
  · intro h'
    rcases eq_or_ne h' h with rfl | hne
    · exact ⟨fun _ => ⟨i, Function.update_self ..⟩, fun _ => ⟨_, Function.update_self ..⟩⟩
    · change (∃ c, Function.update l.resource h _ h' = some c) ↔ _
      rw [Function.update_of_ne hne, hu.open_iff]
      constructor
      · rintro ⟨j, hj⟩
        have hji : j ≠ i := fun he => by simp [he, hi] at hj
        exact ⟨j, (Function.update_of_ne hji _ _).trans hj⟩
      · rintro ⟨j, hj⟩
        rcases eq_or_ne j i with rfl | hji
        · rw [Function.update_self] at hj
          exact absurd (Option.some.inj hj).symm hne
        · exact ⟨j, Function.update_of_ne hji _ u ▸ hj⟩
  · intro j₁ j₂ h' h₁ h₂
    rw [Function.update_apply] at h₁ h₂
    split_ifs at h₁ h₂ with he₁ he₂ he₂
    · exact he₁.trans he₂.symm
    · exact absurd (h₂.trans h₁.symm) (hnew j₂)
    · exact absurd (h₁.trans h₂.symm) (hnew j₁)
    · exact hu.injective _ _ _ h₁ h₂

theorem OwnedBy.release (hu : l.OwnedBy u) (hi : u i = some h) :
    (l.release h).OwnedBy (Function.update u i none) := by
  obtain ⟨c, hc⟩ := (hu.open_iff h).mpr ⟨i, hi⟩
  rw [release_of_resource hc]
  constructor
  · intro h'
    change (∃ c, Function.update l.resource h none h' = some c) ↔ _
    rcases eq_or_ne h' h with rfl | hne
    · rw [Function.update_self]
      constructor
      · rintro ⟨c', hc'⟩
        cases hc'
      · rintro ⟨j, hj⟩
        rw [Function.update_apply] at hj
        split_ifs at hj with hji
        exact absurd (hu.injective _ _ _ hj hi) hji
    · rw [Function.update_of_ne hne, hu.open_iff]
      constructor
      · rintro ⟨j, hj⟩
        have hji : j ≠ i := fun he => hne (Option.some.inj (hj.symm.trans (he ▸ hi)))
        exact ⟨j, (Function.update_of_ne hji _ _).trans hj⟩
      · rintro ⟨j, hj⟩
        rw [Function.update_apply] at hj
        split_ifs at hj with hji
        exact ⟨j, hj⟩
  · intro j₁ j₂ h' h₁ h₂
    rw [Function.update_apply] at h₁ h₂
    split_ifs at h₁ h₂
    exact hu.injective _ _ _ h₁ h₂

omit [DecidableEq ι] in
/-- A resource that is closed as soon as it is opened does not change what is owned. -/
theorem OwnedBy.acquire_release (hu : l.OwnedBy u) (hfree : l.resource h = none) :
    ((l.acquire h).release h).OwnedBy u := by
  constructor
  · rw [resource_acquire_release hfree]
    exact hu.open_iff
  · exact hu.injective

omit [DecidableEq η] [DecidableEq ι] in
/-- A resource is kept by exactly one owner and not closed, or by none and closed once. -/
theorem OwnedBy.owned_or_closed (hl : l.WellFormed) (hu : l.OwnedBy u) (hc : c < l.opened) :
    (∃! i, ∃ h, u i = some h ∧ l.resource h = some c) ∧ l.closes c = 0 ∨
      (∀ i h, u i = some h → l.resource h ≠ some c) ∧ l.closes c = 1 := by
  rcases hl.open_or_closed c hc with ⟨h, hopen⟩ | hclosed
  · obtain ⟨i, hi⟩ := (hu.open_iff h).mp ⟨c, hopen⟩
    refine Or.inl ⟨⟨i, ⟨h, hi, hopen⟩, ?_⟩, hl.closes_of_resource _ _ hopen⟩
    rintro j ⟨h', hj, hopen'⟩
    exact hu.injective _ _ h (hl.injective _ _ _ hopen' hopen ▸ hj) hi
  · refine Or.inr ⟨fun i h _ hopen => ?_, hclosed⟩
    rw [hl.closes_of_resource _ _ hopen] at hclosed
    cases hclosed

end Ledger
