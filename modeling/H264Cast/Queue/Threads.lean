import H264Cast.Library.Memory
import H264Cast.Library.Transition
import Mathlib.Logic.Function.Basic

/-! # The shared data queue under interleaving

Any number of threads call the three operations, and each of their steps is atomic.
Inserting and discarding hold one lock and removing holds the other, so at any time at
most one thread writes and at most one reads. The queue with these two roles is what
the invariants are about.
-/

namespace H264Cast

namespace Interleaving

/-- The next action of a thread. -/
inductive Pc (α : Type*)
  | idle
  | testFull (inData : α)
  | advanceRear (inData : α)
  | copyIn (inData : α)
  | unlockEn
  | testEmpty
  | advanceFront
  | copyOut
  | unlockDe
  | resetFront
  | resetRear
  | unlockAll

namespace Pc

variable {α : Type*}

/-- The thread holds the lock of the writers. -/
def HoldsEn : Pc α → Prop
  | testFull _ | advanceRear _ | copyIn _ | unlockEn | resetFront | resetRear | unlockAll => True
  | _ => False

/-- The thread holds the lock of the readers. -/
def HoldsDe : Pc α → Prop
  | testEmpty | advanceFront | copyOut | unlockDe => True
  | _ => False

end Pc

/-- The memory of the queue, and what has happened so far. An element carries its number in
the order of insertion; a slot not yet written holds none. -/
structure Shared (α : Type*) where
  front : ℕ
  rear : ℕ
  slots : Memory (Option (ℕ × α))
  inserted : List α
  delivered : List (Option (ℕ × α))
  discarding : List ℕ
  discarded : List ℕ

namespace Shared

variable {α : Type*}

/-- The slots from `front` up to `rear`. -/
def stored (sh : Shared α) : List (Option (ℕ × α)) :=
  (List.range ((sh.rear + 3 - sh.front) % 3)).map fun i => sh.slots ((sh.front + 1 + i) % 3)

/-- An action on the memory, and the action that comes next. -/
def act (sh : Shared α) : Pc α → Option (Pc α × Shared α)
  | .testFull inData =>
    some (if (sh.rear + 1) % 3 = sh.front then .unlockEn else .advanceRear inData, sh)
  | .advanceRear inData => some (.copyIn inData, { sh with rear := (sh.rear + 1) % 3 })
  | .copyIn inData => some (.unlockEn, { sh with
      slots := sh.slots.write sh.rear [some (sh.inserted.length, inData)]
      inserted := sh.inserted ++ [inData] })
  | .testEmpty => some (if sh.front = sh.rear then .unlockDe else .advanceFront, sh)
  | .advanceFront => some (.copyOut, { sh with front := (sh.front + 1) % 3 })
  | .copyOut => some (.unlockDe, { sh with delivered := sh.delivered ++ [sh.slots sh.front] })
  | .resetFront => some (.resetRear, { sh with
      front := 0
      discarding := sh.stored.filterMap (Option.map Prod.fst) })
  | .resetRear => some (.unlockAll, { sh with rear := 0 })
  | _ => none

/-- A call that discarded the elements is finished when it releases the lock. -/
def unlock (sh : Shared α) : Pc α → Shared α
  | .unlockAll => { sh with discarding := [], discarded := sh.discarded ++ sh.discarding }
  | _ => sh

/-- An action does not change which lock the thread holds. -/
theorem act_holds {sh sh' : Shared α} {p p' : Pc α} (h : sh.act p = some (p', sh')) :
    (p.HoldsEn ∧ ¬ p.HoldsDe ∧ p'.HoldsEn ∧ ¬ p'.HoldsDe) ∨
      (p.HoldsDe ∧ ¬ p.HoldsEn ∧ p'.HoldsDe ∧ ¬ p'.HoldsEn) := by
  cases p with
  | idle | unlockEn | unlockDe | unlockAll => simp [act] at h
  | advanceRear | copyIn | resetFront | resetRear =>
    obtain ⟨rfl, -⟩ := Prod.mk.inj (Option.some.inj h)
    simp [Pc.HoldsEn, Pc.HoldsDe]
  | advanceFront | copyOut =>
    obtain ⟨rfl, -⟩ := Prod.mk.inj (Option.some.inj h)
    simp [Pc.HoldsEn, Pc.HoldsDe]
  | testFull | testEmpty =>
    obtain ⟨rfl, -⟩ := Prod.mk.inj (Option.some.inj h)
    split_ifs <;> simp [Pc.HoldsEn, Pc.HoldsDe]

/-- Every element delivered was inserted, they come out in the order of insertion and none
twice, and none was discarded by a finished call. -/
def Lawful (sh : Shared α) : Prop :=
  ∃ ds : List (ℕ × α), sh.delivered = ds.map some ∧ ds.Pairwise (fun a b => a.1 < b.1) ∧
    ∀ d ∈ ds, sh.inserted[d.1]? = some d.2 ∧ d.1 ∉ sh.discarded

end Shared

/-- The threads, the owners of the two locks, and the memory. -/
structure Threads (Tid α : Type*) where
  pc : Tid → Pc α
  enLock : Option Tid
  deLock : Option Tid
  shared : Shared α

namespace Threads

variable {Tid α : Type*}

/-- Each lock is held by the one thread that is between its lock and unlock. -/
structure Locks (s : Threads Tid α) : Prop where
  en : ∀ t, (s.pc t).HoldsEn ↔ s.enLock = some t
  de : ∀ t, (s.pc t).HoldsDe ↔ s.deLock = some t

theorem Locks.not_en {s : Threads Tid α} {t : Tid} (hl : Locks s) (h : ¬ (s.pc t).HoldsEn) :
    s.enLock ≠ some t :=
  (hl.en t).not.mp h

theorem Locks.not_de {s : Threads Tid α} {t : Tid} (hl : Locks s) (h : ¬ (s.pc t).HoldsDe) :
    s.deLock ≠ some t :=
  (hl.de t).not.mp h

variable [DecidableEq Tid]

/-- The steps of the threads. The condition `ok` restricts the states in which a thread acts
on the memory. -/
inductive Step (ok : Threads Tid α → Tid → Prop) : Threads Tid α → Threads Tid α → Prop
  | lockEn {s} (t : Tid) (p : Pc α) : s.pc t = .idle → s.enLock = none →
      (p = .resetFront ∨ ∃ inData, p = .testFull inData) →
      Step ok s { s with pc := Function.update s.pc t p, enLock := some t }
  | lockDe {s} (t : Tid) : s.pc t = .idle → s.deLock = none →
      Step ok s { s with pc := Function.update s.pc t .testEmpty, deLock := some t }
  | act {s} (t : Tid) {p sh} : ok s t → s.shared.act (s.pc t) = some (p, sh) →
      Step ok s { s with pc := Function.update s.pc t p, shared := sh }
  | unlockEn {s} (t : Tid) : (s.pc t = .unlockEn ∨ s.pc t = .unlockAll) →
      Step ok s { s with
        pc := Function.update s.pc t .idle, enLock := none, shared := s.shared.unlock (s.pc t) }
  | unlockDe {s} (t : Tid) : s.pc t = .unlockDe →
      Step ok s { s with pc := Function.update s.pc t .idle, deLock := none }

/-- All threads idle on an empty queue, with any bytes in the slots. -/
def initial : Threads Tid α where
  pc _ := .idle
  enLock := none
  deLock := none
  shared := ⟨0, 0, fun _ => none, [], [], [], []⟩

def system (ok : Threads Tid α → Tid → Prop) : TransitionSystem (Threads Tid α) where
  init s := s = initial
  step := Step ok

variable {ok : Threads Tid α → Tid → Prop} {s s' : Threads Tid α} {t : Tid} {p : Pc α}
  {sh : Shared α}

/-- Changing the owner of a lock together with what the owner holds. -/
theorem holds_update (hold : Pc α → Prop) {lock lock' : Option Tid} {pc : Tid → Pc α}
    (h : ∀ u, hold (pc u) ↔ lock = some u) (hp : hold p ↔ lock' = some t)
    (hother : ∀ u, u ≠ t → (lock' = some u ↔ lock = some u)) (u : Tid) :
    hold (Function.update pc t p u) ↔ lock' = some u := by
  by_cases hu : u = t
  · subst hu
    rw [Function.update_self]
    exact hp
  · rw [Function.update_of_ne hu, h u, hother u hu]

theorem Locks.step (hl : Locks s) (h : Step ok s s') : Locks s' := by
  cases h with
  | lockEn t p hidle hfree hp =>
    have hde := hl.not_de (t := t) (by rw [hidle]; exact id)
    have hholds : p.HoldsEn ∧ ¬ p.HoldsDe := by
      rcases hp with rfl | ⟨inData, rfl⟩ <;> simp [Pc.HoldsEn, Pc.HoldsDe]
    refine ⟨holds_update _ hl.en (iff_of_true hholds.1 rfl) fun u hu => ?_,
      holds_update _ hl.de (iff_of_false hholds.2 hde) fun _ _ => Iff.rfl⟩
    simp [hfree, Ne.symm hu]
  | lockDe t hidle hfree =>
    have hen := hl.not_en (t := t) (by rw [hidle]; exact id)
    refine ⟨holds_update _ hl.en (iff_of_false id hen) fun _ _ => Iff.rfl,
      holds_update _ hl.de (iff_of_true trivial rfl) fun u hu => ?_⟩
    simp [hfree, Ne.symm hu]
  | act t hok hact =>
    rcases Shared.act_holds hact with ⟨hp, hp', hq, hq'⟩ | ⟨hp, hp', hq, hq'⟩
    · exact ⟨holds_update _ hl.en (iff_of_true hq ((hl.en t).mp hp)) fun _ _ => Iff.rfl,
        holds_update _ hl.de (iff_of_false hq' (hl.not_de hp')) fun _ _ => Iff.rfl⟩
    · exact ⟨holds_update _ hl.en (iff_of_false hq' (hl.not_en hp')) fun _ _ => Iff.rfl,
        holds_update _ hl.de (iff_of_true hq ((hl.de t).mp hp)) fun _ _ => Iff.rfl⟩
  | unlockEn t hpc =>
    have hholds : (s.pc t).HoldsEn ∧ ¬ (s.pc t).HoldsDe := by
      rcases hpc with hpc | hpc <;> simp [hpc, Pc.HoldsEn, Pc.HoldsDe]
    have hen := (hl.en t).mp hholds.1
    refine ⟨holds_update _ hl.en (iff_of_false id (by simp)) fun u hu => ?_,
      holds_update _ hl.de (iff_of_false id (hl.not_de hholds.2)) fun _ _ => Iff.rfl⟩
    simp [hen, Ne.symm hu]
  | unlockDe t hpc =>
    have hholds : (s.pc t).HoldsDe ∧ ¬ (s.pc t).HoldsEn := by
      simp [hpc, Pc.HoldsEn, Pc.HoldsDe]
    have hde := (hl.de t).mp hholds.1
    refine ⟨holds_update _ hl.en (iff_of_false id (hl.not_en hholds.2)) fun _ _ => Iff.rfl,
      holds_update _ hl.de (iff_of_false id (by simp)) fun u hu => ?_⟩
    simp [hde, Ne.symm hu]

/-- Mutual exclusion under both locks. -/
theorem locks_of_reachable (h : (system ok).Reachable s) : Locks s := by
  refine h.invariant (P := Locks) ?_ fun _ _ hl hstep => hl.step hstep
  rintro _ rfl
  exact ⟨fun _ => iff_of_false id (by simp [initial]), fun _ => iff_of_false id (by simp [initial])⟩

end Threads

/-! ### The two roles -/

/-- The thread that holds the lock of the writers, the one that holds the lock of the readers,
and the memory. -/
structure Roles (α : Type*) where
  writer : Pc α
  reader : Pc α
  shared : Shared α

namespace Roles

variable {α : Type*}

/-- The queue is not reset under a thread that has found it not empty, unless that thread has
advanced to the first slot. -/
def SafeReset (c : Roles α) : Prop :=
  c.reader ≠ .advanceFront ∧ (c.reader = .copyOut → c.shared.front = 0)

/-- No thread copies out a slot that has not been filled yet, and none finds the queue not empty
between the two assignments of a reset. -/
def SafeRead (c : Roles α) : Prop :=
  (c.reader = .copyOut → ∀ inData, c.writer = .copyIn inData → c.shared.rear ≠ c.shared.front) ∧
    (c.reader = .testEmpty → c.writer = .resetRear → c.shared.front = c.shared.rear)

/-- The steps of the two roles. -/
inductive Step : Roles α → Roles α → Prop
  | lockEn {c} (p : Pc α) : c.writer = .idle → (p = .resetFront ∨ ∃ inData, p = .testFull inData) →
      Step c { c with writer := p }
  | lockDe {c} : c.reader = .idle → Step c { c with reader := .testEmpty }
  | write {c p sh} : c.writer.HoldsEn → (c.writer = .resetFront → c.SafeReset) →
      c.shared.act c.writer = some (p, sh) → Step c { c with writer := p, shared := sh }
  | read {c p sh} : c.reader.HoldsDe → c.SafeRead →
      c.shared.act c.reader = some (p, sh) → Step c { c with reader := p, shared := sh }
  | unlockEn {c} : (c.writer = .unlockEn ∨ c.writer = .unlockAll) →
      Step c { c with writer := .idle, shared := c.shared.unlock c.writer }
  | unlockDe {c} : c.reader = .unlockDe → Step c { c with reader := .idle }

end Roles

namespace Threads

variable {Tid α : Type*}

/-- The roles the threads play. -/
def roles (s : Threads Tid α) : Roles α where
  writer := s.enLock.elim .idle s.pc
  reader := s.deLock.elim .idle s.pc
  shared := s.shared

/-- The condition on a thread that acts: it does not copy out a slot that another thread has
advanced to and not filled; it does not start a reset while another thread is between its test
and its copy, unless that one has advanced to the first slot; and it does not find the queue
not empty while another thread is between the two assignments of a reset. -/
def Safe (s : Threads Tid α) (t : Tid) : Prop :=
  (s.pc t = .copyOut → ∀ u inData, s.pc u = .copyIn inData → s.shared.rear ≠ s.shared.front) ∧
    (s.pc t = .resetFront →
      ∀ u, s.pc u ≠ .advanceFront ∧ (s.pc u = .copyOut → s.shared.front = 0)) ∧
    (s.pc t = .testEmpty → ∀ u, s.pc u = .resetRear → s.shared.front = s.shared.rear)

variable {s s' : Threads Tid α} {t : Tid}

theorem roles_writer (h : s.enLock = some t) : s.roles.writer = s.pc t := by
  simp [roles, h]

theorem roles_reader (h : s.deLock = some t) : s.roles.reader = s.pc t := by
  simp [roles, h]

/-- The writer is a thread, or idle. -/
theorem exists_of_writer {p : Pc α} (h : s.roles.writer = p) (hp : p ≠ .idle) :
    ∃ t, s.pc t = p := by
  cases hlock : s.enLock with
  | none => exact absurd (by simp [← h, roles, hlock]) hp
  | some t => exact ⟨t, (roles_writer hlock).symm.trans h⟩

theorem exists_of_reader {p : Pc α} (h : s.roles.reader = p) (hp : p ≠ .idle) :
    ∃ t, s.pc t = p := by
  cases hlock : s.deLock with
  | none => exact absurd (by simp [← h, roles, hlock]) hp
  | some t => exact ⟨t, (roles_reader hlock).symm.trans h⟩

theorem Safe.safeReset (hok : Safe s t) (hpc : s.pc t = .resetFront) : s.roles.SafeReset := by
  obtain ⟨-, hreset, -⟩ := hok
  refine ⟨fun hr => ?_, fun hr => ?_⟩
  · obtain ⟨u, hu⟩ := exists_of_reader hr (by simp)
    exact (hreset hpc u).1 hu
  · obtain ⟨u, hu⟩ := exists_of_reader hr (by simp)
    exact (hreset hpc u).2 hu

theorem Safe.safeRead (hok : Safe s t) (hde : s.deLock = some t) : s.roles.SafeRead := by
  obtain ⟨hcopy, -, htest⟩ := hok
  refine ⟨fun hr inData hw => ?_, fun hr hw => ?_⟩
  · rw [roles_reader hde] at hr
    obtain ⟨u, hu⟩ := exists_of_writer hw (by simp)
    exact hcopy hr u inData hu
  · rw [roles_reader hde] at hr
    obtain ⟨u, hu⟩ := exists_of_writer hw (by simp)
    exact htest hr u hu

variable [DecidableEq Tid]

theorem elim_update {lock : Option Tid} {pc : Tid → Pc α} {p : Pc α} (h : lock ≠ some t) :
    lock.elim .idle (Function.update pc t p) = lock.elim .idle pc := by
  cases lock with
  | none => rfl
  | some u =>
    have hu : u ≠ t := fun hu => h (congrArg some hu)
    simp [Function.update_of_ne hu]

/-- A change at the thread that owns the lock of the writers changes the writer. -/
theorem roles_update_en {p : Pc α} {sh : Shared α} (hen : s.enLock = some t)
    (hde : s.deLock ≠ some t) :
    roles { s with pc := Function.update s.pc t p, shared := sh } =
      { s.roles with writer := p, shared := sh } := by
  simp [roles, hen, elim_update hde]

theorem roles_update_de {p : Pc α} {sh : Shared α} (hde : s.deLock = some t)
    (hen : s.enLock ≠ some t) :
    roles { s with pc := Function.update s.pc t p, shared := sh } =
      { s.roles with reader := p, shared := sh } := by
  simp [roles, hde, elim_update hen]

/-- A step of a thread under the condition is a step of the roles. -/
theorem Step.roles (hl : Locks s) (h : Step Safe s s') : Roles.Step s.roles s'.roles := by
  cases h with
  | lockEn t p hidle hfree hp =>
    have hde := hl.not_de (t := t) (by rw [hidle]; exact id)
    have hroles : Threads.roles { s with pc := Function.update s.pc t p, enLock := some t } =
        { s.roles with writer := p } := by
      simp [Threads.roles, elim_update hde]
    rw [hroles]
    exact .lockEn p (by simp [Threads.roles, hfree]) hp
  | lockDe t hidle hfree =>
    have hen := hl.not_en (t := t) (by rw [hidle]; exact id)
    have hroles :
        Threads.roles { s with pc := Function.update s.pc t .testEmpty, deLock := some t } =
          { s.roles with reader := .testEmpty } := by
      simp [Threads.roles, elim_update hen]
    rw [hroles]
    exact .lockDe (by simp [Threads.roles, hfree])
  | @act t p sh hok hact =>
    rcases Shared.act_holds hact with ⟨hp, hp', -, -⟩ | ⟨hp, hp', -, -⟩
    · have hen := (hl.en t).mp hp
      rw [roles_update_en hen (hl.not_de hp')]
      refine .write (by rwa [roles_writer hen]) (fun hw => hok.safeReset ?_)
        (by rwa [roles_writer hen])
      rwa [roles_writer hen] at hw
    · have hde := (hl.de t).mp hp
      rw [roles_update_de hde (hl.not_en hp')]
      exact .read (by rwa [roles_reader hde]) (hok.safeRead hde) (by rwa [roles_reader hde])
  | unlockEn t hpc =>
    have hholds : (s.pc t).HoldsEn ∧ ¬ (s.pc t).HoldsDe := by
      rcases hpc with hpc | hpc <;> simp [hpc, Pc.HoldsEn, Pc.HoldsDe]
    have hen := (hl.en t).mp hholds.1
    have hroles : Threads.roles { s with
          pc := Function.update s.pc t .idle, enLock := none, shared := s.shared.unlock (s.pc t) } =
        { s.roles with writer := .idle, shared := s.roles.shared.unlock s.roles.writer } := by
      rw [roles_writer hen]
      simp [Threads.roles, elim_update (hl.not_de hholds.2)]
    rw [hroles]
    exact .unlockEn (by rwa [roles_writer hen])
  | unlockDe t hpc =>
    have hholds : (s.pc t).HoldsDe ∧ ¬ (s.pc t).HoldsEn := by
      simp [hpc, Pc.HoldsEn, Pc.HoldsDe]
    have hde := (hl.de t).mp hholds.1
    have hroles : Threads.roles { s with pc := Function.update s.pc t .idle, deLock := none } =
        { s.roles with reader := .idle } := by
      simp [Threads.roles, elim_update (hl.not_en hholds.2)]
    rw [hroles]
    exact .unlockDe (by rwa [roles_reader hde])

end Threads

end Interleaving

end H264Cast
