import H264Cast.Queue.Threads

/-! # The calls end under interleaving

However the steps of the threads interleave, also when they race, a call that has its lock can
go on, and it ends after a few actions. Whoever waits for a lock waits for such a call only.
-/

namespace H264Cast

namespace Interleaving

variable {α : Type*}

namespace Pc

/-- The number of actions that are left of a call, at most. -/
def remaining : Pc α → ℕ
  | idle => 0
  | unlockEn | unlockDe | unlockAll => 1
  | copyIn _ | copyOut | resetRear => 2
  | advanceRear _ | advanceFront | resetFront => 3
  | testFull _ | testEmpty => 4

theorem remaining_le (p : Pc α) : p.remaining ≤ 4 := by
  cases p <;> simp [remaining]

end Pc

theorem Shared.act_remaining {sh sh' : Shared α} {p p' : Pc α} (h : sh.act p = some (p', sh')) :
    p'.remaining < p.remaining := by
  cases p with
  | idle | unlockEn | unlockDe | unlockAll => simp [act] at h
  | advanceRear | copyIn | resetFront | resetRear | advanceFront | copyOut =>
    obtain ⟨rfl, -⟩ := Prod.mk.inj (Option.some.inj h)
    simp [Pc.remaining]
  | testFull | testEmpty =>
    obtain ⟨rfl, -⟩ := Prod.mk.inj (Option.some.inj h)
    split_ifs <;> simp [Pc.remaining]

namespace Threads

variable {Tid : Type*} [DecidableEq Tid] {s s' : Threads Tid α} {t : Tid} {n : ℕ}

/-- A step of a call in progress: no call begins. -/
def Continues (s s' : Threads Tid α) : Prop :=
  Step (fun _ _ => True) s s' ∧ ∀ t, s.pc t = .idle → s'.pc t = .idle

/-- A number of steps of the calls in progress. -/
inductive Continuation (s : Threads Tid α) : ℕ → Threads Tid α → Prop
  | refl : Continuation s 0 s
  | snoc {n : ℕ} {s' s'' : Threads Tid α} : Continuation s n s' → Continues s' s'' →
      Continuation s (n + 1) s''

/-- The number of actions that are left of the calls in progress, at most. -/
def work (s : Threads Tid α) : ℕ := s.roles.writer.remaining + s.roles.reader.remaining

/-- Each step of a call in progress brings it closer to its end. -/
theorem Continues.work_lt (h : Continues s s') (hl : Locks s) : s'.work < s.work := by
  obtain ⟨hstep, hidle⟩ := h
  cases hstep with
  | lockEn t p hpc hfree hp =>
    have hpidle := hidle t hpc
    dsimp only at hpidle
    rw [Function.update_self] at hpidle
    rcases hp with rfl | ⟨x, rfl⟩ <;> cases hpidle
  | lockDe t hpc hfree =>
    have hpidle := hidle t hpc
    dsimp only at hpidle
    rw [Function.update_self] at hpidle
    cases hpidle
  | act t _ hact =>
    have hlt := Shared.act_remaining hact
    rcases Shared.act_holds hact with ⟨hp, hp', -, -⟩ | ⟨hp, hp', -, -⟩
    · have hen := (hl.en t).mp hp
      rw [work, work, roles_update_en hen (hl.not_de hp'), roles_writer hen]
      exact Nat.add_lt_add_right hlt _
    · have hde := (hl.de t).mp hp
      rw [work, work, roles_update_de hde (hl.not_en hp'), roles_reader hde]
      exact Nat.add_lt_add_left hlt _
  | unlockEn t hpc =>
    have hholds : (s.pc t).HoldsEn ∧ ¬ (s.pc t).HoldsDe ∧ (s.pc t).remaining = 1 := by
      rcases hpc with hpc | hpc <;> simp [hpc, Pc.HoldsEn, Pc.HoldsDe, Pc.remaining]
    have hen := (hl.en t).mp hholds.1
    have hde := hl.not_de hholds.2.1
    rw [work, work, roles_writer hen, hholds.2.2]
    simp [roles, elim_update hde, Pc.remaining]
  | unlockDe t hpc =>
    have hde := (hl.de t).mp (by simp [hpc, Pc.HoldsDe])
    have hen := hl.not_en (t := t) (by simp [hpc, Pc.HoldsEn])
    rw [work, work, roles_reader hde, hpc]
    simp [roles, elim_update hen, Pc.remaining]

/-- A step of a thread in a call begins no other call. -/
theorem Step.continues {p : Pc α} (h : Step (fun _ _ => True) s s') (hbusy : s.pc t ≠ .idle)
    (hpc : s'.pc = Function.update s.pc t p) : Continues s s' := by
  refine ⟨h, fun u hu => ?_⟩
  have hne : u ≠ t := by
    rintro rfl
    exact hbusy hu
  rwa [hpc, Function.update_of_ne hne]

/-- A thread in a call can go on, whatever the others do. -/
theorem exists_continues (s : Threads Tid α) (hbusy : s.pc t ≠ .idle) :
    ∃ s', Continues s s' := by
  cases hpc : s.pc t with
  | idle => exact absurd hpc hbusy
  | unlockEn => exact ⟨_, (Step.unlockEn t (Or.inl hpc)).continues hbusy rfl⟩
  | unlockAll => exact ⟨_, (Step.unlockEn t (Or.inr hpc)).continues hbusy rfl⟩
  | unlockDe => exact ⟨_, (Step.unlockDe t hpc).continues hbusy rfl⟩
  | _ => exact ⟨_, (Step.act t trivial (by rw [hpc]; rfl)).continues hbusy rfl⟩

theorem Continuation.work_le (h : Continuation s n s') (hl : Locks s) :
    Locks s' ∧ n + s'.work ≤ s.work := by
  induction h with
  | refl => exact ⟨hl, Nat.le_of_eq (Nat.zero_add _)⟩
  | snoc _ hstep ih =>
    have hlt := hstep.work_lt ih.1
    exact ⟨ih.1.step hstep.1, by omega⟩

/-- The calls in progress end after at most eight steps, unless others begin, and until then one
of them can go on. -/
theorem quiescent_of_reachable (h : (system fun _ _ => True).Reachable s)
    (hrun : Continuation s n s') :
    n ≤ 8 ∧ ((∀ t, s'.pc t = .idle) ∨ ∃ s'', Continuation s (n + 1) s'') := by
  obtain ⟨-, hwork⟩ := hrun.work_le (locks_of_reachable h)
  constructor
  · have hwriter := s.roles.writer.remaining_le
    have hreader := s.roles.reader.remaining_le
    have hle : s.work ≤ 4 + 4 := Nat.add_le_add hwriter hreader
    omega
  · by_cases hidle : ∀ t, s'.pc t = .idle
    · exact Or.inl hidle
    · obtain ⟨t, ht⟩ := not_forall.mp hidle
      obtain ⟨s'', hs''⟩ := exists_continues s' ht
      exact Or.inr ⟨s'', hrun.snoc hs''⟩

/-- A thread inserts while another one removes. -/
theorem quiescent_of_reachable_two :
    ∃ s s' : Threads Bool ℕ, (system fun _ _ => True).Reachable s ∧ Continuation s 1 s' ∧
      1 ≤ 8 ∧ ((∀ t, s'.pc t = .idle) ∨ ∃ s'', Continuation s 2 s'') := by
  have hnext : ∀ s : Threads Bool ℕ, (system fun _ _ => True).Reachable s →
      s.pc false = .testFull 7 → ∃ s s' : Threads Bool ℕ, (system fun _ _ => True).Reachable s ∧
        Continuation s 1 s' ∧ 1 ≤ 8 ∧
          ((∀ t, s'.pc t = .idle) ∨ ∃ s'', Continuation s 2 s'') := by
    intro s hr hpc
    obtain ⟨s', hs'⟩ := exists_continues (t := false) s (by simp [hpc])
    have hrun : Continuation s 1 s' := .snoc .refl hs'
    exact ⟨s, s', hr, hrun, quiescent_of_reachable hr hrun⟩
  have hr : (system fun _ _ => True : TransitionSystem (Threads Bool ℕ)).Reachable _ := .init rfl
  have hr := hr.step (.lockEn false (.testFull 7) rfl rfl (Or.inr ⟨7, rfl⟩))
  have hr := hr.step (.lockDe true rfl rfl)
  exact hnext _ hr rfl

end Threads

end Interleaving

end H264Cast
