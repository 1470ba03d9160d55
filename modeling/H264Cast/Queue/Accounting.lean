import H264Cast.Queue.Order
import Mathlib.Data.List.Range
import Mathlib.Data.List.Perm.Subperm

/-! # Nothing is lost under interleaving

In a run that keeps the condition on its actions, every element inserted is delivered, still
in the queue, or discarded, and only one of these. How many elements are in the queue can be
read off the indices, so the count needs no second look at the slots.
-/

namespace H264Cast

namespace Interleaving

variable {α : Type*} {c c' : Roles α} {ds ds' ys ys' : List (ℕ × α)}

/-- The numbers of the elements discarded so far, also by a call that is not finished. -/
def Shared.dropped (sh : Shared α) : List ℕ := sh.discarded ++ sh.discarding

/-- The writer has discarded the elements and not released its lock. -/
def Pc.Discards : Pc α → Prop
  | resetRear | unlockAll => True
  | _ => False

namespace Good

variable {w r p : Pc α} {sh : Shared α}

/-- A writer that neither advances nor fills a slot. -/
theorem setWriter (h : Good ⟨w, r, sh⟩ ds ys) (hw : w ≠ .resetRear) (hp : p ≠ .resetRear)
    (hfilling : p.filling = w.filling) (hgranted : p.granted = w.granted) :
    Good ⟨p, r, sh⟩ ds ys := by
  obtain ⟨hd, hi, hh, hf, hr, hroom, hne, -, hshape⟩ := h
  refine ⟨hd, hi, hh, hf, hr, ?_, ?_, fun hp' => absurd hp' hp, fun _ => ?_⟩
  · rwa [hfilling, hgranted]
  · rwa [hfilling]
  · rw [hfilling]
    exact hshape hw

/-- The number of elements in the slots, from the indices. -/
theorem length_eq (h : Good c ds ys) (hw : c.writer ≠ .resetRear) :
    ys.length + c.writer.filling =
      c.reader.taking + (c.shared.rear + 3 - c.shared.front) % 3 := by
  obtain ⟨-, -, -, hf, hr, hroom, hne, -, hshape⟩ := h
  have hshape := hshape hw
  by_cases hcopy : c.reader = .copyOut
  · have hne := hne (Or.inr hcopy)
    rw [hcopy] at hroom hshape ⊢
    simp only [Pc.taking] at hroom hshape ⊢
    omega
  · rw [Pc.taking_of_ne hcopy] at hroom hshape ⊢
    omega

/-- The element copied out leaves the slots. -/
theorem length_copyOut {sh' : Shared α} (h : Good ⟨w, .copyOut, sh⟩ ds ys)
    (h' : Good ⟨w, .unlockDe, sh'⟩ ds' ys') (hfront : sh'.front = sh.front)
    (hrear : sh'.rear = sh.rear) : ys.length = ys'.length + 1 := by
  by_cases hw : w = .resetRear
  · rw [(h.between hw).2.1, (h'.between hw).2.1]
    rfl
  · have hlen := h.length_eq hw
    have hlen' := h'.length_eq hw
    simp only [Pc.taking, hfront, hrear] at hlen hlen'
    omega

/-- The numbers of the elements that a reset discards. -/
theorem stored_ids (h : Good ⟨.resetFront, r, sh⟩ ds ys) :
    sh.stored.filterMap (Option.map Prod.fst) = (ys.drop r.taking).map Prod.fst := by
  rw [h.stored_eq, List.filterMap_map, ← List.filterMap_eq_map]
  rfl

end Good

/-- The elements inserted are those delivered, those to be delivered and those discarded. -/
structure Accounted (c : Roles α) (ds ys : List (ℕ × α)) : Prop extends Good c ds ys where
  length_inserted : c.shared.inserted.length = ds.length + ys.length + c.shared.dropped.length
  discarding_eq_nil : ¬ c.writer.Discards → c.shared.discarding = []
  nodup : c.shared.dropped.Nodup

namespace Accounted

variable {w r p : Pc α} {sh sh' : Shared α} {x : α}

/-- A step that leaves the elements where they are. -/
theorem of_good (h : Accounted c ds ys) (h' : Good c' ds ys)
    (hins : c'.shared.inserted = c.shared.inserted)
    (hdrop : c'.shared.dropped = c.shared.dropped)
    (hnil : ¬ c'.writer.Discards → c'.shared.discarding = []) : Accounted c' ds ys := by
  refine ⟨h', ?_, hnil, ?_⟩
  · rw [hins, hdrop]
    exact h.length_inserted
  · rw [hdrop]
    exact h.nodup

theorem copyIn (h : Accounted ⟨.copyIn x, r, sh⟩ ds ys) :
    ∃ ys', Accounted ⟨.unlockEn, r, { sh with
        slots := sh.slots.write sh.rear [some (sh.inserted.length, x)]
        inserted := sh.inserted ++ [x] }⟩ ds ys' := by
  refine ⟨_, h.toGood.copyIn, ?_, fun _ => h.discarding_eq_nil id, h.nodup⟩
  have hlen := h.length_inserted
  simp only [List.length_append, List.length_singleton, Shared.dropped] at hlen ⊢
  omega

theorem resetFront (h : Accounted ⟨.resetFront, r, sh⟩ ds ys)
    (hs : Roles.SafeReset ⟨.resetFront, r, sh⟩) :
    Accounted ⟨.resetRear, r, { sh with
        front := 0
        discarding := sh.stored.filterMap (Option.map Prod.fst) }⟩ ds (ys.take r.taking) := by
  have hnil : sh.discarding = [] := h.discarding_eq_nil id
  have hlen := h.length_inserted
  have hdrop := h.nodup
  have hitems := h.items
  rw [← List.take_append_drop r.taking ys, ← List.append_assoc] at hitems
  have hsorted := (List.pairwise_append.mp hitems.sorted).2.1
  simp only [Shared.dropped, hnil, List.append_nil] at hlen hdrop
  refine ⟨h.toGood.resetFront hs, ?_, fun hnot => (hnot trivial).elim, ?_⟩
  · have hsplit := congrArg List.length (List.take_append_drop r.taking ys)
    rw [List.length_append] at hsplit
    simp only [Shared.dropped, h.toGood.stored_ids, List.length_append, List.length_map]
    omega
  · simp only [Shared.dropped, h.toGood.stored_ids]
    refine List.nodup_append.mpr ⟨hdrop, ?_, ?_⟩
    · rw [List.Nodup, List.pairwise_map]
      exact hsorted.imp Nat.ne_of_lt
    · rintro i hi _ hmem rfl
      obtain ⟨d, hd, rfl⟩ := List.mem_map.mp hmem
      exact (hitems.kept d (List.mem_append_right _ hd)).2 hi

theorem copyOut (h : Accounted ⟨w, .copyOut, sh⟩ ds ys)
    (hs : ∀ x, w = .copyIn x → sh.rear ≠ sh.front) :
    ∃ ds' ys', Accounted
      ⟨w, .unlockDe, { sh with delivered := sh.delivered ++ [sh.slots sh.front] }⟩ ds' ys' := by
  obtain ⟨d, ys', h'⟩ := h.toGood.copyOut hs
  refine ⟨_, _, h', ?_, h.discarding_eq_nil, h.nodup⟩
  have hlen := h.length_inserted
  have hys := h.toGood.length_copyOut h' rfl rfl
  simp only [List.length_append, List.length_singleton, Shared.dropped] at hlen ⊢
  omega

/-- Every step of the roles keeps the account. -/
theorem step (h : Accounted c ds ys) (hstep : Roles.Step c c') :
    ∃ ds' ys', Accounted c' ds' ys' := by
  obtain ⟨w, r, sh⟩ := c
  have hnil := h.discarding_eq_nil
  cases hstep with
  | lockEn p hidle hp =>
    obtain rfl : w = .idle := hidle
    refine ⟨ds, ys, h.of_good ?_ rfl rfl fun _ => hnil id⟩
    rcases hp with rfl | ⟨x, rfl⟩ <;> exact h.setWriter (by simp) (by simp) rfl rfl
  | lockDe hidle =>
    obtain rfl : r = .idle := hidle
    exact ⟨ds, ys, h.of_good (h.setReader (by simp) (by simp) (by simp)) rfl rfl hnil⟩
  | write hholds hsafe hact =>
    cases w with
    | testFull x =>
      obtain ⟨rfl, rfl⟩ := Prod.mk.inj (Option.some.inj hact)
      exact ⟨ds, ys, h.of_good h.testFull rfl rfl fun _ => hnil id⟩
    | advanceRear x =>
      obtain ⟨rfl, rfl⟩ := Prod.mk.inj (Option.some.inj hact)
      exact ⟨ds, ys, h.of_good h.advanceRear rfl rfl fun _ => hnil id⟩
    | copyIn x =>
      obtain ⟨rfl, rfl⟩ := Prod.mk.inj (Option.some.inj hact)
      exact ⟨ds, h.copyIn⟩
    | resetFront =>
      obtain ⟨rfl, rfl⟩ := Prod.mk.inj (Option.some.inj hact)
      exact ⟨ds, _, h.resetFront (hsafe rfl)⟩
    | resetRear =>
      obtain ⟨rfl, rfl⟩ := Prod.mk.inj (Option.some.inj hact)
      exact ⟨ds, ys, h.of_good h.resetRear rfl rfl fun hnot => (hnot trivial).elim⟩
    | unlockEn | unlockAll => simp [Shared.act] at hact
    | idle | testEmpty | advanceFront | copyOut | unlockDe => exact hholds.elim
  | read hholds hsafe hact =>
    cases r with
    | testEmpty =>
      obtain ⟨rfl, rfl⟩ := Prod.mk.inj (Option.some.inj hact)
      exact ⟨ds, ys, h.of_good (h.testEmpty (hsafe.2 rfl)) rfl rfl hnil⟩
    | advanceFront =>
      obtain ⟨rfl, rfl⟩ := Prod.mk.inj (Option.some.inj hact)
      exact ⟨ds, ys, h.of_good h.advanceFront rfl rfl hnil⟩
    | copyOut =>
      obtain ⟨rfl, rfl⟩ := Prod.mk.inj (Option.some.inj hact)
      exact h.copyOut (hsafe.1 rfl)
    | unlockDe => simp [Shared.act] at hact
    | idle | testFull | advanceRear | copyIn | resetFront | resetRear | unlockEn | unlockAll =>
      exact hholds.elim
  | unlockEn hpc =>
    rcases hpc with hpc | hpc
    · obtain rfl : w = .unlockEn := hpc
      exact ⟨ds, ys, h.of_good (h.setWriter (by simp) (by simp) rfl rfl) rfl rfl fun _ => hnil id⟩
    · obtain rfl : w = .unlockAll := hpc
      exact ⟨ds, ys, h.of_good h.unlockAll rfl (List.append_nil _) fun _ => rfl⟩
  | unlockDe hpc =>
    obtain rfl : r = .unlockDe := hpc
    exact ⟨ds, ys, h.of_good (h.setReader (by simp) (by simp) (by simp)) rfl rfl hnil⟩

end Accounted

namespace Threads

variable {Tid : Type*} [DecidableEq Tid] {s : Threads Tid α}

omit [DecidableEq Tid] in
theorem good_initial : Good (initial : Threads Tid α).roles [] [] := by
  refine ⟨rfl, ⟨.nil, ?_, ?_, ?_⟩, Ring.holds_nil _ _ _, Nat.zero_lt_succ _,
    Nat.zero_lt_succ _, Nat.zero_le _, ?_, ?_, fun _ => rfl⟩
  all_goals simp [initial, roles]

theorem accounted_of_reachable (h : (system Safe).Reachable s) :
    ∃ ds ys, Accounted s.roles ds ys := by
  induction h with
  | init hs =>
    obtain rfl := hs
    exact ⟨[], [], good_initial, rfl, fun _ => rfl, .nil⟩
  | step hr hstep ih =>
    obtain ⟨ds, ys, hacc⟩ := ih
    exact hacc.step (hstep.roles (locks_of_reachable hr))

theorem roles_of_idle (h : (system Safe).Reachable s) (hidle : ∀ t, s.pc t = .idle) :
    s.roles = ⟨.idle, .idle, s.shared⟩ := by
  have hlocks := locks_of_reachable h
  have hen : s.enLock = none :=
    Option.eq_none_iff_forall_ne_some.mpr fun t => hlocks.not_en (by rw [hidle]; exact id)
  have hde : s.deLock = none :=
    Option.eq_none_iff_forall_ne_some.mpr fun t => hlocks.not_de (by rw [hidle]; exact id)
  simp [roles, hen, hde]

/-- When no call is in progress, every element inserted was delivered, is still stored, or was
discarded, and only one of these. Those stored are the last ones, in the order of insertion. -/
theorem accounted_of_idle (h : (system Safe).Reachable s) (hidle : ∀ t, s.pc t = .idle) :
    ∃ ds ys : List (ℕ × α), s.shared.delivered = ds.map some ∧ s.shared.stored = ys.map some ∧
      (ds ++ ys).Pairwise (fun a b => a.1 < b.1) ∧
      (∀ d ∈ ds ++ ys, s.shared.inserted[d.1]? = some d.2) ∧
      ((ds ++ ys).map Prod.fst ++ s.shared.discarded).Perm
        (List.range s.shared.inserted.length) := by
  obtain ⟨ds, ys, hacc⟩ := accounted_of_reachable h
  rw [roles_of_idle h hidle] at hacc
  have hstored : s.shared.stored = ys.map some :=
    (hacc.setWriter (p := .resetFront) (by simp) (by simp) rfl rfl).stored_eq
  have hitems := hacc.items
  have hnil : s.shared.discarding = [] := hacc.discarding_eq_nil id
  have hdrop : s.shared.dropped = s.shared.discarded := by
    rw [Shared.dropped, hnil, List.append_nil]
  have hlen := hacc.length_inserted
  have hnodup := hacc.nodup
  simp only [hdrop] at hlen hnodup
  refine ⟨ds, ys, hacc.delivered, hstored, hitems.sorted, hitems.inserted, ?_⟩
  refine (List.subperm_of_subset (List.nodup_append.mpr ⟨?_, hnodup, ?_⟩) ?_).perm_of_length_le ?_
  · rw [List.Nodup, List.pairwise_map]
    exact hitems.sorted.imp Nat.ne_of_lt
  · rintro i hi _ hmem rfl
    obtain ⟨d, hd, rfl⟩ := List.mem_map.mp hi
    exact (hitems.kept d hd).2 hmem
  · intro i hi
    rw [List.mem_range]
    rcases List.mem_append.mp hi with hi | hi
    · obtain ⟨d, hd, rfl⟩ := List.mem_map.mp hi
      exact (List.getElem?_eq_some_iff.mp (hitems.inserted d hd)).1
    · exact hitems.bounded i (Or.inr hi)
  · simp only [List.length_range, List.length_append, List.length_map]
    exact Nat.le_of_eq hlen

/-- Of three elements the first is removed while the second is inserted, the second is discarded,
and the third one stays. -/
theorem accounted_of_idle_three :
    ∃ s : Threads Bool ℕ, (system Safe).Reachable s ∧ s.shared.inserted = [7, 8, 9] ∧
      s.shared.delivered = [some (0, 7)] ∧ s.shared.discarded = [1] ∧
      ∃ ds ys : List (ℕ × ℕ), s.shared.delivered = ds.map some ∧ s.shared.stored = ys.map some ∧
        (ds ++ ys).Pairwise (fun a b => a.1 < b.1) ∧
        (∀ d ∈ ds ++ ys, s.shared.inserted[d.1]? = some d.2) ∧
        ((ds ++ ys).map Prod.fst ++ s.shared.discarded).Perm
          (List.range s.shared.inserted.length) := by
  have hr : (system Safe : TransitionSystem (Threads Bool ℕ)).Reachable _ := .init rfl
  have hr := hr.step (.lockEn false (.testFull 7) rfl rfl (Or.inr ⟨7, rfl⟩))
  have hr := hr.step (.act false (by simp [Safe]) rfl)
  have hr := hr.step (.act false (by simp [Safe, initial]) rfl)
  have hr := hr.step (.lockDe true rfl rfl)
  have hr := hr.step (.act true (by simp [Safe, initial]) rfl)
  have hr := hr.step (.act false (by simp [Safe, initial]) rfl)
  have hr := hr.step (.unlockEn false (Or.inl rfl))
  have hr := hr.step (.act true (by simp [Safe, initial, Shared.unlock]) rfl)
  have hr := hr.step (.lockEn false (.testFull 8) rfl rfl (Or.inr ⟨8, rfl⟩))
  have hr := hr.step (.act false (by simp [Safe, initial, Shared.unlock]) rfl)
  have hr := hr.step (.act false (by simp [Safe, initial, Shared.unlock]) rfl)
  have hr := hr.step (.act true (by simp [Safe, initial, Shared.unlock]) rfl)
  have hr := hr.step (.unlockDe true rfl)
  have hr := hr.step (.act false (by simp [Safe, initial, Shared.unlock]) rfl)
  have hr := hr.step (.unlockEn false (Or.inl rfl))
  -- the reset
  have hr := hr.step (.lockEn true .resetFront rfl rfl (Or.inl rfl))
  have hr := hr.step (.act true (by simp [Safe, initial, Shared.unlock]) rfl)
  have hr := hr.step (.act true (by simp [Safe, initial, Shared.unlock]) rfl)
  have hr := hr.step (.unlockEn true (Or.inr rfl))
  -- the third element
  have hr := hr.step (.lockEn false (.testFull 9) rfl rfl (Or.inr ⟨9, rfl⟩))
  have hr := hr.step (.act false (by simp [Safe, initial, Shared.unlock]) rfl)
  have hr := hr.step (.act false (by simp [Safe, initial, Shared.unlock]) rfl)
  have hr := hr.step (.act false (by simp [Safe, initial, Shared.unlock]) rfl)
  have hr := hr.step (.unlockEn false (Or.inl rfl))
  exact ⟨_, hr, rfl, rfl, rfl, accounted_of_idle hr (by rintro (_ | _) <;> rfl)⟩

end Threads

end Interleaving

end H264Cast
