import H264Cast.Library.Ring
import H264Cast.Queue.Threads

/-! # Insertion order under interleaving

In a run that keeps the condition on its actions, the slots behind the last one copied
out hold the elements not yet delivered, in the order of insertion. A slot that a writer
has advanced to may still be empty, and a reset has two halves; the invariant counts
both.
-/

namespace H264Cast

namespace Interleaving

variable {α : Type*}

/-- The writer has advanced to a slot and not filled it. -/
def Pc.filling : Pc α → ℕ
  | copyIn _ => 1
  | _ => 0

/-- The writer has found the queue not full and not advanced. -/
def Pc.granted : Pc α → ℕ
  | advanceRear _ => 1
  | _ => 0

/-- The reader has advanced to a slot and not copied it out. -/
def Pc.taking : Pc α → ℕ
  | copyOut => 1
  | _ => 0

theorem Pc.taking_le (p : Pc α) : p.taking ≤ 1 := by
  cases p <;> simp [Pc.taking]

theorem Pc.taking_of_ne {p : Pc α} (h : p ≠ .copyOut) : p.taking = 0 := by
  cases p <;> simp_all [Pc.taking]

/-- The elements delivered and those still to be delivered are inserted elements in order, and
none of them is discarded. -/
structure Items (sh : Shared α) (items : List (ℕ × α)) : Prop where
  sorted : items.Pairwise fun a b => a.1 < b.1
  inserted : ∀ d ∈ items, sh.inserted[d.1]? = some d.2
  kept : ∀ d ∈ items, d.1 ∉ sh.discarding ∧ d.1 ∉ sh.discarded
  bounded : ∀ i, i ∈ sh.discarding ∨ i ∈ sh.discarded → i < sh.inserted.length

/-- A new element has the next number. -/
theorem Items.push {sh : Shared α} {items : List (ℕ × α)} {x : α} (h : Items sh items)
    {slots : Memory (Option (ℕ × α))} :
    Items { sh with slots, inserted := sh.inserted ++ [x] }
      (items ++ [(sh.inserted.length, x)]) := by
  have hlt : ∀ d ∈ items, d.1 < sh.inserted.length := fun d hd =>
    (List.getElem?_eq_some_iff.mp (h.inserted d hd)).1
  have hnew : sh.inserted.length ∉ sh.discarding ∧ sh.inserted.length ∉ sh.discarded :=
    ⟨fun hm => Nat.lt_irrefl _ (h.bounded _ (Or.inl hm)),
      fun hm => Nat.lt_irrefl _ (h.bounded _ (Or.inr hm))⟩
  constructor
  · refine List.pairwise_append.mpr ⟨h.sorted, List.pairwise_singleton _ _, fun a ha b hb => ?_⟩
    obtain rfl := List.mem_singleton.mp hb
    exact hlt a ha
  · intro d hd
    rcases List.mem_append.mp hd with hd | hd
    · rw [List.getElem?_append_left (hlt d hd)]
      exact h.inserted d hd
    · obtain rfl := List.mem_singleton.mp hd
      simp
  · intro d hd
    rcases List.mem_append.mp hd with hd | hd
    · exact h.kept d hd
    · obtain rfl := List.mem_singleton.mp hd
      exact hnew
  · intro i hi
    have hb := h.bounded i hi
    simp only [List.length_append, List.length_singleton]
    omega

/-- The last elements are discarded. -/
theorem Items.discard {sh : Shared α} {xs zs : List (ℕ × α)} {front : ℕ}
    (h : Items sh (xs ++ zs)) :
    Items { sh with front, discarding := zs.map Prod.fst } xs := by
  obtain ⟨hsorted, -, hlt⟩ := List.pairwise_append.mp h.sorted
  constructor
  · exact hsorted
  · exact fun d hd => h.inserted d (List.mem_append_left _ hd)
  · refine fun d hd => ⟨fun hm => ?_, (h.kept d (List.mem_append_left _ hd)).2⟩
    obtain ⟨z, hz, he⟩ := List.mem_map.mp hm
    exact Nat.ne_of_lt (hlt d hd z hz) he.symm
  · rintro i (hm | hm)
    · obtain ⟨z, hz, rfl⟩ := List.mem_map.mp hm
      exact (List.getElem?_eq_some_iff.mp (h.inserted z (List.mem_append_right _ hz))).1
    · exact h.bounded i (Or.inr hm)

/-- The elements delivered are `ds`, and `ys` are in the slots from the first one not copied out
on. -/
structure Good (c : Roles α) (ds ys : List (ℕ × α)) : Prop where
  delivered : c.shared.delivered = ds.map some
  items : Items c.shared (ds ++ ys)
  holds : Ring.Holds c.shared.slots 3 (c.shared.front + 1 - c.reader.taking) (ys.map some)
  front_lt : c.shared.front < 3
  rear_lt : c.shared.rear < 3
  room : ys.length + c.writer.filling + c.writer.granted ≤ 2 + c.reader.taking
  nonempty : c.reader = .advanceFront ∨ c.reader = .copyOut → 1 ≤ ys.length + c.writer.filling
  between : c.writer = .resetRear →
    c.shared.front = 0 ∧ ys.length = c.reader.taking ∧ c.reader ≠ .advanceFront
  shape : c.writer ≠ .resetRear →
    (c.shared.front + 1 - c.reader.taking + ys.length + c.writer.filling) % 3 =
      (c.shared.rear + 1) % 3

namespace Good

variable {w r p : Pc α} {sh sh' : Shared α} {ds ys : List (ℕ × α)} {x : α}

theorem testFull (h : Good ⟨.testFull x, r, sh⟩ ds ys) :
    Good ⟨if (sh.rear + 1) % 3 = sh.front then .unlockEn else .advanceRear x, r, sh⟩ ds ys := by
  obtain ⟨hd, hi, hh, hf, hr, hroom, hne, -, hshape⟩ := h
  have ht := r.taking_le
  have hshape := hshape (by simp)
  simp only [Pc.filling, Pc.granted] at hroom hne hshape hf
  split_ifs with hfull
  · exact ⟨hd, hi, hh, hf, hr, hroom, hne, by simp, fun _ => hshape⟩
  · refine ⟨hd, hi, hh, hf, hr, ?_, hne, by simp, fun _ => hshape⟩
    simp only [Pc.filling, Pc.granted]
    omega

theorem advanceRear (h : Good ⟨.advanceRear x, r, sh⟩ ds ys) :
    Good ⟨.copyIn x, r, { sh with rear := (sh.rear + 1) % 3 }⟩ ds ys := by
  obtain ⟨hd, hi, hh, hf, hr, hroom, hne, -, hshape⟩ := h
  have ht := r.taking_le
  have hshape := hshape (by simp)
  simp only [Pc.filling, Pc.granted] at hroom hne hshape
  refine ⟨hd, ⟨hi.sorted, hi.inserted, hi.kept, hi.bounded⟩, hh, hf, Nat.mod_lt _ (by decide), ?_,
    fun _ => ?_, by simp, fun _ => ?_⟩
  · simp only [Pc.filling, Pc.granted]
    omega
  · simp only [Pc.filling]
    omega
  · simp only [Pc.filling]
    omega

theorem copyIn (h : Good ⟨.copyIn x, r, sh⟩ ds ys) :
    Good ⟨.unlockEn, r, { sh with
        slots := sh.slots.write sh.rear [some (sh.inserted.length, x)]
        inserted := sh.inserted ++ [x] }⟩ ds (ys ++ [(sh.inserted.length, x)]) := by
  obtain ⟨hd, hi, hh, hf, hr, hroom, -, -, hshape⟩ := h
  have ht := r.taking_le
  have hshape := hshape (by simp)
  simp only [Pc.filling, Pc.granted] at hroom hshape hf hr
  have hlen : (sh.front + 1 - r.taking + (ys.map some).length) % 3 = sh.rear := by
    rw [List.length_map]
    omega
  refine ⟨hd, ?_, ?_, hf, hr, ?_, fun _ => ?_, by simp, fun _ => ?_⟩
  · rw [← List.append_assoc]
    exact hi.push
  · rw [List.map_append]
    refine hh.push (by rw [List.length_map]; omega) ?_ fun j _ hj => ?_
    · rw [hlen]
      simp [Memory.write]
    · rw [hlen] at hj
      exact Memory.write_of_outside (Nat.lt_or_gt_of_ne hj)
  · simp only [Pc.filling, Pc.granted, List.length_append, List.length_singleton]
    omega
  · simp only [List.length_append, List.length_singleton]
    omega
  · simp only [Pc.filling, List.length_append, List.length_singleton]
    omega

/-- A reader that does not come from a slot and is not on the way to one. -/
theorem setReader (h : Good ⟨w, r, sh⟩ ds ys) (hcopy : r ≠ .copyOut) (hadv : p ≠ .advanceFront)
    (hcopy' : p ≠ .copyOut) : Good ⟨w, p, sh⟩ ds ys := by
  obtain ⟨hd, hi, hh, hf, hr, hroom, -, hbetween, hshape⟩ := h
  simp only [Pc.taking_of_ne hcopy] at hh hroom hbetween hshape
  constructor
  case delivered => exact hd
  case items => exact hi
  case holds => rwa [Pc.taking_of_ne hcopy']
  case front_lt => exact hf
  case rear_lt => exact hr
  case room => rwa [Pc.taking_of_ne hcopy']
  case nonempty => exact fun hread => (hread.elim hadv hcopy').elim
  case between =>
    intro hw
    obtain ⟨hz, hlen, -⟩ := hbetween hw
    exact ⟨hz, by rw [Pc.taking_of_ne hcopy', hlen], hadv⟩
  case shape => rwa [Pc.taking_of_ne hcopy']

theorem testEmpty (h : Good ⟨w, .testEmpty, sh⟩ ds ys) (hs : w = .resetRear → sh.front = sh.rear) :
    Good ⟨w, if sh.front = sh.rear then .unlockDe else .advanceFront, sh⟩ ds ys := by
  split_ifs with hempty
  · exact h.setReader (by simp) (by simp) (by simp)
  · obtain ⟨hd, hi, hh, hf, hr, hroom, -, -, hshape⟩ := h
    simp only [Pc.taking] at hh hroom hshape hf hr
    have hw : w ≠ .resetRear := fun hw => hempty (hs hw)
    refine ⟨hd, hi, hh, hf, hr, hroom, fun _ => ?_, fun hw' => absurd hw' hw, hshape⟩
    have hshape := hshape hw
    simp only
    omega

theorem advanceFront (h : Good ⟨w, .advanceFront, sh⟩ ds ys) :
    Good ⟨w, .copyOut, { sh with front := (sh.front + 1) % 3 }⟩ ds ys := by
  obtain ⟨hd, hi, hh, hf, hr, hroom, hne, hbetween, hshape⟩ := h
  have hw : w ≠ .resetRear := fun hw => (hbetween hw).2.2 rfl
  have hshape := hshape hw
  have hne := hne (Or.inl rfl)
  simp only [Pc.taking] at hh hroom hshape hf hr
  refine ⟨hd, ⟨hi.sorted, hi.inserted, hi.kept, hi.bounded⟩, ?_, Nat.mod_lt _ (by decide), hr, ?_,
    fun _ => hne, fun hw' => absurd hw' hw, fun _ => ?_⟩
  · exact hh.congr_start (by simp [Pc.taking])
  · simp only [Pc.taking]
    omega
  · simp only [Pc.taking]
    omega

theorem copyOut (h : Good ⟨w, .copyOut, sh⟩ ds ys)
    (hs : ∀ x, w = .copyIn x → sh.rear ≠ sh.front) :
    ∃ d ys', Good ⟨w, .unlockDe, { sh with delivered := sh.delivered ++ [sh.slots sh.front] }⟩
      (ds ++ [d]) ys' := by
  obtain ⟨hd, hi, hh, hf, hr, hroom, hne, hbetween, hshape⟩ := h
  have hne := hne (Or.inr rfl)
  simp only [Pc.taking] at hd hh hroom hshape hbetween hf hr
  cases ys with
  | nil =>
    -- the only slot left would be one that the writer has not filled
    exfalso
    cases w with
    | copyIn x =>
      have hshape := hshape (by simp)
      have hsafe := hs x rfl
      simp only [Pc.filling, List.length_nil] at hshape
      omega
    | _ => simp [Pc.filling] at hne
  | cons y ys =>
    have hhead : sh.slots sh.front = some y := by
      have hh := hh.head
      rwa [Nat.add_sub_cancel, Nat.mod_eq_of_lt hf] at hh
    refine ⟨y, ys, ?_, ?_, hh.tail, hf, hr, ?_, by simp, fun hw => ?_, fun hw => ?_⟩
    · simp [hd, hhead]
    · rw [List.append_assoc]
      exact ⟨hi.sorted, hi.inserted, hi.kept, hi.bounded⟩
    · simp only [Pc.taking, List.length_cons] at hroom ⊢
      omega
    · obtain ⟨hz, hlen, -⟩ := hbetween hw
      exact ⟨hz, by simpa [Pc.taking] using hlen, by simp⟩
    · have hshape := hshape hw
      simp only [Pc.taking, List.length_cons] at hshape ⊢
      omega

theorem resetRear (h : Good ⟨.resetRear, r, sh⟩ ds ys) :
    Good ⟨.unlockAll, r, { sh with rear := 0 }⟩ ds ys := by
  obtain ⟨hd, hi, hh, hf, -, hroom, hne, hbetween, -⟩ := h
  obtain ⟨hz, hlen, -⟩ := hbetween rfl
  have ht := r.taking_le
  refine ⟨hd, ⟨hi.sorted, hi.inserted, hi.kept, hi.bounded⟩, hh, hf, Nat.zero_lt_succ _, hroom, hne,
    by simp,
    fun _ => ?_⟩
  simp only [Pc.filling] at hz hlen ⊢
  omega

/-- The slots from `front` up to `rear` hold the elements that no reader has advanced to. -/
theorem stored_eq (h : Good ⟨.resetFront, r, sh⟩ ds ys) :
    sh.stored = (ys.drop r.taking).map some := by
  obtain ⟨-, -, hh, hf, hr, hroom, hne, -, hshape⟩ := h
  have hshape := hshape (by simp)
  simp only [Pc.filling, Pc.granted] at hh hroom hne hshape hf hr
  by_cases hcopy : r = .copyOut
  · subst hcopy
    simp only [Pc.taking] at hh hroom hshape ⊢
    obtain ⟨y, zs, rfl⟩ := List.exists_cons_of_length_pos (hne (Or.inr rfl))
    rw [Nat.add_sub_cancel] at hh hshape
    simp only [List.length_cons] at hroom hshape
    exact hh.tail.map_range (by simp; omega)
  · rw [Pc.taking_of_ne hcopy] at hh hroom hshape ⊢
    exact hh.map_range (by simp; omega)

theorem resetFront (h : Good ⟨.resetFront, r, sh⟩ ds ys)
    (hs : Roles.SafeReset ⟨.resetFront, r, sh⟩) :
    Good ⟨.resetRear, r, { sh with
        front := 0
        discarding := sh.stored.filterMap (Option.map Prod.fst) }⟩ ds (ys.take r.taking) := by
  have hids : sh.stored.filterMap (Option.map Prod.fst) = (ys.drop r.taking).map Prod.fst := by
    rw [h.stored_eq, List.filterMap_map, ← List.filterMap_eq_map]
    rfl
  obtain ⟨hd, hi, hh, hf, hr, hroom, hne, -, -⟩ := h
  obtain ⟨hadv, hzero⟩ := hs
  simp only [Pc.filling, Pc.granted] at hh hroom hne
  have hlen : (ys.take r.taking).length = r.taking := by
    by_cases hcopy : r = .copyOut
    · have hpos := hne (Or.inr hcopy)
      subst hcopy
      simp only [Pc.taking, List.length_take]
      omega
    · simp [Pc.taking_of_ne hcopy]
  refine ⟨hd, ?_, ?_, Nat.zero_lt_succ _, hr, ?_, fun hread => ?_, fun _ => ⟨rfl, hlen, hadv⟩,
    fun hw => absurd rfl hw⟩
  · rw [← List.take_append_drop r.taking ys, ← List.append_assoc] at hi
    rw [hids]
    exact hi.discard
  · by_cases hcopy : r = .copyOut
    · subst hcopy
      have hz : sh.front = 0 := hzero rfl
      rw [← List.take_append_drop (Pc.copyOut : Pc α).taking ys, List.map_append] at hh
      simpa [hz] using hh.of_append
    · rw [Pc.taking_of_ne hcopy, List.take_zero]
      exact Ring.holds_nil _ _ _
  · simp only [Pc.filling, Pc.granted, hlen]
    omega
  · have hcopy : r = .copyOut := hread.resolve_left hadv
    subst hcopy
    rw [hlen]
    exact Nat.le_refl _

theorem unlockAll (h : Good ⟨.unlockAll, r, sh⟩ ds ys) :
    Good ⟨.idle, r, sh.unlock .unlockAll⟩ ds ys := by
  obtain ⟨hd, hi, hh, hf, hr, hroom, hne, -, hshape⟩ := h
  refine ⟨hd, ⟨hi.sorted, hi.inserted, fun d hd => ?_, fun i hm => ?_⟩, hh, hf, hr, hroom, hne,
    by simp, fun _ => hshape (by simp)⟩
  · have hk := hi.kept d hd
    simp only [Shared.unlock, List.mem_append]
    exact ⟨List.not_mem_nil, fun hm => hm.elim hk.2 hk.1⟩
  · simp only [Shared.unlock, List.mem_append, List.not_mem_nil, false_or] at hm
    exact hi.bounded i hm.symm

/-- Every step of the roles keeps the invariant. -/
theorem step {c c' : Roles α} (h : Good c ds ys) (hstep : Roles.Step c c') :
    ∃ ds' ys', Good c' ds' ys' := by
  obtain ⟨w, r, sh⟩ := c
  cases hstep with
  | lockEn p hidle hp =>
    obtain rfl : w = .idle := hidle
    obtain ⟨hd, hi, hh, hf, hr, hroom, hne, -, hshape⟩ := h
    have hshape := hshape (by simp)
    rcases hp with rfl | ⟨x, rfl⟩ <;>
      exact ⟨ds, ys, hd, hi, hh, hf, hr, hroom, hne, by simp, fun _ => hshape⟩
  | lockDe hidle =>
    obtain rfl : r = .idle := hidle
    exact ⟨ds, ys, h.setReader (by simp) (by simp) (by simp)⟩
  | write hholds hsafe hact =>
    cases w with
    | testFull x =>
      obtain ⟨rfl, rfl⟩ := Prod.mk.inj (Option.some.inj hact)
      exact ⟨ds, ys, h.testFull⟩
    | advanceRear x =>
      obtain ⟨rfl, rfl⟩ := Prod.mk.inj (Option.some.inj hact)
      exact ⟨ds, ys, h.advanceRear⟩
    | copyIn x =>
      obtain ⟨rfl, rfl⟩ := Prod.mk.inj (Option.some.inj hact)
      exact ⟨ds, _, h.copyIn⟩
    | resetFront =>
      obtain ⟨rfl, rfl⟩ := Prod.mk.inj (Option.some.inj hact)
      exact ⟨ds, _, h.resetFront (hsafe rfl)⟩
    | resetRear =>
      obtain ⟨rfl, rfl⟩ := Prod.mk.inj (Option.some.inj hact)
      exact ⟨ds, ys, h.resetRear⟩
    | unlockEn | unlockAll => simp [Shared.act] at hact
    | idle | testEmpty | advanceFront | copyOut | unlockDe => exact hholds.elim
  | read hholds hsafe hact =>
    cases r with
    | testEmpty =>
      obtain ⟨rfl, rfl⟩ := Prod.mk.inj (Option.some.inj hact)
      exact ⟨ds, ys, h.testEmpty (hsafe.2 rfl)⟩
    | advanceFront =>
      obtain ⟨rfl, rfl⟩ := Prod.mk.inj (Option.some.inj hact)
      exact ⟨ds, ys, h.advanceFront⟩
    | copyOut =>
      obtain ⟨rfl, rfl⟩ := Prod.mk.inj (Option.some.inj hact)
      obtain ⟨d, ys', h'⟩ := h.copyOut (hsafe.1 rfl)
      exact ⟨ds ++ [d], ys', h'⟩
    | unlockDe => simp [Shared.act] at hact
    | idle | testFull | advanceRear | copyIn | resetFront | resetRear | unlockEn | unlockAll =>
      exact hholds.elim
  | unlockEn hpc =>
    rcases hpc with hpc | hpc
    · obtain rfl : w = .unlockEn := hpc
      obtain ⟨hd, hi, hh, hf, hr, hroom, hne, -, hshape⟩ := h
      exact ⟨ds, ys, hd, hi, hh, hf, hr, hroom, hne, by simp, fun _ => hshape (by simp)⟩
    · obtain rfl : w = .unlockAll := hpc
      exact ⟨ds, ys, h.unlockAll⟩
  | unlockDe hpc =>
    obtain rfl : r = .unlockDe := hpc
    exact ⟨ds, ys, h.setReader (by simp) (by simp) (by simp)⟩

theorem lawful {c : Roles α} (h : Good c ds ys) : c.shared.Lawful := by
  have hi := h.items
  refine ⟨ds, h.delivered, (List.pairwise_append.mp hi.sorted).1, fun d hd => ?_⟩
  have hmem : d ∈ ds ++ ys := List.mem_append_left _ hd
  exact ⟨hi.inserted d hmem, (hi.kept d hmem).2⟩

end Good

namespace Threads

variable {Tid : Type*} [DecidableEq Tid] {s : Threads Tid α}

/-- In every run whose actions meet the condition, the elements come out complete, in the order
of insertion, none twice, and none that was discarded. -/
theorem lawful_of_safe (h : (system Safe).Reachable s) : s.shared.Lawful := by
  have hinv : Locks s ∧ ∃ ds ys, Good s.roles ds ys := by
    induction h with
    | init hs =>
      have hlocks := locks_of_reachable (.init hs)
      obtain rfl := hs
      refine ⟨hlocks, [], [], rfl, ⟨.nil, ?_, ?_, ?_⟩,
        Ring.holds_nil _ _ _, Nat.zero_lt_succ _, Nat.zero_lt_succ _, Nat.zero_le _, ?_, ?_,
        fun _ => rfl⟩
      all_goals simp [initial, roles]
    | step hr hstep ih =>
      obtain ⟨hl, ds, ys, hgood⟩ := ih
      exact ⟨hl.step hstep, hgood.step (hstep.roles hl)⟩
  obtain ⟨-, ds, ys, hgood⟩ := hinv
  exact hgood.lawful

/-- A thread removes the first element between the actions of another one that inserts two, and
then the second one. -/
theorem lawful_of_safe_two :
    ∃ s : Threads Bool ℕ, (system Safe).Reachable s ∧
      s.shared.delivered = [some (0, 7), some (1, 8)] ∧ s.shared.Lawful := by
  have hr : (system Safe : TransitionSystem (Threads Bool ℕ)).Reachable _ := .init rfl
  have hr := hr.step (.lockEn false (.testFull 7) rfl rfl (Or.inr ⟨7, rfl⟩))
  have hr := hr.step (.act false (by simp [Safe]) rfl)
  have hr := hr.step (.act false (by simp [Safe, initial]) rfl)
  -- the queue is not empty any more, but the slot is not filled yet
  have hr := hr.step (.lockDe true rfl rfl)
  have hr := hr.step (.act true (by simp [Safe, initial]) rfl)
  have hr := hr.step (.act false (by simp [Safe, initial]) rfl)
  have hr := hr.step (.unlockEn false (Or.inl rfl))
  have hr := hr.step (.act true (by simp [Safe, initial, Shared.unlock]) rfl)
  have hr := hr.step (.lockEn false (.testFull 8) rfl rfl (Or.inr ⟨8, rfl⟩))
  have hr := hr.step (.act false (by simp [Safe, initial, Shared.unlock]) rfl)
  have hr := hr.step (.act false (by simp [Safe, initial, Shared.unlock]) rfl)
  -- the second insertion has advanced too, to another slot
  have hr := hr.step (.act true (by simp [Safe, initial, Shared.unlock]) rfl)
  have hr := hr.step (.act false (by simp [Safe, initial, Shared.unlock]) rfl)
  have hr := hr.step (.unlockDe true rfl)
  have hr := hr.step (.lockDe true rfl rfl)
  have hr := hr.step (.act true (by simp [Safe, initial, Shared.unlock]) rfl)
  have hr := hr.step (.act true (by simp [Safe, initial, Shared.unlock]) rfl)
  have hr := hr.step (.act true (by simp [Safe, initial, Shared.unlock]) rfl)
  exact ⟨_, hr, rfl, lawful_of_safe hr⟩

/-- A thread advances to the slot that another one has not filled yet. -/
theorem not_lawful_unfilled :
    ∃ s : Threads Bool ℕ, (system fun _ _ => True).Reachable s ∧ ¬ s.shared.Lawful := by
  have hr : (system fun _ _ => True : TransitionSystem (Threads Bool ℕ)).Reachable _ := .init rfl
  have hr := hr.step (.lockEn false (.testFull 7) rfl rfl (Or.inr ⟨7, rfl⟩))
  have hr := hr.step (.act false trivial rfl)
  have hr := hr.step (.act false trivial rfl)
  have hr := hr.step (.lockDe true rfl rfl)
  have hr := hr.step (.act true trivial rfl)
  have hr := hr.step (.act true trivial rfl)
  have hr := hr.step (.act true trivial rfl)
  refine ⟨_, hr, ?_⟩
  rintro ⟨ds, hd, -⟩
  have hnone : [none] = ds.map some := hd
  cases ds <;> simp at hnone

end Threads

end Interleaving

end H264Cast
