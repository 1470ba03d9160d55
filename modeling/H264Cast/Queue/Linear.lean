import H264Cast.Queue.Accounting
import H264Cast.Queue.Data

/-! # The interleaved calls in a sequence

In a run that keeps the condition on its actions, each call takes effect at one of them:
inserting and removing when the index is advanced, a call that fails at its test, and
discarding at its first assignment. In the order of these actions the calls are a sequential
run of the queue over its block of bytes, with the same results and the same elements.
-/

namespace H264Cast

namespace Interleaving

variable {s : ℕ}

/-- A call of the queue with its result. -/
abbrev Entry (s : ℕ) := DataQueue.Op s × ℤ

/-- The call that takes effect in an action, if one does. -/
def Shared.effect (sh : Shared (DataQueue.Element s)) : Pc (DataQueue.Element s) → List (Entry s)
  | .testFull x => if (sh.rear + 1) % 3 = sh.front then [(.en x, -1)] else []
  | .advanceRear x => [(.en x, 0)]
  | .testEmpty => if sh.front = sh.rear then [(.de true, -1)] else []
  | .advanceFront => [(.de true, 0)]
  | .resetFront => [(.deAll, 0)]
  | _ => []

/-- The element that a writer has advanced for and not filled in. -/
def Pc.incoming {α : Type*} : Pc α → List α
  | copyIn x => [x]
  | _ => []

/-- The elements to be delivered, from the one that a reader has advanced to on. -/
def coming {α : Type*} (w : Pc α) (ys : List (ℕ × α)) : List α := ys.map Prod.snd ++ w.incoming

theorem Pc.length_incoming {α : Type*} (p : Pc α) : p.incoming.length = p.filling := by
  cases p <;> rfl

variable {α : Type*} {w r : Pc α} {sh sh' : Shared α} {ds ys ys' : List (ℕ × α)} {d : ℕ × α}

theorem length_coming (w : Pc α) (ys : List (ℕ × α)) :
    (coming w ys).length = ys.length + w.filling := by
  rw [coming, List.length_append, List.length_map, Pc.length_incoming]

/-- The element that is copied out was the first one. -/
theorem Good.copyOut_eq (h : Good ⟨w, .copyOut, sh⟩ ds ys)
    (h' : Good ⟨w, .unlockDe, { sh with delivered := sh.delivered ++ [sh.slots sh.front] }⟩
      (ds ++ [d]) ys') : ys = d :: ys' := by
  have hlen := h.length_copyOut h' rfl rfl
  have hds : sh.delivered = ds.map some := h.delivered
  have hdel : sh.delivered ++ [sh.slots sh.front] = (ds ++ [d]).map some := h'.delivered
  have hfront : sh.front < 3 := h.front_lt
  cases ys with
  | nil => simp at hlen
  | cons y zs =>
    have hhead := h.holds.head
    simp only [Pc.taking, Nat.add_sub_cancel] at hhead
    rw [Nat.mod_eq_of_lt hfront] at hhead
    have hd : y = d := by simpa [hds, hhead] using hdel
    have hzs := h.holds.tail.map_range rfl
    have hys := h'.holds.map_range rfl
    simp only [Pc.taking, Nat.add_sub_cancel, Nat.sub_zero, List.length_map] at hzs hys
    rw [Nat.succ.inj hlen, hys] at hzs
    rw [hd, List.map_injective_iff.mpr (fun _ _ => Option.some.inj) hzs]

/-! ### The sequential run -/

open DataQueue (Element Out Op fifoStep)

/-- The calls that have taken effect, in their order, are a sequential run with the results they
return. Its queue holds the elements that no reader has advanced to, and its elements are those
delivered and the one that a reader is about to copy out. -/
structure Linear (c : Roles (Element s)) (log : List (Entry s)) (ds ys : List (ℕ × Element s)) :
    Prop extends Good c ds ys where
  results : (outputs fifoStep [] (log.map Prod.fst)).map Out.ret = log.map Prod.snd
  queue : final fifoStep [] (log.map Prod.fst) = (coming c.writer ys).drop c.reader.taking
  removed : (outputs fifoStep [] (log.map Prod.fst)).filterMap Out.delivered =
    (ds.map Prod.snd ++ (coming c.writer ys).take c.reader.taking).map Subtype.val

namespace Linear

variable {c c' : Roles (Element s)} {log : List (Entry s)} {ds ds' ys ys' : List (ℕ × Element s)}
  {xs : List (Element s)} {op : Op s}

/-- An action in which no call takes effect. -/
theorem silent (h : Linear c log ds ys) (h' : Good c' ds' ys')
    (hqueue : (coming c'.writer ys').drop c'.reader.taking =
      (coming c.writer ys).drop c.reader.taking)
    (hremoved : ds'.map Prod.snd ++ (coming c'.writer ys').take c'.reader.taking =
      ds.map Prod.snd ++ (coming c.writer ys).take c.reader.taking) : Linear c' log ds' ys' :=
  ⟨h', h.results, h.queue.trans hqueue.symm, by rw [hremoved, h.removed]⟩

/-- An action in which a call takes effect. -/
theorem effect (out : Out) (h : Linear c log ds ys) (h' : Good c' ds' ys')
    (hstep : fifoStep ((coming c.writer ys).drop c.reader.taking) op =
      (out, (coming c'.writer ys').drop c'.reader.taking))
    (hremoved : (ds'.map Prod.snd ++ (coming c'.writer ys').take c'.reader.taking).map Subtype.val =
      (ds.map Prod.snd ++ (coming c.writer ys).take c.reader.taking).map Subtype.val ++
        out.delivered.toList) : Linear c' (log ++ [(op, out.ret)]) ds' ys' := by
  have hout : outputs fifoStep (final fifoStep [] (log.map Prod.fst)) [op] = [out] := by
    rw [h.queue, outputs_cons, hstep]
    rfl
  refine ⟨h', ?_, ?_, ?_⟩
  · rw [List.map_append, List.map_append, List.map_singleton, List.map_singleton, outputs_append,
      List.map_append, h.results, hout]
    rfl
  · rw [List.map_append, List.map_singleton, final_append, h.queue, final, hstep]
    rfl
  · rw [List.map_append, List.map_singleton, outputs_append, List.filterMap_append, h.removed, hout,
      hremoved]
    cases hd : out.delivered <;> simp [hd]

/-! ### The actions of a writer -/

variable {w r p : Pc (Element s)} {sh sh' : Shared (Element s)} {x : Element s}

theorem fifoStep_en_of_lt (h : xs.length < 2) (x : Element s) :
    fifoStep xs (.en x) = (⟨0, none⟩, xs ++ [x]) := by
  have hlt : xs.length < maxDataSequeue - 1 := h
  simp only [fifoStep, Fifo.push, if_pos hlt]

theorem fifoStep_en_of_ge (h : 2 ≤ xs.length) (x : Element s) :
    fifoStep xs (.en x) = (⟨-1, none⟩, xs) := by
  have hge : ¬ xs.length < maxDataSequeue - 1 := Nat.not_lt.mpr h
  simp only [fifoStep, Fifo.push, if_neg hge]

theorem testFull (h : Linear ⟨.testFull x, r, sh⟩ log ds ys) :
    Linear ⟨if (sh.rear + 1) % 3 = sh.front then .unlockEn else .advanceRear x, r, sh⟩
      (log ++ sh.effect (.testFull x)) ds ys := by
  have hgood := h.toGood.testFull
  change Linear _ (log ++ if (sh.rear + 1) % 3 = sh.front then [(.en x, -1)] else []) ds ys
  split_ifs at hgood ⊢ with hfull
  · have hlen := h.toGood.length_eq (by simp)
    have hcoming := length_coming (.testFull x : Pc (Element s)) ys
    have hrear : sh.rear < 3 := h.rear_lt
    simp only [Pc.filling] at hlen hcoming
    refine h.effect ⟨-1, none⟩ hgood (fifoStep_en_of_ge ?_ x) (List.append_nil _).symm
    dsimp only
    rw [List.length_drop]
    omega
  · rw [List.append_nil]
    exact h.silent hgood rfl rfl

theorem advanceRear (h : Linear ⟨.advanceRear x, r, sh⟩ log ds ys) :
    Linear ⟨.copyIn x, r, { sh with rear := (sh.rear + 1) % 3 }⟩
      (log ++ sh.effect (.advanceRear x)) ds ys := by
  have hcoming : coming (.copyIn x) ys = coming (.advanceRear x : Pc (Element s)) ys ++ [x] := by
    simp [coming, Pc.incoming]
  have hlen := length_coming (.advanceRear x : Pc (Element s)) ys
  have hroom := h.room
  have hle : r.taking ≤ ys.length := by
    by_cases hcopy : r = .copyOut
    · have hne := h.nonempty (Or.inr hcopy)
      have ht := r.taking_le
      simp only [Pc.filling] at hne
      omega
    · rw [Pc.taking_of_ne hcopy]
      exact Nat.zero_le _
  simp only [Pc.filling, Pc.granted] at hroom hlen
  have hle' : r.taking ≤ (coming (.advanceRear x) ys).length := by omega
  refine h.effect ⟨0, none⟩ h.toGood.advanceRear ?_ ?_
  · dsimp only
    rw [fifoStep_en_of_lt (by rw [List.length_drop]; omega), hcoming,
      List.drop_append_of_le_length hle']
  · dsimp only
    rw [hcoming, List.take_append_of_le_length hle']
    exact (List.append_nil _).symm

theorem copyIn (h : Linear ⟨.copyIn x, r, sh⟩ log ds ys) :
    ∃ ys', Linear ⟨.unlockEn, r, { sh with
        slots := sh.slots.write sh.rear [some (sh.inserted.length, x)]
        inserted := sh.inserted ++ [x] }⟩ (log ++ sh.effect (.copyIn x)) ds ys' := by
  have hcoming : coming .unlockEn (ys ++ [(sh.inserted.length, x)]) = coming (.copyIn x) ys := by
    simp [coming, Pc.incoming]
  rw [show sh.effect (.copyIn x) = [] from rfl, List.append_nil]
  exact ⟨_, h.silent h.toGood.copyIn (by rw [hcoming]) (by rw [hcoming])⟩

theorem resetFront (h : Linear ⟨.resetFront, r, sh⟩ log ds ys)
    (hs : Roles.SafeReset ⟨.resetFront, r, sh⟩) :
    Linear ⟨.resetRear, r, { sh with
        front := 0
        discarding := sh.stored.filterMap (Option.map Prod.fst) }⟩
      (log ++ sh.effect .resetFront) ds (ys.take r.taking) := by
  have hcoming : coming (.resetRear : Pc (Element s)) (ys.take r.taking) =
      (coming .resetFront ys).take r.taking := by
    simp [coming, Pc.incoming]
  refine h.effect ⟨0, none⟩ (h.toGood.resetFront hs) ?_ ?_
  · rw [hcoming, List.drop_take_self]
    rfl
  · rw [hcoming, List.take_take, Nat.min_self]
    exact (List.append_nil _).symm

/-- An action of a writer. -/
theorem write (h : Linear ⟨w, r, sh⟩ log ds ys) (hholds : w.HoldsEn)
    (hs : w = .resetFront → Roles.SafeReset ⟨w, r, sh⟩) (hact : sh.act w = some (p, sh')) :
    ∃ ys', Linear ⟨p, r, sh'⟩ (log ++ sh.effect w) ds ys' := by
  cases w with
  | testFull x =>
    obtain ⟨rfl, rfl⟩ := Prod.mk.inj (Option.some.inj hact)
    exact ⟨ys, h.testFull⟩
  | advanceRear x =>
    obtain ⟨rfl, rfl⟩ := Prod.mk.inj (Option.some.inj hact)
    exact ⟨ys, h.advanceRear⟩
  | copyIn x =>
    obtain ⟨rfl, rfl⟩ := Prod.mk.inj (Option.some.inj hact)
    exact h.copyIn
  | resetFront =>
    obtain ⟨rfl, rfl⟩ := Prod.mk.inj (Option.some.inj hact)
    exact ⟨_, h.resetFront (hs rfl)⟩
  | resetRear =>
    obtain ⟨rfl, rfl⟩ := Prod.mk.inj (Option.some.inj hact)
    rw [show sh.effect .resetRear = [] from rfl, List.append_nil]
    exact ⟨ys, h.silent h.toGood.resetRear rfl rfl⟩
  | unlockEn | unlockAll => simp [Shared.act] at hact
  | idle | testEmpty | advanceFront | copyOut | unlockDe => exact hholds.elim

/-! ### The actions of a reader -/

theorem testEmpty (h : Linear ⟨w, .testEmpty, sh⟩ log ds ys)
    (hs : w = .resetRear → sh.front = sh.rear) :
    Linear ⟨w, if sh.front = sh.rear then .unlockDe else .advanceFront, sh⟩
      (log ++ sh.effect .testEmpty) ds ys := by
  have hgood := h.toGood.testEmpty hs
  change Linear _ (log ++ if sh.front = sh.rear then [(.de true, -1)] else []) ds ys
  split_ifs at hgood ⊢ with hempty
  · have hlen := length_coming w ys
    have hcoming : coming w ys = [] := by
      rw [← List.length_eq_zero_iff, hlen]
      by_cases hw : w = .resetRear
      · subst hw
        rw [(h.between rfl).2.1]
        rfl
      · have hcount := h.toGood.length_eq hw
        simp only [Pc.taking, hempty] at hcount
        omega
    refine h.effect ⟨-1, none⟩ hgood ?_ (List.append_nil _).symm
    simp only [hcoming, List.drop_nil]
    rfl
  · rw [List.append_nil]
    exact h.silent hgood rfl rfl

theorem advanceFront (h : Linear ⟨w, .advanceFront, sh⟩ log ds ys) :
    Linear ⟨w, .copyOut, { sh with front := (sh.front + 1) % 3 }⟩
      (log ++ sh.effect .advanceFront) ds ys := by
  have hne := h.nonempty (Or.inl rfl)
  have hlen := length_coming w ys
  obtain ⟨x, xs, hcoming⟩ := List.exists_cons_of_length_pos (Nat.lt_of_lt_of_eq hne hlen.symm)
  refine h.effect ⟨0, some x.1⟩ h.toGood.advanceFront ?_ ?_
  · simp [hcoming, Pc.taking, fifoStep, Fifo.pop]
  · simp [hcoming, Pc.taking]

theorem copyOut (h : Linear ⟨w, .copyOut, sh⟩ log ds ys)
    (hs : ∀ x, w = .copyIn x → sh.rear ≠ sh.front) :
    ∃ ds' ys', Linear
      ⟨w, .unlockDe, { sh with delivered := sh.delivered ++ [sh.slots sh.front] }⟩
      (log ++ sh.effect .copyOut) ds' ys' := by
  obtain ⟨d, ys', hgood⟩ := h.toGood.copyOut hs
  obtain rfl := h.toGood.copyOut_eq hgood
  rw [show sh.effect .copyOut = [] from rfl, List.append_nil]
  refine ⟨_, _, h.silent hgood ?_ ?_⟩
  · simp [coming, Pc.taking]
  · simp [coming, Pc.taking]

/-- An action of a reader. -/
theorem read (h : Linear ⟨w, r, sh⟩ log ds ys) (hholds : r.HoldsDe)
    (hs : Roles.SafeRead ⟨w, r, sh⟩) (hact : sh.act r = some (p, sh')) :
    ∃ ds' ys', Linear ⟨w, p, sh'⟩ (log ++ sh.effect r) ds' ys' := by
  cases r with
  | testEmpty =>
    obtain ⟨rfl, rfl⟩ := Prod.mk.inj (Option.some.inj hact)
    exact ⟨ds, ys, h.testEmpty (hs.2 rfl)⟩
  | advanceFront =>
    obtain ⟨rfl, rfl⟩ := Prod.mk.inj (Option.some.inj hact)
    exact ⟨ds, ys, h.advanceFront⟩
  | copyOut =>
    obtain ⟨rfl, rfl⟩ := Prod.mk.inj (Option.some.inj hact)
    exact h.copyOut (hs.1 rfl)
  | unlockDe => simp [Shared.act] at hact
  | idle | testFull | advanceRear | copyIn | resetFront | resetRear | unlockEn | unlockAll =>
    exact hholds.elim

/-! ### The locks -/

theorem lockEn (h : Linear ⟨.idle, r, sh⟩ log ds ys)
    (hp : p = .resetFront ∨ ∃ x, p = .testFull x) : Linear ⟨p, r, sh⟩ log ds ys := by
  rcases hp with rfl | ⟨x, rfl⟩
  · exact h.silent (h.setWriter (by simp) (by simp) rfl rfl) rfl rfl
  · exact h.silent (h.setWriter (by simp) (by simp) rfl rfl) rfl rfl

theorem lockDe (h : Linear ⟨w, .idle, sh⟩ log ds ys) : Linear ⟨w, .testEmpty, sh⟩ log ds ys :=
  h.silent (h.setReader (by simp) (by simp) (by simp)) rfl rfl

theorem unlockEn (h : Linear ⟨w, r, sh⟩ log ds ys) (hw : w = .unlockEn ∨ w = .unlockAll) :
    Linear ⟨.idle, r, sh.unlock w⟩ log ds ys := by
  rcases hw with rfl | rfl
  · exact h.silent (h.setWriter (by simp) (by simp) rfl rfl) rfl rfl
  · exact h.silent h.unlockAll rfl rfl

theorem unlockDe (h : Linear ⟨w, .unlockDe, sh⟩ log ds ys) : Linear ⟨w, .idle, sh⟩ log ds ys :=
  h.silent (h.setReader (by simp) (by simp) (by simp)) rfl rfl

end Linear

namespace Threads

variable {Tid : Type*} [DecidableEq Tid]

/-- The steps of the threads, with the calls that have taken effect and their results. -/
inductive LoggedStep :
    Threads Tid (Element s) × List (Entry s) → Threads Tid (Element s) × List (Entry s) → Prop
  | act {c : Threads Tid (Element s)} {log : List (Entry s)} (t : Tid) {p : Pc (Element s)}
      {sh : Shared (Element s)} : Safe c t → c.shared.act (c.pc t) = some (p, sh) →
      LoggedStep (c, log) ({ c with pc := Function.update c.pc t p, shared := sh },
        log ++ c.shared.effect (c.pc t))
  | lock {c c' : Threads Tid (Element s)} {log : List (Entry s)} : Step (fun _ _ => False) c c' →
      LoggedStep (c, log) (c', log)

/-- The runs that keep the condition, with the calls that have taken effect. -/
def logged : TransitionSystem (Threads Tid (Element s) × List (Entry s)) where
  init cl := cl = (initial, [])
  step := LoggedStep

variable {c c' : Threads Tid (Element s)} {log log' : List (Entry s)}
  {ds ys : List (ℕ × Element s)}

theorem LoggedStep.step (h : LoggedStep (c, log) (c', log')) : Step Safe c c' := by
  cases h with
  | act t hok hact => exact .act t hok hact
  | lock h =>
    cases h with
    | lockEn t p hidle hfree hp => exact .lockEn t p hidle hfree hp
    | lockDe t hidle hfree => exact .lockDe t hidle hfree
    | act t hok => exact hok.elim
    | unlockEn t hpc => exact .unlockEn t hpc
    | unlockDe t hpc => exact .unlockDe t hpc

theorem locks_of_logged (h : logged.Reachable (c, log)) : Locks c := by
  have hr : (system Safe).Reachable c := by
    refine h.map Prod.fst ?_ fun _ _ hstep => Or.inl hstep.step
    rintro _ rfl
    rfl
  exact locks_of_reachable hr

/-- No call takes effect when a lock is taken or released. -/
theorem linear_lock (hl : Locks c) (h : Step (fun _ _ => False) c c')
    (hlin : Linear c.roles log ds ys) : Linear c'.roles log ds ys := by
  cases h with
  | lockEn t p hidle hfree hp =>
    have hde := hl.not_de (t := t) (by rw [hidle]; exact id)
    have hlin : Linear ⟨.idle, c.roles.reader, c.shared⟩ log ds ys := by
      simpa [roles, hfree] using hlin
    simpa [roles, elim_update hde] using hlin.lockEn hp
  | lockDe t hidle hfree =>
    have hen := hl.not_en (t := t) (by rw [hidle]; exact id)
    have hlin : Linear ⟨c.roles.writer, .idle, c.shared⟩ log ds ys := by
      simpa [roles, hfree] using hlin
    simpa [roles, elim_update hen] using hlin.lockDe
  | act t hok => exact hok.elim
  | unlockEn t hpc =>
    have hholds : (c.pc t).HoldsEn ∧ ¬ (c.pc t).HoldsDe := by
      rcases hpc with hpc | hpc <;> simp [hpc, Pc.HoldsEn, Pc.HoldsDe]
    have hen := (hl.en t).mp hholds.1
    have hde := hl.not_de hholds.2
    have hlin : Linear ⟨c.pc t, c.roles.reader, c.shared⟩ log ds ys := by
      simpa [roles, hen] using hlin
    simpa [roles, elim_update hde] using hlin.unlockEn hpc
  | unlockDe t hpc =>
    have hde := (hl.de t).mp (by simp [hpc, Pc.HoldsDe])
    have hen := hl.not_en (t := t) (by simp [hpc, Pc.HoldsEn])
    have hlin : Linear ⟨c.roles.writer, .unlockDe, c.shared⟩ log ds ys := by
      simpa [roles, hde, hpc] using hlin
    simpa [roles, elim_update hen] using hlin.unlockDe

theorem linear_of_logged {c : Threads Tid (Element s)} {log : List (Entry s)}
    (h : logged.Reachable (c, log)) : ∃ ds ys, Linear c.roles log ds ys := by
  suffices hinv : ∀ cl, logged.Reachable cl →
      ∃ ds ys, Linear (cl : Threads Tid (Element s) × List (Entry s)).1.roles cl.2 ds ys from
    hinv _ h
  intro cl h
  induction h with
  | init h =>
    obtain rfl := h
    exact ⟨[], [], good_initial, rfl, rfl, rfl⟩
  | step hr hstep ih =>
    obtain ⟨ds, ys, hlin⟩ := ih
    have hl := locks_of_logged hr
    cases hstep with
    | lock h => exact ⟨ds, ys, linear_lock hl h hlin⟩
    | @act c log t p sh hok hact =>
      rcases Shared.act_holds hact with ⟨hp, hp', -, -⟩ | ⟨hp, hp', -, -⟩
      · have hen := (hl.en t).mp hp
        rw [roles_update_en hen (hl.not_de hp'), ← roles_writer hen]
        rw [← roles_writer hen] at hact hp
        obtain ⟨ys', h'⟩ := hlin.write hp
          (fun hw => hok.safeReset ((roles_writer hen).symm.trans hw)) hact
        exact ⟨ds, ys', h'⟩
      · have hde := (hl.de t).mp hp
        rw [roles_update_de hde (hl.not_en hp'), ← roles_reader hde]
        rw [← roles_reader hde] at hact hp
        exact hlin.read hp (hok.safeRead hde) hact

/-- In every run whose actions meet the condition the calls, in the order in which they take
effect, are a sequential run of a queue just created: it gives the results that the calls
return, and the elements it removes are those delivered and the one, if any, that a reader is
about to copy out. -/
theorem sequential_of_logged {q : DataQueue} {data : Option (Memory Byte)}
    (hq : DataQueue.createEmptyDataSequeue s data = some q) (h : logged.Reachable (c, log)) :
    ∃ outs q', run DataQueue.step q (log.map Prod.fst) = some (outs, q') ∧
      outs.map Out.ret = log.map Prod.snd ∧
      ∃ (ds : List (ℕ × Element s)) (rest : List (List Byte)),
        c.shared.delivered = ds.map some ∧
        outs.filterMap Out.delivered = (ds.map fun d => d.2.1) ++ rest ∧
        (rest = [] ∨ rest.length = 1 ∧ ∃ t, c.pc t = .copyOut) := by
  obtain ⟨ds, ys, hlin⟩ := linear_of_logged h
  obtain ⟨q', hrun, -⟩ := run_of_simulation (R := DataQueue.Represents)
    (fun q xs op h => by
      obtain ⟨q', hstep, hq', -⟩ := h.step op
      exact ⟨q', hstep, hq'⟩)
    (DataQueue.represents_create hq) (log.map Prod.fst)
  refine ⟨_, q', hrun, hlin.results, ds,
    ((coming c.roles.writer ys).take c.roles.reader.taking).map Subtype.val, hlin.delivered, ?_, ?_⟩
  · rw [hlin.removed, List.map_append, List.map_map]
    rfl
  · by_cases hcopy : c.roles.reader = .copyOut
    · have hne := hlin.nonempty (Or.inr hcopy)
      have hlen := length_coming c.roles.writer ys
      refine Or.inr ⟨?_, exists_of_reader hcopy (by simp)⟩
      rw [List.length_map, List.length_take, hcopy, Pc.taking]
      omega
    · rw [Pc.taking_of_ne hcopy]
      exact Or.inl rfl

/-- A thread removes the element that another one has not filled in yet. -/
theorem sequential_of_logged_two :
    ∃ q, DataQueue.createEmptyDataSequeue 1 (some fun _ => 0x55) = some q ∧
      ∃ c : Threads Bool (Element 1),
        logged.Reachable (c, [(.en ⟨[7], rfl⟩, 0), (.de true, 0)]) ∧
        ∃ outs q', run DataQueue.step q [.en ⟨[7], rfl⟩, .de true] = some (outs, q') ∧
          outs.map Out.ret = [0, 0] ∧
          ∃ (ds : List (ℕ × Element 1)) (rest : List (List Byte)),
            c.shared.delivered = ds.map some ∧
            outs.filterMap Out.delivered = (ds.map fun d => d.2.1) ++ rest ∧
            (rest = [] ∨ rest.length = 1 ∧ ∃ t, c.pc t = .copyOut) := by
  have hq : DataQueue.createEmptyDataSequeue 1 (some fun _ => 0x55) = some _ := rfl
  have hr : (logged : TransitionSystem (Threads Bool (Element 1) × List (Entry 1))).Reachable _ :=
    .init rfl
  have hr := hr.step (.lock (.lockEn false (.testFull ⟨[7], rfl⟩) rfl rfl (Or.inr ⟨_, rfl⟩)))
  have hr := hr.step (.act false (by simp [Safe]) rfl)
  have hr := hr.step (.act false (by simp [Safe, initial]) rfl)
  have hr := hr.step (.lock (.lockDe true rfl rfl))
  have hr := hr.step (.act true (by simp [Safe, initial]) rfl)
  have hr := hr.step (.act true (by simp [Safe, initial]) rfl)
  have hr := hr.step (.act false (by simp [Safe, initial]) rfl)
  have hr := hr.step (.act true (by simp [Safe, initial]) rfl)
  exact ⟨_, hq, _, hr, sequential_of_logged hq hr⟩

end Threads

end Interleaving

end H264Cast
