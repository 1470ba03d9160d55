import H264Cast.Library.Transition
import Mathlib.Data.List.Nodup
import Mathlib.Tactic.TFAE

/-! # Handing a connection to its thread

The TCP receiver accepts connections in a loop and starts a thread for each. The thread is given
the address of the variable that the next connection is stored in, and reads it when it comes to
run. No descriptor is closed. Every connection has a thread that receives from it exactly when
no connection is accepted before the thread of the one before it has read the variable.
-/

namespace H264Cast.TcpReceiver

/-- The loop of `main` and the threads it has created. Each thread sets its `sockFd` from
`newFd`. Between `accept` and `pthread_create` the loop is `creating`. Recorded are the
connections accepted, in their order, and whether so far each thread was created and had set
its variable when the next connection was accepted. -/
structure AcceptLoop where
  newFd : ℕ
  creating : Bool
  sockFds : List (Option ℕ)
  accepted : List ℕ
  calm : Bool

namespace AcceptLoop

/-- The steps of the loop and of its threads. A thread that is created has yet to read the
variable, and nothing looks at the result of `pthread_create`. -/
inductive Step : AcceptLoop → AcceptLoop → Prop
  | accept {c : AcceptLoop} {fd : ℕ} : c.creating = false → fd ∉ c.accepted →
      Step c { c with
        newFd := fd
        creating := true
        accepted := c.accepted ++ [fd]
        calm := c.calm && c.sockFds.all Option.isSome }
  | create {c : AcceptLoop} : c.creating = true →
      Step c { c with creating := false, sockFds := c.sockFds ++ [none] }
  | createFails {c : AcceptLoop} : c.creating = true →
      Step c { c with creating := false, calm := false }
  | start {c : AcceptLoop} (t : ℕ) : c.sockFds[t]? = some none →
      Step c { c with sockFds := c.sockFds.set t (some c.newFd) }

/-- The variable is not initialised. -/
def system : TransitionSystem AcceptLoop where
  init c := c = ⟨c.newFd, false, [], [], true⟩
  step := Step

/-- The loop waits for a connection, and every thread has read the variable. -/
def Settled (c : AcceptLoop) : Prop := c.creating = false ∧ ∀ s ∈ c.sockFds, s.isSome

/-- Each thread has its own connection, but the last one, which may still be on its way. -/
inductive Orderly (c : AcceptLoop) : Prop
  | served : c.creating = false → c.sockFds = c.accepted.map some → Orderly c
  | creating (front : List ℕ) : c.creating = true → c.accepted = front ++ [c.newFd] →
      c.sockFds = front.map some → Orderly c
  | starting (front : List ℕ) : c.creating = false → c.accepted = front ++ [c.newFd] →
      c.sockFds = front.map some ++ [none] → Orderly c

/-- A connection that no thread receives from is not in the variable, or no thread is left to
read it. -/
inductive Lost (c : AcceptLoop) : Prop
  | overwritten {fd : ℕ} : fd ∈ c.accepted → some fd ∉ c.sockFds → fd ≠ c.newFd → Lost c
  | noThread : c.creating = false → (∀ s ∈ c.sockFds, s.isSome) → c.newFd ∈ c.accepted →
      some c.newFd ∉ c.sockFds → Lost c

/-- The connections differ, and the loop is orderly as long as it is calm, and later on a
connection is lost. -/
structure Sound (c : AcceptLoop) : Prop where
  nodup : c.accepted.Nodup
  orderly : c.calm = true → Orderly c
  lost : c.calm = false → Lost c

variable {c c' : AcceptLoop} {fd t : ℕ} {front : List ℕ}

/-- A thread that has not read the variable is not among those that have. -/
theorem none_notMem (front : List ℕ) : none ∉ front.map some := by
  rintro hmem
  obtain ⟨fd, -, heq⟩ := List.mem_map.mp hmem
  cases heq

theorem isSome_of_mem (hs : c.sockFds = front.map some) : ∀ s ∈ c.sockFds, s.isSome := by
  rw [hs, List.forall_mem_map]
  exact fun _ _ => rfl

/-- Only the last thread has not read the variable. -/
theorem eq_length_of_getElem? (h : (front.map some ++ [none])[t]? = some none) :
    t = front.length := by
  obtain ⟨hlt, hget⟩ := List.getElem?_eq_some_iff.mp h
  rw [List.length_append, List.length_map, List.length_singleton] at hlt
  by_contra hne
  rw [List.getElem_append_left (by rw [List.length_map]; omega), List.getElem_map] at hget
  cases hget

/-- The last connection has no thread yet. -/
theorem newFd_notMem (hnodup : c.accepted.Nodup) (hacc : c.accepted = front ++ [c.newFd]) :
    some c.newFd ∉ front.map some := by
  intro hmem
  obtain ⟨fd, hfd, heq⟩ := List.mem_map.mp hmem
  rw [hacc] at hnodup
  exact List.disjoint_of_nodup_append hnodup hfd (by simpa using heq)

theorem newFd_mem (hacc : c.accepted = front ++ [c.newFd]) : c.newFd ∈ c.accepted := by
  rw [hacc]
  exact List.mem_append_right _ List.mem_cons_self

theorem Lost.exists_mem (h : Lost c) : ∃ fd ∈ c.accepted, some fd ∉ c.sockFds := by
  cases h with
  | overwritten hmem hnot _ => exact ⟨_, hmem, hnot⟩
  | noThread _ _ hmem hnot => exact ⟨_, hmem, hnot⟩

/-! ### The steps -/

/-- A connection without a thread is lost when the next one is accepted. -/
theorem lost_accept (h : ∃ fd ∈ c.accepted, some fd ∉ c.sockFds) (hfresh : fd ∉ c.accepted)
    (calm : Bool) :
    Lost { c with newFd := fd, creating := true, accepted := c.accepted ++ [fd], calm } := by
  obtain ⟨fd', hmem, hnot⟩ := h
  refine .overwritten (List.mem_append_left _ hmem) hnot ?_
  rintro rfl
  exact hfresh hmem

theorem Sound.accept (h : Sound c) (hidle : c.creating = false) (hfresh : fd ∉ c.accepted) :
    Sound { c with
      newFd := fd
      creating := true
      accepted := c.accepted ++ [fd]
      calm := c.calm && c.sockFds.all Option.isSome } := by
  refine ⟨?_, fun hcalm => ?_, fun hcalm => lost_accept ?_ hfresh _⟩
  · simpa using h.nodup.concat hfresh
  · obtain ⟨hcalm, hall⟩ := (Bool.and_eq_true _ _).mp hcalm
    cases h.orderly hcalm with
    | served _ hs => exact .creating c.accepted rfl rfl hs
    | creating _ hcreating => exact absurd (hidle.symm.trans hcreating) (by decide)
    | starting front _ _ hs => simp [hs] at hall
  · cases hc : c.calm with
    | false => exact (h.lost hc).exists_mem
    | true =>
      cases h.orderly hc with
      | served _ hs => simp [hc, hs] at hcalm
      | creating _ hcreating => exact absurd (hidle.symm.trans hcreating) (by decide)
      | starting front _ hacc hs =>
        refine ⟨c.newFd, newFd_mem hacc, ?_⟩
        simpa [hs] using newFd_notMem h.nodup hacc

theorem Sound.create (h : Sound c) (hcreating : c.creating = true) :
    Sound { c with creating := false, sockFds := c.sockFds ++ [none] } := by
  refine ⟨h.nodup, fun hcalm => ?_, fun hcalm => ?_⟩
  · cases h.orderly hcalm with
    | served hidle | starting _ hidle => exact absurd (hidle.symm.trans hcreating) (by decide)
    | creating front _ hacc hs => exact .starting front rfl hacc (by rw [hs])
  · cases h.lost hcalm with
    | overwritten hmem hnot hne => exact .overwritten hmem (by simpa using hnot) hne
    | noThread hidle => exact absurd (hidle.symm.trans hcreating) (by decide)

theorem Sound.createFails (h : Sound c) (hcreating : c.creating = true) :
    Sound { c with creating := false, calm := false } := by
  refine ⟨h.nodup, fun hcalm => absurd hcalm Bool.false_ne_true, fun _ => ?_⟩
  cases hc : c.calm with
  | false =>
    cases h.lost hc with
    | overwritten hmem hnot hne => exact .overwritten hmem hnot hne
    | noThread hidle => exact absurd (hidle.symm.trans hcreating) (by decide)
  | true =>
    cases h.orderly hc with
    | served hidle | starting _ hidle => exact absurd (hidle.symm.trans hcreating) (by decide)
    | creating front _ hacc hs =>
      exact .noThread rfl (isSome_of_mem hs) (newFd_mem hacc) (hs ▸ newFd_notMem h.nodup hacc)

theorem Sound.start (h : Sound c) (ht : c.sockFds[t]? = some none) :
    Sound { c with sockFds := c.sockFds.set t (some c.newFd) } := by
  have hnone : none ∈ c.sockFds := List.mem_of_getElem? ht
  refine ⟨h.nodup, fun hcalm => ?_, fun hcalm => ?_⟩
  · cases h.orderly hcalm with
    | served _ hs | creating _ _ _ hs => exact absurd (hs ▸ hnone) (none_notMem _)
    | starting front hidle hacc hs =>
      refine .served hidle ?_
      obtain rfl := eq_length_of_getElem? (hs ▸ ht)
      change c.sockFds.set front.length (some c.newFd) = c.accepted.map some
      rw [hs, hacc, List.set_append_right _ _ (by simp)]
      simp
  · cases h.lost hcalm with
    | overwritten hmem hnot hne =>
      refine .overwritten hmem (fun hset => ?_) hne
      rcases List.mem_or_eq_of_mem_set hset with hmem | heq
      · exact hnot hmem
      · exact hne (Option.some.inj heq)
    | noThread _ hall => exact absurd (hall none hnone) (by decide)

theorem Sound.step (h : Sound c) (hstep : Step c c') : Sound c' := by
  cases hstep with
  | accept hidle hfresh => exact h.accept hidle hfresh
  | create hcreating => exact h.create hcreating
  | createFails hcreating => exact h.createFails hcreating
  | start t ht => exact h.start ht

/-! ### Runs -/

theorem sound_of_reachable (h : system.Reachable c) : Sound c := by
  refine h.invariant (fun c hc => ?_) fun c c' hc hstep => hc.step hstep
  rw [hc]
  constructor
  · exact List.nodup_nil
  · exact fun _ => .served rfl rfl
  · exact fun hcalm => absurd hcalm.symm Bool.false_ne_true

/-- When all threads have read the variable, every connection has a thread that receives from it
exactly when each has its own, and this is the case exactly when each thread was created and
had read the variable when the next connection was accepted. -/
theorem received_tfae (h : system.Reachable c) (hsettled : c.Settled) :
    [∀ fd ∈ c.accepted, some fd ∈ c.sockFds,
      c.sockFds = c.accepted.map some,
      c.calm = true].TFAE := by
  have hsound := sound_of_reachable h
  tfae_have 1 → 3 := by
    intro hall
    by_contra hcalm
    obtain ⟨fd, hmem, hnot⟩ := (hsound.lost (Bool.eq_false_iff.mpr hcalm)).exists_mem
    exact hnot (hall fd hmem)
  tfae_have 3 → 2 := by
    intro hcalm
    cases hsound.orderly hcalm with
    | served _ hs => exact hs
    | creating _ hcreating => exact absurd (hsettled.1.symm.trans hcreating) (by decide)
    | starting front _ _ hs =>
      exact absurd (hsettled.2 none (by simp [hs])) (by decide)
  tfae_have 2 → 1 := by
    intro hs fd hmem
    rw [hs]
    exact List.mem_map_of_mem hmem
  tfae_finish

/-- Two connections come before a thread runs. Both threads then receive from the second. -/
theorem received_tfae_second :
    ∃ c, system.Reachable c ∧ c.Settled ∧ c.accepted = [4, 5] ∧
      c.sockFds = [some 5, some 5] ∧
      [∀ fd ∈ c.accepted, some fd ∈ c.sockFds, c.sockFds = c.accepted.map some,
        c.calm = true].TFAE := by
  have hr : system.Reachable ⟨0, false, [], [], true⟩ := .init rfl
  have hr := hr.step (.accept rfl (List.not_mem_nil : 4 ∉ []))
  have hr := hr.step (.create rfl)
  have hr := hr.step (.accept rfl (by decide : 5 ∉ [4]))
  have hr := hr.step (.create rfl)
  have hr := hr.step (.start 0 rfl)
  have hr := hr.step (.start 1 rfl)
  refine ⟨_, hr, ?_, rfl, rfl, received_tfae hr ?_⟩
  all_goals exact ⟨rfl, by decide⟩

end AcceptLoop

end H264Cast.TcpReceiver
