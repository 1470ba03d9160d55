import H264Cast.Library.Transition
import H264Cast.Socket.Listen

/-! # The descriptors of a program

The functions that make a TCP connection close the socket again wherever they fail. In a
program that uses them no descriptor is lost: what is open was returned to the program, which
has not closed it. The listening socket is kept on the side and may be returned closed.
-/

namespace H264Cast.Listen

/-- What `connect` does. When it goes on in the background, `select` may find the socket ready,
and an error may be found then. -/
inductive Connecting
  | connected
  | failed
  | inProgress (ready error : Bool)

/-- What `accept` does. A connection that was aborted makes the call be repeated. -/
inductive Accepting
  | accepted (fd : Descriptor)
  | aborted
  | failed

/-- A port that is not valid is not asked for. -/
def sourcePort (srcPort : ℤ) : ℤ := if srcPort < 0 ∨ srcPort > 65536 then 0 else srcPort

def commTcpNobolockConnect (s : State) (call : Call) (dstPort : ℤ) (connecting : Connecting) :
    ℤ × State :=
  if dstPort < 0 ∨ dstPort > 65536 then (-1, s)
  else
    let (fd, s) := commIsocketCreat s { call with port := sourcePort call.port }
    if fd < 0 then (-1, s)
    else
      match connecting with
      | .connected => (fd, s)
      | .failed => (-1, s.close fd)
      | .inProgress ready error => if ready ∧ ¬ error then (fd, s) else (-1, s.close fd)

/-- The socket does not block, so that a connection in progress is given up. -/
def commTcpConnect (s : State) (call : Call) (dstPort : ℤ) (connecting : Connecting) :
    ℤ × State :=
  if dstPort < 0 ∨ dstPort > 65536 then (-1, s)
  else
    let (fd, s) := commIsocketCreat s { call with port := sourcePort call.port }
    if fd < 0 then (-1, s)
    else
      match connecting with
      | .connected => (fd, s)
      | _ => (-1, s.close fd)

def commTcpCreate (s : State) (call : Call) : ℤ × State :=
  if call.port < 0 ∨ call.port > 65536 then (-1, s)
  else
    let (fd, s) := commIsocketCreat s call
    if fd < 0 then (-1, s)
    else if ¬ call.listen then (-1, s.close fd)
    else (fd, { s with listening := insert fd s.listening })

/-- There is no result when the outcomes are used up. -/
def commTcpAccept (s : State) : List Accepting → Option (ℤ × State)
  | [] => none
  | .accepted fd :: _ => some (fd, { s with opened := insert fd.1 s.opened })
  | .aborted :: as => commTcpAccept s as
  | .failed :: _ => some (-1, s)

def commTcpNoblockAccept (s : State) (fd : ℤ) (ready : Bool) (as : List Accepting) :
    Option (ℤ × State) :=
  if fd ≤ 0 then some (-1, s) else if ready then commTcpAccept s as else some (-1, s)

def commSocketClose (s : State) (fd : ℤ) : State := if fd < 0 then s else s.close fd

/-- A call that may return a descriptor. -/
inductive Request
  | nobolockConnect (call : Call) (dstPort : ℤ) (connecting : Connecting)
  | connect (call : Call) (dstPort : ℤ) (connecting : Connecting)
  | create (call : Call)
  | listen (call : Call)
  | accept (as : List Accepting)
  | noblockAccept (fd : ℤ) (ready : Bool) (as : List Accepting)

def Request.perform (s : State) : Request → Option (ℤ × State)
  | nobolockConnect call dstPort connecting =>
    some (commTcpNobolockConnect s call dstPort connecting)
  | connect call dstPort connecting => some (commTcpConnect s call dstPort connecting)
  | create call => some (commTcpCreate s call)
  | listen call => some (commTcpListen s call)
  | accept as => commTcpAccept s as
  | noblockAccept fd ready as => commTcpNoblockAccept s fd ready as

/-- The descriptors that the system gives are not open. -/
def Request.Fresh (s : State) : Request → Prop
  | nobolockConnect call _ _ | connect call _ _ | create call | listen call =>
    ∀ fd ∈ call.socket, fd.1 ∉ s.opened
  | accept as | noblockAccept _ _ as => ∀ fd, .accepted fd ∈ as → fd.1 ∉ s.opened

/-- The sockets, and the descriptors that the program was given and has not closed. -/
structure Program where
  sockets : State
  kept : Finset ℤ

inductive Program.Step (allowed : Request → Prop) : Program → Program → Prop
  | request {c : Program} {q : Request} {r : ℤ} {s : State} : allowed q → q.Fresh c.sockets →
      q.perform c.sockets = some (r, s) →
        Step allowed c ⟨s, if 0 ≤ r then insert r c.kept else c.kept⟩
  | close {c : Program} {fd : ℤ} : fd ∈ c.kept →
      Step allowed c ⟨commSocketClose c.sockets fd, c.kept.erase fd⟩

/-- A call opens a descriptor and returns it, or leaves open what was open. -/
inductive Makes (s : State) : ℤ × State → Prop
  | nothing {s' : State} : s'.opened = s.opened → Makes s (-1, s')
  | descriptor {fd : ℤ} {s' : State} : 0 ≤ fd → fd ∉ s.opened → s'.opened = insert fd s.opened →
      Makes s (fd, s')

variable {s s' : State} {call : Call} {r dstPort fd : ℤ} {connecting : Connecting}
  {as : List Accepting} {q : Request} {c c' : Program} {allowed : Request → Prop}

/-! ### One call -/

theorem makes_refl (s : State) : Makes s (-1, s) := .nothing rfl

/-- A socket that is given up is closed. -/
theorem makes_close (hnew : fd ∉ s.opened) (hs : s'.opened = insert fd s.opened) :
    Makes s (-1, s'.close fd) := by
  refine .nothing ?_
  rw [State.close, hs, Finset.erase_insert hnew]

theorem makes_commIsocketCreat (hfresh : ∀ fd ∈ call.socket, fd.1 ∉ s.opened) :
    Makes s (commIsocketCreat s call) := by
  unfold commIsocketCreat
  cases hsocket : call.socket with
  | none => exact makes_refl s
  | some fd =>
    have hnew : fd.1 ∉ s.opened := hfresh fd hsocket
    dsimp only
    split_ifs
    · exact .descriptor fd.2.le hnew rfl
    · exact makes_close hnew rfl
    · exact makes_close hnew rfl
    · exact makes_close hnew rfl

theorem Makes.congr {r : ℤ × State} {t : State} (h : Makes s r) (ht : t.opened = r.2.opened) :
    Makes s (r.1, t) := by
  cases h with
  | nothing hs => exact .nothing (ht.trans hs)
  | descriptor hnonneg hnew hs => exact .descriptor hnonneg hnew (ht.trans hs)

/-- A new socket is returned. -/
theorem Makes.keep {r : ℤ × State} {t : State} (h : Makes s r) (ht : t.opened = r.2.opened) :
    Makes s (if r.1 < 0 then (-1, r.2) else (r.1, t)) := by
  cases h with
  | nothing hs => exact .nothing hs
  | descriptor hnonneg hnew hs =>
    rw [if_neg (Int.not_lt.mpr hnonneg)]
    exact .descriptor hnonneg hnew (ht.trans hs)

/-- A new socket is closed, since a later call fails. -/
theorem Makes.giveUp {r : ℤ × State} (h : Makes s r) :
    Makes s (if r.1 < 0 then (-1, r.2) else (-1, r.2.close r.1)) := by
  cases h with
  | nothing hs => exact .nothing hs
  | descriptor hnonneg hnew hs =>
    rw [if_neg (Int.not_lt.mpr hnonneg)]
    exact makes_close hnew hs

theorem makes_commTcpNobolockConnect (hfresh : ∀ fd ∈ call.socket, fd.1 ∉ s.opened) :
    Makes s (commTcpNobolockConnect s call dstPort connecting) := by
  have hmakes : Makes s (commIsocketCreat s { call with port := sourcePort call.port }) :=
    makes_commIsocketCreat hfresh
  unfold commTcpNobolockConnect
  split_ifs
  · exact makes_refl s
  · cases connecting with
    | connected => exact hmakes.keep rfl
    | failed => exact hmakes.giveUp
    | inProgress ready error =>
      by_cases hready : ready ∧ ¬ error
      · simp only [if_pos hready]
        exact hmakes.keep rfl
      · simp only [if_neg hready]
        exact hmakes.giveUp

theorem makes_commTcpConnect (hfresh : ∀ fd ∈ call.socket, fd.1 ∉ s.opened) :
    Makes s (commTcpConnect s call dstPort connecting) := by
  have hmakes : Makes s (commIsocketCreat s { call with port := sourcePort call.port }) :=
    makes_commIsocketCreat hfresh
  unfold commTcpConnect
  split_ifs
  · exact makes_refl s
  · cases connecting with
    | connected => exact hmakes.keep rfl
    | failed | inProgress => exact hmakes.giveUp

theorem makes_commTcpCreate (hfresh : ∀ fd ∈ call.socket, fd.1 ∉ s.opened) :
    Makes s (commTcpCreate s call) := by
  have hmakes := makes_commIsocketCreat hfresh
  unfold commTcpCreate
  by_cases hport : call.port < 0 ∨ call.port > 65536
  · rw [if_pos hport]
    exact makes_refl s
  · rw [if_neg hport]
    by_cases hlisten : call.listen
    · simp only [if_neg (not_not_intro hlisten)]
      exact hmakes.keep rfl
    · simp only [if_pos hlisten]
      exact hmakes.giveUp

/-- The listening socket that is kept is returned once more. -/
theorem makes_commTcpListen (hfresh : ∀ fd ∈ call.socket, fd.1 ∉ s.opened) :
    (s.gRtspSocket > 0 ∧ commTcpListen s call = (s.gRtspSocket, s)) ∨
      Makes s (commTcpListen s call) := by
  by_cases hkept : s.gRtspSocket > 0
  · exact Or.inl ⟨hkept, commTcpListen_of_pos hkept⟩
  have hmakes : Makes s ((commIsocketCreat s call).1,
      { (commIsocketCreat s call).2 with gRtspSocket := (commIsocketCreat s call).1 }) :=
    (makes_commIsocketCreat hfresh).congr rfl
  right
  unfold commTcpListen
  rw [if_neg hkept]
  by_cases hport : call.port < 0 ∨ call.port > 65536
  · rw [if_pos hport]
    exact makes_refl s
  · rw [if_neg hport]
    by_cases hlisten : call.listen
    · simp only [if_neg (not_not_intro hlisten)]
      exact hmakes.keep rfl
    · simp only [if_pos hlisten]
      exact hmakes.giveUp

theorem makes_commTcpAccept (hfresh : ∀ fd, .accepted fd ∈ as → fd.1 ∉ s.opened)
    (h : commTcpAccept s as = some (r, s')) : Makes s (r, s') := by
  induction as with
  | nil => cases h
  | cons a as ih =>
    cases a with
    | accepted fd =>
      obtain ⟨rfl, rfl⟩ := Prod.mk.inj (Option.some.inj h)
      exact .descriptor fd.2.le (hfresh fd List.mem_cons_self) rfl
    | aborted => exact ih (fun fd hfd => hfresh fd (List.mem_cons_of_mem _ hfd)) h
    | failed =>
      obtain ⟨rfl, rfl⟩ := Prod.mk.inj (Option.some.inj h)
      exact makes_refl s

theorem makes_commTcpNoblockAccept {ready : Bool}
    (hfresh : ∀ fd, .accepted fd ∈ as → fd.1 ∉ s.opened)
    (h : commTcpNoblockAccept s fd ready as = some (r, s')) : Makes s (r, s') := by
  unfold commTcpNoblockAccept at h
  split_ifs at h
  · obtain ⟨rfl, rfl⟩ := Prod.mk.inj (Option.some.inj h)
    exact makes_refl s
  · exact makes_commTcpAccept hfresh h
  · obtain ⟨rfl, rfl⟩ := Prod.mk.inj (Option.some.inj h)
    exact makes_refl s

/-- Only the listening socket is returned without being opened. -/
theorem Request.makes (hfresh : q.Fresh s) (h : q.perform s = some (r, s')) :
    Makes s (r, s') ∨ (∃ call, q = .listen call) ∧ 0 ≤ r ∧ s' = s := by
  cases q with
  | nobolockConnect call dstPort connecting =>
    exact Or.inl (Option.some.inj h ▸ makes_commTcpNobolockConnect hfresh)
  | connect call dstPort connecting =>
    exact Or.inl (Option.some.inj h ▸ makes_commTcpConnect hfresh)
  | create call => exact Or.inl (Option.some.inj h ▸ makes_commTcpCreate hfresh)
  | listen call =>
    have hr := Option.some.inj h
    rcases makes_commTcpListen hfresh with ⟨hkept, hlisten⟩ | hmakes
    · obtain ⟨rfl, rfl⟩ := Prod.mk.inj (hlisten.symm.trans hr)
      exact Or.inr ⟨⟨call, rfl⟩, hkept.le, rfl⟩
    · exact Or.inl (hr ▸ hmakes)
  | accept as => exact Or.inl (makes_commTcpAccept hfresh h)
  | noblockAccept fd ready as => exact Or.inl (makes_commTcpNoblockAccept hfresh h)

/-! ### Runs -/

theorem opened_commSocketClose (hs : ∀ fd ∈ s.opened, 0 ≤ fd) (fd : ℤ) :
    (commSocketClose s fd).opened = s.opened.erase fd := by
  unfold commSocketClose
  split_ifs with hneg
  · rw [Finset.erase_eq_of_notMem]
    intro hmem
    exact absurd hneg (Int.not_lt.mpr (hs fd hmem))
  · rfl

/-- Only descriptors are open, and the program has been given all of them. -/
structure Accounted (c : Program) : Prop where
  nonneg : ∀ fd ∈ c.sockets.opened, 0 ≤ fd
  kept : c.sockets.opened ⊆ c.kept

theorem Accounted.step (h : Accounted c) (hstep : c.Step allowed c') : Accounted c' := by
  cases hstep with
  | @request q r s _ hfresh hperform =>
    rcases Request.makes hfresh hperform with hmakes | ⟨-, hr, rfl⟩
    · cases hmakes with
      | nothing hs => exact ⟨fun fd hfd => h.nonneg fd (hs ▸ hfd), hs ▸ h.kept⟩
      | descriptor hnonneg hnew hs =>
        rw [if_pos hnonneg]
        constructor
        · intro fd hfd
          rw [hs, Finset.mem_insert] at hfd
          rcases hfd with rfl | hfd
          · exact hnonneg
          · exact h.nonneg fd hfd
        · rw [hs]
          exact Finset.insert_subset_insert _ h.kept
    · rw [if_pos hr]
      exact ⟨h.nonneg, h.kept.trans (Finset.subset_insert _ _)⟩
  | @close fd hfd =>
    constructor
    · intro fd' hfd'
      rw [opened_commSocketClose h.nonneg] at hfd'
      exact h.nonneg fd' (Finset.mem_of_mem_erase hfd')
    · rw [opened_commSocketClose h.nonneg]
      exact Finset.erase_subset_erase _ h.kept

end H264Cast.Listen
