import H264Cast.Library.Machine
import Mathlib.Data.Finset.Card

/-! # The listening socket

One socket is kept in a global variable, and every call after the first returns it. It is kept
before `listen` is called, and when that fails the socket is closed but still kept.
-/

namespace H264Cast.Listen

/-- A descriptor other than that of the standard input. -/
abbrev Descriptor := { fd : ℤ // 0 < fd }

/-- A call: the port, the descriptor that `socket` gives, and which of the other system calls
succeed. -/
structure Call where
  port : ℤ
  socket : Option Descriptor
  nonblock : Bool
  reuseaddr : Bool
  bind : Bool
  listen : Bool

/-- The global variable, the descriptors that are open, and those that listen. -/
@[ext] structure State where
  gRtspSocket : ℤ
  opened : Finset ℤ
  listening : Finset ℤ

def State.start : State := ⟨-1, ∅, ∅⟩

def State.close (s : State) (fd : ℤ) : State :=
  { s with opened := s.opened.erase fd, listening := s.listening.erase fd }

/-- A socket for TCP. An address without a host name can always be made. -/
def commIsocketCreat (s : State) (call : Call) : ℤ × State :=
  match call.socket with
  | none => (-1, s)
  | some fd =>
    let s := { s with opened := insert fd.1 s.opened }
    if ¬ call.nonblock then (-1, s.close fd)
    else if ¬ call.reuseaddr then (-1, s.close fd)
    else if ¬ call.bind then (-1, s.close fd)
    else (fd, s)

def commTcpListen (s : State) (call : Call) : ℤ × State :=
  if s.gRtspSocket > 0 then (s.gRtspSocket, s)
  else if call.port < 0 ∨ call.port > 65536 then (-1, s)
  else
    let (fd, s) := commIsocketCreat s call
    let s := { s with gRtspSocket := fd }
    if s.gRtspSocket < 0 then (-1, s)
    else if ¬ call.listen then (-1, s.close s.gRtspSocket)
    else (s.gRtspSocket, { s with listening := insert s.gRtspSocket s.listening })

/-- A call returns a descriptor that is open and listens, or leaves everything as it was. A
socket is made only when none is open. -/
structure Live (s : State) (call : Call) : Prop where
  returned : 0 ≤ (commTcpListen s call).1 → (commTcpListen s call).1 ∈
    (commTcpListen s call).2.opened ∧ (commTcpListen s call).1 ∈ (commTcpListen s call).2.listening
  made : ¬ s.gRtspSocket > 0 → s.opened = ∅
  one : (commTcpListen s call).2.opened.card ≤ 1
  failed : (commTcpListen s call).1 < 0 →
    (commTcpListen s call).2 = s ∧ ¬ s.gRtspSocket > 0

/-- Every call of a sequence is such a call. -/
def ReturnsLive (calls : List Call) : Prop :=
  ∀ front call back, calls = front ++ call :: back →
    Live (final commTcpListen .start front) call

/-- The port is valid and a socket is made. -/
def Call.Creates (call : Call) : Prop :=
  (0 ≤ call.port ∧ call.port ≤ 65536) ∧ call.socket.isSome ∧ call.nonblock ∧ call.reuseaddr ∧
    call.bind

/-- The first socket that is made listens. -/
def FirstListens (calls : List Call) : Prop :=
  ∀ front call back, calls = front ++ call :: back → (∀ c ∈ front, ¬ c.Creates) →
    call.Creates → call.listen

/-- The state in which a descriptor is kept that listens. -/
def State.listeningOn (fd : ℤ) : State := ⟨fd, {fd}, {fd}⟩

variable {s : State} {call : Call} {calls front back : List Call} {fd : ℤ}

/-! ## One call -/

theorem commTcpListen_of_pos (h : s.gRtspSocket > 0) :
    commTcpListen s call = (s.gRtspSocket, s) := if_pos h

theorem commIsocketCreat_of_creates (h : call.Creates) : ∃ fd : ℤ, 0 < fd ∧
    commIsocketCreat .start call = (fd, { State.start with opened := {fd} }) := by
  obtain ⟨-, hsocket, hnonblock, hreuseaddr, hbind⟩ := h
  obtain ⟨fd, hfd⟩ := Option.isSome_iff_exists.mp hsocket
  refine ⟨fd, fd.2, ?_⟩
  simp [commIsocketCreat, hfd, hnonblock, hreuseaddr, hbind, State.start]

/-- A socket that is given up is closed. -/
theorem commIsocketCreat_of_not_creates (hport : 0 ≤ call.port ∧ call.port ≤ 65536)
    (h : ¬ call.Creates) : commIsocketCreat .start call = (-1, .start) := by
  cases hsocket : call.socket with
  | none => simp [commIsocketCreat, hsocket]
  | some fd =>
    have hclose : State.close { State.start with opened := insert fd.1 State.start.opened } fd =
        .start := by
      simp [State.close, State.start]
    simp only [commIsocketCreat, hsocket, hclose]
    split_ifs with hnonblock hreuseaddr hbind
    · exact absurd ⟨hport, Option.isSome_iff_exists.mpr ⟨fd, hsocket⟩, hnonblock, hreuseaddr,
        hbind⟩ h
    · rfl
    · rfl
    · rfl

/-- Without a socket that is made nothing changes. -/
theorem commTcpListen_of_not_creates (h : ¬ call.Creates) :
    commTcpListen .start call = (-1, .start) := by
  have hkept : ¬ State.start.gRtspSocket > 0 := by decide
  rw [commTcpListen, if_neg hkept]
  by_cases hport : call.port < 0 ∨ call.port > 65536
  · exact if_pos hport
  · rw [if_neg hport, commIsocketCreat_of_not_creates (by omega) h]
    rfl

/-- The first socket made is kept, whether or not it listens. -/
theorem commTcpListen_of_creates (h : call.Creates) :
    ∃ fd : ℤ, 0 < fd ∧ commTcpListen .start call =
      if call.listen then (fd, .listeningOn fd) else (-1, ⟨fd, ∅, ∅⟩) := by
  obtain ⟨fd, hfd, hcreat⟩ := commIsocketCreat_of_creates h
  have hkept : ¬ State.start.gRtspSocket > 0 := by decide
  have hport := h.1
  refine ⟨fd, hfd, ?_⟩
  rw [commTcpListen, if_neg hkept, if_neg (by omega), hcreat]
  simp only [if_neg (Int.not_lt.mpr (Int.le_of_lt hfd))]
  cases call.listen with
  | false => simp [State.close, State.start]
  | true => simp [State.start, State.listeningOn]

/-! ## The calls of a sequence -/

theorem final_of_not_creates (h : ∀ c ∈ calls, ¬ c.Creates) :
    final commTcpListen .start calls = .start := by
  induction calls with
  | nil => rfl
  | cons call calls ih =>
    rw [List.forall_mem_cons] at h
    rw [final, commTcpListen_of_not_creates h.1]
    exact ih h.2

/-- Before a socket is made nothing has changed, and afterwards it is kept. -/
theorem final_cases (h : FirstListens calls) (hcalls : calls = front ++ back) :
    (∀ c ∈ front, ¬ c.Creates) ∨
      ∃ fd > 0, final commTcpListen .start front = .listeningOn fd := by
  induction front using List.reverseRecOn generalizing back with
  | nil => exact Or.inl fun _ hc => absurd hc List.not_mem_nil
  | append_singleton front call ih =>
    rw [List.append_assoc, List.singleton_append] at hcalls
    rw [final_append]
    rcases ih hcalls with hnone | ⟨fd, hfd, hfinal⟩
    · by_cases hcreates : call.Creates
      · obtain ⟨fd, hfd, hcall⟩ := commTcpListen_of_creates hcreates
        rw [if_pos (h front call back hcalls hnone hcreates)] at hcall
        refine Or.inr ⟨fd, hfd, ?_⟩
        rw [final_of_not_creates hnone, final, hcall, final]
      · refine Or.inl fun c hc => ?_
        rcases List.mem_append.mp hc with hc | hc
        · exact hnone c hc
        · exact List.mem_singleton.mp hc ▸ hcreates
    · refine Or.inr ⟨fd, hfd, ?_⟩
      rw [hfinal, final, commTcpListen_of_pos hfd, final]

theorem live_listeningOn (hfd : 0 < fd) (call : Call) : Live (.listeningOn fd) call := by
  have hcall : commTcpListen (.listeningOn fd) call = (fd, .listeningOn fd) :=
    commTcpListen_of_pos hfd
  constructor
  · intro _
    rw [hcall]
    exact ⟨Finset.mem_singleton_self fd, Finset.mem_singleton_self fd⟩
  · exact fun h => absurd hfd h
  · rw [hcall]
    exact (Finset.card_singleton fd).le
  · intro h
    rw [hcall] at h
    exact absurd hfd (Int.not_lt.mpr (Int.le_of_lt h))

theorem live_start (h : call.Creates → call.listen) : Live .start call := by
  by_cases hcreates : call.Creates
  · obtain ⟨fd, hfd, hcall⟩ := commTcpListen_of_creates hcreates
    rw [if_pos (h hcreates)] at hcall
    constructor
    · intro _
      rw [hcall]
      exact ⟨Finset.mem_singleton_self fd, Finset.mem_singleton_self fd⟩
    · exact fun _ => rfl
    · rw [hcall]
      exact (Finset.card_singleton fd).le
    · intro hneg
      rw [hcall] at hneg
      exact absurd hfd (Int.not_lt.mpr (Int.le_of_lt hneg))
  · have hcall := commTcpListen_of_not_creates hcreates
    constructor
    · intro hnonneg
      rw [hcall] at hnonneg
      exact absurd hnonneg (by decide)
    · exact fun _ => rfl
    · rw [hcall]
      exact Nat.zero_le 1
    · intro _
      rw [hcall]
      exact ⟨rfl, by decide⟩

/-- A socket that does not listen is kept after the call that failed. -/
theorem not_live_start (h : call.Creates) (hlisten : ¬ call.listen) : ¬ Live .start call := by
  intro hlive
  obtain ⟨fd, hfd, hcall⟩ := commTcpListen_of_creates h
  rw [if_neg hlisten] at hcall
  have hstate := (hlive.failed (by simp [hcall])).1
  rw [hcall] at hstate
  have hkept : fd = -1 := congrArg State.gRtspSocket hstate
  omega

/-- Only live listeners are returned exactly when the first socket that is made listens. -/
theorem returnsLive_iff : ReturnsLive calls ↔ FirstListens calls := by
  constructor
  · intro h front call back hcalls hnone hcreates
    have hlive := h front call back hcalls
    rw [final_of_not_creates hnone] at hlive
    by_contra hlisten
    exact not_live_start hcreates hlisten hlive
  · intro h front call back hcalls
    rcases final_cases h hcalls with hnone | ⟨fd, hfd, hfinal⟩
    · rw [final_of_not_creates hnone]
      exact live_start (h front call back hcalls hnone)
    · rw [hfinal]
      exact live_listeningOn hfd call

/-- The socket of the first call does not listen, and the second call returns it. -/
theorem not_returnsLive_closed : ¬ ∀ calls : List Call, ReturnsLive calls := by
  intro hall
  let fails : Call := ⟨554, some ⟨3, by decide⟩, true, true, true, false⟩
  have hlive := hall [fails, fails] [fails] fails [] rfl
  exact absurd (hlive.returned (by decide)).1 (by decide)

end H264Cast.Listen
