import H264Cast.Session.Server
import H264Cast.Library.Transition
import Mathlib.Data.Fintype.Card

/-! # The session table

Each slot of the table is either all zero or holds a session with its socket. The sessions
admit connections, become inactive when they are served, and are destroyed at the end of an
iteration, and the connections that were accepted are those of the sessions and those that
were closed. A reply that outgrows its session ends in the next one, since the flag there has
a zero byte, and so it is confined to the session it is for.
-/

namespace H264Cast.TcpServer

/-- A session in use. -/
structure Session where
  sock : BitVec 32
  isActive : Bool

/-- The memory of a slot, with or without a session. -/
def Holds (m : Memory Byte) (base : ℕ) : Option Session → Prop
  | none => ∀ k < sessionSize, m (base + k) = 0
  | some t => 0 < t.sock.toInt ∧ m.loadInt (base + sock) = t.sock ∧
      m.loadInt (base + bUse) = 1 ∧ m.loadInt (base + bIsActive) = if t.isActive then 1 else -1

/-- The slots that are in use. -/
def used (ss : Fin maxClientNum → Option Session) : Finset (Fin maxClientNum) :=
  Finset.univ.filter fun i => (ss i).isSome

/-- The server has the given sessions, and owns their connections. -/
structure Represents (s : State) (ss : Fin maxClientNum → Option Session) : Prop where
  holds : ∀ i : Fin maxClientNum, Holds s.server.table (client i) (ss i)
  clientNum_eq : s.server.clientNum = (used ss).card
  wellFormed : s.sockets.WellFormed
  ownedBy : s.sockets.OwnedBy fun i => (ss i).map Session.sock

variable {m m' m₁ : Memory Byte} {base limit a : ℕ} {t : Session} {o : Option Session}
  {s : State} {ss : Fin maxClientNum → Option Session} {i j : Fin maxClientNum} {e : Events}

theorem Holds.congr (h : Holds m base o)
    (hm : ∀ a, base ≤ a → a < base + sessionSize → m' a = m a) : Holds m' base o := by
  have hload : ∀ p, p + 4 ≤ sessionSize → m'.loadInt (base + p) = m.loadInt (base + p) :=
    fun p hp => Memory.loadInt_congr fun a _ _ => hm a (by omega) (by omega)
  cases o with
  | none => exact fun k hk => (hm _ (by omega) (by omega)).trans (h k hk)
  | some t =>
    obtain ⟨hpos, hsock, huse, hactive⟩ := h
    refine ⟨hpos, ?_, ?_, ?_⟩
    · rw [hload _ (by decide), hsock]
    · rw [hload _ (by decide), huse]
    · rw [hload _ (by decide), hactive]

theorem Holds.loadInt_none (h : Holds m base none) {p : ℕ} (hp : p + 4 ≤ sessionSize) :
    m.loadInt (base + p) = 0 :=
  Memory.loadInt_of_zero fun k hk => by
    rw [Nat.add_assoc]
    exact h _ (by omega)

theorem Holds.bUse_eq_zero_iff (h : Holds m base o) :
    m.loadInt (base + bUse) = 0 ↔ o = none := by
  cases o with
  | none => simp [h.loadInt_none (p := bUse) (by decide)]
  | some t => simp [h.2.2.1]

/-- The byte at which a string that runs into a slot ends. -/
theorem Holds.bUse_byte (h : Holds m base o) : m (base + bUse + 1) = 0 := by
  cases o with
  | none => exact h (bUse + 1) (by decide)
  | some t =>
    rw [Memory.apply_of_loadInt m, h.2.2.1]
    rfl

/-! ## Opening a session -/

theorem holds_openSession (self : BitVec 64) {fd : BitVec 32} (hfd : 0 < fd.toInt)
    (random : BitVec 64) (m : Memory Byte) (base : ℕ) :
    Holds (openSession self fd random m base) base (some ⟨fd, true⟩) := by
  simp only [openSession, Memory.clear]
  refine ⟨hfd, ?_, ?_, ?_⟩
  · rw [Memory.loadInt_field_before (by decide), Memory.loadInt_field_before (by decide),
      Memory.loadInt_field_after (Memory.length_wordBytes ..) (by decide), Memory.storeInt,
      Memory.loadInt_field_before (by decide), Memory.storeInt,
      Memory.loadInt_field_before (by decide), Memory.loadInt_field_before (by decide),
      Memory.loadInt_storeInt]
  · rw [Memory.loadInt_field_before (by decide), Memory.loadInt_field_before (by decide),
      Memory.loadInt_field_after (Memory.length_wordBytes ..) (by decide), Memory.storeInt,
      Memory.loadInt_field_before (by decide), Memory.loadInt_storeInt]
  · rw [Memory.loadInt_field_before (by decide), Memory.loadInt_field_before (by decide),
      Memory.loadInt_field_after (Memory.length_wordBytes ..) (by decide),
      Memory.loadInt_storeInt, if_pos rfl]

/-- A session is opened inside its slot. -/
theorem openSession_of_notMem (self : BitVec 64) (fd : BitVec 32) (random : BitVec 64)
    (m : Memory Byte) (ha : a < base ∨ base + sessionSize ≤ a) :
    openSession self fd random m base a = m a := by
  have hwrite : ∀ (m : Memory Byte) (p : ℕ) (bs : List Byte), p + bs.length ≤ sessionSize →
      m.write (base + p) bs a = m a := by
    intro m p bs hp
    exact Memory.write_of_outside (by omega)
  have hclear : m.clear base sessionSize a = m a := by
    rw [Memory.clear, ← Nat.add_zero base]
    exact hwrite m 0 _ (by rw [List.length_replicate, Nat.zero_add])
  simp only [openSession, Memory.storeInt]
  rw [Memory.clear, hwrite, Memory.clear, hwrite, hwrite, hwrite, hwrite, hwrite, hwrite, hclear]
  all_goals
    simp only [List.length_replicate, Memory.length_wordBytes]
    decide

theorem freeSession_lt {k : ℕ} (h : freeSession m = some k) : k < maxClientNum :=
  List.mem_range.mp (List.mem_of_find?_eq_some h)

theorem mem_used : i ∈ used ss ↔ ∃ t, ss i = some t := by
  rw [used, Finset.mem_filter, Option.isSome_iff_exists]
  exact and_iff_right (Finset.mem_univ i)

theorem card_used_update_some (hi : ss i = none) :
    (used (Function.update ss i (some t))).card = (used ss).card + 1 := by
  have hnew : i ∉ used ss := by
    rw [mem_used]
    rintro ⟨t, ht⟩
    rw [hi] at ht
    cases ht
  rw [← Finset.card_insert_of_notMem hnew]
  congr 1
  ext j
  rw [Finset.mem_insert, mem_used, mem_used, Function.update_apply]
  split_ifs with hj
  · exact ⟨fun _ => Or.inl hj, fun _ => ⟨t, rfl⟩⟩
  · exact ⟨Or.inr, fun h => h.resolve_left hj⟩

theorem card_used_update_none (hi : ss i = some t) :
    (used (Function.update ss i none)).card + 1 = (used ss).card := by
  rw [← Finset.card_erase_add_one (mem_used.mpr ⟨t, hi⟩)]
  congr 2
  ext j
  rw [Finset.mem_erase, mem_used, mem_used, Function.update_apply]
  split_ifs with hj
  · constructor
    · rintro ⟨_, h⟩
      cases h
    · rintro ⟨hne, -⟩
      exact absurd hj hne
  · exact ⟨fun h => ⟨hj, h⟩, And.right⟩

/-- A slot changes and the others do not. -/
theorem holds_update (h : ∀ j : Fin maxClientNum, Holds m (client j) (ss j))
    (hi : Holds m' (client i) o)
    (hother : ∀ j : Fin maxClientNum, j ≠ i → ∀ a, client j ≤ a → a < client j + sessionSize →
      m' a = m a) (j : Fin maxClientNum) :
    Holds m' (client j) (Function.update ss i o j) := by
  rcases eq_or_ne j i with rfl | hj
  · rwa [Function.update_self]
  · rw [Function.update_of_ne hj]
    exact (h j).congr (hother j hj)

/-- The connection that `accept` returns, if any, has a new descriptor. -/
def Fresh (e : Events) (s : State) : Prop :=
  e.clientSocket.toInt < 0 ∨
    0 < e.clientSocket.toInt ∧ s.sockets.resource e.clientSocket = none

theorem map_update (ss : Fin maxClientNum → Option Session) (i : Fin maxClientNum)
    (o : Option Session) :
    (fun j => (Function.update ss i o j).map Session.sock) =
      Function.update (fun j => (ss j).map Session.sock) i (o.map Session.sock) := by
  ext1 j
  rw [Function.update_apply, Function.update_apply]
  split_ifs <;> rfl

/-- A session is opened in a slot that is not in use. -/
theorem Represents.openSession (h : Represents s ss) (hi : ss i = none) (self random : BitVec 64)
    {fd : BitVec 32} (hpos : 0 < fd.toInt) (hfree : s.sockets.resource fd = none) :
    Represents
      { server := { s.server with
          clientNum := s.server.clientNum + 1
          table := TcpServer.openSession self fd random s.server.table (client i) }
        sockets := s.sockets.acquire fd }
      (Function.update ss i (some ⟨fd, true⟩)) := by
  constructor
  · apply holds_update h.holds (holds_openSession self hpos random _ _)
    intro j hj a hlo hhi
    exact openSession_of_notMem _ _ _ _ (by have := client_disjoint hj; omega)
  · rw [card_used_update_some hi]
    exact congrArg (· + 1) h.clientNum_eq
  · exact h.wellFormed.acquire hfree
  · rw [map_update]
    exact h.ownedBy.acquire hfree (by rw [hi]; rfl)

/-- The sockets of the sessions. -/
abbrev Slots := Fin maxClientNum → Option (BitVec 32)

/-- The sockets of given sessions. -/
def sockets (ss : Fin maxClientNum → Option Session) : Slots := fun i => (ss i).map Session.sock

/-- The first slot without a session. -/
def Slots.free (u : Slots) : Option (Fin maxClientNum) :=
  (List.finRange maxClientNum).find? fun i => u i = none

theorem Slots.eq_none_of_free {u : Slots} (h : u.free = some i) : u i = none := by
  simpa using List.find?_some h

/-- The sessions with a new one, if there is room for it. -/
def admitted (ss : Fin maxClientNum → Option Session) (fd : BitVec 32) :
    Fin maxClientNum → Option Session :=
  match (sockets ss).free with
  | none => ss
  | some i => Function.update ss i (some ⟨fd, true⟩)

theorem Represents.freeSession_eq (h : Represents s ss) :
    freeSession s.server.table = ((sockets ss).free).map Fin.val := by
  have hrange : List.range maxClientNum = (List.finRange maxClientNum).map Fin.val := rfl
  rw [freeSession, hrange, List.find?_map, Slots.free]
  congr 2
  funext i
  simp only [Function.comp_apply, (h.holds i).bUse_eq_zero_iff, sockets, Option.map_eq_none_iff]

/-- A new connection gets a session of its own or is closed. -/
theorem Represents.admitted (h : Represents s ss) (self : BitVec 64)
    (hpos : 0 < e.clientSocket.toInt) (hfree : s.sockets.resource e.clientSocket = none) :
    Represents (TcpServer.incomingConnectionHandler self e s)
      (TcpServer.admitted ss e.clientSocket) := by
  rw [TcpServer.incomingConnectionHandler, if_neg (by omega), h.freeSession_eq, TcpServer.admitted]
  cases hslot : (sockets ss).free with
  | none =>
    simp only [Option.map_none]
    rw [commSocketClose, if_neg (by omega)]
    exact ⟨h.holds, h.clientNum_eq, (h.wellFormed.acquire hfree).release _,
      h.ownedBy.acquire_release hfree⟩
  | some i =>
    have hnone : ss i = none := Option.map_eq_none_iff.mp (Slots.eq_none_of_free hslot)
    exact h.openSession hnone self e.random hpos hfree

theorem Represents.incomingConnectionHandler (h : Represents s ss) (self : BitVec 64)
    (hfresh : Fresh e s) :
    ∃ ss', Represents (TcpServer.incomingConnectionHandler self e s) ss' := by
  rcases hfresh with hneg | ⟨hpos, hfree⟩
  · rw [TcpServer.incomingConnectionHandler, if_pos hneg]
    exact ⟨ss, h⟩
  · exact ⟨_, h.admitted self hpos hfree⟩

/-! ## Serving a session -/

/-- What serving a session leaves alone: the memory in front of the data received, and the
memory behind the session when a terminator follows there. -/
def Untouched (limit : ℕ) (m : Memory Byte) (base a : ℕ) : Prop :=
  a < base + rtcpKeepAliveTime ∨
    base + sessionSize ≤ a ∧ m (base + sessionSize + bUse + 1) = 0 ∧
      base + sessionSize + sessionSize ≤ limit

/-- A string that runs out of its session ends at the flag of the next one. -/
theorem length_string_recvBuf_lt (hm : m (base + sessionSize + bUse + 1) = 0)
    (hlimit : base + sessionSize + sessionSize ≤ limit) :
    (m.string (base + recvBuf) (limit - (base + recvBuf))).length < bufSize + bUse + 2 := by
  have hterm : m.Terminated (base + recvBuf) (bufSize + bUse + 2) := by
    rw [Memory.Terminated, List.mem_iff_getElem]
    refine ⟨bufSize + bUse + 1, by simp, ?_⟩
    rw [Memory.getElem_read, ← hm, sessionSize]
    congr 1
  have hlen : limit - (base + recvBuf) =
      bufSize + bUse + 2 + (limit - (base + recvBuf) - (bufSize + bUse + 2)) := by
    simp only [sessionSize, recvBuf, sendBuf, bufSize, bUse] at hlimit ⊢
    omega
  rw [hlen, hterm.string_add]
  exact hterm.length_string_lt

theorem buildReply_of_untouched (hbuild : buildReply limit m base = some m')
    (ha : Untouched limit m base a) : m' a = m a := by
  rw [buildReply] at hbuild
  split_ifs at hbuild
  obtain rfl := Option.some.inj hbuild
  rcases ha with ha | ⟨ha, hm, hlimit⟩
  · exact Memory.write_of_lt (by simp only [rtcpKeepAliveTime, sendBuf] at ha ⊢; omega)
  · have hlen := length_string_recvBuf_lt hm hlimit
    apply Memory.write_of_ge
    simp only [sessionSize, recvBuf, sendBuf, bufSize, bUse] at ha hlen ⊢
    simp only [List.length_append, yse, List.length_cons, List.length_nil]
    omega

/-- A write to the data received. -/
theorem Untouched.write {a : ℕ} (ha : Untouched limit m base a) (m₁ : Memory Byte) {p : ℕ}
    {bs : List Byte} (hp : rtcpKeepAliveTime ≤ p) (hbs : p + bs.length ≤ sessionSize) :
    m₁.write (base + p) bs a = m₁ a := by
  rcases ha with ha | ⟨ha, -⟩
  all_goals exact Memory.write_of_outside (by omega)

theorem Untouched.clearBuffers {a : ℕ} (ha : Untouched limit m base a) :
    clearBuffers m base a = m a := by
  rw [TcpServer.clearBuffers, Memory.clear, ha.write _ (by decide), Memory.clear,
    ha.write _ (by decide)]
  all_goals
    rw [List.length_replicate]
    decide

theorem Untouched.storeMessage {a : ℕ} (ha : Untouched limit m base a) {bs : List Byte}
    (hbs : bs.length ≤ bufSize) (timeNow : BitVec 128) :
    storeMessage (TcpServer.clearBuffers m base) base bs timeNow a = m a := by
  rw [TcpServer.storeMessage, ha.write _ (by decide), ha.write _ (by decide), ha.clearBuffers]
  · exact Nat.add_le_add_left hbs _
  · rw [Memory.length_wordBytes]
    decide

variable {ev : ClientEvents} {out : Option (List Byte)} {isSet : BitVec 32 → Bool}
  {clients : ℕ → ClientEvents} {is : List ℕ}

/-- Serving the session ends it: the peer has closed the connection, or an error that will not
go away has come up. -/
def ClientEvents.fails (ev : ClientEvents) : Bool :=
  match ev.received with
  | .error again => !again
  | .bytes bs _ => bs = [] ∨ ev.written ≤ 0 ∧ ¬ ev.writeAgain

/-- Serving a session marks it exactly when it fails. -/
theorem incomingConnectionHandlerClient_marks
    (h : incomingConnectionHandlerClient limit ev m base = some (out, m')) :
    ∃ m₁ : Memory Byte, (∀ a, Untouched limit m base a → m₁ a = m a) ∧
      m' = if ev.fails then m₁.storeInt (base + bIsActive) (-1) else m₁ := by
  unfold incomingConnectionHandlerClient at h
  unfold ClientEvents.fails
  cases hrecv : ev.received with
  | error again =>
    simp only [hrecv, Option.some.injEq, Prod.mk.injEq] at h
    obtain ⟨-, rfl⟩ := h
    refine ⟨_, fun a ha => ha.clearBuffers, ?_⟩
    cases again <;> simp
  | bytes bs hbs =>
    simp only [hrecv] at h
    have hstore : ∀ a, Untouched limit m base a →
        storeMessage (clearBuffers m base) base bs ev.timeNow a = m a :=
      fun a ha => ha.storeMessage hbs ev.timeNow
    by_cases hnil : bs = []
    · rw [if_pos hnil] at h
      obtain ⟨-, rfl⟩ := Prod.mk.inj (Option.some.inj h)
      exact ⟨_, fun a ha => ha.clearBuffers, by simp [hnil]⟩
    · rw [if_neg hnil] at h
      obtain ⟨m₁, hbuild, hm₁⟩ := Option.map_eq_some_iff.mp h
      obtain ⟨-, rfl⟩ := Prod.mk.inj hm₁
      refine ⟨m₁, fun a ha => ?_, by simp [hnil]⟩
      rw [buildReply_of_untouched hbuild, hstore a ha]
      rcases ha with ha | ⟨ha, hm, hlimit⟩
      · exact Or.inl ha
      · exact Or.inr ⟨ha, (hstore _ (Or.inr ⟨by omega, hm, hlimit⟩)).trans hm, hlimit⟩

/-- A session after it was served. -/
def Session.after (t : Session) (failed : Bool) : Session :=
  { t with isActive := t.isActive && !failed }

theorem Holds.after (h : Holds m base (some t))
    (hserve : incomingConnectionHandlerClient limit ev m base = some (out, m')) :
    Holds m' base (some (t.after ev.fails)) := by
  obtain ⟨m₁, heq, rfl⟩ := incomingConnectionHandlerClient_marks hserve
  obtain ⟨hpos, hsock, huse, hactive⟩ := h
  have hload : ∀ p, p + 4 ≤ rtcpKeepAliveTime → m₁.loadInt (base + p) = m.loadInt (base + p) :=
    fun p hp => Memory.loadInt_congr fun a _ _ => heq a (Or.inl (by omega))
  split_ifs with hfails
  · refine ⟨hpos, ?_, ?_, ?_⟩
    · rw [Memory.storeInt, Memory.loadInt_field_before (by decide), hload _ (by decide), hsock]
      rfl
    · rw [Memory.storeInt, Memory.loadInt_field_before (by decide), hload _ (by decide), huse]
    · rw [Memory.loadInt_storeInt]
      simp [Session.after, hfails]
  · refine ⟨hpos, ?_, ?_, ?_⟩
    · rw [hload _ (by decide), hsock]
      rfl
    · rw [hload _ (by decide), huse]
    · rw [hload _ (by decide), hactive]
      simp [Session.after, hfails]

theorem Session.after_false (t : Session) : t.after false = t := by
  simp [Session.after]

/-- What is written while a session is served leaves the other slots alone. -/
theorem untouched_of_ne (h : ∀ j : Fin maxClientNum, Holds m (client j) (ss j))
    (hlimit : tableSize ≤ limit) (hj : j ≠ i) (hlo : client j ≤ a)
    (hhi : a < client j + sessionSize) : Untouched limit m (client i) a := by
  rcases client_disjoint hj with hlt | hlt
  · exact Or.inl (Nat.lt_of_lt_of_le hhi (Nat.le_add_right_of_le hlt))
  · have hend := client_le_tableSize j
    -- There is a next slot, and no string runs past its flag.
    have hnext : i.val + 1 < maxClientNum := by
      by_contra hlast
      have heq : client (i.val + 1) = tableSize := by
        rw [client, tableSize, show i.val + 1 = maxClientNum by omega]
      rw [client_succ] at heq
      simp only [sessionSize, recvBuf, sendBuf, bufSize] at hlt hend heq
      omega
    have hbyte := (h ⟨i + 1, hnext⟩).bUse_byte
    rw [client_succ] at hbyte
    exact Or.inr ⟨by omega, hbyte, by omega⟩

/-- Serving a session leaves the others as they are. -/
theorem holds_after (h : ∀ j : Fin maxClientNum, Holds m (client j) (ss j))
    (hlimit : tableSize ≤ limit) (hi : ss i = some t)
    (hserve : incomingConnectionHandlerClient limit ev m (client i) = some (out, m'))
    (j : Fin maxClientNum) :
    Holds m' (client j) (Function.update ss i (some (t.after ev.fails)) j) := by
  refine holds_update h ((hi ▸ h i).after hserve) (fun j hj a hlo hhi => ?_) j
  obtain ⟨m₁, heq, rfl⟩ := incomingConnectionHandlerClient_marks hserve
  have hm₁ := heq a (untouched_of_ne h hlimit hj hlo hhi)
  split_ifs
  · rw [← hm₁]
    have hsize : bIsActive + 4 ≤ sessionSize := by decide
    have hdisjoint := client_disjoint hj
    apply Memory.write_of_outside
    rw [Memory.length_wordBytes]
    omega
  · exact hm₁

/-- The sessions after the loop has come to some of them. -/
def served (isSet : BitVec 32 → Bool) (clients : ℕ → ClientEvents) (is : List ℕ)
    (ss : Fin maxClientNum → Option Session) (i : Fin maxClientNum) : Option Session :=
  if i.val ∈ is then (ss i).map fun t => t.after (isSet t.sock && (clients i).fails) else ss i

/-- A session is served once, however often the loop comes to it. -/
theorem served_cons (k : ℕ) (is : List ℕ) :
    served isSet clients (k :: is) ss = served isSet clients is (served isSet clients [k] ss) := by
  funext j
  simp only [served, List.mem_cons, List.not_mem_nil, or_false]
  by_cases hk : j.val = k
  · by_cases hj : j.val ∈ is
    · rw [if_pos (Or.inl hk), if_pos hj, if_pos hk, Option.map_map]
      congr 1
      funext t
      simp [Session.after]
    · rw [if_pos (Or.inl hk), if_neg hj, if_pos hk]
  · simp [hk]

/-- What the loop does to one session. -/
theorem holds_served_one (hlimit : tableSize ≤ limit)
    (h : ∀ j : Fin maxClientNum, Holds m (client j) (ss j))
    (hserve : serveAll limit isSet clients (i.val :: is) m = some m') :
    ∃ m₁, (∀ j : Fin maxClientNum, Holds m₁ (client j) (served isSet clients [i.val] ss j)) ∧
      serveAll limit isSet clients is m₁ = some m' := by
  have hone : ∀ o, (ss i).map (fun t => t.after (isSet t.sock && (clients i).fails)) = o →
      served isSet clients [i.val] ss = Function.update ss i o := by
    rintro _ rfl
    funext j
    rcases eq_or_ne j i with rfl | hj
    · simp [served]
    · simp [served, hj, Fin.val_ne_of_ne hj]
  have hholds := h i
  rw [serveAll] at hserve
  cases hi : ss i with
  | none =>
    rw [hi] at hholds
    rw [hholds.loadInt_none (by decide), if_neg (by simp)] at hserve
    rw [hone none (by rw [hi]; rfl), ← hi, Function.update_eq_self]
    exact ⟨m, h, hserve⟩
  | some t =>
    rw [hi] at hholds
    rw [hholds.2.1, hholds.2.2.1] at hserve
    split_ifs at hserve with hready
    · obtain ⟨⟨out, m₁⟩, hclient, hrest⟩ := Option.bind_eq_some_iff.mp hserve
      rw [hone (some (t.after (clients i).fails)) (by rw [hi]; simp [hready.2])]
      exact ⟨m₁, holds_after h hlimit hi hclient, hrest⟩
    · have hset : isSet t.sock = false := by simpa using hready
      rw [hone (some t) (by rw [hi]; simp [hset, Session.after_false]), ← hi,
        Function.update_eq_self]
      exact ⟨m, h, hserve⟩

/-- The loop that serves the sessions marks those that are ready and fail. -/
theorem holds_serveAll_served (hlimit : tableSize ≤ limit) (his : ∀ k ∈ is, k < maxClientNum)
    (h : ∀ j : Fin maxClientNum, Holds m (client j) (ss j))
    (hserve : serveAll limit isSet clients is m = some m') (j : Fin maxClientNum) :
    Holds m' (client j) (served isSet clients is ss j) := by
  induction is generalizing m ss with
  | nil =>
    obtain rfl := Option.some.inj hserve
    simpa [served] using h j
  | cons k is ih =>
    obtain ⟨hk, his⟩ := List.forall_mem_cons.mp his
    lift k to Fin maxClientNum using hk with i
    obtain ⟨m₁, hm₁, hrest⟩ := holds_served_one hlimit h hserve
    rw [served_cons]
    exact ih his hm₁ hrest

theorem map_sock_served (isSet : BitVec 32 → Bool) (clients : ℕ → ClientEvents)
    (ss : Fin maxClientNum → Option Session) (is : List ℕ) (j : Fin maxClientNum) :
    (served isSet clients is ss j).map Session.sock = (ss j).map Session.sock := by
  rw [served]
  split_ifs
  · rw [Option.map_map]
    rfl
  · rfl

theorem Represents.served (h : Represents s ss) (hlimit : tableSize ≤ limit)
    (his : ∀ k ∈ is, k < maxClientNum)
    (hserve : TcpServer.serveAll limit isSet clients is s.server.table = some m) :
    Represents { s with server := { s.server with table := m } }
      (TcpServer.served isSet clients is ss) := by
  have hsock := map_sock_served isSet clients ss is
  have hused : used (TcpServer.served isSet clients is ss) = used ss := by
    ext j
    have hsome := congrArg Option.isSome (hsock j)
    rw [Option.isSome_map, Option.isSome_map] at hsome
    rw [used, used, Finset.mem_filter, Finset.mem_filter, hsome]
  refine ⟨holds_serveAll_served hlimit his h.holds hserve, ?_, h.wellFormed, ?_⟩
  · rw [hused]
    exact h.clientNum_eq
  · rw [funext hsock]
    exact h.ownedBy

/-- The loop goes on when no session sends anything. -/
theorem exists_serveAll_of_error (h : ∀ k, ∃ again, (clients k).received = .error again)
    (is : List ℕ) (m : Memory Byte) : ∃ m', serveAll limit isSet clients is m = some m' := by
  induction is generalizing m with
  | nil => exact ⟨m, rfl⟩
  | cons k is ih =>
    obtain ⟨again, hrecv⟩ := h k
    rw [serveAll]
    split_ifs
    · simp only [incomingConnectionHandlerClient, hrecv, Option.bind_some]
      exact ih _
    · exact ih m

theorem exists_iteration_of_error (h : ∀ k, ∃ again, (e.clients k).received = .error again)
    (self : BitVec 64) (s : State) : ∃ s', iteration limit self e s = some s' := by
  rw [iteration]
  split_ifs
  · exact ⟨s, rfl⟩
  · obtain ⟨table, htable⟩ := exists_serveAll_of_error h (List.range maxClientNum) _
    exact ⟨_, congrArg (Option.map _) htable⟩

/-! ## Destroying the inactive sessions -/

/-- A session is destroyed with its connection. -/
theorem Represents.destroyClientSession (h : Represents s ss) (hi : ss i = some t) :
    Represents (destroyClientSession s i) (Function.update ss i none) := by
  have hholds := h.holds i
  rw [hi] at hholds
  obtain ⟨hpos, hsock, huse, -⟩ := hholds
  have hcard := card_used_update_none hi
  have hnum := h.clientNum_eq
  have hpositive : ¬ s.server.clientNum - 1 < 0 := by omega
  have hfd : ¬ t.sock.toInt < 0 := by omega
  rw [TcpServer.destroyClientSession, if_neg (by rw [huse]; decide)]
  dsimp only
  rw [hsock, if_pos hpos, commSocketClose, if_neg hfd, if_neg hpositive]
  constructor
  · apply holds_update h.holds
    · exact fun k hk => Memory.clear_of_mem hk
    · intro j hj a hlo hhi
      have hdisjoint := client_disjoint hj
      apply Memory.write_of_outside
      rw [List.length_replicate]
      omega
  · dsimp only
    omega
  · exact h.wellFormed.release _
  · rw [map_update]
    exact h.ownedBy.release (by rw [hi]; rfl)

/-- The loop that ends the sessions leaves those that are active. -/
theorem Represents.destroyed (h : Represents s ss) (his : ∀ k ∈ is, k < maxClientNum) :
    Represents (TcpServer.destroyAll is s)
      fun j => if j.val ∈ is then (ss j).filter Session.isActive else ss j := by
  induction is generalizing s ss with
  | nil =>
    simp only [List.not_mem_nil, if_false]
    exact h
  | cons k is ih =>
    obtain ⟨hk, his⟩ := List.forall_mem_cons.mp his
    lift k to Fin maxClientNum using hk with i
    have hcons : (fun j : Fin maxClientNum =>
        if j.val ∈ i.val :: is then (ss j).filter Session.isActive else ss j) =
        fun j => if j.val ∈ is
          then (Function.update ss i ((ss i).filter Session.isActive) j).filter Session.isActive
          else Function.update ss i ((ss i).filter Session.isActive) j := by
      funext j
      rcases eq_or_ne j i with rfl | hj
      · simp [Option.filter_filter]
      · simp [hj, Fin.val_ne_of_ne hj]
    rw [hcons, TcpServer.destroyAll]
    have hholds := h.holds i
    cases hi : ss i with
    | none =>
      rw [hi] at hholds
      rw [hholds.loadInt_none (by decide), if_neg (by decide), Option.filter_none, ← hi,
        Function.update_eq_self]
      exact ih h his
    | some t =>
      rw [hi] at hholds
      rw [hholds.2.2.2]
      cases hactive : t.isActive with
      | false =>
        rw [if_neg Bool.false_ne_true, if_pos rfl, Option.filter_some, hactive]
        exact ih (h.destroyClientSession hi) his
      | true =>
        rw [if_pos rfl, if_neg (by decide), Option.filter_some, hactive, if_pos rfl, ← hi,
          Function.update_eq_self]
        exact ih h his

/-- All sessions are active. -/
def AllActive (ss : Fin maxClientNum → Option Session) : Prop :=
  ∀ i t, ss i = some t → t.isActive = true

theorem allActive_filter (ss : Fin maxClientNum → Option Session) :
    AllActive fun j => (ss j).filter Session.isActive :=
  fun _ _ ht => (Option.filter_eq_some_iff.mp ht).2

/-- Serving and ending, once the connection has been dealt with. -/
theorem Represents.serve_destroy {beyond : ℕ} (h : Represents s ss)
    (hserve : TcpServer.serveAll (tableSize + beyond) isSet clients (List.range maxClientNum)
      s.server.table = some m) :
    Represents (TcpServer.destroyAll (List.range maxClientNum)
      { s with server := { s.server with table := m } })
      fun j => (TcpServer.served isSet clients (List.range maxClientNum) ss j).filter
        Session.isActive := by
  have hlt : ∀ k ∈ List.range maxClientNum, k < maxClientNum := fun _ => List.mem_range.mp
  have hdestroyed := (h.served (Nat.le_add_right _ _) hlt hserve).destroyed hlt
  have hall : ∀ j : Fin maxClientNum, j.val ∈ List.range maxClientNum :=
    fun j => List.mem_range.mpr j.isLt
  simpa only [hall, if_true] using hdestroyed

/-! ## Runs -/

/-- A session whose flag is set. -/
def InUse (s : State) (i : Fin maxClientNum) : Prop :=
  s.server.table.loadInt (client i + bUse) = 1

instance (s : State) : DecidablePred (InUse s) := fun _ => inferInstanceAs (Decidable (_ = _))

/-- The connection of a session. -/
def connection (s : State) (i : Fin maxClientNum) : Option ℕ :=
  s.sockets.resource (s.server.table.loadInt (client i + sock))

/-- The table is consistent: the sessions in use are counted, active, and have connections of
their own, the other slots are zero, and every connection ever accepted is either that of
exactly one session or was closed exactly once. -/
structure Consistent (s : State) : Prop where
  clientNum_eq : s.server.clientNum = (Finset.univ.filter (InUse s)).card
  clientNum_nonneg : 0 ≤ s.server.clientNum
  clientNum_le : s.server.clientNum ≤ maxClientNum
  active_of_inUse : ∀ i, InUse s i → s.server.table.loadInt (client i + bIsActive) = 1
  open_of_inUse : ∀ i, InUse s i → ∃ c, connection s i = some c
  sock_injective : ∀ i j, InUse s i → InUse s j →
    s.server.table.loadInt (client i + sock) = s.server.table.loadInt (client j + sock) → i = j
  zero_of_not_inUse : ∀ i : Fin maxClientNum, ¬ InUse s i →
    ∀ k < sessionSize, s.server.table (client i + k) = 0
  owned_or_closed : ∀ c < s.sockets.opened,
    (∃! i, InUse s i ∧ connection s i = some c) ∧ s.sockets.closes c = 0 ∨
      (∀ i, InUse s i → connection s i ≠ some c) ∧ s.sockets.closes c = 1

/-- The runs of the select loop, from a table that is zero and without connections. What is in
the memory behind the table does not matter. -/
def selectLoop (beyond : ℕ) (self : BitVec 64) : TransitionSystem State where
  init s := s.server.clientNum = 0 ∧ (∀ a < tableSize, s.server.table a = 0) ∧
    s.sockets = ⟨fun _ => none, 0, fun _ => 0⟩
  step s s' := ∃ e, Fresh e s ∧ iteration (tableSize + beyond) self e s = some s'

/-- The invariant at the head of the loop. -/
def Settled (s : State) : Prop :=
  ∃ ss, Represents s ss ∧ ∀ i t, ss i = some t → t.isActive = true

theorem represents_init {s : State} {beyond : ℕ} {self : BitVec 64}
    (h : (selectLoop beyond self).init s) : Represents s fun _ => none := by
  obtain ⟨hnum, hzero, hsockets⟩ := h
  refine ⟨fun i k hk => ?_, ?_, ?_, ?_⟩
  · have hend := client_le_tableSize i
    exact hzero _ (by omega)
  · rw [hnum]
    rfl
  · rw [hsockets]
    constructor
    · exact fun _ _ _ h => nomatch h
    · exact fun _ _ h => nomatch h
    · exact fun _ _ h => nomatch h
    · exact fun c hc => absurd hc (Nat.not_lt_zero c)
    · exact fun _ _ => rfl
  · rw [hsockets]
    constructor
    · intro fd
      constructor
      · rintro ⟨_, h⟩
        cases h
      · rintro ⟨_, h⟩
        cases h
    · exact fun _ _ _ h => nomatch h

theorem settled_init {s : State} {beyond : ℕ} {self : BitVec 64}
    (h : (selectLoop beyond self).init s) : Settled s :=
  ⟨_, represents_init h, fun _ _ ht => nomatch ht⟩

/-- Serving and destroying leave sessions that are active. -/
theorem Represents.settled {beyond : ℕ} (h : Represents s ss)
    (hserve : TcpServer.serveAll (tableSize + beyond) isSet clients (List.range maxClientNum)
      s.server.table = some m) :
    Settled (TcpServer.destroyAll (List.range maxClientNum)
      { s with server := { s.server with table := m } }) :=
  ⟨_, h.serve_destroy hserve, allActive_filter _⟩

theorem Settled.step {s s' : State} {beyond : ℕ} {self : BitVec 64} (h : Settled s)
    (hstep : (selectLoop beyond self).step s s') : Settled s' := by
  obtain ⟨ss, hss, hactive⟩ := h
  obtain ⟨e, hfresh, hiter⟩ := hstep
  rw [iteration] at hiter
  split_ifs at hiter with hselect
  · obtain rfl := Option.some.inj hiter
    exact ⟨ss, hss, hactive⟩
  · obtain ⟨table, hserve, rfl⟩ := Option.map_eq_some_iff.mp hiter
    split_ifs at hserve ⊢ with hready
    · obtain ⟨ss₁, h₁⟩ := hss.incomingConnectionHandler self hfresh
      exact h₁.settled hserve
    · exact hss.settled hserve

theorem Represents.inUse_iff (h : Represents s ss) (i : Fin maxClientNum) :
    InUse s i ↔ ∃ t, ss i = some t := by
  have hholds := h.holds i
  cases hi : ss i with
  | none =>
    rw [hi] at hholds
    rw [InUse, hholds.loadInt_none (by decide)]
    simp
  | some t =>
    rw [hi] at hholds
    simp [InUse, hholds.2.2.1]

/-- What a slot owns is the socket stored in it. -/
theorem Represents.owns_iff (h : Represents s ss) (i : Fin maxClientNum) (fd : BitVec 32) :
    (ss i).map Session.sock = some fd ↔
      InUse s i ∧ s.server.table.loadInt (client i + sock) = fd := by
  have hsock : ∀ t, ss i = some t → s.server.table.loadInt (client i + sock) = t.sock :=
    fun t hi => (hi ▸ h.holds i).2.1
  rw [h.inUse_iff, Option.map_eq_some_iff]
  constructor
  · rintro ⟨t, hi, rfl⟩
    exact ⟨⟨t, hi⟩, hsock t hi⟩
  · rintro ⟨⟨t, hi⟩, rfl⟩
    exact ⟨t, hi, (hsock t hi).symm⟩

theorem Settled.consistent (h : Settled s) : Consistent s := by
  obtain ⟨ss, hss, hactive⟩ := h
  have howns := hss.owns_iff
  have hused : Finset.univ.filter (InUse s) = used ss := by
    ext i
    rw [mem_used, Finset.mem_filter, hss.inUse_iff, and_iff_right (Finset.mem_univ i)]
  constructor
  · rw [hused, hss.clientNum_eq]
  · rw [hss.clientNum_eq]
    exact Int.natCast_nonneg _
  · rw [hss.clientNum_eq]
    exact Int.ofNat_le.mpr (Finset.card_le_univ _)
  · intro i hi
    obtain ⟨t, ht⟩ := (hss.inUse_iff i).mp hi
    have hflag := (ht ▸ hss.holds i).2.2.2
    rwa [if_pos (hactive i t ht)] at hflag
  · exact fun i hi => (hss.ownedBy.open_iff _).mpr ⟨i, (howns i _).mpr ⟨hi, rfl⟩⟩
  · exact fun i j hi hj heq =>
      hss.ownedBy.injective i j _ ((howns i _).mpr ⟨hi, heq⟩) ((howns j _).mpr ⟨hj, rfl⟩)
  · intro i hi
    have hholds := hss.holds i
    cases hnone : ss i with
    | none => rwa [hnone] at hholds
    | some t => exact absurd ((hss.inUse_iff i).mpr ⟨t, hnone⟩) hi
  · intro c hc
    rcases hss.ownedBy.owned_or_closed hss.wellFormed hc with ⟨⟨i, ⟨fd, hi, hfd⟩, huniq⟩, hzero⟩ |
      ⟨hnone, hone⟩
    · refine Or.inl ⟨⟨i, ?_, ?_⟩, hzero⟩
      · obtain ⟨huse, rfl⟩ := (howns i fd).mp hi
        exact ⟨huse, hfd⟩
      · rintro j ⟨hj, hconn⟩
        exact huniq j ⟨_, (howns j _).mpr ⟨hj, rfl⟩, hconn⟩
    · exact Or.inr ⟨fun i hi => hnone i _ ((howns i _).mpr ⟨hi, rfl⟩), hone⟩

/-- In every state that the select loop reaches the table is consistent. -/
theorem consistent_of_reachable {beyond : ℕ} {self : BitVec 64}
    (h : (selectLoop beyond self).Reachable s) : Consistent s :=
  (h.invariant (fun _ => settled_init) fun _ _ => Settled.step).consistent

/-- A server without connections. -/
def idle : State := ⟨⟨3, 0, fun _ => 0⟩, ⟨fun _ => none, 0, fun _ => 0⟩⟩

/-- A connection comes in. -/
def connects (fd : BitVec 32) : Events :=
  ⟨1, fun fd' => fd' = 3, fd, 0, fun _ => ⟨.error true, 0, 0, true⟩⟩

/-- The table after the first connection. -/
theorem consistent_of_connects :
    ∃ s, iteration tableSize 0 (connects 5) idle = some s ∧ Consistent s := by
  have hinit : (selectLoop 0 0).init idle := ⟨rfl, fun _ _ => rfl, rfl⟩
  obtain ⟨s, hiter⟩ : ∃ s, iteration tableSize 0 (connects 5) idle = some s :=
    exists_iteration_of_error (fun _ => ⟨true, rfl⟩) 0 idle
  exact ⟨s, hiter, consistent_of_reachable
    (.step (.init hinit) ⟨connects 5, Or.inr ⟨by decide, rfl⟩, hiter⟩)⟩

end H264Cast.TcpServer
