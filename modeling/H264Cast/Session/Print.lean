import H264Cast.Session.Manager
import H264Cast.Session.Reply

/-! # Where a request is printed from

A request that fills its buffer without a zero is printed on into the memory behind it. In all
slots but the last that is the next slot, where a zero comes in time. In the last slot it is
whatever follows the table, and the loop keeps to its memory unless there is no zero in that.
-/

namespace H264Cast.TcpServer

/-- What the peer of a session has sent, up to its first zero. -/
def ClientEvents.request (ev : ClientEvents) : Option (List Byte) :=
  match ev.received with
  | .error _ => none
  | .bytes bs _ => if bs = [] then none else some (bs.takeWhile (· ≠ 0))

/-- The slot behind which the table ends. -/
def lastSlot : Fin maxClientNum := ⟨3, by decide⟩

/-- A request that fills its buffer comes up in the last slot, and no zero behind the table. -/
structure Overruns (beyond : ℕ) (e : Events) (s : State) : Prop where
  selected : 0 < e.selectResult
  ready : (slots s lastSlot).any e.ready
  fills : ∃ text, (e.clients lastSlot).request = some text ∧ bufSize ≤ text.length
  not_terminated : ¬ s.server.table.Terminated tableSize beyond

variable {m m' : Memory Byte} {base limit a : ℕ} {t : Session} {ev : ClientEvents}
  {s s' : State} {ss : Fin maxClientNum → Option Session} {i : Fin maxClientNum} {e : Events}
  {out : Option (List Byte)} {isSet : BitVec 32 → Bool} {clients : ℕ → ClientEvents}
  {beyond : ℕ} {self : BitVec 64} {v : Message} {is : List ℕ}

/-! ### One session -/

/-- What is received, as a message. -/
theorem exists_message {text : List Byte} (h : ev.request = some text) :
    ∃ v : Message, v.text = text ∧ ev.received = .bytes v.bytes v.length_le := by
  unfold ClientEvents.request at h
  cases hrecv : ev.received with
  | error again =>
    rw [hrecv] at h
    cases h
  | bytes bs hbs =>
    simp only [hrecv] at h
    split_ifs at h with hnil
    exact ⟨⟨bs, hnil, hbs⟩, Option.some.inj h, rfl⟩

/-- Without a request there is no reply. -/
theorem handler_of_request_none (h : ev.request = none) (limit : ℕ) (m : Memory Byte)
    (base : ℕ) :
    ∃ m', incomingConnectionHandlerClient limit ev m base = some (none, m') := by
  unfold ClientEvents.request at h
  unfold incomingConnectionHandlerClient
  cases hrecv : ev.received with
  | error again => exact ⟨_, rfl⟩
  | bytes bs hbs =>
    simp only [hrecv] at h
    split_ifs at h with hnil
    exact ⟨_, if_pos hnil⟩

/-- A request is printed and the reply is sent. -/
theorem handler_of_request {v : Message} (h : ev.received = .bytes v.bytes v.length_le)
    (limit : ℕ) (m : Memory Byte) (base : ℕ) :
    incomingConnectionHandlerClient limit ev m base =
      (buildReply limit (received m base v ev.timeNow) base).map fun m =>
        (some (reply limit m base),
          if ev.written ≤ 0 ∧ ¬ ev.writeAgain then m.storeInt (base + bIsActive) (-1) else m) := by
  unfold incomingConnectionHandlerClient
  simp only [h]
  exact if_neg v.ne_nil

theorem received_of_ge (m : Memory Byte) (v : Message) (timeNow : BitVec 128)
    (ha : base + sessionSize ≤ a) : received m base v timeNow a = m a := by
  have hwrite : ∀ (m : Memory Byte) (p : ℕ) (bs : List Byte), p + bs.length ≤ sessionSize →
      m.write (base + p) bs a = m a :=
    fun m p bs hp => Memory.write_of_ge (by omega)
  have hclear : ∀ (m : Memory Byte) (p : ℕ), p + bufSize ≤ sessionSize →
      m.clear (base + p) bufSize a = m a :=
    fun m p hp => hwrite m p _ (by rwa [List.length_replicate])
  rw [received, storeMessage, hwrite _ _ _ (by rw [Memory.length_wordBytes]; decide),
    hwrite _ _ _ (Nat.add_le_add_left v.length_le _), clearBuffers, hclear _ _ (by decide),
    hclear _ _ (by decide)]

/-- The string that is printed ends in the buffer or behind the session. -/
theorem terminated_received_iff (hlimit : base + sessionSize ≤ limit) (m : Memory Byte)
    (v : Message) (timeNow : BitVec 128) :
    (received m base v timeNow).Terminated (base + recvBuf) (limit - (base + recvBuf)) ↔
      v.text.length < bufSize ∨
        m.Terminated (base + sessionSize) (limit - (base + sessionSize)) := by
  have hsplit : limit - (base + recvBuf) = bufSize + (limit - (base + sessionSize)) := by
    rw [sessionSize] at hlimit ⊢
    omega
  have hend : base + recvBuf + bufSize = base + sessionSize := by rw [sessionSize, Nat.add_assoc]
  have hfront : (received m base v timeNow).Terminated (base + recvBuf) bufSize ↔
      v.text.length < bufSize := by
    constructor
    · intro hterm
      have hlt := hterm.length_string_lt
      rwa [string_bufSize] at hlt
    · intro hlt
      have hself : base + sessionSize ≤ base + sessionSize := Nat.le_refl _
      have hterm := (string_received hlt hself m timeNow).1
      rwa [← hend, Nat.add_sub_cancel_left] at hterm
  rw [hsplit, Memory.terminated_add, hfront, hend]
  exact or_congr_right (Memory.terminated_congr fun _ ha _ => received_of_ge m v timeNow ha)

/-- Serving a session is undefined when a request fills its buffer and no zero follows. -/
theorem handler_eq_none_iff (hlimit : base + sessionSize ≤ limit) :
    incomingConnectionHandlerClient limit ev m base = none ↔
      (∃ text, ev.request = some text ∧ bufSize ≤ text.length) ∧
        ¬ m.Terminated (base + sessionSize) (limit - (base + sessionSize)) := by
  cases hrequest : ev.request with
  | none =>
    obtain ⟨m', hnone⟩ := handler_of_request_none hrequest limit m base
    rw [hnone]
    simp
  | some text =>
    obtain ⟨v, rfl, hrecv⟩ := exists_message hrequest
    have hbuild : buildReply limit (received m base v ev.timeNow) base = none ↔
        ¬ (received m base v ev.timeNow).Terminated (base + recvBuf)
          (limit - (base + recvBuf)) := by
      rw [buildReply]
      split_ifs with hterm <;> simp [hterm]
    rw [handler_of_request hrecv, Option.map_eq_none_iff, hbuild,
      terminated_received_iff hlimit]
    simp [not_or]

/-! ### The slots in front of the last one -/

theorem client_succ_le (hi : i.val + 1 < maxClientNum) :
    client i + sessionSize + sessionSize ≤ tableSize := by
  rw [← client_succ]
  exact client_le_tableSize ⟨i + 1, hi⟩

/-- A zero follows in the next slot. -/
theorem bUse_byte_next (h : ∀ j : Fin maxClientNum, Holds m (client j) (ss j))
    (hi : i.val + 1 < maxClientNum) : m (client i + sessionSize + bUse + 1) = 0 := by
  have hbyte := (h ⟨i + 1, hi⟩).bUse_byte
  rwa [client_succ] at hbyte

theorem exists_handler (h : ∀ j : Fin maxClientNum, Holds m (client j) (ss j))
    (hlimit : tableSize ≤ limit) (hi : i.val + 1 < maxClientNum) (ev : ClientEvents) :
    ∃ r, incomingConnectionHandlerClient limit ev m (client i) = some r := by
  have hnext := client_succ_le hi
  rw [← Option.ne_none_iff_exists', Ne, handler_eq_none_iff (by omega)]
  rintro ⟨-, hterm⟩
  have hsize : bUse + 1 < sessionSize := by decide
  have hbyte : m (client i + sessionSize + (bUse + 1)) = 0 := by
    rw [← Nat.add_assoc]
    exact bUse_byte_next h hi
  exact hterm (Memory.terminated_of_eq_zero (by omega) hbyte)

/-- What is behind the table stays. -/
theorem handler_beyond (h : ∀ j : Fin maxClientNum, Holds m (client j) (ss j))
    (hlimit : tableSize ≤ limit) (hi : i.val + 1 < maxClientNum)
    (hserve : incomingConnectionHandlerClient limit ev m (client i) = some (out, m'))
    (ha : tableSize ≤ a) : m' a = m a := by
  have hnext := client_succ_le hi
  obtain ⟨m₁, heq, rfl⟩ := incomingConnectionHandlerClient_marks hserve
  have hm₁ := heq a (Or.inr ⟨by omega, bUse_byte_next h hi, by omega⟩)
  split_ifs
  · rw [← hm₁]
    have hsize : bIsActive + 4 ≤ sessionSize := by decide
    apply Memory.write_of_ge
    rw [Memory.length_wordBytes]
    omega
  · exact hm₁

theorem exists_serveAll (isSet : BitVec 32 → Bool) (clients : ℕ → ClientEvents)
    (hlimit : tableSize ≤ limit) (his : ∀ k ∈ is, k + 1 < maxClientNum)
    (h : ∀ j : Fin maxClientNum, Holds m (client j) (ss j)) :
    ∃ m', serveAll limit isSet clients is m = some m' ∧ ∀ a, tableSize ≤ a → m' a = m a := by
  induction is generalizing m ss with
  | nil => exact ⟨m, rfl, fun _ _ => rfl⟩
  | cons k is ih =>
    obtain ⟨hk, his⟩ := List.forall_mem_cons.mp his
    rw [serveAll]
    split_ifs with hready
    · lift k to Fin maxClientNum using Nat.lt_of_succ_lt hk with i
      obtain ⟨⟨out, m₁⟩, hclient⟩ := exists_handler h hlimit hk (clients i)
      obtain ⟨t, ht⟩ := Option.ne_none_iff_exists'.mp (mt (h i).bUse_eq_zero_iff.mpr hready.1)
      obtain ⟨m', hm', hbeyond⟩ := ih his (holds_after h hlimit ht hclient)
      refine ⟨m', by rw [hclient]; exact hm', fun a ha => ?_⟩
      rw [hbeyond a ha, handler_beyond h hlimit hk hclient ha]
    · exact ih his h

/-! ### An iteration -/

theorem serveAll_append (is js : List ℕ) (m : Memory Byte) :
    serveAll limit isSet clients (is ++ js) m =
      (serveAll limit isSet clients is m).bind (serveAll limit isSet clients js) := by
  induction is generalizing m with
  | nil => rfl
  | cons i is ih =>
    rw [List.cons_append, serveAll, serveAll]
    split_ifs
    · rw [Option.bind_assoc]
      congr 1
      funext r
      obtain ⟨out, m₁⟩ := r
      exact ih m₁
    · exact ih m

/-- The loop is undefined when serving the last session is. -/
theorem serveAll_eq_none_iff (h : ∀ j : Fin maxClientNum, Holds m (client j) (ss j)) :
    serveAll (tableSize + beyond) isSet clients (List.range maxClientNum) m = none ↔
      (sockets ss lastSlot).any isSet ∧
        (∃ text, (clients lastSlot).request = some text ∧ bufSize ≤ text.length) ∧
          ¬ m.Terminated tableSize beyond := by
  have hlimit : tableSize ≤ tableSize + beyond := Nat.le_add_right _ _
  have hfront : ∀ k ∈ List.range 3, k + 1 < maxClientNum := by decide
  obtain ⟨m₁, hserve, hbeyond⟩ := exists_serveAll isSet clients hlimit hfront h
  have hend : client lastSlot + sessionSize = tableSize := by decide
  have hterm : m₁.Terminated tableSize beyond ↔ m.Terminated tableSize beyond :=
    Memory.terminated_congr fun a ha _ => hbeyond a ha
  have hlast := holds_serveAll_served hlimit (fun k hk => Nat.lt_of_succ_lt (hfront k hk)) h hserve
    lastSlot
  rw [served, if_neg (by decide)] at hlast
  have hrange : List.range maxClientNum = List.range 3 ++ [lastSlot.val] := rfl
  rw [hrange, serveAll_append, hserve, Option.bind_some, serveAll]
  cases hss : ss lastSlot with
  | none =>
    rw [hss] at hlast
    rw [hlast.loadInt_none (by decide), if_neg (by simp)]
    simp [serveAll, sockets, hss]
  | some t =>
    rw [hss] at hlast
    rw [hlast.2.1, hlast.2.2.1]
    cases hset : isSet t.sock with
    | false => simp [serveAll, sockets, hss, hset]
    | true =>
      have hle : client lastSlot + sessionSize ≤ tableSize + beyond := by omega
      have hnone : incomingConnectionHandlerClient (tableSize + beyond) (clients lastSlot) m₁
          (client lastSlot) = none ↔ _ := handler_eq_none_iff hle
      rw [hend, Nat.add_sub_cancel_left, hterm] at hnone
      rw [if_pos ⟨by decide, rfl⟩]
      change Option.bind _ (some ∘ Prod.snd) = none ↔ _
      rw [← Option.map_eq_bind, Option.map_eq_none_iff, hnone]
      simp [sockets, hss, hset]

theorem incomingConnectionHandler_beyond (self : BitVec 64) (e : Events) (s : State)
    (ha : tableSize ≤ a) :
    (incomingConnectionHandler self e s).server.table a = s.server.table a := by
  unfold incomingConnectionHandler
  split
  · rfl
  · cases hslot : freeSession s.server.table with
    | none => rfl
    | some k =>
      have hend := client_le_tableSize ⟨k, freeSession_lt hslot⟩
      exact openSession_of_notMem _ _ _ _ (Or.inr (Nat.le_trans hend ha))

theorem Represents.iteration_eq_none_iff (h : Represents s ss) (hactive : AllActive ss)
    (hfresh : Fresh e s) (hnew : e.clientSocket ≠ s.server.mySocket) :
    TcpServer.iteration (tableSize + beyond) self e s = none ↔ Overruns beyond e s := by
  rw [iteration_eq]
  by_cases hselect : e.selectResult ≤ 0
  · rw [if_pos hselect]
    exact iff_of_false (Option.some_ne_none _) fun hover => absurd hover.selected (by omega)
  · rw [if_neg hselect]
    obtain ⟨ss₁, h₁, -, -, hready⟩ := h.connect hactive hfresh hnew self
    have hterm : (if readyOf s e s.server.mySocket
        then TcpServer.incomingConnectionHandler self e s else s).server.table.Terminated tableSize
          beyond ↔ s.server.table.Terminated tableSize beyond := by
      refine Memory.terminated_congr fun a ha _ => ?_
      split_ifs
      · exact incomingConnectionHandler_beyond self e s ha
      · rfl
    dsimp only
    rw [Option.map_eq_none_iff, serveAll_eq_none_iff h₁.holds, hready, hterm, ← h.slots_eq]
    constructor
    · rintro ⟨hany, hfills, hnot⟩
      exact ⟨by omega, hany, hfills, hnot⟩
    · rintro ⟨-, hany, hfills, hnot⟩
      exact ⟨hany, hfills, hnot⟩

/-! ### Runs -/

variable {s₀ : State} {es : List Events}

/-- In every state that is reached, whatever comes next: the loop leaves its memory exactly
when a request that fills its buffer comes up in the last slot and no zero behind the table. -/
theorem iteration_undefined_iff (hinit : (selectLoop beyond self).init s₀)
    (hrun : Run beyond self s₀ es s) (hfresh : Fresh e s)
    (hnew : e.clientSocket ≠ s.server.mySocket) :
    iteration (tableSize + beyond) self e s = none ↔ Overruns beyond e s := by
  obtain ⟨-, ss, hss, hactive, -⟩ := hrun.represents hinit
  exact hss.iteration_eq_none_iff hactive hfresh hnew

/-- The fourth client fills its buffer. -/
def floods : Events :=
  ⟨1, fun fd => fd = 8, -1, 0,
    fun _ => ⟨.bytes (List.replicate bufSize 0x61) (by simp), 0, 5, true⟩⟩

/-- The request in the last slot is printed on behind the table, where there is nothing. -/
theorem iteration_undefined_iff_floods :
    ∃ s, Run 0 0 idle [connects 5, connects 6, connects 7, connects 8] s ∧
      iteration (tableSize + 0) 0 floods s = none := by
  obtain ⟨s₁, h₁⟩ := run_connects
  obtain ⟨s₂, h₂⟩ := h₁.exists_connects 6 (by decide) (by decide) (by decide)
  obtain ⟨s₃, h₃⟩ := h₂.exists_connects 7 (by decide) (by decide) (by decide)
  obtain ⟨s, hrun⟩ := h₃.exists_connects 8 (by decide) (by decide) (by decide)
  obtain ⟨hlisten, ss, hss, -, hsockets⟩ := hrun.represents init_idle
  have hnew : floods.clientSocket ≠ s.server.mySocket := by
    rw [hlisten]
    decide
  refine ⟨s, hrun, (iteration_undefined_iff init_idle hrun (Or.inl (by decide)) hnew).mpr ?_⟩
  constructor
  case selected => decide
  case ready =>
    rw [hss.slots_eq, hsockets]
    decide
  case fills =>
    have hne : bufSize ≠ 0 := by decide
    exact ⟨List.replicate bufSize 0x61, by simp [ClientEvents.request, floods, hne], by simp⟩
  case not_terminated => simp [Memory.Terminated]

end H264Cast.TcpServer
