import H264Cast.Session.Table

/-! # The sessions without the table

What the select loop does to the sessions, apart from the table they are kept in: a connection
is admitted to the first free slot, and a session ends when its own socket is ready and its
peer has gone. The loop over the table does this and nothing else, so no client can end the
session of another.
-/

namespace H264Cast.TcpServer

namespace Slots

/-- No session. -/
def empty : Slots := fun _ => none

/-- A new session, if there is room for it. -/
def accept (u : Slots) (fd : BitVec 32) : Slots :=
  match u.free with
  | none => u
  | some i => Function.update u i (some fd)

/-- An iteration of the loop. A session that has just been admitted is not served. -/
def next (listening : BitVec 32) (u : Slots) (e : Events) : Slots :=
  if e.selectResult ≤ 0 then u
  else
    let u' := if e.ready listening ∧ 0 ≤ e.clientSocket.toInt then u.accept e.clientSocket else u
    fun i => if (u i).any e.ready && (e.clients i).fails then none else u' i

end Slots

/-- The sessions in the table. -/
def slots (s : State) : Slots := fun i =>
  if s.server.table.loadInt (client i + bUse) = 0 then none
  else some (s.server.table.loadInt (client i + sock))

variable {m : Memory Byte} {limit : ℕ} {s s' : State} {ss : Fin maxClientNum → Option Session}
  {i : Fin maxClientNum} {e : Events} {isSet : BitVec 32 → Bool} {clients : ℕ → ClientEvents}

/-! ### Admitting a connection -/

theorem Represents.slots_eq (h : Represents s ss) : slots s = sockets ss := by
  funext i
  have hholds := h.holds i
  unfold slots sockets
  cases hi : ss i with
  | none => exact if_pos (hholds.bUse_eq_zero_iff.mpr hi)
  | some t =>
    rw [if_neg (by rw [hholds.bUse_eq_zero_iff, hi]; simp)]
    rw [hi] at hholds
    exact congrArg some hholds.2.1

theorem sockets_admitted (ss : Fin maxClientNum → Option Session) (fd : BitVec 32) :
    sockets (admitted ss fd) = (sockets ss).accept fd := by
  unfold admitted Slots.accept
  cases (sockets ss).free with
  | none => rfl
  | some i => exact map_update ss i _

/-- A session that was there stays, and a new one is active. -/
theorem admitted_cases (ss : Fin maxClientNum → Option Session) (fd : BitVec 32)
    (i : Fin maxClientNum) :
    admitted ss fd i = ss i ∨ ss i = none ∧ admitted ss fd i = some ⟨fd, true⟩ := by
  unfold admitted
  cases hfree : (sockets ss).free with
  | none => exact Or.inl rfl
  | some k =>
    rcases eq_or_ne i k with rfl | hne
    · have hnone : ss i = none := Option.map_eq_none_iff.mp (Slots.eq_none_of_free hfree)
      exact Or.inr ⟨hnone, Function.update_self ..⟩
    · exact Or.inl (Function.update_of_ne hne _ _)

/-! ### An iteration -/

theorem Represents.mem_readSet (h : Represents s ss) {fd : BitVec 32} :
    fd ∈ readSet s.server ↔ fd = s.server.mySocket ∨ ∃ i, sockets ss i = some fd := by
  have hslot : ∀ i : Fin maxClientNum, s.server.table.loadInt (client i + bUse) ≠ 0 →
      sockets ss i = some (s.server.table.loadInt (client i + sock)) := by
    intro i huse
    rw [← h.slots_eq, slots, if_neg huse]
  rw [readSet, List.mem_cons, List.mem_map]
  refine or_congr_right ⟨?_, ?_⟩
  · rintro ⟨k, hk, rfl⟩
    obtain ⟨hk, huse⟩ := List.mem_filter.mp hk
    exact ⟨⟨k, List.mem_range.mp hk⟩, hslot ⟨k, List.mem_range.mp hk⟩ (by simpa using huse)⟩
  · rintro ⟨i, hi⟩
    have huse : s.server.table.loadInt (client i + bUse) ≠ 0 := by
      intro hzero
      rw [← h.slots_eq, slots, if_pos hzero] at hi
      cases hi
    refine ⟨i.val, List.mem_filter.mpr ⟨List.mem_range.mpr i.isLt, by simpa using huse⟩, ?_⟩
    exact Option.some.inj ((hslot i huse).symm.trans hi)

/-- What is left of active sessions when those that are ready and fail have been ended. -/
theorem sockets_left (hactive : AllActive ss) :
    sockets (fun j => (served isSet clients (List.range maxClientNum) ss j).filter
        Session.isActive) =
      fun i => if (sockets ss i).any isSet && (clients i).fails then none else sockets ss i := by
  funext i
  have hi : i.val ∈ List.range maxClientNum := List.mem_range.mpr i.isLt
  cases hss : ss i with
  | none => simp [sockets, served, hss]
  | some t =>
    have ht := hactive i t hss
    cases hset : isSet t.sock <;> cases hfails : (clients i).fails <;>
      simp [sockets, served, hss, Session.after, ht, hset, hfails]

/-- The sockets that are ready, among those that are waited for. -/
def readyOf (s : State) (e : Events) (fd : BitVec 32) : Bool :=
  (readSet s.server).contains fd && e.ready fd

theorem iteration_eq (limit : ℕ) (self : BitVec 64) (e : Events) (s : State) :
    TcpServer.iteration limit self e s =
      if e.selectResult ≤ 0 then some s
      else
        let s' := if readyOf s e s.server.mySocket then
          TcpServer.incomingConnectionHandler self e s else s
        (TcpServer.serveAll limit (readyOf s e) e.clients (List.range maxClientNum)
          s'.server.table).map fun table =>
            destroyAll (List.range maxClientNum)
              { s' with server := { s'.server with table := table } } := by
  have hset : readyOf s e = fun fd => decide (fd ∈ readSet s.server) && e.ready fd := by
    funext fd
    rw [readyOf, List.contains_eq_mem]
  rw [hset]
  rfl

theorem Represents.any_readyOf (h : Represents s ss) (i : Fin maxClientNum) :
    (sockets ss i).any (readyOf s e) = (sockets ss i).any e.ready := by
  cases hi : sockets ss i with
  | none => rfl
  | some fd => simp [readyOf, h.mem_readSet.mpr (Or.inr ⟨i, hi⟩)]

/-- A new connection is not waited for yet. -/
theorem Represents.readyOf_of_fresh (h : Represents s ss) {fd : BitVec 32}
    (hfree : s.sockets.resource fd = none) (hnew : fd ≠ s.server.mySocket) :
    readyOf s e fd = false := by
  have hnot : fd ∉ readSet s.server := by
    rw [h.mem_readSet]
    rintro (heq | hi)
    · exact hnew heq
    · obtain ⟨c, hc⟩ := (h.ownedBy.open_iff fd).mpr hi
      rw [hfree] at hc
      cases hc
  simp [readyOf, hnot]

/-- The connection is dealt with as the sessions say. -/
theorem Represents.connect (h : Represents s ss) (hactive : AllActive ss) (hfresh : Fresh e s)
    (hnew : e.clientSocket ≠ s.server.mySocket) (self : BitVec 64) :
    ∃ ss₁, Represents (if readyOf s e s.server.mySocket
          then TcpServer.incomingConnectionHandler self e s else s) ss₁ ∧ AllActive ss₁ ∧
      sockets ss₁ = (if e.ready s.server.mySocket ∧ 0 ≤ e.clientSocket.toInt
          then (sockets ss).accept e.clientSocket else sockets ss) ∧
      ∀ i, (sockets ss₁ i).any (readyOf s e) = (sockets ss i).any e.ready := by
  have hmem : readyOf s e s.server.mySocket = e.ready s.server.mySocket := by
    simp [readyOf, h.mem_readSet]
  rw [hmem]
  by_cases hready : e.ready s.server.mySocket
  · rw [if_pos hready]
    rcases hfresh with hneg | ⟨hpos, hfree⟩
    · rw [TcpServer.incomingConnectionHandler, if_pos hneg, if_neg (by omega)]
      exact ⟨ss, h, hactive, rfl, h.any_readyOf⟩
    · rw [if_pos ⟨hready, by omega⟩]
      refine ⟨_, h.admitted self hpos hfree, fun i t ht => ?_, sockets_admitted _ _, fun i => ?_⟩
      · rcases admitted_cases ss e.clientSocket i with heq | ⟨-, heq⟩
        · exact hactive i t (heq ▸ ht)
        · obtain rfl := Option.some.inj (heq.symm.trans ht)
          rfl
      · rcases admitted_cases ss e.clientSocket i with heq | ⟨hnone, heq⟩
        · rw [← h.any_readyOf, sockets, heq]
          rfl
        · simp [sockets, heq, hnone, h.readyOf_of_fresh hfree hnew]
  · rw [if_neg hready, if_neg (fun hand => hready hand.1)]
    exact ⟨ss, h, hactive, rfl, h.any_readyOf⟩

/-- An iteration does to the sessions what it does without the table. -/
theorem Represents.iteration {beyond : ℕ} {self : BitVec 64} (h : Represents s ss)
    (hactive : AllActive ss) (hfresh : Fresh e s) (hnew : e.clientSocket ≠ s.server.mySocket)
    (hiter : TcpServer.iteration (tableSize + beyond) self e s = some s') :
    ∃ ss', Represents s' ss' ∧ AllActive ss' ∧
      sockets ss' = (sockets ss).next s.server.mySocket e := by
  rw [iteration_eq] at hiter
  rw [Slots.next]
  by_cases hselect : e.selectResult ≤ 0
  · rw [if_pos hselect] at hiter ⊢
    obtain rfl := Option.some.inj hiter
    exact ⟨ss, h, hactive, rfl⟩
  · rw [if_neg hselect] at hiter ⊢
    obtain ⟨table, hserve, rfl⟩ := Option.map_eq_some_iff.mp hiter
    obtain ⟨ss₁, h₁, hactive₁, hsockets, hready⟩ := h.connect hactive hfresh hnew self
    refine ⟨_, h₁.serve_destroy hserve, allActive_filter _, ?_⟩
    rw [sockets_left hactive₁]
    funext i
    rw [hready, hsockets]

/-! ### Runs -/

theorem mySocket_incomingConnectionHandler (self : BitVec 64) (e : Events) (s : State) :
    (TcpServer.incomingConnectionHandler self e s).server.mySocket = s.server.mySocket := by
  unfold TcpServer.incomingConnectionHandler
  split
  · rfl
  · split <;> rfl

theorem mySocket_destroyClientSession (s : State) (k : ℕ) :
    (destroyClientSession s k).server.mySocket = s.server.mySocket := by
  rw [destroyClientSession]
  split_ifs <;> rfl

theorem mySocket_destroyAll (is : List ℕ) (s : State) :
    (destroyAll is s).server.mySocket = s.server.mySocket := by
  induction is generalizing s with
  | nil => rfl
  | cons k is ih =>
    rw [destroyAll, ih]
    split_ifs
    · exact mySocket_destroyClientSession s k
    · rfl

/-- The listening socket stays. -/
theorem mySocket_iteration {self : BitVec 64} (h : TcpServer.iteration limit self e s = some s') :
    s'.server.mySocket = s.server.mySocket := by
  rw [TcpServer.iteration] at h
  by_cases hselect : e.selectResult ≤ 0
  · rw [if_pos hselect] at h
    obtain rfl := Option.some.inj h
    rfl
  · rw [if_neg hselect] at h
    obtain ⟨table, -, rfl⟩ := Option.map_eq_some_iff.mp h
    rw [mySocket_destroyAll]
    split_ifs
    · exact mySocket_incomingConnectionHandler self e s
    · rfl

/-- The runs of the select loop, with what the system returns in each iteration. A descriptor
that `accept` returns is not that of the listening socket. -/
inductive Run (beyond : ℕ) (self : BitVec 64) (s₀ : State) : List Events → State → Prop
  | nil : Run beyond self s₀ [] s₀
  | snoc {es : List Events} {s s' : State} {e : Events} : Run beyond self s₀ es s → Fresh e s →
      e.clientSocket ≠ s.server.mySocket →
      TcpServer.iteration (tableSize + beyond) self e s = some s' →
      Run beyond self s₀ (es ++ [e]) s'

variable {beyond : ℕ} {self : BitVec 64} {s₀ : State} {es : List Events}

theorem Run.represents (hrun : Run beyond self s₀ es s) (hinit : (selectLoop beyond self).init s₀) :
    s.server.mySocket = s₀.server.mySocket ∧ ∃ ss, Represents s ss ∧ AllActive ss ∧
      sockets ss = es.foldl (Slots.next s₀.server.mySocket) Slots.empty := by
  induction hrun with
  | nil =>
    refine ⟨rfl, fun _ => none, represents_init hinit, ?_, rfl⟩
    rintro _ _ ⟨⟩
  | snoc _ hfresh hnew hiter ih =>
    obtain ⟨hlisten, ss, hss, hactive, hsockets⟩ := ih
    obtain ⟨ss', hss', hactive', hnext⟩ := hss.iteration hactive hfresh hnew hiter
    refine ⟨(mySocket_iteration hiter).trans hlisten, ss', hss', hactive', ?_⟩
    rw [hnext, List.foldl_append, hlisten, hsockets]
    rfl

/-- The table holds the sessions that the events alone account for. -/
theorem slots_run (hinit : (selectLoop beyond self).init s₀) (hrun : Run beyond self s₀ es s) :
    slots s = es.foldl (Slots.next s₀.server.mySocket) Slots.empty := by
  obtain ⟨-, ss, hss, -, hsockets⟩ := hrun.represents hinit
  rw [hss.slots_eq, hsockets]

theorem init_idle : (selectLoop 0 0).init idle := ⟨rfl, fun _ _ => rfl, rfl⟩

/-- A descriptor is new when no session has it. -/
theorem Run.fresh (hrun : Run beyond self s₀ es s) (hinit : (selectLoop beyond self).init s₀)
    (hpos : 0 < e.clientSocket.toInt)
    (hnew : ∀ i, es.foldl (Slots.next s₀.server.mySocket) Slots.empty i ≠ some e.clientSocket) :
    Fresh e s := by
  obtain ⟨-, ss, hss, -, hsockets⟩ := hrun.represents hinit
  refine Or.inr ⟨hpos, ?_⟩
  rw [Option.eq_none_iff_forall_ne_some]
  intro c hc
  obtain ⟨i, hi⟩ := (hss.ownedBy.open_iff _).mp ⟨c, hc⟩
  exact hnew i ((congrFun hsockets i).symm.trans hi)

/-- A run goes on when no session sends anything. -/
theorem Run.exists_snoc_of_error (hrun : Run beyond self s₀ es s) (hfresh : Fresh e s)
    (hnew : e.clientSocket ≠ s.server.mySocket)
    (herror : ∀ k, ∃ again, (e.clients k).received = .error again) :
    ∃ s', Run beyond self s₀ (es ++ [e]) s' := by
  obtain ⟨s', hiter⟩ : ∃ s', TcpServer.iteration (tableSize + beyond) self e s = some s' :=
    exists_iteration_of_error herror self s
  exact ⟨s', hrun.snoc hfresh hnew hiter⟩

theorem Run.exists_connects (hrun : Run 0 0 idle es s) (fd : BitVec 32) (hpos : 0 < fd.toInt)
    (hnew : ∀ i, es.foldl (Slots.next 3) Slots.empty i ≠ some fd) (hlisten : fd ≠ 3) :
    ∃ s', Run 0 0 idle (es ++ [connects fd]) s' := by
  have hmine : s.server.mySocket = 3 := (hrun.represents init_idle).1
  refine hrun.exists_snoc_of_error (hrun.fresh init_idle hpos hnew) ?_ fun _ => ⟨true, rfl⟩
  rw [hmine]
  exact hlisten

theorem run_connects : ∃ s, Run 0 0 idle [connects 5] s :=
  Run.exists_connects .nil 5 (by decide) (by decide) (by decide)

/-- The peer of the first connection has gone. -/
def hangsUp : Events := ⟨1, fun fd => fd = 5, -1, 0, fun _ => ⟨.error false, 0, 0, true⟩⟩

/-- Two connections come in, the session of the first one ends, and the next one takes its
slot. -/
theorem slots_run_hangsUp : ∃ s, Run 0 0 idle [connects 5, connects 6, hangsUp, connects 7] s ∧
    slots s = [connects 5, connects 6, hangsUp, connects 7].foldl (Slots.next 3) Slots.empty := by
  obtain ⟨s₁, h₁⟩ := run_connects
  obtain ⟨s₂, h₂⟩ := h₁.exists_connects 6 (by decide) (by decide) (by decide)
  have hlisten : s₂.server.mySocket = 3 := (h₂.represents init_idle).1
  obtain ⟨s₃, h₃⟩ : ∃ s₃, Run 0 0 idle [connects 5, connects 6, hangsUp] s₃ :=
    h₂.exists_snoc_of_error (Or.inl (by decide)) (by rw [hlisten]; decide) fun _ => ⟨false, rfl⟩
  obtain ⟨s, hrun⟩ := h₃.exists_connects 7 (by decide) (by decide) (by decide)
  exact ⟨s, hrun, slots_run init_idle hrun⟩

example : (List.finRange maxClientNum).map
      ([connects 5, connects 6, hangsUp].foldl (Slots.next 3) Slots.empty) =
    [none, some 6, none, none] := by
  decide

/-! ### Destroying the server -/

/-- The listening socket is forgotten, not closed. -/
def destroyServer (s : State) : State :=
  let s :=
    if 0 < s.server.mySocket.toInt then { s with server := { s.server with mySocket := 0 } } else s
  (List.range maxClientNum).foldl (fun s i =>
    if s.server.table.loadInt (client i + bUse) = 1 then destroyClientSession s i else s) s

theorem Represents.destroySessions (h : Represents s ss) (is : List ℕ)
    (his : ∀ k ∈ is, k < maxClientNum) :
    Represents (is.foldl
        (fun s k => if s.server.table.loadInt (client k + bUse) = 1 then
          TcpServer.destroyClientSession s k else s) s)
      fun j => if j.val ∈ is then none else ss j := by
  induction is generalizing s ss with
  | nil => simpa using h
  | cons k is ih =>
    obtain ⟨hk, his⟩ := List.forall_mem_cons.mp his
    lift k to Fin maxClientNum using hk with i
    have hcons : (fun j : Fin maxClientNum => if j.val ∈ i.val :: is then none else ss j) =
        fun j => if j.val ∈ is then none else Function.update ss i none j := by
      funext j
      rcases eq_or_ne j i with rfl | hj
      · simp
      · simp [hj, Fin.val_ne_of_ne hj]
    rw [hcons, List.foldl_cons]
    have hholds := h.holds i
    cases hi : ss i with
    | none =>
      rw [hi] at hholds
      have hself : Function.update ss i none = ss := by
        rw [← hi, Function.update_eq_self]
      rw [hholds.loadInt_none (by decide), if_neg (by decide), hself]
      exact ih h his
    | some t =>
      rw [hi] at hholds
      rw [if_pos hholds.2.2.1]
      exact ih (h.destroyClientSession hi) his

theorem Represents.destroyServer (h : Represents s ss) :
    Represents (TcpServer.destroyServer s) fun _ => none := by
  have hforget : Represents (if 0 < s.server.mySocket.toInt
      then { s with server := { s.server with mySocket := 0 } } else s) ss := by
    split_ifs
    · exact ⟨h.holds, h.clientNum_eq, h.wellFormed, h.ownedBy⟩
    · exact h
  have hall : ∀ j : Fin maxClientNum, j.val ∈ List.range maxClientNum :=
    fun j => List.mem_range.mpr j.isLt
  have hdestroyed := hforget.destroySessions (List.range maxClientNum)
    fun _ => List.mem_range.mp
  simp only [hall, if_true] at hdestroyed
  exact hdestroyed

/-- Once the server has been destroyed the table is zero, and every connection that was ever
accepted has been closed exactly once. -/
theorem destroyServer_of_reachable (h : (selectLoop beyond self).Reachable s) :
    (destroyServer s).server.clientNum = 0 ∧
      (∀ a < tableSize, (destroyServer s).server.table a = 0) ∧
      (∀ fd, (destroyServer s).sockets.resource fd = none) ∧
      ∀ c < (destroyServer s).sockets.opened, (destroyServer s).sockets.closes c = 1 := by
  obtain ⟨ss, hss, -⟩ := h.invariant (fun _ => settled_init) fun _ _ => Settled.step
  have hend := hss.destroyServer
  refine ⟨hend.clientNum_eq, fun a ha => ?_, fun fd => ?_, fun c hc => ?_⟩
  · have hslot : a / sessionSize < maxClientNum := Nat.div_lt_of_lt_mul (by
      rwa [Nat.mul_comm])
    have hzero := hend.holds ⟨_, hslot⟩ (a % sessionSize) (Nat.mod_lt _ (by decide))
    rwa [client, Nat.mul_comm, Nat.div_add_mod] at hzero
  · rw [Option.eq_none_iff_forall_ne_some]
    intro c hc
    obtain ⟨_, hi⟩ := (hend.ownedBy.open_iff fd).mp ⟨c, hc⟩
    cases hi
  · rcases hend.ownedBy.owned_or_closed hend.wellFormed hc with ⟨⟨_, ⟨_, hi, -⟩, -⟩, -⟩ | ⟨-, hone⟩
    · cases hi
    · exact hone

/-- The server is destroyed with its first connection. -/
theorem destroyServer_connects : ∃ s, TcpServer.iteration tableSize 0 (connects 5) idle = some s ∧
    (destroyServer s).server.clientNum = 0 ∧
      (∀ a < tableSize, (destroyServer s).server.table a = 0) ∧
      (∀ fd, (destroyServer s).sockets.resource fd = none) ∧
      ∀ c < (destroyServer s).sockets.opened, (destroyServer s).sockets.closes c = 1 := by
  obtain ⟨s, hiter⟩ : ∃ s, TcpServer.iteration tableSize 0 (connects 5) idle = some s :=
    exists_iteration_of_error (fun _ => ⟨true, rfl⟩) 0 idle
  exact ⟨s, hiter, destroyServer_of_reachable
    (.step (.init init_idle) ⟨connects 5, Or.inr ⟨by decide, rfl⟩, hiter⟩)⟩

end H264Cast.TcpServer
