import H264Cast.Rtp.Loss
import H264Cast.Sample.ClientList
import H264Cast.Sample.SendFailure

/-! # Sending to all clients

`add_client_list` puts an address into the list of clients and opens a socket for it, and
every packet is sent to the sockets of all nodes, one after another. The list is walked in
memory; what the walk does is described by the clients that the nodes stand for.
-/

namespace H264Cast.Fanout

open ClientList Packetizer Depacketizer
open SendFailure (Outcome Event sendToNode)

/-- The list in memory, and the socket and the number of failures in each of its nodes. -/
structure Clients where
  heap : Heap ClientNode
  info : ℕ → SendFailure.ClientNode

/-- The loop over the nodes, with the outcome for each socket. -/
def sendLoop (h : Heap ClientNode) (outcome : ℕ → Outcome) :
    ℕ → ℕ → (ℕ → SendFailure.ClientNode) → Option (List Event × (ℕ → SendFailure.ClientNode))
  | 0, _, _ => none
  | fuel + 1, q, info =>
    (h.lookup q).bind fun node =>
      let r := sendToNode (info q) (outcome (info q).socketC)
      let info := Function.update info q r.2
      match node.next with
      | none => some (r.1, info)
      | some next =>
        (sendLoop h outcome fuel next info).map fun (events, info) => (r.1 ++ events, info)

def sendDataToClientList (llist : ℕ) (outcome : ℕ → Outcome) (c : Clients) :
    Option (List Event × Clients) :=
  (c.heap.lookup llist).bind fun head =>
    match head.next with
    | none => some ([], c)
    | some q =>
      (sendLoop c.heap outcome c.heap.keys.card q c.info).map fun (events, info) =>
        (events, { c with info })

/-- A client: its address, its socket and the number of its failures. -/
abbrev Member := List Byte × SendFailure.ClientNode

/-- The list in memory stands for these clients. -/
def Represents (llist : ℕ) (h₀ : Heap ClientNode) (c : Clients) (ms : List Member) : Prop :=
  ∃ es, Holds llist h₀ c.heap es ∧ ms = es.map fun e => (e.2, c.info e.1)

/-- A packet is sent to each client. -/
def sendMembers (outcome : ℕ → Outcome) (ms : List Member) : List Member :=
  ms.map fun m => (m.1, (sendToNode m.2 (outcome m.2.socketC)).2)

/-- A call of the packetizer, with the outcome of sending each of its packets to each socket. -/
structure Sending where
  call : Call
  outcome : ℕ → ℕ → Outcome

/-- The clients, the variables of the packetizer, and the packets that the sockets took. -/
structure State where
  clients : Clients
  packetizer : Packetizer
  taken : List (ℕ × List Byte)

/-- The sockets that took a packet. -/
def takers (packet : List Byte) (events : List Event) : List (ℕ × List Byte) :=
  events.filterMap fun
    | .send s false => some (s, packet)
    | _ => none

/-- The packets of a call are sent one after another. -/
def sendPackets (llist : ℕ) (outcome : ℕ → ℕ → Outcome) :
    ℕ → List (List Byte) → State → Option State
  | _, [], s => some s
  | i, packet :: packets, s =>
    (sendDataToClientList llist (outcome i) s.clients).bind fun (events, clients) =>
      sendPackets llist outcome (i + 1) packets
        { s with clients, taken := s.taken ++ takers packet events }

/-- A call of `h264nal2rtp_send` with the list of clients. -/
def sendNal (llist : ℕ) (s : State) (a : Sending) : Option State :=
  (h264nal2rtpSend a.call.framerate a.call.pstStream a.call.naluLen s.packetizer).bind
    fun (_, p) =>
      sendPackets llist a.outcome 0 (p.sent.drop s.packetizer.sent.length)
        { s with packetizer := p }

/-- The packets that a socket took. -/
def State.takenOn (s : State) (socketC : ℕ) : List (List Byte) :=
  (s.taken.filter fun x => x.1 = socketC).map Prod.snd

variable {llist fuel q : ℕ} {h h₀ : Heap ClientNode} {c c' : Clients} {ms : List Member}
  {es : List Entry} {nodes : List (ℕ × ClientNode)} {info : ℕ → SendFailure.ClientNode}
  {outcome : ℕ → Outcome} {a : Joining}

/-! ### The list in memory and the clients it stands for -/

/-- The loop does what is done to the clients one by one. -/
theorem sendLoop_eq (outcome : ℕ → Outcome) (info : ℕ → SendFailure.ClientNode)
    (hq : Heap.Chain ClientNode.next h (some q) nodes) (hnodup : (nodes.map Prod.fst).Nodup)
    (hfuel : nodes.length ≤ fuel) :
    ∃ info', sendLoop h outcome fuel q info = some
        ((SendFailure.sendDataToClientList (nodes.map fun x => info x.1) outcome).1, info') ∧
      (∀ x ∈ nodes, info' x.1 = (sendToNode (info x.1) (outcome (info x.1).socketC)).2) ∧
      ∀ p ∉ nodes.map Prod.fst, info' p = info p := by
  induction nodes generalizing q fuel info with
  | nil => cases Heap.chain_nil.mp hq
  | cons x nodes ih =>
    obtain ⟨hp, hx, hnext⟩ := hq
    obtain rfl := Option.some.inj hp
    obtain ⟨hxn, hnodup⟩ := List.nodup_cons.mp hnodup
    have hother : ∀ (node : SendFailure.ClientNode), ∀ y ∈ nodes,
        Function.update info x.1 node y.1 = info y.1 := by
      intro node y hy
      exact Function.update_of_ne (fun heq => hxn (List.mem_map.mpr ⟨y, hy, heq⟩)) _ _
    cases fuel with
    | zero => cases hfuel
    | succ fuel =>
      simp only [sendLoop, hx, Option.bind_some, List.map_cons, SendFailure.sendDataToClientList]
      cases nodes with
      | nil =>
        rw [Heap.chain_nil.mp hnext, List.map_nil]
        simp only [SendFailure.sendDataToClientList, List.append_nil]
        refine ⟨_, rfl, ?_, ?_⟩
        · rintro y hy
          obtain rfl := List.mem_singleton.mp hy
          exact Function.update_self _ _ _
        · intro p hp
          exact Function.update_of_ne (by simpa using hp) _ _
      | cons y nodes =>
        obtain ⟨info', hloop, hin, hout⟩ := ih
          (Function.update info x.1 (sendToNode (info x.1) (outcome (info x.1).socketC)).2)
          (hnext.1 ▸ hnext) hnodup (Nat.le_of_succ_le_succ hfuel)
        refine ⟨info', ?_, ?_, ?_⟩
        · rw [hnext.1]
          simp only [hloop, Option.map_some]
          rw [List.map_congr_left fun z hz => hother _ z hz]
        · intro z hz
          rcases List.mem_cons.mp hz with rfl | hz
          · rw [hout _ hxn, Function.update_self]
          · rw [hin z hz, hother _ z hz]
        · intro p hp
          rw [List.map_cons, List.mem_cons, not_or] at hp
          rw [hout p hp.2, Function.update_of_ne hp.1]

/-- A packet is sent to every client of the list. -/
theorem Represents.send (hc : Represents llist h₀ c ms) (outcome : ℕ → Outcome) :
    ∃ c', sendDataToClientList llist outcome c =
        some ((SendFailure.sendDataToClientList (ms.map Prod.snd) outcome).1, c') ∧
      Represents llist h₀ c' (sendMembers outcome ms) := by
  obtain ⟨es, hH, rfl⟩ := hc
  have hcard := hH.card_pos
  have hnodup := hH.nodup_fst
  obtain ⟨head, nodes, ⟨-, hhead, hnext⟩, rfl, ht⟩ := hH.chain
  rw [← addresses_eq_map_entry] at hnodup
  have hmap : ((nodes.map entry).map fun e => (e.2, c.info e.1)).map Prod.snd =
      nodes.map fun x => c.info x.1 := by
    simp only [List.map_map]
    rfl
  simp only [sendDataToClientList, hhead, Option.bind_some, hmap]
  cases nodes with
  | nil =>
    rw [Heap.chain_nil.mp hnext]
    exact ⟨c, rfl, [], hH, rfl⟩
  | cons x nodes =>
    rw [List.length_map] at hcard
    obtain ⟨info', hloop, hin, -⟩ :=
      sendLoop_eq outcome c.info (hnext.1 ▸ hnext) hnodup hcard.le
    rw [hnext.1]
    refine ⟨{ c with info := info' }, by simp only [hloop, Option.map_some], _, hH, ?_⟩
    simp only [sendMembers, List.map_map]
    apply List.map_congr_left
    intro y hy
    simp only [Function.comp_apply, entry, hin y hy]

variable {ipaddr : List Byte} {socketC : ℕ} {m : Member} {js : List Joining}

/-- The list stands for clients with these addresses and sockets. -/
def Serves (llist : ℕ) (h₀ : Heap ClientNode) (c : Clients) (ks : List (List Byte × ℕ)) : Prop :=
  ∃ ms, Represents llist h₀ c ms ∧ ms.map (fun m => (m.1, m.2.socketC)) = ks

/-- The packets that arrive, given the outcome of each. -/
def arriving (outcome : ℕ → Outcome) : ℕ → List (List Byte) → List (List Byte)
  | _, [] => []
  | i, packet :: packets =>
    if (outcome i).isFailed then arriving outcome (i + 1) packets
    else packet :: arriving outcome (i + 1) packets

variable {ks : List (List Byte × ℕ)} {s s' : State} {packet : List Byte} {events : List Event}
  {packets : List (List Byte)} {i : ℕ}

theorem filter_takers (packet : List Byte) (events : List Event) (socketC : ℕ) :
    (takers packet events).filter (fun x => x.1 = socketC) =
      takers packet (events.filter fun e => e.socketC = socketC) := by
  induction events with
  | nil => rfl
  | cons e events ih =>
    unfold takers at ih ⊢
    by_cases heq : e.socketC = socketC
    · rw [List.filter_cons_of_pos (by simpa using heq)]
      match e with
      | .close s => exact ih
      | .send s true => exact ih
      | .send s false =>
        have hs : s = socketC := heq
        simp [hs, ih]
    · rw [List.filter_cons_of_neg (by simpa using heq)]
      match e with
      | .close s => exact ih
      | .send s true => exact ih
      | .send s false =>
        have hs : s ≠ socketC := heq
        simp [hs, ih]

/-- A client takes a packet when the call for its socket does not fail. -/
theorem takers_of_mem (hnodup : (ms.map fun m => m.2.socketC).Nodup) (hm : m ∈ ms) :
    (takers packet (SendFailure.sendDataToClientList (ms.map Prod.snd) outcome).1).filter
        (fun x => x.1 = m.2.socketC) =
      if (outcome m.2.socketC).isFailed then [] else [(m.2.socketC, packet)] := by
  have hnodup' : ((ms.map Prod.snd).map SendFailure.ClientNode.socketC).Nodup := by
    rwa [List.map_map]
  rw [filter_takers, SendFailure.filter_events hnodup' (List.mem_map_of_mem hm)]
  cases outcome m.2.socketC with
  | sent => rfl
  | failed errno pos =>
    simp only [sendToNode, SendFailure.Outcome.isFailed, takers]
    split_ifs <;> rfl

theorem Serves.send (hc : Serves llist h₀ c ks) (hnodup : (ks.map Prod.snd).Nodup)
    (outcome : ℕ → Outcome) (packet : List Byte) :
    ∃ events c', sendDataToClientList llist outcome c = some (events, c') ∧
      Serves llist h₀ c' ks ∧ ∀ k ∈ ks, (takers packet events).filter (fun x => x.1 = k.2) =
        if (outcome k.2).isFailed then [] else [(k.2, packet)] := by
  obtain ⟨ms, hms, rfl⟩ := hc
  obtain ⟨c', hsend, hms'⟩ := hms.send outcome
  have hnodup' : (ms.map fun m => m.2.socketC).Nodup := by rwa [List.map_map] at hnodup
  refine ⟨_, c', hsend, ⟨_, hms', ?_⟩, ?_⟩
  · rw [sendMembers, List.map_map]
    apply List.map_congr_left
    intro m _
    simp only [Function.comp_apply, SendFailure.sendToNode_socketC]
  · intro k hk
    obtain ⟨m, hm, rfl⟩ := List.mem_map.mp hk
    exact takers_of_mem hnodup' hm

/-- The packets of a call are sent to all clients, and each takes those that do not fail for
it. -/
theorem Serves.sendPackets (hc : Serves llist h₀ s.clients ks) (hnodup : (ks.map Prod.snd).Nodup)
    (outcome : ℕ → ℕ → Outcome) (i : ℕ) (packets : List (List Byte)) :
    ∃ s', Fanout.sendPackets llist outcome i packets s = some s' ∧
      Serves llist h₀ s'.clients ks ∧ s'.packetizer = s.packetizer ∧
      ∀ k ∈ ks, s'.takenOn k.2 =
        s.takenOn k.2 ++ arriving (fun i => outcome i k.2) i packets := by
  induction packets generalizing s i with
  | nil => exact ⟨s, rfl, hc, rfl, fun k _ => (List.append_nil _).symm⟩
  | cons packet packets ih =>
    obtain ⟨events, c', hsend, hc', htaken⟩ := hc.send hnodup (outcome i) packet
    obtain ⟨s', hs', hserves, hp, hrest⟩ :=
      ih (s := { s with clients := c', taken := s.taken ++ takers packet events }) hc' (i + 1)
    refine ⟨s', ?_, hserves, hp, ?_⟩
    · simp only [Fanout.sendPackets, hsend, Option.bind_some, hs']
    · intro k hk
      rw [hrest k hk, arriving]
      simp only [State.takenOn, List.filter_append, List.map_append, htaken k hk, List.append_assoc]
      split_ifs
      · rfl
      · rfl

/-! ### What arrives at a client -/

theorem arriving_sublist (outcome : ℕ → Outcome) (i : ℕ) (packets : List (List Byte)) :
    (arriving outcome i packets).Sublist packets := by
  induction packets generalizing i with
  | nil => exact .slnil
  | cons packet packets ih =>
    rw [arriving]
    split_ifs
    · exact (ih _).cons _
    · exact (ih _).cons_cons _

/-- The packets of the calls, and those of them that arrive at a client. -/
def transfersTo (socketC : ℕ) : List Sending → BitVec 32 → BitVec 16 → List (Transfer (List Byte))
  | [], _, _ => []
  | a :: as, ts, seq =>
    let packets := packetsOf a.call.framerate ts seq a.call.pstStream a.call.naluLen
    ⟨packets, arriving (fun i => a.outcome i socketC) 0 packets, arriving_sublist _ _ _⟩ ::
      transfersTo socketC as (nextTs a.call.framerate ts)
        (seq + BitVec.ofNat 16 (packetCount a.call.naluLen))

variable {as : List Sending} {ts : BitVec 32} {seq : BitVec 16}

theorem Serves.sendNal (hc : Serves llist h₀ s.clients ks) (hnodup : (ks.map Prod.snd).Nodup)
    (b : Sending) (hrate : b.call.framerate ≠ 0) :
    ∃ s', Fanout.sendNal llist s b = some s' ∧ Serves llist h₀ s'.clients ks ∧
      s'.packetizer.tsCurrent = nextTs b.call.framerate s.packetizer.tsCurrent ∧
      s'.packetizer.seqNum =
        s.packetizer.seqNum + BitVec.ofNat 16 (packetCount b.call.naluLen) ∧
      ∀ k ∈ ks, s'.takenOn k.2 = s.takenOn k.2 ++ arriving (fun i => b.outcome i k.2) 0
        (packetsOf b.call.framerate s.packetizer.tsCurrent s.packetizer.seqNum b.call.pstStream
          b.call.naluLen) := by
  obtain ⟨ret, p, hp⟩ :=
    h264nal2rtpSend_isSome hrate b.call.pstStream b.call.naluLen s.packetizer
  obtain ⟨-, -, hts, hseq, hsent⟩ := h264nal2rtpSend_spec hp
  obtain ⟨s', hs', hserves, hpacketizer, htaken⟩ :=
    Serves.sendPackets (s := { s with packetizer := p }) hc hnodup b.outcome 0
      (p.sent.drop s.packetizer.sent.length)
  refine ⟨s', ?_, hserves, by rw [hpacketizer, hts], by rw [hpacketizer, hseq], ?_⟩
  · simp only [Fanout.sendNal, hp, Option.bind_some, hs']
  · intro k hk
    rw [htaken k hk, hsent, List.drop_left]
    rfl

/-- The calls of a run reach every client. -/
theorem Serves.foldlM (hc : Serves llist h₀ s.clients ks) (hnodup : (ks.map Prod.snd).Nodup)
    (hrate : ∀ a ∈ as, a.call.framerate ≠ 0) :
    ∃ s', as.foldlM (Fanout.sendNal llist) s = some s' ∧ ∀ k ∈ ks, s'.takenOn k.2 =
      s.takenOn k.2 ++ (transfersTo k.2 as s.packetizer.tsCurrent s.packetizer.seqNum).flatMap
        Transfer.arrived := by
  induction as generalizing s with
  | nil => exact ⟨s, rfl, fun k _ => (List.append_nil _).symm⟩
  | cons b as ih =>
    rw [List.forall_mem_cons] at hrate
    obtain ⟨s₁, hs₁, hc₁, hts, hseq, htaken⟩ := hc.sendNal hnodup b hrate.1
    obtain ⟨s', hs', hrest⟩ := ih hc₁ hrate.2
    refine ⟨s', by simp [List.foldlM_cons, hs₁, hs'], fun k hk => ?_⟩
    rw [hrest k hk, htaken k hk, hts, hseq, transfersTo, List.flatMap_cons, List.append_assoc]

end H264Cast.Fanout
