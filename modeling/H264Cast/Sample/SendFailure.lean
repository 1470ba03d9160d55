import H264Cast.Library.Machine
import Mathlib.Data.List.Nodup

/-! # Failing clients

A packet is sent to every client of the list. A failed call counts for its client, and when
the count passes a limit the socket of the client is closed. The count is never cleared, and
the client stays in the list: it goes on being sent to, and being closed.
-/

namespace H264Cast.SendFailure

/-- The number of failures after which a client is given up. -/
def maxSendFailN : ℕ := 29

/-- The outcome of a call of `send`. A call that fails sets `errno`. -/
inductive Outcome
  | sent
  | failed (errno : ℕ) (pos : 0 < errno)

def Outcome.isFailed : Outcome → Bool
  | sent => false
  | failed .. => true

/-- A node of the list, without its address. -/
structure ClientNode where
  socketC : ℕ
  sendFailN : ℕ

/-- What is done to a socket. -/
inductive Event
  | send (socketC : ℕ) (failed : Bool)
  | close (socketC : ℕ)
  deriving DecidableEq

def Event.socketC : Event → ℕ
  | send socketC _ => socketC
  | close socketC => socketC

/-- The body of the loop over the list. -/
def sendToNode (node : ClientNode) : Outcome → List Event × ClientNode
  | .sent => ([.send node.socketC false], node)
  | .failed errno _ =>
    let sendFailN := if 0 < errno then node.sendFailN + 1 else node.sendFailN
    ([.send node.socketC true] ++
        (if maxSendFailN < sendFailN then [.close node.socketC] else []),
      { node with sendFailN })

/-- A call, with the outcome for each socket. -/
def sendDataToClientList (nodes : List ClientNode) (outcome : ℕ → Outcome) :
    List Event × List ClientNode :=
  match nodes with
  | [] => ([], [])
  | node :: rest =>
    let r := sendToNode node (outcome node.socketC)
    let t := sendDataToClientList rest outcome
    (r.1 ++ t.1, r.2 :: t.2)

/-- What a sequence of calls does. -/
def trace (nodes : List ClientNode) (calls : List (ℕ → Outcome)) : List Event :=
  (outputs sendDataToClientList nodes calls).flatten

/-- What a sequence of calls does to one socket. -/
def eventsOf (s : ℕ) (nodes : List ClientNode) (calls : List (ℕ → Outcome)) : List Event :=
  (trace nodes calls).filter fun e => e.socketC = s

/-- The clients as they are put into the list: with sockets of their own, and no failures. -/
structure Fresh (nodes : List ClientNode) : Prop where
  nodup : (nodes.map ClientNode.socketC).Nodup
  sendFailN_eq : ∀ node ∈ nodes, node.sendFailN = 0

/-- A client is dropped as it should be: after failures only, once, for good, and whatever
happens to the others. -/
structure Dropped (nodes : List ClientNode) (calls : List (ℕ → Outcome)) (s : ℕ) : Prop where
  after_failures : ∀ front back, eventsOf s nodes calls = front ++ .close s :: back →
    List.replicate (maxSendFailN + 1) (.send s true) <:+ front
  once : (eventsOf s nodes calls).count (.close s) ≤ 1
  silent : ∀ front back, eventsOf s nodes calls = front ++ .close s :: back →
    ∀ failed, .send s failed ∉ back
  independent : ∀ calls' : List (ℕ → Outcome),
    (calls'.map fun outcome => outcome s) = (calls.map fun outcome => outcome s) →
      eventsOf s nodes calls' = eventsOf s nodes calls

/-- At most as many calls fail as are allowed, or one more and these are the last ones. -/
def FailsLast (outcomes : List Outcome) : Prop :=
  outcomes.countP Outcome.isFailed ≤ maxSendFailN ∨
    ∃ front back, outcomes = front ++ back ∧ back.length = maxSendFailN + 1 ∧
      (∀ o ∈ front, o.isFailed = false) ∧ ∀ o ∈ back, o.isFailed = true

variable {nodes : List ClientNode} {node : ClientNode} {calls : List (ℕ → Outcome)}
  {outcome : ℕ → Outcome} {o : Outcome} {os : List Outcome} {s n : ℕ}

/-! ## One client among the others -/

@[simp] theorem sendToNode_socketC (node : ClientNode) (o : Outcome) :
    (sendToNode node o).2.socketC = node.socketC := by
  cases o <;> rfl

theorem socketC_of_mem_sendToNode {e : Event} (h : e ∈ (sendToNode node o).1) :
    e.socketC = node.socketC := by
  cases o with
  | sent =>
    obtain rfl := List.mem_singleton.mp h
    rfl
  | failed errno pos =>
    rcases List.mem_append.mp h with h | h
    · obtain rfl := List.mem_singleton.mp h
      rfl
    · split_ifs at h
      · obtain rfl := List.mem_singleton.mp h
        rfl
      · exact absurd h List.not_mem_nil

/-- A call leaves the sockets in the list. -/
theorem map_socketC_sendDataToClientList (nodes : List ClientNode) (outcome : ℕ → Outcome) :
    (sendDataToClientList nodes outcome).2.map ClientNode.socketC =
      nodes.map ClientNode.socketC := by
  induction nodes with
  | nil => rfl
  | cons node rest ih => simp [sendDataToClientList, ih]

theorem sendToNode_mem (h : node ∈ nodes) :
    (sendToNode node (outcome node.socketC)).2 ∈ (sendDataToClientList nodes outcome).2 := by
  induction nodes with
  | nil => exact absurd h List.not_mem_nil
  | cons first rest ih =>
    rcases List.mem_cons.mp h with rfl | h
    · exact List.mem_cons_self
    · exact List.mem_cons_of_mem _ (ih h)

/-- A client that is not in the list is left alone. -/
theorem filter_events_of_notMem (h : s ∉ nodes.map ClientNode.socketC) :
    (sendDataToClientList nodes outcome).1.filter (fun e => e.socketC = s) = [] := by
  induction nodes with
  | nil => rfl
  | cons first rest ih =>
    rw [List.map_cons, List.mem_cons, not_or] at h
    rw [sendDataToClientList, List.filter_append, ih h.2, List.append_nil, List.filter_eq_nil_iff]
    intro e he
    rw [socketC_of_mem_sendToNode he]
    simpa using fun heq => h.1 heq.symm

/-- What a call does to the socket of a client is what the body of the loop does. -/
theorem filter_events (hnodup : (nodes.map ClientNode.socketC).Nodup) (h : node ∈ nodes) :
    (sendDataToClientList nodes outcome).1.filter (fun e => e.socketC = node.socketC) =
      (sendToNode node (outcome node.socketC)).1 := by
  induction nodes with
  | nil => exact absurd h List.not_mem_nil
  | cons first rest ih =>
    rw [List.map_cons, List.nodup_cons] at hnodup
    rw [sendDataToClientList, List.filter_append]
    rcases List.mem_cons.mp h with rfl | h
    · rw [filter_events_of_notMem hnodup.1, List.append_nil, List.filter_eq_self]
      intro e he
      simpa using socketC_of_mem_sendToNode he
    · have hne : first.socketC ≠ node.socketC := by
        intro heq
        exact hnodup.1 (heq ▸ List.mem_map_of_mem h)
      have hnil : (sendToNode first (outcome first.socketC)).1.filter
          (fun e => e.socketC = node.socketC) = [] := by
        refine List.filter_eq_nil_iff.mpr fun e he => ?_
        rw [socketC_of_mem_sendToNode he]
        simpa using hne
      rw [hnil, List.nil_append, ih hnodup.2 h]

/-- What a sequence of calls does to the socket of a client depends on its outcomes alone. -/
theorem eventsOf_eq (hnodup : (nodes.map ClientNode.socketC).Nodup) (h : node ∈ nodes)
    (calls : List (ℕ → Outcome)) :
    eventsOf node.socketC nodes calls =
      (outputs sendToNode node (calls.map fun outcome => outcome node.socketC)).flatten := by
  induction calls generalizing nodes node with
  | nil => rfl
  | cons outcome calls ih =>
    have hnodup' : ((sendDataToClientList nodes outcome).2.map ClientNode.socketC).Nodup := by
      rwa [map_socketC_sendDataToClientList]
    have hrest := ih hnodup' (sendToNode_mem h)
    rw [sendToNode_socketC] at hrest
    rw [eventsOf, trace, outputs_cons, List.flatten_cons, List.filter_append,
      filter_events hnodup h, List.map_cons, outputs_cons, List.flatten_cons, ← hrest]
    rfl

/-! ## One client -/

/-- What a sequence of calls does to the socket of one client. -/
def eventsFrom (node : ClientNode) (os : List Outcome) : List Event :=
  (outputs sendToNode node os).flatten

/-- The sends alone. -/
def sends (s : ℕ) (os : List Outcome) : List Event := os.map fun o => .send s o.isFailed

theorem eventsFrom_append (node : ClientNode) (os os' : List Outcome) :
    eventsFrom node (os ++ os') =
      eventsFrom node os ++ eventsFrom (final sendToNode node os) os' := by
  rw [eventsFrom, outputs_append, List.flatten_append]
  rfl

theorem close_notMem_sends (s : ℕ) (os : List Outcome) : .close s ∉ sends s os := by
  intro h
  obtain ⟨o, -, ho⟩ := List.mem_map.mp h
  exact Event.noConfusion ho

theorem sendToNode_of_lt (h : node.sendFailN + [o].countP Outcome.isFailed ≤ maxSendFailN) :
    sendToNode node o = ([.send node.socketC o.isFailed],
      { node with sendFailN := node.sendFailN + [o].countP Outcome.isFailed }) := by
  cases o with
  | sent => rfl
  | failed errno pos =>
    have hle : node.sendFailN + 1 ≤ maxSendFailN := h
    simp only [sendToNode, if_pos pos, if_neg (Nat.not_lt.mpr hle)]
    rfl

/-- As long as not too many calls have failed they are counted and no more. -/
theorem eventsFrom_of_le (h : node.sendFailN + os.countP Outcome.isFailed ≤ maxSendFailN) :
    eventsFrom node os = sends node.socketC os ∧ final sendToNode node os =
      { node with sendFailN := node.sendFailN + os.countP Outcome.isFailed } := by
  induction os generalizing node with
  | nil => exact ⟨rfl, rfl⟩
  | cons o os ih =>
    have hcount : (o :: os).countP Outcome.isFailed =
        [o].countP Outcome.isFailed + os.countP Outcome.isFailed := by
      rw [← List.singleton_append, List.countP_append]
    rw [hcount, ← Nat.add_assoc] at h
    have hfirst : node.sendFailN + [o].countP Outcome.isFailed ≤ maxSendFailN := by omega
    have hstep := sendToNode_of_lt hfirst
    have hrest : (sendToNode node o).2.sendFailN + os.countP Outcome.isFailed ≤ maxSendFailN := by
      rw [hstep]
      exact h
    obtain ⟨hevents, hfinal⟩ := ih hrest
    constructor
    · rw [eventsFrom, outputs_cons, List.flatten_cons]
      change _ ++ eventsFrom _ os = _
      rw [hevents, hstep]
      rfl
    · rw [final, hfinal, hstep, hcount]
      simp only [Nat.add_assoc]

/-- The first failure too many closes the socket. -/
theorem eventsFrom_of_limit {front : List Outcome} (hnode : node.sendFailN = 0)
    (hfront : front.countP Outcome.isFailed = maxSendFailN) (ho : o.isFailed = true)
    (back : List Outcome) :
    ∃ node' : ClientNode, node'.socketC = node.socketC ∧
      eventsFrom node (front ++ o :: back) =
        (sends node.socketC front ++ [.send node.socketC true]) ++
          .close node.socketC :: eventsFrom node' back := by
  have hle : node.sendFailN + front.countP Outcome.isFailed ≤ maxSendFailN :=
    Nat.le_of_eq (by rw [hnode, hfront, Nat.zero_add])
  obtain ⟨hevents, hfinal⟩ := eventsFrom_of_le hle
  cases o with
  | sent => exact absurd ho (by decide)
  | failed errno pos =>
    refine ⟨⟨node.socketC, maxSendFailN + 1⟩, rfl, ?_⟩
    rw [eventsFrom_append, hevents, hfinal, hnode, hfront, Nat.zero_add, eventsFrom, outputs_cons,
      List.flatten_cons]
    simp only [sendToNode, if_pos pos, if_pos (Nat.lt_succ_self maxSendFailN), List.append_assoc]
    rfl

/-- Every call sends. -/
theorem send_mem_eventsFrom (node : ClientNode) (o : Outcome) (os : List Outcome) :
    .send node.socketC o.isFailed ∈ eventsFrom node (o :: os) := by
  rw [eventsFrom, outputs_cons, List.flatten_cons]
  cases o <;> exact List.mem_append_left _ List.mem_cons_self

/-- The place of a failure with a given number of failures before it. -/
theorem exists_failure {k : ℕ} (h : k < os.countP Outcome.isFailed) :
    ∃ front o back, os = front ++ o :: back ∧ front.countP Outcome.isFailed = k ∧
      o.isFailed = true := by
  induction os generalizing k with
  | nil => exact absurd h (Nat.not_lt_zero k)
  | cons o os ih =>
    by_cases ho : o.isFailed = true
    · cases k with
      | zero => exact ⟨[], o, os, rfl, rfl, ho⟩
      | succ k =>
        rw [List.countP_cons_of_pos ho] at h
        obtain ⟨front, o', back, rfl, hfront, ho'⟩ := ih (Nat.lt_of_succ_lt_succ h)
        exact ⟨o :: front, o', back, rfl, by rw [List.countP_cons_of_pos ho, hfront], ho'⟩
    · rw [List.countP_cons_of_neg ho] at h
      obtain ⟨front, o', back, rfl, hfront, ho'⟩ := ih h
      exact ⟨o :: front, o', back, rfl, by rw [List.countP_cons_of_neg ho, hfront], ho'⟩

/-! ## When clients are dropped as they should be -/

/-- The calls for one client. -/
def outcomesOf (s : ℕ) (calls : List (ℕ → Outcome)) : List Outcome :=
  calls.map fun outcome => outcome s

/-- The last failure comes right behind all others. -/
theorem failsLast_of_suffix {front : List Outcome}
    (hfront : front.countP Outcome.isFailed = maxSendFailN)
    (hsuffix : List.replicate maxSendFailN (.send s true) <:+ sends s front)
    (ho : o.isFailed = true) : FailsLast (front ++ [o]) := by
  obtain ⟨t, ht⟩ := hsuffix
  obtain ⟨a, b, rfl, rfl, hb⟩ := List.map_eq_append_iff.mp ht.symm
  obtain ⟨hlen, hall⟩ := List.eq_replicate_iff.mp hb
  rw [List.length_map] at hlen
  have hfailed : ∀ o ∈ b, o.isFailed = true := fun o ho =>
    (Event.send.inj (hall _ (List.mem_map_of_mem ho))).2
  rw [List.countP_append, List.countP_eq_length.mpr hfailed, hlen] at hfront
  refine Or.inr ⟨a, b ++ [o], List.append_assoc _ _ _, by simp [hlen], ?_, ?_⟩
  · intro o' ho'
    have hcount : a.countP Outcome.isFailed = 0 := by omega
    simpa using List.countP_eq_zero.mp hcount o' ho'
  · intro o' ho'
    rcases List.mem_append.mp ho' with ho' | ho'
    · exact hfailed o' ho'
    · rwa [List.mem_singleton.mp ho']

theorem Dropped.failsLast (hnodup : (nodes.map ClientNode.socketC).Nodup) (hnode : node ∈ nodes)
    (hzero : node.sendFailN = 0) (h : Dropped nodes calls node.socketC) :
    FailsLast (outcomesOf node.socketC calls) := by
  have hevents : eventsOf node.socketC nodes calls =
      eventsFrom node (outcomesOf node.socketC calls) := eventsOf_eq hnodup hnode calls
  rcases Nat.lt_or_ge maxSendFailN
    ((outcomesOf node.socketC calls).countP Outcome.isFailed) with hmany | hfew
  swap
  · exact Or.inl hfew
  obtain ⟨front, o, back, hos, hfront, ho⟩ := exists_failure hmany
  obtain ⟨node', hsocket, hclose⟩ := eventsFrom_of_limit hzero hfront ho back
  rw [hos, hclose] at hevents
  -- A call after the one that closes the socket would send on it.
  obtain rfl : back = [] := by
    cases back with
    | nil => rfl
    | cons o' back =>
      have hsend := send_mem_eventsFrom node' o' back
      rw [hsocket] at hsend
      exact absurd hsend (h.silent _ _ hevents _)
  have hsuffix := h.after_failures _ _ hevents
  rw [List.replicate_succ', List.suffix_append_self_iff] at hsuffix
  rw [hos]
  exact failsLast_of_suffix hfront hsuffix ho

theorem sends_append (s : ℕ) (os os' : List Outcome) :
    sends s (os ++ os') = sends s os ++ sends s os' := List.map_append

theorem sends_of_failed (h : ∀ o ∈ os, o.isFailed = true) :
    sends s os = List.replicate os.length (.send s true) := by
  refine List.eq_replicate_iff.mpr ⟨List.length_map _, fun e he => ?_⟩
  obtain ⟨o, ho, rfl⟩ := List.mem_map.mp he
  rw [h o ho]

/-- The socket is closed at the end at most, and after failures. -/
theorem eventsFrom_of_failsLast (hzero : node.sendFailN = 0) (h : FailsLast os) :
    eventsFrom node os = sends node.socketC os ∨
      eventsFrom node os = sends node.socketC os ++ [.close node.socketC] ∧
        List.replicate (maxSendFailN + 1) (.send node.socketC true) <:+ sends node.socketC os := by
  rcases h with hfew | ⟨front, back, rfl, hlen, hfront, hback⟩
  · exact Or.inl (eventsFrom_of_le (by rwa [hzero, Nat.zero_add])).1
  obtain ⟨b, o, rfl⟩ := (List.eq_nil_or_concat' back).resolve_left (by
    rintro rfl
    exact absurd hlen (by decide))
  have hb : ∀ o ∈ b, o.isFailed = true := fun o ho => hback o (List.mem_append_left _ ho)
  have ho : o.isFailed = true := hback o (List.mem_append_right _ (List.mem_singleton_self o))
  have hcount : (front ++ b).countP Outcome.isFailed = maxSendFailN := by
    have hzero : front.countP Outcome.isFailed = 0 :=
      List.countP_eq_zero.mpr fun o ho => by simp [hfront o ho]
    rw [List.length_append, List.length_singleton] at hlen
    rw [List.countP_append, hzero, List.countP_eq_length.mpr hb]
    omega
  obtain ⟨node', -, hevents⟩ := eventsFrom_of_limit hzero hcount ho []
  refine Or.inr ⟨?_, ?_⟩
  · rw [← List.append_assoc, hevents, sends_append _ (front ++ b), ← ho]
    rfl
  · rw [sends_append, sends_of_failed hback, hlen]
    exact List.suffix_append _ _

/-- A socket that is closed is closed last. -/
theorem eventsFrom_close_last {front back : List Event} (hzero : node.sendFailN = 0)
    (h : FailsLast os) (heq : eventsFrom node os = front ++ .close node.socketC :: back) :
    back = [] ∧ List.replicate (maxSendFailN + 1) (.send node.socketC true) <:+ front := by
  rcases eventsFrom_of_failsLast hzero h with hsends | ⟨hlast, hsuffix⟩
  · have hmem : Event.close node.socketC ∈ sends node.socketC os := by
      rw [← hsends, heq]
      exact List.mem_append_right _ List.mem_cons_self
    exact absurd hmem (close_notMem_sends _ _)
  · rw [hlast] at heq
    obtain ⟨rfl, -, rfl⟩ := (List.append_cons_inj_of_notMem (close_notMem_sends _ _)
      List.not_mem_nil).mp heq
    exact ⟨rfl, hsuffix⟩

theorem dropped_of_failsLast (hnodup : (nodes.map ClientNode.socketC).Nodup) (hnode : node ∈ nodes)
    (hzero : node.sendFailN = 0) (h : FailsLast (outcomesOf node.socketC calls)) :
    Dropped nodes calls node.socketC := by
  have hevents : eventsOf node.socketC nodes calls =
      eventsFrom node (outcomesOf node.socketC calls) := eventsOf_eq hnodup hnode calls
  constructor
  case after_failures =>
    intro front back heq
    exact (eventsFrom_close_last hzero h (hevents.symm.trans heq)).2
  case once =>
    rw [hevents]
    have hnone := List.count_eq_zero.mpr (close_notMem_sends node.socketC
      (outcomesOf node.socketC calls))
    rcases eventsFrom_of_failsLast hzero h with hsends | ⟨hlast, -⟩
    · rw [hsends, hnone]
      exact Nat.zero_le 1
    · rw [hlast, List.count_append, hnone]
      simp
  case silent =>
    intro front back heq failed
    obtain ⟨rfl, -⟩ := eventsFrom_close_last hzero h (hevents.symm.trans heq)
    exact List.not_mem_nil
  case independent =>
    intro calls' hcalls
    rw [hevents, eventsOf_eq hnodup hnode calls', hcalls]
    rfl

/-- Clients are dropped as they should be exactly when for each of them at most 29 calls fail,
or its last 30 do and none before. -/
theorem dropped_iff (hfresh : Fresh nodes) (calls : List (ℕ → Outcome)) :
    (∀ node ∈ nodes, Dropped nodes calls node.socketC) ↔
      ∀ node ∈ nodes, FailsLast (outcomesOf node.socketC calls) := by
  constructor
  · exact fun h node hnode =>
      (h node hnode).failsLast hfresh.nodup hnode (hfresh.sendFailN_eq node hnode)
  · exact fun h node hnode => dropped_of_failsLast hfresh.nodup hnode
      (hfresh.sendFailN_eq node hnode) (h node hnode)

/-- Two clients, one of which fails for good from its second packet on. -/
theorem dropped_iff_two :
    let nodes : List ClientNode := [⟨4, 0⟩, ⟨3, 0⟩]
    let calls := (fun _ => Outcome.sent) ::
      List.replicate 30 fun s => if s = 3 then .failed 111 (by decide) else .sent
    (∀ node ∈ nodes, Dropped nodes calls node.socketC) ↔
      ∀ node ∈ nodes, FailsLast (outcomesOf node.socketC calls) :=
  dropped_iff ⟨by decide, by decide⟩ _

/-- One client whose sends fail 29 times, succeed once and fail once more: the socket is closed
after a single failure. -/
theorem not_dropped_success_between :
    ¬ ∀ (nodes : List ClientNode) (calls : List (ℕ → Outcome)), Fresh nodes →
      ∀ node ∈ nodes, Dropped nodes calls node.socketC := by
  intro hall
  let failed : Outcome := .failed 111 (by decide)
  let calls : List (ℕ → Outcome) :=
    List.replicate 29 (fun _ => failed) ++ [fun _ => .sent, fun _ => failed]
  have hos : outcomesOf 3 calls = failed :: (List.replicate 28 failed ++ [.sent, failed]) := rfl
  have hlast : FailsLast (outcomesOf 3 calls) :=
    (hall [⟨3, 0⟩] calls ⟨by decide, by decide⟩ ⟨3, 0⟩ (List.mem_singleton_self _)).failsLast
      (by decide) (List.mem_singleton_self _) rfl
  rw [hos] at hlast
  rcases hlast with hfew | ⟨front, back, heq, hlen, -, hback⟩
  · exact absurd hfew (by decide)
  · have hfront : front.length = 1 := by
      have hsum := congrArg List.length heq
      simp only [List.length_cons, List.length_append, List.length_replicate, List.length_nil,
        hlen, maxSendFailN] at hsum
      omega
    have hdrop : (front ++ back).drop 1 = back := List.drop_left' hfront
    rw [← heq] at hdrop
    have hsent : Outcome.sent ∈ back := by
      rw [← hdrop]
      exact List.mem_append_right _ List.mem_cons_self
    exact absurd (hback _ hsent) (by decide)

end H264Cast.SendFailure
