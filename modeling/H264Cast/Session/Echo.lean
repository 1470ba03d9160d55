import H264Cast.Library.Machine
import H264Cast.Session.Print
import Mathlib.Data.List.Forall2

/-! # The replies of a run

Without its table the server answers each request on the socket it came from, in the order of
the slots. Only a request that fills its buffer without a zero is answered together with what
lies behind the buffer.
-/

namespace H264Cast.TcpServer

/-- A socket, and what is read from it or written to it. -/
abbrev Transmission := BitVec 32 × List Byte

/-- The loop that serves the sessions, with the replies and the sockets they are written to. -/
def serveLog (limit : ℕ) (isSet : BitVec 32 → Bool) (clients : ℕ → ClientEvents) :
    List ℕ → Memory Byte → Option (List Transmission × Memory Byte)
  | [], m => some ([], m)
  | i :: is, m =>
    if m.loadInt (client i + bUse) ≠ 0 ∧ isSet (m.loadInt (client i + sock)) then
      (incomingConnectionHandlerClient limit (clients i) m (client i)).bind fun (out, m) =>
        (serveLog limit isSet clients is m).map fun (log, m') =>
          (out.toList.map (m.loadInt (client i + sock), ·) ++ log, m')
    else serveLog limit isSet clients is m

/-- An iteration of the select loop, with the replies. -/
def iterationLog (limit : ℕ) (self : BitVec 64) (e : Events) (s : State) :
    Option (List Transmission × State) :=
  if e.selectResult ≤ 0 then some ([], s)
  else
    let s' := if readyOf s e s.server.mySocket then incomingConnectionHandler self e s else s
    (serveLog limit (readyOf s e) e.clients (List.range maxClientNum) s'.server.table).map
      fun (log, table) =>
        (log, destroyAll (List.range maxClientNum)
          { s' with server := { s'.server with table := table } })

/-- The request that is read in a slot. -/
def requestOf (ready : BitVec 32 → Bool) (clients : ℕ → ClientEvents) (u : Slots)
    (i : Fin maxClientNum) : Option Transmission :=
  ((u i).filter ready).bind fun fd => (clients i).request.map (fd, ·)

/-- The requests of an iteration and the sessions after it. -/
def Slots.answer (listening : BitVec 32) (u : Slots) (e : Events) : List Transmission × Slots :=
  (if e.selectResult ≤ 0 then []
    else (List.finRange maxClientNum).filterMap (requestOf e.ready e.clients u),
    u.next listening e)

/-- The reply goes back to where the request came from. It begins with the text and the
request, and that is all of it unless the request fills its buffer. -/
structure Answers (q a : Transmission) : Prop where
  sock_eq : a.1 = q.1
  isPrefix : yse ++ q.2 <+: a.2
  eq_of_lt : q.2.length < bufSize → a.2 = yse ++ q.2

variable {m m' : Memory Byte} {base limit : ℕ} {t : Session} {ev : ClientEvents}
  {s s' : State} {ss : Fin maxClientNum → Option Session} {i : Fin maxClientNum} {e : Events}
  {out : Option (List Byte)} {isSet : BitVec 32 → Bool} {clients : ℕ → ClientEvents}
  {beyond : ℕ} {self : BitVec 64} {log : List Transmission}

/-! ### The log is that of the loop -/

theorem serveAll_eq (limit : ℕ) (isSet : BitVec 32 → Bool) (clients : ℕ → ClientEvents)
    (is : List ℕ) (m : Memory Byte) :
    serveAll limit isSet clients is m = (serveLog limit isSet clients is m).map Prod.snd := by
  induction is generalizing m with
  | nil => rfl
  | cons i is ih =>
    rw [serveAll, serveLog]
    split_ifs
    · rw [Option.map_bind]
      congr 1
      funext r
      obtain ⟨out, m₁⟩ := r
      simp only [Function.comp_apply, ih, Option.map_map]
      rfl
    · exact ih m

theorem iteration_eq_log (limit : ℕ) (self : BitVec 64) (e : Events) (s : State) :
    iteration limit self e s = (iterationLog limit self e s).map Prod.snd := by
  rw [iteration_eq, iterationLog]
  by_cases hselect : e.selectResult ≤ 0
  · rw [if_pos hselect, if_pos hselect]
    rfl
  · rw [if_neg hselect, if_neg hselect]
    simp only [serveAll_eq, Option.map_map]
    rfl

/-! ### The reply to a request -/

/-- The reply is the text with the string that is found where the message was stored. -/
theorem reply_eq (hlimit : base + sessionSize ≤ limit)
    (hbuild : buildReply limit m base = some m') :
    reply limit m' base = yse ++ m.string (base + recvBuf) (limit - (base + recvBuf)) := by
  rw [buildReply] at hbuild
  split_ifs at hbuild with hterm
  obtain rfl := Option.some.inj hbuild
  have hlt := hterm.length_string_lt
  refine (Memory.string_write _ _ ?_ ?_).1
  · rw [List.mem_append, not_or]
    exact ⟨zero_notMem_yse, Memory.zero_notMem_string _ _ _⟩
  · simp only [sessionSize, recvBuf, sendBuf, bufSize] at hlimit hlt ⊢
    simp only [List.length_append, yse, List.length_cons, List.length_nil]
    omega

/-- The string that is printed begins with the request. -/
theorem text_isPrefix {v : Message} (hlimit : base + sessionSize ≤ limit) (m : Memory Byte)
    (timeNow : BitVec 128) :
    v.text <+: (received m base v timeNow).string (base + recvBuf) (limit - (base + recvBuf)) := by
  obtain ⟨k, hk⟩ := exists_limit hlimit
  rw [hk, ← string_bufSize m base v timeNow]
  exact Memory.string_isPrefix_add _ _ _ _

/-- What a session is sent answers its request. -/
theorem answers_of_handler (hlimit : base + sessionSize ≤ limit)
    (h : incomingConnectionHandlerClient limit ev m base = some (out, m')) (fd : BitVec 32) :
    List.Forall₂ Answers (ev.request.map (fd, ·)).toList (out.toList.map (fd, ·)) := by
  cases hrequest : ev.request with
  | none =>
    obtain ⟨m₁, hnone⟩ := handler_of_request_none hrequest limit m base
    obtain ⟨rfl, -⟩ := Prod.mk.inj (Option.some.inj (hnone.symm.trans h))
    exact .nil
  | some text =>
    obtain ⟨v, rfl, hrecv⟩ := exists_message hrequest
    rw [handler_of_request hrecv] at h
    obtain ⟨m₁, hbuild, hout⟩ := Option.map_eq_some_iff.mp h
    obtain ⟨rfl, -⟩ := Prod.mk.inj hout
    have hreply := reply_eq hlimit hbuild
    refine .cons ⟨rfl, ?_, fun hlt => ?_⟩ .nil
    · dsimp only
      rw [hreply, List.prefix_append_right_inj]
      exact text_isPrefix hlimit m ev.timeNow
    · dsimp only
      rw [hreply, (string_received hlt hlimit m ev.timeNow).2]

/-! ### The replies of an iteration -/

theorem sockets_update_after (hi : ss i = some t) (failed : Bool) :
    sockets (Function.update ss i (some (t.after failed))) = sockets ss := by
  funext j
  rcases eq_or_ne j i with rfl | hj
  · simp [sockets, hi, Session.after]
  · simp [sockets, hj]

/-- The loop answers the requests in the order of the slots. -/
theorem answers_of_serveLog (hlimit : tableSize ≤ limit) (is : List (Fin maxClientNum))
    (h : ∀ j : Fin maxClientNum, Holds m (client j) (ss j))
    (hserve : serveLog limit isSet clients (is.map Fin.val) m = some (log, m')) :
    List.Forall₂ Answers (is.filterMap (requestOf isSet clients (sockets ss))) log := by
  rw [List.filterMap_eq_flatMap_toList]
  induction is generalizing m ss log with
  | nil =>
    obtain ⟨rfl, -⟩ := Prod.mk.inj (Option.some.inj hserve)
    exact .nil
  | cons i is ih =>
    have hholds := h i
    rw [List.map_cons, serveLog] at hserve
    rw [List.flatMap_cons]
    cases hi : ss i with
    | none =>
      rw [hi] at hholds
      rw [hholds.loadInt_none (by decide), if_neg (by simp)] at hserve
      have hrequest : requestOf isSet clients (sockets ss) i = none := by
        simp [requestOf, sockets, hi]
      rw [hrequest]
      exact ih h hserve
    | some t =>
      rw [hi] at hholds
      rw [hholds.2.1, hholds.2.2.1] at hserve
      split_ifs at hserve with hready
      · obtain ⟨⟨out, m₁⟩, hclient, hrest⟩ := Option.bind_eq_some_iff.mp hserve
        obtain ⟨⟨log₁, m₂⟩, hserve₁, heq⟩ := Option.map_eq_some_iff.mp hrest
        obtain ⟨rfl, rfl⟩ := Prod.mk.inj heq
        have hrequest : requestOf isSet clients (sockets ss) i =
            (clients i).request.map (t.sock, ·) := by
          simp [requestOf, sockets, hi, Option.filter_some, hready.2]
        have hanswers := answers_of_handler
          (Nat.le_trans (client_le_tableSize i) hlimit) hclient t.sock
        have hafter := holds_after h hlimit hi hclient
        have hsock := (hholds.after hclient).2.1
        rw [hrequest, hsock, ← sockets_update_after hi]
        exact List.rel_append hanswers (ih hafter hserve₁)
      · have hset : isSet t.sock = false := by simpa using hready
        have hrequest : requestOf isSet clients (sockets ss) i = none := by
          simp [requestOf, sockets, hi, Option.filter_some, hset]
        rw [hrequest]
        exact ih h hserve

/-- A connection that is admitted does not replace another. -/
theorem Slots.accept_of_some {u : Slots} {fd : BitVec 32} (h : u i = some fd) (fd' : BitVec 32) :
    u.accept fd' i = some fd := by
  unfold Slots.accept
  cases hfree : u.free with
  | none => exact h
  | some k =>
    have hne : i ≠ k := by
      rintro rfl
      rw [Slots.eq_none_of_free hfree] at h
      cases h
    rw [← h]
    exact Function.update_of_ne hne _ _

theorem filter_eq_of_any_eq {α : Type*} {o o' : Option α} {p p' : α → Bool}
    (hsome : ∀ a, o = some a → o' = some a) (hany : o'.any p' = o.any p) :
    o'.filter p' = o.filter p := by
  cases o with
  | none =>
    cases o' with
    | none => rfl
    | some b =>
      have hfalse : p' b = false := hany
      simp [Option.filter_some, hfalse]
  | some a =>
    rw [hsome a rfl] at hany ⊢
    have heq : p' a = p a := hany
    rw [Option.filter_some, Option.filter_some, heq]

/-- An iteration answers the requests of the sessions that were there before it. -/
theorem Represents.answers (h : Represents s ss) (hactive : AllActive ss) (hfresh : Fresh e s)
    (hnew : e.clientSocket ≠ s.server.mySocket)
    (hiter : iterationLog (tableSize + beyond) self e s = some (log, s')) :
    List.Forall₂ Answers ((sockets ss).answer s.server.mySocket e).1 log := by
  rw [iterationLog] at hiter
  rw [Slots.answer]
  by_cases hselect : e.selectResult ≤ 0
  · rw [if_pos hselect] at hiter
    obtain ⟨rfl, -⟩ := Prod.mk.inj (Option.some.inj hiter)
    rw [if_pos hselect]
    exact .nil
  · rw [if_neg hselect] at hiter
    obtain ⟨⟨log₁, table⟩, hserve, heq⟩ := Option.map_eq_some_iff.mp hiter
    obtain ⟨rfl, -⟩ := Prod.mk.inj heq
    obtain ⟨ss₁, h₁, -, hsockets, hready⟩ := h.connect hactive hfresh hnew self
    have hrequest : requestOf (readyOf s e) e.clients (sockets ss₁) =
        requestOf e.ready e.clients (sockets ss) := by
      funext i
      have hfilter := filter_eq_of_any_eq (fun fd hfd => ?_) (hready i)
      · rw [requestOf, requestOf, hfilter]
      · rw [hsockets]
        split_ifs
        · exact Slots.accept_of_some hfd _
        · exact hfd
    rw [if_neg hselect, ← hrequest]
    exact answers_of_serveLog (Nat.le_add_right _ _) (List.finRange maxClientNum) h₁.holds hserve

/-! ### Runs -/

/-- The runs of the select loop, with the replies. -/
inductive LoggedRun (beyond : ℕ) (self : BitVec 64) (s₀ : State) :
    List Events → List Transmission → State → Prop
  | nil : LoggedRun beyond self s₀ [] [] s₀
  | snoc {es : List Events} {log log' : List Transmission} {s s' : State} {e : Events} :
      LoggedRun beyond self s₀ es log s → Fresh e s → e.clientSocket ≠ s.server.mySocket →
      iterationLog (tableSize + beyond) self e s = some (log', s') →
      LoggedRun beyond self s₀ (es ++ [e]) (log ++ log') s'

variable {s₀ : State} {es : List Events}

theorem LoggedRun.run (h : LoggedRun beyond self s₀ es log s) : Run beyond self s₀ es s := by
  induction h with
  | nil => exact .nil
  | snoc _ hfresh hnew hiter ih =>
    refine .snoc ih hfresh hnew ?_
    rw [iteration_eq_log, hiter]
    rfl

/-- Every run has a log. -/
theorem Run.exists_log (h : Run beyond self s₀ es s) :
    ∃ log, LoggedRun beyond self s₀ es log s := by
  induction h with
  | nil => exact ⟨[], .nil⟩
  | snoc _ hfresh hnew hiter ih =>
    obtain ⟨log, hlog⟩ := ih
    rw [iteration_eq_log] at hiter
    obtain ⟨⟨log', s'⟩, hiter', rfl⟩ := Option.map_eq_some_iff.mp hiter
    exact ⟨_, hlog.snoc hfresh hnew hiter'⟩

theorem final_answer (listening : BitVec 32) (u : Slots) (es : List Events) :
    final (Slots.answer listening) u es = es.foldl (Slots.next listening) u := by
  induction es generalizing u with
  | nil => rfl
  | cons e es ih => exact ih _

/-- Over every run the replies are those to the requests, one by one and in order, and each
goes to the socket its request came from. -/
theorem answers_of_logged (hinit : (selectLoop beyond self).init s₀)
    (hrun : LoggedRun beyond self s₀ es log s) :
    List.Forall₂ Answers
      (outputs (Slots.answer s₀.server.mySocket) Slots.empty es).flatten log := by
  induction hrun with
  | nil => exact .nil
  | snoc hrun hfresh hnew hiter ih =>
    obtain ⟨hlisten, ss, hss, hactive, hsockets⟩ := hrun.run.represents hinit
    have hanswers := hss.answers hactive hfresh hnew hiter
    rw [hlisten, hsockets, ← final_answer] at hanswers
    rw [outputs_append, List.flatten_append]
    refine List.rel_append ih ?_
    simpa [outputs] using hanswers

/-- The first client sends a letter. -/
def greets : Events :=
  ⟨1, fun fd => fd = 5, -1, 0, fun _ => ⟨.bytes [0x61] (by decide), 0, 5, true⟩⟩

theorem fresh_greets (s : State) : Fresh greets s := Or.inl (by decide)

theorem greets_ne (hrun : Run 0 0 idle [connects 5] s) :
    greets.clientSocket ≠ s.server.mySocket := by
  have hlisten : s.server.mySocket = 3 := (hrun.represents init_idle).1
  rw [hlisten]
  decide

theorem exists_run_greets : ∃ s, Run 0 0 idle [connects 5, greets] s := by
  obtain ⟨s, hrun⟩ := run_connects
  obtain ⟨-, ss, hss, hactive, -⟩ := hrun.represents init_idle
  have hsome : iteration (tableSize + 0) 0 greets s ≠ none := by
    rw [Ne, hss.iteration_eq_none_iff hactive (fresh_greets s) (greets_ne hrun)]
    intro hover
    obtain ⟨text, hrequest, hfills⟩ := hover.fills
    obtain rfl : [0x61] = text := Option.some.inj hrequest
    exact absurd hfills (by decide)
  obtain ⟨s', hiter⟩ := Option.ne_none_iff_exists'.mp hsome
  exact ⟨s', hrun.snoc (fresh_greets s) (greets_ne hrun) hiter⟩

/-- The letter is answered. -/
theorem answers_of_logged_greets : ∃ log s, LoggedRun 0 0 idle [connects 5, greets] log s ∧
    List.Forall₂ Answers [(5, [0x61])] log := by
  obtain ⟨s, hrun⟩ := exists_run_greets
  obtain ⟨log, hlog⟩ := hrun.exists_log
  have hrequests : (outputs (Slots.answer 3) Slots.empty [connects 5, greets]).flatten =
      [(5, [0x61])] := by decide
  exact ⟨log, s, hlog, hrequests ▸ answers_of_logged init_idle hlog⟩

end H264Cast.TcpServer
