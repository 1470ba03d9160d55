import H264Cast.Client.Multicast
import H264Cast.Server.Grouping

/-! # The multicast session

The multicast client on one side and a server that records on the other. Between them is a
network that may lose a datagram, deliver it more than once and change the order. Every
datagram is one unit of the file of the client, so the server treats each on its own: it
leaves out the parameter sets that come after the second SPS, and closes the file at its limit.
-/

namespace H264Cast

/-- The units that are written when each comes in a datagram of its own, after the given
number of SPS units. -/
def recordedUnits (n : ℕ) : List Nal → List Nal
  | [] => []
  | v :: us =>
    if n + countSps [v] < 2 ∨ v.unitType ≠ 7 ∧ v.unitType ≠ 8 then
      v :: recordedUnits (n + countSps [v]) us
    else recordedUnits (n + countSps [v]) us

variable {server : Server} {us vs nals : List Nal} {v : Nal} {n : ℕ} {file : List Byte}

theorem stream_recordedUnits (n : ℕ) (us : List Nal) :
    stream (recordedUnits n us) = writeUnits n us := by
  induction us generalizing n with
  | nil => rfl
  | cons v us ih =>
    rw [recordedUnits, writeUnits, asLast, ← ih]
    split_ifs
    · rw [stream_cons]
    · rw [List.nil_append]

theorem recordedUnits_append (n : ℕ) (us vs : List Nal) :
    recordedUnits n (us ++ vs) = recordedUnits n us ++ recordedUnits (n + countSps us) vs := by
  induction us generalizing n with
  | nil => rfl
  | cons v us ih =>
    rw [List.cons_append, recordedUnits, recordedUnits, ih, countSps_cons v us, Nat.add_assoc]
    split_ifs
    · rfl
    · rfl

/-- Once two SPS units were counted, the parameter sets are left out and nothing else. -/
theorem recordedUnits_of_two_le (h : 2 ≤ n) (us : List Nal) :
    recordedUnits n us = us.filter fun v => v.unitType ≠ 7 ∧ v.unitType ≠ 8 := by
  induction us generalizing n with
  | nil => rfl
  | cons v us ih =>
    rw [recordedUnits, ih (Nat.le_add_right_of_le h), List.filter_cons]
    simp only [decide_eq_true_eq, show ¬ n + countSps [v] < 2 by omega, false_or]

/-- An iteration on a datagram of one unit. -/
theorem receive_unit (server : Server) (hlen : v.unit.length ≤ maxDatagram) (buf : Memory Byte)
    (hn : n < server.limit) (file : List Byte) :
    ∃ c, receive server v.unit ⟨buf, true, ⟨n, file⟩⟩ = some c ∧
      c.out = ⟨(n + countSps [v] : ℕ), file ++ stream (recordedUnits n [v])⟩ ∧
      (c.opened = true ↔ (n + countSps [v] : ℕ) < server.limit) := by
  have hlim : (10 : ℤ) ≤ server.limit ∧ server.limit < 2 ^ 31 - 1 := by cases server <;> decide
  have hone := countSps_singleton v
  have hunit : stream [v] = v.unit := by rw [stream_cons, stream_nil, List.append_nil]
  by_cases hclose : ((n + countSps [v] : ℕ) : ℤ) = server.limit
  · have ht : v.unitType = 7 := by
      by_contra ht
      rw [if_neg ht] at hone
      omega
    rw [if_pos ht] at hone
    have hnext : (n : ℤ) + 1 = server.limit := by omega
    have hst : (buf.write 0 v.unit).read 0 v.unit.length = v.unit := Memory.read_write_self _ _ rfl
    have hfind : findNalStartCode (buf.write 0 v.unit) 0 maxBuf = some 0 :=
      findNalStartCode_self (Nal.startCodeAt_unit hst) (by decide)
    have hrec : receive server v.unit ⟨buf, true, ⟨n, file⟩⟩ = some _ := receive_of_closing
      (List.length_pos_iff.mp (by rw [Nal.length_unit]; omega)) hlen hfind
      (by rw [Nal.apply_header hst]; exact ht) hnext
    refine ⟨_, hrec, ?_, by simp [hclose]⟩
    have hnone : recordedUnits n [v] = [] := by
      rw [recordedUnits_of_two_le (by omega)]
      simp [ht]
    rw [hnone, stream_nil, List.append_nil, hclose]
  · obtain ⟨buf', hrec⟩ := receive_stream (g := [v]) (n := n) server buf (List.cons_ne_nil _ _)
      (by rwa [hunit]) (by split_ifs at hone <;> omega)
      (by
        rintro _ ⟨⟩
        exact_mod_cast hclose) file
    rw [hunit] at hrec
    have hwrite : writeGroup n [v] = stream (recordedUnits n [v]) := by
      rw [stream_recordedUnits, writeUnits, writeUnits, writeGroup, List.append_nil]
    refine ⟨_, hrec, by rw [hwrite], iff_of_true rfl ?_⟩
    split_ifs at hone <;> omega

namespace Multicast

/-- The client, the server, and the datagrams handed to the server so far. -/
structure Session where
  client : Client (List (List Byte))
  receiver : Receiver
  delivered : List (List Byte)

/-- The steps of a session. Any datagram sent so far may be delivered to a server that has not
closed its file. -/
inductive Session.Step (server : Server) (file : List Byte) : Session → Session → Prop
  | client {s : Session} {c : Client (List (List Byte))} :
      Client.Step transport file Unspoiled s.client c → Step server file s { s with client := c }
  | deliver {s : Session} {d : List Byte} {r : Receiver} : d ∈ s.client.out →
      s.receiver.opened = true → receive server d s.receiver = some r →
      Step server file s { s with receiver := r, delivered := s.delivered ++ [d] }

/-- The session on a file, with any contents of the two buffers. -/
def session (server : Server) (file : List Byte) : TransitionSystem Session where
  init s := (client file Unspoiled).init s.client ∧
    (∃ buf, s.receiver = ⟨buf, true, ⟨0, []⟩⟩) ∧ s.delivered = []
  step := Session.Step server file

/-- What was delivered are these units, and they are recorded one by one. -/
structure Session.Records (server : Server) (s : Session) (us : List Nal) : Prop where
  delivered : s.delivered = us.map Nal.unit
  out : s.receiver.out = ⟨countSps us, stream (recordedUnits 0 us)⟩
  opened : s.receiver.opened = true ↔ (countSps us : ℤ) < server.limit

variable {s s' : Session} {c c' : Client (List (List Byte))}

theorem client_reachable (h : (session server file).Reachable s) :
    (client file Unspoiled).Reachable s.client := by
  refine h.map Session.client (fun s hs => hs.1) ?_
  intro s s' hstep
  cases hstep with
  | client hstep => exact Or.inl hstep
  | deliver => exact Or.inr rfl

/-- The datagrams of the client are units of its file. -/
theorem Framed.exists_units (h : Framed nals c) :
    ∃ ws vs, ws ++ vs = (List.replicate (c.passes + 1) nals).flatten ∧
      c.out = ws.map Nal.unit := by
  obtain ⟨vs, hout, -⟩ := h
  have hmap : c.out ++ vs.map Nal.unit =
      (List.replicate (c.passes + 1) nals).flatten.map Nal.unit := by
    rw [List.map_flatten, List.map_replicate, hout]
  obtain ⟨ws, vs', hws, hw, -⟩ := List.append_eq_map_iff.mp hmap
  exact ⟨ws, vs', hws.symm, hw.symm⟩

/-- A step of the client keeps its framing. -/
theorem Framed.step (hfit : ∀ v ∈ nals, v.unit.length ≤ maxBuf - 4) (hf : Framed nals c)
    (hlast : c.nLast < maxBuf) (h : Client.Step transport (stream nals) Unspoiled c c') :
    Framed nals c' := by
  cases h with
  | iterate hread hu hit => exact hf.iterate hfit hlast hread hu hit
  | behind buf hbuf =>
    obtain ⟨vs, hsent, hstream⟩ := hf
    refine ⟨vs, hsent, ?_⟩
    rw [← hstream]
    congr 1
    exact Memory.read_congr fun i _ hi => hbuf i (by simp only at hi; omega)
  | reopen hread =>
    obtain ⟨vs, hsent, hstream⟩ := hf
    have hunread : c.unread = [] := (List.take_eq_nil_iff.mp hread).resolve_left (by omega)
    refine ⟨vs ++ nals, ?_, ?_⟩
    · rw [List.map_append, ← List.append_assoc, hsent, List.replicate_succ' (n := c.passes + 1),
        List.flatten_append, List.flatten_singleton]
    · rw [stream_append, ← hstream, hunread, List.append_nil]

theorem framed_session (hfit : ∀ v ∈ nals, v.unit.length ≤ maxDatagram)
    (h : (session server (stream nals)).Reachable s) : Framed nals s.client := by
  have hle : maxDatagram ≤ maxBuf - 4 := by decide
  have hfit' : ∀ v ∈ nals, v.unit.length ≤ maxBuf - 4 := fun v hv => (hfit v hv).trans hle
  induction h with
  | init h =>
    obtain ⟨⟨buf, hc⟩, -, -⟩ := h
    rw [hc]
    exact ⟨nals, by simp [Client.start], by simp [Client.start]⟩
  | step hr hstep ih =>
    cases hstep with
    | client hc => exact ih.step hfit' (Client.nLast_lt (client_reachable hr)) hc
    | deliver => exact ih

/-- A server whose file is open takes a datagram of one unit, and records it as one more. -/
theorem Session.Records.deliver (h : s.Records server us) (hlen : v.unit.length ≤ maxDatagram)
    (hopen : s.receiver.opened = true) :
    ∃ r, receive server v.unit s.receiver = some r ∧
      Session.Records server { s with receiver := r, delivered := s.delivered ++ [v.unit] }
        (us ++ [v]) := by
  obtain ⟨c, ⟨buf, opened, out⟩, delivered⟩ := s
  obtain ⟨hdelivered, hout, hopened⟩ := h
  simp only at hdelivered hout hopened hopen ⊢
  subst hdelivered hout hopen
  obtain ⟨r, hrec, hout, hr⟩ :=
    receive_unit _ hlen buf (hopened.mp rfl) (stream (recordedUnits 0 us))
  refine ⟨r, hrec, by simp, ?_, ?_⟩
  · rw [hout, countSps_append, recordedUnits_append, Nat.zero_add, stream_append]
  · rw [hr, countSps_append]

/-- A client takes back nothing it has sent. -/
theorem isPrefix_of_step (h : Client.Step transport file Unspoiled c c') : c.out <+: c'.out := by
  have hkeeps : Client.Keeps transport (c.out <+: ·) := by
    constructor
    · rintro p len out _ hout ⟨⟩
      exact hout.trans (List.prefix_append _ _)
    · rintro p len out _ hout ⟨⟩
      exact hout.trans (List.prefix_append _ _)
  cases h with
  | behind => exact List.prefix_rfl
  | iterate _ _ hit => exact hkeeps.iterate List.prefix_rfl hit
  | reopen => exact List.prefix_rfl

theorem delivered_subset (h : (session server file).Reachable s) :
    s.delivered ⊆ s.client.out := by
  refine h.invariant (P := fun s => s.delivered ⊆ s.client.out) ?_ ?_
  · rintro s ⟨-, -, hd⟩
    rw [hd]
    exact List.nil_subset _
  · intro s s' hs hstep
    cases hstep with
    | client hc => exact List.Subset.trans hs (isPrefix_of_step hc).subset
    | deliver hd => exact List.append_subset.mpr ⟨hs, by simpa using hd⟩

/-- A datagram on the network is a unit of the file. -/
theorem exists_unit_of_mem (hf : Framed nals c) {d : List Byte} (hd : d ∈ c.out) :
    ∃ v ∈ nals, v.unit = d := by
  obtain ⟨ws, vs, hws, hout⟩ := hf.exists_units
  rw [hout] at hd
  obtain ⟨v, hv, rfl⟩ := List.mem_map.mp hd
  have hmem : v ∈ (List.replicate (c.passes + 1) nals).flatten :=
    hws ▸ List.mem_append_left _ hv
  obtain ⟨us, hus, hv⟩ := List.mem_flatten.mp hmem
  rw [List.eq_of_mem_replicate hus] at hv
  exact ⟨v, hv, rfl⟩

/-- What the client reaches by itself, before anything is delivered. -/
theorem reachable_of_client (h : (client file Unspoiled).Reachable c) :
    (session server file).Reachable ⟨c, ⟨fun _ => 0x00, true, ⟨0, []⟩⟩, []⟩ := by
  induction h with
  | init h => exact .init ⟨h, ⟨_, rfl⟩, rfl⟩
  | step _ hstep ih => exact .step ih (.client hstep)

/-- Before anything is delivered the record file is open and empty. -/
theorem records_nil (server : Server) (buf : Memory Byte) (c : Client (List (List Byte))) :
    Session.Records server ⟨c, ⟨buf, true, ⟨0, []⟩⟩, []⟩ [] :=
  ⟨rfl, rfl, iff_of_true rfl (by cases server <;> decide)⟩

theorem exists_records (hfit : ∀ v ∈ nals, v.unit.length ≤ maxDatagram)
    (h : (session server (stream nals)).Reachable s) : ∃ us, s.Records server us := by
  induction h with
  | @init s h =>
    obtain ⟨c, r, ds⟩ := s
    obtain ⟨-, ⟨buf, rfl⟩, rfl⟩ := h
    exact ⟨[], records_nil server buf c⟩
  | step hr hstep ih =>
    obtain ⟨us, hus⟩ := ih
    cases hstep with
    | client => exact ⟨us, hus.delivered, hus.out, hus.opened⟩
    | deliver hd hopen hrec =>
      obtain ⟨v, hv, rfl⟩ := exists_unit_of_mem (framed_session hfit hr) hd
      obtain ⟨r, hr, hrecords⟩ := hus.deliver (hfit v hv) hopen
      obtain rfl := Option.some.inj (hr.symm.trans hrec)
      exact ⟨_, hrecords⟩

theorem unit_injective : Function.Injective Nal.unit := by
  rintro ⟨bs, _⟩ ⟨bs', _⟩ h
  obtain rfl : bs = bs' := List.append_cancel_left h
  rfl

/-- In every run of the session the client has sent the units of its file in order, and the
server, which takes every one of them, has recorded what was delivered to it unit by unit, up
to its limit. -/
theorem recorded_of_delivered (hfit : ∀ v ∈ nals, v.unit.length ≤ maxDatagram)
    (h : (session server (stream nals)).Reachable s) :
    ∃ us ws vs, ws ++ vs = (List.replicate (s.client.passes + 1) nals).flatten ∧
      s.client.out = ws.map Nal.unit ∧ us ⊆ ws ∧ s.Records server us ∧
      ∀ d ∈ s.client.out, s.receiver.opened = true →
        ∃ r, receive server d s.receiver = some r := by
  have hf := framed_session hfit h
  obtain ⟨ws, vs, hws, hsent⟩ := hf.exists_units
  obtain ⟨us, hus⟩ := exists_records hfit h
  refine ⟨us, ws, vs, hws, hsent, ?_, hus, ?_⟩
  · intro v hv
    have hmem := delivered_subset h (hus.delivered ▸ List.mem_map_of_mem hv)
    rw [hsent] at hmem
    exact (List.mem_map_of_injective unit_injective).mp hmem
  · intro d hd hopen
    obtain ⟨v, hv, rfl⟩ := exists_unit_of_mem hf hd
    obtain ⟨r, hr, -⟩ := hus.deliver (hfit v hv) hopen
    exact ⟨r, hr⟩

/-- Of two units the second arrives before the first, and once more behind it. -/
theorem recorded_of_delivered_reordered :
    ∃ s, (session .multicast (stream [Nal.sps, Nal.slice])).Reachable s ∧
      s.delivered = [Nal.slice.unit, Nal.sps.unit, Nal.slice.unit] ∧
      ∃ us ws vs, ws ++ vs =
          (List.replicate (s.client.passes + 1) [Nal.sps, Nal.slice]).flatten ∧
        s.client.out = ws.map Nal.unit ∧ us ⊆ ws ∧ s.Records .multicast us ∧
        ∀ d ∈ s.client.out, s.receiver.opened = true →
          ∃ r, receive .multicast d s.receiver = some r := by
  obtain ⟨c, hc, hout⟩ := reachable_spsSlice
  have hsps : Nal.sps.unit ∈ c.out := by simp [hout]
  have hslice : Nal.slice.unit ∈ c.out := by simp [hout]
  have hr : (session .multicast _).Reachable _ := reachable_of_client hc
  obtain ⟨r, hrec, h⟩ := (records_nil .multicast _ c).deliver (v := Nal.slice) (by decide) rfl
  have hr := hr.step (.deliver hslice rfl hrec)
  have hopen := h.opened.mpr (by decide)
  obtain ⟨r, hrec, h⟩ := h.deliver (v := Nal.sps) (by decide) hopen
  have hr := hr.step (.deliver hsps hopen hrec)
  have hopen := h.opened.mpr (by decide)
  obtain ⟨r, hrec, -⟩ := h.deliver (v := Nal.slice) (by decide) hopen
  have hr := hr.step (.deliver hslice hopen hrec)
  exact ⟨_, hr, rfl, recorded_of_delivered (by decide) hr⟩

end Multicast

end H264Cast
