import H264Cast.AnnexB.Units
import H264Cast.Server.Receive

/-! # Units in datagrams

A datagram of whole units is cut at their start codes. What happens to a unit depends on
its place: one that is followed by another is written once an SPS was counted, the next
unit included, and the last one is written unless it is a parameter set and two SPS were
counted. The file does not depend on the grouping when these two rules agree.
-/

namespace H264Cast

/-- The number of SPS units. -/
def countSps (us : List Nal) : ℕ := us.countP fun v => v.unitType = 7

/-- What is written of a unit that is followed by another one. The counter includes both. -/
def asInner (n : ℕ) (v : Nal) : List Byte := if n ≠ 0 then v.unit else []

/-- What is written of the last unit of a datagram. The counter includes it. -/
def asLast (n : ℕ) (v : Nal) : List Byte :=
  if n < 2 ∨ v.unitType ≠ 7 ∧ v.unitType ≠ 8 then v.unit else []

/-- What is written of a datagram, after the given number of SPS units. -/
def writeGroup (n : ℕ) : List Nal → List Byte
  | [] => []
  | [v] => asLast (n + countSps [v]) v
  | v :: w :: us => asInner (n + countSps [v, w]) v ++ writeGroup (n + countSps [v]) (w :: us)

/-- What is written of a sequence of datagrams. -/
def writeGroups (n : ℕ) : List (List Nal) → List Byte
  | [] => []
  | g :: gs => writeGroup n g ++ writeGroups (n + countSps g) gs

/-- What is written of the units when each has its own datagram. -/
def writeUnits (n : ℕ) : List Nal → List Byte
  | [] => []
  | v :: us => asLast (n + countSps [v]) v ++ writeUnits (n + countSps [v]) us

/-- A sequence of units cut into datagrams. -/
structure Grouping (us : List Nal) (gs : List (List Nal)) : Prop where
  flatten_eq : gs.flatten = us
  ne_nil : ∀ g ∈ gs, g ≠ []
  length_le : ∀ g ∈ gs, (stream g).length ≤ maxDatagram

/-- The receive loop on the datagrams, from its start. -/
def record (server : Server) (gs : List (List Nal)) (buf : Memory Byte) : Option Receiver :=
  receiveAll server (gs.map stream) ⟨buf, true, ⟨0, []⟩⟩

/-- Every two ways to cut the units into datagrams are recorded in the same way. -/
def GroupingInvariant (server : Server) (us : List Nal) : Prop :=
  ∀ gs gs' buf buf', Grouping us gs → Grouping us gs' →
    ∃ c c', record server gs buf = some c ∧ record server gs' buf' = some c' ∧
      c.out.file = c'.out.file

/-- Of two neighbours that fit into one datagram, the first is written in it, and on its own.
The counter starts at the given number. -/
def Independent (n : ℕ) (us : List Nal) : Prop :=
  ∀ front v w rest, us = front ++ v :: w :: rest → v.unit.length + w.unit.length ≤ maxDatagram →
    1 ≤ n + countSps (front ++ [v, w]) ∧
      (n + countSps (front ++ [v]) < 2 ∨ v.unitType ≠ 7 ∧ v.unitType ≠ 8)

variable {server : Server} {us vs g : List Nal} {gs : List (List Nal)} {v w : Nal} {n p : ℕ}
  {m : Memory Byte} {l l' : Split Recording} {file : List Byte}

theorem countSps_cons (v : Nal) (us : List Nal) :
    countSps (v :: us) = countSps [v] + countSps us := by
  simp only [countSps, List.countP_cons, List.countP_nil]
  omega

theorem countSps_append : countSps (us ++ vs) = countSps us + countSps vs := List.countP_append

theorem countSps_singleton (v : Nal) : countSps [v] = if v.unitType = 7 then 1 else 0 := by
  by_cases ht : v.unitType = 7 <;> simp [countSps, ht]

theorem spsOf_header (h : m.read p v.unit.length = v.unit) : spsOf (m (p + 4)) = countSps [v] := by
  rw [Nal.apply_header h, countSps_singleton]
  rfl

theorem Independent.tail (h : Independent n (v :: us)) : Independent (n + countSps [v]) us := by
  rintro front x y rest rfl hlen
  have hx := h (v :: front) x y rest rfl hlen
  rwa [List.cons_append, List.cons_append, countSps_cons v (front ++ [x, y]),
    countSps_cons v (front ++ [x]), ← Nat.add_assoc, ← Nat.add_assoc] at hx

theorem Independent.drop (h : Independent n (vs ++ us)) : Independent (n + countSps vs) us := by
  induction vs generalizing n with
  | nil => exact h
  | cons v vs ih =>
    rw [countSps_cons v vs, ← Nat.add_assoc]
    exact ih h.tail

/-- The rule for a unit in front of another one agrees with the rule for the last unit. -/
theorem Independent.asInner_eq (h : Independent n (v :: w :: us))
    (hlen : v.unit.length + w.unit.length ≤ maxDatagram) :
    asInner (n + countSps [v, w]) v = asLast (n + countSps [v]) v := by
  obtain ⟨hone, htwo⟩ := h [] v w us rfl hlen
  rw [List.nil_append] at hone htwo
  rw [asInner, asLast, if_pos htwo, if_pos (Nat.ne_of_gt hone)]

theorem writeUnits_append (n : ℕ) (us vs : List Nal) :
    writeUnits n (us ++ vs) = writeUnits n us ++ writeUnits (n + countSps us) vs := by
  induction us generalizing n with
  | nil => rfl
  | cons v us ih =>
    rw [List.cons_append, writeUnits, writeUnits, ih, List.append_assoc, countSps_cons v us,
      Nat.add_assoc]

/-- A datagram is written unit by unit. -/
theorem writeGroup_eq (h : Independent n (g ++ us)) (hlen : (stream g).length ≤ maxDatagram) :
    writeGroup n g = writeUnits n g := by
  induction g generalizing n with
  | nil => rfl
  | cons v g ih =>
    rw [stream_cons, List.length_append] at hlen
    cases g with
    | nil => rw [writeGroup, writeUnits, writeUnits, List.append_nil]
    | cons w g =>
      have hpair : v.unit.length + w.unit.length ≤ maxDatagram := by
        rw [stream_cons, List.length_append] at hlen
        omega
      rw [writeGroup, writeUnits, h.asInner_eq hpair, ih h.tail (by omega)]

theorem writeGroups_eq (h : Independent n gs.flatten)
    (hlen : ∀ g ∈ gs, (stream g).length ≤ maxDatagram) :
    writeGroups n gs = writeUnits n gs.flatten := by
  induction gs generalizing n with
  | nil => rfl
  | cons g gs ih =>
    rw [List.flatten_cons] at h ⊢
    rw [writeGroups, writeUnits_append, writeGroup_eq h (hlen g List.mem_cons_self),
      ih h.drop fun g hg => hlen g (List.mem_cons_of_mem _ hg)]

/-- The body of the split loop between two units. -/
theorem inner_unit {r : Recording} (hv : m.read p v.unit.length = v.unit)
    (hw : m.read (p + v.unit.length) w.unit.length = w.unit) (hs : r.start = n)
    (hmax : n + countSps [w] < 2 ^ 31) :
    r.inner m p (p + v.unit.length) =
      some ⟨(n + countSps [w] : ℕ), r.file ++ asInner (n + countSps [w]) v⟩ := by
  have hw' := spsOf_header hw
  obtain ⟨⟨start, file⟩, hr⟩ := Recording.count_isSome r (m (p + v.unit.length + 4)) (by omega)
  obtain ⟨hstart, rfl⟩ := Recording.count_start hr
  obtain rfl : start = (n + countSps [w] : ℕ) := by
    push_cast
    rw [← hw', ← hs]
    exact hstart
  rw [Recording.inner, hr, Option.map_some, Nat.add_sub_cancel_left, hv, asInner]
  simp only [Ne, Int.natCast_eq_zero]
  split_ifs with h0
  · rw [List.append_nil]
  · rfl

/-- The last range of a datagram of units. -/
theorem tail_unit {r : Recording} (hv : m.read p v.unit.length = v.unit) (hs : r.start = n) :
    r.tail m p (p + v.unit.length) = ⟨n, r.file ++ asLast n v⟩ := by
  obtain ⟨start, file⟩ := r
  obtain rfl : start = n := hs
  have hheader : nalType (m (p + 4)) = v.unitType := congrArg nalType (Nal.apply_header hv)
  rw [Recording.tail, Nat.add_sub_cancel_left, hv, hheader, asLast]
  by_cases htwo : n < 2
  · rw [if_pos (by simp only; omega), if_pos (Or.inl htwo)]
    rfl
  rw [if_neg (by simp only; omega)]
  by_cases htype : v.unitType ≠ 7 ∧ v.unitType ≠ 8
  · rw [if_pos htype, if_pos (Or.inr htype)]
    rfl
  · rw [if_neg htype, if_neg fun h => h.elim htwo htype, List.append_nil]

theorem length_stream_cons (v : Nal) (us : List Nal) : 4 < (stream (v :: us)).length := by
  have hpos := v.length_pos
  rw [stream_cons, List.length_append, Nal.length_unit]
  omega

/-- The scan from a unit of a datagram finds the next one. -/
theorem nextStartCode_units (hst : Stored m l.startCode (v :: w :: us))
    (hsend : l.sendLen = l.startCode) :
    nextStartCode m (l.startCode + (stream (v :: w :: us)).length) l =
      some (l.startCode + v.unit.length) := by
  obtain ⟨hv, hrest⟩ := stored_cons.mp hst
  obtain ⟨hw, -⟩ := stored_cons.mp hrest
  have hpos := length_stream_cons w us
  have hlen : (stream (v :: w :: us)).length = v.unit.length + (stream (w :: us)).length := by
    rw [stream_cons, List.length_append]
  exact Nal.findNalStartCode_next hv (Nal.startCodeAt_unit hw) (by omega)

/-- The split loop and the last range of a datagram of units. -/
theorem splitLoop_units (hst : Stored m l.startCode (v :: us))
    (hsend : l.sendLen = l.startCode) (hs : l.out.start = (n + countSps [v] : ℕ))
    (hmax : n + countSps (v :: us) < 2 ^ 31) :
    ∃ l', splitLoop (Recording.inner m) m (l.startCode + (stream (v :: us)).length) l = some l' ∧
      l'.out.tail m l'.sendLen (l.startCode + (stream (v :: us)).length) =
        ⟨(n + countSps (v :: us) : ℕ), l.out.file ++ writeGroup n (v :: us)⟩ := by
  induction us generalizing v n l with
  | nil =>
    obtain ⟨hv, -⟩ := stored_cons.mp hst
    have hlen : (stream [v]).length = v.unit.length := by simp
    have hnone : nextStartCode m (l.startCode + (stream [v]).length) l = none :=
      Nal.findNalStartCode_last hv (by omega)
    refine ⟨l, splitLoop_none hnone, ?_⟩
    rw [hsend, hlen, tail_unit hv hs]
    rfl
  | cons w us ih =>
    obtain ⟨hv, hrest⟩ := stored_cons.mp hst
    obtain ⟨hw, -⟩ := stored_cons.mp hrest
    have hlen : (stream (v :: w :: us)).length = v.unit.length + (stream (w :: us)).length := by
      rw [stream_cons, List.length_append]
    have hnext := nextStartCode_units hst hsend
    have hpair : countSps [v, w] = countSps [v] + countSps [w] := countSps_cons v [w]
    rw [countSps_cons v (w :: us), countSps_cons w us] at hmax
    obtain ⟨out, hbody, hstart, hfile⟩ : ∃ out,
        l.out.inner m l.startCode (l.startCode + v.unit.length) = some out ∧
        out.start = (n + countSps [v] + countSps [w] : ℕ) ∧
        out.file = l.out.file ++ asInner (n + countSps [v] + countSps [w]) v :=
      ⟨_, inner_unit hv hw hs (by omega), rfl, rfl⟩
    obtain ⟨l', hl', htail⟩ := ih (n := n + countSps [v]) (v := w)
      (l := l.advance (l.startCode + v.unit.length) out) hrest
      (by simp only [Split.advance]; omega) hstart (by rw [countSps_cons w us]; omega)
    have hN : l.startCode + (stream (v :: w :: us)).length =
        l.startCode + v.unit.length + (stream (w :: us)).length := by omega
    refine ⟨l', ?_, ?_⟩
    · rw [splitLoop_some hnext, hbody, Option.bind_some, hN]
      exact hl'
    · rw [hN]
      refine htail.trans ?_
      rw [countSps_cons v (w :: us), ← Nat.add_assoc, writeGroup, hpair, ← Nat.add_assoc,
        ← List.append_assoc, ← hfile]
      rfl

/-- An iteration on a datagram of units that does not begin with the last SPS. -/
theorem receive_stream (server : Server) (buf : Memory Byte) (hne : g ≠ [])
    (hlen : (stream g).length ≤ maxDatagram) (hmax : n + countSps g < 2 ^ 31)
    (hopen : ∀ v ∈ g.head?, (n + countSps [v] : ℤ) ≠ server.limit) (file : List Byte) :
    ∃ buf', receive server (stream g) ⟨buf, true, ⟨n, file⟩⟩ =
      some ⟨buf', true, ⟨(n + countSps g : ℕ), file ++ writeGroup n g⟩⟩ := by
  cases g with
  | nil => exact (hne rfl).elim
  | cons v us =>
    have hst : Stored (buf.write 0 (stream (v :: us))) 0 (v :: us) :=
      Memory.read_write_self _ _ rfl
    have hv := (stored_cons.mp hst).1
    have hpos := length_stream_cons v us
    have hbuf : maxDatagram < maxBuf := by decide
    have hfind : findNalStartCode (buf.write 0 (stream (v :: us))) 0 maxBuf = some 0 :=
      findNalStartCode_self (hst.startCodeAt (by simp)) (by omega)
    rw [countSps_cons v us] at hmax
    have hheader := spsOf_header hv
    obtain ⟨r, hr⟩ := Recording.count_isSome ⟨n, file⟩
      (buf.write 0 (stream (v :: us)) (0 + 4)) (by simp only; omega)
    obtain ⟨hstart, hfile⟩ := Recording.count_start hr
    rw [hheader, ← Int.natCast_add] at hstart
    obtain ⟨l, hl, htail⟩ := splitLoop_units (l := ⟨0, 0, 0, r⟩) hst rfl hstart
      (by rw [countSps_cons v us]; omega)
    simp only [Nat.zero_add, hfile] at hl htail
    have hopen' : ¬ (nalType (buf.write 0 (stream (v :: us)) (0 + 4)) = 7 ∧
        r.start = server.limit) := by
      rintro ⟨-, hlim⟩
      rw [hstart, Int.natCast_add] at hlim
      exact hopen v rfl hlim
    refine ⟨buf.write 0 (stream (v :: us)), ?_⟩
    rw [receive_eq (List.length_pos_iff.mp (by omega)) hlen, hfind, Option.bind_some, hr,
      Option.bind_some, if_neg hopen', hl, Option.map_some, htail]

/-- The receive loop on a sequence of datagrams of units, below the limit. -/
theorem receiveAll_stream (server : Server) (buf : Memory Byte) (hne : ∀ g ∈ gs, g ≠ [])
    (hlen : ∀ g ∈ gs, (stream g).length ≤ maxDatagram) (hmax : n + countSps gs.flatten < 10)
    (file : List Byte) :
    ∃ c, receiveAll server (gs.map stream) ⟨buf, true, ⟨n, file⟩⟩ = some c ∧
      c.out.file = file ++ writeGroups n gs := by
  induction gs generalizing n buf file with
  | nil => exact ⟨_, rfl, (List.append_nil _).symm⟩
  | cons g gs ih =>
    rw [List.flatten_cons, countSps_append] at hmax
    have hopen : ∀ v ∈ g.head?, (n + countSps [v] : ℤ) ≠ server.limit := by
      intro v hv hlim
      have hten : 10 ≤ server.limit := by cases server <;> decide
      have hle : countSps [v] ≤ countSps g :=
        (List.singleton_sublist.mpr (List.mem_of_mem_head? hv)).countP_le
      omega
    obtain ⟨buf', hrun⟩ := receive_stream server buf
      (hne g List.mem_cons_self) (hlen g List.mem_cons_self) (by omega : n + countSps g < 2 ^ 31)
      hopen file
    obtain ⟨c, hc, hfile⟩ := ih buf' (n := n + countSps g)
      (fun g hg => hne g (List.mem_cons_of_mem _ hg))
      (fun g hg => hlen g (List.mem_cons_of_mem _ hg)) (by omega) (file ++ writeGroup n g)
    refine ⟨c, ?_, ?_⟩
    · rw [List.map_cons, receiveAll, if_pos rfl, hrun]
      exact hc
    · rw [hfile, writeGroups, List.append_assoc]

theorem Grouping.record (h : Grouping us gs) (hmax : countSps us < 10) (server : Server)
    (buf : Memory Byte) :
    ∃ c, H264Cast.record server gs buf = some c ∧ c.out.file = writeGroups 0 gs := by
  have hsum : 0 + countSps gs.flatten < 10 := by
    rw [h.flatten_eq]
    omega
  exact receiveAll_stream server buf h.ne_nil h.length_le hsum []

/-- Under the condition every grouping is recorded as if each unit had its own datagram. -/
theorem groupingInvariant_of_independent (hmax : countSps us < 10) (h : Independent 0 us) :
    GroupingInvariant server us := by
  have hfile : ∀ gs, Grouping us gs → writeGroups 0 gs = writeUnits 0 us := by
    rintro gs ⟨rfl, -, hlen⟩
    exact writeGroups_eq h hlen
  intro gs gs' buf buf' hg hg'
  obtain ⟨c, hc, hcf⟩ := hg.record hmax server buf
  obtain ⟨c', hc', hcf'⟩ := hg'.record hmax server buf'
  exact ⟨c, c', hc, hc', by rw [hcf, hcf', hfile gs hg, hfile gs' hg']⟩

theorem writeGroups_append (n : ℕ) (gs hs : List (List Nal)) :
    writeGroups n (gs ++ hs) = writeGroups n gs ++ writeGroups (n + countSps gs.flatten) hs := by
  induction gs generalizing n with
  | nil => rfl
  | cons g gs ih =>
    rw [List.cons_append, writeGroups, writeGroups, ih, List.append_assoc, List.flatten_cons,
      countSps_append, Nat.add_assoc]

/-- The two rules agree only when both write the unit. -/
theorem gate_of_asLast_eq {n' : ℕ} (hle : n ≤ n') (h : asLast n v = asInner n' v) :
    1 ≤ n' ∧ (n < 2 ∨ v.unitType ≠ 7 ∧ v.unitType ≠ 8) := by
  have hne : v.unit ≠ [] := List.length_pos_iff.mp (by rw [Nal.length_unit]; omega)
  by_cases hgate : n < 2 ∨ v.unitType ≠ 7 ∧ v.unitType ≠ 8
  · refine ⟨?_, hgate⟩
    by_contra hzero
    rw [asLast, if_pos hgate, asInner, if_neg (by omega)] at h
    exact hne h
  · rw [asLast, if_neg hgate, asInner, if_pos (by omega)] at h
    exact (hne h.symm).elim

/-- Each unit in its own datagram. -/
def singles (us : List Nal) : List (List Nal) := us.map fun v => [v]

theorem flatten_singles (us : List Nal) : (singles us).flatten = us := List.flatMap_singleton' us

theorem writeGroups_singles (n : ℕ) (us : List Nal) :
    writeGroups n (singles us) = writeUnits n us := by
  induction us generalizing n with
  | nil => rfl
  | cons v us ih => exact congrArg (asLast (n + countSps [v]) v ++ ·) (ih _)

theorem Grouping.of_singles (h : ∀ v ∈ us, v.unit.length ≤ maxDatagram) :
    Grouping us (singles us) where
  flatten_eq := flatten_singles us
  ne_nil := by simp [singles]
  length_le := by
    intro g hg
    obtain ⟨v, hv, rfl⟩ := List.mem_map.mp hg
    simpa using h v hv

/-- Every unit fits into a datagram. -/
theorem Grouping.length_unit_le (h : Grouping us gs) (hv : v ∈ us) :
    v.unit.length ≤ maxDatagram := by
  rw [← h.flatten_eq] at hv
  obtain ⟨g, hg, hvg⟩ := List.mem_flatten.mp hv
  obtain ⟨front, rest, rfl⟩ := List.append_of_mem hvg
  have hlen := h.length_le _ hg
  rw [stream_append, stream_cons, List.length_append, List.length_append] at hlen
  omega

/-- Two groupings that are joined are a grouping. -/
theorem Grouping.append {hs : List (List Nal)} (h : Grouping us gs) (h' : Grouping vs hs) :
    Grouping (us ++ vs) (gs ++ hs) where
  flatten_eq := by rw [List.flatten_append, h.flatten_eq, h'.flatten_eq]
  ne_nil g hg := (List.mem_append.mp hg).elim (h.ne_nil g) (h'.ne_nil g)
  length_le g hg := (List.mem_append.mp hg).elim (h.length_le g) (h'.length_le g)

/-- Two neighbours in one datagram and everything else on its own. -/
def paired (front : List Nal) (v w : Nal) (rest : List Nal) : List (List Nal) :=
  singles front ++ [v, w] :: singles rest

theorem Grouping.of_paired {front rest : List Nal}
    (h : ∀ u ∈ front ++ v :: w :: rest, u.unit.length ≤ maxDatagram)
    (hlen : v.unit.length + w.unit.length ≤ maxDatagram) :
    Grouping (front ++ v :: w :: rest) (paired front v w rest) := by
  have hfront : Grouping front (singles front) :=
    .of_singles fun u hu => h u (List.mem_append_left _ hu)
  have hrest : Grouping rest (singles rest) := .of_singles fun u hu =>
    h u (List.mem_append_right _ (List.mem_cons_of_mem _ (List.mem_cons_of_mem _ hu)))
  have hpair : Grouping [v, w] [[v, w]] :=
    ⟨by simp, by simp, fun g hg => by
      rw [List.mem_singleton.mp hg, stream_cons, stream_cons, stream_nil, List.append_nil,
        List.length_append]
      exact hlen⟩
  exact hfront.append (hpair.append hrest)

/-- The condition is needed, unless a unit fits into no datagram. -/
theorem independent_of_groupingInvariant (hmax : countSps us < 10)
    (hfit : ∀ v ∈ us, v.unit.length ≤ maxDatagram) (h : GroupingInvariant server us) :
    Independent 0 us := by
  rintro front v w rest rfl hlen
  have hsingles : Grouping (front ++ v :: w :: rest) _ := .of_singles hfit
  have hpaired : Grouping (front ++ v :: w :: rest) _ := .of_paired hfit hlen
  obtain ⟨c, hc, hcf⟩ := hsingles.record hmax server fun _ => 0x00
  obtain ⟨c', hc', hcf'⟩ := hpaired.record hmax server fun _ => 0x00
  obtain ⟨d, d', hd, hd', heq⟩ := h _ _ (fun _ => 0x00) (fun _ => 0x00) hsingles hpaired
  obtain rfl := Option.some.inj (hc.symm.trans hd)
  obtain rfl := Option.some.inj (hc'.symm.trans hd')
  rw [hcf, hcf', writeGroups_singles, writeUnits_append, paired, writeGroups_append,
    writeGroups_singles, flatten_singles] at heq
  have htail := List.append_cancel_left heq
  have hpair : countSps [v, w] = countSps [v] + countSps [w] := countSps_cons v [w]
  simp only [writeUnits, writeGroups, writeGroup, writeGroups_singles, hpair, ← Nat.add_assoc,
    List.append_assoc] at htail
  have hrule := gate_of_asLast_eq (Nat.le_add_right _ _) (List.append_cancel_right htail)
  rwa [countSps_append, countSps_append, hpair, ← Nat.add_assoc, ← Nat.add_assoc, ← Nat.add_assoc]

/-- The file depends on the grouping exactly when the two rules differ for two neighbours that
fit into one datagram. -/
theorem groupingInvariant_iff_independent (hmax : countSps us < 10) :
    GroupingInvariant server us ↔ (∃ v ∈ us, maxDatagram < v.unit.length) ∨ Independent 0 us := by
  constructor
  · intro h
    by_cases hfit : ∀ v ∈ us, v.unit.length ≤ maxDatagram
    · exact Or.inr (independent_of_groupingInvariant hmax hfit h)
    · left
      by_contra hnone
      exact hfit fun v hv => Nat.not_lt.mp fun hlt => hnone ⟨v, hv, hlt⟩
  · rintro (⟨v, hv, hlong⟩ | h)
    · intro gs gs' buf buf' hg
      exact (Nat.not_le.mpr hlong (hg.length_unit_le hv)).elim
    · exact groupingInvariant_of_independent hmax h

/-- An SPS and a slice. -/
theorem groupingInvariant_iff_independent_sps :
    GroupingInvariant .udp [Nal.sps, Nal.slice] ∧
      GroupingInvariant .multicast [Nal.sps, Nal.slice] := by
  have h : Independent 0 [Nal.sps, Nal.slice] := by
    intro front v w rest heq _
    cases front with
    | nil =>
      obtain ⟨rfl, rfl, -⟩ : Nal.sps = v ∧ Nal.slice = w ∧ [] = rest := by simpa using heq
      decide
    | cons u front =>
      have hlen := congrArg List.length heq
      simp at hlen
      omega
  exact ⟨(groupingInvariant_iff_independent (by decide)).mpr (Or.inr h),
    (groupingInvariant_iff_independent (by decide)).mpr (Or.inr h)⟩

/-- Two slices in front of the first SPS, in one datagram and in two. -/
theorem not_groupingInvariant_slices :
    ¬ GroupingInvariant .udp [Nal.slice, Nal.slice] ∧
      ¬ GroupingInvariant .multicast [Nal.slice, Nal.slice] := by
  have hnot : ∀ server, ¬ GroupingInvariant server [Nal.slice, Nal.slice] := by
    intro server h
    have hind := independent_of_groupingInvariant (by decide) (by decide) h
    exact absurd (hind [] Nal.slice Nal.slice [] rfl (by decide)).1 (by decide)
  exact ⟨hnot .udp, hnot .multicast⟩

end H264Cast
