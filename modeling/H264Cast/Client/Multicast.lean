import H264Cast.Client.Conservation
import H264Cast.AnnexB.Units

/-! # The multicast client

Here a range is sent as one datagram. The scan for the next start code looks at up to
three bytes behind the valid ones. As long as these complete a start code only where
the file continues with one, every datagram is one unit of the file.
-/

namespace H264Cast

namespace Multicast

/-- Both places send the range as a datagram; the output is the list of datagrams. -/
def transport : Transport (List (List Byte)) where
  inner p len sent := some (sent ++ [p.read 0 len])
  tail p len sent := some (sent ++ [p.read 0 len])

/-- The program on a file. -/
def client (file : List Byte) (ok : Client (List (List Byte)) → Prop) :
    TransitionSystem (Client (List (List Byte))) :=
  Client.system transport file [] ok

/-- The memory after the read, continued by what is left of the file. -/
def reference (c : Client (List (List Byte))) : Memory Byte :=
  c.fread.buf.write c.filled c.fread.unread

/-- The bytes behind the valid ones complete a start code only where the file does. -/
def Unspoiled (c : Client (List (List Byte))) : Prop :=
  ∀ q < c.filled, StartCodeAt c.fread.buf q → StartCodeAt (reference c) q

/-- The datagrams and the units not yet sent are the units of the file over and over, and
the retained bytes with the rest of the file are the units not yet sent. -/
def Framed (nals : List Nal) (c : Client (List (List Byte))) : Prop :=
  ∃ vs, c.out ++ vs.map Nal.unit =
      (List.replicate (c.passes + 1) (nals.map Nal.unit)).flatten ∧
    c.buf.read 0 c.nLast ++ c.unread = stream vs

variable {file : List Byte} {c c' : Client (List (List Byte))} {nals vs : List Nal}
  {out : List (List Byte)} {q n : ℕ}

theorem reference_eq (h : q < c.filled) : reference c q = c.fread.buf q :=
  Memory.write_of_lt h

theorem read_fread_append (h : c.buf.read 0 c.nLast ++ c.unread = stream vs) :
    c.fread.buf.read 0 c.filled ++ c.fread.unread = stream vs := by
  rw [Client.read_fread, List.append_assoc, Client.received_append_unread, h]

theorem stored_reference (h : c.buf.read 0 c.nLast ++ c.unread = stream vs) :
    Stored (reference c) 0 vs := by
  have hread := read_fread_append h
  have hlen : (stream vs).length = c.filled + c.fread.unread.length := by
    rw [← hread, List.length_append, Memory.length_read]
  rw [Stored, hlen, reference, Memory.read_write_append, hread]

/-- A start code of the reference that lies in the valid bytes is in the buffer. -/
theorem startCodeAt_of_reference (h : StartCodeAt (reference c) q) (hq : q + 4 ≤ c.filled) :
    StartCodeAt c.fread.buf q :=
  (startCodeAt_congr fun _ _ hi => reference_eq (by omega)).mp h

/-- The valid bytes end in the stored units. -/
theorem filled_add_unread (h : c.buf.read 0 c.nLast ++ c.unread = stream vs) :
    c.filled + c.fread.unread.length = (stream vs).length := by
  rw [← read_fread_append h, List.length_append, Memory.length_read]

/-- The variables of the split loop after some of the units were sent. -/
def Cut (c : Client (List (List Byte))) (vs : List Nal) (l : Split (List (List Byte))) : Prop :=
  ∃ done v rest, vs = done ++ v :: rest ∧ l.out = c.out ++ done.map Nal.unit ∧
    l.startCode = (stream done).length ∧ l.sendLen = l.startCode ∧ l.sendCount = done.length ∧
    l.startCode < c.filled

/-- The scan from the front of a unit finds the front of the next one. -/
theorem nextStartCode_eq {l : Split (List (List Byte))} {v : Nal} {rest : List Nal} {e : ℕ}
    (hu : Unspoiled c) (hst : Stored (reference c) l.startCode (v :: rest))
    (hlen : c.filled ≤ l.startCode + (stream (v :: rest)).length) (hl : l.sendLen = l.startCode)
    (h : nextStartCode c.fread.buf c.filled l = some e) :
    rest ≠ [] ∧ e = l.startCode + v.unit.length := by
  obtain ⟨hv, hrest⟩ := stored_cons.mp hst
  obtain ⟨hle, hlt, hs, hfirst⟩ := findNalStartCode_eq_some.mp h
  have he : e < c.filled := by omega
  have href := hu e he hs
  have hge : l.startCode + v.unit.length ≤ e := by
    by_contra hlt
    exact Nal.not_startCodeAt_unit hv (by omega) (Nat.not_le.mp hlt) href
  have hne : rest ≠ [] := by
    rintro rfl
    simp at hlen hge
    omega
  refine ⟨hne, ?_⟩
  rcases Nat.eq_or_lt_of_le hge with heq | hgt
  · exact heq.symm
  · -- the next unit begins earlier; its start code fits into the valid bytes
    have hnext := hrest.startCodeAt hne
    have hd := hnext.disjoint href hgt
    have hpos : 4 ≤ v.unit.length := by simp
    exact (hfirst _ (by omega) hgt (startCodeAt_of_reference hnext (by omega))).elim

/-- A scan that finds nothing has reached the last unit, or one whose successor begins in the
last three valid bytes. -/
theorem nextStartCode_none {l : Split (List (List Byte))} {v : Nal} {rest : List Nal}
    (hst : Stored (reference c) l.startCode (v :: rest)) (hl : l.sendLen = l.startCode)
    (h : nextStartCode c.fread.buf c.filled l = none) (hne : rest ≠ [])
    (hs : l.startCode < c.filled) : c.filled < l.startCode + v.unit.length + 4 := by
  by_contra hlt
  have hnext := (stored_cons.mp hst).2.startCodeAt hne
  have hpos : 4 ≤ v.unit.length := by simp
  exact findNalStartCode_eq_none.mp h _ (by omega) (by omega)
    (startCodeAt_of_reference hnext (by omega))

/-- Each round of the split loop sends one unit. -/
theorem Cut.advance {l : Split (List (List Byte))} {e : ℕ} (hu : Unspoiled c)
    (hst : Stored (reference c) 0 vs) (hlen : c.filled ≤ (stream vs).length) (h : Cut c vs l)
    (hnext : nextStartCode c.fread.buf c.filled l = some e) :
    Cut c vs (l.advance e (l.out ++ [c.fread.buf.read l.startCode (e - l.startCode)])) := by
  obtain ⟨done, v, rest, rfl, hout, hstart, hsend, hcount, hlt⟩ := h
  have hst' : Stored (reference c) l.startCode (v :: rest) := by
    rw [hstart, ← Nat.zero_add (stream done).length]
    exact (stored_append.mp hst).2
  rw [stream_append, List.length_append, ← hstart] at hlen
  obtain ⟨hne, he⟩ := nextStartCode_eq hu hst' hlen hsend hnext
  obtain ⟨hle, hbound, -⟩ := nextStartCode_bounds hnext
  obtain ⟨w, rest, rfl⟩ := List.exists_cons_of_ne_nil hne
  have hunit : c.fread.buf.read l.startCode (e - l.startCode) = v.unit := by
    rw [he, Nat.add_sub_cancel_left]
    refine (Memory.read_congr fun i _ hi => ?_).trans (stored_cons.mp hst').1
    exact (reference_eq (by omega)).symm
  refine ⟨done ++ [v], w, rest, by simp, ?_, ?_, ?_, ?_, ?_⟩
  · simp [Split.advance, hunit, hout]
  · simp [Split.advance, he, hstart]
  · simp only [Split.advance]
    omega
  · simp [Split.advance, hcount]
  · simp only [Split.advance]
    omega

/-- The units not yet sent are units of the file. -/
theorem length_unit_le {v : Nal} (hfit : ∀ v ∈ nals, v.unit.length ≤ n) {k : ℕ}
    (h : out ++ vs.map Nal.unit = (List.replicate k (nals.map Nal.unit)).flatten) (hv : v ∈ vs) :
    v.unit.length ≤ n := by
  have hmem : v.unit ∈ (List.replicate k (nals.map Nal.unit)).flatten :=
    h ▸ List.mem_append_right _ (List.mem_map_of_mem hv)
  obtain ⟨us, hus, hv'⟩ := List.mem_flatten.mp hmem
  rw [List.eq_of_mem_replicate hus] at hv'
  obtain ⟨w, hw, heq⟩ := List.mem_map.mp hv'
  exact heq ▸ hfit w hw

/-- The buffer begins with the front unit. -/
theorem aligned_of_stream (hstream : c.buf.read 0 c.nLast ++ c.unread = stream vs)
    (hlast : c.nLast < maxBuf) (hread : c.received ≠ []) : vs ≠ [] ∧ Client.Aligned c := by
  have hpos : 0 < c.filled := Nat.add_pos_left (List.length_pos_iff.mpr hread) _
  have hlen := filled_add_unread hstream
  cases vs with
  | nil => simp at hlen; omega
  | cons v vs =>
    have hfour : 4 ≤ c.filled := by
      by_contra hlt
      have hunread : c.fread.unread = [] := by_contra fun hne => by
        rw [Client.filled_eq_of_unread hlast hne] at hlt
        exact hlt (by decide)
      simp [hunread] at hlen
      omega
    exact ⟨List.cons_ne_nil _ _, startCodeAt_of_reference
      ((stored_reference hstream).startCodeAt (List.cons_ne_nil _ _)) (by omega)⟩

/-- The bytes from the front of the current unit on, with the rest of the file, are the units
not yet sent. -/
theorem Cut.read_append {l : Split (List (List Byte))} {done : List Nal} {v : Nal}
    {rest : List Nal} (hstream : c.buf.read 0 c.nLast ++ c.unread = stream (done ++ v :: rest))
    (hstart : l.startCode = (stream done).length) (hlt : l.startCode < c.filled) :
    c.fread.buf.read l.startCode (c.filled - l.startCode) ++ c.fread.unread =
      stream (v :: rest) := by
  have hd := congrArg (List.drop l.startCode) (read_fread_append hstream)
  rw [List.drop_append_of_le_length (by rw [Memory.length_read]; omega), Memory.drop_read,
    Nat.zero_add, stream_append, List.drop_left' hstart.symm] at hd
  exact hd

/-- The tail is reached with the last unit of the file in front. -/
theorem Cut.rest_eq_nil {l : Split (List (List Byte))} {done : List Nal} {v : Nal}
    {rest : List Nal} (hfit : v.unit.length ≤ maxBuf - 4)
    (hstream : c.buf.read 0 c.nLast ++ c.unread = stream (done ++ v :: rest))
    (hlast : c.nLast < maxBuf) (hstart : l.startCode = (stream done).length)
    (hsend : l.sendLen = l.startCode) (hlt : l.startCode < c.filled)
    (hnone : nextStartCode c.fread.buf c.filled l = none)
    (hexit : done = [] ∨ c.filled ≠ maxBuf) : rest = [] ∧ c.fread.unread = [] := by
  have hlen := filled_add_unread hstream
  have hst : Stored (reference c) l.startCode (v :: rest) := by
    rw [hstart, ← Nat.zero_add (stream done).length]
    exact (stored_append.mp (stored_reference hstream)).2
  simp only [stream_append, stream_cons, List.length_append, ← hstart] at hlen
  have hne : c.filled ≠ maxBuf := by
    intro hfull
    have hfour : 4 < maxBuf := by decide
    obtain rfl := hexit.resolve_right (not_not_intro hfull)
    have hzero : l.startCode = 0 := hstart
    have hrest : rest ≠ [] := by
      rintro rfl
      simp only [stream_nil, List.length_nil] at hlen
      omega
    have hbound := nextStartCode_none hst hsend hnone hrest hlt
    omega
  have hunread : c.fread.unread = [] :=
    by_contra fun hne' => hne (Client.filled_eq_of_unread hlast hne')
  refine ⟨by_contra fun hrest => ?_, hunread⟩
  have hbound := nextStartCode_none hst hsend hnone hrest hlt
  obtain ⟨w, rest, rfl⟩ := List.exists_cons_of_ne_nil hrest
  have hfour : 4 ≤ w.unit.length := by simp
  rw [hunread, List.length_nil, stream_cons, List.length_append] at hlen
  omega

/-- An iteration on an unspoiled buffer sends whole units and retains the beginning of the
next one. -/
theorem Framed.iterate (hfit : ∀ v ∈ nals, v.unit.length ≤ maxBuf - 4) (hf : Framed nals c)
    (hlast : c.nLast < maxBuf) (hread : c.received ≠ []) (hu : Unspoiled c)
    (h : c.iterate transport = some c') : Framed nals c' := by
  obtain ⟨vs, hsent, hstream⟩ := hf
  obtain ⟨hne, ha⟩ := aligned_of_stream hstream hlast hread
  obtain ⟨v, rest, rfl⟩ := List.exists_cons_of_ne_nil hne
  have hpos : 0 < c.filled := Nat.add_pos_left (List.length_pos_iff.mpr hread) _
  have hk : findNalStartCode c.fread.buf 0 maxBuf = some 0 :=
    findNalStartCode_self ha (by decide)
  rcases Client.iterate_cases h with ⟨hnone, -⟩ | ⟨startCode, l, hsome, hl, hcase⟩
  · simp [hk] at hnone
  obtain rfl : 0 = startCode := Option.some.inj (hk.symm.trans hsome)
  have hlen := filled_add_unread hstream
  obtain ⟨hcut, hnone⟩ := splitLoop_invariant (P := Cut c (v :: rest)) hl
    ⟨[], v, rest, rfl, by simp, rfl, rfl, rfl, hpos⟩ (by
      rintro l e out hcut hnext hout
      obtain rfl := Option.some.inj hout
      simpa using hcut.advance hu (stored_reference hstream) (by omega) hnext)
  obtain ⟨done, w, rest', heq, hout, hstart, hsend, hcount, hlt⟩ := hcut
  rw [heq] at hsent hstream
  rcases hcase with ⟨-, -, -, rfl⟩ | ⟨hexit, out, hsend', rfl⟩
  · refine ⟨w :: rest', ?_, ?_⟩
    · rw [hout, List.append_assoc, ← List.map_append, hsent]
      rfl
    · rw [Memory.read_write_self _ _ (Memory.length_read)]
      exact Cut.read_append hstream hstart hlt
  · have hw := length_unit_le hfit hsent (List.mem_append_right _ List.mem_cons_self)
    have hexit' : done = [] ∨ c.filled ≠ maxBuf := by
      rw [hcount] at hexit
      simpa using hexit
    obtain ⟨rfl, hunread⟩ := Cut.rest_eq_nil hw hstream hlast hstart hsend hlt hnone hexit'
    have hunit := Cut.read_append hstream hstart hlt
    rw [hunread, List.append_nil, stream_cons, stream_nil, List.append_nil] at hunit
    obtain rfl := Option.some.inj hsend'
    refine ⟨[], ?_, by simp [hunread]⟩
    simpa [hsend, hunit, hout] using hsent

/-- In every run whose iterations all read into an unspoiled buffer, every datagram is one
unit and the retained bytes begin the first unit not yet sent. -/
theorem framed_of_unspoiled (hfit : ∀ v ∈ nals, v.unit.length ≤ maxBuf - 4)
    (h : (client (stream nals) Unspoiled).Reachable c) : Framed nals c := by
  induction h with
  | init h =>
    obtain ⟨buf, rfl⟩ := h
    exact ⟨nals, by simp [Client.start], by simp [Client.start]⟩
  | @step c c' hr hstep ih =>
    have hlast := Client.nLast_lt hr
    cases hstep with
    | behind buf hbuf =>
      obtain ⟨vs, hsent, hstream⟩ := ih
      refine ⟨vs, hsent, ?_⟩
      rw [← hstream]
      congr 1
      exact Memory.read_congr fun i _ hi => hbuf i (by simp only at hi; omega)
    | iterate hread hu hit => exact ih.iterate hfit hlast hread hu hit
    | reopen hread =>
      obtain ⟨vs, hsent, hstream⟩ := ih
      have hunread : c.unread = [] := by
        have hle := List.take_eq_nil_iff.mp hread
        exact hle.resolve_left (by omega)
      refine ⟨vs ++ nals, ?_, ?_⟩
      · rw [List.map_append, ← List.append_assoc, hsent, List.replicate_succ' (n := c.passes + 1),
          List.flatten_append]
        simp
      · rw [stream_append, ← hstream, hunread, List.append_nil]

instance : Decidable (Unspoiled c) := inferInstanceAs (Decidable (∀ q < _, _ → _))

/-- An SPS from the inner loop and a slice behind it. -/
theorem reachable_spsSlice :
    ∃ c, (client (stream [Nal.sps, Nal.slice]) Unspoiled).Reachable c ∧
      c.out = [Nal.sps.unit, Nal.slice.unit] := by
  let c : Client (List (List Byte)) :=
    Client.start (fun _ => 0x11) (stream [Nal.sps, Nal.slice]) []
  have hu : Unspoiled c := by decide
  have hfirst : findNalStartCode c.fread.buf 0 maxBuf = some 0 :=
    findNalStartCode_self (by decide) (by decide)
  have hnext : findNalStartCode c.fread.buf (0 + 4) c.filled = some 5 :=
    findNalStartCode_of_lt (by decide) (by decide) (by decide) (by decide)
  have hlast : findNalStartCode c.fread.buf (5 + 4) (c.filled - (5 - 0)) = none := by
    have hfilled : c.filled = 10 := rfl
    refine findNalStartCode_eq_none.mpr fun q hle hq => ?_
    obtain rfl : q = 9 := by omega
    decide
  have hit := Client.iterate_of_pair (T := transport) hfirst hnext hlast rfl (by decide)
  exact ⟨_, .step (.init ⟨_, rfl⟩) (.iterate (List.cons_ne_nil _ _) hu hit), rfl⟩

theorem framed_of_unspoiled_two :
    ∃ c, (client (stream [Nal.sps, Nal.slice]) Unspoiled).Reachable c ∧
      c.out = [Nal.sps.unit, Nal.slice.unit] ∧ Framed [Nal.sps, Nal.slice] c := by
  obtain ⟨c, hr, hout⟩ := reachable_spsSlice
  exact ⟨c, hr, hout, framed_of_unspoiled (by decide) hr⟩

/-! ### A spoiled buffer -/

/-- A NAL whose last byte but one is zero. -/
def zeroBeforeLast (k : ℕ) : List Byte := List.replicate k 0x11 ++ [0x00, 0x11]

theorem count_zeroBeforeLast (k : ℕ) : (zeroBeforeLast k).count 0x00 = 1 := by
  simp [zeroBeforeLast, List.count_replicate]

/-- A unit of the greatest length allowed that ends in this way. -/
def longNal : Nal where
  bytes := zeroBeforeLast (maxBuf - 10)
  ne_nil := by simp [zeroBeforeLast]
  no_zeros h := by
    have hle := h.sublist.count_le (0x00 : Byte)
    rw [count_zeroBeforeLast] at hle
    exact absurd hle (by decide)
  no_startCode h := by
    have hle := h.sublist.count_le (0x00 : Byte)
    rw [count_zeroBeforeLast] at hle
    exact absurd hle (by decide)
  last_ne_zero := by simp [zeroBeforeLast]

/-- The bytes of the two units up to the last but one. -/
def spoiledHead (k : ℕ) : List Byte :=
  [0x00, 0x00, 0x00, 0x01, 0x65, 0x00, 0x00, 0x00, 0x01] ++ (List.replicate k 0x11 ++ [0x00])

/-- Memory whose first bytes after the buffer end a start code. -/
def staleMemory (k : ℕ) : Memory Byte := fun i => if i = k + 12 then 0x01 else 0x00

variable {k : ℕ}

theorem take_stream_longNal :
    (stream [Nal.slice, longNal]).take maxBuf = spoiledHead (maxBuf - 10) := by
  have hstream : stream [Nal.slice, longNal] = spoiledHead (maxBuf - 10) ++ [0x11] := by
    simp only [stream_cons, stream_nil, Nal.unit, longNal, zeroBeforeLast, spoiledHead,
      List.append_assoc, List.append_nil]
    rfl
  rw [hstream]
  exact List.take_left' (by
    rw [spoiledHead, List.length_append, List.length_append, List.length_replicate]
    rfl)

/-- The memory after the first read. -/
def spoiledMemory (k : ℕ) : Memory Byte := (staleMemory k).write 0 (spoiledHead k)

theorem spoiledMemory_apply {i : ℕ} (hi : i < k) : spoiledMemory k (i + 9) = 0x11 := by
  simp [spoiledMemory, Memory.write, spoiledHead, List.getElem?_append, hi]

theorem startCodeAt_spoiledMemory :
    StartCodeAt (spoiledMemory k) 0 ∧ StartCodeAt (spoiledMemory k) 5 ∧
      StartCodeAt (spoiledMemory k) (k + 9) := by
  simp [StartCodeAt, spoiledMemory, Memory.write, spoiledHead, staleMemory]

/-- The split loop on this buffer sends the first unit, and the second without its last two
bytes. -/
theorem splitLoop_spoiledMemory (k : ℕ) :
    splitLoop (fun startCode endCode =>
        transport.inner ((spoiledMemory k).shift startCode) (endCode - startCode))
      (spoiledMemory k) (k + 10) ⟨0, 0, 0, []⟩ =
    some ⟨k + 9, k + 9, 2, [(spoiledMemory k).read 0 5, (spoiledMemory k).read 5 (k + 4)]⟩ := by
  obtain ⟨-, hfive, hlast⟩ := startCodeAt_spoiledMemory (k := k)
  have hfirst : nextStartCode (spoiledMemory k) (k + 10)
      (⟨0, 0, 0, []⟩ : Split (List (List Byte))) = some 5 :=
    findNalStartCode_of_lt hfive (by decide) (by decide) (by simp only; omega)
  have hsecond (out : List (List Byte)) :
      nextStartCode (spoiledMemory k) (k + 10) ⟨5, 5, 1, out⟩ = some (k + 9) := by
    refine findNalStartCode_eq_some.mpr ⟨by simp only; omega, by simp only; omega, hlast, ?_⟩
    intro q hq hlt hs
    obtain ⟨i, rfl⟩ := Nat.exists_eq_add_of_le' (show 9 ≤ q from hq)
    rw [StartCodeAt, spoiledMemory_apply (by omega)] at hs
    exact absurd hs.1 (by decide)
  have hend (out : List (List Byte)) :
      nextStartCode (spoiledMemory k) (k + 10) ⟨k + 9, k + 9, 2, out⟩ = none :=
    findNalStartCode_eq_none.mpr fun q hq hlt => by simp only at hq hlt; omega
  have hlen : 5 + (k + 9 - 5) = k + 9 := by omega
  rw [splitLoop_some hfirst]
  simp only [transport, Split.advance, Option.bind_some]
  rw [splitLoop_some (hsecond _)]
  simp only [Split.advance, Option.bind_some, hlen]
  rw [splitLoop_none (hend _)]
  simp

theorem length_longNal : longNal.unit.length = maxBuf - 4 := by
  have hbytes : longNal.bytes = zeroBeforeLast (maxBuf - 10) := rfl
  rw [Nal.length_unit, hbytes, zeroBeforeLast, List.length_append, List.length_replicate]
  rfl

/-- The first read of the two units. -/
def spoiledStart : Client (List (List Byte)) :=
  Client.start (staleMemory (maxBuf - 10)) (stream [Nal.slice, longNal]) []

theorem received_spoiledStart : spoiledStart.received = spoiledHead (maxBuf - 10) :=
  Client.received_start.trans take_stream_longNal

theorem buf_fread_spoiledStart : spoiledStart.fread.buf = spoiledMemory (maxBuf - 10) := by
  rw [Client.fread, received_spoiledStart]
  rfl

theorem filled_spoiledStart : spoiledStart.filled = maxBuf - 10 + 10 := by
  rw [Client.filled, received_spoiledStart, spoiledHead, List.length_append, List.length_append,
    List.length_replicate]
  rfl

/-- The iteration on the spoiled buffer. -/
theorem iterate_spoiledStart :
    ∃ c, spoiledStart.iterate transport = some c ∧ c.passes = 0 ∧
      c.out = [(spoiledMemory (maxBuf - 10)).read 0 5,
        (spoiledMemory (maxBuf - 10)).read 5 (maxBuf - 10 + 4)] := by
  have hfull : maxBuf - 10 + 10 = maxBuf := by decide
  have hfirst : findNalStartCode spoiledStart.fread.buf 0 maxBuf = some 0 := by
    rw [buf_fread_spoiledStart]
    exact findNalStartCode_self startCodeAt_spoiledMemory.1 (by decide)
  have hloop := splitLoop_spoiledMemory (maxBuf - 10)
  rw [← buf_fread_spoiledStart, ← filled_spoiledStart] at hloop
  refine ⟨_, Client.iterate_of_full hfirst hloop (by decide) ?_ ?_, rfl, ?_⟩
  · rw [filled_spoiledStart, hfull]
  · rw [filled_spoiledStart]
    simp only
    omega
  · rw [buf_fread_spoiledStart]

/-- With these bytes behind the buffer the second datagram is not the second unit. -/
theorem not_framed_stale :
    (∀ v ∈ [Nal.slice, longNal], v.unit.length ≤ maxBuf - 4) ∧
      ¬ ∀ c, (client (stream [Nal.slice, longNal]) fun _ => True).Reachable c →
        Framed [Nal.slice, longNal] c := by
  refine ⟨?_, fun hall => ?_⟩
  · simp only [List.forall_mem_cons, length_longNal]
    exact ⟨by decide, Nat.le_refl _, by simp⟩
  · obtain ⟨c, hit, hpass, hout⟩ := iterate_spoiledStart
    have hne : spoiledStart.received ≠ [] := by simp [received_spoiledStart, spoiledHead]
    obtain ⟨vs, hsent, -⟩ := hall c (.step (.init ⟨_, rfl⟩) (.iterate hne trivial hit))
    rw [hpass, hout] at hsent
    have hunits : (List.replicate (0 + 1) ([Nal.slice, longNal].map Nal.unit)).flatten =
        [Nal.slice.unit, longNal.unit] := rfl
    rw [hunits, List.cons_append, List.cons_append, List.cons.injEq, List.cons.injEq] at hsent
    have hlen := congrArg List.length hsent.2.1
    rw [Memory.length_read, length_longNal] at hlen
    exact absurd hlen (by decide)

end Multicast

end H264Cast
