import H264Cast.Rtp.RoundTrip

/-! # Sending a file

A file is read byte by byte up to the next start code, of three or of four bytes, and what
came in front of it is sent. The automaton keeps back the zeros that may belong to a start
code. At the end of the file it gives up what it has read, so the last NAL is never sent.
-/

namespace H264Cast.FileSender

open Packetizer Depacketizer

/-- The size of the buffer for a NAL. -/
def nalBufSize : ℕ := 1500 * 50

/-- The variables of `copy_nal_from_file`. -/
structure Scan where
  flag : ℕ
  tmpbuf : Memory Byte
  len : ℕ
  buf : Memory Byte

namespace Scan

/-- Store a byte. There is no result when the buffer is full. -/
def put (c : Scan) (b : Byte) : Option Scan :=
  if c.len < nalBufSize then
    some { c with buf := c.buf.write c.len [b], len := c.len + 1 }
  else none

/-- Keep back a byte. -/
def keep (c : Scan) (b : Byte) : Scan :=
  { c with flag := c.flag + 1, tmpbuf := c.tmpbuf.write c.flag [b] }

def setFlag (c : Scan) (flag : ℕ) : Scan := { c with flag := flag }

end Scan

/-- The body of the loop, and whether it returns. -/
def scanByte (c : Scan) (b : Byte) : Option (Bool × Scan) :=
  if c.flag = 0 then
    if b ≠ 0x00 then (c.put b).map (false, ·) else some (false, c.keep b)
  else
    match c.flag with
    | 1 =>
      if b = 0x00 then some (false, c.keep b)
      else do
        let c ← (c.setFlag 0).put (c.tmpbuf 0)
        let c ← c.put b
        return (false, c)
    | 2 =>
      if b = 0x00 then some (false, c.keep b)
      else if b = 0x01 then some (true, c.setFlag 0)
      else do
        let c ← (c.setFlag 0).put (c.tmpbuf 0)
        let c ← c.put (c.tmpbuf 1)
        let c ← c.put b
        return (false, c)
    | 3 => some (decide (b = 0x01), c.setFlag 0)
    | _ => some (false, c)

/-- The loop: the value returned, the variables, and the rest of the file. -/
def scan : List Byte → Scan → Option (ℤ × Scan × List Byte)
  | [], c => some (-1, c, [])
  | b :: fp, c =>
    match scanByte c b with
    | none => none
    | some (true, c) => some (c.len, c, fp)
    | some (false, c) => scan fp c

/-- Store a byte in a buffer that has no end. -/
def Scan.push (c : Scan) (b : Byte) : Scan :=
  { c with buf := c.buf.write c.len [b], len := c.len + 1 }

/-- The body of the loop with a buffer that has no end: the function does not know the size of
the buffer it is given. -/
def stepByte (c : Scan) (b : Byte) : Bool × Scan :=
  if c.flag = 0 then
    if b ≠ 0x00 then (false, c.push b) else (false, c.keep b)
  else
    match c.flag with
    | 1 =>
      if b = 0x00 then (false, c.keep b)
      else (false, ((c.setFlag 0).push (c.tmpbuf 0)).push b)
    | 2 =>
      if b = 0x00 then (false, c.keep b)
      else if b = 0x01 then (true, c.setFlag 0)
      else (false, (((c.setFlag 0).push (c.tmpbuf 0)).push (c.tmpbuf 1)).push b)
    | 3 => (decide (b = 0x01), c.setFlag 0)
    | _ => (false, c)

/-- Read up to the next start code. What is in `tmpbuf` at first does not matter. -/
def copyNalFromFile (tmpbuf : Memory Byte) (fp : List Byte) (buf : Memory Byte) :
    Option (ℤ × Scan × List Byte) :=
  scan fp ⟨0, tmpbuf, 0, buf⟩

theorem length_of_scan {fp rest : List Byte} {c c' : Scan} {ret : ℤ}
    (h : scan fp c = some (ret, c', rest)) (hret : ret ≠ -1) : rest.length < fp.length := by
  induction fp generalizing c with
  | nil =>
    obtain ⟨rfl, -⟩ := Prod.mk.inj (Option.some.inj h)
    exact absurd rfl hret
  | cons b fp ih =>
    rw [scan] at h
    split at h
    · cases h
    · obtain ⟨-, -, rfl⟩ := Option.some.inj h
      exact Nat.lt_succ_self _
    · exact Nat.lt_succ_of_lt (ih h)

/-- The loop of the program: what is in front of a start code is sent. -/
def sendFile (tmpbuf : Memory Byte) (fp : List Byte) (nalBuf : Memory Byte) (c : Packetizer) :
    Option Packetizer :=
  match _h : copyNalFromFile tmpbuf fp nalBuf with
  | none => none
  | some (ret, s, rest) =>
    if _hret : ret = -1 then some c
    else
      match h264nal2rtpSend 25 s.buf s.len c with
      | none => none
      | some (_, c) => sendFile tmpbuf rest s.buf c
termination_by fp.length
decreasing_by exact length_of_scan _h _hret

/-- A NAL of the file, with the kind of start code in front of it. -/
structure Entry where
  short : Bool
  nal : Nal
  type_ne : nal.unitType ≠ 28
  length_le : nal.bytes.length ≤ nalBufSize

/-- The start code of an entry. -/
def Entry.separator (u : Entry) : List Byte :=
  if u.short then [0x00, 0x00, 0x01] else startCode

/-- The bytes of a file. -/
def file (us : List Entry) : List Byte := us.flatMap fun u => u.separator ++ u.nal.bytes

/-- Sending the file and decoding the packets gives back every NAL behind a start code. -/
def Forwarded (us : List Entry) (tmpbuf nalBuf recvBuffer : Memory Byte) (c : Packetizer) :
    Prop :=
  ∃ c', sendFile tmpbuf (file us) nalBuf c = some c' ∧
    ∃ sent, c'.sent = c.sent ++ sent ∧
      (receiveAll ⟨recvBuffer, []⟩ sent).saved = us.flatMap fun u => startCode ++ u.nal.bytes

variable {c c' : Scan} {front bs : List Byte} {b : Byte} {m : Memory Byte}

/-! ## The automaton -/

/-- What the automaton knows of the bytes read since the last start code: they are those in
the buffer and the zeros kept back. -/
structure Holds (c : Scan) (front : List Byte) : Prop where
  flag_le : c.flag ≤ 2
  tmpbuf_eq : ∀ i < c.flag, c.tmpbuf i = 0x00
  front_eq : front = c.buf.read 0 c.len ++ List.replicate c.flag 0x00

theorem Holds.length_eq (h : Holds c front) : front.length = c.len + c.flag := by
  rw [h.front_eq, List.length_append, Memory.length_read, List.length_replicate]

/-- Storing a byte when nothing is kept back. -/
theorem Holds.push (h : Holds c front) (hflag : c.flag = 0) (b : Byte) :
    Holds (c.push b) (front ++ [b]) := by
  have hfront := h.front_eq
  rw [hflag, List.replicate_zero, List.append_nil] at hfront
  constructor
  · exact h.flag_le
  · exact h.tmpbuf_eq
  · change front ++ [b] = (c.buf.write c.len [b]).read 0 (c.len + [b].length) ++
      List.replicate c.flag 0x00
    rw [Memory.read_write_append, hflag, List.replicate_zero, List.append_nil, ← hfront]

theorem tmpbuf_keep (h : ∀ i < c.flag, c.tmpbuf i = 0x00) :
    ∀ i < (c.keep 0x00).flag, (c.keep 0x00).tmpbuf i = 0x00 := by
  intro i hi
  change c.tmpbuf.write c.flag [0x00] i = 0x00
  rcases Nat.lt_succ_iff_lt_or_eq.mp hi with hlt | rfl
  · rw [Memory.write_of_lt hlt, h i hlt]
  · simp [Memory.write]

/-- Keeping back a zero. -/
theorem Holds.keep (h : Holds c front) (hflag : c.flag < 2) :
    Holds (c.keep 0x00) (front ++ [0x00]) := by
  refine ⟨hflag, tmpbuf_keep h.tmpbuf_eq, ?_⟩
  change front ++ [0x00] = c.buf.read 0 c.len ++ List.replicate (c.flag + 1) 0x00
  rw [List.replicate_succ', ← List.append_assoc, ← h.front_eq]

/-- The bytes in the buffer, with nothing kept back. -/
theorem holds_setFlag (c : Scan) : Holds (c.setFlag 0) (c.buf.read 0 c.len) where
  flag_le := Nat.zero_le _
  tmpbuf_eq _ hi := absurd hi (Nat.not_lt_zero _)
  front_eq := (List.append_nil _).symm

/-- One byte that does not end three zeros or a start code. -/
theorem Holds.stepByte (h : Holds c front) (hzeros : ¬ [0x00, 0x00, 0x00] <:+ front ++ [b])
    (hone : ¬ [0x00, 0x00, 0x01] <:+ front ++ [b]) :
    ∃ c', stepByte c b = (false, c') ∧ Holds c' (front ++ [b]) := by
  have hfront := h.front_eq
  have hcases : c.flag = 0 ∨ c.flag = 1 ∨ c.flag = 2 := by have := h.flag_le; omega
  rcases hcases with hflag | hflag | hflag
  · rw [FileSender.stepByte, if_pos hflag]
    split_ifs with hb
    · exact ⟨_, rfl, h.push hflag b⟩
    · obtain rfl := not_not.mp hb
      exact ⟨_, rfl, h.keep (by omega)⟩
  · rw [FileSender.stepByte, if_neg (by omega)]
    simp only [hflag]
    split_ifs with hb
    · subst hb
      exact ⟨_, rfl, h.keep (by omega)⟩
    · rw [hflag] at hfront
      refine ⟨_, rfl, ?_⟩
      rw [h.tmpbuf_eq 0 (by omega), hfront]
      exact ((holds_setFlag c).push rfl 0x00).push rfl b
  · rw [FileSender.stepByte, if_neg (by omega)]
    rw [hflag] at hfront
    simp only [hflag]
    split_ifs with hb hb'
    · exact absurd ⟨c.buf.read 0 c.len, by rw [hfront, hb, List.append_assoc]; rfl⟩ hzeros
    · exact absurd ⟨c.buf.read 0 c.len, by rw [hfront, hb', List.append_assoc]; rfl⟩ hone
    · refine ⟨_, rfl, ?_⟩
      have hpush := (((holds_setFlag c).push rfl 0x00).push rfl 0x00).push rfl b
      rw [List.append_assoc (c.buf.read 0 c.len)] at hpush
      rw [h.tmpbuf_eq 0 (by omega), h.tmpbuf_eq 1 (by omega), hfront]
      exact hpush

theorem put_of_lt (h : c.len < nalBufSize) : c.put b = some (c.push b) := if_pos h

/-- The buffer has room for the byte and the zeros kept back. -/
theorem scanByte_of_lt (h : c.len + c.flag < nalBufSize) (b : Byte) :
    scanByte c b = some (stepByte c b) := by
  have hfirst (x : Byte) : (c.setFlag 0).put x = some ((c.setFlag 0).push x) :=
    put_of_lt (show c.len < nalBufSize by omega)
  unfold scanByte stepByte
  by_cases hflag : c.flag = 0
  · rw [if_pos hflag, if_pos hflag, put_of_lt (by omega)]
    split_ifs <;> rfl
  · rw [if_neg hflag, if_neg hflag]
    split
    next hone =>
      rw [hfirst, Option.bind_eq_bind, Option.bind_some,
        put_of_lt (show c.len + 1 < nalBufSize by omega)]
      split_ifs <;> rfl
    next htwo =>
      rw [hfirst, Option.bind_eq_bind, Option.bind_some,
        put_of_lt (show c.len + 1 < nalBufSize by omega), Option.bind_some,
        put_of_lt (show c.len + 1 + 1 < nalBufSize by omega)]
      split_ifs <;> rfl
    next => rfl
    next => rfl

theorem Holds.scanByte (h : Holds c front) (hlen : front.length < nalBufSize)
    (hzeros : ¬ [0x00, 0x00, 0x00] <:+ front ++ [b])
    (hone : ¬ [0x00, 0x00, 0x01] <:+ front ++ [b]) :
    ∃ c', scanByte c b = some (false, c') ∧ Holds c' (front ++ [b]) := by
  obtain ⟨c', hc', h'⟩ := h.stepByte hzeros hone
  exact ⟨c', by rw [scanByte_of_lt (h.length_eq ▸ hlen), hc'], h'⟩

/-- Bytes without three zeros and without a start code are read as they are. -/
theorem Holds.scan (h : Holds c front) (hlen : (front ++ bs).length ≤ nalBufSize)
    (hzeros : ¬ [0x00, 0x00, 0x00] <:+: front ++ bs)
    (hone : ¬ [0x00, 0x00, 0x01] <:+: front ++ bs) (fp : List Byte) :
    ∃ c', scan (bs ++ fp) c = scan fp c' ∧ Holds c' (front ++ bs) := by
  induction bs generalizing c front with
  | nil => exact ⟨c, rfl, (List.append_nil front).symm ▸ h⟩
  | cons b bs ih =>
    rw [List.append_cons] at hlen hzeros hone ⊢
    have hsuffix : front ++ [b] <:+: front ++ [b] ++ bs := (List.prefix_append _ _).isInfix
    have hlt : front.length < nalBufSize := by
      simp only [List.length_append, List.length_singleton] at hlen
      omega
    obtain ⟨c₁, hc₁, h₁⟩ := h.scanByte hlt (fun hz => hzeros (hz.isInfix.trans hsuffix))
      (fun ho => hone (ho.isInfix.trans hsuffix))
    obtain ⟨c', hc', h'⟩ := ih h₁ hlen hzeros hone
    refine ⟨c', ?_, h'⟩
    rw [← hc', List.cons_append, FileSender.scan, hc₁]

/-- When the bytes read are those of a NAL, nothing is kept back. -/
theorem Holds.of_nal {v : Nal} (h : Holds c v.bytes) :
    c.flag = 0 ∧ c.len = v.bytes.length ∧ c.buf.read 0 c.len = v.bytes := by
  have hflag : c.flag = 0 := by
    by_contra hne
    obtain ⟨k, hk⟩ := Nat.exists_eq_succ_of_ne_zero hne
    have hfront := h.front_eq
    rw [hk, List.replicate_succ', ← List.append_assoc] at hfront
    apply v.last_ne_zero
    rw [List.getLast_congr v.ne_nil (by simp) hfront, List.getLast_append_singleton]
  have hfront := h.front_eq
  have hsize := h.length_eq
  rw [hflag, List.replicate_zero, List.append_nil] at hfront
  rw [hflag, Nat.add_zero] at hsize
  exact ⟨hflag, hsize.symm, hfront.symm⟩

/-- A NAL is in the buffer when the automaton has read it. -/
theorem scan_nal (v : Nal) (hlen : v.bytes.length ≤ nalBufSize) (tmpbuf buf : Memory Byte)
    (fp : List Byte) :
    ∃ c', scan (v.bytes ++ fp) ⟨0, tmpbuf, 0, buf⟩ = scan fp c' ∧ c'.flag = 0 ∧
      c'.len = v.bytes.length ∧ c'.buf.read 0 c'.len = v.bytes := by
  have hstart : Holds ⟨0, tmpbuf, 0, buf⟩ [] := holds_setFlag ⟨0, tmpbuf, 0, buf⟩
  obtain ⟨c', hc', h'⟩ := hstart.scan hlen v.no_zeros v.no_startCode fp
  exact ⟨c', hc', Holds.of_nal (List.nil_append v.bytes ▸ h')⟩

/-- A start code of either kind ends the reading. -/
theorem scan_separator (u : Entry) (fp : List Byte) (hflag : c.flag = 0) :
    ∃ c' : Scan, scan (u.separator ++ fp) c = some ((c.len : ℤ), c', fp) ∧ c'.len = c.len ∧
      c'.buf = c.buf := by
  obtain ⟨flag, tmpbuf, len, buf⟩ := c
  obtain rfl : flag = 0 := hflag
  unfold Entry.separator
  split_ifs
  · exact ⟨_, rfl, rfl, rfl⟩
  · exact ⟨_, rfl, rfl, rfl⟩

/-! ## The loop -/

theorem file_cons (u : Entry) (us : List Entry) :
    file (u :: us) = u.separator ++ (u.nal.bytes ++ file us) := by
  rw [file, List.flatMap_cons, List.append_assoc]
  rfl

theorem sendFile_of_end {tmpbuf nalBuf : Memory Byte} {fp rest : List Byte} {p : Packetizer}
    (h : copyNalFromFile tmpbuf fp nalBuf = some (-1, c, rest)) :
    sendFile tmpbuf fp nalBuf p = some p := by
  rw [sendFile]
  split
  · simp_all
  · simp_all

theorem sendFile_of_copy {tmpbuf nalBuf : Memory Byte} {fp rest : List Byte}
    {p p' : Packetizer} {n : ℕ} {ret : ℤ}
    (h : copyNalFromFile tmpbuf fp nalBuf = some ((n : ℤ), c, rest))
    (hsend : h264nal2rtpSend 25 c.buf c.len p = some (ret, p')) :
    sendFile tmpbuf fp nalBuf p = sendFile tmpbuf rest c.buf p' := by
  rw [sendFile]
  split
  · simp_all
  · rename_i ret' s rest' hcopy
    obtain ⟨rfl, rfl, rfl⟩ : ret' = n ∧ s = c ∧ rest' = rest := by
      simpa using hcopy.symm.trans h
    rw [dif_neg (by omega), hsend]

/-- The file behind a start code: every NAL but the last one is sent. -/
theorem sendFile_entries (us : List Entry) (u : Entry) (tmpbuf nalBuf : Memory Byte)
    (p : Packetizer) :
    ∃ p', sendFile tmpbuf (u.nal.bytes ++ file us) nalBuf p = some p' ∧
      ∃ sent, p'.sent = p.sent ++ sent ∧ ∀ d : Depacketizer, (d.receiveAll sent).saved =
        d.saved ++ (u :: us).dropLast.flatMap fun u => startCode ++ u.nal.bytes := by
  induction us generalizing u nalBuf p with
  | nil =>
    obtain ⟨c, hc, -⟩ := scan_nal u.nal u.length_le tmpbuf nalBuf []
    refine ⟨p, sendFile_of_end hc, [], (List.append_nil _).symm, fun d => ?_⟩
    exact (List.append_nil _).symm
  | cons u' us ih =>
    obtain ⟨c, hc, hflag, hlen, hread⟩ := scan_nal u.nal u.length_le tmpbuf nalBuf
      (file (u' :: us))
    obtain ⟨c₁, hc₁, hlen₁, hbuf₁⟩ := scan_separator u' (u'.nal.bytes ++ file us) hflag
    obtain ⟨ret, p₁, hsend⟩ :=
      h264nal2rtpSend_isSome (show (25 : ℤ) ≠ 0 by decide) c₁.buf c₁.len p
    obtain ⟨-, -, -, -, hsent₁⟩ := h264nal2rtpSend_spec hsend
    have hcopy : copyNalFromFile tmpbuf (u.nal.bytes ++ file (u' :: us)) nalBuf =
        some ((c.len : ℤ), c₁, u'.nal.bytes ++ file us) := by
      rw [copyNalFromFile, hc, file_cons, hc₁]
    obtain ⟨p', hp', sent, hsent, hdecode⟩ := ih u' c₁.buf p₁
    refine ⟨p', (sendFile_of_copy hcopy hsend).trans hp',
      packetsOf 25 p.tsCurrent p.seqNum c₁.buf c₁.len ++ sent, ?_, fun d => ?_⟩
    · rw [hsent, hsent₁, List.append_assoc]
    · have hread₁ : c₁.buf.read 0 c₁.len = u.nal.bytes := by rw [hbuf₁, hlen₁, hread]
      have hpos : 1 ≤ c₁.len := by
        rw [hlen₁, hlen]
        exact u.nal.length_pos
      have hhead : c₁.buf 0 = u.nal.bytes.head u.nal.ne_nil := by
        obtain ⟨k, hk⟩ := Nat.exists_eq_add_of_le' hpos
        rw [hk, Memory.read_succ] at hread₁
        simp only [← hread₁, List.head_cons]
      rw [receiveAll_append, hdecode, receiveAll_packetsOf _ hpos fun _ => hhead ▸ u.type_ne,
        hread₁, List.dropLast_cons_cons, List.flatMap_cons, List.append_assoc]

/-- All NALs of a file but the last one come through. -/
theorem sendFile_dropLast (us : List Entry) (tmpbuf nalBuf : Memory Byte) (p : Packetizer) :
    ∃ p', sendFile tmpbuf (file us) nalBuf p = some p' ∧
      ∃ sent, p'.sent = p.sent ++ sent ∧ ∀ d : Depacketizer, (d.receiveAll sent).saved =
        d.saved ++ us.dropLast.flatMap fun u => startCode ++ u.nal.bytes := by
  cases us with
  | nil =>
    refine ⟨p, sendFile_of_end rfl, [], (List.append_nil _).symm, fun d => ?_⟩
    exact (List.append_nil _).symm
  | cons u us =>
    -- The first call finds the start code in front and nothing to send.
    obtain ⟨c, hc, hlen, hbuf⟩ := scan_separator (c := ⟨0, tmpbuf, 0, nalBuf⟩) u
      (u.nal.bytes ++ file us) rfl
    obtain ⟨ret, p₁, hsend⟩ :=
      h264nal2rtpSend_isSome (show (25 : ℤ) ≠ 0 by decide) c.buf c.len p
    obtain ⟨-, -, -, -, hsent₁⟩ := h264nal2rtpSend_spec hsend
    have hcopy : copyNalFromFile tmpbuf (file (u :: us)) nalBuf =
        some (((0 : ℕ) : ℤ), c, u.nal.bytes ++ file us) := by
      rw [file_cons]
      exact hc
    obtain ⟨p', hp', sent, hsent, hdecode⟩ := sendFile_entries us u tmpbuf c.buf p₁
    have hnone : packetsOf 25 p.tsCurrent p.seqNum c.buf c.len = [] := by
      rw [hlen]
      rfl
    refine ⟨p', (sendFile_of_copy hcopy hsend).trans hp', sent, ?_, hdecode⟩
    rw [hsent, hsent₁, hnone, List.append_nil]

/-- The last NAL is missing when there is one. -/
theorem not_forwarded {us : List Entry} (hne : us ≠ []) (tmpbuf nalBuf recvBuffer : Memory Byte)
    (c : Packetizer) : ¬ Forwarded us tmpbuf nalBuf recvBuffer c := by
  obtain ⟨p', hp', sent, hsent, hdecode⟩ := sendFile_dropLast us tmpbuf nalBuf c
  rintro ⟨c', hc', sent', hsent', hsaved⟩
  obtain rfl := Option.some.inj (hp'.symm.trans hc')
  obtain rfl := List.append_cancel_left (hsent.symm.trans hsent')
  rw [hdecode, List.nil_append] at hsaved
  have hlen := congrArg List.length hsaved
  conv_rhs at hlen => rw [← List.dropLast_append_getLast hne]
  rw [List.flatMap_append, List.length_append, List.flatMap_singleton, List.length_append] at hlen
  have hpos : 0 < startCode.length := by decide
  omega

/-- A file comes through complete exactly when there is no NAL in it. -/
theorem forwarded_iff (us : List Entry) (tmpbuf nalBuf recvBuffer : Memory Byte)
    (c : Packetizer) : Forwarded us tmpbuf nalBuf recvBuffer c ↔ us = [] := by
  constructor
  · intro h
    by_contra hne
    exact not_forwarded hne _ _ _ _ h
  · rintro rfl
    obtain ⟨p', hp', sent, hsent, hdecode⟩ := sendFile_dropLast [] tmpbuf nalBuf c
    exact ⟨p', hp', sent, hsent, hdecode _⟩

/-- A file with a single slice. -/
def oneSlice : Entry where
  short := false
  nal := .slice
  type_ne := by decide
  length_le := by decide

/-- The only NAL of the file is not sent. -/
theorem not_forwarded_oneSlice :
    ¬ Forwarded [oneSlice] (fun _ => 0) (fun _ => 0) (fun _ => 0) ⟨0, 0, fun _ => 0, []⟩ :=
  not_forwarded (List.cons_ne_nil _ _) _ _ _ _

end H264Cast.FileSender
