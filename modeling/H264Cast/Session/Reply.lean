import H264Cast.Session.Server

/-! # The reply to a message

A message may fill its buffer, and the buffer for the reply has the same size although the
text in front and the terminator have to fit as well. A reply is confined to its buffer
exactly when the message up to its first zero has at most 4091 bytes.
-/

namespace H264Cast.TcpServer

/-- A message as `recv` returns it. -/
structure Message where
  bytes : List Byte
  ne_nil : bytes ≠ []
  length_le : bytes.length ≤ bufSize

/-- The message up to its first zero. -/
def Message.text (v : Message) : List Byte := v.bytes.takeWhile (· ≠ 0)

/-- The memory when the reply is built. -/
def received (m : Memory Byte) (base : ℕ) (v : Message) (timeNow : BitVec 128) : Memory Byte :=
  storeMessage (clearBuffers m base) base v.bytes timeNow

/-- What is sent when a message is received. -/
def sent (limit : ℕ) (m : Memory Byte) (base : ℕ) (v : Message) (e : ClientEvents) :
    Option (List Byte) :=
  (incomingConnectionHandlerClient limit { e with received := .bytes v.bytes v.length_le } m
    base).bind Prod.fst

/-- The reply is the text with the message, it is built inside its buffer, and it does not
depend on what is outside the session. -/
def Isolated (beyond : ℕ) (m : Memory Byte) (i : ℕ) (v : Message) (e : ClientEvents) : Prop :=
  ∃ m', buildReply (tableSize + beyond) (received m (client i) v e.timeNow) (client i) = some m' ∧
    (∀ a, ¬ (client i + sendBuf ≤ a ∧ a < client i + sendBuf + bufSize) →
      m' a = received m (client i) v e.timeNow a) ∧
    sent (tableSize + beyond) m (client i) v e = some (yse ++ v.text) ∧
    ∀ m₂ : Memory Byte, (∀ k < sessionSize, m₂ (client i + k) = m (client i + k)) →
      sent (tableSize + beyond) m₂ (client i) v e = sent (tableSize + beyond) m (client i) v e

variable {m m' : Memory Byte} {base limit a : ℕ} {v : Message} {e : ClientEvents}
  {timeNow : BitVec 128}

theorem zero_notMem_text (v : Message) : 0 ∉ v.text := by
  intro h
  simpa using List.mem_takeWhile_imp h

theorem zero_notMem_yse : 0 ∉ yse := by decide

/-- The buffer with the message, and zeros behind it. -/
theorem read_received (m : Memory Byte) (base : ℕ) (v : Message) (timeNow : BitVec 128) :
    (received m base v timeNow).read (base + recvBuf) bufSize =
      v.bytes ++ List.replicate (bufSize - v.bytes.length) 0 := by
  have hlen := v.length_le
  have hpad : bufSize = v.bytes.length + (bufSize - v.bytes.length) := by omega
  have htime : base + rtcpKeepAliveTime + (Memory.wordBytes 16 timeNow).length ≤
      base + recvBuf := by
    simp only [Memory.length_wordBytes, rtcpKeepAliveTime, recvBuf, sendBuf]
    omega
  have hsend : base + sendBuf + (List.replicate bufSize (0 : Byte)).length ≤
      base + recvBuf + v.bytes.length := by
    simp only [List.length_replicate, recvBuf]
    omega
  rw [received, storeMessage, Memory.read_write_after htime]
  conv_lhs => rw [hpad]
  rw [Memory.read_add, Memory.read_write_self _ _ rfl, Memory.read_write_after (Nat.le_refl _),
    clearBuffers, Memory.clear, Memory.read_write_after hsend, Memory.read_clear (by omega)]

/-- The string in the buffer. -/
theorem string_bufSize (m : Memory Byte) (base : ℕ) (v : Message) (timeNow : BitVec 128) :
    (received m base v timeNow).string (base + recvBuf) bufSize = v.text := by
  rw [Memory.string, read_received, Message.text, List.takeWhile_append]
  split_ifs with hall
  · rw [(List.takeWhile_prefix _).eq_of_length hall, List.takeWhile_replicate, if_neg (by simp),
      List.append_nil]
  · rfl

theorem exists_limit (hlimit : base + sessionSize ≤ limit) :
    ∃ k, limit - (base + recvBuf) = bufSize + k := by
  refine ⟨limit - (base + recvBuf) - bufSize, ?_⟩
  rw [sessionSize] at hlimit
  omega

/-- The string the reply is printed from, when it ends in the buffer. -/
theorem string_received (hv : v.text.length < bufSize) (hlimit : base + sessionSize ≤ limit)
    (m : Memory Byte) (timeNow : BitVec 128) :
    (received m base v timeNow).Terminated (base + recvBuf) (limit - (base + recvBuf)) ∧
      (received m base v timeNow).string (base + recvBuf) (limit - (base + recvBuf)) = v.text := by
  have hterm : (received m base v timeNow).Terminated (base + recvBuf) bufSize := by
    rw [Memory.Terminated, read_received, List.mem_append, List.mem_replicate]
    by_cases hzero : 0 ∈ v.bytes
    · exact Or.inl hzero
    · have hall : v.text = v.bytes := by
        rw [Message.text, List.takeWhile_eq_self_iff]
        intro b hb
        simpa using fun he : b = 0 => hzero (he ▸ hb)
      rw [hall] at hv
      exact Or.inr ⟨by omega, rfl⟩
  obtain ⟨k, hk⟩ := exists_limit hlimit
  rw [hk, hterm.string_add, Memory.terminated_add]
  exact ⟨Or.inl hterm, string_bufSize m base v timeNow⟩

/-- The string goes on behind the buffer when there is no zero in it. -/
theorem text_length_le (hlimit : base + sessionSize ≤ limit) (m : Memory Byte)
    (timeNow : BitVec 128) :
    v.text.length ≤
      ((received m base v timeNow).string (base + recvBuf) (limit - (base + recvBuf))).length := by
  obtain ⟨k, hk⟩ := exists_limit hlimit
  rw [hk, ← string_bufSize m base v timeNow]
  exact (Memory.string_isPrefix_add _ _ _ _).length_le

theorem sent_eq (hbuild : buildReply limit (received m base v e.timeNow) base = some m') :
    sent limit m base v e = some (reply limit m' base) := by
  have hhandle : incomingConnectionHandlerClient limit
      { e with received := .bytes v.bytes v.length_le } m base =
        (buildReply limit (received m base v e.timeNow) base).map fun m =>
          (some (reply limit m base),
            if e.written ≤ 0 ∧ ¬ e.writeAgain then m.storeInt (base + bIsActive) (-1) else m) :=
    if_neg v.ne_nil
  rw [sent, hhandle, hbuild]
  rfl

/-- A message that fits is answered by the text and itself, whatever the memory contains. -/
theorem reply_of_le (hv : v.text.length ≤ 4091) (hlimit : base + sessionSize ≤ limit)
    (m : Memory Byte) (e : ClientEvents) :
    ∃ m', buildReply limit (received m base v e.timeNow) base = some m' ∧
      m' = (received m base v e.timeNow).write (base + sendBuf) (yse ++ v.text ++ [0]) ∧
      sent limit m base v e = some (yse ++ v.text) := by
  obtain ⟨hterm, hstring⟩ := string_received (v := v) (by rw [bufSize]; omega) hlimit m e.timeNow
  have hbuild : buildReply limit (received m base v e.timeNow) base =
      some ((received m base v e.timeNow).write (base + sendBuf) (yse ++ v.text ++ [0])) := by
    rw [buildReply, if_pos hterm, hstring]
  refine ⟨_, hbuild, rfl, ?_⟩
  have hzero : 0 ∉ yse ++ v.text := by
    rw [List.mem_append, not_or]
    exact ⟨zero_notMem_yse, zero_notMem_text v⟩
  have hlen : (yse ++ v.text).length < limit - (base + sendBuf) := by
    simp only [sessionSize, recvBuf, sendBuf, bufSize] at hlimit
    simp only [List.length_append, yse, List.length_cons, List.length_nil, sendBuf]
    omega
  rw [sent_eq hbuild, reply, (Memory.string_write _ _ hzero hlen).1]

theorem isolated_of_le (hv : v.text.length ≤ 4091) (beyond : ℕ) (m : Memory Byte)
    (i : Fin maxClientNum) (e : ClientEvents) : Isolated beyond m i v e := by
  have hlimit : client i + sessionSize ≤ tableSize + beyond :=
    Nat.le_add_right_of_le (client_le_tableSize i)
  obtain ⟨m', hbuild, rfl, hsent⟩ := reply_of_le hv hlimit m e
  refine ⟨_, hbuild, ?_, hsent, ?_⟩
  · intro a ha
    apply Memory.write_of_outside
    simp only [List.length_append, yse, List.length_cons, List.length_nil, bufSize] at ha ⊢
    omega
  · intro m₂ _
    obtain ⟨-, -, -, hsent₂⟩ := reply_of_le hv hlimit m₂ e
    rw [hsent, hsent₂]

/-- The terminator of a longer reply falls on a byte of the message. -/
theorem not_isolated_of_lt (hv : 4091 < v.text.length) (beyond : ℕ) (m : Memory Byte)
    (i : Fin maxClientNum) (e : ClientEvents) : ¬ Isolated beyond m i v e := by
  have hlimit : client i + sessionSize ≤ tableSize + beyond :=
    Nat.le_add_right_of_le (client_le_tableSize i)
  rintro ⟨m', hbuild, hframe, -⟩
  have hlen := text_length_le (v := v) hlimit m e.timeNow
  rw [buildReply] at hbuild
  split_ifs at hbuild with hterm
  obtain rfl := Option.some.inj hbuild
  obtain ⟨j, hj⟩ := Nat.exists_eq_add_of_le (Nat.lt_of_lt_of_le hv hlen)
  have hne := Memory.ne_zero_of_lt_string (m := received m (client i) v e.timeNow)
    (p := client i + recvBuf) (n := tableSize + beyond - (client i + recvBuf)) (i := j) (by omega)
  generalize (received m (client i) v e.timeNow).string (client i + recvBuf)
    (tableSize + beyond - (client i + recvBuf)) = s at hj hframe
  have hlast : client i + recvBuf + j = client i + sendBuf + (yse ++ s).length := by
    simp only [recvBuf, sendBuf, bufSize, List.length_append, yse, List.length_cons,
      List.length_nil]
    omega
  have hwrite := hframe (client i + recvBuf + j) (by simp only [recvBuf]; omega)
  rw [hlast, Memory.write_of_mem (by simp), List.getElem_append_right (Nat.le_refl _)] at hwrite
  simp only [Nat.sub_self, List.getElem_cons_zero] at hwrite
  rw [← hlast] at hwrite
  exact hne hwrite.symm

/-- For every slot, every contents of the memory and every message: the reply is isolated
exactly when the message has at most 4091 bytes up to its first zero. -/
theorem isolated_iff (beyond : ℕ) (m : Memory Byte) (i : Fin maxClientNum) (v : Message)
    (e : ClientEvents) : Isolated beyond m i v e ↔ v.text.length ≤ 4091 := by
  constructor
  · intro h
    by_contra hlt
    exact not_isolated_of_lt (Nat.not_le.mp hlt) beyond m i e h
  · exact fun hv => isolated_of_le hv beyond m i e

/-- A message of 4092 letters. -/
def longMessage : Message where
  bytes := List.replicate 4092 0x61
  ne_nil := List.ne_nil_of_length_pos (by rw [List.length_replicate]; decide)
  length_le := by rw [List.length_replicate]; decide

/-- A message that fits its buffer and whose reply does not. -/
theorem not_isolated_longMessage :
    ¬ Isolated 0 (fun _ => 0) 0 longMessage ⟨.error true, 0, 4096, false⟩ := by
  refine not_isolated_of_lt ?_ 0 _ ⟨0, by decide⟩ _
  rw [Message.text, longMessage, List.takeWhile_replicate, if_pos (by decide),
    List.length_replicate]
  decide

end H264Cast.TcpServer
