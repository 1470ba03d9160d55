import H264Cast.Network.Fanout
import H264Cast.Sample.FileSender

/-! # Sending a file to all clients

The program reads its file NAL by NAL and sends each of them to the clients in its list. What
a receiver writes is the file without its last NAL, as far as the packets did not fail for the
socket of this client.
-/

namespace H264Cast.Fanout

open FileSender Packetizer Depacketizer
open SendFailure (Outcome)

/-- The loop of the program. For each call are given what its `tmpbuf` holds at first, and the
outcome of sending each of its packets to each socket. -/
def sendFile (llist : ℕ) (tmpbuf : ℕ → Memory Byte) (outcome : ℕ → ℕ → ℕ → Outcome) (n : ℕ)
    (fp : List Byte) (nalBuf : Memory Byte) (s : State) : Option State :=
  match _h : copyNalFromFile (tmpbuf n) fp nalBuf with
  | none => none
  | some (ret, c, rest) =>
    if _hret : ret = -1 then some s
    else
      match sendNal llist s ⟨⟨25, c.buf, c.len⟩, outcome n⟩ with
      | none => none
      | some s => sendFile llist tmpbuf outcome (n + 1) rest c.buf s
termination_by fp.length
decreasing_by exact length_of_scan _h _hret

/-- What arrives at a client of a NAL of the file, given with the number of the call for it. -/
def Arrives (outcome : ℕ → ℕ → ℕ → Outcome) (socketC : ℕ) (u : FileSender.Entry × ℕ)
    (part : List Byte) : Prop :=
  part.Sublist (startCode ++ u.1.nal.bytes) ∧ (part = startCode ++ u.1.nal.bytes ↔
    ∀ i < packetCount u.1.nal.bytes.length, (outcome u.2 i socketC).isFailed = false)

variable {llist n : ℕ} {tmpbuf : ℕ → Memory Byte} {outcome : ℕ → ℕ → ℕ → Outcome}
  {fp rest : List Byte} {nalBuf : Memory Byte} {s : State} {c : Scan} {a : Sending}
  {u : FileSender.Entry × ℕ}

theorem sendFile_of_end (h : copyNalFromFile (tmpbuf n) fp nalBuf = some (-1, c, rest)) :
    sendFile llist tmpbuf outcome n fp nalBuf s = some s := by
  rw [sendFile]
  split
  · simp_all
  · simp_all

theorem sendFile_of_copy {k : ℕ}
    (h : copyNalFromFile (tmpbuf n) fp nalBuf = some ((k : ℤ), c, rest)) :
    sendFile llist tmpbuf outcome n fp nalBuf s =
      (sendNal llist s ⟨⟨25, c.buf, c.len⟩, outcome n⟩).bind
        (sendFile llist tmpbuf outcome (n + 1) rest c.buf) := by
  rw [sendFile]
  split
  · simp_all
  · rename_i ret s' rest' hcopy
    obtain ⟨rfl, rfl, rfl⟩ : ret = k ∧ s' = c ∧ rest' = rest := by
      simpa using hcopy.symm.trans h
    rw [dif_neg (by omega)]
    cases sendNal llist s ⟨⟨25, s'.buf, s'.len⟩, outcome n⟩ <;> rfl

variable {us : List (FileSender.Entry × ℕ)} {as : List Sending} {first : Option Sending}
  {socketC : ℕ} {parts : List (List Byte)}

end H264Cast.Fanout
