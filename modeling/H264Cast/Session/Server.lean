import H264Cast.AnnexB.StartCode
import H264Cast.Library.CString
import H264Cast.Library.Ledger
import H264Cast.Library.Word
import Mathlib.Data.BitVec

/-! # The TCP server

The server keeps a packed table of four sessions and serves them in a select loop. The table
is modelled byte by byte, with the memory behind it, because a reply is built with `sprintf`
from a buffer that need not hold a terminator. What the calls to the system return is given
for each iteration, and the descriptors and connections are kept besides the table.
-/

namespace H264Cast.TcpServer

/-- The number of sessions. -/
def maxClientNum : ℕ := 4

/-- The size of each buffer. -/
def bufSize : ℕ := 4096

/-- The place of the fields of a session. -/
def ourServer : ℕ := 0
def sock : ℕ := 8
def bUse : ℕ := 12
def bIsActive : ℕ := 16
def rtcpKeepAliveTime : ℕ := 20
def session : ℕ := 36
def sendBuf : ℕ := 44
def recvBuf : ℕ := sendBuf + bufSize

/-- The size of a session. -/
def sessionSize : ℕ := recvBuf + bufSize

/-- The place of a session in the table. -/
def client (i : ℕ) : ℕ := i * sessionSize

/-- The size of the table. -/
def tableSize : ℕ := maxClientNum * sessionSize

theorem client_succ (i : ℕ) : client (i + 1) = client i + sessionSize := Nat.succ_mul ..

/-- Slots do not overlap. -/
theorem client_disjoint {i j : Fin maxClientNum} (h : i ≠ j) :
    client i + sessionSize ≤ client j ∨ client j + sessionSize ≤ client i := by
  simp only [client, ← Nat.succ_mul]
  rcases Nat.lt_or_gt_of_ne (Fin.val_ne_of_ne h) with hlt | hlt
  · exact Or.inl (Nat.mul_le_mul_right _ hlt)
  · exact Or.inr (Nat.mul_le_mul_right _ hlt)

theorem client_le_tableSize (i : Fin maxClientNum) : client i + sessionSize ≤ tableSize := by
  rw [← client_succ, client, tableSize]
  exact Nat.mul_le_mul_right _ i.isLt

/-- The server. The table is addressed from the first session on. -/
structure MyServer where
  mySocket : BitVec 32
  clientNum : ℤ
  table : Memory Byte

/-- The connections behind the descriptors. -/
abbrev Sockets := Ledger (BitVec 32)

/-- The server and what it asks of the system. -/
structure State where
  server : MyServer
  sockets : Sockets

/-- The result of `recv`: an error, with `EINTR` and `EAGAIN` told from the others, or bytes,
none of them when the peer has closed the connection. -/
inductive Received
  | error (again : Bool)
  | bytes (bs : List Byte) (length_le : bs.length ≤ bufSize)

/-- What the system returns while a session is served. -/
structure ClientEvents where
  received : Received
  timeNow : BitVec 128
  written : ℤ
  writeAgain : Bool

/-- What the system returns in an iteration of the loop. -/
structure Events where
  selectResult : ℤ
  ready : BitVec 32 → Bool
  clientSocket : BitVec 32
  random : BitVec 64
  clients : ℕ → ClientEvents

def commSocketClose (os : Sockets) (fd : BitVec 32) : Sockets :=
  if fd.toInt < 0 then os else os.release fd

/-- Fill in a session for a new connection. -/
def openSession (self : BitVec 64) (clientSocket : BitVec 32) (random : BitVec 64)
    (m : Memory Byte) (base : ℕ) : Memory Byte :=
  let m := m.clear base sessionSize
  let m := m.storeInt (base + sock) clientSocket
  let m := m.write (base + session) (Memory.wordBytes 8 random)
  let m := m.storeInt (base + bUse) 1
  let m := m.storeInt (base + bIsActive) 1
  let m := m.write (base + ourServer) (Memory.wordBytes 8 self)
  let m := m.clear (base + sendBuf) bufSize
  m.clear (base + recvBuf) bufSize

/-- The first session that is not in use. -/
def freeSession (m : Memory Byte) : Option ℕ :=
  (List.range maxClientNum).find? fun i => m.loadInt (client i + bUse) = 0

def incomingConnectionHandler (self : BitVec 64) (e : Events) (s : State) : State :=
  if e.clientSocket.toInt < 0 then s
  else
    let sockets := s.sockets.acquire e.clientSocket
    match freeSession s.server.table with
    | none => { s with sockets := commSocketClose sockets e.clientSocket }
    | some i =>
      { server := { s.server with
          clientNum := s.server.clientNum + 1
          table := openSession self e.clientSocket e.random s.server.table (client i) }
        sockets := sockets }

/-- The text in front of a reply. -/
def yse : List Byte := [0x79, 0x73, 0x65, 0x2c]

def clearBuffers (m : Memory Byte) (base : ℕ) : Memory Byte :=
  (m.clear (base + recvBuf) bufSize).clear (base + sendBuf) bufSize

/-- Store a message and the time it was received. -/
def storeMessage (m : Memory Byte) (base : ℕ) (bs : List Byte) (timeNow : BitVec 128) :
    Memory Byte :=
  (m.write (base + recvBuf) bs).write (base + rtcpKeepAliveTime) (Memory.wordBytes 16 timeNow)

/-- Print the message behind the text. The string is copied from its first byte on, which
puts it in front of where it is read, so an overlap does not change what is copied. There is
no result when no terminator comes in the memory up to the limit. -/
def buildReply (limit : ℕ) (m : Memory Byte) (base : ℕ) : Option (Memory Byte) :=
  let n := limit - (base + recvBuf)
  if m.Terminated (base + recvBuf) n then
    some (m.write (base + sendBuf) (yse ++ m.string (base + recvBuf) n ++ [0]))
  else none

/-- The bytes that are sent. -/
def reply (limit : ℕ) (m : Memory Byte) (base : ℕ) : List Byte :=
  m.string (base + sendBuf) (limit - (base + sendBuf))

/-- Serve a session. The bytes sent are recorded. -/
def incomingConnectionHandlerClient (limit : ℕ) (e : ClientEvents) (m : Memory Byte) (base : ℕ) :
    Option (Option (List Byte) × Memory Byte) :=
  let m := clearBuffers m base
  match e.received with
  | .error again => some (none, if again then m else m.storeInt (base + bIsActive) (-1))
  | .bytes bs _ =>
    if bs = [] then some (none, m.storeInt (base + bIsActive) (-1))
    else
      (buildReply limit (storeMessage m base bs e.timeNow) base).map fun m =>
        (some (reply limit m base),
          if e.written ≤ 0 ∧ ¬ e.writeAgain then m.storeInt (base + bIsActive) (-1) else m)

def destroyClientSession (s : State) (i : ℕ) : State :=
  let m := s.server.table
  if m.loadInt (client i + bUse) = 0 then s
  else
    let fd := m.loadInt (client i + sock)
    let clientNum := s.server.clientNum - 1
    { server := { s.server with
        table := m.clear (client i) sessionSize
        clientNum := if clientNum < 0 then 0 else clientNum }
      sockets := if 0 < fd.toInt then commSocketClose s.sockets fd else s.sockets }

/-- The descriptors that are waited for. -/
def readSet (s : MyServer) : List (BitVec 32) :=
  let inUse := (List.range maxClientNum).filter fun i => s.table.loadInt (client i + bUse) ≠ 0
  s.mySocket :: inUse.map fun i => s.table.loadInt (client i + sock)

/-- The loop that serves the sessions in use whose sockets are ready. -/
def serveAll (limit : ℕ) (isSet : BitVec 32 → Bool) (clients : ℕ → ClientEvents) :
    List ℕ → Memory Byte → Option (Memory Byte)
  | [], m => some m
  | i :: is, m =>
    if m.loadInt (client i + bUse) ≠ 0 ∧ isSet (m.loadInt (client i + sock)) then
      (incomingConnectionHandlerClient limit (clients i) m (client i)).bind fun (_, m) =>
        serveAll limit isSet clients is m
    else serveAll limit isSet clients is m

/-- The loop that destroys the sessions that have become inactive. -/
def destroyAll : List ℕ → State → State
  | [], s => s
  | i :: is, s =>
    destroyAll is
      (if s.server.table.loadInt (client i + bIsActive) = -1 then destroyClientSession s i else s)

/-- An iteration of the select loop. -/
def iteration (limit : ℕ) (self : BitVec 64) (e : Events) (s : State) : Option State :=
  if e.selectResult ≤ 0 then some s
  else
    let isSet := fun fd => decide (fd ∈ readSet s.server) && e.ready fd
    let s := if isSet s.server.mySocket then incomingConnectionHandler self e s else s
    (serveAll limit isSet e.clients (List.range maxClientNum) s.server.table).map fun table =>
      destroyAll (List.range maxClientNum) { s with server := { s.server with table := table } }

end H264Cast.TcpServer
