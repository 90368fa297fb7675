import TcpLib.Wire

/-!
# clientCell

One cell for each accepted connection: the linear receive buffer with its two positions, the
send ring with its two positions, and the epoll events it is registered for. A `Payload` is the
copy that `sendTask` makes of what it was given, and a `SendCell` carries it through the ring.
The `id` of a payload names its allocation and its `conn` the connection whose cell `sendTask`
found, neither of which the code stores; the bytes on a socket are tagged with them.
-/

namespace TcpLib

/-! The constants of `tcpCommon`. The cell's two buffers have the sizes `CLIENTCELLRECVBUF` and
`CLIENTCELLSENDBUF`, which are the same numbers as `SYSRECVBUF` and `SYSSENDBUF`. -/

def serverMaxSendTimes : ℕ := 1000
def SYSSENDBUF : ℕ := 1024 * 1024
def SYSRECVBUF : ℕ := 1024 * 1024

/-- Conversion to `uint32_t`. -/
def uint32 (n : ℕ) : ℕ := n % 2 ^ 32

/-- The bits of an epoll event mask. -/
structure EpollEvents where
  epollIn : Bool := false
  epollPri : Bool := false
  epollOut : Bool := false
  epollErr : Bool := false
  epollHup : Bool := false
  epollRdhup : Bool := false
  epollEt : Bool := false
  deriving DecidableEq, Repr

structure Payload where
  id : ℕ
  conn : ℕ
  bytes : List UInt8
  deriving DecidableEq, Repr

/-- A byte on a socket and the payload it comes from. -/
structure SentByte where
  id : ℕ
  conn : ℕ
  byte : UInt8
  deriving DecidableEq, Repr

/-- The bytes of a payload as they appear on a socket. -/
def Payload.sent (p : Payload) : List SentByte := p.bytes.map fun b => ⟨p.id, p.conn, b⟩

@[simp] theorem Payload.map_byte_sent (p : Payload) : p.sent.map SentByte.byte = p.bytes := by
  simp [sent, Function.comp_def]

structure SendCell extends Payload where
  sendPos : ℕ := 0
  deriving DecidableEq, Repr

/-- The bytes that were not written yet. -/
def SendCell.unsent (sc : SendCell) : List SentByte := sc.sent.drop sc.sendPos

structure ClientCell where
  clientFd : ℕ
  recvBuf : Memory
  sendBuf : ℕ → Option SendCell
  recvReadPos : ℕ := 0
  recvWritePos : ℕ := 0
  sendReadPos : ℕ := 0
  sendWritePos : ℕ := 0
  events : EpollEvents
  ip : String
  port : UInt16

namespace ClientCell

/-- `clientCell(int listenfd)`. The buffers, `m_Events` and the address are not initialised by
it; no slot of the send ring holds a live cell. -/
def new (listenfd : ℕ) (recvBuf : Memory) (events : EpollEvents) (ip : String) (port : UInt16) :
    ClientCell where
  clientFd := listenfd
  recvBuf := recvBuf
  sendBuf := fun _ => none
  events := events
  ip := ip
  port := port

/-- The received bytes that were not consumed yet. -/
def unread (cell : ClientCell) : List UInt8 :=
  LinearBuffer.window cell.recvBuf cell.recvReadPos cell.recvWritePos

@[simp] theorem length_unread (cell : ClientCell) :
    cell.unread.length = cell.recvWritePos - cell.recvReadPos := by
  simp [unread]

/-- The descriptor and the receive side are the same. -/
structure SameRecv (cell cell' : ClientCell) : Prop where
  clientFd : cell'.clientFd = cell.clientFd
  recvBuf : cell'.recvBuf = cell.recvBuf
  recvReadPos : cell'.recvReadPos = cell.recvReadPos
  recvWritePos : cell'.recvWritePos = cell.recvWritePos

/-- The descriptor and the send side are the same. -/
structure SameSend (cell cell' : ClientCell) : Prop where
  clientFd : cell'.clientFd = cell.clientFd
  sendBuf : cell'.sendBuf = cell.sendBuf
  sendReadPos : cell'.sendReadPos = cell.sendReadPos
  sendWritePos : cell'.sendWritePos = cell.sendWritePos

theorem SameRecv.refl (cell : ClientCell) : SameRecv cell cell := ⟨rfl, rfl, rfl, rfl⟩

theorem SameSend.refl (cell : ClientCell) : SameSend cell cell := ⟨rfl, rfl, rfl, rfl⟩

theorem SameRecv.trans {a b c : ClientCell} (h : SameRecv a b) (h' : SameRecv b c) : SameRecv a c :=
  ⟨h'.clientFd.trans h.clientFd, h'.recvBuf.trans h.recvBuf, h'.recvReadPos.trans h.recvReadPos,
    h'.recvWritePos.trans h.recvWritePos⟩

end ClientCell
end TcpLib
