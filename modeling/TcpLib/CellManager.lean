import TcpLib.ServerRecv
import TcpLib.ServerSend
import TcpLib.Lib.Registry
import TcpLib.Lib.SlotQueue

/-!
# cellManager and its threads

One `cellManager` with the thread that accepts connections, any number of threads that call
`senddata`, the loop thread, and the kernel's side of the sockets. Connections are numbered in
the order in which they are accepted; the code knows only their descriptors, which the kernel
gives out again after a close. Every map operation, socket call and queue operation is one step,
and a `push` into `m_cellTask` is three: the capacity test, the reservation of a slot and its
publication.

`conn` in a task or an event, `trace`, `seen`, `published` and `calls` only observe the run. No
branch depends on them.
-/

namespace TcpLib
open SlotQueue

/-- The `event` of a `cellTask`: `'A'`, `'D'` or `'S'`. -/
inductive TaskEvent
  | add
  | del
  | send
  deriving DecidableEq, Repr

/-- A task with the connection that the thread meant that made it. -/
structure CellTask where
  event : TaskEvent
  clientid : ℕ
  conn : ℕ
  sC : Option SendCell := none
  deriving DecidableEq, Repr

inductive Party
  | loop
  | acceptor
  | sender (i : ℕ)
  deriving DecidableEq, Repr

/-- How far a call of `srt_queue::push` has come. -/
inductive PushStage
  | test
  | reserve
  | publish
  deriving DecidableEq, Repr

structure Push where
  task : CellTask
  stage : PushStage := .test
  deriving DecidableEq, Repr

def kDefaultPageMsgCountBits : ℕ := 16
def kDefaultPageIndexBits : ℕ := 15

/-- The capacity test of `push`, on the number of reserved slots that were not popped. -/
def queueFull (size : ℕ) : Bool :=
  decide (2 ^ kDefaultPageIndexBits - 1 ≤ size / 2 ^ kDefaultPageMsgCountBits)

def NAUT_AT_S_OK : ℤ := 0
def NAUT_AT_E_TCP_SERVER_CLIENT_CLOSED : ℤ := 101201
def NAUT_AT_E_TCP_SERVER_PUSH_CACHE_FAILED : ℤ := 101202

/-- An event of `epoll_wait` with the connection whose socket it is about. -/
structure EpollEvent where
  fd : ℕ
  conn : ℕ
  events : EpollEvents
  deriving DecidableEq, Repr

/-- `events & (EPOLLHUP | EPOLLERR | EPOLLRDHUP)` -/
def EpollEvents.hangup (e : EpollEvents) : Bool := e.epollHup || e.epollErr || e.epollRdhup

/-- `EPOLLET | EPOLLIN | EPOLLPRI | EPOLLRDHUP | EPOLLERR` -/
def addEvents : EpollEvents :=
  { epollEt := true, epollIn := true, epollPri := true, epollRdhup := true, epollErr := true }

/-- `HandleAccept`: waiting, with a new descriptor, or in the `push` of `addTask`. -/
inductive AcceptPc
  | idle
  | accepted
  | pushing (p : Push)

structure SendCall where
  clientid : ℕ
  bytes : List UInt8
  deriving DecidableEq, Repr

/-- A thread outside `senddata`, in the `push` of `sendTask`, or with what `sendTask` returned. -/
inductive SenderPc
  | idle
  | pushing (call : SendCall) (p : Push)
  | returning (call : SendCall) (payload : Option Payload) (code : ℤ)

def AcceptPc.push? : AcceptPc → Option Push
  | .pushing p => some p
  | _ => none

def SenderPc.push? : SenderPc → Option Push
  | .pushing _ p => some p
  | _ => none

@[simp] theorem AcceptPc.push?_idle : AcceptPc.idle.push? = none := rfl

@[simp] theorem AcceptPc.push?_accepted : AcceptPc.accepted.push? = none := rfl

@[simp] theorem AcceptPc.push?_pushing (p : Push) : (AcceptPc.pushing p).push? = some p := rfl

@[simp] theorem SenderPc.push?_idle : SenderPc.idle.push? = none := rfl

@[simp] theorem SenderPc.push?_pushing (call : SendCall) (p : Push) :
    (SenderPc.pushing call p).push? = some p := rfl

@[simp] theorem SenderPc.push?_returning (call : SendCall) (payload : Option Payload) (code : ℤ) :
    (SenderPc.returning call payload code).push? = none := rfl

def SenderPc.setPush (p : Push) : SenderPc → SenderPc
  | .pushing call _ => .pushing call p
  | pc => pc

/-- What `sendTask` returns after its `push`. -/
def SenderPc.endPush (p : Push) (flag : Bool) : SenderPc → SenderPc
  | .pushing call _ =>
    let payload := p.task.sC.map SendCell.toPayload
    .returning call payload (if flag then NAUT_AT_S_OK else NAUT_AT_E_TCP_SERVER_PUSH_CACHE_FAILED)
  | pc => pc

/-- A finished call of `senddata`: the copy it made, what `sendTask` returned, and what the caller
got. -/
structure SendResult where
  call : SendCall
  payload : Option Payload
  code : ℤ
  ret : ℤ
  deriving DecidableEq, Repr

/-- Where the loop thread is. In `recv` and `write` the event in hand and the ones after it are
kept. -/
inductive LoopPc
  | handleTask
  | task (t : CellTask)
  | delClose (c : ℕ)
  | delErase (c : ℕ)
  | delNotify (c : ℕ)
  | checkWrite
  | epollWait
  | events (es : List EpollEvent)
  | recv (c : ℕ) (e : EpollEvent) (es : List EpollEvent)
  | write (e : EpollEvent) (es : List EpollEvent)

inductive Callback
  | onConnect
  | onDisconnect
  | onRecvData
  | onError (errorid : ℤ)
  deriving DecidableEq, Repr

/-- The kernel's side of a connection. -/
structure Sock where
  rcvq : List UInt8 := []
  arrived : List UInt8 := []
  fin : Bool := false
  rst : Bool := false
  interest : Option EpollEvents := none
  wire : List SentByte := []

/-- The descriptors and `m_Cell` are the registry; its owners are the connections. -/
structure CellManager where
  reg : Registry := {}
  sock : ℕ → Sock := fun _ => {}
  cell : ℕ → ClientCell := fun _ => .new 0 (fun _ => 0) {} "" 0
  offers : ℕ → List Offer := fun _ => []
  cellTask : List (Slot Party CellTask) := []
  acceptor : AcceptPc := .idle
  sender : ℕ → SenderPc := fun _ => .idle
  loop : LoopPc := .handleTask
  delPush : Option Push := none
  nextId : ℕ := 0
  trace : ℕ → List Callback := fun _ => []
  seen : ℕ → Bool := fun _ => false
  published : List Payload := []
  calls : List SendResult := []
  freed : List ℕ := []

/-- One step of a party or of the kernel. What the kernel or an uninitialised field decides is
part of the action. -/
inductive Action
  | arrive (c : ℕ) (bytes : List UInt8)
  | fin (c : ℕ)
  | rst (c : ℕ)
  | accept (fd : ℕ)
  | insert (recvBuf : Memory) (events : EpollEvents) (ip : String) (port : UInt16)
  | pushTest (p : Party)
  | pushReserve (p : Party)
  | pushPublish (p : Party)
  | sendLookup (i fd : ℕ) (bytes : List UInt8)
  | sendReturn (i : ℕ) (ret : ℤ)
  | pop
  | handle
  | close
  | erase
  | notify
  | checkWrite
  | epollWait (es : List EpollEvent)
  | doEvent
  | read (r : ReadResult) (hub : Hub)
  | doSend (writes : ℕ → WriteResult)

namespace CellManager

/-! ## Queue -/

/-- The `push` that a party is in. -/
def push? (s : CellManager) : Party → Option Push
  | .loop => s.delPush
  | .acceptor => s.acceptor.push?
  | .sender i => (s.sender i).push?

def setPush (s : CellManager) (p : Push) (party : Party) : CellManager :=
  { s with
    delPush := if party = .loop then some p else s.delPush
    acceptor := if party = .acceptor then .pushing p else s.acceptor
    sender := fun i => if party = .sender i then (s.sender i).setPush p else s.sender i }

/-- `push` returned: only `sendTask` looks at the result. -/
def endPush (s : CellManager) (p : Push) (flag : Bool) (party : Party) : CellManager :=
  { s with
    delPush := if party = .loop then none else s.delPush
    acceptor := if party = .acceptor then .idle else s.acceptor
    sender := fun i => if party = .sender i then (s.sender i).endPush p flag else s.sender i
    published := if flag then s.published ++ (p.task.sC.map SendCell.toPayload).toList
      else s.published }

def pushTest (s : CellManager) (party : Party) : Option CellManager :=
  (s.push? party).bind fun p =>
    if p.stage = .test then
      if queueFull s.cellTask.length then some (s.endPush p false party)
      else some (s.setPush { p with stage := .reserve } party)
    else none

def pushReserve (s : CellManager) (party : Party) : Option CellManager :=
  (s.push? party).bind fun p =>
    if p.stage = .reserve then
      some ({ s with cellTask := reserve s.cellTask party }.setPush { p with stage := .publish } party)
    else none

def pushPublish (s : CellManager) (party : Party) : Option CellManager :=
  (s.push? party).bind fun p =>
    if p.stage = .publish then
      (fill party p.task s.cellTask).map fun q => { s with cellTask := q }.endPush p true party
    else none

/-- `delTask` up to the start of its `push`. -/
def delTask (s : CellManager) (clientid conn : ℕ) : CellManager :=
  { s with delPush := some { task := { event := .del, clientid := clientid, conn := conn } } }

/-! ## The thread that accepts and the threads that send -/

def accept (s : CellManager) (fd : ℕ) : Option CellManager :=
  match s.acceptor with
  | .idle =>
    if 0 < fd ∧ s.reg.table fd = none then
      some { s with reg := s.reg.accept fd, acceptor := .accepted }
    else none
  | _ => none

/-- `addTask` up to the start of its `push`, with the cell that `HandleAccept` made. -/
def insert (s : CellManager) (recvBuf : Memory) (events : EpollEvents) (ip : String) (port : UInt16) :
    Option CellManager :=
  match s.acceptor with
  | .accepted =>
    let c := s.reg.inserted
    let fd := s.reg.name c
    some { s with
      reg := s.reg.insert
      cell := Function.update s.cell c (.new fd recvBuf events ip port)
      acceptor := .pushing { task := { event := .add, clientid := fd, conn := c } } }
  | _ => none

/-- `sendTask` up to the start of its `push`. For a copy `size + 1` has to be an `int`. -/
def sendLookup (s : CellManager) (i fd : ℕ) (bytes : List UInt8) : Option CellManager :=
  match s.sender i with
  | .idle =>
    match s.reg.map fd with
    | none =>
      let pc : SenderPc := .returning ⟨fd, bytes⟩ none NAUT_AT_E_TCP_SERVER_CLIENT_CLOSED
      some { s with sender := Function.update s.sender i pc }
    | some c =>
      if bytes.length < intMax then
        let sC : SendCell := { id := s.nextId, conn := c, bytes := bytes }
        let task : CellTask := { event := .send, clientid := fd, conn := c, sC := some sC }
        some { s with
          nextId := s.nextId + 1
          sender := Function.update s.sender i (.pushing ⟨fd, bytes⟩ { task := task }) }
      else none
  | _ => none

/-- `tcpServer::SendData` drops the result of `sendTask` and returns nothing, so the caller gets
whatever the return register holds. -/
def sendReturn (s : CellManager) (i : ℕ) (ret : ℤ) : Option CellManager :=
  match s.sender i with
  | .returning call payload code => some { s with
      sender := Function.update s.sender i .idle
      calls := s.calls ++ [⟨call, payload, code, ret⟩] }
  | _ => none

/-! ## The loop thread -/

/-- `handleTask` takes the next task, or ends when `pop` finds none. -/
def pop (s : CellManager) : Option CellManager :=
  match s.loop with
  | .handleTask => match SlotQueue.pop s.cellTask with
    | some (t, q) => some { s with cellTask := q, loop := .task t }
    | none => some { s with loop := .checkWrite }
  | _ => none

/-- `epoll_ctl(EPOLL_CTL_ADD)` -/
def epollAdd (s : CellManager) (fd : ℕ) (events : EpollEvents) : ℕ → Sock :=
  match s.reg.table fd with
  | some d =>
    if (s.sock d).interest.isNone then
      Function.update s.sock d { s.sock d with interest := some events }
    else s.sock
  | none => s.sock

def handleAdd (s : CellManager) (ct : CellTask) : CellManager :=
  match s.reg.map ct.clientid with
  | none => { s with loop := .handleTask }.delTask ct.clientid ct.conn
  | some c => { s with
      cell := Function.update s.cell c { s.cell c with events := addEvents }
      sock := s.epollAdd (s.cell c).clientFd addEvents
      trace := Function.update s.trace c (s.trace c ++ [.onConnect])
      loop := .handleTask }

/-- A payload that finds no cell, or a full ring, is dropped. -/
def handleSend (s : CellManager) (ct : CellTask) : CellManager :=
  match s.reg.map ct.clientid with
  | none => { s with loop := .handleTask }
  | some c => match ct.sC.bind (s.cell c).handleSend with
    | none => { s with loop := .handleTask }
    | some cell => { s with cell := Function.update s.cell c cell, loop := .handleTask }

/-- The lookup of `handleDel`. -/
def handleDel (s : CellManager) (ct : CellTask) : CellManager :=
  match s.reg.map ct.clientid with
  | none => { s with loop := .handleTask }
  | some c => { s with loop := .delClose c }

def handle (s : CellManager) : Option CellManager :=
  match s.loop with
  | .task t => match t.event with
    | .add => some (s.handleAdd t)
    | .send => some (s.handleSend t)
    | .del => some (s.handleDel t)
  | _ => none

/-- `delClientCell`: the descriptor is closed, which ends its registration with epoll, and the
cell is deleted. -/
def close (s : CellManager) : Option CellManager :=
  match s.loop with
  | .delClose c => (s.cell c).destroy.map fun ids => { s with
      reg := s.reg.close c
      sock := Function.update s.sock c { s.sock c with interest := none }
      freed := s.freed ++ ids
      loop := .delErase c }
  | _ => none

def erase (s : CellManager) : Option CellManager :=
  match s.loop with
  | .delErase c => some { s with reg := s.reg.erase c, loop := .delNotify c }
  | _ => none

def notify (s : CellManager) : Option CellManager :=
  match s.loop with
  | .delNotify c => some { s with
      trace := Function.update s.trace c (s.trace c ++ [.onDisconnect])
      loop := .handleTask }
  | _ => none

end CellManager

/-- What `checkWrite` makes of the events of a cell, if it calls `EPOLL_CTL_MOD` for it. -/
def ClientCell.checkWrite (cell : ClientCell) : Option EpollEvents :=
  if cell.sendWritePos ≠ cell.sendReadPos then some { cell.events with epollOut := true }
  else if cell.events.epollOut then some { cell.events with epollOut := false }
  else none

def ClientCell.setEvents (cell : ClientCell) (ev : Option EpollEvents) : ClientCell :=
  match ev with
  | some ev => { cell with events := ev }
  | none => cell

theorem ClientCell.setEvents_sameRecv (cell : ClientCell) (ev : Option EpollEvents) :
    SameRecv cell (cell.setEvents ev) := by
  cases ev <;> exact ⟨rfl, rfl, rfl, rfl⟩

theorem ClientCell.setEvents_sameSend (cell : ClientCell) (ev : Option EpollEvents) :
    SameSend cell (cell.setEvents ev) := by
  cases ev <;> exact ⟨rfl, rfl, rfl, rfl⟩

/-- `epoll_ctl(EPOLL_CTL_MOD)` changes a registration that exists. -/
def Sock.epollMod (sock : Sock) (ev : Option EpollEvents) : Sock :=
  match sock.interest, ev with
  | some _, some ev => { sock with interest := some ev }
  | _, _ => sock

theorem Sock.epollMod_wire (sock : Sock) (ev : Option EpollEvents) :
    (sock.epollMod ev).wire = sock.wire := by
  unfold epollMod
  split <;> rfl

/-- What a `read` of the socket can return. -/
def Sock.ReadOk (sock : Sock) : ReadResult → Prop
  | .data bytes => bytes <+: sock.rcvq
  | .eof => sock.rcvq = [] ∧ sock.fin = true
  | .again => True
  | .fail => sock.rst = true

instance (sock : Sock) (r : ReadResult) : Decidable (sock.ReadOk r) :=
  match r with
  | .data bytes => inferInstanceAs (Decidable (bytes <+: sock.rcvq))
  | .eof => inferInstanceAs (Decidable (sock.rcvq = [] ∧ sock.fin = true))
  | .again => instDecidableTrue
  | .fail => inferInstanceAs (Decidable (sock.rst = true))

namespace CellManager

/-- The loop of `checkWrite` over `m_Cell`; every descriptor has at most one cell. -/
def checkWrite (s : CellManager) : Option CellManager :=
  match s.loop with
  | .checkWrite => some { s with
      cell := fun c =>
        if s.reg.map (s.reg.name c) = some c then (s.cell c).setEvents (s.cell c).checkWrite
        else s.cell c
      sock := fun d => match s.reg.map (s.reg.name d) with
        | some c =>
          if s.reg.table (s.reg.name d) = some d then (s.sock d).epollMod (s.cell c).checkWrite
          else s.sock d
        | none => s.sock d
      loop := .epollWait }
  | _ => none

/-- An event is about an open registered descriptor, and a hang-up or an error only after the peer
closed or the connection failed. -/
def EventOk (s : CellManager) (e : EpollEvent) : Prop :=
  s.reg.table e.fd = some e.conn ∧ (s.sock e.conn).interest.isSome ∧
    (e.events.hangup → (s.sock e.conn).fin ∨ (s.sock e.conn).rst)

instance (s : CellManager) (e : EpollEvent) : Decidable (s.EventOk e) := by
  unfold EventOk; infer_instance

def epollWait (s : CellManager) (es : List EpollEvent) : Option CellManager :=
  match s.loop with
  | .epollWait =>
    if es.length ≤ 1024 ∧ (es.map EpollEvent.fd).Nodup ∧ ∀ e ∈ es, s.EventOk e then
      some { s with loop := .events es }
    else none
  | _ => none

/-- The next event: a hang-up only queues the deletion, and `doRecv` looks up its cell. -/
def doEvent (s : CellManager) : Option CellManager :=
  match s.loop with
  | .events [] => some { s with loop := .handleTask }
  | .events (e :: es) =>
    if e.events.hangup then
      some ({ s with
        seen := Function.update s.seen e.conn true
        loop := .events es }.delTask e.fd e.conn)
    else if e.events.epollIn then
      match s.reg.map e.fd with
      | some c =>
        if (s.cell c).canRead then some { s with loop := .recv c e es }
        else some { s with loop := .write e es }
      | none => some { s with loop := .write e es }
    else some { s with loop := .write e es }
  | _ => none

/-- The callbacks of a round of `doRecv`. -/
def recvCallbacks (r : ReadResult) (next : RecvNext) : List Callback :=
  match r with
  | .data _ => .onRecvData :: if next = .full then [.onError (-2)] else []
  | _ => []

/-- One round of `doRecv`, and its `switch` when the loop ends. -/
def read (s : CellManager) (r : ReadResult) (hub : Hub) : Option CellManager :=
  match s.loop with
  | .recv c e es => (s.reg.table (s.cell c).clientFd).bind fun d =>
    if r.Legal (s.cell c) ∧ (s.sock d).ReadOk r then
      (doRecvIter (TcpServerNotify.onRecvData hub) (s.cell c) (s.offers c) r).map fun o =>
        let s' := { s with
          cell := Function.update s.cell c o.cell
          offers := Function.update s.offers c o.log
          sock := Function.update s.sock d
            { s.sock d with rcvq := (s.sock d).rcvq.drop r.bytes.length }
          trace := Function.update s.trace c (s.trace c ++ recvCallbacks r o.next) }
        match o.next with
        | .loop => { s' with loop := if o.cell.canRead then .recv c e es else .write e es }
        | .done => { s' with loop := .write e es }
        | .full => { s' with loop := .write e es }
        | .closed => { s' with
            seen := Function.update s.seen d true
            loop := .write e es }.delTask (s.cell c).clientFd c
    else none
  | _ => none

/-- `doSend`, if the event asks for it. -/
def doSend (s : CellManager) (writes : ℕ → WriteResult) : Option CellManager :=
  match s.loop with
  | .write e es =>
    if e.events.epollOut then
      match s.reg.map e.fd with
      | some c => (s.reg.table (s.cell c).clientFd).bind fun d =>
        ((s.cell c).doSend writes).map fun o => { s with
          cell := Function.update s.cell c o.cell
          sock := Function.update s.sock d { s.sock d with wire := (s.sock d).wire ++ o.wire }
          freed := s.freed ++ o.released
          loop := .events es }
      | none => some { s with loop := .events es }
    else some { s with loop := .events es }
  | _ => none

/-! ## Steps -/

/-- The loop thread goes on once its `delTask` has returned. -/
def inLoop (s : CellManager) (t : Option CellManager) : Option CellManager :=
  if s.delPush.isNone then t else none

def step (s : CellManager) : Action → Option CellManager
  | .arrive c bytes =>
    if c < s.reg.next ∧ (s.sock c).fin = false ∧ (s.sock c).rst = false then
      some { s with sock := Function.update s.sock c { s.sock c with
        rcvq := (s.sock c).rcvq ++ bytes
        arrived := (s.sock c).arrived ++ bytes } }
    else none
  | .fin c =>
    if c < s.reg.next ∧ (s.sock c).rst = false then
      some { s with sock := Function.update s.sock c { s.sock c with fin := true } }
    else none
  | .rst c =>
    if c < s.reg.next then
      some { s with sock := Function.update s.sock c { s.sock c with rst := true } }
    else none
  | .accept fd => s.accept fd
  | .insert recvBuf events ip port => s.insert recvBuf events ip port
  | .pushTest p => s.pushTest p
  | .pushReserve p => s.pushReserve p
  | .pushPublish p => s.pushPublish p
  | .sendLookup i fd bytes => s.sendLookup i fd bytes
  | .sendReturn i ret => s.sendReturn i ret
  | .pop => s.inLoop s.pop
  | .handle => s.inLoop s.handle
  | .close => s.inLoop s.close
  | .erase => s.inLoop s.erase
  | .notify => s.inLoop s.notify
  | .checkWrite => s.inLoop s.checkWrite
  | .epollWait es => s.inLoop (s.epollWait es)
  | .doEvent => s.inLoop s.doEvent
  | .read r hub => s.inLoop (s.read r hub)
  | .doSend writes => s.inLoop (s.doSend writes)

end CellManager

/-! ## Actions that belong together -/

/-- A connection on `fd` is accepted and its cell entered in `m_Cell`. -/
def acceptOn (fd : ℕ) : List Action := [.accept fd, .insert (fun _ => 0) {} "" 0]

/-- A `push` that finds room. -/
def pushBy (p : Party) : List Action := [.pushTest p, .pushReserve p, .pushPublish p]

def handleNext : List Action := [.pop, .handle]

/-- The loop thread goes on to `epoll_wait`. -/
def toWait : List Action := [.pop, .checkWrite]

/-- `handleDel` for the next task. -/
def deletion : List Action := handleNext ++ [.close, .erase, .notify]

/-- `epoll_wait` returns one hang-up, and its deletion is queued. -/
def hangUp (fd c : ℕ) : List Action :=
  [.epollWait [⟨fd, c, { epollIn := true, epollRdhup := true }⟩], .doEvent] ++ pushBy .loop ++ [.doEvent]

/-- A connection on descriptor 5 is accepted and added, and the loop thread waits for events. -/
def connectOn5 : List Action := acceptOn 5 ++ pushBy .acceptor ++ handleNext ++ toWait

end TcpLib
