import TcpLib.ClientCell
import TcpLib.ServerNotify
import TcpLib.Lib.Transition

/-!
# cellManager::doRecv

`doRecvIter` is one round of the read loop: it takes the result of `read`, appends the bytes
to the receive buffer, calls `OnRecvData` on everything unread, and then resets or compacts
the buffer. A compaction whose regions overlap or leave the buffer is undefined behaviour,
and the round has no result then. `RecvState` adds the control state of `doRecv` and counts
the calls of `OnError` and `delTask`, so that its runs are any number of `doRecv` calls with
any results of `read`.
-/

namespace TcpLib
open Framing LinearBuffer Transition

/-- `tNotify::OnRecvData`: the client, the buffer and its length; the log is what the callback
keeps between calls. -/
abbrev OnRecvData (L : Type*) := ℕ → Option Memory → ℕ → L → ℕ × L

/-- The result of `read`: a positive count, 0, or -1 with `EINTR` or `EAGAIN` or with another
`errno`. -/
inductive ReadResult
  | data (bytes : List UInt8)
  | eof
  | again
  | fail
  deriving DecidableEq

/-- How a round of the read loop ends: go on, leave with `err` 0, -2 or -1. -/
inductive RecvNext
  | loop
  | done
  | full
  | closed
  deriving DecidableEq

structure RecvOut (L : Type*) where
  cell : ClientCell
  log : L
  next : RecvNext

/-- Reset of an empty buffer, compaction of one that was read past its middle. -/
def ClientCell.compact (cell : ClientCell) : Option ClientCell :=
  if cell.recvWritePos ≤ cell.recvReadPos then
    some { cell with recvReadPos := 0, recvWritePos := 0 }
  else if SYSRECVBUF / 2 ≤ cell.recvReadPos then
    let n := cell.recvWritePos - cell.recvReadPos
    if CopyOk SYSRECVBUF 0 cell.recvReadPos n then
      some { cell with
        recvBuf := memcpy cell.recvBuf 0 cell.recvReadPos n
        recvReadPos := 0
        recvWritePos := n }
    else none
  else some cell

/-- The length that `doRecv` asks `read` for. -/
def ClientCell.readRequest (cell : ClientCell) : ℕ := SYSRECVBUF - cell.recvWritePos

section
variable {L : Type*} (onRecvData : OnRecvData L)

def doRecvIter (cell : ClientCell) (log : L) : ReadResult → Option (RecvOut L)
  | .again => some ⟨cell, log, .loop⟩
  | .fail => some ⟨cell, log, .closed⟩
  | .eof => some ⟨cell, log, .closed⟩
  | .data bytes =>
    let breakflag := bytes.length < cell.readRequest
    let buf := store cell.recvBuf cell.recvWritePos bytes
    let writePos := uint32 (cell.recvWritePos + bytes.length)
    let ret := onRecvData cell.clientFd (some fun i => buf (cell.recvReadPos + i))
      (uint32 (writePos + 2 ^ 32 - cell.recvReadPos)) log
    let readPos := uint32 (cell.recvReadPos + ret.1)
    let cell' := { cell with recvBuf := buf, recvReadPos := readPos, recvWritePos := writePos }
    cell'.compact.map fun cell' =>
      if SYSRECVBUF ≤ cell'.recvWritePos then ⟨cell', ret.2, .full⟩
      else if breakflag then ⟨cell', ret.2, .done⟩
      else ⟨cell', ret.2, .loop⟩

/-- The loop condition of `doRecv`. -/
def ClientCell.canRead (cell : ClientCell) : Bool := decide (cell.recvWritePos < SYSRECVBUF)

/-- `read` returns at most as many bytes as it was asked for. -/
def ReadResult.Legal (cell : ClientCell) : ReadResult → Prop
  | .data bytes => 0 < bytes.length ∧ bytes.length ≤ cell.readRequest
  | _ => True

instance (cell : ClientCell) (r : ReadResult) : Decidable (r.Legal cell) :=
  match r with
  | .data bytes => inferInstanceAs (Decidable (0 < bytes.length ∧ bytes.length ≤ cell.readRequest))
  | .eof => instDecidableTrue
  | .again => instDecidableTrue
  | .fail => instDecidableTrue

structure RecvState (L : Type*) where
  cell : ClientCell
  log : L
  reading : Bool := false
  onErrors : ℕ := 0
  delTasks : ℕ := 0
  fault : Bool := false

inductive RecvAction
  | doRecv
  | read (r : ReadResult)
  deriving DecidableEq

/-- Leaving a round: back to the loop condition, or out of `doRecv` through its `switch`. -/
def RecvState.leave (s : RecvState L) (o : RecvOut L) : RecvState L :=
  match o.next with
  | .loop => { s with cell := o.cell, log := o.log, reading := o.cell.canRead }
  | .done => { s with cell := o.cell, log := o.log, reading := false }
  | .full => { s with cell := o.cell, log := o.log, reading := false, onErrors := s.onErrors + 1 }
  | .closed => { s with cell := o.cell, log := o.log, reading := false, delTasks := s.delTasks + 1 }

def RecvState.step (s : RecvState L) : RecvAction → Option (RecvState L)
  | .doRecv => if s.reading then none else some { s with reading := s.cell.canRead }
  | .read r =>
    if s.reading ∧ r.Legal s.cell then
      match doRecvIter onRecvData s.cell s.log r with
      | some o => some (s.leave o)
      | none => some { s with reading := false, fault := true }
    else none

end

def ReadResult.bytes : ReadResult → List UInt8
  | .data bytes => bytes
  | _ => []

def RecvAction.bytes : RecvAction → List UInt8
  | .doRecv => []
  | .read r => r.bytes

/-- The bytes that the reads of a run returned. -/
def received (acts : List RecvAction) : List UInt8 := acts.flatMap RecvAction.bytes

@[simp] theorem received_nil : received [] = [] := rfl

@[simp] theorem received_append (acts acts' : List RecvAction) :
    received (acts ++ acts') = received acts ++ received acts' := List.flatMap_append

@[simp] theorem received_singleton (a : RecvAction) : received [a] = a.bytes := by
  simp [received]

theorem ClientCell.compact_sameSend {cell cell' : ClientCell} (h : cell.compact = some cell') :
    SameSend cell cell' := by
  unfold compact at h
  split_ifs at h with hempty hhalf
  · obtain rfl := Option.some.inj h
    exact ⟨rfl, rfl, rfl, rfl⟩
  · dsimp only at h
    split_ifs at h
    obtain rfl := Option.some.inj h
    exact ⟨rfl, rfl, rfl, rfl⟩
  · obtain rfl := Option.some.inj h
    exact .refl cell

theorem doRecvIter_sameSend {L : Type*} {f : OnRecvData L} {cell : ClientCell} {log : L}
    {r : ReadResult} {o : RecvOut L} (h : doRecvIter f cell log r = some o) :
    ClientCell.SameSend cell o.cell := by
  cases r with
  | data bytes =>
    obtain ⟨cell', hcompact, rfl⟩ := Option.map_eq_some_iff.mp h
    have hsame := ClientCell.compact_sameSend hcompact
    split_ifs <;> exact ⟨hsame.clientFd, hsame.sendBuf, hsame.sendReadPos, hsame.sendWritePos⟩
  | again =>
    obtain rfl := Option.some.inj h
    exact .refl cell
  | eof =>
    obtain rfl := Option.some.inj h
    exact .refl cell
  | fail =>
    obtain rfl := Option.some.inj h
    exact .refl cell

/-! ## Where the positions are after a round -/

/-- The positions after the reset or compaction. -/
def settle (r w : ℕ) : ℕ × ℕ :=
  if w ≤ r then (0, 0) else if SYSRECVBUF / 2 ≤ r then (0, w - r) else (r, w)

theorem settle_fst_lt (r w : ℕ) : (settle r w).1 < SYSRECVBUF / 2 := by
  unfold settle SYSRECVBUF
  split_ifs <;> simp; omega

theorem settle_le (r w : ℕ) : (settle r w).1 ≤ (settle r w).2 := by
  unfold settle
  split_ifs <;> simp; omega

theorem settle_snd_le (r w : ℕ) : (settle r w).2 ≤ w := by
  unfold settle
  split_ifs <;> simp

theorem compact_spec (cell : ClientCell) (hle : cell.recvReadPos ≤ cell.recvWritePos)
    (hcap : cell.recvWritePos ≤ SYSRECVBUF) :
    ∃ buf, cell.compact = some { cell with
        recvBuf := buf
        recvReadPos := (settle cell.recvReadPos cell.recvWritePos).1
        recvWritePos := (settle cell.recvReadPos cell.recvWritePos).2 } ∧
      window buf (settle cell.recvReadPos cell.recvWritePos).1
        (settle cell.recvReadPos cell.recvWritePos).2 = cell.unread := by
  unfold ClientCell.compact settle ClientCell.unread
  split
  · refine ⟨cell.recvBuf, rfl, ?_⟩
    obtain heq : cell.recvReadPos = cell.recvWritePos := by omega
    simp [heq]
  · split
    · -- past the middle, what is left is no longer than what was consumed
      have hok : CopyOk SYSRECVBUF 0 cell.recvReadPos (cell.recvWritePos - cell.recvReadPos) := by
        unfold CopyOk SYSRECVBUF at *
        omega
      exact ⟨_, if_pos hok, window_compact cell.recvBuf hle⟩
    · exact ⟨cell.recvBuf, rfl, rfl⟩

/-- The call of the callback in a round that read `bytes`. -/
def recvCall {L : Type*} (onRecvData : OnRecvData L) (cell : ClientCell) (log : L)
    (bytes : List UInt8) : ℕ × L :=
  let buf := store cell.recvBuf cell.recvWritePos bytes
  onRecvData cell.clientFd (some fun i => buf (cell.recvReadPos + i))
    (uint32 (uint32 (cell.recvWritePos + bytes.length) + 2 ^ 32 - cell.recvReadPos)) log

theorem recvCall_eq {L : Type*} (onRecvData : OnRecvData L) {cell : ClientCell} (log : L)
    {bytes : List UInt8} (hle : cell.recvReadPos ≤ cell.recvWritePos)
    (hlegal : (ReadResult.data bytes).Legal cell) :
    recvCall onRecvData cell log bytes = onRecvData cell.clientFd
      (some fun i => store cell.recvBuf cell.recvWritePos bytes (cell.recvReadPos + i))
      (cell.recvWritePos + bytes.length - cell.recvReadPos) log := by
  obtain ⟨hpos, hreq⟩ := hlegal
  unfold ClientCell.readRequest SYSRECVBUF at hreq
  have hlen : uint32 (uint32 (cell.recvWritePos + bytes.length) + 2 ^ 32 - cell.recvReadPos) =
      cell.recvWritePos + bytes.length - cell.recvReadPos := by
    unfold uint32
    omega
  unfold recvCall
  rw [hlen]

/-- What one round does with the bytes it read, for a callback that returned a count. -/
theorem doRecvIter_counted {L : Type*} (onRecvData : OnRecvData L) {cell : ClientCell} {log : L}
    {bytes : List UInt8} (hle : cell.recvReadPos ≤ cell.recvWritePos)
    (hlegal : (ReadResult.data bytes).Legal cell)
    (hcount : (recvCall onRecvData cell log bytes).1 ≤
      cell.recvWritePos + bytes.length - cell.recvReadPos) :
    ∃ buf, let ret := recvCall onRecvData cell log bytes
      let pos := settle (cell.recvReadPos + ret.1) (cell.recvWritePos + bytes.length)
      window buf pos.1 pos.2 = (cell.unread ++ bytes).drop ret.1 ∧
      doRecvIter onRecvData cell log (.data bytes) =
        some ⟨{ cell with recvBuf := buf, recvReadPos := pos.1, recvWritePos := pos.2 }, ret.2,
          if SYSRECVBUF ≤ pos.2 then .full
          else if bytes.length < cell.readRequest then .done else .loop⟩ := by
  obtain ⟨hpos, hreq⟩ := hlegal
  unfold ClientCell.readRequest SYSRECVBUF at hreq
  have hwin : window (store cell.recvBuf cell.recvWritePos bytes) cell.recvReadPos
      (cell.recvWritePos + bytes.length) = cell.unread ++ bytes := window_store _ bytes hle
  have hw : uint32 (cell.recvWritePos + bytes.length) = cell.recvWritePos + bytes.length :=
    Nat.mod_eq_of_lt (by omega)
  have hiter : doRecvIter onRecvData cell log (.data bytes) =
      (ClientCell.compact { cell with
        recvBuf := store cell.recvBuf cell.recvWritePos bytes
        recvReadPos := uint32 (cell.recvReadPos + (recvCall onRecvData cell log bytes).1)
        recvWritePos := uint32 (cell.recvWritePos + bytes.length) }).map fun cell' =>
          if SYSRECVBUF ≤ cell'.recvWritePos then
            ⟨cell', (recvCall onRecvData cell log bytes).2, .full⟩
          else if bytes.length < cell.readRequest then
            ⟨cell', (recvCall onRecvData cell log bytes).2, .done⟩
          else ⟨cell', (recvCall onRecvData cell log bytes).2, .loop⟩ := rfl
  rw [hiter]
  generalize recvCall onRecvData cell log bytes = ret at hcount
  have hr : uint32 (cell.recvReadPos + ret.1) = cell.recvReadPos + ret.1 :=
    Nat.mod_eq_of_lt (by omega)
  rw [hw, hr]
  obtain ⟨buf, hcompact, hunread⟩ := compact_spec
    { cell with
      recvBuf := store cell.recvBuf cell.recvWritePos bytes
      recvReadPos := cell.recvReadPos + ret.1
      recvWritePos := cell.recvWritePos + bytes.length } (by simp; omega)
    (by unfold SYSRECVBUF; simp; omega)
  refine ⟨buf, ?_, ?_⟩
  · rw [hunread, ← hwin, drop_window]
    rfl
  · rw [hcompact]
    simp only [Option.map_some]
    split_ifs <;> rfl

/-- The same for `tcp_server_notify` and any hub. -/
theorem doRecvIter_data (hub : Hub) (cell : ClientCell) (log : List Offer) (bytes : List UInt8)
    (hfd : 0 < cell.clientFd) (hle : cell.recvReadPos ≤ cell.recvWritePos)
    (hlegal : (ReadResult.data bytes).Legal cell) :
    ∃ buf, let items := (frameCode.split (cell.unread ++ bytes)).1
      let ret := TcpServerNotify.offer hub cell.clientFd items log
      let pos := settle (cell.recvReadPos + ret.1) (cell.recvWritePos + bytes.length)
      window buf pos.1 pos.2 = (cell.unread ++ bytes).drop ret.1 ∧
      doRecvIter (TcpServerNotify.onRecvData hub) cell log (.data bytes) =
        some ⟨{ cell with recvBuf := buf, recvReadPos := pos.1, recvWritePos := pos.2 }, ret.2,
          if SYSRECVBUF ≤ pos.2 then .full
          else if bytes.length < cell.readRequest then .done else .loop⟩ := by
  have hwin : window (store cell.recvBuf cell.recvWritePos bytes) cell.recvReadPos
      (cell.recvWritePos + bytes.length) = cell.unread ++ bytes := window_store _ bytes hle
  have hshift : window (fun i => store cell.recvBuf cell.recvWritePos bytes (cell.recvReadPos + i))
      0 (cell.recvWritePos + bytes.length - cell.recvReadPos) = cell.unread ++ bytes := by
    rw [← hwin, window_shift]
  have hcall : recvCall (TcpServerNotify.onRecvData hub) cell log bytes =
      TcpServerNotify.offer hub cell.clientFd (frameCode.split (cell.unread ++ bytes)).1 log := by
    have hreq := hlegal.2
    unfold ClientCell.readRequest SYSRECVBUF at hreq
    have hpos := hlegal.1
    rw [recvCall_eq _ log hle hlegal, TcpServerNotify.onRecvData_eq hub cell.clientFd _ _ hfd
      (by omega) (by unfold intMax; omega) log, hshift]
  have hcount : (recvCall (TcpServerNotify.onRecvData hub) cell log bytes).1 ≤
      cell.recvWritePos + bytes.length - cell.recvReadPos := by
    obtain ⟨done, rest, hfs, -, hsize⟩ := TcpServerNotify.offer_spec hub cell.clientFd
      (frameCode.split (cell.unread ++ bytes)).1 log
    have hall := congrArg List.length (frameCode.encodeAll_split (cell.unread ++ bytes))
    rw [hfs] at hall
    rw [hcall, hsize]
    simp at hall
    omega
  have hiter := doRecvIter_counted (TcpServerNotify.onRecvData hub) hle hlegal hcount
  rwa [hcall] at hiter

end TcpLib
