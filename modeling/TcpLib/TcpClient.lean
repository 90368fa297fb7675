import TcpLib.ClientNotify
import TcpLib.ServerRecv

/-!
# easyTcpClient

The receive side of the client: `recvData` appends the result of one `recv` to the buffer, hands
the unread part to the callback and compacts past the middle; `onRun` is the thread that waits
with `select` and calls it until it fails. Unlike the server, a callback that consumed nothing is
taken for an error, and an empty buffer is not reset.
-/

namespace TcpLib
open LinearBuffer

def MAX_BUF_SIZE : ℕ := 10240 * 5

/-- The callbacks of `tCliNotify` about the connection itself. -/
inductive CliCallback
  | onConnect
  | onDisconnect
  deriving DecidableEq, Repr

/-- `tCliNotify::OnRecvData` -/
abbrev CliOnRecvData (L : Type*) := Option Memory → ℕ → L → Option (ℕ × L)

/-- The client object; `tcn` is the state of the registered callback object. -/
structure EasyTcpClient (L : Type*) where
  sock : Option ℕ := none
  isConnect : Bool := false
  szMsgBuf : Memory := fun _ => 0
  readIndex : ℕ := 0
  writeIndex : ℕ := 0
  callbacks : List CliCallback := []
  tcn : L

/-- What `select` reports in one iteration of `onRun`: an error, nothing within the timeout, or
a readable socket with the result of the `recv` that follows. -/
inductive SelectResult
  | failed
  | timeout
  | readable (r : ReadResult)
  deriving DecidableEq

namespace EasyTcpClient
variable {L : Type*}

def isRun (c : EasyTcpClient L) : Bool := c.sock.isSome && c.isConnect

def close (c : EasyTcpClient L) : EasyTcpClient L :=
  { c with sock := none, isConnect := false, callbacks := c.callbacks ++ [.onDisconnect] }

/-- The bytes received and not consumed. -/
def unread (c : EasyTcpClient L) : List UInt8 := window c.szMsgBuf c.readIndex c.writeIndex

@[simp] theorem length_unread (c : EasyTcpClient L) :
    c.unread.length = c.writeIndex - c.readIndex := by
  simp [unread]

/-- The length that `recv` is asked for. -/
def recvRequest (c : EasyTcpClient L) : ℕ := uint32 (MAX_BUF_SIZE + 2 ^ 32 - c.writeIndex)

/-- The compaction at the end of `RecvData`. -/
def compact (c : EasyTcpClient L) : Option (EasyTcpClient L) :=
  if MAX_BUF_SIZE / 2 ≤ c.readIndex then
    let n := uint32 (c.writeIndex + 2 ^ 32 - c.readIndex)
    if CopyOk MAX_BUF_SIZE 0 c.readIndex n then
      some { c with
        szMsgBuf := memcpy c.szMsgBuf 0 c.readIndex n
        writeIndex := n
        readIndex := 0 }
    else none
  else some c

variable (onRecvData : CliOnRecvData L)

/-- `easyTcpClient::RecvData` with the result of its `recv`. -/
def recvData (c : EasyTcpClient L) : ReadResult → Option (EasyTcpClient L × ℤ)
  | .data bytes =>
    let buf := store c.szMsgBuf c.writeIndex bytes
    let w := uint32 (c.writeIndex + bytes.length)
    (onRecvData (some fun i => buf (c.readIndex + i)) (uint32 (w + 2 ^ 32 - c.readIndex)) c.tcn).bind
      fun ret =>
        let c' := { c with szMsgBuf := buf, writeIndex := w, tcn := ret.2 }
        if ret.1 ≤ 0 then some (c', -1)
        else ({ c' with readIndex := uint32 (c.readIndex + ret.1) }.compact).map fun c' => (c', 0)
  | _ => some (c, -1)

/-- `easyTcpClient::OnRun`; the results are those of the `select` and `recv` calls it makes, and
it waits for the next one when the list ends. -/
def onRun (c : EasyTcpClient L) : List SelectResult → Option (EasyTcpClient L)
  | [] => some c
  | e :: es =>
    if c.isRun then
      match e with
      | .failed => some c.close
      | .timeout => onRun c es
      | .readable r =>
        (recvData onRecvData c r).bind fun out =>
          if out.2 = -1 then some out.1.close else onRun out.1 es
    else some c

/-! ## What one call does -/

/-- The call of the callback after `bytes` were received. -/
def recvCall (c : EasyTcpClient L) (bytes : List UInt8) : Option (ℕ × L) :=
  onRecvData (some fun i => store c.szMsgBuf c.writeIndex bytes (c.readIndex + i))
    (uint32 (uint32 (c.writeIndex + bytes.length) + 2 ^ 32 - c.readIndex)) c.tcn

variable {c : EasyTcpClient L} {bytes : List UInt8}

theorem recvCall_eq (hle : c.readIndex ≤ c.writeIndex)
    (hroom : c.writeIndex + bytes.length ≤ MAX_BUF_SIZE) :
    c.recvCall onRecvData bytes =
      onRecvData (some fun i => store c.szMsgBuf c.writeIndex bytes (c.readIndex + i))
        (c.writeIndex + bytes.length - c.readIndex) c.tcn := by
  unfold MAX_BUF_SIZE at hroom
  have hlen : uint32 (uint32 (c.writeIndex + bytes.length) + 2 ^ 32 - c.readIndex) =
      c.writeIndex + bytes.length - c.readIndex := by
    unfold uint32
    omega
  unfold recvCall
  rw [hlen]

variable {onRecvData}

theorem compact_spec (hle : c.readIndex ≤ c.writeIndex) (hcap : c.writeIndex ≤ MAX_BUF_SIZE) :
    ∃ c', c.compact = some c' ∧ c'.unread = c.unread ∧ c'.tcn = c.tcn ∧ c'.isRun = c.isRun ∧
      c'.readIndex < MAX_BUF_SIZE / 2 ∧ c'.readIndex ≤ c'.writeIndex ∧
      c'.writeIndex ≤ MAX_BUF_SIZE := by
  unfold MAX_BUF_SIZE at *
  unfold compact MAX_BUF_SIZE
  have hn : uint32 (c.writeIndex + 2 ^ 32 - c.readIndex) = c.writeIndex - c.readIndex := by
    unfold uint32
    omega
  split
  · have hok : CopyOk (10240 * 5) 0 c.readIndex (c.writeIndex - c.readIndex) := by
      unfold CopyOk
      omega
    dsimp only
    rw [hn, if_pos hok]
    exact ⟨_, rfl, window_compact c.szMsgBuf hle, rfl, rfl, Nat.zero_lt_of_lt (show 0 < 10240 * 5 / 2 by decide), Nat.zero_le _,
      (Nat.sub_le _ _).trans hcap⟩
  · exact ⟨c, rfl, rfl, rfl, rfl, by omega, hle, hcap⟩

/-- `RecvData` once its callback has returned. -/
theorem recvData_of_call {ret : ℕ × L} (hcall : c.recvCall onRecvData bytes = some ret) :
    c.recvData onRecvData (.data bytes) =
      let c' := { c with
        szMsgBuf := store c.szMsgBuf c.writeIndex bytes
        writeIndex := uint32 (c.writeIndex + bytes.length)
        tcn := ret.2 }
      if ret.1 ≤ 0 then some (c', -1)
      else ({ c' with readIndex := uint32 (c.readIndex + ret.1) }.compact).map fun c' => (c', 0) := by
  rw [show c.recvData onRecvData (.data bytes) = (c.recvCall onRecvData bytes).bind _ from rfl, hcall]
  rfl

/-- One call of `RecvData` with a callback that returned a count. -/
theorem recvData_counted (hlt : c.readIndex < MAX_BUF_SIZE / 2) (hle : c.readIndex ≤ c.writeIndex)
    (hroom : c.writeIndex + bytes.length ≤ MAX_BUF_SIZE) {ret : ℕ × L}
    (hcall : c.recvCall onRecvData bytes = some ret)
    (hcount : ret.1 ≤ c.writeIndex + bytes.length - c.readIndex) :
    ∃ c', c.recvData onRecvData (.data bytes) = some (c', if ret.1 = 0 then -1 else 0) ∧
      c'.unread = (c.unread ++ bytes).drop ret.1 ∧ c'.tcn = ret.2 ∧ c'.isRun = c.isRun ∧
      c'.readIndex < MAX_BUF_SIZE / 2 ∧ c'.readIndex ≤ c'.writeIndex ∧
      c'.writeIndex ≤ MAX_BUF_SIZE := by
  have hmax : MAX_BUF_SIZE < 2 ^ 16 := by decide
  have hw : uint32 (c.writeIndex + bytes.length) = c.writeIndex + bytes.length :=
    Nat.mod_eq_of_lt (by omega)
  have hr : uint32 (c.readIndex + ret.1) = c.readIndex + ret.1 := Nat.mod_eq_of_lt (by omega)
  have hwin : window (store c.szMsgBuf c.writeIndex bytes) c.readIndex
      (c.writeIndex + bytes.length) = c.unread ++ bytes := window_store _ bytes hle
  rw [recvData_of_call hcall, hw, hr]
  dsimp only
  by_cases hzero : ret.1 = 0
  · rw [if_pos hzero.le, if_pos hzero, hzero, List.drop_zero]
    exact ⟨_, rfl, hwin, rfl, rfl, hlt, hle.trans (Nat.le_add_right _ _), hroom⟩
  · rw [if_neg (by omega), if_neg hzero]
    obtain ⟨c', hcompact, hunread, htcn, hrun, hspec⟩ := compact_spec
      (c := { c with
        szMsgBuf := store c.szMsgBuf c.writeIndex bytes
        readIndex := c.readIndex + ret.1
        writeIndex := c.writeIndex + bytes.length
        tcn := ret.2 }) (by simp only; omega) hroom
    refine ⟨c', by rw [hcompact]; rfl, ?_, htcn, hrun, hspec⟩
    rw [hunread, ← hwin, drop_window]
    rfl

end EasyTcpClient
end TcpLib
