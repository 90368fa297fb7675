import TcpLib.TcpClient
import TcpLib.Lib.Transition

/-!
# The life of a client object

`InitSocket`, `Connect`, `SendData`, `Start` and `Stop` are called by one thread, and every `Start`
adds one that runs `OnRun`. `Close` is reached from five places and always reports a disconnection.
The callbacks alternate exactly in the runs in which it is reached only while the client is
connected, and in which no connected client connects again.
-/

namespace TcpLib
open Transition

namespace EasyTcpClient
variable {L : Type*}

/-- `InitSocket` with the result of `socket`. -/
def initSocket (c : EasyTcpClient L) (sock : Option ℕ) : EasyTcpClient L :=
  let c' := if c.sock.isSome then c.close else c
  { c' with sock := sock }

/-- `Connect`, with the result of `socket` if it calls `InitSocket`; `connect` fails without a
socket. -/
def connect (c : EasyTcpClient L) (sock : Option ℕ) (ok : Bool) : EasyTcpClient L × ℤ :=
  let c' := if c.sock.isNone then c.initSocket sock else c
  if ok && c'.sock.isSome then
    ({ c' with isConnect := true, callbacks := c'.callbacks ++ [.onConnect] }, 0)
  else (c', -1)

/-- `SendData`; `ok` is whether `send` succeeds. -/
def sendData (c : EasyTcpClient L) (buf : Option (List UInt8)) (ok : Bool) : EasyTcpClient L × ℤ :=
  match buf with
  | some bytes =>
    if c.isRun then if ok then (c, bytes.length) else (c.close, -1)
    else (c, -1)
  | none => (c, -1)

/-- `recv` returns at most as many bytes as it was asked for. -/
def CanRecv (c : EasyTcpClient L) : ReadResult → Prop
  | .data bytes => 0 < bytes.length ∧ bytes.length ≤ c.recvRequest
  | _ => True

instance (c : EasyTcpClient L) (r : ReadResult) : Decidable (c.CanRecv r) :=
  match r with
  | .data bytes => inferInstanceAs (Decidable (0 < bytes.length ∧ bytes.length ≤ c.recvRequest))
  | .eof => instDecidableTrue
  | .again => instDecidableTrue
  | .fail => instDecidableTrue

end EasyTcpClient

/-- A thread in `OnRun`: at the loop condition, in `select`, before its `Close`, or at its end. -/
inductive RunPc
  | test
  | select
  | close
  | ended
  deriving DecidableEq, Repr

/-- `threads` are all that `Start` made, and `t1` is the last of them. In `joining`, `Stop` waits
for it. -/
structure ClientLife (L : Type*) where
  client : EasyTcpClient L
  threads : List RunPc := []
  t1 : Option ℕ := none
  joining : Bool := false

inductive ClientAction
  | initSocket (sock : Option ℕ)
  | connect (sock : Option ℕ) (ok : Bool)
  | sendData (buf : Option (List UInt8)) (ok : Bool)
  | start
  | stop
  | join
  | runTest (i : ℕ)
  | runSelect (i : ℕ) (e : SelectResult)
  | runClose (i : ℕ)

namespace ClientLife
variable {L : Type*}

/-- The thread that calls the methods goes on when `Stop` has returned. -/
def caller (s : ClientLife L) (c : EasyTcpClient L) : Option (ClientLife L) :=
  if s.joining then none else some { s with client := c }

def start (s : ClientLife L) : Option (ClientLife L) :=
  if s.joining then none
  else some { s with threads := s.threads ++ [.test], t1 := some s.threads.length }

def stop (s : ClientLife L) : Option (ClientLife L) :=
  if s.joining then none else some { s with client := s.client.close, joining := s.t1.isSome }

def join (s : ClientLife L) : Option (ClientLife L) :=
  match s.t1 with
  | some i =>
    if s.joining ∧ s.threads[i]? = some .ended then some { s with t1 := none, joining := false }
    else none
  | none => none

/-- A thread goes from one place in `OnRun` to the next. -/
def goto (s : ClientLife L) (i : ℕ) (pc : RunPc) : ClientLife L :=
  { s with threads := s.threads.set i pc }

def runTest (s : ClientLife L) (i : ℕ) : Option (ClientLife L) :=
  if s.threads[i]? = some .test then
    some (s.goto i (if s.client.isRun then .select else .ended))
  else none

/-- `select`, and `RecvData` if the socket is readable. -/
def runSelect (onRecvData : CliOnRecvData L) (s : ClientLife L) (i : ℕ) (e : SelectResult) :
    Option (ClientLife L) :=
  if s.threads[i]? = some .select then
    match e with
    | .failed => some (s.goto i .close)
    | .timeout => some (s.goto i .test)
    | .readable r =>
      if s.client.CanRecv r then
        (s.client.recvData onRecvData r).map fun out =>
          { s with client := out.1 }.goto i (if out.2 = -1 then .close else .test)
      else none
  else none

def runClose (s : ClientLife L) (i : ℕ) : Option (ClientLife L) :=
  if s.threads[i]? = some .close then some ({ s with client := s.client.close }.goto i .ended)
  else none

def step (onRecvData : CliOnRecvData L) (s : ClientLife L) : ClientAction → Option (ClientLife L)
  | .initSocket sock => s.caller (s.client.initSocket sock)
  | .connect sock ok => s.caller (s.client.connect sock ok).1
  | .sendData buf ok => s.caller (s.client.sendData buf ok).1
  | .start => s.start
  | .stop => s.stop
  | .join => s.join
  | .runTest i => s.runTest i
  | .runSelect i e => s.runSelect onRecvData i e
  | .runClose i => s.runClose i

/-- An object that was just constructed. -/
def init (tcn : L) : ClientLife L := { client := { tcn := tcn } }

/-- `Close` is reached only while the client is connected, and `connect` succeeds only while it is
not. -/
def Orderly (s : ClientLife L) : ClientAction → Prop
  | .initSocket _ => s.client.sock.isSome → s.client.isConnect = true
  | .connect sock ok => ok = true → (s.client.sock.or sock).isSome → s.client.isConnect = false
  | .stop => s.client.isConnect = true
  | .runClose _ => s.client.isConnect = true
  | _ => True

end ClientLife

/-- `OnConnect`, `OnDisconnect`, `OnConnect` and so on. -/
def Alternating (cbs : List CliCallback) : Prop :=
  ∀ i (h : i < cbs.length), cbs[i] = if i % 2 = 0 then .onConnect else .onDisconnect

theorem alternating_snoc {cbs : List CliCallback} {x : CliCallback} :
    Alternating (cbs ++ [x]) ↔
      Alternating cbs ∧ x = if cbs.length % 2 = 0 then .onConnect else .onDisconnect := by
  constructor
  · intro h
    constructor
    · intro i hi
      have hget := h i (by simp; omega)
      rwa [List.getElem_append_left hi] at hget
    · simpa using h cbs.length (by simp)
  · rintro ⟨h, hx⟩ i hi
    rcases Nat.lt_or_ge i cbs.length with hlt | hge
    · rw [List.getElem_append_left hlt]
      exact h i hlt
    · obtain rfl : i = cbs.length := by simp at hi; omega
      simpa using hx

namespace ClientLife
variable {L : Type*} {onRecvData : CliOnRecvData L} {s t : ClientLife L} {a : ClientAction}

/-- What a step does to the client object. -/
inductive ClientChange (onRecvData : CliOnRecvData L) (s t : ClientLife L) (a : ClientAction) : Prop
  | kept (sock : Option ℕ) : t.client = { s.client with sock := sock } → s.Orderly a →
      ClientChange onRecvData s t a
  | opened (sock : Option ℕ) : t.client = { s.client with
      sock := sock
      isConnect := true
      callbacks := s.client.callbacks ++ [.onConnect] } →
      (s.Orderly a ↔ s.client.isConnect = false) → ClientChange onRecvData s t a
  | closed (sock : Option ℕ) : t.client = { s.client with
      sock := sock
      isConnect := false
      callbacks := s.client.callbacks ++ [.onDisconnect] } →
      (s.Orderly a ↔ s.client.isConnect = true) → ClientChange onRecvData s t a
  | received (r : ReadResult) (ret : ℤ) : s.client.CanRecv r →
      s.client.recvData onRecvData r = some (t.client, ret) → s.Orderly a →
      ClientChange onRecvData s t a

theorem caller_eq_some {c : EasyTcpClient L} (h : s.caller c = some t) : t.client = c := by
  unfold caller at h
  split at h
  · cases h
  · obtain rfl := Option.some.inj h
    rfl

theorem connect_eq (c : EasyTcpClient L) (sock : Option ℕ) (ok : Bool) :
    c.connect sock ok =
      if ok && (c.sock.or sock).isSome then
        ({ c with
          sock := c.sock.or sock
          isConnect := true
          callbacks := c.callbacks ++ [.onConnect] }, 0)
      else ({ c with sock := c.sock.or sock }, -1) := by
  unfold EasyTcpClient.connect EasyTcpClient.initSocket
  cases hsock : c.sock with
  | none => simp
  | some fd =>
    have hsame : { c with sock := some fd } = c := by rw [← hsock]
    simp [hsock, hsame]

theorem client_step (h : s.step onRecvData a = some t) : ClientChange onRecvData s t a := by
  cases a with
  | initSocket sock =>
    have hc := caller_eq_some h
    unfold EasyTcpClient.initSocket at hc
    cases hsock : s.client.sock with
    | none =>
      rw [hsock] at hc
      exact .kept sock hc (by simp [Orderly, hsock])
    | some fd =>
      rw [hsock] at hc
      exact .closed sock hc (by simp [Orderly, hsock])
  | connect sock ok =>
    have hc := caller_eq_some h
    rw [connect_eq] at hc
    split at hc
    · next hok =>
      obtain ⟨hok, hsock⟩ := Bool.and_eq_true_iff.mp hok
      exact .opened _ hc (by simp [Orderly, hok, hsock])
    · next hok =>
      refine .kept _ hc fun htrue hsock => ?_
      rw [htrue, hsock] at hok
      exact absurd rfl hok
  | sendData buf ok =>
    have hc := caller_eq_some h
    unfold EasyTcpClient.sendData at hc
    cases buf with
    | none => exact .kept _ hc trivial
    | some bytes =>
      dsimp only at hc
      split at hc
      · next hrun =>
        cases ok with
        | true => exact .kept _ hc trivial
        | false =>
          have hconn : s.client.isConnect = true := (Bool.and_eq_true_iff.mp hrun).2
          exact .closed none hc (by simp [Orderly, hconn])
      · exact .kept _ hc trivial
  | start =>
    simp only [step, start] at h
    split at h
    · cases h
    · obtain rfl := Option.some.inj h
      exact .kept _ rfl trivial
  | stop =>
    simp only [step, stop] at h
    split at h
    · cases h
    · obtain rfl := Option.some.inj h
      exact .closed none rfl Iff.rfl
  | join =>
    simp only [step, join] at h
    split at h
    · split at h
      · obtain rfl := Option.some.inj h
        exact .kept _ rfl trivial
      · cases h
    · cases h
  | runTest i =>
    simp only [step, runTest] at h
    split at h
    · obtain rfl := Option.some.inj h
      exact .kept _ rfl trivial
    · cases h
  | runSelect i e =>
    simp only [step, runSelect] at h
    split at h
    · cases e with
      | failed =>
        obtain rfl := Option.some.inj h
        exact .kept _ rfl trivial
      | timeout =>
        obtain rfl := Option.some.inj h
        exact .kept _ rfl trivial
      | readable r =>
        dsimp only at h
        split at h
        · next hcan =>
          obtain ⟨⟨c, ret⟩, hrecv, rfl⟩ := Option.map_eq_some_iff.mp h
          exact .received r ret hcan hrecv trivial
        · cases h
    · cases h
  | runClose i =>
    simp only [step, runClose] at h
    split at h
    · obtain rfl := Option.some.inj h
      exact .closed none rfl Iff.rfl
    · cases h

/-- What a step does to the connection and its callbacks. -/
inductive LinkStep (s t : ClientLife L) (a : ClientAction) : Prop
  | same : t.client.callbacks = s.client.callbacks → t.client.isConnect = s.client.isConnect →
      s.Orderly a → LinkStep s t a
  | opened : t.client.callbacks = s.client.callbacks ++ [.onConnect] → t.client.isConnect = true →
      (s.Orderly a ↔ s.client.isConnect = false) → LinkStep s t a
  | closed : t.client.callbacks = s.client.callbacks ++ [.onDisconnect] →
      t.client.isConnect = false → (s.Orderly a ↔ s.client.isConnect = true) → LinkStep s t a

theorem compact_link {c c' : EasyTcpClient L} (h : c.compact = some c') :
    c'.callbacks = c.callbacks ∧ c'.isConnect = c.isConnect := by
  unfold EasyTcpClient.compact at h
  split at h
  · dsimp only at h
    split at h
    · obtain rfl := Option.some.inj h
      exact ⟨rfl, rfl⟩
    · cases h
  · obtain rfl := Option.some.inj h
    exact ⟨rfl, rfl⟩

theorem recvData_link {c c' : EasyTcpClient L} {r : ReadResult} {ret : ℤ}
    (h : c.recvData onRecvData r = some (c', ret)) :
    c'.callbacks = c.callbacks ∧ c'.isConnect = c.isConnect := by
  cases r with
  | data bytes =>
    obtain ⟨out, -, h⟩ := Option.bind_eq_some_iff.mp h
    dsimp only at h
    split at h
    · obtain ⟨rfl, -⟩ := Prod.mk.inj (Option.some.inj h)
      exact ⟨rfl, rfl⟩
    · obtain ⟨c'', hcompact, heq⟩ := Option.map_eq_some_iff.mp h
      obtain ⟨rfl, -⟩ := Prod.mk.inj heq
      obtain ⟨hcbs, hconn⟩ := compact_link hcompact
      exact ⟨hcbs, hconn⟩
  | _ =>
    obtain ⟨rfl, -⟩ := Prod.mk.inj (Option.some.inj h)
    exact ⟨rfl, rfl⟩

theorem link_step (h : s.step onRecvData a = some t) : LinkStep s t a := by
  cases client_step h with
  | kept sock hc hok => exact .same (by rw [hc]) (by rw [hc]) hok
  | opened sock hc hok => exact .opened (by rw [hc]) (by rw [hc]) hok
  | closed sock hc hok => exact .closed (by rw [hc]) (by rw [hc]) hok
  | received r ret hcan hrecv hok =>
    obtain ⟨hcbs, hconn⟩ := recvData_link hrecv
    exact .same hcbs hconn hok

/-- While the callbacks alternate, the last one is `OnConnect` exactly when the client is
connected. -/
def Reported (s : ClientLife L) : Prop :=
  Alternating s.client.callbacks → (s.client.isConnect = true ↔ s.client.callbacks.length % 2 = 1)

theorem Reported.step (hs : s.Reported) (h : s.step onRecvData a = some t) : t.Reported := by
  intro halt
  cases link_step h with
  | same hcbs hconn =>
    rw [hcbs] at halt
    rw [hcbs, hconn]
    exact hs halt
  | opened hcbs hconn =>
    rw [hcbs, alternating_snoc] at halt
    have hlast := halt.2
    rw [hcbs, hconn, List.length_append, List.length_singleton]
    split at hlast
    · simp only [true_iff]
      omega
    · cases hlast
  | closed hcbs hconn =>
    rw [hcbs, alternating_snoc] at halt
    have hlast := halt.2
    rw [hcbs, hconn, List.length_append, List.length_singleton]
    split at hlast
    · cases hlast
    · simp only [Bool.false_eq_true, false_iff]
      omega

theorem alternating_step_iff (hs : s.Reported) (h : s.step onRecvData a = some t) :
    Alternating t.client.callbacks ↔ Alternating s.client.callbacks ∧ s.Orderly a := by
  cases link_step h with
  | same hcbs _ hok => rw [hcbs, and_iff_left hok]
  | opened hcbs _ hok =>
    rw [hcbs, alternating_snoc, hok]
    refine and_congr_right fun halt => ?_
    have hiff := hs halt
    cases hconn : s.client.isConnect <;> simp_all
  | closed hcbs _ hok =>
    rw [hcbs, alternating_snoc, hok]
    refine and_congr_right fun halt => ?_
    have hiff := hs halt
    cases hconn : s.client.isConnect <;> simp_all

end ClientLife

/-- The callbacks of a client alternate exactly in the runs in which `Close` is reached only while
it is connected, and `connect` succeeds only while it is not. -/
theorem callbacks_alternate_iff {L : Type*} (onRecvData : CliOnRecvData L) (tcn : L)
    {acts : List ClientAction} {s : ClientLife L}
    (hrun : Run (ClientLife.step onRecvData) anyStep (.init tcn) acts s) :
    Alternating s.client.callbacks ↔
      Run (ClientLife.step onRecvData) ClientLife.Orderly (.init tcn) acts s := by
  apply Run.holds_iff (I := ClientLife.Reported) (P := fun s => Alternating s.client.callbacks)
  · intro _
    simp [ClientLife.init]
  · intro i hi
    exact absurd hi (Nat.not_lt_zero i)
  · intro s a t hs hstep
    exact hs.step hstep
  · intro s a t hs hstep
    exact ClientLife.alternating_step_iff hs hstep
  · exact hrun

/-- A client connects, its peer closes, and the loop ends the connection. -/
def connectAndLose : List ClientAction :=
  [.connect (some 5) true, .start, .runTest 0, .runSelect 0 (.readable .eof), .runClose 0]

/-- A callback that consumes all it is given. -/
def takeAll : CliOnRecvData Unit := fun _ len _ => some (len, ())

theorem callbacks_alternate_iff_lost :
    ∃ s, exec (ClientLife.step takeAll) (.init ()) connectAndLose = some s ∧
      s.client.callbacks = [.onConnect, .onDisconnect] ∧
      (Alternating s.client.callbacks ↔
        Run (ClientLife.step takeAll) ClientLife.Orderly (.init ()) connectAndLose s) := by
  have hcbs : (exec (ClientLife.step takeAll) (.init ()) connectAndLose).map (·.client.callbacks) =
      some [.onConnect, .onDisconnect] := by decide +kernel
  obtain ⟨s, hs, hcbs⟩ := Option.map_eq_some_iff.mp hcbs
  exact ⟨s, hs, hcbs, callbacks_alternate_iff takeAll () (.of_exec (fun _ _ _ => trivial) hs)⟩

/-- Then the client is stopped, and its disconnection is reported once more. -/
theorem stop_reports_again :
    ∃ s, Run (ClientLife.step takeAll) anyStep (.init ()) (connectAndLose ++ [.stop, .join]) s ∧
      s.client.callbacks = [.onConnect, .onDisconnect, .onDisconnect] ∧
      ¬ Alternating s.client.callbacks := by
  have hcbs : (exec (ClientLife.step takeAll) (.init ()) (connectAndLose ++ [.stop, .join])).map
      (·.client.callbacks) = some [.onConnect, .onDisconnect, .onDisconnect] := by decide +kernel
  obtain ⟨s, hs, hcbs⟩ := Option.map_eq_some_iff.mp hcbs
  refine ⟨s, .of_exec (fun _ _ _ => trivial) hs, hcbs, ?_⟩
  rw [hcbs]
  intro h
  have hlast := h 2 (by decide)
  cases hlast

end TcpLib
