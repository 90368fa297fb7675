import TcpLib.TcpServer
import TcpLib.HandOver
import TcpLib.RecvSide
import TcpLib.ClientReconnect

/-!
# A server and its clients

Every connection of a server has a client at its other end, from the moment its `Connect` returned.
The network delivers, in order, what each side gave to its socket. In every run with messages that
are sent as whole frames, the hub takes the frames that the client sent, once each and in order, and
the client handles those of the calls of `senddata` with its descriptor, each call at most once and
the calls of one thread in their order.
-/

namespace TcpLib
open Components Framing LinearBuffer Transition

/-! ## Streams of whole frames -/

/-- The frames in a block of bytes. -/
def framesOf (bytes : List UInt8) : List Frame := (frameCode.split bytes).1

/-- The block is a sequence of frames and nothing else. -/
def IsFrames (bytes : List UInt8) : Prop := frameCode.encodeAll (framesOf bytes) = bytes

instance (bytes : List UInt8) : Decidable (IsFrames bytes) := by unfold IsFrames; infer_instance

theorem flatMap_encodeAll {α : Type*} {xs : List α} (f : α → List UInt8) (h : ∀ x ∈ xs, IsFrames (f x)) :
    frameCode.encodeAll (xs.flatMap fun x => framesOf (f x)) = xs.flatMap f := by
  induction xs with
  | nil => rfl
  | cons x xs ih =>
    rw [List.flatMap_cons, PrefixCode.encodeAll_append, h x List.mem_cons_self,
      ih fun y hy => h y (List.mem_cons_of_mem _ hy), List.flatMap_cons]

theorem framesOf_mono {p q : List UInt8} (h : p <+: q) : framesOf p <+: framesOf q := by
  obtain ⟨r, rfl⟩ := h
  rw [framesOf, framesOf, frameCode.split_append]
  exact List.prefix_append _ _

theorem framesOf_encodeAll (fs : List Frame) : framesOf (frameCode.encodeAll fs) = fs := by
  rw [framesOf, frameCode.split_encodeAll]

/-! ## What a hub takes -/

section
variable {hub : Hub} {bytes : List UInt8} {cell : ClientCell} {log : List Offer}

theorem RecvInv.of_same {cell' : ClientCell} (h : RecvInv bytes { cell := cell, log := log })
    (hsame : ClientCell.SameRecv cell cell') : RecvInv bytes { cell := cell', log := log } := by
  have hunread : cell'.unread = cell.unread := by
    unfold ClientCell.unread
    rw [hsame.recvBuf, hsame.recvReadPos, hsame.recvWritePos]
  exact
    { fd_pos := by simpa [hsame.clientFd] using h.fd_pos
      read_lt := by simpa [hsame.recvReadPos] using h.read_lt
      read_le := by simpa [hsame.recvReadPos, hsame.recvWritePos] using h.read_le
      write_le := by simpa [hsame.recvWritePos] using h.write_le
      reading := by simp
      fault := rfl
      stream := by simpa [hunread] using h.stream }

theorem RecvInv.round {r : ReadResult} {o : RecvOut (List Offer)}
    (h : RecvInv bytes { cell := cell, log := log }) (hlegal : r.Legal cell)
    (ho : doRecvIter (TcpServerNotify.onRecvData hub) cell log r = some o) :
    RecvInv (bytes ++ r.bytes) { cell := o.cell, log := o.log } := by
  cases r with
  | data bs =>
    have hroom : cell.recvWritePos < SYSRECVBUF := by
      obtain ⟨hpos, hle⟩ := hlegal
      unfold ClientCell.readRequest at hle
      omega
    have hreading : RecvInv bytes { cell := cell, log := log, reading := true } :=
      { h with reading := fun _ => hroom }
    have hread : RecvState.step (TcpServerNotify.onRecvData hub)
        { cell := cell, log := log, reading := true } (.read (.data bs)) =
          some (RecvState.leave { cell := cell, log := log, reading := true } o) := by
      simp only [RecvState.step, hlegal, and_self, if_true, ho]
    have hstep := hreading.step hread
    have hleave : ({ cell := cell, log := log, reading := true : RecvState (List Offer) }.leave o).cell =
        o.cell ∧ ({ cell := cell, log := log, reading := true : RecvState (List Offer) }.leave o).log =
        o.log := by
      unfold RecvState.leave
      split <;> exact ⟨rfl, rfl⟩
    exact
      { fd_pos := by simpa [hleave] using hstep.fd_pos
        read_lt := by simpa [hleave] using hstep.read_lt
        read_le := by simpa [hleave] using hstep.read_le
        write_le := by simpa [hleave] using hstep.write_le
        reading := by simp
        fault := rfl
        stream := by simpa [hleave, RecvAction.bytes] using hstep.stream }
  | _ =>
    obtain rfl := Option.some.inj ho
    simpa [ReadResult.bytes] using h

end

namespace CellManager
variable {s t : CellManager} {a : Action} {x : ℕ}

/-- What arrived for a connection was read by its rounds of `doRecv`, or waits in the socket. -/
structure Taken (s : CellManager) (x : ℕ) : Prop where
  entered : x < s.reg.inserted → ∃ got, (s.sock x).arrived = got ++ (s.sock x).rcvq ∧
    RecvInv got { cell := s.cell x, log := s.offers x }
  unborn : s.reg.inserted ≤ x → s.offers x = [] ∧ (s.sock x).arrived = (s.sock x).rcvq

theorem Taken.init (x : ℕ) : Taken {} x where
  entered := nofun
  unborn := fun _ => ⟨rfl, rfl⟩

theorem Taken.step (hs : s.Taken x) (b : s.Base) (h : Step s a t) : t.Taken x := by
  cases recv_step b h x with
  | same hlt hcell hoffers hq harrived =>
    refine ⟨fun hx => ?_, fun hx => ?_⟩
    · obtain ⟨got, hgot, hinv⟩ := hs.entered (hlt hx)
      rw [hoffers, hq, harrived]
      exact ⟨got, hgot, hinv.of_same hcell⟩
    · rw [hoffers, hq, harrived]
      exact hs.unborn ((reg_step_inserted_le b h).trans hx)
  | arrive bytes hfin hrst hreg hcell hoffers hq harrived =>
    refine ⟨fun hx => ?_, fun hx => ?_⟩
    · obtain ⟨got, hgot, hinv⟩ := hs.entered (hreg ▸ hx)
      rw [hcell, hoffers, hq, harrived, hgot, List.append_assoc]
      exact ⟨got, rfl, hinv⟩
    · obtain ⟨hnone, heq⟩ := hs.unborn (hreg ▸ hx)
      rw [hoffers, hq, harrived, heq]
      exact ⟨hnone, rfl⟩
  | new buf ev ip port hx hacc hreg hcell hoffers hq harrived =>
    obtain ⟨hnone, heq⟩ := hs.unborn hx.ge
    have hpos : 0 < s.reg.name x := b.pos x (by rw [hx]; exact b.accepted hacc)
    refine ⟨fun _ => ⟨[], ?_, ?_⟩, fun hle => ?_⟩
    · rw [harrived, hq, heq, List.nil_append]
    · rw [hcell, hoffers, hnone]
      exact .init (ClientCell.fresh_new hpos buf ev ip port)
    · rw [hreg, hx] at hle
      exact absurd hle (Nat.not_succ_le_self _)
  | read r hub o ha hfound hlegal hok ho hreg hcell hoffers hq harrived =>
    have hlt := b.found_lt hfound
    obtain ⟨got, hgot, hinv⟩ := hs.entered hlt
    refine ⟨fun _ => ⟨got ++ r.bytes, ?_, ?_⟩, fun hle => ?_⟩
    · -- what the round took is what the socket lost
      rw [harrived, hq, hgot, List.append_assoc]
      cases r with
      | data bytes =>
        obtain ⟨rest, hrest⟩ := (hok : bytes <+: (s.sock x).rcvq)
        rw [← hrest]
        simp [ReadResult.bytes]
      | _ => simp [ReadResult.bytes]
    · rw [hcell, hoffers]
      exact hinv.round hlegal ho
    · rw [hreg] at hle
      omega

theorem Taken.run {ok : CellManager → Action → Prop} {acts : List Action}
    (h : Run CellManager.step ok {} acts s) (x : ℕ) : s.Base ∧ s.Taken x := by
  refine h.invariant (fun s => s.Base ∧ s.Taken x) ⟨.init, .init x⟩ ?_
  rintro s a t ⟨b, hs⟩ _ hstep
  have h := step_sound hstep
  exact ⟨b.step h, hs.step b h⟩

/-- The stream is what the hub took and what is left. -/
theorem Taken.arrived_eq (hs : s.Taken x) (hx : x < s.reg.inserted) :
    (s.sock x).arrived = frameCode.encodeAll (accepted (s.offers x)) ++ s.leftover x := by
  obtain ⟨got, hgot, hinv⟩ := hs.entered hx
  rw [hgot, hinv.stream, List.append_assoc]
  rfl

theorem Taken.accepted_prefix (hs : s.Taken x) :
    accepted (s.offers x) <+: framesOf (s.sock x).arrived := by
  rcases Nat.lt_or_ge x s.reg.inserted with hx | hx
  · rw [hs.arrived_eq hx, framesOf, frameCode.split_encodeAll_append]
    exact List.prefix_append _ _
  · rw [(hs.unborn hx).1]
    exact List.nil_prefix

theorem Taken.accepted_eq (hs : s.Taken x) (hx : x < s.reg.inserted)
    (hleft : nextFrame (s.leftover x) = none) :
    accepted (s.offers x) = framesOf (s.sock x).arrived := by
  rw [hs.arrived_eq hx, framesOf, frameCode.split_encodeAll_append, frameCode.split_of_none hleft,
    List.append_nil]

theorem arrived_epollMod (sock : Sock) (ev : Option EpollEvents) :
    (sock.epollMod ev).arrived = sock.arrived := by
  unfold Sock.epollMod
  split <;> rfl

/-- Bytes arrive by no other step. -/
theorem arrived_step (h : Step s a t) (x : ℕ) : (t.sock x).arrived = (s.sock x).arrived ∨
    ∃ bytes, a = .arrive x bytes ∧ (t.sock x).arrived = (s.sock x).arrived ++ bytes := by
  cases h with
  | arrive c bytes =>
    by_cases hxc : x = c
    · subst hxc
      exact Or.inr ⟨bytes, rfl, by simp⟩
    · exact Or.inl (by simp [hxc])
  | fin | rst | close | read | write => exact Or.inl (proj_update Sock.arrived (by rfl) x)
  | addFound ct c =>
    rcases epollAdd_cases s (s.cell c).clientFd addEvents x with heq | ⟨-, -, heq⟩
    · exact Or.inl (by simp [heq])
    · exact Or.inl (by simp [heq])
  | checkWrite =>
    refine Or.inl ?_
    dsimp only
    split
    · split_ifs
      · exact arrived_epollMod _ _
      · rfl
    · rfl
  | _ => exact Or.inl rfl

/-- What is written stays written. -/
theorem wire_step (b : s.Base) (h : Step s a t) (x : ℕ) : (s.sock x).wire <+: (t.sock x).wire := by
  cases send_step b h x with
  | same hcell hwire | new fd buf ev ip port hx hcell hwire
  | stored ct sc hpc hev hmap hsc hstore hwire =>
    rw [hwire]
  | written writes o hlt ho hcell hwire =>
    rw [hwire]
    exact List.prefix_append _ _

end CellManager

/-! ## What a client handles -/

/-- The receive buffer and the callback object are the same. -/
structure EasyTcpClient.SameBuffer (c c' : EasyTcpClient TcpClientNotify) : Prop where
  szMsgBuf : c'.szMsgBuf = c.szMsgBuf
  readIndex : c'.readIndex = c.readIndex
  writeIndex : c'.writeIndex = c.writeIndex
  tcn : c'.tcn = c.tcn

/-- The client handled the frames in what it received, and keeps the rest. -/
structure EasyTcpClient.Handles (got : List UInt8) (c : EasyTcpClient TcpClientNotify) : Prop
    extends c.Positions where
  handled : c.tcn.handled = (framesOf got).map AtpMessage.ofFrame
  unread : c.unread = (frameCode.split got).2

namespace EasyTcpClient
variable {heap : Memory} {c c' : EasyTcpClient TcpClientNotify} {got : List UInt8}

theorem Handles.of_same (h : c.Handles got) (hsame : SameBuffer c c') : c'.Handles got where
  read_lt := hsame.readIndex ▸ h.read_lt
  read_le := by rw [hsame.readIndex, hsame.writeIndex]; exact h.read_le
  write_le := hsame.writeIndex ▸ h.write_le
  handled := hsame.tcn ▸ h.handled
  unread := by
    rw [EasyTcpClient.unread, hsame.szMsgBuf, hsame.readIndex, hsame.writeIndex]
    exact h.unread

theorem Handles.recvData (h : c.Handles got) {r : ReadResult} (hcan : c.CanRecv r) {ret : ℤ}
    (hrecv : c.recvData (TcpClientNotify.onRecvData heap) r = some (c', ret)) :
    c'.Handles (got ++ r.bytes) := by
  cases r with
  | data bytes =>
    obtain ⟨hlen, hroom⟩ := room_of_canRecv h.toPositions hcan
    obtain ⟨c₁, ret₁, hrecv₁, hspec⟩ := recvData_spec heap h.read_lt h.read_le hlen hroom
    obtain ⟨rfl, rfl⟩ := Prod.mk.inj (Option.some.inj (hrecv₁.symm.trans hrecv))
    have hsplit := frameCode.split_append got bytes
    rw [← h.unread] at hsplit
    exact
      { read_lt := hspec.read_lt
        read_le := hspec.read_le
        write_le := hspec.write_le
        handled := by
          rw [hspec.handled, h.handled, ← List.map_append, framesOf, framesOf, ReadResult.bytes, hsplit]
        unread := by rw [hspec.unread, ReadResult.bytes, hsplit] }
  | _ =>
    obtain ⟨rfl, -⟩ := Prod.mk.inj (Option.some.inj hrecv)
    simpa [ReadResult.bytes] using h

end EasyTcpClient

namespace ClientLife
variable {heap : Memory} {s t : ClientLife TcpClientNotify} {a : ClientAction} {got : List UInt8}

/-- The bytes that a step of the client takes from the socket. -/
def received : ClientAction → List UInt8
  | .runSelect _ (.readable r) => r.bytes
  | _ => []

/-- The block that a step of the client gives to the socket. -/
def gives (s : ClientLife TcpClientNotify) : ClientAction → List (List UInt8)
  | .sendData (some bytes) true => if s.client.isRun then [bytes] else []
  | _ => []

/-- A step takes bytes from the socket with one call of `RecvData`, or leaves the buffer as it is. -/
theorem buffer_step (h : s.step (TcpClientNotify.onRecvData heap) a = some t) :
    (∃ r ret, s.client.CanRecv r ∧ ClientLife.received a = r.bytes ∧
      s.client.recvData (TcpClientNotify.onRecvData heap) r = some (t.client, ret)) ∨
    (ClientLife.received a = [] ∧ EasyTcpClient.SameBuffer s.client t.client) := by
  cases a with
  | initSocket sock =>
    have hc := caller_eq_some h
    unfold EasyTcpClient.initSocket at hc
    refine Or.inr ⟨rfl, ?_⟩
    rw [hc]
    split_ifs <;> exact ⟨rfl, rfl, rfl, rfl⟩
  | connect sock ok =>
    have hc := caller_eq_some h
    rw [connect_eq] at hc
    refine Or.inr ⟨rfl, ?_⟩
    rw [hc]
    split_ifs <;> exact ⟨rfl, rfl, rfl, rfl⟩
  | sendData buf ok =>
    have hc := caller_eq_some h
    unfold EasyTcpClient.sendData at hc
    refine Or.inr ⟨rfl, ?_⟩
    rw [hc]
    cases buf with
    | none => exact ⟨rfl, rfl, rfl, rfl⟩
    | some bytes => dsimp only; split_ifs <;> exact ⟨rfl, rfl, rfl, rfl⟩
  | start =>
    simp only [step, start] at h
    split_ifs at h
    obtain rfl := Option.some.inj h
    exact Or.inr ⟨rfl, rfl, rfl, rfl, rfl⟩
  | stop =>
    simp only [step, stop] at h
    split_ifs at h
    obtain rfl := Option.some.inj h
    exact Or.inr ⟨rfl, rfl, rfl, rfl, rfl⟩
  | join =>
    simp only [step, join] at h
    split at h
    · split_ifs at h
      obtain rfl := Option.some.inj h
      exact Or.inr ⟨rfl, rfl, rfl, rfl, rfl⟩
    · cases h
  | runTest i =>
    simp only [step, runTest] at h
    split_ifs at h
    all_goals
      obtain rfl := Option.some.inj h
      exact Or.inr ⟨rfl, rfl, rfl, rfl, rfl⟩
  | runSelect i e =>
    simp only [step, runSelect] at h
    split_ifs at h
    cases e with
    | readable r =>
      dsimp only at h
      split_ifs at h with hcan
      obtain ⟨⟨c, ret⟩, hrecv, rfl⟩ := Option.map_eq_some_iff.mp h
      exact Or.inl ⟨r, ret, hcan, rfl, hrecv⟩
    | failed | timeout =>
      obtain rfl := Option.some.inj h
      exact Or.inr ⟨rfl, rfl, rfl, rfl, rfl⟩
  | runClose i =>
    simp only [step, runClose] at h
    split_ifs at h
    obtain rfl := Option.some.inj h
    exact Or.inr ⟨rfl, rfl, rfl, rfl, rfl⟩

theorem handles_step (h : s.client.Handles got)
    (hstep : s.step (TcpClientNotify.onRecvData heap) a = some t) :
    t.client.Handles (got ++ ClientLife.received a) := by
  rcases buffer_step hstep with ⟨r, ret, hcan, hr, hrecv⟩ | ⟨hnone, hsame⟩
  · rw [hr]
    exact h.recvData hcan hrecv
  · rw [hnone, List.append_nil]
    exact h.of_same hsame

/-- A client whose first `Connect` has returned. -/
def connected : ClientLife TcpClientNotify :=
  { client := { sock := some 0, isConnect := true, callbacks := [.onConnect], tcn := {} } }

theorem connected_handles : connected.client.Handles [] where
  read_lt := by decide
  read_le := Nat.le_refl _
  write_le := Nat.zero_le _
  handled := by simp [framesOf, connected]
  unread := by simp [EasyTcpClient.unread, connected]

end ClientLife

/-! ## The network -/

/-- A connection of the server: its manager, and its number there. -/
abbrev ConnId (cpuN : ℕ) := Fin (loopnum cpuN) × ℕ

/-- `sent` are the blocks that the client gave to its socket, and `got` is what it took from it. -/
structure Net (cpuN : ℕ) where
  server : TcpServer cpuN := TcpServer.init
  client : ConnId cpuN → ClientLife TcpClientNotify := fun _ => .connected
  sent : ConnId cpuN → List (List UInt8) := fun _ => []
  got : ConnId cpuN → List UInt8 := fun _ => []

inductive NetAction (cpuN : ℕ)
  | server (a : ServerAction cpuN)
  | client (x : ConnId cpuN) (a : ClientAction)

namespace Net
variable {cpuN : ℕ}

/-- The server's end of a connection. -/
def sock (s : Net cpuN) (x : ConnId cpuN) : Sock := (s.server x.1).sock x.2

/-- The bytes that the server wrote for a connection. -/
def wire (s : Net cpuN) (x : ConnId cpuN) : List UInt8 := (s.sock x).wire.map SentByte.byte

/-- The server gets what the client sent, and its end when the client closed; the client gets what
was written, and its end when the server closed. A client connects once and has one thread that
reads. -/
def Delivers (s : Net cpuN) : NetAction cpuN → Prop
  | .server (.inner m (.arrive c bytes)) =>
    (s.sock (m, c)).arrived ++ bytes <+: (s.sent (m, c)).flatten
  | .server (.inner m (.fin c)) =>
    (s.client (m, c)).client.sock = none ∧ (s.sock (m, c)).arrived = (s.sent (m, c)).flatten
  | .server _ => True
  | .client x (.runSelect _ (.readable (.data bytes))) => s.got x ++ bytes <+: s.wire x
  | .client x (.runSelect _ (.readable .eof)) =>
    x.2 < (s.server x.1).reg.next ∧ ¬(s.server x.1).reg.Open x.2 ∧ s.got x = s.wire x
  | .client x .start => (s.client x).threads = []
  | .client _ (.initSocket _) => False
  | .client _ (.connect _ _) => False
  | .client _ _ => True

/-- Everything is sent as whole frames. -/
def SendsFrames (_ : Net cpuN) : NetAction cpuN → Prop
  | .server (.sendData _ _ bytes) => IsFrames bytes
  | .client _ (.sendData (some bytes) _) => IsFrames bytes
  | _ => True

instance (s : Net cpuN) (a : NetAction cpuN) : Decidable (s.Delivers a) := by
  unfold Delivers; split <;> infer_instance

instance (s : Net cpuN) (a : NetAction cpuN) : Decidable (s.SendsFrames a) := by
  unfold SendsFrames; split <;> infer_instance

variable (heap : Memory)

/-- The client takes a step. -/
def clientStep (s : Net cpuN) (x : ConnId cpuN) (a : ClientAction) : Option (Net cpuN) :=
  ((s.client x).step (TcpClientNotify.onRecvData heap) a).map fun k => { s with
    client := Function.update s.client x k
    sent := Function.update s.sent x (s.sent x ++ (s.client x).gives a)
    got := Function.update s.got x (s.got x ++ ClientLife.received a) }

def step (s : Net cpuN) : NetAction cpuN → Option (Net cpuN)
  | .server a => (s.server.step a).map fun t => { s with server := t }
  | .client x a => s.clientStep heap x a

/-- A network in which everything is sent as whole frames. -/
def Framed (s : Net cpuN) (a : NetAction cpuN) : Prop := s.Delivers a ∧ s.SendsFrames a

instance (s : Net cpuN) (a : NetAction cpuN) : Decidable (s.Framed a) := instDecidableAnd

def serverAction? : NetAction cpuN → Option (ServerAction cpuN)
  | .server a => some a
  | .client _ _ => none

/-- The server's part of a run. -/
def serverActions (acts : List (NetAction cpuN)) : List (ServerAction cpuN) :=
  acts.filterMap serverAction?

variable {heap} {s t : Net cpuN} {a : NetAction cpuN} {acts : List (NetAction cpuN)} {x : ConnId cpuN}

theorem run_server {ok : Net cpuN → NetAction cpuN → Prop} (h : Run (step heap) ok {} acts s) :
    Run TcpServer.step anyStep TcpServer.init (serverActions acts) s.server := by
  induction h with
  | nil => exact .nil
  | @snoc acts a s t _ hok hstep ih =>
    rw [serverActions, List.filterMap_append]
    cases a with
    | server a =>
      obtain ⟨u, hu, rfl⟩ := Option.map_eq_some_iff.mp hstep
      exact ih.snoc trivial hu
    | client x a =>
      obtain ⟨k, -, rfl⟩ := Option.map_eq_some_iff.mp hstep
      rw [show [NetAction.client x a].filterMap serverAction? = [] from rfl, List.append_nil]
      exact ih

/-- What the two ends of a connection know of each other. -/
structure Linked (s : Net cpuN) (x : ConnId cpuN) : Prop where
  handles : (s.client x).client.Handles (s.got x)
  got : s.got x <+: s.wire x
  arrived : (s.sock x).arrived <+: (s.sent x).flatten
  sent : ∀ bytes ∈ s.sent x, IsFrames bytes

theorem Linked.init (x : ConnId cpuN) : Linked {} x where
  handles := ClientLife.connected_handles
  got := List.nil_prefix
  arrived := List.nil_prefix
  sent := nofun

/-- The step of the manager of a connection, if it is the one that moves. -/
theorem server_step {a : ServerAction cpuN} {u : TcpServer cpuN} (h : s.server.step a = some u)
    (m : Fin (loopnum cpuN)) : u m = s.server m ∨
      a.dispatch.1 = m ∧ TcpLib.Step (s.server m) a.dispatch.2 (u m) := by
  obtain ⟨-, hlocal⟩ := TcpServer.step_eq_some h
  obtain ⟨v, hv, rfl⟩ := stepOf_eq_some hlocal
  by_cases hm : m = a.dispatch.1
  · subst hm
    rw [Function.update_self]
    exact Or.inr ⟨rfl, CellManager.step_sound hv⟩
  · exact Or.inl (Function.update_of_ne hm _ _)

theorem Linked.server (hs : s.Linked x) (b : (s.server x.1).Base) {a : ServerAction cpuN}
    (hok : s.Delivers (.server a)) {u : TcpServer cpuN} (h : s.server.step a = some u) :
    Linked { s with server := u } x := by
  obtain ⟨m, c⟩ := x
  rcases server_step h m with heq | ⟨hm, hstep⟩
  · refine ⟨hs.handles, ?_, ?_, hs.sent⟩
    · change s.got (m, c) <+: ((u m).sock c).wire.map SentByte.byte
      rw [heq]
      exact hs.got
    · change ((u m).sock c).arrived <+: _
      rw [heq]
      exact hs.arrived
  · refine ⟨hs.handles, hs.got.trans ((CellManager.wire_step b hstep c).map SentByte.byte), ?_, hs.sent⟩
    change ((u m).sock c).arrived <+: _
    rcases CellManager.arrived_step hstep c with heq | ⟨bytes, ha, heq⟩
    · rw [heq]
      exact hs.arrived
    · rw [heq]
      cases a with
      | handleAccept | sendData => cases ha
      | inner m' a =>
        obtain rfl : a = .arrive c bytes := ha
        obtain rfl : m' = m := hm
        exact hok

theorem Linked.got_received (hs : s.Linked x) {a : ClientAction} (hok : s.Delivers (.client x a)) :
    s.got x ++ ClientLife.received a <+: s.wire x := by
  have hnone : s.got x ++ [] <+: s.wire x := by
    rw [List.append_nil]
    exact hs.got
  cases a with
  | runSelect i e =>
    cases e with
    | readable r =>
      cases r with
      | data bytes => exact hok
      | _ => exact hnone
    | _ => exact hnone
  | _ => exact hnone

theorem gives_framed {a : ClientAction} (hok : s.SendsFrames (.client x a)) {bytes : List UInt8}
    (h : bytes ∈ (s.client x).gives a) : IsFrames bytes := by
  unfold ClientLife.gives at h
  split at h
  · split_ifs at h
    · obtain rfl := List.mem_singleton.mp h
      exact hok
    · cases h
  · cases h

theorem Linked.client (hs : s.Linked x) {y : ConnId cpuN} {a : ClientAction}
    (hok : s.Framed (.client y a)) (h : s.clientStep heap y a = some t) : t.Linked x := by
  obtain ⟨k, hk, rfl⟩ := Option.map_eq_some_iff.mp h
  by_cases hxy : x = y
  · subst hxy
    refine ⟨?_, ?_, ?_, ?_⟩
    · simpa using ClientLife.handles_step hs.handles hk
    · change Function.update s.got x _ x <+: s.wire x
      rw [Function.update_self]
      exact hs.got_received hok.1
    · change (s.sock x).arrived <+: (Function.update s.sent x _ x).flatten
      rw [Function.update_self, List.flatten_append]
      exact hs.arrived.trans (List.prefix_append _ _)
    · intro bytes hbytes
      simp only [Function.update_self, List.mem_append] at hbytes
      rcases hbytes with hbytes | hbytes
      · exact hs.sent bytes hbytes
      · exact gives_framed hok.2 hbytes
  · refine ⟨?_, ?_, ?_, ?_⟩
    · simpa [hxy] using hs.handles
    · change Function.update s.got y _ x <+: s.wire x
      rw [Function.update_of_ne hxy]
      exact hs.got
    · change (s.sock x).arrived <+: (Function.update s.sent y _ x).flatten
      rw [Function.update_of_ne hxy]
      exact hs.arrived
    · simpa [hxy] using hs.sent

theorem Linked.run {ok : Net cpuN → NetAction cpuN → Prop} (hok : ∀ s a, ok s a → s.Framed a)
    (h : Run (step heap) ok {} acts s) (x : ConnId cpuN) : s.Linked x := by
  induction h with
  | nil => exact .init x
  | @snoc acts a s t hrun hguard hstep ih =>
    cases a with
    | server a =>
      obtain ⟨u, hu, rfl⟩ := Option.map_eq_some_iff.mp hstep
      have b : (s.server x.1).Base := .run (TcpServer.run_manager (run_server hrun) x.1)
      exact ih.server b (hok _ _ hguard).1 hu
    | client y a => exact ih.client (hok _ _ hguard) hstep

/-- All calls of `SendData` were given whole frames. -/
theorem calls_framed (h : Run (step heap) Framed {} acts s) :
    ∀ x ∈ TcpServer.sendCalls (serverActions acts), IsFrames x.call.bytes := by
  induction h with
  | nil => nofun
  | @snoc acts a s t hrun hguard hstep ih =>
    intro x hx
    rw [TcpServer.sendCalls, serverActions, List.filterMap_append, List.filterMap_append] at hx
    rcases List.mem_append.mp hx with hx | hx
    · exact ih x hx
    · cases a with
      | client => cases hx
      | server a =>
        cases a with
        | handleAccept | inner => cases hx
        | sendData i fd bytes =>
          obtain rfl := List.mem_singleton.mp hx
          exact hguard.2

/-- The messages that the frames of some calls become. -/
def messages (ys : List (ThreadCall × ℕ)) : List AtpMessage :=
  (ys.flatMap fun y => framesOf y.1.call.bytes).map AtpMessage.ofFrame

/-- What each end of a connection got from the other: the first frames, and all of them once nothing
is on its way. -/
structure Exchange (s : Net cpuN) (calls : List ThreadCall) (x : ConnId cpuN) : Prop where
  up : accepted ((s.server x.1).offers x.2) <+: (s.sent x).flatMap framesOf
  upAll : x.2 < (s.server x.1).reg.inserted → nextFrame ((s.server x.1).leftover x.2) = none →
    (s.sock x).arrived = (s.sent x).flatten →
    accepted ((s.server x.1).offers x.2) = (s.sent x).flatMap framesOf
  down : ∃ ys, CellManager.SentCalls calls ((s.server x.1).reg.name x.2) ys ∧
    (s.client x).client.tcn.handled <+: messages ys ∧
    ((s.server x.1).unsent x.2 = [] → s.got x = s.wire x →
      (s.client x).client.tcn.handled = messages ys)

theorem sent_framed (hs : s.Linked x) : framesOf (s.sent x).flatten = (s.sent x).flatMap framesOf := by
  have hall := flatMap_encodeAll (fun bytes => bytes) hs.sent
  rw [List.flatMap_id'] at hall
  rw [← hall, framesOf_encodeAll]

end Net

/-- In every run of a server and its clients in which whole frames are sent, the hub takes the frames
that a client sent, once each and in order, and the client handles those of calls of `SendData` with
its number, no call twice and the calls of one thread in order. Nothing is missing once nothing is on
its way. -/
theorem connections_exchange_frames {cpuN : ℕ} {heap : Memory} {acts : List (NetAction cpuN)}
    {s : Net cpuN} (h : Run (Net.step heap) Net.Framed {} acts s) (x : ConnId cpuN) :
    s.Exchange (TcpServer.sendCalls (Net.serverActions acts)) x := by
  have hlinked : s.Linked x := .run (fun _ _ hok => hok) h x
  have hserver := Net.run_server h
  obtain ⟨-, htaken⟩ := CellManager.Taken.run (TcpServer.run_manager hserver x.1) x.2
  have hsent := Net.sent_framed hlinked
  obtain ⟨ys, hcalls, hbytes⟩ := (CellManager.followsCalls_run (TcpServer.run_manager hserver x.1) x.2).of_sublist
    (TcpServer.sendCalls_manager hserver x.1)
  have hframed : frameCode.encodeAll (ys.flatMap fun y => framesOf y.1.call.bytes) =
      s.wire x ++ (s.server x.1).unsent x.2 := by
    refine (flatMap_encodeAll _ fun y hy => ?_).trans hbytes.symm
    exact Net.calls_framed h y.1 (List.fst_mem_of_mem_zipIdx (hcalls.call y hy).1)
  refine ⟨?_, ?_, ys, hcalls, ?_, ?_⟩
  · rw [← hsent]
    exact htaken.accepted_prefix.trans (framesOf_mono hlinked.arrived)
  · intro hx hleft harrived
    rw [htaken.accepted_eq hx hleft, ← hsent]
    exact congrArg framesOf harrived
  · rw [hlinked.handles.handled, Net.messages, ← framesOf_encodeAll (ys.flatMap _), hframed]
    exact (framesOf_mono (hlinked.got.trans (List.prefix_append _ _))).map AtpMessage.ofFrame
  · intro hunsent hgot
    rw [hlinked.handles.handled, Net.messages, ← framesOf_encodeAll (ys.flatMap _), hframed, hunsent,
      List.append_nil, hgot]

/-- A client sends a frame, the hub takes it, and the answer is written and handled. -/
def requestAndAnswer : List (NetAction 1) :=
  let server (acts : List (ServerAction 1)) : List (NetAction 1) := acts.map .server
  let m := currCellManager 1 5
  let client (acts : List ClientAction) : List (NetAction 1) := acts.map (.client (m, 0))
  List.flatten [
    server [.handleAccept 5], server (inManager m (connectOn5.drop 1)),
    client [.start, .sendData (some oneByteFrame.encode) true],
    server (inManager m [.arrive 0 oneByteFrame.encode, .epollWait [⟨5, 0, { epollIn := true }⟩],
      .doEvent, .read (.data oneByteFrame.encode) acceptAll, .doSend fun _ => .again, .doEvent]),
    server [.sendData 0 5 oneByteFrame.encode], server (inManager m (pushBy (.sender 0))),
    server (inManager m (handleNext ++ toWait)),
    server (inManager m [.epollWait [⟨5, 0, { epollOut := true }⟩], .doEvent,
      .doSend fun _ => .count 9]),
    client [.runTest 0, .runSelect 0 (.readable (.data oneByteFrame.encode))]]

theorem connections_exchange_frames_answered :
    ∃ s, Run (Net.step fun _ => 0) Net.Framed {} requestAndAnswer s ∧
      accepted ((s.server 1).offers 0) = [oneByteFrame] ∧
      (s.client (1, 0)).client.tcn.handled = [.ofFrame oneByteFrame] ∧
      s.Exchange (TcpServer.sendCalls (Net.serverActions requestAndAnswer)) (1, 0) := by
  have hexec : (exec (fun s a => if decide (Net.Framed s a) then Net.step (fun _ => 0) s a else none)
      {} requestAndAnswer).map (fun s => (accepted ((s.server 1).offers 0),
        (s.client (1, 0)).client.tcn.handled)) = some ([oneByteFrame], [.ofFrame oneByteFrame]) := by
    decide +kernel
  obtain ⟨s, hs, heq⟩ := Option.map_eq_some_iff.mp hexec
  obtain ⟨hup, hdown⟩ := Prod.mk.inj heq
  have hrun : Run (Net.step fun _ => 0) Net.Framed {} requestAndAnswer s :=
    .of_exec_guard (fun s a => decide (Net.Framed s a)) (fun _ _ _ h => of_decide_eq_true h) hs
  exact ⟨s, hrun, hup, hdown, connections_exchange_frames hrun (1, 0)⟩

end TcpLib
