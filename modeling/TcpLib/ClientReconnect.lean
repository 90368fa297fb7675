import TcpLib.ClientLifecycle
import TcpLib.ClientReassembly

/-!
# Connecting again

Neither `Close` nor `InitSocket` nor `Connect` resets the positions of the receive buffer, so what an
earlier connection left unread is parsed together with the bytes of the next one. If nothing is
unread whenever a connection is made, the messages of a connection depend on its own bytes only.
-/

namespace TcpLib
open Framing LinearBuffer Transition

/-- Where the buffer positions always are. -/
structure EasyTcpClient.Positions (c : EasyTcpClient TcpClientNotify) : Prop where
  read_lt : c.readIndex < MAX_BUF_SIZE / 2
  read_le : c.readIndex ≤ c.writeIndex
  write_le : c.writeIndex ≤ MAX_BUF_SIZE

namespace EasyTcpClient
variable (heap : Memory)

/-- The results of `RecvData` for these results of `recv`. -/
def feed (c : EasyTcpClient TcpClientNotify) :
    List ReadResult → Option (EasyTcpClient TcpClientNotify × List ℤ)
  | [] => some (c, [])
  | r :: rs =>
    (c.recvData (TcpClientNotify.onRecvData heap) r).bind fun out =>
      (out.1.feed rs).map fun o => (o.1, out.2 :: o.2)

/-- These can be the results of `recv`: none is longer than what is asked for. -/
def CanFeed (c : EasyTcpClient TcpClientNotify) : List ReadResult → Prop
  | [] => True
  | r :: rs => c.CanRecv r ∧
    ∀ out ∈ c.recvData (TcpClientNotify.onRecvData heap) r, out.1.CanFeed rs

variable {heap} {c c' : EasyTcpClient TcpClientNotify}

theorem room_of_canRecv (hpos : c.Positions) {bytes : List UInt8} (h : c.CanRecv (.data bytes)) :
    0 < bytes.length ∧ c.writeIndex + bytes.length ≤ MAX_BUF_SIZE := by
  have hwrite := hpos.write_le
  have hmax : MAX_BUF_SIZE < 2 ^ 16 := by decide
  have hreq := h.2
  unfold recvRequest uint32 at hreq
  exact ⟨h.1, by omega⟩

theorem Positions.recvData (hpos : c.Positions) {r : ReadResult} (hcan : c.CanRecv r)
    {out : EasyTcpClient TcpClientNotify × ℤ}
    (h : c.recvData (TcpClientNotify.onRecvData heap) r = some out) : out.1.Positions := by
  cases r with
  | data bytes =>
    obtain ⟨hlen, hroom⟩ := room_of_canRecv hpos hcan
    obtain ⟨c₁, ret, hrecv, hspec⟩ := recvData_spec heap hpos.read_lt hpos.read_le hlen hroom
    obtain rfl := Option.some.inj (hrecv.symm.trans h)
    exact ⟨hspec.read_lt, hspec.read_le, hspec.write_le⟩
  | _ =>
    obtain rfl := Option.some.inj h
    exact hpos

/-- Clients with the same unread bytes answer a result of `recv` in the same way. -/
theorem recvData_congr (heap : Memory) (hpos : c.Positions) (hpos' : c'.Positions)
    (hunread : c.unread = c'.unread) {r : ReadResult} (hcan : c.CanRecv r) (hcan' : c'.CanRecv r) :
    ∃ c₁ c₁' ret msgs, c.recvData (TcpClientNotify.onRecvData heap) r = some (c₁, ret) ∧
      c'.recvData (TcpClientNotify.onRecvData heap) r = some (c₁', ret) ∧
      c₁.unread = c₁'.unread ∧ c₁.tcn.handled = c.tcn.handled ++ msgs ∧
      c₁'.tcn.handled = c'.tcn.handled ++ msgs := by
  cases r with
  | data bytes =>
    obtain ⟨hlen, hroom⟩ := room_of_canRecv hpos hcan
    obtain ⟨-, hroom'⟩ := room_of_canRecv hpos' hcan'
    obtain ⟨c₁, ret, hrecv, hspec⟩ := recvData_spec heap hpos.read_lt hpos.read_le hlen hroom
    obtain ⟨c₁', ret', hrecv', hspec'⟩ := recvData_spec heap hpos'.read_lt hpos'.read_le hlen hroom'
    have hret : ret' = ret := by rw [hspec'.ret_eq, hspec.ret_eq, hunread]
    subst hret
    refine ⟨c₁, c₁', ret', _, hrecv, hrecv', ?_, hspec.handled, ?_⟩
    · rw [hspec.unread, hspec'.unread, hunread]
    · rw [hspec'.handled, hunread]
  | _ => exact ⟨c, c', -1, [], rfl, rfl, hunread, by simp, by simp⟩

theorem feed_congr (hpos : c.Positions) (hpos' : c'.Positions) (hunread : c.unread = c'.unread)
    {rs : List ReadResult} (hcan : c.CanFeed heap rs) (hcan' : c'.CanFeed heap rs) :
    ∃ c₁ c₁' rets msgs, c.feed heap rs = some (c₁, rets) ∧ c'.feed heap rs = some (c₁', rets) ∧
      c₁.tcn.handled = c.tcn.handled ++ msgs ∧ c₁'.tcn.handled = c'.tcn.handled ++ msgs := by
  induction rs generalizing c c' with
  | nil => exact ⟨c, c', [], [], rfl, rfl, by simp, by simp⟩
  | cons r rs ih =>
    obtain ⟨c₁, c₁', ret, msgs, hrecv, hrecv', hunread₁, hmsgs, hmsgs'⟩ :=
      recvData_congr heap hpos hpos' hunread hcan.1 hcan'.1
    obtain ⟨c₂, c₂', rets, msgs₂, hfeed, hfeed', hmsgs₂, hmsgs₂'⟩ :=
      ih (hpos.recvData hcan.1 hrecv) (hpos'.recvData hcan'.1 hrecv') hunread₁
        (hcan.2 _ hrecv) (hcan'.2 _ hrecv')
    refine ⟨c₂, c₂', ret :: rets, msgs ++ msgs₂, ?_, ?_, ?_, ?_⟩
    · rw [feed, hrecv, Option.bind_some, hfeed, Option.map_some]
    · rw [feed, hrecv', Option.bind_some, hfeed', Option.map_some]
    · rw [hmsgs₂, hmsgs, List.append_assoc]
    · rw [hmsgs₂', hmsgs', List.append_assoc]

theorem one_byte_fits : [(7 : UInt8)].length < 2 ^ 31 := by decide

/-- A frame of nine bytes whose first byte is not the given one. -/
def otherFrame (b : UInt8) : Frame :=
  .ofPayload (if b = 1 then 2 else 1) [7] Nat.one_pos one_byte_fits

theorem otherFrame_type {b : UInt8} {g : Frame} {l : List UInt8} (hg : g.encode <+: b :: l) :
    g.header.type ≠ (otherFrame b).header.type := by
  intro htype
  obtain ⟨rest, hrest⟩ := hg
  have hfirst : (intBytes g.header.type).head? = some b := by
    have hhead := congrArg List.head? hrest
    simpa [Frame.encode, MsgHeader.bytes, intBytes] using hhead
  rw [htype] at hfirst
  unfold otherFrame Frame.ofPayload at hfirst
  by_cases hb : b = 1
  · subst hb
    revert hfirst
    decide
  · rw [if_neg hb] at hfirst
    exact hb (Option.some.inj hfirst).symm

/-- Unread bytes show in the first message, if there is room for one. -/
theorem unread_shows (hpos : c.Positions) (hpos' : c'.Positions) {b : UInt8} {l : List UInt8}
    (hunread : c.unread = b :: l) (hclean : c'.unread = [])
    (hcan : c.CanRecv (.data (otherFrame b).encode)) (hcan' : c'.CanRecv (.data (otherFrame b).encode)) :
    ∃ c₁ c₁' ret ret' msgs,
      c.recvData (TcpClientNotify.onRecvData heap) (.data (otherFrame b).encode) = some (c₁, ret) ∧
      c'.recvData (TcpClientNotify.onRecvData heap) (.data (otherFrame b).encode) = some (c₁', ret') ∧
      c₁.tcn.handled = c.tcn.handled ++ msgs ∧
      c₁'.tcn.handled = c'.tcn.handled ++ [.ofFrame (otherFrame b)] ∧
      msgs ≠ [.ofFrame (otherFrame b)] := by
  obtain ⟨hlen, hroom⟩ := room_of_canRecv hpos hcan
  obtain ⟨-, hroom'⟩ := room_of_canRecv hpos' hcan'
  obtain ⟨c₁, ret, hrecv, hspec⟩ := recvData_spec heap hpos.read_lt hpos.read_le hlen hroom
  obtain ⟨c₁', ret', hrecv', hspec'⟩ := recvData_spec heap hpos'.read_lt hpos'.read_le hlen hroom'
  have hsplit := frameCode.split_encodeAll [otherFrame b]
  rw [PrefixCode.encodeAll_cons, PrefixCode.encodeAll_nil, List.append_nil, frameCode_encode] at hsplit
  have hmsgs' := hspec'.handled
  rw [hclean, List.nil_append, hsplit] at hmsgs'
  refine ⟨c₁, c₁', ret, ret', _, hrecv, hrecv', hspec.handled, hmsgs', ?_⟩
  rw [hunread]
  intro hmsgs
  cases hfs : (frameCode.split (b :: l ++ (otherFrame b).encode)).1 with
  | nil =>
    rw [hfs] at hmsgs
    cases hmsgs
  | cons g fs =>
    have hall := frameCode.encodeAll_split (b :: l ++ (otherFrame b).encode)
    rw [hfs, PrefixCode.encodeAll_cons, List.append_assoc] at hall
    refine otherFrame_type ⟨_, hall⟩ ?_
    rw [hfs] at hmsgs
    have hhead := (List.cons.inj hmsgs).1
    exact congrArg AtpMessage.type hhead

end EasyTcpClient

namespace ClientLife
variable {heap : Memory} {s t : ClientLife TcpClientNotify} {a : ClientAction}

/-- No byte is unread when a connection is made. -/
def StartsEmpty (s : ClientLife TcpClientNotify) : ClientAction → Prop
  | .connect sock ok => ok = true → (s.client.sock.or sock).isSome →
      s.client.readIndex = s.client.writeIndex
  | _ => True

theorem positions_step (hs : s.client.Positions)
    (h : s.step (TcpClientNotify.onRecvData heap) a = some t) : t.client.Positions := by
  cases client_step h with
  | kept sock hc | opened sock hc | closed sock hc =>
    rw [hc]
    exact ⟨hs.read_lt, hs.read_le, hs.write_le⟩
  | received r ret hcan hrecv => exact hs.recvData hcan hrecv

theorem positions_run {ok : ClientLife TcpClientNotify → ClientAction → Prop} {tcn : TcpClientNotify}
    {acts : List ClientAction}
    (h : Run (ClientLife.step (TcpClientNotify.onRecvData heap)) ok (.init tcn) acts s) :
    s.client.Positions := by
  apply h.invariant (fun s => s.client.Positions)
  · exact ⟨show 0 < MAX_BUF_SIZE / 2 by decide, le_rfl, Nat.zero_le _⟩
  · intro s a t hs _ hstep
    exact positions_step hs hstep

theorem unread_connect {tcn : TcpClientNotify} {acts : List ClientAction} {sock : Option ℕ}
    (h : Run (ClientLife.step (TcpClientNotify.onRecvData heap)) StartsEmpty (.init tcn)
      (acts ++ [.connect sock true]) s) (hrun : s.client.isRun = true) : s.client.unread = [] := by
  obtain ⟨s₀, -, hempty, hstep⟩ := h.snoc_inv
  have hc := caller_eq_some hstep
  rw [connect_eq] at hc
  split at hc
  · next hok =>
    have heq := hempty rfl (Bool.and_eq_true_iff.mp hok).2
    rw [hc]
    unfold EasyTcpClient.unread
    rw [heq, window_self]
  · next hno =>
    -- without a socket the client is not running
    have hnone : (s₀.client.sock.or sock).isSome = false := by simpa using hno
    rw [hc] at hrun
    simp [EasyTcpClient.isRun, hnone] at hrun

end ClientLife

/-- After two histories in which every connection was made with nothing unread, a new connection
delivers the same messages and results for the same results of `recv`. -/
theorem reconnect_clean (heap : Memory) {tcn tcn' : TcpClientNotify} {acts acts' : List ClientAction}
    {sock sock' : Option ℕ} {s s' : ClientLife TcpClientNotify}
    (hrun : Run (ClientLife.step (TcpClientNotify.onRecvData heap)) ClientLife.StartsEmpty
      (.init tcn) (acts ++ [.connect sock true]) s) (hconnect : s.client.isRun = true)
    (hrun' : Run (ClientLife.step (TcpClientNotify.onRecvData heap)) ClientLife.StartsEmpty
      (.init tcn') (acts' ++ [.connect sock' true]) s') (hconnect' : s'.client.isRun = true)
    {rs : List ReadResult} (hcan : s.client.CanFeed heap rs) (hcan' : s'.client.CanFeed heap rs) :
    ∃ c c' rets msgs, s.client.feed heap rs = some (c, rets) ∧
      s'.client.feed heap rs = some (c', rets) ∧
      c.tcn.handled = s.client.tcn.handled ++ msgs ∧
      c'.tcn.handled = s'.client.tcn.handled ++ msgs := by
  apply EasyTcpClient.feed_congr
  · exact ClientLife.positions_run hrun
  · exact ClientLife.positions_run hrun'
  · rw [ClientLife.unread_connect hrun hconnect, ClientLife.unread_connect hrun' hconnect']
  · exact hcan
  · exact hcan'

/-- A client receives these bytes on its first connection, is stopped, and makes a new socket. -/
def oneConnection (bytes : List UInt8) : List ClientAction :=
  [.connect (some 5) true, .start, .runTest 0, .runSelect 0 (.readable (.data bytes)), .stop,
    .runTest 0, .join, .initSocket (some 6)]

/-- A run whose buffer has nothing unread before any of its steps. -/
def emptyRun (acts : List ClientAction) : Option (ClientLife TcpClientNotify) :=
  exec (fun s a => if decide (s.client.readIndex = s.client.writeIndex) then
    s.step (TcpClientNotify.onRecvData fun _ => 0) a else none) (.init {}) acts

theorem emptyRun_run {acts : List ClientAction} {s : ClientLife TcpClientNotify}
    (h : emptyRun acts = some s) :
    Run (ClientLife.step (TcpClientNotify.onRecvData fun _ => 0)) ClientLife.StartsEmpty (.init {})
      acts s := by
  refine .of_exec_guard (fun s _ => decide (s.client.readIndex = s.client.writeIndex)) ?_ h
  intro a _ s heq
  cases a with
  | connect sock ok => exact fun _ _ => of_decide_eq_true heq
  | _ => trivial

theorem reconnect_clean_whole_frame :
    ∃ s s', emptyRun (oneConnection oneByteFrame.encode ++ [.connect none true]) = some s ∧
      emptyRun ([] ++ [.connect (some 5) true]) = some s' ∧
      ∃ c c' rets msgs, s.client.feed (fun _ => 0) [.data oneByteFrame.encode] = some (c, rets) ∧
        s'.client.feed (fun _ => 0) [.data oneByteFrame.encode] = some (c', rets) ∧
        c.tcn.handled = s.client.tcn.handled ++ msgs ∧
        c'.tcn.handled = s'.client.tcn.handled ++ msgs := by
  have hrun : (emptyRun (oneConnection oneByteFrame.encode ++ [.connect none true])).map (fun s =>
      (s.client.isRun, decide (s.client.CanRecv (.data oneByteFrame.encode)))) = some (true, true) := by
    decide +kernel
  have hrun' : (emptyRun ([] ++ [.connect (some 5) true])).map (fun s =>
      (s.client.isRun, decide (s.client.CanRecv (.data oneByteFrame.encode)))) = some (true, true) := by
    decide +kernel
  obtain ⟨s, hs, hprops⟩ := Option.map_eq_some_iff.mp hrun
  obtain ⟨s', hs', hprops'⟩ := Option.map_eq_some_iff.mp hrun'
  obtain ⟨hconn, hcan⟩ := Prod.mk.inj hprops
  obtain ⟨hconn', hcan'⟩ := Prod.mk.inj hprops'
  exact ⟨s, s', hs, hs', reconnect_clean (fun _ => 0) (emptyRun_run hs) hconn (emptyRun_run hs') hconn'
    ⟨of_decide_eq_true hcan, fun _ _ => trivial⟩ ⟨of_decide_eq_true hcan', fun _ _ => trivial⟩⟩

/-- Two histories whose first connections differ in one byte, and one frame that is then received
on the second connection. -/
theorem stale_byte_breaks_next_connection :
    ∃ s s', Run (ClientLife.step (TcpClientNotify.onRecvData fun _ => 0)) anyStep (.init {})
        (oneConnection oneByteFrame.encode ++ [.connect none true]) s ∧
      Run (ClientLife.step (TcpClientNotify.onRecvData fun _ => 0)) anyStep (.init {})
        (oneConnection (oneByteFrame.encode ++ [2]) ++ [.connect none true]) s' ∧
      (s.client.feed (fun _ => 0) [.data oneByteFrame.encode]).map (fun o =>
        (o.2, o.1.tcn.handled)) = some ([0], s.client.tcn.handled ++ [.ofFrame oneByteFrame]) ∧
      (s'.client.feed (fun _ => 0) [.data oneByteFrame.encode]).map (fun o =>
        (o.2, o.1.tcn.handled)) = some ([-1], s'.client.tcn.handled) := by
  have hrun : (exec (ClientLife.step (TcpClientNotify.onRecvData fun _ => 0)) (.init {})
      (oneConnection oneByteFrame.encode ++ [.connect none true])).map (fun s =>
        decide ((s.client.feed (fun _ => 0) [.data oneByteFrame.encode]).map (fun o =>
          (o.2, o.1.tcn.handled)) = some ([0], s.client.tcn.handled ++ [.ofFrame oneByteFrame]))) =
      some true := by decide +kernel
  have hrun' : (exec (ClientLife.step (TcpClientNotify.onRecvData fun _ => 0)) (.init {})
      (oneConnection (oneByteFrame.encode ++ [2]) ++ [.connect none true])).map (fun s =>
        decide ((s.client.feed (fun _ => 0) [.data oneByteFrame.encode]).map (fun o =>
          (o.2, o.1.tcn.handled)) = some ([-1], s.client.tcn.handled))) = some true := by
    decide +kernel
  obtain ⟨s, hs, hfeed⟩ := Option.map_eq_some_iff.mp hrun
  obtain ⟨s', hs', hfeed'⟩ := Option.map_eq_some_iff.mp hrun'
  exact ⟨s, s', .of_exec (fun _ _ _ => trivial) hs, .of_exec (fun _ _ _ => trivial) hs',
    of_decide_eq_true hfeed, of_decide_eq_true hfeed'⟩

end TcpLib
