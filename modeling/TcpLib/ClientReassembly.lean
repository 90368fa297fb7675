import TcpLib.TcpClient
import TcpLib.ServerReassembly

/-!
# Reassembly on the client

On well-formed frames the client always has exactly the unfinished frame in its buffer, however
the stream was cut. But `RecvData` fails whenever its callback consumed nothing, so a result of
`recv` that completes no frame ends the connection. The stream is handled without a failure
exactly when every result of `recv` contains the last byte of some frame.
-/

namespace TcpLib
open Framing LinearBuffer Transition

/-- The calls of `RecvData` on one connection: the client and the values returned so far. -/
structure ClientRun where
  client : EasyTcpClient TcpClientNotify
  results : List ℤ := []
  fault : Bool := false

def ClientRun.step (heap : Memory) (s : ClientRun) (bytes : List UInt8) : Option ClientRun :=
  if s.fault = false ∧ 0 < bytes.length ∧ bytes.length ≤ s.client.recvRequest then
    match s.client.recvData (TcpClientNotify.onRecvData heap) (.data bytes) with
    | some (c, ret) => some { s with client := c, results := s.results ++ [ret] }
    | none => some { s with fault := true }
  else none

/-- A client that has just connected for the first time. -/
structure EasyTcpClient.Fresh (c : EasyTcpClient TcpClientNotify) : Prop where
  isRun : c.isRun = true
  readIndex : c.readIndex = 0
  writeIndex : c.writeIndex = 0
  handled : c.tcn.handled = []

/-- The result of one call of `RecvData` that was given data. -/
structure ClientStep (c : EasyTcpClient TcpClientNotify) (bytes : List UInt8)
    (c' : EasyTcpClient TcpClientNotify) (ret : ℤ) : Prop where
  ret_eq : ret = if (frameCode.split (c.unread ++ bytes)).1 = [] then -1 else 0
  handled : c'.tcn.handled =
    c.tcn.handled ++ (frameCode.split (c.unread ++ bytes)).1.map AtpMessage.ofFrame
  unread : c'.unread = (frameCode.split (c.unread ++ bytes)).2
  isRun : c'.isRun = c.isRun
  read_lt : c'.readIndex < MAX_BUF_SIZE / 2
  read_le : c'.readIndex ≤ c'.writeIndex
  write_le : c'.writeIndex ≤ MAX_BUF_SIZE

section
variable {heap : Memory} {c : EasyTcpClient TcpClientNotify} {bytes : List UInt8}

theorem EasyTcpClient.recvData_spec (heap : Memory) (hlt : c.readIndex < MAX_BUF_SIZE / 2)
    (hle : c.readIndex ≤ c.writeIndex) (hpos : 0 < bytes.length)
    (hroom : c.writeIndex + bytes.length ≤ MAX_BUF_SIZE) :
    ∃ c' ret, c.recvData (TcpClientNotify.onRecvData heap) (.data bytes) = some (c', ret) ∧
      ClientStep c bytes c' ret := by
  have hmax : MAX_BUF_SIZE < 2 ^ 16 := by decide
  have hshift : window (fun i => store c.szMsgBuf c.writeIndex bytes (c.readIndex + i)) 0
      (c.writeIndex + bytes.length - c.readIndex) = c.unread ++ bytes := by
    rw [window_shift]
    exact window_store _ bytes hle
  obtain ⟨cache, hret⟩ := TcpClientNotify.onRecvData_eq heap
    (fun i => store c.szMsgBuf c.writeIndex bytes (c.readIndex + i))
    (c.writeIndex + bytes.length - c.readIndex) (by omega) (by unfold intMax; omega) c.tcn
  rw [hshift, ← recvCall_eq (TcpClientNotify.onRecvData heap) hle hroom] at hret
  have hall := frameCode.encodeAll_split (c.unread ++ bytes)
  have hcount : (frameCode.encodeAll (frameCode.split (c.unread ++ bytes)).1).length ≤
      c.writeIndex + bytes.length - c.readIndex := by
    have hlen := congrArg List.length hall
    simp only [List.length_append, length_unread] at hlen
    omega
  obtain ⟨c', hrecv, hunread, htcn, hrun, hlt', hle', hcap'⟩ :=
    recvData_counted hlt hle hroom hret hcount
  refine ⟨c', _, hrecv, ?_⟩
  exact
    { ret_eq := by
        generalize (frameCode.split (c.unread ++ bytes)).1 = done
        cases done with
        | nil => rfl
        | cons f fs =>
          have hpos := f.header_lt_size
          rw [if_neg (List.cons_ne_nil _ _), if_neg]
          simp
          omega
      handled := by rw [htcn]
      unread := by rw [hunread, frameCode.split_snd_eq_drop]
      isRun := hrun
      read_lt := hlt'
      read_le := hle'
      write_le := hcap' }

end

/-- What a connection always satisfies after `bytes` were received on it. -/
structure ClientInv (bytes : List UInt8) (s : ClientRun) : Prop where
  read_lt : s.client.readIndex < MAX_BUF_SIZE / 2
  read_le : s.client.readIndex ≤ s.client.writeIndex
  write_le : s.client.writeIndex ≤ MAX_BUF_SIZE
  isRun : s.client.isRun = true
  fault : s.fault = false
  handled : s.client.tcn.handled = (frameCode.split bytes).1.map AtpMessage.ofFrame
  unread : s.client.unread = (frameCode.split bytes).2

section
variable {heap : Memory} {bytes : List UInt8} {s t : ClientRun}

theorem ClientInv.init {c : EasyTcpClient TcpClientNotify} (h : c.Fresh) :
    ClientInv [] { client := c } where
  read_lt := by rw [h.readIndex]; decide
  read_le := by rw [h.readIndex]; exact Nat.zero_le _
  write_le := by rw [h.writeIndex]; exact Nat.zero_le _
  isRun := h.isRun
  fault := rfl
  handled := by simp [h.handled]
  unread := by simp [EasyTcpClient.unread, h.readIndex, h.writeIndex]

theorem ClientRun.step_spec (inv : ClientInv bytes s) {bs : List UInt8}
    (hstep : s.step heap bs = some t) :
    ∃ ret, s.client.recvData (TcpClientNotify.onRecvData heap) (.data bs) = some (t.client, ret) ∧
      ClientStep s.client bs t.client ret ∧ t.results = s.results ++ [ret] ∧ t.fault = s.fault := by
  unfold ClientRun.step at hstep
  split at hstep
  · next hlegal =>
    obtain ⟨-, hpos, hreq⟩ := hlegal
    have hwrite := inv.write_le
    have hmax : MAX_BUF_SIZE < 2 ^ 16 := by decide
    have hroom : s.client.writeIndex + bs.length ≤ MAX_BUF_SIZE := by
      unfold EasyTcpClient.recvRequest uint32 at hreq
      omega
    obtain ⟨c, ret, hrecv, hspec⟩ := EasyTcpClient.recvData_spec heap inv.read_lt
      inv.read_le hpos hroom
    rw [hrecv] at hstep
    obtain rfl := Option.some.inj hstep
    exact ⟨ret, hrecv, hspec, rfl, rfl⟩
  · cases hstep

theorem ClientInv.step (inv : ClientInv bytes s) {bs : List UInt8}
    (hstep : s.step heap bs = some t) : ClientInv (bytes ++ bs) t := by
  obtain ⟨ret, -, hspec, -, hfault⟩ := ClientRun.step_spec inv hstep
  have hsplit := frameCode.split_append bytes bs
  rw [← inv.unread] at hsplit
  exact
    { read_lt := hspec.read_lt
      read_le := hspec.read_le
      write_le := hspec.write_le
      isRun := hspec.isRun.trans inv.isRun
      fault := hfault.trans inv.fault
      handled := by rw [hspec.handled, inv.handled, hsplit, List.map_append]
      unread := by rw [hspec.unread, hsplit] }

theorem ClientInv.run {c : EasyTcpClient TcpClientNotify} (hc : c.Fresh) {chunks : List (List UInt8)}
    (hrun : Run (ClientRun.step heap) anyStep { client := c } chunks s) :
    ClientInv chunks.flatten s := by
  refine hrun.invariant_hist (P := fun chunks s => ClientInv chunks.flatten s) (.init hc) ?_
  intro chunks s bs t inv _ hstep
  simpa using inv.step hstep

/-- On frames of at most half the buffer there is always room to read on. -/
theorem ClientInv.write_lt (inv : ClientInv bytes s) {frames : List Frame}
    (hsize : ∀ f ∈ frames, f.size ≤ MAX_BUF_SIZE / 2) (hpre : bytes <+: frameCode.encodeAll frames) :
    s.client.writeIndex < MAX_BUF_SIZE := by
  have hread := inv.read_lt
  have hle := inv.read_le
  have hlen := s.client.length_unread
  rw [inv.unread] at hlen
  unfold MAX_BUF_SIZE at *
  rcases frameCode.split_prefix_rest hpre with hnil | ⟨f, post, hframes, -, hlt⟩
  · rw [hnil, List.length_nil] at hlen
    omega
  · have hf := hsize f (by rw [hframes]; simp)
    rw [frameCode_encode, f.length_encode] at hlt
    omega

end

/-! ## Streams that are handled without a failure -/

/-- Every block contains the last byte of at least one frame. -/
def EachCompletes (frames : List Frame) (chunks : List (List UInt8)) : Prop :=
  ∀ pre bs, pre ++ [bs] <+: chunks →
    (frameCode.complete frames pre.flatten.length).length <
      (frameCode.complete frames (pre ++ [bs]).flatten.length).length

theorem eachCompletes_snoc {frames : List Frame} {chunks : List (List UInt8)} {bs : List UInt8} :
    EachCompletes frames (chunks ++ [bs]) ↔ EachCompletes frames chunks ∧
      (frameCode.complete frames chunks.flatten.length).length <
        (frameCode.complete frames (chunks ++ [bs]).flatten.length).length := by
  constructor
  · intro h
    exact ⟨fun pre b hpre => h pre b (hpre.trans (List.prefix_append _ _)), h chunks bs List.prefix_rfl⟩
  · rintro ⟨h, hlast⟩ pre b hpre
    rcases List.prefix_concat_iff.mp hpre with heq | hpre
    · obtain ⟨rfl, hb⟩ := List.append_inj' heq rfl
      obtain rfl : b = bs := by simpa using hb
      exact hlast
    · exact h pre b hpre

/-- What is promised after the blocks were received: no call failed, `OnRun` is still on the
connection, every complete frame was handled once, and the buffer holds the unfinished one. -/
structure ClientReassembles (heap : Memory) (frames : List Frame)
    (c : EasyTcpClient TcpClientNotify) (chunks : List (List UInt8)) (s : ClientRun) : Prop where
  fault : s.fault = false
  results : ∀ ret ∈ s.results, ret ≠ -1
  onRun : ∃ c', c.onRun (TcpClientNotify.onRecvData heap)
    (chunks.map fun bs => .readable (.data bs)) = some c' ∧ c'.isRun = true
  handled : s.client.tcn.handled =
    (frameCode.complete frames chunks.flatten.length).map AtpMessage.ofFrame
  unread : s.client.unread = chunks.flatten.drop
    (frameCode.encodeAll (frameCode.complete frames chunks.flatten.length)).length
  room : s.client.writeIndex < MAX_BUF_SIZE

section
variable {L : Type*} (onRecvData : CliOnRecvData L)

theorem EasyTcpClient.onRun_of_not_isRun {c : EasyTcpClient L} (h : c.isRun = false)
    (es : List SelectResult) : c.onRun onRecvData es = some c := by
  cases es <;> simp [onRun, h]

theorem EasyTcpClient.onRun_append (c : EasyTcpClient L) (es es' : List SelectResult) :
    c.onRun onRecvData (es ++ es') =
      (c.onRun onRecvData es).bind fun c' => c'.onRun onRecvData es' := by
  have hclosed (c : EasyTcpClient L) : c.close.onRun onRecvData es' = some c.close :=
    onRun_of_not_isRun onRecvData rfl es'
  induction es generalizing c with
  | nil => rfl
  | cons e es ih =>
    simp only [List.cons_append, onRun]
    split
    · cases e with
      | failed => simp [hclosed]
      | timeout => exact ih c
      | readable r =>
        dsimp only
        cases hr : c.recvData onRecvData r with
        | none => rfl
        | some out =>
          simp only [Option.bind_some]
          split
          · simp [hclosed]
          · exact ih out.1
    · next hrun => simp [onRun_of_not_isRun onRecvData (Bool.not_eq_true _ ▸ hrun)]

end

section
variable {heap : Memory} {c : EasyTcpClient TcpClientNotify} {chunks : List (List UInt8)}
  {s : ClientRun}

theorem ClientInv.onRun (hc : c.Fresh)
    (hrun : Run (ClientRun.step heap) anyStep { client := c } chunks s)
    (hok : ∀ ret ∈ s.results, ret ≠ -1) :
    c.onRun (TcpClientNotify.onRecvData heap) (chunks.map fun bs => .readable (.data bs)) =
      some s.client := by
  induction hrun with
  | nil => rfl
  | @snoc chunks bs s t hrun _ hstep ih =>
    have inv := ClientInv.run hc hrun
    obtain ⟨ret, hrecv, -, hresults, -⟩ := ClientRun.step_spec inv hstep
    rw [hresults] at hok
    have hret := hok ret (by simp)
    rw [List.map_append, EasyTcpClient.onRun_append, ih fun r hr => hok r (by simp [hr])]
    simp [EasyTcpClient.onRun, inv.isRun, hrecv, hret]

/-- A call fails exactly when the block it was given completes no frame. -/
theorem ClientInv.results_iff (hc : c.Fresh) {frames : List Frame}
    (hrun : Run (ClientRun.step heap) anyStep { client := c } chunks s)
    (hpre : chunks.flatten <+: frameCode.encodeAll frames) :
    (∀ ret ∈ s.results, ret ≠ -1) ↔ EachCompletes frames chunks := by
  induction hrun with
  | nil => simp [EachCompletes]
  | @snoc chunks bs s t hrun _ hstep ih =>
    have inv := ClientInv.run hc hrun
    have hpre' : chunks.flatten <+: frameCode.encodeAll frames := by
      rw [List.flatten_append] at hpre
      exact (List.prefix_append _ _).trans hpre
    obtain ⟨ret, -, hspec, hresults, -⟩ := ClientRun.step_spec inv hstep
    have hsplit := frameCode.split_append chunks.flatten bs
    have hflat : (chunks ++ [bs]).flatten = chunks.flatten ++ bs := by simp
    rw [eachCompletes_snoc, ← frameCode.split_prefix hpre', ← frameCode.split_prefix hpre, hflat,
      hsplit, List.length_append, hresults]
    rw [← ih hpre', ← inv.unread]
    have hret : ret ≠ -1 ↔ (frameCode.split (s.client.unread ++ bs)).1 ≠ [] := by
      rw [hspec.ret_eq]
      split <;> simp_all
    rw [← List.length_pos_iff] at hret
    simp only [List.mem_append, List.mem_singleton, or_imp, forall_and, forall_eq, hret]
    simp

end

/-- The client reassembles a stream, for every way of cutting it that `recv` can produce, exactly
when every result of `recv` completes a frame. -/
theorem client_reassembles_iff (heap : Memory) (frames : List Frame)
    (hsize : ∀ f ∈ frames, f.size ≤ MAX_BUF_SIZE / 2) {c : EasyTcpClient TcpClientNotify}
    (hc : c.Fresh) {chunks : List (List UInt8)} {s : ClientRun}
    (hrun : Run (ClientRun.step heap) anyStep { client := c } chunks s)
    (hpre : chunks.flatten <+: frameCode.encodeAll frames) :
    ClientReassembles heap frames c chunks s ↔ EachCompletes frames chunks := by
  have inv := ClientInv.run hc hrun
  have hiff := ClientInv.results_iff hc hrun hpre
  refine ⟨fun h => hiff.mp h.results, fun h => ?_⟩
  have hok := hiff.mpr h
  exact
    { fault := inv.fault
      results := hok
      onRun := ⟨s.client, ClientInv.onRun hc hrun hok, inv.isRun⟩
      handled := by rw [inv.handled, frameCode.split_prefix hpre]
      unread := by
        rw [inv.unread, ← frameCode.split_prefix hpre, ← frameCode.split_snd_eq_drop]
      room := inv.write_lt hsize hpre }

/-- A client on descriptor 5 that has received nothing. -/
def newClient : EasyTcpClient TcpClientNotify := { sock := some 5, isConnect := true, tcn := {} }

theorem newClient_fresh : newClient.Fresh := ⟨rfl, rfl, rfl, rfl⟩

theorem client_reassembles_iff_one_byte :
    ∃ s, exec (ClientRun.step fun _ => 0) { client := newClient } [oneByteFrame.encode] = some s ∧
      (ClientReassembles (fun _ => 0) [oneByteFrame] newClient [oneByteFrame.encode] s ↔
        EachCompletes [oneByteFrame] [oneByteFrame.encode]) := by
  obtain ⟨s, hs⟩ := Option.isSome_iff_exists.mp
    (show (exec (ClientRun.step fun _ => 0) { client := newClient } [oneByteFrame.encode]).isSome by
      decide +kernel)
  exact ⟨s, hs, client_reassembles_iff (fun _ => 0) [oneByteFrame]
    (by simp [oneByteFrame, msgHeaderSize, MAX_BUF_SIZE]) newClient_fresh
    (Run.of_exec (fun _ _ _ => trivial) hs) (by simp)⟩

/-- The smallest frame, received in two parts. -/
def cutFrame : List (List UInt8) := [oneByteFrame.encode.take 3, oneByteFrame.encode.drop 3]

theorem cut_frame_closes_client :
    cutFrame.flatten = frameCode.encodeAll [oneByteFrame] ∧
    (newClient.onRun (TcpClientNotify.onRecvData fun _ => 0)
      (cutFrame.map fun bs => .readable (.data bs))).map EasyTcpClient.isRun = some false ∧
    ∃ s, exec (ClientRun.step fun _ => 0) { client := newClient } cutFrame = some s ∧
      ¬ ClientReassembles (fun _ => 0) [oneByteFrame] newClient cutFrame s := by
  have hrun : (exec (ClientRun.step fun _ => 0) { client := newClient } cutFrame).map (·.results) =
      some [-1, 0] := by decide +kernel
  obtain ⟨s, hs, hresults⟩ := Option.map_eq_some_iff.mp hrun
  refine ⟨by decide, by decide +kernel, s, hs, fun h => ?_⟩
  exact h.results (-1) (by rw [hresults]; simp) rfl

end TcpLib
