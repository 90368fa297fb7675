import TcpLib.ServerReassembly
import TcpLib.ParserAgreement

/-!
# Hand-over to a hub that may refuse

A refused frame stays in the buffer and is offered again after the next read. Whatever the hub
answers and whatever the peer sends, the frames that it took are the first ones of the stream, and
each frame offered is the first that it did not take before.
-/

namespace TcpLib
open Framing LinearBuffer Transition

/-- What the hub was given, after `bytes` were received. -/
structure HandedOver (bytes : List UInt8) (s : RecvState (List Offer)) : Prop where
  taken : accepted s.log <+: (frameCode.split bytes).1
  inOrder : ∀ pre o post, s.log = pre ++ o :: post →
    (frameCode.split bytes).1[(accepted pre).length]? = some o.frame
  unread : s.cell.unread = bytes.drop (frameCode.encodeAll (accepted s.log)).length
  read_le : s.cell.recvReadPos ≤ s.cell.recvWritePos
  write_le : s.cell.recvWritePos ≤ SYSRECVBUF

@[simp] theorem accepted_map_true (clientid : ℕ) (fs : List Frame) :
    accepted (fs.map fun f => ⟨clientid, f, true⟩) = fs := by
  simp [accepted, Function.comp_def, List.filter_map]

/-- An offer of this call is of the frame behind those accepted before it. -/
theorem OfferedInTurn.frame {hub : Hub} {clientid : ℕ} {frames done : List Frame}
    {log pre post : List Offer} {r : ℕ × List Offer} {refused : Option Frame} {o : Offer}
    (h : OfferedInTurn hub clientid frames log r done refused) (hlog : r.2 = pre ++ o :: post)
    (hlen : log.length ≤ pre.length) :
    ∃ k, (accepted pre).length = (accepted log).length + k ∧ frames[k]? = some o.frame := by
  have hoffers := h.offers
  rw [hlog, List.append_assoc] at hoffers
  obtain ⟨new, rfl⟩ : log <+: pre := by
    have hall : log <+: pre ++ o :: post := by
      rw [hoffers]
      exact List.prefix_append _ _
    exact List.prefix_of_prefix_length_le hall (List.prefix_append _ _) hlen
  rw [List.append_assoc, List.append_cancel_left_eq] at hoffers
  have hframes := congrArg (List.map Offer.frame) hoffers
  simp only [List.map_append, List.map_cons, List.map_map, Function.comp_def, List.map_id'] at hframes
  have hle : new.length ≤ done.length := by
    have hsize := congrArg List.length hoffers
    have hone := Option.length_toList_le (o := refused)
    simp only [List.length_append, List.length_cons, List.length_map] at hsize
    omega
  have hnew : new = (done.take new.length).map fun f => ⟨clientid, f, true⟩ := by
    have htake := congrArg (List.take new.length) hoffers
    rw [List.take_left, List.take_append_of_le_length (by simpa using hle), ← List.map_take] at htake
    exact htake
  refine ⟨new.length, ?_, ?_⟩
  · rw [accepted_append, List.length_append, Nat.add_left_cancel_iff]
    conv_lhs => rw [hnew]
    rw [accepted_map_true, List.length_take]
    omega
  · obtain ⟨rest, hrest⟩ := h.offered
    rw [← hrest, ← hframes, List.append_assoc, List.getElem?_append_right (by simp)]
    simp

section
variable {hub : Hub} {bytes : List UInt8} {s t : RecvState (List Offer)} {a : RecvAction}

theorem HandedOver.init {cell : ClientCell} (h : cell.Fresh) : HandedOver [] (.init cell) where
  taken := by simp [RecvState.init, accepted]
  inOrder := by
    intro pre o post hlog
    simp [RecvState.init] at hlog
  unread := by simp [RecvState.init, ClientCell.unread, h.recvReadPos, h.recvWritePos]
  read_le := by simp [RecvState.init, h.recvReadPos]
  write_le := by simp [RecvState.init, h.recvWritePos]

theorem RecvInv.taken (inv : RecvInv bytes s) : accepted s.log <+: (frameCode.split bytes).1 := by
  rw [inv.stream, frameCode.split_encodeAll_append]
  exact List.prefix_append _ _

theorem HandedOver.inOrder_step (inv : RecvInv bytes s) (h : HandedOver bytes s)
    (hstep : s.step (TcpServerNotify.onRecvData hub) a = some t) {pre post : List Offer} {o : Offer}
    (hlog : t.log = pre ++ o :: post) :
    (frameCode.split (bytes ++ a.bytes)).1[(accepted pre).length]? = some o.frame := by
  have hold (post' : List Offer) (hs : s.log = pre ++ o :: post') :
      (frameCode.split (bytes ++ a.bytes)).1[(accepted pre).length]? = some o.frame := by
    have hin := h.inOrder pre o post' hs
    obtain ⟨hlt, -⟩ := List.getElem?_eq_some_iff.mp hin
    rw [frameCode.split_append]
    rw [List.getElem?_append_left hlt]
    exact hin
  rcases RecvState.step_cases inv hstep with ⟨-, -, rfl⟩ | ⟨-, -, rfl⟩ | ⟨-, -, rfl⟩ |
    ⟨bs, ret, pos, rfl, -, hdata⟩
  · exact hold post hlog
  · exact hold post hlog
  · exact hold post hlog
  · obtain ⟨done, refused, hturn⟩ := TcpServerNotify.offer_inTurn hub s.cell.clientFd
      (frameCode.split (s.cell.unread ++ bs)).1 s.log
    rw [← hdata.ret_eq] at hturn
    rw [hdata.log] at hlog
    rcases Nat.lt_or_ge pre.length s.log.length with hlt | hge
    · -- an offer of an earlier call
      have hpre : pre ++ [o] <+: s.log := by
        have hleft : pre ++ [o] <+: ret.2 := by
          rw [hlog]
          exact ⟨post, by simp⟩
        have hright : s.log <+: ret.2 := by
          rw [hturn.offers, List.append_assoc]
          exact List.prefix_append _ _
        exact List.prefix_of_prefix_length_le hleft hright (by simpa using hlt)
      obtain ⟨post', hs⟩ := hpre
      exact hold post' (by simpa using hs.symm)
    · obtain ⟨k, hk, hframe⟩ := hturn.frame hlog hge
      have hsplit := frameCode.split_encodeAll_append (accepted s.log) (s.cell.unread ++ bs)
      rw [← List.append_assoc, ← inv.stream] at hsplit
      change (frameCode.split (bytes ++ bs)).1[_]? = _
      rw [hsplit, hk, List.getElem?_append_right (Nat.le_add_right _ _), Nat.add_sub_cancel_left]
      exact hframe

theorem HandedOver.step (inv : RecvInv bytes s) (h : HandedOver bytes s)
    (hstep : s.step (TcpServerNotify.onRecvData hub) a = some t) :
    HandedOver (bytes ++ a.bytes) t where
  taken := (inv.step hstep).taken
  inOrder := fun _ _ _ hlog => h.inOrder_step inv hstep hlog
  unread := (inv.step hstep).unread_eq
  read_le := (inv.step hstep).read_le
  write_le := (inv.step hstep).write_le

end

/-- In every run, for any bytes, any reads and any answers of the hub, the frames are handed over
once each and in order. -/
theorem exactly_once_hand_over (hub : Hub) {cell : ClientCell} (hcell : cell.Fresh)
    {acts : List RecvAction} {s : RecvState (List Offer)}
    (hrun : Run (RecvState.step (TcpServerNotify.onRecvData hub)) anyStep (.init cell) acts s) :
    HandedOver (received acts) s ∧ s.fault = false := by
  have hboth : RecvInv (received acts) s ∧ HandedOver (received acts) s := by
    refine hrun.invariant_hist (P := fun acts s => RecvInv (received acts) s ∧
      HandedOver (received acts) s) ⟨.init hcell, .init hcell⟩ ?_
    rintro acts s a t ⟨inv, h⟩ - hstep
    rw [received_append, received_singleton]
    exact ⟨inv.step hstep, h.step inv hstep⟩
  exact ⟨hboth.2, hboth.1.fault⟩

/-- A hub that refuses what it is offered first. -/
def refuseFirst : Hub := fun log _ _ => !log.isEmpty

theorem exactly_once_hand_over_refused :
    ∃ s, exec (RecvState.step (TcpServerNotify.onRecvData refuseFirst))
        (.init (.new 5 (fun _ => 0) {} "" 0))
        [.doRecv, .read (.data oneByteFrame.encode), .doRecv, .read (.data [2])] = some s ∧
      s.log.map Offer.accepted = [false, true] ∧
      HandedOver (oneByteFrame.encode ++ [2]) s ∧ s.fault = false := by
  have hlog : (exec (RecvState.step (TcpServerNotify.onRecvData refuseFirst))
      (.init (.new 5 (fun _ => 0) {} "" 0))
      [.doRecv, .read (.data oneByteFrame.encode), .doRecv, .read (.data [2])]).map
        (fun s => s.log.map Offer.accepted) = some [false, true] := by decide +kernel
  obtain ⟨s, hs, hlog⟩ := Option.map_eq_some_iff.mp hlog
  refine ⟨s, hs, hlog, ?_⟩
  exact exactly_once_hand_over refuseFirst (ClientCell.fresh_new (by decide) _ _ _ _)
    (Run.of_exec (fun _ _ _ => trivial) hs)

end TcpLib
