import TcpLib.ServerReassembly
import TcpLib.Tickets

/-!
# The receive sides of all connections

What arrived for a connection is what its rounds of `doRecv` have read followed by what is left in
the socket, and the frames in what was read went to the hub. With a hub that never refuses, no
complete frame stays in a receive buffer between two steps.
-/

namespace TcpLib
open Framing LinearBuffer Transition

section
variable {bytes : List UInt8} {cell : ClientCell} {log : List Offer}

theorem Parsed.of_same {cell' : ClientCell} (h : Parsed bytes { cell := cell, log := log })
    (hsame : ClientCell.SameRecv cell cell') : Parsed bytes { cell := cell', log := log } := by
  have hunread : cell'.unread = cell.unread := by
    unfold ClientCell.unread
    rw [hsame.recvBuf, hsame.recvReadPos, hsame.recvWritePos]
  exact
    { fd_pos := by simpa [hsame.clientFd] using h.fd_pos
      read_lt := by simpa [hsame.recvReadPos] using h.read_lt
      read_le := by simpa [hsame.recvReadPos, hsame.recvWritePos] using h.read_le
      write_le := by simpa [hsame.recvWritePos] using h.write_le
      reading := by simp
      fault := rfl
      stream := by simpa [hunread] using h.stream
      rest := by simpa [hunread] using h.rest
      offers := by simpa [hsame.clientFd] using h.offers }

theorem Parsed.round {r : ReadResult} {o : RecvOut (List Offer)}
    (h : Parsed bytes { cell := cell, log := log }) (hlegal : r.Legal cell)
    (ho : doRecvIter (TcpServerNotify.onRecvData acceptAll) cell log r = some o) :
    Parsed (bytes ++ r.bytes) { cell := o.cell, log := o.log } := by
  cases r with
  | data bs =>
    have hroom : cell.recvWritePos < SYSRECVBUF := by
      obtain ⟨hpos, hle⟩ := hlegal
      unfold ClientCell.readRequest at hle
      omega
    have hreading : Parsed bytes { cell := cell, log := log, reading := true } :=
      { h with reading := fun _ => hroom }
    have hstep := hreading.step (a := .read (.data bs)) (by
      simp only [RecvState.step, hlegal, and_self, if_true, ho]
      rfl)
    have hleave : ({ cell := cell, log := log, reading := true : RecvState (List Offer) }.leave o).cell =
        o.cell ∧ ({ cell := cell, log := log, reading := true : RecvState (List Offer) }.leave o).log =
        o.log := by
      unfold RecvState.leave
      split <;> exact ⟨rfl, rfl⟩
    exact
      { fd_pos := by simpa [hleave] using hstep.fd_pos
        read_lt := by simpa [hleave] using hstep.read_lt
        read_le := by simpa [hleave] using hstep.read_le
        write_le := by simpa [hleave] using hstep.write_le
        reading := by simp
        fault := rfl
        stream := by simpa [hleave, RecvAction.bytes] using hstep.stream
        rest := by simpa [hleave] using hstep.rest
        offers := by simpa [hleave] using hstep.offers }
  | eof =>
    obtain rfl := Option.some.inj ho
    simpa [ReadResult.bytes] using h
  | again =>
    obtain rfl := Option.some.inj ho
    simpa [ReadResult.bytes] using h
  | fail =>
    obtain rfl := Option.some.inj ho
    simpa [ReadResult.bytes] using h

end

namespace CellManager

/-- What a step does to the receive side of a connection. -/
inductive RecvStep (s t : CellManager) (a : Action) (x : ℕ) : Prop
  | same : (x < t.reg.inserted → x < s.reg.inserted) →
      ClientCell.SameRecv (s.cell x) (t.cell x) → t.offers x = s.offers x →
      (t.sock x).rcvq = (s.sock x).rcvq → (t.sock x).arrived = (s.sock x).arrived → RecvStep s t a x
  | arrive (bytes : List UInt8) : (s.sock x).fin = false → (s.sock x).rst = false → t.reg = s.reg →
      t.cell x = s.cell x → t.offers x = s.offers x → (t.sock x).rcvq = (s.sock x).rcvq ++ bytes →
      (t.sock x).arrived = (s.sock x).arrived ++ bytes → RecvStep s t a x
  | new (buf : Memory) (ev : EpollEvents) (ip : String) (port : UInt16) : x = s.reg.inserted →
      s.acceptor = .accepted → t.reg = s.reg.insert →
      t.cell x = .new (s.reg.name x) buf ev ip port → t.offers x = s.offers x →
      (t.sock x).rcvq = (s.sock x).rcvq → (t.sock x).arrived = (s.sock x).arrived → RecvStep s t a x
  | read (r : ReadResult) (hub : Hub) (o : RecvOut (List Offer)) : a = .read r hub →
      s.loop.found = some x → r.Legal (s.cell x) → (s.sock x).ReadOk r →
      doRecvIter (TcpServerNotify.onRecvData hub) (s.cell x) (s.offers x) r = some o →
      t.reg = s.reg → t.cell x = o.cell → t.offers x = o.log →
      (t.sock x).rcvq = (s.sock x).rcvq.drop r.bytes.length →
      (t.sock x).arrived = (s.sock x).arrived → RecvStep s t a x

variable {s t : CellManager} {a : Action} {u : CellTask} {c x : ℕ}

theorem recv_step (b : s.Base) (h : Step s a t) (x : ℕ) : RecvStep s t a x := by
  cases h with
  | arrive c bytes hlt hfin hrst =>
    by_cases hxc : x = c
    · subst hxc
      exact .arrive bytes hfin hrst rfl rfl rfl (by simp) (by simp)
    · exact .same id (.refl _) rfl (by simp [hxc]) (by simp [hxc])
  | fin =>
    exact .same id (.refl _) rfl (proj_update Sock.rcvq (by rfl) x) (proj_update Sock.arrived (by rfl) x)
  | rst =>
    exact .same id (.refl _) rfl (proj_update Sock.rcvq (by rfl) x) (proj_update Sock.arrived (by rfl) x)
  | close =>
    exact .same id (.refl _) rfl (proj_update Sock.rcvq (by rfl) x) (proj_update Sock.arrived (by rfl) x)
  | insert buf ev ip port hpc =>
    by_cases hx : x = s.reg.inserted
    · exact .new buf ev ip port hx hpc rfl (by simp [hx]) rfl rfl rfl
    · refine .same (fun hlt => ?_) (by simpa [hx] using .refl _) rfl rfl rfl
      exact Nat.lt_of_le_of_ne (Nat.le_of_lt_succ hlt) hx
  | addFound ct c hpc hev hmap =>
    have hcell : ClientCell.SameRecv (s.cell x)
        (Function.update s.cell c { s.cell c with events := addEvents } x) := by
      by_cases hxc : x = c
      · subst hxc; simpa using ⟨rfl, rfl, rfl, rfl⟩
      · simpa [hxc] using .refl _
    rcases epollAdd_cases s (s.cell c).clientFd addEvents x with heq | ⟨-, -, heq⟩
    · exact .same id hcell rfl (by simp [heq]) (by simp [heq])
    · exact .same id hcell rfl (by simp [heq]) (by simp [heq])
  | sendStored ct c sc cell hpc hev hmap hsc hstore =>
    refine .same id ?_ rfl rfl rfl
    by_cases hxc : x = c
    · subst hxc; simpa using ClientCell.handleSend_sameRecv hstore
    · simpa [hxc] using .refl _
  | checkWrite hpc =>
    have hmod (ev : Option EpollEvents) : ((s.sock x).epollMod ev).rcvq = (s.sock x).rcvq ∧
        ((s.sock x).epollMod ev).arrived = (s.sock x).arrived := by
      unfold Sock.epollMod
      split <;> exact ⟨rfl, rfl⟩
    refine .same id ?_ rfl ?_ ?_
    · dsimp only
      split_ifs
      · exact (s.cell x).setEvents_sameRecv _
      · exact .refl _
    · dsimp only
      split
      · split_ifs
        · exact (hmod _).1
        · rfl
      · rfl
    · dsimp only
      split
      · split_ifs
        · exact (hmod _).2
        · rfl
      · rfl
  | read r hub c d e es o pc hpc hd hlegal hok ho =>
    have hfound : s.loop.found = some c := by rw [hpc]; rfl
    have hlt := b.found_lt hfound
    obtain rfl := b.own_sock (b.found_open hfound) hlt hd
    by_cases hxc : x = c
    · subst hxc
      exact .read r hub o rfl hfound hlegal hok ho rfl (by simp) (by simp) (by simp) (by simp)
    · exact .same id (by simpa [hxc] using .refl _) (by simp [hxc]) (by simp [hxc]) (by simp [hxc])
  | write writes e es c d o hpc hmap hd ho =>
    refine .same id ?_ rfl (proj_update Sock.rcvq (by rfl) x) (proj_update Sock.arrived (by rfl) x)
    by_cases hxc : x = c
    · subst hxc; simpa using ClientCell.doSend_sameRecv ho
    · simpa [hxc] using .refl _
  | _ => exact .same id (.refl _) rfl rfl rfl

/-- The receive side of an entered connection is between two rounds, and an earlier one has only
a socket. -/
structure Received (s : CellManager) (x : ℕ) : Prop where
  entered : x < s.reg.inserted → ∃ got, (s.sock x).arrived = got ++ (s.sock x).rcvq ∧
    Parsed got { cell := s.cell x, log := s.offers x }
  unborn : s.reg.inserted ≤ x → s.offers x = [] ∧ (s.sock x).arrived = (s.sock x).rcvq

theorem Received.init (x : ℕ) : Received {} x where
  entered := by simp
  unborn := fun _ => ⟨rfl, rfl⟩

theorem Received.step (hs : s.Received x) (b : s.Base) (h : Step s a t)
    (hhub : ∀ r hub, a = .read r hub → hub = acceptAll) : t.Received x := by
  cases recv_step b h x with
  | same hlt hcell hoffers hq harrived =>
    refine ⟨fun hx => ?_, fun hx => ?_⟩
    · obtain ⟨got, hgot, hparsed⟩ := hs.entered (hlt hx)
      rw [hoffers, hq, harrived]
      exact ⟨got, hgot, hparsed.of_same hcell⟩
    · rw [hoffers, hq, harrived]
      exact hs.unborn ((reg_step_inserted_le b h).trans hx)
  | arrive bytes hfin hrst hreg hcell hoffers hq harrived =>
    refine ⟨fun hx => ?_, fun hx => ?_⟩
    · obtain ⟨got, hgot, hparsed⟩ := hs.entered (hreg ▸ hx)
      rw [hcell, hoffers, hq, harrived, hgot, List.append_assoc]
      exact ⟨got, rfl, hparsed⟩
    · obtain ⟨hnone, heq⟩ := hs.unborn (hreg ▸ hx)
      rw [hoffers, hq, harrived, heq]
      exact ⟨hnone, rfl⟩
  | new buf ev ip port hx hacc hreg hcell hoffers hq harrived =>
    obtain ⟨hnone, heq⟩ := hs.unborn hx.ge
    have hpos : 0 < s.reg.name x := b.pos x (by rw [hx]; exact b.accepted hacc)
    refine ⟨fun _ => ⟨[], ?_, ?_⟩, fun hle => ?_⟩
    · rw [harrived, hq, heq, List.nil_append]
    · rw [hcell, hoffers, hnone]
      exact .init (ClientCell.fresh_new hpos buf ev ip port)
    · rw [hreg, hx] at hle
      exact absurd hle (Nat.not_succ_le_self _)
  | read r hub o ha hfound hlegal hok ho hreg hcell hoffers hq harrived =>
    have hlt := b.found_lt hfound
    obtain rfl := hhub r hub ha
    obtain ⟨got, hgot, hparsed⟩ := hs.entered hlt
    refine ⟨fun _ => ⟨got ++ r.bytes, ?_, ?_⟩, fun hle => ?_⟩
    · -- what the round took is what the socket lost
      rw [harrived, hq, hgot, List.append_assoc]
      cases r with
      | data bytes =>
        obtain ⟨rest, hrest⟩ := (hok : bytes <+: (s.sock x).rcvq)
        rw [← hrest]
        simp [ReadResult.bytes]
      | eof => simp [ReadResult.bytes]
      | again => simp [ReadResult.bytes]
      | fail => simp [ReadResult.bytes]
    · rw [hcell, hoffers]
      exact hparsed.round hlegal ho
    · rw [hreg] at hle
      omega

/-- The bytes of the connection that were not handed to the hub. -/
def leftover (s : CellManager) (x : ℕ) : List UInt8 := (s.cell x).unread ++ (s.sock x).rcvq

/-- What arrived is the frames that the hub has and what is left. -/
theorem Received.arrived_eq (hs : s.Received x) (hx : x < s.reg.inserted) :
    (s.sock x).arrived = frameCode.encodeAll (accepted (s.offers x)) ++ s.leftover x := by
  obtain ⟨got, hgot, hparsed⟩ := hs.entered hx
  rw [hgot, hparsed.stream, List.append_assoc]
  rfl

theorem Received.complete (hs : s.Received x) (hx : x < s.reg.inserted)
    (hleft : nextFrame (s.leftover x) = none) :
    accepted (s.offers x) = (frameCode.split (s.sock x).arrived).1 := by
  rw [hs.arrived_eq hx, frameCode.split_encodeAll_append, frameCode.split_of_none hleft]
  simp

/-- What holds no complete frame is never handed over, and nothing arrives behind it once the peer
closed. -/
theorem leftover_step (hs : s.Received x) (b : s.Base) (h : Step s a t)
    (hhub : ∀ r hub, a = .read r hub → hub = acceptAll) (hx : x < s.reg.inserted)
    (hfin : (s.sock x).fin) (hleft : nextFrame (s.leftover x) = none) :
    t.leftover x = s.leftover x := by
  unfold leftover at hleft ⊢
  cases recv_step b h x with
  | same _ hcell _ hq _ =>
    unfold ClientCell.unread
    rw [hq, hcell.recvBuf, hcell.recvReadPos, hcell.recvWritePos]
  | arrive bytes hno => simp [hno] at hfin
  | new buf ev ip port heq => omega
  | read r hub o ha hfound hlegal hok ho hreg hcell hoffers hq harrived =>
    obtain rfl := hhub r hub ha
    obtain ⟨got, -, hparsed⟩ := hs.entered hx
    have hparsed' := hparsed.round hlegal ho
    cases r with
    | data bytes =>
      obtain ⟨rest, hrest⟩ := (hok : bytes <+: (s.sock x).rcvq)
      -- the bytes read do not complete a frame, so the round consumes nothing
      have hnone : frameCode.next ((s.cell x).unread ++ bytes) = none := by
        refine frameCode.next_eq_none_of_prefix ?_ hleft
        rw [← hrest, ← List.append_assoc]
        exact List.prefix_append _ _
      have hsplit := frameCode.split_append got bytes
      rw [hparsed.split, frameCode.split_of_none hnone] at hsplit
      have hunread : o.cell.unread = (s.cell x).unread ++ bytes :=
        congrArg Prod.snd (hparsed'.split.symm.trans hsplit)
      rw [hcell, hq, hunread, ← hrest]
      simp [ReadResult.bytes]
    | eof =>
      obtain rfl := Option.some.inj ho
      rw [hcell, hq]
      rfl
    | again =>
      obtain rfl := Option.some.inj ho
      rw [hcell, hq]
      rfl
    | fail =>
      obtain rfl := Option.some.inj ho
      rw [hcell, hq]
      rfl

end CellManager
end TcpLib
