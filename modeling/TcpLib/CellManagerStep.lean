import TcpLib.CellManager

/-!
# What a step of the cell manager can do

`Step` lists every outcome of every action with the state it leads to, so that an invariant is
one case analysis. `step_sound` is the only place that unfolds the step function.
-/

namespace TcpLib
open SlotQueue

inductive Step (s : CellManager) : Action → CellManager → Prop
  | arrive (c : ℕ) (bytes : List UInt8) : c < s.reg.next → (s.sock c).fin = false →
      (s.sock c).rst = false →
      Step s (.arrive c bytes) { s with sock := Function.update s.sock c { s.sock c with
        rcvq := (s.sock c).rcvq ++ bytes
        arrived := (s.sock c).arrived ++ bytes } }
  | fin (c : ℕ) : c < s.reg.next → (s.sock c).rst = false →
      Step s (.fin c) { s with sock := Function.update s.sock c { s.sock c with fin := true } }
  | rst (c : ℕ) : c < s.reg.next →
      Step s (.rst c) { s with sock := Function.update s.sock c { s.sock c with rst := true } }
  | accept (fd : ℕ) : s.acceptor = .idle → 0 < fd → s.reg.table fd = none →
      Step s (.accept fd) { s with reg := s.reg.accept fd, acceptor := .accepted }
  | insert (buf : Memory) (ev : EpollEvents) (ip : String) (port : UInt16) : s.acceptor = .accepted →
      Step s (.insert buf ev ip port) { s with
        reg := s.reg.insert
        cell := Function.update s.cell s.reg.inserted
          (.new (s.reg.name s.reg.inserted) buf ev ip port)
        acceptor := .pushing ⟨⟨.add, s.reg.name s.reg.inserted, s.reg.inserted, none⟩, .test⟩ }
  | pushFull (party : Party) (p : Push) : s.push? party = some p → p.stage = .test →
      queueFull s.cellTask.length → Step s (.pushTest party) (s.endPush p false party)
  | pushRoom (party : Party) (p : Push) : s.push? party = some p → p.stage = .test →
      Step s (.pushTest party) (s.setPush { p with stage := .reserve } party)
  | pushReserve (party : Party) (p : Push) : s.push? party = some p → p.stage = .reserve →
      Step s (.pushReserve party)
        ({ s with cellTask := reserve s.cellTask party }.setPush { p with stage := .publish } party)
  | pushPublish (party : Party) (p : Push) (q : List (Slot Party CellTask)) :
      s.push? party = some p → fill party p.task s.cellTask = some q →
      Step s (.pushPublish party) ({ s with cellTask := q }.endPush p true party)
  | sendLost (i fd : ℕ) (bytes : List UInt8) : s.sender i = .idle → s.reg.map fd = none →
      Step s (.sendLookup i fd bytes) { s with
        sender := Function.update s.sender i
          (.returning ⟨fd, bytes⟩ none NAUT_AT_E_TCP_SERVER_CLIENT_CLOSED) }
  | sendFound (i fd : ℕ) (bytes : List UInt8) (c : ℕ) : s.sender i = .idle → s.reg.map fd = some c →
      Step s (.sendLookup i fd bytes) { s with
        nextId := s.nextId + 1
        sender := Function.update s.sender i
          (.pushing ⟨fd, bytes⟩ ⟨⟨.send, fd, c, some ⟨⟨s.nextId, c, bytes⟩, 0⟩⟩, .test⟩) }
  | sendReturn (i : ℕ) (ret : ℤ) (call : SendCall) (payload : Option Payload) (code : ℤ) :
      s.sender i = .returning call payload code →
      Step s (.sendReturn i ret) { s with
        sender := Function.update s.sender i .idle
        calls := s.calls ++ [⟨call, payload, code, ret⟩] }
  | popTask (t : CellTask) (q : List (Slot Party CellTask)) : s.loop = .handleTask →
      SlotQueue.pop s.cellTask = some (t, q) →
      Step s .pop { s with cellTask := q, loop := .task t }
  | popNone : s.loop = .handleTask → Step s .pop { s with loop := .checkWrite }
  | addLost (ct : CellTask) : s.loop = .task ct → ct.event = .add → s.delPush = none →
      s.reg.map ct.clientid = none →
      Step s .handle ({ s with loop := .handleTask }.delTask ct.clientid ct.conn)
  | addFound (ct : CellTask) (c : ℕ) : s.loop = .task ct → ct.event = .add →
      s.reg.map ct.clientid = some c →
      Step s .handle { s with
        cell := Function.update s.cell c { s.cell c with events := addEvents }
        sock := s.epollAdd (s.cell c).clientFd addEvents
        trace := Function.update s.trace c (s.trace c ++ [.onConnect])
        loop := .handleTask }
  | sendDropped (ct : CellTask) : s.loop = .task ct → ct.event = .send →
      (s.reg.map ct.clientid).bind (fun c => ct.sC.bind (s.cell c).handleSend) = none →
      Step s .handle { s with loop := .handleTask }
  | sendStored (ct : CellTask) (c : ℕ) (sc : SendCell) (cell : ClientCell) : s.loop = .task ct →
      ct.event = .send → s.reg.map ct.clientid = some c → ct.sC = some sc →
      (s.cell c).handleSend sc = some cell →
      Step s .handle { s with cell := Function.update s.cell c cell, loop := .handleTask }
  | delNone (ct : CellTask) : s.loop = .task ct → ct.event = .del → s.reg.map ct.clientid = none →
      Step s .handle { s with loop := .handleTask }
  | delFound (ct : CellTask) (c : ℕ) : s.loop = .task ct → ct.event = .del →
      s.reg.map ct.clientid = some c → Step s .handle { s with loop := .delClose c }
  | close (c : ℕ) (ids : List ℕ) : s.loop = .delClose c → (s.cell c).destroy = some ids →
      Step s .close { s with
        reg := s.reg.close c
        sock := Function.update s.sock c { s.sock c with interest := none }
        freed := s.freed ++ ids
        loop := .delErase c }
  | erase (c : ℕ) : s.loop = .delErase c →
      Step s .erase { s with reg := s.reg.erase c, loop := .delNotify c }
  | notify (c : ℕ) : s.loop = .delNotify c →
      Step s .notify { s with
        trace := Function.update s.trace c (s.trace c ++ [.onDisconnect])
        loop := .handleTask }
  | checkWrite : s.loop = .checkWrite →
      Step s .checkWrite { s with
        cell := fun c =>
          if s.reg.map (s.reg.name c) = some c then (s.cell c).setEvents (s.cell c).checkWrite
          else s.cell c
        sock := fun d => match s.reg.map (s.reg.name d) with
          | some c =>
            if s.reg.table (s.reg.name d) = some d then (s.sock d).epollMod (s.cell c).checkWrite
            else s.sock d
          | none => s.sock d
        loop := .epollWait }
  | epollWait (es : List EpollEvent) : s.loop = .epollWait → (∀ e ∈ es, s.EventOk e) →
      Step s (.epollWait es) { s with loop := .events es }
  | eventsEnd : s.loop = .events [] → Step s .doEvent { s with loop := .handleTask }
  | hangup (e : EpollEvent) (es : List EpollEvent) : s.loop = .events (e :: es) →
      s.delPush = none → e.events.hangup = true →
      Step s .doEvent ({ s with
        seen := Function.update s.seen e.conn true
        loop := .events es }.delTask e.fd e.conn)
  | recvStart (e : EpollEvent) (es : List EpollEvent) (c : ℕ) : s.loop = .events (e :: es) →
      e.events.hangup = false → s.reg.map e.fd = some c →
      Step s .doEvent { s with loop := .recv c e es }
  | recvSkip (e : EpollEvent) (es : List EpollEvent) : s.loop = .events (e :: es) →
      e.events.hangup = false → Step s .doEvent { s with loop := .write e es }
  | read (r : ReadResult) (hub : Hub) (c d : ℕ) (e : EpollEvent) (es : List EpollEvent)
      (o : RecvOut (List Offer)) (pc : LoopPc) : s.loop = .recv c e es →
      s.reg.table (s.cell c).clientFd = some d → r.Legal (s.cell c) → (s.sock d).ReadOk r →
      doRecvIter (TcpServerNotify.onRecvData hub) (s.cell c) (s.offers c) r = some o →
      o.next ≠ .closed → (pc = .recv c e es ∨ pc = .write e es) →
      Step s (.read r hub) { s with
        cell := Function.update s.cell c o.cell
        offers := Function.update s.offers c o.log
        sock := Function.update s.sock d { s.sock d with rcvq := (s.sock d).rcvq.drop r.bytes.length }
        trace := Function.update s.trace c (s.trace c ++ CellManager.recvCallbacks r o.next)
        loop := pc }
  | readClosed (r : ReadResult) (hub : Hub) (c d : ℕ) (e : EpollEvent) (es : List EpollEvent) :
      s.loop = .recv c e es → s.delPush = none → s.reg.table (s.cell c).clientFd = some d →
      (s.sock d).ReadOk r → (r = .eof ∨ r = .fail) →
      Step s (.read r hub) ({ s with
        seen := Function.update s.seen d true
        loop := .write e es }.delTask (s.cell c).clientFd c)
  | writeSkip (writes : ℕ → WriteResult) (e : EpollEvent) (es : List EpollEvent) :
      s.loop = .write e es → Step s (.doSend writes) { s with loop := .events es }
  | write (writes : ℕ → WriteResult) (e : EpollEvent) (es : List EpollEvent) (c d : ℕ) (o : SendOut) :
      s.loop = .write e es → s.reg.map e.fd = some c → s.reg.table (s.cell c).clientFd = some d →
      (s.cell c).doSend writes = some o →
      Step s (.doSend writes) { s with
        cell := Function.update s.cell c o.cell
        sock := Function.update s.sock d { s.sock d with wire := (s.sock d).wire ++ o.wire }
        freed := s.freed ++ o.released
        loop := .events es }

namespace CellManager
variable {s t : CellManager}

theorem inLoop_eq_some {o : Option CellManager} (h : s.inLoop o = some t) :
    s.delPush = none ∧ o = some t := by
  unfold inLoop at h
  split at h
  · next hnone => exact ⟨by simpa using hnone, h⟩
  · cases h

theorem doRecvIter_closed {L : Type*} {f : OnRecvData L} {cell : ClientCell} {log : L}
    {r : ReadResult} {o : RecvOut L} (h : doRecvIter f cell log r = some o) :
    (o.next = .closed ↔ r = .eof ∨ r = .fail) ∧ (o.next = .closed → o.cell = cell ∧ o.log = log) := by
  cases r with
  | again =>
    obtain rfl := Option.some.inj h
    simp
  | eof =>
    obtain rfl := Option.some.inj h
    simp
  | fail =>
    obtain rfl := Option.some.inj h
    simp
  | data bytes =>
    simp only [doRecvIter, Option.map_eq_some_iff] at h
    obtain ⟨cell', -, rfl⟩ := h
    split_ifs <;> simp

theorem push_sound {party : Party} {a : Action}
    (ha : (a = .pushTest party ∧ s.pushTest party = some t) ∨
      (a = .pushReserve party ∧ s.pushReserve party = some t) ∨
      (a = .pushPublish party ∧ s.pushPublish party = some t)) : Step s a t := by
  rcases ha with ⟨rfl, h⟩ | ⟨rfl, h⟩ | ⟨rfl, h⟩
  · obtain ⟨p, hp, h⟩ := Option.bind_eq_some_iff.mp h
    split_ifs at h with hstage hfull
    · obtain rfl := Option.some.inj h
      exact .pushFull party p hp hstage hfull
    · obtain rfl := Option.some.inj h
      exact .pushRoom party p hp hstage
  · obtain ⟨p, hp, h⟩ := Option.bind_eq_some_iff.mp h
    split_ifs at h with hstage
    obtain rfl := Option.some.inj h
    exact .pushReserve party p hp hstage
  · obtain ⟨p, hp, h⟩ := Option.bind_eq_some_iff.mp h
    split_ifs at h
    obtain ⟨q, hq, rfl⟩ := Option.map_eq_some_iff.mp h
    exact .pushPublish party p q hp hq

theorem handle_sound (hdel : s.delPush = none) (h : s.handle = some t) : Step s .handle t := by
  unfold handle at h
  split at h
  · next ct hpc =>
    cases hev : ct.event with
    | add =>
      obtain rfl : s.handleAdd ct = t := by simpa [hev] using h
      unfold handleAdd
      cases hmap : s.reg.map ct.clientid with
      | none => exact .addLost ct hpc hev hdel hmap
      | some c => exact .addFound ct c hpc hev hmap
    | send =>
      obtain rfl : s.handleSend ct = t := by simpa [hev] using h
      unfold handleSend
      cases hmap : s.reg.map ct.clientid with
      | none => exact .sendDropped ct hpc hev (by simp [hmap])
      | some c =>
        dsimp only
        cases hstore : ct.sC.bind (s.cell c).handleSend with
        | none => exact .sendDropped ct hpc hev (by simp [hmap, hstore])
        | some cell =>
          obtain ⟨sc, hsc, hcell⟩ := Option.bind_eq_some_iff.mp hstore
          exact .sendStored ct c sc cell hpc hev hmap hsc hcell
    | del =>
      obtain rfl : s.handleDel ct = t := by simpa [hev] using h
      unfold handleDel
      cases hmap : s.reg.map ct.clientid with
      | none => exact .delNone ct hpc hev hmap
      | some c => exact .delFound ct c hpc hev hmap
  · cases h

theorem doEvent_sound (hdel : s.delPush = none) (h : s.doEvent = some t) : Step s .doEvent t := by
  unfold doEvent at h
  split at h
  · next hpc =>
    obtain rfl := Option.some.inj h
    exact .eventsEnd hpc
  · next e es hpc =>
    split at h
    · next hhup =>
      obtain rfl := Option.some.inj h
      exact .hangup e es hpc hdel hhup
    · next hhup =>
      have hno : e.events.hangup = false := by simpa using hhup
      split at h
      · split at h
        · next c hmap =>
          split at h
          · obtain rfl := Option.some.inj h
            exact .recvStart e es c hpc hno hmap
          · obtain rfl := Option.some.inj h
            exact .recvSkip e es hpc hno
        · obtain rfl := Option.some.inj h
          exact .recvSkip e es hpc hno
      · obtain rfl := Option.some.inj h
        exact .recvSkip e es hpc hno
  · cases h

theorem read_sound {r : ReadResult} {hub : Hub} (hdel : s.delPush = none)
    (h : s.read r hub = some t) : Step s (.read r hub) t := by
  unfold read at h
  split at h
  · next c e es hpc =>
    obtain ⟨d, hd, h⟩ := Option.bind_eq_some_iff.mp h
    split at h
    · next hok =>
      obtain ⟨o, ho, rfl⟩ := Option.map_eq_some_iff.mp h
      obtain ⟨hiff, hsame⟩ := doRecvIter_closed ho
      dsimp only
      split
      · next hnext =>
        refine .read r hub c d e es o _ hpc hd hok.1 hok.2 ho (by simp [hnext]) ?_
        split_ifs <;> simp
      · next hnext =>
        exact .read r hub c d e es o _ hpc hd hok.1 hok.2 ho (by simp [hnext]) (Or.inr rfl)
      · next hnext =>
        exact .read r hub c d e es o _ hpc hd hok.1 hok.2 ho (by simp [hnext]) (Or.inr rfl)
      · next hnext =>
        have hr := hiff.mp hnext
        obtain ⟨hcell, hlog⟩ := hsame hnext
        have hcb : recvCallbacks r o.next = [] := by rcases hr with rfl | rfl <;> rfl
        have hbytes : r.bytes = [] := by rcases hr with rfl | rfl <;> rfl
        have hstep := Step.readClosed (s := s) r hub c d e es hpc hdel hd hok.2 hr
        simpa [hcell, hlog, hcb, hbytes] using hstep
    · cases h
  · cases h

theorem doSend_sound {writes : ℕ → WriteResult} (h : s.doSend writes = some t) :
    Step s (.doSend writes) t := by
  unfold doSend at h
  split at h
  · next e es hpc =>
    split at h
    · split at h
      · next c hmap =>
        obtain ⟨d, hd, h⟩ := Option.bind_eq_some_iff.mp h
        obtain ⟨o, ho, rfl⟩ := Option.map_eq_some_iff.mp h
        exact .write writes e es c d o hpc hmap hd ho
      · obtain rfl := Option.some.inj h
        exact .writeSkip writes e es hpc
    · obtain rfl := Option.some.inj h
      exact .writeSkip writes e es hpc
  · cases h

theorem step_sound {a : Action} (h : s.step a = some t) : Step s a t := by
  cases a with
  | arrive c bytes =>
    simp only [step] at h
    split at h
    · next hok =>
      obtain rfl := Option.some.inj h
      exact .arrive c bytes hok.1 hok.2.1 hok.2.2
    · cases h
  | fin c =>
    simp only [step] at h
    split at h
    · next hok =>
      obtain rfl := Option.some.inj h
      exact .fin c hok.1 hok.2
    · cases h
  | rst c =>
    simp only [step] at h
    split at h
    · next hok =>
      obtain rfl := Option.some.inj h
      exact .rst c hok
    · cases h
  | accept fd =>
    simp only [step, accept] at h
    split at h
    · next hpc =>
      split at h
      · next hok =>
        obtain rfl := Option.some.inj h
        exact .accept fd hpc hok.1 hok.2
      · cases h
    · cases h
  | insert buf ev ip port =>
    simp only [step, insert] at h
    split at h
    · next hpc =>
      obtain rfl := Option.some.inj h
      exact .insert buf ev ip port hpc
    · cases h
  | pushTest p => exact push_sound (Or.inl ⟨rfl, h⟩)
  | pushReserve p => exact push_sound (Or.inr (Or.inl ⟨rfl, h⟩))
  | pushPublish p => exact push_sound (Or.inr (Or.inr ⟨rfl, h⟩))
  | sendLookup i fd bytes =>
    simp only [step, sendLookup] at h
    split at h
    · next hpc =>
      split at h
      · next hmap =>
        obtain rfl := Option.some.inj h
        exact .sendLost i fd bytes hpc hmap
      · next c hmap =>
        split_ifs at h
        obtain rfl := Option.some.inj h
        exact .sendFound i fd bytes c hpc hmap
    · cases h
  | sendReturn i ret =>
    simp only [step, sendReturn] at h
    split at h
    · next call payload code hpc =>
      obtain rfl := Option.some.inj h
      exact .sendReturn i ret call payload code hpc
    · cases h
  | pop =>
    obtain ⟨-, h⟩ := inLoop_eq_some h
    unfold pop at h
    split at h
    · next hpc =>
      split at h
      · next ct q hpop =>
        obtain rfl := Option.some.inj h
        exact .popTask ct q hpc hpop
      · obtain rfl := Option.some.inj h
        exact .popNone hpc
    · cases h
  | handle =>
    obtain ⟨hdel, h⟩ := inLoop_eq_some h
    exact handle_sound hdel h
  | close =>
    obtain ⟨-, h⟩ := inLoop_eq_some h
    unfold close at h
    split at h
    · next c hpc =>
      obtain ⟨ids, hids, rfl⟩ := Option.map_eq_some_iff.mp h
      exact .close c ids hpc hids
    · cases h
  | erase =>
    obtain ⟨-, h⟩ := inLoop_eq_some h
    unfold erase at h
    split at h
    · next c hpc =>
      obtain rfl := Option.some.inj h
      exact .erase c hpc
    · cases h
  | notify =>
    obtain ⟨-, h⟩ := inLoop_eq_some h
    unfold notify at h
    split at h
    · next c hpc =>
      obtain rfl := Option.some.inj h
      exact .notify c hpc
    · cases h
  | checkWrite =>
    obtain ⟨-, h⟩ := inLoop_eq_some h
    unfold checkWrite at h
    split at h
    · next hpc =>
      obtain rfl := Option.some.inj h
      exact .checkWrite hpc
    · cases h
  | epollWait es =>
    obtain ⟨-, h⟩ := inLoop_eq_some h
    unfold epollWait at h
    split at h
    · next hpc =>
      split at h
      · next hok =>
        obtain rfl := Option.some.inj h
        exact .epollWait es hpc hok.2.2
      · cases h
    · cases h
  | doEvent =>
    obtain ⟨hdel, h⟩ := inLoop_eq_some h
    exact doEvent_sound hdel h
  | read r hub =>
    obtain ⟨hdel, h⟩ := inLoop_eq_some h
    exact read_sound hdel h
  | doSend writes =>
    obtain ⟨-, h⟩ := inLoop_eq_some h
    exact doSend_sound h

end CellManager
end TcpLib
