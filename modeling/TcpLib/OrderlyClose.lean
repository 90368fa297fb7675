import TcpLib.RecvSide

/-!
# Received data at an orderly close

`doEvent` queues the deletion of a connection as soon as it sees a hang-up, and a peer that closes
is reported so while its last data waits to be read. If no complete frame is left whenever this
happens, every frame that arrived is with the hub before the descriptor is closed.
-/

namespace TcpLib
open Framing Transition

namespace CellManager

/-- The event that `doEvent` is called for. -/
def event? (s : CellManager) (a : Action) : Option EpollEvent :=
  match a, s.loop with
  | .doEvent, .events (e :: _) => some e
  | _, _ => none

/-- A hang-up is handled only when no complete frame is left, unless the connection failed. -/
def NothingLeft (s : CellManager) (a : Action) : Prop :=
  ∀ e ∈ s.event? a, e.events.hangup →
    (s.sock e.conn).rst ∨ nextFrame (s.leftover e.conn) = none

instance (s : CellManager) (a : Action) : Decidable (s.NothingLeft a) := by
  unfold NothingLeft; infer_instance

/-- The hub accepts everything, no deletion meets a later connection, and hang-ups come after the
data. -/
def OrderlyHangup (s : CellManager) (a : Action) : Prop :=
  (∀ r hub, a = .read r hub → hub = acceptAll) ∧ s.NoStaleDel a ∧ s.NothingLeft a

/-- Of a connection that was closed by its peer and did not fail, the hub has every frame that
arrived when its descriptor is closed. -/
def NoneLost (s : CellManager) : Prop :=
  ∀ c < s.reg.inserted, ¬ s.reg.Open c → (s.sock c).fin → (s.sock c).rst = false →
    accepted (s.offers c) = (frameCode.split (s.sock c).arrived).1

/-- Nothing more of the connection can reach the hub. -/
def Finished (s : CellManager) (x : ℕ) : Prop :=
  (s.sock x).rst ∨ ((s.sock x).fin ∧ nextFrame (s.leftover x) = none)

structure Drained (s : CellManager) : Prop where
  received : ∀ x, s.Received x
  events : ∀ e ∈ s.loop.rest, e.events.hangup → (s.sock e.conn).fin ∨ (s.sock e.conn).rst
  ticket : ∀ u, s.Pending u → u.event = .del → s.reg.map (s.reg.name u.conn) = some u.conn →
    s.Finished u.conn
  closing : ∀ x, s.loop = .delClose x → s.Finished x
  closed : ∀ x < s.reg.inserted, ¬ s.reg.Open x → s.Finished x

variable {s t : CellManager} {a : Action} {u : CellTask} {x : ℕ}

theorem fin_step (h : Step s a t) (hx : (s.sock x).fin) : (t.sock x).fin := by
  cases h with
  | arrive => rwa [proj_update Sock.fin (by rfl)]
  | fin c =>
    by_cases hxc : x = c
    · simp [hxc]
    · simpa [hxc] using hx
  | rst => rwa [proj_update Sock.fin (by rfl)]
  | close => rwa [proj_update Sock.fin (by rfl)]
  | read => rwa [proj_update Sock.fin (by rfl)]
  | write => rwa [proj_update Sock.fin (by rfl)]
  | addFound ct c hpc hev hmap =>
    rcases epollAdd_cases s (s.cell c).clientFd addEvents x with heq | ⟨-, -, heq⟩ <;> simpa [heq] using hx
  | checkWrite hpc =>
    dsimp only
    split
    · split_ifs
      · unfold Sock.epollMod
        split <;> exact hx
      · exact hx
    · exact hx
  | _ => exact hx

theorem rst_step (h : Step s a t) (hx : (s.sock x).rst) : (t.sock x).rst := by
  cases h with
  | arrive => rwa [proj_update Sock.rst (by rfl)]
  | fin => rwa [proj_update Sock.rst (by rfl)]
  | rst c =>
    by_cases hxc : x = c
    · simp [hxc]
    · simpa [hxc] using hx
  | close => rwa [proj_update Sock.rst (by rfl)]
  | read => rwa [proj_update Sock.rst (by rfl)]
  | write => rwa [proj_update Sock.rst (by rfl)]
  | addFound ct c hpc hev hmap =>
    rcases epollAdd_cases s (s.cell c).clientFd addEvents x with heq | ⟨-, -, heq⟩ <;> simpa [heq] using hx
  | checkWrite hpc =>
    dsimp only
    split
    · split_ifs
      · unfold Sock.epollMod
        split <;> exact hx
      · exact hx
    · exact hx
  | _ => exact hx

theorem Finished.step (hs : s.Received x) (b : s.Base) (h : Step s a t)
    (hhub : ∀ r hub, a = .read r hub → hub = acceptAll) (hx : x < s.reg.inserted)
    (hfin : s.Finished x) : t.Finished x := by
  rcases hfin with hrst | ⟨hfin, hleft⟩
  · exact Or.inl (rst_step h hrst)
  · refine Or.inr ⟨fin_step h hfin, ?_⟩
    rw [leftover_step hs b h hhub hx hfin hleft]
    exact hleft

namespace Drained

theorem init : Drained {} where
  received := .init
  events := by simp [LoopPc.rest]
  ticket := fun _ hu => absurd hu (not_pending_first {} rfl)
  closing := by simp
  closed := by simp

theorem finished_step (d : s.Drained) (b : s.Base) (h : Step s a t) (hok : s.OrderlyHangup a)
    (hx : x < s.reg.inserted) (hfin : s.Finished x) : t.Finished x :=
  hfin.step (d.received x) b h hok.1 hx

theorem events_step (d : s.Drained) (h : Step s a t) :
    ∀ e ∈ t.loop.rest, e.events.hangup → (t.sock e.conn).fin ∨ (t.sock e.conn).rst := by
  intro e he hhup
  rcases rest_step h he with hold | ⟨⟨-, -, hend⟩, -, hsock⟩
  · exact (d.events e hold hhup).imp (fin_step h) (rst_step h)
  · rw [hsock]
    exact hend hhup

theorem ticket_step (d : s.Drained) (k : s.Tickets) (b : s.Base) (h : Step s a t)
    (hok : s.OrderlyHangup a) (hu : t.Pending u) (hev : u.event = .del)
    (hmap : t.reg.map (t.reg.name u.conn) = some u.conn) : t.Finished u.conn := by
  rcases pending_step h hu with hold | hcreated
  · have hlt := (k.del u hold hev).1.1
    refine d.finished_step b h hok hlt (d.ticket u hold hev ?_)
    by_contra hne
    exact unmapped_step b h hlt hne hmap
  · cases hcreated with
    | add => cases hev
    | send => cases hev
    | lost ct _ hpc hadd hlost hreg =>
      obtain ⟨-, -, hname⟩ := k.add ct (Or.inr (Or.inr (by simp [hpc, LoopPc.tasks]))) hadd
      rw [hreg, ← hname, hlost] at hmap
      cases hmap
    | hangup e es _ hpc hhup =>
      have he : e ∈ s.loop.rest := by simp [hpc, LoopPc.rest]
      refine d.finished_step b h hok (k.registered _ (k.events e he).2).1 ?_
      rcases hok.2.2 e (by simp [event?, hpc]) hhup with hrst | hleft
      · exact Or.inl hrst
      · exact (d.events e he hhup).symm.imp_right fun hfin => ⟨hfin, hleft⟩
    | closed r hub c d' e es _ hpc hd hread hr =>
      have hfound : s.loop.found = some c := by rw [hpc]; rfl
      have hlt := b.found_lt hfound
      obtain rfl := b.own_sock (b.found_open hfound) hlt hd
      refine d.finished_step b h hok hlt ?_
      rcases hr with rfl | rfl
      · -- at the end of the file everything was read, and every frame of it was accepted
        obtain ⟨hempty, hfin⟩ := hread
        obtain ⟨got, -, hparsed⟩ := (d.received c).entered hlt
        refine Or.inr ⟨hfin, ?_⟩
        rw [leftover, hempty, List.append_nil]
        exact hparsed.rest
      · exact Or.inl hread

theorem closing_step (d : s.Drained) (k : s.Tickets) (b : s.Base) (h : Step s a t)
    (hok : s.OrderlyHangup a) (hx : t.loop = .delClose x) : t.Finished x := by
  have hold (hx : s.loop = .delClose x) : t.Finished x :=
    d.finished_step b h hok (b.found_lt (by rw [hx]; rfl)) (d.closing x hx)
  cases h with
  | delFound ct c hpc hev hmap =>
    obtain rfl := LoopPc.delClose.inj hx
    have hu : s.Pending ct := Or.inr (Or.inr (by simp [hpc, LoopPc.tasks]))
    obtain rfl := k.del_found b hu hev hmap
    obtain ⟨hlatest, hname, -⟩ := k.del ct hu hev
    exact d.ticket ct hu hev (hname ▸ hmap)
  | read r hub c d' e es o pc hpc hd hlegal hread ho hnext hpc' =>
    rcases hpc' with rfl | rfl <;> cases hx
  | arrive => exact hold hx
  | fin => exact hold hx
  | rst => exact hold hx
  | accept => exact hold hx
  | insert => exact hold hx
  | pushFull => exact hold hx
  | pushRoom => exact hold hx
  | pushReserve => exact hold hx
  | pushPublish => exact hold hx
  | sendLost => exact hold hx
  | sendFound => exact hold hx
  | sendReturn => exact hold hx
  | _ => cases hx

theorem closed_step (d : s.Drained) (b : s.Base) (h : Step s a t) (hok : s.OrderlyHangup a)
    (hx : x < t.reg.inserted) (hclosed : ¬ t.reg.Open x) : t.Finished x := by
  by_cases hold : x < s.reg.inserted
  · refine d.finished_step b h hok hold ?_
    by_cases hopen : s.reg.Open x
    · -- closed in this step, so it is the connection that is being deleted
      by_contra hnot
      exact hclosed (open_step b h hopen fun _ hpc => hnot (d.closing x hpc))
    · exact d.closed x hold hopen
  · cases h with
    | insert buf ev ip port hpc =>
      obtain rfl : x = s.reg.inserted :=
        Nat.le_antisymm (Nat.le_of_lt_succ hx) (Nat.le_of_not_lt hold)
      exact absurd (b.reg.pending (b.accepted hpc)) hclosed
    | _ => exact absurd hx hold

theorem step (d : s.Drained) (k : s.Tickets) (b : s.Base) (h : Step s a t)
    (hok : s.OrderlyHangup a) : t.Drained where
  received := fun x => (d.received x).step b h hok.1
  events := d.events_step h
  ticket := fun _ hu hev hmap => d.ticket_step k b h hok hu hev hmap
  closing := fun _ hx => d.closing_step k b h hok hx
  closed := fun _ hx hclosed => d.closed_step b h hok hx hclosed

theorem run {acts : List Action} (h : Run CellManager.step OrderlyHangup {} acts s) : s.Drained := by
  refine (h.invariant (fun s => s.Base ∧ s.Tickets ∧ s.Drained) ⟨.init, .init, .init⟩ ?_).2.2
  rintro s a t ⟨b, k, d⟩ hok hstep
  have h := step_sound hstep
  exact ⟨b.step h, k.step b h hok.2.1, d.step k b h hok⟩

end Drained
end CellManager

/-- In every run that handles hang-ups only when no complete frame is left, no frame is lost that
arrived before the peer closed. -/
theorem orderly_close {acts : List Action} {s : CellManager}
    (hrun : Run CellManager.step CellManager.OrderlyHangup {} acts s) : s.NoneLost := by
  have d := CellManager.Drained.run hrun
  intro c hc hclosed hfin hrst
  refine (d.received c).complete hc ?_
  rcases d.closed c hc hclosed with hfail | ⟨-, hleft⟩
  · simp [hrst] at hfail
  · exact hleft

/-- A frame is read before the peer's close is reported. -/
def readThenClose : List Action :=
  connectOn5 ++ [.arrive 0 oneByteFrame.encode, .epollWait [⟨5, 0, { epollIn := true }⟩], .doEvent,
    .read (.data oneByteFrame.encode) acceptAll, .doSend fun _ => .fail, .doEvent] ++
  toWait ++ [.fin 0] ++ hangUp 5 0 ++ deletion

theorem orderly_close_read_then_close :
    ∃ s, Run CellManager.step CellManager.OrderlyHangup {} readThenClose s ∧
      s.offers 0 = [⟨5, oneByteFrame, true⟩] ∧ s.NoneLost := by
  have hoffers : (exec (fun s a => if CellManager.insertTest 0 .del s a && decide (s.NothingLeft a) then
      s.step a else none) {} readThenClose).map (fun s => s.offers 0) =
        some [⟨5, oneByteFrame, true⟩] := by decide +kernel
  obtain ⟨s, hs, hoffers⟩ := Option.map_eq_some_iff.mp hoffers
  have hhub : ∀ a ∈ readThenClose, ∀ r hub, a = .read r hub → hub = acceptAll := by
    simp [readThenClose, connectOn5, acceptOn, pushBy, handleNext, toWait, hangUp, deletion]
  have hrun : Run CellManager.step CellManager.OrderlyHangup {} readThenClose s := by
    refine CellManager.run_of_test (n := 0)
      (fun s a => CellManager.insertTest 0 .del s a && decide (s.NothingLeft a)) rfl ?_ hs
    intro a ha s hidle h
    obtain ⟨hdel, hleft⟩ := Bool.and_eq_true_iff.mp h
    exact ⟨hhub a ha, CellManager.onInsert_of_test hidle hdel, of_decide_eq_true hleft⟩
  exact ⟨s, hrun, hoffers, orderly_close hrun⟩

/-- The peer sends a frame and closes, and both are reported in one event. -/
def closeWithData : List Action :=
  connectOn5 ++ [.arrive 0 oneByteFrame.encode, .fin 0] ++ hangUp 5 0 ++ handleNext ++ [.close]

theorem close_with_data_loses :
    ∃ s, Run CellManager.step anyStep {} closeWithData s ∧
      (s.sock 0).arrived = oneByteFrame.encode ∧ s.offers 0 = [] ∧ ¬ s.NoneLost := by
  have hlost : (exec CellManager.step {} closeWithData).map (fun s =>
      decide (0 < s.reg.inserted ∧ ¬ s.reg.Open 0 ∧ (s.sock 0).fin = true ∧ (s.sock 0).rst = false ∧
        (s.sock 0).arrived = oneByteFrame.encode ∧ s.offers 0 = [])) = some true := by decide +kernel
  obtain ⟨s, hs, hlost⟩ := Option.map_eq_some_iff.mp hlost
  obtain ⟨hlt, hclosed, hfin, hrst, harrived, hoffers⟩ := of_decide_eq_true hlost
  refine ⟨s, .of_exec (fun _ _ _ => trivial) hs, harrived, hoffers, fun h => ?_⟩
  have hall := h 0 hlt hclosed hfin hrst
  have hsplit := frameCode.split_encodeAll [oneByteFrame]
  rw [PrefixCode.encodeAll_cons, PrefixCode.encodeAll_nil, List.append_nil] at hsplit
  rw [harrived, hoffers, ← frameCode_encode, hsplit] at hall
  cases hall

end TcpLib
