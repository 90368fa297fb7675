import TcpLib.Tickets

/-!
# The order of the callbacks of a connection

`notify.h` promises `OnConnect` first, `OnDisconnect` last, and the rest in between. While no
connection is added under a descriptor for which a deletion is pending, this holds for every
connection, and `OnDisconnect` is called only for one whose end was seen.
-/

namespace TcpLib
open Transition

/-- The callbacks that are allowed between `OnConnect` and `OnDisconnect`. -/
def Callback.IsData : Callback → Prop
  | .onRecvData => True
  | .onError _ => True
  | _ => False

/-- `OnConnect` was called, once and first, and `OnDisconnect` was not. -/
def Connected (tr : List Callback) : Prop :=
  ∃ mid, (∀ y ∈ mid, y.IsData) ∧ tr = .onConnect :: mid

/-- `OnDisconnect` was called after these. -/
def Disconnected (tr : List Callback) : Prop :=
  ∃ tr', Connected tr' ∧ tr = tr' ++ [.onDisconnect]

/-- The promised order, for the callbacks of a connection and whether its end was seen. -/
def OrderKept (tr : List Callback) (seen : Bool) : Prop :=
  tr = [] ∨ Connected tr ∨ (Disconnected tr ∧ seen)

theorem Connected.ne_nil {tr : List Callback} (h : Connected tr) : tr ≠ [] := by
  obtain ⟨mid, -, rfl⟩ := h
  simp

theorem Connected.append {tr ds : List Callback} (h : Connected tr) (hds : ∀ y ∈ ds, y.IsData) :
    Connected (tr ++ ds) := by
  obtain ⟨mid, hmid, rfl⟩ := h
  refine ⟨mid ++ ds, fun y hy => ?_, rfl⟩
  rcases List.mem_append.mp hy with hy | hy
  · exact hmid y hy
  · exact hds y hy

/-- The connection that `handleDel` has found and not reported yet. -/
def LoopPc.deleting : LoopPc → Option ℕ
  | .delClose c => some c
  | .delErase c => some c
  | .delNotify c => some c
  | _ => none

namespace CellManager

/-- What a step does to the callbacks of a connection. -/
inductive TraceStep (s t : CellManager) (a : Action) (x : ℕ) : Prop
  | same : (a = .notify → s.loop ≠ .delNotify x) → t.trace x = s.trace x → TraceStep s t a x
  | connect (ct : CellTask) : s.loop = .task ct → ct.event = .add → s.reg.map ct.clientid = some x →
      t.adds ct.conn + 1 ≤ s.adds ct.conn → t.trace x = s.trace x ++ [.onConnect] →
      TraceStep s t a x
  | recv (ds : List Callback) : s.loop.found = some x → (∀ y ∈ ds, y.IsData) →
      t.trace x = s.trace x ++ ds → TraceStep s t a x
  | disconnect : a = .notify → s.loop = .delNotify x → t.trace x = s.trace x ++ [.onDisconnect] →
      TraceStep s t a x

/-- What the trace and the position of the loop thread say about each connection. -/
structure Protocol (s : CellManager) : Prop where
  unborn : ∀ x, s.reg.inserted ≤ x → s.trace x = []
  adding : ∀ u, s.Pending u → u.event = .add → s.trace u.conn = []
  registered : ∀ x, (s.sock x).interest.isSome → Connected (s.trace x)
  working : ∀ x, s.loop.found = some x → Connected (s.trace x)
  deleting : ∀ x, s.loop.deleting = some x → Connected (s.trace x) ∧ s.seen x
  erased : ∀ x, s.loop = .delNotify x →
    x < s.reg.inserted ∧ ¬ s.reg.Open x ∧ s.reg.map (s.reg.name x) ≠ some x
  ticket : ∀ u, s.Pending u → u.event = .del → s.reg.map (s.reg.name u.conn) = some u.conn →
    Connected (s.trace u.conn) ∧ s.seen u.conn
  order : ∀ x, OrderKept (s.trace x) (s.seen x)

variable {s t : CellManager} {a : Action} {u : CellTask} {c x : ℕ}

theorem recvCallbacks_isData (r : ReadResult) (next : RecvNext) :
    ∀ y ∈ recvCallbacks r next, y.IsData := by
  intro y hy
  cases r with
  | data bytes =>
    rcases List.mem_cons.mp hy with rfl | hy
    · trivial
    · split_ifs at hy
      · obtain rfl : y = .onError (-2) := by simpa using hy
        trivial
      · cases hy
  | eof => cases hy
  | again => cases hy
  | fail => cases hy

theorem trace_step (h : Step s a t) (x : ℕ) : TraceStep s t a x := by
  cases h with
  | addFound ct c hpc hev hmap =>
    by_cases hxc : x = c
    · subst hxc
      exact .connect ct hpc hev hmap (adds_handle (s := s) rfl rfl hpc rfl ⟨hev, rfl⟩) (by simp)
    · exact .same (by simp) (by simp [hxc])
  | read r hub c d e es o pc hpc =>
    by_cases hxc : x = c
    · subst hxc
      exact .recv _ (by rw [hpc]; rfl) (recvCallbacks_isData r o.next) (by simp)
    · exact .same (by simp) (by simp [hxc])
  | notify c hpc =>
    by_cases hxc : x = c
    · subst hxc
      exact .disconnect rfl hpc (by simp)
    · exact .same (fun _ => by simp [hpc, Ne.symm hxc]) (by simp [hxc])
  | _ => exact .same (by simp) rfl

theorem seen_step (h : Step s a t) (hx : s.seen x) : t.seen x := by
  cases h with
  | hangup e es hpc =>
    by_cases hxe : x = e.conn
    · simp [delTask, hxe]
    · simpa [delTask, hxe] using hx
  | readClosed r hub c d e es hpc =>
    by_cases hxd : x = d
    · simp [delTask, hxd]
    · simpa [delTask, hxd] using hx
  | _ => exact hx

namespace Protocol

theorem init : Protocol {} where
  unborn := fun _ _ => rfl
  adding := fun _ hu => absurd hu (not_pending_first {} rfl)
  registered := by simp
  working := by simp [LoopPc.found]
  deleting := by simp [LoopPc.deleting]
  erased := by simp
  ticket := fun _ hu => absurd hu (not_pending_first {} rfl)
  order := fun _ => Or.inl rfl

theorem connected_step (p : s.Protocol) (k : s.Tickets) (b : s.Base) (h : Step s a t)
    (hx : Connected (s.trace x)) (hne : a = .notify → s.loop ≠ .delNotify x) :
    Connected (t.trace x) := by
  cases trace_step h x with
  | same _ htr => rwa [htr]
  | connect ct hpc hev hmap =>
    have hu : s.Pending ct := Or.inr (Or.inr (by simp [hpc, LoopPc.tasks]))
    obtain rfl := k.add_found b hu hev hmap
    exact absurd (p.adding ct hu hev) hx.ne_nil
  | recv ds _ hds htr =>
    rw [htr]
    exact hx.append hds
  | disconnect ha hpc => exact absurd hpc (hne ha)

theorem silent_step (p : s.Protocol) (h : Step s a t) (hx : s.trace x = [])
    (hadd : ∀ ct, s.loop = .task ct → ct.event = .add → s.reg.map ct.clientid = some x →
      ¬ t.adds ct.conn + 1 ≤ s.adds ct.conn) : t.trace x = [] := by
  cases trace_step h x with
  | same _ htr => rwa [htr]
  | connect ct hpc hev hmap hadds => exact absurd hadds (hadd ct hpc hev hmap)
  | recv ds hfound => exact absurd hx (p.working x hfound).ne_nil
  | disconnect ha hpc => exact absurd hx (p.deleting x (by rw [hpc]; rfl)).1.ne_nil

theorem unborn_step (p : s.Protocol) (b : s.Base) (h : Step s a t) (hx : t.reg.inserted ≤ x) :
    t.trace x = [] := by
  have hle := (reg_step_inserted_le b h).trans hx
  refine p.silent_step h (p.unborn x hle) fun ct _ _ hmap => ?_
  have := (b.reg.map _ _ hmap).2.1
  omega

theorem adding_step (p : s.Protocol) (k : s.Tickets) (b : s.Base) (h : Step s a t)
    (hu : t.Pending u) (hev : u.event = .add) : t.trace u.conn = [] := by
  rcases pending_step h hu with hold | hcreated
  · refine p.silent_step h (p.adding u hold hev) fun ct hpc hadd hmap hle => ?_
    -- the task that adds the connection is the only one, and it would be handled here
    have hct := k.add_found b (Or.inr (Or.inr (by simp [hpc, LoopPc.tasks]))) hadd hmap
    have hpos := adds_pos (b.shape.step h) hu hev
    have hone := k.adds_le ct.conn
    rw [hct] at hpos
    omega
  · cases hcreated with
    | add buf ev ip port _ _ _ htr =>
      rw [htr]
      exact p.unborn _ (Nat.le_refl _)
    | send => cases hev
    | lost => cases hev
    | hangup => cases hev
    | closed => cases hev

theorem registered_step (p : s.Protocol) (k : s.Tickets) (b : s.Base) (h : Step s a t)
    (hx : (t.sock x).interest.isSome) : Connected (t.trace x) := by
  rcases interest_cases h hx with ⟨hold, -⟩ | ⟨ct, c, hpc, hev, hmap, htable, -, htr, -⟩
  · refine p.connected_step k b h (p.registered x hold) fun _ hpc => ?_
    exact (p.erased x hpc).2.1 (k.registered x hold).2.1
  · have hu : s.Pending ct := Or.inr (Or.inr (by simp [hpc, LoopPc.tasks]))
    obtain rfl := k.add_found b hu hev hmap
    obtain ⟨hlt, hopen, -⟩ := k.add ct hu hev
    obtain rfl := b.own_sock hopen hlt htable
    exact ⟨[], by simp, by rw [htr, p.adding ct hu hev]; rfl⟩

/-- The connection of a deletion that finds something was connected and its end was seen. -/
theorem ticket_found (p : s.Protocol) (k : s.Tickets) (b : s.Base) (hu : s.Pending u)
    (hev : u.event = .del) (hmap : s.reg.map u.clientid = some c) :
    Connected (s.trace c) ∧ s.seen c := by
  obtain rfl := k.del_found b hu hev hmap
  refine p.ticket u hu hev ?_
  rwa [← (k.del u hu hev).2.1]

theorem working_step (p : s.Protocol) (k : s.Tickets) (b : s.Base) (h : Step s a t)
    (hx : t.loop.found = some x) : Connected (t.trace x) := by
  have hold (hx : s.loop.found = some x) : Connected (t.trace x) :=
    p.connected_step k b h (p.working x hx) fun _ hpc => by simp [hpc, LoopPc.found] at hx
  cases h with
  | delFound ct c hpc hev hmap =>
    obtain rfl := Option.some.inj hx
    exact (p.ticket_found k b (Or.inr (Or.inr (by simp [hpc, LoopPc.tasks]))) hev hmap).1
  | recvStart e es c hpc hhup hmap =>
    obtain rfl := Option.some.inj hx
    have he : e ∈ s.loop.rest := by simp [hpc, LoopPc.rest]
    obtain rfl := k.event_found b he hmap
    exact p.registered _ (k.events e he).2
  | read r hub c d e es o pc hpc hd hlegal hok ho hnext hpc' =>
    rcases hpc' with rfl | rfl
    · exact hold (by rw [hpc]; exact hx)
    · cases hx
  | arrive => exact hold hx
  | fin => exact hold hx
  | rst => exact hold hx
  | accept => exact hold hx
  | insert => exact hold hx
  | pushFull => exact hold hx
  | pushRoom => exact hold hx
  | pushReserve => exact hold hx
  | pushPublish => exact hold hx
  | sendLost => exact hold hx
  | sendFound => exact hold hx
  | sendReturn => exact hold hx
  | _ => cases hx

theorem deleting_step (p : s.Protocol) (k : s.Tickets) (b : s.Base) (h : Step s a t)
    (hx : t.loop.deleting = some x) : Connected (t.trace x) ∧ t.seen x := by
  have hold (hx : s.loop.deleting = some x) (ha : a ≠ .notify) : Connected (t.trace x) ∧ t.seen x := by
    obtain ⟨hconn, hseen⟩ := p.deleting x hx
    exact ⟨p.connected_step k b h hconn fun heq => absurd heq ha, seen_step h hseen⟩
  cases h with
  | delFound ct c hpc hev hmap =>
    obtain rfl := Option.some.inj hx
    exact p.ticket_found k b (Or.inr (Or.inr (by simp [hpc, LoopPc.tasks]))) hev hmap
  | close c ids hpc => exact hold (by rw [hpc]; exact hx) (by simp)
  | erase c hpc => exact hold (by rw [hpc]; exact hx) (by simp)
  | read r hub c d e es o pc hpc hd hlegal hok ho hnext hpc' => rcases hpc' with rfl | rfl <;> cases hx
  | arrive => exact hold hx (by simp)
  | fin => exact hold hx (by simp)
  | rst => exact hold hx (by simp)
  | accept => exact hold hx (by simp)
  | insert => exact hold hx (by simp)
  | pushFull => exact hold hx (by simp)
  | pushRoom => exact hold hx (by simp)
  | pushReserve => exact hold hx (by simp)
  | pushPublish => exact hold hx (by simp)
  | sendLost => exact hold hx (by simp)
  | sendFound => exact hold hx (by simp)
  | sendReturn => exact hold hx (by simp)
  | _ => cases hx

theorem erased_step (p : s.Protocol) (b : s.Base) (h : Step s a t) (hx : t.loop = .delNotify x) :
    x < t.reg.inserted ∧ ¬ t.reg.Open x ∧ t.reg.map (t.reg.name x) ≠ some x := by
  have hold (hx : s.loop = .delNotify x) :
      x < t.reg.inserted ∧ ¬ t.reg.Open x ∧ t.reg.map (t.reg.name x) ≠ some x := by
    obtain ⟨hlt, hclosed, hmap⟩ := p.erased x hx
    exact ⟨hlt.trans_le (reg_step_inserted_le b h), reg_step_closed b h (b.reg.lt_next hlt) hclosed,
      unmapped_step b h hlt hmap⟩
  cases h with
  | erase c hpc =>
    obtain rfl := LoopPc.delNotify.inj hx
    obtain ⟨hlt, hclosed⟩ := b.reg.closing c (by rw [b.closing, hpc]; rfl)
    exact ⟨hlt, hclosed, by simp [Registry.erase]⟩
  | read r hub c d e es o pc hpc hd hlegal hok ho hnext hpc' => rcases hpc' with rfl | rfl <;> cases hx
  | arrive => exact hold hx
  | fin => exact hold hx
  | rst => exact hold hx
  | accept => exact hold hx
  | insert => exact hold hx
  | pushFull => exact hold hx
  | pushRoom => exact hold hx
  | pushReserve => exact hold hx
  | pushPublish => exact hold hx
  | sendLost => exact hold hx
  | sendFound => exact hold hx
  | sendReturn => exact hold hx
  | _ => cases hx

theorem ticket_step (p : s.Protocol) (k : s.Tickets) (b : s.Base) (h : Step s a t)
    (hu : t.Pending u) (hev : u.event = .del) (hmap : t.reg.map (t.reg.name u.conn) = some u.conn) :
    Connected (t.trace u.conn) ∧ t.seen u.conn := by
  rcases pending_step h hu with hold | hcreated
  · have hlt := (k.del u hold hev).1.1
    have hmap' : s.reg.map (s.reg.name u.conn) = some u.conn := by
      by_contra hne
      exact unmapped_step b h hlt hne hmap
    obtain ⟨hconn, hseen⟩ := p.ticket u hold hev hmap'
    refine ⟨p.connected_step k b h hconn fun _ hpc => ?_, seen_step h hseen⟩
    exact (p.erased _ hpc).2.2 hmap'
  · cases hcreated with
    | add => cases hev
    | send => cases hev
    | lost ct _ hpc hadd hlost hreg =>
      -- the connection has no entry, so nothing can be deleted for it
      obtain ⟨-, -, hname⟩ := k.add ct (Or.inr (Or.inr (by simp [hpc, LoopPc.tasks]))) hadd
      rw [hreg, ← hname, hlost] at hmap
      cases hmap
    | hangup e es _ hpc _ _ hseen =>
      have hinterest := (k.events e (by simp [hpc, LoopPc.rest])).2
      exact ⟨p.connected_step k b h (p.registered _ hinterest) (by simp), hseen⟩
    | closed r hub c d e es _ hpc hd _ _ _ hseen =>
      have hfound : s.loop.found = some c := by rw [hpc]; rfl
      have hlt := b.found_lt hfound
      obtain rfl := b.own_sock (b.found_open hfound) hlt hd
      exact ⟨p.connected_step k b h (p.working c hfound) (by simp), hseen⟩

theorem order_step (p : s.Protocol) (k : s.Tickets) (b : s.Base) (h : Step s a t) (x : ℕ) :
    OrderKept (t.trace x) (t.seen x) := by
  cases trace_step h x with
  | same _ htr =>
    rw [htr]
    exact (p.order x).imp_right (Or.imp_right (And.imp_right (seen_step h)))
  | connect ct hpc hev hmap _ htr =>
    have hu : s.Pending ct := Or.inr (Or.inr (by simp [hpc, LoopPc.tasks]))
    obtain rfl := k.add_found b hu hev hmap
    rw [htr, p.adding ct hu hev]
    exact Or.inr (Or.inl ⟨[], by simp, rfl⟩)
  | recv ds hfound hds htr =>
    rw [htr]
    exact Or.inr (Or.inl ((p.working x hfound).append hds))
  | disconnect ha hpc htr =>
    obtain ⟨hconn, hseen⟩ := p.deleting x (by rw [hpc]; rfl)
    rw [htr]
    exact Or.inr (Or.inr ⟨⟨_, hconn, rfl⟩, seen_step h hseen⟩)

theorem step (p : s.Protocol) (k : s.Tickets) (b : s.Base) (h : Step s a t) : t.Protocol where
  unborn := fun _ hx => p.unborn_step b h hx
  adding := fun _ hu hev => p.adding_step k b h hu hev
  registered := fun _ hx => p.registered_step k b h hx
  working := fun _ hx => p.working_step k b h hx
  deleting := fun _ hx => p.deleting_step k b h hx
  erased := fun _ hx => p.erased_step b h hx
  ticket := fun _ hu hev hmap => p.ticket_step k b h hu hev hmap
  order := p.order_step k b h

theorem run {acts : List Action} (h : Run CellManager.step NoStaleDel {} acts s) : s.Protocol := by
  refine (h.invariant (fun s => s.Base ∧ s.Tickets ∧ s.Protocol) ⟨.init, .init, .init⟩ ?_).2.2
  rintro s a t ⟨b, k, p⟩ hok hstep
  have h := step_sound hstep
  exact ⟨b.step h, k.step b h hok, p.step k b h⟩

end Protocol
end CellManager

/-- In every run that adds no connection under a descriptor with a deletion pending, `OnConnect`
comes first and once, `OnDisconnect` last and once, and only after the end of this connection was
seen. -/
theorem callback_protocol {acts : List Action} {s : CellManager}
    (hrun : Run CellManager.step CellManager.NoStaleDel {} acts s) (c : ℕ) :
    OrderKept (s.trace c) (s.seen c) :=
  (CellManager.Protocol.run hrun).order c

/-- A frame is read from a connection before it hangs up and is deleted. -/
def readThenHangUp : List Action :=
  connectOn5 ++ [.arrive 0 [1, 0, 0, 0, 1, 0, 0, 0, 7],
    .epollWait [⟨5, 0, { epollIn := true }⟩], .doEvent,
    .read (.data [1, 0, 0, 0, 1, 0, 0, 0, 7]) (fun _ _ _ => true),
    .doSend fun _ => .fail, .doEvent] ++
  toWait ++ [.fin 0] ++ hangUp 5 0 ++ deletion

theorem callback_protocol_read_then_hangUp :
    ∃ s, Run CellManager.step CellManager.NoStaleDel {} readThenHangUp s ∧
      s.trace 0 = [.onConnect, .onRecvData, .onDisconnect] ∧ OrderKept (s.trace 0) (s.seen 0) := by
  have htrace : (exec (fun s a => if CellManager.insertTest 0 .del s a then s.step a else none) {}
      readThenHangUp).map (fun s => s.trace 0) = some [.onConnect, .onRecvData, .onDisconnect] := by
    decide +kernel
  obtain ⟨s, hs, htrace⟩ := Option.map_eq_some_iff.mp htrace
  have hrun : Run CellManager.step CellManager.NoStaleDel {} readThenHangUp s :=
    CellManager.run_of_test (CellManager.insertTest 0 .del) rfl
      (fun _ _ _ hidle h => CellManager.onInsert_of_test hidle h) hs
  exact ⟨s, hrun, htrace, callback_protocol hrun 0⟩

/-- The second deletion of the first connection on a descriptor disconnects the next one, which was
never connected and whose end was never seen. -/
theorem stale_deletion_disconnects :
    ∃ s, Run CellManager.step anyStep {} (twoDeletions ++ acceptOn 5 ++ deletion) s ∧
      s.trace 1 = [.onDisconnect] ∧ s.seen 1 = false ∧
      ¬ OrderKept (s.trace 1) (s.seen 1) := by
  have htrace : (exec CellManager.step {} (twoDeletions ++ acceptOn 5 ++ deletion)).map (fun s =>
      (s.trace 1, s.seen 1)) = some ([.onDisconnect], false) := by decide +kernel
  obtain ⟨s, hs, htrace⟩ := Option.map_eq_some_iff.mp htrace
  obtain ⟨htrace, hseen⟩ := Prod.mk.inj htrace
  refine ⟨s, .of_exec (fun _ _ _ => trivial) hs, htrace, hseen, ?_⟩
  rw [htrace, hseen]
  rintro (h | ⟨mid, -, h⟩ | ⟨-, h⟩)
  · cases h
  · cases h
  · cases h

end TcpLib
