import TcpLib.SendOrder
import TcpLib.Lib.Components

/-!
# tcpServer

A server has two cell managers for each processor, and two more. The thread that accepts gives a new
connection to the manager that its descriptor selects, and `SendData` goes to the manager that the
number of its client selects. Everything else a manager does by itself, so a run of the server is a
run of each of its managers, and no two of them ever work on the same descriptor.
-/

namespace TcpLib
open Components Transition SlotQueue

/-- The events that the loop thread has in hand. -/
def LoopPc.inHand : LoopPc → List EpollEvent
  | .events es => es
  | .recv _ e es | .write e es => e :: es
  | _ => []

namespace CellManager

/-- What is accepted, and what is sent to, has a descriptor in `P`. -/
def Admits (P : ℕ → Prop) : CellManager → Action → Prop
  | _, .accept fd => P fd
  | _, .sendLookup _ fd _ => P fd
  | _, _ => True

/-- Everything a manager works on has a descriptor in `P`. -/
structure Within (P : ℕ → Prop) (s : CellManager) : Prop where
  name : ∀ c < s.reg.next, P (s.reg.name c)
  task : ∀ u, s.Pending u → P u.clientid
  event : ∀ e ∈ s.loop.inHand, P e.fd

variable {P : ℕ → Prop} {s t : CellManager} {a : Action}

namespace Within

theorem init : Within P {} where
  name := nofun
  task := fun _ hu => absurd hu (not_pending_first {} rfl)
  event := List.forall_mem_nil _

theorem map (w : s.Within P) (b : s.Base) {n c : ℕ} (h : s.reg.map n = some c) : P n := by
  obtain ⟨hname, hlatest⟩ := b.reg.map n c h
  rw [← hname]
  exact w.name c (b.reg.lt_next hlatest.1)

theorem table (w : s.Within P) (b : s.Base) {n c : ℕ} (h : s.reg.table n = some c) : P n := by
  obtain ⟨hname, hlt, -⟩ := b.reg.table n c h
  rw [← hname]
  exact w.name c hlt

theorem name_step (w : s.Within P) (h : Step s a t) (hok : Admits P s a) :
    ∀ c < t.reg.next, P (t.reg.name c) := by
  cases h with
  | accept fd hpc =>
    intro c hc
    by_cases hnew : c = s.reg.next
    · subst hnew
      rw [show (s.reg.accept fd).name s.reg.next = fd from Function.update_self ..]
      exact hok
    · have hlt : c < s.reg.next := Nat.lt_of_le_of_ne (Nat.le_of_lt_succ hc) hnew
      rw [Registry.accept_name hlt]
      exact w.name c hlt
  | _ => exact w.name

theorem task_step (w : s.Within P) (b : s.Base) (h : Step s a t) (hok : Admits P s a) :
    ∀ u, t.Pending u → P u.clientid := by
  intro u hu
  rcases pending_step h hu with hold | hcreated
  · exact w.task u hold
  · cases hcreated with
    | add buf ev ip port _ hpc => exact w.name _ (b.accepted hpc)
    | send => exact hok
    | lost ct _ hpc => exact w.task ct (Or.inr (Or.inr (by rw [hpc]; exact List.mem_singleton_self _)))
    | hangup e es _ hpc => exact w.event e (by rw [hpc]; exact List.mem_cons_self)
    | closed r hub c d e es _ hpc =>
      have hfound : s.loop.found = some c := by rw [hpc]; rfl
      have hlt := b.found_lt hfound
      rw [b.fd c hlt]
      exact w.name c (b.reg.lt_next hlt)

theorem event_step (w : s.Within P) (b : s.Base) (h : Step s a t) : ∀ e ∈ t.loop.inHand, P e.fd := by
  have hsame {es : List EpollEvent} (hpc : s.loop.inHand = es) : ∀ e ∈ es, P e.fd := hpc ▸ w.event
  have hnone : ∀ e ∈ ([] : List EpollEvent), P e.fd := List.forall_mem_nil _
  cases h with
  | epollWait es hpc hes => exact fun e he => w.table b (hes e he).1
  | hangup e es hpc | writeSkip writes e es hpc | write writes e es c d o hpc =>
    exact fun e' he => w.event e' (by rw [hpc]; exact List.mem_cons_of_mem _ he)
  | recvStart e es c hpc | recvSkip e es hpc | readClosed r hub c d e es hpc =>
    exact hsame (by rw [hpc]; rfl)
  | read r hub c d e es o pc hpc hd hlegal hok ho hnext hpc' =>
    have hhand : pc.inHand = e :: es := by rcases hpc' with rfl | rfl <;> rfl
    change ∀ e ∈ pc.inHand, P e.fd
    rw [hhand]
    exact hsame (by rw [hpc]; rfl)
  | popTask | popNone | addLost | addFound | sendDropped | sendStored | delNone | delFound | close |
    erase | notify | checkWrite | eventsEnd => exact hnone
  | _ => exact w.event

theorem step (w : s.Within P) (b : s.Base) (h : Step s a t) (hok : Admits P s a) : t.Within P where
  name := w.name_step h hok
  task := w.task_step b h hok
  event := w.event_step b h

theorem run {acts : List Action} (h : Run CellManager.step (Admits P) {} acts s) : s.Within P := by
  have hinv := h.invariant (fun s => s.Base ∧ s.Within P) ⟨.init, .init⟩ ?_
  · exact hinv.2
  · rintro s a t ⟨b, w⟩ hok hstep
    have h := step_sound hstep
    exact ⟨b.step h, w.step b h hok⟩

end Within
end CellManager

/-! ## The server -/

/-- The number of cell managers on a machine with `cpuN` processors. -/
def loopnum (cpuN : ℕ) : ℕ := cpuN * 2 + 2

instance (cpuN : ℕ) : NeZero (loopnum cpuN) := ⟨Nat.succ_ne_zero _⟩

/-- `m_CellManager` -/
abbrev TcpServer (cpuN : ℕ) := Fin (loopnum cpuN) → CellManager

/-- `CurrCellManager` -/
def currCellManager (cpuN clientid : ℕ) : Fin (loopnum cpuN) :=
  ⟨clientid % loopnum cpuN, Nat.mod_lt _ (Nat.succ_pos _)⟩

def AcceptPc.isIdle : AcceptPc → Bool
  | .idle => true
  | _ => false

/-- `HandleAccept` up to `addTask`, a call of `SendData`, or a step of a manager and its threads. -/
inductive ServerAction (cpuN : ℕ)
  | handleAccept (clientid : ℕ)
  | sendData (i clientid : ℕ) (bytes : List UInt8)
  | inner (m : Fin (loopnum cpuN)) (a : Action)

def Action.isInner : Action → Bool
  | .accept _ | .sendLookup _ _ _ => false
  | _ => true

variable {cpuN : ℕ}

/-- The manager that takes the action, and what it does. -/
def ServerAction.dispatch : ServerAction cpuN → Fin (loopnum cpuN) × Action
  | .handleAccept clientid => (currCellManager cpuN clientid, .accept clientid)
  | .sendData i clientid bytes => (currCellManager cpuN clientid, .sendLookup i clientid bytes)
  | .inner m a => (m, a)

namespace TcpServer

/-- One thread accepts, and the kernel gives it a descriptor that is free in the whole process. A
thread is in one call of `SendData` at a time. -/
def Enabled (s : TcpServer cpuN) : ServerAction cpuN → Prop
  | .handleAccept clientid => ∀ m, (s m).acceptor.isIdle ∧ (s m).reg.table clientid = none
  | .sendData i _ _ => ∀ m, ((s m).sender i).isIdle
  | .inner _ a => a.isInner

instance (s : TcpServer cpuN) (a : ServerAction cpuN) : Decidable (s.Enabled a) := by
  cases a <;> unfold Enabled <;> infer_instance

def step (s : TcpServer cpuN) (a : ServerAction cpuN) : Option (TcpServer cpuN) :=
  if s.Enabled a then stepOf CellManager.step s a.dispatch else none

def init : TcpServer cpuN := fun _ => {}

variable {s t : TcpServer cpuN} {a : ServerAction cpuN} {acts : List (ServerAction cpuN)}

theorem step_eq_some (h : s.step a = some t) :
    s.Enabled a ∧ stepOf CellManager.step s a.dispatch = some t := by
  unfold step at h
  split_ifs at h with hen
  exact ⟨hen, h⟩

theorem admits_dispatch (hen : s.Enabled a) :
    CellManager.Admits (fun fd => currCellManager cpuN fd = a.dispatch.1) (s a.dispatch.1)
      a.dispatch.2 := by
  cases a with
  | handleAccept fd => rfl
  | sendData i fd bytes => rfl
  | inner m a =>
    cases a with
    | accept | sendLookup => cases hen
    | _ => exact trivial

/-- Each manager takes the actions that it is given, and accepts and looks up only its own
descriptors. -/
theorem run_manager {ok : TcpServer cpuN → ServerAction cpuN → Prop} (h : Run step ok init acts s)
    (m : Fin (loopnum cpuN)) :
    Run CellManager.step (CellManager.Admits fun fd => currCellManager cpuN fd = m) {}
      (actionsOf m (acts.map ServerAction.dispatch)) (s m) := by
  refine run_component (fun m => CellManager.Admits fun fd => currCellManager cpuN fd = m) ?_ h m
  intro s a t _ hstep
  obtain ⟨hen, hlocal⟩ := step_eq_some hstep
  exact ⟨hlocal, admits_dispatch hen⟩

end TcpServer

namespace CellManager
variable {s t : CellManager} {a : Action}

/-- No other action brings the accepting thread to a manager. -/
theorem acceptor_isIdle (h : Step s a t) (ha : ∀ fd, a ≠ .accept fd) (hs : s.acceptor.isIdle) :
    t.acceptor.isIdle := by
  have hnone : s.push? .acceptor = none := by
    cases hpc : s.acceptor with
    | idle => simp [push?, hpc]
    | accepted | pushing => simp [hpc, AcceptPc.isIdle] at hs
  have hparty {party : Party} {p : Push} (hp : s.push? party = some p) : party ≠ .acceptor := by
    rintro rfl
    rw [hnone] at hp
    cases hp
  cases h with
  | accept fd => exact absurd rfl (ha fd)
  | insert buf ev ip port hpc => simp [hpc, AcceptPc.isIdle] at hs
  | pushFull party p hp | pushPublish party p q hp => simpa [endPush, hparty hp] using hs
  | pushRoom party p hp | pushReserve party p hp => simpa [setPush, hparty hp] using hs
  | _ => exact hs

end CellManager

namespace TcpServer
variable {s t : TcpServer cpuN} {a : ServerAction cpuN} {acts : List (ServerAction cpuN)}

/-- No two managers share a descriptor, a connection or a thread. -/
structure Isolated (s : TcpServer cpuN) : Prop where
  within : ∀ m, (s m).Within fun fd => currCellManager cpuN fd = m
  openOnce : ∀ m c m' c', c < (s m).reg.next → c' < (s m').reg.next → (s m).reg.Open c →
    (s m').reg.Open c' → (s m).reg.name c = (s m').reg.name c' → m = m' ∧ c = c'
  accepting : Exclusive (fun c => c.acceptor.isIdle = false) s
  sending : ∀ i, Exclusive (fun c => (c.sender i).isIdle = false) s

theorem accepting_step (hs : Exclusive (fun c : CellManager => c.acceptor.isIdle = false) s)
    (h : s.step a = some t) : Exclusive (fun c => c.acceptor.isIdle = false) t := by
  obtain ⟨hen, hlocal⟩ := step_eq_some h
  obtain ⟨u, hu, rfl⟩ := stepOf_eq_some hlocal
  refine hs.update fun hbusy => ?_
  have hother (ha : ∀ fd, a.dispatch.2 ≠ .accept fd) : (s a.dispatch.1).acceptor.isIdle = false := by
    by_contra hidle
    have hstep := CellManager.step_sound hu
    rw [CellManager.acceptor_isIdle hstep ha (Bool.eq_true_of_not_eq_false hidle)] at hbusy
    cases hbusy
  cases a with
  | handleAccept fd =>
    refine Or.inr fun m => ?_
    rw [(hen m).1]
    nofun
  | sendData i fd bytes => exact Or.inl (hother nofun)
  | inner m a =>
    refine Or.inl (hother ?_)
    rintro fd rfl
    cases hen

theorem sending_step {i : ℕ} (hs : Exclusive (fun c : CellManager => (c.sender i).isIdle = false) s)
    (h : s.step a = some t) : Exclusive (fun c => (c.sender i).isIdle = false) t := by
  obtain ⟨hen, hlocal⟩ := step_eq_some h
  obtain ⟨u, hu, rfl⟩ := stepOf_eq_some hlocal
  refine hs.update fun hbusy => ?_
  have hother (ha : ∀ fd bytes, a.dispatch.2 ≠ .sendLookup i fd bytes) :
      ((s a.dispatch.1).sender i).isIdle = false := by
    by_contra hidle
    have hstep := CellManager.step_sound hu
    rw [CellManager.sender_isIdle hstep ha (Bool.eq_true_of_not_eq_false hidle)] at hbusy
    cases hbusy
  cases a with
  | handleAccept fd => exact Or.inl (hother nofun)
  | sendData j fd bytes =>
    by_cases hij : j = i
    · subst hij
      refine Or.inr fun m => ?_
      rw [hen m]
      nofun
    · refine Or.inl (hother ?_)
      rintro fd' bytes' ⟨⟩
      exact hij rfl
  | inner m a =>
    refine Or.inl (hother ?_)
    rintro fd bytes rfl
    cases hen

theorem open_once (hs : ∀ m, (s m).Within fun fd => currCellManager cpuN fd = m)
    {m m' : Fin (loopnum cpuN)} {c c' : ℕ} (hc : c < (s m).reg.next) (hc' : c' < (s m').reg.next)
    (hopen : (s m).reg.Open c) (hopen' : (s m').reg.Open c')
    (hname : (s m).reg.name c = (s m').reg.name c') : m = m' ∧ c = c' := by
  have hm := (hs m).name c hc
  have hm' := (hs m').name c' hc'
  obtain rfl : m = m' := by rw [← hm, ← hm', hname]
  exact ⟨rfl, Registry.open_unique hopen hopen' hname⟩

end TcpServer

/-- In every run of the server a manager works only on descriptors that select it, no two open
connections of the server have the same one, and the thread that accepts and every thread that sends
are with one manager at a time. -/
theorem managers_isolated {cpuN : ℕ} {acts : List (ServerAction cpuN)} {s : TcpServer cpuN}
    (h : Run TcpServer.step anyStep TcpServer.init acts s) : s.Isolated := by
  have hwithin (m : Fin (loopnum cpuN)) : (s m).Within fun fd => currCellManager cpuN fd = m :=
    .run (TcpServer.run_manager h m)
  have hfirst : TcpServer.Isolated (TcpServer.init : TcpServer cpuN) := {
    within := fun _ => .init
    openOnce := nofun
    accepting := nofun
    sending := nofun }
  have haccepting : Exclusive (fun c : CellManager => c.acceptor.isIdle = false) s :=
    h.invariant _ hfirst.accepting fun _ _ _ hs _ hstep => TcpServer.accepting_step hs hstep
  have hsending (i : ℕ) : Exclusive (fun c : CellManager => (c.sender i).isIdle = false) s :=
    h.invariant _ (hfirst.sending i) fun _ _ _ hs _ hstep => TcpServer.sending_step hs hstep
  exact ⟨hwithin, fun _ _ _ _ hc hc' => TcpServer.open_once hwithin hc hc', haccepting, hsending⟩

def inManager {cpuN : ℕ} (m : Fin (loopnum cpuN)) (acts : List Action) : List (ServerAction cpuN) :=
  acts.map (.inner m)

/-- Two clients connect, to two managers. One thread sends to both, and another one to the first. -/
def twoClients : List (ServerAction 1) := List.flatten [
  [.handleAccept 5], inManager 1 (connectOn5.drop 1), [.handleAccept 6, .sendData 0 5 [42]],
  inManager 1 (pushBy (.sender 0)), inManager 1 [.sendReturn 0 0],
  inManager 2 [.insert (fun _ => 0) {} "" 0], [.sendData 0 6 [43]],
  inManager 2 (pushBy .acceptor), inManager 2 (pushBy (.sender 0)), [.sendData 1 5 [44]],
  inManager 1 (pushBy (.sender 1)), inManager 1 [.epollWait [], .doEvent],
  inManager 1 (handleNext ++ handleNext)]

theorem twoClients_run :
    ∃ s, Run TcpServer.step anyStep TcpServer.init twoClients s ∧ (s 1).reg.table 5 = some 0 ∧
      (s 2).reg.table 6 = some 0 ∧ (s 1).unsent 0 = [42, 44] := by
  have hexec : (exec TcpServer.step TcpServer.init twoClients).map (fun s =>
      ((s 1).reg.table 5, (s 2).reg.table 6, (s 1).unsent 0)) = some (some 0, some 0, [42, 44]) := by
    decide +kernel
  obtain ⟨s, hs, heq⟩ := Option.map_eq_some_iff.mp hexec
  obtain ⟨h5, h6, hunsent⟩ := Prod.mk.inj heq |>.imp_right Prod.mk.inj
  exact ⟨s, .of_exec (fun _ _ _ => trivial) hs, h5, h6, hunsent⟩

theorem managers_isolated_two_clients :
    ∃ s, Run TcpServer.step anyStep TcpServer.init twoClients s ∧ (s 1).reg.table 5 = some 0 ∧
      (s 2).reg.table 6 = some 0 ∧ s.Isolated := by
  obtain ⟨s, hrun, h5, h6, -⟩ := twoClients_run
  exact ⟨s, hrun, h5, h6, managers_isolated hrun⟩

/-! ## Calls of `SendData` -/

namespace TcpServer
variable {cpuN : ℕ} {s t : TcpServer cpuN} {acts : List (ServerAction cpuN)}

def sendCall? : ServerAction cpuN → Option ThreadCall
  | .sendData i clientid bytes => some ⟨i, ⟨clientid, bytes⟩⟩
  | _ => none

/-- The calls of `SendData` in a run, in the order they were made in. -/
def sendCalls (acts : List (ServerAction cpuN)) : List ThreadCall := acts.filterMap sendCall?

theorem sendCall?_dispatch {a : ServerAction cpuN} (hen : s.Enabled a) :
    a.dispatch.2.sendCall? = sendCall? a := by
  cases a with
  | handleAccept | sendData => rfl
  | inner m a =>
    cases a with
    | accept | sendLookup => cases hen
    | _ => rfl

/-- A manager gets its calls in the order they were made in. -/
theorem sendCalls_manager {ok : TcpServer cpuN → ServerAction cpuN → Prop} (h : Run step ok init acts s)
    (m : Fin (loopnum cpuN)) :
    (TcpLib.sendCalls (actionsOf m (acts.map ServerAction.dispatch))).Sublist (sendCalls acts) := by
  induction h with
  | nil => exact .slnil
  | @snoc acts a s t _ hok hstep ih =>
    obtain ⟨hen, -⟩ := step_eq_some hstep
    rw [List.map_append, actionsOf_append, TcpLib.sendCalls, List.filterMap_append, sendCalls,
      List.filterMap_append]
    refine ih.append ?_
    have hcall := sendCall?_dispatch hen
    unfold actionsOf
    by_cases hm : a.dispatch.1 = m
    · simp [hm, List.filterMap_cons, hcall]
    · simp [hm]

end TcpServer

/-- In every run of the server the bytes that reach the socket of a connection, and those that wait in
its ring, are those of calls of `SendData` with its number. No call is sent twice, and the calls of
one thread are sent in the order it made them. -/
theorem server_sends_follow_calls {cpuN : ℕ} {acts : List (ServerAction cpuN)} {s : TcpServer cpuN}
    (h : Run TcpServer.step anyStep TcpServer.init acts s) (m : Fin (loopnum cpuN)) (c : ℕ) :
    (s m).FollowsCalls (TcpServer.sendCalls acts) c :=
  (CellManager.followsCalls_run (TcpServer.run_manager h m) c).of_sublist
    (TcpServer.sendCalls_manager h m)

theorem server_sends_follow_calls_two_clients :
    ∃ s, Run TcpServer.step anyStep TcpServer.init twoClients s ∧ (s 1).unsent 0 = [42, 44] ∧
      (s 1).FollowsCalls (TcpServer.sendCalls twoClients) 0 := by
  obtain ⟨s, hrun, -, -, hunsent⟩ := twoClients_run
  exact ⟨s, hrun, hunsent, server_sends_follow_calls hrun 1 0⟩

end TcpLib
