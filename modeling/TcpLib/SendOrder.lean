import TcpLib.Teardown

/-!
# The order of the sends of one thread

Every payload keeps the thread and the call of `senddata` that it was copied for. On their way to the
socket payloads are never reordered: those stored for a connection, then the one in the hand of the
loop thread, then those in the queue are in an order in which the payloads of each thread come in
the order of its calls. A payload is stored only for a connection that has the descriptor its call
named.
-/

namespace TcpLib
open SlotQueue CircularBuffer Transition

def CellTask.payload? (u : CellTask) : Option Payload := u.sC.map SendCell.toPayload

namespace CellManager

/-- What a party is going to fill its slot with. -/
def pushTask (s : CellManager) (party : Party) : Option CellTask := (s.push? party).map Push.task

/-- The tasks with a place in the queue and the one that was taken from it, oldest first. -/
def taskLine (s : CellManager) : List CellTask := s.loop.tasks ++ resolve s.pushTask s.cellTask

/-- Their payloads. -/
def line (s : CellManager) : List Payload := s.taskLine.filterMap CellTask.payload?

variable {s t : CellManager} {a : Action} {u : CellTask} {party : Party} {p p' : Push} {c x : ℕ}

/-! ## Pushes -/

/-- Where the push of a party comes from. -/
inductive PushStep (s t : CellManager) (a : Action) (party : Party) (p' : Push) : Prop
  | same (p : Push) : s.push? party = some p → p'.task = p.task →
      (p'.stage ≠ .publish → p.stage ≠ .publish ∧ a ≠ .pushReserve party) → PushStep s t a party p'
  | send (i fd : ℕ) (bytes : List UInt8) (c : ℕ) : a = .sendLookup i fd bytes → party = .sender i →
      s.reg.map fd = some c →
      p' = ⟨⟨.send, fd, c, some ⟨⟨s.nextId, c, bytes⟩, 0⟩⟩, .test⟩ → PushStep s t a party p'
  | other : p'.task.sC = none → PushStep s t a party p'

theorem PushStep.of_eq (hp : t.push? party = some p') (hpush : t.push? party = s.push? party)
    (ha : ∀ q, a ≠ .pushReserve q) : PushStep s t a party p' :=
  .same p' (hpush ▸ hp) rfl fun h => ⟨h, ha party⟩

theorem PushStep.of_acceptor (hp : t.push? party = some p') (hdel : t.delPush = s.delPush)
    (hsend : t.sender = s.sender) (hnew : ∀ p, t.acceptor.push? = some p → p.task.sC = none)
    (ha : ∀ q, a ≠ .pushReserve q) : PushStep s t a party p' := by
  by_cases hparty : party = .acceptor
  · subst hparty
    exact .other (hnew p' hp)
  · refine .of_eq hp ?_ ha
    rw [push?_acceptor hdel hsend, if_neg hparty]

theorem PushStep.of_sender {i : ℕ} {pc : SenderPc} (hp : t.push? party = some p')
    (hacc : t.acceptor = s.acceptor) (hdel : t.delPush = s.delPush)
    (hsend : t.sender = Function.update s.sender i pc) (ha : ∀ q, a ≠ .pushReserve q)
    (hnew : party = .sender i → pc.push? = some p' → PushStep s t a party p') :
    PushStep s t a party p' := by
  have hpush := push?_sender hacc hdel hsend party
  split_ifs at hpush with hparty
  · exact hnew hparty (hpush ▸ hp)
  · exact .of_eq hp hpush ha

theorem PushStep.of_delTask {s₀ : CellManager} {fd : ℕ} (hp : (s₀.delTask fd c).push? party = some p')
    (hacc : s₀.acceptor = s.acceptor) (hsend : s₀.sender = s.sender) (ha : ∀ q, a ≠ .pushReserve q) :
    PushStep s (s₀.delTask fd c) a party p' := by
  have hpush := @push?_delTask s s₀ fd c hacc hsend party
  split_ifs at hpush with hparty
  · obtain rfl := Option.some.inj (hpush.symm.trans hp)
    exact .other rfl
  · exact .of_eq hp hpush ha

theorem push_step (h : Step s a t) (hp : t.push? party = some p') : PushStep s t a party p' := by
  cases h with
  | accept fd hpc => exact .of_acceptor hp rfl rfl nofun nofun
  | insert buf ev ip port hpc =>
    refine .of_acceptor hp rfl rfl ?_ nofun
    intro p hp
    obtain rfl := Option.some.inj hp
    rfl
  | pushFull q r hr hstage =>
    rw [push?_endPush _ hr] at hp
    split_ifs at hp
    exact .same p' hp rfl fun h => ⟨h, nofun⟩
  | pushRoom q r hr hstage =>
    rw [push?_setPush hr] at hp
    split_ifs at hp with hq
    · obtain rfl := Option.some.inj hp
      subst hq
      exact .same r hr rfl fun _ => ⟨by rw [hstage]; nofun, nofun⟩
    · exact .same p' hp rfl fun h => ⟨h, nofun⟩
  | pushReserve q r hr hstage =>
    rw [push?_setPush (s := { s with cellTask := reserve s.cellTask q }) hr] at hp
    split_ifs at hp with hq
    · obtain rfl := Option.some.inj hp
      subst hq
      exact .same r hr rfl fun h => absurd rfl h
    · exact .same p' hp rfl fun h => ⟨h, fun heq => hq (Action.pushReserve.inj heq).symm⟩
  | pushPublish q r slots hr hfill =>
    rw [push?_endPush (s := { s with cellTask := slots }) _ hr] at hp
    split_ifs at hp
    exact .same p' hp rfl fun h => ⟨h, nofun⟩
  | sendLost i fd bytes hpc hmap => exact .of_sender hp rfl rfl rfl nofun nofun
  | sendFound i fd bytes c hpc hmap =>
    refine .of_sender hp rfl rfl rfl nofun fun hparty hnew => ?_
    exact .send i fd bytes c rfl hparty hmap (Option.some.inj hnew).symm
  | sendReturn i ret call payload code hpc => exact .of_sender hp rfl rfl rfl nofun nofun
  | addLost ct hpc hev hdel hmap | hangup e es hpc hdel hhup | readClosed r hub c d e es hpc hdel =>
    exact .of_delTask hp rfl rfl nofun
  | _ => exact .of_eq hp rfl nofun

/-- A push that is not of the party that moves goes on as it was. -/
theorem push?_kept_sender {i : ℕ} {pc : SenderPc} (hacc : t.acceptor = s.acceptor)
    (hdel : t.delPush = s.delPush) (hsend : t.sender = Function.update s.sender i pc)
    (hnone : s.push? (.sender i) = none) (hp : s.push? party = some p) : t.push? party = some p := by
  have hne : party ≠ .sender i := by
    rintro rfl
    rw [hnone] at hp
    cases hp
  rw [push?_sender hacc hdel hsend, if_neg hne, hp]

theorem push?_kept_acceptor (hdel : t.delPush = s.delPush) (hsend : t.sender = s.sender)
    (hnone : s.push? .acceptor = none) (hp : s.push? party = some p) : t.push? party = some p := by
  have hne : party ≠ .acceptor := by
    rintro rfl
    rw [hnone] at hp
    cases hp
  rw [push?_acceptor hdel hsend, if_neg hne, hp]

theorem push?_kept_delTask {s₀ : CellManager} {fd : ℕ} (hacc : s₀.acceptor = s.acceptor)
    (hsend : s₀.sender = s.sender) (hnone : s.push? .loop = none) (hp : s.push? party = some p) :
    (s₀.delTask fd c).push? party = some p := by
  have hne : party ≠ .loop := by
    rintro rfl
    rw [hnone] at hp
    cases hp
  rw [push?_delTask hacc hsend, if_neg hne, hp]

/-! ## The line of payloads -/

/-- Only the parties that have a slot in the queue matter. -/
theorem taskLine_of_eq (hs : s.SlotsOwned) (hloop : t.loop.tasks = s.loop.tasks)
    (hq : t.cellTask = s.cellTask)
    (h : ∀ party, s.publishing party ≠ 0 → t.pushTask party = s.pushTask party) :
    t.taskLine = s.taskLine := by
  unfold taskLine
  rw [hloop, hq, resolve_congr fun party hparty => h party (hs party ▸ hparty)]

theorem publishing_ne_zero (h : s.publishing party ≠ 0) :
    ∃ p, s.push? party = some p ∧ p.stage = .publish := by
  unfold publishing at h
  cases hp : s.push? party with
  | none => simp [hp] at h
  | some p =>
    refine ⟨p, rfl, ?_⟩
    by_contra hstage
    simp [hp, hstage] at h

theorem publishing_le_one (s : CellManager) (party : Party) : s.publishing party ≤ 1 := by
  unfold publishing
  cases s.push? party with
  | none => exact Nat.zero_le _
  | some p =>
    rw [Option.toList_some, List.countP_singleton]
    split_ifs <;> omega

/-- What a step does to the tasks in the line. -/
inductive LineStep (s t : CellManager) (a : Action) : Prop
  | same : a ≠ .handle → t.taskLine = s.taskLine → LineStep s t a
  | reserved (party : Party) (p : Push) : a = .pushReserve party → s.push? party = some p →
      p.stage = .reserve → t.taskLine = s.taskLine ++ [p.task] → LineStep s t a
  | handled (ct : CellTask) : s.loop = .task ct → s.taskLine = ct :: t.taskLine → LineStep s t a

theorem line_step (hs : s.SlotsOwned) (h : Step s a t) : LineStep s t a := by
  have hkeep (ha : a ≠ .handle) (hloop : t.loop.tasks = s.loop.tasks) (hq : t.cellTask = s.cellTask)
      (hpush : ∀ party p, s.push? party = some p → p.stage = .publish →
        t.push? party = some p) : LineStep s t a := by
    refine .same ha (taskLine_of_eq hs hloop hq ?_)
    intro party hparty
    obtain ⟨p, hp, hstage⟩ := publishing_ne_zero hparty
    rw [pushTask, pushTask, hp, hpush party p hp hstage]
  have hhandle {ct : CellTask} (hpc : s.loop = .task ct) (hloop : t.loop.tasks = [])
      (hq : t.cellTask = s.cellTask) (hpush : ∀ party p, s.push? party = some p →
        p.stage = .publish → t.push? party = some p) : LineStep s t a := by
    have htasks : s.loop.tasks = [ct] := by rw [hpc]; rfl
    refine .handled ct hpc ?_
    unfold taskLine
    rw [htasks, hloop, hq]
    refine congrArg (ct :: ·) ((resolve_congr fun party hparty => ?_).symm)
    obtain ⟨p, hp, hstage⟩ := publishing_ne_zero (hs party ▸ hparty)
    rw [pushTask, pushTask, hp, hpush party p hp hstage]
  cases h with
  | accept fd hpc | insert buf ev ip port hpc =>
    have hnone : s.push? .acceptor = none := by simp [push?, hpc]
    exact hkeep (by simp) rfl rfl fun party p hp _ => push?_kept_acceptor (s := s) rfl rfl hnone hp
  | pushFull q r hr hstage =>
    refine hkeep (by simp) rfl rfl fun party p hp hpub => ?_
    rw [push?_endPush _ hr, if_neg, hp]
    rintro rfl
    obtain rfl := Option.some.inj (hr.symm.trans hp)
    rw [hstage] at hpub
    cases hpub
  | pushRoom q r hr hstage =>
    refine hkeep (by simp) rfl rfl fun party p hp hpub => ?_
    rw [push?_setPush hr, if_neg, hp]
    rintro rfl
    obtain rfl := Option.some.inj (hr.symm.trans hp)
    rw [hstage] at hpub
    cases hpub
  | pushReserve q r hr hstage =>
    refine .reserved q r rfl hr hstage ?_
    have htask (party : Party) :
        ({ s with cellTask := reserve s.cellTask q }.setPush { r with stage := .publish } q).pushTask
          party = s.pushTask party := by
      rw [pushTask, pushTask, push?_setPush (s := { s with cellTask := reserve s.cellTask q }) hr]
      split_ifs with hq
      · rw [hq, hr]
        rfl
      · rfl
    unfold taskLine
    rw [funext htask]
    change s.loop.tasks ++ resolve s.pushTask (reserve s.cellTask q) = _
    rw [resolve_reserve, List.append_assoc, pushTask, hr]
    rfl
  | pushPublish q r slots hr hfill =>
    have hone : reserved q s.cellTask ≤ 1 := (hs q).trans_le (s.publishing_le_one q)
    have hnone : reserved q slots = 0 := by
      have hleft := reserved_fill hfill q
      rw [if_pos rfl] at hleft
      omega
    refine .same (by simp) ?_
    have hfilled : resolve s.pushTask slots = resolve s.pushTask s.cellTask :=
      resolve_fill hfill hone (by rw [pushTask, hr]; rfl)
    unfold taskLine
    rw [← hfilled]
    refine congrArg (s.loop.tasks ++ ·) (resolve_congr fun party hparty => ?_)
    rw [pushTask, pushTask, push?_endPush (s := { s with cellTask := slots }) _ hr, if_neg]
    · rfl
    · rintro rfl
      exact hparty hnone
  | sendLost i fd bytes hpc | sendFound i fd bytes c hpc | sendReturn i ret call payload code hpc =>
    have hnone : s.push? (.sender i) = none := by simp [push?, hpc]
    exact hkeep (by simp) rfl rfl fun party p hp _ => push?_kept_sender (s := s) rfl rfl rfl hnone hp
  | popTask ct slots hpc hpop =>
    have htasks : s.loop.tasks = [] := by rw [hpc]; rfl
    refine .same (by simp) ?_
    unfold taskLine
    rw [htasks, resolve_pop s.pushTask hpop]
    rfl
  | addLost ct hpc hev hdel =>
    exact hhandle hpc rfl rfl fun party p hp _ => push?_kept_delTask (s := s) rfl rfl hdel hp
  | hangup e es hpc hdel | readClosed r hub c d e es hpc hdel =>
    exact hkeep (by simp) (by rw [hpc]; rfl) rfl fun party p hp _ => push?_kept_delTask (s := s) rfl rfl hdel hp
  | addFound ct c hpc | sendDropped ct hpc | sendStored ct c sc cell hpc | delNone ct hpc
  | delFound ct c hpc => exact hhandle hpc rfl rfl fun party p hp _ => hp
  | arrive | fin | rst => exact hkeep (by simp) rfl rfl fun party p hp _ => hp
  | read r hub c d e es o pc hpc hd hlegal hok ho hnext hpc' =>
    refine hkeep (by simp) ?_ rfl fun party p hp _ => hp
    rw [hpc]
    rcases hpc' with rfl | rfl <;> rfl
  | popNone hpc | close c ids hpc | erase c hpc | notify c hpc | checkWrite hpc | epollWait es hpc
  | eventsEnd hpc | recvStart e es c hpc | recvSkip e es hpc | writeSkip writes e es hpc
  | write writes e es c d o hpc =>
    exact hkeep (by simp) (by rw [hpc]; rfl) rfl fun party p hp _ => hp

/-- A task in the line is queued, in a push or in the hand of the loop thread. -/
theorem mem_taskLine (hs : s.SlotsOwned) (hu : u ∈ s.taskLine) :
    u ∈ s.loop.tasks ∨ u ∈ items s.cellTask ∨
      ∃ party p, s.push? party = some p ∧ p.stage = .publish ∧ p.task = u := by
  rcases List.mem_append.mp hu with hu | hu
  · exact Or.inl hu
  · rcases mem_resolve hu with hu | ⟨party, hparty, hu⟩
    · exact Or.inr (Or.inl hu)
    · obtain ⟨p, hp, hstage⟩ := publishing_ne_zero (hs party ▸ hparty)
      rw [pushTask, hp] at hu
      exact Or.inr (Or.inr ⟨party, p, hp, hstage, Option.some.inj hu⟩)

theorem pending_of_mem_taskLine (hs : s.SlotsOwned) (hu : u ∈ s.taskLine) : s.Pending u := by
  rcases mem_taskLine hs hu with hu | hu | ⟨party, p, hp, -, hu⟩
  · exact Or.inr (Or.inr hu)
  · exact Or.inr (Or.inl hu)
  · exact Or.inl ⟨party, p, hp, hu⟩

/-- While the loop thread has a task in hand, only handling it changes a cell or a socket's stream. -/
theorem stream_kept_in_task {ct : CellTask} (h : Step s a t) (hpc : s.loop = .task ct)
    (ha : a ≠ .handle) (hx : x ≠ s.reg.inserted) :
    t.cell x = s.cell x ∧ (t.sock x).wire = (s.sock x).wire := by
  cases h with
  | arrive | fin | rst => exact ⟨rfl, proj_update Sock.wire (by rfl) x⟩
  | insert => exact ⟨by simp [hx], rfl⟩
  | addFound | sendStored => exact absurd rfl ha
  | close c ids hpc' => simp [hpc] at hpc'
  | checkWrite hpc' => simp [hpc] at hpc'
  | read r hub c d e es o pc hpc' => simp [hpc] at hpc'
  | write writes e es c d o hpc' => simp [hpc] at hpc'
  | _ => exact ⟨rfl, rfl⟩

/-- What is stored for a connection changes only when a task is handled. -/
theorem Stored.kept {ps : List Payload} (hs : s.Stored x ps) (b : s.Base) (h : Step s a t)
    (htask : ∀ u, s.Pending u → u.Carries) (ha : a ≠ .handle) : t.Stored x ps := by
  rcases hs.step b h htask with hs | ⟨ct, sc, hpc, -, hmap, -⟩
  · exact hs
  · have hlt : x < s.reg.inserted := (b.reg.map _ _ hmap).2.1
    obtain ⟨hcell, hwire⟩ := stream_kept_in_task h hpc ha hlt.ne
    obtain ⟨done, xs, hs, rfl⟩ := hs
    refine ⟨done, xs, ⟨?_, ?_, fun hx => ?_⟩, rfl⟩
    · rw [hcell]
      exact hs.ring
    · rw [hwire, hs.wire]
    · exact hs.unborn ((reg_step_inserted_le b h).trans hx)

end CellManager

/-! ## Calls -/

/-- A call of `senddata` with the thread that makes it. -/
structure ThreadCall where
  thread : ℕ
  call : SendCall
  deriving DecidableEq, Repr

def Action.sendCall? : Action → Option ThreadCall
  | .sendLookup i fd bytes => some ⟨i, ⟨fd, bytes⟩⟩
  | _ => none

/-- The calls of `senddata` in a run, in the order they were made in. -/
def sendCalls (acts : List Action) : List ThreadCall := acts.filterMap Action.sendCall?

namespace CellManager

/-- Every payload has a call it was copied for, and later payloads have later calls. -/
structure CallOf (s : CellManager) (made : List ThreadCall) (pos : ℕ → ℕ) : Prop where
  lt : ∀ id < s.nextId, pos id < made.length
  mono : ∀ id id', id < id' → id' < s.nextId → pos id < pos id'

/-- The payload is a copy for a call of the thread with that descriptor. -/
structure CopyOf (s : CellManager) (made : List ThreadCall) (pos : ℕ → ℕ) (i fd : ℕ) (p : Payload) :
    Prop where
  born : p.id < s.nextId
  call : made[pos p.id]? = some ⟨i, ⟨fd, p.bytes⟩⟩

/-- The thread that a payload was copied for. -/
def thread? (made : List ThreadCall) (pos : ℕ → ℕ) (p : Payload) : Option ℕ :=
  made[pos p.id]?.map ThreadCall.thread

/-- Payloads of one thread in the order of its calls. -/
def InOrder (made : List ThreadCall) (pos : ℕ → ℕ) (p q : Payload) : Prop :=
  ∀ i, thread? made pos p = some i → thread? made pos q = some i → p.id < q.id

variable {s t : CellManager} {a : Action} {party : Party} {c : ℕ}
variable {made made' : List ThreadCall} {pos pos' : ℕ → ℕ} {i fd : ℕ} {q q' : Payload}

theorem CopyOf.thread? (h : s.CopyOf made pos i fd q) : thread? made pos q = some i := by
  rw [CellManager.thread?, h.call]
  rfl

/-- How the calls and their payloads go on in a step. -/
structure CallsStep (s t : CellManager) (made made' : List ThreadCall) (pos pos' : ℕ → ℕ) : Prop where
  made : made <+: made'
  pos : ∀ id < s.nextId, pos' id = pos id
  nextId : s.nextId ≤ t.nextId

theorem CallsStep.get (k : CallsStep s t made made' pos pos') (hc : s.CallOf made pos)
    (hq : q.id < s.nextId) : made'[pos' q.id]? = made[pos q.id]? := by
  have hlt := hc.lt q.id hq
  rw [k.pos _ hq]
  obtain ⟨rest, rfl⟩ := k.made
  exact List.getElem?_append_left hlt

theorem CopyOf.step (h : s.CopyOf made pos i fd q) (hc : s.CallOf made pos)
    (k : CallsStep s t made made' pos pos') : t.CopyOf made' pos' i fd q where
  born := h.born.trans_le k.nextId
  call := by rw [k.get hc h.born, h.call]

theorem CallsStep.thread? (k : CallsStep s t made made' pos pos') (hc : s.CallOf made pos)
    (hq : q.id < s.nextId) : thread? made' pos' q = thread? made pos q := by
  rw [CellManager.thread?, CellManager.thread?, k.get hc hq]

/-- A payload is made by a call that finds a connection, and by nothing else. -/
theorem nextId_step (h : Step s a t) : t.nextId = s.nextId ∧
      (∀ i fd bytes c, a = .sendLookup i fd bytes → s.reg.map fd ≠ some c) ∨
    ∃ i fd bytes c, a = .sendLookup i fd bytes ∧ s.reg.map fd = some c ∧ t.nextId = s.nextId + 1 := by
  cases h with
  | sendFound i fd bytes c hpc hmap => exact Or.inr ⟨i, fd, bytes, c, rfl, hmap, rfl⟩
  | sendLost i fd bytes hpc hmap =>
    refine Or.inl ⟨rfl, ?_⟩
    rintro _ _ _ c ⟨⟩ hsome
    rw [hmap] at hsome
    cases hsome
  | _ => exact Or.inl ⟨rfl, nofun⟩

theorem call_step (h : Step s a t) (hc : s.CallOf made pos) :
    ∃ pos', t.CallOf (made ++ a.sendCall?.toList) pos' ∧
      CallsStep s t made (made ++ a.sendCall?.toList) pos pos' ∧
      ∀ i fd bytes c, a = .sendLookup i fd bytes → s.reg.map fd = some c →
        t.CopyOf (made ++ a.sendCall?.toList) pos' i fd ⟨s.nextId, c, bytes⟩ := by
  rcases nextId_step h with ⟨hnext, hnone⟩ | ⟨i, fd, bytes, c, rfl, hmap, hnext⟩
  · refine ⟨pos, ⟨?_, ?_⟩, ⟨List.prefix_append _ _, fun _ _ => rfl, hnext.ge⟩, ?_⟩
    · intro id hid
      rw [List.length_append]
      exact Nat.lt_add_right _ (hc.lt id (hnext ▸ hid))
    · intro id id' hlt hid'
      exact hc.mono id id' hlt (hnext ▸ hid')
    · intro i fd bytes c ha hmap
      exact absurd hmap (hnone i fd bytes c ha)
  · have hlen : (made ++ [ThreadCall.mk i ⟨fd, bytes⟩]).length = made.length + 1 := List.length_append
    have hold {id : ℕ} (hid : id < s.nextId) : Function.update pos s.nextId made.length id = pos id :=
      Function.update_of_ne hid.ne _ _
    refine ⟨Function.update pos s.nextId made.length, ⟨?_, ?_⟩,
      ⟨List.prefix_append _ _, fun _ hid => hold hid, by omega⟩, ?_⟩
    · intro id hid
      change _ < (made ++ [_]).length
      rw [hlen]
      rcases Nat.lt_or_eq_of_le (Nat.le_of_lt_succ (hnext ▸ hid)) with hid | rfl
      · rw [hold hid]
        exact Nat.lt_succ_of_lt (hc.lt id hid)
      · rw [Function.update_self]
        exact Nat.lt_succ_self _
    · intro id id' hlt hid'
      rcases Nat.lt_or_eq_of_le (Nat.le_of_lt_succ (hnext ▸ hid')) with hid' | rfl
      · rw [hold hid', hold (hlt.trans hid')]
        exact hc.mono id id' hlt hid'
      · rw [hold hlt, Function.update_self]
        exact hc.lt id hlt
    · rintro _ _ _ c' ⟨⟩ hmap'
      refine ⟨by simp [hnext], ?_⟩
      rw [Function.update_self]
      exact List.getElem?_concat_length

/-! ## The order of the payloads -/

/-- The payloads stored for every connection, then those in the line, keep the order of the calls of
every thread. What a thread has not put into the queue yet is behind all of them. -/
structure Ordered (s : CellManager) (made : List ThreadCall) (pos : ℕ → ℕ)
    (store : ℕ → List Payload) : Prop where
  stored : ∀ c, s.Stored c (store c)
  unborn : ∀ c, s.reg.inserted ≤ c → store c = []
  calls : s.CallOf made pos
  pending : ∀ u, s.Pending u → ∀ sc, u.sC = some sc → ∃ i, s.CopyOf made pos i u.clientid sc.toPayload
  pushing : ∀ party p, s.push? party = some p → ∀ sc, p.task.sC = some sc →
    ∃ i, party = .sender i ∧ thread? made pos sc.toPayload = some i
  copies : ∀ c, ∀ p ∈ store c, ∃ i, s.CopyOf made pos i (s.reg.name c) p
  inOrder : ∀ c, (store c ++ s.line).Pairwise (InOrder made pos)
  behind : ∀ party p, s.push? party = some p → p.stage ≠ .publish → ∀ sc, p.task.sC = some sc →
    ∀ c, ∀ q ∈ store c ++ s.line, InOrder made pos q sc.toPayload

variable {store : ℕ → List Payload}

theorem mem_line (hq : q ∈ s.line) : ∃ u ∈ s.taskLine, ∃ sc, u.sC = some sc ∧ sc.toPayload = q := by
  obtain ⟨u, hu, hpayload⟩ := List.mem_filterMap.mp hq
  obtain ⟨sc, hsc, hpayload⟩ := Option.map_eq_some_iff.mp hpayload
  exact ⟨u, hu, sc, hsc, hpayload⟩

theorem line_of_handled {ct : CellTask} (h : s.taskLine = ct :: t.taskLine) :
    s.line = ct.payload?.toList ++ t.line := by
  rw [line, h, List.filterMap_cons]
  cases ct.payload? <;> rfl

/-- What a step does to the payloads of a connection and to the line. -/
inductive StoreStep (s t : CellManager) (a : Action) (c : ℕ) (ps ps' : List Payload) : Prop
  | kept : ps' = ps → t.line.Sublist s.line → StoreStep s t a c ps ps'
  | reserved (party : Party) (p : Push) : ps' = ps → a = .pushReserve party →
      s.push? party = some p → p.stage = .reserve → t.line = s.line ++ p.task.payload?.toList →
      StoreStep s t a c ps ps'
  | stored (ct : CellTask) (sc : SendCell) : s.loop = .task ct → s.reg.map ct.clientid = some c →
      ct.sC = some sc → ps' = ps ++ [sc.toPayload] → s.line = sc.toPayload :: t.line →
      StoreStep s t a c ps ps'

theorem Stored.store_step {ps : List Payload} (hps : s.Stored c ps) (b : s.Base) (hs : s.SlotsOwned)
    (htask : ∀ u, s.Pending u → u.Carries) (h : Step s a t) :
    ∃ ps', t.Stored c ps' ∧ StoreStep s t a c ps ps' := by
  cases line_step hs h with
  | same ha hline =>
    refine ⟨ps, hps.kept b h htask ha, .kept rfl ?_⟩
    rw [line, line, hline]
  | reserved party p ha hp hstage hline =>
    refine ⟨ps, hps.kept b h htask (by rw [ha]; nofun), .reserved party p rfl ha hp hstage ?_⟩
    rw [line, hline, List.filterMap_append]
    cases hpayload : p.task.payload? <;> simp [hpayload, line]
  | handled ct hpc hline =>
    have hhead := line_of_handled hline
    rcases hps.step b h htask with hps | ⟨ct', sc, hpc', hev, hmap, hsc, hps⟩
    · refine ⟨ps, hps, .kept rfl ?_⟩
      rw [hhead]
      exact List.sublist_append_right _ _
    · obtain rfl := LoopPc.task.inj (hpc.symm.trans hpc')
      have hpayload : ct.payload? = some sc.toPayload := by rw [CellTask.payload?, hsc]; rfl
      rw [hpayload] at hhead
      exact ⟨_, hps, .stored ct sc hpc hmap hsc rfl hhead⟩

namespace Ordered

theorem line_copy (o : s.Ordered made pos store) (hs : s.SlotsOwned) (hq : q ∈ s.line) :
    ∃ i fd, s.CopyOf made pos i fd q := by
  obtain ⟨u, hu, sc, hsc, rfl⟩ := mem_line hq
  obtain ⟨i, hcopy⟩ := o.pending u (pending_of_mem_taskLine hs hu) sc hsc
  exact ⟨i, _, hcopy⟩

theorem born (o : s.Ordered made pos store) (hs : s.SlotsOwned) (hq : q ∈ store c ++ s.line) :
    q.id < s.nextId := by
  rcases List.mem_append.mp hq with hq | hq
  · obtain ⟨i, hcopy⟩ := o.copies c q hq
    exact hcopy.born
  · obtain ⟨i, fd, hcopy⟩ := o.line_copy hs hq
    exact hcopy.born

end Ordered

/-- A push that has no place yet was waiting before the step, or its payload is the newest. -/
theorem waiting_step {p' : Push} {sc : SendCell} (h : Step s a t) (hp' : t.push? party = some p')
    (hstage : p'.stage ≠ .publish) (hsc : p'.task.sC = some sc) :
    (∃ p, s.push? party = some p ∧ p.stage ≠ .publish ∧ a ≠ .pushReserve party ∧
      p.task.sC = some sc) ∨ sc.id = s.nextId := by
  cases push_step h hp' with
  | same p hp htask hback =>
    obtain ⟨hold, ha⟩ := hback hstage
    exact Or.inl ⟨p, hp, hold, ha, htask ▸ hsc⟩
  | send i fd bytes c ha hparty hmap hnew =>
    subst hnew
    obtain rfl := Option.some.inj hsc
    exact Or.inr rfl
  | other hnone =>
    rw [hnone] at hsc
    cases hsc

theorem InOrder.step (hpq : InOrder made pos q q') (hc : s.CallOf made pos)
    (k : CallsStep s t made made' pos pos') (hq : q.id < s.nextId) (hq' : q'.id < s.nextId) :
    InOrder made' pos' q q' := by
  intro i hi hi'
  rw [k.thread? hc hq] at hi
  rw [k.thread? hc hq'] at hi'
  exact hpq i hi hi'

/-- A payload behind a connection was there before, or the step gives it its place. -/
theorem StoreStep.mem {ps ps' : List Payload} (h : StoreStep s t a c ps ps') (hq : q ∈ ps' ++ t.line) :
    q ∈ ps ++ s.line ∨ ∃ party p sc, a = .pushReserve party ∧ s.push? party = some p ∧
      p.stage = .reserve ∧ p.task.sC = some sc ∧ sc.toPayload = q := by
  cases h with
  | kept hps hline =>
    rw [hps] at hq
    exact Or.inl ((hline.append_left ps).subset hq)
  | reserved party p hps ha hp hstage hline =>
    rw [hps, hline, ← List.append_assoc] at hq
    rcases List.mem_append.mp hq with hq | hq
    · exact Or.inl hq
    · obtain ⟨sc, hsc, hq⟩ := Option.map_eq_some_iff.mp (Option.mem_toList.mp hq)
      exact Or.inr ⟨party, p, sc, ha, hp, hstage, hsc, hq⟩
  | stored ct sc hpc hmap hsc hps hline =>
    rw [hps, List.append_assoc] at hq
    rw [hline]
    exact Or.inl hq

namespace Ordered

theorem push_copy (o : s.Ordered made pos store) {p : Push} {sc : SendCell}
    (hp : s.push? party = some p) (hsc : p.task.sC = some sc) : sc.id < s.nextId := by
  obtain ⟨i, hcopy⟩ := o.pending p.task (Or.inl ⟨party, p, hp, rfl⟩) sc hsc
  exact hcopy.born

theorem born_step (o : s.Ordered made pos store) (hs : s.SlotsOwned) {ps' : List Payload}
    (hstore : StoreStep s t a c (store c) ps') (hq : q ∈ ps' ++ t.line) : q.id < s.nextId := by
  rcases hstore.mem hq with hq | ⟨party, p, sc, -, hp, -, hsc, rfl⟩
  · exact o.born hs hq
  · exact o.push_copy hp hsc

theorem copies_step (o : s.Ordered made pos store) (b : s.Base) (h : Step s a t)
    (k : CallsStep s t made made' pos pos') {ps' : List Payload}
    (hstore : StoreStep s t a c (store c) ps') (hq : q ∈ ps') :
    ∃ i, t.CopyOf made' pos' i (t.reg.name c) q := by
  have hold (hq : q ∈ store c) : ∃ i, t.CopyOf made' pos' i (t.reg.name c) q := by
    have hlt : c < s.reg.inserted := by
      by_contra hle
      rw [o.unborn c (Nat.le_of_not_lt hle)] at hq
      cases hq
    obtain ⟨i, hcopy⟩ := o.copies c q hq
    rw [reg_step_name b h (b.reg.lt_next hlt)]
    exact ⟨i, hcopy.step o.calls k⟩
  cases hstore with
  | kept hps | reserved party p hps => exact hold (hps ▸ hq)
  | stored ct sc hpc hmap hsc hps =>
    rw [hps] at hq
    rcases List.mem_append.mp hq with hq | hq
    · exact hold hq
    · obtain rfl := List.mem_singleton.mp hq
      have hpending : s.Pending ct := Or.inr (Or.inr (by rw [hpc]; exact List.mem_singleton_self _))
      obtain ⟨i, hcopy⟩ := o.pending ct hpending sc hsc
      obtain ⟨hname, hlatest⟩ := b.reg.map _ _ hmap
      rw [reg_step_name b h (b.reg.lt_next hlatest.1), hname]
      exact ⟨i, hcopy.step o.calls k⟩

theorem inOrder_step (o : s.Ordered made pos store) (hs : s.SlotsOwned)
    (k : CallsStep s t made made' pos pos') {ps' : List Payload}
    (hstore : StoreStep s t a c (store c) ps') : (ps' ++ t.line).Pairwise (InOrder made' pos') := by
  have hold : (store c ++ s.line).Pairwise (InOrder made' pos') :=
    (o.inOrder c).imp_of_mem fun hq hq' hpq => hpq.step o.calls k (o.born hs hq) (o.born hs hq')
  cases hstore with
  | kept hps hline =>
    rw [hps]
    exact hold.sublist (hline.append_left _)
  | reserved party p hps ha hp hstage hline =>
    rw [hps, hline, ← List.append_assoc]
    refine List.pairwise_append.mpr ⟨hold, ?_, ?_⟩
    · cases p.task.payload? <;> simp
    · intro q hq q' hq'
      obtain ⟨sc, hsc, rfl⟩ := Option.map_eq_some_iff.mp (Option.mem_toList.mp hq')
      have hbehind := o.behind party p hp (by rw [hstage]; nofun) sc hsc c q hq
      exact hbehind.step o.calls k (o.born hs hq) (o.push_copy hp hsc)
  | stored ct sc hpc hmap hsc hps hline =>
    rw [hps, List.append_assoc]
    rw [hline] at hold
    exact hold

theorem behind_step (o : s.Ordered made pos store) (hs : s.SlotsOwned) (h : Step s a t)
    (k : CallsStep s t made made' pos pos') {ps' : List Payload}
    (hstore : StoreStep s t a c (store c) ps') {p' : Push} {sc : SendCell}
    (hp' : t.push? party = some p') (hstage : p'.stage ≠ .publish) (hsc : p'.task.sC = some sc)
    (hq : q ∈ ps' ++ t.line) : InOrder made' pos' q sc.toPayload := by
  rcases waiting_step h hp' hstage hsc with ⟨p, hp, hold, ha, hsc⟩ | hnew
  · have hborn := o.push_copy hp hsc
    rcases hstore.mem hq with hq | ⟨party', p₀, sc₀, ha', hp₀, -, hsc₀, rfl⟩
    · exact (o.behind party p hp hold sc hsc c q hq).step o.calls k (o.born hs hq) hborn
    · -- the place goes to another thread
      intro i hi hi'
      obtain ⟨j, rfl, hj⟩ := o.pushing party p hp sc hsc
      obtain ⟨j', rfl, hj'⟩ := o.pushing party' p₀ hp₀ sc₀ hsc₀
      rw [k.thread? o.calls (o.push_copy hp₀ hsc₀), hj'] at hi
      rw [k.thread? o.calls hborn, hj] at hi'
      obtain rfl := (Option.some.inj hi).trans (Option.some.inj hi').symm
      exact absurd ha' ha
  · intro i _ _
    exact (o.born_step hs hstore hq).trans_eq hnew.symm

theorem pending_step (o : s.Ordered made pos store) (h : Step s a t)
    (k : CallsStep s t made made' pos pos')
    (hnew : ∀ i fd bytes c, a = .sendLookup i fd bytes → s.reg.map fd = some c →
      t.CopyOf made' pos' i fd ⟨s.nextId, c, bytes⟩) {u : CellTask} (hu : t.Pending u) {sc : SendCell}
    (hsc : u.sC = some sc) : ∃ i, t.CopyOf made' pos' i u.clientid sc.toPayload := by
  rcases CellManager.pending_step h hu with hold | hcreated
  · obtain ⟨i, hcopy⟩ := o.pending u hold sc hsc
    exact ⟨i, hcopy.step o.calls k⟩
  · cases hcreated with
    | send i fd bytes c _ hmap =>
      obtain rfl := Option.some.inj hsc
      exact ⟨i, hnew i fd bytes c rfl hmap⟩
    | add | lost | hangup | closed => cases hsc

theorem pushing_step (o : s.Ordered made pos store) (h : Step s a t)
    (k : CallsStep s t made made' pos pos')
    (hnew : ∀ i fd bytes c, a = .sendLookup i fd bytes → s.reg.map fd = some c →
      t.CopyOf made' pos' i fd ⟨s.nextId, c, bytes⟩) {p' : Push} (hp' : t.push? party = some p')
    {sc : SendCell} (hsc : p'.task.sC = some sc) :
    ∃ i, party = .sender i ∧ thread? made' pos' sc.toPayload = some i := by
  cases push_step h hp' with
  | same p hp htask =>
    rw [htask] at hsc
    obtain ⟨i, hparty, hi⟩ := o.pushing party p hp sc hsc
    exact ⟨i, hparty, (k.thread? o.calls (o.push_copy hp hsc)).trans hi⟩
  | send i fd bytes c ha hparty hmap hp' =>
    subst hp'
    obtain rfl := Option.some.inj hsc
    exact ⟨i, hparty, (hnew i fd bytes c ha hmap).thread?⟩
  | other hnone =>
    rw [hnone] at hsc
    cases hsc

theorem step (o : s.Ordered made pos store) (b : s.Base) (hs : s.SlotsOwned)
    (htask : ∀ u, s.Pending u → u.Carries) (h : Step s a t) :
    ∃ pos' store', t.Ordered (made ++ a.sendCall?.toList) pos' store' := by
  obtain ⟨pos', hcalls, k, hnew⟩ := call_step h o.calls
  choose store' hstored hstore using fun c => (o.stored c).store_step b hs htask h
  refine ⟨pos', store', hstored, ?_, hcalls, ?_, ?_, ?_, ?_, ?_⟩
  · intro c hc
    have hle : s.reg.inserted ≤ c := (reg_step_inserted_le b h).trans hc
    cases hstore c with
    | kept hps | reserved party p hps => rw [hps, o.unborn c hle]
    | stored ct sc hpc hmap => exact absurd (b.reg.map _ _ hmap).2.1 (Nat.not_lt.mpr hle)
  · exact fun u hu sc hsc => o.pending_step h k hnew hu hsc
  · exact fun party p hp sc hsc => o.pushing_step h k hnew hp hsc
  · exact fun c q hq => o.copies_step b h k (hstore c) hq
  · exact fun c => o.inOrder_step hs k (hstore c)
  · exact fun party p hp hstage sc hsc c q hq => o.behind_step hs h k (hstore c) hp hstage hsc hq

theorem init : Ordered {} [] (fun _ => 0) (fun _ => []) where
  stored := Stored.init
  unborn := fun _ _ => rfl
  calls := ⟨nofun, nofun⟩
  pending := fun _ hu => absurd hu (not_pending_first {} rfl)
  pushing := fun party p hp => absurd (Or.inl ⟨party, p, hp, rfl⟩) (not_pending_first (u := p.task) {} rfl)
  copies := nofun
  inOrder := fun _ => .nil
  behind := fun party p hp => absurd (Or.inl ⟨party, p, hp, rfl⟩) (not_pending_first (u := p.task) {} rfl)

theorem run {ok : CellManager → Action → Prop} {acts : List Action}
    (h : Run CellManager.step ok {} acts s) : ∃ pos store, s.Ordered (sendCalls acts) pos store := by
  have hinv := h.invariant_hist
    (fun acts s => s.Carried ∧ s.SlotsOwned ∧ ∃ pos store, s.Ordered (sendCalls acts) pos store)
    ⟨.init, fun party => by cases party <;> rfl, _, _, .init⟩ ?_
  · exact hinv.2.2
  · rintro acts s a t ⟨k, hs, pos, store, o⟩ _ hstep
    have h := step_sound hstep
    obtain ⟨pos', store', o'⟩ := o.step k.base hs k.carries h
    have hmade : sendCalls (acts ++ [a]) = sendCalls acts ++ a.sendCall?.toList := by
      rw [sendCalls, sendCalls, List.filterMap_append]
      cases hcall : a.sendCall? <;> simp [hcall]
    exact ⟨k.step h, hs.step h, pos', store', hmade ▸ o'⟩

end Ordered

/-- The bytes of a connection that wait in its ring. -/
def unsent (s : CellManager) (c : ℕ) : List UInt8 :=
  ((contents (s.cell c).sendBuf SYSSENDBUF (s.cell c).sendReadPos (s.cell c).sendWritePos).flatMap
    SendCell.unsent).map SentByte.byte

/-- Calls with a descriptor, with their places among all calls: none twice, and the calls of a thread
in the order it made them. -/
structure SentCalls (made : List ThreadCall) (fd : ℕ) (xs : List (ThreadCall × ℕ)) : Prop where
  call : ∀ x ∈ xs, x ∈ made.zipIdx ∧ x.1.call.clientid = fd
  order : xs.Pairwise fun x y => x.2 ≠ y.2 ∧ (x.1.thread = y.1.thread → x.2 < y.2)

/-- What is written for a connection, then what waits in its ring, are the bytes of calls with its
descriptor. -/
def FollowsCalls (s : CellManager) (made : List ThreadCall) (c : ℕ) : Prop :=
  ∃ xs, SentCalls made (s.reg.name c) xs ∧
    (s.sock c).wire.map SentByte.byte ++ s.unsent c = xs.flatMap fun x => x.1.call.bytes

/-- The calls can be looked for among more calls. -/
theorem FollowsCalls.of_sublist (h : s.FollowsCalls made c) (hsub : made.Sublist made') :
    s.FollowsCalls made' c := by
  obtain ⟨xs, ⟨hcalls, horder⟩, hbytes⟩ := h
  obtain ⟨f, hf⟩ := List.sublist_iff_exists_orderEmbedding_getElem?_eq.mp hsub
  refine ⟨xs.map fun x => (x.1, f x.2), ⟨?_, ?_⟩, ?_⟩
  · intro y hy
    obtain ⟨x, hx, rfl⟩ := List.mem_map.mp hy
    obtain ⟨hmem, hfd⟩ := hcalls x hx
    refine ⟨List.mem_zipIdx_iff_getElem?.mpr ?_, hfd⟩
    rw [← List.mem_zipIdx_iff_getElem?.mp hmem]
    exact (hf x.2).symm
  · refine List.pairwise_map.mpr (horder.imp ?_)
    rintro x y ⟨hne, hlt⟩
    exact ⟨fun heq => hne (f.injective heq), fun hthread => f.lt_iff_lt.mpr (hlt hthread)⟩
  · rw [hbytes, List.flatMap_map]

theorem Stored.bytes_eq {ps : List Payload} (hs : s.Stored c ps) :
    (s.sock c).wire.map SentByte.byte ++ s.unsent c = ps.flatMap Payload.bytes := by
  obtain ⟨done, xs, hs, rfl⟩ := hs
  have hall : (s.sock c).wire ++ xs.flatMap SendCell.unsent =
      (done ++ xs.map SendCell.toPayload).flatMap Payload.sent := by
    rw [hs.wire, List.append_assoc, headWritten_append_unsent hs.ring.tail, List.flatMap_append,
      List.flatMap_map]
  rw [unsent, hs.ring.holds.contents_eq, ← List.map_append, hall, List.map_flatMap]
  simp only [Payload.map_byte_sent]

theorem Ordered.followsCalls (o : s.Ordered made pos store) (c : ℕ) : s.FollowsCalls made c := by
  let call (p : Payload) : ThreadCall × ℕ :=
    (⟨(thread? made pos p).getD 0, ⟨s.reg.name c, p.bytes⟩⟩, pos p.id)
  have hcall {p : Payload} (hp : p ∈ store c) :
      made[pos p.id]? = some (call p).1 ∧ thread? made pos p = some (call p).1.thread := by
    obtain ⟨i, hcopy⟩ := o.copies c p hp
    have hi : (call p).1.thread = i := by simp [call, hcopy.thread?]
    refine ⟨?_, hcopy.thread?.trans (congrArg some hi.symm)⟩
    rw [hcopy.call, ← hi]
  refine ⟨(store c).map call, ⟨?_, ?_⟩, ?_⟩
  · intro x hx
    obtain ⟨p, hp, rfl⟩ := List.mem_map.mp hx
    exact ⟨List.mem_zipIdx_iff_getElem?.mpr (hcall hp).1, rfl⟩
  · refine List.pairwise_map.mpr ?_
    refine (List.pairwise_append.mp (o.inOrder c)).1.imp_of_mem ?_
    intro p q hp hq hpq
    have hlt (hthread : (call p).1.thread = (call q).1.thread) : (call p).2 < (call q).2 := by
      have hid : p.id < q.id := hpq _ (hcall hp).2 ((hcall hq).2.trans (congrArg some hthread.symm))
      obtain ⟨i, hcopy⟩ := o.copies c q hq
      exact o.calls.mono p.id q.id hid hcopy.born
    refine ⟨fun heq => ?_, hlt⟩
    have hsame : (call p).1 = (call q).1 := by
      have hget := (hcall hp).1
      rw [show pos p.id = pos q.id from heq, (hcall hq).1] at hget
      exact (Option.some.inj hget).symm
    exact (hlt (congrArg ThreadCall.thread hsame)).ne heq
  · rw [(o.stored c).bytes_eq, List.flatMap_map]

theorem followsCalls_run {ok : CellManager → Action → Prop} {acts : List Action}
    (h : Run CellManager.step ok {} acts s) (c : ℕ) : s.FollowsCalls (sendCalls acts) c := by
  obtain ⟨pos, store, o⟩ := Ordered.run h
  exact o.followsCalls c

end CellManager

end TcpLib
