import TcpLib.SendSide

/-!
# Accepted or reported sends

A call of `senddata` that returns `NAUT_AT_S_OK` should have queued its payload, and a queued
payload should reach the socket unless the connection is deleted. `SendData` does not return what
`sendTask` does, `handleSend` drops what the ring has no room for, and a connection can lose its
entry in `m_Cell`. As long as `sendTask` finds what it needs and no payload meets a full ring or a
lost entry, every accepted payload is kept.
-/

namespace TcpLib
open SlotQueue CircularBuffer Transition

namespace CellManager

/-- The task that is handled. -/
def handled? (s : CellManager) (a : Action) : Option CellTask :=
  match a, s.loop with
  | .handle, .task ct => some ct
  | _, _ => none

/-- The number has a cell when `sendTask` looks for it, and `size + 1` is an `int`. -/
def FindsCell (s : CellManager) : Action → Prop
  | .sendLookup _ fd bytes => (s.reg.map fd).isSome ∧ bytes.length < intMax
  | _ => True

/-- The queue is not full when it is tested for a task to send. -/
def QueueHasRoom (s : CellManager) : Action → Prop
  | .pushTest (.sender _) => ¬queueFull s.cellTask.length
  | _ => True

/-- The ring of the connection is not full when a payload for it is handled. -/
def RingHasRoom (s : CellManager) (a : Action) : Prop :=
  ∀ ct ∈ s.handled? a, ct.event = .send → ∀ c ∈ s.reg.map ct.clientid,
    ((s.cell c).sendWritePos + 1) % SYSSENDBUF ≠ (s.cell c).sendReadPos

structure SendsKept (s : CellManager) (a : Action) : Prop where
  cell : s.FindsCell a
  queue : s.QueueHasRoom a
  ring : s.RingHasRoom a
  entry : s.NoLostEntry a

instance (s : CellManager) (a : Action) : Decidable (s.FindsCell a) :=
  match a with
  | .sendLookup _ fd bytes => inferInstanceAs (Decidable
      ((s.reg.map fd).isSome ∧ bytes.length < intMax))
  | .arrive _ _ | .fin _ | .rst _ | .accept _ | .insert _ _ _ _ | .pushTest _ | .pushReserve _
  | .pushPublish _ | .sendReturn _ _ | .pop | .handle | .close | .erase | .notify | .checkWrite
  | .epollWait _ | .doEvent | .read _ _ | .doSend _ => instDecidableTrue

instance (s : CellManager) (a : Action) : Decidable (s.QueueHasRoom a) := by
  unfold QueueHasRoom; split <;> infer_instance

instance (s : CellManager) (a : Action) : Decidable (s.RingHasRoom a) := by
  unfold RingHasRoom; infer_instance

instance (s : CellManager) (a : Action) : Decidable (s.SendsKept a) :=
  decidable_of_iff (s.FindsCell a ∧ s.QueueHasRoom a ∧ s.RingHasRoom a ∧ s.NoLostEntry a)
    ⟨fun ⟨hcell, hqueue, hring, hentry⟩ => ⟨hcell, hqueue, hring, hentry⟩,
      fun h => ⟨h.cell, h.queue, h.ring, h.entry⟩⟩

/-- The payload is in its task, in the queue or in the hand of the loop thread. -/
def Queued (s : CellManager) (p : Payload) : Prop :=
  ∃ u, (u ∈ items s.cellTask ∨ u ∈ s.loop.tasks) ∧ u.event = .send ∧ u.sC = some ⟨p, 0⟩

/-- The payload is in its task, in the ring of its connection, or on its socket in one piece. -/
def Held (s : CellManager) (p : Payload) : Prop :=
  s.Queued p ∨
  (∃ sc ∈ contents (s.cell p.conn).sendBuf SYSSENDBUF (s.cell p.conn).sendReadPos
    (s.cell p.conn).sendWritePos, sc.toPayload = p) ∨
  p.sent <:+: (s.sock p.conn).wire

/-- A copy of what a call was given, for a connection found under the number it was given. -/
structure CopyFor (s : CellManager) (call : SendCall) (p : Payload) : Prop where
  bytes : p.bytes = call.bytes
  entered : p.conn < s.reg.inserted
  clientid : s.reg.name p.conn = call.clientid

/-- Every call that returned success queued a copy of its payload, which is kept while the
connection is open. -/
def AcceptedOrReported (s : CellManager) : Prop :=
  ∀ r ∈ s.calls, r.ret = NAUT_AT_S_OK → ∃ p, r.payload = some p ∧ p ∈ s.published ∧
    s.CopyFor r.call p ∧ (s.reg.Open p.conn → s.Held p)

/-- What a step does to a thread that sends, or what `sendTask` misses in it. -/
inductive SenderStep (s t : CellManager) (a : Action) (i : ℕ) : Prop
  | same : t.sender i = s.sender i → SenderStep s t a i
  | idle : t.sender i = .idle → SenderStep s t a i
  | stage (call : SendCall) (push push' : Push) : s.sender i = .pushing call push →
      t.sender i = .pushing call push' → push'.task = push.task → SenderStep s t a i
  | queued (call : SendCall) (push : Push) : s.sender i = .pushing call push →
      t.sender i = .returning call (push.task.sC.map SendCell.toPayload) NAUT_AT_S_OK →
      t.published = s.published ++ (push.task.sC.map SendCell.toPayload).toList → SenderStep s t a i
  | refused : ¬s.QueueHasRoom a → SenderStep s t a i
  | lost : ¬s.FindsCell a → SenderStep s t a i
  | found (fd : ℕ) (bytes : List UInt8) (c : ℕ) : s.reg.map fd = some c →
      t.sender i = .pushing ⟨fd, bytes⟩ ⟨⟨.send, fd, c, some ⟨⟨s.nextId, c, bytes⟩, 0⟩⟩, .test⟩ →
      SenderStep s t a i

/-- What the threads that send and the queue say about the payloads. -/
structure Kept (s : CellManager) : Prop where
  carries : ∀ u, s.Pending u → u.Carries
  named : ∀ u, s.Pending u → u.event = .send →
    u.conn < s.reg.inserted ∧ u.clientid = s.reg.name u.conn
  stored : ∀ c, ∃ ps, s.Stored c ps
  published : ∀ p ∈ s.published, p.conn < s.reg.inserted ∧
    (s.reg.Open p.conn → s.Queued p ∨ ∃ ps, s.Stored p.conn ps ∧ p ∈ ps)
  pushing : ∀ i call push, s.sender i = .pushing call push →
    ∃ p, push.task.sC = some ⟨p, 0⟩ ∧ s.CopyFor call p
  returning : ∀ i call payload code, s.sender i = .returning call payload code →
    ∃ p, payload = some p ∧ p ∈ s.published ∧ s.CopyFor call p
  calls : ∀ r ∈ s.calls, ∃ p, r.payload = some p ∧ p ∈ s.published ∧ s.CopyFor r.call p

variable {s t : CellManager} {a : Action} {u : CellTask} {p : Payload} {call : SendCall}

/-- A task leaves the queue and the hand of the loop thread only when it is handled. -/
theorem queue_step (h : Step s a t) (hu : u ∈ items s.cellTask ∨ u ∈ s.loop.tasks) :
    (u ∈ items t.cellTask ∨ u ∈ t.loop.tasks) ∨ (a = .handle ∧ s.loop = .task u) := by
  have hmove (hq : t.cellTask = s.cellTask) (hloop : s.loop.tasks = []) :
      (u ∈ items t.cellTask ∨ u ∈ t.loop.tasks) ∨ (a = .handle ∧ s.loop = .task u) := by
    rw [hloop] at hu
    rw [hq]
    exact Or.inl (Or.inl (hu.resolve_right (by simp)))
  have hhandle {ct : CellTask} (hq : t.cellTask = s.cellTask) (ha : a = .handle) (hpc : s.loop = .task ct) :
      (u ∈ items t.cellTask ∨ u ∈ t.loop.tasks) ∨ (a = .handle ∧ s.loop = .task u) := by
    rw [hq]
    rcases hu with hu | hu
    · exact Or.inl (Or.inl hu)
    · obtain rfl : u = ct := by simpa [hpc, LoopPc.tasks] using hu
      exact Or.inr ⟨ha, hpc⟩
  cases h with
  | pushReserve party p hp => exact Or.inl (hu.imp_left fun hu => by simpa [setPush] using hu)
  | pushPublish party p q hp hfill =>
    exact Or.inl (hu.imp_left fun hu => (items_fill hfill).symm.subset (List.mem_cons_of_mem _ hu))
  | popTask ct q hpc hpop =>
    rw [items_pop hpop] at hu
    rcases hu with hu | hu
    · rcases List.mem_cons.mp hu with rfl | hu
      · exact Or.inl (Or.inr (by simp [LoopPc.tasks]))
      · exact Or.inl (Or.inl hu)
    · simp [hpc, LoopPc.tasks] at hu
  | addLost ct hpc => exact hhandle rfl rfl hpc
  | addFound ct c hpc => exact hhandle rfl rfl hpc
  | sendDropped ct hpc => exact hhandle rfl rfl hpc
  | sendStored ct c sc cell hpc => exact hhandle rfl rfl hpc
  | delNone ct hpc => exact hhandle rfl rfl hpc
  | delFound ct c hpc => exact hhandle rfl rfl hpc
  | popNone hpc => exact hmove rfl (by rw [hpc]; rfl)
  | close c ids hpc => exact hmove rfl (by rw [hpc]; rfl)
  | erase c hpc => exact hmove rfl (by rw [hpc]; rfl)
  | notify c hpc => exact hmove rfl (by rw [hpc]; rfl)
  | checkWrite hpc => exact hmove rfl (by rw [hpc]; rfl)
  | epollWait es hpc => exact hmove rfl (by rw [hpc]; rfl)
  | eventsEnd hpc => exact hmove rfl (by rw [hpc]; rfl)
  | hangup e es hpc => exact hmove rfl (by rw [hpc]; rfl)
  | recvStart e es c hpc => exact hmove rfl (by rw [hpc]; rfl)
  | recvSkip e es hpc => exact hmove rfl (by rw [hpc]; rfl)
  | read r hub c d e es o pc hpc => exact hmove rfl (by rw [hpc]; rfl)
  | readClosed r hub c d e es hpc => exact hmove rfl (by rw [hpc]; rfl)
  | writeSkip writes e es hpc => exact hmove rfl (by rw [hpc]; rfl)
  | write writes e es c d o hpc => exact hmove rfl (by rw [hpc]; rfl)
  | _ => exact Or.inl hu

/-- Only the publication of a slot publishes a payload, that of the task in the slot. -/
theorem published_step (h : Step s a t) (hp : p ∈ t.published) :
    p ∈ s.published ∨ ∃ u sc, s.Pending u ∧ u ∈ items t.cellTask ∧ u.sC = some sc ∧ sc.toPayload = p := by
  cases h with
  | pushPublish party push q hpush hfill =>
    rcases List.mem_append.mp (show p ∈ s.published ++ (push.task.sC.map SendCell.toPayload).toList by
      simpa [endPush] using hp) with hp | hp
    · exact Or.inl hp
    · obtain ⟨sc, hsc, rfl⟩ := Option.map_eq_some_iff.mp (Option.mem_toList.mp hp)
      exact Or.inr ⟨push.task, sc, Or.inl ⟨party, push, hpush, rfl⟩,
        (items_fill hfill).symm.subset List.mem_cons_self, hsc, rfl⟩
  | pushFull party push hpush => exact Or.inl (by simpa [endPush] using hp)
  | _ => exact Or.inl hp

theorem published_mono (h : Step s a t) (hp : p ∈ s.published) : p ∈ t.published := by
  cases h with
  | pushPublish party push q hpush hfill => simp [endPush, hp]
  | pushFull party push hpush => simpa [endPush] using hp
  | _ => exact hp

theorem CopyFor.step (hp : s.CopyFor call p) (b : s.Base) (h : Step s a t) : t.CopyFor call p where
  bytes := hp.bytes
  entered := hp.entered.trans_le (reg_step_inserted_le b h)
  clientid := by rw [reg_step_name b h (b.reg.lt_next hp.entered), hp.clientid]

theorem sender_of_push {i : ℕ} {push : Push} (h : s.push? (.sender i) = some push) :
    ∃ call, s.sender i = .pushing call push := by
  cases hpc : s.sender i with
  | pushing call q =>
    obtain rfl : q = push := by simpa [push?, hpc] using h
    exact ⟨call, rfl⟩
  | idle => simp [push?, hpc] at h
  | returning call payload code => simp [push?, hpc] at h

theorem sender_setPush {party : Party} {push : Push} (push' : Push) (i : ℕ) (hp : s.push? party = some push)
    (htask : push'.task = push.task) (ht : t.sender = (s.setPush push' party).sender) :
    SenderStep s t a i := by
  by_cases hparty : party = .sender i
  · subst hparty
    obtain ⟨call, hpc⟩ := sender_of_push hp
    exact .stage call push push' hpc (by simp [ht, setPush, hpc, SenderPc.setPush]) htask
  · exact .same (by simp [ht, setPush, hparty])

theorem sender_step (h : Step s a t) (i : ℕ) : SenderStep s t a i := by
  cases h with
  | pushFull party push hp hstage hfull =>
    by_cases hparty : party = .sender i
    · subst hparty
      exact .refused fun hroom => hroom hfull
    · exact .same (by simp [endPush, hparty])
  | pushRoom party push hp => exact sender_setPush { push with stage := .reserve } i hp rfl rfl
  | pushReserve party push hp => exact sender_setPush { push with stage := .publish } i hp rfl rfl
  | pushPublish party push q hp hfill =>
    by_cases hparty : party = .sender i
    · subst hparty
      obtain ⟨call, hpc⟩ := sender_of_push hp
      exact .queued call push hpc (by simp [endPush, hpc, SenderPc.endPush]) (by simp [endPush])
    · exact .same (by simp [endPush, hparty])
  | sendLost j fd bytes hpc hmap =>
    refine .lost fun hfinds => ?_
    have hsome : (s.reg.map fd).isSome := hfinds.1
    rw [hmap] at hsome
    cases hsome
  | sendFound j fd bytes c hpc hmap =>
    by_cases hij : i = j
    · subst hij
      exact .found fd bytes c hmap (by simp)
    · exact .same (by simp [hij])
  | sendReturn j ret call payload code hpc =>
    by_cases hij : i = j
    · subst hij
      exact .idle (by simp)
    · exact .same (by simp [hij])
  | _ => exact .same rfl

theorem calls_step (h : Step s a t) {r : SendResult} (hr : r ∈ t.calls) :
    r ∈ s.calls ∨ ∃ i, a = .sendReturn i r.ret ∧ s.sender i = .returning r.call r.payload r.code := by
  cases h with
  | sendReturn i ret call payload code hpc =>
    rcases List.mem_append.mp hr with hr | hr
    · exact Or.inl hr
    · obtain rfl : r = ⟨call, payload, code, ret⟩ := by simpa using hr
      exact Or.inr ⟨i, rfl, hpc⟩
  | _ => exact Or.inl hr

namespace Kept

theorem init : Kept {} where
  carries := fun _ hu => absurd hu (not_pending_first {} rfl)
  named := fun _ hu => absurd hu (not_pending_first {} rfl)
  stored := fun c => ⟨[], .init c⟩
  published := by simp
  pushing := by simp
  returning := by simp
  calls := by simp

theorem named_step (m : s.Kept) (b : s.Base) (h : Step s a t) (hu : t.Pending u)
    (hev : u.event = .send) : u.conn < t.reg.inserted ∧ u.clientid = t.reg.name u.conn := by
  rcases pending_step h hu with hold | hcreated
  · obtain ⟨hlt, hname⟩ := m.named u hold hev
    refine ⟨hlt.trans_le (reg_step_inserted_le b h), ?_⟩
    rw [hname, reg_step_name b h (b.reg.lt_next hlt)]
  · cases hcreated with
    | send i fd bytes c _ hmap hreg =>
      obtain ⟨hname, hlatest⟩ := b.reg.map _ _ hmap
      rw [hreg]
      exact ⟨hlatest.1, hname.symm⟩
    | add => cases hev
    | lost => cases hev
    | hangup => cases hev
    | closed => cases hev

theorem stored_step (m : s.Kept) (b : s.Base) (h : Step s a t) (c : ℕ) : ∃ ps, t.Stored c ps := by
  obtain ⟨ps, hs⟩ := m.stored c
  rcases hs.step b h m.carries with hs | ⟨ct, sc, -, -, -, -, hs⟩
  · exact ⟨_, hs⟩
  · exact ⟨_, hs⟩

/-- A queued payload of an open connection goes from its task to the ring. -/
theorem queued_step (m : s.Kept) (hno : s.reg.NoOrphan) (h : Step s a t)
    (hroom : s.RingHasRoom a) (hp : s.Queued p) (hopen : s.reg.Open p.conn) :
    t.Queued p ∨ ∃ ps, t.Stored p.conn ps ∧ p ∈ ps := by
  obtain ⟨u, hu, hev, hsc⟩ := hp
  rcases queue_step h hu with hu | ⟨rfl, hpc⟩
  · exact Or.inl ⟨u, hu, hev, hsc⟩
  · -- the loop thread handles the task, and finds the connection it was made for
    have hpending : s.Pending u := Or.inr hu
    obtain ⟨q, hq, hconn⟩ := (m.carries u hpending).send hev
    obtain ⟨hlt, hname⟩ := m.named u hpending hev
    obtain rfl : p = q := by simpa [hsc] using hq
    have hmap : s.reg.map u.clientid = some p.conn := by
      rw [hname, ← hconn]
      exact hno.mapped _ (hconn ▸ hlt) hopen
    have hspace := hroom u (by simp [handled?, hpc]) hev p.conn hmap
    obtain ⟨ps, hs⟩ := m.stored p.conn
    cases h with
    | sendStored ct c sc cell hpc' hev' hmap' hsc' hstore =>
      obtain rfl : u = ct := by simpa [hpc] using hpc'
      obtain rfl := Option.some.inj (hmap.symm.trans hmap')
      obtain rfl := Option.some.inj (hsc.symm.trans hsc')
      exact Or.inr ⟨ps ++ [p], hs.store (by simpa using hstore) rfl (hconn ▸ hlt), by simp⟩
    | sendDropped ct hpc' hev' hdrop =>
      obtain rfl : u = ct := by simpa [hpc] using hpc'
      simp [hmap, hsc, ClientCell.handleSend, hspace] at hdrop
    | addLost ct hpc' hev' =>
      obtain rfl : u = ct := by simpa [hpc] using hpc'
      simp [hev] at hev'
    | addFound ct c hpc' hev' =>
      obtain rfl : u = ct := by simpa [hpc] using hpc'
      simp [hev] at hev'
    | delNone ct hpc' hev' =>
      obtain rfl : u = ct := by simpa [hpc] using hpc'
      simp [hev] at hev'
    | delFound ct c hpc' hev' =>
      obtain rfl : u = ct := by simpa [hpc] using hpc'
      simp [hev] at hev'

theorem published_step (m : s.Kept) (b : s.Base) (hno : s.reg.NoOrphan) (h : Step s a t)
    (hroom : s.RingHasRoom a) (hp : p ∈ t.published) :
    p.conn < t.reg.inserted ∧
      (t.reg.Open p.conn → t.Queued p ∨ ∃ ps, t.Stored p.conn ps ∧ p ∈ ps) := by
  rcases CellManager.published_step h hp with hold | ⟨u, sc, hu, hitem, hsc, rfl⟩
  · obtain ⟨hlt, hkept⟩ := m.published p hold
    refine ⟨hlt.trans_le (reg_step_inserted_le b h), fun hopen => ?_⟩
    have hopen' : s.reg.Open p.conn := by
      by_contra hclosed
      exact reg_step_closed b h (b.reg.lt_next hlt) hclosed hopen
    rcases hkept hopen' with hqueued | ⟨ps, hs, hmem⟩
    · exact m.queued_step hno h hroom hqueued hopen'
    · rcases hs.step b h m.carries with hs | ⟨ct, sc, -, -, -, -, hs⟩
      · exact Or.inr ⟨ps, hs, hmem⟩
      · exact Or.inr ⟨_, hs, List.mem_append_left _ hmem⟩
  · have hev : u.event = .send := by
      by_contra hne
      simp [(m.carries u hu).other hne] at hsc
    obtain ⟨q, hq, hconn⟩ := (m.carries u hu).send hev
    obtain rfl : sc = ⟨q, 0⟩ := by simpa [hsc] using hq
    refine ⟨?_, fun _ => Or.inl ⟨u, Or.inl hitem, hev, hsc⟩⟩
    have hlt := (m.named u hu hev).1.trans_le (reg_step_inserted_le b h)
    rwa [← hconn] at hlt

theorem pushing_step (m : s.Kept) (b : s.Base) (h : Step s a t) (hok : s.SendsKept a) {i : ℕ}
    {push : Push} (hpc : t.sender i = .pushing call push) : ∃ p, push.task.sC = some ⟨p, 0⟩ ∧ t.CopyFor call p := by
  cases sender_step h i with
  | same heq =>
    obtain ⟨p, hsc, hcopy⟩ := m.pushing i call push (heq ▸ hpc)
    exact ⟨p, hsc, hcopy.step b h⟩
  | stage call' push₀ push' hold hnew htask =>
    obtain ⟨rfl, rfl⟩ := SenderPc.pushing.inj (hnew.symm.trans hpc)
    obtain ⟨p, hsc, hcopy⟩ := m.pushing i _ _ hold
    exact ⟨p, htask ▸ hsc, hcopy.step b h⟩
  | found fd bytes c hmap hnew =>
    obtain ⟨rfl, rfl⟩ := SenderPc.pushing.inj (hnew.symm.trans hpc)
    obtain ⟨hname, hlatest⟩ := b.reg.map _ _ hmap
    have hcopy : s.CopyFor ⟨fd, bytes⟩ ⟨s.nextId, c, bytes⟩ := ⟨rfl, hlatest.1, hname⟩
    exact ⟨_, rfl, hcopy.step b h⟩
  | refused hfull => exact absurd hok.queue hfull
  | lost hnone => exact absurd hok.cell hnone
  | idle hnew => simp [hnew] at hpc
  | queued call' push₀ hold hnew => simp [hnew] at hpc

theorem returning_step (m : s.Kept) (b : s.Base) (h : Step s a t) (hok : s.SendsKept a) {i : ℕ}
    {payload : Option Payload} {code : ℤ} (hpc : t.sender i = .returning call payload code) :
    ∃ p, payload = some p ∧ p ∈ t.published ∧ t.CopyFor call p := by
  cases sender_step h i with
  | same heq =>
    obtain ⟨p, hp, hmem, hcopy⟩ := m.returning i call payload code (heq ▸ hpc)
    exact ⟨p, hp, published_mono h hmem, hcopy.step b h⟩
  | queued call' push hold hnew hpub =>
    obtain ⟨rfl, rfl, rfl⟩ := SenderPc.returning.inj (hnew.symm.trans hpc)
    obtain ⟨p, hsc, hcopy⟩ := m.pushing i _ _ hold
    refine ⟨p, by simp [hsc], ?_, hcopy.step b h⟩
    rw [hpub]
    simp [hsc]
  | refused hfull => exact absurd hok.queue hfull
  | lost hnone => exact absurd hok.cell hnone
  | idle hnew => simp [hnew] at hpc
  | stage call' push push' hold hnew => simp [hnew] at hpc
  | found fd bytes c hmap hnew => simp [hnew] at hpc

theorem calls_step (m : s.Kept) (b : s.Base) (h : Step s a t) {r : SendResult} (hr : r ∈ t.calls) :
    ∃ p, r.payload = some p ∧ p ∈ t.published ∧ t.CopyFor r.call p := by
  have hold : ∃ p, r.payload = some p ∧ p ∈ s.published ∧ s.CopyFor r.call p := by
    rcases CellManager.calls_step h hr with hr | ⟨i, rfl, hpc⟩
    · exact m.calls r hr
    · exact m.returning i r.call r.payload r.code hpc
  obtain ⟨p, hp, hmem, hcopy⟩ := hold
  exact ⟨p, hp, published_mono h hmem, hcopy.step b h⟩

theorem step (m : s.Kept) (b : s.Base) (hno : s.reg.NoOrphan) (h : Step s a t)
    (hok : s.SendsKept a) : t.Kept where
  carries := carries_step h m.carries
  named := fun _ hu hev => m.named_step b h hu hev
  stored := m.stored_step b h
  published := fun _ hp => m.published_step b hno h hok.ring hp
  pushing := fun _ _ _ hpc => m.pushing_step b h hok hpc
  returning := fun _ _ _ _ hpc => m.returning_step b h hok hpc
  calls := fun _ hr => m.calls_step b h hr

theorem run {acts : List Action} (h : Run CellManager.step SendsKept {} acts s) : s.Kept := by
  refine (h.invariant (fun s => s.Base ∧ s.reg.NoOrphan ∧ s.Kept)
    ⟨.init, ⟨by simp, by simp⟩, .init⟩ ?_).2.2
  rintro s a t ⟨b, hno, m⟩ hok hstep
  have h := step_sound hstep
  exact ⟨b.step h, noOrphan_step b h hok.entry hno, m.step b hno h hok⟩

end Kept
end CellManager

/-- In every run in which numbers that payloads are sent to have cells, the queue and the rings have
room for the payloads and no connection loses its entry, a payload whose call returned success was
queued and is not discarded while its connection is open. -/
theorem accepted_or_reported {acts : List Action} {s : CellManager}
    (hrun : Run CellManager.step CellManager.SendsKept {} acts s) : s.AcceptedOrReported := by
  have m := CellManager.Kept.run hrun
  intro r hr hok
  obtain ⟨p, hp, hmem, hcopy⟩ := m.calls r hr
  refine ⟨p, hp, hmem, hcopy, fun hopen => ?_⟩
  rcases (m.published p hmem).2 hopen with hqueued | ⟨ps, hs, hps⟩
  · exact Or.inl hqueued
  · exact Or.inr (hs.held hps)

/-- Two payloads are sent; one is written in part and the other waits in the queue. -/
def twoSends : List Action :=
  connectOn5 ++ [.sendLookup 0 5 [42, 43]] ++ pushBy (.sender 0) ++ [.sendReturn 0 0] ++
    [.epollWait [], .doEvent] ++ handleNext ++ toWait ++
    [.epollWait [⟨5, 0, { epollOut := true }⟩], .doEvent,
      .doSend fun n => if n = 999 then .count 1 else .again] ++
    [.sendLookup 1 5 [44]] ++ pushBy (.sender 1) ++ [.sendReturn 1 7]

theorem accepted_or_reported_two_sends :
    ∃ s, Run CellManager.step CellManager.SendsKept {} twoSends s ∧
      s.calls.map SendResult.ret = [0, 7] ∧ s.AcceptedOrReported := by
  have hcalls : (exec (fun s a => if decide (s.SendsKept a) then CellManager.step s a else none) {}
      twoSends).map (fun s => s.calls.map SendResult.ret) = some [0, 7] := by decide +kernel
  obtain ⟨s, hs, hcalls⟩ := Option.map_eq_some_iff.mp hcalls
  have hrun : Run CellManager.step CellManager.SendsKept {} twoSends s :=
    .of_exec_guard _ (fun _ _ _ h => of_decide_eq_true h) hs
  exact ⟨s, hrun, hcalls, accepted_or_reported hrun⟩

/-- A second connection is entered under descriptor 5 before the entry of the first one is erased. A
payload is queued for it, and handled when its own entry is gone. -/
def sendBeforeErase : List Action :=
  connectOn5 ++ [.fin 0] ++ hangUp 5 0 ++ handleNext ++ [.close] ++ acceptOn 5 ++
    [.sendLookup 0 5 [42]] ++ pushBy (.sender 0) ++ [.sendReturn 0 0, .erase, .notify] ++ handleNext

/-- The caller gets what `sendTask` returned. -/
theorem accepted_send_discarded :
    ∃ s, Run CellManager.step anyStep {} sendBeforeErase s ∧ s.published = [⟨0, 1, [42]⟩] ∧
      s.calls = [⟨⟨5, [42]⟩, some ⟨0, 1, [42]⟩, NAUT_AT_S_OK, NAUT_AT_S_OK⟩] ∧ s.reg.Open 1 ∧
      ¬ s.AcceptedOrReported := by
  have hexec : (exec CellManager.step {} sendBeforeErase).map (fun s =>
      decide (s.published = [⟨0, 1, [42]⟩] ∧
        s.calls = [⟨⟨5, [42]⟩, some ⟨0, 1, [42]⟩, NAUT_AT_S_OK, NAUT_AT_S_OK⟩] ∧ s.reg.Open 1 ∧
        items s.cellTask = [] ∧ s.loop.tasks = [] ∧ (s.cell 1).sendReadPos = 0 ∧
        (s.cell 1).sendWritePos = 0 ∧ (s.sock 1).wire = [])) = some true := by decide +kernel
  obtain ⟨s, hs, heq⟩ := Option.map_eq_some_iff.mp hexec
  obtain ⟨hpub, hcalls, hopen, hitems, htasks, hread, hwrite, hwire⟩ := of_decide_eq_true heq
  refine ⟨s, .of_exec (fun _ _ _ => trivial) hs, hpub, hcalls, hopen, fun h => ?_⟩
  obtain ⟨p, hp, -, -, hheld⟩ := h _ (by rw [hcalls]; exact List.mem_singleton_self _) rfl
  obtain rfl := Option.some.inj hp
  rcases hheld hopen with ⟨u, hu, -⟩ | ⟨sc, hsc, -⟩ | hsent
  · rw [hitems, htasks] at hu
    simp at hu
  · have hempty : contents (s.cell 1).sendBuf SYSSENDBUF 0 0 = [] := by simp [contents]
    rw [show (⟨0, 1, [42]⟩ : Payload).conn = 1 from rfl, hread, hwrite, hempty] at hsc
    cases hsc
  · rw [show (⟨0, 1, [42]⟩ : Payload).conn = 1 from rfl, hwire] at hsent
    exact absurd (List.infix_nil.mp hsent) (by simp [Payload.sent])

end TcpLib
