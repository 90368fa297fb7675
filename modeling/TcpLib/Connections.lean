import TcpLib.SendOrder
import TcpLib.AcceptedSends
import TcpLib.Callbacks

/-!
# No connection is forgotten

The threads leave each other notes about a connection as tasks: the accepting thread that it is to
be added, the loop thread that it is to be deleted. While `m_cellTask` has room for these and no
entry of `m_Cell` is lost, a connection that is not added yet has its note, one whose end was seen has
its note or is being deleted, and one whose descriptor is closed is reported or about to be. Once
these tasks are handled nothing is left half done.
-/

namespace TcpLib
open SlotQueue Transition

namespace CellManager

/-- A task that adds or deletes a connection in `m_Cell` is pushed while the queue has room for it. -/
def RoomForNotes (s : CellManager) : Action → Prop
  | .pushTest party => ∀ p ∈ s.push? party, p.task.event ≠ .send →
      s.reg.map p.task.clientid ≠ none → ¬queueFull s.cellTask.length
  | _ => True

instance (s : CellManager) (a : Action) : Decidable (s.RoomForNotes a) :=
  match a with
  | .pushTest party => inferInstanceAs (Decidable
      (∀ p ∈ s.push? party, p.task.event ≠ .send → s.reg.map p.task.clientid ≠ none →
        ¬queueFull s.cellTask.length))
  | .arrive _ _ | .fin _ | .rst _ | .accept _ | .insert _ _ _ _ | .pushReserve _ | .pushPublish _
  | .sendLookup _ _ _ | .sendReturn _ _ | .pop | .handle | .close | .erase | .notify | .checkWrite
  | .epollWait _ | .doEvent | .read _ _ | .doSend _ => instDecidableTrue

def NotesKept (s : CellManager) (a : Action) : Prop := s.NoLostEntry a ∧ s.RoomForNotes a

instance (s : CellManager) (a : Action) : Decidable (s.NotesKept a) := by
  unfold NotesKept; infer_instance

/-- What is done, and what somebody has still to do, for every connection. -/
structure Attended (s : CellManager) : Prop where
  added : ∀ c < s.reg.inserted, s.reg.Open c →
    s.PendingFor .add (s.reg.name c) ∨ ((s.sock c).interest.isSome ∧ .onConnect ∈ s.trace c)
  ended : ∀ c < s.reg.inserted, s.reg.Open c → s.seen c →
    s.PendingFor .del (s.reg.name c) ∨ s.loop = .delClose c
  closed : ∀ c < s.reg.inserted, ¬ s.reg.Open c →
    .onDisconnect ∈ s.trace c ∨ s.loop = .delErase c ∨ s.loop = .delNotify c

/-- Nothing but sends is pending, and no connection is being deleted. -/
def NothingToDo (s : CellManager) : Prop :=
  (∀ u, s.Pending u → u.event = .send) ∧ s.loop.deleting = none

/-- A connection is in use: it has its descriptor, its entry and its registration with `epoll`, was
reported, and its end was not seen. -/
structure InUse (s : CellManager) (c : ℕ) : Prop where
  isOpen : s.reg.Open c
  mapped : s.reg.map (s.reg.name c) = some c
  registered : (s.sock c).interest.isSome
  connected : .onConnect ∈ s.trace c
  unseen : s.seen c = false

/-- A connection is gone: it has no descriptor and no entry, and this was reported. -/
structure Gone (s : CellManager) (c : ℕ) : Prop where
  closed : ¬ s.reg.Open c
  unmapped : s.reg.map (s.reg.name c) ≠ some c
  disconnected : .onDisconnect ∈ s.trace c

variable {s t : CellManager} {a : Action} {u : CellTask} {party : Party} {p : Push} {c x : ℕ}

/-! ## Tasks stay until they are handled -/

/-- A push goes on, or its task is in the queue, unless its capacity test fails. -/
theorem push_kept (h : Step s a t) (hp : s.push? party = some p) (ha : a ≠ .pushTest party) :
    (∃ p', t.push? party = some p' ∧ p'.task = p.task) ∨ p.task ∈ items t.cellTask := by
  have hsame (hpush : t.push? party = some p) :
      (∃ p', t.push? party = some p' ∧ p'.task = p.task) ∨ p.task ∈ items t.cellTask :=
    Or.inl ⟨p, hpush, rfl⟩
  cases h with
  | accept fd hpc | insert buf ev ip port hpc =>
    have hnone : s.push? .acceptor = none := by simp [push?, hpc]
    exact hsame (push?_kept_acceptor (s := s) rfl rfl hnone hp)
  | pushFull q r hr hstage =>
    have hne : party ≠ q := fun heq => ha (heq ▸ rfl)
    exact hsame (by rw [push?_endPush _ hr, if_neg hne, hp])
  | pushRoom q r hr hstage =>
    have hne : party ≠ q := fun heq => ha (heq ▸ rfl)
    exact hsame (by rw [push?_setPush hr, if_neg hne, hp])
  | pushReserve q r hr hstage =>
    let p' : Push := { r with stage := .publish }
    have hpush : ({ s with cellTask := reserve s.cellTask q }.setPush p' q).push? party =
        if party = q then some p' else s.push? party := push?_setPush hr
    split_ifs at hpush with hq
    · subst hq
      obtain rfl := Option.some.inj (hr.symm.trans hp)
      exact Or.inl ⟨_, hpush, rfl⟩
    · exact hsame (hpush.trans hp)
  | pushPublish q r slots hr hfill =>
    by_cases hq : party = q
    · subst hq
      obtain rfl := Option.some.inj (hr.symm.trans hp)
      exact Or.inr ((items_fill hfill).symm.subset List.mem_cons_self)
    · exact hsame (by rw [push?_endPush (s := { s with cellTask := slots }) _ hr, if_neg hq]; exact hp)
  | sendLost i fd bytes hpc | sendFound i fd bytes c hpc | sendReturn i ret call payload code hpc =>
    have hnone : s.push? (.sender i) = none := by simp [push?, hpc]
    exact hsame (push?_kept_sender (s := s) rfl rfl rfl hnone hp)
  | addLost ct hpc hev hdel | hangup e es hpc hdel | readClosed r hub c d e es hpc hdel =>
    exact hsame (push?_kept_delTask (s := s) rfl rfl hdel hp)
  | _ => exact hsame hp

/-- A note is not lost while there is room for it. -/
theorem note_kept (hstep : s.step a = some t) (hroom : s.RoomForNotes a) (hu : s.Pending u)
    (hev : u.event ≠ .send) (hmap : s.reg.map u.clientid ≠ none) :
    t.Pending u ∨ (a = .handle ∧ s.loop = .task u) := by
  have h := step_sound hstep
  rcases hu with ⟨party, p, hp, rfl⟩ | hu
  · left
    by_cases ha : a = .pushTest party
    · -- the test is passed, and the push goes on to reserve a slot
      subst ha
      obtain ⟨p', hp', ht⟩ := Option.bind_eq_some_iff.mp hstep
      obtain rfl := Option.some.inj (hp.symm.trans hp')
      split_ifs at ht with hstage hfull
      · exact absurd hfull (hroom p hp hev hmap)
      · obtain rfl := Option.some.inj ht
        exact Or.inl ⟨party, _, (push?_setPush hp).trans (if_pos rfl), rfl⟩
    · rcases push_kept h hp ha with ⟨p', hp', htask⟩ | hq
      · exact Or.inl ⟨party, p', hp', htask⟩
      · exact Or.inr (Or.inl hq)
  · exact (queue_step h hu).imp_left Or.inr

theorem pendingFor_kept {event : TaskEvent} {fd : ℕ} (hstep : s.step a = some t)
    (hroom : s.RoomForNotes a) (hev : event ≠ .send) (hmap : s.reg.map fd = some c)
    (hu : s.PendingFor event fd) :
    t.PendingFor event fd ∨
      ∃ ct, a = .handle ∧ s.loop = .task ct ∧ ct.event = event ∧ ct.clientid = fd := by
  obtain ⟨u, hu, rfl, rfl⟩ := hu
  rcases note_kept hstep hroom hu hev (by simp [hmap]) with hu | ⟨ha, hpc⟩
  · exact Or.inl ⟨u, hu, rfl, rfl⟩
  · exact Or.inr ⟨u, ha, hpc, rfl, rfl⟩

theorem pendingFor_delTask (s : CellManager) (fd c : ℕ) : (s.delTask fd c).PendingFor .del fd :=
  ⟨⟨.del, fd, c, none⟩, Or.inl ⟨.loop, ⟨⟨.del, fd, c, none⟩, .test⟩, rfl, rfl⟩, rfl, rfl⟩

/-! ## Steps of a connection -/

theorem not_closing (h : Step s a t) (hopen : t.reg.Open c) (ha : a = .close) :
    s.loop ≠ .delClose c := by
  subst ha
  cases h with
  | close d ids hpc =>
    intro hc
    obtain rfl : d = c := LoopPc.delClose.inj (hpc.symm.trans hc)
    exact (Registry.close_open_iff.mp hopen).2 rfl

theorem trace_kept {cb : Callback} (h : Step s a t) (hx : cb ∈ s.trace x) : cb ∈ t.trace x := by
  cases trace_step h x with
  | same _ heq => exact heq ▸ hx
  | connect ct _ _ _ _ heq => exact heq ▸ List.mem_append_left _ hx
  | recv ds _ _ heq => exact heq ▸ List.mem_append_left _ hx
  | disconnect _ _ heq => exact heq ▸ List.mem_append_left _ hx

/-- The stages of a deletion follow each other. -/
theorem deleting_cases (h : Step s a t) (hx : s.loop.deleting = some x) :
    t.loop = s.loop ∨ (s.loop = .delClose x ∧ a = .close) ∨
      (s.loop = .delErase x ∧ t.loop = .delNotify x) ∨
      (s.loop = .delNotify x ∧ .onDisconnect ∈ t.trace x) := by
  cases h with
  | close c ids hpc =>
    obtain rfl : c = x := by simpa [hpc, LoopPc.deleting] using hx
    exact Or.inr (Or.inl ⟨hpc, rfl⟩)
  | erase c hpc =>
    obtain rfl : c = x := by simpa [hpc, LoopPc.deleting] using hx
    exact Or.inr (Or.inr (Or.inl ⟨hpc, rfl⟩))
  | notify c hpc =>
    obtain rfl : c = x := by simpa [hpc, LoopPc.deleting] using hx
    exact Or.inr (Or.inr (Or.inr ⟨hpc, by simp⟩))
  | arrive | fin | rst | accept | insert | pushFull | pushRoom | pushReserve | pushPublish
  | sendLost | sendFound | sendReturn => exact Or.inl rfl
  | popTask ct q hpc | popNone hpc | addLost ct hpc | addFound ct c hpc | sendDropped ct hpc
  | sendStored ct c sc cell hpc | delNone ct hpc | delFound ct c hpc | checkWrite hpc
  | epollWait es hpc | eventsEnd hpc | hangup e es hpc | recvStart e es c hpc | recvSkip e es hpc
  | read r hub c d e es o pc hpc | readClosed r hub c d e es hpc | writeSkip writes e es hpc
  | write writes e es c d o hpc => simp [hpc, LoopPc.deleting] at hx

theorem epollAdd_registers {fd : ℕ} {ev : EpollEvents} (htable : s.reg.table fd = some x) :
    (s.epollAdd fd ev x).interest.isSome := by
  unfold epollAdd
  rw [htable]
  dsimp only
  split_ifs with hnone
  · simp
  · simpa [Option.isSome_iff_ne_none] using hnone

/-- Only connections that were added are registered, and events are about open ones. -/
structure Enrolled (s : CellManager) : Prop where
  registered : ∀ x, (s.sock x).interest.isSome → x < s.reg.inserted
  events : ∀ e ∈ s.loop.rest, e.conn < s.reg.inserted ∧ s.reg.Open e.conn ∧
    e.fd = s.reg.name e.conn
  seen : ∀ x, s.seen x → x < s.reg.inserted

namespace Enrolled

theorem init : Enrolled {} where
  registered := by simp
  events := by simp [LoopPc.rest]
  seen := by simp

theorem registered_step (w : s.Enrolled) (b : s.Base) (h : Step s a t)
    (hx : (t.sock x).interest.isSome) : x < t.reg.inserted := by
  rcases interest_cases h hx with ⟨hold, -⟩ | ⟨ct, c, hpc, -, hmap, htable, hreg, -, -⟩
  · exact (w.registered x hold).trans_le (reg_step_inserted_le b h)
  · have hopen : s.reg.Open c := b.map_open (by rw [hpc]; rfl) hmap
    have hlt : c < s.reg.inserted := (b.reg.map _ _ hmap).2.1
    obtain rfl := b.own_sock hopen hlt htable
    rw [hreg]
    exact hlt

theorem events_step (w : s.Enrolled) (b : s.Base) (h : Step s a t) :
    ∀ e ∈ t.loop.rest, e.conn < t.reg.inserted ∧ t.reg.Open e.conn ∧ e.fd = t.reg.name e.conn := by
  intro e he
  rcases rest_step h he with hold | ⟨⟨htable, hinterest, -⟩, hreg, -⟩
  · obtain ⟨hlt, hopen, hfd⟩ := w.events e hold
    refine ⟨hlt.trans_le (reg_step_inserted_le b h), open_step b h hopen fun _ hpc => ?_, ?_⟩
    · -- between its events the loop thread deletes nothing
      rw [hpc] at hold
      cases hold
    · rw [hfd, reg_step_name b h (b.reg.lt_next hlt)]
  · have hname : s.reg.name e.conn = e.fd := (b.reg.table _ _ htable).1
    rw [hreg]
    exact ⟨w.registered _ hinterest, by rw [Registry.Open, hname, htable], hname.symm⟩

/-- A connection whose end is seen gets a task that deletes it. -/
theorem seen_cases (w : s.Enrolled) (b : s.Base) (h : Step s a t) (hx : t.seen x) :
    s.seen x ∨ (x < s.reg.inserted ∧ t.PendingFor .del (s.reg.name x)) := by
  cases h with
  | hangup e es hpc hdel hhup =>
    by_cases hxe : x = e.conn
    · subst hxe
      obtain ⟨hlt, -, hfd⟩ := w.events e (by simp [hpc, LoopPc.rest])
      rw [← hfd]
      exact Or.inr ⟨hlt, pendingFor_delTask _ _ _⟩
    · exact Or.inl (by simpa [delTask, hxe] using hx)
  | readClosed r hub c d e es hpc hdel hd hok hr =>
    by_cases hxd : x = d
    · subst hxd
      have hfound : s.loop.found = some c := by rw [hpc]; rfl
      have hlt := b.found_lt hfound
      obtain rfl := b.own_sock (b.found_open hfound) hlt hd
      rw [← b.fd c hlt]
      exact Or.inr ⟨hlt, pendingFor_delTask _ _ _⟩
    · exact Or.inl (by simpa [delTask, hxd] using hx)
  | _ => exact Or.inl hx

theorem step (w : s.Enrolled) (b : s.Base) (h : Step s a t) : t.Enrolled where
  registered := fun _ hx => w.registered_step b h hx
  events := w.events_step b h
  seen := fun x hx => by
    have hle := reg_step_inserted_le b h
    rcases w.seen_cases b h hx with hold | ⟨hlt, -⟩
    · exact (w.seen x hold).trans_le hle
    · exact hlt.trans_le hle

end Enrolled

namespace Attended

theorem init : Attended {} where
  added := by simp
  ended := by simp
  closed := by simp

theorem inserted_cases (h : Step s a t) (hc : c < t.reg.inserted) :
    c < s.reg.inserted ∨ (c = s.reg.inserted ∧ s.acceptor = .accepted ∧ t.reg = s.reg.insert ∧
      t.seen = s.seen ∧ t.PendingFor .add (s.reg.name c)) := by
  by_cases hold : c < s.reg.inserted
  · exact Or.inl hold
  · cases h with
    | insert buf ev ip port hpc =>
      obtain rfl : c = s.reg.inserted :=
        Nat.le_antisymm (Nat.le_of_lt_succ hc) (Nat.le_of_not_lt hold)
      exact Or.inr ⟨rfl, hpc, rfl, rfl, _, Or.inl ⟨.acceptor, _, rfl, rfl⟩, rfl, rfl⟩
    | _ => exact absurd hc hold

variable (h : Attended s) (b : s.Base) (hno : s.reg.NoOrphan) (hstep : s.step a = some t)
  (hroom : s.RoomForNotes a)
include h b hstep

section
include hno hroom

theorem added_step (hc : c < t.reg.inserted) (hopen : t.reg.Open c) :
    t.PendingFor .add (t.reg.name c) ∨ ((t.sock c).interest.isSome ∧ .onConnect ∈ t.trace c) := by
  have hs := step_sound hstep
  rcases inserted_cases hs hc with hold | ⟨rfl, -, hreg, -, hpending⟩
  · have hopen' : s.reg.Open c := by
      by_contra hclosed
      exact reg_step_closed b hs (b.reg.lt_next hold) hclosed hopen
    rw [reg_step_name b hs (b.reg.lt_next hold)]
    have hmap := hno.mapped c hold hopen'
    rcases h.added c hold hopen' with hpending | ⟨hinterest, hconnect⟩
    · refine (pendingFor_kept hstep hroom (by decide) hmap hpending).imp_right ?_
      rintro ⟨ct, rfl, hpc, hev, hname⟩
      -- the task finds the connection, whose entry was not lost
      have htable : s.reg.table (s.cell c).clientFd = some c := b.table_clientFd hopen' hold
      rw [← hname] at hmap
      cases hs with
      | addFound ct' d hpc' hev' hmap' =>
        obtain rfl := LoopPc.task.inj (hpc.symm.trans hpc')
        obtain rfl := Option.some.inj (hmap.symm.trans hmap')
        exact ⟨epollAdd_registers htable, by simp⟩
      | addLost ct' hpc' hev' hdel' hmap' =>
        obtain rfl := LoopPc.task.inj (hpc.symm.trans hpc')
        simp [hmap] at hmap'
      | sendDropped ct' hpc' hev' | sendStored ct' d sc cell hpc' hev' | delNone ct' hpc' hev'
      | delFound ct' d hpc' hev' =>
        obtain rfl := LoopPc.task.inj (hpc.symm.trans hpc')
        simp [hev] at hev'
    · exact Or.inr ⟨interest_step hs hinterest (not_closing hs hopen), trace_kept hs hconnect⟩
  · left
    rw [hreg]
    exact hpending

theorem ended_step (w : s.Enrolled) (hc : c < t.reg.inserted) (hopen : t.reg.Open c)
    (hseen : t.seen c) : t.PendingFor .del (t.reg.name c) ∨ t.loop = .delClose c := by
  have hs := step_sound hstep
  rcases inserted_cases hs hc with hold | ⟨rfl, -, -, heq, -⟩
  · have hopen' : s.reg.Open c := by
      by_contra hclosed
      exact reg_step_closed b hs (b.reg.lt_next hold) hclosed hopen
    rw [reg_step_name b hs (b.reg.lt_next hold)]
    have hmap := hno.mapped c hold hopen'
    rcases w.seen_cases b hs hseen with hseen' | ⟨-, hpending⟩
    · rcases h.ended c hold hopen' hseen' with hpending | hpc
      · refine (pendingFor_kept hstep hroom (by decide) hmap hpending).imp_right ?_
        rintro ⟨ct, rfl, hpc, hev, hname⟩
        rw [← hname] at hmap
        cases hs with
        | delFound ct' d hpc' hev' hmap' =>
          obtain rfl := LoopPc.task.inj (hpc.symm.trans hpc')
          obtain rfl := Option.some.inj (hmap.symm.trans hmap')
          rfl
        | delNone ct' hpc' hev' hmap' =>
          obtain rfl := LoopPc.task.inj (hpc.symm.trans hpc')
          simp [hmap] at hmap'
        | addLost ct' hpc' hev' | addFound ct' d hpc' hev' | sendDropped ct' hpc' hev'
        | sendStored ct' d sc cell hpc' hev' =>
          obtain rfl := LoopPc.task.inj (hpc.symm.trans hpc')
          simp [hev] at hev'
      · right
        rcases deleting_cases hs (x := c) (by rw [hpc]; rfl) with heq | ⟨-, ha⟩ | ⟨hpc', -⟩ | ⟨hpc', -⟩
        · rw [heq, hpc]
        · exact absurd hpc (not_closing hs hopen ha)
        · simp [hpc] at hpc'
        · simp [hpc] at hpc'
    · exact Or.inl hpending
  · rw [heq] at hseen
    exact absurd (w.seen _ hseen) (Nat.lt_irrefl _)

end

theorem closed_step (hc : c < t.reg.inserted) (hclosed : ¬ t.reg.Open c) :
    .onDisconnect ∈ t.trace c ∨ t.loop = .delErase c ∨ t.loop = .delNotify c := by
  have hs := step_sound hstep
  rcases inserted_cases hs hc with hold | ⟨rfl, hpc, hreg, -, -⟩
  · by_cases hopen : s.reg.Open c
    · -- closed in this step, which is the one of the deletion
      by_cases hnow : a = .close ∧ s.loop = .delClose c
      · obtain ⟨rfl, hpc⟩ := hnow
        cases hs with
        | close d ids hpc' =>
          obtain rfl := LoopPc.delClose.inj (hpc.symm.trans hpc')
          exact Or.inr (Or.inl rfl)
      · exact absurd (open_step b hs hopen fun ha hpc => hnow ⟨ha, hpc⟩) hclosed
    · rcases h.closed c hold hopen with hreported | hpc | hpc
      · exact Or.inl (trace_kept hs hreported)
      · rcases deleting_cases hs (x := c) (by rw [hpc]; rfl) with heq | ⟨hpc', -⟩ | ⟨-, hnext⟩ | ⟨hpc', -⟩
        · exact Or.inr (Or.inl (heq.trans hpc))
        · simp [hpc] at hpc'
        · exact Or.inr (Or.inr hnext)
        · simp [hpc] at hpc'
      · rcases deleting_cases hs (x := c) (by rw [hpc]; rfl) with heq | ⟨hpc', -⟩ | ⟨hpc', -⟩ | ⟨-, hreported⟩
        · exact Or.inr (Or.inr (heq.trans hpc))
        · simp [hpc] at hpc'
        · simp [hpc] at hpc'
        · exact Or.inl hreported
  · have hopen := b.reg.pending (b.accepted hpc)
    rw [hreg] at hclosed
    exact absurd hopen hclosed

end Attended

/-- What holds together in the runs that keep all notes. -/
structure NotesInv (s : CellManager) : Prop where
  base : s.Base
  noOrphan : s.reg.NoOrphan
  enrolled : s.Enrolled
  attended : s.Attended

theorem NotesInv.run {acts : List Action} (h : Run CellManager.step NotesKept {} acts s) :
    s.NotesInv := by
  refine h.invariant NotesInv ⟨.init, ⟨by simp, by simp⟩, .init, .init⟩ ?_
  rintro s a t ⟨b, hno, w, hat⟩ ⟨hlost, hroom⟩ hstep
  have hs := step_sound hstep
  refine ⟨b.step hs, noOrphan_step b hs hlost hno, w.step b hs, ⟨?_, ?_, ?_⟩⟩
  · exact fun _ hc hopen => hat.added_step b hno hstep hroom hc hopen
  · exact fun _ hc hopen hseen => hat.ended_step b hno hstep hroom w hc hopen hseen
  · exact fun _ hc hclosed => hat.closed_step b hstep hc hclosed

/-- With nothing left to do every connection is in use or gone. -/
theorem NotesInv.settled (i : s.NotesInv) (hdone : s.NothingToDo) (hc : c < s.reg.inserted) :
    s.InUse c ∨ s.Gone c := by
  obtain ⟨htasks, hdeleting⟩ := hdone
  have hnote {event : TaskEvent} {fd : ℕ} (hev : event ≠ .send) : ¬ s.PendingFor event fd := by
    rintro ⟨u, hu, rfl, -⟩
    exact hev (htasks u hu)
  by_cases hopen : s.reg.Open c
  · obtain ⟨hinterest, hconnect⟩ := (i.attended.added c hc hopen).resolve_left (hnote (by decide))
    refine Or.inl ⟨hopen, i.noOrphan.mapped c hc hopen, hinterest, hconnect, ?_⟩
    by_contra hseen
    have hpc := (i.attended.ended c hc hopen (by simpa using hseen)).resolve_left (hnote (by decide))
    rw [hpc] at hdeleting
    cases hdeleting
  · refine Or.inr ⟨hopen, fun hmap => ?_, ?_⟩
    · rcases i.base.reg.mapped _ _ hmap with hopen' | hclosing
      · exact hopen hopen'
      · rw [i.base.closing] at hclosing
        cases hl : s.loop <;> simp [hl, LoopPc.closing, LoopPc.deleting] at hclosing hdeleting
    · rcases i.attended.closed c hc hopen with hreported | hpc | hpc
      · exact hreported
      · rw [hpc] at hdeleting
        cases hdeleting
      · rw [hpc] at hdeleting
        cases hdeleting

/-! ## The loop thread gets everything done -/

/-- The loop thread is between two tasks, and no task is being pushed. -/
def AtRest (s : CellManager) : Prop := s.loop = .handleTask ∧ ∀ party, s.push? party = none

/-- A step of the loop thread in `handleTask`. -/
def OfHandleTask : Action → Prop
  | .pop => True
  | .handle => True
  | .close => True
  | .erase => True
  | .notify => True
  | .pushTest party => party = .loop
  | .pushReserve party => party = .loop
  | .pushPublish party => party = .loop
  | _ => False

/-- Handling a task that adds a connection can make one more task. -/
def taskWork (u : CellTask) : ℕ := if u.event = .add then 2 else 1

def work (s : CellManager) : ℕ := ((items s.cellTask).map taskWork).sum

theorem AtRest.delPush (hrest : s.AtRest) : s.delPush = none := hrest.2 .loop

theorem AtRest.of_eq (hrest : s.AtRest) (hloop : t.loop = .handleTask) (hacc : t.acceptor = s.acceptor)
    (hdel : t.delPush = s.delPush) (hsend : t.sender = s.sender) : t.AtRest :=
  ⟨hloop, fun party => (push?_of_eq hacc hdel hsend party).trans (hrest.2 party)⟩

theorem AtRest.reserved (hrest : s.AtRest) (hs : s.SlotsOwned) (party : Party) :
    SlotQueue.reserved party s.cellTask = 0 := by
  rw [hs party, publishing, hrest.2 party]
  rfl

/-- A guarded run of steps of the loop thread that leads to a state of rest with less to do. -/
structure Round (s t : CellManager) : Prop where
  run : ∃ more, (∀ a ∈ more, OfHandleTask a) ∧ Run CellManager.step NotesKept s more t
  rest : t.AtRest
  less : t.work < s.work

theorem notesKept_of {a : Action} (hinsert : a.isInsert = false) (htest : ∀ party, a ≠ .pushTest party) :
    s.NotesKept a := by
  refine ⟨onInsert_of_not hinsert, ?_⟩
  cases a with
  | pushTest party => exact absurd rfl (htest party)
  | _ => exact trivial

section
variable {ct : CellTask} {q : List (Slot Party CellTask)}

theorem work_pop (hpop : SlotQueue.pop s.cellTask = some (ct, q)) (hq : t.cellTask = q) :
    s.work = taskWork ct + t.work := by
  rw [work, items_pop hpop, work, hq]
  rfl

theorem work_pop_lt (hpop : SlotQueue.pop s.cellTask = some (ct, q)) (hq : t.cellTask = q) :
    t.work < s.work := by
  have hpos : 0 < taskWork ct := by
    unfold taskWork
    split_ifs <;> omega
  have heq := work_pop hpop hq
  omega

/-- The state in which the loop thread handles the task that it took. -/
def taken (s : CellManager) (ct : CellTask) (q : List (Slot Party CellTask)) : CellManager :=
  { s with cellTask := q, loop := .task ct }

theorem step_pop (hrest : s.AtRest) (hpop : SlotQueue.pop s.cellTask = some (ct, q)) :
    s.step .pop = some (s.taken ct q) := by
  simp [step, inLoop, CellManager.pop, taken, hrest.delPush, hrest.1, hpop]

/-- A task whose handling ends at once. -/
theorem Round.of_handle (hrest : s.AtRest) (hpop : SlotQueue.pop s.cellTask = some (ct, q))
    (hhandle : (s.taken ct q).step .handle = some t) (hloop : t.loop = .handleTask)
    (hq : t.cellTask = q) (hacc : t.acceptor = s.acceptor) (hdel : t.delPush = s.delPush)
    (hsend : t.sender = s.sender) : s.Round t where
  run := ⟨[.pop, .handle], by simp [OfHandleTask],
    .cons (notesKept_of rfl (by simp)) (step_pop hrest hpop) (.single (notesKept_of rfl (by simp)) hhandle)⟩
  rest := hrest.of_eq hloop hacc hdel hsend
  less := work_pop_lt hpop hq

theorem handle_send_round (hrest : s.AtRest) (hpop : SlotQueue.pop s.cellTask = some (ct, q))
    (hev : ct.event = .send) : ∃ t, s.Round t := by
  have hhandle : (s.taken ct q).step .handle = some ((s.taken ct q).handleSend ct) := by
    simp [step, inLoop, handle, taken, hrest.delPush, hev]
  refine ⟨_, .of_handle hrest hpop hhandle ?_ ?_ ?_ ?_ ?_⟩
  all_goals
    unfold handleSend
    split
    · rfl
    · split <;> rfl

theorem handle_del_round (hrest : s.AtRest) (hpop : SlotQueue.pop s.cellTask = some (ct, q))
    (hev : ct.event = .del) (hring : ∀ c, ∃ ids, (s.cell c).destroy = some ids) : ∃ t, s.Round t := by
  have hhandle : (s.taken ct q).step .handle = some ((s.taken ct q).handleDel ct) := by
    simp [step, inLoop, handle, taken, hrest.delPush, hev]
  cases hmap : s.reg.map ct.clientid with
  | none =>
    have heq : (s.taken ct q).handleDel ct = { s.taken ct q with loop := .handleTask } := by
      simp [handleDel, taken, hmap]
    rw [heq] at hhandle
    exact ⟨_, .of_handle hrest hpop hhandle rfl rfl rfl rfl rfl⟩
  | some c =>
    -- the descriptor is closed, the entry erased, and the end reported
    have heq : (s.taken ct q).handleDel ct = { s.taken ct q with loop := .delClose c } := by
      simp [handleDel, taken, hmap]
    rw [heq] at hhandle
    obtain ⟨ids, hids⟩ := hring c
    have hclose : ∃ t₁, ({ s.taken ct q with loop := .delClose c } : CellManager).step .close = some t₁ ∧
        t₁.loop = .delErase c ∧ t₁.cellTask = q ∧ t₁.acceptor = s.acceptor ∧ t₁.delPush = s.delPush ∧
        t₁.sender = s.sender := by
      refine ⟨{ s.taken ct q with
        reg := s.reg.close c
        sock := Function.update s.sock c { s.sock c with interest := none }
        freed := s.freed ++ ids
        loop := .delErase c }, ?_, rfl, rfl, rfl, rfl, rfl⟩
      simp [step, inLoop, close, taken, hrest.delPush, hids]
    obtain ⟨t₁, hclose, hloop, hq, hacc, hdel, hsend⟩ := hclose
    have herase : t₁.step .erase = some { t₁ with reg := t₁.reg.erase c, loop := .delNotify c } := by
      simp [step, inLoop, erase, hdel, hrest.delPush, hloop]
    have hnotify : ({ t₁ with reg := t₁.reg.erase c, loop := .delNotify c } : CellManager).step .notify =
        some { t₁ with
          reg := t₁.reg.erase c
          trace := Function.update t₁.trace c (t₁.trace c ++ [.onDisconnect])
          loop := .handleTask } := by
      simp [step, inLoop, notify, hdel, hrest.delPush]
    have hrun : Run CellManager.step NotesKept s [.pop, .handle, .close, .erase, .notify] _ :=
      .cons (notesKept_of rfl (by simp)) (step_pop hrest hpop)
        (.cons (notesKept_of rfl (by simp)) hhandle (.cons (notesKept_of rfl (by simp)) hclose
          (.cons (notesKept_of rfl (by simp)) herase (.single (notesKept_of rfl (by simp)) hnotify))))
    exact ⟨_, ⟨_, by simp [OfHandleTask], hrun⟩, hrest.of_eq rfl hacc hdel hsend, work_pop_lt hpop hq⟩

/-- The loop thread pushes a task that nobody needs, which ends in the queue or is dropped. -/
theorem push_run {p : Push} (hslot : SlotQueue.reserved .loop s.cellTask = 0)
    (hpush : ∀ party, s.push? party = if party = .loop then some p else none) (hstage : p.stage = .test)
    (hmap : s.reg.map p.task.clientid = none) (hloop : s.loop = .handleTask) :
    ∃ more t, (∀ a ∈ more, OfHandleTask a) ∧ Run CellManager.step NotesKept s more t ∧ t.AtRest ∧
      (t.cellTask = s.cellTask ∨ t.cellTask = s.cellTask ++ [.ready p.task]) := by
  have hp : s.push? .loop = some p := hpush .loop
  have hoktest : s.NotesKept (.pushTest .loop) := by
    refine ⟨trivial, ?_⟩
    intro p' hp' _ hne
    obtain rfl := Option.some.inj (hp.symm.trans hp')
    exact absurd hmap hne
  by_cases hfull : queueFull s.cellTask.length = true
  · have htest : s.step (.pushTest .loop) = some (s.endPush p false .loop) := by
      simp [step, pushTest, hp, hstage, hfull]
    refine ⟨[.pushTest .loop], _, by simp [OfHandleTask], .single hoktest htest, ⟨hloop, ?_⟩,
      Or.inl rfl⟩
    intro party
    rw [push?_endPush _ hp, hpush party]
    split_ifs <;> rfl
  · let p₁ : Push := { p with stage := .reserve }
    let p₂ : Push := { p with stage := .publish }
    let s₁ := s.setPush p₁ .loop
    let s₂ : CellManager := { s₁ with cellTask := reserve s.cellTask .loop }
    let s₃ := s₂.setPush p₂ .loop
    let s₄ : CellManager := { s₃ with cellTask := s.cellTask ++ [.ready p.task] }
    have htest : s.step (.pushTest .loop) = some s₁ := by
      simp [step, pushTest, hp, hstage, hfull, s₁, p₁]
    have hp₁ : s₁.push? .loop = some p₁ := by rw [push?_setPush hp, if_pos rfl]
    have hreserve : s₁.step (.pushReserve .loop) = some s₃ := by
      simp only [step, pushReserve, hp₁, Option.bind_some, p₁, if_true]
      rfl
    have hp₂ : s₂.push? .loop = some p₁ := hp₁
    have hp₃ : s₃.push? .loop = some p₂ := by rw [push?_setPush hp₂, if_pos rfl]
    have hpublish : s₃.step (.pushPublish .loop) = some (s₄.endPush p₂ true .loop) := by
      have hfill : fill .loop p.task s₃.cellTask = some (s.cellTask ++ [.ready p.task]) :=
        fill_reserve hslot p.task
      simp only [step, pushPublish, hp₃, Option.bind_some, p₂, if_true, hfill, Option.map_some]
      rfl
    have hp₄ : s₄.push? .loop = some p₂ := hp₃
    have hrun : Run CellManager.step NotesKept s
        [.pushTest .loop, .pushReserve .loop, .pushPublish .loop] (s₄.endPush p₂ true .loop) :=
      .cons hoktest htest (.cons (notesKept_of rfl (by simp)) hreserve
        (.single (notesKept_of rfl (by simp)) hpublish))
    refine ⟨_, s₄.endPush p₂ true .loop, by simp [OfHandleTask], hrun, ⟨hloop, ?_⟩, Or.inr rfl⟩
    intro party
    rw [push?_endPush true hp₄]
    split_ifs with hparty
    · rfl
    · change s₃.push? party = none
      rw [push?_setPush hp₂, if_neg hparty]
      change s₁.push? party = none
      rw [push?_setPush hp, if_neg hparty, hpush party, if_neg hparty]

theorem handle_add_round (hrest : s.AtRest) (hs : s.SlotsOwned)
    (hpop : SlotQueue.pop s.cellTask = some (ct, q)) (hev : ct.event = .add) : ∃ t, s.Round t := by
  have hhandle : (s.taken ct q).step .handle = some ((s.taken ct q).handleAdd ct) := by
    simp [step, inLoop, handle, taken, hrest.delPush, hev]
  cases hmap : s.reg.map ct.clientid with
  | some c =>
    refine ⟨_, .of_handle hrest hpop hhandle ?_ ?_ ?_ ?_ ?_⟩ <;> simp [handleAdd, taken, hmap]
  | none =>
    -- the connection is gone already, and a task is made that deletes it once more
    have heq : (s.taken ct q).handleAdd ct =
        ({ s.taken ct q with loop := .handleTask } : CellManager).delTask ct.clientid ct.conn := by
      simp [handleAdd, taken, hmap]
    rw [heq] at hhandle
    have hslot : SlotQueue.reserved .loop q = 0 :=
      (reserved_pop hpop .loop).trans (hrest.reserved hs .loop)
    obtain ⟨more, t, hmore, hrun, hrest', hq⟩ := push_run
      (s := ({ s.taken ct q with loop := .handleTask } : CellManager).delTask ct.clientid ct.conn)
      (p := ⟨⟨.del, ct.clientid, ct.conn, none⟩, .test⟩) hslot
      (fun party => (push?_delTask (s := s) rfl rfl party).trans (by rw [hrest.2 party])) rfl hmap rfl
    have hless : t.work < s.work := by
      have hwork : s.work = 2 + ((items q).map taskWork).sum := by
        rw [work, items_pop hpop, List.map_cons, List.sum_cons, taskWork, if_pos hev]
      rcases hq with hq | hq
      · rw [hwork, work, hq]
        exact Nat.lt_add_of_pos_left (by decide)
      · have hitems : items t.cellTask = items q ++ [⟨.del, ct.clientid, ct.conn, none⟩] := by
          rw [hq]
          exact List.filterMap_append
        rw [hwork, work, hitems, List.map_append, List.sum_append]
        simp [taskWork]
        omega
    refine ⟨t, ⟨[.pop, .handle] ++ more, ?_, ?_⟩, hrest', hless⟩
    · intro a ha
      rcases List.mem_append.mp ha with ha | ha
      · simp only [List.mem_cons, List.not_mem_nil, or_false] at ha
        rcases ha with rfl | rfl <;> trivial
      · exact hmore a ha
    · exact .append (.cons (notesKept_of rfl (by simp)) (step_pop hrest hpop)
        (.single (notesKept_of rfl (by simp)) hhandle)) hrun

end

/-- From rest the loop thread takes the next task, or there is none. -/
theorem next_round (r : s.Releasable) (hrest : s.AtRest) : s.cellTask = [] ∨ ∃ t, s.Round t := by
  rcases pop_cases (hrest.reserved r.slots) with hnil | ⟨ct, q, hpop⟩
  · exact Or.inl hnil
  · right
    cases hev : ct.event with
    | add => exact handle_add_round hrest r.slots hpop hev
    | send => exact handle_send_round hrest hpop hev
    | del =>
      refine handle_del_round hrest hpop hev fun c => ?_
      obtain ⟨xs, hring, -⟩ := r.carried.ring c
      exact ⟨_, hring.destroy⟩

theorem handleTask_ends {acts : List Action} (hrun : Run CellManager.step NotesKept {} acts s)
    (hrest : s.AtRest) : ∃ more t, (∀ a ∈ more, OfHandleTask a) ∧
      Run CellManager.step NotesKept s more t ∧ t.AtRest ∧ t.cellTask = [] := by
  induction hn : s.work using Nat.strong_induction_on generalizing s acts with
  | _ n ih =>
    rcases next_round (.run hrun) hrest with hnil | ⟨t, ⟨more, hmore, hround⟩, hrest', hless⟩
    · exact ⟨[], s, List.forall_mem_nil _, .nil, hrest, hnil⟩
    · obtain ⟨more', t', hmore', hrun', hend⟩ :=
        ih t.work (hn ▸ hless) (hrun.append hround) hrest' rfl
      exact ⟨more ++ more', t', fun a ha => (List.mem_append.mp ha).elim (hmore a) (hmore' a),
        hround.append hrun', hend⟩

theorem AtRest.nothingToDo (hrest : s.AtRest) (hnil : s.cellTask = []) : s.NothingToDo := by
  refine ⟨?_, by rw [hrest.1]; rfl⟩
  rintro u (⟨party, p, hp, -⟩ | hu | hu)
  · rw [hrest.2 party] at hp
    cases hp
  · rw [hnil] at hu
    cases hu
  · rw [hrest.1] at hu
    cases hu

theorem kept_over {ok : CellManager → Action → Prop} {acts more : List Action}
    (hrun : Run CellManager.step ok {} acts s) (hmore : Run CellManager.step ok s more t)
    (hc : c < s.reg.inserted) : c < t.reg.inserted ∧ (s.seen c → t.seen c) := by
  refine (hmore.invariant (fun t => t.Base ∧ c < t.reg.inserted ∧ (s.seen c → t.seen c))
    ⟨.run hrun, hc, id⟩ ?_).2
  rintro s' a t' ⟨b, hlt, hseen⟩ - hstep
  have hs := step_sound hstep
  exact ⟨b.step hs, hlt.trans_le (reg_step_inserted_le b hs), fun hx => seen_step hs (hseen hx)⟩

end CellManager

/-- While no entry is lost and the queue has room, every connection is attended to. With no such
task left each one is in use or gone, and the loop thread gets there by itself, with every
connection gone whose end was seen. -/
theorem connections_settle {acts : List Action} {s : CellManager}
    (hrun : Run CellManager.step CellManager.NotesKept {} acts s) :
    s.Attended ∧ (s.NothingToDo → ∀ c < s.reg.inserted, s.InUse c ∨ s.Gone c) ∧
      (s.AtRest → ∃ more t, (∀ a ∈ more, CellManager.OfHandleTask a) ∧
        Run CellManager.step CellManager.NotesKept s more t ∧ t.AtRest ∧ t.cellTask = [] ∧
        ∀ c < s.reg.inserted, (t.InUse c ∨ t.Gone c) ∧ (s.seen c → t.Gone c)) := by
  have i := CellManager.NotesInv.run hrun
  refine ⟨i.attended, fun hdone c hc => i.settled hdone hc, fun hrest => ?_⟩
  obtain ⟨more, t, hmore, hrun', hrest', hnil⟩ := CellManager.handleTask_ends hrun hrest
  refine ⟨more, t, hmore, hrun', hrest', hnil, fun c hc => ?_⟩
  obtain ⟨hlt, hseen⟩ := CellManager.kept_over hrun hrun' hc
  have hsettled := (CellManager.NotesInv.run (hrun.append hrun')).settled (hrest'.nothingToDo hnil) hlt
  refine ⟨hsettled, fun hx => hsettled.resolve_left fun huse => ?_⟩
  simp [huse.unseen] at hseen
  simp [hseen] at hx

/-- A connection is accepted, and its peer hangs up. -/
def oneHangUp : List Action := connectOn5 ++ [.fin 0] ++ hangUp 5 0

theorem connections_settle_one_hang_up :
    ∃ s, Run CellManager.step CellManager.NotesKept {} oneHangUp s ∧ s.AtRest ∧ s.reg.Open 0 ∧
      ∃ more t, (∀ a ∈ more, CellManager.OfHandleTask a) ∧
        Run CellManager.step CellManager.NotesKept s more t ∧ t.Gone 0 := by
  have hexec : (exec (fun s a => if decide (CellManager.NotesKept s a) then s.step a else none) {}
      oneHangUp).map (fun s => (s.loop, s.acceptor, s.delPush, s.sender)) =
        some (.handleTask, .idle, none, fun _ => .idle) := by rfl
  have hseen : (exec (fun s a => if decide (CellManager.NotesKept s a) then s.step a else none) {}
      oneHangUp).map (fun s => decide (0 < s.reg.inserted ∧ s.reg.Open 0 ∧ s.seen 0 = true)) =
        some true := by decide +kernel
  obtain ⟨s, hs, hrest⟩ := Option.map_eq_some_iff.mp hexec
  rw [hs, Option.map_some] at hseen
  obtain ⟨hlt, hopen, hseen⟩ := of_decide_eq_true (Option.some.inj hseen)
  obtain ⟨hloop, hrest⟩ := Prod.mk.inj hrest
  obtain ⟨hacc, hrest⟩ := Prod.mk.inj hrest
  obtain ⟨hdel, hsend⟩ := Prod.mk.inj hrest
  have hrun : Run CellManager.step CellManager.NotesKept {} oneHangUp s :=
    .of_exec_guard (fun s a => decide (s.NotesKept a)) (fun _ _ _ h => of_decide_eq_true h) hs
  have hrest : s.AtRest := by
    refine ⟨hloop, fun party => ?_⟩
    cases party <;> simp [CellManager.push?, hacc, hdel, hsend]
  obtain ⟨more, t, hmore, hrun', -, -, hall⟩ := (connections_settle hrun).2.2 hrest
  exact ⟨s, hrun, hrest, hopen, more, t, hmore, hrun', (hall 0 hlt).2 hseen⟩

end TcpLib
