import TcpLib.CellManagerInv

/-!
# Tasks and the connections they are meant for

A task names its connection by descriptor only. While no connection is added under a descriptor
for which a deletion is pending, every pending deletion is for the last connection that had the
descriptor, a connection whose addition is pending is still open, and neither meets the other.
-/

namespace TcpLib
open SlotQueue Transition

/-- The events in the hand of the loop thread and after it. -/
def LoopPc.rest : LoopPc → List EpollEvent
  | .events es => es
  | .recv _ e es => e :: es
  | .write e es => e :: es
  | _ => []

def Action.isInsert : Action → Bool
  | .insert _ _ _ _ => true
  | _ => false

/-- A call of `senddata` is made by one of the first `n` threads. -/
def Action.sendsBelow (n : ℕ) : Action → Bool
  | .sendLookup i _ _ => decide (i < n)
  | _ => true

def SenderPc.isIdle : SenderPc → Bool
  | .idle => true
  | _ => false

namespace CellManager

/-- What is assumed of the descriptor when `addTask` enters a new connection. -/
def OnInsert (s : CellManager) (a : Action) (P : ℕ → Prop) : Prop :=
  match a with
  | .insert _ _ _ _ => P (s.reg.name s.reg.inserted)
  | _ => True

/-- A task with this event and descriptor is pending. -/
def PendingFor (s : CellManager) (event : TaskEvent) (fd : ℕ) : Prop :=
  ∃ u, s.Pending u ∧ u.event = event ∧ u.clientid = fd

/-- No connection is added under a descriptor for which a deletion is pending. -/
def NoStaleDel (s : CellManager) (a : Action) : Prop := s.OnInsert a fun fd => ¬ s.PendingFor .del fd

/-- No connection is added under a descriptor that is closed and still has its entry. -/
def NoLostEntry (s : CellManager) (a : Action) : Prop :=
  s.OnInsert a fun fd => ∀ c ∈ s.loop.closing, s.reg.name c ≠ fd

instance (s : CellManager) (a : Action) {P : ℕ → Prop} [DecidablePred P] :
    Decidable (s.OnInsert a P) := by
  cases a <;> unfold OnInsert <;> infer_instance

instance (s : CellManager) (a : Action) : Decidable (s.NoLostEntry a) := by
  unfold NoLostEntry; infer_instance

structure Tickets (s : CellManager) : Prop where
  del : ∀ u, s.Pending u → u.event = .del →
    s.reg.Latest u.conn ∧ u.clientid = s.reg.name u.conn ∧ s.adds u.conn = 0
  add : ∀ u, s.Pending u → u.event = .add →
    u.conn < s.reg.inserted ∧ s.reg.Open u.conn ∧ u.clientid = s.reg.name u.conn
  adds_le : ∀ x, s.adds x ≤ 1
  adds_new : ∀ x, s.reg.inserted ≤ x → s.adds x = 0
  registered : ∀ x, (s.sock x).interest.isSome →
    x < s.reg.inserted ∧ s.reg.Open x ∧ s.adds x = 0
  events : ∀ e ∈ s.loop.rest, s.reg.table e.fd = some e.conn ∧ (s.sock e.conn).interest.isSome
  found : ∀ c, s.loop.found = some c → s.adds c = 0

variable {s t : CellManager} {a : Action} {u : CellTask} {c x : ℕ}

theorem insert_of_reg (h : Step s a t) (hreg : t.reg = s.reg.insert) :
    ∃ buf ev ip port, a = .insert buf ev ip port := by
  have hins := congrArg Registry.inserted hreg
  cases h with
  | insert buf ev ip port => exact ⟨buf, ev, ip, port, rfl⟩
  | _ => exact absurd hins (Nat.ne_of_lt (Nat.lt_succ_self _))

/-- In a guarded step a good reference stays good if a task keeps its descriptor from being
used again. -/
theorem latest_of_pending {event : TaskEvent} (b : s.Base) (h : Step s a t)
    (hok : s.OnInsert a fun fd => ¬ s.PendingFor event fd) (hu : s.Pending u) (hev : u.event = event)
    (hname : u.clientid = s.reg.name u.conn) (hc : s.reg.Latest u.conn) : t.reg.Latest u.conn := by
  refine latest_step b h hc fun hreg heq => ?_
  obtain ⟨buf, ev, ip, port, rfl⟩ := insert_of_reg h hreg
  exact hok ⟨u, hu, hev, hname.trans heq.symm⟩

/-- An entry is lost only to a connection that is added while its owner is being deleted. -/
theorem noOrphan_step (b : s.Base) (h : Step s a t) (hok : s.NoLostEntry a) (hno : s.reg.NoOrphan) :
    t.reg.NoOrphan := by
  rcases reg_step b h with heq | hreg
  · rwa [heq]
  · refine hno.step b.reg hreg fun hinsert d hd heq => ?_
    obtain ⟨buf, ev, ip, port, rfl⟩ := insert_of_reg h hinsert
    exact hok d (b.closing ▸ hd) heq.symm

theorem open_step (b : s.Base) (h : Step s a t) (hopen : s.reg.Open c)
    (hc : a = .close → s.loop ≠ .delClose c) : t.reg.Open c := by
  cases h with
  | accept fd hpc hpos hfree =>
    exact (Registry.accept_open_iff (b.reg.table _ _ hopen).2.1 hfree).mpr hopen
  | close d ids hpc =>
    refine Registry.close_open_iff.mpr ⟨hopen, fun hname => hc rfl ?_⟩
    have hd := b.found_open (c := d) (by rw [hpc]; rfl)
    rw [hpc, Registry.open_unique hopen hd hname]
  | _ => exact hopen

theorem adds_pos (hs : s.Shape) (hu : s.Pending u) (hev : u.event = .add) : 0 < s.adds u.conn := by
  have hcount {l : List CellTask} (h : u ∈ l) : 0 < l.countP (isAdd u.conn) :=
    List.countP_pos_iff.mpr ⟨u, h, by simp [isAdd, hev]⟩
  unfold adds
  rcases hu with ⟨party, p, hp, rfl⟩ | hu | hu
  · obtain rfl := (hs party p hp).mp hev
    have := hcount (l := (s.acceptor.push?.map Push.task).toList) (by
      rw [show s.acceptor.push? = some p from hp]
      simp)
    omega
  · have := hcount hu
    omega
  · have := hcount hu
    omega

theorem proj_update {β γ : Type*} (f : β → γ) {g : ℕ → β} {d : ℕ} {b : β} (h : f b = f (g d)) (x : ℕ) :
    f (Function.update g d b x) = f (g x) := by
  by_cases hxd : x = d
  · subst hxd; simpa using h
  · simp [hxd]

/-- The registration of a socket ends only when it is closed. -/
theorem interest_step (h : Step s a t) (hx : (s.sock x).interest.isSome)
    (hc : a = .close → s.loop ≠ .delClose x) : (t.sock x).interest.isSome := by
  cases h with
  | arrive => rwa [proj_update Sock.interest (by rfl)]
  | fin => rwa [proj_update Sock.interest (by rfl)]
  | rst => rwa [proj_update Sock.interest (by rfl)]
  | addFound ct c hpc hev hmap =>
    rcases epollAdd_cases s (s.cell c).clientFd addEvents x with heq | ⟨-, hnone, -⟩
    · simpa [heq] using hx
    · simp [hnone] at hx
  | close c ids hpc =>
    have hxc : x ≠ c := fun heq => hc rfl (by rw [hpc, heq])
    simpa [hxc] using hx
  | checkWrite hpc =>
    dsimp only
    split
    · split_ifs
      · unfold Sock.epollMod
        split <;> simp [hx]
      · exact hx
    · exact hx
  | read => rwa [proj_update Sock.interest (by rfl)]
  | write => rwa [proj_update Sock.interest (by rfl)]
  | _ => exact hx

theorem interest_cases (h : Step s a t) (hx : (t.sock x).interest.isSome) :
    ((s.sock x).interest.isSome ∧ (a = .close → s.loop ≠ .delClose x)) ∨
      ∃ ct c, s.loop = .task ct ∧ ct.event = .add ∧ s.reg.map ct.clientid = some c ∧
        s.reg.table (s.cell c).clientFd = some x ∧ t.reg = s.reg ∧
        t.trace c = s.trace c ++ [.onConnect] ∧ t.adds ct.conn + 1 ≤ s.adds ct.conn := by
  cases h with
  | arrive => exact Or.inl ⟨by rwa [proj_update Sock.interest (by rfl)] at hx, by simp⟩
  | fin => exact Or.inl ⟨by rwa [proj_update Sock.interest (by rfl)] at hx, by simp⟩
  | rst => exact Or.inl ⟨by rwa [proj_update Sock.interest (by rfl)] at hx, by simp⟩
  | read => exact Or.inl ⟨by rwa [proj_update Sock.interest (by rfl)] at hx, by simp⟩
  | write => exact Or.inl ⟨by rwa [proj_update Sock.interest (by rfl)] at hx, by simp⟩
  | close c ids hpc =>
    by_cases hxc : x = c
    · simp [hxc] at hx
    · exact Or.inl ⟨by simpa [hxc] using hx, by simp [hpc, Ne.symm hxc]⟩
  | addFound ct c hpc hev hmap =>
    rcases epollAdd_cases s (s.cell c).clientFd addEvents x with heq | ⟨htable, -, -⟩
    · exact Or.inl ⟨by simpa [heq] using hx, by simp⟩
    · exact Or.inr ⟨ct, c, hpc, hev, hmap, htable, rfl, by simp,
        adds_handle (s := s) rfl rfl hpc rfl ⟨hev, rfl⟩⟩
  | checkWrite hpc =>
    refine Or.inl ⟨?_, by simp⟩
    dsimp only at hx
    split at hx
    · split_ifs at hx
      · unfold Sock.epollMod at hx
        split at hx
        · next h _ => simp [h]
        · exact hx
      · exact hx
    · exact hx
  | _ => exact Or.inl ⟨hx, by simp⟩

theorem rest_step (h : Step s a t) {e : EpollEvent} (he : e ∈ t.loop.rest) :
    e ∈ s.loop.rest ∨ (s.EventOk e ∧ t.reg = s.reg ∧ t.sock = s.sock) := by
  cases h with
  | epollWait es hpc hok => exact Or.inr ⟨hok e he, rfl, rfl⟩
  | hangup e' es hpc => exact Or.inl (by rw [hpc]; exact List.mem_cons_of_mem e' he)
  | recvStart e' es c hpc => exact Or.inl (by rw [hpc]; exact he)
  | recvSkip e' es hpc => exact Or.inl (by rw [hpc]; exact he)
  | read r hub c d e' es o pc hpc hd hlegal hok ho hnext hpc' =>
    exact Or.inl (by rw [hpc]; rcases hpc' with rfl | rfl <;> exact he)
  | readClosed r hub c d e' es hpc => exact Or.inl (by rw [hpc]; exact he)
  | writeSkip writes e' es hpc => exact Or.inl (by rw [hpc]; exact List.mem_cons_of_mem e' he)
  | write writes e' es c d o hpc => exact Or.inl (by rw [hpc]; exact List.mem_cons_of_mem e' he)
  | arrive => exact Or.inl he
  | fin => exact Or.inl he
  | rst => exact Or.inl he
  | accept => exact Or.inl he
  | insert => exact Or.inl he
  | pushFull => exact Or.inl he
  | pushRoom => exact Or.inl he
  | pushReserve => exact Or.inl he
  | pushPublish => exact Or.inl he
  | sendLost => exact Or.inl he
  | sendFound => exact Or.inl he
  | sendReturn => exact Or.inl he
  | _ => cases he

theorem adds_eq_zero (b : s.Base) (h : Step s a t) (hx : x < s.reg.inserted)
    (hzero : s.adds x = 0) : t.adds x = 0 := by
  rcases adds_step (x := x) h b.shape with hle | ⟨-, -, hnew, -⟩
  · omega
  · omega

namespace Tickets

theorem init : Tickets {} where
  del := fun _ hu => absurd hu (not_pending_first {} rfl)
  add := fun _ hu => absurd hu (not_pending_first {} rfl)
  adds_le := fun x => Nat.zero_le _
  adds_new := fun x _ => rfl
  registered := by simp
  events := by simp [LoopPc.rest]
  found := by simp [LoopPc.found]

/-- Whatever `handleDel` finds is the connection that the task was made for. -/
theorem del_found (k : s.Tickets) (b : s.Base) (hu : s.Pending u) (hev : u.event = .del)
    (hmap : s.reg.map u.clientid = some c) : c = u.conn := by
  obtain ⟨hlatest, hname, -⟩ := k.del u hu hev
  exact b.reg.found hlatest (hname ▸ hmap)

/-- Whatever `handleAdd` finds is the connection that the task was made for. -/
theorem add_found (k : s.Tickets) (b : s.Base) (hu : s.Pending u) (hev : u.event = .add)
    (hmap : s.reg.map u.clientid = some c) : c = u.conn := by
  obtain ⟨hlt, hopen, hname⟩ := k.add u hu hev
  exact b.reg.found (b.reg.open_latest hlt hopen) (hname ▸ hmap)

/-- The connection of an event is the one that is looked up for it. -/
theorem event_found (k : s.Tickets) (b : s.Base) {e : EpollEvent} (he : e ∈ s.loop.rest)
    (hmap : s.reg.map e.fd = some c) : c = e.conn := by
  obtain ⟨htable, hreg⟩ := k.events e he
  obtain ⟨hlt, hopen, -⟩ := k.registered _ hreg
  refine b.reg.found (b.reg.open_latest hlt hopen) ?_
  rwa [(b.reg.table _ _ htable).1]

theorem del_step (k : s.Tickets) (b : s.Base) (h : Step s a t) (hok : s.NoStaleDel a)
    (hu : t.Pending u) (hev : u.event = .del) :
    t.reg.Latest u.conn ∧ u.clientid = t.reg.name u.conn ∧ t.adds u.conn = 0 := by
  -- a deletion made in this step is for an open connection that is added already
  have hnew (hlt : u.conn < s.reg.inserted) (hopen : s.reg.Open u.conn) (hreg : t.reg = s.reg)
      (hname : u.clientid = s.reg.name u.conn) (hadds : t.adds u.conn = 0) :
      t.reg.Latest u.conn ∧ u.clientid = t.reg.name u.conn ∧ t.adds u.conn = 0 := by
    rw [hreg]
    exact ⟨b.reg.open_latest hlt hopen, hname, hadds⟩
  rcases pending_step h hu with hold | hcreated
  · obtain ⟨hlatest, hname, hadds⟩ := k.del u hold hev
    refine ⟨latest_of_pending b h hok hold hev hname hlatest, ?_, adds_eq_zero b h hlatest.1 hadds⟩
    rw [hname, reg_step_name b h (b.reg.lt_next hlatest.1)]
  · cases hcreated with
    | add => cases hev
    | send => cases hev
    | lost ct _ hpc hadd hmap hreg hle =>
      obtain ⟨hlt, hopen, hname⟩ := k.add ct (Or.inr (Or.inr (by simp [hpc, LoopPc.tasks]))) hadd
      have hone := hle.trans (k.adds_le ct.conn)
      exact hnew hlt hopen hreg hname (Nat.le_zero.mp (Nat.le_of_succ_le_succ hone))
    | hangup e es _ hpc hhup hreg =>
      obtain ⟨htable, hinterest⟩ := k.events e (by simp [hpc, LoopPc.rest])
      obtain ⟨hlt, hopen, hzero⟩ := k.registered _ hinterest
      exact hnew hlt hopen hreg (b.reg.table _ _ htable).1.symm (adds_eq_zero b h hlt hzero)
    | closed r hub c d e es _ hpc hd hok hr hreg =>
      have hfound : s.loop.found = some c := by rw [hpc]; rfl
      have hlt := b.found_lt hfound
      have hzero := adds_eq_zero b h hlt (k.found c hfound)
      exact hnew hlt (b.found_open hfound) hreg (b.fd c hlt) hzero

theorem add_step (k : s.Tickets) (b : s.Base) (h : Step s a t) (hu : t.Pending u)
    (hev : u.event = .add) :
    u.conn < t.reg.inserted ∧ t.reg.Open u.conn ∧ u.clientid = t.reg.name u.conn := by
  rcases pending_step h hu with hold | hcreated
  · obtain ⟨hlt, hopen, hname⟩ := k.add u hold hev
    have hpos := adds_pos b.shape hold hev
    refine ⟨hlt.trans_le (reg_step_inserted_le b h), open_step b h hopen fun _ hpc => ?_, ?_⟩
    · -- the loop thread does not delete what is not added yet
      have := k.found u.conn (by rw [hpc]; rfl)
      omega
    · rw [hname, reg_step_name b h (b.reg.lt_next hlt)]
  · cases hcreated with
    | add buf ev ip port _ hpc hreg =>
      rw [hreg]
      exact ⟨Nat.lt_succ_self _, b.reg.pending (b.accepted hpc), rfl⟩
    | send => cases hev
    | lost => cases hev
    | hangup => cases hev
    | closed => cases hev

theorem registered_step (k : s.Tickets) (b : s.Base) (h : Step s a t)
    (hx : (t.sock x).interest.isSome) : x < t.reg.inserted ∧ t.reg.Open x ∧ t.adds x = 0 := by
  rcases interest_cases h hx with ⟨hold, hne⟩ | ⟨ct, c, hpc, hev, hmap, htable, hreg, -, hadds⟩
  · obtain ⟨hlt, hopen, hzero⟩ := k.registered x hold
    exact ⟨hlt.trans_le (reg_step_inserted_le b h), open_step b h hopen hne,
      adds_eq_zero b h hlt hzero⟩
  · -- the cell found is the one that is to be added, and its descriptor is its own
    have hu : s.Pending ct := Or.inr (Or.inr (by simp [hpc, LoopPc.tasks]))
    obtain rfl := k.add_found b hu hev hmap
    obtain ⟨hlt, hopen, hname⟩ := k.add ct hu hev
    obtain rfl := b.own_sock hopen hlt htable
    have hone := hadds.trans (k.adds_le ct.conn)
    rw [hreg]
    exact ⟨hlt, hopen, Nat.le_zero.mp (Nat.le_of_succ_le_succ hone)⟩

theorem event_step (k : s.Tickets) (h : Step s a t) {e : EpollEvent} (he : e ∈ s.loop.rest) :
    t.reg.table e.fd = some e.conn ∧ (t.sock e.conn).interest.isSome := by
  obtain ⟨htable, hreg⟩ := k.events e he
  refine ⟨?_, interest_step h hreg fun _ hpc => by simp [hpc, LoopPc.rest] at he⟩
  cases h with
  | accept fd hpc hpos hfree =>
    have hne : e.fd ≠ fd := fun heq => by simp [← heq, htable] at hfree
    simpa [Registry.accept, hne] using htable
  | close c ids hpc => simp [hpc, LoopPc.rest] at he
  | _ => exact htable

theorem events_step (k : s.Tickets) (h : Step s a t) :
    ∀ e ∈ t.loop.rest, t.reg.table e.fd = some e.conn ∧ (t.sock e.conn).interest.isSome := by
  intro e he
  rcases rest_step h he with hold | ⟨⟨htable, hinterest, -⟩, hreg, hsock⟩
  · exact k.event_step h hold
  · rw [hreg, hsock]
    exact ⟨htable, hinterest⟩

theorem found_step (k : s.Tickets) (b : s.Base) (h : Step s a t) (hc : t.loop.found = some c) :
    t.adds c = 0 := by
  have hold (hc : s.loop.found = some c) : t.adds c = 0 :=
    adds_eq_zero b h (b.found_lt hc) (k.found c hc)
  cases h with
  | delFound ct d hpc hev hmap =>
    obtain rfl := Option.some.inj hc
    have hu : s.Pending ct := Or.inr (Or.inr (by simp [hpc, LoopPc.tasks]))
    obtain rfl := k.del_found b hu hev hmap
    obtain ⟨hlatest, -, hzero⟩ := k.del ct hu hev
    exact adds_eq_zero b (.delFound ct _ hpc hev hmap) hlatest.1 hzero
  | recvStart e es d hpc hhup hmap =>
    obtain rfl := Option.some.inj hc
    have he : e ∈ s.loop.rest := by simp [hpc, LoopPc.rest]
    obtain rfl := k.event_found b he hmap
    obtain ⟨hlt, -, hzero⟩ := k.registered _ (k.events e he).2
    exact adds_eq_zero b (.recvStart e es _ hpc hhup hmap) hlt hzero
  | read r hub d d' e es o pc hpc hd hlegal hok ho hnext hpc' =>
    rcases hpc' with rfl | rfl
    · exact hold (by rw [hpc]; exact hc)
    · cases hc
  | arrive => exact hold hc
  | fin => exact hold hc
  | rst => exact hold hc
  | accept => exact hold hc
  | insert => exact hold hc
  | pushFull => exact hold hc
  | pushRoom => exact hold hc
  | pushReserve => exact hold hc
  | pushPublish => exact hold hc
  | sendLost => exact hold hc
  | sendFound => exact hold hc
  | sendReturn => exact hold hc
  | _ => cases hc

theorem step (k : s.Tickets) (b : s.Base) (h : Step s a t) (hok : s.NoStaleDel a) : t.Tickets where
  del := fun _ hu hev => k.del_step b h hok hu hev
  add := fun _ hu hev => k.add_step b h hu hev
  adds_le := fun x => by
    rcases adds_step (x := x) h b.shape with hle | ⟨-, -, rfl, heq⟩
    · exact hle.trans (k.adds_le x)
    · rw [heq, k.adds_new _ (Nat.le_refl _)]
  adds_new := fun x hx => by
    have hle := reg_step_inserted_le b h
    rcases adds_step (x := x) h b.shape with hle' | ⟨-, hreg, rfl, -⟩
    · exact Nat.le_zero.mp (hle'.trans (k.adds_new x (hle.trans hx)).le)
    · rw [hreg] at hx
      exact absurd hx (Nat.not_succ_le_self _)
  registered := fun _ hx => k.registered_step b h hx
  events := k.events_step h
  found := fun _ hc => k.found_step b h hc

theorem run {ok : CellManager → Action → Prop} {acts : List Action}
    (hok : ∀ s a, ok s a → s.NoStaleDel a) (h : Run CellManager.step ok {} acts s) : s.Tickets := by
  refine (h.invariant (fun s => s.Base ∧ s.Tickets) ⟨.init, .init⟩ ?_).2
  rintro s a t ⟨b, k⟩ hguard hstep
  exact ⟨b.step (step_sound hstep), k.step b (step_sound hstep) (hok s a hguard)⟩

end Tickets

theorem onInsert_of_not {P : ℕ → Prop} (h : a.isInsert = false) : s.OnInsert a P := by
  cases a with
  | insert => cases h
  | _ => exact trivial

/-! ## Concrete runs -/

theorem sender_isIdle {i : ℕ} (h : Step s a t) (ha : ∀ fd bytes, a ≠ .sendLookup i fd bytes)
    (hs : (s.sender i).isIdle) : (t.sender i).isIdle := by
  have hnone : s.push? (.sender i) = none := by
    cases hpc : s.sender i with
    | idle => simp [push?, hpc]
    | pushing | returning => simp [hpc, SenderPc.isIdle] at hs
  have hparty {party : Party} {p : Push} (hp : s.push? party = some p) : party ≠ .sender i := by
    rintro rfl
    rw [hnone] at hp
    cases hp
  cases h with
  | sendLost j fd bytes | sendFound j fd bytes =>
    have hij : i ≠ j := by
      rintro rfl
      exact ha fd bytes rfl
    simpa [hij] using hs
  | sendReturn j ret call payload code hpc =>
    by_cases hij : i = j
    · simp [hij, SenderPc.isIdle]
    · simpa [hij] using hs
  | pushFull party p hp | pushPublish party p q hp => simpa [endPush, hparty hp] using hs
  | pushRoom party p hp | pushReserve party p hp => simpa [setPush, hparty hp] using hs
  | _ => exact hs

/-- The threads from number `n` on have no call. -/
def IdleFrom (n : ℕ) (s : CellManager) : Prop := ∀ i, n ≤ i → (s.sender i).isIdle

theorem IdleFrom.step {n : ℕ} (hs : s.IdleFrom n) (h : Step s a t) (ha : a.sendsBelow n) :
    t.IdleFrom n := by
  intro i hi
  refine sender_isIdle h ?_ (hs i hi)
  rintro fd bytes rfl
  exact absurd (of_decide_eq_true ha) (Nat.not_lt_of_le hi)

/-- The pending tasks, if only the first `n` threads send. -/
def tasksBelow (s : CellManager) (n : ℕ) : List CellTask :=
  (.loop :: .acceptor :: (List.range n).map Party.sender).filterMap (fun p => (s.push? p).map Push.task) ++
    items s.cellTask ++ s.loop.tasks

theorem IdleFrom.mem_tasksBelow {n : ℕ} (hs : s.IdleFrom n) (hu : s.Pending u) : u ∈ s.tasksBelow n := by
  simp only [tasksBelow, List.append_assoc, List.mem_append]
  refine hu.imp_left ?_
  rintro ⟨party, p, hp, rfl⟩
  refine List.mem_filterMap.mpr ⟨party, ?_, by rw [hp]; rfl⟩
  cases party with
  | loop | acceptor => simp
  | sender i =>
    have hi : i < n := by
      by_contra hle
      have hidle := hs i (Nat.le_of_not_lt hle)
      cases hpc : s.sender i with
      | idle => simp [push?, hpc] at hp
      | pushing | returning => simp [hpc, SenderPc.isIdle] at hidle
    simp [hi]

/-- A test of what is assumed when a connection is entered, if only the first `n` threads send. -/
def insertTest (n : ℕ) (event : TaskEvent) (s : CellManager) (a : Action) : Bool :=
  !a.isInsert || (s.tasksBelow n).all fun u => u.event ≠ event || u.clientid ≠ s.reg.name s.reg.inserted

theorem onInsert_of_test {n : ℕ} {event : TaskEvent} (hs : s.IdleFrom n) (h : insertTest n event s a) :
    s.OnInsert a fun fd => ¬ s.PendingFor event fd := by
  cases a with
  | insert buf ev ip port =>
    rintro ⟨u, hu, hev, hname⟩
    have hu' := List.all_eq_true.mp h u (hs.mem_tasksBelow hu)
    simp [hev, hname] at hu'
  | _ => trivial

theorem run_of_test {ok : CellManager → Action → Prop} {acts : List Action} {n : ℕ}
    (chk : CellManager → Action → Bool) (hsends : acts.all (Action.sendsBelow n))
    (hok : ∀ a ∈ acts, ∀ s, s.IdleFrom n → chk s a → ok s a)
    (h : exec (fun s a => if chk s a then CellManager.step s a else none) {} acts = some s) :
    Run CellManager.step ok {} acts s :=
  .of_exec_inv (IdleFrom n) chk (fun _ _ => rfl)
    (fun a ha _ _ hs hstep => hs.step (step_sound hstep) (List.all_eq_true.mp hsends a ha)) hok h

end CellManager

/-- A sender reserved a slot and has not filled it when two hang-ups of the connection are seen,
so both deletions are in the queue when the loop thread comes back to it. -/
def twoDeletions : List Action :=
  connectOn5 ++ [.sendLookup 0 5 [42], .pushTest (.sender 0), .pushReserve (.sender 0)] ++
    [.fin 0] ++ hangUp 5 0 ++ toWait ++ [.rst 0] ++ hangUp 5 0 ++ [.pushPublish (.sender 0)] ++
    handleNext ++ deletion

end TcpLib
