import TcpLib.SendSide
import TcpLib.Lib.Ledger

/-!
# Who owns a payload

The copies that `sendTask` makes are tokens, numbered by their allocation. A token is in a task that
is being pushed, queued or handled, in the ring of a cell that was not deleted, or released. Every
step moves a token from one place to another or keeps it, but for the three places where a task to
send is dropped with its payload.
-/

namespace TcpLib
open SlotQueue CircularBuffer Transition Ledger

/-- The task has the payload with this number. -/
def CellTask.hasPayload (id : ℕ) (u : CellTask) : Bool :=
  decide ((u.sC.map fun sc => sc.id) = some id)

inductive Place
  | pushed (party : Party)
  | queued
  | inHand
  | ring (c : ℕ)
  | released
  deriving DecidableEq

/-- The payloads in the live slots of a ring. -/
def ClientCell.ringIds (cell : ClientCell) : List ℕ :=
  (contents cell.sendBuf SYSSENDBUF cell.sendReadPos cell.sendWritePos).map fun sc => sc.id

theorem SendRing.ringIds {cell : ClientCell} {xs : List SendCell} (h : SendRing cell xs) :
    cell.ringIds = xs.map fun sc => sc.id := by
  rw [ClientCell.ringIds, h.holds.contents_eq]

theorem ClientCell.SameSend.ringIds {cell cell' : ClientCell} (h : SameSend cell cell') :
    cell'.ringIds = cell.ringIds := by
  rw [ClientCell.ringIds, ClientCell.ringIds, h.sendBuf, h.sendReadPos, h.sendWritePos]

namespace CellManager

/-- How often the payload is in each place. The ring of a deleted cell is no place. -/
def weight (s : CellManager) (id : ℕ) : Place → ℕ
  | .pushed party => ((s.push? party).map Push.task).toList.countP (CellTask.hasPayload id)
  | .queued => (items s.cellTask).countP (CellTask.hasPayload id)
  | .inHand => s.loop.tasks.countP (CellTask.hasPayload id)
  | .ring c => if s.reg.Open c then (s.cell c).ringIds.count id else 0
  | .released => s.freed.count id

/-- A task to send is pushed while the queue has room for it, and handled while its descriptor has
a cell whose ring has room. -/
def KeepsPayload (s : CellManager) : Action → Prop
  | .pushTest party => ∀ p ∈ s.push? party, p.task.event = .send → ¬queueFull s.cellTask.length
  | .handle => ∀ ct ∈ s.loop.tasks, ct.event = .send → ∃ c ∈ s.reg.map ct.clientid,
      ((s.cell c).sendWritePos + 1) % SYSSENDBUF ≠ (s.cell c).sendReadPos
  | _ => True

variable {s t : CellManager} {a : Action} {u : CellTask} {id c : ℕ}

/-- What a step does to all payloads. -/
inductive WeightStep (s t : CellManager) (a : Action) : Prop
  | moved : s.KeepsPayload a → t.nextId = s.nextId →
      (∀ id, ∃ k p q, Moved k p q (s.weight id) (t.weight id)) → WeightStep s t a
  | dropped (p : Place) (u : CellTask) : ¬s.KeepsPayload a → t.nextId = s.nextId →
      u.event = .send → u.Carries →
      (∀ id, Dropped ([u].countP (CellTask.hasPayload id)) p (s.weight id) (t.weight id)) →
      WeightStep s t a
  | made (i : ℕ) : s.KeepsPayload a → t.nextId = s.nextId + 1 →
      (∀ id, id ≠ s.nextId → t.weight id = s.weight id) →
      ((∀ r, s.weight s.nextId r = 0) → OnlyAt (t.weight s.nextId) (.pushed (.sender i))) →
      WeightStep s t a

/-- What holds of the tasks and the rings in every run. -/
structure Carried (s : CellManager) : Prop where
  base : s.Base
  carries : ∀ u, s.Pending u → u.Carries
  stored : ∀ c, ∃ ps, s.Stored c ps

theorem Carried.ring (k : s.Carried) (c : ℕ) :
    ∃ xs, SendRing (s.cell c) xs ∧ (s.reg.inserted ≤ c → xs = []) := by
  obtain ⟨-, done, xs, hs, -⟩ := k.stored c
  exact ⟨xs, hs.ring, hs.unborn⟩

theorem Carried.ringIds_unborn (k : s.Carried) {c : ℕ} (hc : s.reg.inserted ≤ c) :
    (s.cell c).ringIds = [] := by
  obtain ⟨xs, hring, hnil⟩ := k.ring c
  rw [hring.ringIds, hnil hc]
  rfl

theorem Carried.step (k : s.Carried) (h : Step s a t) : t.Carried where
  base := k.base.step h
  carries := carries_step h k.carries
  stored := by
    intro c
    obtain ⟨ps, hs⟩ := k.stored c
    rcases hs.step k.base h k.carries with hs | ⟨ct, sc, -, -, -, -, hs⟩
    · exact ⟨_, hs⟩
    · exact ⟨_, hs⟩

theorem Carried.init : Carried {} where
  base := .init
  carries := fun _ hu => absurd hu (not_pending_first {} rfl)
  stored := fun c => ⟨[], Stored.init c⟩

/-! ## The weight of each place after a step -/

theorem weight_eq (hpush : ∀ party, t.weight id (.pushed party) = s.weight id (.pushed party))
    (hq : items t.cellTask = items s.cellTask) (hloop : t.loop.tasks = s.loop.tasks)
    (hfreed : t.freed = s.freed) (hring : ∀ c, t.weight id (.ring c) = s.weight id (.ring c)) :
    t.weight id = s.weight id := by
  funext r
  cases r with
  | pushed party => exact hpush party
  | queued => simp only [weight, hq]
  | inHand => simp only [weight, hloop]
  | ring c => exact hring c
  | released => simp only [weight, hfreed]

theorem dropped_hand (hpush : ∀ party, t.weight id (.pushed party) = s.weight id (.pushed party))
    (hq : items t.cellTask = items s.cellTask) (hpc : s.loop = .task u) (hloop : t.loop.tasks = [])
    (hfreed : t.freed = s.freed) (hring : ∀ c, t.weight id (.ring c) = s.weight id (.ring c)) :
    Dropped ([u].countP (CellTask.hasPayload id)) .inHand (s.weight id) (t.weight id) := by
  intro r
  cases r with
  | pushed party => simpa using hpush party
  | queued => simp [weight, hq]
  | inHand =>
    simp only [weight, hpc, hloop]
    simp [LoopPc.tasks]
  | ring c => simpa using hring c
  | released => simp [weight, hfreed]

theorem pushed_of_eq (hacc : t.acceptor = s.acceptor) (hdel : t.delPush = s.delPush)
    (hsend : t.sender = s.sender) (party : Party) :
    t.weight id (.pushed party) = s.weight id (.pushed party) := by
  simp only [weight, push?_of_eq hacc hdel hsend]

theorem pushed_of_sender {i : ℕ} {pc : SenderPc} {party : Party} (hacc : t.acceptor = s.acceptor)
    (hdel : t.delPush = s.delPush) (hsend : t.sender = Function.update s.sender i pc)
    (hparty : party ≠ .sender i) : t.weight id (.pushed party) = s.weight id (.pushed party) := by
  simp only [weight, push?_sender hacc hdel hsend, if_neg hparty]

theorem pushed_of_delTask {s₀ : CellManager} {fd : ℕ} (hacc : s₀.acceptor = s.acceptor)
    (hsend : s₀.sender = s.sender) (hdel : s.delPush = none) (party : Party) :
    (s₀.delTask fd c).weight id (.pushed party) = s.weight id (.pushed party) := by
  simp only [weight, push?_delTask hacc hsend]
  split_ifs with hparty
  · simp [hparty, push?, hdel, CellTask.hasPayload]
  · rfl

theorem ring_of_same (hopen : t.reg.Open c ↔ s.reg.Open c)
    (hsame : ClientCell.SameSend (s.cell c) (t.cell c)) :
    t.weight id (.ring c) = s.weight id (.ring c) := by
  simp only [weight, hopen, hsame.ringIds]

theorem ring_of_nil (hs : (s.cell c).ringIds = []) (ht : (t.cell c).ringIds = []) :
    t.weight id (.ring c) = s.weight id (.ring c) := by
  simp [weight, hs, ht]

theorem countP_of_not_send (hu : u.Carries) (hev : u.event ≠ .send) (id : ℕ) :
    [u].countP (CellTask.hasPayload id) = 0 := by
  simp [CellTask.hasPayload, hu.other hev]

theorem countP_of_payload {sc : SendCell} (hsc : u.sC = some sc) (id : ℕ) :
    [u].countP (CellTask.hasPayload id) = [sc.id].count id := by
  by_cases hid : sc.id = id <;> simp [CellTask.hasPayload, hsc, hid]

theorem WeightStep.of_eq (hok : s.KeepsPayload a) (hnext : t.nextId = s.nextId)
    (h : ∀ id, t.weight id = s.weight id) : WeightStep s t a :=
  .moved hok hnext fun id => ⟨0, .queued, .queued, fun r => by rw [h id]⟩

/-- A task that ends without its payload being stored loses it. -/
theorem WeightStep.of_dropped {p : Place} (hu : u.Carries)
    (hok : s.KeepsPayload a ↔ u.event ≠ .send) (hnext : t.nextId = s.nextId)
    (h : ∀ id, Dropped ([u].countP (CellTask.hasPayload id)) p (s.weight id) (t.weight id)) :
    WeightStep s t a := by
  by_cases hev : u.event = .send
  · exact .dropped p u (fun h => hok.mp h hev) hnext hev hu h
  · refine .of_eq (hok.mpr hev) hnext ?_
    intro id
    have hid := h id
    rw [countP_of_not_send hu hev] at hid
    exact hid.eq_of_zero

/-! ## What the steps of `push` do -/

variable {party : Party} {p p' : Push}

theorem pushed_setPush (hp : s.push? party = some p) (htask : p'.task = p.task) (q : Party) :
    (s.setPush p' party).weight id (.pushed q) = s.weight id (.pushed q) := by
  simp only [weight, push?_setPush hp]
  split_ifs with hq
  · rw [hq, hp]
    simp [htask]
  · rfl

theorem pushed_endPush (flag : Bool) (id : ℕ) (hp : s.push? party = some p) (q : Party) :
    ((s.endPush p flag party).weight id (.pushed q) +
      if q = party then [p.task].countP (CellTask.hasPayload id) else 0) =
        s.weight id (.pushed q) := by
  simp only [weight, push?_endPush flag hp]
  split_ifs with hq
  · rw [hq, hp]
    simp
  · rfl

theorem Carried.pushTest (k : s.Carried) (h : s.pushTest party = some t) :
    WeightStep s t (.pushTest party) := by
  obtain ⟨p, hp, h⟩ := Option.bind_eq_some_iff.mp h
  split_ifs at h with hstage hfull
  · obtain rfl := Option.some.inj h
    refine .of_dropped (p := .pushed party) (k.carries p.task (Or.inl ⟨party, p, hp, rfl⟩)) ?_ rfl ?_
    · refine ⟨fun hok hev => hok p hp hev hfull, ?_⟩
      intro hev p' hp' hev'
      obtain rfl := Option.some.inj (hp.symm.trans hp')
      exact absurd hev' hev
    · intro id r
      cases r with
      | pushed q => simpa using pushed_endPush false id hp q
      | _ => rfl
  · obtain rfl := Option.some.inj h
    refine .of_eq (fun _ _ _ => hfull) rfl ?_
    intro id
    exact weight_eq (pushed_setPush hp rfl) rfl rfl rfl fun _ => rfl

theorem weightStep_pushReserve (hp : s.push? party = some p) :
    WeightStep s ({ s with cellTask := reserve s.cellTask party }.setPush
      { p with stage := .publish } party) (.pushReserve party) := by
  refine .of_eq trivial rfl ?_
  intro id
  exact weight_eq (pushed_setPush (s := { s with cellTask := reserve s.cellTask party }) hp rfl)
    (items_reserve _ _) rfl rfl fun _ => rfl

/-- Publishing moves the payload of the task into the queue. -/
theorem weightStep_pushPublish {slots : List (Slot Party CellTask)} (hp : s.push? party = some p)
    (hfill : fill party p.task s.cellTask = some slots) :
    WeightStep s ({ s with cellTask := slots }.endPush p true party) (.pushPublish party) := by
  refine .moved trivial rfl ?_
  intro id
  refine ⟨[p.task].countP (CellTask.hasPayload id), .pushed party, .queued, ?_⟩
  intro r
  cases r with
  | pushed q =>
    have hq := pushed_endPush (s := { s with cellTask := slots }) true id hp q
    have hsame := hq.trans (pushed_of_eq (s := s) rfl rfl rfl q)
    simpa using hsame
  | queued =>
    have hcount := (items_fill hfill).countP_eq (CellTask.hasPayload id)
    simp only [weight, endPush, hcount, List.countP_cons, List.countP_nil]
    simp
  | _ => rfl

/-! ## What the other steps do -/

theorem weight_of_sendFound {i n : ℕ} {pc : SenderPc} (r : Place) (hr : r ≠ .pushed (.sender i)) :
    weight { s with nextId := n, sender := Function.update s.sender i pc } id r = s.weight id r := by
  cases r with
  | pushed party =>
    have hparty : party ≠ .sender i := fun heq => hr (heq ▸ rfl)
    exact pushed_of_sender rfl rfl rfl hparty
  | _ => rfl

theorem weightStep_sendFound {i fd : ℕ} {bytes : List UInt8} (hpc : s.sender i = .idle) :
    WeightStep s { s with
      nextId := s.nextId + 1
      sender := Function.update s.sender i
        (.pushing ⟨fd, bytes⟩ ⟨⟨.send, fd, c, some ⟨⟨s.nextId, c, bytes⟩, 0⟩⟩, .test⟩) }
      (.sendLookup i fd bytes) := by
  refine .made i trivial rfl ?_ ?_
  · intro id hid
    funext r
    by_cases hr : r = .pushed (.sender i)
    · subst hr
      simp [weight, push?, hpc, CellTask.hasPayload, Ne.symm hid]
    · exact weight_of_sendFound r hr
  · intro hzero
    refine ⟨by simp [weight, push?, CellTask.hasPayload], ?_⟩
    intro r hr
    exact (weight_of_sendFound r hr).trans (hzero r)

theorem weightStep_popTask {slots : List (Slot Party CellTask)} (hpc : s.loop = .handleTask)
    (hpop : SlotQueue.pop s.cellTask = some (u, slots)) :
    WeightStep s { s with cellTask := slots, loop := .task u } .pop := by
  refine .moved trivial rfl ?_
  intro id
  refine ⟨[u].countP (CellTask.hasPayload id), .queued, .inHand, ?_⟩
  intro r
  cases r with
  | queued =>
    simp only [weight, items_pop hpop, List.countP_cons, List.countP_nil]
    simp
  | inHand => simp [weight, hpc, LoopPc.tasks]
  | _ => rfl

theorem keepsPayload_handle (hpc : s.loop = .task u) : s.KeepsPayload .handle ↔
    (u.event = .send → ∃ c ∈ s.reg.map u.clientid,
      ((s.cell c).sendWritePos + 1) % SYSSENDBUF ≠ (s.cell c).sendReadPos) := by
  simp [KeepsPayload, hpc, LoopPc.tasks]

theorem Carried.inHand (k : s.Carried) (hpc : s.loop = .task u) : u.Carries :=
  k.carries u (Or.inr (Or.inr (by simp [hpc, LoopPc.tasks])))

theorem Carried.sendStored (k : s.Carried) {sc : SendCell} {cell : ClientCell} (hpc : s.loop = .task u)
    (hev : u.event = .send) (hmap : s.reg.map u.clientid = some c) (hsc : u.sC = some sc)
    (hstore : (s.cell c).handleSend sc = some cell) :
    WeightStep s { s with cell := Function.update s.cell c cell, loop := .handleTask } .handle := by
  obtain ⟨xs, hring, -⟩ := k.ring c
  obtain ⟨p, hp, -⟩ := (k.inHand hpc).send hev
  obtain rfl := Option.some.inj (hsc.symm.trans hp)
  have hopen : s.reg.Open c := k.base.map_open (by rw [hpc]; rfl) hmap
  have hids : cell.ringIds = (s.cell c).ringIds ++ [p.id] := by
    rcases hring.handleSend ⟨p, 0⟩ rfl with ⟨-, hfull⟩ | ⟨cell', hcell, hring'⟩
    · rw [hstore] at hfull
      cases hfull
    · obtain rfl := Option.some.inj (hstore.symm.trans hcell)
      rw [hring'.ringIds, hring.ringIds, List.map_append]
      rfl
  refine .moved ?_ rfl ?_
  · refine (keepsPayload_handle hpc).mpr fun _ => ⟨c, hmap, ?_⟩
    intro hfull
    simp [ClientCell.handleSend, hfull] at hstore
  · intro id
    refine ⟨[u].countP (CellTask.hasPayload id), .inHand, .ring c, ?_⟩
    intro r
    cases r with
    | inHand => simp [weight, hpc, LoopPc.tasks]
    | ring d =>
      by_cases hd : d = c
      · subst hd
        rw [countP_of_payload hsc]
        simp [weight, hopen, hids]
      · simp [weight, hd]
    | _ => rfl

theorem Carried.close (k : s.Carried) {ids : List ℕ} (hpc : s.loop = .delClose c)
    (hids : (s.cell c).destroy = some ids) :
    WeightStep s { s with
      reg := s.reg.close c
      sock := Function.update s.sock c { s.sock c with interest := none }
      freed := s.freed ++ ids
      loop := .delErase c } .close := by
  obtain ⟨xs, hring, -⟩ := k.ring c
  have hopen : s.reg.Open c := k.base.found_open (by rw [hpc]; rfl)
  have heq : ids = (s.cell c).ringIds :=
    (Option.some.inj (hids.symm.trans hring.destroy)).trans hring.ringIds.symm
  refine .moved trivial rfl ?_
  intro id
  refine ⟨ids.count id, .ring c, .released, ?_⟩
  intro r
  cases r with
  | ring d =>
    by_cases hd : d = c
    · subst hd
      simp [weight, Registry.close_open_iff, hopen, heq]
    · have hiff : (s.reg.close c).Open d ↔ s.reg.Open d := by
        refine Registry.close_open_iff.trans (and_iff_left_of_imp ?_)
        exact fun hd' hname => hd (Registry.open_unique hd' hopen hname)
      simp [weight, hd, hiff]
  | inHand => simp [weight, hpc, LoopPc.tasks]
  | released => simp [weight]
  | _ => rfl

theorem Carried.ringIds_written (k : s.Carried) {writes : ℕ → WriteResult} {o : SendOut}
    (ho : (s.cell c).doSend writes = some o) :
    (s.cell c).ringIds = o.released ++ o.cell.ringIds := by
  obtain ⟨xs, hring, -⟩ := k.ring c
  obtain ⟨o', done, ys, ho', hsent⟩ := hring.doSend writes
  obtain rfl := Option.some.inj (ho.symm.trans ho')
  have hpay := congrArg (List.map Payload.id) hsent.payloads
  rw [hring.ringIds, hsent.ring.ringIds, hsent.released]
  simpa [Function.comp_def] using hpay

theorem Carried.write (k : s.Carried) {writes : ℕ → WriteResult} {e : EpollEvent}
    {es : List EpollEvent} {d : ℕ} {o : SendOut} (hpc : s.loop = .write e es)
    (hmap : s.reg.map e.fd = some c) (ho : (s.cell c).doSend writes = some o) :
    WeightStep s { s with
      cell := Function.update s.cell c o.cell
      sock := Function.update s.sock d { s.sock d with wire := (s.sock d).wire ++ o.wire }
      freed := s.freed ++ o.released
      loop := .events es } (.doSend writes) := by
  have hopen : s.reg.Open c := k.base.map_open (by rw [hpc]; rfl) hmap
  have hids := k.ringIds_written ho
  refine .moved trivial rfl ?_
  intro id
  refine ⟨o.released.count id, .ring c, .released, ?_⟩
  intro r
  cases r with
  | ring d =>
    by_cases hd : d = c
    · subst hd
      simp [weight, hopen, hids, Nat.add_comm]
    · simp [weight, hd]
  | inHand => simp [weight, hpc, LoopPc.tasks]
  | released => simp [weight]
  | _ => rfl

theorem Carried.weight_step (k : s.Carried) (hstep : s.step a = some t) : WeightStep s t a := by
  have h := step_sound hstep
  cases h with
  | pushFull party | pushRoom party => exact k.pushTest hstep
  | pushReserve party p hp => exact weightStep_pushReserve hp
  | pushPublish party p slots hp hfill => exact weightStep_pushPublish hp hfill
  | sendFound i fd bytes c hpc hmap => exact weightStep_sendFound hpc
  | popTask ct slots hpc hpop => exact weightStep_popTask hpc hpop
  | sendStored ct c sc cell hpc hev hmap hsc hstore => exact k.sendStored hpc hev hmap hsc hstore
  | close c ids hpc hids => exact k.close hpc hids
  | write writes e es c d o hpc hmap hd ho => exact k.write hpc hmap ho
  | sendDropped ct hpc hev hlost =>
    refine .of_dropped (p := .inHand) (k.inHand hpc) ?_ rfl fun id => ?_
    · refine ⟨fun hok => ?_, fun hne => absurd hev hne⟩
      obtain ⟨c, hmap, hroom⟩ := (keepsPayload_handle hpc).mp hok hev
      obtain ⟨p, hp, -⟩ := (k.inHand hpc).send hev
      have hmap : s.reg.map ct.clientid = some c := hmap
      simp [hmap, hp, ClientCell.handleSend, hroom] at hlost
    · exact dropped_hand (pushed_of_eq rfl rfl rfl) rfl hpc rfl rfl fun _ => rfl
  | addLost ct hpc hev hdel hmap =>
    refine .of_dropped (p := .inHand) (k.inHand hpc) ?_ rfl fun id => ?_
    · exact (keepsPayload_handle hpc).trans (by simp [hev])
    · exact dropped_hand (pushed_of_delTask rfl rfl hdel) rfl hpc rfl rfl fun _ => rfl
  | addFound ct c hpc hev hmap =>
    refine .of_dropped (p := .inHand) (k.inHand hpc) ?_ rfl fun id => ?_
    · exact (keepsPayload_handle hpc).trans (by simp [hev])
    · refine dropped_hand (pushed_of_eq rfl rfl rfl) rfl hpc rfl rfl ?_
      intro d
      refine ring_of_same Iff.rfl ?_
      by_cases hdc : d = c
      · subst hdc
        simpa using ⟨rfl, rfl, rfl, rfl⟩
      · simpa [hdc] using .refl _
  | delNone ct hpc hev hmap | delFound ct c hpc hev hmap =>
    refine .of_dropped (p := .inHand) (k.inHand hpc) ?_ rfl fun id => ?_
    · exact (keepsPayload_handle hpc).trans (by simp [hev])
    · exact dropped_hand (pushed_of_eq rfl rfl rfl) rfl hpc rfl rfl fun _ => rfl
  | accept fd hpc hpos hfree =>
    refine .of_eq trivial rfl fun id => weight_eq ?_ rfl rfl rfl ?_
    · intro party
      cases party <;> simp [weight, push?, hpc]
    · intro c
      by_cases hc : c < s.reg.next
      · exact ring_of_same (Registry.accept_open_iff hc hfree) (.refl _)
      · have hnil := k.ringIds_unborn (k.base.reg.inserted_le.trans (Nat.le_of_not_lt hc))
        exact ring_of_nil hnil hnil
  | insert buf ev ip port hpc =>
    refine .of_eq trivial rfl fun id => weight_eq ?_ rfl rfl rfl ?_
    · intro party
      cases party <;> simp [weight, push?, hpc, CellTask.hasPayload]
    · intro c
      by_cases hc : c = s.reg.inserted
      · subst hc
        have hnew : (ClientCell.new (s.reg.name s.reg.inserted) buf ev ip port).ringIds = [] :=
          (SendRing.new _ _ _ _ _).ringIds
        exact ring_of_nil (k.ringIds_unborn le_rfl) (by simpa using hnew)
      · exact ring_of_same Iff.rfl (by simpa [hc] using .refl _)
  | checkWrite hpc =>
    refine .of_eq trivial rfl fun id => ?_
    refine weight_eq (pushed_of_eq rfl rfl rfl) rfl (by simp [hpc, LoopPc.tasks]) rfl ?_
    intro c
    refine ring_of_same Iff.rfl ?_
    dsimp only
    split_ifs
    · exact (s.cell c).setEvents_sameSend _
    · exact .refl _
  | read r hub c d e es o pc hpc hd hlegal hok ho hnext hpc' =>
    refine .of_eq trivial rfl fun id => ?_
    refine weight_eq (pushed_of_eq rfl rfl rfl) rfl ?_ rfl ?_
    · rcases hpc' with rfl | rfl <;> simp [hpc, LoopPc.tasks]
    · intro x
      refine ring_of_same Iff.rfl ?_
      by_cases hxc : x = c
      · subst hxc
        simpa using doRecvIter_sameSend ho
      · simpa [hxc] using .refl _
  | hangup e es hpc hdel | readClosed r hub c d e es hpc hdel =>
    refine .of_eq trivial rfl fun id => ?_
    exact weight_eq (pushed_of_delTask rfl rfl hdel) rfl (by simp [delTask, hpc, LoopPc.tasks]) rfl
      fun _ => rfl
  | sendLost i fd bytes hpc | sendReturn i ret call payload code hpc =>
    refine .of_eq trivial rfl fun id => weight_eq ?_ rfl rfl rfl fun _ => rfl
    intro party
    by_cases hparty : party = .sender i
    · subst hparty
      simp [weight, push?, hpc]
    · exact pushed_of_sender rfl rfl rfl hparty
  | popNone hpc | erase c hpc | notify c hpc | epollWait es hpc | eventsEnd hpc | recvStart e es c hpc
  | recvSkip e es hpc | writeSkip writes e es hpc =>
    refine .of_eq trivial rfl fun id => ?_
    exact weight_eq (pushed_of_eq rfl rfl rfl) rfl (by simp [hpc, LoopPc.tasks]) rfl fun _ => rfl
  | arrive | fin | rst =>
    exact .of_eq trivial rfl fun id => weight_eq (pushed_of_eq rfl rfl rfl) rfl rfl rfl fun _ => rfl

/-! ## What holds in every run -/

/-- No payload is in two places, and a number that was not given out yet is in none. -/
structure Balanced (s : CellManager) : Prop where
  once : ∀ id, AtMostOne (s.weight id)
  unmade : ∀ id, s.nextId ≤ id → ∀ p, s.weight id p = 0

/-- Every payload that was made is in one place. -/
def Owned (s : CellManager) : Prop := ∀ id < s.nextId, Placed (s.weight id)

theorem Balanced.init : Balanced {} := by
  have hzero (id : ℕ) (p : Place) : weight {} id p = 0 := by
    cases p with
    | pushed party => cases party <;> rfl
    | queued | inHand | released => rfl
    | ring c => simp [weight, Registry.Open]
  exact ⟨fun id => Or.inl (hzero id), fun id _ => hzero id⟩

theorem Balanced.step (b : s.Balanced) (h : WeightStep s t a) : t.Balanced := by
  cases h with
  | moved hok hnext hmoved =>
    have hspec (id : ℕ) : AtMostOne (t.weight id) ∧ (Placed (t.weight id) ↔ Placed (s.weight id)) := by
      obtain ⟨k, p, q, hm⟩ := hmoved id
      exact hm.spec (b.once id)
    refine ⟨fun id => (hspec id).1, ?_⟩
    intro id hid
    exact (hspec id).1.zero (hspec id).2.mp (b.unmade id (hnext ▸ hid))
  | dropped p u hok hnext hev hu hdropped =>
    have hspec (id : ℕ) := (hdropped id).spec (b.once id)
    refine ⟨fun id => (hspec id).1, ?_⟩
    intro id hid
    exact (hspec id).1.zero (fun hheld => ((hspec id).2.mp hheld).1) (b.unmade id (hnext ▸ hid))
  | made i hok hnext hother hnew =>
    refine ⟨?_, ?_⟩
    · intro id
      by_cases hid : id = s.nextId
      · rw [hid]
        exact Or.inr ⟨_, hnew (b.unmade _ le_rfl)⟩
      · rw [hother id hid]
        exact b.once id
    · intro id hid
      rw [hother id (by omega)]
      exact b.unmade id (by omega)

/-- A step keeps every payload in one place exactly when it drops none. -/
theorem Balanced.owned_iff (b : s.Balanced) (h : WeightStep s t a) :
    t.Owned ↔ s.Owned ∧ s.KeepsPayload a := by
  cases h with
  | moved hok hnext hmoved =>
    unfold Owned
    rw [hnext, and_iff_left hok]
    refine forall₂_congr ?_
    intro id hid
    obtain ⟨k, p, q, hm⟩ := hmoved id
    exact (hm.spec (b.once id)).2
  | dropped p u hok hnext hev hu hdropped =>
    refine iff_of_false ?_ (fun h => hok h.2)
    intro howned
    obtain ⟨payload, hp, -⟩ := hu.send hev
    have hone : [u].countP (CellTask.hasPayload payload.id) = 1 := by
      rw [countP_of_payload hp]
      simp
    have hdrop := hdropped payload.id
    have hlt : payload.id < t.nextId := by
      by_contra hge
      have hzero := b.unmade payload.id (hnext ▸ Nat.le_of_not_lt hge) p
      have hp' := hdrop p
      rw [if_pos rfl] at hp'
      omega
    have hzero := ((hdrop.spec (b.once _)).2.mp (howned _ hlt)).2
    omega
  | made i hok hnext hother hnew =>
    unfold Owned
    rw [hnext, and_iff_left hok]
    refine ⟨?_, ?_⟩
    · intro howned id hid
      rw [← hother id (by omega)]
      exact howned id (by omega)
    · intro howned id hid
      by_cases heq : id = s.nextId
      · rw [heq]
        exact ⟨_, hnew (b.unmade _ le_rfl)⟩
      · rw [hother id heq]
        exact howned id (by omega)

theorem balanced_step (h : s.Carried ∧ s.Balanced) (hstep : s.step a = some t) :
    t.Carried ∧ t.Balanced :=
  ⟨h.1.step (step_sound hstep), h.2.step (h.1.weight_step hstep)⟩

theorem balanced_run {ok : CellManager → Action → Prop} {acts : List Action}
    (h : Run CellManager.step ok {} acts s) : s.Carried ∧ s.Balanced :=
  h.invariant (fun s => s.Carried ∧ s.Balanced) ⟨.init, .init⟩
    fun _ _ _ hs _ hstep => balanced_step hs hstep

/-- Every payload is in one place at the end of a run exactly when no step dropped one. -/
theorem owned_iff_run {acts : List Action} (h : Run CellManager.step anyStep {} acts s) :
    s.Owned ↔ Run CellManager.step KeepsPayload {} acts s := by
  refine h.holds_iff (fun s => s.Carried ∧ s.Balanced) Owned ⟨.init, .init⟩ ?_ ?_ ?_
  · exact fun id hid => absurd hid (Nat.not_lt_zero id)
  · exact fun s a t hs hstep => balanced_step hs hstep
  · intro s a t hs hstep
    exact hs.2.owned_iff (hs.1.weight_step hstep)

end CellManager
end TcpLib
