import TcpLib.PayloadOwners

/-!
# The teardown of the cell manager

`~cellManager` deletes the cells in `m_Cell` and then the tasks that are still queued. It frees every
payload that is left if each non-empty ring is in `m_Cell` and no slot of the queue is reserved
without being filled.
-/

namespace TcpLib
open SlotQueue Transition Ledger

/-- What is freed one after the other. -/
def releaseAll {α : Type*} (free : α → Option (List ℕ)) : List α → Option (List ℕ)
  | [] => some []
  | x :: xs => (free x).bind fun ids => (releaseAll free xs).map (ids ++ ·)

theorem releaseAll_eq {α : Type*} {free : α → Option (List ℕ)} {ids : α → List ℕ} {xs : List α}
    (h : ∀ x ∈ xs, free x = some (ids x)) : releaseAll free xs = some (xs.flatMap ids) := by
  induction xs with
  | nil => rfl
  | cons x xs ih =>
    have hrest := ih fun y hy => h y (List.mem_cons_of_mem x hy)
    rw [releaseAll, h x List.mem_cons_self, hrest]
    rfl

/-- Deleting a task, with its payload if it is a task to send. -/
def CellTask.destroy (u : CellTask) : Option (List ℕ) :=
  match u.event with
  | .send => u.sC.map fun sc => [sc.id]
  | _ => some []

def CellTask.ids (u : CellTask) : List ℕ := (u.sC.map fun sc => sc.id).toList

theorem CellTask.Carries.destroy {u : CellTask} (hu : u.Carries) : u.destroy = some u.ids := by
  by_cases hev : u.event = .send
  · obtain ⟨p, hp, -⟩ := hu.send hev
    simp [CellTask.destroy, CellTask.ids, hev, hp]
  · have hnone := hu.other hev
    cases h : u.event <;> simp [CellTask.destroy, CellTask.ids, hnone, h]
    exact absurd h hev

theorem count_ids (us : List CellTask) (id : ℕ) :
    (us.flatMap CellTask.ids).count id = us.countP (CellTask.hasPayload id) := by
  induction us with
  | nil => rfl
  | cons u us ih =>
    rw [List.flatMap_cons, List.count_append, ih, List.countP_cons, Nat.add_comm]
    congr 1
    cases hsc : u.sC with
    | none => simp [CellTask.ids, CellTask.hasPayload, hsc]
    | some sc => by_cases hid : sc.id = id <;> simp [CellTask.ids, CellTask.hasPayload, hsc, hid]

namespace CellManager

/-- The cells in `m_Cell`. -/
def mCell (s : CellManager) : List ℕ :=
  (List.range s.reg.inserted).filter fun c => s.reg.map (s.reg.name c) = some c

/-- `~cellManager` after its `stop`, with the cells in the order of the map. -/
def teardown (s : CellManager) (cells : List ℕ) : Option (List ℕ) :=
  (releaseAll (fun c => (s.cell c).destroy) cells).bind fun ids =>
    (releaseAll CellTask.destroy (drain s.cellTask)).map (ids ++ ·)

/-- No task is being pushed or handled. -/
def BetweenCalls (s : CellManager) : Prop := (∀ party, s.push? party = none) ∧ s.loop.tasks = []

/-- The loop thread has ended and nobody is in a call. -/
def Stopped (s : CellManager) : Prop := s.loop = .handleTask ∧ ∀ party, s.push? party = none

/-- Every payload that was made is in one place, and the teardown frees what is not freed yet. -/
structure Accounted (s : CellManager) : Prop where
  owned : ∀ id < s.nextId, ∃ p, OnlyAt (s.weight id) p
  between : s.BetweenCalls → ∀ id < s.nextId, OnlyAt (s.weight id) .queued ∨
    (∃ c, OnlyAt (s.weight id) (.ring c)) ∨ OnlyAt (s.weight id) .released
  teardown : s.Stopped → ∀ cells, cells.Perm s.mCell → ∃ ids, s.teardown cells = some ids ∧
    ∀ id < s.nextId, (s.freed ++ ids).count id = 1

variable {s t : CellManager} {a : Action} {c id : ℕ} {p : Place}

instance (s : CellManager) (a : Action) : Decidable (s.KeepsPayload a) :=
  match a with
  | .pushTest party => inferInstanceAs (Decidable
      (∀ p ∈ s.push? party, p.task.event = .send → ¬queueFull s.cellTask.length))
  | .handle => inferInstanceAs (Decidable (∀ ct ∈ s.loop.tasks, ct.event = .send →
      ∃ c ∈ s.reg.map ct.clientid,
        ((s.cell c).sendWritePos + 1) % SYSSENDBUF ≠ (s.cell c).sendReadPos))
  | .arrive _ _ | .fin _ | .rst _ | .accept _ | .insert _ _ _ _ | .pushReserve _ | .pushPublish _
  | .sendLookup _ _ _ | .sendReturn _ _ | .pop | .close | .erase | .notify | .checkWrite
  | .epollWait _ | .doEvent | .read _ _ | .doSend _ => instDecidableTrue

/-! ## Reserved slots -/

def publishing (s : CellManager) (party : Party) : ℕ :=
  (s.push? party).toList.countP fun p => decide (p.stage = .publish)

/-- Every reserved slot is going to be filled. -/
def SlotsOwned (s : CellManager) : Prop := ∀ party, reserved party s.cellTask = s.publishing party

theorem SlotsOwned.of_eq (hs : s.SlotsOwned) (hq : t.cellTask = s.cellTask)
    (h : ∀ party, t.publishing party = s.publishing party) : t.SlotsOwned := by
  intro party
  rw [hq, h party]
  exact hs party

theorem publishing_of_eq (hacc : t.acceptor = s.acceptor) (hdel : t.delPush = s.delPush)
    (hsend : t.sender = s.sender) (party : Party) : t.publishing party = s.publishing party := by
  simp only [publishing, push?_of_eq hacc hdel hsend]

theorem publishing_of_sender {i : ℕ} {pc : SenderPc} {party : Party}
    (hacc : t.acceptor = s.acceptor) (hdel : t.delPush = s.delPush)
    (hsend : t.sender = Function.update s.sender i pc) (hparty : party ≠ .sender i) :
    t.publishing party = s.publishing party := by
  simp only [publishing, push?_sender hacc hdel hsend, if_neg hparty]

theorem publishing_of_delTask {s₀ : CellManager} {fd : ℕ} (hacc : s₀.acceptor = s.acceptor)
    (hsend : s₀.sender = s.sender) (hdel : s.delPush = none) (party : Party) :
    (s₀.delTask fd c).publishing party = s.publishing party := by
  simp only [publishing, push?_delTask hacc hsend]
  split_ifs with hparty
  · simp [hparty, push?, hdel]
  · rfl

theorem SlotsOwned.step (hs : s.SlotsOwned) (h : Step s a t) : t.SlotsOwned := by
  cases h with
  | accept fd hpc | insert buf ev ip port hpc =>
    refine hs.of_eq rfl ?_
    intro party
    cases party <;> simp [publishing, push?, hpc]
  | pushFull party p hp hstage =>
    refine hs.of_eq rfl ?_
    intro q
    rw [publishing, push?_endPush false hp]
    split_ifs with hq
    · simp [publishing, hq, hp, hstage]
    · rfl
  | pushRoom party p hp hstage =>
    refine hs.of_eq rfl ?_
    intro q
    rw [publishing, push?_setPush hp]
    split_ifs with hq
    · simp [publishing, hq, hp, hstage]
    · rfl
  | pushReserve party p hp hstage =>
    intro q
    have hold := hs q
    change reserved q (reserve s.cellTask party) = _
    rw [reserved_reserve, hold, publishing, publishing,
      push?_setPush (s := { s with cellTask := reserve s.cellTask party }) hp]
    by_cases hq : q = party
    · simp [hq, hp, hstage]
    · rw [if_neg hq, if_neg (Ne.symm hq)]
      rfl
  | pushPublish party p slots hp hfill =>
    intro q
    have hold := hs q
    have hleft := reserved_fill hfill q
    change reserved q slots = _
    rw [publishing, push?_endPush (s := { s with cellTask := slots }) true hp]
    by_cases hq : q = party
    · subst hq
      have hle : s.publishing q ≤ 1 := by
        simp only [publishing, hp, Option.toList_some, List.countP_singleton]
        split_ifs <;> omega
      rw [if_pos rfl] at hleft ⊢
      simp only [Option.toList_none, List.countP_nil]
      omega
    · rw [if_neg (Ne.symm hq)] at hleft
      rw [if_neg hq]
      exact hleft.trans hold
  | sendLost i fd bytes hpc | sendFound i fd bytes c hpc | sendReturn i ret call payload code hpc =>
    refine hs.of_eq rfl ?_
    intro party
    by_cases hparty : party = .sender i
    · subst hparty
      simp [publishing, push?, hpc]
    · exact publishing_of_sender rfl rfl rfl hparty
  | popTask ct slots hpc hpop =>
    intro q
    exact (reserved_pop hpop q).trans (hs q)
  | addLost ct hpc hev hdel | hangup e es hpc hdel | readClosed r hub c d e es hpc hdel =>
    exact hs.of_eq rfl (publishing_of_delTask rfl rfl hdel)
  | _ => exact hs.of_eq rfl (publishing_of_eq rfl rfl rfl)

theorem SlotsOwned.drain_eq (hs : s.SlotsOwned) (hstop : s.Stopped) :
    drain s.cellTask = items s.cellTask := by
  refine drain_eq_items fun party => ?_
  rw [hs party, publishing, hstop.2 party]
  rfl

/-! ## Rings outside `m_Cell` -/

/-- An open cell with something in its ring is in `m_Cell`, and stays there. -/
def RingsMapped (s : CellManager) : Prop :=
  ∀ c, s.reg.Open c → (s.cell c).ringIds ≠ [] → s.reg.Safe c

/-- A ring is filled only while its cell is in `m_Cell`. -/
theorem RingsMapped.step (hs : s.RingsMapped) (k : s.Carried) (h : Step s a t) : t.RingsMapped := by
  have b := k.base
  intro c hopen hne
  have hsafe (hold : s.reg.Open c) : s.reg.Safe c := by
    cases send_step b h c with
    | same hsame => exact hs c hold (hsame.ringIds ▸ hne)
    | new fd buf ev ip port hc hcell =>
      rw [hcell, (SendRing.new fd buf ev ip port).ringIds] at hne
      exact absurd rfl hne
    | stored ct sc hpc hev hmap =>
      have hclosing : s.reg.closing = none := by
        rw [b.closing, hpc]
        rfl
      exact ⟨b.reg.map_self hmap, by simp [hclosing]⟩
    | written writes o hlt ho hcell =>
      refine hs c hold fun hnil => hne ?_
      rw [hcell]
      have hids := k.ringIds_written ho
      rw [hnil] at hids
      exact (List.append_eq_nil_iff.mp hids.symm).2
  have hlt : c < s.reg.next := by
    have hins : c < t.reg.inserted :=
      Nat.lt_of_not_le fun hle => hne ((k.step h).ringIds_unborn hle)
    rcases reg_step b h with heq | hreg
    · rw [heq] at hins
      exact b.reg.lt_next hins
    · exact hins.trans_le (hreg.inserted_le_next b.reg)
  have hold : s.reg.Open c := by
    by_contra hclosed
    exact reg_step_closed b h hlt hclosed hopen
  rcases reg_step b h with heq | hreg
  · rw [heq]
    exact hsafe hold
  · exact (hsafe hold).step b.reg hreg hopen

/-! ## What the teardown frees -/

/-- What the teardown needs besides the ledger. -/
structure Releasable (s : CellManager) : Prop where
  carried : s.Carried
  slots : s.SlotsOwned
  rings : s.RingsMapped

theorem Releasable.run {ok : CellManager → Action → Prop} {acts : List Action}
    (h : Run CellManager.step ok {} acts s) : s.Releasable := by
  refine h.invariant Releasable ⟨.init, ?_, ?_⟩ ?_
  · intro party
    cases party <;> rfl
  · intro c hopen
    cases hopen
  · intro s a t r _ hstep
    have hs := step_sound hstep
    exact ⟨r.carried.step hs, r.slots.step hs, r.rings.step r.carried hs⟩

theorem Base.mem_mCell (b : s.Base) : c ∈ s.mCell ↔ s.reg.map (s.reg.name c) = some c := by
  rw [mCell, List.mem_filter, List.mem_range, decide_eq_true_iff]
  exact and_iff_right_of_imp fun hmap => (b.reg.map _ _ hmap).2.1

theorem nodup_mCell : s.mCell.Nodup := List.nodup_range.filter _

theorem Releasable.teardown_eq (r : s.Releasable) (hstop : s.Stopped) (cells : List ℕ) :
    s.teardown cells = some (cells.flatMap (fun c => (s.cell c).ringIds) ++
      (items s.cellTask).flatMap CellTask.ids) := by
  have hcells : releaseAll (fun c => (s.cell c).destroy) cells =
      some (cells.flatMap fun c => (s.cell c).ringIds) := by
    refine releaseAll_eq ?_
    intro c _
    obtain ⟨xs, hring, -⟩ := r.carried.ring c
    rw [hring.destroy, hring.ringIds]
  have htasks : releaseAll CellTask.destroy (items s.cellTask) =
      some ((items s.cellTask).flatMap CellTask.ids) :=
    releaseAll_eq fun u hu => (r.carried.carries u (Or.inr (Or.inl hu))).destroy
  rw [teardown, r.slots.drain_eq hstop, hcells, htasks]
  rfl

theorem Stopped.between (h : s.Stopped) : s.BetweenCalls := by
  refine ⟨h.2, ?_⟩
  rw [h.1]
  rfl

theorem BetweenCalls.place (h : s.BetweenCalls) (hp : OnlyAt (s.weight id) p) :
    p = .queued ∨ (∃ c, p = .ring c) ∨ p = .released := by
  have hone := hp.here
  cases p with
  | pushed party =>
    simp only [weight, h.1 party] at hone
    cases hone
  | inHand =>
    simp only [weight, h.2] at hone
    cases hone
  | queued => exact Or.inl rfl
  | ring c => exact Or.inr (Or.inl ⟨c, rfl⟩)
  | released => exact Or.inr (Or.inr rfl)

/-- A payload in one place is freed once, before the teardown or by it. -/
theorem Releasable.teardown_once (r : s.Releasable) (hstop : s.Stopped) {cells : List ℕ}
    (hcells : cells.Perm s.mCell) (hp : OnlyAt (s.weight id) p) :
    (s.freed ++ (cells.flatMap (fun c => (s.cell c).ringIds) ++
      (items s.cellTask).flatMap CellTask.ids)).count id = 1 := by
  have b := r.carried.base
  have hring (c : ℕ) (hc : c ∈ cells) : (s.cell c).ringIds.count id = s.weight id (.ring c) := by
    have hmap := b.mem_mCell.mp (hcells.mem_iff.mp hc)
    rw [weight, if_pos (b.map_open (by rw [hstop.1]; rfl) hmap)]
  have hnone (c : ℕ) (hc : c ∈ cells) (hne : p ≠ .ring c) : (s.cell c).ringIds.count id = 0 := by
    rw [hring c hc]
    exact hp.elsewhere _ hne.symm
  have hnodup : cells.Nodup := hcells.nodup_iff.mpr nodup_mCell
  have hrest (h : ∀ c, p ≠ .ring c) : (cells.flatMap fun c => (s.cell c).ringIds).count id = 0 := by
    rw [count_flatMap_of_only (x := 0) hnodup fun c hc _ => hnone c hc (h c)]
    split_ifs with h0
    · exact hnone 0 h0 (h 0)
    · rfl
  have hfreed : s.freed.count id = s.weight id .released := rfl
  have hqueued : (items s.cellTask).countP (CellTask.hasPayload id) = s.weight id .queued := rfl
  rw [List.count_append, List.count_append, count_ids, hfreed, hqueued]
  rcases hstop.between.place hp with rfl | ⟨c, rfl⟩ | rfl
  · rw [hrest (by simp), hp.here, hp.elsewhere .released (by simp)]
  · -- a ring that has the payload is in `m_Cell`
    have hone := hp.here
    rw [weight] at hone
    split_ifs at hone with hopen
    have hne : (s.cell c).ringIds ≠ [] := by
      intro hnil
      rw [hnil] at hone
      cases hone
    have hc : c ∈ cells := hcells.mem_iff.mpr (b.mem_mCell.mpr (r.rings c hopen hne).mapped)
    have hother : ∀ d ∈ cells, d ≠ c → (s.cell d).ringIds.count id = 0 := by
      intro d hd hdc
      exact hnone d hd fun heq => hdc (Place.ring.inj heq).symm
    rw [count_flatMap_of_only hnodup hother, if_pos hc, hone, hp.elsewhere .released (by simp),
      hp.elsewhere .queued (by simp)]
  · rw [hrest (by simp), hp.here, hp.elsewhere .queued (by simp)]

/-- Every payload has one owner, and the teardown frees the rest, exactly in the runs in which every
task to send is pushed while the queue has room, and handled while its descriptor has a cell whose
ring has room. -/
theorem payloads_have_one_owner {acts : List Action} (h : Run CellManager.step anyStep {} acts s) :
    s.Accounted ↔ Run CellManager.step KeepsPayload {} acts s := by
  rw [← owned_iff_run h]
  have r : s.Releasable := .run h
  refine ⟨fun hs => hs.owned, ?_⟩
  intro howned
  refine ⟨howned, ?_, ?_⟩
  · intro hbetween id hid
    obtain ⟨p, hp⟩ := howned id hid
    rcases hbetween.place hp with rfl | ⟨c, rfl⟩ | rfl
    · exact Or.inl hp
    · exact Or.inr (Or.inl ⟨c, hp⟩)
    · exact Or.inr (Or.inr hp)
  · intro hstop cells hcells
    refine ⟨_, r.teardown_eq hstop cells, ?_⟩
    intro id hid
    obtain ⟨p, hp⟩ := howned id hid
    exact r.teardown_once hstop hcells hp

end CellManager

/-- One payload is stored and another one is queued when the loop thread ends an iteration. -/
def storedAndQueued : List Action :=
  connectOn5 ++ [.sendLookup 0 5 [42]] ++ pushBy (.sender 0) ++ [.epollWait [], .doEvent] ++
    handleNext ++ [.sendLookup 1 5 [43]] ++ pushBy (.sender 1)

theorem payloads_have_one_owner_two_sends :
    ∃ s, Run CellManager.step anyStep {} storedAndQueued s ∧ s.nextId = 2 ∧ s.Accounted := by
  have hexec : (exec (fun s a => if decide (s.KeepsPayload a) then s.step a else none) {}
      storedAndQueued).map CellManager.nextId = some 2 := by
    decide +kernel
  obtain ⟨s, hs, hnext⟩ := Option.map_eq_some_iff.mp hexec
  have hrun : Run CellManager.step CellManager.KeepsPayload {} storedAndQueued s :=
    .of_exec_guard (fun s a => decide (s.KeepsPayload a)) (fun _ _ _ h => of_decide_eq_true h) hs
  have hall : Run CellManager.step anyStep {} storedAndQueued s := hrun.weaken fun _ _ _ => trivial
  exact ⟨s, hall, hnext, (CellManager.payloads_have_one_owner hall).mpr hrun⟩

/-- The peer hangs up, and a payload for it is queued behind the deletion. -/
def sendToHungUp : List Action :=
  connectOn5 ++ [.fin 0] ++ hangUp 5 0 ++ [.sendLookup 0 5 [42]] ++ pushBy (.sender 0) ++ deletion ++
    [.pop]

/-- `handleSend` finds no cell and returns, and the payload is nowhere. -/
theorem payload_lost_after_disconnect :
    ∃ s, Run CellManager.step anyStep {} (sendToHungUp ++ [.handle]) s ∧ s.nextId = 1 ∧
      (∀ p, s.weight 0 p = 0) ∧ ¬s.Accounted := by
  have hexec : (exec CellManager.step {} sendToHungUp).map (fun s =>
      (decide (s.KeepsPayload .handle), (s.step .handle).map CellManager.nextId)) =
        some (false, some 1) := by
    decide +kernel
  obtain ⟨s, hs, heq⟩ := Option.map_eq_some_iff.mp hexec
  obtain ⟨hlost, hhandle⟩ := Prod.mk.inj heq
  obtain ⟨t, hstep, hnext⟩ := Option.map_eq_some_iff.mp hhandle
  have hrun : Run CellManager.step anyStep {} sendToHungUp s := .of_exec (fun _ _ _ => trivial) hs
  obtain ⟨k, b⟩ := CellManager.balanced_run hrun
  have hweight := k.weight_step hstep
  have hnot : ¬t.Owned := fun howned => of_decide_eq_false hlost ((b.owned_iff hweight).mp howned).2
  refine ⟨t, hrun.snoc trivial hstep, hnext, ?_, fun hs => hnot hs.owned⟩
  refine ((b.step hweight).once 0).resolve_right fun hheld => hnot ?_
  intro id hid
  rw [hnext] at hid
  obtain rfl : id = 0 := by omega
  exact hheld

end TcpLib
