import TcpLib.CellManagerInv
import TcpLib.QueueSlots

/-!
# The task queue of the manager

`CellManager` has a list of slots for `m_cellTask`. In the code it is a `srt_queue` of pointers, whose
slots are in pages that are allocated and freed while the threads use them. Here every access of a push
and of a pop to that queue is a step, and the steps of all threads come in any order. As long as the
reserved indexes have room, the manager does what it does with the list.
-/

namespace TcpLib
open SlotQueue Transition

/-! ## The manager with its queue -/

/-- What the constructor of `srt_queue` is given by default. -/
def taskShape : PageShape := ⟨kDefaultPageMsgCountBits, kDefaultPageIndexBits⟩

/-- The threads of the queue. -/
def Party.thread : Party → ℕ
  | .loop => 0
  | .acceptor => 1
  | .sender i => i + 2

/-- A pointer to a task is the task, and the zeroed one is null. `handleTask` uses the pointers that it
gets, and `fault` is set if one is null. The list of slots in `manager` stays empty. -/
structure QueuedManager where
  manager : CellManager := {}
  queue : QueueSys taskShape (Option CellTask) := .init taskShape
  fault : Bool := false

/-- The accesses of a push. -/
inductive PushAccess
  | test
  | reserve
  | lookup
  | store
  | publish

def PushAccess.act (t : ℕ) (task : CellTask) : PushAccess → QueueAct (Option CellTask)
  | .test => .test t (some task)
  | .reserve => .reserve t
  | .lookup => .lookup t
  | .store => .store t
  | .publish => .publish t

/-- `pop` is an access of the pop in `handleTask`, and `manager` an action without the queue. -/
inductive QueuedAction
  | manager (a : Action)
  | push (party : Party) (a : PushAccess)
  | pop (a : QueueAct (Option CellTask))

def Action.onQueue : Action → Bool
  | .pushTest _ | .pushReserve _ | .pushPublish _ | .pop => true
  | _ => false

/-- How far the push is that the thread is in or begins. -/
def PushPc.stage {T : Type*} : PushPc T → PushStage
  | .idle => .test
  | .tested _ => .reserve
  | .reserved _ _ | .found _ _ _ | .stored _ _ => .publish

def PopPc.isIdle {T : Type*} : PopPc T → Bool
  | .idle => true
  | _ => false

/-- A party after an access of its push, which returned if the thread has left it. -/
def CellManager.afterPush (s : CellManager) (p : Push) (flag : Bool) (party : Party) :
    PushPc (Option CellTask) → CellManager
  | .idle => s.endPush p flag party
  | pc => s.setPush { p with stage := pc.stage } party

namespace QueuedManager

def push (s : QueuedManager) (party : Party) (a : PushAccess) : Option QueuedManager :=
  (s.manager.push? party).bind fun p =>
    (s.queue.step (a.act party.thread p.task)).map fun queue =>
      let flag := match a with
        | .publish => true
        | _ => false
      { s with
        manager := s.manager.afterPush p flag party (queue.pushing party.thread)
        queue := queue }

/-- `handleTask` after an access of its pop, which returned a task, nothing, or not yet. -/
def afterPop (s : QueuedManager) (queue : QueueSys taskShape (Option CellTask)) :
    Option (Option CellTask) → QueuedManager
  | some (some ct) => { s with manager := { s.manager with loop := .task ct }, queue := queue }
  | some none => { s with queue := queue, fault := true }
  | none =>
    if queue.popping.isIdle then
      { s with manager := { s.manager with loop := .checkWrite }, queue := queue }
    else { s with queue := queue }

def pop (s : QueuedManager) (a : QueueAct (Option CellTask)) : Option QueuedManager :=
  match s.manager.loop with
  | .handleTask =>
    if a.isPop then (s.queue.step a).map fun queue => s.afterPop queue (s.queue.received a) else none
  | _ => none

def step (s : QueuedManager) : QueuedAction → Option QueuedManager
  | .manager a =>
    if a.onQueue then none else (s.manager.step a).map fun manager => { s with manager := manager }
  | .push party a => s.push party a
  | .pop a => if s.manager.delPush.isNone then s.pop a else none

/-- A reserved index has a slot of its own. -/
def HasRoom (s : QueuedManager) : QueuedAction → Prop
  | .push party .reserve => s.queue.HasRoom (.reserve party.thread)
  | _ => True

instance (s : QueuedManager) : (a : QueuedAction) → Decidable (s.HasRoom a)
  | .push party .reserve => inferInstanceAs (Decidable (s.queue.HasRoom (.reserve party.thread)))
  | .push _ .test | .push _ .lookup | .push _ .store | .push _ .publish | .manager _ | .pop _ =>
    inferInstanceAs (Decidable True)

/-- What a step does besides the queue. -/
def beside : QueuedAction → List Action
  | .manager a => [a]
  | _ => []

end QueuedManager

namespace CellManager

theorem pop_of_none {s : CellManager} (hloop : s.loop = .handleTask) (hpop : SlotQueue.pop s.cellTask = none) :
    s.pop = some { s with loop := .checkWrite } := by
  simp only [pop, hloop, hpop]

theorem pop_of_some {s : CellManager} {ct : CellTask} {slots : List (Slot Party CellTask)}
    (hloop : s.loop = .handleTask) (hpop : SlotQueue.pop s.cellTask = some (ct, slots)) :
    s.pop = some { s with cellTask := slots, loop := .task ct } := by
  simp only [pop, hloop, hpop]

/-- What an action of the manager does besides the queue. -/
def beside (a : Action) : List Action := if a.onQueue then [] else [a]

variable {s t : CellManager} {a : Action} {party q : Party} {p : Push}

/-! ## Steps without the queue -/

theorem inLoop_withTasks {f : CellManager → Option CellManager} (slots : List (Slot Party CellTask))
    (h : f { s with cellTask := slots } = (f s).map fun t => { t with cellTask := slots }) :
    inLoop { s with cellTask := slots } (f { s with cellTask := slots }) =
      (s.inLoop (f s)).map fun t => { t with cellTask := slots } := by
  unfold inLoop
  rw [h]
  split_ifs <;> rfl

theorem step_withTasks (s : CellManager) (slots : List (Slot Party CellTask)) (ha : a.onQueue = false) :
    step { s with cellTask := slots } a = (s.step a).map fun t => { t with cellTask := slots } := by
  cases a with
  | pushTest | pushReserve | pushPublish | pop => cases ha
  | arrive | fin | rst =>
    simp only [step]
    split_ifs <;> rfl
  | accept fd =>
    simp only [step, accept]
    cases s.acceptor with
    | idle => split_ifs <;> rfl
    | accepted | pushing => rfl
  | insert buf ev ip port =>
    simp only [step, insert]
    cases s.acceptor <;> rfl
  | sendLookup i fd bytes =>
    simp only [step, sendLookup]
    cases s.sender i with
    | idle =>
      cases s.reg.map fd with
      | none => rfl
      | some c =>
        dsimp only
        split_ifs <;> rfl
    | pushing | returning => rfl
  | sendReturn i ret =>
    simp only [step, sendReturn]
    cases s.sender i <;> rfl
  | handle =>
    refine inLoop_withTasks slots ?_
    simp only [handle]
    cases s.loop with
    | task ct =>
      dsimp only
      cases ct.event with
      | add =>
        simp only [handleAdd]
        cases s.reg.map ct.clientid <;> rfl
      | send =>
        simp only [handleSend]
        cases s.reg.map ct.clientid with
        | none => rfl
        | some c =>
          dsimp only
          cases ct.sC.bind (s.cell c).handleSend <;> rfl
      | del =>
        simp only [handleDel]
        cases s.reg.map ct.clientid <;> rfl
    | _ => rfl
  | close =>
    refine inLoop_withTasks slots ?_
    simp only [close]
    cases s.loop with
    | delClose c => exact (Option.map_map _ _ _).symm ▸ rfl
    | _ => rfl
  | erase =>
    refine inLoop_withTasks slots ?_
    simp only [erase]
    cases s.loop <;> rfl
  | notify =>
    refine inLoop_withTasks slots ?_
    simp only [notify]
    cases s.loop <;> rfl
  | checkWrite =>
    refine inLoop_withTasks slots ?_
    simp only [checkWrite]
    cases s.loop <;> rfl
  | epollWait es =>
    refine inLoop_withTasks (f := fun s => s.epollWait es) slots ?_
    simp only [epollWait]
    cases s.loop with
    | epollWait =>
      by_cases hok : es.length ≤ 1024 ∧ (es.map EpollEvent.fd).Nodup ∧ ∀ e ∈ es, s.EventOk e
      · rw [if_pos hok]
        exact if_pos hok
      · rw [if_neg hok]
        exact if_neg hok
    | _ => rfl
  | doEvent =>
    refine inLoop_withTasks slots ?_
    simp only [doEvent]
    cases s.loop with
    | events es =>
      cases es with
      | nil => rfl
      | cons e es =>
        dsimp only
        split_ifs
        · rfl
        · cases s.reg.map e.fd with
          | none => rfl
          | some c =>
            dsimp only
            split_ifs <;> rfl
        · rfl
    | _ => rfl
  | read r hub =>
    refine inLoop_withTasks (f := fun s => s.read r hub) slots ?_
    simp only [read]
    cases s.loop with
    | recv c e es =>
      dsimp only
      cases s.reg.table (s.cell c).clientFd with
      | none => rfl
      | some d =>
        simp only [Option.bind_some]
        split_ifs
        · cases doRecvIter (TcpServerNotify.onRecvData hub) (s.cell c) (s.offers c) r with
          | none => rfl
          | some o =>
            simp only [Option.map_some]
            cases o.next <;> rfl
        · rfl
    | _ => rfl
  | doSend writes =>
    refine inLoop_withTasks (f := fun s => s.doSend writes) slots ?_
    simp only [doSend]
    cases s.loop with
    | write e es =>
      dsimp only
      split_ifs
      · cases s.reg.map e.fd with
        | none => rfl
        | some c =>
          dsimp only
          cases s.reg.table (s.cell c).clientFd with
          | none => rfl
          | some d =>
            simp only [Option.bind_some]
            cases (s.cell c).doSend writes <;> rfl
      · rfl
    | _ => rfl

theorem push?_other_sender {i : ℕ} (hacc : t.acceptor = s.acceptor) (hdel : t.delPush = s.delPush)
    (hsend : ∀ j ≠ i, t.sender j = s.sender j) (hq : q ≠ .sender i) : t.push? q = s.push? q := by
  cases q with
  | loop => exact hdel
  | acceptor => exact congrArg AcceptPc.push? hacc
  | sender j => exact congrArg SenderPc.push? (hsend j fun heq => hq (heq ▸ rfl))

/-- At most the push of one party begins. -/
theorem push?_of_others (party : Party) (hothers : ∀ q ≠ party, t.push? q = s.push? q)
    (hnone : s.push? party = none)
    (hnew : t.push? party = none ∨ ∃ task, t.push? party = some ⟨task, .test⟩) (q : Party) :
    t.push? q = s.push? q ∨ s.push? q = none ∧ ∃ task, t.push? q = some ⟨task, .test⟩ := by
  by_cases hq : q = party
  · subst hq
    rcases hnew with hnew | hnew
    · exact Or.inl (hnew.trans hnone.symm)
    · exact Or.inr ⟨hnone, hnew⟩
  · exact Or.inl (hothers q hq)

/-- Without the queue a push can only begin. -/
theorem push?_beside (h : Step s a t) (ha : a.onQueue = false) (q : Party) :
    t.push? q = s.push? q ∨ s.push? q = none ∧ ∃ task, t.push? q = some ⟨task, .test⟩ := by
  cases h with
  | pushFull | pushRoom | pushReserve | pushPublish | popTask | popNone => cases ha
  | accept fd hpc =>
    refine push?_of_others .acceptor (fun q hq => ?_) (by simp [push?, hpc]) (Or.inl rfl) q
    refine (push?_acceptor (s := s) ?_ ?_ q).trans (if_neg hq) <;> rfl
  | insert buf ev ip port hpc =>
    refine push?_of_others .acceptor (fun q hq => ?_) (by simp [push?, hpc]) (Or.inr ⟨_, rfl⟩) q
    refine (push?_acceptor (s := s) ?_ ?_ q).trans (if_neg hq) <;> rfl
  | sendLost i fd bytes hpc hmap | sendReturn i ret call payload code hpc =>
    refine push?_of_others (.sender i) (fun q hq => ?_) (by simp [push?, hpc]) (Or.inl (by simp [push?])) q
    exact push?_other_sender rfl rfl (fun j hj => Function.update_of_ne hj ..) hq
  | sendFound i fd bytes c hpc hmap =>
    refine push?_of_others (.sender i) (fun q hq => ?_) (by simp [push?, hpc])
      (Or.inr ⟨_, by simp only [push?, Function.update_self]; rfl⟩) q
    exact push?_other_sender rfl rfl (fun j hj => Function.update_of_ne hj ..) hq
  | addLost ct hpc hev hdel | hangup e es hpc hdel | readClosed r hub c d e es hpc hdel =>
    refine push?_of_others .loop (fun q hq => ?_) hdel (Or.inr ⟨_, rfl⟩) q
    refine (push?_delTask (s := s) ?_ ?_ q).trans (if_neg hq) <;> rfl
  | _ => exact Or.inl rfl

theorem setPush_push? (h : s.push? party = some p) : s.setPush p party = s := by
  have hsender : (fun i => if party = .sender i then (s.sender i).setPush p else s.sender i) = s.sender := by
    funext i
    split_ifs with hi
    · subst hi
      cases hpc : s.sender i with
      | pushing call p' =>
        obtain rfl : p' = p := by simpa [push?, hpc] using h
        rfl
      | idle | returning => rfl
    · rfl
  have hacc : (if party = .acceptor then .pushing p else s.acceptor) = s.acceptor := by
    split_ifs with hi
    · subst hi
      cases hpc : s.acceptor with
      | pushing p' =>
        obtain rfl : p' = p := by simpa [push?, hpc] using h
        rfl
      | idle | accepted => simp [push?, hpc] at h
    · rfl
  have hdel : (if party = .loop then some p else s.delPush) = s.delPush := by
    split_ifs with hi
    · subst hi
      exact h.symm
    · rfl
  unfold setPush
  rw [hsender, hacc, hdel]

theorem push?_afterPush {flag : Bool} {pc : PushPc (Option CellTask)} (h : s.push? party = some p) :
    (s.afterPush p flag party pc).push? q =
      if q = party then
        match pc with
        | .idle => none
        | pc => some { p with stage := pc.stage }
      else s.push? q := by
  cases pc with
  | idle => exact push?_endPush flag h
  | tested | reserved | found | stored => exact push?_setPush h

end CellManager

/-! ## What the manager shows of its queue -/

theorem Party.thread_injective : Function.Injective Party.thread := by
  intro p q h
  cases p <;> cases q <;> simp_all [Party.thread]

theorem full_taskShape (q : SrtQueue taskShape (Option CellTask)) :
    q.full = queueFull (q.postIndex - q.getIndex) := by
  simp only [SrtQueue.full, queueFull, PageShape.pageIndexCount, taskShape, Nat.one_shiftLeft,
    Nat.shiftRight_eq_div_pow]

/-- The thread pushes the message. -/
def PushPc.Carries {T : Type*} (reserved : List T) (msg : T) : PushPc T → Prop
  | .idle => True
  | .tested m => m = msg
  | .reserved i _ | .found i _ _ | .stored i _ => reserved[i]? = some msg

/-- The thread is where the manager has its push. -/
def PushPc.Agrees (reserved : List (Option CellTask)) (pc : PushPc (Option CellTask)) :
    Option Push → Prop
  | none => pc = .idle
  | some p => pc.stage = p.stage ∧ pc.Carries reserved (some p.task)

theorem PushPc.Carries.mono {T : Type*} {r r' : List T} {msg : T} {pc : PushPc T} (h : pc.Carries r msg)
    (hr : r <+: r') : pc.Carries r' msg := by
  have hget {i : ℕ} (hm : r[i]? = some msg) : r'[i]? = some msg := by
    obtain ⟨more, rfl⟩ := hr
    rw [List.getElem?_append_left (List.getElem?_eq_some_iff.mp hm).1, hm]
  cases pc with
  | idle | tested => exact h
  | reserved | found | stored => exact hget h

theorem PushPc.Agrees.mono {r r' : List (Option CellTask)} {pc : PushPc (Option CellTask)}
    {o : Option Push} (h : pc.Agrees r o) (hr : r <+: r') : pc.Agrees r' o := by
  cases o with
  | none => exact h
  | some p => exact ⟨h.1, h.2.mono hr⟩

namespace QueuedManager

/-- The slots of the queue, under the names that the manager has for its threads and tasks. -/
def named (slots : List (Slot Party CellTask)) : List (Slot ℕ (Option CellTask)) :=
  slots.map (Slot.map Party.thread some)

/-- The manager with a list of slots for its queue. -/
def view (s : QueuedManager) (slots : List (Slot Party CellTask)) : CellManager :=
  { s.manager with cellTask := slots }

structure Shows (s : QueuedManager) (slots : List (Slot Party CellTask)) : Prop where
  queue : s.queue.Inv
  slots : s.queue.ShowsSlots (named slots)
  push : ∀ party, (s.queue.pushing party.thread).Agrees s.queue.reserved (s.manager.push? party)
  fault : s.fault = false

variable {s s' : QueuedManager} {slots slots' : List (Slot Party CellTask)} {party : Party} {p : Push}
  {queue : QueueSys taskShape (Option CellTask)}

theorem Shows.init : Shows {} [] where
  queue := .init
  slots := .init
  push := fun party => by cases party <;> rfl
  fault := rfl

/-- An access of a push, which concerns no other thread. -/
theorem Shows.afterPush (h : s.Shows slots) (hp : s.manager.push? party = some p) (hinv : queue.Inv)
    (hslots : queue.ShowsSlots (named slots'))
    (hothers : ∀ t ≠ party.thread, queue.pushing t = s.queue.pushing t)
    (hreserved : s.queue.reserved <+: queue.reserved)
    (hcarries : (queue.pushing party.thread).Carries queue.reserved (some p.task)) (flag : Bool) :
    Shows { s with
      manager := s.manager.afterPush p flag party (queue.pushing party.thread)
      queue := queue } slots' where
  queue := hinv
  slots := hslots
  push := fun q => by
    change (queue.pushing q.thread).Agrees queue.reserved
      ((s.manager.afterPush p flag party (queue.pushing party.thread)).push? q)
    rw [CellManager.push?_afterPush hp]
    split_ifs with hq
    · subst hq
      cases hpc : queue.pushing q.thread with
      | idle => rfl
      | tested | reserved | found | stored =>
        rw [hpc] at hcarries
        exact ⟨rfl, hcarries⟩
    · rw [hothers _ fun heq => hq (Party.thread_injective heq)]
      exact (h.push q).mono hreserved
  fault := h.fault

/-- The manager with its list does what the step does, and `shown` besides the queue. -/
def Follows (s s' : QueuedManager) (slots : List (Slot Party CellTask)) (shown : List Action) : Prop :=
  ∃ acts slots', Run CellManager.step anyStep (s.view slots) acts (s'.view slots') ∧
    acts.flatMap CellManager.beside = shown ∧ s'.Shows slots'

theorem Follows.none (hview : s'.view slots = s.view slots) (h : s'.Shows slots) :
    s.Follows s' slots [] :=
  ⟨[], slots, hview ▸ .nil, rfl, h⟩

variable (slots') in
theorem Follows.one {a : Action} (hstep : (s.view slots).step a = some (s'.view slots'))
    (h : s'.Shows slots') : s.Follows s' slots (CellManager.beside a) :=
  ⟨[a], slots', .single trivial hstep, List.flatMap_singleton .., h⟩

theorem Shows.size (h : s.Shows slots) :
    s.queue.queue.postIndex - s.queue.queue.getIndex = slots.length := by
  have hlen := h.slots.length
  rw [named, List.length_map] at hlen
  omega

/-! ### Pushes -/

theorem Shows.test (h : s.Shows slots) (hp : s.manager.push? party = some p)
    (hinv : queue.Inv) (hq : s.queue.step (.test party.thread (some p.task)) = some queue) :
    s.Follows { s with
      manager := s.manager.afterPush p false party (queue.pushing party.thread)
      queue := queue } slots [] := by
  have hagrees := h.push party
  rw [hp] at hagrees
  cases hpc : s.queue.pushing party.thread with
  | idle =>
    have hstage : p.stage = .test := by rw [← hagrees.1, hpc]; rfl
    simp only [QueueSys.step, hpc] at hq
    obtain rfl := Option.some.inj hq
    have hfull : s.queue.queue.full = queueFull slots.length := by rw [full_taskShape, h.size]
    have hpush : (s.view slots).push? party = some p := hp
    refine .one (a := .pushTest party) slots ?_ ?_
    · change (s.view slots).pushTest party = _
      rw [CellManager.pushTest, hpush, Option.bind_some, if_pos hstage]
      change (if queueFull slots.length then _ else _) = _
      rw [← hfull]
      split_ifs
      · rw [hpc]
        rfl
      · rw [QueueSys.setPush_self]
        rfl
    · refine h.afterPush hp hinv ?_ ?_ ?_ ?_ false
      · split_ifs
        · exact h.slots
        · exact h.slots.of_eq rfl rfl rfl fun t => by
            rw [QueueSys.index?_setPush, Function.update_apply]
            split_ifs with ht
            · rw [ht, hpc]
              rfl
            · rfl
      · intro t ht
        split_ifs
        · rfl
        · exact QueueSys.setPush_of_ne ht
      · split_ifs <;> exact List.prefix_rfl
      · split_ifs
        · rw [hpc]
          trivial
        · rw [QueueSys.setPush_self]
          rfl
  | tested | reserved | found | stored => simp [QueueSys.step, hpc] at hq

theorem Shows.reserve (h : s.Shows slots) (hp : s.manager.push? party = some p)
    (hinv : queue.Inv) (hq : s.queue.step (.reserve party.thread) = some queue) :
    s.Follows { s with
      manager := s.manager.afterPush p false party (queue.pushing party.thread)
      queue := queue } slots [] := by
  have hagrees := h.push party
  rw [hp] at hagrees
  cases hpc : s.queue.pushing party.thread with
  | tested msg =>
    have hstage : p.stage = .reserve := by rw [← hagrees.1, hpc]; rfl
    obtain rfl : msg = some p.task := by
      rw [hpc] at hagrees
      exact hagrees.2
    simp only [QueueSys.step, hpc] at hq
    obtain rfl := Option.some.inj hq
    have hpush : (s.view slots).push? party = some p := hp
    have hslots := h.slots.reserve hpc
    have hself : (s.queue.setPush party.thread (.reserved s.queue.queue.postIndex (some p.task))).pushing
        party.thread = .reserved s.queue.queue.postIndex (some p.task) := QueueSys.setPush_self
    refine .one (a := .pushReserve party) (reserve slots party) ?_ ?_
    · change (s.view slots).pushReserve party = _
      rw [CellManager.pushReserve, hpush, Option.bind_some, if_pos hstage]
      change _ = some (view { s with
        manager := s.manager.afterPush p false party ((s.queue.setPush party.thread _).pushing party.thread)
        queue := _ } _)
      rw [hself]
      rfl
    · refine h.afterPush hp hinv ?_ ?_ (List.prefix_append _ _) ?_ false
      · rw [named, reserve_map]
        exact hslots
      · exact fun t ht => QueueSys.setPush_of_ne ht
      · change ((s.queue.setPush party.thread _).pushing party.thread).Carries _ _
        rw [hself]
        change (s.queue.reserved ++ [some p.task])[s.queue.queue.postIndex]? = _
        rw [← h.queue.len, List.getElem?_concat_length]
  | idle | reserved | found | stored => simp [QueueSys.step, hpc] at hq

/-- Between its reservation and its publication an access of a push changes no slot. -/
theorem Shows.access (h : s.Shows slots) (hp : s.manager.push? party = some p) (hinv : queue.Inv)
    {pc : PushPc (Option CellTask)} {q : SrtQueue taskShape (Option CellTask)}
    (hqueue : queue = { s.queue.setPush party.thread pc with queue := q })
    (hold : (s.queue.pushing party.thread).stage = .publish) (hnew : pc.stage = .publish)
    (hidx : pc.index? = (s.queue.pushing party.thread).index?)
    (hget : q.getIndex = s.queue.queue.getIndex) (hpost : q.postIndex = s.queue.queue.postIndex) :
    s.Follows { s with
      manager := s.manager.afterPush p false party (queue.pushing party.thread)
      queue := queue } slots [] := by
  have hagrees := h.push party
  rw [hp] at hagrees
  have hstage : p.stage = .publish := hagrees.1.symm.trans hold
  have hself : queue.pushing party.thread = pc := by
    rw [hqueue]
    exact QueueSys.setPush_self
  have hothers (t : ℕ) (ht : t ≠ party.thread) : queue.pushing t = s.queue.pushing t := by
    rw [hqueue]
    exact QueueSys.setPush_of_ne ht
  have hreserved : queue.reserved = s.queue.reserved := by rw [hqueue]; rfl
  have hcarries : pc.Carries s.queue.reserved (some p.task) := by
    have hcarried := hagrees.2
    cases hpc : s.queue.pushing party.thread <;> rw [hpc] at hold hidx hcarried <;> cases hold <;>
      cases pc <;> cases hnew <;> obtain rfl := Option.some.inj hidx <;> exact hcarried
  have hshown := h.afterPush hp hinv (h.slots.of_eq (by rw [hqueue]; exact hget)
    (by rw [hqueue]; exact hpost) hreserved fun t => by
      by_cases ht : t = party.thread
      · rw [ht, hself, hidx]
      · rw [hothers t ht]) hothers (hreserved ▸ List.prefix_rfl)
    (by rw [hself, hreserved]; exact hcarries) false
  refine .none ?_ hshown
  have hkept : s.manager.afterPush p false party pc = s.manager := by
    have hset : s.manager.setPush { p with stage := .publish } party = s.manager := by
      rw [← hstage]
      exact CellManager.setPush_push? hp
    cases pc with
    | idle | tested => cases hnew
    | reserved | found | stored => exact hset
  rw [hself]
  exact congrArg (fun m : CellManager => { m with cellTask := slots }) hkept

theorem Shows.publish (h : s.Shows slots) (hp : s.manager.push? party = some p)
    (hinv : queue.Inv) (hq : s.queue.step (.publish party.thread) = some queue) :
    s.Follows { s with
      manager := s.manager.afterPush p true party (queue.pushing party.thread)
      queue := queue } slots [] := by
  have hagrees := h.push party
  rw [hp] at hagrees
  cases hpc : s.queue.pushing party.thread with
  | stored i page =>
    have hstage : p.stage = .publish := by rw [← hagrees.1, hpc]; rfl
    have hmsg : s.queue.reserved[i]? = some (some p.task) := by
      rw [hpc] at hagrees
      exact hagrees.2
    obtain ⟨q, hflag, -⟩ := h.queue.publish hpc
    simp only [QueueSys.step, hpc, hflag, QueueSys.access] at hq
    obtain rfl := Option.some.inj hq
    have hframe := SrtQueue.modify_frame hflag
    obtain ⟨slots', hfill, hslots⟩ := h.slots.publish h.queue (by rw [hpc]; rfl) hmsg hframe.2.1 hframe.1
    rw [named, fill_map Party.thread_injective] at hfill
    obtain ⟨slots'', hfill', rfl⟩ := Option.map_eq_some_iff.mp hfill
    have hpush : (s.view slots).push? party = some p := hp
    have hself : (s.queue.setPush party.thread .idle).pushing party.thread = .idle := QueueSys.setPush_self
    refine .one (a := .pushPublish party) slots'' ?_ ?_
    · change (s.view slots).pushPublish party = _
      rw [CellManager.pushPublish, hpush, Option.bind_some, if_pos hstage]
      change (fill party p.task slots).map _ = some (view { s with
        manager := s.manager.afterPush p true party ((s.queue.setPush party.thread _).pushing party.thread)
        queue := _ } _)
      rw [hself, hfill']
      rfl
    · refine h.afterPush hp hinv hslots ?_ List.prefix_rfl ?_ true
      · exact fun t ht => QueueSys.setPush_of_ne ht
      · change ((s.queue.setPush party.thread _).pushing party.thread).Carries _ _
        rw [hself]
        trivial
  | idle | tested | reserved | found => simp [QueueSys.step, hpc] at hq

theorem Shows.push_step (h : s.Shows slots) {a : PushAccess} (hroom : s.HasRoom (.push party a))
    (hstep : s.push party a = some s') : s.Follows s' slots [] := by
  obtain ⟨p, hp, hstep⟩ := Option.bind_eq_some_iff.mp hstep
  obtain ⟨queue, hq, rfl⟩ := Option.map_eq_some_iff.mp hstep
  have hroom' : s.queue.HasRoom (a.act party.thread p.task) := by
    cases a with
    | reserve => exact hroom
    | test | lookup | store | publish => trivial
  have hinv := h.queue.keep hroom' hq
  cases a with
  | test => exact h.test hp hinv hq
  | reserve => exact h.reserve hp hinv hq
  | lookup =>
    cases hpc : s.queue.pushing party.thread with
    | reserved i msg =>
      simp only [PushAccess.act, QueueSys.step, hpc] at hq
      exact h.access hp hinv (Option.some.inj hq).symm (by rw [hpc]; rfl) rfl (by rw [hpc]; rfl) rfl rfl
    | idle | tested | found | stored => simp [PushAccess.act, QueueSys.step, hpc] at hq
  | store =>
    cases hpc : s.queue.pushing party.thread with
    | found i page msg =>
      obtain ⟨q, hset, -⟩ := h.queue.store hpc
      have hframe := SrtQueue.modify_frame hset
      simp only [PushAccess.act, QueueSys.step, hpc, hset, QueueSys.access] at hq
      exact h.access hp hinv (Option.some.inj hq).symm (by rw [hpc]; rfl) rfl (by rw [hpc]; rfl)
        hframe.2.1 hframe.1
    | idle | tested | reserved | stored => simp [PushAccess.act, QueueSys.step, hpc] at hq
  | publish => exact h.publish hp hinv hq

/-! ### Pops -/

/-- An access of the pop, which concerns no producer. -/
theorem Shows.popped (h : s.Shows slots) {manager : CellManager}
    (hpush : ∀ q, manager.push? q = s.manager.push? q) (hinv : queue.Inv)
    (hslots : queue.ShowsSlots (named slots')) (hpushing : queue.pushing = s.queue.pushing)
    (hreserved : queue.reserved = s.queue.reserved) :
    Shows { s with manager := manager, queue := queue } slots' where
  queue := hinv
  slots := hslots
  push := fun party => by
    change (queue.pushing party.thread).Agrees queue.reserved (manager.push? party)
    rw [hpush, hpushing, hreserved]
    exact h.push party
  fault := h.fault

/-- The pop goes on. -/
theorem Shows.pop_on (h : s.Shows slots) (hinv : queue.Inv)
    (hget : queue.queue.getIndex = s.queue.queue.getIndex)
    (hpost : queue.queue.postIndex = s.queue.queue.postIndex) (hpushing : queue.pushing = s.queue.pushing)
    (hreserved : queue.reserved = s.queue.reserved) (hbusy : queue.popping.isIdle = false) :
    s.Follows (s.afterPop queue none) slots [] := by
  have hafter : s.afterPop queue none = { s with queue := queue } := by
    rw [afterPop, hbusy]
    rfl
  rw [hafter]
  exact .none rfl (h.popped (fun _ => rfl) hinv
    (h.slots.of_eq hget hpost hreserved fun t => by rw [hpushing]) hpushing hreserved)

/-- The pop returns nothing, and `handleTask` ends. -/
theorem Shows.pop_none (h : s.Shows slots) (hloop : s.manager.loop = .handleTask)
    (hdel : s.manager.delPush = none) (hinv : queue.Inv)
    (hget : queue.queue.getIndex = s.queue.queue.getIndex)
    (hpost : queue.queue.postIndex = s.queue.queue.postIndex) (hpushing : queue.pushing = s.queue.pushing)
    (hreserved : queue.reserved = s.queue.reserved) (hidle : queue.popping.isIdle = true)
    (hnone : s.queue.queue.postIndex ≤ s.queue.queue.getIndex ∨
      ∃ t, (s.queue.pushing t).index? = some s.queue.queue.getIndex) :
    s.Follows (s.afterPop queue none) slots [] := by
  have hpop := h.slots.pop_none h.queue hnone
  rw [named, pop_map] at hpop
  have hafter : s.afterPop queue none =
      { s with manager := { s.manager with loop := .checkWrite }, queue := queue } := by
    rw [afterPop, hidle]
    rfl
  rw [hafter]
  refine .one (a := .pop) slots ?_ ?_
  · have hdel' : (s.view slots).delPush = none := hdel
    have hnone' : (s.view slots).pop = some { s.view slots with loop := .checkWrite } :=
      CellManager.pop_of_none hloop (Option.map_eq_none_iff.mp hpop)
    change (s.view slots).inLoop (s.view slots).pop = _
    rw [CellManager.inLoop, hdel', hnone']
    rfl
  · exact h.popped (fun q => by cases q <;> rfl) hinv
      (h.slots.of_eq hget hpost hreserved fun t => by rw [hpushing]) hpushing hreserved

/-- The pop returns the first task. -/
theorem Shows.pop_some (h : s.Shows slots) (hloop : s.manager.loop = .handleTask)
    (hdel : s.manager.delPush = none) {msg : Option CellTask}
    (hpc : s.queue.popping = .taken msg) (hinv : queue.Inv)
    (hqueue : queue = { s.queue with
      queue := s.queue.queue.incGet, popping := .idle, popped := s.queue.popped ++ [msg] }) :
    s.Follows (s.afterPop queue (some msg)) slots [] := by
  obtain ⟨slots', hpop, hslots⟩ := h.slots.next h.queue hpc
  rw [named, pop_map] at hpop
  obtain ⟨⟨ct, slots''⟩, hpop', heq⟩ := Option.map_eq_some_iff.mp hpop
  obtain ⟨rfl, rfl⟩ := Prod.mk.inj heq
  refine .one (a := .pop) slots'' ?_ ?_
  · have hdel' : (s.view slots).delPush = none := hdel
    have hsome : (s.view slots).pop = some { s.view slots with cellTask := slots'', loop := .task ct } :=
      CellManager.pop_of_some hloop hpop'
    change (s.view slots).inLoop (s.view slots).pop = _
    rw [CellManager.inLoop, hdel', hsome]
    rfl
  · exact h.popped (fun q => by cases q <;> rfl) hinv (hqueue ▸ hslots) (by rw [hqueue]) (by rw [hqueue])

theorem Shows.pop_step (h : s.Shows slots) (hdel : s.manager.delPush = none)
    {a : QueueAct (Option CellTask)} (hstep : s.pop a = some s') : s.Follows s' slots [] := by
  cases hloop : s.manager.loop with
  | handleTask =>
    simp only [pop, hloop] at hstep
    split_ifs at hstep with hpop
    obtain ⟨queue, hq, rfl⟩ := Option.map_eq_some_iff.mp hstep
    have hroom : s.queue.HasRoom a := by
      cases a with
      | reserve => cases hpop
      | _ => trivial
    have hinv := h.queue.keep hroom hq
    cases a with
    | test | reserve | lookup | store | publish => cases hpop
    | popStart =>
      cases hpc : s.queue.popping with
      | idle =>
        simp only [QueueSys.step, hpc] at hq
        obtain rfl := Option.some.inj hq
        split_ifs at hinv ⊢ with hempty
        · exact h.pop_none hloop hdel hinv rfl rfl rfl rfl (by rw [hpc]; rfl) (Or.inl hempty)
        · exact h.pop_on hinv rfl rfl rfl rfl rfl
      | started | found | last | deleted | taken => simp [QueueSys.step, hpc] at hq
    | popLookup =>
      cases hpc : s.queue.popping with
      | started =>
        simp only [QueueSys.step, hpc] at hq
        obtain rfl := Option.some.inj hq
        exact h.pop_on hinv rfl rfl rfl rfl rfl
      | idle | found | last | deleted | taken => simp [QueueSys.step, hpc] at hq
    | popCheck =>
      cases hpc : s.queue.popping with
      | found page =>
        obtain ⟨pc, hcheck, -, hnext⟩ := h.queue.check hpc
        obtain rfl := Option.some.inj (hcheck.symm.trans hq)
        rcases hnext with ⟨rfl, hheld⟩ | ⟨msg, -, rfl | rfl⟩
        · exact h.pop_none hloop hdel hinv rfl rfl rfl rfl rfl (Or.inr hheld)
        · exact h.pop_on hinv rfl rfl rfl rfl rfl
        · exact h.pop_on hinv rfl rfl rfl rfl rfl
      | idle | started | last | deleted | taken => simp [QueueSys.step, hpc] at hq
    | popDelete =>
      cases hpc : s.queue.popping with
      | last page msg =>
        obtain ⟨q, hdelete, -⟩ := h.queue.delete hpc
        have hframe := SrtQueue.deletePage_frame hdelete
        simp only [QueueSys.step, hpc, hdelete, QueueSys.access] at hq
        obtain rfl := Option.some.inj hq
        exact h.pop_on hinv hframe.2.1 hframe.1 rfl rfl rfl
      | idle | started | found | deleted | taken => simp [QueueSys.step, hpc] at hq
    | popClear =>
      cases hpc : s.queue.popping with
      | deleted msg =>
        simp only [QueueSys.step, hpc] at hq
        obtain rfl := Option.some.inj hq
        exact h.pop_on hinv rfl rfl rfl rfl rfl
      | idle | started | found | last | taken => simp [QueueSys.step, hpc] at hq
    | popNext =>
      cases hpc : s.queue.popping with
      | taken msg =>
        simp only [QueueSys.step, hpc] at hq
        have hreceived : s.queue.received .popNext = some msg := by simp only [QueueSys.received, hpc]
        rw [hreceived]
        exact h.pop_some hloop hdel hpc hinv (Option.some.inj hq).symm
      | idle | started | found | last | deleted => simp [QueueSys.step, hpc] at hq
  | _ => simp [pop, hloop] at hstep

/-! ### Every step -/

theorem Shows.manager_step (h : s.Shows slots) {a : Action} (ha : a.onQueue = false) {manager : CellManager}
    (hstep : s.manager.step a = some manager) :
    s.Follows { s with manager := manager } slots [a] := by
  have hbeside : CellManager.beside a = [a] := by rw [CellManager.beside, ha]; rfl
  rw [← hbeside]
  refine .one slots ?_ ⟨h.queue, h.slots, fun party => ?_, h.fault⟩
  · refine (CellManager.step_withTasks s.manager slots ha).trans ?_
    rw [hstep]
    rfl
  · have hagrees := h.push party
    rcases CellManager.push?_beside (CellManager.step_sound hstep) ha party with hsame | ⟨hnone, task, hnew⟩
    · rw [hsame]
      exact hagrees
    · -- a push that begins finds its thread outside of the queue
      rw [hnone] at hagrees
      rw [hnew, show s.queue.pushing party.thread = .idle from hagrees]
      exact ⟨rfl, trivial⟩

theorem Shows.step (h : s.Shows slots) {a : QueuedAction} (hroom : s.HasRoom a)
    (hstep : s.step a = some s') : s.Follows s' slots (beside a) := by
  cases a with
  | manager a =>
    simp only [QueuedManager.step] at hstep
    split_ifs at hstep with ha
    obtain ⟨manager, hmanager, rfl⟩ := Option.map_eq_some_iff.mp hstep
    exact h.manager_step (Bool.eq_false_of_not_eq_true ha) hmanager
  | push party a => exact h.push_step hroom hstep
  | pop a =>
    simp only [QueuedManager.step] at hstep
    split_ifs at hstep with hdel
    exact h.pop_step (Option.isNone_iff_eq_none.mp hdel) hstep

end QueuedManager

open QueuedManager in
/-- In every run in which the reserved indexes have room the manager with its pages is, but for the
list of slots, in a state of the manager with that list, after a run that does the same besides the
queue. No null pointer is popped, and no page is used after it was freed. -/
theorem task_queue_refines_slots {acts : List QueuedAction} {s : QueuedManager}
    (h : Run QueuedManager.step HasRoom {} acts s) :
    s.fault = false ∧ s.queue.fault = false ∧ ∃ acts' slots,
      Run CellManager.step anyStep {} acts' (s.view slots) ∧
      acts'.flatMap CellManager.beside = acts.flatMap beside ∧ s.queue.ShowsSlots (named slots) := by
  obtain ⟨acts', m, hrun, hbeside, slots, rfl, hshows⟩ := h.simulate
    (fun s m => ∃ slots, m = s.view slots ∧ s.Shows slots) beside CellManager.beside
    ⟨[], rfl, .init⟩ fun s a s' m ⟨slots, hm, hs⟩ hroom hstep => by
      obtain ⟨acts', slots', hrun, hbeside, hs'⟩ := hs.step hroom hstep
      exact ⟨acts', s'.view slots', hm ▸ hrun, hbeside, slots', rfl, hs'⟩
  exact ⟨hshows.fault, hshows.queue.fault, acts', slots, hrun, hbeside, hshows.slots⟩

/-- `handleTask` finds the slot of an add task that is not filled yet, and the task in the next round. -/
def slotNotFilled : List QueuedAction :=
  let push (as : List PushAccess) : List QueuedAction := as.map (.push .acceptor)
  let pop (as : List (QueueAct (Option CellTask))) : List QueuedAction := as.map .pop
  let manager (as : List Action) : List QueuedAction := as.map .manager
  List.flatten [manager (acceptOn 5), push [.test, .reserve], pop [.popStart, .popLookup, .popCheck],
    push [.lookup, .store, .publish], manager [.checkWrite, .epollWait [], .doEvent],
    pop [.popStart, .popLookup, .popCheck, .popNext], manager [.handle]]

open QueuedManager in
theorem task_queue_refines_slots_not_filled :
    ∃ s : QueuedManager, Run QueuedManager.step HasRoom {} slotNotFilled s ∧
      s.manager.trace 0 = [.onConnect] ∧ s.fault = false ∧ ∃ acts' slots,
        Run CellManager.step anyStep {} acts' (s.view slots) ∧
        acts'.flatMap CellManager.beside =
          acceptOn 5 ++ [.checkWrite, .epollWait [], .doEvent, .handle] ∧
        s.queue.ShowsSlots (named slots) := by
  have hexec : (exec (fun s a => if decide (HasRoom s a) then QueuedManager.step s a else none) {}
      slotNotFilled).map (fun s => s.manager.trace 0) = some [.onConnect] := by decide +kernel
  obtain ⟨s, hs, htrace⟩ := Option.map_eq_some_iff.mp hexec
  have hrun : Run QueuedManager.step HasRoom {} slotNotFilled s :=
    .of_exec_guard (fun s a => decide (HasRoom s a)) (fun _ _ _ h => of_decide_eq_true h) hs
  obtain ⟨hfault, -, acts', slots, hrun', hbeside, hshows⟩ := task_queue_refines_slots hrun
  exact ⟨s, hrun, htrace, hfault, acts', slots, hrun', hbeside, hshows⟩

end TcpLib
