import TcpLib.CellManagerStep

/-!
# Tasks and descriptors in every run

`Pending` are the tasks that were made and not handled yet, wherever they are: in a thread that
is pushing them, in the queue, or in the hand of the loop thread. `Base` is what holds of the
descriptors, of `m_Cell` and of the positions of the threads in every run, with no assumption on
the order of the steps.
-/

namespace TcpLib
open SlotQueue Transition

/-- The task in the hand of the loop thread. -/
def LoopPc.tasks : LoopPc → List CellTask
  | .task t => [t]
  | _ => []

/-- The connection whose descriptor is closed and whose entry is not erased yet. -/
def LoopPc.closing : LoopPc → Option ℕ
  | .delErase c => some c
  | _ => none

/-- The connection whose cell the loop thread looked up and works on. -/
def LoopPc.found : LoopPc → Option ℕ
  | .delClose c => some c
  | .recv c _ _ => some c
  | _ => none

namespace CellManager

def Pending (s : CellManager) (u : CellTask) : Prop :=
  (∃ party p, s.push? party = some p ∧ p.task = u) ∨ u ∈ items s.cellTask ∨ u ∈ s.loop.tasks

def isAdd (x : ℕ) (u : CellTask) : Bool := decide (u.event = .add ∧ u.conn = x)

/-- How many tasks that add the connection are pending outside the threads that send. -/
def adds (s : CellManager) (x : ℕ) : ℕ :=
  (s.acceptor.push?.map Push.task).toList.countP (isAdd x) + (items s.cellTask).countP (isAdd x) +
    s.loop.tasks.countP (isAdd x)

/-- The tasks that a step makes, with what it saw and where it leads. -/
inductive Created (s : CellManager) : Action → CellManager → CellTask → Prop
  | add (buf : Memory) (ev : EpollEvents) (ip : String) (port : UInt16) (t : CellManager) :
      s.acceptor = .accepted → t.reg = s.reg.insert → t.trace = s.trace →
      Created s (.insert buf ev ip port) t ⟨.add, s.reg.name s.reg.inserted, s.reg.inserted, none⟩
  | send (i fd : ℕ) (bytes : List UInt8) (c : ℕ) (t : CellManager) : s.reg.map fd = some c →
      t.reg = s.reg →
      Created s (.sendLookup i fd bytes) t ⟨.send, fd, c, some ⟨⟨s.nextId, c, bytes⟩, 0⟩⟩
  | lost (ct : CellTask) (t : CellManager) : s.loop = .task ct → ct.event = .add →
      s.reg.map ct.clientid = none → t.reg = s.reg → t.adds ct.conn + 1 ≤ s.adds ct.conn →
      Created s .handle t ⟨.del, ct.clientid, ct.conn, none⟩
  | hangup (e : EpollEvent) (es : List EpollEvent) (t : CellManager) : s.loop = .events (e :: es) →
      e.events.hangup = true → t.reg = s.reg → t.seen e.conn = true →
      Created s .doEvent t ⟨.del, e.fd, e.conn, none⟩
  | closed (r : ReadResult) (hub : Hub) (c d : ℕ) (e : EpollEvent) (es : List EpollEvent)
      (t : CellManager) : s.loop = .recv c e es → s.reg.table (s.cell c).clientFd = some d →
      (s.sock d).ReadOk r → (r = .eof ∨ r = .fail) → t.reg = s.reg → t.seen d = true →
      Created s (.read r hub) t ⟨.del, (s.cell c).clientFd, c, none⟩

variable {s t : CellManager} {a : Action} {u : CellTask} {party q : Party} {p p' : Push}

theorem adds_le {x : ℕ} (hacc : t.acceptor = s.acceptor) (hq : t.cellTask = s.cellTask)
    (hloop : t.loop.tasks.Sublist s.loop.tasks) : t.adds x ≤ s.adds x := by
  unfold adds
  rw [hacc, hq]
  exact Nat.add_le_add_left (hloop.countP_le) _

theorem adds_handle {x : ℕ} {ct : CellTask} (hacc : t.acceptor = s.acceptor)
    (hq : t.cellTask = s.cellTask) (hpc : s.loop = .task ct) (hloop : t.loop.tasks = [])
    (hadd : ct.event = .add ∧ ct.conn = x) : t.adds x + 1 ≤ s.adds x := by
  unfold adds
  rw [hacc, hq, hloop, hpc]
  simp [LoopPc.tasks, isAdd, hadd]

theorem not_pending_first (r : Registry) {pc : AcceptPc} (hpc : pc.push? = none) :
    ¬ ({ reg := r, acceptor := pc } : CellManager).Pending u := by
  rintro (⟨party, p, hp, -⟩ | hu | hu)
  · cases party with
    | acceptor => exact absurd hp (by simp [push?, hpc])
    | _ => cases hp
  · cases hu
  · cases hu

theorem push?_setPush (h : s.push? party = some p) :
    (s.setPush p' party).push? q = if q = party then some p' else s.push? q := by
  cases party <;> cases q <;> simp only [push?, setPush] <;> try rfl
  next i j =>
    by_cases hij : i = j
    · subst hij
      simp only [if_true]
      cases hs : s.sender i with
      | pushing call p => simp [SenderPc.setPush]
      | idle => simp [push?, hs] at h
      | returning call payload code => simp [push?, hs] at h
    · simp [hij, Ne.symm hij]

theorem push?_endPush (flag : Bool) (h : s.push? party = some p) :
    (s.endPush p' flag party).push? q = if q = party then none else s.push? q := by
  cases party <;> cases q <;> simp only [push?, endPush] <;> try rfl
  next i j =>
    by_cases hij : i = j
    · subst hij
      simp only [if_true]
      cases hs : s.sender i with
      | pushing call p => simp [SenderPc.endPush]
      | idle => simp [push?, hs] at h
      | returning call payload code => simp [push?, hs] at h
    · simp [hij, Ne.symm hij]

theorem push?_of_eq (hacc : t.acceptor = s.acceptor) (hdel : t.delPush = s.delPush)
    (hsend : t.sender = s.sender) (q : Party) : t.push? q = s.push? q := by
  cases q <;> simp only [push?, hacc, hdel, hsend]

theorem push?_acceptor (hdel : t.delPush = s.delPush) (hsend : t.sender = s.sender) (q : Party) :
    t.push? q = if q = .acceptor then t.acceptor.push? else s.push? q := by
  cases q <;> simp [push?, hdel, hsend]

theorem push?_sender {i : ℕ} {pc : SenderPc} (hacc : t.acceptor = s.acceptor)
    (hdel : t.delPush = s.delPush) (hsend : t.sender = Function.update s.sender i pc) (q : Party) :
    t.push? q = if q = .sender i then pc.push? else s.push? q := by
  cases q with
  | loop | acceptor => simp [push?, hacc, hdel]
  | sender j => by_cases hj : j = i <;> simp [push?, hsend, hj]

theorem push?_delTask {s₀ : CellManager} {fd c : ℕ} (hacc : s₀.acceptor = s.acceptor)
    (hsend : s₀.sender = s.sender) (q : Party) : (s₀.delTask fd c).push? q =
      if q = .loop then some ⟨⟨.del, fd, c, none⟩, .test⟩ else s.push? q := by
  cases q <;> simp [push?, delTask, hacc, hsend]

theorem Pending.of_eq (hu : t.Pending u) (hacc : t.acceptor = s.acceptor)
    (hdel : t.delPush = s.delPush) (hsend : t.sender = s.sender) (hq : t.cellTask = s.cellTask)
    (hloop : t.loop.tasks ⊆ s.loop.tasks) : s.Pending u := by
  rcases hu with ⟨party, p, hp, rfl⟩ | hu | hu
  · rw [push?_of_eq hacc hdel hsend] at hp
    exact Or.inl ⟨party, p, hp, rfl⟩
  · exact Or.inr (Or.inl (hq ▸ hu))
  · exact Or.inr (Or.inr (hloop hu))

theorem Pending.of_acceptor (hu : t.Pending u) (hdel : t.delPush = s.delPush)
    (hsend : t.sender = s.sender) (hq : t.cellTask = s.cellTask) (hloop : t.loop = s.loop) :
    s.Pending u ∨ ∃ p, t.acceptor.push? = some p ∧ p.task = u := by
  rcases hu with ⟨party, p, hp, rfl⟩ | hu | hu
  · rw [push?_acceptor hdel hsend] at hp
    split_ifs at hp
    · exact Or.inr ⟨p, hp, rfl⟩
    · exact Or.inl (Or.inl ⟨party, p, hp, rfl⟩)
  · exact Or.inl (Or.inr (Or.inl (hq ▸ hu)))
  · exact Or.inl (Or.inr (Or.inr (hloop ▸ hu)))

theorem Pending.of_sender {i : ℕ} {pc : SenderPc} (hu : t.Pending u) (hacc : t.acceptor = s.acceptor)
    (hdel : t.delPush = s.delPush) (hsend : t.sender = Function.update s.sender i pc)
    (hq : t.cellTask = s.cellTask) (hloop : t.loop = s.loop) :
    s.Pending u ∨ ∃ p, pc.push? = some p ∧ p.task = u := by
  rcases hu with ⟨party, p, hp, rfl⟩ | hu | hu
  · rw [push?_sender hacc hdel hsend] at hp
    split_ifs at hp
    · exact Or.inr ⟨p, hp, rfl⟩
    · exact Or.inl (Or.inl ⟨party, p, hp, rfl⟩)
  · exact Or.inl (Or.inr (Or.inl (hq ▸ hu)))
  · exact Or.inl (Or.inr (Or.inr (hloop ▸ hu)))

theorem Pending.of_delTask {s₀ : CellManager} {fd c : ℕ} (hu : (s₀.delTask fd c).Pending u)
    (hacc : s₀.acceptor = s.acceptor) (hsend : s₀.sender = s.sender)
    (hq : s₀.cellTask = s.cellTask) (hloop : s₀.loop.tasks = []) :
    s.Pending u ∨ u = ⟨.del, fd, c, none⟩ := by
  rcases hu with ⟨party, p, hp, rfl⟩ | hu | hu
  · rw [push?_delTask hacc hsend] at hp
    split_ifs at hp
    · obtain rfl := Option.some.inj hp
      exact Or.inr rfl
    · exact Or.inl (Or.inl ⟨party, p, hp, rfl⟩)
  · exact Or.inl (Or.inr (Or.inl (hq ▸ hu)))
  · rw [show (s₀.delTask fd c).loop.tasks = [] from hloop] at hu
    cases hu

/-- No task appears from nowhere. -/
theorem pending_step (h : Step s a t) (hu : t.Pending u) : s.Pending u ∨ s.Created a t u := by
  cases h with
  | arrive c bytes => exact Or.inl (hu.of_eq rfl rfl rfl rfl fun _ h => h)
  | fin c => exact Or.inl (hu.of_eq rfl rfl rfl rfl fun _ h => h)
  | rst c => exact Or.inl (hu.of_eq rfl rfl rfl rfl fun _ h => h)
  | accept fd hpc =>
    rcases hu.of_acceptor (s := s) rfl rfl rfl rfl with hu | ⟨p, hp, rfl⟩
    · exact Or.inl hu
    · cases hp
  | insert buf ev ip port hpc =>
    rcases hu.of_acceptor (s := s) rfl rfl rfl rfl with hu | ⟨p, hp, rfl⟩
    · exact Or.inl hu
    · obtain rfl := Option.some.inj hp
      exact Or.inr (.add buf ev ip port _ hpc rfl rfl)
  | pushFull party p hp hstage =>
    rcases hu with ⟨q, r, hr, rfl⟩ | hu | hu
    · rw [push?_endPush _ hp] at hr
      split_ifs at hr
      exact Or.inl (Or.inl ⟨q, r, hr, rfl⟩)
    · exact Or.inl (Or.inr (Or.inl hu))
    · exact Or.inl (Or.inr (Or.inr hu))
  | pushRoom party p hp hstage =>
    rcases hu with ⟨q, r, hr, rfl⟩ | hu | hu
    · rw [push?_setPush hp] at hr
      split_ifs at hr
      · obtain rfl := Option.some.inj hr
        exact Or.inl (Or.inl ⟨party, p, hp, rfl⟩)
      · exact Or.inl (Or.inl ⟨q, r, hr, rfl⟩)
    · exact Or.inl (Or.inr (Or.inl hu))
    · exact Or.inl (Or.inr (Or.inr hu))
  | pushReserve party p hp hstage =>
    rcases hu with ⟨q, r, hr, rfl⟩ | hu | hu
    · rw [push?_setPush (s := { s with cellTask := reserve s.cellTask party }) hp] at hr
      split_ifs at hr
      · obtain rfl := Option.some.inj hr
        exact Or.inl (Or.inl ⟨party, p, hp, rfl⟩)
      · exact Or.inl (Or.inl ⟨q, r, hr, rfl⟩)
    · exact Or.inl (Or.inr (Or.inl (by simpa [setPush] using hu)))
    · exact Or.inl (Or.inr (Or.inr hu))
  | pushPublish party p slots hp hfill =>
    rcases hu with ⟨q, r, hr, rfl⟩ | hu | hu
    · rw [push?_endPush (s := { s with cellTask := slots }) _ hp] at hr
      split_ifs at hr
      exact Or.inl (Or.inl ⟨q, r, hr, rfl⟩)
    · rcases List.mem_cons.mp ((items_fill hfill).subset hu) with rfl | hu
      · exact Or.inl (Or.inl ⟨party, p, hp, rfl⟩)
      · exact Or.inl (Or.inr (Or.inl hu))
    · exact Or.inl (Or.inr (Or.inr hu))
  | sendLost i fd bytes hpc hmap =>
    rcases hu.of_sender (s := s) rfl rfl rfl rfl rfl with hu | ⟨p, hp, rfl⟩
    · exact Or.inl hu
    · cases hp
  | sendFound i fd bytes c hpc hmap =>
    rcases hu.of_sender (s := s) rfl rfl rfl rfl rfl with hu | ⟨p, hp, rfl⟩
    · exact Or.inl hu
    · obtain rfl := Option.some.inj hp
      exact Or.inr (.send i fd bytes c _ hmap rfl)
  | sendReturn i ret call payload code hpc =>
    rcases hu.of_sender (s := s) rfl rfl rfl rfl rfl with hu | ⟨p, hp, rfl⟩
    · exact Or.inl hu
    · cases hp
  | popTask ct slots hpc hpop =>
    have hitems := items_pop hpop
    rcases hu with hp | hu | hu
    · exact Or.inl (Or.inl hp)
    · exact Or.inl (Or.inr (Or.inl (hitems ▸ List.mem_cons_of_mem _ hu)))
    · obtain rfl : u = ct := by simpa [LoopPc.tasks] using hu
      exact Or.inl (Or.inr (Or.inl (hitems ▸ List.mem_cons_self)))
  | popNone => exact Or.inl (hu.of_eq rfl rfl rfl rfl (List.nil_subset _))
  | addLost ct hpc hev hdel hmap =>
    rcases hu.of_delTask (s := s) rfl rfl rfl rfl with hu | rfl
    · exact Or.inl hu
    · exact Or.inr (.lost ct _ hpc hev hmap rfl (adds_handle (s := s) rfl rfl hpc rfl ⟨hev, rfl⟩))
  | addFound => exact Or.inl (hu.of_eq rfl rfl rfl rfl (List.nil_subset _))
  | sendDropped => exact Or.inl (hu.of_eq rfl rfl rfl rfl (List.nil_subset _))
  | sendStored => exact Or.inl (hu.of_eq rfl rfl rfl rfl (List.nil_subset _))
  | delNone => exact Or.inl (hu.of_eq rfl rfl rfl rfl (List.nil_subset _))
  | delFound => exact Or.inl (hu.of_eq rfl rfl rfl rfl (List.nil_subset _))
  | close => exact Or.inl (hu.of_eq rfl rfl rfl rfl (List.nil_subset _))
  | erase => exact Or.inl (hu.of_eq rfl rfl rfl rfl (List.nil_subset _))
  | notify => exact Or.inl (hu.of_eq rfl rfl rfl rfl (List.nil_subset _))
  | checkWrite => exact Or.inl (hu.of_eq rfl rfl rfl rfl (List.nil_subset _))
  | epollWait => exact Or.inl (hu.of_eq rfl rfl rfl rfl (List.nil_subset _))
  | eventsEnd => exact Or.inl (hu.of_eq rfl rfl rfl rfl (List.nil_subset _))
  | hangup e es hpc hdel hhup =>
    rcases hu.of_delTask (s := s) rfl rfl rfl rfl with hu | rfl
    · exact Or.inl hu
    · exact Or.inr (.hangup e es _ hpc hhup rfl (by simp [delTask]))
  | recvStart => exact Or.inl (hu.of_eq rfl rfl rfl rfl (List.nil_subset _))
  | recvSkip => exact Or.inl (hu.of_eq rfl rfl rfl rfl (List.nil_subset _))
  | read r hub c d e es o pc hpc hd hlegal hok ho hnext hpc' =>
    have htasks : pc.tasks = [] := by rcases hpc' with rfl | rfl <;> rfl
    exact Or.inl (hu.of_eq rfl rfl rfl rfl (by simp [htasks]))
  | readClosed r hub c d e es hpc hdel hd hok hr =>
    rcases hu.of_delTask (s := s) rfl rfl rfl rfl with hu | rfl
    · exact Or.inl hu
    · exact Or.inr (.closed r hub c d e es _ hpc hd hok hr rfl (by simp [delTask]))
  | writeSkip => exact Or.inl (hu.of_eq rfl rfl rfl rfl (List.nil_subset _))
  | write => exact Or.inl (hu.of_eq rfl rfl rfl rfl (List.nil_subset _))

/-! ## Tasks that add a connection -/

/-- Only the accepting thread pushes tasks that add a connection. -/
def Shape (s : CellManager) : Prop :=
  ∀ party p, s.push? party = some p → (p.task.event = .add ↔ party = .acceptor)

theorem Shape.of_eq (hs : s.Shape) (hacc : t.acceptor = s.acceptor) (hdel : t.delPush = s.delPush)
    (hsend : t.sender = s.sender) : t.Shape := by
  intro party p hp
  rw [push?_of_eq hacc hdel hsend] at hp
  exact hs party p hp

theorem Shape.of_delTask {s₀ : CellManager} {fd c : ℕ} (hs : s.Shape) (hacc : s₀.acceptor = s.acceptor)
    (hsend : s₀.sender = s.sender) : (s₀.delTask fd c).Shape := by
  intro party p hp
  rw [push?_delTask hacc hsend] at hp
  split_ifs at hp with hparty
  · obtain rfl := Option.some.inj hp
    simp [hparty]
  · exact hs party p hp

theorem Shape.of_acceptor (hs : s.Shape) (hdel : t.delPush = s.delPush) (hsend : t.sender = s.sender)
    (hadd : ∀ p, t.acceptor.push? = some p → p.task.event = .add) : t.Shape := by
  intro party p hp
  rw [push?_acceptor hdel hsend] at hp
  split_ifs at hp with hparty
  · simpa [hparty] using hadd p hp
  · exact hs party p hp

theorem Shape.of_sender {i : ℕ} {pc : SenderPc} (hs : s.Shape) (hacc : t.acceptor = s.acceptor)
    (hdel : t.delPush = s.delPush) (hsend : t.sender = Function.update s.sender i pc)
    (hpc : ∀ p, pc.push? = some p → p.task.event ≠ .add) : t.Shape := by
  intro party p hp
  rw [push?_sender hacc hdel hsend] at hp
  split_ifs at hp with hparty
  · simpa [hparty] using hpc p hp
  · exact hs party p hp

theorem Shape.of_setPush (hs : s.Shape) (hp : s.push? party = some p) (htask : p'.task = p.task) :
    (s.setPush p' party).Shape := by
  intro q r hr
  rw [push?_setPush hp] at hr
  split_ifs at hr with hq
  · obtain rfl := Option.some.inj hr
    rw [htask, hq]
    exact hs party p hp
  · exact hs q r hr

theorem Shape.of_endPush {flag : Bool} (hs : s.Shape) (hp : s.push? party = some p) :
    (s.endPush p' flag party).Shape := by
  intro q r hr
  rw [push?_endPush flag hp] at hr
  split_ifs at hr
  exact hs q r hr

theorem Shape.step (h : Step s a t) (hs : s.Shape) : t.Shape := by
  cases h with
  | accept fd hpc => exact hs.of_acceptor rfl rfl (by simp)
  | insert buf ev ip port hpc =>
    refine hs.of_acceptor rfl rfl fun p hp => ?_
    obtain rfl := Option.some.inj hp
    rfl
  | pushFull party p hp hstage => exact hs.of_endPush hp
  | pushRoom party p hp hstage => exact hs.of_setPush hp rfl
  | pushReserve party p hp hstage =>
    exact Shape.of_setPush (s := { s with cellTask := reserve s.cellTask party }) hs hp rfl
  | pushPublish party p slots hp hfill =>
    exact Shape.of_endPush (s := { s with cellTask := slots }) hs hp
  | sendLost i fd bytes hpc hmap => exact hs.of_sender rfl rfl rfl (by simp)
  | sendFound i fd bytes c hpc hmap =>
    refine hs.of_sender rfl rfl rfl fun p hp => ?_
    obtain rfl := Option.some.inj hp
    simp
  | sendReturn i ret call payload code hpc => exact hs.of_sender rfl rfl rfl (by simp)
  | addLost => exact hs.of_delTask rfl rfl
  | hangup => exact hs.of_delTask rfl rfl
  | readClosed => exact hs.of_delTask rfl rfl
  | _ => exact hs.of_eq rfl rfl rfl

/-- Only `addTask` makes a task that adds a connection, one for each. -/
theorem adds_step {x : ℕ} (h : Step s a t) (hs : s.Shape) :
    t.adds x ≤ s.adds x ∨
      (s.acceptor = .accepted ∧ t.reg = s.reg.insert ∧ x = s.reg.inserted ∧
        t.adds x = s.adds x + 1) := by
  cases h with
  | accept fd hpc =>
    left
    simp [adds, hpc]
  | insert buf ev ip port hpc =>
    by_cases hx : x = s.reg.inserted
    · right
      refine ⟨hpc, rfl, hx, ?_⟩
      simp [adds, hpc, isAdd, hx]
      omega
    · left
      simp [adds, hpc, isAdd, Ne.symm hx]
  | pushFull party p hp hstage =>
    left
    by_cases hparty : party = .acceptor
    · simp [adds, endPush, hparty]
    · exact adds_le (by simp [endPush, hparty]) rfl (List.Sublist.refl _)
  | pushRoom party p hp hstage =>
    left
    by_cases hparty : party = .acceptor
    · subst hparty
      have hp' : s.acceptor.push? = some p := hp
      simp [adds, setPush, hp']
    · exact adds_le (by simp [setPush, hparty]) rfl (List.Sublist.refl _)
  | pushReserve party p hp hstage =>
    left
    by_cases hparty : party = .acceptor
    · subst hparty
      have hp' : s.acceptor.push? = some p := hp
      simp [adds, setPush, hp']
    · simp [adds, setPush, hparty]
  | pushPublish party p slots hp hfill =>
    left
    have hcount := (items_fill hfill).countP_eq (isAdd x)
    rw [List.countP_cons] at hcount
    by_cases hparty : party = .acceptor
    · subst hparty
      have hp' : s.acceptor.push? = some p := hp
      simp only [adds, endPush, if_true, hp', hcount]
      simp [List.countP_cons]
      omega
    · have hno : isAdd x p.task = false := by
        simp [isAdd, mt (hs party p hp).mp hparty]
      simp [adds, endPush, hparty, hcount, hno]
  | popTask ct slots hpc hpop =>
    left
    simp [adds, hpc, LoopPc.tasks, items_pop hpop, List.countP_cons]
    omega
  | read r hub c d e es o pc hpc hd hlegal hok ho hnext hpc' =>
    have htasks : pc.tasks = [] := by rcases hpc' with rfl | rfl <;> rfl
    exact Or.inl (adds_le rfl rfl (by simp [htasks]))
  | arrive c bytes => exact Or.inl (adds_le rfl rfl (List.Sublist.refl _))
  | fin c => exact Or.inl (adds_le rfl rfl (List.Sublist.refl _))
  | rst c => exact Or.inl (adds_le rfl rfl (List.Sublist.refl _))
  | sendLost => exact Or.inl (adds_le rfl rfl (List.Sublist.refl _))
  | sendFound => exact Or.inl (adds_le rfl rfl (List.Sublist.refl _))
  | sendReturn => exact Or.inl (adds_le rfl rfl (List.Sublist.refl _))
  | _ => exact Or.inl (adds_le rfl rfl (List.nil_sublist _))

/-- `EPOLL_CTL_ADD` registers a socket that is not registered yet, and changes no other. -/
theorem epollAdd_cases (s : CellManager) (fd : ℕ) (ev : EpollEvents) (x : ℕ) :
    s.epollAdd fd ev x = s.sock x ∨
      (s.reg.table fd = some x ∧ (s.sock x).interest = none ∧
        s.epollAdd fd ev x = { s.sock x with interest := some ev }) := by
  unfold epollAdd
  cases htable : s.reg.table fd with
  | none => exact Or.inl rfl
  | some d =>
    dsimp only
    split_ifs with hnone
    · by_cases hxd : x = d
      · subst hxd
        exact Or.inr ⟨rfl, by simpa using hnone, by simp⟩
      · exact Or.inl (by simp [hxd])
    · exact Or.inl rfl

/-! ## Descriptors, `m_Cell` and the threads -/

structure Base (s : CellManager) : Prop where
  reg : s.reg.Valid
  acceptor : (s.acceptor = .accepted ∧ s.reg.inserted < s.reg.next) ∨
    (s.acceptor ≠ .accepted ∧ s.reg.inserted = s.reg.next)
  closing : s.reg.closing = s.loop.closing
  found : ∀ c, s.loop.found = some c → s.reg.map (s.reg.name c) = some c
  fd : ∀ c < s.reg.inserted, (s.cell c).clientFd = s.reg.name c
  pos : ∀ c < s.reg.next, 0 < s.reg.name c
  shape : s.Shape

theorem Base.init : Base {} where
  reg := .init
  acceptor := Or.inr ⟨by simp, rfl⟩
  closing := rfl
  found := by simp [LoopPc.found]
  fd := by simp
  pos := by simp
  shape := fun party p hp => by cases party <;> cases hp

theorem Base.found_open (b : s.Base) {c : ℕ} (h : s.loop.found = some c) : s.reg.Open c := by
  refine b.reg.map_open ?_ (b.found c h)
  rw [b.closing]
  cases hl : s.loop <;> simp [hl, LoopPc.found] at h <;> rfl

theorem Base.found_lt (b : s.Base) {c : ℕ} (h : s.loop.found = some c) : c < s.reg.inserted :=
  (b.reg.map _ _ (b.found c h)).2.1

theorem Base.map_open (b : s.Base) {n c : ℕ} (hloop : s.loop.closing = none)
    (hmap : s.reg.map n = some c) : s.reg.Open c :=
  b.reg.map_open (b.closing.trans hloop) hmap

theorem Base.table_clientFd (b : s.Base) {c : ℕ} (hopen : s.reg.Open c) (hlt : c < s.reg.inserted) :
    s.reg.table (s.cell c).clientFd = some c := by
  rw [b.fd c hlt]
  exact hopen

/-- The descriptor of an open cell leads to its own socket. -/
theorem Base.own_sock (b : s.Base) {c d : ℕ} (hopen : s.reg.Open c) (hlt : c < s.reg.inserted)
    (hd : s.reg.table (s.cell c).clientFd = some d) : c = d :=
  Option.some.inj ((b.table_clientFd hopen hlt).symm.trans hd)

theorem Base.idle (b : s.Base) (h : s.acceptor ≠ .accepted) : s.reg.inserted = s.reg.next := by
  rcases b.acceptor with ⟨hacc, -⟩ | ⟨-, heq⟩
  · exact absurd hacc h
  · exact heq

theorem Base.accepted (b : s.Base) (h : s.acceptor = .accepted) : s.reg.inserted < s.reg.next := by
  rcases b.acceptor with ⟨-, hlt⟩ | ⟨hne, -⟩
  · exact hlt
  · exact absurd h hne

/-- The registry changes in four kinds of steps only. -/
theorem reg_step (b : s.Base) (h : Step s a t) : t.reg = s.reg ∨ s.reg.Step t.reg := by
  cases h with
  | accept fd hpc hpos hfree => exact Or.inr (.accept fd (b.idle (by simp [hpc])) hfree)
  | insert buf ev ip port hpc => exact Or.inr (.insert (b.accepted hpc))
  | close c ids hpc =>
    refine Or.inr (.close (b.found c (by rw [hpc]; rfl)) ?_)
    rw [b.closing, hpc]
    rfl
  | erase c hpc => exact Or.inr (.erase (by rw [b.closing, hpc]; rfl))
  | _ => exact Or.inl rfl

theorem reg_step_inserted_le (b : s.Base) (h : Step s a t) : s.reg.inserted ≤ t.reg.inserted := by
  rcases reg_step b h with heq | hreg
  · rw [heq]
  · exact hreg.inserted_le

theorem reg_step_name (b : s.Base) (h : Step s a t) {c : ℕ} (hc : c < s.reg.next) :
    t.reg.name c = s.reg.name c := by
  rcases reg_step b h with heq | hreg
  · rw [heq]
  · exact hreg.name_eq hc

theorem reg_step_closed (b : s.Base) (h : Step s a t) {c : ℕ} (hc : c < s.reg.next)
    (hclosed : ¬ s.reg.Open c) : ¬ t.reg.Open c := by
  rcases reg_step b h with heq | hreg
  · rwa [heq]
  · exact hreg.closed hc hclosed

theorem unmapped_step {x : ℕ} (b : s.Base) (h : Step s a t) (hx : x < s.reg.inserted)
    (hmap : s.reg.map (s.reg.name x) ≠ some x) : t.reg.map (t.reg.name x) ≠ some x := by
  rw [reg_step_name b h (b.reg.lt_next hx)]
  cases h with
  | insert =>
    by_cases hname : s.reg.name x = s.reg.name s.reg.inserted
    · have hne : s.reg.inserted ≠ x := Nat.ne_of_gt hx
      simp [Registry.insert, hname, hne]
    · simpa [Registry.insert, hname] using hmap
  | erase c =>
    by_cases hname : s.reg.name x = s.reg.name c
    · simp [Registry.erase, hname]
    · simpa [Registry.erase, hname] using hmap
  | _ => exact hmap

theorem latest_step (b : s.Base) (h : Step s a t) {c : ℕ} (hc : s.reg.Latest c)
    (hinsert : t.reg = s.reg.insert → s.reg.name s.reg.inserted ≠ s.reg.name c) :
    t.reg.Latest c := by
  rcases reg_step b h with heq | hreg
  · rwa [heq]
  · exact hc.step b.reg hreg hinsert

theorem acceptor_setPush (p' : Push) (hp : s.push? party = some p) :
    ((s.setPush p' party).acceptor = .accepted ↔ s.acceptor = .accepted) := by
  by_cases hparty : party = .acceptor
  · subst hparty
    cases hacc : s.acceptor <;> simp [push?, hacc] at hp
    simp [setPush]
  · simp [setPush, hparty]

theorem acceptor_endPush (p' : Push) (flag : Bool) (hp : s.push? party = some p) :
    ((s.endPush p' flag party).acceptor = .accepted ↔ s.acceptor = .accepted) := by
  by_cases hparty : party = .acceptor
  · subst hparty
    cases hacc : s.acceptor <;> simp [push?, hacc] at hp
    simp [endPush]
  · simp [endPush, hparty]

theorem clientFd_step (h : Step s a t) {c : ℕ} (hc : c ≠ s.reg.inserted ∨ t.reg = s.reg) :
    (t.cell c).clientFd = (s.cell c).clientFd := by
  cases h with
  | insert buf ev ip port hpc =>
    have hne : c ≠ s.reg.inserted := by
      refine hc.resolve_right fun heq => ?_
      have := congrArg Registry.inserted heq
      simp [Registry.insert] at this
    simp [hne]
  | addFound ct d hpc hev hmap =>
    by_cases hcd : c = d
    · subst hcd; simp
    · simp [hcd]
  | sendStored ct d sc cell hpc hev hmap hsc hstore =>
    by_cases hcd : c = d
    · subst hcd; simpa using (ClientCell.handleSend_sameRecv hstore).clientFd
    · simp [hcd]
  | checkWrite hpc =>
    dsimp only
    split_ifs
    · exact ((s.cell c).setEvents_sameRecv _).clientFd
    · rfl
  | read r hub d d' e es o pc hpc hd hlegal hok ho =>
    by_cases hcd : c = d
    · subst hcd; simpa using (doRecvIter_sameSend ho).clientFd
    · simp [hcd]
  | write writes e es d d' o hpc hmap hd ho =>
    by_cases hcd : c = d
    · subst hcd; simpa using (ClientCell.doSend_sameRecv ho).clientFd
    · simp [hcd]
  | _ => rfl

theorem Base.acceptor_step (b : s.Base) (h : Step s a t) :
    (t.acceptor = .accepted ∧ t.reg.inserted < t.reg.next) ∨
      (t.acceptor ≠ .accepted ∧ t.reg.inserted = t.reg.next) := by
  cases h with
  | accept fd hpc =>
    exact Or.inl ⟨rfl, (b.idle (by simp [hpc])).le.trans_lt (Nat.lt_succ_self _)⟩
  | insert buf ev ip port hpc =>
    have hlt := b.accepted hpc
    have hle := b.reg.next_le
    exact Or.inr ⟨by simp, Nat.le_antisymm hlt hle⟩
  | pushFull party p hp =>
    have hiff := acceptor_endPush p false hp
    exact b.acceptor.imp (And.imp_left hiff.mpr) (And.imp_left (mt hiff.mp))
  | pushRoom party p hp =>
    have hiff := acceptor_setPush { p with stage := .reserve } hp
    exact b.acceptor.imp (And.imp_left hiff.mpr) (And.imp_left (mt hiff.mp))
  | pushReserve party p hp =>
    have hiff := acceptor_setPush (s := { s with cellTask := reserve s.cellTask party })
      { p with stage := .publish } hp
    exact b.acceptor.imp (And.imp_left hiff.mpr) (And.imp_left (mt hiff.mp))
  | pushPublish party p slots hp =>
    have hiff := acceptor_endPush (s := { s with cellTask := slots }) p true hp
    exact b.acceptor.imp (And.imp_left hiff.mpr) (And.imp_left (mt hiff.mp))
  | _ => exact b.acceptor

theorem Base.closing_step (b : s.Base) (h : Step s a t) : t.reg.closing = t.loop.closing := by
  have hc := b.closing
  cases h with
  | close => rfl
  | erase => rfl
  | read r hub c d e es o pc hpc hd hlegal hok ho hnext hpc' =>
    rw [hpc] at hc
    rcases hpc' with rfl | rfl <;> exact hc
  | popTask ct slots hpc => rw [hpc] at hc; exact hc
  | popNone hpc => rw [hpc] at hc; exact hc
  | addLost ct hpc => rw [hpc] at hc; exact hc
  | addFound ct c hpc => rw [hpc] at hc; exact hc
  | sendDropped ct hpc => rw [hpc] at hc; exact hc
  | sendStored ct c sc cell hpc => rw [hpc] at hc; exact hc
  | delNone ct hpc => rw [hpc] at hc; exact hc
  | delFound ct c hpc => rw [hpc] at hc; exact hc
  | notify c hpc => rw [hpc] at hc; exact hc
  | checkWrite hpc => rw [hpc] at hc; exact hc
  | epollWait es hpc => rw [hpc] at hc; exact hc
  | eventsEnd hpc => rw [hpc] at hc; exact hc
  | hangup e es hpc => rw [hpc] at hc; exact hc
  | recvStart e es c hpc => rw [hpc] at hc; exact hc
  | recvSkip e es hpc => rw [hpc] at hc; exact hc
  | readClosed r hub c d e es hpc => rw [hpc] at hc; exact hc
  | writeSkip writes e es hpc => rw [hpc] at hc; exact hc
  | write writes e es c d o hpc => rw [hpc] at hc; exact hc
  | _ => exact hc

theorem Base.found_step (b : s.Base) (h : Step s a t) {c : ℕ} (hc : t.loop.found = some c) :
    t.reg.map (t.reg.name c) = some c := by
  cases h with
  | accept fd hpc =>
    have hmap := b.found c hc
    change s.reg.map ((s.reg.accept fd).name c) = some c
    rwa [Registry.accept_name (b.reg.lt_next (b.reg.map _ _ hmap).2.1)]
  | insert buf ev ip port hpc =>
    -- the cell the loop thread works on is open, so the new entry is under another number
    have hmap := b.found c hc
    have hne : s.reg.name c ≠ s.reg.name s.reg.inserted := fun hname => by
      have heq := Registry.open_unique (b.found_open hc) (b.reg.pending (b.accepted hpc)) hname
      have hlt := (b.reg.map _ _ hmap).2.1
      omega
    simpa [Registry.insert, hne] using hmap
  | delFound ct d hpc hev hmap =>
    obtain rfl := Option.some.inj hc
    exact b.reg.map_self hmap
  | recvStart e es d hpc hhup hmap =>
    obtain rfl := Option.some.inj hc
    exact b.reg.map_self hmap
  | read r hub d d' e es o pc hpc hd hlegal hok ho hnext hpc' =>
    have hfound := b.found d (by rw [hpc]; rfl)
    rcases hpc' with rfl | rfl
    · obtain rfl := Option.some.inj hc
      exact hfound
    · cases hc
  | arrive => exact b.found c hc
  | fin => exact b.found c hc
  | rst => exact b.found c hc
  | pushFull => exact b.found c hc
  | pushRoom => exact b.found c hc
  | pushReserve => exact b.found c hc
  | pushPublish => exact b.found c hc
  | sendLost => exact b.found c hc
  | sendFound => exact b.found c hc
  | sendReturn => exact b.found c hc
  | _ => cases hc

theorem Base.fd_step (b : s.Base) (h : Step s a t) {c : ℕ} (hc : c < t.reg.inserted) :
    (t.cell c).clientFd = t.reg.name c := by
  by_cases hold : c < s.reg.inserted
  · rw [clientFd_step h (Or.inl (Nat.ne_of_lt hold)), b.fd c hold,
      reg_step_name b h (b.reg.lt_next hold)]
  · cases h with
    | insert buf ev ip port hpc =>
      obtain rfl : c = s.reg.inserted := by simp [Registry.insert] at hc; omega
      simp [ClientCell.new, Registry.insert]
    | _ => exact absurd hc hold

theorem Base.pos_step (b : s.Base) (h : Step s a t) {c : ℕ} (hc : c < t.reg.next) :
    0 < t.reg.name c := by
  cases h with
  | accept fd hpc hpos hfree =>
    rcases Nat.lt_succ_iff_lt_or_eq.mp hc with hlt | rfl
    · change 0 < (s.reg.accept fd).name c
      rw [Registry.accept_name hlt]
      exact b.pos c hlt
    · simpa [Registry.accept] using hpos
  | _ => exact b.pos c hc

theorem Base.step (b : s.Base) (h : Step s a t) : t.Base where
  reg := by
    rcases reg_step b h with heq | hreg
    · exact heq ▸ b.reg
    · exact b.reg.step hreg
  acceptor := b.acceptor_step h
  closing := b.closing_step h
  found := fun _ hc => b.found_step h hc
  fd := fun _ hc => b.fd_step h hc
  pos := fun _ hc => b.pos_step h hc
  shape := b.shape.step h

theorem Base.run {ok : CellManager → Action → Prop} {acts : List Action}
    (h : Run CellManager.step ok {} acts s) : s.Base :=
  h.invariant Base .init fun _ _ _ b _ hstep => b.step (step_sound hstep)

end CellManager
end TcpLib
