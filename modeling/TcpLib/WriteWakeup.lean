import TcpLib.Callbacks
import TcpLib.SendSide

/-!
# The registration for writing at every wait

The kernel's interest set, `m_Events` and the ring of a connection are changed by four functions.
For a connection that was added once they agree whenever the loop thread waits: the interest set is
`m_Events`, `EPOLLOUT` is in it while the ring holds anything, and then `checkWrite` has just renewed
the registration.
-/

namespace TcpLib
open Transition

/-- Something in the send ring is left to write. -/
def ClientCell.HasUnsent (cell : ClientCell) : Prop := cell.sendWritePos ≠ cell.sendReadPos

/-! ## `m_Events` -/

theorem ClientCell.handleSend_events {cell cell' : ClientCell} {sc : SendCell}
    (h : cell.handleSend sc = some cell') : cell'.events = cell.events := by
  unfold handleSend at h
  split_ifs at h
  obtain rfl := Option.some.inj h
  rfl

theorem ClientCell.doSendIter_events {cell : ClientCell} {r : WriteResult} {o : SendOut × Bool}
    (h : cell.doSendIter r = some o) : o.1.cell.events = cell.events := by
  unfold doSendIter at h
  split_ifs at h
  · obtain ⟨sc, -, rfl⟩ := Option.map_eq_some_iff.mp h
    cases r with
    | again => rfl
    | fail => rfl
    | count n =>
      dsimp only
      split_ifs <;> rfl
  · obtain rfl := Option.some.inj h
    rfl

theorem ClientCell.doSend_events {cell : ClientCell} {writes : ℕ → WriteResult} {o : SendOut}
    (h : cell.doSend writes = some o) : o.cell.events = cell.events := by
  apply doSend_rel (R := fun c c' => c'.events = c.events) _ _ _ h
  · exact fun _ => rfl
  · exact fun _ _ _ h₁ h₂ => h₂.trans h₁
  · exact fun _ _ _ => doSendIter_events

theorem doRecvIter_events {L : Type*} {f : OnRecvData L} {cell : ClientCell} {log : L}
    {r : ReadResult} {o : RecvOut L} (h : doRecvIter f cell log r = some o) :
    o.cell.events = cell.events := by
  cases r with
  | data bytes =>
    obtain ⟨cell', hcompact, rfl⟩ := Option.map_eq_some_iff.mp h
    have hevents : cell'.events = cell.events := by
      unfold ClientCell.compact at hcompact
      split_ifs at hcompact
      · obtain rfl := Option.some.inj hcompact
        rfl
      · dsimp only at hcompact
        split_ifs at hcompact
        obtain rfl := Option.some.inj hcompact
        rfl
      · obtain rfl := Option.some.inj hcompact
        rfl
    split_ifs <;> exact hevents
  | again | eof | fail =>
    obtain rfl := Option.some.inj h
    rfl

theorem ClientCell.setEvents_events (cell : ClientCell) (ev : Option EpollEvents) :
    (cell.setEvents ev).events = ev.getD cell.events := by
  cases ev <;> rfl

theorem Sock.epollMod_none {sock : Sock} (h : sock.interest = none) (ev : Option EpollEvents) :
    sock.epollMod ev = sock := by
  simp [epollMod, h]

theorem Sock.epollMod_some {sock : Sock} {old : EpollEvents} (h : sock.interest = some old)
    (ev : Option EpollEvents) : (sock.epollMod ev).interest = some (ev.getD old) := by
  cases ev <;> simp [epollMod, h]

/-- `checkWrite` leaves `EPOLLOUT` set exactly for a ring that is not empty. -/
theorem ClientCell.checkWrite_epollOut (cell : ClientCell) :
    (cell.setEvents cell.checkWrite).events.epollOut = true ↔ cell.HasUnsent := by
  unfold checkWrite HasUnsent
  split_ifs with hring hout
  · exact ⟨fun _ => hring, fun _ => rfl⟩
  · exact ⟨nofun, fun h => absurd h hring⟩
  · exact ⟨fun h => absurd h hout, fun h => absurd h hring⟩

theorem ClientCell.checkWrite_of_unsent {cell : ClientCell} (h : cell.HasUnsent) :
    cell.checkWrite = some (cell.setEvents cell.checkWrite).events := by
  have hring : cell.sendWritePos ≠ cell.sendReadPos := h
  unfold checkWrite
  rw [if_pos hring]
  rfl

namespace CellManager
variable {s t : CellManager} {a : Action} {x : ℕ}

/-- The connection is in `m_Cell` and its descriptor is not closed. -/
def Watched (s : CellManager) (x : ℕ) : Prop :=
  s.reg.map (s.reg.name x) = some x ∧ s.reg.closing ≠ some x

/-- How many add tasks were handled with the cell of the connection. -/
def added (s : CellManager) (x : ℕ) : ℕ := (s.trace x).count .onConnect

/-- What a step does to the registration of a connection in `m_Cell`. -/
inductive WatchStep (s t : CellManager) (a : Action) (x : ℕ) : Prop
  | same : t.added x = s.added x → (t.cell x).events = (s.cell x).events →
      (t.sock x).interest = (s.sock x).interest →
      (t.loop = .epollWait → s.loop = .epollWait ∧ t.cell x = s.cell x) → WatchStep s t a x
  | add : t.added x = s.added x + 1 → (t.cell x).events = addEvents →
      ((s.sock x).interest = none → (t.sock x).interest = some addEvents) →
      t.loop ≠ .epollWait → WatchStep s t a x
  | check : a = .checkWrite → t.added x = s.added x →
      t.cell x = (s.cell x).setEvents (s.cell x).checkWrite →
      (t.sock x).interest = ((s.sock x).epollMod (s.cell x).checkWrite).interest →
      WatchStep s t a x

theorem Watched.open (b : s.Base) (hx : s.Watched x) : s.reg.Open x :=
  (b.reg.mapped _ _ hx.1).resolve_right hx.2

theorem watched_step (b : s.Base) (h : Step s a t) (hx : t.Watched x) (hold : x < s.reg.inserted) :
    s.Watched x := by
  have hmap : s.reg.map (s.reg.name x) = some x := by
    by_contra hno
    exact unmapped_step b h hold hno hx.1
  refine ⟨hmap, ?_⟩
  intro hclosing
  have hne := hx.2
  have hmap' := hx.1
  rcases reg_step b h with heq | hreg
  · exact hne (heq ▸ hclosing)
  · generalize t.reg = r at hreg hne hmap'
    cases hreg with
    | accept | insert => exact hne hclosing
    | close _ hnone =>
      rw [hnone] at hclosing
      cases hclosing
    | erase hc =>
      obtain rfl := Option.some.inj (hclosing.symm.trans hc)
      simp [Registry.erase] at hmap'

theorem watch_step (b : s.Base) (h : Step s a t) (hx : t.Watched x) (hold : x < s.reg.inserted) :
    WatchStep s t a x := by
  have hw := watched_step b h hx hold
  cases h with
  | arrive | fin | rst =>
    exact .same rfl rfl (proj_update Sock.interest (by rfl) x) fun hl => ⟨hl, rfl⟩
  | insert buf ev ip port hpc =>
    have hne : x ≠ s.reg.inserted := Nat.ne_of_lt hold
    exact .same rfl (by simp [hne]) rfl fun hl => ⟨hl, by simp [hne]⟩
  | addFound ct c hpc hev hmap =>
    have hopen : s.reg.Open c := b.map_open (by rw [hpc]; rfl) hmap
    have hfd := b.table_clientFd hopen (b.reg.map _ _ hmap).2.1
    by_cases hxc : x = c
    · subst hxc
      refine .add (by simp [added]) (by simp) ?_ nofun
      intro hnone
      simp [epollAdd, hfd, hnone]
    · refine .same (by simp [added, hxc]) (by simp [hxc]) ?_ nofun
      rcases epollAdd_cases s (s.cell c).clientFd addEvents x with heq | ⟨htable, -⟩
      · exact congrArg Sock.interest heq
      · exact absurd (Option.some.inj (htable.symm.trans hfd)) hxc
  | sendStored ct c sc cell hpc hev hmap hsc hstore =>
    refine .same rfl ?_ rfl nofun
    by_cases hxc : x = c
    · subst hxc
      simpa using ClientCell.handleSend_events hstore
    · simp [hxc]
  | close c ids hpc =>
    have hxc : x ≠ c := by
      rintro rfl
      exact hx.2 rfl
    exact .same rfl rfl (by simp [hxc]) nofun
  | notify c hpc =>
    refine .same ?_ rfl rfl nofun
    by_cases hxc : x = c
    · subst hxc
      simp [added]
    · simp [added, hxc]
  | checkWrite hpc =>
    refine .check rfl rfl (if_pos hw.1) ?_
    dsimp only
    have hopen : s.reg.table (s.reg.name x) = some x := hw.open b
    rw [hw.1]
    dsimp only
    rw [if_pos hopen]
  | read r hub c d e es o pc hpc hd hlegal hok ho hnext hpc' =>
    refine .same ?_ ?_ (proj_update Sock.interest (by rfl) x) ?_
    · by_cases hxc : x = c
      · subst hxc
        have hdata : (recvCallbacks r o.next).count .onConnect = 0 := by
          refine List.count_eq_zero.mpr fun hmem => ?_
          exact recvCallbacks_isData r o.next _ hmem
        simp [added, hdata]
      · simp [added, hxc]
    · by_cases hxc : x = c
      · subst hxc
        simpa using doRecvIter_events ho
      · simp [hxc]
    · rcases hpc' with rfl | rfl <;> exact nofun
  | write writes e es c d o hpc hmap hd ho =>
    refine .same rfl ?_ (proj_update Sock.interest (by rfl) x) nofun
    by_cases hxc : x = c
    · subst hxc
      simpa using ClientCell.doSend_events ho
    · simp [hxc]
  | accept | pushFull | pushRoom | pushReserve | pushPublish | sendLost | sendFound | sendReturn =>
    exact .same rfl rfl rfl fun hl => ⟨hl, rfl⟩
  | popTask | popNone | addLost | sendDropped | delNone | delFound | erase | epollWait | eventsEnd
  | hangup | recvStart | recvSkip | readClosed | writeSkip => exact .same rfl rfl rfl nofun

/-! ## What holds in every run -/

structure Wakeup (s : CellManager) : Prop where
  unborn : ∀ x, s.reg.inserted ≤ x → s.added x = 0 ∧ (s.sock x).interest = none
  silent : ∀ x, s.Watched x → s.added x = 0 → (s.sock x).interest = none
  registered : ∀ x, s.Watched x → s.added x = 1 → (s.sock x).interest = some (s.cell x).events
  armed : s.loop = .epollWait → ∀ x, s.Watched x → s.added x = 1 →
    ((s.cell x).events.epollOut = true ↔ (s.cell x).HasUnsent)

/-- The loop thread works on connections in `m_Cell` only. -/
theorem unborn_step (b : s.Base) (h : Step s a t) (hx : s.reg.inserted ≤ x)
    (hu : s.added x = 0 ∧ (s.sock x).interest = none) :
    t.added x = 0 ∧ (t.sock x).interest = none := by
  have hunmapped {n c : ℕ} (hmap : s.reg.map n = some c) : x ≠ c :=
    (Nat.lt_of_lt_of_le (b.reg.map _ _ hmap).2.1 hx).ne'
  have hinterest {d : ℕ} {k : Sock} (hk : k.interest = (s.sock d).interest) :
      (Function.update s.sock d k x).interest = none :=
    (proj_update Sock.interest hk x).trans hu.2
  cases h with
  | arrive | fin | rst => exact ⟨hu.1, hinterest (by rfl)⟩
  | addFound ct c hpc hev hmap =>
    have hne := hunmapped hmap
    refine ⟨by simpa [added, hne] using hu.1, ?_⟩
    rcases epollAdd_cases s (s.cell c).clientFd addEvents x with heq | ⟨htable, -⟩
    · exact (congrArg Sock.interest heq).trans hu.2
    · have hopen : s.reg.Open c := b.map_open (by rw [hpc]; rfl) hmap
      exact absurd (b.own_sock hopen (b.reg.map _ _ hmap).2.1 htable).symm hne
  | close c ids hpc =>
    refine ⟨hu.1, ?_⟩
    by_cases hxc : x = c
    · simp [hxc]
    · simpa [hxc] using hu.2
  | notify c hpc =>
    refine ⟨?_, hu.2⟩
    by_cases hxc : x = c
    · subst hxc
      simpa [added] using hu.1
    · simpa [added, hxc] using hu.1
  | checkWrite hpc =>
    refine ⟨hu.1, ?_⟩
    dsimp only
    split
    · split_ifs
      · simp [Sock.epollMod, hu.2]
      · exact hu.2
    · exact hu.2
  | read r hub c d e es o pc hpc =>
    have hne : x ≠ c := hunmapped (b.found c (by rw [hpc]; rfl))
    exact ⟨by simpa [added, hne] using hu.1, hinterest (by rfl)⟩
  | write => exact ⟨hu.1, hinterest (by rfl)⟩
  | _ => exact hu

theorem Wakeup.init : Wakeup {} where
  unborn := fun _ _ => ⟨rfl, rfl⟩
  silent := nofun
  registered := nofun
  armed := nofun

theorem Wakeup.step (w : s.Wakeup) (b : s.Base) (h : Step s a t) : t.Wakeup := by
  have hinserted {x : ℕ} (hx : t.Watched x) : x < t.reg.inserted :=
    ((b.step h).reg.map _ _ hx.1).2.1
  -- a connection that is entered in this step was not added yet
  have hnew {x : ℕ} (hx : t.Watched x) (hnot : ¬x < s.reg.inserted) :
      t.added x = 0 ∧ (t.sock x).interest = none :=
    unborn_step b h (Nat.le_of_not_lt hnot) (w.unborn x (Nat.le_of_not_lt hnot))
  refine ⟨?_, ?_, ?_, ?_⟩
  · intro x hx
    have hle := (reg_step_inserted_le b h).trans hx
    exact unborn_step b h hle (w.unborn x hle)
  · intro x hx hzero
    by_cases hold : x < s.reg.inserted
    · have hw := watched_step b h hx hold
      cases watch_step b h hx hold with
      | same hadd hev hint => exact hint.trans (w.silent x hw (hadd ▸ hzero))
      | add hadd => omega
      | check _ hadd hcell hint =>
        have hnone := w.silent x hw (hadd ▸ hzero)
        rw [hint, Sock.epollMod_none hnone, hnone]
    · exact (hnew hx hold).2
  · intro x hx hone
    by_cases hold : x < s.reg.inserted
    · have hw := watched_step b h hx hold
      cases watch_step b h hx hold with
      | same hadd hev hint => rw [hint, hev, w.registered x hw (hadd ▸ hone)]
      | add hadd hev hint =>
        rw [hint (w.silent x hw (by omega)), hev]
      | check _ hadd hcell hint =>
        rw [hint, hcell, Sock.epollMod_some (w.registered x hw (hadd ▸ hone)),
          ClientCell.setEvents_events]
    · have hzero := (hnew hx hold).1
      omega
  · intro hwait x hx hone
    by_cases hold : x < s.reg.inserted
    · have hw := watched_step b h hx hold
      cases watch_step b h hx hold with
      | same hadd hev hint hloop =>
        obtain ⟨hwait', hcell⟩ := hloop hwait
        rw [hcell]
        exact w.armed hwait' x hw (hadd ▸ hone)
      | add _ _ _ hloop => exact absurd hwait hloop
      | check _ hadd hcell hint =>
        rw [hcell]
        have hout := (s.cell x).checkWrite_epollOut
        have hsame := (s.cell x).setEvents_sameSend (s.cell x).checkWrite
        unfold ClientCell.HasUnsent at hout ⊢
        rw [hsame.sendWritePos, hsame.sendReadPos]
        exact hout
    · have hzero := (hnew hx hold).1
      omega

theorem Wakeup.run {ok : CellManager → Action → Prop} {acts : List Action}
    (h : Run CellManager.step ok {} acts s) : s.Wakeup :=
  (h.invariant (fun s => s.Base ∧ s.Wakeup) ⟨.init, .init⟩ fun _ _ _ hbw _ hstep =>
    ⟨hbw.1.step (step_sound hstep), hbw.2.step hbw.1 (step_sound hstep)⟩).2

end CellManager

/-! ## The last iteration -/

/-- An action of the loop thread outside `push`. -/
def Action.ofLoop : Action → Bool
  | .pop | .handle | .close | .erase | .notify | .checkWrite | .epollWait _ | .doEvent | .read _ _
  | .doSend _ => true
  | _ => false

namespace CellManager
variable {s t : CellManager} {a : Action} {x : ℕ}

theorem epollWait_step (h : Step s a t) (hwait : t.loop = .epollWait) :
    a = .checkWrite ∨ (s.loop = .epollWait ∧ a.ofLoop = false) := by
  cases h with
  | checkWrite => exact Or.inl rfl
  | read r hub c d e es o pc hpc hd hlegal hok ho hnext hpc' =>
    rcases hpc' with rfl | rfl <;> cases hwait
  | arrive | fin | rst | accept | insert | pushFull | pushRoom | pushReserve | pushPublish | sendLost
  | sendFound | sendReturn => exact Or.inr ⟨hwait, rfl⟩
  | _ => cases hwait

/-- At every wait the last thing the loop thread did is `checkWrite`, and for a connection with
something left to write it renewed the registration to what it is now. -/
theorem last_checkWrite {acts : List Action} (h : Run CellManager.step anyStep {} acts s)
    (hwait : s.loop = .epollWait) :
    ∃ pre mid s₀, acts = pre ++ .checkWrite :: mid ∧ (∀ a ∈ mid, a.ofLoop = false) ∧
      Run CellManager.step anyStep {} pre s₀ ∧
      ∀ x, s.Watched x → s.added x = 1 → (s.cell x).HasUnsent →
        s₀.reg.map (s.reg.name x) = some x ∧
          (s₀.cell x).checkWrite = some (s.cell x).events := by
  induction h with
  | nil => cases hwait
  | @snoc acts a s t h _ hstep ih =>
    have hs := step_sound hstep
    have b : s.Base := .run h
    have w : s.Wakeup := .run h
    have hold {x : ℕ} (hx : t.Watched x) (hone : t.added x = 1) : x < s.reg.inserted := by
      by_contra hnot
      have hzero := (unborn_step b hs (Nat.le_of_not_lt hnot) (w.unborn x (Nat.le_of_not_lt hnot))).1
      omega
    have hname {x : ℕ} (hx : t.Watched x) (hone : t.added x = 1) :
        s.reg.name x = t.reg.name x :=
      (reg_step_name b hs (b.reg.lt_next (hold hx hone))).symm
    rcases epollWait_step hs hwait with rfl | ⟨hwait', hother⟩
    · refine ⟨acts, [], s, rfl, nofun, h, ?_⟩
      intro x hx hone hring
      refine ⟨hname hx hone ▸ (watched_step b hs hx (hold hx hone)).1, ?_⟩
      cases watch_step b hs hx (hold hx hone) with
      | same _ _ _ hloop =>
        cases hs with
        | checkWrite hpc =>
          rw [hpc] at hloop
          exact absurd (hloop hwait).1 nofun
      | add _ _ _ hloop => exact absurd hwait hloop
      | check _ _ hcell =>
        have hsame := (s.cell x).setEvents_sameSend (s.cell x).checkWrite
        rw [hcell] at hring ⊢
        unfold ClientCell.HasUnsent at hring
        rw [hsame.sendWritePos, hsame.sendReadPos] at hring
        exact ClientCell.checkWrite_of_unsent hring
    · obtain ⟨pre, mid, s₀, rfl, hmid, hrun, hmod⟩ := ih hwait'
      refine ⟨pre, mid ++ [a], s₀, by simp, ?_, hrun, ?_⟩
      · intro b hb
        rcases List.mem_append.mp hb with hb | hb
        · exact hmid b hb
        · exact List.mem_singleton.mp hb ▸ hother
      · intro x hx hone hring
        have hw := watched_step b hs hx (hold hx hone)
        cases watch_step b hs hx (hold hx hone) with
        | same hadd hev hint hloop =>
          obtain ⟨-, hcell⟩ := hloop hwait
          rw [hcell] at hring ⊢
          rw [← hname hx hone]
          exact hmod x hw (hadd ▸ hone) hring
        | add _ _ _ hloop => exact absurd hwait hloop
        | check ha =>
          subst ha
          cases hother

/-- At every wait, for every connection in `m_Cell` that was added once: the interest set is
`m_Events`, it has `EPOLLOUT` exactly when the ring is not empty, and then the registration was
renewed by the `checkWrite` of this iteration. -/
theorem no_lost_wakeup {acts : List Action} (h : Run CellManager.step anyStep {} acts s)
    (hwait : s.loop = .epollWait) :
    ∃ pre mid s₀, acts = pre ++ .checkWrite :: mid ∧ (∀ a ∈ mid, a.ofLoop = false) ∧
      Run CellManager.step anyStep {} pre s₀ ∧
      ∀ fd x, s.reg.map fd = some x → (s.trace x).count .onConnect = 1 →
        s.reg.table fd = some x ∧ (s.sock x).interest = some (s.cell x).events ∧
        ((s.cell x).events.epollOut = true ↔ (s.cell x).HasUnsent) ∧
        ((s.cell x).HasUnsent → s₀.reg.map fd = some x ∧
          (s₀.cell x).checkWrite = some (s.cell x).events) := by
  have b : s.Base := .run h
  have w : s.Wakeup := .run h
  obtain ⟨pre, mid, s₀, hacts, hmid, hrun, hmod⟩ := last_checkWrite h hwait
  refine ⟨pre, mid, s₀, hacts, hmid, hrun, ?_⟩
  intro fd x hmap hone
  obtain ⟨rfl, hlatest⟩ := b.reg.map _ _ hmap
  have hx : s.Watched x := by
    refine ⟨hmap, ?_⟩
    rw [b.closing, hwait]
    nofun
  exact ⟨hx.open b, w.registered x hx hone, w.armed hwait x hx hone, hmod x hx hone⟩

end CellManager

/-- A payload is queued and stored, and the loop thread waits again before anything was written. -/
def storedThenWait : List Action :=
  connectOn5 ++ [.sendLookup 0 5 [42]] ++ pushBy (.sender 0) ++ [.epollWait [], .doEvent] ++
    handleNext ++ toWait

theorem no_lost_wakeup_one_send :
    ∃ s, Run CellManager.step anyStep {} storedThenWait s ∧ s.loop = .epollWait ∧
      (s.cell 0).HasUnsent ∧ (s.sock 0).interest = some (s.cell 0).events ∧
      (s.cell 0).events.epollOut = true := by
  have hexec : (exec CellManager.step {} storedThenWait).map (fun s =>
      ((s.epollWait []).isSome, s.reg.map 5, (s.trace 0).count .onConnect, (s.cell 0).sendWritePos,
        (s.cell 0).sendReadPos)) = some (true, some 0, 1, 1, 0) := by
    decide +kernel
  obtain ⟨s, hs, heq⟩ := Option.map_eq_some_iff.mp hexec
  simp only [Prod.mk.injEq] at heq
  obtain ⟨hloop, hmap, hone, hwrite, hread⟩ := heq
  have hwait : s.loop = .epollWait := by
    unfold CellManager.epollWait at hloop
    split at hloop
    · assumption
    · cases hloop
  have hrun : Run CellManager.step anyStep {} storedThenWait s := .of_exec (fun _ _ _ => trivial) hs
  have hunsent : (s.cell 0).HasUnsent := by
    unfold ClientCell.HasUnsent
    omega
  obtain ⟨_, _, _, -, -, -, hall⟩ := CellManager.no_lost_wakeup hrun hwait
  obtain ⟨-, hint, hout, -⟩ := hall 5 0 hmap hone
  exact ⟨s, hrun, hwait, hunsent, hint, hout.mpr hunsent⟩

end TcpLib
