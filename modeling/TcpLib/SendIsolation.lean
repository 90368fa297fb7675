import TcpLib.SendSide

/-!
# Payloads stay with the connection they were sent to

An `'S'` task keeps only the descriptor under which `sendTask` found the connection. While no
connection is added under a descriptor with such a task pending, `handleSend` finds the same
connection again, and no payload reaches the ring or the socket of another one.
-/

namespace TcpLib
open Transition

namespace CellManager

/-- No connection is added under a descriptor for which a payload is pending. -/
def NoStaleSend (s : CellManager) (a : Action) : Prop :=
  s.OnInsert a fun fd => ¬ s.PendingFor .send fd

/-- No byte of a payload is in the ring or on the socket of another connection than the one that
`sendTask` found for it. -/
structure SendIsolated (s : CellManager) : Prop where
  ring : ∀ c, ∀ j < SYSSENDBUF, ∀ sc, (s.cell c).sendBuf j = some sc → sc.conn = c
  wire : ∀ c, ∀ y ∈ (s.sock c).wire, y.conn = c

/-- Pending payloads are for the last connection on their descriptor, stored ones are where they
belong. -/
structure Addressed (s : CellManager) : Prop where
  carries : ∀ u, s.Pending u → u.Carries
  latest : ∀ u, s.Pending u → u.event = .send →
    s.reg.Latest u.conn ∧ u.clientid = s.reg.name u.conn
  stored : ∀ c, ∃ ps, s.Stored c ps ∧ ∀ p ∈ ps, p.conn = c

variable {s t : CellManager} {a : Action} {u : CellTask}

theorem Addressed.init : Addressed {} where
  carries := fun _ hu => absurd hu (not_pending_first {} rfl)
  latest := fun _ hu => absurd hu (not_pending_first {} rfl)
  stored := fun c => ⟨[], .init c, by simp⟩

theorem Addressed.latest_step (m : s.Addressed) (b : s.Base) (h : Step s a t) (hok : s.NoStaleSend a)
    (hu : t.Pending u) (hev : u.event = .send) :
    t.reg.Latest u.conn ∧ u.clientid = t.reg.name u.conn := by
  rcases pending_step h hu with hold | hcreated
  · obtain ⟨hlatest, hname⟩ := m.latest u hold hev
    refine ⟨latest_of_pending b h hok hold hev hname hlatest, ?_⟩
    rw [hname, reg_step_name b h (b.reg.lt_next hlatest.1)]
  · cases hcreated with
    | send i fd bytes c _ hmap hreg =>
      obtain ⟨hname, hlatest⟩ := b.reg.map _ _ hmap
      rw [hreg]
      exact ⟨hlatest, hname.symm⟩
    | add => cases hev
    | lost => cases hev
    | hangup => cases hev
    | closed => cases hev

theorem Addressed.step (m : s.Addressed) (b : s.Base) (h : Step s a t) (hok : s.NoStaleSend a) :
    t.Addressed where
  carries := carries_step h m.carries
  latest := fun _ hu hev => m.latest_step b h hok hu hev
  stored := fun c => by
    obtain ⟨ps, hs, hconn⟩ := m.stored c
    rcases hs.step b h m.carries with hs | ⟨ct, sc, hpc, hev, hmap, hsc, hs⟩
    · exact ⟨ps, hs, hconn⟩
    · -- the cell found now is the one that was found when the payload was sent
      have hu : s.Pending ct := Or.inr (Or.inr (by simp [hpc, LoopPc.tasks]))
      obtain ⟨hlatest, hname⟩ := m.latest ct hu hev
      have hfound : c = ct.conn := b.reg.found hlatest (hname ▸ hmap)
      obtain ⟨p, hp, hpconn⟩ := (m.carries ct hu).send hev
      obtain rfl := Option.some.inj (hsc.symm.trans hp)
      refine ⟨_, hs, fun q hq => ?_⟩
      rcases List.mem_append.mp hq with hq | hq
      · exact hconn q hq
      · obtain rfl : q = p := by simpa using hq
        rw [hpconn, hfound]

theorem Addressed.run {acts : List Action} (h : Run CellManager.step NoStaleSend {} acts s) :
    s.Addressed := by
  refine (h.invariant (fun s => s.Base ∧ s.Addressed) ⟨.init, .init⟩ ?_).2
  rintro s a t ⟨b, m⟩ hok hstep
  exact ⟨b.step (step_sound hstep), m.step b (step_sound hstep) hok⟩

end CellManager

/-- In every run that adds no connection under a descriptor with a payload pending, every payload
stays with the connection it was sent to. -/
theorem send_isolation {acts : List Action} {s : CellManager}
    (hrun : Run CellManager.step CellManager.NoStaleSend {} acts s) : s.SendIsolated := by
  have m := CellManager.Addressed.run hrun
  refine ⟨fun c j hj sc hsc => ?_, fun c y hy => ?_⟩
  · obtain ⟨ps, hs, hconn⟩ := m.stored c
    exact hconn _ (hs.of_slot hj hsc)
  · obtain ⟨ps, hs, hconn⟩ := m.stored c
    obtain ⟨p, hp, hyp⟩ := hs.of_wire hy
    obtain ⟨x, -, rfl⟩ := List.mem_map.mp hyp
    exact hconn p hp

/-- A payload is sent to descriptor 5 and written. -/
def sendAndWrite (c : ℕ) (bytes : List UInt8) : List Action :=
  [.sendLookup 0 5 bytes] ++ pushBy (.sender 0) ++ [.sendReturn 0 0, .epollWait [], .doEvent] ++
    handleNext ++ toWait ++
    [.epollWait [⟨5, c, { epollOut := true }⟩], .doEvent, .doSend fun _ => .count bytes.length]

/-- Two connections have descriptor 5 one after the other, and each is sent a payload. -/
def sendToBoth : List Action :=
  connectOn5 ++ sendAndWrite 0 [42] ++ [.doEvent] ++ toWait ++ [.fin 0] ++ hangUp 5 0 ++ deletion ++
    acceptOn 5 ++ pushBy .acceptor ++ handleNext ++ toWait ++ sendAndWrite 1 [43, 44]

theorem send_isolation_same_descriptor :
    ∃ s, Run CellManager.step CellManager.NoStaleSend {} sendToBoth s ∧
      (s.sock 0).wire = [⟨0, 0, 42⟩] ∧ (s.sock 1).wire = [⟨1, 1, 43⟩, ⟨1, 1, 44⟩] ∧
      s.SendIsolated := by
  have hwire : (exec (fun s a => if CellManager.insertTest 1 .send s a then s.step a else none) {}
      sendToBoth).map (fun s => ((s.sock 0).wire, (s.sock 1).wire)) =
        some ([⟨0, 0, 42⟩], [⟨1, 1, 43⟩, ⟨1, 1, 44⟩]) := by decide +kernel
  obtain ⟨s, hs, hwire⟩ := Option.map_eq_some_iff.mp hwire
  obtain ⟨hfirst, hsecond⟩ := Prod.mk.inj hwire
  have hrun : Run CellManager.step CellManager.NoStaleSend {} sendToBoth s :=
    CellManager.run_of_test (CellManager.insertTest 1 .send) rfl
      (fun _ _ _ hidle h => CellManager.onInsert_of_test hidle h) hs
  exact ⟨s, hrun, hfirst, hsecond, send_isolation hrun⟩

/-- A payload for the first connection on descriptor 5 is handled when the second one has it. -/
def staleSend : List Action :=
  connectOn5 ++ [.fin 0] ++ hangUp 5 0 ++ [.sendLookup 0 5 [42]] ++ pushBy (.sender 0) ++
    deletion ++ acceptOn 5 ++ handleNext

theorem stale_send_reaches_other :
    ∃ s, Run CellManager.step anyStep {} staleSend s ∧
      (s.cell 1).sendBuf 0 = some ⟨⟨0, 0, [42]⟩, 0⟩ ∧ ¬ s.SendIsolated := by
  have hslot : (exec CellManager.step {} staleSend).map (fun s => (s.cell 1).sendBuf 0) =
      some (some ⟨⟨0, 0, [42]⟩, 0⟩) := by decide +kernel
  obtain ⟨s, hs, hslot⟩ := Option.map_eq_some_iff.mp hslot
  refine ⟨s, .of_exec (fun _ _ _ => trivial) hs, hslot, fun h => ?_⟩
  have hconn := h.ring 1 0 (by decide) _ hslot
  cases hconn

end TcpLib
