import TcpLib.Tickets

/-!
# A deletion only removes its own connection

`handleDel` closes the descriptor before it erases the entry of `m_Cell` under its number. A
connection that is entered under this number in between loses its entry, and one that is entered
while a deletion for the number is pending is deleted by it. While neither happens, every open
connection that was entered is found under its descriptor.
-/

namespace TcpLib
open Transition

namespace CellManager

/-- No connection is added under a descriptor while a deletion for it is pending or has closed
the descriptor and not erased the entry. -/
def NoReuse (s : CellManager) (a : Action) : Prop := s.NoStaleDel a ∧ s.NoLostEntry a

/-- Open connections are mapped, and a deletion meets no other connection than its own. -/
structure DeletionSafe (s : CellManager) : Prop where
  mapped : ∀ c < s.reg.inserted, s.reg.Open c → s.reg.map (s.reg.name c) = some c
  found : ∀ ct c, s.loop = .task ct → ct.event = .del → s.reg.map ct.clientid = some c → c = ct.conn
  erased : ∀ c, s.loop = .delErase c → s.reg.map (s.reg.name c) = some c

variable {s : CellManager}

theorem noOrphan_run {acts : List Action} (h : Run CellManager.step NoReuse {} acts s) :
    s.reg.NoOrphan := by
  refine (h.invariant (fun s => s.Base ∧ s.reg.NoOrphan) ⟨.init, by simp, by simp⟩ ?_).2
  rintro s a t ⟨b, hno⟩ hok hstep
  exact ⟨b.step (step_sound hstep), noOrphan_step b (step_sound hstep) hok.2 hno⟩

end CellManager

/-- In every run that adds no connection under a number that is being deleted, every open
connection keeps its entry and its cell. -/
theorem deletion_removes_own {acts : List Action} {s : CellManager}
    (hrun : Run CellManager.step CellManager.NoReuse {} acts s) : s.DeletionSafe := by
  have b := CellManager.Base.run hrun
  have k := CellManager.Tickets.run (fun _ _ h => h.1) hrun
  have hno := CellManager.noOrphan_run hrun
  refine ⟨hno.mapped, fun ct c hpc hev hmap => ?_, fun c hpc => hno.closing c ?_⟩
  · exact k.del_found b (Or.inr (Or.inr (by simp [hpc, LoopPc.tasks]))) hev hmap
  · rw [b.closing, hpc]
    rfl

/-- A connection is accepted, hangs up and is deleted, and a later one has its descriptor. -/
def deletedThenReused : List Action :=
  connectOn5 ++ [.fin 0] ++ hangUp 5 0 ++ deletion ++ acceptOn 5 ++ pushBy .acceptor ++ handleNext

theorem deletion_removes_own_later_connection :
    ∃ s, Run CellManager.step CellManager.NoReuse {} deletedThenReused s ∧
      s.trace 0 = [.onConnect, .onDisconnect] ∧ s.trace 1 = [.onConnect] ∧ s.reg.map 5 = some 1 ∧
      s.DeletionSafe := by
  have hexec : (exec (fun s a => if CellManager.insertTest 0 .del s a && decide (s.NoLostEntry a) then
      s.step a else none) {} deletedThenReused).map (fun s => (s.trace 0, s.trace 1, s.reg.map 5)) =
        some ([.onConnect, .onDisconnect], [.onConnect], some 1) := by decide +kernel
  obtain ⟨s, hs, heq⟩ := Option.map_eq_some_iff.mp hexec
  obtain ⟨hfirst, hlater⟩ := Prod.mk.inj heq
  obtain ⟨hsecond, hmap⟩ := Prod.mk.inj hlater
  have hrun : Run CellManager.step CellManager.NoReuse {} deletedThenReused s := by
    refine CellManager.run_of_test (n := 0)
      (fun s a => CellManager.insertTest 0 .del s a && decide (s.NoLostEntry a)) rfl ?_ hs
    intro a _ s hidle h
    obtain ⟨hdel, hentry⟩ := Bool.and_eq_true_iff.mp h
    exact ⟨CellManager.onInsert_of_test hidle hdel, of_decide_eq_true hentry⟩
  exact ⟨s, hrun, hfirst, hsecond, hmap, deletion_removes_own hrun⟩

/-- The number is used again between the close and the erase. -/
def lostEntry : List Action :=
  connectOn5 ++ [.fin 0] ++ hangUp 5 0 ++ handleNext ++ [.close] ++ acceptOn 5 ++ [.erase]

/-- The second connection on the descriptor loses its entry, or is what the second deletion of
the first one finds. -/
theorem deletion_removes_later :
    (∃ s, Run CellManager.step anyStep {} lostEntry s ∧ 1 < s.reg.inserted ∧ s.reg.Open 1 ∧
      s.reg.map (s.reg.name 1) = none) ∧
    ∃ s, Run CellManager.step anyStep {} (twoDeletions ++ acceptOn 5 ++ [.pop]) s ∧
      s.loop = .task ⟨.del, 5, 0, none⟩ ∧ s.reg.map 5 = some 1 ∧ s.reg.Open 1 := by
  constructor
  · have hlost : (exec CellManager.step {} lostEntry).map (fun s =>
        decide (1 < s.reg.inserted ∧ s.reg.Open 1 ∧
          s.reg.map (s.reg.name 1) = none)) = some true := by decide +kernel
    obtain ⟨s, hs, hlost⟩ := Option.map_eq_some_iff.mp hlost
    exact ⟨s, .of_exec (fun _ _ _ => trivial) hs, of_decide_eq_true hlost⟩
  · have hstale : (exec CellManager.step {} (twoDeletions ++ acceptOn 5 ++ [.pop])).map (fun s =>
        (s.loop.tasks, decide (s.reg.map 5 = some 1 ∧ s.reg.Open 1))) =
        some ([⟨.del, 5, 0, none⟩], true) := by decide +kernel
    obtain ⟨s, hs, hstale⟩ := Option.map_eq_some_iff.mp hstale
    obtain ⟨htasks, hmap⟩ := Prod.mk.inj hstale
    refine ⟨s, .of_exec (fun _ _ _ => trivial) hs, ?_, of_decide_eq_true hmap⟩
    cases hl : s.loop <;> simp [hl, LoopPc.tasks] at htasks
    rw [htasks]

end TcpLib
