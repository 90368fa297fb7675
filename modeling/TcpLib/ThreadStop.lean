import TcpLib.ProcessThread
import TcpLib.Lib.Checked
import TcpLib.Lib.Transition
import Mathlib.Data.Set.Image

/-!
# When a stop is final

Every step of `start` and `stop` needs something to be known of the objects: that they are still
there, that no thread of theirs is left, that there is one to join. What is left of a call always
checks from the facts that are true, and a live thread is always the one that `thread_` names.
-/

namespace TcpLib
open Transition

inductive ThreadFact
  | idle (o : ThreadObj)
  | present (o : ThreadObj)
  | joinable (o : ThreadObj)

/-- The tests of `stop` give what its next steps need: when they pass by the join, no thread is
left. -/
def ownerRules : FactRules OwnerStep ThreadFact where
  needs
    | .startTest _ | .create _ => Set.range .present
    | .clearThread o | .returned o => {.present o, .idle o}
    | .delete o => {.present o, .idle o, .idle .server}
    | .join o => {.present o, .joinable o}
    | .stopTest o | .sleepTest o | .runningTest o | .clearRunning o | .close o => {.present o}
  drops
    | .startTest o | .create o => {.idle o}
    | .stopTest o | .runningTest o | .clearThread o => {.joinable o}
    | .delete o => {.present o}
    | _ => ∅
  gives
    | .stopTest o | .runningTest o | .join o => {.idle o}
    | _ => ∅

namespace ownerRules
open OwnerStep ThreadFact
variable {known : Set ThreadFact}

theorem present_mem_needs (i : OwnerStep) : present i.obj ∈ ownerRules.needs i := by
  cases i <;> simp [ownerRules, obj]

theorem checks_startTests (h : Set.range present ⊆ known) (managers : List ℕ) :
    ownerRules.Checks known (managers.map fun i => startTest (.manager i)) := by
  induction managers generalizing known with
  | nil => trivial
  | cons i managers ih =>
    refine ⟨h, ih ?_⟩
    rintro _ ⟨o, rfl⟩
    exact Or.inl ⟨h ⟨o, rfl⟩, nofun⟩

theorem checks_start (h : Set.range present ⊆ known) (owned : Owned) :
    ownerRules.Checks known owned.start := by
  cases owned with
  | cellManager => exact checks_startTests h [0]
  | tcpServer n =>
    refine FactRules.checks_append_of_kept (checks_startTests h _) h ?_ ⟨subset_rfl, trivial⟩
    intro i hi fact hfact
    obtain ⟨j, -, rfl⟩ := List.mem_map.mp hi
    obtain ⟨o, rfl⟩ := hfact
    exact nofun

theorem checks_deleteManagers {managers : List ℕ} (hdistinct : managers.Nodup)
    (hpresent : ∀ i ∈ managers, present (.manager i) ∈ known) (hserver : present .server ∈ known)
    (hidle : idle .server ∈ known) :
    ownerRules.Checks known (managers.flatMap deleteManager ++ [close .server]) := by
  induction managers generalizing known with
  | nil => exact ⟨Set.singleton_subset_iff.mpr hserver, trivial⟩
  | cons i managers ih =>
    obtain ⟨hnot, hdistinct⟩ := List.nodup_cons.mp hdistinct
    have hi := hpresent i List.mem_cons_self
    have hrest : ∀ j ∈ managers, j ≠ i ∧ present (.manager j) ∈ known := fun j hj =>
      ⟨fun hji => hnot (hji ▸ hj), hpresent j (List.mem_cons_of_mem i hj)⟩
    change ownerRules.Checks known (stopTest (.manager i) :: close (.manager i) ::
      returned (.manager i) :: delete (.manager i) ::
        (managers.flatMap deleteManager ++ [close .server]))
    refine ⟨?_, ?_, ?_, ?_, ih hdistinct ?_ ?_ ?_⟩
    · simp [ownerRules, hi]
    · simp [ownerRules, FactRules.after, hi]
    · simp [ownerRules, FactRules.after, Set.insert_subset_iff, hi]
    · simp [ownerRules, FactRules.after, Set.insert_subset_iff, hi, hidle]
    · intro j hj
      simp [ownerRules, FactRules.after, hrest j hj]
    · simp [ownerRules, FactRules.after, hserver]
    · simp [ownerRules, FactRules.after, hidle]

theorem checks_stop (h : Set.range present ⊆ known) (owned : Owned) :
    ownerRules.Checks known owned.stop := by
  have hpresent (o : ThreadObj) : present o ∈ known := h ⟨o, rfl⟩
  cases owned with
  | cellManager =>
    refine ⟨?_, ?_, ?_, trivial⟩
    · simp [ownerRules, hpresent]
    · simp [ownerRules, FactRules.after, hpresent]
    · simp [ownerRules, FactRules.after, Set.insert_subset_iff, hpresent]
  | tcpServer n =>
    refine ⟨?_, ?_, ?_, checks_deleteManagers List.nodup_range ?_ ?_ ?_⟩
    · simp [ownerRules, hpresent]
    · simp [ownerRules, FactRules.after, hpresent]
    · simp [ownerRules, FactRules.after, Set.insert_subset_iff, hpresent]
    · intro i _
      simp [ownerRules, FactRules.after, hpresent]
    · simp [ownerRules, FactRules.after, hpresent]
    · simp [ownerRules, FactRules.after]

end ownerRules

namespace StopSys

/-- The facts that are true in a state. -/
def facts (s : StopSys) : Set ThreadFact :=
  {f | match f with
    | .idle o => (s.obj o).Idle
    | .present o => s.freed o = false
    | .joinable o => (s.obj o).thread ≠ none}

/-- A live thread is the one that `thread_` names, and what is left of a call finds what it needs. -/
structure Inv (s : StopSys) : Prop where
  fault : s.fault = false
  handle : ∀ o t pc, (s.obj o).created[t]? = some pc → pc ≠ .finished → (s.obj o).thread = some t
  stopped : ∀ o t, t < s.stopped o → (s.obj o).created[t]? = some .finished
  freed : ∀ o, s.freed o → (s.obj o).Idle ∧ (s.obj .server).Idle
  todo : ownerRules.Checks s.facts s.todo

variable {owned : Owned} {s s' : StopSys} {o : ThreadObj} {t : ℕ} {pc pc' : ThreadPc}
  {f : ProcessThread → ProcessThread} {i : OwnerStep} {rest prog : List OwnerStep}

@[simp] theorem modify_self : (s.modify o f).obj o = f (s.obj o) := Function.update_self ..

theorem modify_ne {o' : ThreadObj} (h : o' ≠ o) : (s.modify o f).obj o' = s.obj o' :=
  Function.update_of_ne h ..

theorem not_idle_of_live (ht : (s.obj o).created[t]? = some pc) (hpc : pc ≠ .finished) :
    ¬(s.obj o).Idle := fun h => hpc (h pc (List.mem_of_getElem? ht))

/-- A change of one object keeps the facts that are still true of it. -/
theorem facts_modify {known : Set ThreadFact} (hknown : known ⊆ s.facts)
    (hidle : .idle o ∈ known → (f (s.obj o)).Idle)
    (hjoin : .joinable o ∈ known → (f (s.obj o)).thread ≠ none) : known ⊆ (s.modify o f).facts := by
  rintro (o' | o' | o') hf
  · by_cases ho : o' = o
    · subst ho
      exact (congrArg ProcessThread.Idle modify_self).mpr (hidle hf)
    · exact (congrArg ProcessThread.Idle (modify_ne ho)).mpr (hknown hf)
  · exact hknown hf
  · by_cases ho : o' = o
    · subst ho
      exact (congrArg (ProcessThread.thread · ≠ none) modify_self).mpr (hjoin hf)
    · exact (congrArg (ProcessThread.thread · ≠ none) (modify_ne ho)).mpr (hknown hf)

namespace Inv

theorem final (hi : s.Inv) : s.Final := ⟨hi.fault, hi.stopped, fun o ho => (hi.freed o ho).1⟩

theorem setTodo (hi : s.Inv) (hprog : ownerRules.Checks s.facts prog) :
    Inv { s with todo := prog } :=
  ⟨hi.fault, hi.handle, hi.stopped, hi.freed, hprog⟩

theorem present_of_live (hi : s.Inv) (ht : (s.obj o).created[t]? = some pc) (hpc : pc ≠ .finished) :
    s.freed o = false := by
  by_contra h
  exact not_idle_of_live ht hpc (hi.freed o (by simpa using h)).1

/-- A step of a live thread on its own object. -/
theorem thread (hi : s.Inv) (ht : (s.obj o).created[t]? = some pc) (hpc : pc ≠ .finished)
    (hthread : (f (s.obj o)).thread = (s.obj o).thread)
    (hcreated : (f (s.obj o)).created = (s.obj o).created.set t pc') : (s.modify o f).Inv := by
  have hpresent := hi.present_of_live ht hpc
  have hlive := not_idle_of_live ht hpc
  refine ⟨hi.fault, ?_, ?_, ?_, hi.todo.mono ?_⟩
  · intro o' t' pc'' ht' hpc''
    by_cases ho : o' = o
    · subst ho
      rw [modify_self, hcreated, List.getElem?_set] at ht'
      rw [modify_self, hthread]
      split_ifs at ht' with htt
      · exact htt ▸ hi.handle o' t pc ht hpc
      · exact hi.handle o' t' pc'' ht' hpc''
    · rw [modify_ne ho] at ht' ⊢
      exact hi.handle o' t' pc'' ht' hpc''
  · intro o' t' hlt
    have hold := hi.stopped o' t' hlt
    by_cases ho : o' = o
    · subst ho
      have htt : t ≠ t' := by
        rintro rfl
        exact hpc (Option.some.inj (ht.symm.trans hold))
      rwa [modify_self, hcreated, List.getElem?_set_ne htt]
    · rwa [modify_ne ho]
  · intro o' ho'
    obtain ⟨hown, hserver⟩ := hi.freed o' ho'
    have hne : o' ≠ o := by
      rintro rfl
      exact hlive hown
    have hne' : ThreadObj.server ≠ o := by
      rintro rfl
      exact hlive hserver
    rw [modify_ne hne, modify_ne hne']
    exact ⟨hown, hserver⟩
  · refine facts_modify subset_rfl (fun h => absurd h hlive) fun hjoin => ?_
    rw [hthread]
    exact hjoin

/-- A step of the owner that leaves the threads of the object as they are. -/
theorem update (hi : s.Inv) (f : ProcessThread → ProcessThread)
    (hcreated : (f (s.obj o)).created = (s.obj o).created)
    (hthread : (f (s.obj o)).thread = (s.obj o).thread ∨ (s.obj o).Idle)
    (hprog : ownerRules.Checks (s.modify o f).facts prog) :
    Inv { s.modify o f with todo := prog } := by
  have hsame (o' : ThreadObj) : ((s.modify o f).obj o').created = (s.obj o').created := by
    by_cases ho : o' = o
    · subst ho
      rw [modify_self, hcreated]
    · rw [modify_ne ho]
  have hidle (o' : ThreadObj) : ((s.modify o f).obj o').Idle ↔ (s.obj o').Idle := by
    rw [ProcessThread.Idle, hsame]
    rfl
  refine ⟨hi.fault, ?_, ?_, ?_, hprog⟩
  · intro o' t pc ht hpc
    change ((s.modify o f).obj o').created[t]? = some pc at ht
    change ((s.modify o f).obj o').thread = some t
    rw [hsame] at ht
    by_cases ho : o' = o
    · subst ho
      rw [modify_self, hthread.resolve_right (not_idle_of_live ht hpc)]
      exact hi.handle o' t pc ht hpc
    · rw [modify_ne ho]
      exact hi.handle o' t pc ht hpc
  · intro o' t hlt
    exact (congrArg (·[t]?) (hsame o')).trans (hi.stopped o' t hlt)
  · intro o' ho'
    obtain ⟨hown, hserver⟩ := hi.freed o' ho'
    exact ⟨(hidle o').mpr hown, (hidle .server).mpr hserver⟩

theorem create (hi : s.Inv) (hidle : (s.obj o).Idle) (hpresent : ∀ o', s.freed o' = false)
    (hprog : ownerRules.Checks (s.modify o ProcessThread.create).facts prog) :
    Inv { s.modify o ProcessThread.create with todo := prog } := by
  refine ⟨hi.fault, ?_, ?_, ?_, hprog⟩
  · intro o' t pc ht hpc
    change ((s.modify o ProcessThread.create).obj o').created[t]? = some pc at ht
    change ((s.modify o ProcessThread.create).obj o').thread = some t
    by_cases ho : o' = o
    · subst ho
      rw [modify_self, ProcessThread.create, List.getElem?_append] at ht
      rw [modify_self]
      split_ifs at ht with hlt
      · exact absurd (hidle pc (List.mem_of_getElem? ht)) hpc
      · have hzero := (List.getElem?_eq_some_iff.mp ht).1
        rw [List.length_singleton] at hzero
        exact congrArg some (show (s.obj o').created.length = t by omega)
    · rw [modify_ne ho] at ht ⊢
      exact hi.handle o' t pc ht hpc
  · intro o' t hlt
    have hold := hi.stopped o' t hlt
    change ((s.modify o ProcessThread.create).obj o').created[t]? = some .finished
    by_cases ho : o' = o
    · subst ho
      rw [modify_self]
      exact (List.getElem?_append_left (List.getElem?_eq_some_iff.mp hold).1).trans hold
    · rwa [modify_ne ho]
  · intro o' ho'
    cases (hpresent o').symm.trans ho'

theorem returned (hi : s.Inv) (hidle : (s.obj o).Idle) (hprog : ownerRules.Checks s.facts prog) :
    Inv { s with
      stopped := Function.update s.stopped o (s.obj o).created.length, todo := prog } := by
  refine ⟨hi.fault, hi.handle, ?_, hi.freed, hprog⟩
  intro o' t hlt
  by_cases ho : o' = o
  · subst ho
    change t < Function.update s.stopped o' _ o' at hlt
    rw [Function.update_self] at hlt
    have hget := List.getElem?_eq_getElem hlt
    rw [hget, hidle _ (List.getElem_mem hlt)]
  · change t < Function.update s.stopped o _ o' at hlt
    rw [Function.update_of_ne ho] at hlt
    exact hi.stopped o' t hlt

theorem delete (hi : s.Inv) (hidle : (s.obj o).Idle) (hserver : (s.obj .server).Idle)
    (hprog : ownerRules.Checks { s with freed := Function.update s.freed o true }.facts prog) :
    Inv { s with freed := Function.update s.freed o true, todo := prog } := by
  refine ⟨hi.fault, hi.handle, hi.stopped, ?_, hprog⟩
  intro o' ho'
  by_cases ho : o' = o
  · subst ho
    exact ⟨hidle, hserver⟩
  · change Function.update s.freed o true o' = true at ho'
    rw [Function.update_of_ne ho] at ho'
    exact hi.freed o' ho'

/-- Once the thread that is joined has left `run`, none is left. -/
theorem idle_of_join (hi : s.Inv) (hthread : (s.obj o).thread = some t)
    (ht : (s.obj o).created[t]? = some .finished) : (s.obj o).Idle := by
  intro pc hpc
  obtain ⟨t', ht'⟩ := List.getElem?_of_mem hpc
  by_contra hlive
  obtain rfl : t = t' := Option.some.inj (hthread.symm.trans (hi.handle o t' pc ht' hlive))
  exact hlive (Option.some.inj (ht'.symm.trans ht))

theorem exec (hi : s.Inv) (htodo : s.todo = i :: rest) (hok : s.InOrder .owner)
    (hstep : exec { s with todo := rest } i = some s') : s'.Inv := by
  have hchecks := hi.todo
  rw [htodo] at hchecks
  obtain ⟨hneeds, hrest⟩ := hchecks
  simp only [InOrder, htodo] at hok
  have hidle_after {j : OwnerStep} (hgives : ownerRules.gives j ⊆ s.facts) :
      ownerRules.Checks (ownerRules.after s.facts j) rest → ownerRules.Checks s.facts rest :=
    fun h => h.mono (FactRules.after_subset hgives)
  cases i with
  | startTest o =>
    simp only [StopSys.exec] at hstep
    obtain rfl := Option.some.inj hstep
    split_ifs
    · exact hi.setTodo (hidle_after (Set.empty_subset _) hrest)
    · exact hi.setTodo ⟨hneeds, hrest⟩
  | create o =>
    obtain rfl := Option.some.inj hstep
    refine hi.create hok (fun o' => hneeds ⟨o', rfl⟩) (hrest.mono ?_)
    refine facts_modify (FactRules.after_subset (Set.empty_subset _)) ?_ fun _ =>
      Option.some_ne_none _
    rintro (h | h)
    · exact absurd rfl h.2
    · cases h
  | stopTest o =>
    simp only [StopSys.exec] at hstep
    obtain rfl := Option.some.inj hstep
    split_ifs with hrun
    · refine hi.setTodo ⟨hneeds, ?_, ?_⟩
      · exact hneeds.trans (FactRules.subset_after rfl)
      · exact hrest.mono (FactRules.after_mono (FactRules.subset_after rfl))
    · refine hi.setTodo (hidle_after ?_ hrest)
      exact Set.singleton_subset_iff.mpr (hok (by simpa using hrun))
  | sleepTest o | close o =>
    obtain rfl := Option.some.inj hstep
    exact hi.setTodo (hidle_after (Set.empty_subset _) hrest)
  | runningTest o =>
    obtain ⟨hstale, hjoin⟩ := hok
    have hpresent : ThreadFact.present o ∈ s.facts := hneeds rfl
    simp only [StopSys.exec] at hstep
    obtain rfl := Option.some.inj hstep
    split_ifs with hrun
    · refine hi.setTodo ⟨hneeds, ?_, ?_, ?_⟩
      · exact (Set.insert_subset (hneeds rfl) (Set.singleton_subset_iff.mpr (hjoin hrun))).trans
          (FactRules.subset_after rfl)
      · simp [ownerRules, FactRules.after, Set.insert_subset_iff, hpresent]
      · refine hrest.mono (Set.union_subset ?_ ?_)
        · rintro fact ⟨hfact, hne⟩
          exact Or.inl ⟨Or.inl ⟨Or.inl ⟨hfact, id⟩, id⟩, hne⟩
        · exact Set.singleton_subset_iff.mpr (Or.inl ⟨Or.inr rfl, ThreadFact.noConfusion⟩)
    · refine hi.setTodo (hidle_after ?_ hrest)
      exact Set.singleton_subset_iff.mpr (hstale (by simpa using hrun))
  | clearRunning o =>
    obtain rfl := Option.some.inj hstep
    have hafter : ownerRules.after s.facts (.clearRunning o) ⊆ s.facts :=
      FactRules.after_subset (Set.empty_subset _)
    refine hi.update (fun p => p.setRunning false) rfl (Or.inl rfl) (hrest.mono ?_)
    exact facts_modify hafter (fun h => hafter h) fun h => hafter h
  | join o =>
    simp only [StopSys.exec] at hstep
    obtain ⟨-, hjoin⟩ := Set.insert_subset_iff.mp hneeds
    split at hstep
    · next hnone => exact absurd hnone (hjoin rfl)
    · next t hthread =>
      split_ifs at hstep with ht
      obtain rfl := Option.some.inj hstep
      refine hi.setTodo (hidle_after ?_ hrest)
      exact Set.singleton_subset_iff.mpr (hi.idle_of_join hthread ht)
  | clearThread o =>
    obtain rfl := Option.some.inj hstep
    obtain ⟨-, hidle⟩ := Set.insert_subset_iff.mp hneeds
    refine hi.update (fun p => { p with thread := none }) rfl (Or.inr (hidle rfl)) (hrest.mono ?_)
    refine facts_modify (FactRules.after_subset (Set.empty_subset _)) (fun _ => hidle rfl) ?_
    rintro (h | h)
    · exact absurd rfl h.2
    · cases h
  | returned o =>
    obtain rfl := Option.some.inj hstep
    obtain ⟨-, hidle⟩ := Set.insert_subset_iff.mp hneeds
    exact hi.returned (hidle rfl) (hidle_after (Set.empty_subset _) hrest)
  | delete o =>
    obtain rfl := Option.some.inj hstep
    obtain ⟨-, hneeds⟩ := Set.insert_subset_iff.mp hneeds
    obtain ⟨hidle, hserver⟩ := Set.insert_subset_iff.mp hneeds
    refine hi.delete hidle (hserver rfl) (hrest.mono ?_)
    rintro (o' | o' | o') (⟨hf, hne⟩ | hf)
    · exact hf
    · cases hf
    · have ho : o' ≠ o := fun h => hne (congrArg ThreadFact.present h)
      exact (Function.update_of_ne ho ..).trans hf
    · cases hf
    · exact hf
    · cases hf

/-- A live thread finds its object. -/
theorem use_of_live (hi : s.Inv) (ht : (s.obj o).created[t]? = some pc) (hpc : pc ≠ .finished)
    (s' : StopSys) : s.use o s' = s' := by
  rw [use, hi.present_of_live ht hpc]
  rfl

theorem call (hi : s.Inv) (hprog : ownerRules.Checks s.facts prog)
    (hstep : s.call prog = some s') : s'.Inv := by
  unfold StopSys.call at hstep
  split at hstep
  · obtain rfl := Option.some.inj hstep
    exact hi.setTodo hprog
  · cases hstep

theorem step {a : StopAct} (hi : s.Inv) (hok : s.InOrder a) (hstep : s.step owned a = some s') :
    s'.Inv := by
  cases a with
  | start =>
    have hpresent : Set.range .present ⊆ s.facts := Set.range_subset_iff.mpr hok
    exact hi.call (ownerRules.checks_start hpresent owned) hstep
  | stop =>
    have hpresent : Set.range .present ⊆ s.facts := Set.range_subset_iff.mpr hok
    exact hi.call (ownerRules.checks_stop hpresent owned) hstep
  | owner =>
    simp only [StopSys.step] at hstep
    split at hstep
    · cases hstep
    · next i rest htodo =>
      have hchecks := hi.todo
      rw [htodo] at hchecks
      have hpresent : s.freed i.obj = false := hchecks.1 (ownerRules.present_mem_needs i)
      rw [hpresent] at hstep
      exact hi.exec htodo hok hstep
  | setRunning o t =>
    simp only [StopSys.step, threadStep] at hstep
    split_ifs at hstep with ht
    obtain rfl := Option.some.inj hstep
    rw [hi.use_of_live ht nofun]
    exact hi.thread ht nofun rfl rfl
  | enter o t =>
    simp only [StopSys.step, threadStep] at hstep
    split_ifs at hstep with ht
    obtain rfl := Option.some.inj hstep
    rw [hi.use_of_live ht nofun]
    exact hi.thread ht nofun rfl rfl
  | loop o t =>
    simp only [StopSys.step, threadStep] at hstep
    split_ifs at hstep with ht
    all_goals
      obtain rfl := Option.some.inj hstep
      rw [hi.use_of_live ht nofun]
    · exact hi
    · exact hi.thread ht nofun rfl rfl
  | throw o t =>
    simp only [StopSys.step, threadStep] at hstep
    split_ifs at hstep with ht
    obtain rfl := Option.some.inj hstep
    exact hi.thread ht nofun rfl rfl
  | accept t i =>
    simp only [StopSys.step, threadStep] at hstep
    split_ifs at hstep with ht
    obtain rfl := Option.some.inj hstep
    have hpresent : s.freed (.manager i) = false := by
      by_contra h
      exact not_idle_of_live ht nofun (hi.freed _ (by simpa using h)).2
    rw [use, hpresent]
    exact hi

theorem init : Inv {} := ⟨rfl, nofun, nofun, nofun, trivial⟩

end Inv

/-! ## A thread that has finished -/

theorem finished_modify {o' : ThreadObj} (h : (s.obj o).created[t]? = some .finished)
    (hf : o' = o → (f (s.obj o)).created[t]? = some .finished) :
    ((s.modify o' f).obj o).created[t]? = some .finished := by
  by_cases ho : o' = o
  · subst ho
    rw [modify_self]
    exact hf rfl
  · rwa [modify_ne (Ne.symm ho)]

theorem finished_setPc {p : ProcessThread} {t' : ℕ} (h : p.created[t]? = some .finished)
    (ht' : p.created[t']? = some pc) (hpc : pc ≠ .finished) :
    (p.setPc t' pc').created[t]? = some .finished := by
  have htt : t' ≠ t := by
    rintro rfl
    exact hpc (Option.some.inj (ht'.symm.trans h))
  rwa [ProcessThread.setPc, List.getElem?_set_ne htt]

theorem finished_exec (h : (s.obj o).created[t]? = some .finished)
    (hstep : s.exec i = some s') : (s'.obj o).created[t]? = some .finished := by
  cases i with
  | create o' =>
    obtain rfl := Option.some.inj hstep
    refine finished_modify h fun _ => ?_
    exact (List.getElem?_append_left (List.getElem?_eq_some_iff.mp h).1).trans h
  | clearRunning o' =>
    obtain rfl := Option.some.inj hstep
    exact finished_modify h fun _ => h
  | clearThread o' =>
    obtain rfl := Option.some.inj hstep
    exact finished_modify h fun _ => h
  | startTest o' | stopTest o' | runningTest o' =>
    simp only [exec] at hstep
    obtain rfl := Option.some.inj hstep
    split_ifs <;> exact h
  | sleepTest _ | close _ | returned _ | delete _ =>
    obtain rfl := Option.some.inj hstep
    exact h
  | join o' =>
    simp only [exec] at hstep
    split at hstep
    · obtain rfl := Option.some.inj hstep
      exact h
    · split_ifs at hstep
      obtain rfl := Option.some.inj hstep
      exact h

theorem finished_use {o' : ThreadObj} (h : (s.obj o).created[t]? = some .finished)
    (h' : (s'.obj o).created[t]? = some .finished) :
    ((s.use o' s').obj o).created[t]? = some .finished := by
  unfold use
  split_ifs
  · exact h
  · exact h'

theorem finished_step {a : StopAct} (h : (s.obj o).created[t]? = some .finished)
    (hstep : s.step owned a = some s') : (s'.obj o).created[t]? = some .finished := by
  cases a with
  | start | stop =>
    simp only [step, call] at hstep
    split at hstep
    · obtain rfl := Option.some.inj hstep
      exact h
    · cases hstep
  | owner =>
    simp only [step] at hstep
    split at hstep
    · cases hstep
    · split_ifs at hstep
      · obtain rfl := Option.some.inj hstep
        exact h
      · refine finished_exec ?_ hstep
        exact h
  | setRunning o' t' | enter o' t' =>
    simp only [step, threadStep] at hstep
    split_ifs at hstep with ht
    obtain rfl := Option.some.inj hstep
    refine finished_use h (finished_modify h ?_)
    rintro rfl
    exact finished_setPc h ht nofun
  | loop o' t' =>
    simp only [step, threadStep] at hstep
    split_ifs at hstep with ht hrun
    · obtain rfl := Option.some.inj hstep
      exact finished_use h h
    · obtain rfl := Option.some.inj hstep
      refine finished_use h (finished_modify h ?_)
      rintro rfl
      exact finished_setPc h ht nofun
  | throw o' t' =>
    simp only [step, threadStep] at hstep
    split_ifs at hstep with ht
    obtain rfl := Option.some.inj hstep
    refine finished_modify h ?_
    rintro rfl
    exact finished_setPc h ht nofun
  | accept t' i =>
    simp only [step, threadStep] at hstep
    split_ifs at hstep with ht
    obtain rfl := Option.some.inj hstep
    exact finished_use h h

/-- Along a run that is in order, no thread from before the last return of `stop` is left in any
state, and none of them enters `run` later, whatever steps follow. -/
theorem stop_is_final (owned : Owned) {acts : List StopAct}
    (h : Run (step owned) InOrder {} acts s) :
    s.Final ∧ ∀ acts' s', Run (step owned) anyStep s acts' s' →
      ∀ o t, t < s.stopped o → (s'.obj o).created[t]? = some .finished := by
  have hi : s.Inv := h.invariant Inv .init fun _ _ _ hi hok hstep => hi.step hok hstep
  refine ⟨hi.final, fun acts' s' h' o t hlt => ?_⟩
  exact h'.invariant (fun s => (s.obj o).created[t]? = some .finished) (hi.stopped o t hlt)
    fun _ _ _ hold _ hstep => finished_step hold hstep

/-- A start, a thread that gets into `run`, and a stop that joins it. -/
def startAndJoin : List StopAct :=
  [.start, .owner, .owner, .setRunning (.manager 0) 0, .enter (.manager 0) 0, .stop, .owner, .owner,
    .owner, .owner, .loop (.manager 0) 0, .owner, .owner, .owner, .owner]

theorem stop_is_final_joined : ∃ s, Run (step .cellManager) InOrder {} startAndJoin s ∧
    (s.todo = [] ∧ s.stopped (.manager 0) = 1) ∧
    s.Final ∧ ∀ acts' s', Run (step .cellManager) anyStep s acts' s' →
      ∀ o t, t < s.stopped o → (s'.obj o).created[t]? = some .finished := by
  have hidle (p : ProcessThread) (h : p.created = []) : p.Idle := by
    rw [ProcessThread.Idle, h]
    nofun
  obtain ⟨s, hrun, hs⟩ : ∃ s, Run (step .cellManager) InOrder {} startAndJoin s ∧
      s.todo = [] ∧ s.stopped (.manager 0) = 1 := by
    refine ⟨_, .cons (fun _ => rfl) rfl <| .cons trivial rfl <| .cons (hidle _ rfl) rfl <|
      .cons trivial rfl <| .cons trivial rfl <| .cons (fun _ => rfl) rfl <| .cons nofun rfl <|
      .cons trivial rfl <| .cons ⟨nofun, fun _ => nofun⟩ rfl <| .cons trivial rfl <|
      .cons trivial rfl <| .cons trivial rfl <| .cons trivial rfl <| .cons trivial rfl <|
      .cons trivial rfl .nil, rfl, rfl⟩
  exact ⟨s, hrun, hs, stop_is_final .cellManager hrun⟩

/-- `stop` comes before the thread has set `is_running_` and returns at once; the thread enters
`run` after it. -/
theorem stop_misses_new_thread : ∃ s, Run (step .cellManager) anyStep {}
      [.start, .owner, .owner, .stop, .owner, .owner, .owner, .setRunning (.manager 0) 0,
        .enter (.manager 0) 0] s ∧
    s.todo = [] ∧ s.stopped (.manager 0) = 1 ∧ (s.obj (.manager 0)).created = [.inRun] ∧
    ¬s.Final := by
  refine ⟨_, .of_exec (fun _ _ _ => trivial) rfl, rfl, rfl, rfl, ?_⟩
  intro h
  cases h.stopped (.manager 0) 0 Nat.one_pos

end StopSys
end TcpLib
