import Mathlib.Data.Nat.Notation
import Mathlib.Logic.Function.Basic

/-!
# Starting and stopping threads

`process_thread`, and the calls of `start` and `stop` that the owner of a `cellManager` or of a
`tcpServer` makes. The owner has a list of the steps that are left of its call, and the threads that
`start` created take their own steps at any time in between; a sleep is no step that orders them.
`created` lists the threads of an object with the oldest first, `stopped` counts those that were
created before the last return of its `stop`, and `fault` is set by a use of an object after its
`delete` and by a join of no thread.
-/

namespace TcpLib

/-- How far a created thread is in `_thread_proc`. -/
inductive ThreadPc
  | created
  | entering
  | inRun
  | finished
  deriving DecidableEq

structure ProcessThread where
  thread : Option ℕ := none
  isRunning : Bool := false
  created : List ThreadPc := []

namespace ProcessThread

/-- `pthread_create` in `start`. -/
def create (p : ProcessThread) : ProcessThread :=
  { p with thread := some p.created.length, created := p.created ++ [.created] }

def setRunning (p : ProcessThread) (isRunning : Bool) : ProcessThread :=
  { p with isRunning := isRunning }

def setPc (p : ProcessThread) (t : ℕ) (pc : ThreadPc) : ProcessThread :=
  { p with created := p.created.set t pc }

/-- Every thread that was created has left `run`. -/
def Idle (p : ProcessThread) : Prop := ∀ pc ∈ p.created, pc = .finished

end ProcessThread

inductive ThreadObj
  | server
  | manager (i : ℕ)
  deriving DecidableEq

/-- The steps that `start` and `stop` are made of. -/
inductive OwnerStep
  /-- `if(!is_running())` of `cellManager::start` -/
  | startTest (o : ThreadObj)
  | create (o : ThreadObj)
  /-- `if(is_running())` of `cellManager::stop` -/
  | stopTest (o : ThreadObj)
  /-- the first test of `process_thread::stop` and its sleep -/
  | sleepTest (o : ThreadObj)
  /-- the second test of `process_thread::stop` -/
  | runningTest (o : ThreadObj)
  | clearRunning (o : ThreadObj)
  | join (o : ThreadObj)
  | clearThread (o : ThreadObj)
  | close (o : ThreadObj)
  | returned (o : ThreadObj)
  | delete (o : ThreadObj)

namespace OwnerStep

def obj : OwnerStep → ThreadObj
  | startTest o | create o | stopTest o | sleepTest o | runningTest o | clearRunning o | join o
  | clearThread o | close o | returned o | delete o => o

def processStop (o : ThreadObj) : List OwnerStep := [.sleepTest o, .runningTest o]

def cellManagerStop (i : ℕ) : List OwnerStep :=
  [.stopTest (.manager i), .close (.manager i), .returned (.manager i)]

/-- `delete` of a manager, whose destructor calls `stop`. -/
def deleteManager (i : ℕ) : List OwnerStep := cellManagerStop i ++ [.delete (.manager i)]

end OwnerStep

/-- What the owner has. -/
inductive Owned
  | cellManager
  | tcpServer (managers : ℕ)

namespace Owned
open OwnerStep

def start : Owned → List OwnerStep
  | cellManager => [.startTest (.manager 0)]
  | tcpServer n => (List.range n).map (fun i => .startTest (.manager i)) ++ [.create .server]

def stop : Owned → List OwnerStep
  | cellManager => cellManagerStop 0
  | tcpServer n => processStop .server ++ .returned .server ::
      ((List.range n).flatMap deleteManager ++ [.close .server])

end Owned

structure StopSys where
  obj : ThreadObj → ProcessThread := fun _ => {}
  freed : ThreadObj → Bool := fun _ => false
  stopped : ThreadObj → ℕ := fun _ => 0
  todo : List OwnerStep := []
  fault : Bool := false

inductive StopAct
  | start
  | stop
  | owner
  | setRunning (o : ThreadObj) (t : ℕ)
  | enter (o : ThreadObj) (t : ℕ)
  | loop (o : ThreadObj) (t : ℕ)
  | throw (o : ThreadObj) (t : ℕ)
  | accept (t : ℕ) (i : ℕ)

namespace StopSys

def modify (s : StopSys) (o : ThreadObj) (f : ProcessThread → ProcessThread) : StopSys :=
  { s with obj := Function.update s.obj o (f (s.obj o)) }

/-- The rest of a step that uses the object `o`. -/
def use (s : StopSys) (o : ThreadObj) (s' : StopSys) : StopSys :=
  if s.freed o then { s with fault := true } else s'

/-- The step that the owner takes next; `s` has the others as its `todo` already. -/
def exec (s : StopSys) : OwnerStep → Option StopSys
  | .startTest o =>
    some (if (s.obj o).isRunning then s else { s with todo := .create o :: s.todo })
  | .create o => some (s.modify o ProcessThread.create)
  | .stopTest o =>
    some (if (s.obj o).isRunning then { s with todo := OwnerStep.processStop o ++ s.todo } else s)
  | .sleepTest _ | .close _ => some s
  | .runningTest o =>
    some (if (s.obj o).isRunning then
      { s with todo := .clearRunning o :: .join o :: .clearThread o :: s.todo } else s)
  | .clearRunning o => some (s.modify o fun p => p.setRunning false)
  | .join o =>
    match (s.obj o).thread with
    | none => some { s with fault := true }
    | some t => if (s.obj o).created[t]? = some .finished then some s else none
  | .clearThread o => some (s.modify o fun p => { p with thread := none })
  | .returned o =>
    some { s with stopped := Function.update s.stopped o (s.obj o).created.length }
  | .delete o => some { s with freed := Function.update s.freed o true }

/-- A step of a thread that is at `pc`. -/
def threadStep (s : StopSys) (o : ThreadObj) (t : ℕ) (pc : ThreadPc) (s' : StopSys) :
    Option StopSys :=
  if (s.obj o).created[t]? = some pc then some s' else none

def call (s : StopSys) (prog : List OwnerStep) : Option StopSys :=
  match s.todo with
  | [] => some { s with todo := prog }
  | _ :: _ => none

def step (owned : Owned) (s : StopSys) : StopAct → Option StopSys
  | .start => s.call owned.start
  | .stop => s.call owned.stop
  | .owner =>
    match s.todo with
    | [] => none
    | i :: rest =>
      if s.freed i.obj then some { s with todo := rest, fault := true }
      else exec { s with todo := rest } i
  | .setRunning o t =>
    s.threadStep o t .created
      (s.use o (s.modify o fun p => (p.setPc t .entering).setRunning true))
  | .enter o t => s.threadStep o t .entering (s.use o (s.modify o fun p => p.setPc t .inRun))
  | .loop o t =>
    s.threadStep o t .inRun
      (s.use o (if (s.obj o).isRunning then s else s.modify o fun p => p.setPc t .finished))
  | .throw o t => s.threadStep o t .inRun (s.modify o fun p => p.setPc t .finished)
  -- a new connection goes to one of the managers
  | .accept t i => s.threadStep .server t .inRun (s.use (.manager i) s)

/-- The calls and schedules for which `stop` waits for the thread: `start` creates none next to a
live one, `is_running_` is false in `stop` only when no thread is left, and true only with a thread
to join. Nothing is called once the managers are deleted. -/
def InOrder (s : StopSys) : StopAct → Prop
  | .start | .stop => ∀ o, s.freed o = false
  | .owner =>
    match s.todo with
    | .create o :: _ => (s.obj o).Idle
    | .stopTest o :: _ => (s.obj o).isRunning = false → (s.obj o).Idle
    | .runningTest o :: _ => ((s.obj o).isRunning = false → (s.obj o).Idle) ∧
        ((s.obj o).isRunning = true → (s.obj o).thread ≠ none)
    | _ => True
  | _ => True

/-- No thread that was created before the last return of `stop` is in `run` or on its way to it,
and no object is used or left to a thread after its `delete`. -/
structure Final (s : StopSys) : Prop where
  noFault : s.fault = false
  stopped : ∀ o t, t < s.stopped o → (s.obj o).created[t]? = some .finished
  freed : ∀ o, s.freed o → (s.obj o).Idle

end StopSys

end TcpLib
