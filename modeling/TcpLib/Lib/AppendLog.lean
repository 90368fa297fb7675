import TcpLib.Lib.BoundedFifo
import Mathlib.Data.List.Basic

/-!
# An append-only log

What is pushed stays at its position. A read past the end finds nothing.
-/

namespace TcpLib

inductive LogCall (T : Type*)
  | push (msg : T)
  | get (pos : ℕ)
  | size

inductive LogResult (T : Type*)
  | pushed (accepted : Bool)
  | got (msg : Option T)
  | size (n : ℕ)
  deriving DecidableEq

variable {T : Type*}

def logCall (log : List T) : LogCall T → List T × LogResult T
  | .push msg => (log ++ [msg], .pushed true)
  | .get pos => (log, .got log[pos]?)
  | .size => (log, .size log.length)

/-- The messages that were pushed, in order. -/
def pushedBy (calls : List (LogCall T)) : List T :=
  calls.filterMap fun
    | .push msg => some msg
    | .get _ | .size => none

/-- The log is what was pushed and nothing else. -/
theorem specCalls_logCall (log : List T) (calls : List (LogCall T)) :
    (specCalls logCall log calls).1 = log ++ pushedBy calls := by
  induction calls generalizing log with
  | nil => simp [specCalls, pushedBy]
  | cons c cs ih =>
    simp only [specCalls]
    rw [ih]
    cases c with
    | push msg => simp [logCall, pushedBy]
    | get _ | size => simp [logCall, pushedBy]

end TcpLib
