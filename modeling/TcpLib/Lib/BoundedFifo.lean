import Mathlib.Data.List.Induction
import Mathlib.Tactic.Common

/-!
# A bounded FIFO, and objects that answer calls like it

An object answers a call with a result and its next state, or it has none when the call goes wrong.
If every call of the object is answered as a specification answers it, and the relation between
them is kept, then all results of any sequence of calls agree.
-/

namespace TcpLib

/-! ## Sequences of calls -/

section Calls
variable {σ τ κ ρ : Type*}

def runCalls (call : σ → κ → Option (σ × ρ)) (s : σ) : List κ → Option (σ × List ρ)
  | [] => some (s, [])
  | c :: cs =>
    (call s c).bind fun (t, r) => (runCalls call t cs).map fun (u, rs) => (u, r :: rs)

/-- The answers of a specification, which always has one. -/
def specCalls (spec : τ → κ → τ × ρ) (t : τ) : List κ → τ × List ρ
  | [] => (t, [])
  | c :: cs =>
    let (u, rs) := specCalls spec (spec t c).1 cs
    (u, (spec t c).2 :: rs)

theorem specCalls_concat (spec : τ → κ → τ × ρ) (t : τ) (cs : List κ) (c : κ) :
    specCalls spec t (cs ++ [c]) =
      ((spec (specCalls spec t cs).1 c).1,
        (specCalls spec t cs).2 ++ [(spec (specCalls spec t cs).1 c).2]) := by
  induction cs generalizing t with
  | nil => rfl
  | cons d cs ih =>
    simp only [List.cons_append, specCalls]
    rw [ih]

theorem runCalls_simulates (call : σ → κ → Option (σ × ρ)) {spec : τ → κ → τ × ρ}
    (R : σ → τ → Prop)
    (hsim : ∀ s t c, R s t → ∃ s', call s c = some (s', (spec t c).2) ∧ R s' (spec t c).1)
    {s : σ} {t : τ} (h : R s t) (cs : List κ) :
    ∃ s', runCalls call s cs = some (s', (specCalls spec t cs).2) ∧ R s' (specCalls spec t cs).1 := by
  induction cs generalizing s t with
  | nil => exact ⟨s, rfl, h⟩
  | cons c cs ih =>
    obtain ⟨s₁, hcall, h₁⟩ := hsim s t c h
    obtain ⟨s', hrun, h'⟩ := ih h₁
    refine ⟨s', ?_, h'⟩
    rw [runCalls, hcall, Option.bind_some]
    dsimp only
    rw [hrun]
    rfl

end Calls

/-! ## The bounded FIFO -/

inductive FifoCall (T : Type*)
  | push (msg : T)
  | pop

inductive FifoResult (T : Type*)
  | pushed (accepted : Bool)
  | popped (msg : Option T)
  deriving DecidableEq

variable {T : Type*}

def fifoCall (capacity : ℕ) (held : List T) : FifoCall T → List T × FifoResult T
  | .push msg =>
    if capacity ≤ held.length then (held, .pushed false) else (held ++ [msg], .pushed true)
  | .pop => (held.tail, .popped held.head?)

variable {capacity : ℕ} {held : List T}

theorem fifoCall_push_full (h : capacity ≤ held.length) (msg : T) :
    fifoCall capacity held (.push msg) = (held, .pushed false) :=
  if_pos h

theorem fifoCall_push (h : ¬capacity ≤ held.length) (msg : T) :
    fifoCall capacity held (.push msg) = (held ++ [msg], .pushed true) :=
  if_neg h

theorem fifoCall_pop (capacity : ℕ) (held : List T) :
    fifoCall capacity held .pop = (held.tail, .popped held.head?) :=
  rfl

/-! ## What goes through it -/

def FifoCall.offered? : FifoCall T → Option T
  | .push msg => some msg
  | .pop => none

def FifoResult.popped? : FifoResult T → Option T
  | .pushed _ => none
  | .popped msg => msg

def FifoCall.accepted? : FifoCall T × FifoResult T → Option T
  | (.push msg, .pushed true) => some msg
  | _ => none

def offeredItems (calls : List (FifoCall T)) : List T := calls.filterMap FifoCall.offered?

def poppedItems (results : List (FifoResult T)) : List T := results.filterMap FifoResult.popped?

/-- The items of the pushes that were not refused. -/
def acceptedItems (calls : List (FifoCall T)) (results : List (FifoResult T)) : List T :=
  (calls.zip results).filterMap FifoCall.accepted?

theorem offeredItems_concat (calls : List (FifoCall T)) (c : FifoCall T) :
    offeredItems (calls ++ [c]) = offeredItems calls ++ c.offered?.toList := by
  unfold offeredItems
  rw [List.filterMap_append]
  cases hc : c.offered? <;> simp [hc]

theorem poppedItems_concat (results : List (FifoResult T)) (r : FifoResult T) :
    poppedItems (results ++ [r]) = poppedItems results ++ r.popped?.toList := by
  unfold poppedItems
  rw [List.filterMap_append]
  cases hr : r.popped? <;> simp [hr]

theorem acceptedItems_concat {calls : List (FifoCall T)} {results : List (FifoResult T)}
    (h : calls.length = results.length) (c : FifoCall T) (r : FifoResult T) :
    acceptedItems (calls ++ [c]) (results ++ [r]) =
      acceptedItems calls results ++ (FifoCall.accepted? (c, r)).toList := by
  unfold acceptedItems
  rw [List.zip_append h, List.filterMap_append]
  cases hcr : FifoCall.accepted? (c, r) <;> simp [hcr]

theorem acceptedItems_sublist (calls : List (FifoCall T)) (results : List (FifoResult T)) :
    (acceptedItems calls results).Sublist (offeredItems calls) := by
  induction calls generalizing results with
  | nil => exact List.nil_sublist _
  | cons c calls ih =>
    cases results with
    | nil => exact List.nil_sublist _
    | cons r results =>
      have hrest := ih results
      rcases c with msg | _
      · rcases r with accepted | msg'
        · cases accepted
          · exact hrest.cons msg
          · exact hrest.cons_cons msg
        · exact hrest.cons msg
      · exact hrest

variable {calls : List (FifoCall T)} {results : List (FifoResult T)}

/-- What was accepted is what came out, in this order, and then what is held. -/
theorem accepted_eq_popped (h : specCalls (fifoCall capacity) [] calls = (held, results)) :
    calls.length = results.length ∧ acceptedItems calls results = poppedItems results ++ held := by
  induction calls using List.reverseRecOn generalizing held results with
  | nil =>
    obtain ⟨rfl, rfl⟩ := Prod.mk.inj h
    exact ⟨rfl, rfl⟩
  | append_singleton calls c ih =>
    rw [specCalls_concat] at h
    obtain ⟨rfl, rfl⟩ := Prod.mk.inj h
    obtain ⟨hlen, hflow⟩ := ih rfl
    refine ⟨by rw [List.length_append, List.length_append, hlen]; rfl, ?_⟩
    rw [acceptedItems_concat hlen, hflow, poppedItems_concat]
    generalize (specCalls (fifoCall capacity) [] calls).1 = before
    cases c with
    | push msg =>
      by_cases hfull : capacity ≤ before.length
      · simp [fifoCall_push_full hfull, FifoCall.accepted?, FifoResult.popped?]
      · simp [fifoCall_push hfull, FifoCall.accepted?, FifoResult.popped?]
    | pop =>
      rw [fifoCall_pop]
      cases before <;> simp [FifoCall.accepted?, FifoResult.popped?]

/-- Where no push was refused, all were accepted. -/
theorem accepted_eq_offered (h : specCalls (fifoCall capacity) [] calls = (held, results))
    (hno : .pushed false ∉ results) : acceptedItems calls results = offeredItems calls := by
  induction calls using List.reverseRecOn generalizing held results with
  | nil =>
    obtain ⟨rfl, rfl⟩ := Prod.mk.inj h
    rfl
  | append_singleton calls c ih =>
    rw [specCalls_concat] at h
    obtain ⟨rfl, rfl⟩ := Prod.mk.inj h
    obtain ⟨hold, hlast⟩ := not_or.mp (mt List.mem_append.mpr hno)
    rw [acceptedItems_concat (accepted_eq_popped rfl).1, ih rfl hold, offeredItems_concat]
    congr 1
    generalize (specCalls (fifoCall capacity) [] calls).1 = before at hlast
    cases c with
    | push msg =>
      by_cases hfull : capacity ≤ before.length
      · rw [fifoCall_push_full hfull] at hlast
        exact absurd (List.mem_singleton.mpr rfl) hlast
      · rw [fifoCall_push hfull]
        rfl
    | pop => rfl

end TcpLib
