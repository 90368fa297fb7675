import Mathlib.Tactic.Common
import Mathlib.Data.List.Perm.Basic

/-!
# A queue whose slots are reserved before they are filled

A producer reserves the slot behind the last one and fills it later, so slots can be filled in
another order than they were reserved in. The consumer takes the first slot once it is filled,
and finds nothing while it is not.
-/

namespace TcpLib.SlotQueue
variable {P T : Type*}

inductive Slot (P T : Type*)
  | reserved (owner : P)
  | ready (item : T)
  deriving DecidableEq

def Slot.item? : Slot P T → Option T
  | .reserved _ => none
  | .ready t => some t

/-- The items in the queue that the consumer can see, oldest first. -/
def items (q : List (Slot P T)) : List T := q.filterMap Slot.item?

def reserve (q : List (Slot P T)) (p : P) : List (Slot P T) := q ++ [.reserved p]

/-- Filling the slot of a producer. -/
def fill [DecidableEq P] (p : P) (t : T) : List (Slot P T) → Option (List (Slot P T))
  | [] => none
  | .reserved o :: q => if o = p then some (.ready t :: q) else (fill p t q).map (.reserved o :: ·)
  | .ready u :: q => (fill p t q).map (.ready u :: ·)

def pop : List (Slot P T) → Option (T × List (Slot P T))
  | .ready t :: q => some (t, q)
  | _ => none

@[simp] theorem items_nil : items ([] : List (Slot P T)) = [] := rfl

@[simp] theorem items_reserved (p : P) (q : List (Slot P T)) : items (.reserved p :: q) = items q := rfl

@[simp] theorem items_ready (t : T) (q : List (Slot P T)) : items (.ready t :: q) = t :: items q := rfl

@[simp] theorem items_reserve (q : List (Slot P T)) (p : P) : items (reserve q p) = items q := by
  simp [items, reserve, Slot.item?]

theorem items_pop {q q' : List (Slot P T)} {t : T} (h : pop q = some (t, q')) :
    items q = t :: items q' := by
  cases q with
  | nil => cases h
  | cons s q =>
    cases s with
    | reserved p => cases h
    | ready u =>
      obtain ⟨rfl, rfl⟩ : u = t ∧ q = q' := by simpa [pop] using h
      rfl

theorem items_fill [DecidableEq P] {p : P} {t : T} {q q' : List (Slot P T)}
    (h : fill p t q = some q') : (items q').Perm (t :: items q) := by
  induction q generalizing q' with
  | nil => cases h
  | cons s q ih =>
    cases s with
    | reserved o =>
      rw [fill] at h
      split at h
      · obtain rfl := Option.some.inj h
        exact List.Perm.refl _
      · obtain ⟨q'', hfill, rfl⟩ := Option.map_eq_some_iff.mp h
        simpa only [items_reserved] using ih hfill
    | ready u =>
      obtain ⟨q'', hfill, rfl⟩ := Option.map_eq_some_iff.mp h
      exact ((ih hfill).cons u).trans (List.Perm.swap t u _)

/-! ## Emptying the queue -/

/-- What the consumer takes until it finds nothing. -/
def drain : List (Slot P T) → List T
  | .ready t :: q => t :: drain q
  | _ => []

theorem drain_of_pop {q q' : List (Slot P T)} {t : T} (h : pop q = some (t, q')) :
    drain q = t :: drain q' := by
  cases q with
  | nil => cases h
  | cons s q =>
    cases s with
    | reserved p => cases h
    | ready u =>
      obtain ⟨rfl, rfl⟩ : u = t ∧ q = q' := by simpa [pop] using h
      rfl

theorem drain_of_pop_none {q : List (Slot P T)} (h : pop q = none) : drain q = [] := by
  cases q with
  | nil => rfl
  | cons s q =>
    cases s with
    | reserved p => rfl
    | ready u => cases h

/-! ## The queue once every slot is filled -/

/-- The items of the queue in order, where `f` says what a producer is going to fill its slot with. -/
def resolve (f : P → Option T) (q : List (Slot P T)) : List T :=
  q.filterMap fun
    | .ready t => some t
    | .reserved p => f p

variable {f g : P → Option T} {q q' : List (Slot P T)} {p : P} {t : T}

@[simp] theorem resolve_ready : resolve f (.ready t :: q) = t :: resolve f q := rfl

theorem resolve_reserved (f : P → Option T) (p : P) (q : List (Slot P T)) :
    resolve f (.reserved p :: q) = (f p).toList ++ resolve f q := by
  cases hf : f p <;> simp [resolve, hf]

theorem resolve_reserve (f : P → Option T) (q : List (Slot P T)) (p : P) :
    resolve f (reserve q p) = resolve f q ++ (f p).toList := by
  have hone : resolve f [.reserved p] = (f p).toList := by
    rw [resolve_reserved]
    exact List.append_nil _
  rw [← hone]
  exact List.filterMap_append

theorem resolve_pop (f : P → Option T) (h : pop q = some (t, q')) :
    resolve f q = t :: resolve f q' := by
  cases q with
  | nil => cases h
  | cons s q =>
    cases s with
    | reserved p => cases h
    | ready u =>
      obtain ⟨rfl, rfl⟩ : u = t ∧ q = q' := by simpa [pop] using h
      rfl

/-! ## Producers and items under other names -/

section Map
variable {P' T' : Type*} {rename : P → P'} {view : T → T'}

def Slot.map (rename : P → P') (view : T → T') : Slot P T → Slot P' T'
  | .reserved o => .reserved (rename o)
  | .ready t => .ready (view t)

theorem reserve_map (q : List (Slot P T)) (p : P) :
    (reserve q p).map (Slot.map rename view) = reserve (q.map (Slot.map rename view)) (rename p) := by
  rw [reserve, reserve, List.map_append]
  rfl

theorem fill_map [DecidableEq P] [DecidableEq P'] (hinj : Function.Injective rename) (p : P) (t : T)
    (q : List (Slot P T)) :
    fill (rename p) (view t) (q.map (Slot.map rename view)) =
      (fill p t q).map (List.map (Slot.map rename view)) := by
  induction q with
  | nil => rfl
  | cons s q ih =>
    cases s with
    | reserved o =>
      simp only [List.map_cons, Slot.map, fill, hinj.eq_iff, ih]
      split_ifs
      · rfl
      · rw [Option.map_map, Option.map_map]
        rfl
    | ready u =>
      simp only [List.map_cons, Slot.map, fill, ih]
      rw [Option.map_map, Option.map_map]
      rfl

theorem pop_map (q : List (Slot P T)) :
    pop (q.map (Slot.map rename view)) =
      (pop q).map (Prod.map view (List.map (Slot.map rename view))) := by
  cases q with
  | nil => rfl
  | cons s q => cases s <;> rfl

end Map

/-! ## Slots of a producer -/

variable [DecidableEq P]

def Slot.reservedBy (p : P) : Slot P T → Bool
  | .reserved o => decide (o = p)
  | .ready _ => false

/-- How many slots the producer has reserved and not filled. -/
def reserved (p : P) (q : List (Slot P T)) : ℕ := q.countP (Slot.reservedBy p)

@[simp] theorem reserved_nil (p : P) : reserved p ([] : List (Slot P T)) = 0 := rfl

theorem reserved_reserve (p o : P) (q : List (Slot P T)) :
    reserved p (reserve q o) = reserved p q + if o = p then 1 else 0 := by
  simp [reserved, reserve, List.countP_append, Slot.reservedBy, List.countP_cons]

theorem reserved_pop {q q' : List (Slot P T)} {t : T} (h : pop q = some (t, q')) (p : P) :
    reserved p q' = reserved p q := by
  cases q with
  | nil => cases h
  | cons s q =>
    cases s with
    | reserved o => cases h
    | ready u =>
      obtain ⟨-, rfl⟩ : u = t ∧ q = q' := by simpa [pop] using h
      simp [reserved, Slot.reservedBy]

theorem reserved_fill {o : P} {t : T} {q q' : List (Slot P T)} (h : fill o t q = some q') (p : P) :
    (reserved p q' + if o = p then 1 else 0) = reserved p q := by
  induction q generalizing q' with
  | nil => cases h
  | cons s q ih =>
    cases s with
    | reserved r =>
      rw [fill] at h
      split at h
      · next heq =>
        obtain rfl := Option.some.inj h
        simp [reserved, Slot.reservedBy, List.countP_cons, heq]
      · obtain ⟨q'', hfill, rfl⟩ := Option.map_eq_some_iff.mp h
        have hrest := ih hfill
        simp only [reserved, List.countP_cons] at hrest ⊢
        omega
    | ready u =>
      obtain ⟨q'', hfill, rfl⟩ := Option.map_eq_some_iff.mp h
      have hrest := ih hfill
      simp only [reserved, List.countP_cons] at hrest ⊢
      omega

/-- With no reserved slot the consumer gets everything. -/
theorem drain_eq_items {q : List (Slot P T)} (h : ∀ p, reserved p q = 0) : drain q = items q := by
  induction q with
  | nil => exact drain_of_pop_none rfl
  | cons s q ih =>
    cases s with
    | reserved o =>
      have hone := h o
      simp [reserved, Slot.reservedBy] at hone
    | ready u =>
      have hrest : ∀ p, reserved p q = 0 := by
        intro p
        simpa [reserved, Slot.reservedBy] using h p
      rw [drain_of_pop rfl, ih hrest, items_ready]

/-- A producer without a slot that reserves one and fills it appends its item. -/
theorem fill_reserve {q : List (Slot P T)} {p : P} (h : reserved p q = 0) (t : T) :
    fill p t (reserve q p) = some (q ++ [.ready t]) := by
  induction q with
  | nil => simp [reserve, fill]
  | cons s q ih =>
    cases s with
    | reserved o =>
      have hne : o ≠ p := by
        rintro rfl
        simp [reserved, Slot.reservedBy] at h
      have hrest : reserved p q = 0 := by
        simpa [reserved, Slot.reservedBy, List.countP_cons, hne] using h
      simpa [reserve, fill, hne] using ih hrest
    | ready u =>
      have hrest : reserved p q = 0 := by
        simpa [reserved, Slot.reservedBy, List.countP_cons] using h
      simpa [reserve, fill] using ih hrest

/-- The slot that is filled is the producer's first one. -/
theorem fill_eq_set {q : List (Slot P T)} {p : P} {j : ℕ} (hj : q[j]? = some (.reserved p))
    (hfirst : ∀ k < j, q[k]? ≠ some (.reserved p)) (t : T) :
    fill p t q = some (q.set j (.ready t)) := by
  induction q generalizing j with
  | nil => cases hj
  | cons s q ih =>
    cases j with
    | zero =>
      obtain rfl := Option.some.inj hj
      simp [fill]
    | succ j =>
      have hrest := ih hj fun k hk => hfirst (k + 1) (Nat.succ_lt_succ hk)
      cases s with
      | reserved o =>
        have hne : o ≠ p := by
          rintro rfl
          exact hfirst 0 (Nat.succ_pos j) rfl
        rw [fill, if_neg hne, hrest]
        rfl
      | ready u =>
        rw [fill, hrest]
        rfl

/-- With no reserved slot at its head the queue is empty or can be popped. -/
theorem pop_cases {q : List (Slot P T)} (h : ∀ p, reserved p q = 0) :
    q = [] ∨ ∃ t q', pop q = some (t, q') := by
  cases q with
  | nil => exact Or.inl rfl
  | cons s q =>
    cases s with
    | reserved o =>
      have hone := h o
      simp [reserved, Slot.reservedBy] at hone
    | ready u => exact Or.inr ⟨u, q, rfl⟩

/-- Only what the producers with a slot in the queue hold matters. -/
theorem resolve_congr (h : ∀ p, reserved p q ≠ 0 → g p = f p) : resolve g q = resolve f q := by
  induction q with
  | nil => rfl
  | cons s q ih =>
    have hrest : ∀ p, reserved p q ≠ 0 → g p = f p := by
      intro p hp
      refine h p fun hzero => hp ?_
      unfold reserved at hzero ⊢
      rw [List.countP_cons] at hzero
      omega
    cases s with
    | ready u => rw [resolve_ready, resolve_ready, ih hrest]
    | reserved o =>
      have ho : g o = f o := h o (by simp [reserved, Slot.reservedBy])
      rw [resolve_reserved, resolve_reserved, ho, ih hrest]

/-- A producer that fills its only slot puts in what was expected. -/
theorem resolve_fill (h : fill p t q = some q') (hone : reserved p q ≤ 1) (hp : f p = some t) :
    resolve f q' = resolve f q := by
  induction q generalizing q' with
  | nil => cases h
  | cons s q ih =>
    cases s with
    | reserved o =>
      rw [fill] at h
      split at h
      · next heq =>
        obtain rfl := Option.some.inj h
        rw [resolve_ready, resolve_reserved, heq, hp]
        rfl
      · next hne =>
        obtain ⟨q'', hfill, rfl⟩ := Option.map_eq_some_iff.mp h
        have hone' : reserved p q ≤ 1 := by
          simpa [reserved, Slot.reservedBy, List.countP_cons, hne] using hone
        rw [resolve_reserved, resolve_reserved, ih hfill hone']
    | ready u =>
      obtain ⟨q'', hfill, rfl⟩ := Option.map_eq_some_iff.mp h
      have hone' : reserved p q ≤ 1 := by
        simpa [reserved, Slot.reservedBy, List.countP_cons] using hone
      rw [resolve_ready, resolve_ready, ih hfill hone']

theorem mem_resolve (h : t ∈ resolve f q) :
    t ∈ items q ∨ ∃ p, reserved p q ≠ 0 ∧ f p = some t := by
  unfold resolve at h
  obtain ⟨s, hs, hst⟩ := List.mem_filterMap.mp h
  cases s with
  | ready u =>
    obtain rfl := Option.some.inj hst
    exact Or.inl (List.mem_filterMap.mpr ⟨_, hs, rfl⟩)
  | reserved o =>
    refine Or.inr ⟨o, ?_, hst⟩
    have hpos : 0 < reserved o q :=
      List.countP_pos_iff.mpr ⟨.reserved o, hs, decide_eq_true rfl⟩
    exact Nat.ne_of_gt hpos

end TcpLib.SlotQueue
