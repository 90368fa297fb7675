import TcpLib.Lib.Transition
import Mathlib.Logic.Function.Basic

/-!
# Components that take one step at a time

A system of components of one kind in which every action is a step of a single component. A run of
the system contains, for each component, a run of that component alone. What at most one component
holds stays with at most one, if a component gets it only while none has it.
-/

namespace TcpLib.Components
open Transition
variable {ι σ α β : Type*} [DecidableEq ι] {step : σ → α → Option σ}

/-- One component takes an action, and the others stay as they are. -/
def stepOf (step : σ → α → Option σ) (s : ι → σ) (x : ι × α) : Option (ι → σ) :=
  (step (s x.1) x.2).map fun t => Function.update s x.1 t

/-- The actions of one component. -/
def actionsOf (i : ι) (acts : List (ι × α)) : List α :=
  acts.filterMap fun x => if x.1 = i then some x.2 else none

@[simp] theorem actionsOf_append (i : ι) (acts acts' : List (ι × α)) :
    actionsOf i (acts ++ acts') = actionsOf i acts ++ actionsOf i acts' := List.filterMap_append

theorem actionsOf_singleton (i : ι) (x : ι × α) :
    actionsOf i [x] = if x.1 = i then [x.2] else [] := by
  by_cases hi : x.1 = i <;> simp [actionsOf, hi]

theorem mem_actionsOf {i : ι} {a : α} {acts : List (ι × α)} :
    a ∈ actionsOf i acts ↔ (i, a) ∈ acts := by
  unfold actionsOf
  rw [List.mem_filterMap]
  constructor
  · rintro ⟨⟨j, b⟩, hmem, h⟩
    split_ifs at h with hji
    obtain rfl := Option.some.inj h
    obtain rfl : j = i := hji
    exact hmem
  · intro hmem
    exact ⟨(i, a), hmem, if_pos rfl⟩

variable {s t : ι → σ} {i : ι}

theorem stepOf_eq_some {x : ι × α} (h : stepOf step s x = some t) :
    ∃ u, step (s x.1) x.2 = some u ∧ t = Function.update s x.1 u := by
  obtain ⟨u, hu, rfl⟩ := Option.map_eq_some_iff.mp h
  exact ⟨u, hu, rfl⟩

/-- A run of a system that gives each of its actions to one component is, for every component, a run
of that component with the actions it was given. -/
theorem run_component {gstep : (ι → σ) → β → Option (ι → σ)} {dispatch : β → ι × α}
    {gok : (ι → σ) → β → Prop} {s₀ : ι → σ} (ok : ι → σ → α → Prop)
    (hsim : ∀ s b t, gok s b → gstep s b = some t → stepOf step s (dispatch b) = some t ∧
      ok (dispatch b).1 (s (dispatch b).1) (dispatch b).2)
    {acts : List β} (h : Run gstep gok s₀ acts s) (i : ι) :
    Run step (ok i) (s₀ i) (actionsOf i (acts.map dispatch)) (s i) := by
  induction h with
  | nil => exact .nil
  | @snoc acts b s t _ hok hstep ih =>
    obtain ⟨hlocal, hguard⟩ := hsim s b t hok hstep
    obtain ⟨u, hu, rfl⟩ := stepOf_eq_some hlocal
    rw [List.map_append, actionsOf_append]
    by_cases hi : (dispatch b).1 = i
    · subst hi
      rw [Function.update_self]
      have hone : actionsOf (dispatch b).1 ([b].map dispatch) = [(dispatch b).2] := by
        simp [actionsOf]
      rw [hone]
      exact .snoc ih hguard hu
    · rw [Function.update_of_ne (Ne.symm hi)]
      have hnone : actionsOf i ([b].map dispatch) = [] := by simp [actionsOf, hi]
      rw [hnone, List.append_nil]
      exact ih

/-- At most one component has the property. -/
def Exclusive (P : σ → Prop) (s : ι → σ) : Prop := ∀ i j, P (s i) → P (s j) → i = j

theorem Exclusive.update {P : σ → Prop} (hs : Exclusive P s) {u : σ}
    (h : P u → P (s i) ∨ ∀ j, ¬P (s j)) : Exclusive P (Function.update s i u) := by
  have hother {j : ι} (hj : j ≠ i) (hu : P u) (hpj : P (s j)) : False := by
    rcases h hu with hi | hnone
    · exact hj (hs j i hpj hi)
    · exact hnone j hpj
  intro j k hj hk
  by_cases hji : j = i <;> by_cases hki : k = i
  · rw [hji, hki]
  · subst hji
    rw [Function.update_self] at hj
    rw [Function.update_of_ne hki] at hk
    exact (hother hki hj hk).elim
  · subst hki
    rw [Function.update_self] at hk
    rw [Function.update_of_ne hji] at hj
    exact (hother hji hk hj).elim
  · rw [Function.update_of_ne hji] at hj
    rw [Function.update_of_ne hki] at hk
    exact hs j k hj hk

end TcpLib.Components
