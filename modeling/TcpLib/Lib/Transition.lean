import Mathlib.Tactic.Common

/-!
# Guarded runs of a partial step function

`Run step ok s₀ acts s` says that the actions `acts` lead from `s₀` to `s`, and that
every one of them met the guard `ok` in the state before it. With the trivial guard
these are all the runs of the system. `exec` is the executable form used on concrete
action lists.
-/

namespace TcpLib.Transition
variable {σ α : Type*}

inductive Run (step : σ → α → Option σ) (ok : σ → α → Prop) (s₀ : σ) : List α → σ → Prop
  | nil : Run step ok s₀ [] s₀
  | snoc {acts : List α} {a : α} {s t : σ} :
      Run step ok s₀ acts s → ok s a → step s a = some t → Run step ok s₀ (acts ++ [a]) t

/-- The guard that allows every action. -/
def anyStep : σ → α → Prop := fun _ _ => True

/-- `P` holds in every state that the actions lead through, the first and the last included. -/
def Throughout (step : σ → α → Option σ) (s₀ : σ) (acts : List α) (P : List α → σ → Prop) : Prop :=
  ∀ acts' s, acts' <+: acts → Run step anyStep s₀ acts' s → P acts' s

def exec (step : σ → α → Option σ) (s : σ) : List α → Option σ
  | [] => some s
  | a :: as => (step s a).bind fun t => exec step t as

namespace Run
variable {step : σ → α → Option σ} {ok ok' : σ → α → Prop} {s₀ s t : σ} {acts : List α}

theorem single {a : α} (hok : ok s₀ a) (hstep : step s₀ a = some s) : Run step ok s₀ [a] s :=
  show Run step ok s₀ ([] ++ [a]) s from .snoc .nil hok hstep

theorem cons {a : α} (hok : ok s₀ a) (hstep : step s₀ a = some s) (h : Run step ok s acts t) :
    Run step ok s₀ (a :: acts) t := by
  induction h with
  | nil => exact single hok hstep
  | snoc _ hok' hstep' ih => exact .snoc ih hok' hstep'

theorem append {bs : List α} (h : Run step ok s₀ acts s) (h' : Run step ok s bs t) :
    Run step ok s₀ (acts ++ bs) t := by
  induction h' with
  | nil => simpa using h
  | snoc _ hok hstep ih => simpa only [List.append_assoc] using Run.snoc ih hok hstep

theorem weaken (hw : ∀ s a, ok s a → ok' s a) (h : Run step ok s₀ acts s) :
    Run step ok' s₀ acts s := by
  induction h with
  | nil => exact .nil
  | snoc _ hok hstep ih => exact .snoc ih (hw _ _ hok) hstep

/-- What holds initially and is kept by every allowed step holds in every state reached. -/
theorem invariant (P : σ → Prop) (init : P s₀)
    (keep : ∀ s a t, P s → ok s a → step s a = some t → P t)
    (h : Run step ok s₀ acts s) : P s := by
  induction h with
  | nil => exact init
  | snoc _ hok hstep ih => exact keep _ _ _ ih hok hstep

/-- The same rule for a property of the state and of the actions taken so far. -/
theorem invariant_hist (P : List α → σ → Prop) (init : P [] s₀)
    (keep : ∀ acts s a t, P acts s → ok s a → step s a = some t → P (acts ++ [a]) t)
    (h : Run step ok s₀ acts s) : P acts s := by
  induction h with
  | nil => exact init
  | snoc _ hok hstep ih => exact keep _ _ _ _ ih hok hstep

theorem of_exec (hok : ∀ a ∈ acts, ∀ s, ok s a) (h : exec step s₀ acts = some s) :
    Run step ok s₀ acts s := by
  induction acts generalizing s₀ with
  | nil =>
    obtain rfl : s₀ = s := by simpa [exec] using h
    exact .nil
  | cons a as ih =>
    obtain ⟨t, hstep, hrest⟩ := Option.bind_eq_some_iff.mp h
    exact .cons (hok a (by simp) s₀) hstep (ih (fun b hb => hok b (by simp [hb])) hrest)

/-- The test may rely on what every step of the run keeps. -/
theorem of_exec_inv (I : σ → Prop) (chk : σ → α → Bool) (init : I s₀)
    (keep : ∀ a ∈ acts, ∀ s t, I s → step s a = some t → I t)
    (hok : ∀ a ∈ acts, ∀ s, I s → chk s a → ok s a)
    (h : exec (fun s a => if chk s a then step s a else none) s₀ acts = some s) :
    Run step ok s₀ acts s := by
  induction acts generalizing s₀ with
  | nil =>
    obtain rfl : s₀ = s := by simpa [exec] using h
    exact .nil
  | cons a as ih =>
    obtain ⟨t, hstep, hrest⟩ := Option.bind_eq_some_iff.mp h
    dsimp only at hstep
    split at hstep
    · next hchk =>
      have hmem : a ∈ a :: as := List.mem_cons_self
      refine .cons (hok a hmem s₀ init hchk) hstep (ih (keep a hmem _ _ init hstep) ?_ ?_ hrest)
      · exact fun b hb => keep b (List.mem_cons_of_mem a hb)
      · exact fun b hb => hok b (List.mem_cons_of_mem a hb)
    · cases hstep

theorem of_exec_guard (chk : σ → α → Bool) (hok : ∀ a ∈ acts, ∀ s, chk s a → ok s a)
    (h : exec (fun s a => if chk s a then step s a else none) s₀ acts = some s) :
    Run step ok s₀ acts s :=
  of_exec_inv (fun _ => True) chk trivial (fun _ _ _ _ _ _ => trivial) (fun a ha s _ => hok a ha s) h

theorem snoc_inv {a : α} (h : Run step ok s₀ (acts ++ [a]) t) :
    ∃ s, Run step ok s₀ acts s ∧ ok s a ∧ step s a = some t := by
  generalize hall : acts ++ [a] = all at h
  cases h with
  | nil => simp at hall
  | @snoc acts' a' s _ h hok hstep =>
    obtain ⟨rfl, hlast⟩ := List.append_inj' hall rfl
    obtain rfl : a = a' := by simpa using hlast
    exact ⟨s, h, hok, hstep⟩

theorem unique (h : Run step ok s₀ acts s) (h' : Run step ok' s₀ acts t) : s = t := by
  induction h generalizing t with
  | nil =>
    generalize hnil : ([] : List α) = acts at h'
    cases h' with
    | nil => rfl
    | snoc => simp at hnil
  | snoc _ _ hstep ih =>
    obtain ⟨s', hrun, -, hstep'⟩ := snoc_inv h'
    obtain rfl := ih hrun
    exact Option.some.inj (hstep.symm.trans hstep')

/-- If a step keeps `P` exactly when it is allowed, and `P` is never regained, then `P` holds at the
end of a run exactly when all its steps were allowed. -/
theorem holds_iff (I P : σ → Prop) (inv : I s₀) (init : P s₀)
    (keep : ∀ s a t, I s → step s a = some t → I t)
    (hiff : ∀ s a t, I s → step s a = some t → (P t ↔ P s ∧ ok s a))
    (h : Run step anyStep s₀ acts s) : P s ↔ Run step ok s₀ acts s := by
  have hI : I s := h.invariant I inv fun s a t hs _ hstep => keep s a t hs hstep
  induction h with
  | nil => exact ⟨fun _ => .nil, fun _ => init⟩
  | @snoc acts a s t h _ hstep ih =>
    have hs : I s := h.invariant I inv fun s a t hs _ hstep => keep s a t hs hstep
    refine (hiff s a t hs hstep).trans ⟨?_, ?_⟩
    · rintro ⟨hP, hok⟩
      exact .snoc ((ih hs).mp hP) hok hstep
    · intro hrun
      obtain ⟨s', hrun', hok, -⟩ := snoc_inv hrun
      obtain rfl := unique h hrun'
      exact ⟨(ih hs).mpr hrun', hok⟩

theorem of_prefix {acts' : List α} (h : Run step ok s₀ acts s) (hpre : acts' <+: acts) :
    ∃ s', Run step ok s₀ acts' s' := by
  induction h with
  | nil =>
    obtain rfl := List.prefix_nil.mp hpre
    exact ⟨s₀, .nil⟩
  | snoc hrun hok hstep ih =>
    rcases List.prefix_concat_iff.mp hpre with rfl | hpre
    · exact ⟨_, .snoc hrun hok hstep⟩
    · exact ih hpre

/-- If the allowed steps keep an invariant under which `P` holds, and every other step from it
breaks `P`, then `P` holds all the way exactly when all steps of a run were allowed. -/
theorem throughout_iff (I P : List α → σ → Prop) (init : I [] s₀) (holds : ∀ acts s, I acts s → P acts s)
    (keep : ∀ acts s a t, I acts s → ok s a → step s a = some t → I (acts ++ [a]) t)
    (breaks : ∀ acts s a t, I acts s → ¬ok s a → step s a = some t → ¬P (acts ++ [a]) t)
    (h : Run step anyStep s₀ acts s) :
    Throughout step s₀ acts P ↔ Run step ok s₀ acts s := by
  constructor
  · intro hall
    induction h with
    | nil => exact .nil
    | @snoc acts a s t h _ hstep ih =>
      have hrun := ih fun acts' s' hpre => hall acts' s' (hpre.trans (List.prefix_append _ _))
      have hI : I acts s := hrun.invariant_hist I init keep
      refine .snoc hrun ?_ hstep
      by_contra hok
      exact breaks acts s a t hI hok hstep (hall _ t List.prefix_rfl (.snoc h trivial hstep))
  · intro hrun acts' s' hpre h'
    obtain ⟨s'', hrun'⟩ := hrun.of_prefix hpre
    obtain rfl := unique hrun' h'
    exact holds _ _ (hrun'.invariant_hist I init keep)

/-- A relation to another system that every allowed step keeps, by steps of the other system that
show the same, is kept by every run. -/
theorem simulate {τ β γ : Type*} {step' : τ → β → Option τ} {oks : τ → β → Prop} {t₀ : τ}
    (R : σ → τ → Prop) (see : α → List γ) (see' : β → List γ) (init : R s₀ t₀)
    (sim : ∀ s a s' t, R s t → ok s a → step s a = some s' →
      ∃ bs t', Run step' oks t bs t' ∧ bs.flatMap see' = see a ∧ R s' t')
    (h : Run step ok s₀ acts s) :
    ∃ bs t, Run step' oks t₀ bs t ∧ bs.flatMap see' = acts.flatMap see ∧ R s t := by
  induction h with
  | nil => exact ⟨[], t₀, .nil, rfl, init⟩
  | snoc _ hok hstep ih =>
    obtain ⟨bs, t, hrun, hsee, hR⟩ := ih
    obtain ⟨bs', t', hrun', hsee', hR'⟩ := sim _ _ _ _ hR hok hstep
    refine ⟨bs ++ bs', t', hrun.append hrun', ?_, hR'⟩
    rw [List.flatMap_append, List.flatMap_append, hsee, hsee', List.flatMap_singleton]

end Run
end TcpLib.Transition
