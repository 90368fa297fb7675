import Mathlib.Order.BooleanAlgebra.Set

/-!
# Programs checked against known facts

Every instruction of a program needs some facts, drops some and gives some. A program checks from a
set of known facts when each of its instructions finds what it needs. Knowing more does no harm.
-/

namespace TcpLib

structure FactRules (ι φ : Type*) where
  needs : ι → Set φ
  drops : ι → Set φ
  gives : ι → Set φ

namespace FactRules
variable {ι φ : Type*} (R : FactRules ι φ) {known known' : Set φ} {i : ι} {prog rest : List ι}

def after (known : Set φ) (i : ι) : Set φ := (known \ R.drops i) ∪ R.gives i

def Checks (known : Set φ) : List ι → Prop
  | [] => True
  | i :: rest => R.needs i ⊆ known ∧ Checks (R.after known i) rest

variable {R}

theorem after_mono (h : known ⊆ known') : R.after known i ⊆ R.after known' i :=
  Set.union_subset_union_left _ (Set.sdiff_subset_sdiff_left h)

theorem after_subset (h : R.gives i ⊆ known) : R.after known i ⊆ known :=
  Set.union_subset Set.sdiff_subset h

theorem subset_after (h : R.drops i = ∅) : known ⊆ R.after known i := by
  rw [after, h, Set.sdiff_empty]
  exact Set.subset_union_left

theorem Checks.mono (hc : R.Checks known prog) (h : known ⊆ known') : R.Checks known' prog := by
  induction prog generalizing known known' with
  | nil => trivial
  | cons i rest ih => exact ⟨hc.1.trans h, ih hc.2 (after_mono h)⟩

/-- The facts that no instruction drops are known after the whole program. -/
theorem checks_append_of_kept {kept : Set φ} (hprog : R.Checks known prog) (hkept : kept ⊆ known)
    (hdrops : ∀ i ∈ prog, ∀ fact ∈ kept, fact ∉ R.drops i) (hrest : R.Checks kept rest) :
    R.Checks known (prog ++ rest) := by
  induction prog generalizing known with
  | nil => exact hrest.mono hkept
  | cons i prog ih =>
    refine ⟨hprog.1, ih hprog.2 ?_ fun j hj => hdrops j (List.mem_cons_of_mem i hj)⟩
    intro fact hfact
    exact Or.inl ⟨hkept hfact, hdrops i List.mem_cons_self fact hfact⟩

end FactRules
end TcpLib
