import Mathlib.Data.List.Nodup
import Mathlib.Data.List.Induction
import Mathlib.Tactic.Common

/-!
# Items dealt out in turn

The items of a list are dealt to `n` lanes in turn, the first one to the lane with number `1 % n`. A
lane keeps the order of the list, and an item that is in the list once is in one lane only.
-/

namespace TcpLib
variable {T : Type*}

/-- What lane `w` gets of a list. -/
def lane (n w : ℕ) (l : List T) : List T :=
  l.zipIdx.filterMap fun x => if (x.2 + 1) % n = w then some x.1 else none

variable {n w w' : ℕ} {l : List T} {x : T}

@[simp] theorem lane_nil (n w : ℕ) : lane n w ([] : List T) = [] := rfl

theorem lane_concat (n w : ℕ) (l : List T) (x : T) :
    lane n w (l ++ [x]) = lane n w l ++ if (l.length + 1) % n = w then [x] else [] := by
  unfold lane
  rw [List.zipIdx_append, List.filterMap_append]
  congr 1
  by_cases h : (l.length + 1) % n = w <;> simp [h]

theorem mem_lane : x ∈ lane n w l ↔ ∃ j, l[j]? = some x ∧ (j + 1) % n = w := by
  unfold lane
  rw [List.mem_filterMap]
  constructor
  · rintro ⟨⟨y, j⟩, hmem, heq⟩
    split_ifs at heq with hj
    obtain rfl := Option.some.inj heq
    exact ⟨j, List.mem_zipIdx_iff_getElem?.mp hmem, hj⟩
  · rintro ⟨j, hget, hj⟩
    exact ⟨(x, j), List.mem_zipIdx_iff_getElem?.mpr hget, if_pos hj⟩

theorem lane_sublist (n w : ℕ) (l : List T) : (lane n w l).Sublist l := by
  induction l using List.reverseRecOn with
  | nil => exact .slnil
  | append_singleton l x ih =>
    rw [lane_concat]
    apply ih.append
    split_ifs
    · exact .refl _
    · exact List.nil_sublist _

theorem lane_unique (hl : l.Nodup) (hx : x ∈ lane n w l) (hx' : x ∈ lane n w' l) : w = w' := by
  obtain ⟨j, hj, rfl⟩ := mem_lane.mp hx
  obtain ⟨j', hj', rfl⟩ := mem_lane.mp hx'
  have hlt := (List.getElem?_eq_some_iff.mp hj).1
  rw [(List.getElem?_inj hlt hl).mp (hj.trans hj'.symm)]

end TcpLib
