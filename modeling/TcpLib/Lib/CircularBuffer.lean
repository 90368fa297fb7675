import Mathlib.Tactic.Common
import Mathlib.Data.List.Basic
import Mathlib.Data.Nat.ModEq
import Mathlib.Logic.Function.Basic

/-!
# A circular buffer that leaves one slot free

`Holds slot cap r w xs` says that the slots from `r` up to `w`, modulo `cap`, hold
exactly the items `xs` in order and that every other slot is empty. One slot always
stays free, so `r = w` means that the buffer is empty and `(w + 1) % cap = r` that it
is full.
-/

namespace TcpLib.CircularBuffer
variable {β : Type*}

structure Holds (slot : ℕ → Option β) (cap r w : ℕ) (xs : List β) : Prop where
  length_lt : xs.length < cap
  read_lt : r < cap
  write_eq : w = (r + xs.length) % cap
  get : ∀ i (h : i < xs.length), slot ((r + i) % cap) = some xs[i]
  free : ∀ j < cap, (∀ i < xs.length, j ≠ (r + i) % cap) → slot j = none

/-- The items from `r` up to `w`, as far as the slots are filled. -/
def contents (slot : ℕ → Option β) (cap r w : ℕ) : List β :=
  (List.range ((w + cap - r) % cap)).filterMap fun i => slot ((r + i) % cap)

theorem mod_add_inj {cap r i j : ℕ} (hi : i < cap) (hj : j < cap)
    (h : (r + i) % cap = (r + j) % cap) : i = j := by
  have hmod : i % cap = j % cap := Nat.ModEq.add_left_cancel' r h
  rwa [Nat.mod_eq_of_lt hi, Nat.mod_eq_of_lt hj] at hmod

/-- In a window of `cap` positions every position has a slot of its own. -/
theorem window_inj {cap lo a b : ℕ} (ha : lo ≤ a) (ha' : a < lo + cap) (hb : lo ≤ b)
    (hb' : b < lo + cap) (h : a % cap = b % cap) : a = b := by
  obtain ⟨i, rfl⟩ := Nat.exists_eq_add_of_le ha
  obtain ⟨j, rfl⟩ := Nat.exists_eq_add_of_le hb
  rw [mod_add_inj (by omega) (by omega) h]

theorem add_mod_ne {cap r i : ℕ} (hr : r < cap) (hpos : 0 < i) (hi : i < cap) :
    (r + i) % cap ≠ r := by
  intro he
  have hmod : (r + i) % cap = (r + 0) % cap := by rw [he, Nat.add_zero, Nat.mod_eq_of_lt hr]
  have hzero : i = 0 := mod_add_inj hi (by omega) hmod
  omega

theorem filterMap_range_getElem? (xs : List β) :
    (List.range xs.length).filterMap (fun i => xs[i]?) = xs := by
  induction xs with
  | nil => rfl
  | cons x xs ih =>
    rw [List.length_cons, List.range_succ_eq_map, List.filterMap_cons, List.filterMap_map]
    simpa using ih

namespace Holds
variable {slot : ℕ → Option β} {cap r w : ℕ} {xs : List β}

theorem empty (slot : ℕ → Option β) {cap : ℕ} (hcap : 0 < cap)
    (hslot : ∀ j < cap, slot j = none) : Holds slot cap 0 0 [] where
  length_lt := hcap
  read_lt := hcap
  write_eq := by simp
  get := by simp
  free := fun j hj _ => hslot j hj

theorem cap_pos (h : Holds slot cap r w xs) : 0 < cap := Nat.zero_lt_of_lt h.read_lt

theorem write_lt (h : Holds slot cap r w xs) : w < cap := by
  rw [h.write_eq]
  exact Nat.mod_lt _ h.cap_pos

theorem distance (h : Holds slot cap r w xs) : (w + cap - r) % cap = xs.length := by
  have hr := h.read_lt
  have hn := h.length_lt
  rw [h.write_eq]
  rcases Nat.lt_or_ge (r + xs.length) cap with hlt | hge
  · rw [Nat.mod_eq_of_lt hlt, show r + xs.length + cap - r = xs.length + cap by omega,
      Nat.add_mod_right, Nat.mod_eq_of_lt hn]
  · rw [Nat.mod_eq_sub_mod hge, Nat.mod_eq_of_lt (a := r + xs.length - cap) (by omega),
      show r + xs.length - cap + cap - r = xs.length by omega, Nat.mod_eq_of_lt hn]

theorem contents_eq (h : Holds slot cap r w xs) : contents slot cap r w = xs := by
  rw [contents, h.distance]
  have hslots : ∀ i ∈ List.range xs.length, slot ((r + i) % cap) = xs[i]? := by
    intro i hi
    have hlt : i < xs.length := by simpa using hi
    rw [h.get i hlt, List.getElem?_eq_getElem hlt]
  rw [List.filterMap_congr hslots, filterMap_range_getElem?]

theorem eq_iff_nil (h : Holds slot cap r w xs) : w = r ↔ xs = [] := by
  have hd := h.distance
  have hr := h.read_lt
  constructor
  · rintro rfl
    rw [Nat.add_sub_cancel_left, Nat.mod_self] at hd
    exact List.eq_nil_of_length_eq_zero hd.symm
  · rintro rfl
    simpa [Nat.mod_eq_of_lt hr] using h.write_eq

/-- The full test compares the slot after the write position with the read position. -/
theorem next_eq_iff_full (h : Holds slot cap r w xs) :
    (w + 1) % cap = r ↔ xs.length + 1 = cap := by
  have hr := h.read_lt
  have hn := h.length_lt
  rw [h.write_eq, Nat.mod_add_mod, Nat.add_assoc]
  constructor
  · intro heq
    by_contra hne
    exact add_mod_ne hr (Nat.succ_pos _) (by omega) heq
  · intro heq
    rw [heq, Nat.add_mod_right, Nat.mod_eq_of_lt hr]

theorem push (h : Holds slot cap r w xs) (hroom : xs.length + 1 < cap) (x : β) :
    Holds (Function.update slot w (some x)) cap r ((w + 1) % cap) (xs ++ [x]) where
  length_lt := by simpa using hroom
  read_lt := h.read_lt
  write_eq := by rw [h.write_eq, Nat.mod_add_mod]; simp [Nat.add_assoc]
  get := by
    intro i hi
    rw [h.write_eq]
    rcases Nat.lt_or_ge i xs.length with hlt | hge
    · have hne : (r + i) % cap ≠ (r + xs.length) % cap := fun he =>
        Nat.ne_of_lt hlt (mod_add_inj (by omega) (by omega) he)
      rw [Function.update_of_ne hne, h.get i hlt, List.getElem_append_left hlt]
    · obtain rfl : i = xs.length := by simp at hi; omega
      simp
  free := by
    intro j hj hout
    have hjw : j ≠ w := by rw [h.write_eq]; exact hout xs.length (by simp)
    rw [Function.update_of_ne hjw]
    exact h.free j hj fun i hi => hout i (by simp; omega)

theorem head {x : β} (h : Holds slot cap r w (x :: xs)) : slot r = some x := by
  have hget := h.get 0 (by simp)
  rwa [Nat.add_zero, Nat.mod_eq_of_lt h.read_lt] at hget

theorem pop {x : β} (h : Holds slot cap r w (x :: xs)) :
    Holds (Function.update slot r none) cap ((r + 1) % cap) w xs where
  length_lt := by have := h.length_lt; simp at this; omega
  read_lt := Nat.mod_lt _ h.cap_pos
  write_eq := by rw [h.write_eq, Nat.mod_add_mod]; simp [Nat.add_assoc, Nat.add_comm 1]
  get := by
    intro i hi
    have hn := h.length_lt
    simp only [List.length_cons] at hn
    have hne : (r + (i + 1)) % cap ≠ r := add_mod_ne h.read_lt (Nat.succ_pos i) (by omega)
    rw [Nat.mod_add_mod, Nat.add_assoc, Nat.add_comm 1 i, Function.update_of_ne hne]
    exact h.get (i + 1) (by simpa using hi)
  free := by
    intro j hj hout
    by_cases hjr : j = r
    · simp [hjr]
    · rw [Function.update_of_ne hjr]
      apply h.free j hj
      intro i hi
      cases i with
      | zero => rwa [Nat.add_zero, Nat.mod_eq_of_lt h.read_lt]
      | succ i =>
        have := hout i (by simpa using hi)
        rwa [Nat.mod_add_mod, Nat.add_assoc, Nat.add_comm 1 i] at this

theorem set_head {x : β} (h : Holds slot cap r w (x :: xs)) (y : β) :
    Holds (Function.update slot r (some y)) cap r w (y :: xs) where
  length_lt := h.length_lt
  read_lt := h.read_lt
  write_eq := h.write_eq
  get := by
    intro i hi
    cases i with
    | zero => simp [Nat.mod_eq_of_lt h.read_lt]
    | succ i =>
      have hn := h.length_lt
      simp only [List.length_cons] at hn hi
      have hne : (r + (i + 1)) % cap ≠ r := add_mod_ne h.read_lt (Nat.succ_pos i) (by omega)
      rw [Function.update_of_ne hne]
      exact h.get (i + 1) (by simpa using hi)
  free := by
    intro j hj hout
    have hjr : j ≠ r := by simpa [Nat.mod_eq_of_lt h.read_lt] using hout 0 (by simp)
    rw [Function.update_of_ne hjr]
    exact h.free j hj hout

theorem isSome_iff (h : Holds slot cap r w xs) {j : ℕ} (hj : j < cap) :
    (slot j).isSome ↔ ∃ i < xs.length, j = (r + i) % cap := by
  constructor
  · intro hs
    by_contra hout
    push Not at hout
    simp [h.free j hj hout] at hs
  · rintro ⟨i, hi, rfl⟩
    simp [h.get i hi]

end Holds
end TcpLib.CircularBuffer
