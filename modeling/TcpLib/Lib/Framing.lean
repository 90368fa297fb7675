import Mathlib.Tactic.Common
import Mathlib.Data.List.Basic

/-!
# Greedy reading of a prefix code

A `PrefixCode` encodes items as non-empty lists of symbols and finds the item at the
start of an input, if one is complete there. `split` reads items as long as it can.
Reading a longer input is the same as reading its first part and then what was left
together with the rest, so the items found do not depend on how the input was cut.
-/

namespace TcpLib.Framing
variable {α β : Type*}

structure PrefixCode (β α : Type*) where
  encode : β → List α
  next : List α → Option β
  encode_ne_nil : ∀ b, encode b ≠ []
  next_eq_some : ∀ {p b}, next p = some b ↔ encode b <+: p

namespace PrefixCode
variable (c : PrefixCode β α)

theorem length_encode_pos (b : β) : 0 < (c.encode b).length :=
  List.length_pos_iff.mpr (c.encode_ne_nil b)

/-- The complete items at the start of the input and what follows them. -/
def split (p : List α) : List β × List α :=
  match _ : c.next p with
  | none => ([], p)
  | some b =>
    let r := split (p.drop (c.encode b).length)
    (b :: r.1, r.2)
termination_by p.length
decreasing_by
  have hle := (c.next_eq_some.mp ‹c.next p = some b›).length_le
  have hpos := c.length_encode_pos b
  simp only [List.length_drop]
  omega

/-- The encoding of a sequence of items. -/
def encodeAll (bs : List β) : List α := bs.flatMap c.encode

@[simp] theorem encodeAll_nil : c.encodeAll [] = [] := rfl

@[simp] theorem encodeAll_cons (b : β) (bs : List β) :
    c.encodeAll (b :: bs) = c.encode b ++ c.encodeAll bs := rfl

@[simp] theorem encodeAll_append (bs bs' : List β) :
    c.encodeAll (bs ++ bs') = c.encodeAll bs ++ c.encodeAll bs' := List.flatMap_append

theorem next_encode_append (b : β) (q : List α) : c.next (c.encode b ++ q) = some b :=
  c.next_eq_some.mpr (List.prefix_append _ _)

theorem next_eq_none_of_prefix {p q : List α} (hp : p <+: q) (hq : c.next q = none) :
    c.next p = none := by
  cases h : c.next p with
  | none => rfl
  | some b =>
    have hb := c.next_eq_some.mpr ((c.next_eq_some.mp h).trans hp)
    rw [hq] at hb
    cases hb

theorem split_of_none {p : List α} (h : c.next p = none) : c.split p = ([], p) := by
  rw [split]
  split
  · rfl
  · next b hb => simp [h] at hb

theorem split_encode_append (b : β) (q : List α) :
    c.split (c.encode b ++ q) = (b :: (c.split q).1, (c.split q).2) := by
  rw [split]
  split
  · next h => simp [c.next_encode_append b q] at h
  · next b' h =>
    obtain rfl : b = b' := by simpa [c.next_encode_append b q] using h
    simp

@[simp] theorem split_nil : c.split [] = ([], []) := by
  apply c.split_of_none
  cases h : c.next [] with
  | none => rfl
  | some b => exact absurd (List.prefix_nil.mp (c.next_eq_some.mp h)) (c.encode_ne_nil b)

theorem split_induction {P : List α → Prop} (stuck : ∀ p, c.next p = none → P p)
    (item : ∀ b q, P q → P (c.encode b ++ q)) (p : List α) : P p := by
  cases h : c.next p with
  | none => exact stuck p h
  | some b =>
    obtain ⟨q, hq⟩ := c.next_eq_some.mp h
    exact hq ▸ item b q (split_induction stuck item q)
termination_by p.length
decreasing_by
  have hpos := c.length_encode_pos b
  have hlen := congrArg List.length hq
  rw [List.length_append] at hlen
  omega

theorem encodeAll_split (p : List α) : c.encodeAll (c.split p).1 ++ (c.split p).2 = p := by
  induction p using c.split_induction with
  | stuck p h => simp [c.split_of_none h]
  | item b q ih => simp [c.split_encode_append, ih]

theorem split_snd_eq_drop (p : List α) : (c.split p).2 = p.drop (c.encodeAll (c.split p).1).length := by
  have hall := c.encodeAll_split p
  generalize c.split p = r at *
  rw [← hall, List.drop_left]

theorem next_rest (p : List α) : c.next (c.split p).2 = none := by
  induction p using c.split_induction with
  | stuck p h => simpa [c.split_of_none h] using h
  | item b q ih => simpa [c.split_encode_append] using ih

/-- Reading incrementally gives the same items as reading everything at once. -/
theorem split_append (p q : List α) :
    c.split (p ++ q) =
      ((c.split p).1 ++ (c.split ((c.split p).2 ++ q)).1, (c.split ((c.split p).2 ++ q)).2) := by
  induction p using c.split_induction with
  | stuck p h => simp [c.split_of_none h]
  | item b p ih => simp [List.append_assoc, c.split_encode_append, ih]

theorem split_encodeAll_append (bs : List β) (q : List α) :
    c.split (c.encodeAll bs ++ q) = (bs ++ (c.split q).1, (c.split q).2) := by
  induction bs with
  | nil => simp
  | cons b bs ih => simp [List.append_assoc, c.split_encode_append, ih]

theorem split_encodeAll (bs : List β) : c.split (c.encodeAll bs) = (bs, []) := by
  simpa using c.split_encodeAll_append bs []

theorem next_proper_prefix {b : β} {p : List α} (hp : p <+: c.encode b)
    (hlt : p.length < (c.encode b).length) : c.next p = none := by
  cases h : c.next p with
  | none => rfl
  | some b' =>
    have hpre := (c.next_eq_some.mp h).trans hp
    have hb : c.next (c.encode b) = some b' := c.next_eq_some.mpr hpre
    have hb' : c.next (c.encode b) = some b := c.next_eq_some.mpr List.prefix_rfl
    obtain rfl : b = b' := by simpa [hb'] using hb
    have := (c.next_eq_some.mp h).length_le
    omega

/-! ## The items that lie inside a prefix of an encoded sequence -/

/-- The items of the sequence whose encoding lies in its first `n` symbols. -/
def complete : List β → ℕ → List β
  | [], _ => []
  | b :: bs, n =>
    if (c.encode b).length ≤ n then b :: complete bs (n - (c.encode b).length) else []

/-- Reading a prefix of an encoded sequence gives the items that are complete in it. -/
theorem split_prefix {bs : List β} {p : List α} (hp : p <+: c.encodeAll bs) :
    (c.split p).1 = c.complete bs p.length := by
  induction bs generalizing p with
  | nil =>
    obtain rfl : p = [] := by simpa using hp
    simp [complete]
  | cons b bs ih =>
    rw [encodeAll_cons] at hp
    by_cases hle : (c.encode b).length ≤ p.length
    · obtain ⟨q, rfl⟩ := List.prefix_of_prefix_length_le (List.prefix_append _ _) hp hle
      have hq : q <+: c.encodeAll bs := by simpa using hp
      simp [c.split_encode_append, complete, ih hq]
    · have hpre : p <+: c.encode b :=
        List.prefix_of_prefix_length_le hp (List.prefix_append _ _) (by omega)
      rw [c.split_of_none (c.next_proper_prefix hpre (by omega)), complete, if_neg hle]

/-- What follows the complete items is a proper prefix of the next one. -/
theorem split_prefix_rest {bs : List β} {p : List α} (hp : p <+: c.encodeAll bs) :
    (c.split p).2 = [] ∨ ∃ b post, bs = (c.split p).1 ++ b :: post ∧ (c.split p).2 <+: c.encode b ∧
      (c.split p).2.length < (c.encode b).length := by
  induction bs generalizing p with
  | nil =>
    obtain rfl : p = [] := by simpa using hp
    simp
  | cons b bs ih =>
    rw [encodeAll_cons] at hp
    by_cases hle : (c.encode b).length ≤ p.length
    · obtain ⟨q, rfl⟩ := List.prefix_of_prefix_length_le (List.prefix_append _ _) hp hle
      have hq : q <+: c.encodeAll bs := by simpa using hp
      rw [c.split_encode_append]
      rcases ih hq with hnil | ⟨b', post, hbs, hrest⟩
      · exact Or.inl hnil
      · exact Or.inr ⟨b', post, congrArg (b :: ·) hbs, hrest⟩
    · have hpre : p <+: c.encode b :=
        List.prefix_of_prefix_length_le hp (List.prefix_append _ _) (by omega)
      rw [c.split_of_none (c.next_proper_prefix hpre (by omega))]
      exact Or.inr ⟨b, bs, rfl, hpre, Nat.lt_of_not_le hle⟩

end PrefixCode
end TcpLib.Framing
