import Mathlib.Tactic.Common

/-!
# Ledgers of tokens

A ledger says how often a token is in each place. A step moves some of what is in one place to
another one or drops it. A token that is in one place once stays so when it is moved, and a dropped
token is nowhere.
-/

namespace TcpLib
variable {P : Type*}

/-- The token is in this place, once, and in no other. -/
structure OnlyAt (w : P → ℕ) (p : P) : Prop where
  here : w p = 1
  elsewhere : ∀ r, r ≠ p → w r = 0

namespace Ledger

def Placed (w : P → ℕ) : Prop := ∃ p, OnlyAt w p

/-- The token is nowhere, or in one place once. -/
def AtMostOne (w : P → ℕ) : Prop := (∀ p, w p = 0) ∨ Placed w

/-- `k` are taken from `p` and put to `q`. -/
def Moved [DecidableEq P] (k : ℕ) (p q : P) (w w' : P → ℕ) : Prop :=
  ∀ r, (w' r + if r = p then k else 0) = w r + if r = q then k else 0

/-- `k` are taken from `p`. -/
def Dropped [DecidableEq P] (k : ℕ) (p : P) (w w' : P → ℕ) : Prop :=
  ∀ r, (w' r + if r = p then k else 0) = w r

variable {w w' : P → ℕ} {p q : P} {k : ℕ}

theorem Placed.exists_pos (h : Placed w) : ∃ p, w p ≠ 0 := by
  obtain ⟨p, hp⟩ := h
  exact ⟨p, by rw [hp.here]; exact Nat.one_ne_zero⟩

theorem AtMostOne.onlyAt_of_pos (h : AtMostOne w) (hp : w p ≠ 0) : OnlyAt w p := by
  rcases h with hzero | ⟨q, hq⟩
  · exact absurd (hzero p) hp
  · by_cases hpq : p = q
    · exact hpq ▸ hq
    · exact absurd (hq.elsewhere p hpq) hp

theorem Placed.of_zero_false (h : Placed w) (hzero : ∀ p, w p = 0) : False := by
  obtain ⟨p, hp⟩ := h.exists_pos
  exact hp (hzero p)

/-- What is nowhere stays nowhere, unless it is made. -/
theorem AtMostOne.zero (h : AtMostOne w') (hheld : Placed w' → Placed w) (hzero : ∀ p, w p = 0) (p : P) :
    w' p = 0 := by
  rcases h with hzero' | hheld'
  · exact hzero' p
  · exact ((hheld hheld').of_zero_false hzero).elim

variable [DecidableEq P]

theorem Moved.onlyAt (h : Moved k p q w w') (hw : OnlyAt w p) (hpq : p ≠ q) (hk : k ≠ 0) :
    OnlyAt w' q := by
  have hp := h p
  have hq := h q
  rw [if_pos rfl, if_neg hpq, hw.here] at hp
  rw [if_pos rfl, if_neg (Ne.symm hpq), hw.elsewhere q (Ne.symm hpq)] at hq
  refine ⟨by omega, ?_⟩
  intro r hr
  by_cases hrp : r = p
  · subst hrp
    omega
  · have hr' := h r
    rw [if_neg hrp, if_neg hr, hw.elsewhere r hrp] at hr'
    omega

theorem Moved.eq_of_zero (h : Moved 0 p q w w') : w' = w := by
  funext r
  simpa using h r

theorem Moved.eq_of_self (h : Moved k p p w w') : w' = w := by
  funext r
  have hr := h r
  omega

/-- Moving keeps a token that is there once, and makes none. -/
theorem Moved.spec (h : Moved k p q w w') (hw : AtMostOne w) :
    AtMostOne w' ∧ (Placed w' ↔ Placed w) := by
  by_cases hpq : p = q
  · subst hpq
    rw [h.eq_of_self]
    exact ⟨hw, Iff.rfl⟩
  by_cases hk : k = 0
  · subst hk
    rw [h.eq_of_zero]
    exact ⟨hw, Iff.rfl⟩
  have hp := h p
  rw [if_pos rfl, if_neg hpq] at hp
  have hat : OnlyAt w p := hw.onlyAt_of_pos (by omega)
  have hat' := h.onlyAt hat hpq hk
  exact ⟨Or.inr ⟨q, hat'⟩, fun _ => ⟨p, hat⟩, fun _ => ⟨q, hat'⟩⟩

theorem Dropped.eq_of_zero (h : Dropped 0 p w w') : w' = w := by
  funext r
  simpa using h r

theorem Dropped.spec (h : Dropped k p w w') (hw : AtMostOne w) :
    AtMostOne w' ∧ (Placed w' ↔ Placed w ∧ k = 0) := by
  by_cases hk : k = 0
  · subst hk
    rw [h.eq_of_zero]
    exact ⟨hw, fun hheld => ⟨hheld, rfl⟩, fun hheld => hheld.1⟩
  have hp := h p
  rw [if_pos rfl] at hp
  have hat : OnlyAt w p := hw.onlyAt_of_pos (by omega)
  have hzero (r : P) : w' r = 0 := by
    have hr := h r
    by_cases hrp : r = p
    · subst hrp
      rw [if_pos rfl, hat.here] at hr
      omega
    · rw [if_neg hrp, hat.elsewhere r hrp] at hr
      exact hr
  refine ⟨Or.inl hzero, fun hheld => ?_, fun hheld => absurd hheld.2 hk⟩
  obtain ⟨r, hr⟩ := hheld.exists_pos
  exact absurd (hzero r) hr

/-- Of containers that are listed once each, only the one that has the token adds to its count. -/
theorem count_flatMap_of_only {α β : Type*} [DecidableEq α] [DecidableEq β] {f : α → List β} {b : β}
    {x : α} {l : List α} (hl : l.Nodup) (hother : ∀ y ∈ l, y ≠ x → (f y).count b = 0) :
    (l.flatMap f).count b = if x ∈ l then (f x).count b else 0 := by
  induction l with
  | nil => rfl
  | cons y l ih =>
    obtain ⟨hy, hl⟩ := List.nodup_cons.mp hl
    have hrest := ih hl fun z hz => hother z (List.mem_cons_of_mem y hz)
    rw [List.flatMap_cons, List.count_append, hrest]
    by_cases hyx : y = x
    · subst hyx
      simp [hy]
    · have hzero := hother y List.mem_cons_self hyx
      simp [hzero, Ne.symm hyx]

end Ledger
end TcpLib
