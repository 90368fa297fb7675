import TcpLib.Lib.CircularBuffer

/-!
# Tickets for the slots of a ring

Threads draw tickets in turn, and the ticket `p` is for the slot `p % cap`. The tickets in the hands
of the threads are all different, and in a window of `cap` tickets every one has its own slot.
-/

namespace TcpLib.TicketRing
variable {θ β : Type*}

/-- The tickets in the hands of the threads, when `next` is the next one to be drawn. -/
structure Drawn (ticket : θ → Option ℕ) (next : ℕ) : Prop where
  distinct : ∀ t t' p, ticket t = some p → ticket t' = some p → t = t'
  lt : ∀ t p, ticket t = some p → p < next

theorem Drawn.ne_next {ticket : θ → Option ℕ} {next : ℕ} (h : Drawn ticket next) (t : θ) :
    ticket t ≠ some next := fun ht => lt_irrefl _ (h.lt t next ht)

variable [DecidableEq θ] {ticket : θ → Option ℕ} {next p : ℕ} {t t' : θ} {o : Option ℕ}

theorem update_eq_some (h : Function.update ticket t o t' = some p) :
    t' = t ∧ o = some p ∨ t' ≠ t ∧ ticket t' = some p := by
  by_cases htt : t' = t
  · subst htt
    rw [Function.update_self] at h
    exact Or.inl ⟨rfl, h⟩
  · rw [Function.update_of_ne htt] at h
    exact Or.inr ⟨htt, h⟩

/-- A thread that keeps its ticket or gives it back takes none. -/
theorem held_of_update (h : Function.update ticket t o t' = some p) (ho : o = ticket t ∨ o = none) :
    ticket t' = some p := by
  rcases update_eq_some h with ⟨rfl, hp⟩ | ⟨-, h⟩
  · rcases ho with rfl | rfl
    · exact hp
    · cases hp
  · exact h

theorem unheld_of_update (hne : ticket t ≠ some p)
    (h : ∀ t', Function.update ticket t o t' ≠ some p) (t' : θ) : ticket t' ≠ some p := by
  intro ht'
  have htt : t' ≠ t := by
    rintro rfl
    exact hne ht'
  exact h t' ((Function.update_of_ne htt ..).trans ht')

namespace Drawn

theorem draw (h : Drawn ticket next) (t : θ) :
    Drawn (Function.update ticket t (some next)) (next + 1) := by
  constructor
  · intro t₁ t₂ p h₁ h₂
    rcases update_eq_some h₁ with ⟨ht₁, hp⟩ | ⟨-, h₁⟩ <;>
      rcases update_eq_some h₂ with ⟨ht₂, hp'⟩ | ⟨-, h₂⟩
    · rw [ht₁, ht₂]
    · exact absurd (hp ▸ h₂) (h.ne_next t₂)
    · exact absurd (hp' ▸ h₁) (h.ne_next t₁)
    · exact h.distinct t₁ t₂ p h₁ h₂
  · intro t' p ht'
    rcases update_eq_some ht' with ⟨-, hp⟩ | ⟨-, ht'⟩
    · exact Nat.lt_succ_of_le (Option.some.inj hp).ge
    · exact Nat.lt_succ_of_lt (h.lt t' p ht')

theorem keep (h : Drawn ticket next) (ho : o = ticket t ∨ o = none) :
    Drawn (Function.update ticket t o) next :=
  ⟨fun t₁ t₂ p h₁ h₂ => h.distinct t₁ t₂ p (held_of_update h₁ ho) (held_of_update h₂ ho),
    fun t' p ht' => h.lt t' p (held_of_update ht' ho)⟩

end Drawn

/-- An entry before the end of a log that was appended to. -/
theorem getElem?_concat_of_ne {log : List β} {b : β} (hne : p ≠ log.length) :
    (log ++ [b])[p]? = log[p]? := by
  rcases Nat.lt_or_gt_of_ne hne with hlt | hgt
  · exact List.getElem?_append_left hlt
  · rw [List.getElem?_eq_none hgt.le, List.getElem?_eq_none]
    rwa [List.length_append, List.length_singleton]

/-- A write to the slot of one ticket of a window leaves the slots of the others as they are. -/
theorem update_slot_ne {cap lo q : ℕ} (hp : lo ≤ p) (hp' : p < lo + cap) (hq : lo ≤ q)
    (hq' : q < lo + cap) (hne : q ≠ p) (slot : ℕ → β) (b : β) :
    Function.update slot (p % cap) b (q % cap) = slot (q % cap) :=
  Function.update_of_ne (fun h => hne (CircularBuffer.window_inj hq hq' hp hp' h)) b slot

end TcpLib.TicketRing
