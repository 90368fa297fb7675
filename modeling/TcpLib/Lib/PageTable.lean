import Mathlib.Tactic.Common
import Mathlib.Data.List.Basic
import Mathlib.Data.Nat.ModEq

/-!
# A table of pages that are allocated and freed on demand

Pages are numbered in the order of their allocation, so that a page that was freed is never taken
for a later one. Reading, writing or freeing a page that is not live has no result. `slot` is what
the table shows at an entry and an offset, and each operation is described by its effect on it.
-/

namespace TcpLib
variable {S : Type*}

structure PageTable (S : Type*) where
  entry : ℕ → Option ℕ := fun _ => none
  page : ℕ → Option (ℕ → S) := fun _ => none
  next : ℕ := 0
  freed : List ℕ := []

namespace PageTable

/-- The page of an entry, allocated and filled with `zero` if there is none. -/
def getPage (t : PageTable S) (zero : S) (e : ℕ) : PageTable S × ℕ :=
  match t.entry e with
  | some p => (t, p)
  | none =>
    ({ t with
      entry := Function.update t.entry e (some t.next)
      page := Function.update t.page t.next (some fun _ => zero)
      next := t.next + 1 }, t.next)

def read (t : PageTable S) (p j : ℕ) : Option S := (t.page p).map fun slots => slots j

def modify (t : PageTable S) (p j : ℕ) (f : S → S) : Option (PageTable S) :=
  (t.page p).map fun slots =>
    { t with page := Function.update t.page p (some (Function.update slots j (f (slots j)))) }

/-- Freeing a page leaves its number under the entry until the entry is cleared. -/
def delete (t : PageTable S) (p : ℕ) : Option (PageTable S) :=
  (t.page p).map fun _ =>
    { t with page := Function.update t.page p none, freed := t.freed ++ [p] }

def clear (t : PageTable S) (e : ℕ) : PageTable S :=
  { t with entry := Function.update t.entry e none }

/-- Freeing the page of an entry, if there is one, and clearing the entry. -/
def releaseEntry (t : PageTable S) (e : ℕ) : Option (PageTable S) :=
  match t.entry e with
  | some p => (t.delete p).map fun t => t.clear e
  | none => some t

/-- The loop over `left` entries from `i` on, whose counter must not pass `max`. -/
def releaseFrom (max : ℕ) (t : PageTable S) (i : ℕ) : ℕ → Option (PageTable S)
  | 0 => some t
  | left + 1 => (t.releaseEntry i).bind fun t =>
    if i + 1 ≤ max then releaseFrom max t (i + 1) left else none

/-- Freeing the pages of the entries below `count`. -/
def release (max : ℕ) (t : PageTable S) (count : ℕ) : Option (PageTable S) := t.releaseFrom max 0 count

/-- The entries below `n` in a new table of entries. -/
def copyEntries (t : PageTable S) (n : ℕ) : PageTable S :=
  { t with entry := fun e => if e < n then t.entry e else none }

/-- What is at an entry and an offset. -/
def slot (t : PageTable S) (e j : ℕ) : Option S :=
  (t.entry e).bind fun p => t.read p j

/-- The entry has no page or a live one. -/
def Live (t : PageTable S) (e : ℕ) : Prop := ∀ p, t.entry e = some p → (t.page p).isSome

/-- Every live page is under exactly one entry, and every other page was freed once. -/
structure WF (t : PageTable S) : Prop where
  entry_lt : ∀ e p, t.entry e = some p → p < t.next
  inj : ∀ e e' p, t.entry e = some p → t.entry e' = some p → e = e'
  held : ∀ p, (t.page p).isSome → ∃ e, t.entry e = some p
  freed_lt : ∀ p ∈ t.freed, p < t.next
  freed : ∀ p ∈ t.freed, t.page p = none
  nodup : t.freed.Nodup
  all : ∀ p < t.next, (t.page p).isSome ∨ p ∈ t.freed

theorem WF.empty : WF ({} : PageTable S) where
  entry_lt := nofun
  inj := nofun
  held := nofun
  freed_lt := by simp
  freed := by simp
  nodup := List.nodup_nil
  all := by simp

variable {t t' : PageTable S} {zero : S} {e e' p : ℕ}

theorem WF.not_mem_freed (h : t.WF) (hp : (t.page p).isSome) : p ∉ t.freed := by
  intro hmem
  rw [h.freed p hmem] at hp
  cases hp

theorem read_eq (he : t.entry e = some p) (j : ℕ) : t.read p j = t.slot e j := by
  simp [slot, he]

/-- A copy that reaches to the last entry in use loses none. -/
theorem copyEntries_eq {n : ℕ} (h : ∀ e p, t.entry e = some p → e < n) : t.copyEntries n = t := by
  have hentry : (fun e => if e < n then t.entry e else none) = t.entry := by
    funext e
    split_ifs with hlt
    · rfl
    · cases he : t.entry e with
      | none => rfl
      | some p => exact absurd (h e p he) hlt
  unfold copyEntries
  rw [hentry]

/-! ### Looking up a page -/

theorem entry_getPage : (t.getPage zero e).1.entry e = some (t.getPage zero e).2 := by
  unfold getPage
  cases he : t.entry e with
  | some p => simp [he]
  | none => simp

theorem entry_getPage_of_some {p : ℕ} (he' : t.entry e' = some p) :
    (t.getPage zero e).1.entry e' = some p := by
  unfold getPage
  cases he : t.entry e with
  | some p => exact he'
  | none =>
    have hne : e' ≠ e := by
      rintro rfl
      rw [he] at he'
      cases he'
    simpa [hne] using he'

theorem entry_getPage_ne (hne : e' ≠ e) : (t.getPage zero e).1.entry e' = t.entry e' := by
  unfold getPage
  cases t.entry e with
  | some p => rfl
  | none => exact Function.update_of_ne hne ..

@[simp] theorem freed_getPage : (t.getPage zero e).1.freed = t.freed := by
  unfold getPage
  cases t.entry e <;> rfl

theorem WF.getPage (h : t.WF) : (t.getPage zero e).1.WF := by
  unfold PageTable.getPage
  cases he : t.entry e with
  | some p => exact h
  | none =>
    constructor
    · intro e' p hp
      by_cases hee : e' = e
      · subst hee
        obtain rfl : t.next = p := by simpa using hp
        exact Nat.lt_succ_self _
      · exact Nat.lt_succ_of_lt (h.entry_lt e' p (by simpa [hee] using hp))
    · intro e₁ e₂ p h₁ h₂
      by_cases he₁ : e₁ = e <;> by_cases he₂ : e₂ = e
      · rw [he₁, he₂]
      · subst he₁
        obtain rfl : t.next = p := by simpa using h₁
        exact absurd (h.entry_lt e₂ _ (by simpa [he₂] using h₂)) (lt_irrefl _)
      · subst he₂
        obtain rfl : t.next = p := by simpa using h₂
        exact absurd (h.entry_lt e₁ _ (by simpa [he₁] using h₁)) (lt_irrefl _)
      · exact h.inj e₁ e₂ p (by simpa [he₁] using h₁) (by simpa [he₂] using h₂)
    · intro p hp
      by_cases hpn : p = t.next
      · exact ⟨e, by simp [hpn]⟩
      · obtain ⟨e', he'⟩ := h.held p (by simpa [hpn] using hp)
        have hne : e' ≠ e := by
          rintro rfl
          rw [he] at he'
          cases he'
        exact ⟨e', by simp [hne, he']⟩
    · intro p hp
      exact Nat.lt_succ_of_lt (h.freed_lt p hp)
    · intro p hp
      simpa [(h.freed_lt p hp).ne] using h.freed p hp
    · exact h.nodup
    · intro p hp
      rcases Nat.lt_succ_iff_lt_or_eq.mp hp with hlt | rfl
      · simpa [hlt.ne] using h.all p hlt
      · simp

theorem Live.getPage (h : t.WF) (hlive : t.Live e') : (t.getPage zero e).1.Live e' := by
  unfold PageTable.getPage
  cases he : t.entry e with
  | some p => exact hlive
  | none =>
    intro p hp
    by_cases hee : e' = e
    · subst hee
      obtain rfl : t.next = p := by simpa using hp
      simp
    · have hp' : t.entry e' = some p := by simpa [hee] using hp
      simpa [(h.entry_lt e' p hp').ne] using hlive p hp'

/-- A page that had to be allocated shows nothing of what was in memory before. -/
theorem slot_getPage (zero : S) (h : t.WF) (hlive : t.Live e) (e' j : ℕ) :
    (t.getPage zero e).1.slot e' j =
      if e' = e then some ((t.slot e j).getD zero) else t.slot e' j := by
  unfold PageTable.getPage slot read
  cases he : t.entry e with
  | some p =>
    split_ifs with hee
    · subst hee
      obtain ⟨slots, hslots⟩ := Option.isSome_iff_exists.mp (hlive p he)
      simp [he, hslots]
    · rfl
  | none =>
    split_ifs with hee
    · subst hee
      simp
    · simp only [Function.update_of_ne hee]
      cases hp : t.entry e' with
      | none => rfl
      | some p => simp [(h.entry_lt e' p hp).ne]

/-- What a slot shows stays as it is, but for its page being allocated. -/
def Shown (zero : S) (before after : Option S) : Prop :=
  after = before ∨ before = none ∧ after = some zero

theorem Shown.of_some {zero m : S} {before after : Option S} (h : Shown zero before after)
    (hm : before = some m) : after = some m := by
  rcases h with heq | ⟨hnone, -⟩
  · rw [heq, hm]
  · rw [hnone] at hm
    cases hm

theorem Shown.blank {zero : S} {before after : Option S} (h : Shown zero before after)
    (hblank : ∀ m, before = some m → m = zero) (m : S) (hm : after = some m) : m = zero := by
  rcases h with heq | ⟨-, hzero⟩
  · exact hblank m (heq ▸ hm)
  · rw [hzero] at hm
    exact (Option.some.inj hm).symm

theorem shown_getPage (zero : S) (h : t.WF) (hlive : t.Live e) (e' j : ℕ) :
    Shown zero (t.slot e' j) ((t.getPage zero e).1.slot e' j) := by
  have hslot := slot_getPage zero h hlive e' j
  split_ifs at hslot with he
  · subst he
    cases hold : t.slot e' j with
    | none =>
      rw [hold] at hslot
      exact Or.inr ⟨rfl, hslot⟩
    | some m =>
      rw [hold] at hslot
      exact Or.inl hslot
  · exact Or.inl hslot

/-! ### Writing and freeing -/

theorem WF.modify (h : t.WF) (he : t.entry e = some p) (hlive : t.Live e) (j : ℕ) (f : S → S) :
    ∃ t', t.modify p j f = some t' ∧ t'.WF ∧ t'.entry = t.entry ∧ t'.freed = t.freed ∧
      (∀ e', t.Live e' → t'.Live e') ∧
      ∀ e' j', t'.slot e' j' = if e' = e ∧ j' = j then (t.slot e j).map f else t.slot e' j' := by
  obtain ⟨slots, hslots⟩ := Option.isSome_iff_exists.mp (hlive p he)
  have hsome (q : ℕ) : ((Function.update t.page p
      (some (Function.update slots j (f (slots j))))) q).isSome = (t.page q).isSome := by
    by_cases hqp : q = p
    · subst hqp
      simp [hslots]
    · simp [hqp]
  refine ⟨{ t with page := Function.update t.page p (some (Function.update slots j (f (slots j)))) },
    ?_, ?_, rfl, rfl, ?_, ?_⟩
  · simp only [PageTable.modify, hslots, Option.map_some]
  · constructor
    · exact h.entry_lt
    · exact h.inj
    · intro q hq
      exact h.held q ((hsome q).symm.trans hq)
    · exact h.freed_lt
    · intro q hq
      have hnone := h.freed q hq
      have hqp : q ≠ p := by
        rintro rfl
        rw [hslots] at hnone
        cases hnone
      simpa [hqp] using hnone
    · exact h.nodup
    · intro q hq
      exact (h.all q hq).imp_left fun hq => (hsome q).trans hq
  · intro e' hlive' q hq
    exact (hsome q).trans (hlive' q hq)
  · intro e' j'
    unfold slot read
    dsimp only
    cases hq : t.entry e' with
    | none =>
      have hne : e' ≠ e := by
        rintro rfl
        rw [he] at hq
        cases hq
      simp [hne]
    | some q =>
      by_cases hqp : q = p
      · subst hqp
        obtain rfl := h.inj e' e q hq he
        by_cases hj : j' = j
        · simp [hq, hslots, hj]
        · simp [hslots, hj]
      · have hne : e' ≠ e := by
          rintro rfl
          exact hqp (Option.some.inj (hq.symm.trans he))
        simp [hqp, hne]

/-- Freeing the page of an entry empties it and no other. -/
theorem WF.delete (h : t.WF) (he : t.entry e = some p) (hlive : t.Live e) :
    ∃ t', t.delete p = some t' ∧ t'.WF ∧ t'.entry = t.entry ∧ t'.freed = t.freed ++ [p] ∧
      t'.page p = none ∧ (∀ e', e' ≠ e → t.Live e' → t'.Live e') ∧
      ∀ e' j, t'.slot e' j = if e' = e then none else t.slot e' j := by
  obtain ⟨slots, hslots⟩ := Option.isSome_iff_exists.mp (hlive p he)
  have hother {e' q : ℕ} (hne : e' ≠ e) (hq : t.entry e' = some q) : q ≠ p := by
    rintro rfl
    exact hne (h.inj e' e q hq he)
  refine ⟨{ t with page := Function.update t.page p none, freed := t.freed ++ [p] },
    by simp only [PageTable.delete, hslots, Option.map_some], ?_, rfl, rfl, by simp, ?_, ?_⟩
  · constructor
    · exact h.entry_lt
    · exact h.inj
    · intro q hq
      have hqp : q ≠ p := by
        rintro rfl
        simp at hq
      exact h.held q (by simpa [hqp] using hq)
    · intro q hq
      rcases List.mem_append.mp hq with hq | hq
      · exact h.freed_lt q hq
      · obtain rfl := List.mem_singleton.mp hq
        exact h.entry_lt e q he
    · intro q hq
      by_cases hqp : q = p
      · simp [hqp]
      · have hmem : q ∈ t.freed := by simpa [hqp] using hq
        simpa [hqp] using h.freed q hmem
    · have hnew : p ∉ t.freed := h.not_mem_freed (hlive p he)
      simpa [List.nodup_append, h.nodup] using fun q hq (hqp : q = p) => hnew (hqp ▸ hq)
    · intro q hq
      by_cases hqp : q = p
      · simp [hqp]
      · simpa [hqp] using h.all q hq
  · intro e' hne hlive' q hq
    simpa [hother hne hq] using hlive' q hq
  · intro e' j'
    unfold slot read
    dsimp only
    split_ifs with hee
    · simp [hee, he]
    · cases hq : t.entry e' with
      | none => rfl
      | some q => simp [hother hee hq]

theorem entry_clear : (t.clear e).entry e = none := by simp [clear]

theorem entry_clear_ne (hne : e' ≠ e) : (t.clear e).entry e' = t.entry e' := by
  simp [clear, hne]

/-- An entry is cleared when its page is gone. -/
theorem WF.clear (h : t.WF) (hdead : ∀ p, t.entry e = some p → t.page p = none) :
    (t.clear e).WF := by
  have hold {e' q : ℕ} (hq : (t.clear e).entry e' = some q) : t.entry e' = some q := by
    have hne : e' ≠ e := by
      rintro rfl
      rw [entry_clear] at hq
      cases hq
    rwa [entry_clear_ne hne] at hq
  constructor
  · intro e' q hq
    exact h.entry_lt e' q (hold hq)
  · intro e₁ e₂ q h₁ h₂
    exact h.inj e₁ e₂ q (hold h₁) (hold h₂)
  · intro q hq
    obtain ⟨e', he'⟩ := h.held q hq
    have hne : e' ≠ e := by
      rintro rfl
      have hq' : (t.page q).isSome := hq
      rw [hdead q he'] at hq'
      cases hq'
    exact ⟨e', (entry_clear_ne hne).trans he'⟩
  · exact h.freed_lt
  · exact h.freed
  · exact h.nodup
  · exact h.all

theorem live_clear : (t.clear e).Live e := by
  intro p hp
  rw [entry_clear] at hp
  cases hp

theorem Live.clear (hlive : t.Live e') : (t.clear e).Live e' := by
  by_cases hee : e' = e
  · exact hee ▸ live_clear
  · intro p hp
    exact hlive p (by rwa [entry_clear_ne hee] at hp)

theorem slot_clear_ne (hne : e' ≠ e) (j : ℕ) : (t.clear e).slot e' j = t.slot e' j := by
  unfold slot
  rw [entry_clear_ne hne]
  rfl

/-! ### Freeing the whole table -/

/-- Every page that was ever allocated was freed exactly once. -/
structure Released (t : PageTable S) (pages : ℕ) : Prop where
  entry : ∀ e, t.entry e = none
  freed : t.freed.Perm (List.range pages)

theorem WF.released (h : t.WF) (hnone : ∀ e, t.entry e = none) : t.Released t.next where
  entry := hnone
  freed := by
    rw [List.perm_ext_iff_of_nodup h.nodup List.nodup_range]
    intro p
    rw [List.mem_range]
    refine ⟨h.freed_lt p, fun hlt => (h.all p hlt).resolve_left fun hlive => ?_⟩
    obtain ⟨e, he⟩ := h.held p hlive
    rw [hnone] at he
    cases he

theorem WF.releaseEntry (h : t.WF) (hlive : ∀ e, t.Live e) (e : ℕ) :
    ∃ t', t.releaseEntry e = some t' ∧ t'.WF ∧ (∀ e, t'.Live e) ∧ t'.next = t.next ∧
      t'.entry = Function.update t.entry e none := by
  unfold PageTable.releaseEntry
  cases he : t.entry e with
  | none => exact ⟨t, rfl, h, hlive, rfl, (Function.update_eq_self_iff.mpr he.symm).symm⟩
  | some p =>
    obtain ⟨t', hdelete, hwf, hentry, -, hdead, hlive', -⟩ := h.delete he (hlive e)
    have hnext : t'.next = t.next := by
      obtain ⟨slots, -, rfl⟩ := Option.map_eq_some_iff.mp hdelete
      rfl
    refine ⟨t'.clear e, ?_, hwf.clear fun p' hp' => ?_, fun e' => ?_, hnext, ?_⟩
    · simp only [hdelete, Option.map_some]
    · rw [hentry, he] at hp'
      rw [← Option.some.inj hp', hdead]
    · by_cases hee : e' = e
      · exact hee ▸ live_clear
      · exact (hlive' e' hee (hlive e')).clear
    · simp only [PageTable.clear, hentry]

theorem WF.releaseFrom {max i left : ℕ} (h : t.WF) (hlive : ∀ e, t.Live e) (hmax : i + left ≤ max) :
    ∃ t', t.releaseFrom max i left = some t' ∧ t'.WF ∧ t'.next = t.next ∧
      ∀ e, t'.entry e = if i ≤ e ∧ e < i + left then none else t.entry e := by
  induction left generalizing t i with
  | zero => exact ⟨t, rfl, h, rfl, fun e => by rw [if_neg (by omega)]⟩
  | succ left ih =>
    obtain ⟨t₁, hentry, hwf, hlive₁, hnext, hupdate⟩ := h.releaseEntry hlive i
    obtain ⟨t', hrest, hwf', hnext', hcleared⟩ := ih (i := i + 1) hwf hlive₁ (by omega)
    refine ⟨t', ?_, hwf', hnext'.trans hnext, fun e => ?_⟩
    · rw [PageTable.releaseFrom, hentry, Option.bind_some, if_pos (by omega), hrest]
    · rw [hcleared, hupdate]
      by_cases hei : e = i
      · subst hei
        rw [if_neg (by omega), if_pos (by omega), Function.update_self]
      · rw [Function.update_of_ne hei]
        exact if_congr (by omega) rfl rfl

/-- The counter passes `max` before the loop is over. -/
theorem releaseFrom_eq_none {max i left : ℕ} (hi : i ≤ max) (hmax : max < i + left) :
    t.releaseFrom max i left = none := by
  induction left generalizing t i with
  | zero => omega
  | succ left ih =>
    rw [PageTable.releaseFrom, Option.bind_eq_none_iff]
    intro t' _
    split_ifs with hle
    · exact ih hle (by omega)
    · rfl

theorem WF.release {count : ℕ} (max : ℕ) (h : t.WF) (hlive : ∀ e, t.Live e)
    (hinside : ∀ e p, t.entry e = some p → e < count) :
    ((t.release max count).isSome ↔ count ≤ max) ∧
      ∀ t', t.release max count = some t' → t'.Released t.next := by
  rcases Nat.lt_or_ge max count with hlt | hle
  · have hnone : t.release max count = none := releaseFrom_eq_none (Nat.zero_le _) (by rwa [Nat.zero_add])
    rw [hnone]
    exact ⟨by simp [hlt], nofun⟩
  · obtain ⟨t', hloop, hwf, hnext, hcleared⟩ := h.releaseFrom hlive (i := 0)
      ((Nat.zero_add count).trans_le hle)
    have hrelease : t.release max count = some t' := hloop
    refine ⟨by simp [hrelease, hle], fun t'' heq => ?_⟩
    obtain rfl := Option.some.inj (hrelease.symm.trans heq)
    rw [← hnext]
    refine hwf.released fun e => ?_
    rw [hcleared]
    split_ifs with hin
    · rfl
    · cases he : t.entry e with
      | none => rfl
      | some p => exact absurd ⟨Nat.zero_le e, by simpa using hinside e p he⟩ hin

end PageTable

/-! ## Places of indexes -/

theorem index_eq {M i j : ℕ} (hpage : i / M = j / M) (hoff : i % M = j % M) : i = j := by
  rw [← Nat.div_add_mod i M, ← Nat.div_add_mod j M, hpage, hoff]

end TcpLib
