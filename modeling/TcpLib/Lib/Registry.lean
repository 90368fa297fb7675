import Mathlib.Tactic.Common
import Mathlib.Logic.Function.Basic

/-!
# Names that are used again

Owners are numbered in the order in which a table gives them a name. Later, in the same order,
each is entered in a map under its name. An owner found in the map can be closed, which frees its
name in the table, and the entry under that name is erased only after that. Between the two the
name can already belong to the next owner.

What is held for an owner while no other one is entered under its name stays a valid reference to
it: whoever the map has under the name is this owner.
-/

namespace TcpLib

/-- The table and the map. `next` owners have a name, `inserted` of them were entered in the map,
and `closing` is closed but its entry was not erased yet. -/
structure Registry where
  next : ℕ := 0
  inserted : ℕ := 0
  name : ℕ → ℕ := fun _ => 0
  table : ℕ → Option ℕ := fun _ => none
  map : ℕ → Option ℕ := fun _ => none
  closing : Option ℕ := none

namespace Registry

def accept (r : Registry) (n : ℕ) : Registry :=
  { r with
    next := r.next + 1
    name := Function.update r.name r.next n
    table := Function.update r.table n (some r.next) }

def insert (r : Registry) : Registry :=
  { r with
    inserted := r.inserted + 1
    map := Function.update r.map (r.name r.inserted) (some r.inserted) }

def close (r : Registry) (c : ℕ) : Registry :=
  { r with
    table := Function.update r.table (r.name c) none
    closing := some c }

def erase (r : Registry) (c : ℕ) : Registry :=
  { r with
    map := Function.update r.map (r.name c) none
    closing := none }

inductive Step : Registry → Registry → Prop
  | accept {r : Registry} (n : ℕ) : r.inserted = r.next → r.table n = none → Step r (r.accept n)
  | insert {r : Registry} : r.inserted < r.next → Step r r.insert
  | close {r : Registry} {c : ℕ} : r.map (r.name c) = some c → r.closing = none → Step r (r.close c)
  | erase {r : Registry} {c : ℕ} : r.closing = some c → Step r (r.erase c)

/-- The owner has its name in the table. -/
def Open (r : Registry) (c : ℕ) : Prop := r.table (r.name c) = some c

instance (r : Registry) (c : ℕ) : Decidable (r.Open c) :=
  inferInstanceAs (Decidable (r.table (r.name c) = some c))

/-- No later owner was entered under the same name. -/
def Latest (r : Registry) (c : ℕ) : Prop :=
  c < r.inserted ∧ ∀ d < r.inserted, r.name d = r.name c → d ≤ c

structure Valid (r : Registry) : Prop where
  inserted_le : r.inserted ≤ r.next
  next_le : r.next ≤ r.inserted + 1
  map : ∀ n c, r.map n = some c → r.name c = n ∧ r.Latest c
  table : ∀ n c, r.table n = some c → r.name c = n ∧ c < r.next ∧ ∀ d < r.next, r.name d = n → d ≤ c
  pending : r.inserted < r.next → r.Open r.inserted
  mapped : ∀ n c, r.map n = some c → r.Open c ∨ r.closing = some c
  closing : ∀ c, r.closing = some c → c < r.inserted ∧ ¬ r.Open c

variable {r r' : Registry} {c d n : ℕ}

theorem Valid.init : Valid {} where
  inserted_le := Nat.le_refl _
  next_le := Nat.zero_le _
  map := by simp
  table := by simp
  pending := by simp
  mapped := by simp
  closing := by simp

theorem accept_name (h : c < r.next) : (r.accept n).name c = r.name c := by
  simp [accept, Nat.ne_of_lt h]

/-- A free name goes to a new owner, so no old one becomes open or closed by it. -/
theorem accept_open_iff (h : c < r.next) (hfree : r.table n = none) :
    (r.accept n).Open c ↔ r.Open c := by
  unfold Open
  rw [accept_name h]
  by_cases hcn : r.name c = n
  · have hne : r.next ≠ c := Nat.ne_of_gt h
    simp [accept, hcn, hfree, hne]
  · simp [accept, hcn]

theorem close_open_iff : (r.close c).Open d ↔ r.Open d ∧ r.name d ≠ r.name c := by
  by_cases hname : r.name d = r.name c <;> simp [Open, close, hname]

theorem open_unique (hc : r.Open c) (hd : r.Open d) (hname : r.name c = r.name d) : c = d := by
  have hcd : some c = some d := by rw [← hc, ← hd, hname]
  exact Option.some.inj hcd

theorem Step.name_eq (h : Step r r') (hc : c < r.next) : r'.name c = r.name c := by
  cases h with
  | accept n => exact accept_name hc
  | insert => rfl
  | close => rfl
  | erase => rfl

theorem Step.inserted_le (h : Step r r') : r.inserted ≤ r'.inserted := by
  cases h with
  | accept => exact Nat.le_refl _
  | insert => exact Nat.le_succ _
  | close => exact Nat.le_refl _
  | erase => exact Nat.le_refl _

theorem Step.closed (h : Step r r') (hc : c < r.next) (hclosed : ¬ r.Open c) : ¬ r'.Open c := by
  cases h with
  | accept n hins hfree => exact fun ho => hclosed ((accept_open_iff hc hfree).mp ho)
  | insert => exact hclosed
  | close => exact fun ho => hclosed (close_open_iff.mp ho).1
  | erase => exact hclosed

section
variable (v : Valid r)
include v

theorem Valid.lt_next (h : c < r.inserted) : c < r.next := Nat.lt_of_lt_of_le h v.inserted_le

theorem Valid.open_le (h : r.Open c) (hd : d < r.next) (hname : r.name d = r.name c) : d ≤ c :=
  (v.table _ _ h).2.2 d hd hname

theorem Valid.open_latest (hc : c < r.inserted) (h : r.Open c) : r.Latest c :=
  ⟨hc, fun _ hd hname => v.open_le h (v.lt_next hd) hname⟩

/-- A reference to the last owner entered under a name is good: the map cannot have another. -/
theorem Valid.found (hc : r.Latest c) (h : r.map (r.name c) = some d) : d = c := by
  obtain ⟨hname, hd⟩ := v.map _ _ h
  exact Nat.le_antisymm (hc.2 d hd.1 hname) (hd.2 c hc.1 hname.symm)

theorem Valid.map_self (h : r.map n = some c) : r.map (r.name c) = some c := by
  rwa [(v.map _ _ h).1]

theorem Valid.map_open (hclosing : r.closing = none) (h : r.map n = some c) : r.Open c :=
  (v.mapped _ _ h).resolve_right (by simp [hclosing])

theorem Valid.accept (hins : r.inserted = r.next) (hfree : r.table n = none) : Valid (r.accept n) := by
  have hopen {c : ℕ} (h : r.Open c) : (r.accept n).Open c :=
    (accept_open_iff (v.table _ _ h).2.1 hfree).mpr h
  have hlatest {c : ℕ} (h : r.Latest c) : (r.accept n).Latest c := by
    refine ⟨h.1, fun d hd hname => h.2 d hd ?_⟩
    rwa [accept_name (v.lt_next hd), accept_name (v.lt_next h.1)] at hname
  exact
    { inserted_le := by simp [Registry.accept]; omega
      next_le := by simp [Registry.accept]; omega
      map := fun m c hm => by
        obtain ⟨hname, hl⟩ := v.map m c hm
        exact ⟨by rw [accept_name (v.lt_next hl.1), hname], hlatest hl⟩
      table := fun m c hm => by
        by_cases hmn : m = n
        · subst hmn
          obtain rfl : r.next = c := by simpa [Registry.accept] using hm
          refine ⟨by simp [Registry.accept], Nat.lt_succ_self _, fun d hd _ => Nat.le_of_lt_succ hd⟩
        · obtain ⟨hname, hlt, hle⟩ := v.table m c (by simpa [Registry.accept, hmn] using hm)
          refine ⟨by rw [accept_name hlt, hname], Nat.lt_succ_of_lt hlt, fun d hd hdname => ?_⟩
          rcases Nat.lt_succ_iff_lt_or_eq.mp hd with hd | rfl
          · exact hle d hd (by rwa [accept_name hd] at hdname)
          · simp only [Registry.accept, Function.update_self] at hdname
            exact absurd hdname.symm hmn
      pending := fun _ => by
        rw [show (r.accept n).inserted = r.next from hins]
        simp [Open, Registry.accept]
      mapped := fun m c hm => (v.mapped m c hm).imp_left hopen
      closing := fun c hc => by
        obtain ⟨hlt, hclosed⟩ := v.closing c hc
        exact ⟨hlt, fun ho => hclosed ((accept_open_iff (v.lt_next hlt) hfree).mp ho)⟩ }

theorem Valid.insert (hlt : r.inserted < r.next) : Valid r.insert := by
  have hpend := v.pending hlt
  have hnew : r.insert.Latest r.inserted :=
    ⟨Nat.lt_succ_self _, fun d hd _ => Nat.le_of_lt_succ hd⟩
  exact
    { inserted_le := hlt
      next_le := by have := v.next_le; simp [Registry.insert]; omega
      map := fun m c hm => by
        by_cases hmn : m = r.name r.inserted
        · obtain rfl : r.inserted = c := by simpa [Registry.insert, hmn] using hm
          exact ⟨hmn.symm, hnew⟩
        · obtain ⟨hname, hl⟩ := v.map m c (by simpa [Registry.insert, hmn] using hm)
          refine ⟨hname, Nat.lt_succ_of_lt hl.1, fun d hd hdname => ?_⟩
          rcases Nat.lt_succ_iff_lt_or_eq.mp hd with hd | rfl
          · exact hl.2 d hd hdname
          · exact absurd (hname.symm.trans hdname.symm) hmn
      table := v.table
      pending := fun h => by
        have := v.next_le
        simp only [Registry.insert] at h
        omega
      mapped := fun m c hm => by
        by_cases hmn : m = r.name r.inserted
        · obtain rfl : r.inserted = c := by simpa [Registry.insert, hmn] using hm
          exact Or.inl hpend
        · exact v.mapped m c (by simpa [Registry.insert, hmn] using hm)
      closing := fun c hc => by
        obtain ⟨hlt', hclosed⟩ := v.closing c hc
        exact ⟨Nat.lt_succ_of_lt hlt', hclosed⟩ }

theorem Valid.close (hmap : r.map (r.name c) = some c) (hclosing : r.closing = none) :
    Valid (r.close c) := by
  have hopen := v.map_open hclosing hmap
  have hlatest := (v.map _ _ hmap).2
  exact
    { inserted_le := v.inserted_le
      next_le := v.next_le
      map := v.map
      table := fun m d hm => by
        by_cases hmn : m = r.name c
        · simp [Registry.close, hmn] at hm
        · exact v.table m d (by simpa [Registry.close, hmn] using hm)
      pending := fun h => by
        have hp := v.pending h
        refine close_open_iff.mpr ⟨hp, fun hname => ?_⟩
        have heq := open_unique hp hopen hname
        have := hlatest.1
        simp only [Registry.close] at h heq
        omega
      mapped := fun m d hm => by
        by_cases hd : d = c
        · exact Or.inr (by simp [Registry.close, hd])
        · have hdm := v.map_open hclosing hm
          refine Or.inl (close_open_iff.mpr ⟨hdm, fun hname => hd ?_⟩)
          exact open_unique hdm hopen hname
      closing := fun d hd => by
        obtain rfl : c = d := by simpa [Registry.close] using hd
        exact ⟨hlatest.1, fun ho => (close_open_iff.mp ho).2 rfl⟩ }

theorem Valid.erase (hclosing : r.closing = some c) : Valid (r.erase c) where
  inserted_le := v.inserted_le
  next_le := v.next_le
  map := fun m d hm => by
    by_cases hmn : m = r.name c
    · simp [Registry.erase, hmn] at hm
    · exact v.map m d (by simpa [Registry.erase, hmn] using hm)
  table := v.table
  pending := v.pending
  mapped := fun m d hm => by
    by_cases hmn : m = r.name c
    · simp [Registry.erase, hmn] at hm
    · have hm' : r.map m = some d := by simpa [Registry.erase, hmn] using hm
      refine Or.inl ((v.mapped m d hm').resolve_right fun hd => hmn ?_)
      obtain rfl : c = d := Option.some.inj (hclosing.symm.trans hd)
      exact (v.map m c hm').1.symm
  closing := by simp [Registry.erase]

theorem Valid.step (h : Step r r') : Valid r' := by
  cases h with
  | accept n hins hfree => exact v.accept hins hfree
  | insert hlt => exact v.insert hlt
  | close hmap hclosing => exact v.close hmap hclosing
  | erase hclosing => exact v.erase hclosing

/-- A reference stays good unless another owner is entered under its name. -/
theorem Latest.step (h : Step r r') (hc : r.Latest c)
    (hinsert : r' = r.insert → r.name r.inserted ≠ r.name c) : r'.Latest c := by
  cases h with
  | accept n =>
    refine ⟨hc.1, fun d hd hname => hc.2 d hd ?_⟩
    rwa [accept_name (v.lt_next hd), accept_name (v.lt_next hc.1)] at hname
  | insert =>
    refine ⟨Nat.lt_succ_of_lt hc.1, fun d hd hname => ?_⟩
    rcases Nat.lt_succ_iff_lt_or_eq.mp hd with hd | rfl
    · exact hc.2 d hd hname
    · exact absurd hname (hinsert rfl)
  | close => exact hc
  | erase => exact hc

/-- Every open owner that was entered in the map is still there, and so is a closed one until its
entry is erased. -/
structure NoOrphan (r : Registry) : Prop where
  mapped : ∀ c < r.inserted, r.Open c → r.map (r.name c) = some c
  closing : ∀ d, r.closing = some d → r.map (r.name d) = some d

/-- Only an entry made under the name that is being closed can lose its owner. -/
theorem NoOrphan.step (h : Step r r') (hno : r.NoOrphan)
    (hinsert : r' = r.insert → ∀ d, r.closing = some d → r.name r.inserted ≠ r.name d) :
    r'.NoOrphan := by
  cases h with
  | accept n hins hfree =>
    refine ⟨fun c hc hopen => ?_, fun d hd => ?_⟩
    · rw [accept_name (v.lt_next hc)]
      exact hno.mapped c hc ((accept_open_iff (v.lt_next hc) hfree).mp hopen)
    · rw [accept_name (v.lt_next (v.closing d hd).1)]
      exact hno.closing d hd
  | insert hlt =>
    refine ⟨fun c hc hopen => ?_, fun d hd => ?_⟩
    · by_cases hname : r.name c = r.name r.inserted
      · -- the entry that was there belongs to an owner that is open no more
        have heq := open_unique hopen (v.pending hlt) hname
        simp [Registry.insert, heq]
      · have hne : c ≠ r.inserted := fun heq => hname (by rw [heq])
        have hc' : c < r.inserted := Nat.lt_of_le_of_ne (Nat.le_of_lt_succ hc) hne
        simpa [Registry.insert, hname] using hno.mapped c hc' hopen
    · have hne := hinsert rfl d hd
      simpa [Registry.insert, hne.symm] using hno.closing d hd
  | @close c hmap hclosing =>
    refine ⟨fun d hd hopen => hno.mapped d hd (close_open_iff.mp hopen).1, fun d hd => ?_⟩
    obtain rfl : c = d := by simpa [Registry.close] using hd
    exact hmap
  | @erase c hclosing =>
    refine ⟨fun d hd hopen => ?_, by simp [Registry.erase]⟩
    have hm := hno.mapped d hd hopen
    have hne : r.name d ≠ r.name c := fun hname => by
      have hmc := hno.closing c hclosing
      rw [← hname] at hmc
      obtain rfl : d = c := Option.some.inj (hm.symm.trans hmc)
      exact (v.closing d hclosing).2 hopen
    simpa [Registry.erase, hne] using hm

theorem Step.inserted_le_next (h : Step r r') : r'.inserted ≤ r.next := by
  cases h with
  | accept n hins => exact Nat.le_of_eq hins
  | insert hlt => exact hlt
  | close | erase => exact v.inserted_le

/-- The owner has its entry in the map, and no owner under its name is being closed. -/
structure Safe (r : Registry) (c : ℕ) : Prop where
  mapped : r.map (r.name c) = some c
  closing : ∀ d, r.closing = some d → r.name d ≠ r.name c

theorem Safe.step (h : Step r r') (hc : r.Safe c) (hopen : r'.Open c) : r'.Safe c := by
  have hlt := (v.map _ _ hc.mapped).2.1
  cases h with
  | accept n hins hfree =>
    refine ⟨?_, fun d hd => ?_⟩
    · rw [accept_name (v.lt_next hlt)]
      exact hc.mapped
    · rw [accept_name (v.lt_next hlt), accept_name (v.lt_next (v.closing d hd).1)]
      exact hc.closing d hd
  | insert hins =>
    have hne : r.name c ≠ r.name r.inserted := fun hname => by
      have heq := open_unique hopen (v.pending hins) hname
      omega
    exact ⟨by simpa [Registry.insert, hne] using hc.mapped, hc.closing⟩
  | @close d hmap hclosing =>
    refine ⟨hc.mapped, fun d' hd' => ?_⟩
    obtain rfl : d = d' := Option.some.inj hd'
    exact (close_open_iff.mp hopen).2.symm
  | @erase d hclosing =>
    have hne := hc.closing d hclosing
    exact ⟨by simpa [Registry.erase, hne.symm] using hc.mapped, nofun⟩

end

end Registry
end TcpLib
