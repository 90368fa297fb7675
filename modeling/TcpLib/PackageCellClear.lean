import TcpLib.PackageCellReader

/-!
# The destructor of a send cell

`clear` deletes the units from `m_read_pos` on until the cell is empty. At a null pointer it does not
move on, so where a writer has taken a position and not yet stored its unit it never returns. It
returns in every other state, with the units that the reader has not deleted.
-/

namespace TcpLib.TcpCommon
open CircularBuffer Transition
variable {c : Consts}

namespace SendCell

/-- A round of the loop of `clear`, with the unit that it deletes. -/
def clearRound (c : Consts) (s : SendCell) : Option (SendCell × List SendCellUnit) :=
  match s.scuPtr (s.rpos c) with
  | .unset => none
  | .null => some (s, [])
  | .unit u => some ((s.store (s.rpos c) .null).fetchAddRead, [u])

/-- `clear`, if it returns within `fuel` rounds, with the units that it deletes. -/
def clear (c : Consts) (s : SendCell) : ℕ → Option (SendCell × List SendCellUnit)
  | 0 => if s.isEmpty c then some (s, []) else none
  | fuel + 1 =>
    if s.isEmpty c then some (s, [])
    else (s.clearRound c).bind fun (s, us) => (clear c s fuel).map fun (s, us') => (s, us ++ us')

variable {s : SendCell} {u : SendCellUnit} {fuel : ℕ}

theorem clear_empty (h : s.isEmpty c) (fuel : ℕ) : s.clear c fuel = some (s, []) := by
  cases fuel <;> exact if_pos h

theorem clear_round (h : ¬s.isEmpty c) (fuel : ℕ) : s.clear c (fuel + 1) =
    (s.clearRound c).bind fun (s, us) => (s.clear c fuel).map fun (s, us') => (s, us ++ us') :=
  if_neg h

theorem clear_succ {r : SendCell × List SendCellUnit} (h : s.clear c fuel = some r) :
    s.clear c (fuel + 1) = some r := by
  induction fuel generalizing s r with
  | zero =>
    by_cases hempty : s.isEmpty c
    · rwa [clear_empty hempty] at h ⊢
    · exact absurd ((if_neg hempty).symm.trans h) (by simp)
  | succ fuel ih =>
    by_cases hempty : s.isEmpty c
    · rwa [clear_empty hempty] at h ⊢
    · rw [clear_round hempty] at h ⊢
      obtain ⟨⟨s₁, us⟩, hround, hrest⟩ := Option.bind_eq_some_iff.mp h
      obtain ⟨r', hr', rfl⟩ := Option.map_eq_some_iff.mp hrest
      simp only [hround, Option.bind_some, ih hr', Option.map_some]

theorem clear_unique {fuel' : ℕ} {r r' : SendCell × List SendCellUnit} (h : s.clear c fuel = some r)
    (h' : s.clear c fuel' = some r') : r = r' := by
  have hmore {n : ℕ} {r : SendCell × List SendCellUnit} (h : s.clear c n = some r) (k : ℕ) :
      s.clear c (n + k) = some r := by
    induction k with
    | zero => exact h
    | succ k ih => exact clear_succ ih
  have heq := hmore h' fuel
  rw [Nat.add_comm, hmore h fuel'] at heq
  exact Option.some.inj heq

theorem not_isEmpty {n : ℕ} (hpos : 0 < n) (hn : n < c.sendCellSize) (hwrite : s.writePos = s.readPos + n) :
    ¬s.isEmpty c := by
  rw [isEmpty_iff, hwrite]
  intro heq
  have hsame := window_inj (Nat.le_add_right _ n) (Nat.add_lt_add_left hn _) le_rfl (by omega) heq
  omega

/-- The cell after a round that deletes a unit. -/
theorem scuPtr_next {j : ℕ} (hj : j + 1 < c.sendCellSize) :
    (s.store (s.rpos c) .null).fetchAddRead.scuPtr ((s.readPos + 1 + j) % c.sendCellSize) =
      s.scuPtr ((s.readPos + (j + 1)) % c.sendCellSize) := by
  rw [Nat.add_assoc, Nat.add_comm 1 j]
  exact TicketRing.update_slot_ne le_rfl (by omega) (Nat.le_add_right _ _) (by omega) (by omega) _ _

/-- A window of units is deleted, one in each round. -/
theorem clear_units (units : List SendCellUnit) (hlen : units.length < c.sendCellSize)
    (hwrite : s.writePos = s.readPos + units.length)
    (hunits : ∀ i (h : i < units.length), s.scuPtr ((s.readPos + i) % c.sendCellSize) = .unit units[i]) :
    ∃ s', s.clear c units.length = some (s', units) ∧ s'.isEmpty c ∧ ∀ slot, s'.scuPtr slot = .null ∨
      s'.scuPtr slot = s.scuPtr slot ∧ ∀ i < units.length, slot ≠ (s.readPos + i) % c.sendCellSize := by
  induction units generalizing s with
  | nil =>
    have hempty : s.isEmpty c := isEmpty_iff.mpr (by rw [hwrite, List.length_nil, Nat.add_zero])
    exact ⟨s, clear_empty hempty _, hempty, fun slot => Or.inr ⟨rfl, nofun⟩⟩
  | cons u units ih =>
    rw [List.length_cons] at hlen hwrite
    have hhead : s.scuPtr (s.rpos c) = .unit u := by simpa [rpos] using hunits 0 (Nat.succ_pos _)
    obtain ⟨s', hclear, hempty, hslots⟩ := ih (s := (s.store (s.rpos c) .null).fetchAddRead) (by omega)
      (hwrite.trans (by simp only [fetchAddRead, store]; omega)) fun i hi => by
        refine (scuPtr_next (by omega)).trans ?_
        exact hunits (i + 1) (Nat.succ_lt_succ hi)
    refine ⟨s', ?_, hempty, fun slot => ?_⟩
    · rw [List.length_cons, clear_round (not_isEmpty (Nat.succ_pos _) hlen hwrite), clearRound, hhead]
      simp only [Option.bind_some, hclear, Option.map_some, List.singleton_append]
    · rcases hslots slot with hnull | ⟨hsame, hother⟩
      · exact Or.inl hnull
      · by_cases hslot : slot = s.rpos c
        · subst hslot
          exact Or.inl (hsame.trans (Function.update_self ..))
        · refine Or.inr ⟨hsame.trans (Function.update_of_ne hslot ..), fun i hi => ?_⟩
          cases i with
          | zero => exact hslot
          | succ i =>
            have hne := hother i (Nat.lt_of_succ_lt_succ hi)
            simp only [fetchAddRead, store] at hne
            rwa [Nat.add_assoc, Nat.add_comm 1 i] at hne

/-- A pointer to no unit between the two positions keeps `clear` from returning. -/
theorem clear_stuck {j n : ℕ} (hj : j < n) (hn : n < c.sendCellSize) (hwrite : s.writePos = s.readPos + n)
    (hblank : (s.scuPtr ((s.readPos + j) % c.sendCellSize)).Blank) : s.clear c fuel = none := by
  induction fuel generalizing s j n with
  | zero => exact if_neg (not_isEmpty (Nat.zero_lt_of_lt hj) hn hwrite)
  | succ fuel ih =>
    rw [clear_round (not_isEmpty (Nat.zero_lt_of_lt hj) hn hwrite), clearRound]
    cases hptr : s.scuPtr (s.rpos c) with
    | unset => rfl
    | null => simp only [Option.bind_some, ih hj hn hwrite hblank, Option.map_none]
    | unit u =>
      cases j with
      | zero =>
        rw [Nat.add_zero, show s.readPos % c.sendCellSize = s.rpos c from rfl, hptr] at hblank
        cases hblank
      | succ j =>
        have hrest := ih (s := (s.store (s.rpos c) .null).fetchAddRead) (j := j) (n := n - 1) (by omega)
          (by omega) (hwrite.trans (by simp only [fetchAddRead, store]; omega))
          (by rw [ScuPtr.Blank]; exact (congrArg ScuPtr.deref (scuPtr_next (by omega))).trans hblank)
        simp only [Option.bind_some, hrest, Option.map_none]

end SendCell

namespace SendSys
variable {s : SendSys c} {lo k : ℕ}

/-- The units that the reader has not deleted, when every writer that has a position has stored its
unit. -/
theorem Inv.units (hi : s.Inv lo k)
    (hstored : ∀ t pos sc, s.writing t ≠ .reserved pos sc) :
    ∃ units : List SendCellUnit, s.cell.writePos = s.cell.readPos + units.length ∧
      units.map SendCellUnit.ptr = (s.reserved.drop s.cell.readPos).map Package.bytes ∧
      ∀ i (h : i < units.length), s.cell.scuPtr ((s.cell.readPos + i) % c.sendCellSize) = .unit units[i] := by
  have hle := hi.readPos_le_writePos
  have hkept (i : ℕ) (hlt : i < (s.reserved.drop s.cell.readPos).length) :
      ∃ u, s.slotAt (s.cell.readPos + i) = .unit u ∧ u.ptr = (s.reserved.drop s.cell.readPos)[i].bytes := by
    refine hi.kept (Nat.le_add_right _ i) ?_ fun t sc => hstored t _ sc
    rw [List.getElem_drop, List.getElem?_eq_getElem]
  choose u hunit hptr using hkept
  refine ⟨List.ofFn fun i : Fin (s.reserved.drop s.cell.readPos).length => u i i.isLt, ?_, ?_, fun i hi' => ?_⟩
  · rw [List.length_ofFn, List.length_drop, hi.len]
    omega
  · apply List.ext_getElem
    · simp
    · intro i h₁ h₂
      simp only [List.getElem_map, List.getElem_ofFn]
      exact hptr i _
  · rw [List.getElem_ofFn]
    exact hunit i _

/-- A careful run that ends with an idle reader: `clear` returns exactly when no writer is about to
store a unit. It deletes the units of the packages that are still to be read, and leaves none. -/
theorem clear_returns_iff {acts : List (SendAct c)} (hrun : Run step Careful {} acts s)
    (hidle : s.reading = .idle) :
    ((∃ fuel r, s.cell.clear c fuel = some r) ↔ ∀ t pos sc, s.writing t ≠ .reserved pos sc) ∧
    ∀ fuel cell units, s.cell.clear c fuel = some (cell, units) → cell.isEmpty c ∧
      units.map SendCellUnit.ptr = (s.reserved.drop s.cell.readPos).map Package.bytes ∧
      ∀ pos, s.cell.readPos ≤ pos → pos < s.cell.readPos + c.sendCellSize →
        (cell.scuPtr (pos % c.sendCellSize)).Blank := by
  obtain ⟨lo, k, hi⟩ := hrun.invariant (fun s : SendSys c => ∃ lo k, s.Inv lo k) ⟨0, 0, .init⟩
    fun _ _ _ ⟨_, _, hi⟩ hok hstep => hi.step hok hstep
  have hlo := hi.rpos_idle hidle
  have hroom := hi.room
  have hstuck {t pos : ℕ} {sc : SendCellUnit} (ht : s.writing t = .reserved pos sc) (fuel : ℕ) :
      s.cell.clear c fuel = none := by
    have hpos : (s.writing t).pos? = some pos := by rw [ht]; rfl
    obtain ⟨hge, hlt, hhi⟩ := hi.in_window hpos
    have hblank := ((hi.slots pos hge hhi).reserved t sc ht).1
    refine SendCell.clear_stuck (j := pos - s.cell.readPos) (n := s.cell.writePos - s.cell.readPos)
      (by omega) (by omega) (by omega) ?_
    rwa [Nat.add_sub_cancel' (hlo ▸ hge)]
  have hreturns (hstored : ∀ t pos sc, s.writing t ≠ .reserved pos sc) :
      ∃ fuel cell units, s.cell.clear c fuel = some (cell, units) ∧ cell.isEmpty c ∧
        units.map SendCellUnit.ptr = (s.reserved.drop s.cell.readPos).map Package.bytes ∧
        ∀ pos, s.cell.readPos ≤ pos → pos < s.cell.readPos + c.sendCellSize →
          (cell.scuPtr (pos % c.sendCellSize)).Blank := by
    obtain ⟨units, hwrite, hptrs, hunits⟩ := hi.units hstored
    obtain ⟨cell, hclear, hempty, hslots⟩ := SendCell.clear_units units (by omega) hwrite hunits
    refine ⟨units.length, cell, units, hclear, hempty, hptrs, fun pos hge hlt => ?_⟩
    rcases hslots (pos % c.sendCellSize) with hnull | ⟨hsame, hother⟩
    · rw [hnull]
      rfl
    · -- a position that holds no unit has not been taken
      rw [hsame]
      refine (hi.slots pos (hlo ▸ hge) (hlo ▸ hlt)).free (Nat.le_of_not_lt fun htaken => ?_)
      refine hother (pos - s.cell.readPos) (by omega) ?_
      rw [Nat.add_sub_cancel' hge]
  refine ⟨⟨fun ⟨fuel, r, hr⟩ t pos sc ht => ?_, fun hstored => ?_⟩, fun fuel cell units hclear => ?_⟩
  · rw [hstuck ht] at hr
    cases hr
  · obtain ⟨fuel, cell, units, hclear, -⟩ := hreturns hstored
    exact ⟨fuel, _, hclear⟩
  · obtain ⟨fuel', cell', units', hclear', hcleared⟩ := hreturns fun t pos sc ht => by
      rw [hstuck ht] at hclear
      cases hclear
    obtain ⟨rfl, rfl⟩ := Prod.mk.inj (SendCell.clear_unique hclear hclear')
    exact hcleared

theorem clear_returns_iff_one_write : ∃ s : SendSys twoSlots,
    Run step Careful {} (writeSteps 0 (onePackage 1 [2, 3])) s ∧ s.reading = .idle ∧
      ((∃ fuel r, s.cell.clear twoSlots fuel = some r) ↔ ∀ t pos sc, s.writing t ≠ .reserved pos sc) ∧
      ∀ fuel cell units, s.cell.clear twoSlots fuel = some (cell, units) → cell.isEmpty twoSlots ∧
        units.map SendCellUnit.ptr = [[1, 2, 3]] := by
  have hfits : (onePackage 1 [2, 3]).Fits := by
    unfold Package.Fits
    decide
  have hrun : ∃ s : SendSys twoSlots, Run step Careful {} (writeSteps 0 (onePackage 1 [2, 3])) s ∧
      s.reading = .idle ∧ s.reserved = [onePackage 1 [2, 3]] ∧ s.cell.readPos = 0 := by
    refine ⟨_, .cons (Or.inr hfits) rfl (.cons Bool.false_ne_true rfl (.cons trivial rfl (.single trivial rfl))),
      rfl, rfl, rfl⟩
  obtain ⟨s, hrun, hidle, hreserved, hread⟩ := hrun
  obtain ⟨hiff, hcleared⟩ := clear_returns_iff hrun hidle
  refine ⟨s, hrun, hidle, hiff, fun fuel cell units hclear => ?_⟩
  obtain ⟨hempty, hptrs, -⟩ := hcleared fuel cell units hclear
  rw [hreserved, hread] at hptrs
  exact ⟨hempty, hptrs⟩

end SendSys
end TcpLib.TcpCommon
