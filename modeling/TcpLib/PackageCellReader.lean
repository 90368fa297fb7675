import TcpLib.PackageCellRuns

/-!
# What a send cell keeps

The steps of the reader keep the invariant too, and it gives everything that the cell promises. The
other way round, every step that is not a careful one breaks the promise in the state after it.
-/

namespace TcpLib.TcpCommon
open Transition TicketRing
variable {c : Consts}

namespace SendSys
variable {s s' : SendSys c} {t pos lo k k' : ℕ} {pkg : Package c}

theorem bytesBefore_succ (s : SendSys c) (pos : ℕ) :
    s.bytesBefore (pos + 1) = s.bytesBefore pos ++ s.bytesAt pos := by
  rw [bytesBefore, List.take_add_one, List.flatMap_append, bytesBefore, bytesAt]
  cases s.reserved[pos]? <;> simp

namespace Inv

theorem lt_of_get (hi : s.Inv lo k) (hpkg : s.reserved[pos]? = some pkg) : pos < s.cell.writePos :=
  hi.len ▸ (List.getElem?_eq_some_iff.mp hpkg).1

theorem get_of_lt (hi : s.Inv lo k) (hlt : pos < s.cell.writePos) :
    ∃ pkg, s.reserved[pos]? = some pkg :=
  ⟨_, List.getElem?_eq_getElem (hi.len.symm ▸ hlt)⟩

theorem readPos_le_writePos (hi : s.Inv lo k) : s.cell.readPos ≤ s.cell.writePos := by
  have hr := hi.reader
  have hle := hi.le
  unfold ReaderOk at hr
  cases h : s.reading with
  | idle =>
    rw [h] at hr
    exact hr.1.trans_le hle
  | used _ | disabled _ | advanced _ =>
    rw [h] at hr
    obtain ⟨hpos, -, pkg, hpkg, -⟩ := hr
    have hlt := hi.lt_of_get hpkg
    omega

theorem isEmpty_iff (hi : s.Inv lo k) :
    s.cell.isEmpty c ↔ s.cell.readPos = s.cell.writePos := by
  have hle := hi.readPos_le_writePos
  have hroom := hi.room
  rw [SendCell.isEmpty_iff]
  constructor
  · intro h
    exact (CircularBuffer.window_inj hle hroom le_rfl (by omega) h).symm
  · intro h
    rw [h]

theorem isFull_iff (hi : s.Inv lo k) :
    s.cell.isFull c ↔ s.cell.writePos + 1 = s.cell.readPos + c.sendCellSize := by
  have hle := hi.readPos_le_writePos
  have hroom := hi.room
  rw [SendCell.isFull_iff]
  constructor
  · intro h
    by_contra hne
    have hwindow : s.cell.readPos ≤ s.cell.writePos + 1 := by omega
    have heq := CircularBuffer.window_inj hwindow (by omega) le_rfl (by omega) h
    omega
  · intro h
    rw [h, Nat.add_mod_right]

theorem used (hi : s.Inv lo k) (hr : s.reading ≠ .idle) :
    ∃ pkg, s.reserved[lo]? = some pkg ∧ k = pkg.bytes.length ∧
      (∀ t, (s.writing t).pos? ≠ some lo) ∧
      s.slotAt lo = .unit (pkg.unit pkg.bytes.length s.reading.enabled) := by
  have hread := hi.reader
  unfold ReaderOk at hread
  obtain ⟨pkg, hpkg, hlen⟩ : ∃ pkg, s.reserved[lo]? = some pkg ∧ k = pkg.bytes.length := by
    cases h : s.reading with
    | idle => exact absurd h hr
    | used _ | disabled _ | advanced _ =>
      rw [h] at hread
      exact hread.2.2
  have hpos := pkg.bytes_pos
  obtain ⟨-, hnone⟩ := hi.begun (by omega)
  have hsize := c.two_le
  have hslot := (hi.slots lo le_rfl (by omega)).published hnone pkg hpkg
  rw [part, if_pos rfl, hlen] at hslot
  exact ⟨pkg, hpkg, hlen, hnone, hslot⟩

/-- A step of the reader on the unit that it is at. -/
theorem read (hi : s.Inv lo k) (reading : HasReadPc) (hpkg : s.reserved[lo]? = some pkg)
    (hnone : ∀ t, (s.writing t).pos? ≠ some lo) (hs : s' =
      { s with
        cell := s.cell.store (lo % c.sendCellSize) (.unit (pkg.unit k' reading.enabled))
        reading := reading
        bytesRead := s.bytesBefore lo ++ pkg.bytes.take k' })
    (hreader : s'.ReaderOk lo k') : s'.Inv lo k' := by
  subst hs
  have hlt := hi.lt_of_get hpkg
  have hsize := c.two_le
  refine ⟨hi.fault, hi.drawn, hi.low, hi.built, hi.len, hi.fits, hi.le, hi.room, ?_,
    fun _ => ⟨hlt, hnone⟩, hreader, ?_⟩
  · intro p hp hp'
    by_cases hpp : p = lo
    · subst hpp
      refine ⟨?_, ?_, ?_, ?_⟩
      · intro t sc ht
        exact absurd (congrArg WritePc.pos? ht) (hnone t)
      · intro t ht
        exact absurd (congrArg WritePc.pos? ht) (hnone t)
      · intro _ pkg' hpkg'
        obtain rfl : pkg = pkg' := Option.some.inj (hpkg.symm.trans hpkg')
        rw [part, if_pos rfl]
        exact Function.update_self ..
      · intro hle
        exact absurd hle (Nat.not_le_of_lt hlt)
    · refine (hi.slots p hp hp').congr (fun _ _ => rfl) ?_ rfl id ?_
      · exact update_slot_ne le_rfl (by omega) hp hp' hpp _ _
      · intro pkg'
        rw [part, part, if_neg hpp, if_neg hpp]
  · change _ = s.bytesBefore lo ++ (s.reserved[lo]?.elim [] Package.bytes).take k'
    rw [hpkg]
    rfl

theorem rpos_idle (hi : s.Inv lo k) (hidle : s.reading = .idle) : s.cell.readPos = lo := by
  have hr := hi.reader
  unfold ReaderOk at hr
  rw [hidle] at hr
  exact hr.1

/-- The unit that an idle reader finds is still to be published, or has unread bytes. -/
theorem idle_unit (hi : s.Inv lo k) (hidle : s.reading = .idle) {u : SendCellUnit}
    (hu : s.cell.scuPtr (s.cell.rpos c) = .unit u) :
    ∃ pkg, s.reserved[lo]? = some pkg ∧ k < pkg.bytes.length ∧
      (k = 0 ∧ u = pkg.unit 0 false ∨
        (∀ t, (s.writing t).pos? ≠ some lo) ∧ u = pkg.unit k true) := by
  have hsize := c.two_le
  have hslots := hi.slots lo le_rfl (by omega)
  have hslot : s.slotAt lo = .unit u := by
    rw [← hu, SendCell.rpos, hi.rpos_idle hidle]
    rfl
  have hlt : lo < s.cell.writePos := by
    by_contra hge
    have hblank := hslots.free (Nat.le_of_not_lt hge)
    rw [hslot] at hblank
    cases hblank
  obtain ⟨pkg, hpkg⟩ := hi.get_of_lt hlt
  have hr := hi.reader
  unfold ReaderOk at hr
  rw [hidle] at hr
  refine ⟨pkg, hpkg, hr.2 pkg hpkg, ?_⟩
  by_cases hheld : ∃ t, (s.writing t).pos? = some lo
  · obtain ⟨t, ht⟩ := hheld
    obtain ⟨rfl, -⟩ := hi.zero_of_held ht
    cases hpc : s.writing t with
    | idle | built _ _ => simp [hpc, WritePc.pos?] at ht
    | reserved p sc =>
      obtain rfl : p = lo := by simpa [hpc, WritePc.pos?] using ht
      have hblank := (hslots.reserved t sc hpc).1
      rw [hslot] at hblank
      cases hblank
    | stored p =>
      obtain rfl : p = lo := by simpa [hpc, WritePc.pos?] using ht
      obtain ⟨pkg', hpkg', hunit⟩ := hslots.stored t hpc
      obtain rfl := Option.some.inj (hpkg.symm.trans hpkg')
      exact Or.inl ⟨rfl, ScuPtr.unit.inj (hslot.symm.trans hunit)⟩
  · have hnone : ∀ t, (s.writing t).pos? ≠ some lo := fun t ht => hheld ⟨t, ht⟩
    have hunit := hslots.published hnone pkg hpkg
    rw [part, if_pos rfl, hidle] at hunit
    exact Or.inr ⟨hnone, ScuPtr.unit.inj (hslot.symm.trans hunit)⟩

theorem hasRead (hi : s.Inv lo k) (hidle : s.reading = .idle) {u : SendCellUnit} {n len : ℕ}
    (hu : s.cell.scuPtr (s.cell.rpos c) = .unit u) (hn : s.cell.readEnableLen c = some n)
    (hlen : len ≤ n) :
    ∃ k', Inv { s with
      cell := s.cell.store (s.cell.rpos c) (.unit (u.moveSendPos len))
      reading := if (u.moveSendPos len).Sent then .used (s.cell.rpos c) else .idle
      bytesRead := s.bytesRead ++ u.rest.take len } lo k' := by
  obtain ⟨pkg, hpkg, hk, hcase⟩ := hi.idle_unit hidle hu
  have hfits := hi.fits pkg (List.mem_of_getElem? hpkg)
  have hread := hi.rpos_idle hidle
  have hempty : ¬s.cell.isEmpty c := by
    rw [hi.isEmpty_iff, hread]
    exact (hi.lt_of_get hpkg).ne
  have henable := SendCell.enableRead_unit hempty hu
  rcases hcase with ⟨rfl, rfl⟩ | ⟨hnone, rfl⟩
  · -- the unit is not published, and nothing is reported of it
    obtain rfl : len = 0 := by
      rw [SendCell.readEnableLen, SendCell.reading, henable] at hn
      obtain rfl : 0 = n := by simpa using hn
      omega
    have hsame : (pkg.unit 0 false).moveSendPos 0 = pkg.unit 0 false :=
      SendCellUnit.moveSendPos_unit false hfits hk.le
    have hnot : ¬(pkg.unit 0 false).Sent := by
      rw [SendCellUnit.sent_unit]
      omega
    refine ⟨0, ?_⟩
    rw [hsame, if_neg hnot, List.take_zero, List.append_nil, SendCell.store, ← hu,
      Function.update_eq_self, ← hidle]
    exact hi
  · obtain rfl : pkg.bytes.length - k = n := by
      rw [SendCell.readEnableLen, SendCell.reading_enabled _ henable hu,
        SendCellUnit.restLen_unit true hfits hk.le] at hn
      simpa using hn
    have hmove : (pkg.unit k true).moveSendPos len = pkg.unit (k + len) true :=
      SendCellUnit.moveSendPos_unit true hfits (by omega)
    have hrpos : s.cell.rpos c = lo % c.sendCellSize := by rw [SendCell.rpos, hread]
    have hbytes : s.bytesRead ++ (pkg.bytes.drop k).take len =
        s.bytesBefore lo ++ pkg.bytes.take (k + len) := by
      rw [hi.bytes, bytesAt, hpkg, List.append_assoc, List.take_add]
      rfl
    rw [hmove, SendCellUnit.rest_unit, hbytes, hrpos]
    refine ⟨k + len, ?_⟩
    split_ifs with hsent <;> rw [SendCellUnit.sent_unit] at hsent
    · exact hi.read (.used (lo % c.sendCellSize)) hpkg hnone rfl
        ⟨hread, rfl, pkg, hpkg, by omega⟩
    · refine hi.read .idle hpkg hnone rfl ⟨hread, fun pkg' hpkg' => ?_⟩
      obtain rfl : pkg = pkg' := Option.some.inj (hpkg.symm.trans hpkg')
      exact Nat.lt_of_not_le hsent

theorem disable (hi : s.Inv lo k) {rpos : ℕ} (hr : s.reading = .used rpos) :
    ∃ cell, s.cell.setEnableRead rpos false = some cell ∧
      Inv { s with cell := cell, reading := .disabled rpos } lo k := by
  obtain ⟨pkg, hpkg, rfl, hnone, hslot⟩ := hi.used (by rw [hr]; nofun)
  have hreader := hi.reader
  unfold ReaderOk at hreader
  rw [hr] at hreader
  obtain ⟨hread, rfl, -⟩ := hreader
  have hbytes : s.bytesRead = s.bytesBefore lo ++ pkg.bytes.take pkg.bytes.length := by
    rw [hi.bytes, bytesAt, hpkg]
    rfl
  refine ⟨_, SendCell.modify_unit hslot _, ?_⟩
  refine hi.read (.disabled (lo % c.sendCellSize)) hpkg hnone ?_
    ⟨hread, rfl, pkg, hpkg, rfl⟩
  rw [← hbytes]
  rfl

theorem advance (hi : s.Inv lo k) {rpos : ℕ} (hr : s.reading = .disabled rpos) :
    Inv { s with cell := s.cell.fetchAddRead, reading := .advanced rpos } lo k := by
  have hreader := hi.reader
  have hroom := hi.room
  unfold ReaderOk at hreader
  rw [hr] at hreader
  obtain ⟨hread, hrpos, hpkg⟩ := hreader
  refine ⟨hi.fault, hi.drawn, hi.low, hi.built, hi.len, hi.fits, hi.le, ?_, ?_, hi.begun,
    ⟨?_, hrpos, hpkg⟩, hi.bytes⟩
  · change s.cell.writePos < s.cell.readPos + 1 + c.sendCellSize
    omega
  · intro p hp hp'
    refine (hi.slots p hp hp').congr (fun _ _ => rfl) rfl rfl id fun pkg => ?_
    simp only [part, hr, HasReadPc.enabled]
  · rw [← hread]
    rfl

theorem clear (hi : s.Inv lo k) {rpos : ℕ} (hr : s.reading = .advanced rpos) :
    ∃ cell, s.cell.clearSlot rpos = some cell ∧
      Inv { s with cell := cell, reading := .idle } (lo + 1) 0 := by
  obtain ⟨pkg, hpkg, rfl, hnone, hslot⟩ := hi.used (by rw [hr]; nofun)
  have hreader := hi.reader
  unfold ReaderOk at hreader
  rw [hr] at hreader
  obtain ⟨hread, rfl, -⟩ := hreader
  have hlt := hi.lt_of_get hpkg
  have hroom := hi.room
  have hsize := c.two_le
  refine ⟨_, SendCell.clearSlot_unit hslot, hi.fault, hi.drawn, ?_, hi.built, hi.len, hi.fits, hlt,
    hi.room, ?_, fun h => absurd rfl h, ⟨hread, fun pkg' _ => pkg'.bytes_pos⟩, ?_⟩
  · intro t p ht
    have hne : p ≠ lo := by
      rintro rfl
      exact hnone t ht
    have hlow := hi.low t p ht
    omega
  · intro p hp hp'
    by_cases hpp : p = lo + c.sendCellSize
    · -- the slot that was cleared is the one of the last position of the new window
      subst hpp
      have hheld (t : ℕ) : (s.writing t).pos? ≠ some (lo + c.sendCellSize) := by
        intro ht
        have hlt' := hi.drawn.lt t _ ht
        omega
      refine ⟨?_, ?_, ?_, ?_⟩
      · intro t sc ht
        exact absurd (congrArg WritePc.pos? ht) (hheld t)
      · intro t ht
        exact absurd (congrArg WritePc.pos? ht) (hheld t)
      · intro _ pkg' hpkg'
        have hlt' := hi.lt_of_get hpkg'
        omega
      · intro _
        have hnull : Function.update s.cell.scuPtr (lo % c.sendCellSize) .null
            ((lo + c.sendCellSize) % c.sendCellSize) = .null := by
          rw [Nat.add_mod_right, Function.update_self]
        exact congrArg ScuPtr.deref hnull
    · refine (hi.slots p (by omega) (by omega)).congr (fun _ _ => rfl) ?_ rfl id fun pkg' => ?_
      · exact update_slot_ne le_rfl (by omega) (by omega) (by omega) (by omega) _ _
      · rw [part, part, if_neg (show p ≠ lo by omega)]
        split_ifs <;> rfl
  · change s.bytesRead = s.bytesBefore (lo + 1) ++ _
    rw [bytesBefore_succ, hi.bytes, bytesAt, hpkg, List.take_zero, List.append_nil]
    simp

theorem call (hi : s.Inv lo k) {α : Type*} {r : Option α} (hr : r.isSome)
    (hstep : s.call r = some s') : s'.Inv lo k := by
  obtain ⟨a, rfl⟩ := Option.isSome_iff_exists.mp hr
  unfold SendSys.call at hstep
  split at hstep
  · obtain rfl := Option.some.inj hstep
    exact hi
  · cases hstep

theorem enableRead_isSome
    (h : s.cell.isEmpty c ∨ s.cell.scuPtr (s.cell.rpos c) ≠ .unset) :
    (s.cell.enableRead c).isSome := by
  rw [Option.isSome_iff_ne_none, Ne, SendCell.enableRead_eq_none_iff]
  tauto

/-- A careful step keeps the invariant, in the window that the reader has then. -/
theorem step {a : SendAct c} (hi : s.Inv lo k) (hok : s.Careful a) (hstep : s.step a = some s') :
    ∃ lo' k', s'.Inv lo' k' := by
  cases a with
  | isFull t pkg =>
    simp only [SendSys.step] at hstep
    split at hstep
    · next hpc =>
      obtain rfl := Option.some.inj hstep
      split_ifs with hfull
      · exact ⟨lo, k, hi⟩
      · have hfits : pkg.Fits := hok.resolve_left hfull
        rw [hfits.newUnit, access]
        exact ⟨lo, k, hi.build hpc hfits⟩
    · cases hstep
  | fetchAdd t =>
    simp only [SendSys.step] at hstep
    split at hstep
    · next pkg sc hpc =>
      obtain rfl := Option.some.inj hstep
      have hnot : ¬s.cell.isFull c := hok
      rw [hi.isFull_iff] at hnot
      have hroom := hi.room
      exact ⟨lo, k, hi.fetchAdd hpc (by omega)⟩
    · cases hstep
  | store t =>
    simp only [SendSys.step] at hstep
    split at hstep
    · next pos sc hpc =>
      obtain rfl := Option.some.inj hstep
      exact ⟨lo, k, hi.store hpc⟩
    · cases hstep
  | publish t =>
    simp only [SendSys.step] at hstep
    split at hstep
    · next pos hpc =>
      obtain ⟨cell, hset, hnew⟩ := hi.publish hpc
      rw [hset, access] at hstep
      obtain rfl := Option.some.inj hstep
      exact ⟨lo, k, hnew⟩
    · cases hstep
  | enableRead => exact ⟨lo, k, hi.call (enableRead_isSome hok) hstep⟩
  | readChche =>
    refine ⟨lo, k, hi.call (r := s.cell.readChche c) ?_ hstep⟩
    rw [SendCell.readChche, SendCell.reading_isSome]
    exact enableRead_isSome hok
  | readEnableLen =>
    refine ⟨lo, k, hi.call (r := s.cell.readEnableLen c) ?_ hstep⟩
    rw [SendCell.readEnableLen_isSome]
    exact enableRead_isSome hok
  | hasRead len =>
    obtain ⟨u, hu⟩ := hok
    simp only [SendSys.step] at hstep
    split at hstep
    · next n hidle hn =>
      split_ifs at hstep with hlen
      rw [hu] at hstep
      obtain rfl := Option.some.inj hstep
      exact ⟨lo, hi.hasRead hidle hu hn hlen⟩
    · cases hstep
  | disable =>
    simp only [SendSys.step] at hstep
    split at hstep
    · next rpos hr =>
      obtain ⟨cell, hset, hnew⟩ := hi.disable hr
      rw [hset, access] at hstep
      obtain rfl := Option.some.inj hstep
      exact ⟨lo, k, hnew⟩
    · cases hstep
  | advance =>
    simp only [SendSys.step] at hstep
    split at hstep
    · next rpos hr =>
      obtain rfl := Option.some.inj hstep
      exact ⟨lo, k, hi.advance hr⟩
    · cases hstep
  | clear =>
    simp only [SendSys.step] at hstep
    split at hstep
    · next rpos hr =>
      obtain ⟨cell, hset, hnew⟩ := hi.clear hr
      rw [hset, access] at hstep
      obtain rfl := Option.some.inj hstep
      exact ⟨lo + 1, 0, hnew⟩
    · cases hstep

/-! ## What the invariant gives -/

theorem kept (hi : s.Inv lo k) (hread : s.cell.readPos ≤ pos) (hpkg : s.reserved[pos]? = some pkg)
    (hstored : ∀ t sc, s.writing t ≠ .reserved pos sc) :
    ∃ u, s.slotAt pos = .unit u ∧ u.ptr = pkg.bytes := by
  have hlt := hi.lt_of_get hpkg
  have hroom := hi.room
  have hle := hi.readPos_le
  have hlo : lo ≤ pos := by
    have hr := hi.reader
    unfold ReaderOk at hr
    cases h : s.reading <;> rw [h] at hr <;> obtain ⟨hpos, -⟩ := hr <;> omega
  have hslots := hi.slots pos hlo (by omega)
  by_cases hheld : ∃ t, (s.writing t).pos? = some pos
  · obtain ⟨t, ht⟩ := hheld
    cases hpc : s.writing t with
    | idle | built _ _ => simp [hpc, WritePc.pos?] at ht
    | reserved p sc =>
      obtain rfl : p = pos := by simpa [hpc, WritePc.pos?] using ht
      exact absurd hpc (hstored t sc)
    | stored p =>
      obtain rfl : p = pos := by simpa [hpc, WritePc.pos?] using ht
      obtain ⟨pkg', hpkg', hunit⟩ := hslots.stored t hpc
      obtain rfl := Option.some.inj (hpkg.symm.trans hpkg')
      exact ⟨_, hunit, rfl⟩
  · refine ⟨_, hslots.published (fun t ht => hheld ⟨t, ht⟩) pkg hpkg, ?_⟩
    unfold part
    split_ifs <;> rfl

theorem inOrder (hi : s.Inv lo k) : s.bytesBefore s.cell.readPos <+: s.bytesRead ∧
    s.bytesRead <+: s.bytesBefore (s.cell.readPos + 1) := by
  have hbytes := hi.bytes
  have hr := hi.reader
  unfold ReaderOk at hr
  cases h : s.reading with
  | idle | used _ | disabled _ =>
    rw [h] at hr
    rw [hr.1, hbytes, bytesBefore_succ]
    exact ⟨List.prefix_append _ _, (List.prefix_append_right_inj _).mpr (List.take_prefix _ _)⟩
  | advanced rpos =>
    rw [h] at hr
    obtain ⟨hread, -, pkg, hpkg, rfl⟩ := hr
    have hall : s.bytesRead = s.bytesBefore (lo + 1) := by
      rw [hbytes, bytesBefore_succ, bytesAt, hpkg]
      simp
    rw [hread, hall]
    exact ⟨List.prefix_rfl, by rw [bytesBefore_succ s (lo + 1)]; exact List.prefix_append _ _⟩

theorem readable (hi : s.Inv lo k) (hidle : s.reading = .idle)
    (hlt : s.cell.readPos < s.cell.writePos)
    (hnone : ∀ t, (s.writing t).pos? ≠ some s.cell.readPos) :
    ∃ rest, rest ≠ [] ∧ s.bytesRead ++ rest = s.bytesBefore (s.cell.readPos + 1) ∧
      s.cell.readChche c = some (some rest) ∧ s.cell.readEnableLen c = some rest.length := by
  have hread := hi.rpos_idle hidle
  have hempty : ¬s.cell.isEmpty c := by
    rw [hi.isEmpty_iff]
    exact hlt.ne
  rw [hread] at hlt hnone
  have hsize := c.two_le
  obtain ⟨pkg, hpkg⟩ := hi.get_of_lt hlt
  have hunit := (hi.slots lo le_rfl (by omega)).published hnone pkg hpkg
  have hr := hi.reader
  unfold ReaderOk at hr
  rw [hidle] at hr
  have hk := hr.2 pkg hpkg
  rw [part, if_pos rfl, hidle] at hunit
  have hu : s.cell.scuPtr (s.cell.rpos c) = .unit (pkg.unit k true) := by
    rw [SendCell.rpos, hread]
    exact hunit
  have henable := SendCell.enableRead_unit hempty hu
  refine ⟨pkg.bytes.drop k, ?_, ?_, SendCell.reading_enabled _ henable hu, ?_⟩
  · rw [Ne, List.drop_eq_nil_iff]
    omega
  · rw [hread, bytesBefore_succ, hi.bytes, bytesAt, hpkg, List.append_assoc]
    exact congrArg _ (List.take_append_drop k pkg.bytes)
  · rw [SendCell.readEnableLen, SendCell.reading_enabled _ henable hu, List.length_drop,
      SendCellUnit.restLen_unit true (hi.fits pkg (List.mem_of_getElem? hpkg)) hk.le]
    rfl

theorem lossless (hi : s.Inv lo k) : s.Lossless where
  noFault := hi.fault
  kept := fun _ _ hread hpkg hstored => hi.kept hread hpkg hstored
  notEmpty := hi.isEmpty_iff.mp
  ownSlot := by
    intro rpos hr p hread hlt hmod
    have hreader := hi.reader
    have hroom := hi.room
    unfold ReaderOk at hreader
    rw [hr] at hreader
    obtain ⟨hpos, rfl, -⟩ := hreader
    have hsize := c.two_le
    have hwindow : lo ≤ p := by omega
    have heq := CircularBuffer.window_inj hwindow (by omega) le_rfl (by omega) hmod
    omega
  inOrder := hi.inOrder
  readable := hi.readable

end Inv

theorem fault_of_call {α : Type*} {r : Option α} (hr : ¬r.isSome) (hstep : s.call r = some s') :
    s'.fault = true := by
  obtain rfl : r = none := by simpa using hr
  unfold call at hstep
  split at hstep
  · obtain rfl := Option.some.inj hstep
    rfl
  · cases hstep

theorem enableRead_fails (h : ¬(s.cell.isEmpty c ∨ s.cell.scuPtr (s.cell.rpos c) ≠ .unset)) :
    ¬(s.cell.enableRead c).isSome := by
  rw [Option.isSome_iff_ne_none, Ne, SendCell.enableRead_eq_none_iff]
  tauto

/-- A step that is not careful breaks the promise at once. -/
theorem Inv.breaks {a : SendAct c} (hi : s.Inv lo k) (hok : ¬s.Careful a)
    (hstep : s.step a = some s') : ¬s'.Lossless := by
  intro hl
  have hfault := hl.noFault
  cases a with
  | isFull t pkg =>
    simp only [SendSys.step] at hstep
    split at hstep
    · obtain rfl := Option.some.inj hstep
      obtain ⟨hfull, hfits⟩ := not_or.mp hok
      rw [if_neg hfull, Package.newUnit_eq_none hfits, access] at hfault
      cases hfault
    · cases hstep
  | fetchAdd t =>
    have hfull : s.cell.isFull c := not_not.mp hok
    simp only [SendSys.step] at hstep
    split at hstep
    · -- the positions are a whole round apart now, which `is_empty` takes for none
      obtain rfl := Option.some.inj hstep
      rw [hi.isFull_iff] at hfull
      have hempty := hl.notEmpty (SendCell.isEmpty_iff.mpr (by
        change (s.cell.writePos + 1) % _ = s.cell.readPos % _
        rw [hfull, Nat.add_mod_right]))
      have hsize := c.two_le
      change s.cell.readPos = s.cell.writePos + 1 at hempty
      omega
    · cases hstep
  | enableRead =>
    rw [fault_of_call (enableRead_fails hok) hstep] at hfault
    cases hfault
  | readChche =>
    have hnone : ¬(s.cell.readChche c).isSome := by
      rw [SendCell.readChche, SendCell.reading_isSome]
      exact enableRead_fails hok
    rw [fault_of_call hnone hstep] at hfault
    cases hfault
  | readEnableLen =>
    have hnone : ¬(s.cell.readEnableLen c).isSome := by
      rw [SendCell.readEnableLen_isSome]
      exact enableRead_fails hok
    rw [fault_of_call hnone hstep] at hfault
    cases hfault
  | hasRead len =>
    simp only [SendSys.step] at hstep
    split at hstep
    · split_ifs at hstep
      cases hptr : s.cell.scuPtr (s.cell.rpos c) with
      | unset | null =>
        rw [hptr] at hstep
        obtain rfl := Option.some.inj hstep
        cases hfault
      | unit u => exact hok ⟨u, hptr⟩
    · cases hstep
  | store _ | publish _ | disable | advance | clear => exact hok trivial

theorem Inv.init : Inv ({} : SendSys c) 0 0 := by
  have hsize := c.two_le
  refine ⟨rfl, ⟨nofun, nofun⟩, nofun, nofun, rfl, nofun, le_rfl, ?_, ?_, fun h => absurd rfl h,
    ⟨rfl, nofun⟩, rfl⟩
  · change 0 < 0 + c.sendCellSize
    omega
  · intro p _ _
    exact ⟨nofun, nofun, fun _ => nofun, fun _ => rfl⟩

/-- The cell keeps its promise all the way exactly when every step was a careful one. -/
theorem lossless_iff {acts : List (SendAct c)} (h : Run step anyStep {} acts s) :
    Throughout step {} acts (fun _ s => s.Lossless) ↔ Run step Careful {} acts s := by
  refine h.throughout_iff (fun _ s => ∃ lo k, s.Inv lo k) _ ⟨0, 0, .init⟩ ?_ ?_ ?_
  · rintro _ s ⟨lo, k, hi⟩
    exact hi.lossless
  · rintro _ s a t ⟨lo, k, hi⟩ hok hstep
    exact hi.step hok hstep
  · rintro _ s a t ⟨lo, k, hi⟩ hok hstep
    exact hi.breaks hok hstep

/-- A cell of two slots, for packages with a header of one byte. -/
def twoSlots : Consts := ⟨2, 1, 8, by decide, by decide, by decide, by decide⟩

def onePackage (head : UInt8) (payload : List UInt8) : Package twoSlots := ⟨[head], payload, rfl⟩

def writeSteps (t : ℕ) (pkg : Package twoSlots) : List (SendAct twoSlots) :=
  [.isFull t pkg, .fetchAdd t, .store t, .publish t]

theorem lossless_iff_one_write : ∃ s,
    Run step anyStep {} (writeSteps 0 (onePackage 1 [2, 3]) ++ [.readEnableLen, .hasRead 3]) s ∧
    (Throughout step {} (writeSteps 0 (onePackage 1 [2, 3]) ++ [.readEnableLen, .hasRead 3])
        (fun _ s => s.Lossless) ↔
      Run step Careful {}
        (writeSteps 0 (onePackage 1 [2, 3]) ++ [.readEnableLen, .hasRead 3]) s) := by
  refine ⟨_, .of_exec (fun _ _ _ => trivial) rfl, lossless_iff ?_⟩
  exact .of_exec (fun _ _ _ => trivial) rfl

/-- Two writers find the last slot free before either of them takes it. Both take a position, the
cell counts as empty with two units in it, and the next write goes over the first one. -/
theorem two_writers_pass_is_full : ∃ s₁ s₂,
    Run step anyStep {}
      ([.isFull 0 (onePackage 1 []), .isFull 1 (onePackage 2 []), .fetchAdd 0, .fetchAdd 1, .store 0,
        .store 1, .publish 0, .publish 1] : List (SendAct twoSlots)) s₁ ∧
    ¬s₁.Lossless ∧ s₁.cell.isEmpty twoSlots ∧ s₁.cell.readPos = 0 ∧
    s₁.slotAt 0 = .unit ((onePackage 1 []).unit 0 true) ∧
    s₁.slotAt 1 = .unit ((onePackage 2 []).unit 0 true) ∧
    Run step anyStep s₁ (writeSteps 0 (onePackage 3 [])) s₂ ∧ s₂.cell.readPos = 0 ∧
    s₂.slotAt 0 = .unit ((onePackage 3 []).unit 0 true) := by
  refine ⟨_, _, .of_exec (fun _ _ _ => trivial) rfl, ?_, rfl, rfl, rfl, rfl,
    .of_exec (fun _ _ _ => trivial) rfl, rfl, rfl⟩
  intro h
  cases h.notEmpty rfl

end SendSys
end TcpLib.TcpCommon
