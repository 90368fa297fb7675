import TcpLib.PackageCell
import TcpLib.Lib.Transition

/-!
# Writers and reader of a send cell

A write is split into the test of `is_full` with the unit that is built after it, the
fetch-and-increment of `m_write_pos`, the store of the pointer and the store of `enableRead`; the
end of a unit in `has_read` into the reset of `enableRead`, the increment of `m_read_pos` and the
clearing of the pointer. The steps of any number of writers and of one reader come in any order.
`reserved` lists the packages in the order of their fetch-and-increment, `bytesRead` the bytes that
`has_read` was told of, and `fault` is set by an access that has no result.
-/

namespace TcpLib.TcpCommon
open Transition TicketRing
variable {c : Consts}

/-- How far a writer is in `write_chche`. -/
inductive WritePc (c : Consts)
  | idle
  | built (pkg : Package c) (sc : SendCellUnit)
  | reserved (pos : ℕ) (sc : SendCellUnit)
  | stored (pos : ℕ)

def WritePc.pos? : WritePc c → Option ℕ
  | .idle | .built _ _ => none
  | .reserved pos _ | .stored pos => some pos

/-- How far the reader is in `has_read`, once it has found a unit to be sent. -/
inductive HasReadPc
  | idle
  | used (rpos : ℕ)
  | disabled (rpos : ℕ)
  | advanced (rpos : ℕ)

/-- The value of `enableRead` in the unit that is being read. -/
def HasReadPc.enabled : HasReadPc → Bool
  | .idle | .used _ => true
  | .disabled _ | .advanced _ => false

structure SendSys (c : Consts) where
  cell : SendCell := {}
  writing : ℕ → WritePc c := fun _ => .idle
  reading : HasReadPc := .idle
  reserved : List (Package c) := []
  bytesRead : List UInt8 := []
  fault : Bool := false

inductive SendAct (c : Consts)
  | isFull (t : ℕ) (pkg : Package c)
  | fetchAdd (t : ℕ)
  | store (t : ℕ)
  | publish (t : ℕ)
  | enableRead
  | readChche
  | readEnableLen
  | hasRead (len : ℕ)
  | disable
  | advance
  | clear

namespace SendSys

def setWrite (s : SendSys c) (t : ℕ) (pc : WritePc c) : SendSys c :=
  { s with writing := Function.update s.writing t pc }

/-- The rest of a step after an access. -/
def access {α : Type*} (s : SendSys c) (r : Option α) (k : α → SendSys c) : SendSys c :=
  match r with
  | some a => k a
  | none => { s with fault := true }

/-- A call of the reader that changes nothing. -/
def call {α : Type*} (s : SendSys c) (r : Option α) : Option (SendSys c) :=
  match s.reading with
  | .idle => some (s.access r fun _ => s)
  | _ => none

def step (s : SendSys c) : SendAct c → Option (SendSys c)
  | .isFull t pkg =>
    match s.writing t with
    | .idle => some <|
      if s.cell.isFull c then s
      else s.access pkg.newUnit fun sc => s.setWrite t (.built pkg sc)
    | _ => none
  | .fetchAdd t =>
    match s.writing t with
    | .built pkg sc =>
      some { s.setWrite t (.reserved s.cell.writePos sc) with
        cell := s.cell.fetchAddWrite
        reserved := s.reserved ++ [pkg] }
    | _ => none
  | .store t =>
    match s.writing t with
    | .reserved pos sc =>
      some { s.setWrite t (.stored pos) with
        cell := s.cell.store (pos % c.sendCellSize) (.unit sc) }
    | _ => none
  | .publish t =>
    match s.writing t with
    | .stored pos => some <| s.access (s.cell.setEnableRead (pos % c.sendCellSize) true) fun cell =>
      { s.setWrite t .idle with cell := cell }
    | _ => none
  | .enableRead => s.call (s.cell.enableRead c)
  | .readChche => s.call (s.cell.readChche c)
  | .readEnableLen => s.call (s.cell.readEnableLen c)
  | .hasRead len =>
    match s.reading, s.cell.readEnableLen c with
    | .idle, some n =>
      -- the reader never reports more than it was given
      if len ≤ n then some <| s.access (s.cell.scuPtr (s.cell.rpos c)).deref fun sc =>
        { s with
          cell := s.cell.store (s.cell.rpos c) (.unit (sc.moveSendPos len))
          reading := if (sc.moveSendPos len).Sent then .used (s.cell.rpos c) else .idle
          bytesRead := s.bytesRead ++ sc.rest.take len }
      else none
    | _, _ => none
  | .disable =>
    match s.reading with
    | .used rpos => some <| s.access (s.cell.setEnableRead rpos false) fun cell =>
      { s with cell := cell, reading := .disabled rpos }
    | _ => none
  | .advance =>
    match s.reading with
    | .disabled rpos => some { s with cell := s.cell.fetchAddRead, reading := .advanced rpos }
    | _ => none
  | .clear =>
    match s.reading with
    | .advanced rpos => some <| s.access (s.cell.clearSlot rpos) fun cell =>
      { s with cell := cell, reading := .idle }
    | _ => none

/-- The steps that the cell is made for: a package whose block has a size, a position that is still
free when it is taken, a test of a pointer that was set, and `has_read` only of a unit. -/
def Careful (s : SendSys c) : SendAct c → Prop
  | .isFull _ pkg => s.cell.isFull c ∨ pkg.Fits
  | .fetchAdd _ => ¬s.cell.isFull c
  | .enableRead | .readChche | .readEnableLen =>
    s.cell.isEmpty c ∨ s.cell.scuPtr (s.cell.rpos c) ≠ .unset
  | .hasRead _ => ∃ u, s.cell.scuPtr (s.cell.rpos c) = .unit u
  | .store _ | .publish _ | .disable | .advance | .clear => True

def slotAt (s : SendSys c) (pos : ℕ) : ScuPtr := s.cell.scuPtr (pos % c.sendCellSize)

/-- The bytes of the packages before a position. -/
def bytesBefore (s : SendSys c) (pos : ℕ) : List UInt8 := (s.reserved.take pos).flatMap Package.bytes

/-- What the cell promises: no access goes wrong, no unread unit is overwritten, `is_empty` means
that every position taken has been read, no refilled pointer is cleared, the bytes come in order
and a published unit is there for the reader. -/
structure Lossless (s : SendSys c) : Prop where
  noFault : s.fault = false
  kept : ∀ pos pkg, s.cell.readPos ≤ pos → s.reserved[pos]? = some pkg →
    (∀ t sc, s.writing t ≠ .reserved pos sc) → ∃ u, s.slotAt pos = .unit u ∧ u.ptr = pkg.bytes
  notEmpty : s.cell.isEmpty c → s.cell.readPos = s.cell.writePos
  ownSlot : ∀ rpos, s.reading = .advanced rpos → ∀ pos, s.cell.readPos ≤ pos →
    pos < s.cell.writePos → pos % c.sendCellSize ≠ rpos
  inOrder : s.bytesBefore s.cell.readPos <+: s.bytesRead ∧
    s.bytesRead <+: s.bytesBefore (s.cell.readPos + 1)
  readable : s.reading = .idle → s.cell.readPos < s.cell.writePos →
    (∀ t, (s.writing t).pos? ≠ some s.cell.readPos) →
    ∃ rest, rest ≠ [] ∧ s.bytesRead ++ rest = s.bytesBefore (s.cell.readPos + 1) ∧
      s.cell.readChche c = some (some rest) ∧ s.cell.readEnableLen c = some rest.length

/-- What the slot of a position in the window holds. `part` is the unit as the reader leaves it. -/
structure SlotOk (s : SendSys c) (part : Package c → SendCellUnit) (pos : ℕ) : Prop where
  reserved : ∀ t sc, s.writing t = .reserved pos sc →
    (s.slotAt pos).Blank ∧ ∃ pkg, s.reserved[pos]? = some pkg ∧ sc = pkg.unit 0 false
  stored : ∀ t, s.writing t = .stored pos →
    ∃ pkg, s.reserved[pos]? = some pkg ∧ s.slotAt pos = .unit (pkg.unit 0 false)
  published : (∀ t, (s.writing t).pos? ≠ some pos) →
    ∀ pkg, s.reserved[pos]? = some pkg → s.slotAt pos = .unit (part pkg)
  free : s.cell.writePos ≤ pos → (s.slotAt pos).Blank

/-- A published unit in a window from `lo` on, when `k` bytes of the first one are read. -/
def part (s : SendSys c) (lo k pos : ℕ) (pkg : Package c) : SendCellUnit :=
  if pos = lo then pkg.unit k s.reading.enabled else pkg.unit 0 true

/-- Where the reader is, when `k` bytes of the unit at `lo` are read. -/
def ReaderOk (s : SendSys c) (lo k : ℕ) : Prop :=
  match s.reading with
  | .idle => s.cell.readPos = lo ∧ ∀ pkg, s.reserved[lo]? = some pkg → k < pkg.bytes.length
  | .used rpos | .disabled rpos => s.cell.readPos = lo ∧ rpos = lo % c.sendCellSize ∧
      ∃ pkg, s.reserved[lo]? = some pkg ∧ k = pkg.bytes.length
  | .advanced rpos => s.cell.readPos = lo + 1 ∧ rpos = lo % c.sendCellSize ∧
      ∃ pkg, s.reserved[lo]? = some pkg ∧ k = pkg.bytes.length

def bytesAt (s : SendSys c) (pos : ℕ) : List UInt8 := s.reserved[pos]?.elim [] Package.bytes

structure Inv (s : SendSys c) (lo k : ℕ) : Prop where
  fault : s.fault = false
  drawn : Drawn (fun t => (s.writing t).pos?) s.cell.writePos
  low : ∀ t pos, (s.writing t).pos? = some pos → lo ≤ pos
  built : ∀ t pkg sc, s.writing t = .built pkg sc → pkg.Fits ∧ sc = pkg.unit 0 false
  len : s.reserved.length = s.cell.writePos
  fits : ∀ pkg ∈ s.reserved, pkg.Fits
  le : lo ≤ s.cell.writePos
  room : s.cell.writePos < s.cell.readPos + c.sendCellSize
  slots : ∀ pos, lo ≤ pos → pos < lo + c.sendCellSize → s.SlotOk (s.part lo k pos) pos
  begun : k ≠ 0 → lo < s.cell.writePos ∧ ∀ t, (s.writing t).pos? ≠ some lo
  reader : s.ReaderOk lo k
  bytes : s.bytesRead = s.bytesBefore lo ++ (s.bytesAt lo).take k

variable {s s' : SendSys c} {t pos lo k k' : ℕ} {pc : WritePc c} {pkg : Package c} {sc : SendCellUnit}
  {part part' : Package c → SendCellUnit}

theorem SlotOk.congr (h : s.SlotOk part pos)
    (hpc : ∀ t, (s.writing t).pos? = some pos ∨ (s'.writing t).pos? = some pos →
      s'.writing t = s.writing t)
    (hslot : s'.slotAt pos = s.slotAt pos) (hres : s'.reserved[pos]? = s.reserved[pos]?)
    (hwrite : s'.cell.writePos ≤ pos → s.cell.writePos ≤ pos)
    (hpart : ∀ pkg, part' pkg = part pkg) : s'.SlotOk part' pos := by
  constructor
  · intro t sc ht
    rw [hslot, hres]
    exact h.reserved t sc ((hpc t (Or.inr (by rw [ht]; rfl))).symm.trans ht)
  · intro t ht
    rw [hslot, hres]
    exact h.stored t ((hpc t (Or.inr (by rw [ht]; rfl))).symm.trans ht)
  · intro hnone pkg hpkg
    rw [hslot, hpart]
    refine h.published ?_ pkg (hres.symm.trans hpkg)
    intro t ht
    exact hnone t (by rw [hpc t (Or.inl ht), ht])
  · intro hle
    rw [hslot]
    exact h.free (hwrite hle)

theorem ReaderOk.reserve (hr : s.ReaderOk lo k) (hreading : s'.reading = s.reading)
    (hread : s'.cell.readPos = s.cell.readPos)
    (hkeep : ∀ pkg, s.reserved[lo]? = some pkg → s'.reserved[lo]? = some pkg)
    (hnew : ∀ pkg, s'.reserved[lo]? = some pkg → k = 0 ∨ s.reserved[lo]? = some pkg) :
    s'.ReaderOk lo k := by
  unfold ReaderOk at hr ⊢
  rw [hreading, hread]
  cases h : s.reading with
  | idle =>
    rw [h] at hr
    refine ⟨hr.1, fun pkg hpkg => ?_⟩
    rcases hnew pkg hpkg with rfl | hold
    · exact pkg.bytes_pos
    · exact hr.2 pkg hold
  | used _ | disabled _ | advanced _ =>
    rw [h] at hr
    obtain ⟨hpos, hrpos, pkg, hpkg, hlen⟩ := hr
    exact ⟨hpos, hrpos, pkg, hkeep pkg hpkg, hlen⟩

@[simp] theorem setWrite_self : (s.setWrite t pc).writing t = pc := Function.update_self ..

theorem setWrite_ne {t' : ℕ} (h : t' ≠ t) : (s.setWrite t pc).writing t' = s.writing t' :=
  Function.update_of_ne h ..

theorem pos?_setWrite (s : SendSys c) (t : ℕ) (pc : WritePc c) (t' : ℕ) :
    ((s.setWrite t pc).writing t').pos? =
      Function.update (fun t' => (s.writing t').pos?) t pc.pos? t' := by
  by_cases h : t' = t
  · subst h
    simp
  · rw [setWrite_ne h, Function.update_of_ne h]

/-- Nothing changes for a position that the writer neither held nor holds. -/
theorem setWrite_of_unheld (hold : (s.writing t).pos? ≠ some pos) (hnew : pc.pos? ≠ some pos)
    (t' : ℕ) (h : (s.writing t').pos? = some pos ∨ ((s.setWrite t pc).writing t').pos? = some pos) :
    (s.setWrite t pc).writing t' = s.writing t' := by
  apply setWrite_ne
  rintro rfl
  rcases h with h | h
  · exact hold h
  · rw [setWrite_self] at h
    exact hnew h

namespace Inv

theorem readPos_le (hi : s.Inv lo k) : s.cell.readPos ≤ lo + 1 := by
  have hr := hi.reader
  unfold ReaderOk at hr
  cases h : s.reading <;> rw [h] at hr <;> obtain ⟨hpos, -⟩ := hr <;> omega

theorem in_window (hi : s.Inv lo k) (ht : (s.writing t).pos? = some pos) :
    lo ≤ pos ∧ pos < s.cell.writePos ∧ pos < lo + c.sendCellSize := by
  have hlt := hi.drawn.lt t pos ht
  have hroom := hi.room
  have hread := hi.readPos_le
  exact ⟨hi.low t pos ht, hlt, by omega⟩

/-- A step of one writer on the slot of its position. -/
theorem write (hi : s.Inv lo k) (ht : (s.writing t).pos? = some pos)
    (hpc : pc.pos? = some pos ∨ pc = .idle) {ptr : ScuPtr}
    (hslot : SlotOk { s.setWrite t pc with cell := s.cell.store (pos % c.sendCellSize) ptr }
      (s.part lo k pos) pos) :
    Inv { s.setWrite t pc with cell := s.cell.store (pos % c.sendCellSize) ptr } lo k := by
  obtain ⟨hlo, -, hhi⟩ := hi.in_window ht
  have hkeep : pc.pos? = (s.writing t).pos? ∨ pc.pos? = none :=
    hpc.imp (·.trans ht.symm) (congrArg WritePc.pos?)
  have hdrawn : Drawn (fun t' => ((s.setWrite t pc).writing t').pos?) s.cell.writePos := by
    rw [funext (pos?_setWrite s t pc)]
    exact hi.drawn.keep hkeep
  have hheld (t' p : ℕ) (h : ((s.setWrite t pc).writing t').pos? = some p) :
      (s.writing t').pos? = some p := by
    rw [pos?_setWrite] at h
    have hold := held_of_update h hkeep
    exact hold
  have hpos (p : ℕ) (h : pc.pos? = some p) : (s.writing t).pos? = some p :=
    hheld t p ((congrArg WritePc.pos? setWrite_self).trans h)
  refine ⟨hi.fault, hdrawn, fun t' p h => hi.low t' p (hheld t' p h), ?_, hi.len, hi.fits, hi.le,
    hi.room, ?_, ?_, hi.reader, hi.bytes⟩
  · intro t' pkg sc h
    have htt : t' ≠ t := by
      rintro rfl
      rw [setWrite_self] at h
      subst h
      rcases hpc with hpc | hpc <;> cases hpc
    exact hi.built t' pkg sc ((setWrite_ne htt).symm.trans h)
  · intro p hp hp'
    by_cases hpp : p = pos
    · subst hpp
      exact hslot
    · have hne : (s.writing t).pos? ≠ some p := by
        rw [ht]
        exact fun h => hpp (Option.some.inj h).symm
      refine (hi.slots p hp hp').congr (setWrite_of_unheld hne fun h => hne (hpos p h)) ?_ rfl id
        fun _ => rfl
      exact update_slot_ne hlo hhi hp hp' hpp _ _
  · intro hk
    obtain ⟨hlt, hnone⟩ := hi.begun hk
    exact ⟨hlt, fun t' h => hnone t' (hheld t' lo h)⟩

theorem store (hi : s.Inv lo k) (ht : s.writing t = .reserved pos sc) :
    Inv { s.setWrite t (.stored pos) with
      cell := s.cell.store (pos % c.sendCellSize) (.unit sc) } lo k := by
  have hpos : (s.writing t).pos? = some pos := by rw [ht]; rfl
  obtain ⟨hlo, hlt, hhi⟩ := hi.in_window hpos
  obtain ⟨-, pkg, hpkg, rfl⟩ := (hi.slots pos hlo hhi).reserved t sc ht
  refine hi.write hpos (Or.inl rfl) ⟨?_, ?_, ?_, ?_⟩
  · intro t' sc' ht'
    exfalso
    have htt : t' ≠ t := by
      rintro rfl
      simp at ht'
    have hpos' : (s.writing t').pos? = some pos := by rw [← setWrite_ne htt, ht']; rfl
    exact htt (hi.drawn.distinct t' t pos hpos' hpos)
  · intro t' _
    exact ⟨pkg, hpkg, Function.update_self ..⟩
  · intro hnone
    exact absurd (by rw [setWrite_self]; rfl) (hnone t)
  · intro hle
    exact absurd hle (Nat.not_le_of_lt hlt)

/-- Only an idle reader is at a unit that a writer still has a hand on. -/
theorem zero_of_held (hi : s.Inv lo k) (ht : (s.writing t).pos? = some lo) :
    k = 0 ∧ s.reading = .idle := by
  have hk : k = 0 := by
    by_contra hk
    exact (hi.begun hk).2 t ht
  refine ⟨hk, ?_⟩
  have hr := hi.reader
  unfold ReaderOk at hr
  cases h : s.reading with
  | idle => rfl
  | used _ | disabled _ | advanced _ =>
    rw [h] at hr
    obtain ⟨-, -, pkg, -, hlen⟩ := hr
    have hpos := pkg.bytes_pos
    omega

theorem publish (hi : s.Inv lo k) (ht : s.writing t = .stored pos) :
    ∃ cell, s.cell.setEnableRead (pos % c.sendCellSize) true = some cell ∧
      Inv { s.setWrite t .idle with cell := cell } lo k := by
  have hpos : (s.writing t).pos? = some pos := by rw [ht]; rfl
  obtain ⟨hlo, hlt, hhi⟩ := hi.in_window hpos
  obtain ⟨pkg, hpkg, hptr⟩ := (hi.slots pos hlo hhi).stored t ht
  refine ⟨_, SendCell.modify_unit hptr _, hi.write hpos (Or.inr rfl) ?_⟩
  have hpart : s.part lo k pos pkg = pkg.unit 0 true := by
    unfold part
    split_ifs with heq
    · obtain ⟨rfl, hidle⟩ := hi.zero_of_held (heq ▸ hpos)
      rw [hidle]
      rfl
    · rfl
  have hgone (t' : ℕ) : ((s.setWrite t .idle).writing t').pos? ≠ some pos := by
    by_cases htt : t' = t
    · subst htt
      simp [WritePc.pos?]
    · rw [setWrite_ne htt]
      exact fun h => htt (hi.drawn.distinct t' t pos h hpos)
  refine ⟨?_, ?_, ?_, ?_⟩
  · intro t' sc' ht'
    exact absurd (congrArg WritePc.pos? ht') (hgone t')
  · intro t' ht'
    exact absurd (congrArg WritePc.pos? ht') (hgone t')
  · intro _ pkg' hpkg'
    obtain rfl : pkg = pkg' := Option.some.inj (hpkg.symm.trans hpkg')
    rw [hpart]
    exact Function.update_self ..
  · intro hle
    exact absurd hle (Nat.not_le_of_lt hlt)

theorem build (hi : s.Inv lo k) (ht : s.writing t = .idle) (hfits : pkg.Fits) :
    Inv (s.setWrite t (.built pkg (pkg.unit 0 false))) lo k := by
  have hnone : (s.writing t).pos? = none := congrArg WritePc.pos? ht
  have hpos (t' : ℕ) :
      ((s.setWrite t (.built pkg (pkg.unit 0 false))).writing t').pos? = (s.writing t').pos? := by
    rw [pos?_setWrite, WritePc.pos?, ← hnone, Function.update_eq_self]
  refine ⟨hi.fault, ?_, fun t' p h => hi.low t' p ((hpos t').symm.trans h), ?_, hi.len, hi.fits, hi.le,
    hi.room, ?_, ?_, hi.reader, hi.bytes⟩
  · exact (congrArg (Drawn · s.cell.writePos) (funext hpos)).mpr hi.drawn
  · intro t' pkg' sc' h
    by_cases htt : t' = t
    · subst htt
      rw [setWrite_self] at h
      obtain ⟨rfl, rfl⟩ := WritePc.built.inj h
      exact ⟨hfits, rfl⟩
    · exact hi.built t' pkg' sc' ((setWrite_ne htt).symm.trans h)
  · intro p hp hp'
    refine (hi.slots p hp hp').congr (setWrite_of_unheld ?_ nofun) rfl rfl id fun _ => rfl
    rw [hnone]
    nofun
  · intro hk
    obtain ⟨hlt, hnone⟩ := hi.begun hk
    exact ⟨hlt, fun t' h => hnone t' ((hpos t').symm.trans h)⟩

theorem unread_of_new (hi : s.Inv lo k) (hlo : lo = s.cell.writePos) : k = 0 := by
  by_contra hk
  exact hlo.not_lt (hi.begun hk).1

/-- The state after a fetch-and-increment, in which the new position is the writer's. -/
theorem slotOk_taken (hi : s.Inv lo k) (ht : (s.writing t).pos? = none)
    (hfree : (s.slotAt s.cell.writePos).Blank) (part : Package c → SendCellUnit) :
    SlotOk { s.setWrite t (.reserved s.cell.writePos (pkg.unit 0 false)) with
      cell := s.cell.fetchAddWrite, reserved := s.reserved ++ [pkg] } part s.cell.writePos := by
  have hown {t' : ℕ} (h : ((s.setWrite t (.reserved s.cell.writePos
      (pkg.unit 0 false))).writing t').pos? = some s.cell.writePos) : t' = t := by
    rw [pos?_setWrite] at h
    rcases update_eq_some h with ⟨htt, -⟩ | ⟨-, h⟩
    · exact htt
    · exact absurd h (hi.drawn.ne_next t')
  refine ⟨?_, ?_, ?_, ?_⟩
  · intro t' sc h
    refine ⟨hfree, pkg, by simp [← hi.len], ?_⟩
    obtain rfl := hown (congrArg WritePc.pos? h)
    exact (WritePc.reserved.inj (setWrite_self.symm.trans h)).2.symm
  · intro t' h
    obtain rfl := hown (congrArg WritePc.pos? h)
    cases setWrite_self.symm.trans h
  · intro hall
    exact absurd (congrArg WritePc.pos? setWrite_self) (hall t)
  · intro hle
    exact absurd hle (Nat.not_succ_le_self _)

theorem fetchAdd (hi : s.Inv lo k) (ht : s.writing t = .built pkg sc)
    (hroom : s.cell.writePos + 1 < s.cell.readPos + c.sendCellSize) :
    Inv { s.setWrite t (.reserved s.cell.writePos sc) with
      cell := s.cell.fetchAddWrite, reserved := s.reserved ++ [pkg] } lo k := by
  obtain ⟨hfits, rfl⟩ := hi.built t pkg sc ht
  have hnone : (s.writing t).pos? = none := congrArg WritePc.pos? ht
  have hidx := pos?_setWrite s t (.reserved s.cell.writePos (pkg.unit 0 false))
  have hget (p : ℕ) (hp : p ≠ s.cell.writePos) : (s.reserved ++ [pkg])[p]? = s.reserved[p]? :=
    getElem?_concat_of_ne (hi.len.symm ▸ hp)
  refine ⟨hi.fault, ?_, ?_, ?_, ?_, ?_, Nat.le_succ_of_le hi.le, hroom, ?_, ?_, ?_, ?_⟩
  · exact (congrArg (Drawn · (s.cell.writePos + 1)) (funext hidx)).mpr (hi.drawn.draw t)
  · intro t' p h
    rcases update_eq_some ((hidx t').symm.trans h) with ⟨-, hp⟩ | ⟨-, h⟩
    · exact Option.some.inj hp ▸ hi.le
    · exact hi.low t' p h
  · intro t' pkg' sc' h
    by_cases htt : t' = t
    · subst htt
      cases setWrite_self.symm.trans h
    · exact hi.built t' pkg' sc' ((setWrite_ne htt).symm.trans h)
  · simp [SendCell.fetchAddWrite, hi.len]
  · intro pkg' hmem
    rcases List.mem_append.mp hmem with hmem | hmem
    · exact hi.fits pkg' hmem
    · rwa [List.mem_singleton.mp hmem]
  · intro p hp hp'
    by_cases hpp : p = s.cell.writePos
    · subst hpp
      exact hi.slotOk_taken hnone ((hi.slots _ hp hp').free le_rfl) _
    · refine (hi.slots p hp hp').congr (setWrite_of_unheld ?_ ?_) rfl (hget p hpp)
        (fun hle => Nat.le_of_succ_le hle) fun _ => rfl
      · rw [hnone]
        nofun
      · exact fun h => hpp (Option.some.inj h).symm
  · intro hk
    obtain ⟨hlt, hall⟩ := hi.begun hk
    refine ⟨Nat.lt_succ_of_lt hlt, fun t' h => ?_⟩
    rcases update_eq_some ((hidx t').symm.trans h) with ⟨-, hlo⟩ | ⟨-, h⟩
    · exact hlt.ne (Option.some.inj hlo).symm
    · exact hall t' h
  · refine hi.reader.reserve rfl rfl ?_ fun pkg' hpkg' => ?_
    · intro pkg' hpkg'
      exact (List.getElem?_append_left (List.getElem?_eq_some_iff.mp hpkg').1).trans hpkg'
    · by_cases hlo : lo = s.cell.writePos
      · exact Or.inl (hi.unread_of_new hlo)
      · exact Or.inr ((hget lo hlo).symm.trans hpkg')
  · have hbefore : (s.reserved ++ [pkg]).take lo = s.reserved.take lo :=
      List.take_append_of_le_length (hi.len.symm ▸ hi.le)
    have hat : ((s.reserved ++ [pkg])[lo]?.elim [] Package.bytes).take k = (s.bytesAt lo).take k := by
      by_cases hlo : lo = s.cell.writePos
      · rw [hi.unread_of_new hlo, List.take_zero, List.take_zero]
      · rw [hget lo hlo]
        rfl
    rw [bytesBefore, bytesAt, hbefore, hat]
    exact hi.bytes

end Inv
end SendSys
end TcpLib.TcpCommon
