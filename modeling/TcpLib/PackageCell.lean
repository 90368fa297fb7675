import TcpLib.Wire
import TcpLib.Lib.TicketRing

/-!
# The send cell for packages

`tcpCommon::send_cell`: a ring of pointers to units that several writers fill and one reader
empties, given by the accesses that `write_chche` and `has_read` are made of. The constructor sets
the two positions and leaves the pointers as they are. An access through a pointer to no unit, and
a test of a pointer that was never set, have no result.
-/

namespace TcpLib.TcpCommon

/-- The constants that `common.h` gives. -/
structure Consts where
  sendCellSize : ℕ
  packageHeadLen : ℕ
  sendCellUnitSingleSize : ℕ
  two_le : 2 ≤ sendCellSize
  head_pos : 0 < packageHeadLen
  single_pos : 0 < sendCellUnitSingleSize
  single_lt : sendCellUnitSingleSize < 2 ^ 31

/-- The header and the `size` bytes that `write_chche` is called with. -/
structure Package (c : Consts) where
  head : List UInt8
  payload : List UInt8
  length_head : head.length = c.packageHeadLen

structure SendCellUnit where
  ptr : List UInt8
  size : ℤ
  sendPos : ℤ := 0
  bufSize : ℤ
  enableRead : Bool := false
  deriving DecidableEq

namespace Package
variable {c : Consts}

def size (p : Package c) : ℕ := p.payload.length

def bytes (p : Package c) : List UInt8 := p.head ++ p.payload

def bufSize (p : Package c) : ℤ :=
  castInt (sizeT (castInt ((c.packageHeadLen + p.size) / c.sendCellUnitSingleSize + 1) *
    c.sendCellUnitSingleSize))

/-- The unit that `write_chche` builds. Nothing is built when the two copies leave its block. -/
def newUnit (p : Package c) : Option SendCellUnit :=
  if (c.packageHeadLen + p.size : ℕ) ≤ p.bufSize then
    some { ptr := p.bytes, size := castInt (c.packageHeadLen + p.size), bufSize := p.bufSize }
  else none

/-- The size of the block is an `int`. -/
def Fits (p : Package c) : Prop :=
  ((c.packageHeadLen + p.size) / c.sendCellUnitSingleSize + 1) * c.sendCellUnitSingleSize < 2 ^ 31

instance (p : Package c) : Decidable p.Fits := by unfold Fits; infer_instance

/-- The unit of a package after `sent` of its bytes. -/
def unit (p : Package c) (sent : ℕ) (enableRead : Bool) : SendCellUnit where
  ptr := p.bytes
  size := p.bytes.length
  sendPos := sent
  bufSize := p.bufSize
  enableRead := enableRead

variable (p : Package c)

@[simp] theorem length_bytes : p.bytes.length = c.packageHeadLen + p.size := by
  simp [bytes, size, p.length_head]

theorem bytes_pos : 0 < p.bytes.length := by
  rw [length_bytes]
  exact Nat.add_pos_left c.head_pos _

theorem lt_block : c.packageHeadLen + p.size <
    ((c.packageHeadLen + p.size) / c.sendCellUnitSingleSize + 1) * c.sendCellUnitSingleSize := by
  rw [Nat.add_mul, Nat.one_mul, Nat.mul_comm]
  exact Nat.lt_mul_div_succ _ c.single_pos

variable {p}

theorem Fits.length_lt (h : p.Fits) : p.bytes.length < 2 ^ 31 := by
  rw [length_bytes]
  exact p.lt_block.trans h

theorem Fits.newUnit (h : p.Fits) : p.newUnit = some (p.unit 0 false) := by
  have hlt := h.length_lt
  have hblock := p.lt_block
  have hcount : (c.packageHeadLen + p.size) / c.sendCellUnitSingleSize + 1 < 2 ^ 31 :=
    (Nat.le_mul_of_pos_right _ c.single_pos).trans_lt h
  have hbuf : p.bufSize = (((c.packageHeadLen + p.size) / c.sendCellUnitSingleSize + 1) *
      c.sendCellUnitSingleSize : ℕ) := by
    rw [bufSize, castInt_of_lt hcount, ← Nat.cast_mul]
    unfold Fits at h
    exact castInt_sizeT (by omega) (by omega)
  rw [Package.newUnit, if_pos (by rw [hbuf]; exact_mod_cast hblock.le), ← length_bytes,
    castInt_of_lt hlt]
  rfl

/-- A block that is too large for an `int` is taken modulo 2^32, and is too small for the unit. -/
theorem newUnit_eq_none (h : ¬p.Fits) : p.newUnit = none := by
  have hsingle := c.single_lt
  have hblock : ((c.packageHeadLen + p.size) / c.sendCellUnitSingleSize + 1) *
      c.sendCellUnitSingleSize ≤ c.packageHeadLen + p.size + c.sendCellUnitSingleSize := by
    rw [Nat.add_mul, Nat.one_mul]
    exact Nat.add_le_add_right (Nat.div_mul_le_self _ _) _
  have hmod : p.bufSize ≡ (((c.packageHeadLen + p.size) / c.sendCellUnitSingleSize + 1) *
      c.sendCellUnitSingleSize : ℕ) [ZMOD 2 ^ 32] := by
    rw [Nat.cast_mul]
    exact (castInt_modEq _).trans ((sizeT_modEq _).trans ((castInt_modEq _).mul_right _))
  have hlt : p.bufSize < 2 ^ 31 := castInt_lt _
  rw [newUnit, if_neg]
  unfold Fits at h
  unfold Int.ModEq at hmod
  omega

end Package

namespace SendCellUnit

/-- `sendPos += len`, which is computed as a `size_t`. -/
def moveSendPos (u : SendCellUnit) (len : ℕ) : SendCellUnit :=
  { u with sendPos := castInt (sizeT (u.sendPos + len)) }

/-- What `read_chche` points to. -/
def rest (u : SendCellUnit) : List UInt8 := u.ptr.drop u.sendPos.toNat

def restLen (u : SendCellUnit) : ℕ := sizeT (u.size - u.sendPos)

def Sent (u : SendCellUnit) : Prop := u.size ≤ u.sendPos

instance (u : SendCellUnit) : Decidable u.Sent := by unfold Sent; infer_instance

section
variable {c : Consts} (p : Package c) (sent : ℕ) (on : Bool)

@[simp] theorem enableRead_unit : (p.unit sent on).enableRead = on := rfl

@[simp] theorem rest_unit : (p.unit sent on).rest = p.bytes.drop sent := rfl

theorem sent_unit : (p.unit sent on).Sent ↔ p.bytes.length ≤ sent := by
  simp only [Sent, Package.unit, Nat.cast_le]

variable {p sent}

theorem restLen_unit (hfits : p.Fits) (hsent : sent ≤ p.bytes.length) :
    (p.unit sent on).restLen = p.bytes.length - sent := by
  have hlt := hfits.length_lt
  simp only [restLen, Package.unit, sizeT]
  omega

theorem moveSendPos_unit (hfits : p.Fits) {len : ℕ} (hlen : sent + len ≤ p.bytes.length) :
    (p.unit sent on).moveSendPos len = p.unit (sent + len) on := by
  have hlt := hfits.length_lt
  have hpos : castInt (sizeT ((sent : ℤ) + len)) = (sent + len : ℕ) := by
    rw [castInt_sizeT (by omega) (by omega)]
    push_cast
    rfl
  simp only [moveSendPos, Package.unit, hpos]

end
end SendCellUnit

/-- A pointer of `m_scu_ptr`. -/
inductive ScuPtr
  | unset
  | null
  | unit (u : SendCellUnit)
  deriving DecidableEq

namespace ScuPtr

def deref : ScuPtr → Option SendCellUnit
  | .unit u => some u
  | .unset | .null => none

/-- The pointer points to no unit. -/
def Blank (ptr : ScuPtr) : Prop := ptr.deref = none

end ScuPtr

structure SendCell where
  scuPtr : ℕ → ScuPtr := fun _ => .unset
  readPos : ℕ := 0
  writePos : ℕ := 0

namespace SendCell
variable (c : Consts) (s : SendCell)

def isEmpty : Bool := s.writePos % c.sendCellSize == s.readPos % c.sendCellSize

def isFull : Bool := (s.writePos + 1) % c.sendCellSize == s.readPos % c.sendCellSize

def rpos : ℕ := s.readPos % c.sendCellSize

/-! ## The accesses of `write_chche` -/

def fetchAddWrite : SendCell := { s with writePos := s.writePos + 1 }

def store (wpos : ℕ) (ptr : ScuPtr) : SendCell :=
  { s with scuPtr := Function.update s.scuPtr wpos ptr }

def modify (pos : ℕ) (f : SendCellUnit → SendCellUnit) : Option SendCell :=
  (s.scuPtr pos).deref.map fun u => s.store pos (.unit (f u))

def setEnableRead (pos : ℕ) (on : Bool) : Option SendCell :=
  s.modify pos fun u => { u with enableRead := on }

/-! ## The calls of the reader -/

def enableRead : Option Bool :=
  if s.isEmpty c then some false
  else match s.scuPtr (s.rpos c) with
    | .unset => none
    | .null => some false
    | .unit u => some u.enableRead

/-- What a call reads of the unit at `m_read_pos`, if that can be read. -/
def reading {α : Type*} (f : SendCellUnit → α) : Option (Option α) :=
  (s.enableRead c).bind fun
    | false => some none
    | true => (s.scuPtr (s.rpos c)).deref.map fun u => some (f u)

def readChche : Option (Option (List UInt8)) := s.reading c SendCellUnit.rest

def readEnableLen : Option ℕ := (s.reading c SendCellUnit.restLen).map fun n => n.getD 0

def fetchAddRead : SendCell := { s with readPos := s.readPos + 1 }

/-- The unit is deleted and its pointer cleared. -/
def clearSlot (pos : ℕ) : Option SendCell :=
  (s.scuPtr pos).deref.map fun _ => s.store pos .null

variable {c s} {u : SendCellUnit} {pos : ℕ}

theorem isEmpty_iff : s.isEmpty c ↔ s.writePos % c.sendCellSize = s.readPos % c.sendCellSize := by
  simp [isEmpty]

theorem isFull_iff :
    s.isFull c ↔ (s.writePos + 1) % c.sendCellSize = s.readPos % c.sendCellSize := by
  simp [isFull]

theorem modify_unit (h : s.scuPtr pos = .unit u) (f : SendCellUnit → SendCellUnit) :
    s.modify pos f = some (s.store pos (.unit (f u))) := by
  rw [modify, h]
  rfl

theorem clearSlot_unit (h : s.scuPtr pos = .unit u) : s.clearSlot pos = some (s.store pos .null) := by
  rw [clearSlot, h]
  rfl

theorem enableRead_eq_none_iff :
    s.enableRead c = none ↔ ¬s.isEmpty c ∧ s.scuPtr (s.rpos c) = .unset := by
  unfold enableRead
  split_ifs with hempty
  · simp [hempty]
  · cases h : s.scuPtr (s.rpos c) <;> simp [hempty]

theorem enableRead_unit (hempty : ¬s.isEmpty c) (h : s.scuPtr (s.rpos c) = .unit u) :
    s.enableRead c = some u.enableRead := by
  rw [enableRead, if_neg hempty, h]

theorem unit_of_enableRead (h : s.enableRead c = some true) :
    ∃ u, s.scuPtr (s.rpos c) = .unit u := by
  unfold enableRead at h
  split_ifs at h
  · cases h
  · cases hptr : s.scuPtr (s.rpos c) with
    | unset | null => simp [hptr] at h
    | unit u => exact ⟨u, rfl⟩

theorem reading_isSome {α : Type*} (f : SendCellUnit → α) :
    (s.reading c f).isSome = (s.enableRead c).isSome := by
  cases hread : s.enableRead c with
  | none => rw [reading, hread]; rfl
  | some on =>
    cases on with
    | false => rw [reading, hread]; rfl
    | true =>
      obtain ⟨u, hu⟩ := unit_of_enableRead hread
      rw [reading, hread, Option.bind_some, hu]
      rfl

theorem reading_enabled {α : Type*} (f : SendCellUnit → α) (hread : s.enableRead c = some true)
    (hu : s.scuPtr (s.rpos c) = .unit u) : s.reading c f = some (some (f u)) := by
  rw [reading, hread, Option.bind_some, hu]
  rfl

theorem readEnableLen_isSome : (s.readEnableLen c).isSome = (s.enableRead c).isSome := by
  rw [readEnableLen, Option.isSome_map, reading_isSome]

end SendCell
end TcpLib.TcpCommon
