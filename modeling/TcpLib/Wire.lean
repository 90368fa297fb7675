import Mathlib.Tactic
import TcpLib.Lib.Framing
import TcpLib.Lib.LinearBuffer

/-!
# Message headers and frames

A message on the wire is a `msg_header`, two `int`s in the byte order of the little-endian
platform, followed by `data_size` bytes of payload. A `Frame` carries the proof that its
header announces its payload, so a header that announces nothing is not one. The frames
form a prefix code, and reading the frame at the start of an input is the reference that
both notify classes are compared with. `sizeT` and `castInt` are the conversions to `size_t`
and to `int` that their bound checks use.
-/

namespace TcpLib
open Framing LinearBuffer

/-- What a `char` pointer points to. -/
abbrev Memory := ℕ → UInt8

/-- Conversion to `size_t`, with wrap-around. -/
def sizeT (x : ℤ) : ℕ := (x % (2 ^ 64 : ℕ)).toNat

/-- `static_cast<int>` of a `size_t`: truncation to 32 bits, two's complement. -/
def castInt (n : ℕ) : ℤ :=
  if n % 2 ^ 32 < 2 ^ 31 then (n % 2 ^ 32 : ℕ) else (n % 2 ^ 32 : ℕ) - (2 ^ 32 : ℕ)

theorem castInt_sizeT {x : ℤ} (hlo : -2 ^ 31 ≤ x) (hhi : x < 2 ^ 31) : castInt (sizeT x) = x := by
  unfold castInt sizeT
  omega

theorem castInt_lt (n : ℕ) : castInt n < 2 ^ 31 := by
  unfold castInt
  split_ifs <;> omega

theorem castInt_of_lt {n : ℕ} (h : n < 2 ^ 31) : castInt n = n := by
  unfold castInt
  split_ifs <;> omega

theorem castInt_modEq (n : ℕ) : castInt n ≡ n [ZMOD 2 ^ 32] := by
  unfold castInt Int.ModEq
  split_ifs <;> omega

theorem sizeT_modEq (x : ℤ) : (sizeT x : ℤ) ≡ x [ZMOD 2 ^ 32] := by
  unfold sizeT Int.ModEq
  omega

theorem castInt_sizeT_le {x : ℤ} (hx : 0 ≤ x) (hmax : x < 2 ^ 64) : castInt (sizeT x) ≤ x := by
  unfold castInt sizeT
  split_ifs <;> omega

/-- Subtracting before the conversion to `int` or after it is the same while the difference is an
`int`. -/
theorem castInt_sizeT_sub {x d : ℤ} (hlo : -2 ^ 31 ≤ castInt (sizeT x) - d)
    (hhi : castInt (sizeT x) - d < 2 ^ 31) : castInt (sizeT (x - d)) = castInt (sizeT x) - d := by
  unfold castInt sizeT at *
  split_ifs at * <;> omega

/-- The `int` stored at an offset. -/
def readInt (p : Memory) (off : ℕ) : Int32 :=
  Int32.ofInt ((p off).toNat + 2 ^ 8 * (p (off + 1)).toNat + 2 ^ 16 * (p (off + 2)).toNat +
    2 ^ 24 * (p (off + 3)).toNat : ℕ)

/-- The four bytes of an `int`. -/
def intBytes (x : Int32) : List UInt8 :=
  let n := (x.toInt % 2 ^ 32).toNat
  [UInt8.ofNat n, UInt8.ofNat (n / 2 ^ 8), UInt8.ofNat (n / 2 ^ 16), UInt8.ofNat (n / 2 ^ 24)]

@[simp] theorem length_intBytes (x : Int32) : (intBytes x).length = 4 := rfl

theorem window_four (p : Memory) (off : ℕ) :
    window p off (off + 4) = [p off, p (off + 1), p (off + 2), p (off + 3)] := by
  simp [window, List.range']

theorem intBytes_readInt (p : Memory) (off : ℕ) :
    intBytes (readInt p off) = window p off (off + 4) := by
  rw [window_four]
  have h0 := (p off).toNat_lt
  have h1 := (p (off + 1)).toNat_lt
  have h2 := (p (off + 2)).toNat_lt
  have h3 := (p (off + 3)).toNat_lt
  unfold intBytes readInt
  generalize hn : (p off).toNat + 2 ^ 8 * (p (off + 1)).toNat + 2 ^ 16 * (p (off + 2)).toNat +
    2 ^ 24 * (p (off + 3)).toNat = n
  have hn' : ((Int32.ofInt (n : ℤ)).toInt % 2 ^ 32).toNat = n := by
    rw [Int32.toInt_ofInt, show Int32.size = 2 ^ 32 from rfl, Int.bmod_def]
    omega
  simp only [hn', List.cons.injEq, and_true, ← UInt8.toNat_inj, UInt8.toNat_ofNat']
  omega

theorem readInt_eq {p : Memory} {off : ℕ} {x : Int32}
    (h : window p off (off + 4) = intBytes x) : readInt p off = x := by
  rw [window_four] at h
  have hlo := x.le_toInt
  have hhi := x.toInt_lt
  unfold intBytes at h
  generalize hn : (x.toInt % 2 ^ 32).toNat = n at h
  simp only [List.cons.injEq, and_true] at h
  obtain ⟨h0, h1, h2, h3⟩ := h
  unfold readInt
  rw [← Int32.toInt_inj, Int32.toInt_ofInt, h0, h1, h2, h3, show Int32.size = 2 ^ 32 from rfl,
    Int.bmod_def]
  simp only [UInt8.toNat_ofNat']
  omega

structure MsgHeader where
  type : Int32
  dataSize : Int32
  deriving DecidableEq, Repr

/-- `sizeof(common::msg_header)` -/
def msgHeaderSize : ℕ := 8

def readHeader (p : Memory) (off : ℕ) : MsgHeader := ⟨readInt p off, readInt p (off + 4)⟩

def MsgHeader.bytes (h : MsgHeader) : List UInt8 := intBytes h.type ++ intBytes h.dataSize

@[simp] theorem MsgHeader.length_bytes (h : MsgHeader) : h.bytes.length = msgHeaderSize := rfl

theorem bytes_readHeader (p : Memory) (off : ℕ) :
    (readHeader p off).bytes = window p off (off + msgHeaderSize) := by
  rw [msgHeaderSize, window_split p (Nat.le_add_right off 4) (by omega)]
  simp only [MsgHeader.bytes, readHeader, intBytes_readInt, Nat.add_assoc]

theorem readHeader_eq {p : Memory} {off : ℕ} {h : MsgHeader}
    (hb : window p off (off + msgHeaderSize) = h.bytes) : readHeader p off = h := by
  rw [msgHeaderSize, window_split p (Nat.le_add_right off 4) (by omega)] at hb
  obtain ⟨htype, hsize⟩ := List.append_inj hb (by simp)
  rw [show off + 8 = off + 4 + 4 by omega] at hsize
  unfold readHeader
  rw [readInt_eq htype, readInt_eq hsize]

/-- A header together with the payload it announces. -/
structure Frame where
  header : MsgHeader
  payload : List UInt8
  size_pos : 0 < header.dataSize.toInt
  size_eq : header.dataSize.toInt = payload.length
  deriving DecidableEq

namespace Frame

def size (f : Frame) : ℕ := msgHeaderSize + f.payload.length

def encode (f : Frame) : List UInt8 := f.header.bytes ++ f.payload

@[simp] theorem length_encode (f : Frame) : f.encode.length = f.size := by
  simp [encode, size]

theorem payload_pos (f : Frame) : 0 < f.payload.length := by
  have hpos := f.size_pos
  have heq := f.size_eq
  omega

theorem header_lt_size (f : Frame) : msgHeaderSize < f.size :=
  Nat.lt_add_of_pos_right f.payload_pos

/-- The frame that carries a payload, with its length in the header. -/
def ofPayload (type : Int32) (payload : List UInt8) (hpos : 0 < payload.length)
    (hlt : payload.length < 2 ^ 31) : Frame where
  header := ⟨type, Int32.ofNat payload.length⟩
  payload := payload
  size_pos := by rw [Int32.toInt_ofNat_of_lt hlt]; omega
  size_eq := Int32.toInt_ofNat_of_lt hlt

@[simp] theorem size_ofPayload (type : Int32) (payload : List UInt8) (hpos : 0 < payload.length)
    (hlt : payload.length < 2 ^ 31) :
    (ofPayload type payload hpos hlt).size = msgHeaderSize + payload.length := rfl

/-- The frame whose header is at an offset and whose payload follows it. -/
def ofMemory (p : Memory) (off : ℕ) (h : 0 < (readHeader p off).dataSize.toInt) : Frame where
  header := readHeader p off
  payload := window p (off + msgHeaderSize)
    (off + msgHeaderSize + (readHeader p off).dataSize.toInt.toNat)
  size_pos := h
  size_eq := by rw [length_window]; omega

@[simp] theorem size_ofMemory (p : Memory) (off : ℕ) (h : 0 < (readHeader p off).dataSize.toInt) :
    ((ofMemory p off h).size : ℤ) = msgHeaderSize + (readHeader p off).dataSize.toInt := by
  simp only [size, ofMemory, length_window]
  omega

theorem encode_ofMemory (p : Memory) (off : ℕ) (h : 0 < (readHeader p off).dataSize.toInt) :
    (ofMemory p off h).encode = window p off (off + (ofMemory p off h).size) := by
  rw [window_split p (Nat.le_add_right off msgHeaderSize) (by unfold size; omega)]
  simp only [encode, ofMemory, bytes_readHeader, size, length_window]
  congr 2
  omega

theorem ofMemory_eq {p : Memory} {off : ℕ} {f : Frame} (hf : window p off (off + f.size) = f.encode) :
    ∃ h, ofMemory p off h = f := by
  have hlen : (window p off (off + msgHeaderSize)).length = f.header.bytes.length := by simp
  rw [window_split p (Nat.le_add_right off msgHeaderSize) (by unfold size; omega)] at hf
  obtain ⟨hhead, hpay⟩ := List.append_inj hf hlen
  have hread := readHeader_eq hhead
  have hpos : 0 < (readHeader p off).dataSize.toInt := by rw [hread]; exact f.size_pos
  refine ⟨hpos, ?_⟩
  cases f with
  | mk header payload size_pos size_eq =>
    simp only [ofMemory, mk.injEq]
    refine ⟨hread, ?_⟩
    simp only [size] at hpay
    rw [hread, size_eq, Int.toNat_natCast, Nat.add_assoc]
    exact hpay

end Frame

/-- The bytes of a list as memory; what lies behind them reads as zero. -/
def listMemory (l : List UInt8) : Memory := fun i => l.getD i 0

theorem window_listMemory {l : List UInt8} {n : ℕ} (h : n ≤ l.length) :
    window (listMemory l) 0 n = l.take n := by
  apply List.ext_getElem
  · simpa using h
  · intro i hi hi'
    have hlt : i < l.length := by simp at hi; omega
    simp [getElem_window, listMemory, List.getElem?_eq_getElem hlt]

theorem MsgHeader.bytes_injective {h h' : MsgHeader} (heq : h.bytes = h'.bytes) : h = h' := by
  have hwin : window (listMemory h.bytes) 0 (0 + msgHeaderSize) = h.bytes := by
    rw [Nat.zero_add, window_listMemory (by simp), List.take_of_length_le (by simp)]
  rw [← readHeader_eq hwin, readHeader_eq (hwin.trans heq)]

/-- The frame at the start of an input, once all its bytes are there. -/
def nextFrame (l : List UInt8) : Option Frame :=
  if h : 0 < (readHeader (listMemory l) 0).dataSize.toInt then
    let f := Frame.ofMemory (listMemory l) 0 h
    if f.size ≤ l.length then some f else none
  else none

theorem nextFrame_eq_some {l : List UInt8} {f : Frame} : nextFrame l = some f ↔ f.encode <+: l := by
  unfold nextFrame
  constructor
  · intro h
    split at h
    · next hpos =>
      dsimp only at h
      split at h
      · next hle =>
        obtain rfl : Frame.ofMemory (listMemory l) 0 hpos = f := by simpa using h
        rw [Frame.encode_ofMemory, Nat.zero_add, window_listMemory hle]
        exact List.take_prefix _ _
      · cases h
    · cases h
  · intro h
    have hle : f.size ≤ l.length := by simpa using h.length_le
    have hwin : window (listMemory l) 0 (0 + f.size) = f.encode := by
      rw [Nat.zero_add, window_listMemory hle, ← f.length_encode]
      exact (List.prefix_iff_eq_take.mp h).symm
    obtain ⟨hpos, rfl⟩ := Frame.ofMemory_eq hwin
    rw [dif_pos hpos]
    exact if_pos hle

/-- The frames as a prefix code. -/
def frameCode : PrefixCode Frame UInt8 where
  encode := Frame.encode
  next := nextFrame
  encode_ne_nil := fun f h => by
    have hlen := congrArg List.length h
    have hpos := f.header_lt_size
    simp at hlen
    omega
  next_eq_some := nextFrame_eq_some

@[simp] theorem frameCode_encode (f : Frame) : frameCode.encode f = f.encode := rfl

@[simp] theorem frameCode_next (l : List UInt8) : frameCode.next l = nextFrame l := rfl

end TcpLib
