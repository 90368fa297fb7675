import TcpLib.Wire
import TcpLib.Lib.Transition

/-!
# micro_buffer

A linear byte buffer of any capacity. `hasRead` moves what is unread to the front once half of the
capacity was read; a copy whose regions overlap or leave the buffer is undefined behaviour, and the
call has no result then. Half is rounded down, so with an odd capacity a buffer that is full can be
compacted one byte too early.
-/

namespace TcpLib
open LinearBuffer Transition

/-- Conversion to `uint64_t`. -/
def uint64 (n : ℕ) : ℕ := n % 2 ^ 64

structure MicroBuffer where
  readPos : ℕ
  writePos : ℕ
  totalSize : ℕ
  buf : Memory

namespace MicroBuffer

/-- `micro_buffer(uint64_t)` -/
def new (len : UInt64) : MicroBuffer where
  readPos := 0
  writePos := 0
  totalSize := len.toNat
  buf := fun _ => 0

def enableWrite (b : MicroBuffer) : ℕ := uint64 (b.totalSize + 2 ^ 64 - b.writePos)

def hasWrite (b : MicroBuffer) (len : ℕ) : MicroBuffer :=
  { b with writePos := uint64 (b.writePos + len) }

def enableRead (b : MicroBuffer) : ℕ := uint64 (b.writePos + 2 ^ 64 - b.readPos)

def hasRead (b : MicroBuffer) (len : ℕ) : Option MicroBuffer :=
  let r := uint64 (b.readPos + len)
  if b.totalSize / 2 ≤ r then
    let n := uint64 (b.writePos + 2 ^ 64 - r)
    if CopyOk b.totalSize 0 r n then
      some { b with
        buf := memcpy b.buf 0 r n
        writePos := n
        readPos := 0 }
    else none
  else some { b with readPos := r }

/-- A copy of data to `write_pos()`. -/
def copyIn (b : MicroBuffer) (data : List UInt8) : MicroBuffer :=
  { b with buf := store b.buf b.writePos data }

/-- The `enable_read()` bytes at `read_pos()`. -/
def readable (b : MicroBuffer) : List UInt8 := window b.buf b.readPos (b.readPos + b.enableRead)

/-- The positions are in order and inside the buffer. -/
structure InOrder (b : MicroBuffer) : Prop where
  read_le : b.readPos ≤ b.writePos
  write_le : b.writePos ≤ b.totalSize

/-- The calls that compact although more is unread than was read. -/
def TooEarly (b : MicroBuffer) (len : ℕ) : Prop :=
  b.totalSize % 2 = 1 ∧ b.writePos = b.totalSize ∧ b.readPos + len = b.totalSize / 2

section
variable {b b' : MicroBuffer} {len : ℕ}

theorem InOrder.enableRead_eq (h : b.InOrder) (hmax : b.totalSize < 2 ^ 64) :
    b.enableRead = b.writePos - b.readPos := by
  have hread := h.read_le
  have hwrite := h.write_le
  unfold enableRead uint64
  omega

theorem InOrder.enableWrite_eq (h : b.InOrder) (hmax : b.totalSize < 2 ^ 64) :
    b.enableWrite = b.totalSize - b.writePos := by
  have hwrite := h.write_le
  unfold enableWrite uint64
  omega

theorem InOrder.readable_eq (h : b.InOrder) (hmax : b.totalSize < 2 ^ 64) :
    b.readable = window b.buf b.readPos b.writePos := by
  rw [readable, h.enableRead_eq hmax, Nat.add_sub_cancel' h.read_le]

/-- The copied regions are disjoint unless the compaction comes too early. -/
theorem InOrder.copyOk_iff (h : b.InOrder) (hlen : len ≤ b.writePos - b.readPos)
    (hhalf : b.totalSize / 2 ≤ b.readPos + len) :
    CopyOk b.totalSize 0 (b.readPos + len) (b.writePos - (b.readPos + len)) ↔ ¬b.TooEarly len := by
  have hread := h.read_le
  have hwrite := h.write_le
  unfold CopyOk TooEarly
  omega

theorem InOrder.write (h : b.InOrder) (hmax : b.totalSize < 2 ^ 64) {data : List UInt8}
    (hdata : data.length ≤ b.enableWrite) :
    ((b.copyIn data).hasWrite data.length).InOrder ∧
      ((b.copyIn data).hasWrite data.length).readable = b.readable ++ data := by
  have hread := h.read_le
  rw [h.enableWrite_eq hmax] at hdata
  have hwrite := h.write_le
  have hpos : uint64 (b.writePos + data.length) = b.writePos + data.length :=
    Nat.mod_eq_of_lt (by omega)
  have hnew : ((b.copyIn data).hasWrite data.length).InOrder := by
    constructor
    · change b.readPos ≤ uint64 (b.writePos + data.length)
      omega
    · change uint64 (b.writePos + data.length) ≤ b.totalSize
      omega
  refine ⟨hnew, ?_⟩
  rw [hnew.readable_eq hmax, h.readable_eq hmax]
  change window (store b.buf b.writePos data) b.readPos (uint64 (b.writePos + data.length)) = _
  rw [hpos, window_store b.buf data h.read_le]

theorem InOrder.hasRead (h : b.InOrder) (hmax : b.totalSize < 2 ^ 64) (hlen : len ≤ b.enableRead)
    (hearly : ¬b.TooEarly len) :
    ∃ b', b.hasRead len = some b' ∧ b'.InOrder ∧ b'.totalSize = b.totalSize ∧
      b'.readable = b.readable.drop len := by
  have hread := h.read_le
  have hwrite := h.write_le
  rw [h.enableRead_eq hmax] at hlen
  have hpos : uint64 (b.readPos + len) = b.readPos + len := Nat.mod_eq_of_lt (by omega)
  have hrest : uint64 (b.writePos + 2 ^ 64 - (b.readPos + len)) =
      b.writePos - (b.readPos + len) := by
    unfold uint64
    omega
  have hdrop : window b.buf (b.readPos + len) b.writePos = b.readable.drop len := by
    rw [h.readable_eq hmax, drop_window]
  unfold MicroBuffer.hasRead
  simp only [hpos, hrest]
  split
  · next hhalf =>
    rw [if_pos ((h.copyOk_iff hlen hhalf).mpr hearly)]
    have hnew : InOrder { b with
        buf := memcpy b.buf 0 (b.readPos + len) (b.writePos - (b.readPos + len))
        writePos := b.writePos - (b.readPos + len)
        readPos := 0 } := ⟨Nat.zero_le _, (Nat.sub_le _ _).trans hwrite⟩
    refine ⟨_, rfl, hnew, rfl, ?_⟩
    rw [hnew.readable_eq hmax, ← hdrop]
    exact window_compact b.buf (show b.readPos + len ≤ b.writePos by omega)
  · have hnew : InOrder { b with readPos := b.readPos + len } :=
      ⟨show b.readPos + len ≤ b.writePos by omega, hwrite⟩
    refine ⟨_, rfl, hnew, rfl, ?_⟩
    rw [hnew.readable_eq hmax, ← hdrop]

theorem InOrder.hasRead_none (h : b.InOrder) (hmax : b.totalSize < 2 ^ 64)
    (hlen : len ≤ b.enableRead) (hearly : b.TooEarly len) : b.hasRead len = none := by
  have hread := h.read_le
  have hwrite := h.write_le
  rw [h.enableRead_eq hmax] at hlen
  have hpos : uint64 (b.readPos + len) = b.readPos + len := Nat.mod_eq_of_lt (by omega)
  have hrest : uint64 (b.writePos + 2 ^ 64 - (b.readPos + len)) =
      b.writePos - (b.readPos + len) := by
    unfold uint64
    omega
  have hhalf : b.totalSize / 2 ≤ b.readPos + len := hearly.2.2.ge
  unfold MicroBuffer.hasRead
  simp only [hpos, hrest]
  rw [if_pos hhalf, if_neg]
  rw [h.copyOk_iff hlen hhalf, not_not]
  exact hearly

end
end MicroBuffer

/-! ## Sequences of calls -/

inductive MicroAct
  | write (data : List UInt8)
  | read (len : ℕ)
  deriving DecidableEq

structure MicroRun where
  buffer : MicroBuffer
  fault : Bool := false

namespace MicroRun

def init (capacity : UInt64) : MicroRun := { buffer := .new capacity }

def step (s : MicroRun) : MicroAct → Option MicroRun
  | .write data =>
    if s.fault = false ∧ data.length ≤ s.buffer.enableWrite then
      some { s with buffer := (s.buffer.copyIn data).hasWrite data.length }
    else none
  | .read len =>
    if s.fault = false ∧ len ≤ s.buffer.enableRead then
      match s.buffer.hasRead len with
      | some buffer => some { s with buffer := buffer }
      | none => some { s with fault := true }
    else none

/-- The bytes that were written, in order. -/
def written (acts : List MicroAct) : List UInt8 :=
  acts.flatMap fun
    | .write data => data
    | .read _ => []

/-- The number of bytes that were read. -/
def readCount (acts : List MicroAct) : ℕ :=
  (acts.map fun
    | .write _ => 0
    | .read len => len).sum

/-- The buffer holds what was written and not yet read. -/
structure Fifo (acts : List MicroAct) (s : MicroRun) : Prop where
  fault : s.fault = false
  inOrder : s.buffer.InOrder
  count_le : readCount acts ≤ (written acts).length
  readable : s.buffer.readable = (written acts).drop (readCount acts)

/-- No compaction comes too early. -/
def InTime (s : MicroRun) : MicroAct → Prop
  | .write _ => True
  | .read len => ¬s.buffer.TooEarly len

variable {capacity : UInt64} {acts : List MicroAct} {s t : MicroRun} {a : MicroAct}

@[simp] theorem written_append (acts acts' : List MicroAct) :
    written (acts ++ acts') = written acts ++ written acts' := List.flatMap_append

@[simp] theorem readCount_append (acts acts' : List MicroAct) :
    readCount (acts ++ acts') = readCount acts + readCount acts' := by
  simp [readCount]

theorem Fifo.init : Fifo [] (.init capacity) where
  fault := rfl
  inOrder := ⟨le_rfl, Nat.zero_le _⟩
  count_le := le_rfl
  readable := by
    rw [MicroBuffer.InOrder.readable_eq ⟨le_rfl, Nat.zero_le _⟩ capacity.toNat_lt]
    exact window_self _ _

theorem Fifo.length_readable (h : Fifo acts s) (hmax : s.buffer.totalSize < 2 ^ 64) :
    s.buffer.enableRead = (written acts).length - readCount acts := by
  have hlen := congrArg List.length h.readable
  rwa [h.inOrder.readable_eq hmax, length_window, ← h.inOrder.enableRead_eq hmax,
    List.length_drop] at hlen

theorem Fifo.step (h : Fifo acts s) (hmax : s.buffer.totalSize < 2 ^ 64) (hok : s.InTime a)
    (hstep : s.step a = some t) :
    Fifo (acts ++ [a]) t ∧ t.buffer.totalSize = s.buffer.totalSize := by
  cases a with
  | write data =>
    simp only [MicroRun.step] at hstep
    split at hstep
    · next hdata =>
      obtain rfl := Option.some.inj hstep
      obtain ⟨hnew, hread⟩ := h.inOrder.write hmax hdata.2
      have hcount : readCount [.write data] = 0 := rfl
      have hwritten : written [.write data] = data := by simp [written]
      refine ⟨⟨h.fault, hnew, ?_, ?_⟩, rfl⟩
      · rw [readCount_append, written_append, hcount, List.length_append]
        exact h.count_le.trans (Nat.le_add_right _ _)
      · rw [readCount_append, written_append, hcount, hwritten, Nat.add_zero,
          List.drop_append_of_le_length h.count_le, ← h.readable]
        exact hread
    · cases hstep
  | read len =>
    simp only [MicroRun.step] at hstep
    split at hstep
    · next hlen =>
      obtain ⟨b, hb, hnew, htotal, hread⟩ := h.inOrder.hasRead hmax hlen.2 hok
      rw [hb] at hstep
      obtain rfl := Option.some.inj hstep
      have hcount : readCount [.read len] = len := rfl
      have hwritten : written [.read len] = [] := rfl
      have hlength := h.length_readable hmax
      refine ⟨⟨h.fault, hnew, ?_, ?_⟩, htotal⟩
      · rw [readCount_append, written_append, hcount, hwritten, List.append_nil]
        have hle := h.count_le
        omega
      · rw [readCount_append, written_append, hcount, hwritten, List.append_nil, ← List.drop_drop,
          ← h.readable]
        exact hread
    · cases hstep

/-- The buffer is a FIFO all the way exactly when no compaction comes too early. -/
theorem fifo_throughout_iff (h : Run step anyStep (init capacity) acts s) :
    Throughout step (init capacity) acts Fifo ↔ Run step InTime (init capacity) acts s := by
  refine h.throughout_iff (fun acts s => Fifo acts s ∧ s.buffer.totalSize < 2 ^ 64) Fifo
    ⟨.init, capacity.toNat_lt⟩ (fun _ _ hI => hI.1) ?_ ?_
  · rintro acts s a t ⟨hfifo, hmax⟩ hok hstep
    obtain ⟨hfifo', htotal⟩ := hfifo.step hmax hok hstep
    exact ⟨hfifo', htotal.trans_lt hmax⟩
  · rintro acts s a t ⟨hfifo, hmax⟩ hnot hstep hafter
    cases a with
    | write data => exact hnot trivial
    | read len =>
      have hearly : s.buffer.TooEarly len := not_not.mp hnot
      simp only [MicroRun.step] at hstep
      split at hstep
      · next hlen =>
        rw [hfifo.inOrder.hasRead_none hmax hlen.2 hearly] at hstep
        obtain rfl := Option.some.inj hstep
        cases hafter.fault
      · cases hstep

theorem fifo_throughout_iff_read : Run step anyStep (init 4) [.write [1, 2, 3, 4], .read 2]
      { buffer := ⟨0, 2, 4, memcpy (store (fun _ => 0) 0 [1, 2, 3, 4]) 0 2 2⟩ } ∧
    (Throughout step (init 4) [.write [1, 2, 3, 4], .read 2] Fifo ↔
      Run step InTime (init 4) [.write [1, 2, 3, 4], .read 2]
        { buffer := ⟨0, 2, 4, memcpy (store (fun _ => 0) 0 [1, 2, 3, 4]) 0 2 2⟩ }) := by
  have hrun : Run step anyStep (init 4) [.write [1, 2, 3, 4], .read 2]
      { buffer := ⟨0, 2, 4, memcpy (store (fun _ => 0) 0 [1, 2, 3, 4]) 0 2 2⟩ } :=
    .of_exec (fun _ _ _ => trivial) rfl
  exact ⟨hrun, fifo_throughout_iff hrun⟩

/-- Three bytes fill a buffer of three; reading one of them copies two bytes over each other. -/
theorem full_odd_buffer_overlaps :
    ¬ ∀ (capacity : UInt64) (acts : List MicroAct) (s : MicroRun),
      Run step anyStep (init capacity) acts s → Fifo acts s := by
  intro hall
  have hrun : Run step anyStep (init 3) [.write [1, 2, 3], .read 1]
      { buffer := ⟨0, 3, 3, store (fun _ => 0) 0 [1, 2, 3]⟩, fault := true } :=
    .of_exec (fun _ _ _ => trivial) rfl
  have hfault := (hall 3 _ _ hrun).fault
  cases hfault

/-- With an even capacity every compaction is in time. -/
theorem even_capacity_fifo (heven : capacity.toNat % 2 = 0)
    (h : Run step anyStep (init capacity) acts s) : Fifo acts s := by
  refine (h.invariant_hist (P := fun acts s => Fifo acts s ∧ s.buffer.totalSize = capacity.toNat)
    ⟨.init, rfl⟩ ?_).1
  rintro acts s a t ⟨hfifo, htotal⟩ - hstep
  have hok : s.InTime a := by
    cases a with
    | write data => trivial
    | read len =>
      rintro ⟨hodd, -⟩
      omega
  obtain ⟨hfifo', htotal'⟩ := hfifo.step (htotal.trans_lt capacity.toNat_lt) hok hstep
  exact ⟨hfifo', htotal'.trans htotal⟩

end MicroRun
end TcpLib
