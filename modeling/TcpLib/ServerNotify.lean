import TcpLib.Wire

/-!
# tcp_server_notify

`onRecvData` offers the frames of a receive buffer to the hub until one is incomplete,
malformed or refused, and returns the number of bytes of those it accepted. `frameAt` is
the head of its loop, the bound checks with their casts included; the client's notify class
repeats it word for word. The hub is an arbitrary function of everything it was offered
before, so it may refuse in any pattern.
-/

namespace TcpLib
open Framing LinearBuffer

/-- The head of the parse loop: the frame at `readpos`, unless the loop ends there. -/
def frameAt (pstr : Memory) (size readpos : ℕ) : Option Frame :=
  if castInt (sizeT (size - readpos)) > castInt msgHeaderSize then
    let header := readHeader pstr readpos
    if h : 0 < header.dataSize.toInt then
      if castInt (sizeT (size - readpos - msgHeaderSize - header.dataSize.toInt)) ≥ 0 then
        some (Frame.ofMemory pstr readpos h)
      else none
    else none
  else none

/-- `readpos += m_msg_header_size_ + m_header->data_size` -/
def nextReadpos (readpos : ℕ) (f : Frame) : ℕ :=
  sizeT (readpos + (msgHeaderSize + f.header.dataSize.toInt))

/-- The error value of the notify classes, `(size_t)-1`. -/
def sizeMax : ℕ := 2 ^ 64 - 1

def intMax : ℕ := 2 ^ 31 - 1

theorem castInt_header : castInt msgHeaderSize = 8 := by decide

/-- A frame that passes the bound checks is inside the buffer, whatever its length. -/
theorem frameAt_fits {pstr : Memory} {size readpos : ℕ} {f : Frame} (hsize : size < 2 ^ 64)
    (hpos : readpos ≤ size) (h : frameAt pstr size readpos = some f) :
    readpos + f.size ≤ size ∧ f.size ≤ intMax := by
  have hle : castInt (sizeT (size - readpos)) ≤ size - readpos :=
    castInt_sizeT_le (by omega) (by omega)
  have hmax := castInt_lt (sizeT (size - readpos))
  unfold frameAt at h
  rw [castInt_header] at h
  split at h
  · next hgt =>
    dsimp only at h
    split at h
    · next hd =>
      have hfit := Frame.size_ofMemory pstr readpos hd
      have hlt := (readHeader pstr readpos).dataSize.toInt_lt
      -- the residue of the rest is an `int` above 8, so the second check sees what is left of it
      have hroom : castInt (sizeT (size - readpos - msgHeaderSize -
          (readHeader pstr readpos).dataSize.toInt)) = castInt (sizeT (size - readpos)) -
          (msgHeaderSize + (readHeader pstr readpos).dataSize.toInt) := by
        rw [Int.sub_sub]
        apply castInt_sizeT_sub
        · unfold msgHeaderSize
          omega
        · omega
      rw [hroom] at h
      split at h
      · next hge =>
        obtain rfl := Option.some.inj h
        unfold intMax
        constructor
        · omega
        · omega
      · cases h
    · cases h
  · cases h

/-- On buffers an `int` can measure, the bound checks find the reference frame. -/
theorem frameAt_eq {pstr : Memory} {size readpos : ℕ} (hsize : size ≤ intMax)
    (hpos : readpos ≤ size) :
    frameAt pstr size readpos = nextFrame (window pstr readpos size) := by
  unfold intMax at hsize
  have hrest : castInt (sizeT (size - readpos)) = size - readpos :=
    castInt_sizeT (by omega) (by omega)
  cases hnext : nextFrame (window pstr readpos size) with
  | some f =>
    have hpre := nextFrame_eq_some.mp hnext
    have hle : f.size ≤ size - readpos := by simpa using hpre.length_le
    have hlt := f.header_lt_size
    have hwin : window pstr readpos (readpos + f.size) = f.encode := by
      rw [← take_window pstr (show readpos + f.size ≤ size by omega), ← f.length_encode]
      exact (List.prefix_iff_eq_take.mp hpre).symm
    obtain ⟨hd, rfl⟩ := Frame.ofMemory_eq hwin
    have hfit := Frame.size_ofMemory pstr readpos hd
    have hroom : castInt (sizeT (size - readpos - msgHeaderSize -
        (readHeader pstr readpos).dataSize.toInt)) =
        size - readpos - msgHeaderSize - (readHeader pstr readpos).dataSize.toInt :=
      castInt_sizeT (by omega) (by omega)
    unfold msgHeaderSize at hlt hfit
    simp only [frameAt, hrest, castInt_header, hroom]
    rw [if_pos (by omega), dif_pos hd, if_pos (by unfold msgHeaderSize; omega)]
  | none =>
    unfold frameAt
    rw [hrest, castInt_header]
    split
    · next hgt =>
      dsimp only
      split
      · next hd =>
        have hlt := (readHeader pstr readpos).dataSize.toInt_lt
        rw [castInt_sizeT (by unfold msgHeaderSize; omega) (by unfold msgHeaderSize; omega)]
        split
        · next hroom =>
          have hfit := Frame.size_ofMemory pstr readpos hd
          have hsome : nextFrame (window pstr readpos size) =
              some (Frame.ofMemory pstr readpos hd) := by
            rw [nextFrame_eq_some, Frame.encode_ofMemory, ← take_window pstr (w := size) (by omega)]
            exact List.take_prefix _ _
          rw [hnext] at hsome
          cases hsome
        · rfl
      · rfl
    · rfl

theorem nextReadpos_eq {readpos : ℕ} {f : Frame} (h : readpos + f.size < 2 ^ 64) :
    nextReadpos readpos f = readpos + f.size := by
  have hsize := f.size_eq
  unfold Frame.size at h
  unfold nextReadpos sizeT Frame.size
  omega

/-- One call of `on_read` and its answer. -/
structure Offer where
  clientid : ℕ
  frame : Frame
  accepted : Bool
  deriving DecidableEq

/-- What `on_read` answers, given the calls made before, the client and the frame. -/
abbrev Hub := List Offer → ℕ → Frame → Bool

/-- A hub whose `on_read` returns true. -/
def acceptAll : Hub := fun _ _ _ => true

/-- The frames the hub accepted, in order. -/
def accepted (log : List Offer) : List Frame := (log.filter (·.accepted)).map (·.frame)

@[simp] theorem accepted_append (log log' : List Offer) :
    accepted (log ++ log') = accepted log ++ accepted log' := by
  simp [accepted]

namespace TcpServerNotify
variable (hub : Hub) (clientid : ℕ)

def parseLoop (pstr : Memory) (size : ℕ) : ℕ → ℕ → List Offer → ℕ × List Offer
  | 0, readpos, log => (readpos, log)
  | fuel + 1, readpos, log =>
    match frameAt pstr size readpos with
    | none => (readpos, log)
    | some f =>
      if hub log clientid f then
        parseLoop pstr size fuel (nextReadpos readpos f) (log ++ [⟨clientid, f, true⟩])
      else (readpos, log ++ [⟨clientid, f, false⟩])

/-- `tcp_server_notify::OnRecvData`; every accepted frame shortens what is left to parse, so
`len` rounds of the loop suffice. -/
def onRecvData (recvbuf : Option Memory) (len : ℕ) (log : List Offer) : ℕ × List Offer :=
  match recvbuf with
  | none => (sizeMax, log)
  | some pstr =>
    if clientid ≤ 0 ∨ len ≤ 0 then (sizeMax, log)
    else parseLoop hub clientid pstr len len 0 log

/-- Offering frames one after the other until one is refused: the bytes of the accepted
ones and the calls made. -/
def offer : List Frame → List Offer → ℕ × List Offer
  | [], log => (0, log)
  | f :: fs, log =>
    if hub log clientid f then
      let r := offer fs (log ++ [⟨clientid, f, true⟩])
      (f.size + r.1, r.2)
    else (0, log ++ [⟨clientid, f, false⟩])

/-- The parse loop offers the frames that the reference reading finds. -/
theorem parseLoop_eq {pstr : Memory} {size : ℕ} (hsize : size ≤ intMax) (fuel readpos : ℕ)
    (hpos : readpos ≤ size) (hfuel : size - readpos ≤ fuel) (log : List Offer) :
    parseLoop hub clientid pstr size fuel readpos log =
      let r := offer hub clientid (frameCode.split (window pstr readpos size)).1 log
      (readpos + r.1, r.2) := by
  induction fuel generalizing readpos log with
  | zero =>
    obtain rfl : readpos = size := by omega
    simp [parseLoop, offer]
  | succ fuel ih =>
    rw [parseLoop, frameAt_eq hsize hpos]
    cases hnext : nextFrame (window pstr readpos size) with
    | none => simp [frameCode.split_of_none hnext, offer]
    | some f =>
      have hpre := nextFrame_eq_some.mp hnext
      have hle : f.size ≤ size - readpos := by simpa using hpre.length_le
      have hlt := f.header_lt_size
      have hcut : window pstr readpos size = f.encode ++ window pstr (readpos + f.size) size := by
        rw [← drop_window, ← f.length_encode]
        exact List.prefix_iff_eq_append.mp hpre |>.symm
      have hsplit := frameCode.split_encode_append f (window pstr (readpos + f.size) size)
      rw [show frameCode.encode f = f.encode from rfl, ← hcut] at hsplit
      have hadv : nextReadpos readpos f = readpos + f.size :=
        nextReadpos_eq (by unfold intMax at hsize; omega)
      rw [hsplit]
      simp only [offer, hadv]
      split
      · rw [ih (readpos + f.size) (by omega) (by omega)]
        simp only [Nat.add_assoc]
      · rfl

theorem onRecvData_eq (pstr : Memory) (len : ℕ) (hid : 0 < clientid) (hlen : 0 < len)
    (hmax : len ≤ intMax) (log : List Offer) :
    onRecvData hub clientid (some pstr) len log =
      offer hub clientid (frameCode.split (window pstr 0 len)).1 log := by
  have hparams : ¬ (clientid ≤ 0 ∨ len ≤ 0) := by omega
  rw [onRecvData, if_neg hparams, parseLoop_eq hub clientid hmax len 0 (Nat.zero_le _) (by omega)]
  simp

/-- The accepted frames are the first ones, and the count returned is their total size. -/
theorem offer_spec (fs : List Frame) (log : List Offer) :
    ∃ done rest, fs = done ++ rest ∧ accepted (offer hub clientid fs log).2 = accepted log ++ done ∧
      (offer hub clientid fs log).1 = (frameCode.encodeAll done).length := by
  induction fs generalizing log with
  | nil => exact ⟨[], [], rfl, by simp [offer], by simp [offer]⟩
  | cons f fs ih =>
    rw [offer]
    split
    · obtain ⟨done, rest, hfs, hacc, hsize⟩ := ih (log ++ [⟨clientid, f, true⟩])
      refine ⟨f :: done, rest, by rw [hfs]; rfl, ?_, ?_⟩
      · simpa [accepted] using hacc
      · simp [hsize]
    · exact ⟨[], f :: fs, rfl, by simp [accepted], by simp⟩

theorem offer_acceptAll (fs : List Frame) (log : List Offer) :
    offer acceptAll clientid fs log =
      ((frameCode.encodeAll fs).length, log ++ fs.map fun f => ⟨clientid, f, true⟩) := by
  induction fs generalizing log with
  | nil => simp [offer]
  | cons f fs ih => simp [offer, acceptAll, ih]

end TcpServerNotify
end TcpLib
