import TcpLib.ServerNotify

/-!
# tcp_client_notify

The parse loop of `onRecvData` is the server's, but every frame goes to `handle_msg` as a copy
with a terminating zero byte. A copy that fits in `m_msg_cache` is made there, a longer one in
memory allocated for this message. Writing past either is undefined, and the loop has no result
then; so is adding 1 to the largest `int`.
-/

namespace TcpLib
open Framing LinearBuffer

/-- What `handle_msg` is given: the type, and the bytes at `param1` with their terminator. -/
structure AtpMessage where
  type : Int32
  param1 : List UInt8
  deriving DecidableEq

/-- The message of a frame. -/
def AtpMessage.ofFrame (f : Frame) : AtpMessage := ⟨f.header.type, f.payload ++ [0]⟩

/-- The notify object: its message cache, and the calls of `handle_msg` made so far. -/
structure TcpClientNotify where
  msgCache : Memory := fun _ => 0
  handled : List AtpMessage := []

namespace TcpClientNotify

/-- `m_cache_size` -/
def cacheSize : ℕ := 1024 * 8

/-- `memset` of the whole message and `memcpy` of its payload into `cap` bytes. -/
def copyMsg (dst : Memory) (cap : ℕ) (payload : List UInt8) : Option Memory :=
  if payload.length + 1 ≤ cap then
    some (store (store dst 0 (List.replicate (payload.length + 1) 0)) 0 payload)
  else none

variable (heap : Memory)

/-- One message: where it is copied to depends on its size; `heap` is what `new` returns. -/
def handleFrame (st : TcpClientNotify) (f : Frame) : Option TcpClientNotify :=
  let dataSize := f.header.dataSize.toInt
  if dataSize + 1 ≤ intMax then
    let n := (dataSize + 1).toNat
    if (cacheSize : ℤ) < dataSize + 1 then
      (copyMsg heap n f.payload).map fun msgInfo =>
        { st with handled := st.handled ++ [⟨f.header.type, window msgInfo 0 n⟩] }
    else
      (copyMsg st.msgCache cacheSize f.payload).map fun msgInfo =>
        ⟨msgInfo, st.handled ++ [⟨f.header.type, window msgInfo 0 n⟩]⟩
  else none

def parseLoop (pstr : Memory) (size : ℕ) : ℕ → ℕ → TcpClientNotify → Option (ℕ × TcpClientNotify)
  | 0, readpos, st => some (readpos, st)
  | fuel + 1, readpos, st =>
    match frameAt pstr size readpos with
    | none => some (readpos, st)
    | some f => (handleFrame heap st f).bind (parseLoop pstr size fuel (nextReadpos readpos f))

/-- `tcp_client_notify::OnRecvData` -/
def onRecvData (buf : Option Memory) (len : ℕ) (st : TcpClientNotify) :
    Option (ℕ × TcpClientNotify) :=
  match buf with
  | none => some (sizeMax, st)
  | some pstr => if len ≤ 0 then some (sizeMax, st) else parseLoop heap pstr len len 0 st

theorem copyMsg_window (dst : Memory) {cap : ℕ} {payload : List UInt8}
    (hcap : payload.length + 1 ≤ cap) :
    ∃ buf, copyMsg dst cap payload = some buf ∧
      window buf 0 (payload.length + 1) = payload ++ [0] := by
  refine ⟨_, if_pos hcap, ?_⟩
  apply List.ext_getElem
  · simp
  · intro i hi hi'
    rw [getElem_window, Nat.zero_add]
    rcases Nat.lt_or_ge i payload.length with hlt | hge
    · simp [store, List.getElem?_eq_getElem hlt, List.getElem_append_left hlt]
    · obtain rfl : i = payload.length := by simp at hi'; omega
      simp [store]

theorem handleFrame_eq (st : TcpClientNotify) {f : Frame} (hf : f.size ≤ intMax) :
    ∃ cache, handleFrame heap st f = some ⟨cache, st.handled ++ [.ofFrame f]⟩ := by
  have hdata := f.size_eq
  unfold Frame.size msgHeaderSize intMax at hf
  have hn : (f.header.dataSize.toInt + 1).toNat = f.payload.length + 1 := by omega
  unfold handleFrame
  simp only [hn]
  rw [if_pos (by unfold intMax; omega)]
  split
  · obtain ⟨buf, hbuf, hwin⟩ := copyMsg_window heap (Nat.le_refl (f.payload.length + 1))
    exact ⟨st.msgCache, by rw [hbuf, Option.map_some, hwin]; rfl⟩
  · next hfits =>
    obtain ⟨buf, hbuf, hwin⟩ := copyMsg_window st.msgCache
      (show f.payload.length + 1 ≤ cacheSize by omega)
    exact ⟨buf, by rw [hbuf, Option.map_some, hwin]; rfl⟩

/-- The client's loop handles the frames that the reference reading finds. -/
theorem parseLoop_eq {pstr : Memory} {size : ℕ} (hsize : size ≤ intMax) (fuel readpos : ℕ)
    (hpos : readpos ≤ size) (hfuel : size - readpos ≤ fuel) (st : TcpClientNotify) :
    ∃ cache, parseLoop heap pstr size fuel readpos st =
      some (readpos + (frameCode.encodeAll (frameCode.split (window pstr readpos size)).1).length,
        ⟨cache, st.handled ++
          (frameCode.split (window pstr readpos size)).1.map AtpMessage.ofFrame⟩) := by
  induction fuel generalizing readpos st with
  | zero =>
    obtain rfl : readpos = size := by omega
    exact ⟨st.msgCache, by simp [parseLoop]⟩
  | succ fuel ih =>
    rw [parseLoop, frameAt_eq hsize hpos]
    cases hnext : nextFrame (window pstr readpos size) with
    | none => exact ⟨st.msgCache, by simp [frameCode.split_of_none hnext]⟩
    | some f =>
      have hpre := nextFrame_eq_some.mp hnext
      have hle : f.size ≤ size - readpos := by simpa using hpre.length_le
      have hlt := f.header_lt_size
      have hcut : window pstr readpos size = f.encode ++ window pstr (readpos + f.size) size := by
        rw [← drop_window, ← f.length_encode]
        exact List.prefix_iff_eq_append.mp hpre |>.symm
      have hsplit := frameCode.split_encode_append f (window pstr (readpos + f.size) size)
      rw [frameCode_encode, ← hcut] at hsplit
      obtain ⟨cache, hcopy⟩ := handleFrame_eq heap st (f := f) (by omega)
      obtain ⟨cache', hrest⟩ := ih (readpos + f.size) (by omega) (by omega)
        ⟨cache, st.handled ++ [.ofFrame f]⟩
      refine ⟨cache', ?_⟩
      have hadv : nextReadpos readpos f = readpos + f.size :=
        nextReadpos_eq (by unfold intMax at hsize; omega)
      simp only [hcopy, hadv, hsplit, Option.bind_some, hrest]
      simp [Nat.add_assoc]

theorem onRecvData_eq (pstr : Memory) (len : ℕ) (hlen : 0 < len) (hmax : len ≤ intMax)
    (st : TcpClientNotify) :
    ∃ cache, onRecvData heap (some pstr) len st =
      some ((frameCode.encodeAll (frameCode.split (window pstr 0 len)).1).length,
        ⟨cache, st.handled ++ (frameCode.split (window pstr 0 len)).1.map AtpMessage.ofFrame⟩) := by
  obtain ⟨cache, h⟩ := parseLoop_eq heap hmax len 0 (Nat.zero_le _) (by omega) st
  exact ⟨cache, by rw [onRecvData, if_neg (by omega), h, Nat.zero_add]⟩

end TcpClientNotify
end TcpLib
