import TcpLib.ClientCell
import TcpLib.Lib.CircularBuffer

/-!
# The send ring of a client cell

`ClientCell.handleSend` stores a cell behind the write position unless the ring is full,
`ClientCell.doSend` writes from its head for at most `serverMaxSendTimes` rounds, and
`ClientCell.destroy` is the destructor. Dereferencing an empty slot is undefined, and they have
no result then. The results of `write` are arbitrary, one for each round.
-/

namespace TcpLib
open CircularBuffer

/-- The result of `write`: -1 with `EINTR` or `EAGAIN`, -1 with another `errno`, or a count, which
is at most the length it was given. -/
inductive WriteResult
  | again
  | fail
  | count (n : ℕ)
  deriving DecidableEq

/-- What writing did: the bytes handed to the socket and the cells that were freed. -/
structure SendOut where
  cell : ClientCell
  wire : List SentByte := []
  released : List ℕ := []

namespace ClientCell

/-- `handleSend` after its lookup: nothing if the ring is full. -/
def handleSend (cell : ClientCell) (sc : SendCell) : Option ClientCell :=
  if (cell.sendWritePos + 1) % SYSSENDBUF = cell.sendReadPos then none
  else some { cell with
    sendBuf := Function.update cell.sendBuf cell.sendWritePos (some sc)
    sendWritePos := uint32 (cell.sendWritePos + 1) % SYSSENDBUF }

/-- Freeing the head of the ring and moving on. -/
def popHead (cell : ClientCell) : ClientCell :=
  { cell with
    sendBuf := Function.update cell.sendBuf cell.sendReadPos none
    sendReadPos := uint32 (cell.sendReadPos + 1) % SYSSENDBUF }

/-- One round of `doSend`, and whether the loop goes on. -/
def doSendIter (cell : ClientCell) (r : WriteResult) : Option (SendOut × Bool) :=
  if cell.sendWritePos ≠ cell.sendReadPos then
    (cell.sendBuf cell.sendReadPos).map fun sc =>
      match r with
      | .again => (⟨cell, [], []⟩, true)
      | .fail => (⟨cell, [], []⟩, false)
      | .count n =>
        let request := sc.bytes.length - sc.sendPos
        let retsize := min n request
        if retsize = 0 then (⟨cell, [], []⟩, false)
        else
          let wire := sc.unsent.take retsize
          if retsize < request then
            let sc' := { sc with sendPos := sc.sendPos + retsize }
            let cell' := { cell with
              sendBuf := Function.update cell.sendBuf cell.sendReadPos (some sc') }
            (⟨cell', wire, []⟩, false)
          else (⟨cell.popHead, wire, [sc.id]⟩, true)
  else some (⟨cell, [], []⟩, true)

/-- The loop of `doSend` with `n` rounds left. -/
def doSendLoop (writes : ℕ → WriteResult) : ℕ → ClientCell → Option SendOut
  | 0, cell => some ⟨cell, [], []⟩
  | n + 1, cell =>
    (cell.doSendIter (writes n)).bind fun (o, goOn) =>
      if goOn then
        (doSendLoop writes n o.cell).map fun o' =>
          ⟨o'.cell, o.wire ++ o'.wire, o.released ++ o'.released⟩
      else some o

def doSend (cell : ClientCell) (writes : ℕ → WriteResult) : Option SendOut :=
  doSendLoop writes serverMaxSendTimes cell

/-- The loop of `~clientCell`: the cells it frees, in at most one turn of the ring. -/
def destroyLoop : ℕ → ClientCell → Option (List ℕ)
  | 0, cell => if cell.sendReadPos ≠ cell.sendWritePos then none else some []
  | n + 1, cell =>
    if cell.sendReadPos ≠ cell.sendWritePos then
      (cell.sendBuf cell.sendReadPos).bind fun sc =>
        (destroyLoop n cell.popHead).map fun ids => sc.id :: ids
    else some []

def destroy (cell : ClientCell) : Option (List ℕ) := destroyLoop SYSSENDBUF cell

end ClientCell

theorem ClientCell.handleSend_sameRecv {cell cell' : ClientCell} {sc : SendCell}
    (h : cell.handleSend sc = some cell') : SameRecv cell cell' := by
  unfold handleSend at h
  split_ifs at h
  obtain rfl := Option.some.inj h
  exact ⟨rfl, rfl, rfl, rfl⟩

theorem ClientCell.doSendIter_sameRecv {cell : ClientCell} {r : WriteResult} {o : SendOut × Bool}
    (h : cell.doSendIter r = some o) : SameRecv cell o.1.cell := by
  unfold doSendIter at h
  split_ifs at h
  · obtain ⟨sc, -, rfl⟩ := Option.map_eq_some_iff.mp h
    cases r with
    | again => exact .refl cell
    | fail => exact .refl cell
    | count n =>
      dsimp only
      split_ifs
      · exact .refl cell
      · exact ⟨rfl, rfl, rfl, rfl⟩
      · exact ⟨rfl, rfl, rfl, rfl⟩
  · obtain rfl := Option.some.inj h
    exact .refl cell

/-- What every round keeps is kept by all rounds. -/
theorem ClientCell.doSend_rel {R : ClientCell → ClientCell → Prop} (hrefl : ∀ c, R c c)
    (htrans : ∀ c₁ c₂ c₃, R c₁ c₂ → R c₂ c₃ → R c₁ c₃)
    (hiter : ∀ c r o, doSendIter c r = some o → R c o.1.cell) {cell : ClientCell}
    {writes : ℕ → WriteResult} {o : SendOut} (h : cell.doSend writes = some o) : R cell o.cell := by
  unfold doSend at h
  generalize serverMaxSendTimes = n at h
  induction n generalizing cell o with
  | zero =>
    obtain rfl := Option.some.inj h
    exact hrefl cell
  | succ n ih =>
    obtain ⟨⟨o₁, goOn⟩, hround, h⟩ := Option.bind_eq_some_iff.mp h
    have hfirst := hiter _ _ _ hround
    dsimp only at h
    split_ifs at h
    · obtain ⟨o₂, hloop, rfl⟩ := Option.map_eq_some_iff.mp h
      have hrest : R o₁.cell o₂.cell := ih hloop
      exact htrans _ _ _ hfirst hrest
    · obtain rfl := Option.some.inj h
      exact hfirst

theorem ClientCell.doSend_sameRecv {cell : ClientCell} {writes : ℕ → WriteResult} {o : SendOut}
    (h : cell.doSend writes = some o) : SameRecv cell o.cell :=
  doSend_rel .refl (fun _ _ _ => .trans) (fun _ _ _ => doSendIter_sameRecv) h

/-- The ring of the cell holds exactly these, in order, and only the first may be written in
part. -/
structure SendRing (cell : ClientCell) (xs : List SendCell) : Prop where
  holds : Holds cell.sendBuf SYSSENDBUF cell.sendReadPos cell.sendWritePos xs
  tail : ∀ sc ∈ xs.tail, sc.sendPos = 0

/-- The bytes of the head that are already written. -/
def headWritten : List SendCell → List SentByte
  | [] => []
  | sc :: _ => sc.sent.take sc.sendPos

@[simp] theorem headWritten_cons (sc : SendCell) (xs : List SendCell) :
    headWritten (sc :: xs) = sc.sent.take sc.sendPos := rfl

theorem headWritten_of_fresh {xs : List SendCell} (h : ∀ sc ∈ xs, sc.sendPos = 0) :
    headWritten xs = [] := by
  cases xs with
  | nil => rfl
  | cons sc xs => simp [headWritten, h sc (by simp)]

theorem headWritten_append_fresh {xs : List SendCell} {sc : SendCell} (h : sc.sendPos = 0) :
    headWritten (xs ++ [sc]) = headWritten xs := by
  cases xs <;> simp [headWritten, h]

theorem headWritten_append_unsent {xs : List SendCell} (h : ∀ sc ∈ xs.tail, sc.sendPos = 0) :
    headWritten xs ++ xs.flatMap SendCell.unsent = xs.flatMap fun sc => sc.sent := by
  have hfresh (ys : List SendCell) (h : ∀ sc ∈ ys, sc.sendPos = 0) :
      ys.flatMap SendCell.unsent = ys.flatMap fun sc => sc.sent := by
    induction ys with
    | nil => rfl
    | cons sc ys ih =>
      simp [SendCell.unsent, h sc (by simp), ih fun s hs => h s (by simp [hs])]
  cases xs with
  | nil => rfl
  | cons sc xs =>
    simp [headWritten, SendCell.unsent, hfresh xs h, ← List.append_assoc]

namespace SendRing
variable {cell : ClientCell} {xs : List SendCell}

theorem uint32_eq {n : ℕ} (h : n < SYSSENDBUF) : uint32 (n + 1) = n + 1 := by
  unfold SYSSENDBUF at h
  exact Nat.mod_eq_of_lt (by omega)

theorem new (fd : ℕ) (buf : Memory) (ev : EpollEvents) (ip : String) (port : UInt16) :
    SendRing (.new fd buf ev ip port) [] where
  holds := Holds.empty _ (by decide) fun _ _ => rfl
  tail := by simp

/-- `handleSend` appends the cell unless the ring holds all it can. -/
theorem handleSend (h : SendRing cell xs) (sc : SendCell) (hsc : sc.sendPos = 0) :
    (xs.length + 1 = SYSSENDBUF ∧ cell.handleSend sc = none) ∨
      ∃ cell', cell.handleSend sc = some cell' ∧ SendRing cell' (xs ++ [sc]) := by
  unfold ClientCell.handleSend
  by_cases hfull : (cell.sendWritePos + 1) % SYSSENDBUF = cell.sendReadPos
  · exact Or.inl ⟨h.holds.next_eq_iff_full.mp hfull, if_pos hfull⟩
  · right
    have hlen := h.holds.length_lt
    have hroom : xs.length + 1 < SYSSENDBUF := by
      have := mt h.holds.next_eq_iff_full.mpr hfull
      omega
    refine ⟨_, if_neg hfull, ?_, ?_⟩
    · rw [uint32_eq h.holds.write_lt]
      exact h.holds.push hroom sc
    · intro s hs
      cases xs with
      | nil => simp at hs
      | cons x xs =>
        simp only [List.cons_append, List.tail_cons, List.mem_append, List.mem_singleton] at hs
        rcases hs with hs | rfl
        · exact h.tail s hs
        · exact hsc

theorem popHead {sc : SendCell} (h : SendRing cell (sc :: xs)) : SendRing cell.popHead xs where
  holds := by
    have hr := uint32_eq h.holds.read_lt
    unfold ClientCell.popHead
    rw [hr]
    exact h.holds.pop
  tail := fun s hs => h.tail s (List.mem_of_mem_tail hs)

/-- Relates the ring before and after some rounds of writing: which payloads were written out and
freed, and what the bytes written to the socket are. -/
structure Sent (xs : List SendCell) (o : SendOut) (done : List Payload) (ys : List SendCell) :
    Prop where
  ring : SendRing o.cell ys
  payloads : xs.map SendCell.toPayload = done ++ ys.map SendCell.toPayload
  released : o.released = done.map Payload.id
  stream : headWritten xs ++ o.wire = done.flatMap Payload.sent ++ headWritten ys

theorem Sent.refl (h : SendRing cell xs) : Sent xs ⟨cell, [], []⟩ [] xs where
  ring := h
  payloads := rfl
  released := rfl
  stream := by simp

theorem Sent.trans {o o' : SendOut} {done done' : List Payload} {ys zs : List SendCell}
    (h : Sent xs o done ys) (h' : Sent ys o' done' zs) :
    Sent xs ⟨o'.cell, o.wire ++ o'.wire, o.released ++ o'.released⟩ (done ++ done') zs where
  ring := h'.ring
  payloads := by rw [h.payloads, h'.payloads, List.append_assoc]
  released := by rw [h.released, h'.released, List.map_append]
  stream := by
    rw [← List.append_assoc, h.stream, List.append_assoc, h'.stream, List.flatMap_append,
      List.append_assoc]

theorem doSendIter (h : SendRing cell xs) (r : WriteResult) :
    ∃ o goOn done ys, cell.doSendIter r = some (o, goOn) ∧ Sent xs o done ys := by
  unfold ClientCell.doSendIter
  by_cases heq : cell.sendWritePos = cell.sendReadPos
  · exact ⟨_, _, _, _, if_neg (not_not.mpr heq), .refl h⟩
  rw [if_pos heq]
  cases xs with
  | nil => exact absurd (h.holds.eq_iff_nil.mpr rfl) heq
  | cons sc xs =>
    rw [h.holds.head, Option.map_some]
    cases r with
    | again => exact ⟨_, _, _, _, rfl, .refl h⟩
    | fail => exact ⟨_, _, _, _, rfl, .refl h⟩
    | count n =>
      dsimp only
      split_ifs with hzero hpart
      · exact ⟨_, _, _, _, rfl, .refl h⟩
      · -- a partial write moves `sendPos` of the head
        generalize min n (sc.bytes.length - sc.sendPos) = k
        refine ⟨_, _, [], { sc with sendPos := sc.sendPos + k } :: xs, rfl,
          ⟨⟨h.holds.set_head _, h.tail⟩, rfl, rfl, ?_⟩⟩
        simp [headWritten, SendCell.unsent, List.take_add]
      · -- the head was written to its end
        have hfresh : ∀ s ∈ xs, s.sendPos = 0 := h.tail
        refine ⟨_, _, [sc.toPayload], xs, rfl, ⟨h.popHead, rfl, rfl, ?_⟩⟩
        have hall : sc.unsent.take (min n (sc.bytes.length - sc.sendPos)) = sc.unsent :=
          List.take_of_length_le (by simp [SendCell.unsent, Payload.sent]; omega)
        simp only [headWritten_of_fresh hfresh, headWritten_cons, List.flatMap_cons,
          List.flatMap_nil, List.append_nil, hall]
        exact List.take_append_drop sc.sendPos sc.sent

theorem doSendLoop (h : SendRing cell xs) (writes : ℕ → WriteResult) (n : ℕ) :
    ∃ o done ys, cell.doSendLoop writes n = some o ∧ Sent xs o done ys := by
  induction n generalizing cell xs with
  | zero => exact ⟨_, _, _, rfl, .refl h⟩
  | succ n ih =>
    obtain ⟨o, goOn, done, ys, hiter, hsent⟩ := h.doSendIter (writes n)
    rw [ClientCell.doSendLoop, hiter]
    cases goOn with
    | false => exact ⟨o, done, ys, rfl, hsent⟩
    | true =>
      obtain ⟨o', done', zs, hloop, hsent'⟩ := ih hsent.ring
      exact ⟨_, _, _, by simp [hloop], hsent.trans hsent'⟩

theorem doSend (h : SendRing cell xs) (writes : ℕ → WriteResult) :
    ∃ o done ys, cell.doSend writes = some o ∧ Sent xs o done ys :=
  h.doSendLoop writes serverMaxSendTimes

/-- The destructor frees exactly the cells in the ring. -/
theorem destroyLoop (h : SendRing cell xs) {n : ℕ} (hn : xs.length ≤ n) :
    cell.destroyLoop n = some (xs.map fun sc => sc.id) := by
  induction n generalizing cell xs with
  | zero =>
    obtain rfl : xs = [] := List.eq_nil_of_length_eq_zero (by omega)
    simp [ClientCell.destroyLoop, h.holds.eq_iff_nil.mpr rfl]
  | succ n ih =>
    rw [ClientCell.destroyLoop]
    cases xs with
    | nil => rw [if_neg (by simp [h.holds.eq_iff_nil.mpr rfl])]; rfl
    | cons sc xs =>
      have hne : cell.sendReadPos ≠ cell.sendWritePos := fun heq =>
        absurd (h.holds.eq_iff_nil.mp heq.symm) (List.cons_ne_nil sc xs)
      rw [if_pos hne, h.holds.head, Option.bind_some, ih h.popHead (by simpa using hn)]
      rfl

theorem destroy (h : SendRing cell xs) : cell.destroy = some (xs.map fun sc => sc.id) :=
  h.destroyLoop h.holds.length_lt.le

end SendRing
end TcpLib
