import TcpLib.ServerSend

/-!
# Progress of doSend

On a socket that takes every write in full, each round of `doSend` should send the head of the ring
and remove it. A write of no bytes returns 0, which `doSend` takes for a full socket, so an empty
payload is never removed, and nothing behind it is sent.
-/

namespace TcpLib
open CircularBuffer

/-- A cell as `sendTask` makes it. -/
def Payload.fresh (p : Payload) : SendCell := ⟨p, 0⟩

namespace ClientCell

/-- The ring after `handleSend` stored these one after the other. -/
def storeAll (cell : ClientCell) : List Payload → Option ClientCell
  | [] => some cell
  | p :: ps => (cell.handleSend p.fresh).bind fun cell' => cell'.storeAll ps

/-- Calls of `doSend`, one after the other. -/
def doSendCalls (writes : ℕ → ℕ → WriteResult) : ℕ → ClientCell → Option SendOut
  | 0, cell => some ⟨cell, [], []⟩
  | n + 1, cell =>
    (cell.doSend (writes n)).bind fun o =>
      (doSendCalls writes n o.cell).map fun o' =>
        ⟨o'.cell, o.wire ++ o'.wire, o.released ++ o'.released⟩

end ClientCell

/-- A write of `k` bytes returns `k`. -/
def TakesAll (ps : List Payload) (writes : ℕ → WriteResult) : Prop :=
  ∀ i, ∃ n, writes i = .count n ∧ ∀ p ∈ ps, p.bytes.length ≤ n

/-- The number of calls that should be enough. -/
def callsNeeded (n : ℕ) : ℕ := (n + (serverMaxSendTimes - 1)) / serverMaxSendTimes

/-- What `doSend` should do with a ring that holds these payloads. -/
structure SendsAll (cell : ClientCell) (ps : List Payload) (writes : ℕ → ℕ → WriteResult) : Prop where
  one : ∃ o, cell.doSend (writes 0) = some o ∧
    SendRing o.cell ((ps.drop serverMaxSendTimes).map Payload.fresh) ∧
    o.wire = (ps.take serverMaxSendTimes).flatMap Payload.sent ∧
    o.released = (ps.take serverMaxSendTimes).map Payload.id
  calls : ∃ o, cell.doSendCalls writes (callsNeeded ps.length) = some o ∧
    o.cell.sendWritePos = o.cell.sendReadPos ∧ o.wire = ps.flatMap Payload.sent ∧
    o.released = ps.map Payload.id

namespace SendRing
variable {cell cell' : ClientCell} {xs : List SendCell} {ps : List Payload}

theorem storeAll (h : SendRing cell xs) (hstore : cell.storeAll ps = some cell') :
    SendRing cell' (xs ++ ps.map Payload.fresh) := by
  induction ps generalizing cell xs with
  | nil =>
    obtain rfl := Option.some.inj hstore
    simpa using h
  | cons p ps ih =>
    obtain ⟨mid, hmid, hrest⟩ := Option.bind_eq_some_iff.mp hstore
    rcases h.handleSend p.fresh rfl with ⟨-, hfull⟩ | ⟨cell₁, hcell, hring⟩
    · rw [hfull] at hmid
      cases hmid
    · obtain rfl := Option.some.inj (hcell.symm.trans hmid)
      have hnext := ih hring hrest
      rw [List.append_assoc] at hnext
      exact hnext

theorem doSendIter_full {p : Payload} (h : SendRing cell (p.fresh :: xs)) {n : ℕ}
    (hpos : p.bytes ≠ []) (hn : p.bytes.length ≤ n) :
    cell.doSendIter (.count n) = some (⟨cell.popHead, p.sent, [p.id]⟩, true) := by
  have hne : cell.sendWritePos ≠ cell.sendReadPos := by
    intro heq
    exact absurd (h.holds.eq_iff_nil.mp heq) (List.cons_ne_nil _ _)
  have hlen := List.length_pos_iff.mpr hpos
  unfold ClientCell.doSendIter
  rw [if_pos hne, h.holds.head, Option.map_some]
  have hreq : p.fresh.bytes.length - p.fresh.sendPos = p.bytes.length := rfl
  have htake : p.fresh.unsent.take p.bytes.length = p.sent := by
    unfold SendCell.unsent
    exact List.take_of_length_le (by simp [Payload.sent, Payload.fresh])
  simp only [hreq, Nat.min_eq_right hn, htake]
  rw [if_neg hlen.ne', if_neg (lt_irrefl _)]
  rfl

theorem doSendIter_nil (h : SendRing cell []) (r : WriteResult) :
    cell.doSendIter r = some (⟨cell, [], []⟩, true) := by
  unfold ClientCell.doSendIter
  rw [if_neg (not_not.mpr (h.holds.eq_iff_nil.mpr rfl))]

/-- The rounds of one call send the payloads from the first on. -/
theorem doSendLoop_full {writes : ℕ → WriteResult} (h : SendRing cell (ps.map Payload.fresh))
    (hpos : ∀ p ∈ ps, p.bytes ≠ []) (htakes : TakesAll ps writes) (n : ℕ) :
    ∃ o, cell.doSendLoop writes n = some o ∧ SendRing o.cell ((ps.drop n).map Payload.fresh) ∧
      o.wire = (ps.take n).flatMap Payload.sent ∧ o.released = (ps.take n).map Payload.id := by
  induction n generalizing cell ps with
  | zero => exact ⟨_, rfl, h, rfl, rfl⟩
  | succ n ih =>
    rw [ClientCell.doSendLoop]
    obtain ⟨k, hk, hlen⟩ := htakes n
    cases ps with
    | nil =>
      obtain ⟨o, hloop, hring, hwire, hfreed⟩ := @ih _ [] h (by simp) htakes
      simp only [List.drop_nil, List.take_nil] at hring hwire hfreed
      refine ⟨o, ?_, hring, hwire, hfreed⟩
      simp [doSendIter_nil h, hloop]
    | cons p ps =>
      obtain ⟨o, hloop, hring, hwire, hfreed⟩ := ih h.popHead
        (fun q hq => hpos q (List.mem_cons_of_mem p hq))
        (fun i => (htakes i).imp fun m hm => ⟨hm.1, fun q hq => hm.2 q (List.mem_cons_of_mem p hq)⟩)
      rw [hk, h.doSendIter_full (hpos p List.mem_cons_self) (hlen p List.mem_cons_self)]
      refine ⟨⟨o.cell, p.sent ++ o.wire, p.id :: o.released⟩, ?_, hring, ?_, ?_⟩
      · simp [hloop]
      · rw [hwire, List.take_succ_cons, List.flatMap_cons]
      · rw [hfreed, List.take_succ_cons, List.map_cons]

theorem doSendCalls_full {writes : ℕ → ℕ → WriteResult} (h : SendRing cell (ps.map Payload.fresh))
    (hpos : ∀ p ∈ ps, p.bytes ≠ []) (htakes : ∀ i, TakesAll ps (writes i)) {n : ℕ}
    (hn : ps.length ≤ n * serverMaxSendTimes) :
    ∃ o, cell.doSendCalls writes n = some o ∧ SendRing o.cell [] ∧
      o.wire = ps.flatMap Payload.sent ∧ o.released = ps.map Payload.id := by
  induction n generalizing cell ps with
  | zero =>
    obtain rfl : ps = [] := List.eq_nil_of_length_eq_zero (by omega)
    exact ⟨_, rfl, h, rfl, rfl⟩
  | succ n ih =>
    obtain ⟨o, hcall, hring, hwire, hfreed⟩ := h.doSendLoop_full hpos (htakes n) serverMaxSendTimes
    obtain ⟨o', hcalls, hring', hwire', hfreed'⟩ := ih hring
      (fun p hp => hpos p (List.mem_of_mem_drop hp))
      (fun i j => (htakes i j).imp fun m hm => ⟨hm.1, fun p hp => hm.2 p (List.mem_of_mem_drop hp)⟩)
      (by rw [List.length_drop, Nat.sub_le_iff_le_add, ← Nat.succ_mul]; exact hn)
    refine ⟨⟨o'.cell, o.wire ++ o'.wire, o.released ++ o'.released⟩, ?_, hring', ?_, ?_⟩
    · rw [ClientCell.doSendCalls]
      simp [ClientCell.doSend, hcall, hcalls]
    · rw [hwire, hwire', ← List.flatMap_append, List.take_append_drop]
    · rw [hfreed, hfreed', ← List.map_append, List.take_append_drop]

theorem doSendIter_keeps (h : SendRing cell xs) {sc : SendCell} (hsc : sc ∈ xs)
    (hempty : sc.bytes = []) (r : WriteResult) :
    ∃ o goOn ys, cell.doSendIter r = some (o, goOn) ∧ SendRing o.cell ys ∧ sc ∈ ys := by
  cases xs with
  | nil => cases hsc
  | cons head xs =>
    have hne : cell.sendWritePos ≠ cell.sendReadPos := by
      intro heq
      exact absurd (h.holds.eq_iff_nil.mp heq) (List.cons_ne_nil _ _)
    unfold ClientCell.doSendIter
    rw [if_pos hne, h.holds.head, Option.map_some]
    cases r with
    | again => exact ⟨_, _, _, rfl, h, hsc⟩
    | fail => exact ⟨_, _, _, rfl, h, hsc⟩
    | count n =>
      dsimp only
      have hbehind (hpos : min n (head.bytes.length - head.sendPos) ≠ 0) : sc ∈ xs := by
        rcases List.mem_cons.mp hsc with rfl | hmem
        · simp [hempty] at hpos
        · exact hmem
      split_ifs with hzero hpart
      · exact ⟨_, _, _, rfl, h, hsc⟩
      · exact ⟨_, _, _, rfl, ⟨h.holds.set_head _, h.tail⟩, List.mem_cons_of_mem _ (hbehind hzero)⟩
      · exact ⟨_, _, _, rfl, h.popHead, hbehind hzero⟩

theorem doSendLoop_keeps (writes : ℕ → WriteResult) (h : SendRing cell xs) {sc : SendCell}
    (hsc : sc ∈ xs) (hempty : sc.bytes = []) (n : ℕ) :
    ∃ o ys, cell.doSendLoop writes n = some o ∧ SendRing o.cell ys ∧ sc ∈ ys := by
  induction n generalizing cell xs with
  | zero => exact ⟨_, xs, rfl, h, hsc⟩
  | succ n ih =>
    obtain ⟨o, goOn, ys, hiter, hring, hmem⟩ := h.doSendIter_keeps hsc hempty (writes n)
    rw [ClientCell.doSendLoop, hiter]
    cases goOn with
    | false => exact ⟨o, ys, rfl, hring, hmem⟩
    | true =>
      obtain ⟨o', zs, hloop, hring', hmem'⟩ := ih hring hmem
      refine ⟨⟨o'.cell, o.wire ++ o'.wire, o.released ++ o'.released⟩, zs, ?_, hring', hmem'⟩
      simp [hloop]

theorem doSendCalls_keeps (writes : ℕ → ℕ → WriteResult) (h : SendRing cell xs) {sc : SendCell}
    (hsc : sc ∈ xs) (hempty : sc.bytes = []) (n : ℕ) :
    ∃ o ys, cell.doSendCalls writes n = some o ∧ SendRing o.cell ys ∧ sc ∈ ys := by
  induction n generalizing cell xs with
  | zero => exact ⟨_, xs, rfl, h, hsc⟩
  | succ n ih =>
    obtain ⟨o, ys, hcall, hring, hmem⟩ :=
      h.doSendLoop_keeps (writes n) hsc hempty serverMaxSendTimes
    obtain ⟨o', zs, hcalls, hring', hmem'⟩ := ih hring hmem
    refine ⟨⟨o'.cell, o.wire ++ o'.wire, o.released ++ o'.released⟩, zs, ?_, hring', hmem'⟩
    rw [ClientCell.doSendCalls]
    simp [ClientCell.doSend, hcall, hcalls]

end SendRing

theorem le_callsNeeded (n : ℕ) : n ≤ callsNeeded n * serverMaxSendTimes := by
  unfold callsNeeded serverMaxSendTimes
  omega

/-- On a socket that takes every write in full, `doSend` sends everything exactly when no payload
in the ring is empty. -/
theorem doSend_sends_all_iff {cell₀ cell : ClientCell} (hring : SendRing cell₀ [])
    {ps : List Payload} (hstore : cell₀.storeAll ps = some cell)
    {writes : ℕ → ℕ → WriteResult} (htakes : ∀ i, TakesAll ps (writes i)) :
    SendsAll cell ps writes ↔ ∀ p ∈ ps, p.bytes ≠ [] := by
  have hfull : SendRing cell (ps.map Payload.fresh) := by simpa using hring.storeAll hstore
  constructor
  · intro h p hp hempty
    obtain ⟨o, hcalls, heq, -⟩ := h.calls
    obtain ⟨o', ys, hcalls', hys, hmem⟩ := hfull.doSendCalls_keeps writes
      (List.mem_map_of_mem (f := Payload.fresh) hp) hempty (callsNeeded ps.length)
    obtain rfl := Option.some.inj (hcalls.symm.trans hcalls')
    rw [hys.holds.eq_iff_nil.mp heq] at hmem
    cases hmem
  · intro hpos
    constructor
    · exact hfull.doSendLoop_full hpos (htakes 0) serverMaxSendTimes
    · obtain ⟨o, hcalls, hempty, hwire, hfreed⟩ :=
        hfull.doSendCalls_full hpos htakes (le_callsNeeded ps.length)
      exact ⟨o, hcalls, hempty.holds.eq_iff_nil.mpr rfl, hwire, hfreed⟩

/-- The cell of a new connection. -/
def emptyCell : ClientCell := .new 5 (fun _ => 0) {} "" 0

/-- A socket with room for 8 bytes in every write. -/
def wideSocket : ℕ → ℕ → WriteResult := fun _ _ => .count 8

theorem doSend_sends_all_iff_two :
    ∃ cell, emptyCell.storeAll [⟨0, 0, [42]⟩, ⟨1, 0, [43, 44]⟩] = some cell ∧
      (SendsAll cell [⟨0, 0, [42]⟩, ⟨1, 0, [43, 44]⟩] wideSocket ↔
        ∀ p ∈ ([⟨0, 0, [42]⟩, ⟨1, 0, [43, 44]⟩] : List Payload), p.bytes ≠ []) :=
  ⟨_, rfl, doSend_sends_all_iff (.new 5 (fun _ => 0) {} "" 0) rfl
    fun _ _ => ⟨8, rfl, by decide⟩⟩

/-- An empty payload is stored, and then one of one byte, and `doSend` writes neither. -/
theorem empty_payload_blocks_ring :
    ∃ cell, emptyCell.storeAll [⟨0, 0, []⟩, ⟨1, 0, [42]⟩] = some cell ∧
      (∀ i, TakesAll [⟨0, 0, []⟩, ⟨1, 0, [42]⟩] (wideSocket i)) ∧
      (cell.doSend (wideSocket 0)).map SendOut.wire = some [] ∧
      ¬ SendsAll cell [⟨0, 0, []⟩, ⟨1, 0, [42]⟩] wideSocket := by
  refine ⟨_, rfl, fun _ _ => ⟨8, rfl, by decide⟩, by decide +kernel, ?_⟩
  intro h
  obtain ⟨o, ho, -, hwire, -⟩ := h.one
  have hnone := congrArg (Option.map SendOut.wire) ho
  rw [Option.map_some, hwire] at hnone
  revert hnone
  decide +kernel

end TcpLib
