import TcpLib.ServerSend
import TcpLib.Lib.Transition

/-!
# The send stream of one connection

Any sequence of `handleSend` and `doSend` steps on one cell, with any results of `write`, and the
destructor at the end. The bytes on the socket and the unsent bytes in the ring are always the
payloads stored, and every send cell is freed once.
-/

namespace TcpLib
open CircularBuffer Transition

/-- One connection: its cell, the payloads stored so far, the bytes written, and the payloads
freed. -/
structure SendState where
  cell : ClientCell
  nextId : ℕ := 0
  stored : List Payload := []
  wire : List SentByte := []
  released : List ℕ := []
  closed : Bool := false
  fault : Bool := false

inductive SendAction
  | handleSend (payload : List UInt8)
  | doSend (writes : ℕ → WriteResult)
  | delete

namespace SendState

def step (s : SendState) : SendAction → Option SendState
  | a => if s.closed ∨ s.fault then none else
    match a with
    | .handleSend payload =>
      let sc : SendCell := { id := s.nextId, conn := 0, bytes := payload }
      match s.cell.handleSend sc with
      | some cell => some { s with
          cell := cell
          nextId := s.nextId + 1
          stored := s.stored ++ [sc.toPayload] }
      | none => some { s with nextId := s.nextId + 1 }
    | .doSend writes =>
      match s.cell.doSend writes with
      | some o => some { s with
          cell := o.cell
          wire := s.wire ++ o.wire
          released := s.released ++ o.released }
      | none => some { s with fault := true }
    | .delete =>
      match s.cell.destroy with
      | some ids => some { s with released := s.released ++ ids, closed := true }
      | none => some { s with fault := true }

/-- The cells from the read to the write position. -/
def pending (s : SendState) : List SendCell :=
  contents s.cell.sendBuf SYSSENDBUF s.cell.sendReadPos s.cell.sendWritePos

/-- An open connection: the payloads in `done` were written and freed, the cells `xs` are in the
ring. -/
structure Live (s : SendState) (done : List Payload) (xs : List SendCell) : Prop where
  open_ : s.closed = false
  ring : SendRing s.cell xs
  stored : s.stored = done ++ xs.map SendCell.toPayload
  released : s.released = done.map Payload.id
  wire : s.wire = done.flatMap Payload.sent ++ headWritten xs

/-- What every run keeps. -/
structure Inv (s : SendState) : Prop where
  fault : s.fault = false
  fresh : ∀ x ∈ s.stored, x.id < s.nextId
  nodup : (s.stored.map Payload.id).Nodup
  state : (∃ done xs, s.Live done xs) ∨ (s.closed = true ∧ s.released = s.stored.map Payload.id)

variable {s t : SendState}

theorem Inv.init {cell : ClientCell} (h : SendRing cell []) : Inv { cell := cell } where
  fault := rfl
  fresh := by simp
  nodup := by simp
  state := Or.inl ⟨[], [], rfl, h, rfl, rfl, rfl⟩

theorem Inv.step (inv : s.Inv) {a : SendAction} (hstep : s.step a = some t) : t.Inv := by
  unfold SendState.step at hstep
  split at hstep
  · cases hstep
  next hgo =>
  obtain ⟨done, xs, hlive⟩ : ∃ done xs, s.Live done xs :=
    inv.state.resolve_right fun h => hgo (Or.inl h.1)
  have hring := hlive.ring
  cases a with
  | handleSend payload =>
    dsimp only at hstep
    generalize hsc : ({ id := s.nextId, conn := 0, bytes := payload } : SendCell) = sc at hstep
    have hpos : sc.sendPos = 0 := by rw [← hsc]
    have hid : sc.id = s.nextId := by rw [← hsc]
    rcases hring.handleSend sc hpos with ⟨-, hfull⟩ | ⟨cell, hstore, hring'⟩
    · rw [hfull] at hstep
      obtain rfl := Option.some.inj hstep
      exact ⟨inv.fault, fun x hx => Nat.lt_succ_of_lt (inv.fresh x hx), inv.nodup,
        Or.inl ⟨done, xs, hlive.open_, hring, hlive.stored, hlive.released, hlive.wire⟩⟩
    · rw [hstore] at hstep
      obtain rfl := Option.some.inj hstep
      refine ⟨inv.fault, ?_, ?_, Or.inl ⟨done, xs ++ [sc], hlive.open_, hring', ?_, hlive.released, ?_⟩⟩
      · intro x hx
        simp only [List.mem_append, List.mem_singleton] at hx
        rcases hx with hx | rfl
        · exact Nat.lt_succ_of_lt (inv.fresh x hx)
        · exact hid ▸ Nat.lt_succ_self _
      · rw [List.map_append, List.nodup_append]
        refine ⟨inv.nodup, by simp, ?_⟩
        intro i hi j hj
        obtain ⟨x, hx, rfl⟩ := List.mem_map.mp hi
        have hlt := inv.fresh x hx
        simp only [List.map_cons, List.map_nil, List.mem_singleton] at hj
        rw [hj]
        exact Nat.ne_of_lt hlt
      · simp [hlive.stored, ← hsc]
      · rw [headWritten_append_fresh hpos]
        exact hlive.wire
  | doSend writes =>
    obtain ⟨o, done', ys, hsend, hsent⟩ := hring.doSend writes
    dsimp only at hstep
    rw [hsend] at hstep
    obtain rfl := Option.some.inj hstep
    refine ⟨inv.fault, inv.fresh, inv.nodup, Or.inl ⟨done ++ done', ys, hlive.open_, hsent.ring, ?_, ?_, ?_⟩⟩
    · simp only [hlive.stored, hsent.payloads, List.append_assoc]
    · simp only [hlive.released, hsent.released, List.map_append]
    · simp only [hlive.wire, List.append_assoc, hsent.stream, List.flatMap_append]
  | delete =>
    dsimp only at hstep
    rw [hring.destroy] at hstep
    obtain rfl := Option.some.inj hstep
    refine ⟨inv.fault, inv.fresh, inv.nodup, Or.inr ⟨rfl, ?_⟩⟩
    simp only [hlive.released, hlive.stored, List.map_append, List.map_map]
    rfl

theorem Inv.run {cell : ClientCell} (h : SendRing cell []) {acts : List SendAction}
    (hrun : Run SendState.step anyStep { cell := cell } acts s) : s.Inv :=
  hrun.invariant Inv (.init h) fun _ _ _ inv _ hstep => inv.step hstep

theorem Live.pending_eq {done : List Payload} {xs : List SendCell} (h : s.Live done xs) :
    s.pending = xs := h.ring.holds.contents_eq

/-- What is promised about the stream and the ring of an open connection. -/
structure Integrity (s : SendState) : Prop where
  stream : (s.wire ++ s.pending.flatMap SendCell.unsent).map SentByte.byte =
    s.stored.flatMap Payload.bytes
  slots : ∀ j < SYSSENDBUF, (s.cell.sendBuf j).isSome ↔
    ∃ i < (s.cell.sendWritePos + SYSSENDBUF - s.cell.sendReadPos) % SYSSENDBUF,
      j = (s.cell.sendReadPos + i) % SYSSENDBUF
  head : ∀ sc ∈ s.pending.tail, sc.sendPos = 0
  owners : s.stored.map Payload.id = s.released ++ s.pending.map fun sc => sc.id
  written : (s.stored.take s.released.length).flatMap Payload.sent <+: s.wire
  empty : s.cell.sendWritePos = s.cell.sendReadPos ↔ s.pending = []

theorem Live.integrity {done : List Payload} {xs : List SendCell} (h : s.Live done xs) :
    s.Integrity := by
  have hpending := h.pending_eq
  have htake : s.stored.take s.released.length = done := by
    rw [h.stored, h.released, List.length_map, List.take_left]
  exact
    { stream := by
        rw [hpending, h.wire, List.append_assoc, headWritten_append_unsent h.ring.tail, h.stored,
          List.map_append, List.map_flatMap, List.map_flatMap, List.flatMap_append,
          List.flatMap_map]
        simp
      slots := fun j hj => by rw [h.ring.holds.distance]; exact h.ring.holds.isSome_iff hj
      head := by rw [hpending]; exact h.ring.tail
      owners := by rw [h.stored, h.released, hpending, List.map_append, List.map_map]; rfl
      written := by rw [htake, h.wire]; exact List.prefix_append _ _
      empty := by rw [hpending]; exact h.ring.holds.eq_iff_nil }

end SendState

/-- Send stream integrity: in every run the stream is never torn, no step is undefined, every
cell is freed at most once, and the destructor frees what was left. -/
theorem send_stream_integrity {fd : ℕ} {buf : Memory} {ev : EpollEvents} {ip : String} {port : UInt16}
    {acts : List SendAction} {s : SendState}
    (hrun : Run SendState.step anyStep { cell := .new fd buf ev ip port } acts s) :
    s.fault = false ∧ s.released.Nodup ∧ (s.closed = false → s.Integrity) ∧
      (s.closed = true → s.released = s.stored.map Payload.id) := by
  have inv := SendState.Inv.run (SendRing.new fd buf ev ip port) hrun
  refine ⟨inv.fault, ?_, ?_, ?_⟩
  · have hnodup := inv.nodup
    rcases inv.state with ⟨done, xs, hlive⟩ | ⟨-, hreleased⟩
    · rw [hlive.stored, List.map_append] at hnodup
      rw [hlive.released]
      exact hnodup.of_append_left
    · rw [hreleased]
      exact hnodup
  · intro hopen
    rcases inv.state with ⟨done, xs, hlive⟩ | ⟨hclosed, -⟩
    · exact hlive.integrity
    · rw [hopen] at hclosed
      cases hclosed
  · intro hclosed
    rcases inv.state with ⟨done, xs, hlive⟩ | ⟨-, hreleased⟩
    · rw [hlive.open_] at hclosed
      cases hclosed
    · exact hreleased

/-- Three payloads, one of them empty, written in parts and then deleted. -/
def sendExample : List SendAction :=
  [.handleSend [1, 2, 3], .handleSend [], .doSend fun _ => .count 2, .handleSend [4],
    .doSend fun n => if n = 999 then .again else .count 1, .delete]

theorem send_stream_integrity_example :
    ∃ s, exec SendState.step { cell := .new 5 (fun _ => 0) {} "" 0 } sendExample = some s ∧
      s.fault = false ∧ s.released.Nodup ∧ s.released = s.stored.map Payload.id := by
  have hclosed : (exec SendState.step { cell := .new 5 (fun _ => 0) {} "" 0 } sendExample).map
      (·.closed) = some true := by decide +kernel
  obtain ⟨s, hs, hclosed⟩ := Option.map_eq_some_iff.mp hclosed
  obtain ⟨hfault, hnodup, -, hreleased⟩ :=
    send_stream_integrity (Run.of_exec (fun _ _ _ => trivial) hs)
  exact ⟨s, hs, hfault, hnodup, hreleased hclosed⟩

end TcpLib
