import TcpLib.TcpClient

/-!
# Callbacks that return the error value

Both notify classes return `(size_t)-1` for an error. Neither reader tests for it: the value is
added to a `uint32_t` position, which moves it back by one byte, or from 0 to the end of the range.
Then the server takes its buffer for empty and the client compacts from outside of its own. So the
positions survive exactly as long as no callback returns the error value.
-/

namespace TcpLib
open LinearBuffer Transition

/-- What a callback may return when it was given `len` bytes. -/
def CountOrError (ret len : ℕ) : Prop := ret ≤ len ∨ ret = sizeMax

/-- How many bytes a call with this result consumed. -/
def consumedBy (ret : ℕ) : ℕ := if ret = sizeMax then 0 else ret

theorem CountOrError.consumedBy {ret len : ℕ} (h : CountOrError ret len) (hne : ret ≠ sizeMax) :
    ret ≤ len ∧ consumedBy ret = ret :=
  ⟨h.resolve_right hne, if_neg hne⟩

/-- Adding the error value to a position inside a buffer. -/
theorem uint32_add_sizeMax {r : ℕ} (hr : r < 2 ^ 32) :
    uint32 (r + sizeMax) = if r = 0 then 2 ^ 32 - 1 else r - 1 := by
  unfold uint32 sizeMax
  split_ifs <;> omega

/-! ## The server -/

section Server
variable {L : Type*}

def CountsOrFails (f : OnRecvData L) : Prop :=
  ∀ clientid buf len log, CountOrError (f clientid buf len log).1 len

/-- The callback with the number of the bytes it has consumed. -/
def counted (f : OnRecvData L) : OnRecvData (L × ℕ) := fun clientid buf len log =>
  let r := f clientid buf len log.1
  (r.1, r.2, log.2 + consumedBy r.1)

/-- A connection before its first `doRecv`. -/
def RecvState.accepted (cell : ClientCell) (log : L) : RecvState (L × ℕ) :=
  { cell := cell, log := (log, 0) }

/-- Between the positions are the received bytes that were not consumed. -/
structure RecvState.Intact (acts : List RecvAction) (s : RecvState (L × ℕ)) : Prop where
  fault : s.fault = false
  read_le : s.cell.recvReadPos ≤ s.cell.recvWritePos
  write_le : s.cell.recvWritePos ≤ SYSRECVBUF
  consumed_le : s.log.2 ≤ (received acts).length
  unread : s.cell.unread = (received acts).drop s.log.2

/-- The callback does not return the error value, unless the deletion of the connection was
already queued. -/
def RecvState.NoError (f : OnRecvData L) (s : RecvState (L × ℕ)) : RecvAction → Prop
  | .read (.data bytes) =>
    0 < s.delTasks ∨ (recvCall (counted f) s.cell s.log bytes).1 ≠ sizeMax
  | _ => True

variable {f : OnRecvData L} {acts : List RecvAction} {a : RecvAction} {bytes : List UInt8}

/-- Everything a round that read data can do to the state. -/
theorem RecvState.step_data {g : OnRecvData L} {s t : RecvState L}
    (h : s.step g (.read (.data bytes)) = some t) :
    (ReadResult.data bytes).Legal s.cell ∧ t.delTasks = s.delTasks ∧
      ((∃ o, doRecvIter g s.cell s.log (.data bytes) = some o ∧ t.cell = o.cell ∧ t.log = o.log ∧
        t.fault = s.fault) ∨
      doRecvIter g s.cell s.log (.data bytes) = none ∧ t.fault = true) := by
  simp only [RecvState.step] at h
  split at h
  · next hlegal =>
    refine ⟨hlegal.2, ?_⟩
    cases hiter : doRecvIter g s.cell s.log (.data bytes) with
    | none =>
      rw [hiter] at h
      obtain rfl := Option.some.inj h
      exact ⟨rfl, Or.inr ⟨rfl, rfl⟩⟩
    | some o =>
      rw [hiter] at h
      obtain rfl := Option.some.inj h
      obtain ⟨cell', -, rfl⟩ := Option.map_eq_some_iff.mp hiter
      unfold RecvState.leave
      split_ifs <;> exact ⟨rfl, Or.inl ⟨_, rfl, rfl, rfl, rfl⟩⟩
  · cases h

theorem RecvState.delTasks_le {g : OnRecvData L} {s t : RecvState L} (h : s.step g a = some t) :
    s.delTasks ≤ t.delTasks := by
  cases a with
  | doRecv =>
    simp only [RecvState.step] at h
    split at h
    · cases h
    · obtain rfl := Option.some.inj h
      exact le_rfl
  | read r =>
    cases r with
    | data bytes => exact (RecvState.step_data h).2.1.ge
    | again | eof | fail =>
      simp only [RecvState.step, doRecvIter] at h
      split at h
      · obtain rfl := Option.some.inj h
        simp [RecvState.leave]
      · cases h

theorem RecvState.Intact.init (cell : ClientCell) (log : L) (hread : cell.recvReadPos = 0)
    (hwrite : cell.recvWritePos = 0) : Intact [] (.accepted cell log) where
  fault := rfl
  read_le := by rw [accepted, hread]; exact Nat.zero_le _
  write_le := by rw [accepted, hwrite]; exact Nat.zero_le _
  consumed_le := le_rfl
  unread := by simp [accepted, ClientCell.unread, hread, hwrite]

theorem RecvState.Intact.data {s t : RecvState (L × ℕ)} (hf : CountsOrFails f) (h : s.Intact acts)
    (hne : (recvCall (counted f) s.cell s.log bytes).1 ≠ sizeMax)
    (hstep : s.step (counted f) (.read (.data bytes)) = some t) :
    t.Intact (acts ++ [.read (.data bytes)]) := by
  obtain ⟨hlegal, -, hround⟩ := RecvState.step_data hstep
  obtain ⟨hcount, hconsumed⟩ : (recvCall (counted f) s.cell s.log bytes).1 ≤
      s.cell.recvWritePos + bytes.length - s.cell.recvReadPos ∧
      consumedBy (recvCall (counted f) s.cell s.log bytes).1 =
        (recvCall (counted f) s.cell s.log bytes).1 := by
    rw [recvCall_eq (counted f) s.log h.read_le hlegal] at hne ⊢
    exact (hf _ _ _ _).consumedBy hne
  have hlog : (recvCall (counted f) s.cell s.log bytes).2.2 =
      s.log.2 + consumedBy (recvCall (counted f) s.cell s.log bytes).1 := rfl
  rw [hconsumed] at hlog
  obtain ⟨buf, hwin, hiter⟩ := doRecvIter_counted (counted f) h.read_le hlegal hcount
  generalize recvCall (counted f) s.cell s.log bytes = ret at *
  rcases hround with ⟨o, ho, hcell, hlog', hfault⟩ | ⟨hnone, -⟩
  · rw [hiter] at ho
    obtain rfl := Option.some.inj ho
    have hbytes : received (acts ++ [.read (.data bytes)]) = received acts ++ bytes := by
      simp [RecvAction.bytes, ReadResult.bytes]
    have hlen := congrArg List.length h.unread
    rw [ClientCell.length_unread, List.length_drop] at hlen
    have hsum := h.consumed_le
    have hreq := hlegal.2
    have hcap := h.write_le
    have hsnd := settle_snd_le (s.cell.recvReadPos + ret.1) (s.cell.recvWritePos + bytes.length)
    unfold ClientCell.readRequest at hreq
    refine ⟨hfault.trans h.fault, ?_, ?_, ?_, ?_⟩
    · rw [hcell]
      exact settle_le _ _
    · rw [hcell]
      change (settle _ _).2 ≤ SYSRECVBUF
      omega
    · rw [hlog', hbytes, List.length_append]
      change ret.2.2 ≤ _
      omega
    · rw [hcell, hlog', hbytes]
      refine hwin.trans ?_
      change _ = (received acts ++ bytes).drop ret.2.2
      rw [hlog, ← List.drop_drop, List.drop_append_of_le_length h.consumed_le, ← h.unread]
  · rw [hnone] at hiter
    cases hiter

theorem compact_length {cell cell' : ClientCell} (h : cell.compact = some cell') :
    cell'.recvWritePos - cell'.recvReadPos = cell.recvWritePos - cell.recvReadPos := by
  unfold ClientCell.compact at h
  split_ifs at h with hempty hhalf
  · obtain rfl := Option.some.inj h
    exact (Nat.sub_eq_zero_of_le hempty).symm
  · dsimp only at h
    split_ifs at h
    obtain rfl := Option.some.inj h
    rfl
  · obtain rfl := Option.some.inj h
    rfl

/-- After the error value one byte too many is unread, or none at all. -/
theorem RecvState.Intact.error {s t : RecvState (L × ℕ)} (h : s.Intact acts)
    (hret : (recvCall (counted f) s.cell s.log bytes).1 = sizeMax)
    (hstep : s.step (counted f) (.read (.data bytes)) = some t) :
    ¬t.Intact (acts ++ [.read (.data bytes)]) := by
  intro hafter
  obtain ⟨hlegal, -, ⟨o, ho, hcell, hlog, -⟩ | ⟨-, hfault⟩⟩ := RecvState.step_data hstep
  · obtain ⟨cell', hcompact, rfl⟩ := Option.map_eq_some_iff.mp ho
    have hlen := compact_length hcompact
    have hlog' : t.log.2 = s.log.2 + consumedBy (recvCall (counted f) s.cell s.log bytes).1 := by
      rw [hlog]
      split_ifs <;> rfl
    have hcell' : t.cell = cell' := by
      rw [hcell]
      split_ifs <;> rfl
    have hnew := congrArg List.length hafter.unread
    have hold := congrArg List.length h.unread
    have hconsumed : consumedBy sizeMax = 0 := if_pos rfl
    rw [hret, hconsumed, Nat.add_zero] at hlog'
    rw [ClientCell.length_unread, List.length_drop] at hold
    rw [ClientCell.length_unread, hcell', hlen, hlog', List.length_drop, received_append,
      List.length_append] at hnew
    change uint32 (s.cell.recvWritePos + bytes.length) -
      uint32 (s.cell.recvReadPos + (recvCall (counted f) s.cell s.log bytes).1) = _ at hnew
    have hbytes : (received [.read (.data bytes)]).length = bytes.length := by
      simp [RecvAction.bytes, ReadResult.bytes]
    obtain ⟨hpos, hreq⟩ := hlegal
    have hle := h.read_le
    have hsum := h.consumed_le
    unfold ClientCell.readRequest SYSRECVBUF at hreq
    rw [hret, uint32_add_sizeMax (by omega), hbytes] at hnew
    unfold uint32 at hnew
    split_ifs at hnew <;> omega
  · rw [hafter.fault] at hfault
    cases hfault

/-- What holds after each round, or the connection is being deleted. -/
def RecvState.IntactOrDeleted (acts : List RecvAction) (s : RecvState (L × ℕ)) : Prop :=
  s.Intact acts ∨ 0 < s.delTasks

theorem RecvState.IntactOrDeleted.step {s t : RecvState (L × ℕ)} (hf : CountsOrFails f)
    (h : s.IntactOrDeleted acts) (hok : s.NoError f a) (hstep : s.step (counted f) a = some t) :
    t.IntactOrDeleted (acts ++ [a]) := by
  rcases h with h | hdel
  · cases a with
    | doRecv =>
      simp only [RecvState.step] at hstep
      split at hstep
      · cases hstep
      · obtain rfl := Option.some.inj hstep
        have hbytes : received (acts ++ [.doRecv]) = received acts := by simp [RecvAction.bytes]
        left
        exact ⟨h.fault, h.read_le, h.write_le, hbytes ▸ h.consumed_le, hbytes ▸ h.unread⟩
    | read r =>
      cases r with
      | data bytes =>
        rcases hok with hdel | hne
        · exact Or.inr (hdel.trans_le (RecvState.delTasks_le hstep))
        · exact Or.inl (h.data hf hne hstep)
      | again =>
        simp only [RecvState.step, doRecvIter] at hstep
        split at hstep
        · obtain rfl := Option.some.inj hstep
          have hbytes : received (acts ++ [.read .again]) = received acts := by
            simp [RecvAction.bytes, ReadResult.bytes]
          left
          exact ⟨h.fault, h.read_le, h.write_le, hbytes ▸ h.consumed_le, hbytes ▸ h.unread⟩
        · cases hstep
      | eof | fail =>
        simp only [RecvState.step, doRecvIter] at hstep
        split at hstep
        · obtain rfl := Option.some.inj hstep
          exact Or.inr (Nat.succ_pos _)
        · cases hstep
  · exact Or.inr (hdel.trans_le (RecvState.delTasks_le hstep))

theorem RecvState.IntactOrDeleted.error {s t : RecvState (L × ℕ)} (h : s.IntactOrDeleted acts)
    (hbad : ¬s.NoError f a) (hstep : s.step (counted f) a = some t) :
    ¬t.IntactOrDeleted (acts ++ [a]) := by
  cases a with
  | doRecv => exact absurd trivial hbad
  | read r =>
    cases r with
    | data bytes =>
      obtain ⟨hdel, hret⟩ := not_or.mp hbad
      rintro (hafter | hdel')
      · exact (h.resolve_right hdel).error (not_not.mp hret) hstep hafter
      · rw [(RecvState.step_data hstep).2.1] at hdel'
        exact hdel hdel'
    | again | eof | fail => exact absurd trivial hbad

theorem RecvState.intact_throughout_iff {cell : ClientCell} {log : L} {s : RecvState (L × ℕ)}
    (hf : CountsOrFails f) (hread : cell.recvReadPos = 0) (hwrite : cell.recvWritePos = 0)
    (h : Run (RecvState.step (counted f)) anyStep (.accepted cell log) acts s) :
    Throughout (RecvState.step (counted f)) (.accepted cell log) acts RecvState.IntactOrDeleted ↔
      Run (RecvState.step (counted f)) (RecvState.NoError f) (.accepted cell log) acts s :=
  h.throughout_iff RecvState.IntactOrDeleted RecvState.IntactOrDeleted
    (Or.inl (.init cell log hread hwrite)) (fun _ _ hI => hI)
    (fun _ _ _ _ hI hok hstep => hI.step hf hok hstep)
    (fun _ _ _ _ hI hbad hstep => hI.error hbad hstep)

end Server

/-! ## The client -/

section Client
variable {L : Type*}

def CliCountsOrFails (f : CliOnRecvData L) : Prop :=
  ∀ buf len log, ∃ ret, f buf len log = some ret ∧ CountOrError ret.1 len

def cliCounted (f : CliOnRecvData L) : CliOnRecvData (L × ℕ) := fun buf len log =>
  (f buf len log.1).map fun r => (r.1, r.2, log.2 + consumedBy r.1)

/-- The calls of `RecvData` on one connection and the values they returned. -/
structure RecvDataRun (L : Type*) where
  client : EasyTcpClient L
  results : List ℤ := []
  fault : Bool := false

namespace RecvDataRun

/-- `recv` returns at most as many bytes as it was asked for. -/
def Legal (s : RecvDataRun L) : ReadResult → Prop
  | .data bytes => 0 < bytes.length ∧ bytes.length ≤ s.client.recvRequest
  | _ => True

instance (s : RecvDataRun L) (r : ReadResult) : Decidable (s.Legal r) :=
  match r with
  | .data bytes =>
    inferInstanceAs (Decidable (0 < bytes.length ∧ bytes.length ≤ s.client.recvRequest))
  | .eof => instDecidableTrue
  | .again => instDecidableTrue
  | .fail => instDecidableTrue

def step (f : CliOnRecvData L) (s : RecvDataRun L) (r : ReadResult) : Option (RecvDataRun L) :=
  if s.fault = false ∧ s.Legal r then
    match s.client.recvData f r with
    | some (client, ret) => some { s with client := client, results := s.results ++ [ret] }
    | none => some { s with fault := true }
  else none

def connected (sock : ℕ) (tcn : L) : RecvDataRun (L × ℕ) where
  client := { sock := some sock, isConnect := true, tcn := (tcn, 0) }

/-- Between the positions are the received bytes that were not consumed. -/
structure Intact (acts : List ReadResult) (s : RecvDataRun (L × ℕ)) : Prop where
  read_le : s.client.readIndex ≤ s.client.writeIndex
  write_le : s.client.writeIndex ≤ MAX_BUF_SIZE
  consumed_le : s.client.tcn.2 ≤ (acts.flatMap ReadResult.bytes).length
  unread : s.client.unread = (acts.flatMap ReadResult.bytes).drop s.client.tcn.2

/-- What holds after each call: its compaction was defined, and it returned -1 or the positions
are right. -/
def Sound (acts : List ReadResult) (s : RecvDataRun (L × ℕ)) : Prop :=
  s.fault = false ∧ (s.results.getLast? = some (-1) ∨ s.Intact acts)

def NoError (f : CliOnRecvData L) (s : RecvDataRun (L × ℕ)) : ReadResult → Prop
  | .data bytes => ∀ ret, s.client.recvCall (cliCounted f) bytes = some ret → ret.1 ≠ sizeMax
  | _ => True

/-- What holds in every run without an error value. -/
structure Inv (acts : List ReadResult) (s : RecvDataRun (L × ℕ)) : Prop extends Intact acts s where
  fault : s.fault = false
  read_lt : s.client.readIndex < MAX_BUF_SIZE / 2

variable {f : CliOnRecvData L} {acts : List ReadResult} {r : ReadResult}
  {s t : RecvDataRun (L × ℕ)} {bytes : List UInt8}

theorem Inv.init (sock : ℕ) (tcn : L) : Inv [] (connected sock tcn) where
  read_le := le_rfl
  write_le := Nat.zero_le _
  consumed_le := le_rfl
  unread := window_self _ _
  fault := rfl
  read_lt := show 0 < MAX_BUF_SIZE / 2 by decide

theorem writeIndex_le (h : s.client.writeIndex ≤ MAX_BUF_SIZE) (hlegal : s.Legal (.data bytes)) :
    s.client.writeIndex + bytes.length ≤ MAX_BUF_SIZE := by
  have hreq := hlegal.2
  unfold EasyTcpClient.recvRequest uint32 at hreq
  unfold MAX_BUF_SIZE at *
  omega

/-- The call of the callback and what it consumed. -/
theorem Inv.call (hf : CliCountsOrFails f) (h : Inv acts s) (hlegal : s.Legal (.data bytes)) :
    ∃ ret, s.client.recvCall (cliCounted f) bytes = some ret ∧
      CountOrError ret.1 (s.client.writeIndex + bytes.length - s.client.readIndex) ∧
      ret.2.2 = s.client.tcn.2 + consumedBy ret.1 := by
  rw [EasyTcpClient.recvCall_eq (cliCounted f) h.read_le (writeIndex_le h.write_le hlegal)]
  obtain ⟨ret, hret, hcount⟩ := hf
    (some fun i => store s.client.szMsgBuf s.client.writeIndex bytes (s.client.readIndex + i))
    (s.client.writeIndex + bytes.length - s.client.readIndex) s.client.tcn.1
  exact ⟨_, by rw [cliCounted, hret]; rfl, hcount, rfl⟩

theorem Inv.step (hf : CliCountsOrFails f) (h : Inv acts s) (hok : s.NoError f r)
    (hstep : s.step (cliCounted f) r = some t) : Inv (acts ++ [r]) t := by
  simp only [RecvDataRun.step] at hstep
  split at hstep
  · next hlegal =>
    cases r with
    | data bytes =>
      obtain ⟨ret, hcall, hcount, hlog⟩ := h.call hf hlegal.2
      obtain ⟨hle, hconsumed⟩ := hcount.consumedBy (hok ret hcall)
      obtain ⟨c, hrecv, hunread, htcn, -, hlt, hread, hwrite⟩ :=
        EasyTcpClient.recvData_counted h.read_lt h.read_le (writeIndex_le h.write_le hlegal.2) hcall
          hle
      rw [hrecv] at hstep
      obtain rfl := Option.some.inj hstep
      have hbytes : (acts ++ [ReadResult.data bytes]).flatMap ReadResult.bytes =
          acts.flatMap ReadResult.bytes ++ bytes := by
        simp [ReadResult.bytes]
      have hlen := congrArg List.length h.unread
      rw [EasyTcpClient.length_unread, List.length_drop] at hlen
      have hsum := h.consumed_le
      have htotal : c.tcn.2 = s.client.tcn.2 + ret.1 := by rw [htcn, hlog, hconsumed]
      refine ⟨⟨hread, hwrite, ?_, ?_⟩, h.fault, hlt⟩
      · rw [hbytes, List.length_append]
        change c.tcn.2 ≤ _
        omega
      · rw [hbytes]
        change c.unread = (_ ++ bytes).drop c.tcn.2
        rw [hunread, htotal, ← List.drop_drop, List.drop_append_of_le_length h.consumed_le,
          ← h.unread]
    | again | eof | fail =>
      obtain rfl := Option.some.inj hstep
      exact ⟨⟨h.read_le, h.write_le, by simpa [ReadResult.bytes] using h.consumed_le,
        by simpa [ReadResult.bytes] using h.unread⟩, h.fault, h.read_lt⟩
  · cases hstep

theorem compact_length {c c' : EasyTcpClient L} (hw : c.writeIndex < 2 ^ 32)
    (h : c.compact = some c') (hle : c.readIndex ≤ c.writeIndex) :
    c'.writeIndex - c'.readIndex = c.writeIndex - c.readIndex := by
  unfold EasyTcpClient.compact at h
  split_ifs at h with hhalf
  · dsimp only at h
    split_ifs at h
    obtain rfl := Option.some.inj h
    unfold uint32
    dsimp only
    omega
  · obtain rfl := Option.some.inj h
    rfl

theorem compact_frame {c c' : EasyTcpClient L} (h : c.compact = some c') : c'.tcn = c.tcn := by
  unfold EasyTcpClient.compact at h
  split_ifs at h
  · dsimp only at h
    split_ifs at h
    obtain rfl := Option.some.inj h
    rfl
  · obtain rfl := Option.some.inj h
    rfl

/-- After the error value the compaction leaves the buffer, or one byte too many is unread. -/
theorem Inv.error (hf : CliCountsOrFails f) (h : Inv acts s) (hbad : ¬s.NoError f r)
    (hstep : s.step (cliCounted f) r = some t) : ¬t.Sound (acts ++ [r]) := by
  simp only [RecvDataRun.step] at hstep
  split at hstep
  · next hlegal =>
    cases r with
    | data bytes =>
      obtain ⟨ret, hcall, -, hlog⟩ := h.call hf hlegal.2
      have hret : ret.1 = sizeMax := by
        by_contra hne
        apply hbad
        intro ret' hcall'
        rw [hcall] at hcall'
        rwa [← Option.some.inj hcall']
      have hroom := writeIndex_le h.write_le hlegal.2
      have hle := h.read_le
      have hpos := hlegal.2.1
      unfold MAX_BUF_SIZE at hroom
      have hw : uint32 (s.client.writeIndex + bytes.length) = s.client.writeIndex + bytes.length :=
        Nat.mod_eq_of_lt (by omega)
      have hdata := EasyTcpClient.recvData_of_call hcall
      rw [hret, uint32_add_sizeMax (by omega), hw] at hdata
      dsimp only at hdata
      rw [if_neg (by unfold sizeMax; omega)] at hdata
      rintro ⟨hfault, hsound⟩
      split_ifs at hdata with hzero
      · -- the copy would start behind the end of the buffer
        rw [EasyTcpClient.compact, if_pos (show MAX_BUF_SIZE / 2 ≤ 2 ^ 32 - 1 by decide)] at hdata
        dsimp only at hdata
        rw [if_neg (by unfold CopyOk MAX_BUF_SIZE; omega)] at hdata
        rw [hdata] at hstep
        obtain rfl := Option.some.inj hstep
        cases hfault
      · cases hcompact : EasyTcpClient.compact { s.client with
            szMsgBuf := store s.client.szMsgBuf s.client.writeIndex bytes
            readIndex := s.client.readIndex - 1
            writeIndex := s.client.writeIndex + bytes.length
            tcn := ret.2 } with
        | none =>
          rw [hcompact] at hdata
          rw [hdata] at hstep
          obtain rfl := Option.some.inj hstep
          cases hfault
        | some c =>
          have hframe := compact_frame hcompact
          have hlen := compact_length (by dsimp only; omega) hcompact (by dsimp only; omega)
          rw [hcompact] at hdata
          rw [hdata] at hstep
          obtain rfl := Option.some.inj hstep
          rcases hsound with hlast | hafter
          · simp at hlast
          · have hold := congrArg List.length h.unread
            have hnew := congrArg List.length hafter.unread
            have hconsumed : consumedBy sizeMax = 0 := if_pos rfl
            have hsum := h.consumed_le
            have hbytes : ((acts ++ [ReadResult.data bytes]).flatMap ReadResult.bytes).length =
                (acts.flatMap ReadResult.bytes).length + bytes.length := by
              simp [ReadResult.bytes]
            have htotal : c.tcn.2 = s.client.tcn.2 := by
              rw [hframe, hlog, hret, hconsumed, Nat.add_zero]
            rw [EasyTcpClient.length_unread, List.length_drop] at hold
            rw [List.length_drop, hbytes] at hnew
            change c.unread.length = _ - c.tcn.2 at hnew
            rw [EasyTcpClient.length_unread, hlen, htotal] at hnew
            dsimp only at hnew
            omega
    | again | eof | fail => exact absurd trivial hbad
  · cases hstep

theorem sound_throughout_iff {sock : ℕ} {tcn : L} (hf : CliCountsOrFails f)
    (h : Run (step (cliCounted f)) anyStep (connected sock tcn) acts s) :
    Throughout (step (cliCounted f)) (connected sock tcn) acts Sound ↔
      Run (step (cliCounted f)) (NoError f) (connected sock tcn) acts s :=
  h.throughout_iff Inv Sound (.init sock tcn) (fun _ _ hI => ⟨hI.fault, Or.inr hI.toIntact⟩)
    (fun _ _ _ _ hI hok hstep => hI.step hf hok hstep)
    (fun _ _ _ _ hI hbad hstep => hI.error hf hbad hstep)

end RecvDataRun
end Client

section Both
variable {L M : Type*} {f : OnRecvData L} {g : CliOnRecvData M}
  {acts : List RecvAction} {reads : List ReadResult} {s : RecvState (L × ℕ)} {t : RecvDataRun (M × ℕ)}

/-- The positions of both readers are right all the way exactly when no callback returns the error
value. -/
theorem positions_survive_iff (hf : CountsOrFails f) (hg : CliCountsOrFails g) (fd : ℕ)
    (recvBuf : Memory) (events : EpollEvents) (ip : String) (port : UInt16) (log : L) (sock : ℕ)
    (tcn : M)
    (h : Run (RecvState.step (counted f)) anyStep
      (.accepted (.new fd recvBuf events ip port) log) acts s)
    (h' : Run (RecvDataRun.step (cliCounted g)) anyStep (.connected sock tcn) reads t) :
    (Throughout (RecvState.step (counted f)) (.accepted (.new fd recvBuf events ip port) log) acts
        RecvState.IntactOrDeleted ↔
      Run (RecvState.step (counted f)) (RecvState.NoError f)
        (.accepted (.new fd recvBuf events ip port) log) acts s) ∧
    (Throughout (RecvDataRun.step (cliCounted g)) (.connected sock tcn) reads RecvDataRun.Sound ↔
      Run (RecvDataRun.step (cliCounted g)) (RecvDataRun.NoError g) (.connected sock tcn) reads t) := by
  constructor
  · exact RecvState.intact_throughout_iff hf rfl rfl h
  · exact RecvDataRun.sound_throughout_iff hg h'

end Both

/-- Callbacks that return the error value for whatever they are given. -/
def alwaysFails : OnRecvData Unit := fun _ _ _ log => (sizeMax, log)

def cliAlwaysFails : CliOnRecvData Unit := fun _ _ log => some (sizeMax, log)

theorem positions_survive_iff_one_byte :
    ∃ s t, Run (RecvState.step (counted alwaysFails)) anyStep
        (.accepted (.new 5 (fun _ => 0) {} "" 0) ()) [.doRecv, .read (.data [7])] s ∧
      Run (RecvDataRun.step (cliCounted cliAlwaysFails)) anyStep (.connected 5 ()) [.data [7]] t ∧
      (Throughout (RecvState.step (counted alwaysFails))
          (.accepted (.new 5 (fun _ => 0) {} "" 0) ()) [.doRecv, .read (.data [7])]
          RecvState.IntactOrDeleted ↔
        Run (RecvState.step (counted alwaysFails)) (RecvState.NoError alwaysFails)
          (.accepted (.new 5 (fun _ => 0) {} "" 0) ()) [.doRecv, .read (.data [7])] s) ∧
      (Throughout (RecvDataRun.step (cliCounted cliAlwaysFails)) (.connected 5 ()) [.data [7]]
          RecvDataRun.Sound ↔
        Run (RecvDataRun.step (cliCounted cliAlwaysFails)) (RecvDataRun.NoError cliAlwaysFails)
          (.connected 5 ()) [.data [7]] t) := by
  have hf : CountsOrFails alwaysFails := fun _ _ _ _ => Or.inr rfl
  have hg : CliCountsOrFails cliAlwaysFails := fun _ _ _ => ⟨_, rfl, Or.inr rfl⟩
  refine ⟨_, _, .of_exec (fun _ _ _ => trivial) rfl, .of_exec (fun _ _ _ => trivial) rfl, ?_⟩
  apply positions_survive_iff hf hg 5 (fun _ => 0) {} "" 0 () 5 ()
  · exact .of_exec (fun _ _ _ => trivial) rfl
  · exact .of_exec (fun _ _ _ => trivial) rfl

/-- One byte arrives and the callback fails: the server forgets the byte, and the client copies from
outside of its buffer. -/
theorem error_value_breaks_positions :
    (∃ s, Run (RecvState.step (counted alwaysFails)) anyStep
        (.accepted (.new 5 (fun _ => 0) {} "" 0) ()) [.doRecv, .read (.data [7])] s ∧
      ¬s.IntactOrDeleted [.doRecv, .read (.data [7])]) ∧
    ∃ t, Run (RecvDataRun.step (cliCounted cliAlwaysFails)) anyStep (.connected 5 ())
        [.data [7]] t ∧ ¬t.Sound [.data [7]] := by
  constructor
  · refine ⟨_, .of_exec (fun _ _ _ => trivial) rfl, ?_⟩
    rintro (hintact | hdel)
    · have hlen := congrArg List.length hintact.unread
      cases hlen
    · cases hdel
  · refine ⟨_, .of_exec (fun _ _ _ => trivial) rfl, ?_⟩
    rintro ⟨hfault, -⟩
    cases hfault

end TcpLib
