import TcpLib.ServerRecv

/-!
# Reassembly on the server

`RecvInv` ties the stream received so far to the frames the hub accepted and the unread part
of the buffer, for any hub and any bytes. `Parsed` adds what holds when the hub never refuses:
no complete frame is left in the buffer. Both are kept by every step of a run, and from them
the result of a run on well-formed frames does not depend on how the stream was cut.
-/

namespace TcpLib
open Framing LinearBuffer Transition

/-- One successful read inside `doRecv`: the state after the round, field by field. -/
structure DataStep (hub : Hub) (s : RecvState (List Offer)) (bytes : List UInt8)
    (ret : ℕ × List Offer) (pos : ℕ × ℕ) (t : RecvState (List Offer)) : Prop where
  legal : (ReadResult.data bytes).Legal s.cell
  ret_eq : ret = TcpServerNotify.offer hub s.cell.clientFd
    (frameCode.split (s.cell.unread ++ bytes)).1 s.log
  pos_eq : pos = settle (s.cell.recvReadPos + ret.1) (s.cell.recvWritePos + bytes.length)
  log : t.log = ret.2
  unread : t.cell.unread = (s.cell.unread ++ bytes).drop ret.1
  readPos : t.cell.recvReadPos = pos.1
  writePos : t.cell.recvWritePos = pos.2
  fd : t.cell.clientFd = s.cell.clientFd
  reading : t.reading ↔ pos.2 < SYSRECVBUF ∧ ¬ bytes.length < s.cell.readRequest
  onErrors : t.onErrors = s.onErrors + if SYSRECVBUF ≤ pos.2 then 1 else 0
  delTasks : t.delTasks = s.delTasks
  fault : t.fault = s.fault

/-- What the receive state always satisfies after `bytes` were received. -/
structure RecvInv (bytes : List UInt8) (s : RecvState (List Offer)) : Prop where
  fd_pos : 0 < s.cell.clientFd
  read_lt : s.cell.recvReadPos < SYSRECVBUF / 2
  read_le : s.cell.recvReadPos ≤ s.cell.recvWritePos
  write_le : s.cell.recvWritePos ≤ SYSRECVBUF
  reading : s.reading → s.cell.recvWritePos < SYSRECVBUF
  fault : s.fault = false
  stream : bytes = frameCode.encodeAll (accepted s.log) ++ s.cell.unread

/-- The receive side of a connection that was just accepted. -/
def RecvState.init (cell : ClientCell) : RecvState (List Offer) := { cell := cell, log := [] }

/-- A cell as the constructor leaves it, on a valid descriptor. -/
structure ClientCell.Fresh (cell : ClientCell) : Prop where
  fd_pos : 0 < cell.clientFd
  recvReadPos : cell.recvReadPos = 0
  recvWritePos : cell.recvWritePos = 0
  sendReadPos : cell.sendReadPos = 0
  sendWritePos : cell.sendWritePos = 0
  sendBuf : cell.sendBuf = fun _ => none

theorem ClientCell.fresh_new {fd : ℕ} (hfd : 0 < fd) (buf : Memory) (ev : EpollEvents)
    (ip : String) (port : UInt16) : (ClientCell.new fd buf ev ip port).Fresh :=
  ⟨hfd, rfl, rfl, rfl, rfl, rfl⟩

theorem RecvInv.init {cell : ClientCell} (h : cell.Fresh) : RecvInv [] (.init cell) where
  fd_pos := h.fd_pos
  read_lt := by simp [RecvState.init, h.recvReadPos, SYSRECVBUF]
  read_le := by simp [RecvState.init, h.recvReadPos]
  write_le := by simp [RecvState.init, h.recvWritePos]
  reading := by simp [RecvState.init]
  fault := rfl
  stream := by
    simp [RecvState.init, accepted, ClientCell.unread, h.recvReadPos, h.recvWritePos]

/-- The peer neither closes nor resets: `read` returns data or has to be tried again. -/
def NoClose (_ : RecvState (List Offer)) (a : RecvAction) : Prop :=
  a ≠ .read .eof ∧ a ≠ .read .fail

/-- Only calls of `doRecv` and reads that return data. -/
def DataOnly (_ : RecvState (List Offer)) (a : RecvAction) : Prop :=
  a = .doRecv ∨ ∃ bytes, a = .read (.data bytes)

theorem DataOnly.noClose {s : RecvState (List Offer)} {a : RecvAction} (h : DataOnly s a) :
    NoClose s a := by
  rcases h with rfl | ⟨bytes, rfl⟩ <;> exact ⟨by simp, by simp⟩

section
variable {hub : Hub} {bytes : List UInt8} {s t : RecvState (List Offer)} {a : RecvAction}

/-- Everything a step of the receive side can do. -/
theorem RecvState.step_cases (inv : RecvInv bytes s)
    (h : s.step (TcpServerNotify.onRecvData hub) a = some t) :
    (a = .doRecv ∧ s.reading = false ∧ t = { s with reading := s.cell.canRead }) ∨
    (a = .read .again ∧ s.reading = true ∧ t = s) ∨
    ((a = .read .eof ∨ a = .read .fail) ∧ s.reading = true ∧
      t = { s with reading := false, delTasks := s.delTasks + 1 }) ∨
    ∃ bs ret pos, a = .read (.data bs) ∧ s.reading = true ∧ DataStep hub s bs ret pos t := by
  cases a with
  | doRecv =>
    simp only [RecvState.step] at h
    split at h
    · cases h
    · next hr => exact Or.inl ⟨rfl, by simpa using hr, by simpa using h.symm⟩
  | read r =>
    simp only [RecvState.step] at h
    split at h
    · next hlegal =>
      obtain ⟨hr, hlegal⟩ := hlegal
      right
      cases r with
      | again =>
        have hcan : s.cell.canRead = s.reading := by simp [ClientCell.canRead, inv.reading hr, hr]
        refine Or.inl ⟨rfl, hr, ?_⟩
        simpa [doRecvIter, RecvState.leave, hcan] using h.symm
      | eof => exact Or.inr (Or.inl ⟨Or.inl rfl, hr, by simpa [doRecvIter, RecvState.leave] using h.symm⟩)
      | fail => exact Or.inr (Or.inl ⟨Or.inr rfl, hr, by simpa [doRecvIter, RecvState.leave] using h.symm⟩)
      | data bs =>
        obtain ⟨buf, hbuf, hiter⟩ := doRecvIter_data hub s.cell s.log bs inv.fd_pos inv.read_le hlegal
        rw [hiter] at h
        obtain rfl := Option.some.inj h
        refine Or.inr (Or.inr ⟨bs, _, _, rfl, hr, hlegal, rfl, rfl, ?_, ?_, ?_, ?_, ?_, ?_, ?_, ?_, ?_⟩)
        all_goals
          unfold RecvState.leave
          split_ifs <;> simp_all [ClientCell.unread, ClientCell.canRead]
    · cases h

theorem DataStep.consumed {bs : List UInt8} {ret : ℕ × List Offer} {pos : ℕ × ℕ}
    (h : DataStep hub s bs ret pos t) :
    ∃ done, accepted t.log = accepted s.log ++ done ∧
      ret.1 = (frameCode.encodeAll done).length ∧
      s.cell.unread ++ bs = frameCode.encodeAll done ++ t.cell.unread := by
  obtain ⟨done, rest, hfs, hacc, hsize⟩ := TcpServerNotify.offer_spec hub s.cell.clientFd
    (frameCode.split (s.cell.unread ++ bs)).1 s.log
  rw [← h.ret_eq] at hacc hsize
  refine ⟨done, by rw [h.log, hacc], hsize, ?_⟩
  have hall := frameCode.encodeAll_split (s.cell.unread ++ bs)
  rw [hfs, PrefixCode.encodeAll_append, List.append_assoc] at hall
  rw [h.unread, hsize, ← hall, List.drop_left]

theorem DataStep.pos_spec {bs : List UInt8} {ret : ℕ × List Offer} {pos : ℕ × ℕ}
    (inv : RecvInv bytes s) (h : DataStep hub s bs ret pos t) :
    pos.1 < SYSRECVBUF / 2 ∧ pos.1 ≤ pos.2 ∧ pos.2 ≤ SYSRECVBUF := by
  have hreq := h.legal.2
  have hsnd := settle_snd_le (s.cell.recvReadPos + ret.1) (s.cell.recvWritePos + bs.length)
  have hle := inv.write_le
  unfold ClientCell.readRequest at hreq
  rw [h.pos_eq]
  exact ⟨settle_fst_lt _ _, settle_le _ _, by omega⟩

theorem RecvInv.step (inv : RecvInv bytes s)
    (h : s.step (TcpServerNotify.onRecvData hub) a = some t) : RecvInv (bytes ++ a.bytes) t := by
  rcases RecvState.step_cases inv h with ⟨rfl, -, rfl⟩ | ⟨rfl, -, rfl⟩ | ⟨heof, hr, rfl⟩ |
    ⟨bs, ret, pos, rfl, -, hdata⟩
  · exact { inv with
      reading := by simp [ClientCell.canRead]
      stream := by simpa [RecvAction.bytes] using inv.stream }
  · simpa [RecvAction.bytes, ReadResult.bytes] using inv
  · have hbytes : a.bytes = [] := by rcases heof with rfl | rfl <;> rfl
    exact { inv with
      reading := by simp
      stream := by simpa [hbytes] using inv.stream }
  · obtain ⟨hfst, hle, hcap⟩ := hdata.pos_spec inv
    obtain ⟨done, hacc, -, hstream⟩ := hdata.consumed
    exact
      { fd_pos := by rw [hdata.fd]; exact inv.fd_pos
        read_lt := by rw [hdata.readPos]; exact hfst
        read_le := by rw [hdata.readPos, hdata.writePos]; exact hle
        write_le := by rw [hdata.writePos]; exact hcap
        reading := fun hr => by rw [hdata.writePos]; exact (hdata.reading.mp hr).1
        fault := by rw [hdata.fault]; exact inv.fault
        stream := by
          rw [inv.stream, hacc, PrefixCode.encodeAll_append, List.append_assoc, List.append_assoc,
            ← hstream]
          rfl }

/-- In every run, for any hub and any bytes, the stream is the accepted frames followed by the
unread part of the buffer, and no round is undefined. -/
theorem RecvInv.run {ok : RecvState (List Offer) → RecvAction → Prop} {cell : ClientCell}
    {acts : List RecvAction} (hcell : cell.Fresh)
    (h : Run (RecvState.step (TcpServerNotify.onRecvData hub)) ok (.init cell) acts s) :
    RecvInv (received acts) s := by
  refine h.invariant_hist (P := fun acts s => RecvInv (received acts) s) (.init hcell) ?_
  intro acts s a t inv _ hstep
  simpa using inv.step hstep

theorem RecvState.enter (L : OnRecvData (List Offer)) (hroom : s.cell.recvWritePos < SYSRECVBUF) :
    ∃ acts, received acts = [] ∧ Run (RecvState.step L) DataOnly s acts { s with reading := true } := by
  cases hr : s.reading with
  | true => exact ⟨[], rfl, by simpa [← hr] using Run.nil⟩
  | false =>
    refine ⟨[.doRecv], rfl, .single (Or.inl rfl) ?_⟩
    simp [RecvState.step, hr, ClientCell.canRead, hroom]

theorem RecvInv.read (inv : RecvInv bytes s) (hub : Hub) (bs : List UInt8) (hr : s.reading = true)
    (hlegal : (ReadResult.data bs).Legal s.cell) :
    ∃ t ret pos, s.step (TcpServerNotify.onRecvData hub) (.read (.data bs)) = some t ∧
      DataStep hub s bs ret pos t := by
  have hstep : (s.step (TcpServerNotify.onRecvData hub) (.read (.data bs))).isSome := by
    simp only [RecvState.step, hr, hlegal, and_self, if_true]
    split <;> rfl
  obtain ⟨t, ht⟩ := Option.isSome_iff_exists.mp hstep
  rcases RecvState.step_cases inv ht with ⟨h, -⟩ | ⟨h, -⟩ | ⟨h | h, -⟩ | ⟨bs', ret, pos, h, -, hdata⟩
  · cases h
  · cases h
  · cases h
  · cases h
  · cases h
    exact ⟨t, ret, pos, ht, hdata⟩

/-- The environment can deliver any block that fits, whether `doRecv` is running or not. -/
theorem RecvInv.feed (inv : RecvInv bytes s) (hub : Hub) (bs : List UInt8) (hpos : 0 < bs.length)
    (hfit : s.cell.recvWritePos + bs.length ≤ SYSRECVBUF) :
    ∃ acts t ret pos, received acts = bs ∧
      Run (RecvState.step (TcpServerNotify.onRecvData hub)) DataOnly s acts t ∧
      DataStep hub s bs ret pos t := by
  obtain ⟨acts, hacts, hrun⟩ := RecvState.enter (TcpServerNotify.onRecvData hub)
    (show s.cell.recvWritePos < SYSRECVBUF by omega)
  have inv' : RecvInv bytes { s with reading := true } :=
    { inv with reading := fun _ => by simp; omega }
  obtain ⟨t, ret, pos, hstep, hdata⟩ := inv'.read hub bs rfl
    ⟨hpos, by unfold ClientCell.readRequest; simp; omega⟩
  refine ⟨acts ++ [.read (.data bs)], t, ret, pos, ?_, .snoc hrun (Or.inr ⟨bs, rfl⟩) hstep, ?_⟩
  · simp [hacts, RecvAction.bytes, ReadResult.bytes]
  · exact { hdata with }

/-! ## A hub that never refuses -/

/-- All complete frames were handed over. -/
structure Parsed (bytes : List UInt8) (s : RecvState (List Offer)) : Prop
    extends RecvInv bytes s where
  rest : nextFrame s.cell.unread = none
  offers : s.log = (accepted s.log).map fun f => ⟨s.cell.clientFd, f, true⟩

theorem Parsed.split (h : Parsed bytes s) :
    frameCode.split bytes = (accepted s.log, s.cell.unread) := by
  rw [h.stream, frameCode.split_encodeAll_append, frameCode.split_of_none h.rest]
  simp

theorem Parsed.init {cell : ClientCell} (h : cell.Fresh) : Parsed [] (.init cell) where
  toRecvInv := .init h
  rest := by
    simp only [RecvState.init, ClientCell.unread, h.recvReadPos, h.recvWritePos, window_self]
    decide
  offers := rfl

/-- After a round, exactly the frames found in the unread bytes and the new ones were added. -/
theorem DataStep.acceptAll {bs : List UInt8} {ret : ℕ × List Offer} {pos : ℕ × ℕ}
    (h : DataStep acceptAll s bs ret pos t) :
    t.log = s.log ++ ((frameCode.split (s.cell.unread ++ bs)).1.map
        fun f => ⟨s.cell.clientFd, f, true⟩) ∧
      t.cell.unread = (frameCode.split (s.cell.unread ++ bs)).2 ∧
      ret.1 = (frameCode.encodeAll (frameCode.split (s.cell.unread ++ bs)).1).length := by
  have hret := h.ret_eq
  rw [TcpServerNotify.offer_acceptAll] at hret
  refine ⟨by rw [h.log, hret], ?_, by rw [hret]⟩
  rw [h.unread, hret, frameCode.split_snd_eq_drop]

theorem Parsed.step (inv : Parsed bytes s)
    (h : s.step (TcpServerNotify.onRecvData acceptAll) a = some t) :
    Parsed (bytes ++ a.bytes) t := by
  have hinv := inv.toRecvInv.step h
  rcases RecvState.step_cases inv.toRecvInv h with ⟨rfl, -, rfl⟩ | ⟨rfl, -, rfl⟩ |
    ⟨heof, hr, rfl⟩ | ⟨bs, ret, pos, rfl, -, hdata⟩
  · exact ⟨hinv, inv.rest, inv.offers⟩
  · exact ⟨hinv, inv.rest, inv.offers⟩
  · exact ⟨hinv, inv.rest, inv.offers⟩
  · obtain ⟨hlog, hunread, -⟩ := hdata.acceptAll
    refine ⟨hinv, ?_, ?_⟩
    · rw [hunread]
      exact frameCode.next_rest _
    · have hoffers := inv.offers
      rw [hlog, hdata.fd, accepted_append, List.map_append, ← hoffers]
      simp [accepted, Function.comp_def, List.filter_map]

theorem Parsed.run {ok : RecvState (List Offer) → RecvAction → Prop} {cell : ClientCell}
    {acts : List RecvAction} (hcell : cell.Fresh)
    (h : Run (RecvState.step (TcpServerNotify.onRecvData TcpLib.acceptAll)) ok (.init cell) acts s) :
    Parsed (received acts) s := by
  refine h.invariant_hist (P := fun acts s => Parsed (received acts) s) (.init hcell) ?_
  intro acts s a t inv _ hstep
  simpa using inv.step hstep

theorem Parsed.complete (inv : Parsed bytes s) {frames : List Frame}
    (hpre : bytes <+: frameCode.encodeAll frames) :
    accepted s.log = frameCode.complete frames bytes.length := by
  rw [← frameCode.split_prefix hpre, inv.split]

theorem RecvInv.unread_eq (inv : RecvInv bytes s) :
    s.cell.unread = bytes.drop (frameCode.encodeAll (accepted s.log)).length := by
  conv_rhs => rw [inv.stream]
  rw [List.drop_left]

theorem Parsed.write_lt (inv : Parsed bytes s) {frames : List Frame}
    (hsize : ∀ f ∈ frames, f.size ≤ SYSRECVBUF / 2)
    (hpre : bytes <+: frameCode.encodeAll frames) : s.cell.recvWritePos < SYSRECVBUF := by
  have hread := inv.read_lt
  have hle := inv.read_le
  have hlen := s.cell.length_unread
  rcases frameCode.split_prefix_rest hpre with hnil | ⟨f, post, hframes, -, hlt⟩
  · rw [inv.split] at hnil
    replace hnil : s.cell.unread = [] := hnil
    rw [hnil, List.length_nil] at hlen
    unfold SYSRECVBUF at *
    omega
  · rw [inv.split] at hlt
    have hfs := hsize f (by rw [hframes]; simp)
    have hlf : (frameCode.encode f).length = f.size := f.length_encode
    rw [hlf, hlen] at hlt
    unfold SYSRECVBUF at *
    omega

end

theorem no_error_of_small_frames {frames : List Frame}
    (hsize : ∀ f ∈ frames, f.size ≤ SYSRECVBUF / 2) {cell : ClientCell} (hcell : cell.Fresh)
    {acts : List RecvAction} {s : RecvState (List Offer)}
    (hrun : Run (RecvState.step (TcpServerNotify.onRecvData acceptAll)) NoClose (.init cell) acts s)
    (hpre : received acts <+: frameCode.encodeAll frames) : s.onErrors = 0 := by
  induction hrun with
  | nil => rfl
  | @snoc acts a s t hrun hok hstep ih =>
    rw [received_append, received_singleton] at hpre
    have hs := Parsed.run hcell hrun
    have ht := hs.step hstep
    have hwrite := ht.write_lt hsize hpre
    have hzero := ih ((List.prefix_append _ _).trans hpre)
    rcases RecvState.step_cases hs.toRecvInv hstep with ⟨rfl, -, rfl⟩ | ⟨rfl, -, rfl⟩ |
      ⟨heof, -, -⟩ | ⟨bs, ret, pos, rfl, -, hdata⟩
    · exact hzero
    · exact hzero
    · exact absurd heof (not_or.mpr hok)
    · rw [hdata.writePos] at hwrite
      rw [hdata.onErrors, hzero, if_neg (Nat.not_le.mpr hwrite)]

/-- Server reassembly is independent of segmentation. -/
theorem server_reassembly (frames : List Frame) (hsize : ∀ f ∈ frames, f.size ≤ SYSRECVBUF / 2)
    {cell : ClientCell} (hcell : cell.Fresh) {acts : List RecvAction} {s : RecvState (List Offer)}
    (hrun : Run (RecvState.step (TcpServerNotify.onRecvData acceptAll)) NoClose (.init cell) acts s)
    (hpre : received acts <+: frameCode.encodeAll frames) :
    let done := frameCode.complete frames (received acts).length
    s.log = done.map (fun f => ⟨s.cell.clientFd, f, true⟩) ∧
    s.cell.unread = (received acts).drop (frameCode.encodeAll done).length ∧
    s.onErrors = 0 ∧ s.fault = false ∧ 0 < s.cell.readRequest ∧
    ∀ a t, NoClose s a → s.step (TcpServerNotify.onRecvData acceptAll) a = some t →
      received (acts ++ [a]) <+: frameCode.encodeAll frames →
      (a = .doRecv → t.reading = true) ∧
      (s.reading = true → t.reading = false →
        ∃ bs, a = .read (.data bs) ∧ bs.length < s.cell.readRequest) := by
  have inv := Parsed.run hcell hrun
  have hdone := inv.complete hpre
  have hroom := inv.write_lt hsize hpre
  refine ⟨?_, ?_, no_error_of_small_frames hsize hcell hrun hpre, inv.fault,
    Nat.sub_pos_of_lt hroom, ?_⟩
  · rw [← hdone]
    exact inv.offers
  · rw [← hdone]
    exact inv.unread_eq
  · intro a t hok hstep hpre'
    rw [received_append, received_singleton] at hpre'
    have hnext := (inv.step hstep).write_lt hsize hpre'
    rcases RecvState.step_cases inv.toRecvInv hstep with ⟨rfl, hr, rfl⟩ | ⟨rfl, hr, rfl⟩ |
      ⟨heof, -, -⟩ | ⟨bs, ret, pos, rfl, -, hdata⟩
    · simp [ClientCell.canRead, hroom, hr]
    · simp [hr]
    · exact absurd heof (not_or.mpr hok)
    · refine ⟨by simp, fun _ ht => ⟨bs, rfl, ?_⟩⟩
      by_contra hfull
      rw [hdata.writePos] at hnext
      simp [hdata.reading.mpr ⟨hnext, hfull⟩] at ht

/-- The smallest frame. -/
def oneByteFrame : Frame := .ofPayload 1 [7] (by decide) (by decide)

def twoFrames : List Frame := [oneByteFrame, .ofPayload 2 [8, 9] (by decide) (by decide)]

/-- Three calls of `doRecv` read two frames in pieces, of which one ends in the second header. -/
def readInPieces : List RecvAction :=
  let bytes := frameCode.encodeAll twoFrames
  [.doRecv, .read (.data (bytes.take 5)), .doRecv, .read .again, .read (.data ((bytes.drop 5).take 8)),
    .doRecv, .read (.data (bytes.drop 13))]

theorem server_reassembly_in_pieces :
    ∃ s, exec (RecvState.step (TcpServerNotify.onRecvData acceptAll))
        (.init (.new 5 (fun _ => 0) {} "" 0)) readInPieces = some s ∧
      s.log = twoFrames.map (fun f => ⟨5, f, true⟩) ∧ s.cell.unread = [] ∧ s.onErrors = 0 := by
  have hfd : (exec (RecvState.step (TcpServerNotify.onRecvData acceptAll))
      (.init (.new 5 (fun _ => 0) {} "" 0)) readInPieces).map (fun s => s.cell.clientFd) = some 5 := by
    decide +kernel
  obtain ⟨s, hs, hfd⟩ := Option.map_eq_some_iff.mp hfd
  have hreceived : received readInPieces = frameCode.encodeAll twoFrames := by decide +kernel
  have hdone : frameCode.complete twoFrames (received readInPieces).length = twoFrames := by
    decide +kernel
  obtain ⟨hlog, hunread, herr, -⟩ := server_reassembly twoFrames
    (by simp [twoFrames, oneByteFrame, msgHeaderSize, SYSRECVBUF])
    (ClientCell.fresh_new (by decide) _ _ _ _) (Run.of_exec (by simp [readInPieces, NoClose]) hs)
    (hreceived ▸ List.prefix_rfl)
  refine ⟨s, hs, ?_, ?_, herr⟩
  · rw [hlog, hdone, hfd]
  · rw [hunread, hdone, hreceived, List.drop_length]

end TcpLib
