import TcpLib.ServerReassembly

/-!
# When the receive buffer fills up

`doRecv` compacts only past the middle of the buffer, so a frame can be stopped by bytes that
were consumed long ago. Which frames are in front of it decides that: the positions between
two resets are the sizes of frames that follow each other. The streams that never fill the
buffer are those in which no short run of frames is followed by a frame that does not fit
behind it.
-/

namespace TcpLib
open Framing LinearBuffer Transition

/-- Every step of every run on a prefix of the stream: `OnError(-2)` is raised, or a call of
`doRecv` returns without reading, only with a buffer full of unread bytes, all frames received
so far were handed over, and there is room to read on. -/
def FullOnlyWhenFull (frames : List Frame) : Prop :=
  ∀ (cell : ClientCell) (acts : List RecvAction) (s t : RecvState (List Offer)) (a : RecvAction),
    cell.Fresh →
    Run (RecvState.step (TcpServerNotify.onRecvData acceptAll)) NoClose (.init cell) acts s →
    NoClose s a → s.step (TcpServerNotify.onRecvData acceptAll) a = some t →
    received (acts ++ [a]) <+: frameCode.encodeAll frames →
    ((s.onErrors < t.onErrors ∨ (a = .doRecv ∧ t.reading = false)) →
      t.cell.recvReadPos = 0 ∧ t.cell.unread.length = SYSRECVBUF) ∧
    accepted t.log = frameCode.complete frames (received (acts ++ [a])).length ∧
    0 < t.cell.readRequest

/-- Every run of frames shorter than half the buffer leaves room for the frame after it. -/
def RoomBehindShortRuns (frames : List Frame) : Prop :=
  ∀ pre mid f post, frames = pre ++ mid ++ f :: post → mid ≠ [] →
    (frameCode.encodeAll mid).length < SYSRECVBUF / 2 →
    (frameCode.encodeAll mid).length + f.size ≤ SYSRECVBUF

/-- The read position is the size of the last frames handed over. -/
def ReadAtRun (s : RecvState (List Offer)) : Prop :=
  ∃ pre mid, accepted s.log = pre ++ mid ∧ s.cell.recvReadPos = (frameCode.encodeAll mid).length

section
variable {bytes : List UInt8} {s t : RecvState (List Offer)} {a : RecvAction}

theorem settle_fst_eq (r w : ℕ) : (settle r w).1 = 0 ∨ (settle r w).1 = r := by
  unfold settle
  split_ifs <;> simp

theorem ReadAtRun.step (inv : RecvInv bytes s) (h : ReadAtRun s)
    (hstep : s.step (TcpServerNotify.onRecvData acceptAll) a = some t) : ReadAtRun t := by
  obtain ⟨pre, mid, hacc, hread⟩ := h
  rcases RecvState.step_cases inv hstep with ⟨-, -, rfl⟩ | ⟨-, -, rfl⟩ | ⟨-, -, rfl⟩ |
    ⟨bs, ret, pos, -, -, hdata⟩
  · exact ⟨pre, mid, hacc, hread⟩
  · exact ⟨pre, mid, hacc, hread⟩
  · exact ⟨pre, mid, hacc, hread⟩
  · obtain ⟨done, hdone, hret, -⟩ := hdata.consumed
    rw [ReadAtRun, hdata.readPos, hdata.pos_eq, hdone, hacc]
    rcases settle_fst_eq (s.cell.recvReadPos + ret.1) (s.cell.recvWritePos + bs.length) with h0 | hr
    · -- after a reset or a compaction a new run of frames begins
      exact ⟨pre ++ mid ++ done, [], by simp, by simpa using h0⟩
    · exact ⟨pre, mid ++ done, by simp, by rw [hr, hread, hret]; simp⟩

theorem ReadAtRun.run {cell : ClientCell} {acts : List RecvAction} (hcell : cell.Fresh)
    (hrun : Run (RecvState.step (TcpServerNotify.onRecvData acceptAll)) NoClose (.init cell) acts s) :
    ReadAtRun s := by
  induction hrun with
  | nil => exact ⟨[], [], rfl, by simpa [RecvState.init] using hcell.recvReadPos⟩
  | snoc hrun _ hstep ih => exact ih.step (RecvInv.run hcell hrun) hstep

/-- With room behind short runs, a round always leaves room to read on. -/
theorem Parsed.write_lt_of_room (inv : Parsed bytes s) (hrun : ReadAtRun s) {frames : List Frame}
    (hsize : ∀ f ∈ frames, f.size ≤ SYSRECVBUF) (hroom : RoomBehindShortRuns frames)
    (hpre : bytes <+: frameCode.encodeAll frames) : s.cell.recvWritePos < SYSRECVBUF := by
  obtain ⟨pre, mid, hacc, hread⟩ := hrun
  have hlt := inv.read_lt
  have hle := inv.read_le
  have hlen := s.cell.length_unread
  rcases frameCode.split_prefix_rest hpre with hnil | ⟨f, post, hframes, -, hshort⟩
  · rw [inv.split] at hnil
    replace hnil : s.cell.unread = [] := hnil
    rw [hnil, List.length_nil] at hlen
    unfold SYSRECVBUF at *
    omega
  · rw [inv.split] at hframes hshort
    replace hshort : s.cell.unread.length < f.encode.length := hshort
    rw [f.length_encode, hlen] at hshort
    have hf := hsize f (by rw [hframes]; simp)
    by_cases hmid : mid = []
    · rw [hmid] at hread
      simp only [PrefixCode.encodeAll_nil, List.length_nil] at hread
      omega
    · have hfits := hroom pre mid f post (by rw [hframes, hacc]) hmid (by omega)
      omega

theorem fullOnlyWhenFull_of_room {frames : List Frame} (hsize : ∀ f ∈ frames, f.size ≤ SYSRECVBUF)
    (hroom : RoomBehindShortRuns frames) : FullOnlyWhenFull frames := by
  intro cell acts s t a hcell hrun hok hstep hpre
  rw [received_append, received_singleton] at hpre ⊢
  have hs := Parsed.run hcell hrun
  have hpre' : received acts <+: frameCode.encodeAll frames := (List.prefix_append _ _).trans hpre
  have hws := hs.write_lt_of_room (ReadAtRun.run hcell hrun) hsize hroom hpre'
  have ht := hs.step hstep
  have hwt := ht.write_lt_of_room ((ReadAtRun.run hcell hrun).step hs.toRecvInv hstep) hsize hroom
    hpre
  refine ⟨?_, ht.complete hpre, Nat.sub_pos_of_lt hwt⟩
  rintro (herr | ⟨rfl, hret⟩)
  · exfalso
    rcases RecvState.step_cases hs.toRecvInv hstep with ⟨-, -, rfl⟩ | ⟨-, -, rfl⟩ | ⟨-, -, rfl⟩ |
      ⟨bs, ret, pos, -, -, hdata⟩
    · exact Nat.lt_irrefl _ herr
    · exact Nat.lt_irrefl _ herr
    · exact Nat.lt_irrefl _ herr
    · rw [hdata.writePos] at hwt
      rw [hdata.onErrors, if_neg (Nat.not_le.mpr hwt)] at herr
      omega
  · exfalso
    rcases RecvState.step_cases hs.toRecvInv hstep with ⟨-, -, rfl⟩ | ⟨h, -⟩ | ⟨h | h, -⟩ |
      ⟨bs, ret, pos, h, -⟩
    · simp [ClientCell.canRead, hws] at hret
    all_goals cases h

end

/-! ## The streams that do fill the buffer -/

section
variable {bytes : List UInt8} {s : RecvState (List Offer)}

theorem feed_frame (inv : Parsed bytes s) (hempty : s.cell.recvWritePos = 0) {f : Frame}
    (hf : f.size ≤ SYSRECVBUF) :
    ∃ acts t, received acts = f.encode ∧
      Run (RecvState.step (TcpServerNotify.onRecvData acceptAll)) NoClose s acts t ∧
      t.cell.recvWritePos = 0 := by
  have hread := inv.read_le
  have hpos := f.header_lt_size
  obtain ⟨acts, t, ret, pos, hacts, hrun, hdata⟩ := inv.toRecvInv.feed acceptAll
    f.encode (by simp; omega) (by simpa [hempty] using hf)
  refine ⟨acts, t, hacts, hrun.weaken fun _ _ h => h.noClose, ?_⟩
  have hunread : s.cell.unread = [] := List.eq_nil_of_length_eq_zero (by simp [hempty])
  have hret := hdata.acceptAll.2.2
  have halone := frameCode.split_encode_append f []
  simp only [frameCode_encode, List.append_nil, PrefixCode.split_nil] at halone
  replace hret : ret.1 = f.size := by simpa [hunread, halone] using hret
  rw [hdata.writePos, hdata.pos_eq, hret, hempty, f.length_encode, settle, if_pos (by omega)]

theorem feed_frames {cell : ClientCell} (hcell : cell.Fresh) (frames : List Frame)
    (hsize : ∀ f ∈ frames, f.size ≤ SYSRECVBUF) :
    ∃ acts s, received acts = frameCode.encodeAll frames ∧
      Run (RecvState.step (TcpServerNotify.onRecvData acceptAll)) NoClose (.init cell) acts s ∧
      s.cell.recvWritePos = 0 := by
  induction frames using List.reverseRecOn with
  | nil => exact ⟨[], _, rfl, .nil, by simpa [RecvState.init] using hcell.recvWritePos⟩
  | append_singleton fs f ih =>
    obtain ⟨acts, s, hacts, hrun, hempty⟩ := ih fun g hg => hsize g (by simp [hg])
    obtain ⟨acts', t, hacts', hrun', hempty'⟩ := feed_frame (Parsed.run hcell hrun) hempty
      (hsize f (by simp))
    refine ⟨acts ++ acts', t, ?_, hrun.append hrun', hempty'⟩
    rw [received_append, hacts, hacts', PrefixCode.encodeAll_append]
    simp

theorem settle_of_lt {r w : ℕ} (hr : r < SYSRECVBUF / 2) (hw : r < w) : settle r w = (r, w) := by
  rw [settle, if_neg (by omega), if_neg (by omega)]

/-- A short run of frames that stays in front of a long frame fills the buffer too early. -/
theorem error_of_tight (pre mid post : List Frame) (f : Frame) {cell : ClientCell}
    (hcell : cell.Fresh) (hsize : ∀ g ∈ pre, g.size ≤ SYSRECVBUF) (hmid : mid ≠ [])
    (hshort : (frameCode.encodeAll mid).length < SYSRECVBUF / 2)
    (htight : SYSRECVBUF < (frameCode.encodeAll mid).length + f.size) :
    ∃ acts s t a, Run (RecvState.step (TcpServerNotify.onRecvData acceptAll)) NoClose (.init cell)
        acts s ∧
      NoClose s a ∧ s.step (TcpServerNotify.onRecvData acceptAll) a = some t ∧
      received (acts ++ [a]) <+: frameCode.encodeAll (pre ++ mid ++ f :: post) ∧
      s.onErrors < t.onErrors ∧ 0 < t.cell.recvReadPos := by
  have hmidpos : 0 < (frameCode.encodeAll mid).length := by
    obtain ⟨g, gs, rfl⟩ := List.exists_cons_of_ne_nil hmid
    have := g.header_lt_size
    simp
    omega
  generalize hm : (frameCode.encodeAll mid).length = m at *
  -- the frames in front are read one by one and leave the buffer empty
  obtain ⟨acts₀, s₀, hacts₀, hrun₀, hempty⟩ := feed_frames hcell pre hsize
  have inv₀ := Parsed.run hcell hrun₀
  have hread₀ : s₀.cell.recvReadPos = 0 := by
    have := inv₀.read_le
    omega
  have hunread₀ : s₀.cell.unread = [] := List.eq_nil_of_length_eq_zero (by simp [hempty])
  -- the short run arrives together with the first byte of the long frame
  have hlenf : f.encode.length = f.size := f.length_encode
  have hhalf : m < SYSRECVBUF := by unfold SYSRECVBUF at *; omega
  obtain ⟨acts₁, s₁, ret₁, pos₁, hacts₁, hrun₁, hdata₁⟩ := inv₀.toRecvInv.feed acceptAll
    (frameCode.encodeAll mid ++ f.encode.take 1) (by simp; omega) (by
      rw [List.length_append, hm, List.length_take, hlenf, hempty]
      omega)
  have hone : frameCode.split (f.encode.take 1) = ([], f.encode.take 1) :=
    frameCode.split_of_none (frameCode.next_proper_prefix (b := f) (List.take_prefix _ _)
      (by simp; omega))
  have hsplit₁ := frameCode.split_encodeAll_append mid (f.encode.take 1)
  rw [hone, List.append_nil] at hsplit₁
  obtain ⟨-, hunread₁, hret₁⟩ := hdata₁.acceptAll
  rw [hunread₀, List.nil_append, hsplit₁] at hunread₁ hret₁
  have hlen₁ : (frameCode.encodeAll mid ++ f.encode.take 1).length = m + 1 := by
    rw [List.length_append, hm, List.length_take, hlenf]
    omega
  have hpos₁ : pos₁ = (m, m + 1) := by
    rw [hdata₁.pos_eq, hret₁, hm, hlen₁, hread₀, hempty, Nat.zero_add, Nat.zero_add]
    exact settle_of_lt hshort (Nat.lt_succ_self m)
  have hr₁ : s₁.cell.recvReadPos = m := by rw [hdata₁.readPos, hpos₁]
  have hw₁ : s₁.cell.recvWritePos = m + 1 := by rw [hdata₁.writePos, hpos₁]
  -- then exactly the rest of the buffer, not enough for the long frame
  have hroom : m + 1 < SYSRECVBUF := by unfold SYSRECVBUF at *; omega
  obtain ⟨acts₂, hacts₂, hrun₂⟩ := RecvState.enter (TcpServerNotify.onRecvData acceptAll)
    (s := s₁) (by rw [hw₁]; exact hroom)
  have hrun := (hrun₀.append (hrun₁.weaken fun _ _ h => h.noClose)).append
    (hrun₂.weaken fun _ _ h => h.noClose)
  obtain ⟨t, ret, pos, hstep, hdata⟩ := (RecvInv.run hcell hrun).read acceptAll
    ((f.encode.drop 1).take (SYSRECVBUF - (m + 1))) rfl
    (by
      refine ⟨?_, ?_⟩
      · rw [List.length_take, List.length_drop, hlenf]
        omega
      · rw [List.length_take, List.length_drop, hlenf]
        exact (Nat.min_le_left _ _).trans (by rw [ClientCell.readRequest, hw₁]))
  have hall : f.encode.take 1 ++ (f.encode.drop 1).take (SYSRECVBUF - (m + 1)) =
      f.encode.take (SYSRECVBUF - m) := by
    rw [show SYSRECVBUF - m = 1 + (SYSRECVBUF - (m + 1)) by omega, List.take_add]
  have hpart : frameCode.split (f.encode.take (SYSRECVBUF - m)) =
      ([], f.encode.take (SYSRECVBUF - m)) :=
    frameCode.split_of_none (frameCode.next_proper_prefix (b := f) (List.take_prefix _ _)
      (by simp; omega))
  have hret := hdata.acceptAll.2.2
  rw [hunread₁, hall, hpart, PrefixCode.encodeAll_nil, List.length_nil] at hret
  have hpos : pos = (m, SYSRECVBUF) := by
    rw [hdata.pos_eq, hret, hr₁, hw₁, List.length_take, List.length_drop, hlenf,
      show m + 1 + min (SYSRECVBUF - (m + 1)) (f.size - 1) = SYSRECVBUF by omega]
    exact settle_of_lt hshort hhalf
  refine ⟨_, _, t, _, hrun, ⟨by simp, by simp⟩, hstep, ?_, ?_, ?_⟩
  · rw [received_append, received_append, received_append, hacts₀, hacts₁, hacts₂,
      received_singleton]
    simp only [RecvAction.bytes, ReadResult.bytes, List.append_nil, List.append_assoc, hall,
      PrefixCode.encodeAll_append, PrefixCode.encodeAll_cons, frameCode_encode,
      List.prefix_append_right_inj]
    exact (List.take_prefix _ _).trans (List.prefix_append _ _)
  · rw [hdata.onErrors, hpos]
    simp
  · rw [hdata.readPos, hpos]
    exact hmidpos

end

theorem room_of_fullOnlyWhenFull {frames : List Frame} (hsize : ∀ f ∈ frames, f.size ≤ SYSRECVBUF)
    (hfull : FullOnlyWhenFull frames) : RoomBehindShortRuns frames := by
  intro pre mid f post hframes hmid hshort
  by_contra htight
  have hcell : (ClientCell.new 1 (fun _ => 0) {} "" 0).Fresh :=
    ClientCell.fresh_new Nat.one_pos _ _ _ _
  obtain ⟨acts, s, t, a, hrun, hok, hstep, hpre, herr, hpos⟩ :=
    error_of_tight pre mid post f hcell
      (fun g hg => hsize g (by rw [hframes]; simp [hg])) hmid hshort (Nat.lt_of_not_le htight)
  have hzero := ((hfull _ acts s t a hcell hrun hok hstep (hframes ▸ hpre)).1 (Or.inl herr)).1
  omega

/-- The receive buffer fills up only with unread bytes exactly on the streams in which every
short run of frames leaves room for the next frame. -/
theorem full_only_when_full_iff (frames : List Frame) (hsize : ∀ f ∈ frames, f.size ≤ SYSRECVBUF) :
    FullOnlyWhenFull frames ↔ RoomBehindShortRuns frames :=
  ⟨room_of_fullOnlyWhenFull hsize, fullOnlyWhenFull_of_room hsize⟩

/-- A frame as large as the buffer. -/
def bufferSizedFrame : Frame :=
  .ofPayload 1 (List.replicate (SYSRECVBUF - msgHeaderSize) 7)
    (by rw [List.length_replicate]; decide) (by rw [List.length_replicate]; decide)

theorem size_bufferSizedFrame : bufferSizedFrame.size = SYSRECVBUF := by
  rw [bufferSizedFrame, Frame.size_ofPayload, List.length_replicate]
  rfl

theorem oneByte_bufferSized_le : ∀ f ∈ [oneByteFrame, bufferSizedFrame], f.size ≤ SYSRECVBUF := by
  simp only [List.mem_cons, List.not_mem_nil, or_false, forall_eq_or_imp, forall_eq]
  exact ⟨by decide, size_bufferSizedFrame.le⟩

theorem not_full_only_when_full :
    (∀ f ∈ [oneByteFrame, bufferSizedFrame], f.size ≤ SYSRECVBUF) ∧
      ¬ FullOnlyWhenFull [oneByteFrame, bufferSizedFrame] := by
  refine ⟨oneByte_bufferSized_le, fun hfull => ?_⟩
  have hroom := room_of_fullOnlyWhenFull oneByte_bufferSized_le hfull [] [oneByteFrame]
    bufferSizedFrame [] rfl (by simp) (by decide)
  rw [size_bufferSizedFrame] at hroom
  have hpos := oneByteFrame.header_lt_size
  simp at hroom
  omega

theorem full_only_when_full_iff_one_byte :
    FullOnlyWhenFull [oneByteFrame, bufferSizedFrame] ↔
      RoomBehindShortRuns [oneByteFrame, bufferSizedFrame] :=
  full_only_when_full_iff _ oneByte_bufferSized_le

end TcpLib
