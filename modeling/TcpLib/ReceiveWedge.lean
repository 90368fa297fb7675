import TcpLib.ServerReassembly

/-!
# Connections that are never parsed again

The parse loop stops without consuming anything at a header whose `data_size` is not positive,
and a frame that does not fit behind the read position never becomes complete. `doRecv` only
reports a full buffer, and none of this queues the deletion of the connection. A receive state
can be left by reading on exactly when its unread bytes can still become a header of a frame
that fits.
-/

namespace TcpLib
open Framing LinearBuffer Transition

/-- Some further reads hand over one more frame or queue the deletion of the connection. -/
def Escapes (s : RecvState (List Offer)) : Prop :=
  ∃ acts t, Run (RecvState.step (TcpServerNotify.onRecvData acceptAll)) DataOnly s acts t ∧
    ((accepted s.log).length < (accepted t.log).length ∨ s.delTasks < t.delTasks)

/-- The unread bytes begin with a header, or the first part of one, that announces a payload
which fits into the rest of the buffer. -/
def HeaderFits (cell : ClientCell) : Prop :=
  ∃ h : MsgHeader, 0 < h.dataSize.toInt ∧ cell.unread.take msgHeaderSize <+: h.bytes ∧
    cell.recvReadPos + msgHeaderSize + h.dataSize.toInt ≤ SYSRECVBUF

section
variable {bytes : List UInt8} {s t : RecvState (List Offer)} {acts : List RecvAction}

/-- The frame that a header and the bytes after it begin, with zeros for the missing ones. -/
def Frame.padded (h : MsgHeader) (hpos : 0 < h.dataSize.toInt) (tail : List UInt8) : Frame where
  header := h
  payload := (tail ++ List.replicate h.dataSize.toInt.toNat 0).take h.dataSize.toInt.toNat
  size_pos := hpos
  size_eq := by
    rw [List.length_take, List.length_append, List.length_replicate]
    omega

theorem Frame.padded_comparable {h : MsgHeader} (hpos : 0 < h.dataSize.toInt) {l : List UInt8}
    (hl : l.take msgHeaderSize <+: h.bytes) :
    l <+: (padded h hpos (l.drop msgHeaderSize)).encode ∨
      (padded h hpos (l.drop msgHeaderSize)).encode <+: l := by
  rcases Nat.lt_or_ge l.length msgHeaderSize with hlt | hge
  · rw [List.take_of_length_le hlt.le] at hl
    exact Or.inl (hl.trans (List.prefix_append _ _))
  · have hhead : l.take msgHeaderSize = h.bytes :=
      hl.eq_of_length (by rw [List.length_take, MsgHeader.length_bytes]; omega)
    have hcut : l = h.bytes ++ l.drop msgHeaderSize := by
      rw [← hhead, List.take_append_drop]
    have hpad : (padded h hpos (l.drop msgHeaderSize)).payload <+:
        l.drop msgHeaderSize ++ List.replicate h.dataSize.toInt.toNat 0 := List.take_prefix _ _
    rcases List.prefix_or_prefix_of_prefix (List.prefix_append (l.drop msgHeaderSize) _) hpad
      with hpre | hpre
    · left
      conv_lhs => rw [hcut]
      exact (List.prefix_append_right_inj _).mpr hpre
    · right
      conv_rhs => rw [hcut]
      exact (List.prefix_append_right_inj _).mpr hpre

theorem escapes_of_headerFits (inv : Parsed bytes s) (hfits : HeaderFits s.cell) : Escapes s := by
  obtain ⟨h, hpos, hpre, hroom⟩ := hfits
  have hsize : ((Frame.padded h hpos (s.cell.unread.drop msgHeaderSize)).size : ℤ) =
      msgHeaderSize + h.dataSize.toInt := by
    rw [Frame.size, Nat.cast_add, ← (Frame.padded h hpos _).size_eq]
    rfl
  have hcomp := Frame.padded_comparable hpos hpre
  generalize Frame.padded h hpos (s.cell.unread.drop msgHeaderSize) = f at hsize hcomp
  have hbegun : s.cell.unread <+: f.encode := by
    refine hcomp.resolve_right fun hf => ?_
    have hnext := nextFrame_eq_some.mpr hf
    rw [inv.rest] at hnext
    cases hnext
  obtain ⟨bs, hbs⟩ := hbegun
  have hle := inv.read_le
  have hlen := congrArg List.length hbs
  rw [List.length_append, ClientCell.length_unread, f.length_encode] at hlen
  have hne : bs ≠ [] := by
    rintro rfl
    rw [List.append_nil] at hbs
    have hnext : nextFrame s.cell.unread = some f :=
      nextFrame_eq_some.mpr (hbs ▸ List.prefix_rfl)
    rw [inv.rest] at hnext
    cases hnext
  obtain ⟨acts, t, ret, pos, -, hrun, hdata⟩ := inv.toRecvInv.feed acceptAll bs
    (List.length_pos_iff.mpr hne) (by omega)
  refine ⟨acts, t, hrun, Or.inl ?_⟩
  have hone := frameCode.split_encode_append f []
  simp only [frameCode_encode, List.append_nil, PrefixCode.split_nil] at hone
  rw [hdata.acceptAll.1, hbs, hone]
  simp [accepted]

/-- What a state looks like before the next frame is handed over. -/
structure Waiting (s t : RecvState (List Offer)) : Prop where
  log : accepted t.log = accepted s.log
  readPos : t.cell.recvReadPos = s.cell.recvReadPos
  unread : s.cell.unread <+: t.cell.unread
  delTasks : t.delTasks = s.delTasks

/-- A round that hands over a frame shows that its header fitted. -/
theorem headerFits_of_deliver (hw : Waiting s t) (inv : RecvInv bytes t)
    {u : RecvState (List Offer)} {bs : List UInt8} {ret : ℕ × List Offer} {pos : ℕ × ℕ}
    (hdata : DataStep acceptAll t bs ret pos u) {f : Frame} {fs : List Frame}
    (hsplit : (frameCode.split (t.cell.unread ++ bs)).1 = f :: fs) : HeaderFits s.cell := by
  have hread := inv.read_le
  have hwrite := inv.write_le
  have hreq := hdata.legal.2
  unfold ClientCell.readRequest at hreq
  have hpre : f.encode <+: t.cell.unread ++ bs := by
    refine ⟨frameCode.encodeAll fs ++ (frameCode.split (t.cell.unread ++ bs)).2, ?_⟩
    have hall := frameCode.encodeAll_split (t.cell.unread ++ bs)
    rw [hsplit] at hall
    simpa [List.append_assoc] using hall
  have hle := hpre.length_le
  rw [f.length_encode, List.length_append, ClientCell.length_unread] at hle
  refine ⟨f.header, f.size_pos, ?_, ?_⟩
  · have hhead : (t.cell.unread ++ bs).take msgHeaderSize = f.header.bytes :=
      (List.prefix_iff_eq_take.mp ((List.prefix_append f.header.bytes f.payload).trans hpre)).symm
    rw [← hhead]
    exact (hw.unread.trans (List.prefix_append _ _)).take _
  · have hlen : ((f.size : ℕ) : ℤ) = msgHeaderSize + f.header.dataSize.toInt := by
      rw [f.size_eq, Frame.size, Nat.cast_add]
    rw [← hw.readPos]
    omega

theorem waiting_or_headerFits (inv : Parsed bytes s)
    (hrun : Run (RecvState.step (TcpServerNotify.onRecvData acceptAll)) DataOnly s acts t) :
    Parsed (bytes ++ received acts) t ∧ (Waiting s t ∨ HeaderFits s.cell) := by
  induction hrun with
  | nil => exact ⟨by simpa using inv, Or.inl ⟨rfl, rfl, List.prefix_rfl, rfl⟩⟩
  | @snoc acts a t u hrun hok hstep ih =>
    obtain ⟨ht, hcase⟩ := ih
    refine ⟨by simpa [List.append_assoc] using ht.step hstep, ?_⟩
    rcases hcase with hw | hfits
    swap
    · exact Or.inr hfits
    rcases RecvState.step_cases ht.toRecvInv hstep with ⟨-, -, rfl⟩ | ⟨-, -, rfl⟩ |
      ⟨heof, -, -⟩ | ⟨bs, ret, pos, rfl, -, hdata⟩
    · exact Or.inl ⟨hw.log, hw.readPos, hw.unread, hw.delTasks⟩
    · exact Or.inl hw
    · exact absurd heof (not_or.mpr hok.noClose)
    cases hsplit : (frameCode.split (t.cell.unread ++ bs)).1 with
    | cons f fs => exact Or.inr (headerFits_of_deliver hw ht.toRecvInv hdata hsplit)
    | nil =>
      -- nothing was consumed, so the new bytes were only appended
      have hlt := ht.read_lt
      have hle := ht.read_le
      have hbs := hdata.legal.1
      obtain ⟨hlog, -, hret⟩ := hdata.acceptAll
      rw [hsplit] at hlog hret
      have hret0 : ret.1 = 0 := by simpa using hret
      refine Or.inl ⟨?_, ?_, ?_, ?_⟩
      · rw [hlog, accepted_append, hw.log]
        simp [accepted]
      · rw [hdata.readPos, hdata.pos_eq, hret0, settle, if_neg (by omega), if_neg (by omega),
          Nat.add_zero, hw.readPos]
      · rw [hdata.unread, hret0, List.drop_zero]
        exact hw.unread.trans (List.prefix_append _ _)
      · rw [hdata.delTasks, hw.delTasks]

theorem headerFits_of_escapes (inv : Parsed bytes s) (h : Escapes s) : HeaderFits s.cell := by
  obtain ⟨acts, t, hrun, hprogress⟩ := h
  refine (waiting_or_headerFits inv hrun).2.resolve_left fun hw => ?_
  rw [hw.log, hw.delTasks] at hprogress
  omega

end

/-- In every state of every run, a connection can still make progress exactly while its unread
bytes can become a frame that fits behind the read position. -/
theorem escapes_iff_headerFits {cell : ClientCell} (hcell : cell.Fresh) {acts : List RecvAction}
    {s : RecvState (List Offer)}
    (hrun : Run (RecvState.step (TcpServerNotify.onRecvData acceptAll)) anyStep (.init cell) acts s) :
    Escapes s ↔ HeaderFits s.cell :=
  ⟨headerFits_of_escapes (Parsed.run hcell hrun), escapes_of_headerFits (Parsed.run hcell hrun)⟩

/-- A connection on which nine zero bytes arrive: a header with `data_size` 0 and one more byte. -/
def zeroHeaderRun : Option (RecvState (List Offer)) :=
  exec (RecvState.step (TcpServerNotify.onRecvData acceptAll)) (.init (.new 5 (fun _ => 0) {} "" 0))
    [.doRecv, .read (.data (List.replicate 9 0))]

theorem zeroHeaderRun_isSome : zeroHeaderRun.isSome := by decide +kernel

theorem escapes_iff_headerFits_zero_header :
    ∃ s, zeroHeaderRun = some s ∧ (Escapes s ↔ HeaderFits s.cell) := by
  obtain ⟨s, hs⟩ := Option.isSome_iff_exists.mp zeroHeaderRun_isSome
  exact ⟨s, hs, escapes_iff_headerFits (ClientCell.fresh_new (by decide) _ _ _ _)
    (Run.of_exec (fun _ _ _ => trivial) hs)⟩

theorem not_headerFits_of_zero {cell : ClientCell}
    (hzero : cell.unread.take msgHeaderSize = List.replicate msgHeaderSize 0) : ¬ HeaderFits cell := by
  rintro ⟨h, hpos, hpre, -⟩
  rw [hzero] at hpre
  have hbytes : (⟨0, 0⟩ : MsgHeader).bytes = h.bytes := hpre.eq_of_length rfl
  obtain rfl := MsgHeader.bytes_injective hbytes
  exact absurd hpos (by decide)

theorem zero_header_never_escapes :
    ∃ s, zeroHeaderRun = some s ∧ s.delTasks = 0 ∧ ¬ Escapes s := by
  obtain ⟨s, hs⟩ := Option.isSome_iff_exists.mp zeroHeaderRun_isSome
  have hval : zeroHeaderRun.map (fun s => (s.delTasks, s.cell.unread)) =
      some (0, List.replicate 9 0) := by decide +kernel
  rw [hs] at hval
  simp only [Option.map_some, Option.some.injEq, Prod.mk.injEq] at hval
  have hrun : Run (RecvState.step (TcpServerNotify.onRecvData acceptAll)) anyStep _ _ s :=
    .of_exec (fun _ _ _ => trivial) hs
  have hparsed := Parsed.run (ClientCell.fresh_new (by decide) _ _ _ _) hrun
  refine ⟨s, hs, hval.1, fun hesc => ?_⟩
  refine not_headerFits_of_zero ?_ (headerFits_of_escapes hparsed hesc)
  rw [hval.2]
  rfl

end TcpLib
