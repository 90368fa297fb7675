import TcpLib.ClientNotify

/-!
# One reference for both parse loops

The reference is the longest run of frames at the start of the buffer. The server offers it to the
hub up to the first refusal, and the client copies all of it. What a round of either loop reads
lies inside the buffer.
-/

namespace TcpLib
open Framing LinearBuffer

/-- The complete frames with a positive `data_size` from the start of the buffer on. -/
def referenceFrames (pstr : Memory) (len : ℕ) : List Frame :=
  (frameCode.split (window pstr 0 len)).1

/-- The buffer begins with these frames, and behind them is no header, one that announces nothing,
or one that announces more than is there. -/
structure MaximalRun (pstr : Memory) (len : ℕ) (frames : List Frame) : Prop where
  begins : frameCode.encodeAll frames <+: window pstr 0 len
  stops : len ≤ (frameCode.encodeAll frames).length + msgHeaderSize ∨
    (readHeader pstr (frameCode.encodeAll frames).length).dataSize.toInt ≤ 0 ∨
    (len : ℤ) < (frameCode.encodeAll frames).length + msgHeaderSize +
      (readHeader pstr (frameCode.encodeAll frames).length).dataSize.toInt

/-- A call of the server's parser that accepted `done`, and then was refused a frame or came to the
end of them. -/
structure OfferedInTurn (hub : Hub) (clientid : ℕ) (frames : List Frame) (log : List Offer)
    (r : ℕ × List Offer) (done : List Frame) (refused : Option Frame) : Prop where
  offered : done ++ refused.toList <+: frames
  all : refused = none → done = frames
  offers : r.2 = log ++ done.map (fun f => ⟨clientid, f, true⟩) ++
    refused.toList.map (fun f => ⟨clientid, f, false⟩)
  answers : ∀ pre o, log <+: pre → pre ++ [o] <+: r.2 → o.accepted = hub pre clientid o.frame
  count : r.1 = (frameCode.encodeAll done).length

/-- What a round of the loop reads at `readpos`, as offset and length: the header, and the payload
that it hands on. -/
def frameReads (pstr : Memory) (size readpos : ℕ) : List (ℕ × ℕ) :=
  if castInt (sizeT (size - readpos)) > castInt msgHeaderSize then
    (readpos, msgHeaderSize) ::
      (frameAt pstr size readpos).toList.map fun f =>
        (readpos + msgHeaderSize, f.header.dataSize.toInt.toNat)
  else []

section
variable {pstr : Memory} {len readpos : ℕ}

theorem frameAt_eq_none (hmax : len ≤ intMax) (hpos : readpos ≤ len)
    (h : frameAt pstr len readpos = none) :
    len ≤ readpos + msgHeaderSize ∨ (readHeader pstr readpos).dataSize.toInt ≤ 0 ∨
      (len : ℤ) < readpos + msgHeaderSize + (readHeader pstr readpos).dataSize.toInt := by
  unfold intMax at hmax
  have hrest : castInt (sizeT (len - readpos)) = len - readpos :=
    castInt_sizeT (by omega) (by omega)
  unfold frameAt at h
  rw [hrest, castInt_header] at h
  split at h
  · next hgt =>
    dsimp only at h
    split at h
    · next hd =>
      have hlt := (readHeader pstr readpos).dataSize.toInt_lt
      rw [castInt_sizeT (by unfold msgHeaderSize; omega) (by unfold msgHeaderSize; omega)] at h
      split at h
      · cases h
      · next hroom =>
        right; right
        omega
    · next hd =>
      right; left
      omega
  · next hgt =>
    left
    unfold msgHeaderSize
    omega

theorem frameReads_inside (hlen : len < 2 ^ 64) (hpos : readpos ≤ len) {read : ℕ × ℕ}
    (h : read ∈ frameReads pstr len readpos) : readpos ≤ read.1 ∧ read.1 + read.2 ≤ len := by
  have hrest : castInt (sizeT (len - readpos)) ≤ len - readpos :=
    castInt_sizeT_le (by omega) (by omega)
  unfold frameReads at h
  rw [castInt_header] at h
  split at h
  · next hgt =>
    rcases List.mem_cons.mp h with rfl | h
    · exact ⟨le_rfl, by unfold msgHeaderSize; omega⟩
    · obtain ⟨f, hf, rfl⟩ := List.mem_map.mp h
      have hle := (frameAt_fits hlen hpos (Option.mem_toList.mp hf)).1
      have heq := f.size_eq
      unfold Frame.size at hle
      constructor
      · exact Nat.le_add_right _ _
      · dsimp only
        omega
  · cases h

theorem referenceFrames_maximal (hmax : len ≤ intMax) :
    MaximalRun pstr len (referenceFrames pstr len) := by
  have hall := frameCode.encodeAll_split (window pstr 0 len)
  have hrest := frameCode.next_rest (window pstr 0 len)
  have hdrop := frameCode.split_snd_eq_drop (window pstr 0 len)
  rw [drop_window, Nat.zero_add] at hdrop
  rw [hdrop, frameCode_next] at hrest
  have hbegins : frameCode.encodeAll (referenceFrames pstr len) <+: window pstr 0 len :=
    ⟨_, hall⟩
  have hle := hbegins.length_le
  rw [length_window] at hle
  refine ⟨hbegins, ?_⟩
  apply frameAt_eq_none hmax hle
  rw [frameAt_eq hmax hle]
  exact hrest

/-- No other frames are a longest run. -/
theorem MaximalRun.unique (hmax : len ≤ intMax) {frames : List Frame}
    (h : MaximalRun pstr len frames) : frames = referenceFrames pstr len := by
  obtain ⟨rest, hrest⟩ := h.begins
  have hsplit := frameCode.split_encodeAll_append frames rest
  have hdrop : rest = window pstr (frameCode.encodeAll frames).length len := by
    have hwin := drop_window pstr 0 len (frameCode.encodeAll frames).length
    rw [← hrest, List.drop_left, Nat.zero_add] at hwin
    exact hwin
  have hle := h.begins.length_le
  rw [length_window] at hle
  have hnone : nextFrame rest = none := by
    cases hnext : frameAt pstr len (frameCode.encodeAll frames).length with
    | none => rw [hdrop, ← frameAt_eq hmax hle, hnext]
    | some f =>
      -- a frame that starts there contradicts each way to stop
      exfalso
      have hfit := (frameAt_fits (lt_of_le_of_lt hmax (by decide)) hle hnext).1
      have hpos := f.header_lt_size
      rw [frameAt_eq hmax hle] at hnext
      have hwin : window pstr (frameCode.encodeAll frames).length
          ((frameCode.encodeAll frames).length + f.size) = f.encode := by
        rw [← take_window pstr hfit, ← f.length_encode]
        exact (List.prefix_iff_eq_take.mp (nextFrame_eq_some.mp hnext)).symm
      obtain ⟨hd, rfl⟩ := Frame.ofMemory_eq hwin
      have hsize := Frame.size_ofMemory pstr _ hd
      rcases h.stops with hstop | hstop | hstop
      · omega
      · omega
      · omega
  have hsplit' : (frameCode.split rest).1 = [] := by
    rw [frameCode.split_of_none hnone]
  unfold referenceFrames
  rw [← hrest, hsplit, hsplit', List.append_nil]

end

namespace TcpServerNotify
variable (hub : Hub) (clientid : ℕ)

/-- Offering stops at the first refusal, and every answer is the hub's. -/
theorem offer_inTurn (frames : List Frame) (log : List Offer) :
    ∃ done refused, OfferedInTurn hub clientid frames log (offer hub clientid frames log) done
      refused := by
  induction frames generalizing log with
  | nil =>
    refine ⟨[], none, List.nil_prefix, fun _ => rfl, by simp [offer], ?_, rfl⟩
    intro pre o hpre ho
    have hlen := (hpre.length_le).trans_lt (Nat.lt_of_lt_of_le (by simp) ho.length_le)
    exact absurd hlen (lt_irrefl _)
  | cons f fs ih =>
    have hfirst {b : Bool} {pre post : List Offer} {o : Offer} (hb : hub log clientid f = b)
        (hlen : pre.length = log.length)
        (hpre : log <+: pre) (ho : pre ++ [o] <+: log ++ [⟨clientid, f, b⟩] ++ post) :
        o.accepted = hub pre clientid o.frame := by
      obtain rfl : log = pre := hpre.eq_of_length hlen.symm
      rw [List.append_assoc, List.prefix_append_right_inj] at ho
      obtain rfl : o = ⟨clientid, f, b⟩ := by simpa using ho
      exact hb.symm
    rw [offer]
    cases hans : hub log clientid f with
    | true =>
      obtain ⟨done, refused, h⟩ := ih (log ++ [⟨clientid, f, true⟩])
      refine ⟨f :: done, refused, ?_, ?_, ?_, ?_, ?_⟩
      · simpa using h.offered
      · intro hnone
        rw [h.all hnone]
      · simpa using h.offers
      · intro pre o hpre ho
        rcases Nat.eq_or_lt_of_le hpre.length_le with hlen | hlen
        · have hlog := h.offers
          rw [List.append_assoc] at hlog
          rw [if_pos rfl, hlog] at ho
          exact hfirst hans hlen.symm hpre ho
        · have hnext : log ++ [⟨clientid, f, true⟩] <+: pre := by
            have hall : log ++ [⟨clientid, f, true⟩] <+:
                (offer hub clientid fs (log ++ [⟨clientid, f, true⟩])).2 := by
              rw [h.offers, List.append_assoc]
              exact List.prefix_append _ _
            exact List.prefix_of_prefix_length_le hall ((List.prefix_append _ _).trans ho)
              (by simpa using hlen)
          exact h.answers pre o hnext ho
      · simp [h.count]
    | false =>
      refine ⟨[], some f, ?_, by simp, by simp, ?_, rfl⟩
      · simp
      · intro pre o hpre ho
        have hlen : pre.length = log.length := by
          have hup := ho.length_le
          have hlow := hpre.length_le
          simp at hup
          omega
        have ho' : pre ++ [o] <+: log ++ [⟨clientid, f, false⟩] ++ [] := by simpa using ho
        exact hfirst hans hlen hpre ho'

end TcpServerNotify

/-- What the two parsers do with a buffer. -/
structure ParsersAgree (pstr : Memory) (len : ℕ) (frames : List Frame) : Prop where
  maximal : MaximalRun pstr len frames
  unique : ∀ fs, MaximalRun pstr len fs → fs = frames
  server : ∀ hub clientid log, 0 < clientid → ∃ done refused,
    OfferedInTurn hub clientid frames log
      (TcpServerNotify.onRecvData hub clientid (some pstr) len log) done refused
  accepting : ∀ clientid log, 0 < clientid →
    TcpServerNotify.onRecvData acceptAll clientid (some pstr) len log =
      ((frameCode.encodeAll frames).length, log ++ frames.map fun f => ⟨clientid, f, true⟩)
  client : ∀ heap st, ∃ cache, TcpClientNotify.onRecvData heap (some pstr) len st =
    some ((frameCode.encodeAll frames).length,
      ⟨cache, st.handled ++ frames.map fun f => ⟨f.header.type, f.payload ++ [0]⟩⟩)
  reads : ∀ readpos ≤ len, (∀ read ∈ frameReads pstr len readpos, read.1 + read.2 ≤ len) ∧
    ∀ f ∈ frameAt pstr len readpos, nextReadpos readpos f ≤ len
  outside : ∀ pstr', window pstr' 0 len = window pstr 0 len →
    ∀ hub clientid log, 0 < clientid →
      TcpServerNotify.onRecvData hub clientid (some pstr') len log =
        TcpServerNotify.onRecvData hub clientid (some pstr) len log
  undoes : ∀ fs, window pstr 0 len = frameCode.encodeAll fs → frames = fs

/-- Both parsers read the longest run of frames, on every buffer that an `int` can measure. -/
theorem parsers_agree (pstr : Memory) (len : ℕ) (hlen : 0 < len) (hmax : len ≤ intMax) :
    ∃ frames, ParsersAgree pstr len frames := by
  refine ⟨referenceFrames pstr len, ?_⟩
  exact
    { maximal := referenceFrames_maximal hmax
      unique := fun fs hfs => hfs.unique hmax
      server := by
        intro hub clientid log hid
        rw [TcpServerNotify.onRecvData_eq hub clientid pstr len hid hlen hmax]
        exact TcpServerNotify.offer_inTurn hub clientid _ log
      accepting := by
        intro clientid log hid
        rw [TcpServerNotify.onRecvData_eq acceptAll clientid pstr len hid hlen hmax]
        exact TcpServerNotify.offer_acceptAll clientid _ log
      client := fun heap st => TcpClientNotify.onRecvData_eq heap pstr len hlen hmax st
      reads := by
        have hsize : len < 2 ^ 64 := lt_of_le_of_lt hmax (by decide)
        intro readpos hpos
        constructor
        · intro read hread
          exact (frameReads_inside hsize hpos hread).2
        · intro f hf
          have hle := (frameAt_fits hsize hpos hf).1
          rw [nextReadpos_eq (hle.trans_lt hsize)]
          exact hle
      outside := by
        intro pstr' hwin hub clientid log hid
        rw [TcpServerNotify.onRecvData_eq hub clientid pstr len hid hlen hmax,
          TcpServerNotify.onRecvData_eq hub clientid pstr' len hid hlen hmax, hwin]
      undoes := by
        intro fs hfs
        unfold referenceFrames
        rw [hfs, frameCode.split_encodeAll] }

theorem parsers_agree_one_byte :
    0 < 9 ∧ 9 ≤ intMax ∧
      ∃ frames, ParsersAgree (listMemory [1, 0, 0, 0, 1, 0, 0, 0, 7]) 9 frames :=
  ⟨by decide, by decide, parsers_agree _ 9 (by decide) (by decide)⟩

end TcpLib
