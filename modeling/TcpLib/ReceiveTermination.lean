import TcpLib.ServerRecv

/-!
# Termination of doRecv

On `EAGAIN` the read loop goes on, so it ends on an idle socket only after a short read, or when
the buffer is full. It spins when the bytes of the socket are used up by reads that each fill the
buffer exactly, with a callback that always consumes up to the middle at least.
-/

namespace TcpLib
open LinearBuffer

/-- A `read` of a non-blocking socket that holds `bytes`: `EAGAIN` if there are none, else at least
one of them and not more than asked for. -/
def readFrom (bytes : List UInt8) (request want : ℕ) : ReadResult :=
  if bytes = [] then .again else .data (bytes.take (min request (want + 1)))

/-- The callback returns a count between 0 and the length it was given. -/
def Counts {L : Type*} (onRecvData : OnRecvData L) : Prop :=
  ∀ clientid buf len log, (onRecvData clientid buf len log).1 ≤ len

section
variable {L : Type*} (onRecvData : OnRecvData L)

/-- The state of `doRecv` after `n` reads of the socket; `want` are the sizes that the kernel
would return. -/
def recvFrom (want : ℕ → ℕ) : ℕ → RecvState L → List UInt8 → RecvState L
  | 0, s, _ => s
  | n + 1, s, bytes =>
    let r := readFrom bytes s.cell.readRequest (want 0)
    match s.step onRecvData (.read r) with
    | some t => recvFrom (fun i => want (i + 1)) n t (bytes.drop r.bytes.length)
    | none => s

/-- `doRecv` returns after finitely many reads. -/
def Returns (want : ℕ → ℕ) (s : RecvState L) (bytes : List UInt8) : Prop :=
  ∃ n, (recvFrom onRecvData want n s bytes).reading = false

/-- `doRecv` at its first test of the loop condition. -/
def RecvState.started (cell : ClientCell) (log : L) : RecvState L :=
  { cell := cell, log := log, reading := cell.canRead }

end

/-- The numbers of bytes in the socket that reads can use up which each fill the buffer exactly. -/
def RunsDry (r w n : ℕ) : Prop :=
  n = 0 ∨ n = SYSRECVBUF - w ∨ ∃ k, SYSRECVBUF - w + max r (SYSRECVBUF / 2) + k * (SYSRECVBUF / 2) ≤ n ∧
    n ≤ SYSRECVBUF - w + (k + 1) * SYSRECVBUF

/-- The same by the reads themselves: each is followed by a callback that leaves the read position
`p` at the middle or behind it. -/
inductive FillsExactly : ℕ → ℕ → ℕ → Prop
  | dry (r w : ℕ) : w < SYSRECVBUF → FillsExactly r w 0
  | fill (r w n p : ℕ) : w < SYSRECVBUF → r ≤ p → SYSRECVBUF / 2 ≤ p → p ≤ SYSRECVBUF →
      FillsExactly 0 (SYSRECVBUF - p) n → FillsExactly r w (SYSRECVBUF - w + n)

theorem FillsExactly.runsDry {r w n : ℕ} (h : FillsExactly r w n) : RunsDry r w n := by
  induction h with
  | dry r w hw => exact Or.inl rfl
  | fill r w n p hw hr hhalf hp _ ih =>
    unfold RunsDry SYSRECVBUF at *
    rcases ih with rfl | hn | ⟨k, hlo, hhi⟩
    · right; left
      omega
    · right; right
      exact ⟨0, by omega, by omega⟩
    · right; right
      exact ⟨k + 1, by omega, by omega⟩

/-- Blocks of between half and the whole of the buffer add up to everything between. -/
theorem FillsExactly.of_blocks (k : ℕ) {r w n : ℕ} (hw : w < SYSRECVBUF) (hr : r ≤ SYSRECVBUF)
    (hlo : max r (SYSRECVBUF / 2) + k * (SYSRECVBUF / 2) ≤ n) (hhi : n ≤ (k + 1) * SYSRECVBUF) :
    FillsExactly r w (SYSRECVBUF - w + n) := by
  induction k generalizing r w n with
  | zero =>
    have hrest : FillsExactly 0 (SYSRECVBUF - n) n := by
      have hdry : FillsExactly 0 (SYSRECVBUF - SYSRECVBUF) 0 := .dry _ _ (by decide)
      have hfill := FillsExactly.fill 0 (SYSRECVBUF - n) 0 SYSRECVBUF
        (by unfold SYSRECVBUF at *; omega) (Nat.zero_le _) (by decide) le_rfl hdry
      have heq : SYSRECVBUF - (SYSRECVBUF - n) + 0 = n := by omega
      rwa [heq] at hfill
    exact .fill r w n n hw (by omega) (by omega) (by omega) hrest
  | succ k ih =>
    obtain ⟨p, hp⟩ : ∃ p, p = max (max r (SYSRECVBUF / 2)) (n - (k + 1) * SYSRECVBUF) := ⟨_, rfl⟩
    have hrest : FillsExactly 0 (SYSRECVBUF - p) n := by
      have hfill := ih (r := 0) (w := SYSRECVBUF - p) (n := n - p)
        (by unfold SYSRECVBUF at *; omega) (Nat.zero_le _)
        (by unfold SYSRECVBUF at *; omega) (by unfold SYSRECVBUF at *; omega)
      have heq : SYSRECVBUF - (SYSRECVBUF - p) + (n - p) = n := by
        unfold SYSRECVBUF at *
        omega
      rwa [heq] at hfill
    exact .fill r w n p hw (by omega) (by omega) (by unfold SYSRECVBUF at *; omega) hrest

theorem fillsExactly_iff {r w n : ℕ} (hw : w < SYSRECVBUF) (hr : r ≤ SYSRECVBUF) :
    FillsExactly r w n ↔ RunsDry r w n := by
  constructor
  · exact FillsExactly.runsDry
  · rintro (rfl | rfl | ⟨k, hlo, hhi⟩)
    · exact .dry r w hw
    · have hdry : FillsExactly 0 (SYSRECVBUF - SYSRECVBUF) 0 := .dry _ _ (by decide)
      exact .fill r w 0 SYSRECVBUF hw hr (by decide) le_rfl hdry
    · have hblocks := FillsExactly.of_blocks k (n := n - (SYSRECVBUF - w)) hw hr (by omega) (by omega)
      have heq : SYSRECVBUF - w + (n - (SYSRECVBUF - w)) = n := by omega
      rwa [heq] at hblocks

/-- From a read position in the first half every number that is large enough will do. -/
theorem runsDry_of_half {r w n : ℕ} (hr : r ≤ SYSRECVBUF / 2) :
    RunsDry r w n ↔ n = 0 ∨ n = SYSRECVBUF - w ∨ SYSRECVBUF - w + SYSRECVBUF / 2 ≤ n := by
  unfold RunsDry
  refine or_congr_right (or_congr_right ⟨?_, ?_⟩)
  · rintro ⟨k, hlo, -⟩
    unfold SYSRECVBUF at *
    omega
  · intro hn
    refine ⟨(n - (SYSRECVBUF - w) - 1) / SYSRECVBUF, ?_, ?_⟩
    · unfold SYSRECVBUF at *
      omega
    · unfold SYSRECVBUF at *
      omega

theorem settle_full {p : ℕ} (hhalf : SYSRECVBUF / 2 ≤ p) :
    settle p SYSRECVBUF = (0, SYSRECVBUF - p) := by
  unfold settle
  split_ifs with hall
  · rw [Nat.sub_eq_zero_of_le hall]
  · rfl

section
variable {L : Type*} {onRecvData : OnRecvData L} {s t : RecvState L} {want : ℕ → ℕ}
  {bytes : List UInt8}

theorem RecvState.read_spec (hcounts : Counts onRecvData) (hreading : s.reading = true)
    (hle : s.cell.recvReadPos ≤ s.cell.recvWritePos) (bs : List UInt8)
    (hlegal : (ReadResult.data bs).Legal s.cell) :
    ∃ c t, s.step onRecvData (.read (.data bs)) = some t ∧
      (∃ buf, onRecvData s.cell.clientFd buf
        (s.cell.recvWritePos + bs.length - s.cell.recvReadPos) s.log = (c, t.log)) ∧
      c ≤ s.cell.recvWritePos + bs.length - s.cell.recvReadPos ∧
      (t.cell.recvReadPos, t.cell.recvWritePos) =
        settle (s.cell.recvReadPos + c) (s.cell.recvWritePos + bs.length) ∧
      (t.reading = true ↔ t.cell.recvWritePos < SYSRECVBUF ∧ bs.length = s.cell.readRequest) := by
  have hcall := recvCall_eq onRecvData s.log hle hlegal
  have hcount : (recvCall onRecvData s.cell s.log bs).1 ≤
      s.cell.recvWritePos + bs.length - s.cell.recvReadPos := by
    rw [hcall]
    exact hcounts _ _ _ _
  obtain ⟨buf, -, hiter⟩ := doRecvIter_counted onRecvData hle hlegal hcount
  generalize recvCall onRecvData s.cell s.log bs = ret at hcall hcount hiter
  unfold RecvState.step
  simp only [hreading, hlegal, and_self, if_true, hiter]
  have hreq := hlegal.2
  refine ⟨ret.1, _, rfl, ⟨_, hcall.symm.trans ?_⟩, hcount, ?_, ?_⟩
  all_goals
    unfold RecvState.leave
    split_ifs <;> simp_all [ClientCell.canRead]
  all_goals omega

theorem recvFrom_nil (hreading : s.reading = true) (hcan : s.cell.canRead = true) (n : ℕ) :
    recvFrom onRecvData want n s [] = s := by
  induction n generalizing want with
  | zero => rfl
  | succ n ih =>
    have hstep : s.step onRecvData (.read .again) = some s := by
      simp [RecvState.step, ReadResult.Legal, doRecvIter, RecvState.leave, hreading, hcan]
      cases s
      simp_all
    simp [recvFrom, readFrom, hstep, ih]

/-- A run that does not return used up the bytes in reads that fill the buffer. -/
theorem fillsExactly_of_reading (hcounts : Counts onRecvData)
    (hle : s.cell.recvReadPos ≤ s.cell.recvWritePos)
    (hcan : s.reading = true → s.cell.recvWritePos < SYSRECVBUF)
    (h : ¬ Returns onRecvData want s bytes) :
    FillsExactly s.cell.recvReadPos s.cell.recvWritePos bytes.length := by
  induction hn : bytes.length using Nat.strong_induction_on generalizing s bytes want with
  | _ n ih =>
    subst hn
    have hreading : s.reading = true := by
      by_contra hleft
      exact h ⟨0, by simpa [recvFrom] using hleft⟩
    have hw := hcan hreading
    by_cases hnil : bytes = []
    · subst hnil
      exact .dry _ _ hw
    · have hlen := List.length_pos_iff.mpr hnil
      have hread : readFrom bytes s.cell.readRequest (want 0) =
          .data (bytes.take (min s.cell.readRequest (want 0 + 1))) := if_neg hnil
      have hreq : s.cell.readRequest = SYSRECVBUF - s.cell.recvWritePos := rfl
      generalize hbs : bytes.take (min s.cell.readRequest (want 0 + 1)) = bs at hread
      have hbslen : bs.length = min (min s.cell.readRequest (want 0 + 1)) bytes.length := by
        rw [← hbs, List.length_take]
      obtain ⟨c, t, hstep, -, hc, hpos, hnext⟩ :=
        RecvState.read_spec hcounts hreading hle bs ⟨by omega, by omega⟩
      have hrest : ¬ Returns onRecvData (fun i => want (i + 1)) t (bytes.drop bs.length) := by
        rintro ⟨m, hm⟩
        refine h ⟨m + 1, ?_⟩
        simp only [recvFrom, hread, hstep, ReadResult.bytes]
        exact hm
      have hloop : t.reading = true := by
        by_contra hleft
        exact hrest ⟨0, by simpa [recvFrom] using hleft⟩
      obtain ⟨hfree, hexact⟩ := hnext.mp hloop
      rw [hexact, hreq, Nat.add_sub_cancel' hw.le] at hpos
      have hhalf : SYSRECVBUF / 2 ≤ s.cell.recvReadPos + c := by
        by_contra hlow
        have hsettle : settle (s.cell.recvReadPos + c) SYSRECVBUF =
            (s.cell.recvReadPos + c, SYSRECVBUF) := by
          unfold settle
          rw [if_neg (by omega), if_neg hlow]
        rw [hsettle] at hpos
        simp only [Prod.mk.injEq] at hpos
        omega
      have hfull : s.cell.recvReadPos + c ≤ SYSRECVBUF := by omega
      rw [settle_full hhalf] at hpos
      obtain ⟨hread0, hwrite0⟩ := Prod.mk.inj hpos
      have hfills := ih (bytes.drop bs.length).length (by rw [List.length_drop]; omega)
        (by rw [hread0]; exact Nat.zero_le _) (fun _ => hfree) hrest rfl
      rw [hread0, hwrite0, List.length_drop] at hfills
      have htotal : SYSRECVBUF - s.cell.recvWritePos + (bytes.length - bs.length) = bytes.length := by
        omega
      rw [← htotal]
      exact .fill _ _ _ _ hw (Nat.le_add_right _ _) hhalf hfull hfills

end

/-- A callback that returns the counts of a plan. -/
def planned : OnRecvData (List ℕ)
  | _, _, _, [] => (0, [])
  | _, _, len, c :: cs => (min c len, cs)

theorem counts_planned : Counts planned := by
  intro clientid buf len log
  cases log with
  | nil => exact Nat.zero_le _
  | cons c cs => exact Nat.min_le_right _ _

theorem FillsExactly.not_returns {r w n : ℕ} (h : FillsExactly r w n) :
    ∃ plan, ∀ (s : RecvState (List ℕ)) (bytes : List UInt8), s.cell.recvReadPos = r →
      s.cell.recvWritePos = w → r ≤ w → bytes.length = n → s.log = plan → s.reading = true →
      ¬ Returns planned (fun _ => SYSRECVBUF) s bytes := by
  induction h with
  | dry r w hw =>
    refine ⟨[], ?_⟩
    rintro s bytes hr rfl hle hlen - hreading ⟨n, hn⟩
    obtain rfl := List.eq_nil_of_length_eq_zero hlen
    rw [recvFrom_nil hreading (by simp [ClientCell.canRead, hw]), hreading] at hn
    cases hn
  | fill r w n p hw hr hhalf hp hrest ih =>
    obtain ⟨plan, ih⟩ := ih
    refine ⟨(p - r) :: plan, ?_⟩
    rintro s bytes rfl rfl hle hlen hlog hreading ⟨m, hm⟩
    have hreq : s.cell.readRequest = SYSRECVBUF - s.cell.recvWritePos := rfl
    have hread : readFrom bytes s.cell.readRequest SYSRECVBUF =
        .data (bytes.take (min s.cell.readRequest (SYSRECVBUF + 1))) := by
      apply if_neg
      rintro rfl
      simp at hlen
      omega
    generalize hbs : bytes.take (min s.cell.readRequest (SYSRECVBUF + 1)) = bs at hread
    have hbslen : bs.length = s.cell.readRequest := by
      rw [← hbs, List.length_take]
      omega
    obtain ⟨c, t, hstep, ⟨buf, hret⟩, -, hpos, hnext⟩ :=
      RecvState.read_spec counts_planned hreading hle bs ⟨by omega, by omega⟩
    rw [hlog] at hret
    obtain ⟨rfl, hlog'⟩ := Prod.mk.inj hret
    have hcount : s.cell.recvReadPos + min (p - s.cell.recvReadPos)
        (s.cell.recvWritePos + bs.length - s.cell.recvReadPos) = p := by omega
    rw [hcount, hbslen, hreq, Nat.add_sub_cancel' hw.le, settle_full hhalf] at hpos
    obtain ⟨hread0, hwrite0⟩ := Prod.mk.inj hpos
    have hfree : t.cell.recvWritePos < SYSRECVBUF := by
      rw [hwrite0]
      unfold SYSRECVBUF at *
      omega
    have hloop := hnext.mpr ⟨hfree, hbslen⟩
    refine ih t (bytes.drop bs.length) hread0 hwrite0 (Nat.zero_le _)
      (by rw [List.length_drop]; omega) hlog'.symm hloop ?_
    cases m with
    | zero =>
      rw [recvFrom, hreading] at hm
      cases hm
    | succ m =>
      refine ⟨m, ?_⟩
      simpa only [recvFrom, hread, hstep, ReadResult.bytes] using hm

/-- `doRecv` returns, for every callback and all sizes of the reads, exactly when the buffer is full
on entry or the bytes of the socket cannot be used up by reads that fill it. -/
theorem doRecv_returns_iff {cell : ClientCell} (hle : cell.recvReadPos ≤ cell.recvWritePos)
    (hcap : cell.recvWritePos ≤ SYSRECVBUF) (bytes : List UInt8) :
    (∀ (L : Type) (onRecvData : OnRecvData L) (log : L) (want : ℕ → ℕ), Counts onRecvData →
      Returns onRecvData want (.started cell log) bytes) ↔
    cell.recvWritePos = SYSRECVBUF ∨
      ¬ RunsDry cell.recvReadPos cell.recvWritePos bytes.length := by
  constructor
  · intro h
    by_contra hnot
    obtain ⟨hroom, hdry⟩ := not_or.mp hnot
    have hw : cell.recvWritePos < SYSRECVBUF := lt_of_le_of_ne hcap hroom
    obtain ⟨plan, hplan⟩ := ((fillsExactly_iff hw (hle.trans hcap)).mpr (not_not.mp hdry)).not_returns
    exact hplan (.started cell plan) bytes rfl rfl hle rfl rfl
      (by simp [RecvState.started, ClientCell.canRead, hw])
      (h _ planned plan _ counts_planned)
  · intro h L onRecvData log want hcounts
    by_contra hspins
    have hreading : (RecvState.started cell log).reading = true := by
      by_contra hleft
      exact hspins ⟨0, by simpa [recvFrom] using hleft⟩
    have hw : cell.recvWritePos < SYSRECVBUF := by
      simpa [RecvState.started, ClientCell.canRead] using hreading
    have hfills := fillsExactly_of_reading hcounts (s := .started cell log) hle (fun _ => hw) hspins
    rcases h with hfull | hdry
    · omega
    · exact hdry hfills.runsDry

theorem doRecv_returns_iff_one_byte :
    (∀ (L : Type) (onRecvData : OnRecvData L) (log : L) (want : ℕ → ℕ), Counts onRecvData →
      Returns onRecvData want (.started (.new 5 (fun _ => 0) {} "" 0) log) [7]) ↔
    0 = SYSRECVBUF ∨ ¬ RunsDry 0 0 1 :=
  @doRecv_returns_iff (.new 5 (fun _ => 0) {} "" 0) le_rfl (Nat.zero_le _) [7]

/-- A callback that consumes all it is given. -/
def consumeAll : OnRecvData Unit := fun _ _ len _ => (len, ())

theorem counts_consumeAll : Counts consumeAll := fun _ _ _ _ => le_rfl

theorem consumeAll_spins {cell : ClientCell} {bytes : List UInt8} (hr : cell.recvReadPos = 0)
    (hw : cell.recvWritePos = 0) (hlen : bytes.length = SYSRECVBUF) :
    ¬ Returns consumeAll (fun _ => SYSRECVBUF) (.started cell ()) bytes := by
  have hpos : 0 < SYSRECVBUF := by decide
  have hreq : cell.readRequest = SYSRECVBUF := by rw [ClientCell.readRequest, hw, Nat.sub_zero]
  have hread : readFrom bytes cell.readRequest SYSRECVBUF = .data bytes := by
    unfold readFrom
    rw [if_neg (List.length_pos_iff.mp (hlen ▸ hpos)), List.take_of_length_le (by omega)]
  have hreading : (RecvState.started cell ()).reading = true := by
    simp [RecvState.started, ClientCell.canRead, hw, hpos]
  obtain ⟨c, t, hstep, ⟨buf, hret⟩, -, hnew, hnext⟩ :=
    RecvState.read_spec counts_consumeAll hreading (by rw [RecvState.started, hr]; exact Nat.zero_le _)
      bytes ⟨by omega, (hlen.trans hreq.symm).le⟩
  have hc : c = SYSRECVBUF := by
    rw [← (Prod.mk.inj hret).1, RecvState.started, hr, hw, hlen, Nat.zero_add, Nat.sub_zero]
  rw [RecvState.started, hr, hw, hlen, hc, Nat.zero_add, settle_full (Nat.div_le_self _ _)] at hnew
  obtain ⟨-, hwrite⟩ := Prod.mk.inj hnew
  have hfree : t.cell.recvWritePos < SYSRECVBUF := by
    rw [hwrite, Nat.sub_self]
    exact hpos
  have hloop := hnext.mpr ⟨hfree, hlen.trans hreq.symm⟩
  -- nothing is left, and every further read is tried again
  rintro ⟨n, hn⟩
  cases n with
  | zero =>
    rw [recvFrom, hreading] at hn
    cases hn
  | succ n =>
    have hcell : (RecvState.started cell ()).cell.readRequest = cell.readRequest := rfl
    simp only [recvFrom, hcell, hread, hstep, ReadResult.bytes, List.drop_length] at hn
    rw [recvFrom_nil hloop (by simp [ClientCell.canRead, hfree]), hloop] at hn
    cases hn

/-- The socket of a new connection holds as many bytes as the buffer; one `read` returns them, they
are consumed, and `doRecv` reads on from the empty socket. -/
theorem exact_fill_spins : Counts consumeAll ∧
    ¬ Returns consumeAll (fun _ => SYSRECVBUF) (.started (.new 5 (fun _ => 0) {} "" 0) ())
      (List.replicate SYSRECVBUF 7) :=
  ⟨counts_consumeAll, consumeAll_spins rfl rfl List.length_replicate⟩

end TcpLib
