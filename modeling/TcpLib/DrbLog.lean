import TcpLib.DrbRuns
import TcpLib.Lib.AppendLog

/-!
# Calls of the durable queue one at a time

A push that no one interrupts is a run of one producer's steps, and such pushes ask for the pages in
their order. So the table is extended by one page index at a time, which is below its double, and
the queue is an append-only log.
-/

namespace TcpLib
variable {T : Type*} [Inhabited T]

namespace DrbSys
variable {s : DrbSys T}

theorem push_quiet (hi : s.Inv) (hq : s.Quiet)
    (hhit : ¬s.queue.HitsDouble (s.queue.pageIndex s.queue.postIndex)) (t : ℕ) (msg : T) :
    ∃ s' : DrbSys T, s'.Inv ∧ s'.Quiet ∧ s.queue.push msg = some (s'.queue, true) ∧
      s'.reserved = s.reserved ++ [msg] := by
  let s₁ : DrbSys T := { s.setPush t (.reserved s.queue.postIndex msg) with
    queue := s.queue.fetchAndInc, reserved := s.reserved ++ [msg] }
  have hi₁ : s₁.Inv := hi.reserve (hq t) msg
  have hpc₁ : s₁.pushing t = .reserved s.queue.postIndex msg := Function.update_self ..
  obtain ⟨q₂, p, hpage, -, hi₂⟩ := hi₁.lookup hpc₁ hhit
  let s₂ : DrbSys T := { s₁.setPush t (.found s.queue.postIndex p msg) with queue := q₂ }
  have hpc₂ : s₂.pushing t = .found s.queue.postIndex p msg := Function.update_self ..
  obtain ⟨q₃, hset, -, hi₃⟩ := Inv.store (s := s₂) hi₂ hpc₂
  let s₃ : DrbSys T := { s₂.setPush t (.stored s.queue.postIndex p) with queue := q₃ }
  have hpc₃ : s₃.pushing t = .stored s.queue.postIndex p := Function.update_self ..
  obtain ⟨q₄, hflag, -, hi₄⟩ := Inv.publish (s := s₃) hi₃ hpc₃
  let s₄ : DrbSys T := { s₃.setPush t .published with queue := q₄ }
  have hpc₄ : s₄.pushing t = .published := Function.update_self ..
  have hi₅ := Inv.finish (s := s₄) hi₄ hpc₄
  refine ⟨_, hi₅, ?_, ?_, rfl⟩
  · intro t'
    by_cases htt : t' = t
    · subst htt
      exact Function.update_self ..
    · simp [s₄, s₃, s₂, s₁, setPush, htt, hq t']
  · have hpage' : s.queue.fetchAndInc.getMsgPage (s.queue.pageIndex s.queue.postIndex) =
        some (q₂, p) := hpage
    have hset' : q₂.setMsg p s.queue.postIndex msg = some q₃ := hset
    have hflag' : q₃.setFlag p s.queue.postIndex = some q₄ := hflag
    simp [DrbQueue.push, hpage', hset', hflag', s₄]

end DrbSys

namespace DrbQueue
variable {q : DrbQueue T} {msgs : List T}

def call (q : DrbQueue T) : LogCall T → Option (DrbQueue T × LogResult T)
  | .push msg => (q.push msg).map fun r => (r.1, .pushed r.2)
  | .get pos => (q.get pos).map fun r => (r.1, .got r.2)
  | .size => some (q, .size q.size)

/-- The queue holds these messages, and the next one is in its table or on the page behind it. -/
def Holds (q : DrbQueue T) (msgs : List T) : Prop :=
  ∃ s : DrbSys T, s.Inv ∧ s.Quiet ∧ s.queue = q ∧ s.reserved = msgs ∧
    q.postIndex ≤ q.pageIndexCount * q.pageMsgCount

theorem Holds.new {pageMsgCount initPageMsgCount : ℤ}
    (h : DrbQueue.new pageMsgCount initPageMsgCount = some q) : q.Holds [] := by
  refine ⟨{ queue := q }, (DrbSys.GrowInv.init h).toInv, fun _ => rfl, rfl, rfl, ?_⟩
  rw [(ok_new h).2.1]
  exact Nat.zero_le _

theorem Holds.push (h : q.Holds msgs) (msg : T) :
    ∃ q', q.push msg = some (q', true) ∧ q'.Holds (msgs ++ [msg]) := by
  obtain ⟨s, hi, hq, rfl, rfl, htable⟩ := h
  have hhit : ¬s.queue.HitsDouble (s.queue.pageIndex s.queue.postIndex) := by
    rintro ⟨n, hn⟩
    have hle : s.queue.pageIndex s.queue.postIndex ≤ s.queue.pageIndexCount := by
      rw [pageIndex_eq]
      exact Nat.div_le_of_le_mul (by rwa [Nat.mul_comm])
    have hlt := (Nat.lt_mul_iff_one_lt_right hi.ok.count_pos).mpr
      (Nat.one_lt_two_pow (Nat.succ_ne_zero n))
    exact absurd (hn ▸ hle) (Nat.not_le_of_lt hlt)
  obtain ⟨s', hi', hq', hpush, hreserved⟩ := DrbSys.push_quiet hi hq hhit 0 msg
  refine ⟨s'.queue, hpush, s', hi', hq', rfl, hreserved, ?_⟩
  -- the page of the last index is in the table, so the next index is at most behind it
  have hlen : s'.queue.postIndex = s.reserved.length + 1 := by
    rw [← hi'.len, hreserved, List.length_append, List.length_singleton]
  have hm : s'.reserved[s.reserved.length]? = some msg := by simp [hreserved]
  obtain ⟨p, hp⟩ := entry_of_slot (hi'.published _ msg hm fun t => by rw [hq' t]; nofun)
  have hlt := hi'.ok.inside _ p hp
  rw [pageIndex_eq, Nat.div_lt_iff_lt_mul pageMsgCount_pos] at hlt
  rw [hlen]
  exact hlt

theorem Holds.size (h : q.Holds msgs) : q.size = msgs.length := by
  obtain ⟨s, hi, hq, rfl, rfl, -⟩ := h
  obtain ⟨busy, hset, hcard⟩ := hi.written
  have hnone : busy = ∅ := Finset.eq_empty_of_forall_notMem fun t hin => (hset t).mp hin (hq t)
  rw [hnone, Finset.card_empty, Nat.add_zero] at hcard
  rw [DrbQueue.size, hcard, hi.len]

theorem Holds.get (h : q.Holds msgs) (pos : ℕ) : q.get pos = some (q, msgs[pos]?) := by
  have hsize := h.size
  obtain ⟨s, hi, hq, rfl, rfl, -⟩ := h
  rcases Nat.lt_or_ge pos s.reserved.length with hlt | hge
  · obtain ⟨msg, hm, hget⟩ := hi.get_quiet hq (hi.len ▸ hlt)
    rw [hget, hm]
  · rw [List.getElem?_eq_none hge]
    exact if_pos (hsize.trans_le hge)

theorem Holds.call (h : q.Holds msgs) (c : LogCall T) :
    ∃ q', q.call c = some (q', (logCall msgs c).2) ∧ q'.Holds (logCall msgs c).1 := by
  cases c with
  | push msg =>
    obtain ⟨q', hpush, hnew⟩ := h.push msg
    exact ⟨q', by rw [DrbQueue.call, hpush]; rfl, hnew⟩
  | get pos => exact ⟨q, by rw [DrbQueue.call, h.get pos]; rfl, h⟩
  | size => exact ⟨q, by rw [DrbQueue.call, h.size]; rfl, h⟩

/-- Used from one thread the queue is an append-only log, whatever its initial geometry. -/
theorem refines_log {pageMsgCount initPageMsgCount : ℤ} (hcount : pageMsgCount ≤ 2 ^ 30)
    (hinit : 1 ≤ initPageMsgCount) :
    ∃ q : DrbQueue T, new pageMsgCount initPageMsgCount = some q ∧
      ∀ calls, ∃ q', runCalls call q calls = some (q', (specCalls logCall [] calls).2) ∧
        q'.size = (pushedBy calls).length ∧
        ∀ pos : ℕ, q'.get pos = some (q', (pushedBy calls)[pos]?) := by
  obtain ⟨q, hnew⟩ := Option.isSome_iff_exists.mp ((new_isSome_iff (T := T) hinit).mpr hcount)
  refine ⟨q, hnew, ?_⟩
  intro calls
  obtain ⟨q', hrun, hholds⟩ := runCalls_simulates call Holds (fun _ _ c h => h.call c) (.new hnew) calls
  rw [specCalls_logCall, List.nil_append] at hholds
  exact ⟨q', hrun, hholds.size, hholds.get⟩

theorem refines_log_default : (8 : ℤ) ≤ 2 ^ 30 ∧ (1 : ℤ) ≤ 2 ∧
    ∃ q : DrbQueue ℕ, new 8 2 = some q ∧
      ∀ calls, ∃ q', runCalls call q calls = some (q', (specCalls logCall [] calls).2) ∧
        q'.size = (pushedBy calls).length ∧
        ∀ pos : ℕ, q'.get pos = some (q', (pushedBy calls)[pos]?) :=
  ⟨by decide, by decide, refines_log (by decide) (by decide)⟩

end DrbQueue
end TcpLib
