import TcpLib.QueueRuns
import TcpLib.Lib.BoundedFifo

/-!
# Calls of the queue one at a time

A call of `push` or `pop` that no one interrupts is a run of one party's steps. So the invariant of
all runs gives the meaning of the calls: the queue is a bounded FIFO.
-/

namespace TcpLib
open Transition
variable {g : PageShape} {T : Type*}

def PageShape.capacity (g : PageShape) : ℕ := (g.pageIndexCount - 1) * g.pageMsgCount

namespace QueueSys
variable {s s' : QueueSys g T}

/-- No producer is in `push` and the consumer is not in `pop`. -/
structure Quiet (s : QueueSys g T) : Prop where
  pushing : ∀ t, s.pushing t = .idle
  popping : s.popping = .idle

theorem Quiet.front (h : s.Quiet) : s.front = s.queue.getIndex := by
  simp only [QueueSys.front, h.popping]

theorem Quiet.frontPage (h : s.Quiet) : s.frontPage = s.queue.getIndex / g.pageMsgCount := by
  simp only [QueueSys.frontPage, h.popping]

theorem hasRoom_of_le (hle : s.queue.postIndex ≤ s.queue.getIndex + g.capacity) (t : ℕ) :
    s.HasRoom (.reserve t) := by
  have hget : s.queue.getIndex / g.pageMsgCount ≤ s.frontPage := by
    unfold QueueSys.frontPage
    cases s.popping with
    | taken msg => exact Nat.div_le_div_right (Nat.le_succ _)
    | idle | started | found _ | last _ _ | deleted _ => exact le_refl _
  have hcount := PageShape.pageIndexCount_pos (g := g)
  calc s.queue.postIndex / g.pageMsgCount
      ≤ (s.queue.getIndex + g.capacity) / g.pageMsgCount := Nat.div_le_div_right hle
    _ = s.queue.getIndex / g.pageMsgCount + (g.pageIndexCount - 1) :=
        Nat.add_mul_div_right _ _ PageShape.pageMsgCount_pos
    _ < s.frontPage + g.pageIndexCount := by omega

theorem lt_of_not_full (hfull : ¬s.queue.full) :
    s.queue.postIndex < s.queue.getIndex + g.capacity := by
  rw [SrtQueue.full_iff, Nat.not_le] at hfull
  unfold PageShape.capacity
  omega

variable [Inhabited T]

theorem step_test {t : ℕ} (hpc : s.pushing t = .idle) (hfull : ¬s.queue.full) (msg : T) :
    step s (.test t msg) = some (s.setPush t (.tested msg)) := by
  simp only [step, hpc, if_neg hfull]

theorem step_reserve {t : ℕ} {msg : T} (hpc : s.pushing t = .tested msg) :
    step s (.reserve t) = some { s.setPush t (.reserved s.queue.postIndex msg) with
      queue := s.queue.fetchAndInc, reserved := s.reserved ++ [msg] } := by
  simp only [step, hpc]

def pushActs (t : ℕ) (msg : T) : List (QueueAct T) :=
  [.test t msg, .reserve t, .lookup t, .store t, .publish t]

theorem push_quiet (hi : s.Inv) (hq : s.Quiet) (hfull : ¬s.queue.full) (t : ℕ) (msg : T) :
    ∃ s', Run step HasRoom s (pushActs t msg) s' ∧ s'.Inv ∧ s'.Quiet ∧
      s.queue.push msg = some (s'.queue, true) ∧ s'.reserved = s.reserved ++ [msg] ∧
      s'.queue.getIndex = s.queue.getIndex ∧
      s'.queue.pageIndexes.freed = s.queue.pageIndexes.freed := by
  let s₁ := s.setPush t (.tested msg)
  have hpc₁ : s₁.pushing t = .tested msg := setPush_self
  have hi₁ : s₁.Inv := hi.setPush (by rw [hq.pushing]; rfl) rfl
  have hstep₁ : step s (.test t msg) = some s₁ := step_test (hq.pushing t) hfull msg
  have hroom : s₁.HasRoom (.reserve t) :=
    hasRoom_of_le (s := s) (lt_of_not_full hfull).le t
  let s₂ : QueueSys g T := { s₁.setPush t (.reserved s₁.queue.postIndex msg) with
    queue := s₁.queue.fetchAndInc, reserved := s₁.reserved ++ [msg] }
  have hpc₂ : s₂.pushing t = .reserved s.queue.postIndex msg := Function.update_self ..
  have hi₂ : s₂.Inv := hi₁.reserve hpc₁ hroom
  have hstep₂ : step s₁ (.reserve t) = some s₂ := step_reserve hpc₁
  let r := s₂.queue.getMsgPage (g.pageIndex s.queue.postIndex)
  let s₃ : QueueSys g T :=
    { s₂.setPush t (.found s.queue.postIndex r.2 msg) with queue := r.1 }
  have hpc₃ : s₃.pushing t = .found s.queue.postIndex r.2 msg := Function.update_self ..
  have hi₃ : s₃.Inv := hi₂.lookup hpc₂
  have hstep₃ : step s₂ (.lookup t) = some s₃ := by
    simp only [step, hpc₂, s₃, r]
  obtain ⟨q₄, hset, hi₄⟩ := hi₃.store hpc₃
  let s₄ : QueueSys g T := { s₃.setPush t (.stored s.queue.postIndex r.2) with queue := q₄ }
  have hpc₄ : s₄.pushing t = .stored s.queue.postIndex r.2 := Function.update_self ..
  have hstep₄ : step s₃ (.store t) = some s₄ := by
    simp only [step, hpc₃, access, hset, s₄]
  obtain ⟨q₅, hflag, hi₅⟩ := Inv.publish (s := s₄) hi₄ hpc₄
  let s₅ : QueueSys g T := { s₄.setPush t .idle with queue := q₅ }
  have hstep₅ : step s₄ (.publish t) = some s₅ := by
    simp only [step, hpc₄, access, hflag, s₅]
  refine ⟨s₅, .cons trivial hstep₁ (.cons hroom hstep₂ (.cons trivial hstep₃
    (.cons trivial hstep₄ (.single trivial hstep₅)))), hi₅, ⟨?_, hq.popping⟩, ?_, rfl, ?_, ?_⟩
  · intro t'
    by_cases htt : t' = t
    · subst htt
      exact Function.update_self ..
    · simp [s₅, s₄, s₃, s₂, s₁, setPush, htt, hq.pushing]
  · have hset' : (s.queue.fetchAndInc.getMsgPage (g.pageIndex s.queue.postIndex)).1.setMsg
        (s.queue.fetchAndInc.getMsgPage (g.pageIndex s.queue.postIndex)).2 s.queue.postIndex msg =
          some q₄ := hset
    have hflag' : q₄.setFlag
        (s.queue.fetchAndInc.getMsgPage (g.pageIndex s.queue.postIndex)).2 s.queue.postIndex =
          some q₅ := hflag
    simp [SrtQueue.push, hfull, hset', hflag', s₅]
  · exact (SrtQueue.modify_frame hflag).2.1.trans (SrtQueue.modify_frame hset).2.1
  · exact ((SrtQueue.modify_frame hflag).2.2.trans (SrtQueue.modify_frame hset).2.2).trans
      PageTable.freed_getPage

def popActs (g : PageShape) (index : ℕ) : List (QueueAct T) :=
  [.popStart, .popLookup, .popCheck] ++
    (if g.msgIndex index = g.pageMsgMask then [.popDelete, .popClear] else []) ++ [.popNext]

/-- An uninterrupted pop when no push is under way. The page is freed with its last message. -/
theorem pop_quiet (hi : s.Inv) (hq : s.Quiet) (hlt : s.queue.getIndex < s.queue.postIndex) :
    ∃ s' msg page, Run step HasRoom s (popActs g s.queue.getIndex) s' ∧ s'.Inv ∧ s'.Quiet ∧
      s.reserved[s.queue.getIndex]? = some msg ∧ s.queue.pop = some (s'.queue, some msg) ∧
      s'.reserved = s.reserved ∧ s'.queue.getIndex = s.queue.getIndex + 1 ∧
      s.queue.pageIndexes.entry (g.pageIndex s.queue.getIndex) = some page ∧
      s'.queue.pageIndexes.freed = s.queue.pageIndexes.freed ++
        if g.msgIndex s.queue.getIndex = g.pageMsgMask then [page] else [] := by
  have hnone (t : ℕ) : (s.pushing t).index? ≠ some s.queue.getIndex := by
    rw [hq.pushing]
    nofun
  have hlen : s.queue.getIndex < s.reserved.length := hi.len ▸ hlt
  obtain ⟨p, hp⟩ := SrtQueue.entry_of_slot
    (hi.published _ _ hq.front.le (List.getElem?_eq_getElem hlen) hnone)
  have hpage := SrtQueue.getMsgPage_of_entry hp
  let s₁ : QueueSys g T := { s with popping := .started }
  have hstep₁ : step s .popStart = some s₁ := by
    simp only [step, hq.popping, if_neg (Nat.not_le_of_lt hlt), s₁]
  let s₂ : QueueSys g T := { s with popping := .found p }
  have hstep₂ : step s₁ .popLookup = some s₂ := by
    simp only [step, s₁, s₂, hpage]
  have hi₂ : s₂.Inv := by
    refine hi.setPop ?_ ?_ ?_ ⟨hlt, hp⟩
    · simp only [QueueSys.front, hq.popping]
    · simp only [QueueSys.frontPage, hq.popping]
    · simp only [dangling, hq.popping]
  obtain ⟨m, hread, ⟨-, t, ht⟩ | ⟨hflag, hmsg, -⟩⟩ := hi₂.read_front rfl
  · exact absurd ht (hnone t)
  have hread' : s.queue.read p s.queue.getIndex = some m := hread
  by_cases hlast : g.msgIndex s.queue.getIndex = g.pageMsgMask
  · let s₃ : QueueSys g T := { s with popping := .last p m.msg }
    have hstep₃ : step s₂ .popCheck = some s₃ := by
      simp only [step, access, s₂, s₃, hread', if_pos hflag, if_pos hlast]
    have hi₃ : s₃.Inv := hi₂.keep (a := .popCheck) trivial hstep₃
    obtain ⟨q, hdel, hi₄⟩ := hi₃.delete rfl
    have hdel' : s.queue.deletePage p = some q := hdel
    let s₄ : QueueSys g T := { s with queue := q, popping := .deleted m.msg }
    have hstep₄ : step s₃ .popDelete = some s₄ := by
      simp only [step, access, s₃, s₄, hdel']
    obtain ⟨-, hget, hfreed⟩ := SrtQueue.deletePage_frame hdel'
    let s₅ : QueueSys g T :=
      { s with queue := q.clearPage (g.pageIndex q.getIndex), popping := .taken m.msg }
    have hstep₅ : step s₄ .popClear = some s₅ := rfl
    have hi₅ : s₅.Inv := hi₄.clear rfl
    let s₆ : QueueSys g T := { s with
      queue := (q.clearPage (g.pageIndex q.getIndex)).incGet
      popping := .idle
      popped := s.popped ++ [m.msg] }
    have hstep₆ : step s₅ .popNext = some s₆ := rfl
    refine ⟨s₆, m.msg, p, ?_, hi₅.next rfl, ⟨hq.pushing, rfl⟩, hmsg, ?_, rfl, ?_, hp, ?_⟩
    · rw [popActs, if_pos hlast]
      exact .cons trivial hstep₁ (.cons trivial hstep₂ (.cons trivial hstep₃ (.cons trivial hstep₄
        (.cons trivial hstep₅ (.single trivial hstep₆)))))
    · simp [SrtQueue.pop, Nat.not_le_of_lt hlt, hpage, hread', hflag, hlast, hdel', hget, s₆]
    · exact congrArg (· + 1) hget
    · rw [if_pos hlast]
      exact hfreed
  · let s₃ : QueueSys g T := { s with popping := .taken m.msg }
    have hstep₃ : step s₂ .popCheck = some s₃ := by
      simp only [step, access, s₂, s₃, hread', if_pos hflag, if_neg hlast]
    have hi₃ : s₃.Inv := hi₂.keep (a := .popCheck) trivial hstep₃
    let s₄ : QueueSys g T :=
      { s with queue := s.queue.incGet, popping := .idle, popped := s.popped ++ [m.msg] }
    have hstep₄ : step s₃ .popNext = some s₄ := rfl
    refine ⟨s₄, m.msg, p, ?_, hi₃.next rfl, ⟨hq.pushing, rfl⟩, hmsg, ?_, rfl, rfl, hp, ?_⟩
    · rw [popActs, if_neg hlast]
      exact .cons trivial hstep₁ (.cons trivial hstep₂ (.cons trivial hstep₃
        (.single trivial hstep₄)))
    · simp [SrtQueue.pop, Nat.not_le_of_lt hlt, hpage, hread', hflag, hlast, s₄]
    · rw [if_neg hlast, List.append_nil]
      rfl

end QueueSys

namespace SrtQueue
open QueueSys
variable [Inhabited T]

def call (q : SrtQueue g T) : FifoCall T → Option (SrtQueue g T × FifoResult T)
  | .push msg => (q.push msg).map fun (q, accepted) => (q, .pushed accepted)
  | .pop => q.pop.map fun (q, msg) => (q, .popped msg)

/-- Every page that was ever allocated is under one entry or was freed once, in the order of the
indexes, and no slot behind the last index shows anything. -/
structure PagesOk (q : SrtQueue g T) : Prop where
  wf : q.pageIndexes.WF
  live : ∀ e, q.pageIndexes.Live e
  freed : q.pageIndexes.freed.length = q.getIndex / g.pageMsgCount
  blank : ∀ i, q.postIndex ≤ i → g.InWindow (q.getIndex / g.pageMsgCount) i → q.Blank i

/-- A refused push changes nothing, and a page is freed by the pop of its last slot only. -/
structure CallOk (q q' : SrtQueue g T) (r : FifoResult T) : Prop where
  refused : r = .pushed false → q' = q
  last : ∀ msg, r = .popped (some msg) → g.msgIndex q.getIndex = g.pageMsgMask →
    ∃ page, q.pageIndexes.entry (g.pageIndex q.getIndex) = some page ∧
      q'.pageIndexes.freed = q.pageIndexes.freed ++ [page]
  kept : (∀ msg, r = .popped (some msg) → g.msgIndex q.getIndex ≠ g.pageMsgMask) →
    q'.pageIndexes.freed = q.pageIndexes.freed

/-- The queue is in a state between calls and holds these messages. -/
def Holds (q : SrtQueue g T) (held : List T) : Prop :=
  ∃ s : QueueSys g T, s.Inv ∧ s.Quiet ∧ s.queue = q ∧ s.reserved.drop q.getIndex = held

variable {q : SrtQueue g T} {held : List T}

theorem Holds.init : (init g : SrtQueue g T).Holds [] :=
  ⟨.init g, Inv.init, ⟨fun _ => rfl, rfl⟩, rfl, rfl⟩

theorem Holds.size (h : q.Holds held) : q.size = held.length := by
  obtain ⟨s, hi, -, rfl, rfl⟩ := h
  rw [List.length_drop, hi.len]
  rfl

theorem Holds.pagesOk (h : q.Holds held) : q.PagesOk := by
  obtain ⟨s, hi, hq, rfl, -⟩ := h
  refine ⟨hi.wf, fun e => hi.live e ?_, hi.freed.trans (by rw [hq.front]), ?_⟩
  · simp [dangling, hq.popping]
  · intro i hpost hwin
    exact hi.blank i hpost (by rwa [hq.frontPage])

/-- Every call between calls is answered as the bounded FIFO answers it. -/
theorem Holds.call (h : q.Holds held) (c : FifoCall T) :
    ∃ q', q.call c = some (q', (fifoCall g.capacity held c).2) ∧
      q'.Holds (fifoCall g.capacity held c).1 ∧ q.CallOk q' (fifoCall g.capacity held c).2 := by
  have hsize := h.size
  obtain ⟨s, hi, hq, rfl, rfl⟩ := h
  have hfull : s.queue.full ↔ g.capacity ≤ (s.reserved.drop s.queue.getIndex).length := by
    rw [full_iff, ← hsize]
    rfl
  cases c with
  | push msg =>
    by_cases hf : s.queue.full
    · rw [fifoCall_push_full (hfull.mp hf)]
      refine ⟨s.queue, ?_, ⟨s, hi, hq, rfl, rfl⟩, fun _ => rfl, nofun, fun _ => rfl⟩
      simp only [SrtQueue.call, SrtQueue.push, if_pos hf, Option.map_some]
    · obtain ⟨s', -, hi', hq', hpush, hreserved, hget, hfreed⟩ := push_quiet hi hq hf 0 msg
      have hle : s.queue.getIndex ≤ s.reserved.length :=
        hi.len ▸ getIndex_le_front.trans hi.front_le
      rw [fifoCall_push (mt hfull.mpr hf)]
      refine ⟨s'.queue, ?_, ⟨s', hi', hq', rfl, ?_⟩, nofun, nofun, fun _ => hfreed⟩
      · simp only [SrtQueue.call, hpush, Option.map_some]
      · rw [hreserved, hget, List.drop_append_of_le_length hle]
  | pop =>
    rw [fifoCall_pop]
    by_cases hlt : s.queue.getIndex < s.queue.postIndex
    · obtain ⟨s', msg, page, -, hi', hq', hmsg, hpop, hreserved, hget, hpage, hfreed⟩ :=
        pop_quiet hi hq hlt
      rw [List.head?_drop, hmsg]
      refine ⟨s'.queue, ?_, ⟨s', hi', hq', rfl, ?_⟩, nofun, ?_, ?_⟩
      · simp only [SrtQueue.call, hpop, Option.map_some]
      · rw [hreserved, hget, List.tail_drop]
      · intro _ _ hlast
        rw [if_pos hlast] at hfreed
        exact ⟨page, hpage, hfreed⟩
      · intro hno
        rw [if_neg (hno msg rfl), List.append_nil] at hfreed
        exact hfreed
    · have hnil : s.reserved.drop s.queue.getIndex = [] :=
        List.drop_eq_nil_of_le (hi.len.trans_le (Nat.le_of_not_lt hlt))
      rw [hnil]
      refine ⟨s.queue, ?_, ⟨s, hi, hq, rfl, hnil⟩, nofun, nofun, fun _ => rfl⟩
      simp only [SrtQueue.call, SrtQueue.pop, if_pos (Nat.le_of_not_lt hlt), Option.map_some]
      rfl

/-- After any sequence of calls the queue has answered as a bounded FIFO and holds as many messages;
its pages are in order, and every further call succeeds and frees a page only with its last slot. -/
theorem refines_fifo (g : PageShape) (cs : List (FifoCall T)) :
    ∃ q, runCalls SrtQueue.call (SrtQueue.init g) cs =
        some (q, (specCalls (fifoCall g.capacity) [] cs).2) ∧
      q.size = (specCalls (fifoCall g.capacity) [] cs).1.length ∧ q.PagesOk ∧
      ∀ c, ∃ q' r, q.call c = some (q', r) ∧ q.CallOk q' r := by
  obtain ⟨q, hrun, hheld⟩ := runCalls_simulates SrtQueue.call Holds
    (fun q held c h => (h.call c).imp fun q' hq' => ⟨hq'.1, hq'.2.1⟩)
    (Holds.init (g := g) (T := T)) cs
  refine ⟨q, hrun, hheld.size, hheld.pagesOk, ?_⟩
  intro c
  obtain ⟨q', hcall, -, hok⟩ := hheld.call c
  exact ⟨q', _, hcall, hok⟩

end SrtQueue
end TcpLib
