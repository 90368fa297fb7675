import TcpLib.DrbQueue
import TcpLib.Lib.TicketRing
import TcpLib.Lib.Transition
import Mathlib.Data.Finset.Card

/-!
# Concurrent pushes at the durable queue

Every push is split into its fetch-and-increment, its page lookup, its two writes and the increment
of `write_index_`; the steps of any number of producers come in any order. `reserved` lists the
messages in the order of their fetch-and-increment, and `fault` is set by an access outside of the
table. The queue keeps every message exactly as long as no lookup asks for a page index that is a
double of the size of the table.
-/

namespace TcpLib
open Transition TicketRing
variable {T : Type*}

/-- How far a producer is in `push`. -/
inductive DrbPc (T : Type*)
  | idle
  | reserved (index : ℕ) (msg : T)
  | found (index page : ℕ) (msg : T)
  | stored (index page : ℕ)
  | published

def DrbPc.index? : DrbPc T → Option ℕ
  | .idle | .published => none
  | .reserved i _ | .found i _ _ | .stored i _ => some i

structure DrbSys (T : Type*) where
  queue : DrbQueue T
  pushing : ℕ → DrbPc T := fun _ => .idle
  reserved : List T := []
  fault : Bool := false

inductive DrbAct (T : Type*)
  | reserve (t : ℕ) (msg : T)
  | lookup (t : ℕ)
  | store (t : ℕ)
  | publish (t : ℕ)
  | finish (t : ℕ)

namespace DrbSys

def setPush (s : DrbSys T) (t : ℕ) (pc : DrbPc T) : DrbSys T :=
  { s with pushing := Function.update s.pushing t pc }

/-- The rest of a step after an access to the table or to a page. -/
def access {α : Type*} (s : DrbSys T) (r : Option α) (k : α → DrbSys T) : DrbSys T :=
  match r with
  | some a => k a
  | none => { s with fault := true }

/-- No producer is in `push`. -/
def Quiet (s : DrbSys T) : Prop := ∀ t, s.pushing t = .idle

/-- The producers that are in `push`. -/
def Busy (s : DrbSys T) (busy : Finset ℕ) : Prop := ∀ t, t ∈ busy ↔ s.pushing t ≠ .idle

section
variable {s : DrbSys T} {t : ℕ} {pc : DrbPc T}

@[simp] theorem setPush_self : (s.setPush t pc).pushing t = pc := Function.update_self ..

theorem index?_setPush (s : DrbSys T) (t : ℕ) (pc : DrbPc T) (t' : ℕ) :
    ((s.setPush t pc).pushing t').index? =
      Function.update (fun t' => (s.pushing t').index?) t pc.index? t' := by
  by_cases h : t' = t <;> simp [setPush, h]

theorem Busy.setPush {busy : Finset ℕ} (h : s.Busy busy) (hpc : pc ≠ .idle) :
    (s.setPush t pc).Busy (insert t busy) := by
  intro t'
  by_cases htt : t' = t
  · subst htt
    simp [DrbSys.setPush, hpc]
  · simp [DrbSys.setPush, htt, h t']

theorem Busy.setPush_self {busy : Finset ℕ} (h : s.Busy busy) (hold : s.pushing t ≠ .idle)
    (hpc : pc ≠ .idle) : (s.setPush t pc).Busy busy := by
  have hnew := h.setPush (t := t) hpc
  rwa [Finset.insert_eq_self.mpr ((h t).mpr hold)] at hnew

theorem Busy.setPush_idle {busy : Finset ℕ} (h : s.Busy busy) :
    (s.setPush t .idle).Busy (busy.erase t) := by
  intro t'
  by_cases htt : t' = t
  · subst htt
    simp [DrbSys.setPush]
  · simp [DrbSys.setPush, htt, h t']

end

variable [Inhabited T]

def step (s : DrbSys T) : DrbAct T → Option (DrbSys T)
  | .reserve t msg =>
    match s.pushing t with
    | .idle =>
      some { s.setPush t (.reserved s.queue.postIndex msg) with
        queue := s.queue.fetchAndInc
        reserved := s.reserved ++ [msg] }
    | _ => none
  | .lookup t =>
    match s.pushing t with
    | .reserved i msg => some <| s.access (s.queue.getMsgPage (s.queue.pageIndex i)) fun r =>
      { s.setPush t (.found i r.2 msg) with queue := r.1 }
    | _ => none
  | .store t =>
    match s.pushing t with
    | .found i page msg => some <| s.access (s.queue.setMsg page i msg) fun queue =>
      { s.setPush t (.stored i page) with queue := queue }
    | _ => none
  | .publish t =>
    match s.pushing t with
    | .stored i page => some <| s.access (s.queue.setFlag page i) fun queue =>
      { s.setPush t .published with queue := queue }
    | _ => none
  | .finish t =>
    match s.pushing t with
    | .published => some { s.setPush t .idle with queue := s.queue.incWrite }
    | _ => none

/-- The lookups for which the table grows far enough. -/
def GrowsEnough (s : DrbSys T) : DrbAct T → Prop
  | .lookup t => ∀ i msg, s.pushing t = .reserved i msg → ¬s.queue.HitsDouble (s.queue.pageIndex i)
  | _ => True

/-- What a producer knows of the index it has reserved. -/
def PushOk (q : DrbQueue T) (reserved : List T) : DrbPc T → Prop
  | .idle | .published => True
  | .reserved i msg => reserved[i]? = some msg ∧ q.Blank i
  | .found i p msg => reserved[i]? = some msg ∧ q.Blank i ∧
      q.pageIndexes.entry (q.pageIndex i) = some p
  | .stored i p => ∃ msg, reserved[i]? = some msg ∧ q.slot i = some ⟨msg, 0⟩ ∧
      q.pageIndexes.entry (q.pageIndex i) = some p

structure Inv (s : DrbSys T) : Prop where
  fault : s.fault = false
  ok : s.queue.Ok
  len : s.reserved.length = s.queue.postIndex
  distinct : ∀ t t' i, (s.pushing t).index? = some i → (s.pushing t').index? = some i → t = t'
  claimed : ∀ t i, (s.pushing t).index? = some i → i < s.queue.postIndex
  push : ∀ t, PushOk s.queue s.reserved (s.pushing t)
  published : ∀ i msg, s.reserved[i]? = some msg →
    (∀ t, (s.pushing t).index? ≠ some i) → s.queue.slot i = some ⟨msg, 1⟩
  blank : ∀ i, s.queue.postIndex ≤ i → s.queue.Blank i
  written : ∃ busy, s.Busy busy ∧ s.queue.writeIndex + busy.card = s.queue.postIndex

variable {s s' : DrbSys T} {q q' : DrbQueue T} {t t' i p : ℕ} {pc : DrbPc T} {msg : T}

theorem pushOk_of_keeps {r r' : List T} (hbits : q'.pageMsgBits = q.pageMsgBits)
    (hentry : ∀ e p, q.pageIndexes.entry e = some p → q'.pageIndexes.entry e = some p)
    (hr : r <+: r') (hkeeps : ∀ i, pc.index? = some i → DrbQueue.Keeps q q' i)
    (h : PushOk q r pc) : PushOk q' r' pc := by
  have hget {i : ℕ} {msg : T} (hm : r[i]? = some msg) : r'[i]? = some msg := by
    obtain ⟨more, rfl⟩ := hr
    rw [List.getElem?_append_left (List.getElem?_eq_some_iff.mp hm).1]
    exact hm
  cases pc with
  | idle | published => trivial
  | reserved i msg =>
    obtain ⟨hm, hblank⟩ := h
    exact ⟨hget hm, (hkeeps i rfl).blank hblank⟩
  | found i p msg =>
    obtain ⟨hm, hblank, hp⟩ := h
    refine ⟨hget hm, (hkeeps i rfl).blank hblank, ?_⟩
    rw [DrbQueue.pageIndex_congr hbits]
    exact hentry _ _ hp
  | stored i p =>
    obtain ⟨msg, hm, hslot, hp⟩ := h
    refine ⟨msg, hget hm, (hkeeps i rfl).slot_some hslot, ?_⟩
    rw [DrbQueue.pageIndex_congr hbits]
    exact hentry _ _ hp

theorem Inv.drawn (hi : s.Inv) : Drawn (fun t => (s.pushing t).index?) s.queue.postIndex :=
  ⟨hi.distinct, hi.claimed⟩

/-- A step of one producer on the slot of its index. -/
theorem Inv.write (hi : s.Inv) (hidx : (s.pushing t).index? = some i)
    (hq : DrbQueue.PageStep s.queue q)
    (hkeeps : ∀ j, j ≠ i → DrbQueue.Keeps s.queue q j) (hpc : PushOk q s.reserved pc)
    (hbusy : pc ≠ .idle)
    (hnew : pc.index? = some i ∨ pc.index? = none ∧
      ∀ msg, s.reserved[i]? = some msg → q.slot i = some ⟨msg, 1⟩) :
    Inv { s.setPush t pc with queue := q } := by
  have hdrawn : Drawn (fun t' => ((s.setPush t pc).pushing t').index?) s.queue.postIndex := by
    rw [funext (index?_setPush s t pc)]
    exact hi.drawn.keep (hnew.imp (·.trans hidx.symm) And.left)
  have hold : s.pushing t ≠ .idle := by
    intro hidle
    rw [hidle] at hidx
    cases hidx
  refine ⟨hi.fault, hq.ok, hi.len.trans hq.post.symm, ?_, ?_, ?_, ?_, ?_, ?_⟩
  · exact hdrawn.distinct
  · intro t' j ht'
    exact (hdrawn.lt t' j ht').trans_eq hq.post.symm
  · intro t'
    by_cases htt : t' = t
    · subst htt
      simpa [DrbSys.setPush] using hpc
    · have hkept : PushOk q s.reserved (s.pushing t') := by
        refine pushOk_of_keeps hq.bits hq.entry List.prefix_rfl ?_ (hi.push t')
        intro j hj
        refine hkeeps j ?_
        rintro rfl
        exact htt (hi.distinct t' t j hj hidx)
      simpa [DrbSys.setPush, htt] using hkept
  · intro j msg hm hnone
    by_cases hji : j = i
    · subst hji
      rcases hnew with hnew | ⟨-, hslot⟩
      · exact absurd ((congrArg DrbPc.index? setPush_self).trans hnew) (hnone t)
      · exact hslot msg hm
    · refine (hkeeps j hji).slot_some (hi.published j msg hm ?_)
      apply unheld_of_update (t := t) (o := pc.index?)
      · rw [hidx]
        exact fun h => hji (Option.some.inj h).symm
      · intro t' ht'
        exact hnone t' ((index?_setPush s t pc t').trans ht')
  · intro j hj
    have hlt := hi.claimed t i hidx
    have hj' : s.queue.postIndex ≤ j := hq.post.symm.trans_le hj
    exact (hkeeps j (by omega)).blank (hi.blank j hj')
  · obtain ⟨busy, hset, hcard⟩ := hi.written
    exact ⟨busy, hset.setPush_self hold hbusy, by rw [hq.write, hq.post]; exact hcard⟩

theorem Inv.lookup (hi : s.Inv) (hpc : s.pushing t = .reserved i msg)
    (hhit : ¬s.queue.HitsDouble (s.queue.pageIndex i)) :
    ∃ q p, s.queue.getMsgPage (s.queue.pageIndex i) = some (q, p) ∧
      DrbQueue.PageStep s.queue q ∧ Inv { s.setPush t (.found i p msg) with queue := q } := by
  have hidx : (s.pushing t).index? = some i := by rw [hpc]; rfl
  have hpush := hi.push t
  rw [hpc] at hpush
  obtain ⟨hm, hblank⟩ := hpush
  obtain ⟨q, p, hpage, hstep, hentry, hkeeps⟩ := hi.ok.getMsgPage hhit
  refine ⟨q, p, hpage, hstep, hi.write hidx hstep (fun j _ => hkeeps j) ?_ nofun (Or.inl rfl)⟩
  refine ⟨hm, (hkeeps i).blank hblank, ?_⟩
  rwa [DrbQueue.pageIndex_congr hstep.bits]

theorem Inv.store (hi : s.Inv) (hpc : s.pushing t = .found i p msg) :
    ∃ q, s.queue.setMsg p i msg = some q ∧ DrbQueue.PageStep s.queue q ∧
      Inv { s.setPush t (.stored i p) with queue := q } := by
  have hidx : (s.pushing t).index? = some i := by rw [hpc]; rfl
  have hpush := hi.push t
  rw [hpc] at hpush
  obtain ⟨hm, hblank, hp⟩ := hpush
  obtain ⟨q, hset, hstep, hslot, hother⟩ := hi.ok.modify hp fun m => { m with msg := msg }
  obtain ⟨m, hold⟩ := Option.isSome_iff_exists.mp (hi.ok.slot_isSome hp)
  refine ⟨q, hset, hstep, hi.write hidx hstep (fun j hne => Or.inl (hother j hne)) ?_ nofun
    (Or.inl rfl)⟩
  refine ⟨msg, hm, ?_, ?_⟩
  · rw [hslot, hold, hblank m hold]
    rfl
  · rw [DrbQueue.pageIndex_congr hstep.bits]
    exact hstep.entry _ _ hp

theorem Inv.publish (hi : s.Inv) (hpc : s.pushing t = .stored i p) :
    ∃ q, s.queue.setFlag p i = some q ∧ DrbQueue.PageStep s.queue q ∧
      Inv { s.setPush t .published with queue := q } := by
  have hidx : (s.pushing t).index? = some i := by rw [hpc]; rfl
  have hpush := hi.push t
  rw [hpc] at hpush
  obtain ⟨msg, hm, hold, hp⟩ := hpush
  obtain ⟨q, hset, hstep, hslot, hother⟩ := hi.ok.modify hp fun m => { m with flag := 1 }
  refine ⟨q, hset, hstep, hi.write hidx hstep (fun j hne => Or.inl (hother j hne)) trivial nofun
    (Or.inr ⟨rfl, ?_⟩)⟩
  intro msg' hm'
  obtain rfl : msg = msg' := Option.some.inj (hm.symm.trans hm')
  rw [hslot, hold]
  rfl

theorem Inv.reserve (hi : s.Inv) (hpc : s.pushing t = .idle) (msg : T) :
    Inv { s.setPush t (.reserved s.queue.postIndex msg) with
      queue := s.queue.fetchAndInc, reserved := s.reserved ++ [msg] } := by
  have hdrawn : Drawn
      (fun t' => ((s.setPush t (.reserved s.queue.postIndex msg)).pushing t').index?)
      (s.queue.postIndex + 1) := by
    rw [funext (index?_setPush s t (.reserved s.queue.postIndex msg))]
    exact hi.drawn.draw t
  refine ⟨hi.fault, ⟨hi.ok.wf, hi.ok.live, hi.ok.inside, hi.ok.count_pos⟩, ?_, hdrawn.distinct,
    hdrawn.lt, ?_, ?_, ?_, ?_⟩
  · simp [DrbQueue.fetchAndInc, hi.len]
  · intro t'
    by_cases htt : t' = t
    · subst htt
      have hnew : PushOk s.queue.fetchAndInc (s.reserved ++ [msg])
          (.reserved s.queue.postIndex msg) :=
        ⟨by simp [← hi.len], hi.blank _ le_rfl⟩
      simpa [DrbSys.setPush] using hnew
    · have hold : PushOk s.queue.fetchAndInc (s.reserved ++ [msg]) (s.pushing t') :=
        pushOk_of_keeps (q := s.queue) rfl (fun _ _ h => h) (List.prefix_append _ _)
          (fun _ _ => Or.inl rfl) (hi.push t')
      simpa [DrbSys.setPush, htt] using hold
  · intro i m hm hnone
    have hne : i ≠ s.reserved.length := by
      rw [hi.len]
      rintro rfl
      exact hnone t (congrArg DrbPc.index? setPush_self)
    refine hi.published i m ((getElem?_concat_of_ne hne).symm.trans hm) ?_
    apply unheld_of_update (t := t) (o := some s.queue.postIndex)
    · rw [hpc]
      nofun
    · intro t' ht'
      exact hnone t' ((index?_setPush s t _ t').trans ht')
  · intro i hpost
    exact hi.blank i (Nat.le_of_succ_le hpost)
  · obtain ⟨busy, hset, hcard⟩ := hi.written
    have hout : t ∉ busy := fun hin => (hset t).mp hin hpc
    refine ⟨insert t busy, hset.setPush nofun, ?_⟩
    rw [Finset.card_insert_of_notMem hout]
    change s.queue.writeIndex + _ = s.queue.postIndex + 1
    omega

theorem Inv.finish (hi : s.Inv) (hpc : s.pushing t = .published) :
    Inv { s.setPush t .idle with queue := s.queue.incWrite } := by
  have hidx (t' : ℕ) : ((s.setPush t .idle).pushing t').index? = (s.pushing t').index? := by
    rw [index?_setPush, Function.update_apply]
    split_ifs with htt
    · rw [htt, hpc]
      rfl
    · rfl
  refine ⟨hi.fault, ⟨hi.ok.wf, hi.ok.live, hi.ok.inside, hi.ok.count_pos⟩, hi.len, ?_, ?_, ?_, ?_,
    hi.blank, ?_⟩
  · intro t₁ t₂ i h₁ h₂
    exact hi.distinct t₁ t₂ i ((hidx t₁).symm.trans h₁) ((hidx t₂).symm.trans h₂)
  · intro t' i ht'
    exact hi.claimed t' i ((hidx t').symm.trans ht')
  · intro t'
    by_cases htt : t' = t
    · subst htt
      simp [PushOk]
    · have hold : PushOk s.queue.incWrite s.reserved (s.pushing t') :=
        pushOk_of_keeps (q := s.queue) rfl (fun _ _ h => h) List.prefix_rfl
          (fun _ _ => Or.inl rfl) (hi.push t')
      simpa [DrbSys.setPush, htt] using hold
  · intro i msg hm hnone
    exact hi.published i msg hm fun t' ht' => hnone t' ((hidx t').trans ht')
  · obtain ⟨busy, hset, hcard⟩ := hi.written
    have hin : t ∈ busy := (hset t).mpr (by rw [hpc]; nofun)
    have hpos := Finset.card_pos.mpr ⟨t, hin⟩
    refine ⟨busy.erase t, hset.setPush_idle, ?_⟩
    rw [Finset.card_erase_of_mem hin]
    change s.queue.writeIndex + 1 + _ = s.queue.postIndex
    omega

/-- A step keeps the invariant and every page, if the table grows far enough. -/
theorem Inv.step {a : DrbAct T} (hi : s.Inv) (hok : s.GrowsEnough a) (hstep : s.step a = some s') :
    s'.Inv ∧ ∀ e p, s.queue.pageIndexes.entry e = some p → s'.queue.pageIndexes.entry e = some p := by
  cases a with
  | reserve t msg =>
    simp only [DrbSys.step] at hstep
    split at hstep
    · next hpc =>
      obtain rfl := Option.some.inj hstep
      exact ⟨hi.reserve hpc msg, fun _ _ h => h⟩
    · cases hstep
  | lookup t =>
    simp only [DrbSys.step] at hstep
    split at hstep
    · next i msg hpc =>
      obtain ⟨q, p, hpage, hq, hnew⟩ := hi.lookup hpc (hok i msg hpc)
      simp only [hpage, access] at hstep
      obtain rfl := Option.some.inj hstep
      exact ⟨hnew, hq.entry⟩
    · cases hstep
  | store t =>
    simp only [DrbSys.step] at hstep
    split at hstep
    · next i p msg hpc =>
      obtain ⟨q, hset, hq, hnew⟩ := hi.store hpc
      simp only [hset, access] at hstep
      obtain rfl := Option.some.inj hstep
      exact ⟨hnew, hq.entry⟩
    · cases hstep
  | publish t =>
    simp only [DrbSys.step] at hstep
    split at hstep
    · next i p hpc =>
      obtain ⟨q, hset, hq, hnew⟩ := hi.publish hpc
      simp only [hset, access] at hstep
      obtain rfl := Option.some.inj hstep
      exact ⟨hnew, hq.entry⟩
    · cases hstep
  | finish t =>
    simp only [DrbSys.step] at hstep
    split at hstep
    · next hpc =>
      obtain rfl := Option.some.inj hstep
      exact ⟨hi.finish hpc, fun _ _ h => h⟩
    · cases hstep

theorem Inv.fault_of_hit {a : DrbAct T} (hi : s.Inv) (hhit : ¬s.GrowsEnough a)
    (hstep : s.step a = some s') : s'.fault = true := by
  cases a with
  | lookup t =>
    obtain ⟨i, msg, hpc, hdouble⟩ : ∃ i msg, s.pushing t = .reserved i msg ∧
        s.queue.HitsDouble (s.queue.pageIndex i) := by
      simpa [GrowsEnough] using hhit
    simp only [DrbSys.step, hpc, hi.ok.getMsgPage_none hdouble, access] at hstep
    obtain rfl := Option.some.inj hstep
    rfl
  | reserve _ _ | store _ | publish _ | finish _ => exact absurd trivial hhit

theorem Inv.get_quiet (hi : s.Inv) (hq : s.Quiet) {pos : ℕ} (hpos : pos < s.queue.postIndex) :
    ∃ msg, s.reserved[pos]? = some msg ∧ s.queue.get pos = some (s.queue, some msg) := by
  have hlen : pos < s.reserved.length := hi.len ▸ hpos
  have hm := List.getElem?_eq_getElem hlen
  have hslot := hi.published pos _ hm fun t => by
    rw [hq t]
    nofun
  obtain ⟨busy, hset, hcard⟩ := hi.written
  have hnone : busy = ∅ := Finset.eq_empty_of_forall_notMem fun t hin => (hset t).mp hin (hq t)
  rw [hnone, Finset.card_empty, Nat.add_zero] at hcard
  exact ⟨_, hm, hi.ok.get_published (hcard.symm ▸ hpos) hslot⟩

/-- What the queue promises to the producers, in a state that `acts` lead to. -/
structure Grows (q₀ : DrbQueue T) (acts : List (DrbAct T)) (s : DrbSys T) : Prop where
  inBounds : s.fault = false
  terminates : ∀ pageIndex, ∃ size, s.queue.extendSize pageIndex = some size
  keeps : ∀ acts' s', acts' <+: acts → Run step anyStep { queue := q₀ } acts' s' →
    ∀ e p, s'.queue.pageIndexes.entry e = some p → s.queue.pageIndexes.entry e = some p
  delivers : s.Quiet → ∀ pos < s.queue.postIndex,
    ∃ msg, s.reserved[pos]? = some msg ∧ s.queue.get pos = some (s.queue, some msg)

/-- The invariant together with the pages of all earlier states. -/
structure GrowInv (q₀ : DrbQueue T) (acts : List (DrbAct T)) (s : DrbSys T) : Prop extends Inv s where
  run : Run step anyStep { queue := q₀ } acts s
  keeps : ∀ acts' s', acts' <+: acts → Run step anyStep { queue := q₀ } acts' s' →
    ∀ e p, s'.queue.pageIndexes.entry e = some p → s.queue.pageIndexes.entry e = some p

variable {q₀ : DrbQueue T} {acts : List (DrbAct T)} {a : DrbAct T}

theorem GrowInv.grows (h : GrowInv q₀ acts s) : Grows q₀ acts s where
  inBounds := h.fault
  terminates := fun pageIndex =>
    let ⟨size, hsize, _⟩ := h.ok.extendSize_eq pageIndex
    ⟨size, hsize⟩
  keeps := h.keeps
  delivers := fun hq _ hpos => h.get_quiet hq hpos

theorem GrowInv.step (h : GrowInv q₀ acts s) (hok : s.GrowsEnough a) (hstep : s.step a = some s') :
    GrowInv q₀ (acts ++ [a]) s' := by
  obtain ⟨hinv, hentry⟩ := h.toInv.step hok hstep
  have hrun : Run DrbSys.step anyStep { queue := q₀ } (acts ++ [a]) s' := .snoc h.run trivial hstep
  refine ⟨hinv, hrun, ?_⟩
  intro acts' s'' hpre hrun' e p hp
  rcases List.prefix_concat_iff.mp hpre with rfl | hpre
  · rwa [← hrun'.unique hrun]
  · exact hentry e p (h.keeps acts' s'' hpre hrun' e p hp)

theorem GrowInv.init {pageMsgCount initPageMsgCount : ℤ}
    (hnew : DrbQueue.new pageMsgCount initPageMsgCount = some q₀) :
    GrowInv q₀ [] { queue := q₀ } := by
  obtain ⟨hok, hpost, hwrite, hblank⟩ := DrbQueue.ok_new hnew
  refine ⟨⟨rfl, hok, hpost.symm, nofun, nofun, fun _ => trivial, nofun, fun i _ => hblank i, ?_⟩, .nil,
    ?_⟩
  · refine ⟨∅, fun t => by simp, ?_⟩
    rw [Finset.card_empty]
    exact hwrite.trans hpost.symm
  · intro acts' s' hpre hrun e p hp
    obtain rfl := List.prefix_nil.mp hpre
    have hstart : Run DrbSys.step anyStep ({ queue := q₀ } : DrbSys T) [] { queue := q₀ } := .nil
    rwa [hrun.unique hstart] at hp

/-- The table grows safely all the way exactly when no lookup asks for a double of its size, and
the queue can be built at all exactly for pages of up to 2^30 messages. -/
theorem table_growth_iff {pageMsgCount initPageMsgCount : ℤ} (hinit : 1 ≤ initPageMsgCount) :
    ((DrbQueue.new (T := T) pageMsgCount initPageMsgCount).isSome ↔ pageMsgCount ≤ 2 ^ 30) ∧
    ∀ (q₀ : DrbQueue T), DrbQueue.new pageMsgCount initPageMsgCount = some q₀ →
      ∀ acts s, Run step anyStep { queue := q₀ } acts s →
        (Throughout step { queue := q₀ } acts (Grows q₀) ↔
          Run step GrowsEnough { queue := q₀ } acts s) := by
  refine ⟨DrbQueue.new_isSome_iff hinit, ?_⟩
  intro q₀ hnew acts s h
  refine h.throughout_iff (GrowInv q₀) (Grows q₀) (.init hnew) (fun _ _ hI => hI.grows)
    (fun _ _ _ _ hI hok hstep => hI.step hok hstep) ?_
  intro acts s a t hI hhit hstep hgrows
  have hfault := hI.toInv.fault_of_hit hhit hstep
  rw [hgrows.inBounds] at hfault
  cases hfault

theorem table_growth_iff_default : (1 : ℤ) ≤ 2 ∧
    ((DrbQueue.new (T := ℕ) 8 2).isSome ↔ (8 : ℤ) ≤ 2 ^ 30) ∧
    ∀ (q₀ : DrbQueue ℕ), DrbQueue.new 8 2 = some q₀ →
      ∀ acts s, Run step anyStep { queue := q₀ } acts s →
        (Throughout step { queue := q₀ } acts (Grows q₀) ↔
          Run step GrowsEnough { queue := q₀ } acts s) :=
  ⟨by decide, table_growth_iff (by decide)⟩

/-- Five producers at pages of two messages and a table of one page: the last one looks up page 2
first, and the table is extended to the pages 0 and 1. -/
theorem late_index_leaves_table : ∃ q₀ s, DrbQueue.new 2 1 = some q₀ ∧
    Run step anyStep { queue := q₀ }
      ((List.range 5).map (fun t => .reserve t t) ++ [.lookup 4] : List (DrbAct ℕ)) s ∧
    ¬Grows q₀ ((List.range 5).map (fun t => .reserve t t) ++ [.lookup 4]) s := by
  refine ⟨_, _, rfl, .of_exec (fun _ _ _ => trivial) rfl, ?_⟩
  intro hgrows
  cases hgrows.inBounds

end DrbSys
end TcpLib
