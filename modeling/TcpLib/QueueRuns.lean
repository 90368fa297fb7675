import TcpLib.SrtQueue
import TcpLib.Lib.TicketRing
import TcpLib.Lib.Transition

/-!
# Producers and a consumer at one queue

Every push is split into its capacity test, its fetch-and-increment, its page lookup and its two
writes, and the pop of the consumer at each of its accesses; the steps of any number of producers
and of the consumer come in any order. `reserved` lists the messages in the order of their
fetch-and-increment and `popped` what `pop` returned. `fault` is set by an access to a page that
was freed.
-/

namespace TcpLib
open Transition TicketRing
variable {g : PageShape} {T : Type*}

/-- How far a producer is in `push`. -/
inductive PushPc (T : Type*)
  | idle
  | tested (msg : T)
  | reserved (index : ℕ) (msg : T)
  | found (index page : ℕ) (msg : T)
  | stored (index page : ℕ)

def PushPc.index? : PushPc T → Option ℕ
  | .idle | .tested _ => none
  | .reserved i _ | .found i _ _ | .stored i _ => some i

/-- How far the consumer is in `pop`. -/
inductive PopPc (T : Type*)
  | idle
  | started
  | found (page : ℕ)
  | last (page : ℕ) (msg : T)
  | deleted (msg : T)
  | taken (msg : T)

structure QueueSys (g : PageShape) (T : Type*) where
  queue : SrtQueue g T
  pushing : ℕ → PushPc T := fun _ => .idle
  popping : PopPc T := .idle
  reserved : List T := []
  popped : List T := []
  fault : Bool := false

inductive QueueAct (T : Type*)
  | test (t : ℕ) (msg : T)
  | reserve (t : ℕ)
  | lookup (t : ℕ)
  | store (t : ℕ)
  | publish (t : ℕ)
  | popStart
  | popLookup
  | popCheck
  | popDelete
  | popClear
  | popNext

namespace QueueSys

/-! ## Where the indexes are -/

/-- The oldest index whose slot is still to be read. -/
def front (s : QueueSys g T) : ℕ :=
  match s.popping with
  | .deleted _ | .taken _ => s.queue.getIndex + 1
  | _ => s.queue.getIndex

/-- The oldest page whose entry is in use. -/
def frontPage (s : QueueSys g T) : ℕ :=
  match s.popping with
  | .taken _ => (s.queue.getIndex + 1) / g.pageMsgCount
  | _ => s.queue.getIndex / g.pageMsgCount

/-- A fetch-and-increment gives out an index whose page has an entry of its own. -/
def HasRoom (s : QueueSys g T) : QueueAct T → Prop
  | .reserve _ => s.queue.postIndex / g.pageMsgCount < s.frontPage + g.pageIndexCount
  | _ => True

variable {s s' : QueueSys g T} {q : SrtQueue g T} {t t' i j : ℕ} {pc : PushPc T}

theorem frontPage_le : s.frontPage ≤ s.front / g.pageMsgCount := by
  unfold frontPage front
  cases s.popping with
  | deleted msg => exact Nat.div_le_div_right (Nat.le_succ _)
  | idle | started | found _ | last _ _ | taken _ => exact le_refl _

theorem getIndex_le_front : s.queue.getIndex ≤ s.front := by
  unfold front
  cases s.popping with
  | deleted msg | taken msg => exact Nat.le_succ _
  | idle | started | found _ | last _ _ => exact le_refl _

def setPush (s : QueueSys g T) (t : ℕ) (pc : PushPc T) : QueueSys g T :=
  { s with pushing := Function.update s.pushing t pc }

@[simp] theorem setPush_self : (s.setPush t pc).pushing t = pc := Function.update_self ..

theorem setPush_of_ne (h : t' ≠ t) : (s.setPush t pc).pushing t' = s.pushing t' :=
  Function.update_of_ne h ..

theorem index?_setPush (s : QueueSys g T) (t : ℕ) (pc : PushPc T) (t' : ℕ) :
    ((s.setPush t pc).pushing t').index? =
      Function.update (fun t' => (s.pushing t').index?) t pc.index? t' := by
  by_cases h : t' = t <;> simp [setPush, h]

/-- What the consumer knows of the oldest index. -/
def PopOk (s : QueueSys g T) : Prop :=
  match s.popping with
  | .idle => True
  | .started => s.queue.getIndex < s.queue.postIndex
  | .found p => s.queue.getIndex < s.queue.postIndex ∧
      s.queue.pageIndexes.entry (g.pageIndex s.queue.getIndex) = some p
  | .last p msg => s.reserved[s.queue.getIndex]? = some msg ∧
      s.queue.pageIndexes.entry (g.pageIndex s.queue.getIndex) = some p ∧
      g.msgIndex s.queue.getIndex = g.pageMsgMask ∧
      ∀ t, (s.pushing t).index? ≠ some s.queue.getIndex
  | .deleted msg => s.reserved[s.queue.getIndex]? = some msg ∧
      g.msgIndex s.queue.getIndex = g.pageMsgMask ∧
      ∃ p, s.queue.pageIndexes.entry (g.pageIndex s.queue.getIndex) = some p ∧
        p ∈ s.queue.pageIndexes.freed
  | .taken msg => s.reserved[s.queue.getIndex]? = some msg

/-- The consumer's knowledge is not lost by what the producers do. -/
theorem popOk_of_entry {s s' : QueueSys g T} (hpopping : s'.popping = s.popping)
    (hget : s'.queue.getIndex = s.queue.getIndex)
    (hpost : s.queue.postIndex ≤ s'.queue.postIndex) (hr : s.reserved <+: s'.reserved)
    (hentry : ∀ e p, s.queue.pageIndexes.entry e = some p →
      s'.queue.pageIndexes.entry e = some p)
    (hfreed : s'.queue.pageIndexes.freed = s.queue.pageIndexes.freed)
    (hidx : ∀ t, (s'.pushing t).index? = some s.queue.getIndex →
      (s.pushing t).index? = some s.queue.getIndex ∨ s.queue.postIndex ≤ s.queue.getIndex)
    (hlen : s.reserved.length = s.queue.postIndex) (h : s.PopOk) : s'.PopOk := by
  have hmsg {i : ℕ} {msg : T} (hm : s.reserved[i]? = some msg) : s'.reserved[i]? = some msg := by
    obtain ⟨more, hmore⟩ := hr
    rw [← hmore, List.getElem?_append_left (List.getElem?_eq_some_iff.mp hm).1]
    exact hm
  unfold PopOk at h ⊢
  rw [hpopping, hget]
  cases hpc : s.popping with
  | idle => trivial
  | started =>
    simp only [hpc] at h
    exact h.trans_le hpost
  | found p =>
    simp only [hpc] at h
    exact ⟨h.1.trans_le hpost, hentry _ _ h.2⟩
  | last p msg =>
    simp only [hpc] at h
    obtain ⟨hm, hp, hlast, hnone⟩ := h
    refine ⟨hmsg hm, hentry _ _ hp, hlast, ?_⟩
    intro t ht
    rcases hidx t ht with hold | hle
    · exact hnone t hold
    · have hlt := (List.getElem?_eq_some_iff.mp hm).1
      omega
  | deleted msg =>
    simp only [hpc] at h
    obtain ⟨hm, hlast, p, hp, hmem⟩ := h
    exact ⟨hmsg hm, hlast, p, hentry _ _ hp, hfreed ▸ hmem⟩
  | taken msg =>
    simp only [hpc] at h
    exact hmsg h

/-! ## The steps -/

variable [Inhabited T]

def init (g : PageShape) : QueueSys g T where
  queue := .init g

/-- The rest of a step after an access to a page. -/
def access {α : Type*} (s : QueueSys g T) (r : Option α) (k : α → QueueSys g T) : QueueSys g T :=
  match r with
  | some a => k a
  | none => { s with fault := true }

def step (s : QueueSys g T) : QueueAct T → Option (QueueSys g T)
  | .test t msg =>
    match s.pushing t with
    | .idle => some (if s.queue.full then s else s.setPush t (.tested msg))
    | _ => none
  | .reserve t =>
    match s.pushing t with
    | .tested msg =>
      some { s.setPush t (.reserved s.queue.postIndex msg) with
        queue := s.queue.fetchAndInc
        reserved := s.reserved ++ [msg] }
    | _ => none
  | .lookup t =>
    match s.pushing t with
    | .reserved i msg =>
      let (queue, page) := s.queue.getMsgPage (g.pageIndex i)
      some { s.setPush t (.found i page msg) with queue := queue }
    | _ => none
  | .store t =>
    match s.pushing t with
    | .found i page msg => some <| s.access (s.queue.setMsg page i msg) fun queue =>
      { s.setPush t (.stored i page) with queue := queue }
    | _ => none
  | .publish t =>
    match s.pushing t with
    | .stored i page => some <| s.access (s.queue.setFlag page i) fun queue =>
      { s.setPush t .idle with queue := queue }
    | _ => none
  | .popStart =>
    match s.popping with
    | .idle =>
      some (if s.queue.postIndex ≤ s.queue.getIndex then s else { s with popping := .started })
    | _ => none
  | .popLookup =>
    match s.popping with
    | .started =>
      let (queue, page) := s.queue.getMsgPage (g.pageIndex s.queue.getIndex)
      some { s with queue := queue, popping := .found page }
    | _ => none
  | .popCheck =>
    match s.popping with
    | .found page => some <| s.access (s.queue.read page s.queue.getIndex) fun m =>
      if m.flag = 1 then
        if g.msgIndex s.queue.getIndex = g.pageMsgMask then
          { s with popping := .last page m.msg }
        else
          { s with popping := .taken m.msg }
      else
        { s with popping := .idle }
    | _ => none
  | .popDelete =>
    match s.popping with
    | .last page msg => some <| s.access (s.queue.deletePage page) fun queue =>
      { s with queue := queue, popping := .deleted msg }
    | _ => none
  | .popClear =>
    match s.popping with
    | .deleted msg =>
      some { s with
        queue := s.queue.clearPage (g.pageIndex s.queue.getIndex)
        popping := .taken msg }
    | _ => none
  | .popNext =>
    match s.popping with
    | .taken msg =>
      some { s with queue := s.queue.incGet, popping := .idle, popped := s.popped ++ [msg] }
    | _ => none

/-! ## What holds in every run with room -/

/-- What a producer knows of the index it has reserved. -/
def PushOk (q : SrtQueue g T) (reserved : List T) : PushPc T → Prop
  | .idle | .tested _ => True
  | .reserved i msg => reserved[i]? = some msg ∧ q.Blank i
  | .found i p msg => reserved[i]? = some msg ∧ q.Blank i ∧
      q.pageIndexes.entry (g.pageIndex i) = some p
  | .stored i p => ∃ msg, reserved[i]? = some msg ∧ q.slot i = some ⟨msg, 0⟩ ∧
      q.pageIndexes.entry (g.pageIndex i) = some p

/-- The entry whose page the consumer has deleted and not yet cleared. -/
def dangling (s : QueueSys g T) : Option ℕ :=
  match s.popping with
  | .deleted _ => some (g.pageIndex s.queue.getIndex)
  | _ => none

structure Inv (s : QueueSys g T) : Prop where
  fault : s.fault = false
  wf : s.queue.pageIndexes.WF
  live : ∀ e, s.dangling ≠ some e → s.queue.pageIndexes.Live e
  len : s.reserved.length = s.queue.postIndex
  front_le : s.front ≤ s.queue.postIndex
  room : s.queue.postIndex ≤ (s.frontPage + g.pageIndexCount) * g.pageMsgCount
  popped : s.popped = s.reserved.take s.queue.getIndex
  freed : s.queue.pageIndexes.freed.length = s.front / g.pageMsgCount
  distinct : ∀ t t' i, (s.pushing t).index? = some i → (s.pushing t').index? = some i → t = t'
  claimed : ∀ t i, (s.pushing t).index? = some i → s.front ≤ i ∧ i < s.queue.postIndex
  push : ∀ t, PushOk s.queue s.reserved (s.pushing t)
  pop : s.PopOk
  published : ∀ i msg, s.front ≤ i → s.reserved[i]? = some msg →
    (∀ t, (s.pushing t).index? ≠ some i) → s.queue.slot i = some ⟨msg, 1⟩
  blank : ∀ i, s.queue.postIndex ≤ i → g.InWindow s.frontPage i → s.queue.Blank i

theorem Inv.inWindow (hi : s.Inv) (hfront : s.front ≤ i) (hpost : i < s.queue.postIndex) :
    g.InWindow s.frontPage i := by
  constructor
  · exact frontPage_le.trans (Nat.div_le_div_right hfront)
  · exact (Nat.div_lt_iff_lt_mul PageShape.pageMsgCount_pos).mpr (hpost.trans_le hi.room)

/-- The page that the consumer has deleted is no page of an index still to be read. -/
theorem Inv.live_of_inWindow (hi : s.Inv) (hfront : s.front ≤ i)
    (hwin : g.InWindow s.frontPage i) : s.queue.pageIndexes.Live (g.pageIndex i) := by
  apply hi.live
  have hpop := hi.pop
  unfold dangling
  unfold PopOk at hpop
  unfold frontPage at hwin
  unfold front at hfront
  cases hpc : s.popping with
  | deleted msg =>
    simp only [hpc] at hpop hwin hfront
    intro heq
    have hget : g.InWindow (s.queue.getIndex / g.pageMsgCount) s.queue.getIndex :=
      ⟨le_refl _, Nat.lt_add_of_pos_right PageShape.pageIndexCount_pos⟩
    have hpage := hget.page_eq hwin (Option.some.inj heq)
    have hnext := PageShape.div_succ_of_last hpop.2.1
    have hle := Nat.div_le_div_right (c := g.pageMsgCount) hfront
    omega
  | idle | started | found _ | last _ _ | taken _ => nofun

theorem pushOk_of_keeps {q q' : SrtQueue g T} {r r' : List T}
    (hentry : ∀ i p, pc.index? = some i → q.pageIndexes.entry (g.pageIndex i) = some p →
      q'.pageIndexes.entry (g.pageIndex i) = some p)
    (hr : r <+: r') (hkeeps : ∀ i, pc.index? = some i → SrtQueue.Keeps q q' i)
    (h : PushOk q r pc) : PushOk q' r' pc := by
  have hget {i : ℕ} {msg : T} (hm : r[i]? = some msg) : r'[i]? = some msg := by
    obtain ⟨more, rfl⟩ := hr
    rw [List.getElem?_append_left (List.getElem?_eq_some_iff.mp hm).1]
    exact hm
  cases pc with
  | idle | tested _ => trivial
  | reserved i msg =>
    obtain ⟨hm, hblank⟩ := h
    exact ⟨hget hm, (hkeeps i rfl).blank hblank⟩
  | found i p msg =>
    obtain ⟨hm, hblank, hp⟩ := h
    exact ⟨hget hm, (hkeeps i rfl).blank hblank, hentry _ _ rfl hp⟩
  | stored i p =>
    obtain ⟨msg, hm, hslot, hp⟩ := h
    exact ⟨msg, hget hm, (hkeeps i rfl).slot_some hslot, hentry _ _ rfl hp⟩

theorem pushOk_of_index?_none {q : SrtQueue g T} {r : List T} (h : pc.index? = none) :
    PushOk q r pc := by
  cases pc with
  | idle | tested _ => trivial
  | reserved _ _ | found _ _ _ | stored _ _ => cases h

theorem Inv.setPush (hi : s.Inv) (hold : (s.pushing t).index? = none) (hnew : pc.index? = none) :
    (s.setPush t pc).Inv := by
  have hidx (t' : ℕ) : ((s.setPush t pc).pushing t').index? = (s.pushing t').index? := by
    rw [index?_setPush, Function.update_apply]
    split_ifs with htt
    · rw [hnew, htt, hold]
    · rfl
  refine ⟨hi.fault, hi.wf, hi.live, hi.len, hi.front_le, hi.room, hi.popped, hi.freed, ?_, ?_, ?_,
    ?_, ?_, hi.blank⟩
  · intro t₁ t₂ i h₁ h₂
    exact hi.distinct t₁ t₂ i ((hidx t₁).symm.trans h₁) ((hidx t₂).symm.trans h₂)
  · intro t' i ht'
    exact hi.claimed t' i ((hidx t').symm.trans ht')
  · intro t'
    by_cases htt : t' = t
    · subst htt
      simpa [QueueSys.setPush] using pushOk_of_index?_none hnew
    · simpa [QueueSys.setPush, htt] using hi.push t'
  · exact popOk_of_entry (s := s) rfl rfl le_rfl List.prefix_rfl (fun _ _ h => h) rfl
      (fun t' ht' => Or.inl ((hidx t').symm.trans ht')) hi.len hi.pop
  · intro i msg hfront hm hnone
    exact hi.published i msg hfront hm fun t' ht' => hnone t' ((hidx t').trans ht')

theorem Inv.drawn (hi : s.Inv) : Drawn (fun t => (s.pushing t).index?) s.queue.postIndex :=
  ⟨hi.distinct, fun t i ht => (hi.claimed t i ht).2⟩

theorem Inv.write (hi : s.Inv) (hidx : (s.pushing t).index? = some i)
    (hq : SrtQueue.PageStep s.queue q)
    (hkeeps : ∀ j, g.InWindow s.frontPage j → j ≠ i → SrtQueue.Keeps s.queue q j)
    (hpc : PushOk q s.reserved pc)
    (hnew : pc.index? = some i ∨ pc.index? = none ∧
      ∀ msg, s.reserved[i]? = some msg → q.slot i = some ⟨msg, 1⟩) :
    Inv { s.setPush t pc with queue := q } := by
  have hkeep : pc.index? = (s.pushing t).index? ∨ pc.index? = none :=
    hnew.imp (·.trans hidx.symm) And.left
  have hdrawn : Drawn (fun t' => ((s.setPush t pc).pushing t').index?) s.queue.postIndex := by
    rw [funext (index?_setPush s t pc)]
    exact hi.drawn.keep hkeep
  have hsub (t' j : ℕ) (ht' : ((s.setPush t pc).pushing t').index? = some j) :
      (s.pushing t').index? = some j := by
    rw [index?_setPush] at ht'
    have hold := held_of_update ht' hkeep
    exact hold
  have hfront : ({ s.setPush t pc with queue := q } : QueueSys g T).front = s.front := by
    unfold front
    dsimp only [QueueSys.setPush]
    rw [hq.get]
  have hpage : ({ s.setPush t pc with queue := q } : QueueSys g T).frontPage = s.frontPage := by
    unfold frontPage
    dsimp only [QueueSys.setPush]
    rw [hq.get]
  refine ⟨hi.fault, hq.wf, ?_, hi.len.trans hq.post.symm, ?_, ?_, ?_, ?_, ?_, ?_, ?_, ?_, ?_, ?_⟩
  · intro e he
    apply hq.live e
    apply hi.live
    unfold dangling at he ⊢
    dsimp only [QueueSys.setPush] at he
    rwa [hq.get] at he
  · rw [hfront]
    exact hi.front_le.trans_eq hq.post.symm
  · rw [hpage]
    exact hq.post.trans_le hi.room
  · exact hi.popped.trans (by rw [← hq.get]; rfl)
  · rw [hfront, ← hi.freed, ← hq.freed]
  · exact hdrawn.distinct
  · intro t' j ht'
    rw [hfront]
    exact ⟨(hi.claimed t' j (hsub t' j ht')).1, (hdrawn.lt t' j ht').trans_eq hq.post.symm⟩
  · intro t'
    by_cases htt : t' = t
    · subst htt
      simpa [QueueSys.setPush] using hpc
    · have hold := hi.push t'
      have hkept : PushOk q s.reserved (s.pushing t') := by
        refine pushOk_of_keeps (fun _ p _ hp => hq.entry _ p hp) List.prefix_rfl ?_ hold
        intro j hj
        have hclaim := hi.claimed t' j hj
        refine hkeeps j (hi.inWindow hclaim.1 hclaim.2) ?_
        rintro rfl
        exact htt (hi.distinct t' t j hj hidx)
      simpa [QueueSys.setPush, htt] using hkept
  · exact popOk_of_entry (s := s) rfl hq.get hq.post.ge List.prefix_rfl hq.entry hq.freed
      (fun t' ht' => Or.inl (hsub t' _ ht')) hi.len hi.pop
  · intro j msg hj hm hnone
    rw [hfront] at hj
    by_cases hji : j = i
    · subst hji
      rcases hnew with hnew | ⟨-, hslot⟩
      · exact absurd ((congrArg PushPc.index? setPush_self).trans hnew) (hnone t)
      · exact hslot msg hm
    · have hlt : j < s.queue.postIndex := hi.len ▸ (List.getElem?_eq_some_iff.mp hm).1
      refine (hkeeps j (hi.inWindow hj hlt) hji).slot_some (hi.published j msg hj hm ?_)
      apply unheld_of_update (t := t) (o := pc.index?)
      · rw [hidx]
        exact fun h => hji (Option.some.inj h).symm
      · intro t' ht'
        exact hnone t' ((index?_setPush s t pc t').trans ht')
  · intro j hj hwin
    rw [hpage] at hwin
    have hlt := (hi.claimed t i hidx).2
    have hj' : s.queue.postIndex ≤ j := hq.post.symm.trans_le hj
    exact (hkeeps j hwin (by omega)).blank (hi.blank j hj' hwin)

theorem Inv.popStep (hi : s.Inv) {pc : PopPc T} (hq : SrtQueue.PageStep s.queue q)
    (hkeeps : ∀ j, SrtQueue.Keeps s.queue q j)
    (hfront : ({ s with queue := q, popping := pc } : QueueSys g T).front = s.front)
    (hpage : ({ s with queue := q, popping := pc } : QueueSys g T).frontPage = s.frontPage)
    (hdang : ({ s with queue := q, popping := pc } : QueueSys g T).dangling = s.dangling)
    (hpop : ({ s with queue := q, popping := pc } : QueueSys g T).PopOk) :
    Inv { s with queue := q, popping := pc } where
  fault := hi.fault
  wf := hq.wf
  live := fun e he => hq.live e (hi.live e (hdang ▸ he))
  len := hi.len.trans hq.post.symm
  front_le := hfront.trans_le (hi.front_le.trans_eq hq.post.symm)
  room := by
    rw [hpage]
    exact hq.post.trans_le hi.room
  popped := hi.popped.trans (by rw [← hq.get])
  freed := by rw [hfront, ← hi.freed, ← hq.freed]
  distinct := hi.distinct
  claimed := by
    intro t i ht
    rw [hfront]
    exact ⟨(hi.claimed t i ht).1, (hi.claimed t i ht).2.trans_eq hq.post.symm⟩
  push := fun t => pushOk_of_keeps (fun _ p _ hp => hq.entry _ p hp) List.prefix_rfl
    (fun j _ => hkeeps j) (hi.push t)
  pop := hpop
  published := by
    intro i msg hle hm hnone
    rw [hfront] at hle
    exact (hkeeps i).slot_some (hi.published i msg hle hm hnone)
  blank := by
    intro i hpost hwin
    rw [hpage] at hwin
    exact (hkeeps i).blank (hi.blank i (hq.post.symm.trans_le hpost) hwin)

theorem Inv.reserve {msg : T} (hi : s.Inv) (hpc : s.pushing t = .tested msg)
    (hroom : s.queue.postIndex / g.pageMsgCount < s.frontPage + g.pageIndexCount) :
    Inv { s.setPush t (.reserved s.queue.postIndex msg) with
      queue := s.queue.fetchAndInc, reserved := s.reserved ++ [msg] } := by
  have hidx := index?_setPush s t (.reserved s.queue.postIndex msg)
  have hdrawn : Drawn
      (fun t' => ((s.setPush t (.reserved s.queue.postIndex msg)).pushing t').index?)
      (s.queue.postIndex + 1) := by
    rw [funext hidx]
    exact hi.drawn.draw t
  refine ⟨hi.fault, hi.wf, hi.live, ?_, hi.front_le.trans (Nat.le_succ _), ?_, ?_, hi.freed,
    hdrawn.distinct, ?_, ?_, ?_, ?_, ?_⟩
  · simp [SrtQueue.fetchAndInc, hi.len]
  · exact (Nat.div_lt_iff_lt_mul PageShape.pageMsgCount_pos).mp hroom
  · refine hi.popped.trans (List.take_append_of_le_length ?_).symm
    exact hi.len ▸ getIndex_le_front.trans hi.front_le
  · intro t' i ht'
    refine ⟨?_, hdrawn.lt t' i ht'⟩
    rcases update_eq_some ((hidx t').symm.trans ht') with ⟨-, hpost⟩ | ⟨-, hold⟩
    · exact Option.some.inj hpost ▸ hi.front_le
    · exact (hi.claimed t' i hold).1
  · intro t'
    by_cases htt : t' = t
    · subst htt
      have hnew : PushOk s.queue.fetchAndInc (s.reserved ++ [msg])
          (.reserved s.queue.postIndex msg) :=
        ⟨by simp [← hi.len], hi.blank _ le_rfl
          ⟨frontPage_le.trans (Nat.div_le_div_right hi.front_le), hroom⟩⟩
      simpa [QueueSys.setPush] using hnew
    · have hold : PushOk s.queue.fetchAndInc (s.reserved ++ [msg]) (s.pushing t') :=
        pushOk_of_keeps (q := s.queue) (fun _ _ _ h => h) (List.prefix_append _ _)
          (fun _ _ => Or.inl rfl) (hi.push t')
      simpa [QueueSys.setPush, htt] using hold
  · refine popOk_of_entry (s := s) rfl rfl (Nat.le_succ _) (List.prefix_append _ _)
      (fun _ _ h => h) rfl ?_ hi.len hi.pop
    intro t' ht'
    rcases update_eq_some ((hidx t').symm.trans ht') with ⟨-, hpost⟩ | ⟨-, hold⟩
    · exact Or.inr (Option.some.inj hpost).le
    · exact Or.inl hold
  · intro i m hfront hm hnone
    have hne : i ≠ s.reserved.length := by
      rw [hi.len]
      rintro rfl
      exact hnone t (congrArg PushPc.index? setPush_self)
    refine hi.published i m hfront ((getElem?_concat_of_ne hne).symm.trans hm) ?_
    apply unheld_of_update (t := t) (o := some s.queue.postIndex)
    · rw [hpc]
      nofun
    · intro t' ht'
      exact hnone t' ((hidx t').trans ht')
  · intro i hpost hwin
    exact hi.blank i (Nat.le_of_succ_le hpost) hwin

theorem Inv.init : (QueueSys.init g : QueueSys g T).Inv := by
  have hblank (i : ℕ) : (SrtQueue.init g : SrtQueue g T).Blank i := by
    have hkeeps := SrtQueue.keeps_getMsgPage (q := ({ pageIndexes := {} } : SrtQueue g T)) (e := 0)
      PageTable.WF.empty nofun i
    exact hkeeps.blank nofun
  refine ⟨rfl, PageTable.WF.empty.getPage, ?_, rfl, le_rfl, Nat.zero_le _, rfl, ?_, nofun, nofun,
    fun _ => trivial, trivial, nofun, fun i _ _ => hblank i⟩
  · intro e _
    exact PageTable.Live.getPage PageTable.WF.empty nofun
  · exact (congrArg List.length PageTable.freed_getPage).trans (Nat.zero_div _).symm

theorem Inv.lookup {msg : T} (hi : s.Inv) (hpc : s.pushing t = .reserved i msg) :
    Inv { s.setPush t (.found i (s.queue.getMsgPage (g.pageIndex i)).2 msg) with
      queue := (s.queue.getMsgPage (g.pageIndex i)).1 } := by
  have hidx : (s.pushing t).index? = some i := by rw [hpc]; rfl
  have hclaim := hi.claimed t i hidx
  have hlive := hi.live_of_inWindow hclaim.1 (hi.inWindow hclaim.1 hclaim.2)
  have hpush := hi.push t
  rw [hpc] at hpush
  obtain ⟨hm, hblank⟩ := hpush
  have hkeeps (j : ℕ) := SrtQueue.keeps_getMsgPage hi.wf hlive j
  exact hi.write hidx (SrtQueue.pageStep_getMsgPage hi.wf) (fun j _ _ => hkeeps j)
    ⟨hm, (hkeeps i).blank hblank, SrtQueue.entry_getMsgPage⟩ (Or.inl rfl)

theorem Inv.store {msg : T} {page : ℕ} (hi : s.Inv) (hpc : s.pushing t = .found i page msg) :
    ∃ q, s.queue.setMsg page i msg = some q ∧
      Inv { s.setPush t (.stored i page) with queue := q } := by
  have hidx : (s.pushing t).index? = some i := by rw [hpc]; rfl
  have hclaim := hi.claimed t i hidx
  have hwin := hi.inWindow hclaim.1 hclaim.2
  have hlive := hi.live_of_inWindow hclaim.1 hwin
  have hpush := hi.push t
  rw [hpc] at hpush
  obtain ⟨hm, hblank, hentry⟩ := hpush
  obtain ⟨q, hq, hstep, hslot, hkeeps⟩ := SrtQueue.modify_eq hi.wf hentry hlive hwin
    fun m => { m with msg := msg }
  obtain ⟨m, hold⟩ := Option.isSome_iff_exists.mp (SrtQueue.slot_isSome hentry hlive)
  obtain rfl := hblank m hold
  refine ⟨q, hq, hi.write hidx hstep hkeeps ⟨msg, hm, ?_, hstep.entry _ _ hentry⟩ (Or.inl rfl)⟩
  rw [hslot, hold]
  rfl

theorem Inv.publish {page : ℕ} (hi : s.Inv) (hpc : s.pushing t = .stored i page) :
    ∃ q, s.queue.setFlag page i = some q ∧ Inv { s.setPush t .idle with queue := q } := by
  have hidx : (s.pushing t).index? = some i := by rw [hpc]; rfl
  have hclaim := hi.claimed t i hidx
  have hwin := hi.inWindow hclaim.1 hclaim.2
  have hlive := hi.live_of_inWindow hclaim.1 hwin
  have hpush := hi.push t
  rw [hpc] at hpush
  obtain ⟨msg, hm, hold, hentry⟩ := hpush
  obtain ⟨q, hq, hstep, hslot, hkeeps⟩ := SrtQueue.modify_eq hi.wf hentry hlive hwin
    fun m => { m with flag := 1 }
  refine ⟨q, hq, hi.write hidx hstep hkeeps trivial (Or.inr ⟨rfl, ?_⟩)⟩
  intro msg' hm'
  obtain rfl := Option.some.inj (hm.symm.trans hm')
  rw [hslot, hold]
  rfl

/-! ### The steps of `pop` -/

theorem Inv.popLookup (hi : s.Inv) (hpc : s.popping = .started) :
    Inv { s with
      queue := (s.queue.getMsgPage (g.pageIndex s.queue.getIndex)).1
      popping := .found (s.queue.getMsgPage (g.pageIndex s.queue.getIndex)).2 } := by
  have hpop := hi.pop
  unfold PopOk at hpop
  simp only [hpc] at hpop
  have hdang : s.dangling = none := by simp only [dangling, hpc]
  have hlive : s.queue.pageIndexes.Live (g.pageIndex s.queue.getIndex) :=
    hi.live _ (by rw [hdang]; nofun)
  have hstep := SrtQueue.pageStep_getMsgPage (e := g.pageIndex s.queue.getIndex) hi.wf
  refine hi.popStep hstep (SrtQueue.keeps_getMsgPage hi.wf hlive) ?_ ?_ ?_ ?_
  · simp only [front, hpc, hstep.get]
  · simp only [frontPage, hpc, hstep.get]
  · exact hdang.symm
  · exact ⟨hpop, SrtQueue.entry_getMsgPage⟩

/-- The consumer finds the flag set exactly when the producer of the oldest index is through. -/
theorem Inv.read_front {page : ℕ} (hi : s.Inv) (hpc : s.popping = .found page) :
    ∃ m, s.queue.read page s.queue.getIndex = some m ∧
      ((m.flag ≠ 1 ∧ ∃ t, (s.pushing t).index? = some s.queue.getIndex) ∨
        (m.flag = 1 ∧ s.reserved[s.queue.getIndex]? = some m.msg ∧
          ∀ t, (s.pushing t).index? ≠ some s.queue.getIndex)) := by
  have hpop := hi.pop
  unfold PopOk at hpop
  simp only [hpc] at hpop
  obtain ⟨hlt, hentry⟩ := hpop
  have hdang : s.dangling = none := by simp only [dangling, hpc]
  have hfront : s.front = s.queue.getIndex := by simp only [front, hpc]
  have hlive : s.queue.pageIndexes.Live (g.pageIndex s.queue.getIndex) :=
    hi.live _ (by rw [hdang]; nofun)
  obtain ⟨m, hm⟩ := Option.isSome_iff_exists.mp (SrtQueue.slot_isSome hentry hlive)
  refine ⟨m, (SrtQueue.read_eq_slot hentry).trans hm, ?_⟩
  by_cases hheld : ∃ t, (s.pushing t).index? = some s.queue.getIndex
  · obtain ⟨t, ht⟩ := hheld
    refine Or.inl ⟨?_, t, ht⟩
    have hpush := hi.push t
    cases hpush' : s.pushing t with
    | idle | tested _ =>
      rw [hpush'] at ht
      cases ht
    | reserved i msg =>
      rw [hpush'] at hpush ht
      obtain rfl : i = s.queue.getIndex := Option.some.inj ht
      rw [hpush.2 m hm]
      exact Nat.zero_ne_one
    | found i p msg =>
      rw [hpush'] at hpush ht
      obtain rfl : i = s.queue.getIndex := Option.some.inj ht
      rw [hpush.2.1 m hm]
      exact Nat.zero_ne_one
    | stored i p =>
      rw [hpush'] at hpush ht
      obtain rfl : i = s.queue.getIndex := Option.some.inj ht
      obtain ⟨msg, -, hslot, -⟩ := hpush
      rw [← Option.some.inj (hslot.symm.trans hm)]
      exact Nat.zero_ne_one
  · have hnone (t : ℕ) : (s.pushing t).index? ≠ some s.queue.getIndex := fun ht => hheld ⟨t, ht⟩
    have hlen : s.queue.getIndex < s.reserved.length := hi.len ▸ hlt
    have hmsg := List.getElem?_eq_getElem hlen
    have hslot := hi.published _ _ hfront.le hmsg hnone
    obtain rfl := Option.some.inj (hslot.symm.trans hm)
    exact Or.inr ⟨rfl, hmsg, hnone⟩

theorem Inv.take {page : ℕ} {msg : T} (hi : s.Inv) (hpc : s.popping = .found page)
    (hmsg : s.reserved[s.queue.getIndex]? = some msg)
    (hnone : ∀ t, (s.pushing t).index? ≠ some s.queue.getIndex)
    (hlast : g.msgIndex s.queue.getIndex ≠ g.pageMsgMask) :
    Inv { s with popping := .taken msg } := by
  have hpop := hi.pop
  unfold PopOk at hpop
  simp only [hpc] at hpop
  have hfront : s.front = s.queue.getIndex := by simp only [front, hpc]
  have hpage : s.frontPage = (s.queue.getIndex + 1) / g.pageMsgCount := by
    simp only [frontPage, hpc, PageShape.div_succ_of_not_last hlast]
  have hdang : s.dangling = none := by simp only [dangling, hpc]
  refine ⟨hi.fault, hi.wf, fun e _ => hi.live e (by rw [hdang]; nofun), hi.len, hpop.1, ?_,
    hi.popped, ?_, hi.distinct, ?_, hi.push, hmsg, ?_, ?_⟩
  · exact hi.room.trans_eq (by rw [hpage]; rfl)
  · refine hi.freed.trans ?_
    rw [hfront]
    exact (PageShape.div_succ_of_not_last hlast).symm
  · intro t i ht
    have hclaim := hi.claimed t i ht
    have hne : i ≠ s.queue.getIndex := by
      rintro rfl
      exact hnone t ht
    rw [hfront] at hclaim
    exact ⟨Nat.lt_of_le_of_ne hclaim.1 (Ne.symm hne), hclaim.2⟩
  · intro i m hle hm hno
    exact hi.published i m (hfront ▸ Nat.le_of_succ_le hle) hm hno
  · intro i hpost hwin
    exact hi.blank i hpost (by rw [hpage]; exact hwin)

/-- The page of the last message taken holds no other index. -/
theorem Inv.delete {page : ℕ} {msg : T} (hi : s.Inv) (hpc : s.popping = .last page msg) :
    ∃ q, s.queue.deletePage page = some q ∧ Inv { s with queue := q, popping := .deleted msg } := by
  have hpop := hi.pop
  unfold PopOk at hpop
  simp only [hpc] at hpop
  obtain ⟨hmsg, hentry, hlast, hnone⟩ := hpop
  have hfront : s.front = s.queue.getIndex := by simp only [front, hpc]
  have hpage : s.frontPage = s.queue.getIndex / g.pageMsgCount := by simp only [frontPage, hpc]
  have hdang : s.dangling = none := by simp only [dangling, hpc]
  have hlive (e : ℕ) : s.queue.pageIndexes.Live e := hi.live e (by rw [hdang]; nofun)
  have hlt : s.queue.getIndex < s.queue.postIndex :=
    hi.len ▸ (List.getElem?_eq_some_iff.mp hmsg).1
  obtain ⟨q, hq, hpost, hget, hwf, hent, hfreed, hlive', hslot⟩ :=
    SrtQueue.deletePage_eq hi.wf hentry (hlive _)
  have hnext := PageShape.div_succ_of_last hlast
  -- an index of the window on another page keeps its slot
  have hother {i : ℕ} (hle : s.queue.getIndex + 1 ≤ i) (hwin : g.InWindow s.frontPage i) :
      SrtQueue.Keeps s.queue q i := by
    refine Or.inl (hslot i ?_)
    intro heq
    have hgetWin : g.InWindow s.frontPage s.queue.getIndex :=
      hi.inWindow hfront.le hlt
    have hpages := hwin.page_eq hgetWin heq
    have hge := Nat.div_le_div_right (c := g.pageMsgCount) hle
    omega
  have hclaim {t i : ℕ} (ht : (s.pushing t).index? = some i) : s.queue.getIndex + 1 ≤ i := by
    have hle := (hi.claimed t i ht).1
    rw [hfront] at hle
    refine Nat.lt_of_le_of_ne hle ?_
    rintro rfl
    exact hnone t ht
  refine ⟨q, hq, hi.fault, hwf, ?_, hi.len.trans hpost.symm, ?_, ?_, ?_, ?_, hi.distinct, ?_, ?_, ?_,
    ?_, ?_⟩
  · intro e he
    refine hlive' e ?_ (hlive e)
    rintro rfl
    exact he (by simp only [dangling, hget])
  · simp only [front, hget, hpost]
    exact hlt
  · simp only [frontPage, hget, hpost]
    exact hpage ▸ hi.room
  · exact hi.popped.trans (by rw [← hget])
  · have hold := hi.freed
    rw [hfront] at hold
    simp only [front, hget, hfreed, List.length_append, List.length_singleton, hnext, hold]
  · intro t i ht
    simp only [front, hget, hpost]
    exact ⟨hclaim ht, (hi.claimed t i ht).2⟩
  · intro t
    refine pushOk_of_keeps (fun i p _ hp => (congrFun hent _).trans hp) List.prefix_rfl ?_
      (hi.push t)
    intro i ht
    exact hother (hclaim ht) (hi.inWindow (hi.claimed t i ht).1 (hi.claimed t i ht).2)
  · simp only [PopOk, hget, hent, hfreed]
    exact ⟨hmsg, hlast, page, hentry, by simp⟩
  · intro i m hle hm hno
    simp only [front, hget] at hle
    have hfront' : s.front ≤ i := hfront ▸ Nat.le_of_succ_le hle
    have hlen : i < s.queue.postIndex := hi.len ▸ (List.getElem?_eq_some_iff.mp hm).1
    exact (hother hle (hi.inWindow hfront' hlen)).slot_some (hi.published i m hfront' hm hno)
  · intro i hle hwin
    have hle' : s.queue.postIndex ≤ i := hpost.symm.trans_le hle
    have hwin' : g.InWindow s.frontPage i := by
      simp only [frontPage, hget] at hwin
      exact hpage ▸ hwin
    exact (hother (Nat.lt_of_lt_of_le hlt hle') hwin').blank (hi.blank i hle' hwin')

/-- Clearing the entry makes room for one page more. -/
theorem Inv.clear {msg : T} (hi : s.Inv) (hpc : s.popping = .deleted msg) :
    Inv { s with
      queue := s.queue.clearPage (g.pageIndex s.queue.getIndex), popping := .taken msg } := by
  have hpop := hi.pop
  unfold PopOk at hpop
  simp only [hpc] at hpop
  obtain ⟨hmsg, hlast, p, hp, hmem⟩ := hpop
  have hfront : s.front = s.queue.getIndex + 1 := by simp only [front, hpc]
  have hpage : s.frontPage = s.queue.getIndex / g.pageMsgCount := by simp only [frontPage, hpc]
  have hnext := PageShape.div_succ_of_last hlast
  have hget : g.InWindow s.frontPage s.queue.getIndex :=
    hpage ▸ ⟨le_refl _, Nat.lt_add_of_pos_right PageShape.pageIndexCount_pos⟩
  have hdead : ∀ p', s.queue.pageIndexes.entry (g.pageIndex s.queue.getIndex) = some p' →
      s.queue.pageIndexes.page p' = none := by
    intro p' hp'
    obtain rfl := Option.some.inj (hp.symm.trans hp')
    exact hi.wf.freed p hmem
  have hother {i : ℕ} (hle : s.front ≤ i) (hwin : g.InWindow s.frontPage i) :
      g.pageIndex i ≠ g.pageIndex s.queue.getIndex := by
    intro heq
    have hpages := hwin.page_eq hget heq
    have hge := Nat.div_le_div_right (c := g.pageMsgCount) hle
    rw [hfront] at hge
    omega
  have hslot {i : ℕ} (hle : s.front ≤ i) (hwin : g.InWindow s.frontPage i) :
      (s.queue.clearPage (g.pageIndex s.queue.getIndex)).slot i = s.queue.slot i :=
    SrtQueue.slot_clearPage_ne (hother hle hwin)
  have hle := hi.front_le
  have hclaim := hi.claimed
  rw [hfront] at hle hclaim
  refine ⟨hi.fault, hi.wf.clear hdead, ?_, hi.len, hle, ?_, hi.popped,
    hi.freed.trans (by rw [hfront]; rfl), hi.distinct, hclaim, ?_, hmsg, ?_, ?_⟩
  · intro e _
    by_cases he : e = g.pageIndex s.queue.getIndex
    · exact he ▸ PageTable.live_clear
    · refine PageTable.Live.clear (hi.live e ?_)
      simp only [dangling, hpc]
      exact fun heq => he (Option.some.inj heq).symm
  · refine hi.room.trans ?_
    rw [hpage]
    exact Nat.mul_le_mul_right _ (Nat.add_le_add_right (Nat.div_le_div_right (Nat.le_succ _)) _)
  · intro t
    refine pushOk_of_keeps ?_ List.prefix_rfl ?_ (hi.push t)
    · intro i p' hidx hp'
      have hold := hi.claimed t i hidx
      exact (PageTable.entry_clear_ne (hother hold.1 (hi.inWindow hold.1 hold.2))).trans hp'
    · intro i hidx
      have hold := hi.claimed t i hidx
      exact Or.inl (hslot hold.1 (hi.inWindow hold.1 hold.2))
  · intro i m hle hm hno
    have hle' : s.front ≤ i := hfront ▸ hle
    have hlen : i < s.queue.postIndex := hi.len ▸ (List.getElem?_eq_some_iff.mp hm).1
    exact (hslot hle' (hi.inWindow hle' hlen)).trans (hi.published i m hle' hm hno)
  · intro i hle hwin
    -- the page that joins the window is the one whose entry was cleared
    by_cases he : g.pageIndex i = g.pageIndex s.queue.getIndex
    · exact SrtQueue.blank_clearPage he
    · have hle' : s.front ≤ i := hi.front_le.trans hle
      have hwin' : g.InWindow s.frontPage i := by
        have hne : i / g.pageMsgCount ≠ s.queue.getIndex / g.pageMsgCount + g.pageIndexCount := by
          intro heq
          apply he
          rw [PageShape.pageIndex_eq, PageShape.pageIndex_eq, heq, Nat.add_mod_right]
        have hlo := hwin.1
        have hhi := hwin.2
        simp only [frontPage, SrtQueue.clearPage, hnext] at hlo hhi
        rw [hpage]
        exact ⟨Nat.le_of_succ_le hlo, by omega⟩
      intro m hm
      exact hi.blank i hle hwin' m ((hslot hle' hwin').symm.trans hm)

theorem Inv.next {msg : T} (hi : s.Inv) (hpc : s.popping = .taken msg) :
    Inv { s with queue := s.queue.incGet, popping := .idle, popped := s.popped ++ [msg] } := by
  have hmsg := hi.pop
  unfold PopOk at hmsg
  simp only [hpc] at hmsg
  have hfront : s.front = s.queue.getIndex + 1 := by simp only [front, hpc]
  have hpage : s.frontPage = (s.queue.getIndex + 1) / g.pageMsgCount := by
    simp only [frontPage, hpc]
  have hdang : s.dangling = none := by simp only [dangling, hpc]
  have hle := hi.front_le
  have hfreed := hi.freed
  have hclaim := hi.claimed
  have hpub := hi.published
  have hroom := hi.room
  have hblank := hi.blank
  rw [hfront] at hle hfreed hclaim hpub
  rw [hpage] at hroom hblank
  refine ⟨hi.fault, hi.wf, fun e _ => hi.live e (by rw [hdang]; nofun), hi.len, hle, hroom, ?_,
    hfreed, hi.distinct, hclaim, hi.push, trivial, hpub, hblank⟩
  refine (congrArg (· ++ [msg]) hi.popped).trans ?_
  simp [SrtQueue.incGet, List.take_add_one, hmsg]

theorem Inv.setPop (hi : s.Inv) {pc : PopPc T}
    (hfront : ({ s with popping := pc } : QueueSys g T).front = s.front)
    (hpage : ({ s with popping := pc } : QueueSys g T).frontPage = s.frontPage)
    (hdang : ({ s with popping := pc } : QueueSys g T).dangling = s.dangling)
    (hpop : ({ s with popping := pc } : QueueSys g T).PopOk) : Inv { s with popping := pc } :=
  hi.popStep ⟨rfl, rfl, hi.wf, rfl, fun _ h => h, fun _ _ h => h⟩ (fun _ => Or.inl rfl) hfront hpage
    hdang hpop

theorem Inv.check {page : ℕ} (hi : s.Inv) (hpc : s.popping = .found page) :
    ∃ pc, step s .popCheck = some { s with popping := pc } ∧ Inv { s with popping := pc } ∧
      ((pc = .idle ∧ ∃ t, (s.pushing t).index? = some s.queue.getIndex) ∨
        ∃ msg, s.reserved[s.queue.getIndex]? = some msg ∧ (pc = .last page msg ∨ pc = .taken msg)) := by
  have hpop := hi.pop
  unfold PopOk at hpop
  simp only [hpc] at hpop
  obtain ⟨m, hread, ⟨hflag, hheld⟩ | ⟨hflag, hmsg, hnone⟩⟩ := hi.read_front hpc
  · refine ⟨.idle, ?_, ?_, Or.inl ⟨rfl, hheld⟩⟩
    · simp only [step, hpc, access, hread, if_neg hflag]
    · exact hi.setPop (by simp only [front, hpc]) (by simp only [frontPage, hpc])
        (by simp only [dangling, hpc]) trivial
  · by_cases hlast : g.msgIndex s.queue.getIndex = g.pageMsgMask
    · refine ⟨.last page m.msg, ?_, ?_, Or.inr ⟨m.msg, hmsg, Or.inl rfl⟩⟩
      · simp only [step, hpc, access, hread, if_pos hflag, if_pos hlast]
      · exact hi.setPop (by simp only [front, hpc]) (by simp only [frontPage, hpc])
          (by simp only [dangling, hpc]) ⟨hmsg, hpop.2, hlast, hnone⟩
    · refine ⟨.taken m.msg, ?_, hi.take hpc hmsg hnone hlast, Or.inr ⟨m.msg, hmsg, Or.inr rfl⟩⟩
      simp only [step, hpc, access, hread, if_pos hflag, if_neg hlast]

/-! ### Every step -/

/-- A step that has room for what it reserves keeps the invariant. -/
theorem Inv.keep {a : QueueAct T} (hi : s.Inv) (hroom : s.HasRoom a)
    (h : step s a = some s') : s'.Inv := by
  cases a with
  | test t msg =>
    unfold step at h
    cases hpc : s.pushing t <;> simp only [hpc] at h <;> try cases h
    split_ifs with hfull
    · exact hi
    · exact hi.setPush (by rw [hpc]; rfl) rfl
  | reserve t =>
    unfold step at h
    cases hpc : s.pushing t <;> simp only [hpc] at h <;> cases h
    exact hi.reserve hpc hroom
  | lookup t =>
    unfold step at h
    cases hpc : s.pushing t <;> simp only [hpc] at h <;> cases h
    exact hi.lookup hpc
  | store t =>
    unfold step at h
    cases hpc : s.pushing t <;> simp only [hpc] at h <;> cases h
    obtain ⟨q, hq, hi'⟩ := hi.store hpc
    rw [hq]
    exact hi'
  | publish t =>
    unfold step at h
    cases hpc : s.pushing t <;> simp only [hpc] at h <;> cases h
    obtain ⟨q, hq, hi'⟩ := hi.publish hpc
    rw [hq]
    exact hi'
  | popStart =>
    unfold step at h
    cases hpc : s.popping <;> simp only [hpc] at h <;> cases h
    split_ifs with hempty
    · exact hi
    · exact hi.setPop (by simp only [front, hpc]) (by simp only [frontPage, hpc])
        (by simp only [dangling, hpc]) (Nat.lt_of_not_le hempty)
  | popLookup =>
    unfold step at h
    cases hpc : s.popping <;> simp only [hpc] at h <;> cases h
    exact hi.popLookup hpc
  | popCheck =>
    cases hpc : s.popping with
    | found page =>
      obtain ⟨pc, hstep, hi', -⟩ := hi.check hpc
      obtain rfl := Option.some.inj (hstep.symm.trans h)
      exact hi'
    | idle | started | last _ _ | deleted _ | taken _ => simp [step, hpc] at h
  | popDelete =>
    unfold step at h
    cases hpc : s.popping <;> simp only [hpc] at h <;> cases h
    obtain ⟨q, hq, hi'⟩ := hi.delete hpc
    rw [hq]
    exact hi'
  | popClear =>
    unfold step at h
    cases hpc : s.popping <;> simp only [hpc] at h <;> cases h
    exact hi.clear hpc
  | popNext =>
    unfold step at h
    cases hpc : s.popping <;> simp only [hpc] at h <;> cases h
    exact hi.next hpc

end QueueSys
end TcpLib
