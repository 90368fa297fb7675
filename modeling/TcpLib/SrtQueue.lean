import TcpLib.Lib.PageTable
import TcpLib.Lib.CircularBuffer
import Mathlib.Data.Nat.Bitwise

/-!
# The queue between the threads

`srt_queue` of `mqueue.h`: two indexes that only grow, and a table of pages that a slot is found
in by masking its index twice. The operations are given by the accesses that `push` and `pop` are
made of. An access to a page that was freed has no result. `default` is the zeroed message.
-/

namespace TcpLib
variable {T : Type*}

structure SrtMessage (T : Type*) where
  msg : T
  flag : ℕ
  deriving DecidableEq

/-- The fields that the constructor sets and nothing changes. -/
structure PageShape where
  pageMsgBits : ℕ
  pageIndexBits : ℕ

namespace PageShape

def pageMsgCount (g : PageShape) : ℕ := 1 <<< g.pageMsgBits

def pageMsgMask (g : PageShape) : ℕ := g.pageMsgCount - 1

def pageIndexCount (g : PageShape) : ℕ := 1 <<< g.pageIndexBits

def pageIndexMask (g : PageShape) : ℕ := g.pageIndexCount - 1

def pageIndex (g : PageShape) (index : ℕ) : ℕ := index >>> g.pageMsgBits &&& g.pageIndexMask

def msgIndex (g : PageShape) (index : ℕ) : ℕ := index &&& g.pageMsgMask

variable {g : PageShape} {i j lo : ℕ}

theorem pageMsgCount_pos : 0 < g.pageMsgCount := by
  simp only [pageMsgCount, Nat.one_shiftLeft, Nat.two_pow_pos]

theorem pageIndexCount_pos : 0 < g.pageIndexCount := by
  simp only [pageIndexCount, Nat.one_shiftLeft, Nat.two_pow_pos]

theorem shiftRight_eq (i : ℕ) : i >>> g.pageMsgBits = i / g.pageMsgCount := by
  rw [pageMsgCount, Nat.one_shiftLeft, Nat.shiftRight_eq_div_pow]

theorem pageIndex_eq (i : ℕ) : g.pageIndex i = i / g.pageMsgCount % g.pageIndexCount := by
  rw [pageIndex, shiftRight_eq, pageIndexMask, pageIndexCount, Nat.one_shiftLeft,
    Nat.and_two_pow_sub_one_eq_mod]

theorem msgIndex_eq (i : ℕ) : g.msgIndex i = i % g.pageMsgCount := by
  rw [msgIndex, pageMsgMask, pageMsgCount, Nat.one_shiftLeft, Nat.and_two_pow_sub_one_eq_mod]

/-- The index is in one of the `pageIndexCount` pages from page `lo` on. -/
def InWindow (g : PageShape) (lo i : ℕ) : Prop :=
  lo ≤ i / g.pageMsgCount ∧ i / g.pageMsgCount < lo + g.pageIndexCount

theorem InWindow.page_eq (hi : g.InWindow lo i) (hj : g.InWindow lo j)
    (h : g.pageIndex i = g.pageIndex j) : i / g.pageMsgCount = j / g.pageMsgCount := by
  rw [pageIndex_eq, pageIndex_eq] at h
  exact CircularBuffer.window_inj hi.1 hi.2 hj.1 hj.2 h

theorem InWindow.eq (hi : g.InWindow lo i) (hj : g.InWindow lo j)
    (hpage : g.pageIndex i = g.pageIndex j) (hmsg : g.msgIndex i = g.msgIndex j) : i = j := by
  rw [msgIndex_eq, msgIndex_eq] at hmsg
  exact index_eq (hi.page_eq hj hpage) hmsg

theorem div_succ_of_last (h : g.msgIndex i = g.pageMsgMask) :
    (i + 1) / g.pageMsgCount = i / g.pageMsgCount + 1 := by
  have hpos := pageMsgCount_pos (g := g)
  rw [msgIndex_eq, pageMsgMask] at h
  have hdvd : g.pageMsgCount ∣ i + 1 := by
    apply Nat.dvd_of_mod_eq_zero
    rw [Nat.add_mod, h]
    rcases Nat.lt_or_ge 1 g.pageMsgCount with hone | hone
    · rw [Nat.mod_eq_of_lt hone, Nat.sub_add_cancel hpos, Nat.mod_self]
    · obtain hone : g.pageMsgCount = 1 := by omega
      rw [hone]
  exact Nat.succ_div_of_dvd hdvd

theorem div_succ_of_not_last (h : g.msgIndex i ≠ g.pageMsgMask) :
    (i + 1) / g.pageMsgCount = i / g.pageMsgCount := by
  have hpos := pageMsgCount_pos (g := g)
  rw [msgIndex_eq, pageMsgMask] at h
  apply Nat.succ_div_of_not_dvd
  intro hdvd
  have hlt := Nat.mod_lt i hpos
  obtain ⟨k, hk⟩ := hdvd
  apply h
  have hi : i = g.pageMsgCount - 1 + g.pageMsgCount * (k - 1) := by
    cases k with
    | zero => omega
    | succ k =>
      rw [Nat.mul_succ] at hk
      simp only [Nat.add_sub_cancel]
      omega
  rw [hi, Nat.add_mul_mod_self_left]
  exact Nat.mod_eq_of_lt (by omega)

end PageShape

structure SrtQueue (g : PageShape) (T : Type*) where
  pageIndexes : PageTable (SrtMessage T)
  postIndex : ℕ := 0
  getIndex : ℕ := 0

namespace SrtQueue
variable {g : PageShape}

/-! ## The accesses of `push` and `pop` -/

def full (q : SrtQueue g T) : Bool :=
  g.pageIndexCount - 1 ≤ (q.postIndex - q.getIndex) >>> g.pageMsgBits

theorem full_iff {q : SrtQueue g T} :
    q.full ↔ (g.pageIndexCount - 1) * g.pageMsgCount ≤ q.postIndex - q.getIndex := by
  rw [full, decide_eq_true_iff, PageShape.shiftRight_eq,
    Nat.le_div_iff_mul_le PageShape.pageMsgCount_pos]

def fetchAndInc (q : SrtQueue g T) : SrtQueue g T := { q with postIndex := q.postIndex + 1 }

/-- A write to the slot of an index in a page. -/
def modify (q : SrtQueue g T) (page index : ℕ) (f : SrtMessage T → SrtMessage T) :
    Option (SrtQueue g T) :=
  (q.pageIndexes.modify page (g.msgIndex index) f).map fun table =>
    { q with pageIndexes := table }

def setMsg (q : SrtQueue g T) (page index : ℕ) (msg : T) : Option (SrtQueue g T) :=
  q.modify page index fun m => { m with msg := msg }

def setFlag (q : SrtQueue g T) (page index : ℕ) : Option (SrtQueue g T) :=
  q.modify page index fun m => { m with flag := 1 }

def read (q : SrtQueue g T) (page index : ℕ) : Option (SrtMessage T) :=
  q.pageIndexes.read page (g.msgIndex index)

def deletePage (q : SrtQueue g T) (page : ℕ) : Option (SrtQueue g T) :=
  (q.pageIndexes.delete page).map fun table => { q with pageIndexes := table }

def clearPage (q : SrtQueue g T) (pageIndex : ℕ) : SrtQueue g T :=
  { q with pageIndexes := q.pageIndexes.clear pageIndex }

def incGet (q : SrtQueue g T) : SrtQueue g T := { q with getIndex := q.getIndex + 1 }

/-- The slot of an index. -/
def slot (q : SrtQueue g T) (index : ℕ) : Option (SrtMessage T) :=
  q.pageIndexes.slot (g.pageIndex index) (g.msgIndex index)

variable {q q' : SrtQueue g T} {i j p e : ℕ} {m : SrtMessage T}

theorem slot_isSome (he : q.pageIndexes.entry (g.pageIndex i) = some p)
    (hlive : q.pageIndexes.Live (g.pageIndex i)) : (q.slot i).isSome := by
  have hpage := hlive p he
  simpa [slot, PageTable.slot, PageTable.read, he] using hpage

theorem read_eq_slot (he : q.pageIndexes.entry (g.pageIndex i) = some p) :
    q.read p i = q.slot i :=
  PageTable.read_eq he _

theorem entry_of_slot (h : q.slot i = some m) :
    ∃ p, q.pageIndexes.entry (g.pageIndex i) = some p := by
  obtain ⟨p, hp, -⟩ := Option.bind_eq_some_iff.mp h
  exact ⟨p, hp⟩

theorem modify_frame {f : SrtMessage T → SrtMessage T} (h : q.modify p i f = some q') :
    q'.postIndex = q.postIndex ∧ q'.getIndex = q.getIndex ∧
      q'.pageIndexes.freed = q.pageIndexes.freed := by
  obtain ⟨t, ht, rfl⟩ := Option.map_eq_some_iff.mp h
  obtain ⟨slots, -, rfl⟩ := Option.map_eq_some_iff.mp ht
  exact ⟨rfl, rfl, rfl⟩

theorem deletePage_eq (h : q.pageIndexes.WF)
    (he : q.pageIndexes.entry (g.pageIndex i) = some p)
    (hlive : q.pageIndexes.Live (g.pageIndex i)) :
    ∃ q', q.deletePage p = some q' ∧ q'.postIndex = q.postIndex ∧ q'.getIndex = q.getIndex ∧
      q'.pageIndexes.WF ∧ q'.pageIndexes.entry = q.pageIndexes.entry ∧
      q'.pageIndexes.freed = q.pageIndexes.freed ++ [p] ∧
      (∀ e, e ≠ g.pageIndex i → q.pageIndexes.Live e → q'.pageIndexes.Live e) ∧
      ∀ j, g.pageIndex j ≠ g.pageIndex i → q'.slot j = q.slot j := by
  obtain ⟨t, ht, hwf, hentry, hfreed, -, hlive', hslot⟩ := h.delete he hlive
  refine ⟨{ q with pageIndexes := t }, by rw [deletePage, ht]; rfl, rfl, rfl, hwf, hentry, hfreed,
    hlive', ?_⟩
  intro j hne
  exact (hslot (g.pageIndex j) (g.msgIndex j)).trans (if_neg hne)

theorem deletePage_frame (h : q.deletePage p = some q') :
    q'.postIndex = q.postIndex ∧ q'.getIndex = q.getIndex ∧
      q'.pageIndexes.freed = q.pageIndexes.freed ++ [p] := by
  obtain ⟨t, ht, rfl⟩ := Option.map_eq_some_iff.mp h
  obtain ⟨slots, -, rfl⟩ := Option.map_eq_some_iff.mp ht
  exact ⟨rfl, rfl, rfl⟩

theorem slot_clearPage_ne (hne : g.pageIndex j ≠ e) : (q.clearPage e).slot j = q.slot j :=
  PageTable.slot_clear_ne hne _

variable [Inhabited T]

def zeroed : SrtMessage T := ⟨default, 0⟩

/-- The page table is allocated with its first page. -/
def init (g : PageShape) : SrtQueue g T where
  pageIndexes := (PageTable.getPage {} zeroed 0).1

def getMsgPage (q : SrtQueue g T) (pageIndex : ℕ) : SrtQueue g T × ℕ :=
  let (table, page) := q.pageIndexes.getPage zeroed pageIndex
  ({ q with pageIndexes := table }, page)

/-! ## The operations, called one at a time -/

def push (q : SrtQueue g T) (msg : T) : Option (SrtQueue g T × Bool) :=
  if q.full then
    some (q, false)
  else do
    let postIndex := q.postIndex
    let (q, page) := q.fetchAndInc.getMsgPage (g.pageIndex postIndex)
    let q ← q.setMsg page postIndex msg
    let q ← q.setFlag page postIndex
    return (q, true)

/-- The message of the oldest index, if its flag is set. -/
def pop (q : SrtQueue g T) : Option (SrtQueue g T × Option T) :=
  if q.postIndex ≤ q.getIndex then
    some (q, none)
  else do
    let pageIndex := g.pageIndex q.getIndex
    let (q, page) := q.getMsgPage pageIndex
    let m ← q.read page q.getIndex
    if m.flag = 1 then
      if g.msgIndex q.getIndex = g.pageMsgMask then
        let q ← q.deletePage page
        return ((q.clearPage pageIndex).incGet, some m.msg)
      else
        return (q.incGet, some m.msg)
    else
      return (q, none)

def size (q : SrtQueue g T) : ℕ := q.postIndex - q.getIndex

/-! ## What the slots show -/

/-- The slot is not there yet or nothing was written to it. -/
def Blank (q : SrtQueue g T) (index : ℕ) : Prop := ∀ m, q.slot index = some m → m = zeroed

/-- The slot stays as it is, but for its page being allocated. -/
def Keeps (q q' : SrtQueue g T) (index : ℕ) : Prop :=
  q'.slot index = q.slot index ∨ q.slot index = none ∧ q'.slot index = some zeroed

theorem Keeps.slot_some (h : Keeps q q' i) (hslot : q.slot i = some m) : q'.slot i = some m :=
  PageTable.Shown.of_some h hslot

theorem Keeps.blank (h : Keeps q q' i) (hblank : q.Blank i) : q'.Blank i :=
  PageTable.Shown.blank h hblank

/-- Only pages that were not there and slots have changed. -/
structure PageStep (q q' : SrtQueue g T) : Prop where
  post : q'.postIndex = q.postIndex
  get : q'.getIndex = q.getIndex
  wf : q'.pageIndexes.WF
  freed : q'.pageIndexes.freed = q.pageIndexes.freed
  live : ∀ e, q.pageIndexes.Live e → q'.pageIndexes.Live e
  entry : ∀ e p, q.pageIndexes.entry e = some p → q'.pageIndexes.entry e = some p

theorem pageStep_getMsgPage (h : q.pageIndexes.WF) : PageStep q (q.getMsgPage e).1 where
  post := rfl
  get := rfl
  wf := h.getPage
  freed := PageTable.freed_getPage
  live := fun _ hlive => hlive.getPage h
  entry := fun _ _ he => PageTable.entry_getPage_of_some he

theorem entry_getMsgPage :
    (q.getMsgPage e).1.pageIndexes.entry e = some (q.getMsgPage e).2 :=
  PageTable.entry_getPage

theorem getMsgPage_of_entry (he : q.pageIndexes.entry e = some p) : q.getMsgPage e = (q, p) := by
  simp only [getMsgPage, PageTable.getPage, he]

/-- Looking up a page shows no slot that was not there before, except as zeroed. -/
theorem keeps_getMsgPage (h : q.pageIndexes.WF) (hlive : q.pageIndexes.Live e) (i : ℕ) :
    Keeps q (q.getMsgPage e).1 i :=
  PageTable.shown_getPage zeroed h hlive (g.pageIndex i) (g.msgIndex i)

/-- A write through the page of an index changes its slot and no other of a window. -/
theorem modify_eq {lo : ℕ} (h : q.pageIndexes.WF)
    (he : q.pageIndexes.entry (g.pageIndex i) = some p)
    (hlive : q.pageIndexes.Live (g.pageIndex i)) (hi : g.InWindow lo i)
    (f : SrtMessage T → SrtMessage T) :
    ∃ q', q.modify p i f = some q' ∧ PageStep q q' ∧ q'.slot i = (q.slot i).map f ∧
      ∀ j, g.InWindow lo j → j ≠ i → Keeps q q' j := by
  obtain ⟨t, ht, hwf, hentry, hfreed, hlive', hslot⟩ := h.modify he hlive (g.msgIndex i) f
  refine ⟨{ q with pageIndexes := t }, by rw [modify, ht]; rfl, ?_,
    (hslot (g.pageIndex i) (g.msgIndex i)).trans (if_pos ⟨rfl, rfl⟩), ?_⟩
  · exact ⟨rfl, rfl, hwf, hfreed, hlive', fun e p hp => (congrFun hentry e).trans hp⟩
  · intro j hj hne
    left
    refine (hslot (g.pageIndex j) (g.msgIndex j)).trans (if_neg ?_)
    rintro ⟨hpage, hmsg⟩
    exact hne (hj.eq hi hpage hmsg)

theorem blank_clearPage (he : g.pageIndex j = e) : (q.clearPage e).Blank j := by
  subst he
  intro m hm
  simp [slot, PageTable.slot, clearPage, PageTable.entry_clear] at hm

end SrtQueue
end TcpLib
