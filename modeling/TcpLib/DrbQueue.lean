import TcpLib.Lib.PageTable
import Mathlib.Data.Nat.Bitwise

/-!
# The durable queue

`drb_queue` of `mqueue.h` keeps every message. Its table of pages grows by doubling when a page
index is not below its size; the loop that doubles stops at a size that is not below the page index,
so an index that it meets exactly is outside of the new table. An access outside of the table has no
result. `default` is the zeroed message.
-/

namespace TcpLib
variable {T : Type*}

structure DrbMessage (T : Type*) where
  msg : T
  flag : ℕ
  deriving DecidableEq

structure DrbQueue (T : Type*) where
  pageMsgBits : ℕ
  pageIndexes : PageTable (DrbMessage T)
  pageIndexCount : ℕ
  postIndex : ℕ := 0
  writeIndex : ℕ := 0

namespace DrbQueue

def pageMsgCount (q : DrbQueue T) : ℕ := 1 <<< q.pageMsgBits

def pageMsgMask (q : DrbQueue T) : ℕ := q.pageMsgCount - 1

def pageIndex (q : DrbQueue T) (index : ℕ) : ℕ := index >>> q.pageMsgBits

def msgIndex (q : DrbQueue T) (index : ℕ) : ℕ := index &&& q.pageMsgMask

/-- The loop of the constructor; `int(1) << 31` is not an `int`. -/
def bitsLoop (pageMsgCount : ℤ) : ℕ → ℕ → Option ℕ
  | 0, _ => none
  | left + 1, bits =>
    if (1 <<< bits : ℕ) < pageMsgCount then bitsLoop pageMsgCount left (bits + 1) else some bits

/-- `extend_size` after the loop of `get_msg_page`, if it ends within `fuel` rounds. -/
def extendLoop (pageIndex : ℕ) : ℕ → ℕ → Option ℕ
  | 0, _ => none
  | fuel + 1, extendSize =>
    if extendSize < pageIndex then extendLoop pageIndex fuel (extendSize <<< 1) else some extendSize

/-- The size that the table is extended to; every round doubles it. -/
def extendSize (q : DrbQueue T) (pageIndex : ℕ) : Option ℕ :=
  extendLoop pageIndex (pageIndex + 1) (q.pageIndexCount <<< 1)

def extend (q : DrbQueue T) (pageIndex : ℕ) : Option (DrbQueue T) :=
  (q.extendSize pageIndex).map fun size =>
    { q with
      pageIndexes := q.pageIndexes.copyEntries q.pageIndexCount
      pageIndexCount := size }

def fetchAndInc (q : DrbQueue T) : DrbQueue T := { q with postIndex := q.postIndex + 1 }

def incWrite (q : DrbQueue T) : DrbQueue T := { q with writeIndex := q.writeIndex + 1 }

/-- A write to the slot of an index in a page. -/
def modify (q : DrbQueue T) (page index : ℕ) (f : DrbMessage T → DrbMessage T) :
    Option (DrbQueue T) :=
  (q.pageIndexes.modify page (q.msgIndex index) f).map fun table => { q with pageIndexes := table }

def setMsg (q : DrbQueue T) (page index : ℕ) (msg : T) : Option (DrbQueue T) :=
  q.modify page index fun m => { m with msg := msg }

def setFlag (q : DrbQueue T) (page index : ℕ) : Option (DrbQueue T) :=
  q.modify page index fun m => { m with flag := 1 }

def read (q : DrbQueue T) (page index : ℕ) : Option (DrbMessage T) :=
  q.pageIndexes.read page (q.msgIndex index)

def size (q : DrbQueue T) : ℕ := q.writeIndex

/-- The slot of an index. -/
def slot (q : DrbQueue T) (index : ℕ) : Option (DrbMessage T) :=
  q.pageIndexes.slot (q.pageIndex index) (q.msgIndex index)

section
variable [Inhabited T]

def zeroed : DrbMessage T := ⟨default, 0⟩

/-- `drb_queue(int, int)` and `init()` -/
def new (pageMsgCount initPageMsgCount : ℤ) : Option (DrbQueue T) :=
  (bitsLoop pageMsgCount 30 1).bind fun bits =>
    if 1 ≤ initPageMsgCount then
      some {
        pageMsgBits := bits
        pageIndexes := (PageTable.getPage {} zeroed 0).1
        pageIndexCount := initPageMsgCount.toNat }
    else none

/-- `page_indexes_[page_index]`, allocated if it is `NULL`. -/
def pageAt (q : DrbQueue T) (pageIndex : ℕ) : Option (DrbQueue T × ℕ) :=
  if pageIndex < q.pageIndexCount then
    let (table, page) := q.pageIndexes.getPage zeroed pageIndex
    some ({ q with pageIndexes := table }, page)
  else none

def getMsgPage (q : DrbQueue T) (pageIndex : ℕ) : Option (DrbQueue T × ℕ) :=
  if q.pageIndexCount ≤ pageIndex then
    (q.extend pageIndex).bind fun q => q.pageAt pageIndex
  else q.pageAt pageIndex

def push (q : DrbQueue T) (msg : T) : Option (DrbQueue T × Bool) := do
  let postIndex := q.postIndex
  let (q, page) ← q.fetchAndInc.getMsgPage (q.pageIndex postIndex)
  let q ← q.setMsg page postIndex msg
  let q ← q.setFlag page postIndex
  return (q.incWrite, true)

/-- The message at a position, if it was pushed; a negative position is outside of the table. -/
def get (q : DrbQueue T) : ℤ → Option (DrbQueue T × Option T)
  | .negSucc _ => none
  | .ofNat pos =>
    if q.writeIndex ≤ pos then
      some (q, none)
    else do
      let (q, page) ← q.getMsgPage (q.pageIndex pos)
      let m ← q.read page pos
      return (q, if m.flag = 1 then some m.msg else none)

end

/-! ## The geometry -/

variable {q q' : DrbQueue T} {i j p e : ℕ}

theorem bitsLoop_isSome_iff (pageMsgCount : ℤ) (left bits : ℕ) :
    (bitsLoop pageMsgCount (left + 1) bits).isSome ↔ pageMsgCount ≤ (2 ^ (bits + left) : ℕ) := by
  induction left generalizing bits with
  | zero =>
    rw [bitsLoop, Nat.one_shiftLeft, Nat.add_zero, ← not_lt]
    split_ifs with h
    · simpa [bitsLoop] using h
    · simpa using h
  | succ left ih =>
    rw [bitsLoop, Nat.one_shiftLeft]
    split_ifs with h
    · rw [ih, Nat.add_assoc, Nat.add_comm 1]
    · have hle : 2 ^ bits ≤ 2 ^ (bits + (left + 1)) := Nat.pow_le_pow_right (by decide) (by omega)
      simp only [Option.isSome_some, true_iff]
      omega

theorem new_isSome_iff [Inhabited T] {pageMsgCount initPageMsgCount : ℤ}
    (hinit : 1 ≤ initPageMsgCount) :
    (new (T := T) pageMsgCount initPageMsgCount).isSome ↔ pageMsgCount ≤ 2 ^ 30 := by
  have hbits := bitsLoop_isSome_iff pageMsgCount 29 1
  unfold new
  rw [show (2 : ℤ) ^ 30 = (2 ^ (1 + 29) : ℕ) by decide, ← hbits]
  cases bitsLoop pageMsgCount (29 + 1) 1 with
  | none => rfl
  | some bits => simp [hinit]

theorem pageMsgCount_pos : 0 < q.pageMsgCount := by
  simp only [pageMsgCount, Nat.one_shiftLeft, Nat.two_pow_pos]

theorem pageIndex_eq (i : ℕ) : q.pageIndex i = i / q.pageMsgCount := by
  rw [pageIndex, pageMsgCount, Nat.one_shiftLeft, Nat.shiftRight_eq_div_pow]

theorem msgIndex_eq (i : ℕ) : q.msgIndex i = i % q.pageMsgCount := by
  rw [msgIndex, pageMsgMask, pageMsgCount, Nat.one_shiftLeft, Nat.and_two_pow_sub_one_eq_mod]

theorem place_inj (hpage : q.pageIndex i = q.pageIndex j) (hmsg : q.msgIndex i = q.msgIndex j) :
    i = j := by
  rw [pageIndex_eq, pageIndex_eq] at hpage
  rw [msgIndex_eq, msgIndex_eq] at hmsg
  exact index_eq hpage hmsg

/-! ## The loop that doubles -/

/-- The loop ends at the first double that is not below the page index. -/
theorem extendLoop_spec (pageIndex fuel size : ℕ) (hpos : 0 < size)
    (hfuel : pageIndex < size + fuel) (hlt : 0 < fuel) :
    ∃ n, extendLoop pageIndex fuel size = some (size * 2 ^ n) ∧ pageIndex ≤ size * 2 ^ n ∧
      ∀ k < n, size * 2 ^ k < pageIndex := by
  induction fuel generalizing size with
  | zero => cases hlt
  | succ fuel ih =>
    rw [extendLoop]
    split_ifs with hsmall
    · have hdouble : size <<< 1 = size * 2 := by simp [Nat.shiftLeft_eq]
      obtain ⟨n, hloop, hle, hbelow⟩ := ih (size <<< 1) (by omega) (by omega) (by omega)
      refine ⟨n + 1, ?_, ?_, ?_⟩
      · rw [hloop, hdouble, Nat.pow_succ', Nat.mul_assoc]
      · rwa [hdouble, Nat.mul_assoc, ← Nat.pow_succ'] at hle
      · intro k hk
        cases k with
        | zero => simpa using hsmall
        | succ k =>
          have hk' := hbelow k (by omega)
          rwa [hdouble, Nat.mul_assoc, ← Nat.pow_succ'] at hk'
    · exact ⟨0, by simp, by simpa using hsmall, nofun⟩

/-- The page index is a double of the size of the table, which the loop stops at. -/
def HitsDouble (q : DrbQueue T) (pageIndex : ℕ) : Prop :=
  ∃ n, pageIndex = q.pageIndexCount * 2 ^ (n + 1)

/-- What every table of pages satisfies. -/
structure Ok (q : DrbQueue T) : Prop where
  wf : q.pageIndexes.WF
  live : ∀ e, q.pageIndexes.Live e
  inside : ∀ e p, q.pageIndexes.entry e = some p → e < q.pageIndexCount
  count_pos : 0 < q.pageIndexCount

theorem Ok.extendSize_eq (h : q.Ok) (pageIndex : ℕ) :
    ∃ size, q.extendSize pageIndex = some size ∧ q.pageIndexCount < size ∧ pageIndex ≤ size ∧
      (pageIndex = size ↔ q.HitsDouble pageIndex) := by
  have hpos := h.count_pos
  have hdouble : q.pageIndexCount <<< 1 = q.pageIndexCount * 2 := by simp [Nat.shiftLeft_eq]
  obtain ⟨n, hloop, hle, hbelow⟩ := extendLoop_spec pageIndex (pageIndex + 1)
    (q.pageIndexCount <<< 1) (by omega) (by omega) (Nat.succ_pos _)
  have hsize (k : ℕ) : (q.pageIndexCount <<< 1) * 2 ^ k = q.pageIndexCount * 2 ^ (k + 1) := by
    rw [hdouble, Nat.mul_assoc, ← Nat.pow_succ']
  rw [hsize] at hloop hle
  refine ⟨_, hloop, ?_, hle, fun heq => ⟨n, heq⟩, ?_⟩
  · have hone := Nat.one_lt_two_pow (Nat.succ_ne_zero n)
    exact (Nat.lt_mul_iff_one_lt_right hpos).mpr hone
  · rintro ⟨k, rfl⟩
    have hkn : k + 1 ≤ n + 1 := by
      rw [Nat.mul_le_mul_left_iff hpos] at hle
      exact (Nat.pow_le_pow_iff_right (by decide)).mp hle
    have hnk : n ≤ k := by
      by_contra hlt
      have hbelow' := hbelow k (by omega)
      rw [hsize] at hbelow'
      exact lt_irrefl _ hbelow'
    rw [show k = n by omega]

/-! ## What the operations do to the slots -/

/-- A step that moves no index and loses no page. -/
structure PageStep (q q' : DrbQueue T) : Prop where
  bits : q'.pageMsgBits = q.pageMsgBits
  post : q'.postIndex = q.postIndex
  write : q'.writeIndex = q.writeIndex
  ok : q'.Ok
  count : q.pageIndexCount ≤ q'.pageIndexCount
  entry : ∀ e p, q.pageIndexes.entry e = some p → q'.pageIndexes.entry e = some p

theorem pageIndex_congr (h : q'.pageMsgBits = q.pageMsgBits) (i : ℕ) :
    q'.pageIndex i = q.pageIndex i := by
  unfold pageIndex
  rw [h]

section
variable [Inhabited T]

/-- The slot is not there yet or nothing was written to it. -/
def Blank (q : DrbQueue T) (index : ℕ) : Prop := ∀ m, q.slot index = some m → m = zeroed

/-- The slot stays as it is, but for its page being allocated. -/
def Keeps (q q' : DrbQueue T) (index : ℕ) : Prop :=
  q'.slot index = q.slot index ∨ q.slot index = none ∧ q'.slot index = some zeroed

theorem Keeps.slot_some {m : DrbMessage T} (h : Keeps q q' i) (hslot : q.slot i = some m) :
    q'.slot i = some m := PageTable.Shown.of_some h hslot

theorem Keeps.blank (h : Keeps q q' i) (hblank : q.Blank i) : q'.Blank i :=
  PageTable.Shown.blank h hblank

theorem Ok.pageAt (h : q.Ok) (he : e < q.pageIndexCount) :
    ∃ q' p, q.pageAt e = some (q', p) ∧ PageStep q q' ∧ q'.pageIndexes.entry e = some p ∧
      ∀ i, Keeps q q' i := by
  refine ⟨_, _, if_pos he, ⟨rfl, rfl, rfl, ?_, le_rfl, ?_⟩, PageTable.entry_getPage, ?_⟩
  · refine ⟨h.wf.getPage, fun e' => (h.live e').getPage h.wf, ?_, h.count_pos⟩
    intro e' p hp
    by_cases hee : e' = e
    · exact hee ▸ he
    · exact h.inside e' p ((PageTable.entry_getPage_ne hee).symm.trans hp)
  · exact fun _ _ => PageTable.entry_getPage_of_some
  · intro i
    exact PageTable.shown_getPage zeroed h.wf (h.live e) (q.pageIndex i) (q.msgIndex i)

/-- Looking up a page, with the table extended where it has to be. -/
theorem Ok.getMsgPage (h : q.Ok) (hhit : ¬q.HitsDouble e) :
    ∃ q' p, q.getMsgPage e = some (q', p) ∧ PageStep q q' ∧ q'.pageIndexes.entry e = some p ∧
      ∀ i, Keeps q q' i := by
  unfold DrbQueue.getMsgPage
  split_ifs with hout
  · obtain ⟨size, hsize, hgrow, hle, hdouble⟩ := h.extendSize_eq e
    have hlt : e < size := lt_of_le_of_ne hle fun heq => hhit (hdouble.mp heq)
    have hcopy := PageTable.copyEntries_eq h.inside
    have hok : Ok { q with pageIndexCount := size } :=
      ⟨h.wf, h.live, fun e p hp => (h.inside e p hp).trans hgrow, h.count_pos.trans hgrow⟩
    obtain ⟨q', p, hpage, hstep, hentry, hkeeps⟩ := hok.pageAt hlt
    refine ⟨q', p, ?_, ?_, hentry, hkeeps⟩
    · rw [extend, hsize, Option.map_some, Option.bind_some, hcopy]
      exact hpage
    · exact ⟨hstep.bits, hstep.post, hstep.write, hstep.ok, hgrow.le.trans hstep.count, hstep.entry⟩
  · exact h.pageAt (Nat.lt_of_not_le hout)

/-- The loop stops at the page index itself, and the table is one entry too small. -/
theorem Ok.getMsgPage_none (h : q.Ok) (hhit : q.HitsDouble e) : q.getMsgPage e = none := by
  obtain ⟨size, hsize, hgrow, -, hdouble⟩ := h.extendSize_eq e
  obtain rfl := hdouble.mpr hhit
  unfold DrbQueue.getMsgPage
  rw [if_pos hgrow.le, extend, hsize, Option.map_some, Option.bind_some, DrbQueue.pageAt,
    if_neg (lt_irrefl _)]

end

theorem read_eq_slot (he : q.pageIndexes.entry (q.pageIndex i) = some p) : q.read p i = q.slot i :=
  PageTable.read_eq he _

theorem entry_of_slot {m : DrbMessage T} (h : q.slot i = some m) :
    ∃ p, q.pageIndexes.entry (q.pageIndex i) = some p := by
  obtain ⟨p, hp, -⟩ := Option.bind_eq_some_iff.mp h
  exact ⟨p, hp⟩

theorem Ok.slot_isSome (h : q.Ok) (he : q.pageIndexes.entry (q.pageIndex i) = some p) :
    (q.slot i).isSome := by
  have hpage := h.live _ p he
  simpa [DrbQueue.slot, PageTable.slot, PageTable.read, he] using hpage

theorem Ok.getMsgPage_of_entry [Inhabited T] (h : q.Ok) (he : q.pageIndexes.entry e = some p) :
    q.getMsgPage e = some (q, p) := by
  have hlt := h.inside e p he
  unfold DrbQueue.getMsgPage DrbQueue.pageAt PageTable.getPage
  rw [if_neg (Nat.not_le_of_lt hlt), if_pos hlt]
  simp only [he]

/-- A published message is what `get` returns. -/
theorem Ok.get_published [Inhabited T] (h : q.Ok) {msg : T} (hi : i < q.writeIndex)
    (hslot : q.slot i = some ⟨msg, 1⟩) : q.get i = some (q, some msg) := by
  obtain ⟨p, hp⟩ := entry_of_slot hslot
  change (if q.writeIndex ≤ i then _ else _) = _
  rw [if_neg (Nat.not_le_of_lt hi), h.getMsgPage_of_entry hp]
  simp [read_eq_slot hp, hslot]

/-- A write through the page of an index changes its slot and no other. -/
theorem Ok.modify (h : q.Ok) (he : q.pageIndexes.entry (q.pageIndex i) = some p)
    (f : DrbMessage T → DrbMessage T) :
    ∃ q', q.modify p i f = some q' ∧ PageStep q q' ∧ q'.slot i = (q.slot i).map f ∧
      ∀ j, j ≠ i → q'.slot j = q.slot j := by
  obtain ⟨t, ht, hwf, hentry, -, hlive, hslot⟩ := h.wf.modify he (h.live _) (q.msgIndex i) f
  refine ⟨{ q with pageIndexes := t }, by rw [DrbQueue.modify, ht]; rfl, ?_,
    (hslot (q.pageIndex i) (q.msgIndex i)).trans (if_pos ⟨rfl, rfl⟩), ?_⟩
  · refine ⟨rfl, rfl, rfl, ⟨hwf, fun e => hlive e (h.live e), ?_, h.count_pos⟩, le_rfl, ?_⟩
    · exact fun e p hp => h.inside e p ((congrFun hentry e).symm.trans hp)
    · exact fun e p hp => (congrFun hentry e).trans hp
  · intro j hne
    refine (hslot (q.pageIndex j) (q.msgIndex j)).trans (if_neg ?_)
    rintro ⟨hpage, hmsg⟩
    exact hne (place_inj hpage hmsg)

theorem ok_new [Inhabited T] {pageMsgCount initPageMsgCount : ℤ} {q : DrbQueue T}
    (h : new pageMsgCount initPageMsgCount = some q) :
    q.Ok ∧ q.postIndex = 0 ∧ q.writeIndex = 0 ∧ ∀ i, q.Blank i := by
  obtain ⟨bits, -, h⟩ := Option.bind_eq_some_iff.mp h
  split_ifs at h with hinit
  obtain rfl := Option.some.inj h
  refine ⟨⟨PageTable.WF.empty.getPage, ?_, ?_, ?_⟩, rfl, rfl, ?_⟩
  · intro e
    exact PageTable.Live.getPage PageTable.WF.empty nofun
  · intro e p hp
    by_cases he : e = 0
    · subst he
      change 0 < initPageMsgCount.toNat
      omega
    · rw [PageTable.entry_getPage_ne he] at hp
      cases hp
  · change 0 < initPageMsgCount.toNat
    omega
  · intro i m hm
    rw [slot, PageTable.slot_getPage zeroed PageTable.WF.empty nofun] at hm
    split_ifs at hm
    · exact (Option.some.inj hm).symm
    · cases hm

end DrbQueue
end TcpLib
