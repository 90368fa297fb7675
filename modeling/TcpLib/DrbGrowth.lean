import TcpLib.DrbQueue
import TcpLib.Lib.Transition

/-!
# Concurrent page lookups of the durable queue

`get_msg_page` of `drb_queue` tests the size of the table and the entry without the mutex, again
with it, and reads the entry once more for its result. Every access to shared memory is a step here,
and the steps of any number of threads come in any order. A table that was replaced is never freed,
so a thread may still hold it.

Two accesses can leave a table: the size is stored before the new table, so that a thread which
comes in between takes the new size for the old table, and the loop that doubles can stop at the
page index. In every other run the lookups do what lookups one after the other do.
-/

namespace TcpLib
open Transition
variable {T : Type*}

/-- An array that `page_indexes_` points to, or did. -/
structure PageIndexes where
  size : ℕ
  entry : ℕ → Option ℕ

/-- What the threads share: the arrays in the order of their allocation, and the fields of the
queue. `table` is `page_indexes_`, and `pages` counts the pages that were allocated. -/
structure PageDir where
  tables : ℕ → PageIndexes
  made : ℕ
  table : ℕ
  count : ℕ
  pages : ℕ

/-- Where a thread is in `get_msg_page`, with the page index and the array it holds. -/
inductive LookupPc
  | idle
  | testCount (e : ℕ)
  | loadTable (e : ℕ)
  | testEntry (e k : ℕ)
  | lock (e : ℕ)
  | retest (e : ℕ)
  | storeCount (e k : ℕ)
  | storeTable (e k : ℕ)
  | retestEntry (e : ℕ)
  | storeEntry (e : ℕ)
  | unlock (e : ℕ)
  | reload (e : ℕ)
  | fetch (e k : ℕ)
  deriving DecidableEq

/-- `found` are the page indexes that were looked up with the pointers returned for them, and `fault`
is set by an access outside of an array. -/
structure DrbLookups where
  mem : PageDir
  mutex : Option ℕ := none
  pc : ℕ → LookupPc := fun _ => .idle
  found : List (ℕ × Option ℕ) := []
  fault : Bool := false

inductive LookupAct
  | call (t e : ℕ)
  | move (t : ℕ)

namespace LookupPc

def hasMutex : LookupPc → Bool
  | .retest _ | .storeCount _ _ | .storeTable _ _ | .retestEntry _ | .storeEntry _ | .unlock _ => true
  | _ => false

/-- The size of the new table is stored and its address is not. -/
def growing : LookupPc → Bool
  | .storeTable _ _ => true
  | _ => false

/-- The entry is about to be filled. -/
def filling : LookupPc → Bool
  | .retestEntry _ | .storeEntry _ => true
  | _ => false

/-- The page index and the array that a thread is going to use it in. -/
def holds? : LookupPc → Option (ℕ × ℕ)
  | .testEntry e k | .storeCount e k | .storeTable e k | .fetch e k => some (e, k)
  | _ => none

/-- The page index that a thread looks up. -/
def index? : LookupPc → Option ℕ
  | .idle => none
  | .testCount e | .loadTable e | .testEntry e _ | .lock e | .retest e | .storeCount e _
  | .storeTable e _ | .retestEntry e | .storeEntry e | .unlock e | .reload e | .fetch e _ => some e

end LookupPc

namespace PageDir

/-- The array that `page_indexes_` points to. -/
def cur (m : PageDir) : PageIndexes := m.tables m.table

/-- A new array with the old entries. -/
def grow (m : PageDir) (size : ℕ) : PageDir :=
  { m with
    tables := Function.update m.tables m.made
      ⟨size, fun e => if e < m.count then m.cur.entry e else none⟩
    made := m.made + 1 }

/-- A new page in the current array. -/
def fill (m : PageDir) (e : ℕ) : PageDir :=
  { m with
    tables := Function.update m.tables m.table
      { m.cur with entry := Function.update m.cur.entry e (some m.pages) }
    pages := m.pages + 1 }

end PageDir

namespace DrbLookups

/-- The queue after `init()`, with no call yet. -/
def ofQueue (q : DrbQueue T) : DrbLookups where
  mem :=
    { tables := fun _ => ⟨q.pageIndexCount, q.pageIndexes.entry⟩
      made := 1
      table := 0
      count := q.pageIndexCount
      pages := q.pageIndexes.next }

def setPc (s : DrbLookups) (t : ℕ) (pc : LookupPc) : DrbLookups :=
  { s with pc := Function.update s.pc t pc }

/-- The rest of a step after an access to an entry of an array. -/
def access (s : DrbLookups) (k e : ℕ) (rest : Option ℕ → DrbLookups) : DrbLookups :=
  if e < (s.mem.tables k).size then rest ((s.mem.tables k).entry e) else { s with fault := true }

def move (s : DrbLookups) (t : ℕ) : LookupPc → Option DrbLookups
  | .idle => none
  | .testCount e => some (s.setPc t (if e < s.mem.count then .loadTable e else .lock e))
  | .loadTable e => some (s.setPc t (.testEntry e s.mem.table))
  | .testEntry e k => some <| s.access k e fun page =>
    s.setPc t (if page.isSome then .reload e else .lock e)
  | .lock e =>
    if s.mutex.isNone then some { s.setPc t (.retest e) with mutex := some t } else none
  | .retest e =>
    if e < s.mem.count then some (s.setPc t (.retestEntry e))
    else (DrbQueue.extendLoop e (e + 1) (s.mem.count <<< 1)).map fun size =>
      -- the copy reads as many entries as the table is said to have
      if s.mem.count ≤ s.mem.cur.size then
        { s.setPc t (.storeCount e s.mem.made) with mem := s.mem.grow size }
      else { s with fault := true }
  | .storeCount e k => some { s.setPc t (.storeTable e k) with
    mem := { s.mem with count := (s.mem.tables k).size } }
  | .storeTable e k => some { s.setPc t (.retestEntry e) with mem := { s.mem with table := k } }
  | .retestEntry e => some <| s.access s.mem.table e fun page =>
    s.setPc t (if page.isSome then .unlock e else .storeEntry e)
  | .storeEntry e => some <| s.access s.mem.table e fun _ =>
    { s.setPc t (.unlock e) with mem := s.mem.fill e }
  | .unlock e => some { s.setPc t (.reload e) with mutex := none }
  | .reload e => some (s.setPc t (.fetch e s.mem.table))
  | .fetch e k => some <| s.access k e fun page =>
    { s.setPc t .idle with found := s.found ++ [(e, page)] }

def step (s : DrbLookups) : LookupAct → Option DrbLookups
  | .call t e => match s.pc t with
    | .idle => some (s.setPc t (.testCount e))
    | _ => none
  | .move t => s.move t (s.pc t)

/-- No access was outside of an array, and no thread holds an array too small for its index. -/
structure InBounds (s : DrbLookups) : Prop where
  fault : s.fault = false
  holds : ∀ t e k, (s.pc t).holds? = some (e, k) → e < (s.mem.tables k).size

/-- The table is loaded between the two stores of a growth only for an index that the old table
has, and the loop that doubles does not stop at the index that it is for. -/
def FindsRoom (s : DrbLookups) : LookupAct → Prop
  | .call _ _ => True
  | .move t => match s.pc t with
    | .loadTable e => (∃ u, (s.pc u).growing) → e < s.mem.cur.size
    | .retest e => s.mem.count ≤ e → DrbQueue.extendLoop e (e + 1) (s.mem.count <<< 1) ≠ some e
    | _ => True

end DrbLookups

namespace DrbQueue
variable [Inhabited T]

/-- Lookups one after the other. -/
def lookups (q : DrbQueue T) (es : List ℕ) : Option (DrbQueue T) :=
  es.foldlM (fun q e => (q.getMsgPage e).map Prod.fst) q

theorem lookups_concat (q : DrbQueue T) (es : List ℕ) (e : ℕ) :
    q.lookups (es ++ [e]) = (q.lookups es).bind fun q => (q.getMsgPage e).map Prod.fst := by
  simp [lookups]

variable {q : DrbQueue T} {e : ℕ}

/-- A page that is not there yet is allocated, in the table or in the one it is extended to. -/
theorem Ok.getMsgPage_new (h : q.Ok) (he : q.pageIndexes.entry e = none) {size : ℕ} (hroom : e < size)
    (hsize : q.pageIndexCount = size ∨ (q.pageIndexCount ≤ e ∧ q.extendSize e = some size)) :
    ∃ q', q.getMsgPage e = some (q', q.pageIndexes.next) ∧ q'.Ok ∧
      q'.pageIndexes.entry = Function.update q.pageIndexes.entry e (some q.pageIndexes.next) ∧
      q'.pageIndexes.next = q.pageIndexes.next + 1 ∧ q'.pageIndexCount = size := by
  have hle : q.pageIndexCount ≤ size := by
    rcases hsize with heq | ⟨hout, -⟩ <;> omega
  have hok : Ok { q with pageIndexCount := size } :=
    ⟨h.wf, h.live, fun e p hp => (h.inside e p hp).trans_le hle, h.count_pos.trans_le hle⟩
  have hpage : q.getMsgPage e = ({ q with pageIndexCount := size } : DrbQueue T).pageAt e := by
    unfold DrbQueue.getMsgPage
    rcases hsize with rfl | ⟨hout, hext⟩
    · rw [if_neg (Nat.not_le_of_lt hroom)]
    · rw [if_pos hout, extend, hext, Option.map_some, Option.bind_some,
        PageTable.copyEntries_eq h.inside]
  obtain ⟨q', p, hat, hstep, -, -⟩ := hok.pageAt hroom
  have hnew : ({ q with pageIndexCount := size } : DrbQueue T).pageAt e =
      some ({ q with
        pageIndexCount := size
        pageIndexes := (q.pageIndexes.getPage zeroed e).1 }, q.pageIndexes.next) := by
    unfold DrbQueue.pageAt PageTable.getPage
    rw [if_pos hroom]
    simp only [he]
  obtain ⟨rfl, rfl⟩ := Prod.mk.inj (Option.some.inj (hat.symm.trans hnew))
  refine ⟨_, hpage.trans hnew, hstep.ok, ?_, ?_, rfl⟩ <;> simp [PageTable.getPage, he]

end DrbQueue

/-! ## What the threads know -/

/-- The memory shows the pages that the queue has. -/
structure PageDir.Shows (m : PageDir) (q : DrbQueue T) : Prop where
  queue : q.Ok
  entry : m.cur.entry = q.pageIndexes.entry
  pages : m.pages = q.pageIndexes.next
  table_lt : m.table < m.made
  old : ∀ k < m.made, ∀ e p, (m.tables k).entry e = some p → m.cur.entry e = some p
  inside : ∀ k < m.made, ∀ e p, (m.tables k).entry e = some p → e < (m.tables k).size
  size_le : m.cur.size ≤ m.count
  count_pos : 0 < m.cur.size

/-- The array is the one that the queue would get for the page index, and is not in use yet. -/
structure PageDir.NewTable (m : PageDir) (q : DrbQueue T) (e k : ℕ) : Prop where
  made : k < m.made
  unused : k ≠ m.table
  copied : (m.tables k).entry = m.cur.entry
  room : e < (m.tables k).size
  outside : q.pageIndexCount ≤ e
  size : q.extendSize e = some (m.tables k).size

/-- The entry is in the table, which was perhaps extended for it. -/
structure PageDir.HasEntry (m : PageDir) (q : DrbQueue T) (e : ℕ) : Prop where
  room : e < m.cur.size
  size : q.pageIndexCount = m.cur.size ∨
    (q.pageIndexCount ≤ e ∧ q.extendSize e = some m.cur.size)

def PageDir.PcOk (m : PageDir) (q : DrbQueue T) : LookupPc → Prop
  | .idle | .testCount _ | .lock _ | .retest _ => True
  | .loadTable e => e < m.count
  | .testEntry e k => k < m.made ∧ e < (m.tables k).size
  | .storeCount e k => m.NewTable q e k
  | .storeTable e k => m.NewTable q e k ∧ m.count = (m.tables k).size
  | .retestEntry e => m.HasEntry q e
  | .storeEntry e => m.HasEntry q e ∧ m.cur.entry e = none
  | .unlock e | .reload e => ∃ p, m.cur.entry e = some p
  | .fetch e k => k < m.made ∧ ∃ p, (m.tables k).entry e = some p

namespace DrbLookups

structure Inv (s : DrbLookups) (q : DrbQueue T) : Prop where
  fault : s.fault = false
  mem : s.mem.Shows q
  mutex : ∀ t, (s.pc t).hasMutex → s.mutex = some t
  count : (∀ t, (s.pc t).growing = false) → s.mem.count = s.mem.cur.size
  view : (∀ t, (s.pc t).filling = false) → q.pageIndexCount = s.mem.cur.size
  pcs : ∀ t, s.mem.PcOk q (s.pc t)
  found : ∀ e page, (e, page) ∈ s.found → ∃ p, page = some p ∧ s.mem.cur.entry e = some p

variable {s s' : DrbLookups} {q : DrbQueue T} {t u e k : ℕ} {pc : LookupPc}

theorem growing_hasMutex (h : pc.growing) : pc.hasMutex := by
  cases pc <;> simp_all [LookupPc.growing, LookupPc.hasMutex]

theorem filling_hasMutex (h : pc.filling) : pc.hasMutex := by
  cases pc <;> simp_all [LookupPc.filling, LookupPc.hasMutex]

theorem growing_of_free (h : pc.hasMutex = false) : pc.growing = false := by
  by_contra hgrow
  have hheld := growing_hasMutex (by simpa using hgrow)
  rw [h] at hheld
  cases hheld

theorem filling_of_free (h : pc.hasMutex = false) : pc.filling = false := by
  by_contra hfill
  have hheld := filling_hasMutex (by simpa using hfill)
  rw [h] at hheld
  cases hheld

/-- Whoever has the mutex is alone with it. -/
theorem Inv.alone (h : s.Inv q) (ht : (s.pc t).hasMutex) (hu : (s.pc u).hasMutex) : u = t :=
  Option.some.inj ((h.mutex u hu).symm.trans (h.mutex t ht))

theorem Inv.not_growing (h : s.Inv q) (ht : (s.pc t).hasMutex) (hno : (s.pc t).growing = false) :
    s.mem.count = s.mem.cur.size := by
  refine h.count fun u => ?_
  by_contra hu
  have hgrow : (s.pc u).growing = true := by simpa using hu
  rw [h.alone ht (growing_hasMutex hgrow), hno] at hgrow
  cases hgrow

theorem Inv.not_filling (h : s.Inv q) (ht : (s.pc t).hasMutex) (hno : (s.pc t).filling = false) :
    q.pageIndexCount = s.mem.cur.size := by
  refine h.view fun u => ?_
  by_contra hu
  have hfill : (s.pc u).filling = true := by simpa using hu
  rw [h.alone ht (filling_hasMutex hfill), hno] at hfill
  cases hfill

theorem Inv.inBounds (h : s.Inv q) : s.InBounds := by
  refine ⟨h.fault, fun t e k hk => ?_⟩
  have hok := h.pcs t
  cases hpc : s.pc t <;> rw [hpc] at hok hk <;> simp only [LookupPc.holds?, Option.some.injEq,
    Prod.mk.injEq, reduceCtorEq] at hk
  all_goals obtain ⟨rfl, rfl⟩ := hk
  · exact hok.2
  · exact hok.room
  · exact hok.1.room
  · obtain ⟨hlt, p, hp⟩ := hok
    exact h.mem.inside _ hlt _ p hp

@[simp] theorem setPc_self : (s.setPc t pc).pc t = pc := Function.update_self ..

theorem setPc_ne (h : u ≠ t) : (s.setPc t pc).pc u = s.pc u := Function.update_of_ne h ..

/-- A step that leaves the memory as it is. -/
theorem Inv.goto (h : s.Inv q) {mutex : Option ℕ} {found : List (ℕ × Option ℕ)}
    (hpc : s.mem.PcOk q pc) (hgrow : (s.pc t).growing = false)
    (hview : (s.pc t).filling = false ∨ pc.filling = true ∨ q.pageIndexCount = s.mem.cur.size)
    (hmutex : ∀ u, ((s.setPc t pc).pc u).hasMutex → mutex = some u)
    (hfound : ∀ e page, (e, page) ∈ found → ∃ p, page = some p ∧ s.mem.cur.entry e = some p) :
    Inv { s.setPc t pc with mutex := mutex, found := found } q := by
  have hothers (f : LookupPc → Bool) (ht : f (s.pc t) = false)
      (hnew : ∀ u, f ((s.setPc t pc).pc u) = false) (u : ℕ) : f (s.pc u) = false := by
    by_cases hu : u = t
    · exact hu ▸ ht
    · exact setPc_ne hu ▸ hnew u
  refine ⟨h.fault, h.mem, hmutex, fun hno => h.count (hothers _ hgrow hno), fun hno => ?_, fun u => ?_,
    hfound⟩
  · rcases hview with hold | hfill | heq
    · exact h.view (hothers _ hold hno)
    · have hnew := hno t
      rw [show ({ s.setPc t pc with mutex := mutex, found := found } : DrbLookups).pc t = pc from
        setPc_self, hfill] at hnew
      cases hnew
    · exact heq
  · by_cases hu : u = t
    · subst hu
      exact setPc_self (s := s) ▸ hpc
    · exact setPc_ne (s := s) hu ▸ h.pcs u

/-- Such a step outside of the mutex. -/
theorem Inv.goto_free (h : s.Inv q) (hpc : s.mem.PcOk q pc) (hold : (s.pc t).hasMutex = false)
    (hnew : pc.hasMutex = false) : (s.setPc t pc).Inv q := by
  refine h.goto hpc (growing_of_free hold) (Or.inl (filling_of_free hold)) (fun u hu => ?_) h.found
  by_cases hut : u = t
  · subst hut
    rw [setPc_self, hnew] at hu
    cases hu
  · exact h.mutex u (setPc_ne hut ▸ hu)

/-- Such a step with the mutex. -/
theorem Inv.goto_held (h : s.Inv q) (hpc : s.mem.PcOk q pc) (hold : (s.pc t).hasMutex)
    (hgrow : (s.pc t).growing = false)
    (hview : (s.pc t).filling = false ∨ pc.filling = true ∨ q.pageIndexCount = s.mem.cur.size) :
    (s.setPc t pc).Inv q := by
  refine h.goto hpc hgrow hview (fun u hu => ?_) h.found
  by_cases hut : u = t
  · exact hut ▸ h.mutex t hold
  · exact h.mutex u (setPc_ne hut ▸ hu)

/-- A write to the memory, which only the thread with the mutex makes. -/
theorem Inv.write {m : PageDir} {q' : DrbQueue T} (h : s.Inv q) (hold : (s.pc t).hasMutex)
    (hmem : m.Shows q') (hpc : m.PcOk q' pc)
    (hother : ∀ pc', pc'.hasMutex = false → s.mem.PcOk q pc' → m.PcOk q' pc')
    (hcount : pc.growing = false → m.count = m.cur.size)
    (hview : pc.filling = false → q'.pageIndexCount = m.cur.size)
    (hentry : ∀ e p, s.mem.cur.entry e = some p → m.cur.entry e = some p) :
    Inv { s.setPc t pc with mem := m } q' := by
  refine ⟨h.fault, hmem, fun u hu => ?_, fun hno => hcount ?_, fun hno => hview ?_, fun u => ?_, ?_⟩
  · by_cases hut : u = t
    · exact hut ▸ h.mutex t hold
    · exact h.mutex u (setPc_ne (s := s) hut ▸ hu)
  · exact (congrArg LookupPc.growing (setPc_self (s := s))).symm.trans (hno t)
  · exact (congrArg LookupPc.filling (setPc_self (s := s))).symm.trans (hno t)
  · by_cases hut : u = t
    · subst hut
      exact setPc_self (s := s) ▸ hpc
    · have hpcu := hother (s.pc u) (by
        by_contra hu
        exact hut (h.alone hold (by simpa using hu))) (h.pcs u)
      exact setPc_ne (s := s) hut ▸ hpcu
  · intro e page hfound
    obtain ⟨p, rfl, hp⟩ := h.found e page hfound
    exact ⟨p, rfl, hentry e p hp⟩

/-! ## Writes -/

/-- Every array that was made before is what it was. -/
theorem Inv.retest_grow (h : s.Inv q) (hpc : s.pc t = .retest e) (hout : s.mem.count ≤ e) {size : ℕ}
    (hsize : DrbQueue.extendLoop e (e + 1) (s.mem.count <<< 1) = some size) (hroom : size ≠ e) :
    Inv { s.setPc t (.storeCount e s.mem.made) with mem := s.mem.grow size } q := by
  have hold : (s.pc t).hasMutex := by rw [hpc]; rfl
  have hcount := h.not_growing hold (by rw [hpc]; rfl)
  have hview := h.not_filling hold (by rw [hpc]; rfl)
  have hcur : (s.mem.grow size).cur = s.mem.cur :=
    Function.update_of_ne (Nat.ne_of_lt h.mem.table_lt) ..
  have hmade {k : ℕ} (hk : k < s.mem.made) : (s.mem.grow size).tables k = s.mem.tables k :=
    Function.update_of_ne (Nat.ne_of_lt hk) ..
  have hnew : (s.mem.grow size).tables s.mem.made =
      ⟨size, fun e => if e < s.mem.count then s.mem.cur.entry e else none⟩ := Function.update_self ..
  have hcopy : (fun e => if e < s.mem.count then s.mem.cur.entry e else none) = s.mem.cur.entry := by
    funext e'
    split_ifs with hlt
    · rfl
    · symm
      by_contra hne
      obtain ⟨p, hp⟩ := Option.ne_none_iff_exists'.mp hne
      rw [hcount] at hlt
      exact hlt (h.mem.inside _ h.mem.table_lt _ p hp)
  obtain ⟨size', hext, hgrow, hle, -⟩ := h.mem.queue.extendSize_eq e
  have hsame : size = size' := by
    rw [hcount, ← hview] at hsize
    exact Option.some.inj (hsize.symm.trans hext)
  subst hsame
  refine h.write hold ⟨h.mem.queue, hcur ▸ h.mem.entry, h.mem.pages, ?_, ?_, ?_, ?_, ?_⟩ ?_ ?_
    (fun _ => hcount.trans (congrArg _ hcur.symm)) (fun _ => hview.trans (congrArg _ hcur.symm))
    (fun e p hp => hcur ▸ hp)
  · exact h.mem.table_lt.trans (Nat.lt_succ_self _)
  · intro k hk e' p hp
    rw [hcur]
    rcases Nat.lt_succ_iff_lt_or_eq.mp hk with hk | rfl
    · exact h.mem.old k hk e' p (hmade hk ▸ hp)
    · rw [hnew, hcopy] at hp
      exact hp
  · intro k hk e' p hp
    rcases Nat.lt_succ_iff_lt_or_eq.mp hk with hk | rfl
    · rw [hmade hk] at hp ⊢
      exact h.mem.inside k hk e' p hp
    · rw [hnew, hcopy] at hp
      rw [hnew]
      exact (h.mem.inside _ h.mem.table_lt _ p hp).trans (hview ▸ hgrow)
  · rw [hcur]
    exact h.mem.size_le
  · rw [hcur]
    exact h.mem.count_pos
  · refine ⟨Nat.lt_succ_self _, ?_, ?_, ?_, ?_, ?_⟩
    · exact Nat.ne_of_gt h.mem.table_lt
    · rw [hnew, hcur, hcopy]
    · rw [hnew]
      exact lt_of_le_of_ne hle hroom.symm
    · rw [hview, ← hcount]
      exact hout
    · rw [hnew]
      exact hext
  · intro pc' hfree hok
    cases pc' with
    | idle | testCount _ | lock _ | loadTable _ => exact hok
    | testEntry e' k =>
      refine ⟨hok.1.trans (Nat.lt_succ_self _), ?_⟩
      rw [hmade hok.1]
      exact hok.2
    | reload e' =>
      obtain ⟨p, hp⟩ := hok
      exact ⟨p, hcur ▸ hp⟩
    | fetch e' k =>
      obtain ⟨hk, p, hp⟩ := hok
      exact ⟨hk.trans (Nat.lt_succ_self _), p, hmade hk ▸ hp⟩
    | retest _ | storeCount _ _ | storeTable _ _ | retestEntry _ | storeEntry _ | unlock _ => cases hfree

theorem Inv.storeCount (h : s.Inv q) (hpc : s.pc t = .storeCount e k) :
    Inv { s.setPc t (.storeTable e k) with
      mem := { s.mem with count := (s.mem.tables k).size } } q := by
  have hold : (s.pc t).hasMutex := by rw [hpc]; rfl
  have hcount := h.not_growing hold (by rw [hpc]; rfl)
  have hview := h.not_filling hold (by rw [hpc]; rfl)
  have hok := h.pcs t
  rw [hpc] at hok
  obtain ⟨size, hext, hgrow, -⟩ := h.mem.queue.extendSize_eq e
  obtain rfl := Option.some.inj (hext.symm.trans hok.size)
  have hle : s.mem.count ≤ (s.mem.tables k).size := by
    rw [hcount, ← hview]
    exact hgrow.le
  refine h.write hold ⟨h.mem.queue, h.mem.entry, h.mem.pages, h.mem.table_lt, h.mem.old,
    h.mem.inside, h.mem.size_le.trans hle, h.mem.count_pos⟩ ⟨?_, rfl⟩ ?_ nofun (fun _ => hview)
    (fun _ _ hp => hp)
  · exact ⟨hok.made, hok.unused, hok.copied, hok.room, hok.outside, hok.size⟩
  · intro pc' hfree hpc'
    cases pc' with
    | loadTable e' => exact lt_of_lt_of_le hpc' hle
    | idle | testCount _ | lock _ | testEntry _ _ | reload _ | fetch _ _ => exact hpc'
    | retest _ | storeCount _ _ | storeTable _ _ | retestEntry _ | storeEntry _ | unlock _ => cases hfree

theorem Inv.storeTable (h : s.Inv q) (hpc : s.pc t = .storeTable e k) :
    Inv { s.setPc t (.retestEntry e) with mem := { s.mem with table := k } } q := by
  have hold : (s.pc t).hasMutex := by rw [hpc]; rfl
  have hok := h.pcs t
  rw [hpc] at hok
  obtain ⟨hok, hcount⟩ := hok
  have hentry : (s.mem.tables k).entry = s.mem.cur.entry := hok.copied
  refine h.write hold ⟨h.mem.queue, ?_, h.mem.pages, hok.made, ?_, h.mem.inside, ?_, ?_⟩ ?_ ?_
    (fun _ => hcount) nofun ?_
  · exact hentry.trans h.mem.entry
  · intro k' hk' e' p hp
    exact (congrFun hentry e').trans (h.mem.old k' hk' e' p hp)
  · exact hcount.ge
  · exact Nat.zero_lt_of_lt hok.room
  · exact ⟨hok.room, Or.inr ⟨hok.outside, hok.size⟩⟩
  · intro pc' hfree hpc'
    cases pc' with
    | idle | testCount _ | lock _ | loadTable _ | testEntry _ _ | fetch _ _ => exact hpc'
    | reload e' =>
      obtain ⟨p, hp⟩ := hpc'
      exact ⟨p, (congrFun hentry e').trans hp⟩
    | retest _ | storeCount _ _ | storeTable _ _ | retestEntry _ | storeEntry _ | unlock _ => cases hfree
  · intro e' p hp
    exact (congrFun hentry e').trans hp

theorem Inv.storeEntry [Inhabited T] (h : s.Inv q) (hpc : s.pc t = .storeEntry e) :
    ∃ q' p, q.getMsgPage e = some (q', p) ∧
      Inv { s.setPc t (.unlock e) with mem := s.mem.fill e } q' := by
  have hold : (s.pc t).hasMutex := by rw [hpc]; rfl
  have hcount := h.not_growing hold (by rw [hpc]; rfl)
  have hok := h.pcs t
  rw [hpc] at hok
  obtain ⟨⟨hroom, hsize⟩, hnone⟩ := hok
  obtain ⟨q', hpage, hq', hentry', hnext, hview⟩ :=
    h.mem.queue.getMsgPage_new ((congrFun h.mem.entry e).symm.trans hnone) hroom hsize
  have hcur : (s.mem.fill e).cur =
      { s.mem.cur with entry := Function.update s.mem.cur.entry e (some s.mem.pages) } :=
    Function.update_self ..
  have hkept (e' p : ℕ) (hp : s.mem.cur.entry e' = some p) : (s.mem.fill e).cur.entry e' = some p := by
    have hne : e' ≠ e := by
      rintro rfl
      rw [hnone] at hp
      cases hp
    rw [hcur]
    exact (Function.update_of_ne hne ..).trans hp
  have hother {k : ℕ} (hk : k ≠ s.mem.table) : (s.mem.fill e).tables k = s.mem.tables k :=
    Function.update_of_ne hk ..
  have hsizes (k : ℕ) : ((s.mem.fill e).tables k).size = (s.mem.tables k).size := by
    by_cases hk : k = s.mem.table
    · subst hk
      exact (congrArg PageIndexes.size hcur).trans rfl
    · rw [hother hk]
  refine ⟨q', _, hpage, h.write hold ⟨hq', ?_, ?_, h.mem.table_lt, ?_, ?_, ?_, ?_⟩ ?_ ?_ ?_ ?_ hkept⟩
  · rw [hcur, hentry', ← h.mem.entry, ← h.mem.pages]
  · rw [hnext, ← h.mem.pages]
    rfl
  · intro k hk e' p hp
    by_cases hkt : k = s.mem.table
    · subst hkt
      exact hp
    · rw [hother hkt] at hp
      exact hkept e' p (h.mem.old k hk e' p hp)
  · intro k hk e' p hp
    rw [hsizes]
    by_cases hkt : k = s.mem.table
    · subst hkt
      by_cases he : e' = e
      · exact he ▸ hroom
      · refine h.mem.inside _ hk e' p ?_
        have hp' : (s.mem.fill e).cur.entry e' = some p := hp
        rw [hcur] at hp'
        exact (Function.update_of_ne he ..).symm.trans hp'
    · rw [hother hkt] at hp
      exact h.mem.inside k hk e' p hp
  · exact (hsizes s.mem.table).trans_le h.mem.size_le
  · exact h.mem.count_pos.trans_eq (hsizes s.mem.table).symm
  · exact ⟨s.mem.pages, by rw [hcur]; exact Function.update_self ..⟩
  · intro pc' hfree hpc'
    cases pc' with
    | idle | testCount _ | lock _ | loadTable _ => exact hpc'
    | testEntry e' k => exact ⟨hpc'.1, hpc'.2.trans_eq (hsizes k).symm⟩
    | reload e' =>
      obtain ⟨p, hp⟩ := hpc'
      exact ⟨p, hkept e' p hp⟩
    | fetch e' k =>
      obtain ⟨hk, p, hp⟩ := hpc'
      refine ⟨hk, p, ?_⟩
      by_cases hkt : k = s.mem.table
      · subst hkt
        exact hkept e' p hp
      · rw [hother hkt]
        exact hp
    | retest _ | storeCount _ _ | storeTable _ _ | retestEntry _ | storeEntry _ | unlock _ => cases hfree
  · exact fun _ => hcount.trans (hsizes s.mem.table).symm
  · exact fun _ => hview.trans (hsizes s.mem.table).symm

/-! ## Steps -/

theorem access_of_lt {rest : Option ℕ → DrbLookups} (h : e < (s.mem.tables k).size) :
    s.access k e rest = rest ((s.mem.tables k).entry e) := if_pos h

/-- A step that finds room is a step of the memory, of the thread alone, or a lookup of the queue. -/
theorem Inv.move [Inhabited T] (h : s.Inv q) (hok : s.FindsRoom (.move t))
    (hmove : s.move t (s.pc t) = some s') :
    s'.Inv q ∨ ∃ e, (s.pc t).index? = some e ∧ ∃ q' p, q.getMsgPage e = some (q', p) ∧ s'.Inv q' := by
  have hpcs := h.pcs t
  cases hpc : s.pc t with
  | idle =>
    rw [hpc] at hmove
    cases hmove
  | testCount e =>
    rw [hpc] at hmove
    obtain rfl := Option.some.inj hmove
    refine Or.inl (h.goto_free ?_ (by rw [hpc]; rfl) (by split_ifs <;> rfl))
    split_ifs with hlt
    · exact hlt
    · trivial
  | loadTable e =>
    rw [hpc] at hmove hpcs
    obtain rfl := Option.some.inj hmove
    refine Or.inl (h.goto_free ⟨h.mem.table_lt, ?_⟩ (by rw [hpc]; rfl) rfl)
    -- the size that was read is the one of the table, or the table is large enough anyway
    by_cases hgrow : ∃ u, (s.pc u).growing
    · simp only [FindsRoom, hpc] at hok
      exact hok hgrow
    · exact hpcs.trans_eq (h.count fun u => by simpa using fun hu => hgrow ⟨u, hu⟩)
  | testEntry e k =>
    rw [hpc] at hmove hpcs
    obtain ⟨hk, hlt⟩ := hpcs
    simp only [DrbLookups.move, access_of_lt hlt] at hmove
    obtain rfl := Option.some.inj hmove
    refine Or.inl (h.goto_free ?_ (by rw [hpc]; rfl) (by split_ifs <;> rfl))
    split_ifs with hsome
    · obtain ⟨p, hp⟩ := Option.isSome_iff_exists.mp hsome
      exact ⟨p, h.mem.old k hk e p hp⟩
    · trivial
  | lock e =>
    rw [hpc] at hmove
    simp only [DrbLookups.move] at hmove
    split_ifs at hmove with hfree
    obtain rfl := Option.some.inj hmove
    refine Or.inl (h.goto trivial (by rw [hpc]; rfl) (Or.inl (by rw [hpc]; rfl)) (fun u hu => ?_) h.found)
    by_cases hut : u = t
    · rw [hut]
    · have hnone := h.mutex u (setPc_ne hut ▸ hu)
      rw [hnone] at hfree
      cases hfree
  | retest e =>
    have hold : (s.pc t).hasMutex := by rw [hpc]; rfl
    have hcount := h.not_growing hold (by rw [hpc]; rfl)
    have hview := h.not_filling hold (by rw [hpc]; rfl)
    simp only [FindsRoom, hpc] at hok
    rw [hpc] at hmove
    simp only [DrbLookups.move] at hmove
    split_ifs at hmove with hlt hcopy
    · obtain rfl := Option.some.inj hmove
      exact Or.inl (h.goto_held ⟨hcount ▸ hlt, Or.inl hview⟩ hold (by rw [hpc]; rfl) (Or.inr (Or.inl rfl)))
    · obtain ⟨size, hsize, rfl⟩ := Option.map_eq_some_iff.mp hmove
      have hout := Nat.le_of_not_lt hlt
      exact Or.inl (h.retest_grow hpc hout hsize fun heq => hok hout (heq ▸ hsize))
    · exact absurd hcount.le hcopy
  | storeCount e k =>
    rw [hpc] at hmove
    obtain rfl := Option.some.inj hmove
    exact Or.inl (h.storeCount hpc)
  | storeTable e k =>
    rw [hpc] at hmove
    obtain rfl := Option.some.inj hmove
    exact Or.inl (h.storeTable hpc)
  | retestEntry e =>
    have hold : (s.pc t).hasMutex := by rw [hpc]; rfl
    rw [hpc] at hmove hpcs
    have hlt : e < (s.mem.tables s.mem.table).size := hpcs.room
    simp only [DrbLookups.move, access_of_lt hlt] at hmove
    obtain rfl := Option.some.inj hmove
    left
    cases hentry : s.mem.cur.entry e with
    | none =>
      have hnone : (s.mem.tables s.mem.table).entry e = none := hentry
      rw [hnone]
      exact h.goto_held ⟨hpcs, hentry⟩ hold (by rw [hpc]; rfl) (Or.inr (Or.inl rfl))
    | some p =>
      have hsome : (s.mem.tables s.mem.table).entry e = some p := hentry
      rw [hsome]
      refine h.goto_held ⟨p, hentry⟩ hold (by rw [hpc]; rfl) (Or.inr (Or.inr ?_))
      -- an entry that is in use was there before the table was extended
      refine hpcs.size.resolve_right ?_
      rintro ⟨hout, -⟩
      exact absurd (h.mem.queue.inside e p (h.mem.entry ▸ hentry)) (Nat.not_lt_of_le hout)
  | storeEntry e =>
    rw [hpc] at hmove hpcs
    simp only [DrbLookups.move, access_of_lt (show e < (s.mem.tables s.mem.table).size from hpcs.1.room)]
      at hmove
    obtain rfl := Option.some.inj hmove
    exact Or.inr ⟨e, rfl, h.storeEntry hpc⟩
  | unlock e =>
    have hold : (s.pc t).hasMutex := by rw [hpc]; rfl
    rw [hpc] at hmove hpcs
    obtain rfl := Option.some.inj hmove
    refine Or.inl (h.goto hpcs (by rw [hpc]; rfl) (Or.inl (by rw [hpc]; rfl)) (fun u hu => ?_) h.found)
    by_cases hut : u = t
    · subst hut
      rw [setPc_self] at hu
      cases hu
    · exact absurd (h.alone hold (setPc_ne hut ▸ hu)) hut
  | reload e =>
    rw [hpc] at hmove hpcs
    obtain rfl := Option.some.inj hmove
    exact Or.inl (h.goto_free ⟨h.mem.table_lt, hpcs⟩ (by rw [hpc]; rfl) rfl)
  | fetch e k =>
    rw [hpc] at hmove hpcs
    obtain ⟨hk, p, hp⟩ := hpcs
    simp only [DrbLookups.move, access_of_lt (h.mem.inside k hk e p hp)] at hmove
    obtain rfl := Option.some.inj hmove
    refine Or.inl (h.goto trivial (by rw [hpc]; rfl) (Or.inl (by rw [hpc]; rfl)) (fun u hu => ?_) ?_)
    · by_cases hut : u = t
      · subst hut
        rw [setPc_self] at hu
        cases hu
      · exact h.mutex u (setPc_ne hut ▸ hu)
    · intro e' page hmem
      rcases List.mem_append.mp hmem with hmem | hmem
      · exact h.found e' page hmem
      · obtain ⟨rfl, rfl⟩ := Prod.mk.inj (List.mem_singleton.mp hmem)
        exact ⟨p, hp, h.mem.old k hk e' p hp⟩

/-- A move of a thread is for the page index that it looks up. -/
structure SameIndex (s s' : DrbLookups) (t : ℕ) : Prop where
  pc : ∀ u e, (s'.pc u).index? = some e → (s.pc u).index? = some e
  found : ∀ e page, (e, page) ∈ s'.found → (e, page) ∈ s.found ∨ (s.pc t).index? = some e

theorem index_setPc (hpc : ∀ e, pc.index? = some e → (s.pc t).index? = some e) (u e : ℕ)
    (he : ((s.setPc t pc).pc u).index? = some e) : (s.pc u).index? = some e := by
  by_cases hu : u = t
  · subst hu
    rw [setPc_self] at he
    exact hpc e he
  · rwa [setPc_ne hu] at he

theorem SameIndex.goto (hpc : ∀ e, pc.index? = some e → (s.pc t).index? = some e) {m : PageDir}
    {mutex : Option ℕ} {fault : Bool} :
    SameIndex s { s.setPc t pc with mem := m, mutex := mutex, fault := fault } t where
  pc := index_setPc hpc
  found := fun _ _ hmem => Or.inl hmem

theorem SameIndex.access {rest : Option ℕ → DrbLookups} (h : ∀ page, SameIndex s (rest page) t) :
    SameIndex s (s.access k e rest) t := by
  unfold DrbLookups.access
  split_ifs
  · exact h _
  · exact ⟨fun _ _ he => he, fun _ _ hmem => Or.inl hmem⟩

theorem sameIndex_move (hmove : s.move t (s.pc t) = some s') : SameIndex s s' t := by
  have hgoto {e : ℕ} {pc : LookupPc} (hold : (s.pc t).index? = some e) (hnew : pc.index? = some e)
      (e' : ℕ) (he : pc.index? = some e') : (s.pc t).index? = some e' :=
    hold.trans (hnew.symm.trans he)
  cases hpc : s.pc t with
  | idle =>
    rw [hpc] at hmove
    cases hmove
  | testCount e =>
    rw [hpc] at hmove
    obtain rfl := Option.some.inj hmove
    exact .goto (hgoto (e := e) (by rw [hpc]; rfl) (by split_ifs <;> rfl))
  | loadTable e | storeCount e k | storeTable e k | unlock e | reload e =>
    rw [hpc] at hmove
    obtain rfl := Option.some.inj hmove
    exact .goto (hgoto (e := e) (by rw [hpc]; rfl) rfl)
  | testEntry e k | retestEntry e =>
    rw [hpc] at hmove
    obtain rfl := Option.some.inj hmove
    exact .access fun page => .goto (hgoto (e := e) (by rw [hpc]; rfl) (by split_ifs <;> rfl))
  | lock e =>
    rw [hpc] at hmove
    simp only [DrbLookups.move] at hmove
    split_ifs at hmove
    obtain rfl := Option.some.inj hmove
    exact .goto (hgoto (e := e) (by rw [hpc]; rfl) rfl)
  | retest e =>
    rw [hpc] at hmove
    simp only [DrbLookups.move] at hmove
    split_ifs at hmove
    · obtain rfl := Option.some.inj hmove
      exact .goto (hgoto (e := e) (by rw [hpc]; rfl) rfl)
    · obtain ⟨size, -, rfl⟩ := Option.map_eq_some_iff.mp hmove
      exact .goto (hgoto (e := e) (by rw [hpc]; rfl) rfl)
    · obtain ⟨size, -, rfl⟩ := Option.map_eq_some_iff.mp hmove
      exact ⟨fun _ _ he => he, fun _ _ hmem => Or.inl hmem⟩
  | storeEntry e =>
    rw [hpc] at hmove
    obtain rfl := Option.some.inj hmove
    exact .access fun page => .goto (hgoto (e := e) (by rw [hpc]; rfl) rfl)
  | fetch e k =>
    rw [hpc] at hmove
    obtain rfl := Option.some.inj hmove
    refine .access fun page => ⟨index_setPc fun _ he => (by cases he), fun e' page' hmem => ?_⟩
    refine (List.mem_append.mp hmem).imp_right fun hnew => ?_
    obtain ⟨rfl, -⟩ := Prod.mk.inj (List.mem_singleton.mp hnew)
    rw [hpc]
    rfl

/-- A call was made for the page index. -/
def Asked (acts : List LookupAct) (e : ℕ) : Prop := ∃ t, .call t e ∈ acts

theorem Asked.append {acts : List LookupAct} (h : Asked acts e) (acts' : List LookupAct) :
    Asked (acts ++ acts') e := by
  obtain ⟨t, ht⟩ := h
  exact ⟨t, List.mem_append_left _ ht⟩

/-- The invariant for some queue that lookups one after the other lead to, of page indexes that calls
were made for. -/
structure Atomic [Inhabited T] (q₀ : DrbQueue T) (acts : List LookupAct) (s : DrbLookups) : Prop where
  queue : ∃ es q, q₀.lookups es = some q ∧ s.Inv q ∧ ∀ e ∈ es, Asked acts e
  pcs : ∀ t e, (s.pc t).index? = some e → Asked acts e
  found : ∀ e page, (e, page) ∈ s.found → Asked acts e

theorem Atomic.call [Inhabited T] {q₀ : DrbQueue T} {acts : List LookupAct} (h : s.Atomic q₀ acts)
    (hpc : s.pc t = .idle) : (s.setPc t (.testCount e)).Atomic q₀ (acts ++ [.call t e]) where
  queue := by
    obtain ⟨es, q, hes, hinv, hasked⟩ := h.queue
    exact ⟨es, q, hes, hinv.goto_free trivial (by rw [hpc]; rfl) rfl, fun e he => (hasked e he).append _⟩
  pcs := fun u e' he => by
    by_cases hu : u = t
    · subst hu
      rw [setPc_self] at he
      obtain rfl := Option.some.inj he
      exact ⟨u, List.mem_append_right _ (List.mem_singleton_self _)⟩
    · rw [setPc_ne hu] at he
      exact (h.pcs u e' he).append _
  found := fun e page hmem => (h.found e page hmem).append _

theorem Atomic.move [Inhabited T] {q₀ : DrbQueue T} {acts : List LookupAct} (h : s.Atomic q₀ acts)
    (hok : s.FindsRoom (.move t)) (hmove : s.move t (s.pc t) = some s') :
    s'.Atomic q₀ (acts ++ [.move t]) := by
  have hsame := sameIndex_move hmove
  refine ⟨?_, fun u e he => (h.pcs u e (hsame.pc u e he)).append _, fun e page hmem => ?_⟩
  · obtain ⟨es, q, hes, hinv, hasked⟩ := h.queue
    have hasked' (e : ℕ) (he : e ∈ es) : Asked (acts ++ [.move t]) e := (hasked e he).append _
    rcases hinv.move hok hmove with hinv' | ⟨e, he, q', p, hpage, hinv'⟩
    · exact ⟨es, q, hes, hinv', hasked'⟩
    · refine ⟨es ++ [e], q', ?_, hinv', fun e' he' => ?_⟩
      · rw [DrbQueue.lookups_concat, hes, Option.bind_some, hpage]
        rfl
      · rcases List.mem_append.mp he' with he' | he'
        · exact hasked' e' he'
        · exact List.mem_singleton.mp he' ▸ (h.pcs t e he).append _
  · rcases hsame.found e page hmem with hold | he
    · exact (h.found e page hold).append _
    · exact (h.pcs t e he).append _

theorem Atomic.step [Inhabited T] {q₀ : DrbQueue T} {acts : List LookupAct} {a : LookupAct}
    (h : s.Atomic q₀ acts) (hok : s.FindsRoom a) (hstep : s.step a = some s') :
    s'.Atomic q₀ (acts ++ [a]) := by
  cases a with
  | call t e =>
    simp only [DrbLookups.step] at hstep
    split at hstep
    · next hpc =>
      obtain rfl := Option.some.inj hstep
      exact h.call hpc
    · cases hstep
  | move t => exact h.move hok hstep

theorem Inv.init [Inhabited T] {pageMsgCount initPageMsgCount : ℤ}
    (hnew : DrbQueue.new pageMsgCount initPageMsgCount = some q) : (ofQueue q).Inv q := by
  obtain ⟨hok, -⟩ := DrbQueue.ok_new hnew
  refine ⟨rfl, ⟨hok, rfl, rfl, Nat.zero_lt_one, ?_, ?_, le_rfl, hok.count_pos⟩, nofun, fun _ => rfl,
    fun _ => rfl, fun _ => trivial, fun e page hmem => absurd hmem List.not_mem_nil⟩
  · exact fun _ _ _ _ hp => hp
  · exact fun _ _ e p hp => hok.inside e p hp

theorem Atomic.init [Inhabited T] {pageMsgCount initPageMsgCount : ℤ} {q₀ : DrbQueue T}
    (hnew : DrbQueue.new pageMsgCount initPageMsgCount = some q₀) : (ofQueue q₀).Atomic q₀ [] where
  queue := ⟨[], q₀, rfl, .init hnew, fun _ he => absurd he List.not_mem_nil⟩
  pcs := fun _ _ he => by cases he
  found := fun _ _ hmem => absurd hmem List.not_mem_nil

/-- A step that finds no room leaves a thread with an array that is too small for its index. -/
theorem Inv.not_inBounds {a : LookupAct} (hok : ¬s.FindsRoom a) (hstep : s.step a = some s') :
    ¬s'.InBounds := by
  cases a with
  | call t e => exact absurd trivial hok
  | move t =>
    intro hin
    simp only [DrbLookups.step] at hstep
    simp only [FindsRoom] at hok
    cases hpc : s.pc t with
    | loadTable e =>
      simp only [hpc, not_forall] at hok
      obtain ⟨-, hsmall⟩ := hok
      rw [hpc] at hstep
      obtain rfl := Option.some.inj hstep
      exact hsmall (hin.holds t e s.mem.table (congrArg LookupPc.holds? setPc_self))
    | retest e =>
      simp only [hpc, not_forall, not_not] at hok
      obtain ⟨hout, hhit⟩ := hok
      rw [hpc] at hstep
      simp only [DrbLookups.move, if_neg (Nat.not_lt_of_le hout), hhit, Option.map_some] at hstep
      obtain rfl := Option.some.inj hstep
      split_ifs at hin with hcopy
      · have hlt := hin.holds t e s.mem.made (congrArg LookupPc.holds? (setPc_self (s := s)))
        have hsize : ((s.mem.grow e).tables s.mem.made).size = e := by simp [PageDir.grow]
        exact absurd hlt (Nat.not_lt_of_le hsize.le)
      · cases hin.fault
    | _ => simp [hpc] at hok

end DrbLookups

open DrbLookups in
/-- The lookups of any number of threads stay inside the arrays exactly when each of them finds room,
and then they have the effect and the results of lookups one after the other, of page indexes that
were asked for. -/
theorem page_lookups_are_atomic [Inhabited T] {pageMsgCount initPageMsgCount : ℤ} {q₀ : DrbQueue T}
    (hnew : DrbQueue.new pageMsgCount initPageMsgCount = some q₀) {acts : List LookupAct}
    {s : DrbLookups} (hrun : Run DrbLookups.step anyStep (ofQueue q₀) acts s) :
    (Throughout DrbLookups.step (ofQueue q₀) acts (fun _ s => s.InBounds) ↔
      Run DrbLookups.step FindsRoom (ofQueue q₀) acts s) ∧
    (Run DrbLookups.step FindsRoom (ofQueue q₀) acts s → ∃ es q, q₀.lookups es = some q ∧
      (∀ e ∈ es, Asked acts e) ∧
      (∀ e page, (e, page) ∈ s.found →
        Asked acts e ∧ ∃ p, page = some p ∧ q.getMsgPage e = some (q, p)) ∧
      (s.mutex = none → s.mem.count = q.pageIndexCount ∧
        s.mem.cur = ⟨q.pageIndexCount, q.pageIndexes.entry⟩)) := by
  constructor
  · refine hrun.throughout_iff (fun acts s => s.Atomic q₀ acts) (fun _ s => s.InBounds) (.init hnew)
      ?_ ?_ ?_
    · intro _ s h
      obtain ⟨_, _, _, hinv, -⟩ := h.queue
      exact hinv.inBounds
    · exact fun _ _ _ _ h hok hstep => h.step hok hstep
    · exact fun _ _ _ _ _ hok hstep => Inv.not_inBounds hok hstep
  · intro hroom
    have h := hroom.invariant_hist (fun acts s => s.Atomic q₀ acts) (.init hnew)
      fun _ _ _ _ h hok hstep => h.step hok hstep
    obtain ⟨es, q, hes, hinv, hasked⟩ := h.queue
    refine ⟨es, q, hes, hasked, fun e page hmem => ⟨h.found e page hmem, ?_⟩, fun hfree => ?_⟩
    · obtain ⟨p, rfl, hp⟩ := hinv.found e page hmem
      exact ⟨p, rfl, hinv.mem.queue.getMsgPage_of_entry (hinv.mem.entry ▸ hp)⟩
    · have hnone (t : ℕ) : (s.pc t).hasMutex = false := by
        by_contra hheld
        have hmutex := hinv.mutex t (by simpa using hheld)
        rw [hfree] at hmutex
        cases hmutex
      have hcount := hinv.count fun t => growing_of_free (hnone t)
      have hview := hinv.view fun t => filling_of_free (hnone t)
      refine ⟨hcount.trans hview.symm, ?_⟩
      rw [hview, ← hinv.mem.entry]

/-- Two threads look up page 1 of a table with one entry, and one of them extends it. -/
def growthOfTwo : List LookupAct :=
  [.call 0 1, .call 1 1, .move 0, .move 1, .move 0, .move 0, .move 0, .move 0, .move 0, .move 0, .move 0,
    .move 1, .move 1, .move 1, .move 1, .move 0, .move 0, .move 1, .move 1]

/-- A test that is enough for a step to find room. -/
def DrbLookups.roomy (s : DrbLookups) : LookupAct → Bool
  | .call _ _ => true
  | .move t => match s.pc t with
    | .loadTable e => decide (e < s.mem.cur.size)
    | .retest e => decide (DrbQueue.extendLoop e (e + 1) (s.mem.count <<< 1) ≠ some e)
    | _ => true

theorem DrbLookups.findsRoom_of_roomy {s : DrbLookups} {a : LookupAct} (h : s.roomy a = true) :
    s.FindsRoom a := by
  cases a with
  | call t e => trivial
  | move t =>
    simp only [roomy] at h
    simp only [FindsRoom]
    cases hpc : s.pc t with
    | loadTable e => exact fun _ => of_decide_eq_true (by simpa [hpc] using h)
    | retest e => exact fun _ => of_decide_eq_true (by simpa [hpc] using h)
    | _ => trivial

open DrbLookups in
theorem page_lookups_are_atomic_two_threads :
    ∃ q₀ s, DrbQueue.new (T := ℕ) 2 1 = some q₀ ∧
      Run DrbLookups.step anyStep (ofQueue q₀) growthOfTwo s ∧ s.found = [(1, some 1), (1, some 1)] ∧
      Throughout DrbLookups.step (ofQueue q₀) growthOfTwo (fun _ s => s.InBounds) ∧
      ∃ es q, q₀.lookups es = some q ∧ q.getMsgPage 1 = some (q, 1) := by
  obtain ⟨q₀, hnew⟩ : ∃ q₀, DrbQueue.new (T := ℕ) 2 1 = some q₀ := ⟨_, rfl⟩
  have hexec : ((DrbQueue.new (T := ℕ) 2 1).bind fun q₀ =>
      (exec (fun s a => if s.roomy a then s.step a else none) (ofQueue q₀) growthOfTwo).map
        DrbLookups.found) = some [(1, some 1), (1, some 1)] := by decide +kernel
  rw [hnew, Option.bind_some] at hexec
  obtain ⟨s, hs, hfound⟩ := Option.map_eq_some_iff.mp hexec
  have hroom : Run DrbLookups.step FindsRoom (ofQueue q₀) growthOfTwo s :=
    .of_exec_guard roomy (fun _ _ _ h => findsRoom_of_roomy h) hs
  have hrun : Run DrbLookups.step anyStep (ofQueue q₀) growthOfTwo s :=
    hroom.weaken fun _ _ _ => trivial
  obtain ⟨hiff, hatomic⟩ := page_lookups_are_atomic hnew hrun
  obtain ⟨es, q, hes, -, hpages, -⟩ := hatomic hroom
  obtain ⟨-, p, hp, hpage⟩ := hpages 1 (some 1) (by rw [hfound]; exact List.mem_cons_self)
  obtain rfl := Option.some.inj hp
  exact ⟨q₀, s, hnew, hrun, hfound, hiff.mpr hroom, es, q, hes, hpage⟩

/-- A thread reads the new size, and takes the old table before the new one is stored. -/
def tornGrowth : List LookupAct :=
  [.call 0 1, .move 0, .move 0, .move 0, .move 0, .call 1 1, .move 1, .move 1, .move 1]

open DrbLookups in
theorem torn_growth_leaves_table : ∃ q₀ s, DrbQueue.new (T := ℕ) 2 1 = some q₀ ∧
    Run DrbLookups.step anyStep (ofQueue q₀) tornGrowth s ∧ s.fault = true := by
  refine ⟨_, _, rfl, .of_exec (fun _ _ _ => trivial) rfl, rfl⟩

end TcpLib
