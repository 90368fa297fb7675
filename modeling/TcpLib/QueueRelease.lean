import TcpLib.DrbGrowth
import TcpLib.QueueDelivery
import TcpLib.ServerNotify
import Mathlib.Algebra.BigOperators.Intervals
import Mathlib.Algebra.Order.BigOperators.Group.Finset

/-!
# The destructors of the queues

`release` goes over the entries of the table with an `int`, also where the table has more entries
than an `int` can count. The durable queue frees only the table that it has at the end; the ones that
it replaced stay allocated.
-/

namespace TcpLib
open Transition Finset
variable {g : PageShape} {T : Type*}

namespace SrtQueue

def release (q : SrtQueue g T) : Option (SrtQueue g T) :=
  (q.pageIndexes.release intMax g.pageIndexCount).map fun table => { q with pageIndexes := table }

/-- Only entries of the table have a page. -/
def Inside (q : SrtQueue g T) : Prop :=
  ∀ e p, q.pageIndexes.entry e = some p → e < g.pageIndexCount

variable {q q' : SrtQueue g T} {i p e : ℕ}

theorem Inside.modify {f : SrtMessage T → SrtMessage T} (h : q.Inside) (hq : q.modify p i f = some q') :
    q'.Inside := by
  obtain ⟨t, ht, rfl⟩ := Option.map_eq_some_iff.mp hq
  obtain ⟨slots, -, rfl⟩ := Option.map_eq_some_iff.mp ht
  exact h

theorem Inside.deletePage (h : q.Inside) (hq : q.deletePage p = some q') : q'.Inside := by
  obtain ⟨t, ht, rfl⟩ := Option.map_eq_some_iff.mp hq
  obtain ⟨slots, -, rfl⟩ := Option.map_eq_some_iff.mp ht
  exact h

theorem Inside.clearPage (h : q.Inside) : (q.clearPage e).Inside := by
  intro e' p hp
  by_cases hee : e' = e
  · subst hee
    exact absurd (hp.symm.trans PageTable.entry_clear) (by simp)
  · exact h e' p ((PageTable.entry_clear_ne hee).symm.trans hp)

/-- Every index is masked before its page is looked up. -/
theorem Inside.getMsgPage [Inhabited T] (h : q.Inside) (i : ℕ) : (q.getMsgPage (g.pageIndex i)).1.Inside := by
  intro e p hp
  by_cases he : e = g.pageIndex i
  · rw [he, PageShape.pageIndex_eq]
    exact Nat.mod_lt _ PageShape.pageIndexCount_pos
  · exact h e p ((PageTable.entry_getPage_ne he).symm.trans hp)

theorem Inside.init [Inhabited T] : (init g : SrtQueue g T).Inside := by
  intro e p hp
  by_cases he : e = 0
  · exact he ▸ PageShape.pageIndexCount_pos
  · exact absurd ((PageTable.entry_getPage_ne he).symm.trans hp) (by simp)

end SrtQueue

namespace QueueSys
variable {s s' : QueueSys g T}

theorem inside_access {α : Type*} {r : Option α} {k : α → QueueSys g T} (h : s.queue.Inside)
    (hk : ∀ a, r = some a → (k a).queue.Inside) : (s.access r k).queue.Inside := by
  cases r with
  | none => exact h
  | some a => exact hk a rfl

variable [Inhabited T] {a : QueueAct T}

theorem inside_step (h : s.queue.Inside) (hstep : step s a = some s') : s'.queue.Inside := by
  cases a with
  | test t msg =>
    unfold step at hstep
    cases hpc : s.pushing t <;> simp only [hpc] at hstep <;> cases hstep
    split_ifs <;> exact h
  | reserve t =>
    unfold step at hstep
    cases hpc : s.pushing t <;> simp only [hpc] at hstep <;> cases hstep
    exact h
  | lookup t =>
    unfold step at hstep
    cases hpc : s.pushing t <;> simp only [hpc] at hstep <;> cases hstep
    exact h.getMsgPage _
  | store t =>
    unfold step at hstep
    cases hpc : s.pushing t <;> simp only [hpc] at hstep <;> cases hstep
    exact inside_access h fun q hq => h.modify hq
  | publish t =>
    unfold step at hstep
    cases hpc : s.pushing t <;> simp only [hpc] at hstep <;> cases hstep
    exact inside_access h fun q hq => h.modify hq
  | popStart =>
    unfold step at hstep
    cases hpc : s.popping <;> simp only [hpc] at hstep <;> cases hstep
    split_ifs <;> exact h
  | popLookup =>
    unfold step at hstep
    cases hpc : s.popping <;> simp only [hpc] at hstep <;> cases hstep
    exact h.getMsgPage _
  | popCheck =>
    unfold step at hstep
    cases hpc : s.popping <;> simp only [hpc] at hstep <;> cases hstep
    refine inside_access h fun m _ => ?_
    split_ifs <;> exact h
  | popDelete =>
    unfold step at hstep
    cases hpc : s.popping <;> simp only [hpc] at hstep <;> cases hstep
    exact inside_access h fun q hq => h.deletePage hq
  | popClear =>
    unfold step at hstep
    cases hpc : s.popping <;> simp only [hpc] at hstep <;> cases hstep
    exact h.clearPage
  | popNext =>
    unfold step at hstep
    cases hpc : s.popping <;> simp only [hpc] at hstep <;> cases hstep
    exact h

end QueueSys

open QueueSys in
/-- Once no thread is in a call, the destructor frees every page that `pop` did not free, exactly
when the size of the table is an `int`. -/
theorem destructor_frees_each_page [Inhabited T] {acts : List (QueueAct T)} {s : QueueSys g T}
    (hrun : Run step HasRoom (init g) acts s) (hquiet : s.Quiet) :
    (s.queue.release.isSome ↔ g.pageIndexCount ≤ intMax) ∧
      ∀ q, s.queue.release = some q → q.pageIndexes.Released s.queue.pageIndexes.next := by
  obtain ⟨hi, hinside⟩ := hrun.invariant (fun s => s.Inv ∧ s.queue.Inside) ⟨.init, .init⟩
    fun _ _ _ h hroom hstep => ⟨h.1.keep hroom hstep, inside_step h.2 hstep⟩
  have hlive (e : ℕ) : s.queue.pageIndexes.Live e := hi.live e (by simp [dangling, hquiet.popping])
  obtain ⟨hiff, hreleased⟩ := hi.wf.release intMax hlive hinside
  refine ⟨Option.isSome_map.symm ▸ hiff, fun q hq => ?_⟩
  obtain ⟨t, ht, rfl⟩ := Option.map_eq_some_iff.mp hq
  exact hreleased t ht

open QueueSys in
theorem destructor_frees_each_page_three_messages :
    ∃ acts, ∃ s : QueueSys ⟨1, 2⟩ ℕ, Run step HasRoom (init ⟨1, 2⟩) acts s ∧ s.Quiet ∧
      s.queue.postIndex = 3 ∧
      ∃ q, s.queue.release = some q ∧ q.pageIndexes.Released s.queue.pageIndexes.next := by
  obtain ⟨acts, s, hrun, -, hquiet, hpost, -⟩ :=
    exists_quiet_pushes (g := ⟨1, 2⟩) (0 : ℕ) (n := 3) (by decide)
  obtain ⟨hiff, hreleased⟩ := destructor_frees_each_page hrun hquiet
  obtain ⟨q, hq⟩ := Option.isSome_iff_exists.mp (hiff.mpr (by decide))
  exact ⟨acts, s, hrun, hquiet, hpost, q, hq, hreleased q hq⟩

/-! ## The durable queue -/

/-- What was freed: pages, and arrays by their number. -/
structure Freed where
  pages : PageTable Unit
  arrays : List ℕ

namespace PageDir

/-- The pages that were allocated, under the entries of the array that `page_indexes_` points to. -/
def pageTable (m : PageDir) : PageTable Unit where
  entry := m.cur.entry
  page := fun p => if p < m.pages then some fun _ => () else none
  next := m.pages

/-- `release` of `drb_queue`: the pages under the entries, and then `page_indexes_` itself. -/
def release (m : PageDir) : Option Freed :=
  (m.pageTable.release intMax m.count).map fun pages => ⟨pages, [m.table]⟩

/-- What the destructor does to the memory. -/
structure Destroyed (m : PageDir) : Prop where
  returns : m.release.isSome ↔ m.cur.size ≤ intMax
  pages : ∀ f, m.release = some f → f.pages.Released m.pages
  arrays : ∀ f, m.release = some f → ∀ k < m.made, k ∈ f.arrays ↔ k + 1 = m.made
  double : ∀ k, k + 1 < m.made → 2 * (m.tables k).size ≤ (m.tables (k + 1)).size
  leaked : ∑ k ∈ range (m.made - 1), (m.tables k).size ≤ m.cur.size

end PageDir

namespace DrbQueue
variable [Inhabited T] {q q' : DrbQueue T} {e p : ℕ}

theorem freed_pageAt (h : q.pageAt e = some (q', p)) : q'.pageIndexes.freed = q.pageIndexes.freed := by
  unfold pageAt at h
  split_ifs at h
  obtain ⟨rfl, -⟩ := Prod.mk.inj (Option.some.inj h)
  exact PageTable.freed_getPage

theorem freed_getMsgPage (h : q.getMsgPage e = some (q', p)) : q'.pageIndexes.freed = q.pageIndexes.freed := by
  unfold getMsgPage at h
  split_ifs at h
  · -- the entries are copied, and what was freed stays
    obtain ⟨q₁, hextend, h⟩ := Option.bind_eq_some_iff.mp h
    obtain ⟨size, -, rfl⟩ := Option.map_eq_some_iff.mp hextend
    exact (freed_pageAt h).trans rfl
  · exact freed_pageAt h

theorem freed_lookups {es : List ℕ} (h : q.lookups es = some q') :
    q'.pageIndexes.freed = q.pageIndexes.freed := by
  induction es using List.reverseRecOn generalizing q' with
  | nil =>
    obtain rfl := Option.some.inj h
    rfl
  | append_singleton es e ih =>
    rw [lookups_concat] at h
    obtain ⟨q₁, hes, h⟩ := Option.bind_eq_some_iff.mp h
    obtain ⟨⟨q₂, p⟩, hpage, rfl⟩ := Option.map_eq_some_iff.mp h
    exact (freed_getMsgPage hpage).trans (ih hes)

theorem freed_new {pageMsgCount initPageMsgCount : ℤ} (h : new pageMsgCount initPageMsgCount = some q) :
    q.pageIndexes.freed = [] := by
  obtain ⟨bits, -, h⟩ := Option.bind_eq_some_iff.mp h
  split_ifs at h
  obtain rfl := Option.some.inj h
  exact PageTable.freed_getPage

end DrbQueue

/-- No page was freed before the destructor, so all are under the entries of the array. -/
theorem PageDir.Shows.pageTable_wf {m : PageDir} {q : DrbQueue T} (h : m.Shows q)
    (hfreed : q.pageIndexes.freed = []) : m.pageTable.WF where
  entry_lt := fun e p hp => (h.queue.wf.entry_lt e p (h.entry ▸ hp)).trans_eq h.pages.symm
  inj := fun e e' p hp hp' => h.queue.wf.inj e e' p (h.entry ▸ hp) (h.entry ▸ hp')
  held := fun p hp => by
    have hlt : p < m.pages := by
      by_contra hno
      simp [pageTable, hno] at hp
    have hlive := (h.queue.wf.all p (h.pages ▸ hlt)).resolve_right (by simp [hfreed])
    obtain ⟨e, he⟩ := h.queue.wf.held p hlive
    exact ⟨e, (congrFun h.entry e).trans he⟩
  freed_lt := fun p hp => absurd hp List.not_mem_nil
  freed := fun p hp => absurd hp List.not_mem_nil
  nodup := List.nodup_nil
  all := fun p hp => Or.inl (by
    have hlt : p < m.pages := hp
    simp [pageTable, hlt])

theorem PageDir.Shows.release {m : PageDir} {q : DrbQueue T} (h : m.Shows q)
    (hfreed : q.pageIndexes.freed = []) (hcount : m.count = m.cur.size) :
    (m.release.isSome ↔ m.cur.size ≤ intMax) ∧
      ∀ f, m.release = some f → f.pages.Released m.pages ∧ f.arrays = [m.table] := by
  have hwf := h.pageTable_wf hfreed
  have hlive (e : ℕ) : m.pageTable.Live e := by
    intro p hp
    have hlt : p < m.pages := hwf.entry_lt e p hp
    simp [pageTable, hlt]
  obtain ⟨hiff, hreleased⟩ := hwf.release intMax hlive fun e p hp => h.inside m.table h.table_lt e p hp
  unfold PageDir.release
  rw [hcount]
  refine ⟨Option.isSome_map.symm ▸ hiff, fun f hf => ?_⟩
  obtain ⟨t, ht, rfl⟩ := Option.map_eq_some_iff.mp hf
  exact ⟨hreleased t ht, rfl⟩

/-- The array that a thread is about to make the table. -/
def LookupPc.carries? : LookupPc → Option ℕ
  | .storeCount _ k | .storeTable _ k => some k
  | _ => none

namespace DrbLookups

/-- Every array is at least twice as large as the one before it, and the table is the last of them
but for one that a thread is about to store. -/
structure Doubles (s : DrbLookups) : Prop where
  double : ∀ k, k + 1 < s.mem.made → 2 * (s.mem.tables k).size ≤ (s.mem.tables (k + 1)).size
  carried : ∀ t k, (s.pc t).carries? = some k → k = s.mem.table + 1 ∧ s.mem.made = s.mem.table + 2
  last : (∀ t, (s.pc t).carries? = none) → s.mem.made = s.mem.table + 1

variable {s s' : DrbLookups} {q : DrbQueue T} {t e k : ℕ} {pc : LookupPc}

theorem carries_hasMutex (h : pc.carries? = some k) : pc.hasMutex := by
  cases pc <;> first | rfl | cases h

/-- A step of a thread that has no array of its own and gets none. -/
theorem Doubles.goto (h : s.Doubles) {m : PageDir} {mutex : Option ℕ} {found : List (ℕ × Option ℕ)}
    {fault : Bool} (hsize : ∀ k, (m.tables k).size = (s.mem.tables k).size) (hmade : m.made = s.mem.made)
    (htable : m.table = s.mem.table) (hpc : pc.carries? = (s.pc t).carries?) :
    Doubles { s.setPc t pc with mem := m, mutex := mutex, found := found, fault := fault } := by
  have hcarries (u : ℕ) : ((s.setPc t pc).pc u).carries? = (s.pc u).carries? := by
    by_cases hu : u = t
    · rw [hu, setPc_self, hpc]
    · rw [setPc_ne hu]
  refine ⟨fun k hk => ?_, fun u k hk => ?_, fun hnone => ?_⟩
  · rw [hsize, hsize]
    exact h.double k (hmade ▸ hk)
  · have hold := h.carried u k ((hcarries u).symm.trans hk)
    exact ⟨hold.1.trans (by rw [htable]), hmade.trans (hold.2.trans (by rw [htable]))⟩
  · have hold := h.last fun u => (hcarries u).symm.trans (hnone u)
    exact hmade.trans (hold.trans (by rw [htable]))

theorem Doubles.access (h : s.Doubles) {rest : Option ℕ → DrbLookups}
    (hrest : ∀ page, (rest page).Doubles) : (s.access k e rest).Doubles := by
  unfold DrbLookups.access
  split_ifs
  · exact hrest _
  · exact ⟨h.double, h.carried, h.last⟩

theorem Inv.carries_alone (hi : s.Inv q) (hold : (s.pc t).hasMutex) {u : ℕ}
    (hk : (s.pc u).carries? = some k) : u = t :=
  hi.alone hold (carries_hasMutex hk)

theorem size_fill (m : PageDir) (e k : ℕ) : ((m.fill e).tables k).size = (m.tables k).size := by
  by_cases hk : k = m.table
  · simp [PageDir.fill, PageDir.cur, hk]
  · simp [PageDir.fill, hk]

/-- A growth makes an array of twice the size at least. -/
theorem Doubles.grow (h : s.Doubles) (hi : s.Inv q) (hpc : s.pc t = .retest e) {size : ℕ}
    (hsize : DrbQueue.extendLoop e (e + 1) (s.mem.count <<< 1) = some size) :
    Doubles { s.setPc t (.storeCount e s.mem.made) with mem := s.mem.grow size } := by
  have hold : (s.pc t).hasMutex := by rw [hpc]; rfl
  have hnone (u : ℕ) : (s.pc u).carries? = none := by
    cases hu : (s.pc u).carries? with
    | none => rfl
    | some k =>
      rw [hi.carries_alone hold hu, hpc] at hu
      cases hu
  have hmade := h.last hnone
  have hcount := hi.not_growing hold (by rw [hpc]; rfl)
  have hpos := hi.mem.count_pos
  have hdouble : s.mem.count <<< 1 = 2 * s.mem.cur.size := by
    rw [Nat.shiftLeft_eq, pow_one, hcount, Nat.mul_comm]
  obtain ⟨n, hloop, -, -⟩ := DrbQueue.extendLoop_spec e (e + 1) (s.mem.count <<< 1) (by omega) (by omega)
    (Nat.succ_pos _)
  have hle : 2 * s.mem.cur.size ≤ size := by
    rw [Option.some.inj (hsize.symm.trans hloop), hdouble]
    exact Nat.le_mul_of_pos_right _ (Nat.two_pow_pos n)
  refine ⟨fun k hk => ?_, fun u k hk => ?_, fun hno => ?_⟩
  · change k + 1 < s.mem.made + 1 at hk
    have hk' : k ≠ s.mem.made := by omega
    simp only [PageDir.grow, Function.update_of_ne hk']
    by_cases hlast : k + 1 = s.mem.made
    · obtain rfl : k = s.mem.table := by omega
      simpa [hlast, PageDir.cur] using hle
    · rw [Function.update_of_ne hlast]
      exact h.double k (by omega)
  · by_cases hu : u = t
    · subst hu
      obtain rfl : s.mem.made = k := by simpa [LookupPc.carries?] using hk
      exact ⟨hmade, congrArg (· + 1) hmade⟩
    · have hk' := (congrArg LookupPc.carries? (setPc_ne (s := s) hu)).symm.trans hk
      rw [hnone] at hk'
      cases hk'
  · have ht := hno t
    simp [LookupPc.carries?] at ht

/-- The array that was carried is the table now. -/
theorem Doubles.storeTable (h : s.Doubles) (hi : s.Inv q) (hpc : s.pc t = .storeTable e k) :
    Doubles { s.setPc t (.retestEntry e) with mem := { s.mem with table := k } } := by
  have hold : (s.pc t).hasMutex := by rw [hpc]; rfl
  obtain ⟨rfl, hmade⟩ := h.carried t k (by rw [hpc]; rfl)
  refine ⟨h.double, fun u k hk => ?_, fun _ => hmade⟩
  by_cases hu : u = t
  · subst hu
    simp [LookupPc.carries?] at hk
  · have hk' := (congrArg LookupPc.carries? (setPc_ne (s := s) hu)).symm.trans hk
    exact absurd (hi.carries_alone hold hk') hu

theorem Doubles.move (h : s.Doubles) (hi : s.Inv q) (hmove : s.move t (s.pc t) = some s') :
    s'.Doubles := by
  cases hpc : s.pc t with
  | idle =>
    rw [hpc] at hmove
    cases hmove
  | testCount e =>
    rw [hpc] at hmove
    obtain rfl := Option.some.inj hmove
    exact h.goto (fun _ => rfl) rfl rfl (by rw [hpc]; split_ifs <;> rfl)
  | loadTable e | unlock e | reload e =>
    rw [hpc] at hmove
    obtain rfl := Option.some.inj hmove
    exact h.goto (fun _ => rfl) rfl rfl (by rw [hpc]; rfl)
  | storeCount e k =>
    rw [hpc] at hmove
    obtain rfl := Option.some.inj hmove
    exact h.goto (fun _ => rfl) rfl rfl (by rw [hpc]; rfl)
  | testEntry e k =>
    rw [hpc] at hmove
    obtain rfl := Option.some.inj hmove
    exact h.access fun page => h.goto (fun _ => rfl) rfl rfl (by rw [hpc]; split_ifs <;> rfl)
  | lock e =>
    rw [hpc] at hmove
    simp only [DrbLookups.move] at hmove
    split_ifs at hmove
    obtain rfl := Option.some.inj hmove
    exact h.goto (fun _ => rfl) rfl rfl (by rw [hpc]; rfl)
  | retest e =>
    rw [hpc] at hmove
    simp only [DrbLookups.move] at hmove
    split_ifs at hmove with hlt hcopy
    · obtain rfl := Option.some.inj hmove
      exact h.goto (fun _ => rfl) rfl rfl (by rw [hpc]; rfl)
    · obtain ⟨size, hsize, rfl⟩ := Option.map_eq_some_iff.mp hmove
      exact h.grow hi hpc hsize
    · obtain ⟨size, -, rfl⟩ := Option.map_eq_some_iff.mp hmove
      exact ⟨h.double, h.carried, h.last⟩
  | storeTable e k =>
    rw [hpc] at hmove
    obtain rfl := Option.some.inj hmove
    exact h.storeTable hi hpc
  | retestEntry e =>
    rw [hpc] at hmove
    obtain rfl := Option.some.inj hmove
    exact h.access fun page => h.goto (fun _ => rfl) rfl rfl (by rw [hpc]; split_ifs <;> rfl)
  | storeEntry e =>
    rw [hpc] at hmove
    obtain rfl := Option.some.inj hmove
    exact h.access fun _ => h.goto (size_fill s.mem e) rfl rfl (by rw [hpc]; rfl)
  | fetch e k =>
    rw [hpc] at hmove
    obtain rfl := Option.some.inj hmove
    exact h.access fun page => h.goto (fun _ => rfl) rfl rfl (by rw [hpc]; rfl)

theorem Doubles.step (h : s.Doubles) (hi : s.Inv q) {a : LookupAct} (hstep : s.step a = some s') :
    s'.Doubles := by
  cases a with
  | call t e =>
    simp only [DrbLookups.step] at hstep
    split at hstep
    · next hpc =>
      obtain rfl := Option.some.inj hstep
      exact h.goto (fun _ => rfl) rfl rfl (by rw [hpc]; rfl)
    · cases hstep
  | move t => exact h.move hi hstep

theorem Doubles.init (q : DrbQueue T) : (ofQueue q).Doubles where
  double := fun _ hk => absurd hk (by simp [ofQueue])
  carried := nofun
  last := fun _ => rfl

/-- A geometric sum. -/
theorem sum_le_of_double {n : ℕ} {f : ℕ → ℕ} (h : ∀ k < n, 2 * f k ≤ f (k + 1)) :
    ∑ k ∈ range n, f k ≤ f n := by
  induction n with
  | zero => exact Nat.zero_le _
  | succ n ih =>
    have hsum := ih fun k hk => h k (Nat.lt_succ_of_lt hk)
    have hlast := h n (Nat.lt_succ_self n)
    rw [sum_range_succ]
    omega

end DrbLookups

open DrbLookups in
/-- After any lookups that found room the destructor frees every page and the last array, exactly
when its size is an `int`. The arrays before it stay allocated; each is at most half as large as the
next, and together they are no larger than the last. -/
theorem replaced_tables_stay_small [Inhabited T] {pageMsgCount initPageMsgCount : ℤ} {q₀ : DrbQueue T}
    (hnew : DrbQueue.new pageMsgCount initPageMsgCount = some q₀) {acts : List LookupAct}
    {s : DrbLookups} (hrun : Run DrbLookups.step FindsRoom (ofQueue q₀) acts s) (hfree : s.mutex = none) :
    s.mem.Destroyed := by
  obtain ⟨hatomic, hdoubles⟩ := hrun.invariant_hist (fun acts s => s.Atomic q₀ acts ∧ s.Doubles)
    ⟨.init hnew, .init q₀⟩ fun acts s a s' h hok hstep => by
      obtain ⟨_, _, _, hi, -⟩ := h.1.queue
      exact ⟨h.1.step hok hstep, h.2.step hi hstep⟩
  obtain ⟨es, q, hes, hi, -⟩ := hatomic.queue
  have hnone (t : ℕ) : (s.pc t).hasMutex = false := by
    by_contra hheld
    have hmutex := hi.mutex t (by simpa using hheld)
    rw [hfree] at hmutex
    cases hmutex
  have hmade : s.mem.made = s.mem.table + 1 := by
    refine hdoubles.last fun t => ?_
    cases hk : (s.pc t).carries? with
    | none => rfl
    | some k =>
      have hheld := carries_hasMutex hk
      rw [hnone] at hheld
      cases hheld
  have hcount := hi.count fun t => growing_of_free (hnone t)
  have hfreed := (DrbQueue.freed_lookups hes).trans (DrbQueue.freed_new hnew)
  obtain ⟨hiff, hreleased⟩ := hi.mem.release hfreed hcount
  refine ⟨hiff, fun f hf => (hreleased f hf).1, fun f hf k _ => ?_, hdoubles.double, ?_⟩
  · rw [(hreleased f hf).2, hmade, List.mem_singleton]
    omega
  · rw [hmade, Nat.add_sub_cancel]
    exact sum_le_of_double fun k hk => hdoubles.double k (by omega)

open DrbLookups in
theorem replaced_tables_stay_small_two_threads :
    ∃ q₀ s, DrbQueue.new (T := ℕ) 2 1 = some q₀ ∧
      Run DrbLookups.step FindsRoom (ofQueue q₀) growthOfTwo s ∧ s.mutex = none ∧ s.mem.made = 2 ∧
      (∃ f, s.mem.release = some f ∧ f.arrays = [1]) ∧ s.mem.Destroyed := by
  obtain ⟨q₀, hnew⟩ : ∃ q₀, DrbQueue.new (T := ℕ) 2 1 = some q₀ := ⟨_, rfl⟩
  have hexec : ((DrbQueue.new (T := ℕ) 2 1).bind fun q₀ =>
      (exec (fun s a => if s.roomy a then s.step a else none) (ofQueue q₀) growthOfTwo).map
        fun s => (s.mutex, s.mem.made, s.mem.release.map Freed.arrays)) =
          some (none, 2, some [1]) := by decide +kernel
  rw [hnew, Option.bind_some] at hexec
  obtain ⟨s, hs, heq⟩ := Option.map_eq_some_iff.mp hexec
  obtain ⟨hmutex, heq⟩ := Prod.mk.inj heq
  obtain ⟨hmade, hfreed⟩ := Prod.mk.inj heq
  have hroom : Run DrbLookups.step FindsRoom (ofQueue q₀) growthOfTwo s :=
    .of_exec_guard roomy (fun _ _ _ h => findsRoom_of_roomy h) hs
  exact ⟨q₀, s, hnew, hroom, hmutex, hmade, Option.map_eq_some_iff.mp hfreed,
    replaced_tables_stay_small hnew hroom hmutex⟩

end TcpLib
