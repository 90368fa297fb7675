import TcpLib.QueueDelivery

/-!
# Concurrent page lookups of the queue

`get_msg_page` of `srt_queue` tests the entry without the mutex, again with it, and reads it once more
for its result. `QueueSys` has all of that in one step. Here every access to the entry is a step, and
the steps of the producers and of the consumer, which frees pages and clears their entries, come in
any order. As long as the reserved indexes have room this makes no difference.
-/

namespace TcpLib
open Transition TicketRing
variable {g : PageShape} {T : Type*}

inductive QueueThread
  | producer (t : ℕ)
  | consumer
  deriving DecidableEq

/-- Where a thread is in `get_msg_page`, with the page index. -/
inductive FindPc
  | outside
  | lock (e : ℕ)
  | retest (e : ℕ)
  | store (e : ℕ)
  | unlock (e : ℕ)
  | reload (e : ℕ)
  deriving DecidableEq

def FindPc.hasMutex : FindPc → Bool
  | .retest _ | .store _ | .unlock _ => true
  | _ => false

/-- A thread in `get_msg_page` is before its lookup in `sys`. -/
structure SrtLookups (g : PageShape) (T : Type*) where
  sys : QueueSys g T
  finding : QueueThread → FindPc := fun _ => .outside
  mutex : Option QueueThread := none

/-- `find` is an access of the thread in `get_msg_page`, and `queue` one outside of it. -/
inductive FindAct (T : Type*)
  | queue (a : QueueAct T)
  | find (c : QueueThread)

def QueueAct.isLookup : QueueAct T → Bool
  | .lookup _ | .popLookup => true
  | _ => false

/-- The lookup of a thread as one step. -/
def QueueThread.lookup : QueueThread → QueueAct T
  | .producer t => .lookup t
  | .consumer => .popLookup

namespace PageTable
variable {S : Type*}

/-- A new page under an entry, whatever was there. -/
def putPage (t : PageTable S) (zero : S) (e : ℕ) : PageTable S :=
  { t with
    entry := Function.update t.entry e (some t.next)
    page := Function.update t.page t.next (some fun _ => zero)
    next := t.next + 1 }

theorem getPage_of_none {t : PageTable S} {e : ℕ} (h : t.entry e = none) (zero : S) :
    t.getPage zero e = (t.putPage zero e, t.next) := by
  simp only [getPage, h, putPage]

end PageTable

namespace QueueSys

/-- The page index that the thread is to look up. -/
def wanted? (s : QueueSys g T) : QueueThread → Option ℕ
  | .producer t => match s.pushing t with
    | .reserved i _ => some (g.pageIndex i)
    | _ => none
  | .consumer => match s.popping with
    | .started => some (g.pageIndex s.queue.getIndex)
    | _ => none

/-- The thread goes on with the page. -/
def setFound (s : QueueSys g T) (page : ℕ) : QueueThread → QueueSys g T
  | .producer t => match s.pushing t with
    | .reserved i msg => s.setPush t (.found i page msg)
    | _ => s
  | .consumer => { s with popping := .found page }

/-- A thread that gets no page uses the null pointer. -/
def returned (s : QueueSys g T) (c : QueueThread) : Option ℕ → QueueSys g T
  | some page => s.setFound page c
  | none => { s with fault := true }

/-- What is under an entry of the page table. -/
def entry (s : QueueSys g T) (e : ℕ) : Option ℕ := s.queue.pageIndexes.entry e

variable [Inhabited T]

/-- A new zeroed page is stored under the entry. -/
def putPage (s : QueueSys g T) (e : ℕ) : QueueSys g T :=
  { s with queue := { s.queue with pageIndexes := s.queue.pageIndexes.putPage SrtQueue.zeroed e } }

end QueueSys

namespace SrtLookups

def setFind (s : SrtLookups g T) (c : QueueThread) (pc : FindPc) : SrtLookups g T :=
  { s with finding := Function.update s.finding c pc }

variable [Inhabited T]

def init (g : PageShape) : SrtLookups g T where
  sys := .init g

/-- An access in `get_msg_page`. Only its thread has the new page until it is stored. -/
def find (s : SrtLookups g T) (c : QueueThread) : Option (SrtLookups g T) :=
  match s.finding c with
  | .outside => (s.sys.wanted? c).map fun e =>
    s.setFind c (if (s.sys.entry e).isSome then .reload e else .lock e)
  | .lock e => if s.mutex.isNone then some { s.setFind c (.retest e) with mutex := some c } else none
  | .retest e => some (s.setFind c (if (s.sys.entry e).isSome then .unlock e else .store e))
  | .store e => some { s.setFind c (.unlock e) with sys := s.sys.putPage e }
  | .unlock e => some { s.setFind c (.reload e) with mutex := none }
  | .reload e => some { s.setFind c .outside with sys := s.sys.returned c (s.sys.entry e) }

def step (s : SrtLookups g T) : FindAct T → Option (SrtLookups g T)
  | .queue a => if a.isLookup then none else (s.sys.step a).map fun sys => { s with sys := sys }
  | .find c => s.find c

def HasRoom (s : SrtLookups g T) : FindAct T → Prop
  | .queue a => s.sys.HasRoom a
  | .find _ => True

/-- What a step does besides the lookups. -/
def beside : FindAct T → List (QueueAct T)
  | .queue a => [a]
  | .find _ => []

end SrtLookups

/-- What an action of the queue does besides the lookups. -/
def QueueAct.beside (a : QueueAct T) : List (QueueAct T) := if a.isLookup then [] else [a]

/-! ## Steps outside of the lookups -/

/-- The thread of an action. -/
def QueueAct.thread : QueueAct T → QueueThread
  | .test t _ | .reserve t | .lookup t | .store t | .publish t => .producer t
  | .popStart | .popLookup | .popCheck | .popDelete | .popClear | .popNext => .consumer

namespace QueueSys
variable {s s' q : QueueSys g T} {c : QueueThread} {e page : ℕ} {a : QueueAct T}

/-- The thread is at the same place in both. -/
def SameAt (s q : QueueSys g T) : QueueThread → Prop
  | .producer t => q.pushing t = s.pushing t
  | .consumer => q.popping = s.popping

theorem SameAt.refl (s : QueueSys g T) (c : QueueThread) : s.SameAt s c := by
  cases c <;> rfl

theorem SameAt.trans {u : QueueSys g T} (h : s.SameAt q c) (h' : q.SameAt u c) : s.SameAt u c := by
  cases c with
  | producer t => exact Eq.trans h' h
  | consumer => exact Eq.trans h' h

theorem SameAt.symm (h : s.SameAt q c) : q.SameAt s c := by
  cases c with
  | producer t => exact Eq.symm h
  | consumer => exact Eq.symm h

theorem setPush_sameAt (s : QueueSys g T) (t : ℕ) (pc : PushPc T) (hc : c ≠ .producer t) :
    s.SameAt (s.setPush t pc) c := by
  cases c with
  | producer t' => exact setPush_of_ne fun heq => hc (heq ▸ rfl)
  | consumer => rfl

/-- The queues differ at most in where the threads are. -/
def SameBut (s q : QueueSys g T) : Prop := q = { s with pushing := q.pushing, popping := q.popping }

theorem SameBut.trans {u : QueueSys g T} (h : s.SameBut q) (h' : q.SameBut u) : s.SameBut u :=
  Eq.trans h' (congrArg (fun r : QueueSys g T => { r with pushing := u.pushing, popping := u.popping }) h)

theorem SameBut.symm (h : s.SameBut q) : q.SameBut s := by
  obtain ⟨pushing, popping, rfl⟩ : ∃ pushing popping, q = { s with pushing := pushing, popping := popping } :=
    ⟨_, _, h⟩
  rfl

theorem SameBut.access {α : Type*} {r : Option α} {k k' : α → QueueSys g T} (h : s.SameBut q)
    (hsame : s.SameAt q c) (hk : ∀ a, r = some a → (k a).SameBut (k' a) ∧ (k a).SameAt (k' a) c) :
    (s.access r k).SameBut (q.access r k') ∧ (s.access r k).SameAt (q.access r k') c := by
  cases r with
  | none =>
    refine ⟨?_, by cases c <;> exact hsame⟩
    rw [SameBut] at h
    rw [SameBut, h]
    rfl
  | some a => exact hk a rfl

theorem wanted?_congr (hsame : s.SameAt s' c) (hget : c = .consumer → s'.queue.getIndex = s.queue.getIndex) :
    s'.wanted? c = s.wanted? c := by
  cases c with
  | producer t =>
    have hpc : s'.pushing t = s.pushing t := hsame
    simp only [wanted?, hpc]
  | consumer =>
    have hpc : s'.popping = s.popping := hsame
    simp only [wanted?, hpc, hget rfl]

theorem setFound_sameAt (s : QueueSys g T) (page : ℕ) {c' : QueueThread} (hc : c' ≠ c) :
    s.SameAt (s.setFound page c) c' := by
  cases c with
  | producer t =>
    simp only [setFound]
    split
    · exact setPush_sameAt s t _ hc
    · exact .refl s c'
  | consumer =>
    cases c' with
    | producer t => rfl
    | consumer => exact absurd rfl hc

theorem setFound_sameBut (s : QueueSys g T) (page : ℕ) (c : QueueThread) :
    s.SameBut (s.setFound page c) := by
  cases c with
  | producer t =>
    simp only [setFound]
    split <;> rfl
  | consumer => rfl

theorem setFound_queue (s : QueueSys g T) (page : ℕ) (c : QueueThread) :
    (s.setFound page c).queue = s.queue :=
  (congrArg QueueSys.queue (setFound_sameBut s page c) :)

theorem setFound_congr (hsame : s.SameAt q c) (page : ℕ) :
    (s.setFound page c).SameAt (q.setFound page c) c := by
  cases c with
  | producer t =>
    have hpc : q.pushing t = s.pushing t := hsame
    simp only [SameAt, setFound, hpc]
    split
    · rw [setPush_self, setPush_self]
    · exact hpc
  | consumer => rfl

/-- What a step outside of the lookups leaves as it is. -/
structure Beside (s s' : QueueSys g T) (c : QueueThread) : Prop where
  others : ∀ c' ≠ c, s.SameAt s' c'
  getIndex : c ≠ .consumer → s'.queue.getIndex = s.queue.getIndex
  entry : ∀ e, s.entry e = none → s'.entry e = none

theorem Beside.access {α : Type*} {r : Option α} {k : α → QueueSys g T}
    (h : ∀ a, r = some a → s.Beside (k a) c) : s.Beside (s.access r k) c := by
  cases r with
  | none => exact ⟨fun c' _ => by cases c' <;> rfl, fun _ => rfl, fun _ he => he⟩
  | some a => exact h a rfl

theorem entry_modify {queue queue' : SrtQueue g T} {p i : ℕ} {f : SrtMessage T → SrtMessage T}
    (h : queue.modify p i f = some queue') : queue'.pageIndexes.entry = queue.pageIndexes.entry := by
  obtain ⟨t, ht, rfl⟩ := Option.map_eq_some_iff.mp h
  obtain ⟨slots, -, rfl⟩ := Option.map_eq_some_iff.mp ht
  rfl

theorem entry_deletePage {queue queue' : SrtQueue g T} {p : ℕ} (h : queue.deletePage p = some queue') :
    queue'.pageIndexes.entry = queue.pageIndexes.entry := by
  obtain ⟨t, ht, rfl⟩ := Option.map_eq_some_iff.mp h
  obtain ⟨slots, -, rfl⟩ := Option.map_eq_some_iff.mp ht
  rfl

theorem isLookup_lookup (c : QueueThread) : (c.lookup : QueueAct T).isLookup = true := by
  cases c <;> rfl

variable [Inhabited T]

theorem step_beside (ha : a.isLookup = false) (h : s.step a = some s') : s.Beside s' a.thread := by
  have hpush {t : ℕ} {pc : PushPc T} {queue : SrtQueue g T} {reserved : List T}
      (hget : queue.getIndex = s.queue.getIndex) (hentry : queue.pageIndexes.entry = s.queue.pageIndexes.entry) :
      s.Beside { s.setPush t pc with queue := queue, reserved := reserved } (.producer t) := by
    refine ⟨fun c' hc => ?_, fun _ => hget, fun e he => (congrFun hentry e).trans he⟩
    have hsame := setPush_sameAt s t pc hc
    cases c' <;> exact hsame
  have hpop {pc : PopPc T} {queue : SrtQueue g T} {popped : List T}
      (hentry : ∀ e, s.entry e = none → queue.pageIndexes.entry e = none) :
      s.Beside { s with queue := queue, popping := pc, popped := popped } .consumer := by
    refine ⟨fun c' hc => ?_, fun hc => absurd rfl hc, hentry⟩
    cases c' with
    | producer t => rfl
    | consumer => exact absurd rfl hc
  cases a with
  | lookup | popLookup => cases ha
  | test t msg =>
    simp only [step] at h
    split at h
    · obtain rfl := Option.some.inj h
      split_ifs
      · exact ⟨fun c' _ => .refl s c', fun _ => rfl, fun _ he => he⟩
      · exact hpush rfl rfl
    · cases h
  | reserve t =>
    simp only [step] at h
    split at h
    · obtain rfl := Option.some.inj h
      exact hpush rfl rfl
    · cases h
  | store t =>
    simp only [step] at h
    split at h
    · obtain rfl := Option.some.inj h
      exact .access fun queue hq => hpush (SrtQueue.modify_frame hq).2.1 (entry_modify hq)
    · cases h
  | publish t =>
    simp only [step] at h
    split at h
    · obtain rfl := Option.some.inj h
      exact .access fun queue hq => hpush (SrtQueue.modify_frame hq).2.1 (entry_modify hq)
    · cases h
  | popStart =>
    simp only [step] at h
    split at h
    · obtain rfl := Option.some.inj h
      split_ifs
      · exact ⟨fun c' _ => .refl s c', fun _ => rfl, fun _ he => he⟩
      · exact hpop fun _ he => he
    · cases h
  | popCheck =>
    simp only [step] at h
    split at h
    · obtain rfl := Option.some.inj h
      refine .access fun m _ => ?_
      split_ifs <;> exact hpop fun _ he => he
    · cases h
  | popDelete =>
    simp only [step] at h
    split at h
    · obtain rfl := Option.some.inj h
      exact .access fun queue hq => hpop fun e he => (congrFun (entry_deletePage hq) e).trans he
    · cases h
  | popClear =>
    simp only [step] at h
    split at h
    · obtain rfl := Option.some.inj h
      refine hpop fun e he => ?_
      change Function.update s.queue.pageIndexes.entry _ none e = none
      rw [Function.update_apply]
      split_ifs
      · rfl
      · exact he
    · cases h
  | popNext =>
    simp only [step] at h
    split at h
    · obtain rfl := Option.some.inj h
      exact hpop fun _ he => he
    · cases h

/-- A thread that is at the same place takes the same step. -/
theorem step_sameBut (ha : a.isLookup = false) (hrest : s.SameBut q) (hsame : s.SameAt q a.thread)
    (h : s.step a = some s') :
    ∃ q', q.step a = some q' ∧ s'.SameBut q' ∧ s'.SameAt q' a.thread := by
  obtain ⟨pushing, popping, rfl⟩ : ∃ pushing popping, q = { s with pushing := pushing, popping := popping } :=
    ⟨_, _, hrest⟩
  have hself (t : ℕ) (pc : PushPc T) :
      Function.update pushing t pc t = Function.update s.pushing t pc t := by
    rw [Function.update_self, Function.update_self]
  cases a with
  | lookup | popLookup => cases ha
  | test t msg =>
    have hpc : pushing t = s.pushing t := hsame
    simp only [step] at h ⊢
    rw [hpc]
    split at h
    · obtain rfl := Option.some.inj h
      refine ⟨_, rfl, ?_, ?_⟩
      · split_ifs <;> rfl
      · split_ifs
        · exact hsame
        · exact hself t _
    · cases h
  | reserve t =>
    have hpc : pushing t = s.pushing t := hsame
    simp only [step] at h ⊢
    rw [hpc]
    split at h
    · obtain rfl := Option.some.inj h
      exact ⟨_, rfl, rfl, hself t _⟩
    · cases h
  | store t | publish t =>
    have hpc : pushing t = s.pushing t := hsame
    simp only [step] at h ⊢
    rw [hpc]
    split at h
    · obtain rfl := Option.some.inj h
      exact ⟨_, rfl, SameBut.access hrest hsame fun queue _ => ⟨rfl, hself t _⟩⟩
    · cases h
  | popStart =>
    have hpc : popping = s.popping := hsame
    subst hpc
    simp only [step] at h ⊢
    split at h
    · obtain rfl := Option.some.inj h
      refine ⟨_, rfl, ?_, ?_⟩ <;> split_ifs <;> rfl
    · cases h
  | popCheck =>
    have hpc : popping = s.popping := hsame
    subst hpc
    simp only [step] at h ⊢
    split at h
    · obtain rfl := Option.some.inj h
      refine ⟨_, rfl, SameBut.access hrest hsame fun m _ => ?_⟩
      split_ifs <;> exact ⟨rfl, rfl⟩
    · cases h
  | popDelete =>
    have hpc : popping = s.popping := hsame
    subst hpc
    simp only [step] at h ⊢
    split at h
    · obtain rfl := Option.some.inj h
      exact ⟨_, rfl, SameBut.access hrest hsame fun queue _ => ⟨rfl, rfl⟩⟩
    · cases h
  | popClear | popNext =>
    have hpc : popping = s.popping := hsame
    subst hpc
    simp only [step] at h ⊢
    split at h
    · obtain rfl := Option.some.inj h
      exact ⟨_, rfl, rfl, rfl⟩
    · cases h

/-- A thread that is to look up a page does nothing else. -/
theorem isLookup_of_wanted (hw : s.wanted? a.thread = some e) (h : s.step a = some s') :
    a.isLookup = true := by
  cases a with
  | lookup | popLookup => rfl
  | test t | reserve t | store t | publish t =>
    simp only [QueueAct.thread, wanted?] at hw
    split at hw
    · next hpc => simp [step, hpc] at h
    · cases hw
  | popStart | popCheck | popDelete | popClear | popNext =>
    simp only [QueueAct.thread, wanted?] at hw
    split at hw
    · next hpc => simp [step, hpc] at h
    · cases hw

theorem step_lookup (hw : s.wanted? c = some e) :
    s.step c.lookup = some ({ s with queue := (s.queue.getMsgPage e).1 }.setFound
      (s.queue.getMsgPage e).2 c) := by
  cases c with
  | producer t =>
    simp only [wanted?] at hw
    split at hw
    · next i msg hpc =>
      obtain rfl := Option.some.inj hw
      simp only [QueueThread.lookup, step, setFound, hpc]
      rfl
    · cases hw
  | consumer =>
    simp only [wanted?] at hw
    split at hw
    · next hpc =>
      obtain rfl := Option.some.inj hw
      simp only [QueueThread.lookup, step, setFound, hpc]
    · cases hw

/-- A thread that has found a page has it under the entry that it looked up. -/
theorem Inv.entry_found (hi : q.Inv) (hw : s.wanted? c = some e) (hfound : (s.setFound page c).SameAt q c)
    (hget : q.queue.getIndex = s.queue.getIndex) : q.entry e = some page := by
  cases c with
  | producer t =>
    simp only [wanted?] at hw
    split at hw
    · next i msg hpc =>
      obtain rfl := Option.some.inj hw
      have hq : q.pushing t = .found i page msg := by
        refine Eq.trans hfound ?_
        simp only [setFound, hpc]
        exact setPush_self
      have hpush := hi.push t
      rw [hq] at hpush
      exact hpush.2.2
    · cases hw
  | consumer =>
    simp only [wanted?] at hw
    split at hw
    · next hpc =>
      obtain rfl := Option.some.inj hw
      have hq : q.popping = .found page := hfound
      have hpop := hi.pop
      unfold PopOk at hpop
      simp only [hq] at hpop
      rw [← hget]
      exact hpop.2
    · cases hw

end QueueSys

/-! ## Lookups in one step -/

namespace FindPc

/-- The page index of a lookup. -/
def index? : FindPc → Option ℕ
  | .outside => none
  | .lock e | .retest e | .store e | .unlock e | .reload e => some e

/-- The lookup has taken effect. -/
def found : FindPc → Bool
  | .unlock _ | .reload _ => true
  | _ => false

end FindPc

namespace SrtLookups
variable {s s' : SrtLookups g T} {q : QueueSys g T} {c : QueueThread} {e : ℕ} {pc : FindPc}
theorem setFind_self (s : SrtLookups g T) (c : QueueThread) (pc : FindPc) :
    (s.setFind c pc).finding c = pc := Function.update_self ..

theorem setFind_ne (s : SrtLookups g T) {c c' : QueueThread} (pc : FindPc) (hc : c' ≠ c) :
    (s.setFind c pc).finding c' = s.finding c' := Function.update_of_ne hc ..

variable [Inhabited T]

/-- The queue `q` has the same contents, and its threads are where they are in `s`, but that those
whose lookup has taken effect have their page. -/
structure Atomic (s : SrtLookups g T) (q : QueueSys g T) : Prop where
  inv : q.Inv
  same : s.sys.SameBut q
  before : ∀ c, (s.finding c).found = false → s.sys.SameAt q c
  after : ∀ c, (s.finding c).found → ∃ page, (s.sys.setFound page c).SameAt q c
  wanted : ∀ c e, (s.finding c).index? = some e → s.sys.wanted? c = some e
  mutex : ∀ c, (s.finding c).hasMutex ↔ s.mutex = some c
  empty : ∀ c e, s.finding c = .store e → s.sys.entry e = none

theorem Atomic.init : Atomic (SrtLookups.init g : SrtLookups g T) (.init g) where
  inv := .init
  same := rfl
  before := fun c _ => .refl _ c
  after := nofun
  wanted := nofun
  mutex := fun _ => ⟨nofun, nofun⟩
  empty := nofun

theorem Atomic.queue (h : s.Atomic q) : q.queue = s.sys.queue := by
  rw [h.same]

theorem Atomic.entry_found (h : s.Atomic q) (he : (s.finding c).index? = some e)
    (hfound : (s.finding c).found) : ∃ page, s.sys.entry e = some page ∧
      (s.sys.setFound page c).SameAt q c := by
  obtain ⟨page, hpage⟩ := h.after c hfound
  have hentry := h.inv.entry_found (h.wanted c e he) hpage (congrArg SrtQueue.getIndex h.queue)
  rw [QueueSys.entry, h.queue] at hentry
  exact ⟨page, hentry, hpage⟩

/-- An access that leaves the queue as it is. -/
theorem Atomic.move (h : s.Atomic q) {mutex : Option QueueThread}
    (hfound : pc.found = (s.finding c).found)
    (hwanted : ∀ e, pc.index? = some e → s.sys.wanted? c = some e)
    (hmutex : ∀ c', ((s.setFind c pc).finding c').hasMutex ↔ mutex = some c')
    (hempty : ∀ e, pc = .store e → s.sys.entry e = none) :
    Atomic { s.setFind c pc with mutex := mutex } q where
  inv := h.inv
  same := h.same
  before := fun c' hc' => by
    change ((s.setFind c pc).finding c').found = false at hc'
    by_cases hc : c' = c
    · subst hc
      rw [setFind_self, hfound] at hc'
      exact h.before c' hc'
    · rw [setFind_ne s pc hc] at hc'
      exact h.before c' hc'
  after := fun c' hc' => by
    change ((s.setFind c pc).finding c').found = true at hc'
    by_cases hc : c' = c
    · subst hc
      rw [setFind_self, hfound] at hc'
      exact h.after c' hc'
    · rw [setFind_ne s pc hc] at hc'
      exact h.after c' hc'
  wanted := fun c' e he => by
    change ((s.setFind c pc).finding c').index? = some e at he
    by_cases hc : c' = c
    · subst hc
      rw [setFind_self] at he
      exact hwanted e he
    · rw [setFind_ne s pc hc] at he
      exact h.wanted c' e he
  mutex := hmutex
  empty := fun c' e he => by
    change (s.setFind c pc).finding c' = .store e at he
    by_cases hc : c' = c
    · subst hc
      rw [setFind_self] at he
      exact hempty e he
    · rw [setFind_ne s pc hc] at he
      exact h.empty c' e he

/-- The access at which a lookup takes effect. -/
theorem Atomic.lookup (h : s.Atomic q) (hw : s.sys.wanted? c = some e)
    (hold : (s.finding c).found = false) (hnew : pc.found) (he : pc.index? = some e)
    (hmutex : pc.hasMutex = (s.finding c).hasMutex)
    (hempty : ∀ c' ≠ c, ∀ e', s.finding c' = .store e' →
      (s.sys.queue.getMsgPage e).1.pageIndexes.entry e' = none) :
    ∃ q', q.step c.lookup = some q' ∧ Atomic { s.setFind c pc with
      sys := { s.sys with queue := (s.sys.queue.getMsgPage e).1 } } q' := by
  have hsame := h.before c hold
  have hwq : q.wanted? c = some e :=
    (QueueSys.wanted?_congr hsame fun _ => congrArg SrtQueue.getIndex h.queue).trans hw
  have hstep := QueueSys.step_lookup hwq
  rw [h.queue] at hstep
  have hroom : q.HasRoom c.lookup := by cases c <;> trivial
  have hsys (c' : QueueThread) : s.sys.SameAt { s.sys with queue := (s.sys.queue.getMsgPage e).1 } c' := by
    cases c' <;> rfl
  have hq (c' : QueueThread) : q.SameAt { q with queue := (s.sys.queue.getMsgPage e).1 } c' := by
    cases c' <;> rfl
  refine ⟨_, hstep, h.inv.keep hroom hstep, ?_, fun c' hc' => ?_, fun c' hc' => ?_, fun c' e' he' => ?_,
    fun c' => ?_, fun c' e' he' => ?_⟩
  · have hqueue : QueueSys.SameBut { s.sys with queue := (s.sys.queue.getMsgPage e).1 }
        { q with queue := (s.sys.queue.getMsgPage e).1 } :=
      (congrArg (fun r : QueueSys g T => { r with queue := (s.sys.queue.getMsgPage e).1 }) h.same :)
    exact hqueue.trans (QueueSys.setFound_sameBut _ _ c)
  · change ((s.setFind c pc).finding c').found = false at hc'
    by_cases hc : c' = c
    · subst hc
      rw [setFind_self, hnew] at hc'
      cases hc'
    · rw [setFind_ne s pc hc] at hc'
      exact ((hsys c').symm.trans (h.before c' hc')).trans
        ((hq c').trans (QueueSys.setFound_sameAt _ _ hc))
  · change ((s.setFind c pc).finding c').found = true at hc'
    by_cases hc : c' = c
    · subst hc
      exact ⟨_, QueueSys.setFound_congr (((hsys c').symm.trans hsame).trans (hq c')) _⟩
    · rw [setFind_ne s pc hc] at hc'
      obtain ⟨page, hpage⟩ := h.after c' hc'
      exact ⟨page, (QueueSys.setFound_congr (hsys c').symm page).trans
        (hpage.trans ((hq c').trans (QueueSys.setFound_sameAt _ _ hc)))⟩
  · change ((s.setFind c pc).finding c').index? = some e' at he'
    have hkept := QueueSys.wanted?_congr (hsys c') fun _ => rfl
    by_cases hc : c' = c
    · subst hc
      rw [setFind_self] at he'
      obtain rfl := Option.some.inj (he.symm.trans he')
      exact hkept.trans hw
    · rw [setFind_ne s pc hc] at he'
      exact hkept.trans (h.wanted c' e' he')
  · change ((s.setFind c pc).finding c').hasMutex ↔ s.mutex = some c'
    by_cases hc : c' = c
    · subst hc
      rw [setFind_self, hmutex]
      exact h.mutex c'
    · rw [setFind_ne s pc hc]
      exact h.mutex c'
  · change (s.setFind c pc).finding c' = .store e' at he'
    by_cases hc : c' = c
    · subst hc
      rw [setFind_self] at he'
      rw [he'] at hnew
      cases hnew
    · rw [setFind_ne s pc hc] at he'
      exact hempty c' hc e' he'

/-- The queue with its lookups in one step does the same besides them. -/
def Follows (s' : SrtLookups g T) (q : QueueSys g T) (shown : List (QueueAct T)) : Prop :=
  ∃ acts q', Run QueueSys.step QueueSys.HasRoom q acts q' ∧
    acts.flatMap QueueAct.beside = shown ∧ s'.Atomic q'

theorem Follows.none (h : s'.Atomic q) : s'.Follows q [] := ⟨[], q, .nil, rfl, h⟩

theorem Follows.lookup {q' : QueueSys g T} (hstep : q.step c.lookup = some q') (h : s'.Atomic q') :
    s'.Follows q [] := by
  refine ⟨[c.lookup], q', .single (by cases c <;> trivial) hstep, ?_, h⟩
  rw [List.flatMap_singleton, QueueAct.beside, QueueSys.isLookup_lookup, if_pos rfl]

/-- The mutex stays where it is. -/
theorem Atomic.mutex_kept (h : s.Atomic q) (hpc : pc.hasMutex = (s.finding c).hasMutex)
    (c' : QueueThread) : ((s.setFind c pc).finding c').hasMutex ↔ s.mutex = some c' := by
  by_cases hc : c' = c
  · subst hc
    rw [setFind_self, hpc]
    exact h.mutex c'
  · rw [setFind_ne s pc hc]
    exact h.mutex c'

/-- A thread that sees a page under the entry has found it. -/
theorem Atomic.see (h : s.Atomic q) {page : ℕ} (hw : s.sys.wanted? c = some e)
    (hold : (s.finding c).found = false) (hnew : pc.found) (he : pc.index? = some e)
    (hmutex : pc.hasMutex = (s.finding c).hasMutex) (hpage : s.sys.entry e = some page) :
    (s.setFind c pc).Follows q [] := by
  have hsame : s.sys.queue.getMsgPage e = (s.sys.queue, page) := SrtQueue.getMsgPage_of_entry hpage
  obtain ⟨q', hstep, hq'⟩ := h.lookup hw hold hnew he hmutex fun c' _ e' he' => by
    rw [hsame]
    exact h.empty c' e' he'
  rw [hsame] at hq'
  exact .lookup hstep hq'

/-- A thread that has found its page returns with it. -/
theorem Atomic.reload (h : s.Atomic q) {page : ℕ} (hpage : (s.sys.setFound page c).SameAt q c)
    (hmutex : (s.finding c).hasMutex = false) :
    Atomic { s.setFind c .outside with sys := s.sys.setFound page c } q where
  inv := h.inv
  same := (QueueSys.setFound_sameBut s.sys page c).symm.trans h.same
  before := fun c' hc' => by
    change ((s.setFind c .outside).finding c').found = false at hc'
    by_cases hc : c' = c
    · exact hc ▸ hpage
    · rw [setFind_ne s _ hc] at hc'
      exact (QueueSys.setFound_sameAt s.sys page hc).symm.trans (h.before c' hc')
  after := fun c' hc' => by
    change ((s.setFind c .outside).finding c').found = true at hc'
    by_cases hc : c' = c
    · subst hc
      rw [setFind_self] at hc'
      cases hc'
    · rw [setFind_ne s _ hc] at hc'
      obtain ⟨page', hpage'⟩ := h.after c' hc'
      have hsame := (QueueSys.setFound_sameAt s.sys page hc).symm
      exact ⟨page', (QueueSys.setFound_congr hsame page').trans hpage'⟩
  wanted := fun c' e he => by
    change ((s.setFind c .outside).finding c').index? = some e at he
    by_cases hc : c' = c
    · subst hc
      rw [setFind_self] at he
      cases he
    · rw [setFind_ne s _ hc] at he
      have hsame := QueueSys.setFound_sameAt s.sys page hc
      have hget := congrArg SrtQueue.getIndex (QueueSys.setFound_queue s.sys page c)
      exact (QueueSys.wanted?_congr hsame fun _ => hget).trans (h.wanted c' e he)
  mutex := h.mutex_kept hmutex.symm
  empty := fun c' e he => by
    change (s.setFind c .outside).finding c' = .store e at he
    rw [QueueSys.entry, QueueSys.setFound_queue]
    by_cases hc : c' = c
    · subst hc
      rw [setFind_self] at he
      cases he
    · rw [setFind_ne s _ hc] at he
      exact h.empty c' e he

theorem Atomic.find (h : s.Atomic q) (hstep : s.find c = some s') : s'.Follows q [] := by
  cases hpc : s.finding c with
  | outside =>
    simp only [SrtLookups.find, hpc] at hstep
    obtain ⟨e, hw, rfl⟩ := Option.map_eq_some_iff.mp hstep
    cases hentry : s.sys.entry e with
    | some page => exact h.see hw (by rw [hpc]; rfl) rfl rfl (by rw [hpc]; rfl) hentry
    | none =>
      refine .none (h.move (by rw [hpc]; rfl) (fun e' he' => ?_) (h.mutex_kept (by rw [hpc]; rfl))
        (by simp))
      obtain rfl := Option.some.inj he'
      exact hw
  | lock e =>
    have hw := h.wanted c e (by rw [hpc]; rfl)
    simp only [SrtLookups.find, hpc] at hstep
    split_ifs at hstep with hfree
    obtain rfl := Option.some.inj hstep
    have hnone := Option.isNone_iff_eq_none.mp hfree
    refine .none (h.move (by rw [hpc]; rfl) (fun e' he' => ?_) (fun c' => ?_) (by simp))
    · obtain rfl := Option.some.inj he'
      exact hw
    · by_cases hc : c' = c
      · subst hc
        rw [setFind_self]
        exact ⟨fun _ => rfl, fun _ => rfl⟩
      · rw [setFind_ne s _ hc, h.mutex c', hnone]
        exact ⟨fun heq => (by cases heq), fun heq => absurd (Option.some.inj heq).symm hc⟩
  | retest e =>
    have hw := h.wanted c e (by rw [hpc]; rfl)
    simp only [SrtLookups.find, hpc] at hstep
    obtain rfl := Option.some.inj hstep
    cases hentry : s.sys.entry e with
    | some page => exact h.see hw (by rw [hpc]; rfl) rfl rfl (by rw [hpc]; rfl) hentry
    | none =>
      refine .none (h.move (by rw [hpc]; rfl) (fun e' he' => ?_) (h.mutex_kept (by rw [hpc]; rfl))
        fun e' he' => ?_)
      · obtain rfl := Option.some.inj he'
        exact hw
      · obtain rfl := FindPc.store.inj he'
        exact hentry
  | store e =>
    have hw := h.wanted c e (by rw [hpc]; rfl)
    have hmutex := (h.mutex c).mp (by rw [hpc]; rfl)
    simp only [SrtLookups.find, hpc] at hstep
    obtain rfl := Option.some.inj hstep
    -- no page came under the entry while the thread had the mutex
    have hnew : s.sys.putPage e = { s.sys with queue := (s.sys.queue.getMsgPage e).1 } := by
      simp only [QueueSys.putPage, SrtQueue.getMsgPage, PageTable.getPage_of_none (h.empty c e hpc)]
    obtain ⟨q', hlookup, hq'⟩ := h.lookup hw (by rw [hpc]; rfl)
      (rfl : (FindPc.unlock e).found = true) rfl (by rw [hpc]; rfl) fun c' hc e' he' => by
        have hheld := (h.mutex c').mp (by rw [he']; rfl)
        exact absurd (Option.some.inj (hheld.symm.trans hmutex)) hc
    rw [hnew]
    exact .lookup hlookup hq'
  | unlock e =>
    have hw := h.wanted c e (by rw [hpc]; rfl)
    have hmutex := (h.mutex c).mp (by rw [hpc]; rfl)
    simp only [SrtLookups.find, hpc] at hstep
    obtain rfl := Option.some.inj hstep
    refine .none (h.move (by rw [hpc]; rfl) (fun e' he' => ?_) (fun c' => ?_) (by simp))
    · obtain rfl := Option.some.inj he'
      exact hw
    · by_cases hc : c' = c
      · subst hc
        rw [setFind_self]
        simp [FindPc.hasMutex]
      · rw [setFind_ne s _ hc, h.mutex c', hmutex]
        exact ⟨fun heq => absurd (Option.some.inj heq).symm hc, fun heq => by cases heq⟩
  | reload e =>
    obtain ⟨page, hentry, hpage⟩ := h.entry_found (c := c) (e := e) (by rw [hpc]; rfl) (by rw [hpc]; rfl)
    simp only [SrtLookups.find, hpc, hentry, QueueSys.returned] at hstep
    obtain rfl := Option.some.inj hstep
    exact .none (h.reload hpage (by rw [hpc]; rfl))

/-! ### Every step -/

theorem Atomic.frontPage (h : s.Atomic q) : q.frontPage = s.sys.frontPage := by
  have hpopping : q.popping = s.sys.popping ∨
      s.sys.popping = .started ∧ ∃ page, q.popping = .found page := by
    by_cases hfound : (s.finding .consumer).found = true
    · obtain ⟨page, hpage⟩ := h.after .consumer hfound
      refine Or.inr ⟨?_, page, hpage⟩
      cases hpc : s.finding .consumer with
      | outside | lock e | retest e | store e =>
        rw [hpc] at hfound
        cases hfound
      | unlock e | reload e =>
        have hw := h.wanted .consumer e (by rw [hpc]; rfl)
        simp only [QueueSys.wanted?] at hw
        split at hw
        · assumption
        · cases hw
    · exact Or.inl (h.before .consumer (by simpa using hfound))
  unfold QueueSys.frontPage
  rw [h.queue]
  rcases hpopping with heq | ⟨hstarted, page, hpage⟩
  · rw [heq]
  · rw [hstarted, hpage]

/-- A step outside of the lookups. -/
theorem Atomic.queue_step (h : s.Atomic q) {a : QueueAct T} (hroom : s.sys.HasRoom a)
    (ha : a.isLookup = false) {sys : QueueSys g T} (hstep : s.sys.step a = some sys) :
    Follows { s with sys := sys } q [a] := by
  have hout : s.finding a.thread = .outside := by
    cases hpc : s.finding a.thread with
    | outside => rfl
    | lock e | retest e | store e | unlock e | reload e =>
      have hlook := QueueSys.isLookup_of_wanted (h.wanted a.thread e (by rw [hpc]; rfl)) hstep
      rw [ha] at hlook
      cases hlook
  obtain ⟨q', hq', hsame, hat⟩ :=
    QueueSys.step_sameBut ha h.same (h.before a.thread (by rw [hout]; rfl)) hstep
  have hsys := QueueSys.step_beside ha hstep
  have hqueue := QueueSys.step_beside ha hq'
  have hroom' : q.HasRoom a := by
    cases a with
    | reserve t =>
      change q.queue.postIndex / g.pageMsgCount < q.frontPage + g.pageIndexCount
      rw [h.queue, h.frontPage]
      exact hroom
    | _ => trivial
  have hne {c' : QueueThread} (hin : s.finding c' ≠ .outside) : c' ≠ a.thread :=
    fun heq => hin (heq ▸ hout)
  refine ⟨[a], q', .single hroom' hq', ?_, h.inv.keep hroom' hq', hsame, fun c' hc' => ?_,
    fun c' hc' => ?_, fun c' e he => ?_, h.mutex, fun c' e he => hsys.entry e (h.empty c' e he)⟩
  · rw [List.flatMap_singleton, QueueAct.beside, ha]
    rfl
  · by_cases hc : c' = a.thread
    · exact hc ▸ hat
    · exact ((hsys.others c' hc).symm.trans (h.before c' hc')).trans (hqueue.others c' hc)
  · have hc : c' ≠ a.thread := hne fun heq => by
      change (s.finding c').found = true at hc'
      rw [heq] at hc'
      cases hc'
    obtain ⟨page, hpage⟩ := h.after c' hc'
    exact ⟨page, (QueueSys.setFound_congr (hsys.others c' hc).symm page).trans
      (hpage.trans (hqueue.others c' hc))⟩
  · have hc : c' ≠ a.thread := hne fun heq => by
      change (s.finding c').index? = some e at he
      rw [heq] at he
      cases he
    have hget (hcons : c' = .consumer) : sys.queue.getIndex = s.sys.queue.getIndex :=
      hsys.getIndex fun heq => hc (hcons.trans heq.symm)
    exact (QueueSys.wanted?_congr (hsys.others c' hc) hget).trans (h.wanted c' e he)

theorem Atomic.step (h : s.Atomic q) {a : FindAct T} (hroom : s.HasRoom a)
    (hstep : s.step a = some s') : s'.Follows q (beside a) := by
  cases a with
  | queue a =>
    simp only [SrtLookups.step] at hstep
    split_ifs at hstep with ha
    obtain ⟨sys, hsys, rfl⟩ := Option.map_eq_some_iff.mp hstep
    exact h.queue_step hroom (Bool.eq_false_of_not_eq_true ha) hsys
  | find c => exact h.find hstep

/-- Whoever has the mutex gets on with its lookup. -/
theorem Atomic.holder_moves (h : s.Atomic q) (hc : s.mutex = some c) : (s.find c).isSome := by
  have hheld := (h.mutex c).mpr hc
  cases hpc : s.finding c with
  | outside | lock e | reload e =>
    rw [hpc] at hheld
    cases hheld
  | retest e | store e | unlock e => simp [SrtLookups.find, hpc]

theorem Atomic.eq_of_outside (h : s.Atomic q) (hout : ∀ c, s.finding c = .outside) : q = s.sys := by
  have hbefore (c : QueueThread) : s.sys.SameAt q c := h.before c (by rw [hout c]; rfl)
  have hpushing : q.pushing = s.sys.pushing := funext fun t => hbefore (.producer t)
  have hpopping : q.popping = s.sys.popping := hbefore .consumer
  rw [h.same, hpushing, hpopping]

end SrtLookups

open SrtLookups in
/-- In every run in which the reserved indexes have room no lookup returns the null pointer or a page
that was freed, the mutex is never held by a thread that is stuck, and the queue is, but for threads
that are in a lookup, in a state that it reaches with lookups in one step by the same pushes and
pops. -/
theorem queue_lookups_are_atomic [Inhabited T] {acts : List (FindAct T)} {s : SrtLookups g T}
    (h : Run SrtLookups.step HasRoom (SrtLookups.init g) acts s) :
    s.sys.fault = false ∧ (∀ c, s.mutex = some c → (s.find c).isSome) ∧
    ∃ acts' q, Run QueueSys.step QueueSys.HasRoom (.init g) acts' q ∧
      acts'.flatMap QueueAct.beside = acts.flatMap beside ∧ s.sys.SameBut q ∧
      ((∀ c, s.finding c = .outside) → q = s.sys) := by
  obtain ⟨acts', q, hrun, hbeside, hq⟩ := h.simulate Atomic beside QueueAct.beside .init
    fun s a s' q hs hroom hstep => hs.step hroom hstep
  refine ⟨?_, fun c hc => hq.holder_moves hc, acts', q, hrun, hbeside, hq.same, hq.eq_of_outside⟩
  have hfault : q.fault = s.sys.fault := by rw [hq.same]
  exact hfault.symm.trans hq.inv.fault

/-- A producer and the consumer find no page for the second index, and one of them makes it. -/
def lookupRace : List (FindAct ℕ) :=
  let queue (as : List (QueueAct ℕ)) : List (FindAct ℕ) := as.map .queue
  let producer (n : ℕ) : List (FindAct ℕ) := List.replicate n (.find (.producer 0))
  let consumer (n : ℕ) : List (FindAct ℕ) := List.replicate n (.find .consumer)
  List.flatten [queue [.test 0 10, .reserve 0], producer 2, queue [.store 0, .publish 0, .popStart],
    consumer 2, queue [.popCheck, .popDelete, .popClear, .popNext, .test 0 11, .reserve 0, .popStart],
    producer 1, consumer 5, producer 3, consumer 1, producer 1,
    queue [.store 0, .publish 0, .popCheck, .popDelete, .popClear, .popNext]]

instance (s : SrtLookups g T) : (a : FindAct T) → Decidable (s.HasRoom a)
  | .queue a => inferInstanceAs (Decidable (s.sys.HasRoom a))
  | .find _ => inferInstanceAs (Decidable True)

open SrtLookups in
theorem queue_lookups_are_atomic_race :
    ∃ s : SrtLookups ⟨0, 1⟩ ℕ, Run SrtLookups.step HasRoom (init ⟨0, 1⟩) lookupRace s ∧
      s.sys.popped = [10, 11] ∧ s.sys.queue.pageIndexes.next = 2 ∧ s.sys.fault = false ∧
      (∀ c, s.mutex = some c → (s.find c).isSome) ∧
      ∃ acts' q, Run QueueSys.step QueueSys.HasRoom (.init ⟨0, 1⟩) acts' q ∧
        acts'.flatMap QueueAct.beside = lookupRace.flatMap beside ∧ s.sys.SameBut q ∧
        ((∀ c, s.finding c = .outside) → q = s.sys) := by
  have hexec : (exec (fun (s : SrtLookups ⟨0, 1⟩ ℕ) a =>
      if decide (s.HasRoom a) then SrtLookups.step s a else none) (init ⟨0, 1⟩) lookupRace).map
        (fun s => (s.sys.popped, s.sys.queue.pageIndexes.next)) = some ([10, 11], 2) := by decide +kernel
  obtain ⟨s, hs, heq⟩ := Option.map_eq_some_iff.mp hexec
  have hrun : Run SrtLookups.step HasRoom (init ⟨0, 1⟩) lookupRace s :=
    .of_exec_guard (fun s a => decide (s.HasRoom a)) (fun _ _ _ h => of_decide_eq_true h) hs
  obtain ⟨hpopped, hnext⟩ := Prod.mk.inj heq
  exact ⟨s, hrun, hpopped, hnext, queue_lookups_are_atomic hrun⟩

end TcpLib
