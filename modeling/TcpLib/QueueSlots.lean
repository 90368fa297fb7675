import TcpLib.QueueDelivery
import TcpLib.Lib.SlotQueue

/-!
# The queue as a list of slots

To its producers and its consumer the queue is a list of slots, which are reserved in order, filled in
any order and taken from the front. In every run with room the steps of `push` and `pop` do what the
operations of such a list do, or leave it as it is.
-/

namespace TcpLib
open Transition TicketRing
variable {g : PageShape} {T : Type*}

/-! ## What a step does to the messages -/

def QueueAct.isTest : QueueAct T → Bool
  | .test _ _ => true
  | _ => false

namespace QueueSys
variable {s s' : QueueSys g T}

/-- What the pop returns if this access is its last one. -/
def received (s : QueueSys g T) : QueueAct T → Option T
  | .popNext => match s.popping with
    | .taken msg => some msg
    | _ => none
  | _ => none

theorem test_cases {t : ℕ} {msg : T} [Inhabited T] (h : s.step (.test t msg) = some s') :
    s' = s ∨ s.pushing t = .idle ∧ s' = s.setPush t (.tested msg) := by
  simp only [step] at h
  split at h
  · next hpc =>
    obtain rfl := Option.some.inj h
    split_ifs
    · exact Or.inl rfl
    · exact Or.inr ⟨hpc, rfl⟩
  · cases h

theorem tested_setPush {t t' : ℕ} {pc : PushPc T} {msg : T} (hpc : ∀ m, pc ≠ .tested m)
    (h : (s.setPush t pc).pushing t' = .tested msg) : t' ≠ t ∧ s.pushing t' = .tested msg := by
  have hne : t' ≠ t := by
    rintro rfl
    rw [setPush_self] at h
    exact hpc msg h
  exact ⟨hne, (setPush_of_ne hne).symm.trans h⟩

variable [Inhabited T] {a : QueueAct T}

/-- The rest of a push reserves a message that was tested, or neither reserves nor tests one. -/
theorem post_cases (htest : a.isTest = false) (hpop : a.isPop = false) (h : s.step a = some s') :
    s'.popped = s.popped ∧
      (s'.reserved = s.reserved ∧ (∀ t m, s'.pushing t = .tested m → s.pushing t = .tested m) ∨
        ∃ t m, s.pushing t = .tested m ∧ s'.reserved = s.reserved ++ [m] ∧
          ∀ t' m', s'.pushing t' = .tested m' → t' ≠ t ∧ s.pushing t' = .tested m') := by
  cases a with
  | test t msg => cases htest
  | reserve t =>
    simp only [step] at h
    split at h
    · next msg hpc =>
      obtain rfl := Option.some.inj h
      exact ⟨rfl, Or.inr ⟨t, msg, hpc, rfl, fun t' m' ht' => tested_setPush (by simp) ht'⟩⟩
    · cases h
  | lookup t =>
    simp only [step] at h
    split at h
    · obtain rfl := Option.some.inj h
      exact ⟨rfl, Or.inl ⟨rfl, fun t' m' ht' => (tested_setPush (by simp) ht').2⟩⟩
    · cases h
  | store t =>
    simp only [step] at h
    split at h
    · next i page msg hpc =>
      obtain rfl := Option.some.inj h
      cases hset : s.queue.setMsg page i msg with
      | none => exact ⟨rfl, Or.inl ⟨rfl, fun _ _ ht' => ht'⟩⟩
      | some q => exact ⟨rfl, Or.inl ⟨rfl, fun t' m' ht' => (tested_setPush (by simp) ht').2⟩⟩
    · cases h
  | publish t =>
    simp only [step] at h
    split at h
    · next i page hpc =>
      obtain rfl := Option.some.inj h
      cases hset : s.queue.setFlag page i with
      | none => exact ⟨rfl, Or.inl ⟨rfl, fun _ _ ht' => ht'⟩⟩
      | some q => exact ⟨rfl, Or.inl ⟨rfl, fun t' m' ht' => (tested_setPush (by simp) ht').2⟩⟩
    · cases h
  | popStart | popLookup | popCheck | popDelete | popClear | popNext => cases hpop

theorem pop_cases (hpop : a.isPop) (h : s.step a = some s') :
    s'.reserved = s.reserved ∧ s'.pushing = s.pushing ∧ s'.popped = s.popped ++ (s.received a).toList := by
  have hsame {r : List T} (hr : r = s.popped) : r = s.popped ++ (none : Option T).toList := by
    rw [hr]
    exact (List.append_nil _).symm
  cases a with
  | test t msg | reserve t | lookup t | store t | publish t => cases hpop
  | popStart =>
    simp only [step] at h
    split at h
    · obtain rfl := Option.some.inj h
      split_ifs <;> exact ⟨rfl, rfl, hsame rfl⟩
    · cases h
  | popLookup =>
    simp only [step] at h
    split at h
    · obtain rfl := Option.some.inj h
      exact ⟨rfl, rfl, hsame rfl⟩
    · cases h
  | popCheck =>
    simp only [step] at h
    split at h
    · next page hpc =>
      obtain rfl := Option.some.inj h
      cases s.queue.read page s.queue.getIndex with
      | none => exact ⟨rfl, rfl, hsame rfl⟩
      | some m =>
        simp only [access]
        split_ifs <;> exact ⟨rfl, rfl, hsame rfl⟩
    · cases h
  | popDelete =>
    simp only [step] at h
    split at h
    · next page msg hpc =>
      obtain rfl := Option.some.inj h
      cases s.queue.deletePage page <;> exact ⟨rfl, rfl, hsame rfl⟩
    · cases h
  | popClear =>
    simp only [step] at h
    split at h
    · obtain rfl := Option.some.inj h
      exact ⟨rfl, rfl, hsame rfl⟩
    · cases h
  | popNext =>
    simp only [step] at h
    split at h
    · next msg hpc =>
      obtain rfl := Option.some.inj h
      exact ⟨rfl, rfl, by simp only [received, hpc]; rfl⟩
    · cases h

end QueueSys

/-! ## The slots -/

namespace QueueSys
open SlotQueue
variable {s s' : QueueSys g T} {slots slots' : List (Slot ℕ T)} {t i : ℕ} {msg : T}

/-- The reserved slots that are still to be taken, oldest first. -/
structure ShowsSlots (s : QueueSys g T) (slots : List (Slot ℕ T)) : Prop where
  length : s.queue.getIndex + slots.length = s.queue.postIndex
  reserved : ∀ j t, slots[j]? = some (.reserved t) →
    (s.pushing t).index? = some (s.queue.getIndex + j)
  ready : ∀ j msg, slots[j]? = some (.ready msg) →
    s.reserved[s.queue.getIndex + j]? = some msg ∧ s.Finished (s.queue.getIndex + j)

theorem ShowsSlots.of_eq (h : s.ShowsSlots slots) (hget : s'.queue.getIndex = s.queue.getIndex)
    (hpost : s'.queue.postIndex = s.queue.postIndex) (hreserved : s'.reserved = s.reserved)
    (hidx : ∀ t, (s'.pushing t).index? = (s.pushing t).index?) : s'.ShowsSlots slots where
  length := by rw [hget, hpost, h.length]
  reserved := fun j t hj => by rw [hidx, hget, h.reserved j t hj]
  ready := fun j msg hj => by
    obtain ⟨hmsg, hfin⟩ := h.ready j msg hj
    rw [hget, hreserved]
    exact ⟨hmsg, fun t => (hidx t).symm ▸ hfin t⟩

variable [Inhabited T]

theorem ShowsSlots.init : (init g : QueueSys g T).ShowsSlots [] :=
  ⟨rfl, nofun, nofun⟩

/-- A reserved index is that of a slot of its producer. -/
theorem ShowsSlots.held (h : s.ShowsSlots slots) (hi : s.Inv) (ht : (s.pushing t).index? = some i) :
    ∃ j, i = s.queue.getIndex + j ∧ slots[j]? = some (.reserved t) := by
  obtain ⟨hfront, hpost⟩ := hi.claimed t i ht
  have hle : s.queue.getIndex ≤ i := getIndex_le_front.trans hfront
  obtain ⟨j, rfl⟩ := Nat.exists_eq_add_of_le hle
  have hj : j < slots.length := by
    have hlen := h.length
    omega
  refine ⟨j, rfl, ?_⟩
  have hslot := List.getElem?_eq_getElem hj
  cases hs : slots[j] with
  | reserved o =>
    rw [hs] at hslot
    obtain rfl := hi.distinct _ _ _ (h.reserved j o hslot) ht
    exact hslot
  | ready msg =>
    rw [hs] at hslot
    exact absurd ht ((h.ready j msg hslot).2 t)

omit [Inhabited T] in
theorem ShowsSlots.reserve (h : s.ShowsSlots slots) (hpc : s.pushing t = .tested msg) :
    ShowsSlots { s.setPush t (.reserved s.queue.postIndex msg) with
      queue := s.queue.fetchAndInc, reserved := s.reserved ++ [msg] } (SlotQueue.reserve slots t) where
  length := by
    have hlen := h.length
    simp only [SlotQueue.reserve, List.length_append, List.length_singleton, SrtQueue.fetchAndInc]
    omega
  reserved := fun j o hj => by
    change ((s.setPush t _).pushing o).index? = some (s.queue.getIndex + j)
    rw [SlotQueue.reserve, List.getElem?_append] at hj
    split_ifs at hj with hlt
    · have hold := h.reserved j o hj
      have hne : o ≠ t := by
        rintro rfl
        rw [hpc] at hold
        cases hold
      rw [setPush_of_ne hne, hold]
    · obtain ⟨hlt', heq⟩ := List.getElem?_eq_some_iff.mp hj
      have hj0 : j - slots.length = 0 := Nat.lt_one_iff.mp hlt'
      have hlen := h.length
      obtain rfl : t = o := by simpa [hj0] using heq
      rw [setPush_self]
      exact congrArg some (by omega)
  ready := fun j m hj => by
    rw [SlotQueue.reserve, List.getElem?_append] at hj
    split_ifs at hj with hlt
    · obtain ⟨hmsg, hfin⟩ := h.ready j m hj
      have hlen := h.length
      refine ⟨?_, fun o => ?_⟩
      · change (s.reserved ++ [msg])[s.queue.getIndex + j]? = some m
        rw [List.getElem?_append_left (List.getElem?_eq_some_iff.mp hmsg).1]
        exact hmsg
      · change ((s.setPush t _).pushing o).index? ≠ some (s.queue.getIndex + j)
        by_cases ho : o = t
        · subst ho
          rw [setPush_self]
          exact fun heq => absurd (Option.some.inj heq) (by omega)
        · rw [setPush_of_ne ho]
          exact hfin o
    · obtain ⟨hlt', heq⟩ := List.getElem?_eq_some_iff.mp hj
      have hj0 : j - slots.length = 0 := Nat.lt_one_iff.mp hlt'
      simp [hj0] at heq

/-- Publishing an index fills the slot of its producer. -/
theorem ShowsSlots.publish (h : s.ShowsSlots slots) (hi : s.Inv) {q : SrtQueue g T}
    (ht : (s.pushing t).index? = some i) (hmsg : s.reserved[i]? = some msg)
    (hget : q.getIndex = s.queue.getIndex) (hpost : q.postIndex = s.queue.postIndex) :
    ∃ slots', fill t msg slots = some slots' ∧
      ShowsSlots { s.setPush t .idle with queue := q } slots' := by
  obtain ⟨j, rfl, hj⟩ := h.held hi ht
  have honly {k : ℕ} (hk : slots[k]? = some (.reserved t)) : k = j := by
    have heq := (h.reserved k t hk).symm.trans ht
    have hsum := Option.some.inj heq
    omega
  refine ⟨_, fill_eq_set hj (fun k hk hslot => absurd (honly hslot) hk.ne) msg, ?_, ?_, ?_⟩
  · simp only [List.length_set, hget, hpost]
    exact h.length
  · intro k o hk
    rw [List.getElem?_set] at hk
    change ((s.setPush t .idle).pushing o).index? = some (q.getIndex + k)
    split_ifs at hk with hjk hlt
    · cases hk
    · have hne : o ≠ t := by
        rintro rfl
        exact hjk (honly hk).symm
      rw [setPush_of_ne hne, hget, h.reserved k o hk]
  · intro k m hk
    rw [List.getElem?_set] at hk
    change s.reserved[q.getIndex + k]? = some m ∧
      ∀ o, ((s.setPush t .idle).pushing o).index? ≠ some (q.getIndex + k)
    rw [hget]
    split_ifs at hk with hjk hlt
    · subst hjk
      obtain rfl : msg = m := by simpa using hk
      refine ⟨hmsg, fun o ho => ?_⟩
      by_cases hot : o = t
      · subst hot
        rw [setPush_self] at ho
        cases ho
      · rw [setPush_of_ne hot] at ho
        exact hot (hi.distinct o t _ ho ht)
    · obtain ⟨hm, hfin⟩ := h.ready k m hk
      refine ⟨hm, fun o ho => ?_⟩
      by_cases hot : o = t
      · subst hot
        rw [setPush_self] at ho
        cases ho
      · exact hfin o (setPush_of_ne hot ▸ ho)

/-- The last access of `pop` takes the first slot. -/
theorem ShowsSlots.next (h : s.ShowsSlots slots) (hi : s.Inv) (hpc : s.popping = .taken msg) :
    ∃ slots', pop slots = some (msg, slots') ∧
      ShowsSlots { s with queue := s.queue.incGet, popping := .idle, popped := s.popped ++ [msg] }
        slots' := by
  have hmsg := hi.pop
  unfold PopOk at hmsg
  simp only [hpc] at hmsg
  have hfront : s.front = s.queue.getIndex + 1 := by simp only [front, hpc]
  have hlen := h.length
  have hle := hi.front_le
  cases slots with
  | nil =>
    simp only [List.length_nil] at hlen
    omega
  | cons slot slots =>
    cases slot with
    | reserved o =>
      have hclaim := (hi.claimed o _ (h.reserved 0 o rfl)).1
      omega
    | ready m =>
      obtain ⟨hm, -⟩ := h.ready 0 m rfl
      obtain rfl : m = msg := Option.some.inj (hm.symm.trans hmsg)
      refine ⟨slots, rfl, ?_, fun j o hj => ?_, fun j m' hj => ?_⟩
      · simp only [List.length_cons, SrtQueue.incGet] at hlen ⊢
        omega
      · have hold := h.reserved (j + 1) o hj
        rw [show s.queue.getIndex + (j + 1) = s.queue.getIndex + 1 + j by omega] at hold
        exact hold
      · have hold := h.ready (j + 1) m' hj
        rw [show s.queue.getIndex + (j + 1) = s.queue.getIndex + 1 + j by omega] at hold
        exact hold

/-- A pop that ends without a message finds no slot, or one that is not filled. -/
theorem ShowsSlots.pop_none (h : s.ShowsSlots slots) (hi : s.Inv)
    (hnone : s.queue.postIndex ≤ s.queue.getIndex ∨
      ∃ t, (s.pushing t).index? = some s.queue.getIndex) : pop slots = none := by
  have hlen := h.length
  cases slots with
  | nil => rfl
  | cons slot slots =>
    rcases hnone with hle | ⟨t, ht⟩
    · simp only [List.length_cons] at hlen
      omega
    · obtain ⟨j, hj, hslot⟩ := h.held hi ht
      obtain rfl : j = 0 := by omega
      obtain rfl := Option.some.inj hslot
      rfl

end QueueSys
end TcpLib
