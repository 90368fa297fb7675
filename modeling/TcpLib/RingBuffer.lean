import TcpLib.Lib.BoundedFifo
import TcpLib.Lib.CircularBuffer
import TcpLib.Lib.Transition
import TcpLib.ServerNotify

/-!
# The ring of one producer and one consumer

`ringBuffer` of the test server has no lock: the producer writes `m_rear` and the consumer `m_front`,
and each reads the index of the other one. The slot after the last item stays free. Here every access
to a shared field is a step. A popped item stays in its slot until it is overwritten.
-/

namespace TcpLib
open CircularBuffer Transition
variable {T : Type*}

structure RingBuffer (T : Type*) where
  size : ℕ
  front : ℕ := 0
  rear : ℕ := 0
  data : ℕ → T

namespace RingBuffer

/-- `(index + 1) % m_size`, computed as an `int` first. -/
def next (r : RingBuffer T) (index : ℕ) : Option ℕ :=
  if index + 1 ≤ intMax ∧ r.size ≠ 0 then some ((index + 1) % r.size) else none

def isEmpty (r : RingBuffer T) : Bool := r.front == r.rear

def isFull (r : RingBuffer T) : Option Bool := (r.next r.rear).map fun next => r.front == next

def store (r : RingBuffer T) (value : T) : RingBuffer T :=
  { r with data := Function.update r.data r.rear value }

def incRear (r : RingBuffer T) : Option (RingBuffer T) :=
  (r.next r.rear).map fun next => { r with rear := next }

def incFront (r : RingBuffer T) : Option (RingBuffer T) :=
  (r.next r.front).map fun next => { r with front := next }

def push (r : RingBuffer T) (value : T) : Option (RingBuffer T × Bool) :=
  r.isFull.bind fun full =>
    if full then some (r, false) else (r.store value).incRear.map fun r' => (r', true)

def pop (r : RingBuffer T) : Option (RingBuffer T × Option T) :=
  if r.isEmpty then some (r, none)
  else r.incFront.map fun r' => (r', some (r.data r.front))

/-- The items from `m_front` up to `m_rear`, oldest first. -/
structure Shows (r : RingBuffer T) (held : List T) : Prop where
  length_lt : held.length < r.size
  size_le : r.size ≤ intMax
  front_lt : r.front < r.size
  rear_eq : r.rear = (r.front + held.length) % r.size
  data : ∀ i (h : i < held.length), r.data ((r.front + i) % r.size) = held[i]

namespace Shows
variable {r r' : RingBuffer T} {held : List T} {value : T}

theorem new {size : ℕ} (hpos : 1 ≤ size) (hsize : size ≤ intMax) (data : ℕ → T) :
    Shows { size := size, data := data } [] where
  length_lt := hpos
  size_le := hsize
  front_lt := hpos
  rear_eq := by simp
  data := nofun

theorem next_eq (h : r.Shows held) {index : ℕ} (hi : index < r.size) :
    r.next index = some ((index + 1) % r.size) := by
  have hsize := h.size_le
  have hlt := h.front_lt
  exact if_pos ⟨by omega, by omega⟩

theorem rear_lt (h : r.Shows held) : r.rear < r.size := by
  rw [h.rear_eq]
  exact Nat.mod_lt _ (Nat.zero_lt_of_lt h.front_lt)

theorem next_rear (h : r.Shows held) : (r.rear + 1) % r.size = (r.front + (held.length + 1)) % r.size := by
  rw [h.rear_eq, Nat.mod_add_mod, Nat.add_assoc]

theorem isEmpty_iff (h : r.Shows held) : r.isEmpty ↔ held = [] := by
  rw [isEmpty, beq_iff_eq, h.rear_eq]
  constructor
  · intro heq
    by_contra hne
    exact add_mod_ne h.front_lt (List.length_pos_iff.mpr hne) h.length_lt heq.symm
  · rintro rfl
    simp [Nat.mod_eq_of_lt h.front_lt]

theorem isFull_eq (h : r.Shows held) : r.isFull = some (decide (r.size - 1 ≤ held.length)) := by
  have hlen := h.length_lt
  rw [isFull, h.next_eq h.rear_lt, Option.map_some, h.next_rear]
  congr 1
  rw [Bool.eq_iff_iff, beq_iff_eq, decide_eq_true_iff]
  constructor
  · intro heq
    by_contra hroom
    exact add_mod_ne h.front_lt (Nat.succ_pos _) (by omega) heq.symm
  · intro hfull
    rw [show held.length + 1 = r.size by omega, Nat.add_mod_right, Nat.mod_eq_of_lt h.front_lt]

/-- The slot at `m_rear` holds no item, so that a write to it changes none. -/
theorem store (h : r.Shows held) (value : T) : (r.store value).Shows held where
  length_lt := h.length_lt
  size_le := h.size_le
  front_lt := h.front_lt
  rear_eq := h.rear_eq
  data := by
    intro i hi
    have hlen := h.length_lt
    have hne : (r.front + i) % r.size ≠ r.rear := by
      rw [h.rear_eq]
      intro heq
      exact Nat.ne_of_lt hi (mod_add_inj (by omega) (by omega) heq)
    exact (Function.update_of_ne hne ..).trans (h.data i hi)

/-- Moving `m_rear` publishes what its slot holds. -/
theorem incRear (h : r.Shows held) (hroom : held.length < r.size - 1) :
    ∃ r', r.incRear = some r' ∧ r'.Shows (held ++ [r.data r.rear]) ∧ r'.size = r.size ∧
      r'.front = r.front ∧ r'.data = r.data := by
  refine ⟨{ r with rear := (r.rear + 1) % r.size }, ?_, ⟨?_, h.size_le, h.front_lt, ?_, ?_⟩, rfl, rfl, rfl⟩
  · rw [RingBuffer.incRear, h.next_eq h.rear_lt]
    rfl
  · rw [List.length_append, List.length_singleton]
    change held.length + 1 < r.size
    omega
  · rw [List.length_append, List.length_singleton]
    exact h.next_rear
  · intro i hi
    rcases Nat.lt_or_ge i held.length with hlt | hge
    · rw [List.getElem_append_left hlt]
      exact h.data i hlt
    · obtain rfl : i = held.length := by simp at hi; omega
      rw [List.getElem_concat_length rfl]
      exact congrArg r.data h.rear_eq.symm

/-- Moving `m_front` drops the oldest item. -/
theorem incFront (h : r.Shows (value :: held)) :
    ∃ r', r.incFront = some r' ∧ r'.Shows held ∧ r'.size = r.size ∧ r'.rear = r.rear ∧
      r'.data = r.data := by
  have hlen := h.length_lt
  rw [List.length_cons] at hlen
  have hpos := Nat.zero_lt_of_lt h.front_lt
  have hmove (i : ℕ) : ((r.front + 1) % r.size + i) % r.size = (r.front + (i + 1)) % r.size := by
    rw [Nat.mod_add_mod, Nat.add_assoc, Nat.add_comm 1]
  refine ⟨{ r with front := (r.front + 1) % r.size }, ?_,
    ⟨Nat.lt_of_succ_lt hlen, h.size_le, Nat.mod_lt _ hpos, ?_, ?_⟩, rfl, rfl, rfl⟩
  · rw [RingBuffer.incFront, h.next_eq h.front_lt]
    rfl
  · exact h.rear_eq.trans (hmove held.length).symm
  · intro i hi
    refine (congrArg r.data (hmove i)).trans ?_
    exact h.data (i + 1) (Nat.succ_lt_succ hi)

theorem head (h : r.Shows (value :: held)) : r.data r.front = value := by
  have hget := h.data 0 (Nat.succ_pos _)
  rwa [Nat.add_zero, Nat.mod_eq_of_lt h.front_lt] at hget

/-! ### One call at a time -/

theorem push (h : r.Shows held) (value : T) :
    ∃ r', r.push value = some (r', decide (held.length < r.size - 1)) ∧ r'.size = r.size ∧
      r'.Shows (fifoCall (r.size - 1) held (.push value)).1 := by
  unfold RingBuffer.push
  by_cases hfull : r.size - 1 ≤ held.length
  · refine ⟨r, ?_, rfl, ?_⟩
    · simp [h.isFull_eq, hfull, Nat.not_lt_of_le hfull]
    · rw [fifoCall_push_full hfull]
      exact h
  · obtain ⟨r', hinc, hshows, hsize, -, -⟩ := (h.store value).incRear (Nat.lt_of_not_le hfull)
    refine ⟨r', ?_, hsize, ?_⟩
    · simp [h.isFull_eq, hfull, hinc, Nat.lt_of_not_le hfull]
    · rw [fifoCall_push hfull]
      have hdata : (r.store value).data (r.store value).rear = value := Function.update_self ..
      rwa [hdata] at hshows

theorem pop (h : r.Shows held) :
    ∃ r', r.pop = some (r', held.head?) ∧ r'.size = r.size ∧ r'.Shows held.tail := by
  unfold RingBuffer.pop
  cases held with
  | nil => exact ⟨r, by rw [if_pos (h.isEmpty_iff.mpr rfl)]; rfl, rfl, h⟩
  | cons value held =>
    have hne : ¬r.isEmpty := fun hempty => absurd (h.isEmpty_iff.mp hempty) (List.cons_ne_nil _ _)
    obtain ⟨r', hinc, hshows, hsize, -, -⟩ := h.incFront
    refine ⟨r', ?_, hsize, hshows⟩
    rw [if_neg hne, hinc, h.head]
    rfl

end Shows
end RingBuffer

/-! ## The two threads -/

/-- How far the producer is in `push`. -/
inductive ProducerPc (T : Type*)
  | idle
  | tested (value : T)
  | stored (value : T)

/-- How far the consumer is in `pop`. -/
inductive ConsumerPc (T : Type*)
  | idle
  | tested
  | loaded (value : T)

def ProducerPc.value? : ProducerPc T → Option T
  | .idle => none
  | .tested value | .stored value => some value

def ConsumerPc.loaded? : ConsumerPc T → Option T
  | .loaded value => some value
  | _ => none

/-- `calls` and `results` are the calls that took effect, in this order. `fault` is set where an
index is no `int` or the size is zero. -/
structure RingSys (T : Type*) where
  ring : RingBuffer T
  producer : ProducerPc T := .idle
  consumer : ConsumerPc T := .idle
  calls : List (FifoCall T) := []
  results : List (FifoResult T) := []
  fault : Bool := false

inductive RingAct (T : Type*)
  | pushTest (value : T)
  | pushStore
  | pushMove
  | popTest
  | popLoad
  | popMove

namespace RingSys

def record (s : RingSys T) (call : FifoCall T) (result : FifoResult T) : RingSys T :=
  { s with calls := s.calls ++ [call], results := s.results ++ [result] }

/-- The rest of a step after an index was computed. -/
def compute {α : Type*} (s : RingSys T) (r : Option α) (k : α → RingSys T) : RingSys T :=
  match r with
  | some a => k a
  | none => { s with fault := true }

def step (s : RingSys T) : RingAct T → Option (RingSys T)
  | .pushTest value =>
    match s.producer with
    | .idle => some <| s.compute s.ring.isFull fun full =>
      if full then s.record (.push value) (.pushed false) else { s with producer := .tested value }
    | _ => none
  | .pushStore =>
    match s.producer with
    | .tested value => some { s with ring := s.ring.store value, producer := .stored value }
    | _ => none
  | .pushMove =>
    match s.producer with
    | .stored value => some <| s.compute s.ring.incRear fun ring =>
      { s with ring := ring, producer := .idle }.record (.push value) (.pushed true)
    | _ => none
  | .popTest =>
    match s.consumer with
    | .idle =>
      if s.ring.isEmpty then some (s.record .pop (.popped none))
      else some { s with consumer := .tested }
    | _ => none
  | .popLoad =>
    match s.consumer with
    | .tested => some { s with consumer := .loaded (s.ring.data s.ring.front) }
    | _ => none
  | .popMove =>
    match s.consumer with
    | .loaded value => some <| s.compute s.ring.incFront fun ring =>
      { s with ring := ring, consumer := .idle }.record .pop (.popped (some value))
    | _ => none

/-- The next access of a producer that pushes the value. -/
def nextPush (s : RingSys T) (value : T) : RingAct T :=
  match s.producer with
  | .idle => .pushTest value
  | .tested _ => .pushStore
  | .stored _ => .pushMove

def nextPop (s : RingSys T) : RingAct T :=
  match s.consumer with
  | .idle => .popTest
  | .tested => .popLoad
  | .loaded _ => .popMove

/-- The calls so far were answered like those of a bounded queue, and the ring shows what it holds. -/
structure Inv (size : ℕ) (s : RingSys T) (held : List T) : Prop where
  fault : s.fault = false
  ring_size : s.ring.size = size
  shows : s.ring.Shows held
  spec : specCalls (fifoCall (size - 1)) [] s.calls = (held, s.results)
  tested : ∀ value, s.producer = .tested value → held.length < size - 1
  stored : ∀ value, s.producer = .stored value →
    held.length < size - 1 ∧ s.ring.data s.ring.rear = value
  popping : s.consumer ≠ .idle → held ≠ []
  loaded : ∀ value, s.consumer = .loaded value → held.head? = some value

variable {s t : RingSys T} {size : ℕ} {held : List T} {a : RingAct T}

theorem spec_record {call : FifoCall T} {result : FifoResult T} {held' : List T}
    (h : specCalls (fifoCall (size - 1)) [] s.calls = (held, s.results))
    (hcall : fifoCall (size - 1) held call = (held', result)) :
    specCalls (fifoCall (size - 1)) [] (s.record call result).calls =
      (held', (s.record call result).results) := by
  simp only [record, specCalls_concat, h, hcall]

theorem Inv.init (hpos : 1 ≤ size) (hsize : size ≤ intMax) (data : ℕ → T) :
    Inv size { ring := { size := size, data := data } } [] where
  fault := rfl
  ring_size := rfl
  shows := .new hpos hsize data
  spec := rfl
  tested := nofun
  stored := nofun
  popping := fun h => absurd rfl h
  loaded := nofun

/-- Every access keeps the invariant; a push takes effect when it moves `m_rear` or finds the ring
full, a pop when it moves `m_front` or finds the ring empty. -/
theorem Inv.step (h : s.Inv size held) (hstep : s.step a = some t) : ∃ held', t.Inv size held' := by
  cases a with
  | pushTest value =>
    simp only [RingSys.step] at hstep
    split at hstep
    · next hpc =>
      rw [h.shows.isFull_eq, h.ring_size] at hstep
      obtain rfl := Option.some.inj hstep
      simp only [compute]
      split_ifs with hfull
      · have hfull := of_decide_eq_true hfull
        exact ⟨held, h.fault, h.ring_size, h.shows, spec_record h.spec (fifoCall_push_full hfull value),
          h.tested, h.stored, h.popping, h.loaded⟩
      · have hroom : held.length < size - 1 :=
          Nat.lt_of_not_le fun hle => hfull (decide_eq_true hle)
        exact ⟨held, h.fault, h.ring_size, h.shows, h.spec, fun _ _ => hroom, nofun, h.popping, h.loaded⟩
    · cases hstep
  | pushStore =>
    simp only [RingSys.step] at hstep
    split at hstep
    · next value hpc =>
      obtain rfl := Option.some.inj hstep
      refine ⟨held, h.fault, h.ring_size, h.shows.store value, h.spec, nofun, ?_, h.popping, h.loaded⟩
      intro value' hvalue
      obtain rfl := ProducerPc.stored.inj hvalue
      exact ⟨h.tested value hpc, Function.update_self ..⟩
    · cases hstep
  | pushMove =>
    simp only [RingSys.step] at hstep
    split at hstep
    · next value hpc =>
      obtain ⟨hroom, hdata⟩ := h.stored value hpc
      obtain ⟨ring, hinc, hshows, hsize, -, -⟩ := h.shows.incRear (h.ring_size ▸ hroom)
      rw [hinc] at hstep
      obtain rfl := Option.some.inj hstep
      rw [hdata] at hshows
      refine ⟨held ++ [value], h.fault, hsize.trans h.ring_size, hshows,
        spec_record (s := { s with ring := ring, producer := .idle }) h.spec
          (fifoCall_push (Nat.not_le_of_lt hroom) value), nofun, nofun, fun _ => by simp, ?_⟩
      intro value' hvalue
      rw [List.head?_append, h.loaded value' hvalue]
      rfl
    · cases hstep
  | popTest =>
    simp only [RingSys.step] at hstep
    split at hstep
    · next hpc =>
      split_ifs at hstep with hempty
      · obtain rfl := Option.some.inj hstep
        have hnil := h.shows.isEmpty_iff.mp hempty
        refine ⟨held, h.fault, h.ring_size, h.shows, spec_record h.spec ?_, h.tested, h.stored, h.popping,
          h.loaded⟩
        rw [fifoCall_pop, hnil]
        rfl
      · obtain rfl := Option.some.inj hstep
        exact ⟨held, h.fault, h.ring_size, h.shows, h.spec, h.tested, h.stored,
          fun _ hnil => hempty (h.shows.isEmpty_iff.mpr hnil), nofun⟩
    · cases hstep
  | popLoad =>
    simp only [RingSys.step] at hstep
    split at hstep
    · next hpc =>
      obtain rfl := Option.some.inj hstep
      have hne := h.popping (by rw [hpc]; nofun)
      refine ⟨held, h.fault, h.ring_size, h.shows, h.spec, h.tested, h.stored, fun _ => hne, ?_⟩
      intro value hvalue
      obtain rfl := ConsumerPc.loaded.inj hvalue
      obtain ⟨value, rest, rfl⟩ := List.exists_cons_of_ne_nil hne
      rw [h.shows.head]
      rfl
    · cases hstep
  | popMove =>
    simp only [RingSys.step] at hstep
    split at hstep
    · next value hpc =>
      obtain ⟨rest, rfl⟩ : ∃ rest, held = value :: rest := by
        obtain ⟨first, rest, rfl⟩ := List.exists_cons_of_ne_nil (h.popping (by rw [hpc]; nofun))
        obtain rfl : first = value := Option.some.inj (h.loaded value hpc)
        exact ⟨rest, rfl⟩
      obtain ⟨ring, hinc, hshows, hsize, hrear, hdata⟩ := h.shows.incFront
      rw [hinc] at hstep
      obtain rfl := Option.some.inj hstep
      have hless {n : ℕ} (hlt : (value :: rest).length < n) : rest.length < n :=
        Nat.lt_of_succ_lt hlt
      refine ⟨rest, h.fault, hsize.trans h.ring_size, hshows,
        spec_record (s := { s with ring := ring, consumer := .idle }) h.spec (fifoCall_pop _ _),
        fun value' hvalue => hless (h.tested value' hvalue), ?_, fun hne => absurd rfl hne, nofun⟩
      intro value' hvalue
      obtain ⟨hroom, hstored⟩ := h.stored value' hvalue
      refine ⟨hless hroom, ?_⟩
      change ring.data ring.rear = value'
      rw [hdata, hrear]
      exact hstored
    · cases hstep

/-! ### One thread at a time -/

/-- A push offers its item when it returns, and takes nothing out. -/
theorem Inv.step_nextPush (h : s.Inv size held) {value : T}
    (hvalue : ∀ v, s.producer.value? = some v → v = value) (hstep : s.step (s.nextPush value) = some t) :
    poppedItems t.results = poppedItems s.results ∧
      (t.producer.value? = some value ∧ offeredItems t.calls = offeredItems s.calls ∨
        t.producer.value? = none ∧ offeredItems t.calls = offeredItems s.calls ++ [value]) := by
  unfold nextPush at hstep
  cases hpc : s.producer with
  | idle =>
    simp only [hpc, RingSys.step, h.shows.isFull_eq] at hstep
    obtain rfl := Option.some.inj hstep
    simp only [compute]
    split_ifs
    · refine ⟨?_, Or.inr ⟨by simp only [record, hpc]; rfl, offeredItems_concat _ _⟩⟩
      exact (poppedItems_concat _ _).trans (List.append_nil _)
    · exact ⟨rfl, Or.inl ⟨rfl, rfl⟩⟩
  | tested v =>
    obtain rfl := hvalue v (by rw [hpc]; rfl)
    simp only [hpc, RingSys.step] at hstep
    obtain rfl := Option.some.inj hstep
    exact ⟨rfl, Or.inl ⟨rfl, rfl⟩⟩
  | stored v =>
    obtain rfl := hvalue v (by rw [hpc]; rfl)
    obtain ⟨hroom, -⟩ := h.stored v hpc
    obtain ⟨ring, hinc, -⟩ := h.shows.incRear (h.ring_size ▸ hroom)
    simp only [hpc, RingSys.step, hinc] at hstep
    obtain rfl := Option.some.inj hstep
    refine ⟨?_, Or.inr ⟨rfl, offeredItems_concat _ _⟩⟩
    exact (poppedItems_concat _ _).trans (List.append_nil _)

/-- A pop takes out what it has loaded, and offers nothing. -/
theorem Inv.step_nextPop (h : s.Inv size held) (hstep : s.step s.nextPop = some t) :
    offeredItems t.calls = offeredItems s.calls ∧ t.producer = s.producer ∧
      poppedItems t.results = poppedItems s.results ++ s.consumer.loaded?.toList := by
  unfold nextPop at hstep
  cases hpc : s.consumer with
  | idle =>
    simp only [hpc, RingSys.step] at hstep
    split_ifs at hstep
    · obtain rfl := Option.some.inj hstep
      exact ⟨(offeredItems_concat _ _).trans (List.append_nil _), rfl, poppedItems_concat _ _⟩
    · obtain rfl := Option.some.inj hstep
      exact ⟨rfl, rfl, (List.append_nil _).symm⟩
  | tested =>
    simp only [hpc, RingSys.step] at hstep
    obtain rfl := Option.some.inj hstep
    exact ⟨rfl, rfl, (List.append_nil _).symm⟩
  | loaded value =>
    obtain ⟨first, rest, rfl⟩ := List.exists_cons_of_ne_nil (h.popping (by rw [hpc]; nofun))
    obtain ⟨ring, hinc, -⟩ := h.shows.incFront
    simp only [hpc, RingSys.step, hinc] at hstep
    obtain rfl := Option.some.inj hstep
    exact ⟨(offeredItems_concat _ _).trans (List.append_nil _), rfl, poppedItems_concat _ _⟩

theorem Inv.popped_sublist (h : s.Inv size held) :
    (poppedItems s.results ++ held).Sublist (offeredItems s.calls) :=
  (accepted_eq_popped h.spec).2 ▸ acceptedItems_sublist s.calls s.results

theorem Inv.popped_eq (h : s.Inv size held) (hno : .pushed false ∉ s.results) :
    poppedItems s.results ++ held = offeredItems s.calls :=
  (accepted_eq_popped h.spec).2.symm.trans (accepted_eq_offered h.spec hno)

end RingSys

/-- A ring of any size that an `int` can index answers the calls of its producer and its consumer,
in whatever order their accesses come, like a queue that holds one item less than its size. -/
theorem ring_buffer_is_fifo {size : ℕ} (hpos : 1 ≤ size) (hsize : size ≤ intMax) (data : ℕ → T)
    {acts : List (RingAct T)} {s : RingSys T}
    (hrun : Run RingSys.step anyStep { ring := { size := size, data := data } } acts s) :
    s.fault = false ∧ ∃ held, s.ring.Shows held ∧
      specCalls (fifoCall (size - 1)) [] s.calls = (held, s.results) := by
  obtain ⟨held, h⟩ := hrun.invariant (fun s : RingSys T => ∃ held, s.Inv size held) ⟨[], .init hpos hsize data⟩
    fun _ _ _ ⟨_, h⟩ _ hstep => h.step hstep
  exact ⟨h.fault, held, h.shows, h.spec⟩

/-- Two items go through a ring of two slots while the consumer reads the first one. -/
def ringOfTwo : List (RingAct ℕ) :=
  [.popTest, .pushTest 7, .pushStore, .pushMove, .popTest, .pushTest 8, .popLoad, .popMove, .pushTest 8,
    .pushStore, .popTest, .pushMove, .popTest, .popLoad, .popMove]

theorem ring_buffer_is_fifo_two_slots :
    ∃ s, Run RingSys.step anyStep { ring := { size := 2, data := fun _ => 0 } } ringOfTwo s ∧
      s.results = [.popped none, .pushed true, .pushed false, .popped (some 7), .popped none,
        .pushed true, .popped (some 8)] ∧
      s.fault = false ∧ ∃ held, s.ring.Shows held ∧
        specCalls (fifoCall 1) [] s.calls = (held, s.results) := by
  have hresults : (exec RingSys.step { ring := { size := 2, data := fun _ => 0 } } ringOfTwo).map
      RingSys.results = some [.popped none, .pushed true, .pushed false, .popped (some 7),
        .popped none, .pushed true, .popped (some 8)] := by decide +kernel
  obtain ⟨s, hs, hresults⟩ := Option.map_eq_some_iff.mp hresults
  have hrun : Run RingSys.step anyStep { ring := { size := 2, data := fun _ => 0 } } ringOfTwo s :=
    .of_exec (fun _ _ _ => trivial) hs
  exact ⟨s, hrun, hresults, ring_buffer_is_fifo (by decide) (by decide) _ hrun⟩

end TcpLib
