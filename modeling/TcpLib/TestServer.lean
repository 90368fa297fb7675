import TcpLib.EndToEnd
import TcpLib.Lib.RoundRobin
import TcpLib.QueueSlots
import TcpLib.RingBuffer

/-!
# The message centre of the test server and its workers

`message_center` posts every frame that a loop thread reads to one queue. The main thread deals the
messages of the queue to the rings of the workers in turn, and drops those whose ring is full. A
worker answers a login and frees the two blocks of its message. Every access to the queue and to a
ring is a step, and the steps of all threads come in any order.

A message points to a block that the payload was not copied to and to one with the descriptor; both
are numbered by their allocation.
-/

namespace TcpLib
open Components Transition TicketRing
variable {g : PageShape}

/-! ## Messages and answers -/

/-- `atp_message`, as the threads of the server see it. -/
structure PostedMessage where
  type : Int32
  param1 : Option ℕ
  param2 : Option ℕ
  deriving DecidableEq

/-- The zeroed message. -/
instance : Inhabited PostedMessage := ⟨⟨0, none, none⟩⟩

def CMD_LOGIN : Int32 := 1

def CMD_LOGIN_RESULT : Int32 := 2

/-- `const int threadNum` -/
def threadNum : ℕ := 30

/-- The size that `ringBuffer` has by default. -/
def ringSize : ℕ := 100000

def PostedMessage.isLogin (msg : PostedMessage) : Bool := msg.type == CMD_LOGIN

/-- What `sprintf(data,"wsc:%d",total_recv_num++)` writes. -/
def loginText (number : ℕ) : List UInt8 := ("wsc:" ++ toString (castInt number)).toUTF8.toList

/-- A `LoginResult`, whose text is followed by zeros. -/
def loginResult (number : ℕ) : List UInt8 :=
  intBytes 2 ++ (loginText number ++ List.replicate 992 0).take 992

theorem length_loginResult (number : ℕ) : (loginResult number).length = 996 := by
  unfold loginResult
  rw [List.length_append, length_intBytes, List.length_take, List.length_append, List.length_replicate]
  omega

/-- A reply of `handlemsg` and the descriptor that it is for. -/
structure LoginAnswer where
  clientid : ℤ
  number : ℕ

def LoginAnswer.frame (a : LoginAnswer) : Frame :=
  .ofPayload CMD_LOGIN_RESULT (loginResult a.number) (by rw [length_loginResult]; decide)
    (by rw [length_loginResult]; decide)

/-- The bytes that are given to `senddata`. -/
def LoginAnswer.bytes (a : LoginAnswer) : List UInt8 := a.frame.encode

/-! ## The state -/

/-- Where a worker is in a round of `handlemsg`. -/
inductive WorkerPc
  | idle
  | handling (msg : PostedMessage)
  | counted (msg : PostedMessage) (number : ℕ)
  | done (msg : PostedMessage)

namespace WorkerPc

def msg? : WorkerPc → Option PostedMessage
  | .idle => none
  | .handling msg | .counted msg _ | .done msg => some msg

def number? : WorkerPc → Option ℕ
  | .counted _ number => some number
  | _ => none

def done? : WorkerPc → Option PostedMessage
  | .done msg => some msg
  | _ => none

end WorkerPc

/-- `chars` and `ints` are the blocks of `param1`, of which only the number matters, and of `param2`.
`hand` is what the main thread has popped and not yet inserted. `answers` and `finished` list, with
the worker, the calls of `senddata` and the messages whose blocks were freed. `fault` is set by a use
of a block that was freed. -/
structure TestServer (g : PageShape) where
  queue : QueueSys g PostedMessage
  chars : ℕ := 0
  ints : List ℤ := []
  insertTh : ℕ := 0
  hand : Option PostedMessage := none
  mq : ℕ → RingSys PostedMessage
  worker : ℕ → WorkerPc := fun _ => .idle
  totalRecv : ℕ := 0
  totalSend : ℕ := 0
  answers : List (ℕ × LoginAnswer) := []
  finished : List (ℕ × PostedMessage) := []
  freedChars : List ℕ := []
  freedInts : List ℕ := []
  fault : Bool := false

/-- `post` is an access of a push after its capacity test, `take` one of the main thread's pop. -/
inductive TestAct
  | onRead (t : ℕ) (clientid : ℤ) (type : Int32)
  | post (a : QueueAct PostedMessage)
  | take (a : QueueAct PostedMessage)
  | insert
  | fetch (w : ℕ)
  | work (w : ℕ)

namespace TestServer

def init (g : PageShape) : TestServer g where
  queue := .init g
  mq := fun _ => { ring := { size := ringSize, data := fun _ => default } }

def setWorker (s : TestServer g) (w : ℕ) (pc : WorkerPc) : TestServer g :=
  { s with worker := Function.update s.worker w pc }

/-- `message_center::on_read` and the capacity test of the push in `dispatch_message`. The blocks of
a message that is refused are not freed. -/
def onRead (s : TestServer g) (t : ℕ) (clientid : ℤ) (type : Int32) : Option (TestServer g) :=
  (s.queue.step (.test t ⟨type, some s.chars, some s.ints.length⟩)).map fun queue =>
    { s with queue := queue, chars := s.chars + 1, ints := s.ints ++ [clientid] }

/-- The main thread after an access of its pop. -/
def receive (s : TestServer g) : Option PostedMessage → TestServer g
  | some msg =>
    if msg.param1.isSome then { s with insertTh := (s.insertTh + 1) % threadNum, hand := some msg } else s
  | none => s

/-- An access of the main thread's push, whose result it ignores. -/
def insert (s : TestServer g) : Option (TestServer g) :=
  s.hand.bind fun msg =>
    ((s.mq s.insertTh).step ((s.mq s.insertTh).nextPush msg)).map fun ring =>
      { s with
        mq := Function.update s.mq s.insertTh ring
        hand := if ring.producer.value?.isSome then s.hand else none }

/-- An access of a worker's pop. -/
def fetch (s : TestServer g) (w : ℕ) : Option (TestServer g) :=
  match s.worker w with
  | .idle => ((s.mq w).step (s.mq w).nextPop).map fun ring =>
    { s with
      mq := Function.update s.mq w ring
      worker := Function.update s.worker w
        (match (s.mq w).consumer.loaded? with
        | some msg => .handling msg
        | none => .idle) }
  | _ => none

/-- `*((int *)(msg.param2))` -/
def readInt (s : TestServer g) (param2 : Option ℕ) : Option ℤ :=
  param2.bind fun p => if p ∈ s.freedInts then none else s.ints[p]?

/-- A `delete` of one of `made` blocks. -/
def delete (freed : List ℕ) (made : ℕ) : Option ℕ → Option (List ℕ)
  | none => some freed
  | some p => if p < made ∧ p ∉ freed then some (freed ++ [p]) else none

/-- A step of a round of `handlemsg` on the message that was popped. -/
def work (s : TestServer g) (w : ℕ) : Option (TestServer g) :=
  match s.worker w with
  | .idle => none
  | .handling msg => some <|
    if msg.param1.isSome then
      if msg.isLogin then
        { s.setWorker w (.counted msg s.totalRecv) with totalRecv := s.totalRecv + 1 }
      else s.setWorker w (.done msg)
    else s.setWorker w .idle
  | .counted msg number => some <|
    match s.readInt msg.param2 with
    | some clientid =>
      { s.setWorker w (.done msg) with
        answers := s.answers ++ [(w, ⟨clientid, number⟩)], totalSend := s.totalSend + 1 }
    | none => { s with fault := true }
  | .done msg => some <|
    match delete s.freedChars s.chars msg.param1, delete s.freedInts s.ints.length msg.param2 with
    | some freedChars, some freedInts =>
      { s.setWorker w .idle with
        freedChars := freedChars, freedInts := freedInts, finished := s.finished ++ [(w, msg)] }
    | _, _ => { s with fault := true }

def step (s : TestServer g) : TestAct → Option (TestServer g)
  | .onRead t clientid type => s.onRead t clientid type
  | .post a =>
    if a.isTest || a.isPop then none else (s.queue.step a).map fun queue => { s with queue := queue }
  | .take a =>
    if a.isPop && s.hand.isNone then
      (s.queue.step a).map fun queue => { s with queue := queue }.receive (s.queue.received a)
    else none
  | .insert => s.insert
  | .fetch w => if w < threadNum then s.fetch w else none
  | .work w => s.work w

/-- A reserved index of the queue has a slot of its own. -/
def HasRoom (s : TestServer g) : TestAct → Prop
  | .post a => s.queue.HasRoom a
  | _ => True

instance (s : TestServer g) : (a : TestAct) → Decidable (s.HasRoom a)
  | .post a => inferInstanceAs (Decidable (s.queue.HasRoom a))
  | .onRead _ _ _ | .take _ | .insert | .fetch _ | .work _ => inferInstanceAs (Decidable True)

/-! ## What holds in every run -/

/-- The messages whose blocks the worker has freed. -/
def handled (s : TestServer g) (w : ℕ) : List PostedMessage := actionsOf w s.finished

/-- The message that is about to be inserted into a ring. -/
def coming (s : TestServer g) (w : ℕ) : List PostedMessage :=
  if w = s.insertTh then s.hand.toList else []

/-- The descriptor that the message points to. -/
def client? (s : TestServer g) (msg : PostedMessage) : Option ℤ := msg.param2.bind (s.ints[·]?)

def Allocated (s : TestServer g) (msg : PostedMessage) : Prop :=
  ∃ k < s.ints.length, msg.param1 = some k ∧ msg.param2 = some k

/-- Every message has blocks of its own. -/
structure Memory (s : TestServer g) : Prop where
  chars : s.chars = s.ints.length
  reserved : ∀ m ∈ s.queue.reserved, s.Allocated m
  tested : ∀ t m, s.queue.pushing t = .tested m → s.Allocated m
  nodup : (s.queue.reserved.map PostedMessage.param1).Nodup
  fresh : ∀ t m, s.queue.pushing t = .tested m → m.param1 ∉ s.queue.reserved.map PostedMessage.param1
  apart : ∀ t t' m m', s.queue.pushing t = .tested m → s.queue.pushing t' = .tested m' →
    m.param1 = m'.param1 → t = t'

/-- Where the messages are that the main thread has popped. -/
structure Dealing (s : TestServer g) : Prop where
  ring : ∀ w, ∃ held, (s.mq w).Inv ringSize held
  insertTh : s.insertTh = s.queue.popped.length % threadNum
  dealt : ∀ w, offeredItems (s.mq w).calls ++ s.coming w = lane threadNum w s.queue.popped
  inserting : ∀ w v, (s.mq w).producer.value? = some v → w = s.insertTh ∧ s.hand = some v
  fetched : ∀ w, poppedItems (s.mq w).results = s.handled w ++ (s.worker w).msg?.toList

/-- What the workers have answered and freed. -/
structure Replies (s : TestServer g) : Prop where
  fault : s.fault = false
  freedChars : s.freedChars.map some = s.finished.map fun x => x.2.param1
  freedInts : s.freedInts.map some = s.finished.map fun x => x.2.param2
  nodup : s.freedChars.Nodup
  login : ∀ w m n, s.worker w = .counted m n → m.isLogin
  answered : ∀ w, (actionsOf w s.answers).map (fun a => some a.clientid) =
    ((s.handled w ++ (s.worker w).done?.toList).filter PostedMessage.isLogin).map s.client?
  numbers : Drawn (fun w => (s.worker w).number?) s.totalRecv
  told : (s.answers.map fun x => x.2.number).Nodup
  told_lt : ∀ x ∈ s.answers, x.2.number < s.totalRecv ∧ ∀ w, (s.worker w).number? ≠ some x.2.number

structure Inv (s : TestServer g) : Prop where
  queue : s.queue.Inv
  memory : s.Memory
  dealing : s.Dealing
  replies : s.Replies

variable {s s' : TestServer g} {t w : ℕ} {m : PostedMessage} {a : QueueAct PostedMessage}
  {q : QueueSys g PostedMessage}

/-! ### Blocks -/

theorem Memory.onRead (h : s.Memory) (clientid : ℤ) (type : Int32)
    (hstep : s.queue.step (.test t ⟨type, some s.chars, some s.ints.length⟩) = some q) :
    Memory { s with queue := q, chars := s.chars + 1, ints := s.ints ++ [clientid] } := by
  have hgrow {m : PostedMessage} (hm : s.Allocated m) :
      Allocated { s with queue := q, chars := s.chars + 1, ints := s.ints ++ [clientid] } m := by
    obtain ⟨k, hk, hparams⟩ := hm
    exact ⟨k, by rw [List.length_append]; exact Nat.lt_add_right _ hk, hparams⟩
  have hlen : s.chars + 1 = (s.ints ++ [clientid]).length := by
    rw [List.length_append, h.chars]
    rfl
  rcases QueueSys.test_cases hstep with rfl | ⟨hpc, rfl⟩
  · exact ⟨hlen, fun m hm => hgrow (h.reserved m hm), fun t m hm => hgrow (h.tested t m hm), h.nodup,
      h.fresh, h.apart⟩
  · -- the new block has a number that no message has
    have hold {m : PostedMessage} (hm : s.Allocated m) : m.param1 ≠ some s.chars := by
      obtain ⟨k, hk, hparam, -⟩ := hm
      rw [hparam, h.chars]
      exact fun heq => hk.ne (Option.some.inj heq)
    have hcases {t' : ℕ} {m : PostedMessage} (hm : (s.queue.setPush t
        (.tested ⟨type, some s.chars, some s.ints.length⟩)).pushing t' = .tested m) :
        t' = t ∧ m = ⟨type, some s.chars, some s.ints.length⟩ ∨ s.queue.pushing t' = .tested m := by
      by_cases htt : t' = t
      · subst htt
        rw [QueueSys.setPush_self] at hm
        exact Or.inl ⟨rfl, (PushPc.tested.inj hm).symm⟩
      · exact Or.inr ((QueueSys.setPush_of_ne htt).symm.trans hm)
    refine ⟨hlen, fun m hm => hgrow (h.reserved m hm), fun t' m hm => ?_, h.nodup, fun t' m hm => ?_,
      fun t₁ t₂ m₁ m₂ h₁ h₂ heq => ?_⟩
    · rcases hcases hm with ⟨-, rfl⟩ | hm
      · exact ⟨s.ints.length, by simp, by rw [h.chars], rfl⟩
      · exact hgrow (h.tested t' m hm)
    · rcases hcases hm with ⟨-, rfl⟩ | hm
      · intro hmem
        obtain ⟨m, hm, hparam⟩ := List.mem_map.mp hmem
        exact hold (h.reserved m hm) hparam
      · exact h.fresh t' m hm
    · rcases hcases h₁ with ⟨rfl, rfl⟩ | hold₁ <;> rcases hcases h₂ with ⟨rfl, rfl⟩ | hold₂
      · rfl
      · exact absurd heq.symm (hold (h.tested _ _ hold₂))
      · exact absurd heq (hold (h.tested _ _ hold₁))
      · exact h.apart t₁ t₂ m₁ m₂ hold₁ hold₂ heq

theorem Memory.post (h : s.Memory) (htest : a.isTest = false) (hpop : a.isPop = false)
    (hstep : s.queue.step a = some q) : Memory { s with queue := q } := by
  obtain ⟨-, ⟨hreserved, htested⟩ | ⟨t, m, hm, hreserved, htested⟩⟩ :=
    QueueSys.post_cases htest hpop hstep
  · refine ⟨h.chars, fun m hm => h.reserved m (hreserved ▸ hm), fun t m hm => h.tested t m (htested t m hm),
      ?_, fun t m hm => ?_, fun t t' m m' hm hm' => h.apart t t' m m' (htested t m hm) (htested t' m' hm')⟩
    · rw [hreserved]
      exact h.nodup
    · rw [hreserved]
      exact h.fresh t m (htested t m hm)
  · refine ⟨h.chars, fun m' hm' => ?_, fun t' m' hm' => h.tested t' m' (htested t' m' hm').2, ?_,
      fun t' m' hm' => ?_,
      fun t₁ t₂ m₁ m₂ h₁ h₂ => h.apart t₁ t₂ m₁ m₂ (htested t₁ m₁ h₁).2 (htested t₂ m₂ h₂).2⟩
    · rcases List.mem_append.mp (hreserved ▸ hm') with hold | hnew
      · exact h.reserved m' hold
      · exact List.mem_singleton.mp hnew ▸ h.tested t m hm
    · rw [hreserved, List.map_append]
      refine List.nodup_append.mpr ⟨h.nodup, List.nodup_singleton _, fun k hk k' hk' heq => ?_⟩
      obtain rfl := List.mem_singleton.mp hk'
      exact h.fresh t m hm (heq ▸ hk)
    · obtain ⟨hne, hold⟩ := htested t' m' hm'
      rw [hreserved, List.map_append, List.mem_append, not_or]
      refine ⟨h.fresh t' m' hold, fun hmem => hne ?_⟩
      exact h.apart t' t m' m hold hm (List.mem_singleton.mp hmem)

theorem Memory.of_eq (h : s.Memory) (hreserved : s'.queue.reserved = s.queue.reserved)
    (hpushing : s'.queue.pushing = s.queue.pushing) (hchars : s'.chars = s.chars)
    (hints : s'.ints = s.ints) : s'.Memory := by
  have hsame {m : PostedMessage} (hm : s.Allocated m) : s'.Allocated m := by
    unfold Allocated
    rwa [hints]
  refine ⟨by rw [hchars, hints, h.chars], fun m hm => hsame (h.reserved m (hreserved ▸ hm)),
    fun t m hm => hsame (h.tested t m (hpushing ▸ hm)), hreserved ▸ h.nodup, fun t m hm => ?_,
    fun t t' m m' hm hm' => h.apart t t' m m' (hpushing ▸ hm) (hpushing ▸ hm')⟩
  rw [hreserved]
  exact h.fresh t m (hpushing ▸ hm)

/-! ### Dealing -/

theorem Dealing.of_eq (h : s.Dealing) (hpopped : s'.queue.popped = s.queue.popped)
    (hinsert : s'.insertTh = s.insertTh) (hhand : s'.hand = s.hand) (hmq : s'.mq = s.mq)
    (hfetched : ∀ w, s'.handled w ++ (s'.worker w).msg?.toList = s.handled w ++ (s.worker w).msg?.toList) :
    s'.Dealing where
  ring := hmq ▸ h.ring
  insertTh := by rw [hinsert, hpopped, h.insertTh]
  dealt := fun w => by
    have hold := h.dealt w
    unfold coming at hold ⊢
    rwa [hmq, hinsert, hhand, hpopped]
  inserting := fun w v hv => by
    rw [hinsert, hhand]
    exact h.inserting w v (hmq ▸ hv)
  fetched := fun w => by rw [hmq, h.fetched, hfetched]

theorem Dealing.popped_sublist (h : s.Dealing) (w : ℕ) :
    (s.handled w ++ (s.worker w).msg?.toList).Sublist (lane threadNum w s.queue.popped) := by
  obtain ⟨held, hring⟩ := h.ring w
  rw [← h.fetched, ← h.dealt]
  have hpopped : (poppedItems (s.mq w).results).Sublist (poppedItems (s.mq w).results ++ held) :=
    List.sublist_append_left _ _
  exact (hpopped.trans hring.popped_sublist).trans (List.sublist_append_left _ _)

theorem Dealing.mem_popped (h : s.Dealing) (hm : m ∈ s.handled w ++ (s.worker w).msg?.toList) :
    m ∈ s.queue.popped :=
  (lane_sublist _ _ _).subset ((h.popped_sublist w).subset hm)

/-- The next message goes to the next ring. -/
theorem Dealing.receive {msg : PostedMessage} (h : s.Dealing) (hhand : s.hand = none)
    (hpopped : q.popped = s.queue.popped ++ [msg]) :
    Dealing { s with queue := q, insertTh := (s.insertTh + 1) % threadNum, hand := some msg } where
  ring := h.ring
  insertTh := by
    change (s.insertTh + 1) % threadNum = q.popped.length % threadNum
    rw [hpopped, h.insertTh, List.length_append, List.length_singleton, Nat.mod_add_mod]
  dealt := fun w => by
    have hold := h.dealt w
    unfold coming at hold ⊢
    rw [hhand] at hold
    have hold' : offeredItems (s.mq w).calls = lane threadNum w s.queue.popped := by simpa using hold
    change offeredItems (s.mq w).calls ++
      (if w = (s.insertTh + 1) % threadNum then [msg] else []) = lane threadNum w q.popped
    rw [hpopped, lane_concat, hold', h.insertTh, Nat.mod_add_mod]
    simp only [eq_comm]
  inserting := fun w v hv => by
    have hold := (h.inserting w v hv).2
    rw [hhand] at hold
    cases hold
  fetched := h.fetched

theorem Dealing.insert (h : s.Dealing) (hstep : s.insert = some s') :
    s'.Dealing := by
  obtain ⟨msg, hmsg, hstep⟩ := Option.bind_eq_some_iff.mp hstep
  obtain ⟨ring, hring, rfl⟩ := Option.map_eq_some_iff.mp hstep
  obtain ⟨held, hinv⟩ := h.ring s.insertTh
  have hvalue (v : PostedMessage) (hv : (s.mq s.insertTh).producer.value? = some v) : v = msg :=
    Option.some.inj ((h.inserting _ v hv).2.symm.trans hmsg)
  obtain ⟨hpopped, hcases⟩ := hinv.step_nextPush hvalue hring
  refine ⟨fun w => ?_, h.insertTh, fun w => ?_, fun w v hv => ?_, fun w => ?_⟩
  · by_cases hw : w = s.insertTh
    · subst hw
      simpa only [Function.update_self] using hinv.step hring
    · simpa only [Function.update_of_ne hw] using h.ring w
  · have hold := h.dealt w
    unfold coming at hold ⊢
    by_cases hw : w = s.insertTh
    · subst hw
      simp only [Function.update_self, if_pos] at hold ⊢
      rcases hcases with ⟨hproducer, hoffered⟩ | ⟨hproducer, hoffered⟩
      · simpa [hproducer, hoffered] using hold
      · simpa [hproducer, hoffered, hmsg] using hold
    · simp only [Function.update_of_ne hw, if_neg hw] at hold ⊢
      exact hold
  · by_cases hw : w = s.insertTh
    · subst hw
      simp only [Function.update_self] at hv
      rcases hcases with ⟨hproducer, -⟩ | ⟨hproducer, -⟩
      · obtain rfl := Option.some.inj (hproducer.symm.trans hv)
        exact ⟨rfl, by simpa [hproducer] using hmsg⟩
      · rw [hproducer] at hv
        cases hv
    · simp only [Function.update_of_ne hw] at hv
      exact absurd (h.inserting w v hv).1 hw
  · have hold := h.fetched w
    by_cases hw : w = s.insertTh
    · subst hw
      simp only [Function.update_self, hpopped]
      exact hold
    · simp only [Function.update_of_ne hw]
      exact hold

theorem Dealing.fetch (h : s.Dealing) (hstep : s.fetch w = some s') : s'.Dealing := by
  simp only [TestServer.fetch] at hstep
  split at hstep
  · next hpc =>
    obtain ⟨ring, hring, rfl⟩ := Option.map_eq_some_iff.mp hstep
    obtain ⟨held, hinv⟩ := h.ring w
    obtain ⟨hoffered, hproducer, hpopped⟩ := hinv.step_nextPop hring
    refine ⟨fun w' => ?_, h.insertTh, fun w' => ?_, fun w' v hv => ?_, fun w' => ?_⟩
    · by_cases hw : w' = w
      · subst hw
        simpa only [Function.update_self] using hinv.step hring
      · simpa only [Function.update_of_ne hw] using h.ring w'
    · have hold := h.dealt w'
      by_cases hw : w' = w
      · subst hw
        simp only [Function.update_self, hoffered]
        exact hold
      · simp only [Function.update_of_ne hw]
        exact hold
    · by_cases hw : w' = w
      · subst hw
        simp only [Function.update_self, hproducer] at hv
        exact h.inserting w' v hv
      · simp only [Function.update_of_ne hw] at hv
        exact h.inserting w' v hv
    · have hold := h.fetched w'
      by_cases hw : w' = w
      · subst hw
        simp only [Function.update_self, hpopped]
        rw [hpc] at hold
        rw [hold]
        cases (s.mq w').consumer.loaded? <;> simp [WorkerPc.msg?, handled]
      · simp only [Function.update_of_ne hw]
        exact hold
  · cases hstep

theorem Dealing.setWorker (h : s.Dealing) {pc : WorkerPc} (hmsg : pc.msg? = (s.worker w).msg?)
    {recv send : ℕ} {answers : List (ℕ × LoginAnswer)} :
    Dealing { s.setWorker w pc with totalRecv := recv, totalSend := send, answers := answers } := by
  refine h.of_eq rfl rfl rfl rfl fun w' => ?_
  by_cases hw : w' = w
  · subst hw
    simp only [TestServer.setWorker, Function.update_self, hmsg]
    rfl
  · simp only [TestServer.setWorker, Function.update_of_ne hw]
    rfl

/-! ### Answers -/

theorem number?_update (pc : WorkerPc) :
    (fun w' => (Function.update s.worker w pc w').number?) =
      Function.update (fun w' => (s.worker w').number?) w pc.number? := by
  funext w'
  by_cases hw : w' = w
  · subst hw
    simp only [Function.update_self]
  · simp only [Function.update_of_ne hw]

theorem number?_of_update {pc : WorkerPc} {n : ℕ} (hpc : pc.number? ≠ some n)
    (hold : ∀ w', (s.worker w').number? ≠ some n) (w' : ℕ) :
    (Function.update s.worker w pc w').number? ≠ some n := by
  by_cases hw : w' = w
  · subst hw
    simpa only [Function.update_self] using hpc
  · simpa only [Function.update_of_ne hw] using hold w'

/-- What the other threads do is nothing to them. -/
theorem Replies.frame (h : s.Replies) {insertTh : ℕ} {hand : Option PostedMessage}
    {mq : ℕ → RingSys PostedMessage} :
    Replies { s with queue := q, insertTh := insertTh, hand := hand, mq := mq } :=
  ⟨h.fault, h.freedChars, h.freedInts, h.nodup, h.login, h.answered, h.numbers, h.told, h.told_lt⟩

/-- A worker goes on and has neither drawn a number nor answered a login. -/
theorem Replies.move (h : s.Replies) {pc : WorkerPc} {mq : ℕ → RingSys PostedMessage}
    (hnumber : pc.number? = none)
    (hdone : pc.done?.toList.filter PostedMessage.isLogin =
      (s.worker w).done?.toList.filter PostedMessage.isLogin) :
    Replies { s.setWorker w pc with mq := mq } where
  fault := h.fault
  freedChars := h.freedChars
  freedInts := h.freedInts
  nodup := h.nodup
  login := fun w' m n hm => by
    by_cases hw : w' = w
    · subst hw
      simp only [TestServer.setWorker, Function.update_self] at hm
      rw [hm] at hnumber
      cases hnumber
    · simp only [TestServer.setWorker, Function.update_of_ne hw] at hm
      exact h.login w' m n hm
  answered := fun w' => by
    refine (h.answered w').trans ?_
    congr 1
    by_cases hw : w' = w
    · subst hw
      simp only [TestServer.setWorker, Function.update_self, List.filter_append, hdone]
      rfl
    · simp only [TestServer.setWorker, Function.update_of_ne hw]
      rfl
  numbers := by
    simp only [TestServer.setWorker, number?_update]
    exact h.numbers.keep (Or.inr hnumber)
  told := h.told
  told_lt := fun x hx =>
    ⟨(h.told_lt x hx).1, number?_of_update (by rw [hnumber]; nofun) (h.told_lt x hx).2⟩

/-- The worker draws the next number. -/
theorem Replies.count (h : s.Replies) (hpc : s.worker w = .handling m) (hlogin : m.isLogin) :
    Replies { s.setWorker w (.counted m s.totalRecv) with totalRecv := s.totalRecv + 1 } where
  fault := h.fault
  freedChars := h.freedChars
  freedInts := h.freedInts
  nodup := h.nodup
  login := fun w' m' n hm => by
    by_cases hw : w' = w
    · subst hw
      simp only [TestServer.setWorker, Function.update_self] at hm
      exact (WorkerPc.counted.inj hm).1 ▸ hlogin
    · simp only [TestServer.setWorker, Function.update_of_ne hw] at hm
      exact h.login w' m' n hm
  answered := fun w' => by
    refine (h.answered w').trans ?_
    by_cases hw : w' = w
    · subst hw
      simp only [TestServer.setWorker, Function.update_self, hpc]
      rfl
    · simp only [TestServer.setWorker, Function.update_of_ne hw]
      rfl
  numbers := by
    simp only [TestServer.setWorker, number?_update]
    exact h.numbers.draw w
  told := h.told
  told_lt := fun x hx => by
    obtain ⟨hlt, hheld⟩ := h.told_lt x hx
    exact ⟨Nat.lt_succ_of_lt hlt, number?_of_update (fun heq => hlt.ne' (Option.some.inj heq)) hheld⟩

/-- The answer to a login goes to the descriptor that its message points to. -/
theorem Replies.answer (h : s.Replies) {number : ℕ} {clientid : ℤ}
    (hpc : s.worker w = .counted m number) (hclient : s.client? m = some clientid) {send : ℕ} :
    Replies { s.setWorker w (.done m) with
      answers := s.answers ++ [(w, ⟨clientid, number⟩)], totalSend := send } where
  fault := h.fault
  freedChars := h.freedChars
  freedInts := h.freedInts
  nodup := h.nodup
  login := fun w' m' n hm => by
    by_cases hw : w' = w
    · subst hw
      simp only [TestServer.setWorker, Function.update_self] at hm
      cases hm
    · simp only [TestServer.setWorker, Function.update_of_ne hw] at hm
      exact h.login w' m' n hm
  answered := fun w' => by
    have hold := h.answered w'
    simp only [actionsOf_append, List.map_append, hold, actionsOf_singleton]
    by_cases hw : w' = w
    · subst hw
      have hlogin := h.login w' m number hpc
      simp only [TestServer.setWorker, Function.update_self, hpc, WorkerPc.done?]
      simp only [Option.toList, List.append_nil, List.filter_append, List.map_append, if_pos]
      simp only [List.filter_cons, hlogin, if_true, List.filter_nil, List.map_cons, List.map_nil]
      exact congrArg _ (congrArg (fun o => [o]) hclient.symm)
    · simp only [TestServer.setWorker, Function.update_of_ne hw, if_neg (Ne.symm hw), List.map_nil,
        List.append_nil]
      rfl
  numbers := by
    simp only [TestServer.setWorker, number?_update]
    exact h.numbers.keep (Or.inr rfl)
  told := by
    rw [List.map_append]
    refine List.nodup_append.mpr ⟨h.told, List.nodup_singleton _, fun k hk k' hk' heq => ?_⟩
    obtain rfl := List.mem_singleton.mp hk'
    obtain ⟨x, hx, rfl⟩ := List.mem_map.mp hk
    exact (h.told_lt x hx).2 w (by rw [hpc, heq]; rfl)
  told_lt := fun x hx => by
    rcases List.mem_append.mp hx with hx | hx
    · exact ⟨(h.told_lt x hx).1, number?_of_update nofun (h.told_lt x hx).2⟩
    · obtain rfl := List.mem_singleton.mp hx
      have hheld : (s.worker w).number? = some number := by rw [hpc]; rfl
      refine ⟨h.numbers.lt w number hheld, fun w' => ?_⟩
      by_cases hw : w' = w
      · subst hw
        simp only [TestServer.setWorker, Function.update_self]
        nofun
      · simp only [TestServer.setWorker, Function.update_of_ne hw]
        exact fun heq => hw (h.numbers.distinct w' w number heq hheld)

/-- The blocks of the message are freed, and the worker is done with it. -/
theorem Replies.free (h : s.Replies) {k : ℕ} (hpc : s.worker w = .done m) (hchars : m.param1 = some k)
    (hints : m.param2 = some k) (hlive : k ∉ s.freedChars) :
    Replies { s.setWorker w .idle with
      freedChars := s.freedChars ++ [k]
      freedInts := s.freedInts ++ [k]
      finished := s.finished ++ [(w, m)] } where
  fault := h.fault
  freedChars := by simp only [List.map_append, h.freedChars, List.map_cons, hchars, List.map_nil]
  freedInts := by simp only [List.map_append, h.freedInts, List.map_cons, hints, List.map_nil]
  nodup := List.nodup_append.mpr ⟨h.nodup, List.nodup_singleton _,
    fun k' hk' k'' hk'' heq => hlive (List.mem_singleton.mp hk'' ▸ heq ▸ hk')⟩
  login := fun w' m' n hm => by
    by_cases hw : w' = w
    · subst hw
      simp only [TestServer.setWorker, Function.update_self] at hm
      cases hm
    · simp only [TestServer.setWorker, Function.update_of_ne hw] at hm
      exact h.login w' m' n hm
  answered := fun w' => by
    refine (h.answered w').trans ?_
    simp only [handled, actionsOf_append, actionsOf_singleton]
    by_cases hw : w' = w
    · subst hw
      simp only [TestServer.setWorker, Function.update_self, hpc, WorkerPc.done?, if_pos]
      simp only [Option.toList, List.append_nil]
      rfl
    · simp only [TestServer.setWorker, Function.update_of_ne hw, if_neg (Ne.symm hw), List.append_nil]
      rfl
  numbers := by
    simp only [TestServer.setWorker, number?_update]
    exact h.numbers.keep (Or.inr rfl)
  told := h.told
  told_lt := fun x hx => ⟨(h.told_lt x hx).1, number?_of_update nofun (h.told_lt x hx).2⟩

/-! ### Blocks in use -/

theorem Inv.allocated (h : s.Inv) (hm : m ∈ s.handled w ++ (s.worker w).msg?.toList) : s.Allocated m := by
  have hmem := h.dealing.mem_popped hm
  rw [h.queue.popped] at hmem
  exact h.memory.reserved m (List.mem_of_mem_take hmem)

theorem Inv.popped_nodup (h : s.Inv) : (s.queue.popped.map PostedMessage.param1).Nodup := by
  rw [h.queue.popped, List.map_take]
  exact h.memory.nodup.sublist (List.take_sublist _ _)

theorem mem_handled {x : ℕ × PostedMessage} (hx : x ∈ s.finished) : x.2 ∈ s.handled x.1 :=
  mem_actionsOf.mpr hx

/-- No worker frees the blocks of a message that another one has, or that it will free again. -/
theorem Inv.not_finished (h : s.Inv) (hm : (s.worker w).msg? = some m) :
    m.param1 ∉ s.finished.map fun x => x.2.param1 := by
  intro hmem
  obtain ⟨⟨w', m'⟩, hx, heq⟩ := List.mem_map.mp hmem
  have hpopped := h.popped_nodup
  have hin : m ∈ s.handled w ++ (s.worker w).msg?.toList := by
    rw [hm]
    exact List.mem_append_right _ (List.mem_singleton.mpr rfl)
  have hin' : m' ∈ s.handled w' ++ (s.worker w').msg?.toList := List.mem_append_left _ (mem_handled hx)
  obtain rfl : m' = m :=
    List.inj_on_of_nodup_map hpopped (h.dealing.mem_popped hin') (h.dealing.mem_popped hin) heq
  -- a message is in one lane, and there once
  obtain rfl : w' = w := lane_unique hpopped.of_map ((h.dealing.popped_sublist w').subset hin')
    ((h.dealing.popped_sublist w).subset hin)
  have hnodup := (hpopped.of_map.sublist (lane_sublist threadNum w' _)).sublist (h.dealing.popped_sublist w')
  rw [hm] at hnodup
  exact (List.nodup_append.mp hnodup).2.2 m' (mem_handled hx) m' (List.mem_singleton.mpr rfl) rfl

theorem Inv.freed_eq (h : s.Inv) : s.freedInts = s.freedChars := by
  apply List.map_injective_iff.mpr (Option.some_injective ℕ)
  rw [h.replies.freedInts, h.replies.freedChars]
  refine List.map_congr_left fun x hx => ?_
  obtain ⟨k, -, hchars, hints⟩ := h.allocated (List.mem_append_left _ (mem_handled hx))
  rw [hchars, hints]

theorem Inv.live (h : s.Inv) (hm : (s.worker w).msg? = some m) :
    ∃ k < s.ints.length, m.param1 = some k ∧ m.param2 = some k ∧ k ∉ s.freedChars := by
  obtain ⟨k, hk, hchars, hints⟩ := h.allocated (w := w) (m := m) (by
    rw [hm]
    exact List.mem_append_right _ (List.mem_singleton.mpr rfl))
  refine ⟨k, hk, hchars, hints, fun hmem => h.not_finished hm ?_⟩
  rw [hchars, ← h.replies.freedChars]
  exact List.mem_map_of_mem hmem

/-! ### Every step -/

theorem Inv.onRead (h : s.Inv) {clientid : ℤ} {type : Int32} (hstep : s.onRead t clientid type = some s') :
    s'.Inv := by
  obtain ⟨q, hq, rfl⟩ := Option.map_eq_some_iff.mp hstep
  have hpopped : q.popped = s.queue.popped := by
    rcases QueueSys.test_cases hq with rfl | ⟨-, rfl⟩ <;> rfl
  have hclient (w : ℕ) (m : PostedMessage)
      (hm : m ∈ s.handled w ++ (s.worker w).msg?.toList) :
      m.param2.bind ((s.ints ++ [clientid])[·]?) = s.client? m := by
    obtain ⟨k, hk, -, hints⟩ := h.allocated hm
    simp only [client?, hints, Option.bind_some, List.getElem?_append_left hk]
  refine ⟨h.queue.keep (a := .test t _) trivial hq, h.memory.onRead clientid type hq,
    h.dealing.of_eq hpopped rfl rfl rfl fun _ => rfl, ?_⟩
  refine ⟨h.replies.fault, h.replies.freedChars, h.replies.freedInts, h.replies.nodup, h.replies.login,
    fun w => (h.replies.answered w).trans (List.map_congr_left fun m hm => (hclient w m ?_).symm),
    h.replies.numbers, h.replies.told, h.replies.told_lt⟩
  rcases List.mem_append.mp (List.mem_of_mem_filter hm) with hm | hm
  · exact List.mem_append_left _ hm
  · refine List.mem_append_right _ ?_
    cases hpc : s.worker w <;> rw [hpc] at hm <;> first | exact hm | cases hm

theorem Inv.take (h : s.Inv) (hpop : a.isPop) (hhand : s.hand = none) (hq : s.queue.step a = some q) :
    Inv ({ s with queue := q }.receive (s.queue.received a)) := by
  obtain ⟨hreserved, hpushing, hpopped⟩ := QueueSys.pop_cases hpop hq
  have hroom : s.queue.HasRoom a := by
    cases a with
    | reserve t => cases hpop
    | _ => trivial
  have hqueue := h.queue.keep hroom hq
  have hmemory : Memory { s with queue := q } := h.memory.of_eq hreserved hpushing rfl rfl
  cases hmsg : s.queue.received a with
  | none =>
    rw [hmsg] at hpopped
    have hsame : q.popped = s.queue.popped := hpopped.trans (List.append_nil _)
    exact ⟨hqueue, hmemory, h.dealing.of_eq hsame rfl rfl rfl fun _ => rfl, h.replies.frame⟩
  | some msg =>
    rw [hmsg] at hpopped
    have hmem : msg ∈ s.queue.reserved := by
      rw [← hreserved]
      have hin : msg ∈ q.popped := by simp [hpopped]
      rw [hqueue.popped] at hin
      exact List.mem_of_mem_take hin
    obtain ⟨k, -, hchars, -⟩ := h.memory.reserved msg hmem
    simp only [receive, hchars, Option.isSome_some, if_true]
    exact ⟨hqueue, hmemory.of_eq rfl rfl rfl rfl, h.dealing.receive hhand hpopped,
      h.replies.frame⟩

theorem Inv.insert (h : s.Inv) (hstep : s.insert = some s') : s'.Inv := by
  have hdealing := h.dealing.insert hstep
  obtain ⟨msg, -, hstep⟩ := Option.bind_eq_some_iff.mp hstep
  obtain ⟨ring, -, rfl⟩ := Option.map_eq_some_iff.mp hstep
  exact ⟨h.queue, h.memory.of_eq rfl rfl rfl rfl, hdealing, h.replies.frame⟩

theorem Inv.fetch (h : s.Inv) (hstep : s.fetch w = some s') : s'.Inv := by
  have hdealing := h.dealing.fetch hstep
  simp only [TestServer.fetch] at hstep
  split at hstep
  · next hpc =>
    obtain ⟨ring, -, rfl⟩ := Option.map_eq_some_iff.mp hstep
    refine ⟨h.queue, h.memory.of_eq rfl rfl rfl rfl, hdealing, h.replies.move ?_ ?_⟩
    · cases (s.mq w).consumer.loaded? <;> rfl
    · rw [hpc]
      cases (s.mq w).consumer.loaded? <;> rfl
  · cases hstep

theorem Inv.work (h : s.Inv) (hstep : s.work w = some s') : s'.Inv := by
  cases hpc : s.worker w with
  | idle =>
    rw [TestServer.work, hpc] at hstep
    cases hstep
  | handling msg =>
    have hmsg : (s.worker w).msg? = some msg := by rw [hpc]; rfl
    obtain ⟨k, -, hchars, -⟩ := h.live hmsg
    simp only [TestServer.work, hpc, hchars, Option.isSome_some, if_true] at hstep
    obtain rfl := Option.some.inj hstep
    split_ifs with hlogin
    · exact ⟨h.queue, h.memory.of_eq rfl rfl rfl rfl, h.dealing.setWorker (by rw [hmsg]; rfl),
        h.replies.count hpc hlogin⟩
    · refine ⟨h.queue, h.memory.of_eq rfl rfl rfl rfl, h.dealing.setWorker (by rw [hmsg]; rfl),
        h.replies.move rfl ?_⟩
      rw [hpc]
      simp [WorkerPc.done?, hlogin]
  | counted msg number =>
    have hmsg : (s.worker w).msg? = some msg := by rw [hpc]; rfl
    obtain ⟨k, hk, -, hints, hlive⟩ := h.live hmsg
    have hclient : s.client? msg = some s.ints[k] := by
      simp only [client?, hints, Option.bind_some, List.getElem?_eq_getElem hk]
    have hread : s.readInt msg.param2 = some s.ints[k] := by
      simp only [readInt, hints, Option.bind_some, h.freed_eq, if_neg hlive, List.getElem?_eq_getElem hk]
    simp only [TestServer.work, hpc, hread] at hstep
    obtain rfl := Option.some.inj hstep
    exact ⟨h.queue, h.memory.of_eq rfl rfl rfl rfl, h.dealing.setWorker (by rw [hmsg]; rfl),
      h.replies.answer hpc hclient⟩
  | done msg =>
    have hmsg : (s.worker w).msg? = some msg := by rw [hpc]; rfl
    obtain ⟨k, hk, hchars, hints, hlive⟩ := h.live hmsg
    have hdelete {made : ℕ} {freed : List ℕ} (hmade : k < made) (hfreed : k ∉ freed) :
        delete freed made (some k) = some (freed ++ [k]) := if_pos ⟨hmade, hfreed⟩
    simp only [TestServer.work, hpc, hchars, hints, hdelete (h.memory.chars ▸ hk) hlive,
      hdelete hk (h.freed_eq ▸ hlive)] at hstep
    obtain rfl := Option.some.inj hstep
    refine ⟨h.queue, h.memory.of_eq rfl rfl rfl rfl, h.dealing.of_eq rfl rfl rfl rfl fun w' => ?_,
      h.replies.free hpc hchars hints hlive⟩
    simp only [handled, actionsOf_append, actionsOf_singleton]
    by_cases hw : w' = w
    · subst hw
      simp [TestServer.setWorker, hpc, WorkerPc.msg?]
    · simp [TestServer.setWorker, hw, Ne.symm hw]

theorem Inv.step {a : TestAct} (h : s.Inv) (hroom : s.HasRoom a) (hstep : s.step a = some s') : s'.Inv := by
  cases a with
  | onRead t clientid type => exact h.onRead hstep
  | post a =>
    simp only [TestServer.step] at hstep
    split_ifs at hstep with hpost
    obtain ⟨htest, hpop⟩ := Bool.or_eq_false_iff.mp (Bool.eq_false_of_not_eq_true hpost)
    obtain ⟨q, hq, rfl⟩ := Option.map_eq_some_iff.mp hstep
    have hpopped := (QueueSys.post_cases htest hpop hq).1
    exact ⟨h.queue.keep hroom hq, h.memory.post htest hpop hq, h.dealing.of_eq hpopped rfl rfl rfl fun _ => rfl,
      h.replies.frame⟩
  | take a =>
    simp only [TestServer.step] at hstep
    split_ifs at hstep with htake
    obtain ⟨hpop, hhand⟩ := Bool.and_eq_true_iff.mp htake
    obtain ⟨q, hq, rfl⟩ := Option.map_eq_some_iff.mp hstep
    exact h.take hpop (Option.isNone_iff_eq_none.mp hhand) hq
  | insert => exact h.insert hstep
  | fetch w =>
    simp only [TestServer.step] at hstep
    split_ifs at hstep
    exact h.fetch hstep
  | work w => exact h.work hstep

theorem Inv.init : (init g).Inv where
  queue := .init
  memory := ⟨rfl, nofun, nofun, List.nodup_nil, nofun, nofun⟩
  dealing := by
    refine ⟨fun w => ⟨[], .init (by decide) (by decide) _⟩, rfl, fun w => ?_, nofun, fun w => rfl⟩
    change [] ++ (if w = 0 then ([] : List PostedMessage) else []) = []
    rw [ite_self, List.append_nil]
  replies := ⟨rfl, rfl, rfl, List.nodup_nil, nofun, fun w => rfl, ⟨nofun, nofun⟩, List.nodup_nil, nofun⟩

/-! ## What the workers do with the messages -/

/-- The main thread offered lane `w` of the messages that it popped to ring `w`, which answers like a
queue that holds one message less than its size and shows `held`. What the ring accepted is what the
worker has handled, what it is handling, and what it will find in the ring, in this order; only the
refused messages are missing. -/
structure InTurn (s : TestServer g) (w : ℕ) (held : List PostedMessage) : Prop where
  shows : (s.mq w).ring.Shows held
  calls : specCalls (fifoCall (ringSize - 1)) [] (s.mq w).calls = (held, (s.mq w).results)
  offered : offeredItems (s.mq w).calls ++ s.coming w = lane threadNum w s.queue.popped
  accepted : s.handled w ++ (s.worker w).msg?.toList ++ held =
    acceptedItems (s.mq w).calls (s.mq w).results
  all : .pushed false ∉ (s.mq w).results →
    s.handled w ++ (s.worker w).msg?.toList ++ held ++ s.coming w = lane threadNum w s.queue.popped

/-- `taken` are the messages that the main thread has popped. A worker handles those of its turn that
its ring accepted, answers the logins among them, and frees their blocks. -/
structure Serves (s : TestServer g) : Prop where
  safe : s.fault = false ∧ s.queue.fault = false ∧ ∀ w, (s.mq w).fault = false
  taken : s.queue.popped = s.queue.reserved.take s.queue.queue.getIndex
  inTurn : ∀ w, ∃ held, s.InTurn w held
  answered : ∀ w, (actionsOf w s.answers).map (fun a => some a.clientid) =
    ((s.handled w ++ (s.worker w).done?.toList).filter PostedMessage.isLogin).map s.client?
  numbered : (s.answers.map fun x => x.2.number).Nodup
  framed : ∀ x ∈ s.answers, framesOf x.2.bytes = [x.2.frame]
  freedChars : s.freedChars.map some = s.finished.map fun x => x.2.param1
  freedInts : s.freedInts = s.freedChars
  once : s.freedChars.Nodup

theorem Inv.serves (h : s.Inv) : s.Serves where
  safe := by
    refine ⟨h.replies.fault, h.queue.fault, fun w => ?_⟩
    obtain ⟨held, hring⟩ := h.dealing.ring w
    exact hring.fault
  taken := h.queue.popped
  inTurn := fun w => by
    obtain ⟨held, hring⟩ := h.dealing.ring w
    refine ⟨held, hring.shows, hring.spec, h.dealing.dealt w, ?_, fun hno => ?_⟩
    · rw [← h.dealing.fetched, (accepted_eq_popped hring.spec).2]
    · rw [← h.dealing.fetched, hring.popped_eq hno, h.dealing.dealt]
  answered := h.replies.answered
  numbered := h.replies.told
  framed := fun x _ => by
    have hone : frameCode.encodeAll [x.2.frame] = x.2.bytes := List.append_nil _
    rw [← hone, framesOf_encodeAll]
  freedChars := h.replies.freedChars
  freedInts := h.freed_eq
  once := h.replies.nodup

end TestServer

open TestServer in
/-- In every run in which the reserved indexes of the queue have room. -/
theorem workers_serve_in_turn {acts : List TestAct} {s : TestServer g}
    (hrun : Run TestServer.step HasRoom (init g) acts s) : s.Serves :=
  (hrun.invariant Inv .init fun _ _ _ h hroom hstep => h.step hroom hstep).serves

/-- Two descriptors log in, and a third message is no login. -/
def threeMessages : List TestAct :=
  let posted (t : ℕ) : List TestAct := [.post (.reserve t), .post (.lookup t), .post (.store t), .post (.publish t)]
  let taken : List TestAct := [.take .popStart, .take .popLookup, .take .popCheck, .take .popNext]
  let inserted : List TestAct := [.insert, .insert, .insert]
  let fetched (w : ℕ) : List TestAct := [.fetch w, .fetch w, .fetch w]
  [.onRead 0 5 CMD_LOGIN, .onRead 1 7 CMD_LOGIN] ++ posted 1 ++ posted 0 ++ [.onRead 0 5 3] ++ posted 0 ++
    taken ++ inserted ++ taken ++ inserted ++ taken ++ inserted ++ fetched 2 ++ fetched 1 ++ fetched 3 ++
    [.work 2, .work 1, .work 3, .work 1, .work 3, .work 2, .work 1]

open TestServer in
theorem workers_serve_in_turn_three_messages :
    ∃ s : TestServer ⟨8, 3⟩, Run TestServer.step HasRoom (init ⟨8, 3⟩) threeMessages s ∧
      s.answers.map (fun x => (x.1, x.2.clientid, x.2.number)) = [(1, 7, 1), (2, 5, 0)] ∧
      s.freedChars = [2, 1] ∧ s.Serves := by
  have hexec : (exec (fun (s : TestServer ⟨8, 3⟩) a => if decide (s.HasRoom a) then s.step a else none)
      (init ⟨8, 3⟩) threeMessages).map (fun s =>
        (s.answers.map (fun x => (x.1, x.2.clientid, x.2.number)), s.freedChars)) =
          some ([(1, 7, 1), (2, 5, 0)], [2, 1]) := by decide +kernel
  obtain ⟨s, hs, heq⟩ := Option.map_eq_some_iff.mp hexec
  obtain ⟨hanswers, hfreed⟩ := Prod.mk.inj heq
  have hrun : Run TestServer.step HasRoom (init ⟨8, 3⟩) threeMessages s :=
    .of_exec_guard (fun s a => decide (s.HasRoom a)) (fun _ _ _ h => of_decide_eq_true h) hs
  exact ⟨s, hrun, hanswers, hfreed, workers_serve_in_turn hrun⟩

end TcpLib
