import TcpLib.QueueFifo

/-!
# What concurrent producers and the consumer may rely on

As long as every fetch-and-increment has room for its index, no two indexes that are reserved and
still to be read share a slot, no page is freed under one of them, and the consumer gets the
messages in the order of their reservation. The capacity test of `push` leaves that room to two
producers but not to three.
-/

namespace TcpLib
open Transition
variable {g : PageShape} {T : Type*}

def QueueAct.isPop : QueueAct T → Bool
  | .popStart | .popLookup | .popCheck | .popDelete | .popClear | .popNext => true
  | _ => false

/-- A push action of one of the first two producers, or an action of the consumer. -/
def QueueAct.ofTwo : QueueAct T → Prop
  | .test t _ | .reserve t | .lookup t | .store t | .publish t => t < 2
  | _ => True

def PopPc.stage : PopPc T → ℕ
  | .idle => 6
  | .started => 5
  | .found _ => 4
  | .last _ _ => 3
  | .deleted _ => 2
  | .taken _ => 1

namespace QueueSys
variable {s s' : QueueSys g T}

/-- The index is reserved and its slot still to be read. -/
def Unread (s : QueueSys g T) (i : ℕ) : Prop := s.front ≤ i ∧ i < s.queue.postIndex

/-- No producer is between the reservation and the publication of the index. -/
def Finished (s : QueueSys g T) (i : ℕ) : Prop := ∀ t, (s.pushing t).index? ≠ some i

/-- What the capacity test has left, with one or two producers between it and their reservation. -/
structure Tested (s : QueueSys g T) : Prop where
  one : ∀ t msg, s.pushing t = .tested msg → s.queue.postIndex ≤ s.queue.getIndex + g.capacity
  two : ∀ t t' msg msg', t ≠ t' → s.pushing t = .tested msg → s.pushing t' = .tested msg' →
    s.queue.postIndex < s.queue.getIndex + g.capacity
  idle : ∀ t, 2 ≤ t → s.pushing t = .idle

theorem Tested.mono (h : s.Tested)
    (hpush : ∀ t, s'.pushing t = s.pushing t ∨ t < 2 ∧ ∀ msg, s'.pushing t ≠ .tested msg)
    (hpost : s'.queue.postIndex = s.queue.postIndex)
    (hget : s.queue.getIndex ≤ s'.queue.getIndex) : s'.Tested := by
  have hback {t : ℕ} {msg : T} (ht : s'.pushing t = .tested msg) : s.pushing t = .tested msg := by
    rcases hpush t with heq | ⟨-, hne⟩
    · rw [← heq, ht]
    · exact absurd ht (hne msg)
  refine ⟨?_, ?_, ?_⟩
  · intro t msg ht
    have hle := h.one t msg (hback ht)
    omega
  · intro t t' msg msg' hne ht ht'
    have hlt := h.two t t' msg msg' hne (hback ht) (hback ht')
    omega
  · intro t ht
    rcases hpush t with heq | ⟨hlt, -⟩
    · rw [heq, h.idle t ht]
    · omega

theorem Tested.access_mono {α : Type*} {r : Option α} {k : α → QueueSys g T} (h : s.Tested)
    (hk : ∀ a, r = some a → (k a).Tested) : (s.access r k).Tested := by
  cases hr : r with
  | none => exact ⟨h.one, h.two, h.idle⟩
  | some a => exact hk a hr

variable [Inhabited T]

/-- What the parties rely on in one state. -/
structure Exclusive (s : QueueSys g T) : Prop where
  slots : ∀ i j, s.Unread i → s.Unread j → g.pageIndex i = g.pageIndex j →
    g.msgIndex i = g.msgIndex j → i = j
  deleting : ∀ page msg i, s.popping = .last page msg → s.Unread i → i ≠ s.queue.getIndex →
    g.pageIndex i ≠ g.pageIndex s.queue.getIndex
  alive : ∀ i page, s.Unread i → s.queue.pageIndexes.entry (g.pageIndex i) = some page →
    page ∉ s.queue.pageIndexes.freed
  fault : s.fault = false
  order : s.popped = s.reserved.take s.popped.length
  check : ∀ page, s.popping = .found page → s.Finished s.queue.getIndex →
    ∃ msg pc, s.reserved[s.popped.length]? = some msg ∧
      step s .popCheck = some { s with popping := pc } ∧ (pc = .last page msg ∨ pc = .taken msg)
  drains : ∀ n ≤ s.reserved.length, (∀ i < n, s.Finished i) →
    ∃ acts s', (∀ a ∈ acts, a.isPop) ∧ Run step HasRoom s acts s' ∧
      n ≤ s'.popped.length ∧ s'.popped = s.reserved.take s'.popped.length

theorem Inv.getIndex_le (hi : s.Inv) : s.queue.getIndex ≤ s.reserved.length :=
  hi.len ▸ getIndex_le_front.trans hi.front_le

theorem Inv.length_popped (hi : s.Inv) : s.popped.length = s.queue.getIndex := by
  rw [hi.popped, List.length_take, Nat.min_eq_left hi.getIndex_le]

/-! ## The consumer gets on -/

/-- What is left of the pops up to an index. -/
def popRank (n : ℕ) (s : QueueSys g T) : ℕ := 7 * (n - s.queue.getIndex) + PopPc.stage s.popping

/-- Every step of the consumer is possible and brings it nearer to a finished index. -/
theorem Inv.pop_advances {n : ℕ} (hi : s.Inv) (hlt : s.queue.getIndex < n)
    (hn : n ≤ s.reserved.length) (hfin : ∀ i < n, s.Finished i) :
    ∃ a s', a.isPop ∧ s.HasRoom a ∧ step s a = some s' ∧ s'.pushing = s.pushing ∧
      s'.reserved = s.reserved ∧ popRank n s' < popRank n s := by
  have hlen := hi.len
  cases hpc : s.popping with
  | idle =>
    refine ⟨.popStart, { s with popping := .started }, rfl, trivial, ?_, rfl, rfl, ?_⟩
    · simp only [step, hpc, if_neg (show ¬s.queue.postIndex ≤ s.queue.getIndex by omega)]
    · simp [popRank, hpc, PopPc.stage]
  | started =>
    let r := s.queue.getMsgPage (g.pageIndex s.queue.getIndex)
    refine ⟨.popLookup, { s with queue := r.1, popping := .found r.2 }, rfl, trivial, ?_, rfl, rfl,
      ?_⟩
    · simp only [step, hpc, r]
    · simp [popRank, hpc, PopPc.stage, r, SrtQueue.getMsgPage]
  | found page =>
    obtain ⟨pc, hstep, -, ⟨-, t, ht⟩ | ⟨msg, -, hpc'⟩⟩ := hi.check hpc
    · exact absurd ht (hfin _ hlt t)
    · refine ⟨.popCheck, _, rfl, trivial, hstep, rfl, rfl, ?_⟩
      rcases hpc' with rfl | rfl <;> simp [popRank, hpc, PopPc.stage]
  | last page msg =>
    obtain ⟨q, hq, -⟩ := hi.delete hpc
    refine ⟨.popDelete, { s with queue := q, popping := .deleted msg }, rfl, trivial, ?_, rfl, rfl, ?_⟩
    · simp only [step, hpc, access, hq]
    · simp [popRank, hpc, PopPc.stage, (SrtQueue.deletePage_frame hq).2.1]
  | deleted msg =>
    refine ⟨.popClear, { s with
      queue := s.queue.clearPage (g.pageIndex s.queue.getIndex), popping := .taken msg }, rfl,
      trivial, ?_, rfl, rfl, ?_⟩
    · simp only [step, hpc]
    · simp [popRank, hpc, PopPc.stage, SrtQueue.clearPage]
  | taken msg =>
    refine ⟨.popNext, { s with
      queue := s.queue.incGet, popping := .idle, popped := s.popped ++ [msg] }, rfl, trivial, ?_,
      rfl, rfl, ?_⟩
    · simp only [step, hpc]
    · simp only [popRank, hpc, PopPc.stage, SrtQueue.incGet]
      omega

/-- The consumer alone gets every message before the first index that is not finished. -/
theorem Inv.drains {n : ℕ} (hi : s.Inv) (hn : n ≤ s.reserved.length)
    (hfin : ∀ i < n, s.Finished i) :
    ∃ acts s', (∀ a ∈ acts, a.isPop) ∧ Run step HasRoom s acts s' ∧
      n ≤ s'.popped.length ∧ s'.popped = s.reserved.take s'.popped.length := by
  induction hk : popRank n s using Nat.strong_induction_on generalizing s with
  | _ k ih =>
    by_cases hlt : s.queue.getIndex < n
    · obtain ⟨a, s₁, hpop, hroom, hstep, hpushing, hreserved, hrank⟩ := hi.pop_advances hlt hn hfin
      have hfin' : ∀ i < n, s₁.Finished i := by
        intro i hin t
        rw [hpushing]
        exact hfin i hin t
      obtain ⟨acts, s', hpops, hrun, hle, horder⟩ :=
        ih _ (hk ▸ hrank) (hi.keep hroom hstep) (hreserved ▸ hn) hfin' rfl
      refine ⟨a :: acts, s', ?_, .cons hroom hstep hrun, hle, hreserved ▸ horder⟩
      intro b hb
      rcases List.mem_cons.mp hb with rfl | hb
      · exact hpop
      · exact hpops b hb
    · refine ⟨[], s, nofun, .nil, ?_, ?_⟩
      · exact hi.length_popped.symm ▸ Nat.le_of_not_lt hlt
      · rw [hi.length_popped]
        exact hi.popped

/-! ## The guarantees -/

theorem Inv.exclusive (hi : s.Inv) : s.Exclusive where
  slots := by
    intro i j h₁ h₂ hpage hmsg
    exact (hi.inWindow h₁.1 h₁.2).eq (hi.inWindow h₂.1 h₂.2) hpage hmsg
  deleting := by
    intro page msg i hpc hi' hne heq
    have hpop := hi.pop
    unfold PopOk at hpop
    simp only [hpc] at hpop
    obtain ⟨hmsg, -, hlast, -⟩ := hpop
    have hfront : s.front = s.queue.getIndex := by simp only [front, hpc]
    have hget : s.Unread s.queue.getIndex :=
      ⟨hfront.le, hi.len ▸ (List.getElem?_eq_some_iff.mp hmsg).1⟩
    have hpages := (hi.inWindow hi'.1 hi'.2).page_eq (hi.inWindow hget.1 hget.2) heq
    have hlt : s.queue.getIndex + 1 ≤ i := Nat.lt_of_le_of_ne (hfront ▸ hi'.1) (Ne.symm hne)
    have hge := Nat.div_le_div_right (c := g.pageMsgCount) hlt
    have hnext := PageShape.div_succ_of_last hlast
    omega
  alive := by
    intro i page hi' hentry
    have hlive := hi.live_of_inWindow hi'.1 (hi.inWindow hi'.1 hi'.2)
    exact hi.wf.not_mem_freed (hlive page hentry)
  fault := hi.fault
  order := by
    rw [hi.length_popped]
    exact hi.popped
  check := by
    intro page hpc hfin
    obtain ⟨pc, hstep, -, ⟨-, t, ht⟩ | ⟨msg, hmsg, hpc'⟩⟩ := hi.check hpc
    · exact absurd ht (hfin t)
    · exact ⟨msg, pc, hi.length_popped.symm ▸ hmsg, hstep, hpc'⟩
  drains := fun _ hn hfin => hi.drains hn hfin

/-- In every run whose fetch-and-increments all had room, from any number of producers. -/
theorem slots_exclusive {acts : List (QueueAct T)} (h : Run step HasRoom (init g) acts s) :
    s.Exclusive :=
  Inv.exclusive (h.invariant Inv Inv.init fun _ _ _ hi hroom hstep => hi.keep hroom hstep)

/-- Two producers pass the capacity test together, and both have room. -/
def twoPushes : List (QueueAct ℕ) :=
  [.test 0 10, .test 1 11, .reserve 0, .reserve 1, .lookup 1, .store 1, .publish 1, .lookup 0,
    .store 0, .publish 0, .popStart, .popLookup, .popCheck, .popDelete, .popClear, .popNext]

instance (s : QueueSys g T) : (a : QueueAct T) → Decidable (s.HasRoom a)
  | .reserve _ =>
    inferInstanceAs
      (Decidable (s.queue.postIndex / g.pageMsgCount < s.frontPage + g.pageIndexCount))
  | .test _ _ | .lookup _ | .store _ | .publish _ | .popStart | .popLookup | .popCheck
  | .popDelete | .popClear | .popNext => inferInstanceAs (Decidable True)

theorem slots_exclusive_two_pushes :
    ∃ s : QueueSys ⟨0, 1⟩ ℕ, Run step HasRoom (init ⟨0, 1⟩) twoPushes s ∧
      s.reserved = [10, 11] ∧ s.popped = [10] ∧ s.Exclusive := by
  have hexec : (exec (fun (s : QueueSys ⟨0, 1⟩ ℕ) a => if decide (s.HasRoom a) then step s a else none)
      (init ⟨0, 1⟩) twoPushes).map (fun s => (s.reserved, s.popped)) =
        some ([10, 11], [10]) := by decide +kernel
  obtain ⟨s, hs, heq⟩ := Option.map_eq_some_iff.mp hexec
  have hrun : Run step HasRoom (init ⟨0, 1⟩) twoPushes s :=
    .of_exec_guard (fun s a => decide (s.HasRoom a)) (fun _ _ _ h => of_decide_eq_true h) hs
  obtain ⟨hreserved, hpopped⟩ := Prod.mk.inj heq
  exact ⟨s, hrun, hreserved, hpopped, slots_exclusive hrun⟩

/-! ## How many producers the capacity test has room for -/

/-- A reservation without room gets an index of the entry that the oldest page is under. -/
theorem Inv.pageIndex_of_no_room (hi : s.Inv) {t : ℕ} (hno : ¬s.HasRoom (.reserve t)) :
    g.pageIndex s.queue.postIndex = s.frontPage % g.pageIndexCount := by
  have hpos := PageShape.pageMsgCount_pos (g := g)
  have hge : s.frontPage + g.pageIndexCount ≤ s.queue.postIndex / g.pageMsgCount :=
    Nat.le_of_not_lt hno
  have hle : s.queue.postIndex / g.pageMsgCount ≤ s.frontPage + g.pageIndexCount :=
    (Nat.div_le_div_right hi.room).trans_eq (Nat.mul_div_cancel _ hpos)
  rw [PageShape.pageIndex_eq, Nat.le_antisymm hle hge, Nat.add_mod_right]

theorem Tested.keep {a : QueueAct T} (h : s.Tested) (htwo : a.ofTwo) (hstep : step s a = some s') :
    s'.Tested := by
  have hmove {t : ℕ} {pc : PushPc T} {q : SrtQueue g T} (ht : t < 2)
      (hpc : ∀ msg, pc ≠ .tested msg) (hpost : q.postIndex = s.queue.postIndex)
      (hget : q.getIndex = s.queue.getIndex) :
      Tested { s.setPush t pc with queue := q } := by
    refine h.mono ?_ hpost hget.ge
    intro t'
    by_cases htt : t' = t
    · subst htt
      exact Or.inr ⟨ht, by simpa [setPush] using hpc⟩
    · exact Or.inl (setPush_of_ne htt)
  cases a with
  | test t msg =>
    unfold step at hstep
    cases hpc : s.pushing t <;> simp only [hpc] at hstep <;> cases hstep
    split_ifs with hfull
    · exact h
    · have hroom := lt_of_not_full hfull
      refine ⟨fun _ _ _ => hroom.le, fun _ _ _ _ _ _ _ => hroom, ?_⟩
      intro t' ht'
      have hne : t' ≠ t := (Nat.lt_of_lt_of_le htwo ht').ne'
      exact (setPush_of_ne hne).trans (h.idle t' ht')
  | reserve t =>
    unfold step at hstep
    cases hpc : s.pushing t with
    | tested msg =>
      simp only [hpc] at hstep
      obtain rfl := Option.some.inj hstep
      have hback {t' : ℕ} {msg' : T}
          (ht' : (s.setPush t (.reserved s.queue.postIndex msg)).pushing t' = .tested msg') :
          t' ≠ t ∧ t' < 2 ∧ s.pushing t' = .tested msg' := by
        have hne : t' ≠ t := by
          rintro rfl
          rw [setPush_self] at ht'
          cases ht'
        rw [setPush_of_ne hne] at ht'
        refine ⟨hne, Nat.lt_of_not_le fun hle => ?_, ht'⟩
        rw [h.idle t' hle] at ht'
        cases ht'
      refine ⟨?_, ?_, ?_⟩
      · intro t' msg' ht'
        obtain ⟨hne, -, hold⟩ := hback ht'
        exact h.two t' t msg' msg hne hold hpc
      · intro t₁ t₂ m₁ m₂ hne h₁ h₂
        obtain ⟨hne₁, hlt₁, -⟩ := hback h₁
        obtain ⟨hne₂, hlt₂, -⟩ := hback h₂
        have hlt : t < 2 := htwo
        omega
      · intro t' ht'
        have hne : t' ≠ t := (Nat.lt_of_lt_of_le htwo ht').ne'
        exact (setPush_of_ne hne).trans (h.idle t' ht')
    | idle | reserved _ _ | found _ _ _ | stored _ _ => simp [hpc] at hstep
  | lookup t =>
    unfold step at hstep
    cases hpc : s.pushing t <;> simp only [hpc] at hstep <;> cases hstep
    exact hmove htwo (by simp) rfl rfl
  | store t =>
    unfold step at hstep
    cases hpc : s.pushing t <;> simp only [hpc] at hstep <;> cases hstep
    refine h.access_mono fun q hq => ?_
    exact hmove htwo (by simp) (SrtQueue.modify_frame hq).1 (SrtQueue.modify_frame hq).2.1
  | publish t =>
    unfold step at hstep
    cases hpc : s.pushing t <;> simp only [hpc] at hstep <;> cases hstep
    refine h.access_mono fun q hq => ?_
    exact hmove htwo (by simp) (SrtQueue.modify_frame hq).1 (SrtQueue.modify_frame hq).2.1
  | popStart =>
    unfold step at hstep
    cases hpc : s.popping <;> simp only [hpc] at hstep <;> cases hstep
    split_ifs
    · exact h
    · exact ⟨h.one, h.two, h.idle⟩
  | popLookup =>
    unfold step at hstep
    cases hpc : s.popping <;> simp only [hpc] at hstep <;> cases hstep
    exact h.mono (fun _ => Or.inl rfl) rfl le_rfl
  | popCheck =>
    unfold step at hstep
    cases hpc : s.popping <;> simp only [hpc] at hstep <;> cases hstep
    refine h.access_mono fun m _ => ?_
    split_ifs <;> exact ⟨h.one, h.two, h.idle⟩
  | popDelete =>
    unfold step at hstep
    cases hpc : s.popping <;> simp only [hpc] at hstep <;> cases hstep
    refine h.access_mono fun q hq => ?_
    have hframe := SrtQueue.deletePage_frame hq
    exact h.mono (fun _ => Or.inl rfl) hframe.1 hframe.2.1.ge
  | popClear =>
    unfold step at hstep
    cases hpc : s.popping <;> simp only [hpc] at hstep <;> cases hstep
    exact h.mono (fun _ => Or.inl rfl) rfl le_rfl
  | popNext =>
    unfold step at hstep
    cases hpc : s.popping <;> simp only [hpc] at hstep <;> cases hstep
    exact h.mono (fun _ => Or.inl rfl) rfl (Nat.le_succ _)

theorem two_producers_have_room {acts : List (QueueAct T)}
    (h : Run step (fun _ a => a.ofTwo) (init g) acts s) : Run step HasRoom (init g) acts s := by
  have hinit : (init g : QueueSys g T).Tested := ⟨nofun, nofun, fun _ _ => rfl⟩
  induction h with
  | nil => exact .nil
  | @snoc acts a s s' h htwo hstep ih =>
    have htested : s.Tested := h.invariant Tested hinit fun _ _ _ hs => hs.keep
    refine .snoc ih ?_ hstep
    cases a with
    | reserve t =>
      unfold step at hstep
      cases hpc : s.pushing t with
      | tested msg => exact hasRoom_of_le (htested.one t msg hpc) t
      | idle | reserved _ _ | found _ _ _ | stored _ _ => simp [hpc] at hstep
    | test _ _ | lookup _ | store _ | publish _ | popStart | popLookup | popCheck | popDelete
    | popClear | popNext => trivial

theorem exists_quiet_pushes (msg : T) {n : ℕ} (hn : n ≤ g.capacity) :
    ∃ acts, ∃ s : QueueSys g T, Run step HasRoom (init g) acts s ∧ s.Inv ∧ s.Quiet ∧
      s.queue.postIndex = n ∧ s.queue.getIndex = 0 := by
  induction n with
  | zero => exact ⟨[], init g, .nil, Inv.init, ⟨fun _ => rfl, rfl⟩, rfl, rfl⟩
  | succ n ih =>
    obtain ⟨acts, s, hrun, hi, hq, hpost, hget⟩ := ih (Nat.le_of_succ_le hn)
    have hfull : ¬s.queue.full := by
      rw [SrtQueue.full_iff, hpost, hget, Nat.not_le]
      exact hn
    obtain ⟨s', hpush, hi', hq', -, hreserved, hget', -⟩ := push_quiet hi hq hfull 0 msg
    refine ⟨_, s', hrun.append hpush, hi', hq', ?_, hget'.trans hget⟩
    rw [← hi'.len, hreserved, List.length_append, hi.len, hpost, List.length_singleton]

/-- With one slot a page and `256` pages: after `254` pushes three producers pass the capacity test,
and the third of their indexes has the slot of the oldest message. -/
theorem third_producer_shares_slot :
    ∃ acts, ∃ s : QueueSys ⟨0, 8⟩ ℕ, Run step anyStep (init ⟨0, 8⟩) acts s ∧
      s.Unread 0 ∧ s.Unread 256 ∧ ¬s.Exclusive := by
  obtain ⟨acts, s, hrun, hi, hq, hpost, hget⟩ :=
    exists_quiet_pushes (g := ⟨0, 8⟩) (0 : ℕ) (n := 254) (by decide)
  have hfull : ¬s.queue.full := by
    rw [SrtQueue.full_iff, hpost, hget]
    decide
  let s₁ := s.setPush 0 (.tested 0)
  let s₂ := s₁.setPush 1 (.tested 0)
  let s₃ := s₂.setPush 2 (.tested 0)
  have h₁ : step s (.test 0 0) = some s₁ := step_test (hq.pushing 0) hfull 0
  have h₂ : step s₁ (.test 1 0) = some s₂ :=
    step_test ((setPush_of_ne (by decide)).trans (hq.pushing 1)) hfull 0
  have h₃ : step s₂ (.test 2 0) = some s₃ := by
    have hpc : s₂.pushing 2 = .idle :=
      ((setPush_of_ne (by decide)).trans (setPush_of_ne (by decide))).trans (hq.pushing 2)
    exact step_test hpc hfull 0
  let s₄ : QueueSys ⟨0, 8⟩ ℕ := { s₃.setPush 0 (.reserved s₃.queue.postIndex 0) with
    queue := s₃.queue.fetchAndInc, reserved := s₃.reserved ++ [0] }
  let s₅ : QueueSys ⟨0, 8⟩ ℕ := { s₄.setPush 1 (.reserved s₄.queue.postIndex 0) with
    queue := s₄.queue.fetchAndInc, reserved := s₄.reserved ++ [0] }
  let s₆ : QueueSys ⟨0, 8⟩ ℕ := { s₅.setPush 2 (.reserved s₅.queue.postIndex 0) with
    queue := s₅.queue.fetchAndInc, reserved := s₅.reserved ++ [0] }
  have h₄ : step s₃ (.reserve 0) = some s₄ := step_reserve rfl
  have h₅ : step s₄ (.reserve 1) = some s₅ := step_reserve rfl
  have h₆ : step s₅ (.reserve 2) = some s₆ := step_reserve rfl
  have hpost₆ : s₆.queue.postIndex = 257 := congrArg (· + 3) hpost
  have hfront : s₆.front = 0 := by
    have hidle : s₆.popping = .idle := hq.popping
    simp only [front, hidle]
    exact hget
  have hold : s₆.Unread 0 := ⟨hfront.le, by rw [hpost₆]; decide⟩
  have hnew : s₆.Unread 256 := ⟨hfront.trans_le (by decide), by rw [hpost₆]; decide⟩
  refine ⟨_, s₆, (hrun.weaken fun _ _ _ => trivial).append (.cons trivial h₁ (.cons trivial h₂
    (.cons trivial h₃ (.cons trivial h₄ (.cons trivial h₅ (.single trivial h₆)))))), hold, hnew, ?_⟩
  intro hexcl
  exact absurd (hexcl.slots 0 256 hold hnew (by decide) (by decide)) (by decide)

end QueueSys
end TcpLib
