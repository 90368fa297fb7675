import TcpLib.Tickets

/-!
# The send streams of all connections

`Stream c ps` says that the payloads ever stored for connection `c` are `ps`: the first ones are
on its socket, and the rest is in its ring. Only `handleSend` adds one, and every other step of
any thread keeps the list.
-/

namespace TcpLib
open CircularBuffer Transition

/-- A task to send carries a payload of its connection, and no other task does. -/
structure CellTask.Carries (u : CellTask) : Prop where
  send : u.event = .send → ∃ p : Payload, u.sC = some ⟨p, 0⟩ ∧ p.conn = u.conn
  other : u.event ≠ .send → u.sC = none

namespace SendRing
variable {cell cell' : ClientCell} {xs : List SendCell}

theorem of_same (h : SendRing cell xs) (hsame : ClientCell.SameSend cell cell') :
    SendRing cell' xs where
  holds := by
    rw [hsame.sendBuf, hsame.sendReadPos, hsame.sendWritePos]
    exact h.holds
  tail := h.tail

end SendRing

namespace CellManager

structure Stream (s : CellManager) (c : ℕ) (done : List Payload) (xs : List SendCell) : Prop where
  ring : SendRing (s.cell c) xs
  wire : (s.sock c).wire = done.flatMap Payload.sent ++ headWritten xs
  unborn : s.reg.inserted ≤ c → xs = []

/-- Everything that was stored for a connection, oldest first. -/
def Stored (s : CellManager) (c : ℕ) (ps : List Payload) : Prop :=
  ∃ done xs, s.Stream c done xs ∧ ps = done ++ xs.map SendCell.toPayload

variable {s t : CellManager} {a : Action} {u : CellTask} {c x : ℕ}

theorem carries_step (h : Step s a t) (hs : ∀ u, s.Pending u → u.Carries) :
    ∀ u, t.Pending u → u.Carries := by
  intro u hu
  rcases pending_step h hu with hold | hcreated
  · exact hs u hold
  · cases hcreated with
    | send i fd bytes c hmap => exact ⟨fun _ => ⟨_, rfl, rfl⟩, fun hev => absurd rfl hev⟩
    | add => exact ⟨nofun, fun _ => rfl⟩
    | lost => exact ⟨nofun, fun _ => rfl⟩
    | hangup => exact ⟨nofun, fun _ => rfl⟩
    | closed => exact ⟨nofun, fun _ => rfl⟩

/-- What a step does to the ring and the socket of a connection. -/
inductive SendStep (s t : CellManager) (x : ℕ) : Prop
  | same : ClientCell.SameSend (s.cell x) (t.cell x) → (t.sock x).wire = (s.sock x).wire →
      SendStep s t x
  | new (fd : ℕ) (buf : Memory) (ev : EpollEvents) (ip : String) (port : UInt16) :
      x = s.reg.inserted → t.cell x = .new fd buf ev ip port →
      (t.sock x).wire = (s.sock x).wire → SendStep s t x
  | stored (ct : CellTask) (sc : SendCell) : s.loop = .task ct → ct.event = .send →
      s.reg.map ct.clientid = some x → ct.sC = some sc →
      (s.cell x).handleSend sc = some (t.cell x) → (t.sock x).wire = (s.sock x).wire →
      SendStep s t x
  | written (writes : ℕ → WriteResult) (o : SendOut) : x < s.reg.inserted →
      (s.cell x).doSend writes = some o → t.cell x = o.cell →
      (t.sock x).wire = (s.sock x).wire ++ o.wire → SendStep s t x

/-- Only `handleSend` and `doSend` touch a ring, and `doSend` writes to the socket of the
connection it looked up. -/
theorem send_step (b : s.Base) (h : Step s a t) (x : ℕ) : SendStep s t x := by
  cases h with
  | arrive => exact .same (.refl _) (proj_update Sock.wire (by rfl) x)
  | fin => exact .same (.refl _) (proj_update Sock.wire (by rfl) x)
  | rst => exact .same (.refl _) (proj_update Sock.wire (by rfl) x)
  | close => exact .same (.refl _) (proj_update Sock.wire (by rfl) x)
  | insert buf ev ip port hpc =>
    by_cases hx : x = s.reg.inserted
    · exact .new (s.reg.name x) buf ev ip port hx (by simp [hx]) rfl
    · exact .same (by simpa [hx] using .refl _) rfl
  | addFound ct c hpc hev hmap =>
    refine .same ?_ ?_
    · by_cases hxc : x = c
      · subst hxc; simpa using ⟨rfl, rfl, rfl, rfl⟩
      · simpa [hxc] using .refl _
    · rcases epollAdd_cases s (s.cell c).clientFd addEvents x with heq | ⟨-, -, heq⟩ <;> simp [heq]
  | sendStored ct c sc cell hpc hev hmap hsc hstore =>
    by_cases hxc : x = c
    · subst hxc
      exact .stored ct sc hpc hev hmap hsc (by simpa using hstore) rfl
    · exact .same (by simpa [hxc] using .refl _) rfl
  | checkWrite hpc =>
    refine .same ?_ ?_
    · dsimp only
      split_ifs
      · exact (s.cell x).setEvents_sameSend _
      · exact .refl _
    · dsimp only
      split
      · split_ifs
        · exact Sock.epollMod_wire _ _
        · rfl
      · rfl
  | read r hub c d e es o pc hpc hd hlegal hok ho =>
    refine .same ?_ (proj_update Sock.wire (by rfl) x)
    by_cases hxc : x = c
    · subst hxc; simpa using doRecvIter_sameSend ho
    · simpa [hxc] using .refl _
  | write writes e es c d o hpc hmap hd ho =>
    have hopen : s.reg.Open c := b.map_open (by rw [hpc]; rfl) hmap
    obtain ⟨-, hlt, -⟩ := b.reg.map _ _ hmap
    obtain rfl := b.own_sock hopen hlt hd
    by_cases hxc : x = c
    · subst hxc
      exact .written writes o hlt ho (by simp) (by simp)
    · exact .same (by simpa [hxc] using .refl _) (by simp [hxc])
  | _ => exact .same (.refl _) rfl

theorem Stored.store {ps : List Payload} {p : Payload} (hs : s.Stored x ps)
    (hstore : (s.cell x).handleSend ⟨p, 0⟩ = some (t.cell x))
    (hwire : (t.sock x).wire = (s.sock x).wire) (hlt : x < t.reg.inserted) :
    t.Stored x (ps ++ [p]) := by
  obtain ⟨done, xs, hs, rfl⟩ := hs
  refine ⟨done, xs ++ [⟨p, 0⟩], ⟨?_, ?_, fun hx => ?_⟩, by simp⟩
  · rcases hs.ring.handleSend ⟨p, 0⟩ rfl with ⟨-, hfull⟩ | ⟨cell, hcell, hring⟩
    · simp [hfull] at hstore
    · obtain rfl := Option.some.inj (hcell.symm.trans hstore)
      exact hring
  · rw [hwire, hs.wire, headWritten_append_fresh rfl]
  · omega

/-- The payloads of a connection change only when `handleSend` adds one behind them. -/
theorem Stored.step {ps : List Payload} (hs : s.Stored x ps) (b : s.Base) (h : Step s a t)
    (htask : ∀ u, s.Pending u → u.Carries) :
    t.Stored x ps ∨ ∃ ct sc, s.loop = .task ct ∧ ct.event = .send ∧ s.reg.map ct.clientid = some x ∧
      ct.sC = some sc ∧ t.Stored x (ps ++ [sc.toPayload]) := by
  have hins := reg_step_inserted_le b h
  cases send_step b h x with
  | same hsame hwire =>
    obtain ⟨done, xs, hs, rfl⟩ := hs
    refine Or.inl ⟨done, xs, ⟨hs.ring.of_same hsame, ?_, fun hx => hs.unborn (hins.trans hx)⟩, rfl⟩
    rw [hwire, hs.wire]
  | new fd buf ev ip port hx hcell hwire =>
    obtain ⟨done, xs, hs, rfl⟩ := hs
    obtain rfl := hs.unborn hx.ge
    refine Or.inl ⟨done, [], ⟨?_, ?_, fun _ => rfl⟩, rfl⟩
    · rw [hcell]
      exact .new fd buf ev ip port
    · rw [hwire, hs.wire]
  | stored ct sc hpc hev hmap hsc hstore hwire =>
    obtain ⟨p, hp, -⟩ := (htask ct (Or.inr (Or.inr (by simp [hpc, LoopPc.tasks])))).send hev
    obtain rfl := Option.some.inj (hsc.symm.trans hp)
    have hlt := (b.reg.map _ _ hmap).2.1
    exact Or.inr ⟨ct, _, hpc, hev, hmap, hsc, hs.store hstore hwire (hlt.trans_le hins)⟩
  | written writes o hlt ho hcell hwire =>
    obtain ⟨done, xs, hs, rfl⟩ := hs
    obtain ⟨o', done', ys, ho', hsent⟩ := hs.ring.doSend writes
    obtain rfl := Option.some.inj (ho.symm.trans ho')
    refine Or.inl ⟨done ++ done', ys, ⟨?_, ?_, fun hx => ?_⟩, ?_⟩
    · rw [hcell]
      exact hsent.ring
    · rw [hwire, hs.wire, List.append_assoc, hsent.stream, List.flatMap_append, List.append_assoc]
    · omega
    · rw [hsent.payloads, List.append_assoc]

theorem Stored.init (x : ℕ) : Stored {} x [] :=
  ⟨[], [], ⟨.new 0 (fun _ => 0) {} "" 0, rfl, fun _ => rfl⟩, rfl⟩

theorem Stored.of_slot {ps : List Payload} (hs : s.Stored x ps) {j : ℕ} (hj : j < SYSSENDBUF)
    {sc : SendCell} (hsc : (s.cell x).sendBuf j = some sc) : sc.toPayload ∈ ps := by
  obtain ⟨done, xs, hs, rfl⟩ := hs
  obtain ⟨i, hi, rfl⟩ := (hs.ring.holds.isSome_iff hj).mp (by simp [hsc])
  obtain rfl : xs[i] = sc := Option.some.inj ((hs.ring.holds.get i hi).symm.trans hsc)
  exact List.mem_append_right _ (List.mem_map.mpr ⟨_, List.getElem_mem hi, rfl⟩)

theorem Stored.of_wire {ps : List Payload} (hs : s.Stored x ps) {y : SentByte}
    (hy : y ∈ (s.sock x).wire) : ∃ p ∈ ps, y ∈ p.sent := by
  obtain ⟨done, xs, hs, rfl⟩ := hs
  rw [hs.wire, List.mem_append] at hy
  rcases hy with hy | hy
  · obtain ⟨p, hp, hy⟩ := List.mem_flatMap.mp hy
    exact ⟨p, List.mem_append_left _ hp, hy⟩
  · cases xs with
    | nil => cases hy
    | cons sc xs => exact ⟨sc.toPayload, by simp, List.mem_of_mem_take hy⟩

/-- A stored payload is in the ring or on the socket in one piece. -/
theorem Stored.held {ps : List Payload} (hs : s.Stored x ps) {p : Payload} (hp : p ∈ ps) :
    (∃ sc ∈ contents (s.cell x).sendBuf SYSSENDBUF (s.cell x).sendReadPos (s.cell x).sendWritePos,
      sc.toPayload = p) ∨ p.sent <:+: (s.sock x).wire := by
  obtain ⟨done, xs, hs, rfl⟩ := hs
  rw [hs.ring.holds.contents_eq, hs.wire]
  rcases List.mem_append.mp hp with hp | hp
  · obtain ⟨l, r, rfl⟩ := List.append_of_mem hp
    refine Or.inr ⟨l.flatMap Payload.sent, r.flatMap Payload.sent ++ headWritten xs, ?_⟩
    simp
  · exact Or.inl (List.mem_map.mp hp)

end CellManager
end TcpLib
