/-
When the WAL of a `DomfwdDurableSender` gets stuck. `Send` spills a line of any length, while the queue takes a line
only if it and its new line fit into the buffer, and `Drain` leaves a record which has no room where it is. So a record
which would not fit into the empty buffer stays the oldest one for ever, and nothing behind it is sent.

`RemovesOldest` is what a `Pump` should do, and `drain_removes_oldest` says exactly when it does. The files of the WAL
may be those of an earlier process, with records of any content in them.
-/
import DominoLogForwarder.Domfwd.Shutdown
import DominoLogForwarder.Wal.Oldest

namespace DominoLogForwarder.Domfwd

open Lines Slice Framing

/-! ## What a Pump should do -/

/-- the connection does not go down in a `Pump` -/
def StaysUp (a : Answers) : Prop := a.pollIn = .ready → a.recv = .data ∨ a.recv = .wouldBlock

/-- the records `moved` were taken out of the WAL: the valid ones were put into the queue, and the others are counted -/
structure Drained (d d' : Durable) (moved : List Bytes) : Prop where
  queued : d'.line.accepted = d.line.accepted ++ moved.filter fun r => validLine (some r)
  counted : d'.line.sender.rejected = d.line.sender.rejected + moved.countP fun r => !validLine (some r)
  drained : d'.drained = d.drained + moved.length

/-- at least the oldest record is taken out of the WAL -/
def RemovesOldest (d d' : Durable) : Prop :=
  ∃ moved later, moved ≠ [] ∧ Waiting d.wal (moved ++ later) ∧ Waiting d'.wal later ∧ Drained d d' moved

/-- a line which can be put into an empty queue, with the new line behind it, or which needs no room since it is
invalid -/
def FitsBuffer (buffer : Bytes) (line : Bytes) : Prop := validLine (some line) = true → line.length + 1 ≤ buffer.length

section Drained

variable {d d' d'' : Durable} {moved moved' : List Bytes}

theorem Drained.nothing (hline : Keeps d.line d'.line) (hdrained : d'.drained = d.drained) : Drained d d' [] :=
  ⟨by rw [hline.accepted]; exact (List.append_nil _).symm, congrArg (·.2.2.2) hline.settings, hdrained⟩

theorem Drained.trans (h : Drained d d' moved) (h' : Drained d' d'' moved') : Drained d d'' (moved ++ moved') := by
  constructor
  · rw [h'.queued, h.queued, List.filter_append, List.append_assoc]
  · rw [h'.counted, h.counted, List.countP_append, Nat.add_assoc]
  · rw [h'.drained, h.drained, List.length_append, Nat.add_assoc]

end Drained

/-! ## The queue of the sender -/

section Sender

variable {w : World}

/-- an empty queue has no byte in the buffer -/
theorem Inv.no_bytes (h : Inv w) (hempty : w.sender.lines = 0) : w.sender.head = w.sender.tail ∧
    w.sender.sendPos = w.sender.tail := by
  have hqueue := h.queue
  have hnil : w.accepted.drop w.sender.sent = [] := List.length_eq_zero_iff.1 (hqueue.count.symm.trans hempty)
  have hbytes := hqueue.length_pending
  rw [hqueue.bytes, hnil] at hbytes
  have hlength : w.sender.tail - w.sender.head = 0 := hbytes.symm
  have hhead := hqueue.head_send
  have htail := hqueue.send_tail
  omega

/-- with nothing to send a `Pump` does nothing -/
theorem pump_idle (h : Inv w) (hconn : w.sender.state = .connected) (hempty : w.sender.lines = 0) {a : Answers}
    (ha : StaysUp a) : w.pump a = w := by
  have hcheck : w.checkPeerClosed a = w := by
    unfold World.checkPeerClosed
    cases hpoll : a.pollIn with
    | failed => rfl
    | notReady => rfl
    | ready =>
      rcases ha hpoll with hrecv | hrecv
      · simp [hrecv]
      · simp [hrecv]
  have hsend : World.sendQueued a.gone a.send w = w := by
    cases a.send with
    | nil => rfl
    | cons answer answers =>
      unfold World.sendQueued
      rw [if_neg (h.no_bytes hempty).2.not_lt]
  unfold World.pump
  split_ifs
  · rfl
  · have htry : w.tryConnect a = w := if_neg fun hf => absurd (hconn.symm.trans hf.1) (by decide)
    have hawait : w.awaitConnect a = w := if_neg fun hf => absurd (hconn.symm.trans hf) (by decide)
    have huse : w.useConnection a = w := by
      unfold World.useConnection
      rw [if_pos hconn, hcheck, if_pos hconn, hsend]
    rw [htry, hawait, huse]

/-- the settings stay as they are, and a line which is not valid is counted -/
theorem enqueue_settings (now : ℕ) (line : Option Bytes) (hconf : w.sender.configured = true) :
    (w.enqueue now line).1.sender.settings = (w.sender.configured, w.sender.maxLines, w.sender.maxBytes,
      w.sender.rejected + if validLine line = true then 0 else 1) := by
  unfold World.enqueue
  rw [if_neg (by simp [hconf])]
  by_cases hvalid : validLine line = true
  · rw [if_neg (by simp [hvalid]), if_pos hvalid]
    dsimp only
    split_ifs
    · unfold World.logDrop
      dsimp only
      split_ifs <;> rfl
    all_goals rfl
  · rw [if_pos (by simpa using hvalid), if_neg hvalid]
    rfl

end Sender

/-! ## The invariant -/

/-- the records `ls` wait in the WAL, and each of them is one of `P` -/
structure Steady (P : Bytes → Prop) (maxLines maxBytes : ℕ) (d : Durable) (ls : List Bytes) : Prop where
  line : Inv d.line
  pending : Wal.Pending d.wal ls
  busy : Wal.Busy d.wal
  configured : d.line.sender.configured = true
  maxLines : d.line.sender.maxLines = maxLines
  maxBytes : d.line.sender.maxBytes = maxBytes
  all : ∀ l ∈ ls, P l

section Steady

variable {P : Bytes → Prop} {maxLines maxBytes : ℕ} {d : Durable} {ls : List Bytes}

theorem Steady.pump (h : Steady P maxLines maxBytes d ls) (a : Answers) :
    Steady P maxLines maxBytes { d with line := d.line.pump a } ls := by
  have hsettings := (pump_keeps d.line a).settings
  exact ⟨pump_inv h.line a, h.pending, h.busy, (congrArg (·.1) hsettings).trans h.configured,
    (congrArg (·.2.1) hsettings).trans h.maxLines, (congrArg (·.2.2.1) hsettings).trans h.maxBytes, h.all⟩

theorem Steady.offer (h : Steady P maxLines maxBytes d ls) (now : ℕ) (line : Option Bytes) :
    Steady P maxLines maxBytes (d.offer now line).1 ls := by
  have hsettings := enqueue_settings now line h.configured
  exact ⟨enqueue_inv h.line now line, h.pending, h.busy, (congrArg (·.1) hsettings).trans h.configured,
    (congrArg (·.2.1) hsettings).trans h.maxLines, (congrArg (·.2.2.1) hsettings).trans h.maxBytes, h.all⟩

theorem Steady.spill (h : Steady P maxLines maxBytes d ls) {line : Bytes} (hline : P line) :
    ∃ ls', Steady P maxLines maxBytes (d.spill line).1 ls' := by
  unfold Durable.spill
  split_ifs with hlen
  · obtain ⟨htrue, hfalse⟩ := h.pending.append ⟨line, hlen⟩
    have hbusy := h.busy.append h.pending ⟨line, hlen⟩
    dsimp only
    split_ifs with hok
    · refine ⟨_, h.line, htrue hok, hbusy, h.configured, h.maxLines, h.maxBytes, fun l hl => ?_⟩
      split_ifs at hl
      · exact h.all l hl
      · rcases List.mem_append.1 hl with hl | hl
        · exact h.all l hl
        · rw [List.mem_singleton.1 hl]
          exact hline
    · exact ⟨ls, h.line, (hfalse (by simpa using hok)).1, hbusy, h.configured, h.maxLines, h.maxBytes, h.all⟩
  · exact ⟨ls, h.line, h.pending, h.busy, h.configured, h.maxLines, h.maxBytes, h.all⟩

theorem Steady.send (h : Steady P maxLines maxBytes d ls) (now : ℕ) {line : Option Bytes} (hline : P (line.getD [])) :
    ∃ ls', Steady P maxLines maxBytes (d.send now line).1 ls' := by
  have hsent : ∃ ls', Steady P maxLines maxBytes (d.sendLine now line).1 ls' := by
    unfold Durable.sendLine
    split_ifs
    · exact ⟨ls, h.offer now line⟩
    · exact h.spill hline
    · exact ⟨ls, h.offer now line⟩
  obtain ⟨ls', hsteady⟩ := hsent
  refine ⟨ls', ?_⟩
  unfold Durable.send
  dsimp only
  split_ifs
  · exact ⟨hsteady.line, hsteady.pending, hsteady.busy, hsteady.configured, hsteady.maxLines,
      hsteady.maxBytes, hsteady.all⟩
  · exact hsteady

theorem Steady.peek (h : Steady P maxLines maxBytes d ls) : Steady P maxLines maxBytes
    { d with wal := d.wal.tryPeek.1 } ls :=
  ⟨h.line, h.pending.peek.1, h.busy.peek h.pending, h.configured, h.maxLines, h.maxBytes, h.all⟩

/-- the record which is acknowledged goes to the sender -/
theorem Steady.moved {r : Bytes} {rest : List Bytes} (h : Steady P maxLines maxBytes d (r :: rest)) {wal : Wal.World}
    (hwal : Wal.Pending wal rest) (hbusy : Wal.Busy wal)
    (hroom : validLine (some r) = true → d.line.sender.hasRoom r.length = true) :
    let d' : Durable := { (({ d with wal := wal } : Durable).offer 0 (some r)).1 with drained := d.drained + 1 }
    Steady P maxLines maxBytes d' rest ∧ Drained d d' [r] := by
  have hsettings := enqueue_settings 0 (some r) h.configured
  obtain ⟨htrue, hfalse⟩ := enqueue_spec (w := d.line) 0 (some r)
  refine ⟨⟨enqueue_inv h.line 0 (some r), hwal, hbusy, (congrArg (·.1) hsettings).trans h.configured,
    (congrArg (·.2.1) hsettings).trans h.maxLines, (congrArg (·.2.2.1) hsettings).trans h.maxBytes,
    fun l hl => h.all l (List.mem_cons_of_mem _ hl)⟩, ?_, ?_, rfl⟩
  · show (d.line.enqueue 0 (some r)).1.accepted = _
    by_cases hvalid : validLine (some r) = true
    · have hfilter : [r].filter (fun r => validLine (some r)) = [r] := by simp [hvalid]
      rw [(htrue (enqueue_of_hasRoom 0 hvalid (hroom hvalid))).2, hfilter]
      rfl
    · have hno : (d.line.enqueue 0 (some r)).2 = false := by
        cases hok : (d.line.enqueue 0 (some r)).2 with
        | false => rfl
        | true => exact absurd (htrue hok).1 hvalid
      have hfilter : [r].filter (fun r => validLine (some r)) = [] := by simp [hvalid]
      rw [(hfalse hno).1, hfilter]
      exact (List.append_nil _).symm
  · refine (congrArg (·.2.2.2) hsettings).trans ?_
    by_cases hvalid : validLine (some r) = true
    · simp [hvalid]
    · simp [hvalid]

theorem Steady.moveLines (h : Steady P maxLines maxBytes d ls) (lim : Limits) (budget : ℕ) :
    ∃ moved later, ls = moved ++ later ∧ Steady P maxLines maxBytes (Durable.moveLines lim budget d).1 later ∧
      Drained d (Durable.moveLines lim budget d).1 moved := by
  induction budget generalizing d ls with
  | zero => exact ⟨[], ls, rfl, h, .nothing (.refl _) rfl⟩
  | succ budget ih =>
    unfold Durable.moveLines
    split_ifs with hlow
    · obtain ⟨hpeek, hheld⟩ := h.pending.peek
      have hstays : ∃ moved later, ls = moved ++ later ∧
        Steady P maxLines maxBytes { d with wal := d.wal.tryPeek.1 } later ∧
          Drained d { d with wal := d.wal.tryPeek.1 } moved := ⟨[], ls, rfl, h.peek, .nothing (.refl _) rfl⟩
      dsimp only
      cases hrec : d.wal.tryPeek.2 with
      | none => exact hstays
      | some record =>
        dsimp only
        obtain ⟨htrue, hfalse⟩ := hpeek.ack (hheld.trans hrec)
        have hbusy := h.peek.busy.ack hpeek
        split_ifs with hroom hack
        · exact hstays
        · exact ⟨[], ls, rfl, ⟨h.line, hfalse hack, hbusy, h.configured, h.maxLines, h.maxBytes, h.all⟩,
            .nothing (.refl _) rfl⟩
        · obtain ⟨rest, rfl, hpend⟩ := htrue (by simpa using hack)
          obtain ⟨hsteady, hfirst⟩ := h.moved hpend hbusy fun hvalid => by
            by_contra hno
            exact hroom ⟨hvalid, by simpa using hno⟩
          obtain ⟨moved, later, rfl, hend, hmoved⟩ := ih hsteady
          exact ⟨record :: moved, later, rfl, hend, hfirst.trans hmoved⟩
    · exact ⟨[], ls, rfl, h, .nothing (.refl _) rfl⟩

/-- one round of `Drain`, whose inner loop took the records `moved`, and the rounds behind it -/
theorem Steady.drainRound (lim : Limits) (answers : ℕ → Answers) {fuel budget : ℕ} {moved later : List Bytes}
    (hloop : ∀ {d ls} budget, Steady P maxLines maxBytes d ls →
      ∃ moved later, ls = moved ++ later ∧
      Steady P maxLines maxBytes (Durable.drainLoop lim answers fuel budget d) later ∧
        Drained d (Durable.drainLoop lim answers fuel budget d) moved)
    (hbudget : 0 < budget) (hsteady : Steady P maxLines maxBytes (Durable.moveLines lim budget d).1 later)
    (hmoved : Drained d (Durable.moveLines lim budget d).1 moved) :
    ∃ moved' later', later = moved' ++ later' ∧
      Steady P maxLines maxBytes (Durable.drainLoop lim answers (fuel + 1) budget d) later' ∧
      Drained d (Durable.drainLoop lim answers (fuel + 1) budget d) (moved ++ moved') := by
  have hpumped := hsteady.pump (answers fuel)
  have hdrained : Drained d { (Durable.moveLines lim budget d).1 with
      line := (Durable.moveLines lim budget d).1.line.pump (answers fuel) } (moved ++ []) :=
    hmoved.trans (.nothing (pump_keeps _ (answers fuel)) rfl)
  unfold Durable.drainLoop
  rw [if_pos hbudget]
  dsimp only
  split_ifs
  · exact ⟨[], later, rfl, hpumped, hdrained⟩
  · rw [List.append_nil] at hdrained
    obtain ⟨moved', later', hlater, hend, hmore⟩ := hloop (Durable.moveLines lim budget d).2.1 hpumped
    exact ⟨moved', later', hlater, hend, hdrained.trans hmore⟩

theorem Steady.drainLoop (h : Steady P maxLines maxBytes d ls) (lim : Limits) (answers : ℕ → Answers)
    (fuel budget : ℕ) :
    ∃ moved later, ls = moved ++ later ∧
    Steady P maxLines maxBytes (Durable.drainLoop lim answers fuel budget d) later ∧
      Drained d (Durable.drainLoop lim answers fuel budget d) moved := by
  induction fuel generalizing d ls budget with
  | zero => exact ⟨[], ls, rfl, h, .nothing (.refl _) rfl⟩
  | succ fuel ih =>
    by_cases hbudget : 0 < budget
    · obtain ⟨moved, later, rfl, hsteady, hmoved⟩ := h.moveLines lim budget
      obtain ⟨moved', later', rfl, hend, hdrained⟩ :=
        Steady.drainRound lim answers (fun budget h => ih h budget) hbudget hsteady hmoved
      exact ⟨moved ++ moved', later', (List.append_assoc _ _ _).symm, hend, hdrained⟩
    · have hnone : Durable.drainLoop lim answers (fuel + 1) budget d = d := by
        unfold Durable.drainLoop
        exact if_neg hbudget
      rw [hnone]
      exact ⟨[], ls, rfl, h, .nothing (.refl _) rfl⟩

theorem Steady.step (h : Steady P maxLines maxBytes d ls) (lim : Limits) {op : Durable.Op}
    (hop : ∀ now line, op = .send now line → P (line.getD [])) : ∃ ls',
      Steady P maxLines maxBytes (d.step lim op) ls' := by
  cases op with
  | send now line => exact h.send now (hop now line rfl)
  | pump a answers =>
    have hpumped := h.pump a
    show ∃ ls', Steady P maxLines maxBytes (d.pump lim a answers) ls'
    unfold Durable.pump
    dsimp only
    split_ifs
    · unfold Durable.drain
      split_ifs
      · exact ⟨ls, hpumped⟩
      · obtain ⟨moved, later, -, hend, -⟩ := hpumped.drainLoop lim answers (lim.drainMax + 1) lim.drainMax
        exact ⟨later, hend⟩
    · exact ⟨ls, hpumped⟩

theorem Steady.run (h : Steady P maxLines maxBytes d ls) (lim : Limits) {ops : List Durable.Op}
    (hops : ∀ now line, .send now line ∈ ops → P (line.getD [])) : ∃ ls',
      Steady P maxLines maxBytes (d.run lim ops) ls' := by
  induction ops generalizing d ls with
  | nil => exact ⟨ls, h⟩
  | cons op ops ih =>
    obtain ⟨ls', hnext⟩ := h.step lim fun now line heq => hops now line (heq ▸ List.mem_cons_self)
    exact ih hnext fun now line hmem => hops now line (List.mem_cons_of_mem _ hmem)

/-! ## One Pump -/

theorem Steady.hasWal (h : Steady P maxLines maxBytes d ls) : d.hasWal = true := by
  obtain ⟨o, ho⟩ := h.pending.opened
  simp [Durable.hasWal, ho]

/-- a `Pump` which has nothing to send only drains the WAL -/
theorem Steady.pump_drains (h : Steady P maxLines maxBytes d ls) (hconn : d.line.sender.state = .connected)
    (hempty : d.line.sender.lines = 0) (hpending : d.isReplayPending = true) (lim : Limits) {a : Answers}
    (ha : StaysUp a)
    (answers : ℕ → Answers) :
    d.pump lim a answers = Durable.drainLoop lim answers (lim.drainMax + 1) lim.drainMax d := by
  unfold Durable.pump
  rw [pump_idle h.line hconn hempty ha]
  dsimp only
  rw [if_pos h.hasWal]
  unfold Durable.drain
  rw [if_neg]
  rintro (hf | hf)
  · exact hf hconn
  · exact absurd (hpending.symm.trans hf) (by decide)

/-- the room of an empty queue -/
theorem Steady.hasRoom_empty (h : Steady P maxLines maxBytes d ls) (hlines : 0 < maxLines)
    (hempty : d.line.sender.lines = 0)
    (len : ℕ) : d.line.sender.hasRoom len = true ↔ len + 1 ≤ maxBytes := by
  have hhead := (h.line.no_bytes hempty).1
  unfold Sender.hasRoom
  rw [h.configured, h.maxLines, h.maxBytes, hempty, hhead, Nat.sub_self, Nat.zero_add]
  simp [hlines]

/-- the oldest record moves if there is room for it, or if it needs none -/
theorem Steady.moveLines_takes {r : Bytes} {rest : List Bytes} (h : Steady P maxLines maxBytes d (r :: rest))
    (lim : Limits)
    (budget : ℕ) (hlow : d.line.sender.lines < lim.lowWater)
    (hroom : validLine (some r) = true → d.line.sender.hasRoom r.length = true) :
    ∃ d', Durable.moveLines lim (budget + 1) d = Durable.moveLines lim budget d' ∧ Steady P maxLines maxBytes d' rest ∧
      Drained d d' [r] := by
  obtain ⟨hpeeked, hacked, hrest⟩ := h.pending.taken
  have hbusy := h.peek.busy.ack h.pending.peek.1
  obtain ⟨hsteady, hdrained⟩ := h.moved hrest hbusy hroom
  refine ⟨_, ?_, hsteady, hdrained⟩
  conv_lhs => unfold Durable.moveLines
  rw [if_pos hlow, hpeeked]
  dsimp only
  rw [if_neg fun hf => absurd ((hroom hf.1).symm.trans hf.2) (by decide), if_neg (by rw [hacked]; decide)]

/-- a record without room stays where it is -/
theorem Steady.moveLines_stuck {r : Bytes} {rest : List Bytes} (h : Steady P maxLines maxBytes d (r :: rest))
    (lim : Limits)
    (budget : ℕ) (hlow : d.line.sender.lines < lim.lowWater) (hvalid : validLine (some r) = true)
    (hroom : d.line.sender.hasRoom r.length = false) :
    Durable.moveLines lim (budget + 1) d = ({ d with wal := d.wal.tryPeek.1 }, budget + 1, true) := by
  obtain ⟨hpeeked, -, -⟩ := h.pending.taken
  unfold Durable.moveLines
  rw [if_pos hlow, hpeeked]
  dsimp only
  rw [if_pos ⟨hvalid, hroom⟩]

/-- the lines of the WAL are the same, and so nothing was removed -/
theorem not_removes {r : Bytes} {rest : List Bytes} {d' : Durable} (h : Wal.Pending d.wal (r :: rest))
    (h' : Wal.Pending d'.wal (r :: rest)) : ¬ RemovesOldest d d' := by
  rintro ⟨moved, later, hmoved, hbefore, hbehind, -⟩
  obtain ⟨hall, -⟩ := Parses.unique hbefore h.stored
  obtain ⟨hlater, -⟩ := Parses.unique hbehind h'.stored
  apply hmoved
  apply List.length_eq_zero_iff.1
  have hlength := congrArg List.length (hall.trans hlater.symm)
  rw [List.length_append] at hlength
  omega

/-- the oldest record goes, and maybe some behind it -/
theorem Steady.drain_removes {r : Bytes} {rest : List Bytes} (h : Steady P maxLines maxBytes d (r :: rest))
    (lim : Limits)
    (answers : ℕ → Answers) {fuel budget : ℕ} (hlow : d.line.sender.lines < lim.lowWater) (hbudget : 0 < budget)
    (hroom : validLine (some r) = true → d.line.sender.hasRoom r.length = true) :
    RemovesOldest d (Durable.drainLoop lim answers (fuel + 1) budget d) := by
  obtain ⟨left, rfl⟩ : ∃ left, budget = left + 1 := ⟨budget - 1, by omega⟩
  obtain ⟨d', hmove, hsteady, hfirst⟩ := h.moveLines_takes lim left hlow hroom
  obtain ⟨moved, later, rfl, hend, hmoved⟩ := hsteady.moveLines lim left
  rw [← hmove] at hend hmoved
  obtain ⟨moved', later', rfl, hlast, hdrained⟩ := Steady.drainRound lim answers
    (fun budget h => h.drainLoop lim answers fuel budget) hbudget hend (hfirst.trans hmoved)
  refine ⟨_, later', List.cons_ne_nil _ _, ?_, hlast.pending.stored, hdrained⟩
  have hstored : Waiting d.wal (r :: (moved ++ (moved' ++ later'))) := h.pending.stored
  rw [← List.append_assoc] at hstored
  exact hstored

/-- the first round ends `Drain` and has moved nothing -/
theorem drainLoop_ends {lim : Limits} (answers : ℕ → Answers) {fuel budget left : ℕ} {d' : Durable} {ends : Bool}
    (hbudget : 0 < budget) (hmove : Durable.moveLines lim budget d = (d', left, ends))
    (hends : ends = true ∨ lim.lowWater = 0) :
    Durable.drainLoop lim answers (fuel + 1) budget d = { d' with line := d'.line.pump (answers fuel) } := by
  unfold Durable.drainLoop
  rw [if_pos hbudget, hmove]
  dsimp only
  rw [if_pos]
  rcases hends with hends | hends
  · exact .inl hends
  · rw [hends]
    exact .inr (.inl (Nat.zero_le _))

/-- a record which does not fit into the buffer keeps its place -/
theorem Steady.drain_stuck {r : Bytes} {rest : List Bytes} (h : Steady P maxLines maxBytes d (r :: rest)) (lim : Limits)
    (answers : ℕ → Answers) {fuel budget : ℕ} (hempty : d.line.sender.lines = 0)
    (hstuck : ¬ (0 < lim.lowWater ∧ 0 < budget ∧ (validLine (some r) = true → d.line.sender.hasRoom r.length = true))) :
    ¬ RemovesOldest d (Durable.drainLoop lim answers (fuel + 1) budget d) := by
  by_cases hbudget : 0 < budget
  · obtain ⟨left, rfl⟩ : ∃ left, budget = left + 1 := ⟨budget - 1, by omega⟩
    by_cases hlow : 0 < lim.lowWater
    · have hno : validLine (some r) = true ∧ d.line.sender.hasRoom r.length = false := by
        by_contra hf
        refine hstuck ⟨hlow, hbudget, fun hvalid => ?_⟩
        by_contra hroom
        exact hf ⟨hvalid, by simpa using hroom⟩
      rw [drainLoop_ends answers hbudget (h.moveLines_stuck lim left (hempty ▸ hlow) hno.1 hno.2) (.inl rfl)]
      exact not_removes h.pending h.pending.peek.1
    · have hmove : Durable.moveLines lim (left + 1) d = (d, left + 1, false) := by
        unfold Durable.moveLines
        rw [if_neg (by omega)]
      rw [drainLoop_ends answers hbudget hmove (.inr (by omega))]
      exact not_removes h.pending h.pending
  · have hnone : Durable.drainLoop lim answers (fuel + 1) budget d = d := by
      unfold Durable.drainLoop
      exact if_neg hbudget
    rw [hnone]
    exact not_removes h.pending h.pending

/-- **When a `Pump` removes the oldest record** -/
theorem Steady.removes_iff {r : Bytes} {rest : List Bytes} (h : Steady P maxLines maxBytes d (r :: rest))
    (hlines : 0 < maxLines)
    (hconn : d.line.sender.state = .connected) (hempty : d.line.sender.lines = 0) (hpending : d.isReplayPending = true)
    (lim : Limits) {a : Answers} (ha : StaysUp a) (answers : ℕ → Answers) :
    RemovesOldest d (d.pump lim a answers) ↔
      0 < lim.lowWater ∧ 0 < lim.drainMax ∧ (validLine (some r) = true → r.length + 1 ≤ maxBytes) := by
  rw [h.pump_drains hconn hempty hpending lim ha answers, ← h.hasRoom_empty hlines hempty]
  constructor
  · intro hremoves
    by_contra hstuck
    exact h.drain_stuck lim answers hempty hstuck hremoves
  · rintro ⟨hlow, hmax, hroom⟩
    exact h.drain_removes lim answers (hempty ▸ hlow) hmax hroom

end Steady

/-! ## Every run -/

/-- the files of a WAL to which an earlier process appended `old` -/
def earlier (old : List Wal.Payload) : Wal.World := (Wal.built old).step (Wal.Action.quiet .close)

theorem steady_configured {P : Bytes → Prop} {old : List Wal.Payload} (hold : ∀ p ∈ old, P p.bytes) (maxLines : ℕ)
    (buffer : Bytes) (now walMaxBytes : ℕ) :
    ∃ ls, Steady P maxLines buffer.length (Durable.configured (earlier old) maxLines buffer now walMaxBytes) ls := by
  obtain ⟨ls, hpend, hbusy, hls⟩ := Wal.pending_reopened old walMaxBytes
  refine ⟨ls, inv_ready maxLines buffer now, hpend, hbusy, rfl, rfl, rfl, fun l hl => ?_⟩
  obtain ⟨p, hp, rfl⟩ := hls l hl
  exact hold p hp

/-- a WAL which is pending has a record in it -/
theorem Steady.oldest {P : Bytes → Prop} {maxLines maxBytes : ℕ} {d : Durable} {ls : List Bytes}
    (h : Steady P maxLines maxBytes d ls) (hpending : d.isReplayPending = true) : ∃ r rest, ls = r :: rest := by
  cases ls with
  | nil => exact absurd rfl (h.pending.waits h.busy (by simpa [Durable.isReplayPending] using hpending))
  | cons r rest => exact ⟨r, rest, rfl⟩

/-- the forwarder is there, nothing is in the queue, and the WAL is pending -/
structure Draining (d : Durable) : Prop where
  connected : d.line.sender.state = .connected
  empty : d.line.sender.lines = 0
  pending : d.isReplayPending = true

/-- **A `Pump` removes the oldest record of the WAL if and only if it fits into the buffer** (or needs no room there).
So no line blocks the WAL if all lines which are sent, and all records which were there before, fit. -/
theorem drain_removes_oldest (old : List Wal.Payload) (maxLines : ℕ) (hlines : 0 < maxLines) (buffer : Bytes)
    (now walMaxBytes : ℕ) (lim : Limits) (ops : List Durable.Op)
    (hdraining : Draining ((Durable.configured (earlier old) maxLines buffer now walMaxBytes).run lim ops)) :
    let d := (Durable.configured (earlier old) maxLines buffer now walMaxBytes).run lim ops
    (∃ oldest rest, Waiting d.wal (oldest :: rest) ∧ ∀ a answers, StaysUp a →
      (RemovesOldest d (d.pump lim a answers) ↔ 0 < lim.lowWater ∧ 0 < lim.drainMax ∧ FitsBuffer buffer oldest)) ∧
    ((∀ p ∈ old, FitsBuffer buffer p.bytes) → (∀ t line, .send t line ∈ ops → FitsBuffer buffer (line.getD [])) →
      0 < lim.lowWater → 0 < lim.drainMax → ∀ a answers, StaysUp a → RemovesOldest d (d.pump lim a answers)) := by
  intro d
  constructor
  · obtain ⟨ls, hstart⟩ := steady_configured (P := fun _ => True) (fun p (_ : p ∈ old) => trivial) maxLines buffer now
      walMaxBytes
    obtain ⟨ls', hsteady⟩ := hstart.run lim fun now line (_ : .send now line ∈ ops) => trivial
    obtain ⟨oldest, rest, rfl⟩ := hsteady.oldest hdraining.pending
    exact ⟨oldest, rest, hsteady.pending.stored, fun a answers ha =>
      hsteady.removes_iff hlines hdraining.connected hdraining.empty hdraining.pending lim ha answers⟩
  · intro hold hops hlow hmax a answers ha
    obtain ⟨ls, hstart⟩ := steady_configured hold maxLines buffer now walMaxBytes
    obtain ⟨ls', hsteady⟩ := hstart.run lim hops
    obtain ⟨oldest, rest, rfl⟩ := hsteady.oldest hdraining.pending
    apply (hsteady.removes_iff hlines hdraining.connected hdraining.empty hdraining.pending lim ha answers).2
    exact ⟨hlow, hmax, hsteady.all oldest List.mem_cons_self⟩

/-- two lines go to the WAL, and one of them is sent in the first `Pump` -/
def drainOps : List Durable.Op :=
  [.send 0 (some [97]), .send 0 (some [98, 99]), .pump { connect := .ok } fun _ => { send := [.took 2] }]

/-- a limit of one line for a call: the second one is left for the next `Pump` -/
theorem drain_removes_oldest_small :
    let d := (Durable.configured (earlier [⟨[10], by decide⟩]) 10 (List.replicate 1024 0) 0 0).run ⟨1, 2⟩ drainOps
    (∃ oldest rest, Waiting d.wal (oldest :: rest) ∧ ∀ a answers, StaysUp a →
      (RemovesOldest d (d.pump ⟨1, 2⟩ a answers) ↔ 0 < 1 ∧ 0 < 2 ∧ FitsBuffer (List.replicate 1024 0) oldest)) ∧
    ((∀ p ∈ [(⟨[10], by decide⟩ : Wal.Payload)], FitsBuffer (List.replicate 1024 0) p.bytes) →
      (∀ t line, .send t line ∈ drainOps → FitsBuffer (List.replicate 1024 0) (line.getD [])) →
      0 < 1 → 0 < 2 → ∀ a answers, StaysUp a → RemovesOldest d (d.pump ⟨1, 2⟩ a answers)) :=
  drain_removes_oldest [⟨[10], by decide⟩] 10 (by decide) (List.replicate 1024 0) 0 0 ⟨1, 2⟩ drainOps
    ⟨by decide +kernel, by decide +kernel, by decide +kernel⟩

/-- as long as the buffer, so that there is no room for the new line behind it -/
def longLine : Bytes := List.replicate 1024 65

/-- **A line which `Send` took blocks the WAL**: it is as long as the buffer. -/
theorem long_line_stays :
    let d := (Durable.configured (earlier []) 10 (List.replicate 1024 0) 0 0).run {}
      [.send 0 (some longLine), .pump { connect := .ok } fun _ => {}]
    d.taken = [longLine] ∧ Draining d ∧ ∀ a answers, StaysUp a → ¬ RemovesOldest d (d.pump {} a answers) := by
  intro d
  have hdraining : Draining d := ⟨by decide +kernel, by decide +kernel, by decide +kernel⟩
  refine ⟨by decide +kernel, hdraining, fun a answers ha hremoves => ?_⟩
  obtain ⟨ls, hstart⟩ := steady_configured (P := fun l => l = longLine)
    (fun p (hp : p ∈ []) => absurd hp List.not_mem_nil) 10 (List.replicate 1024 0) 0 0
  obtain ⟨ls', hsteady⟩ : ∃ ls', Steady (fun l => l = longLine) 10 (List.replicate 1024 (0 : UInt8)).length d ls' :=
    hstart.run {} (fun t line hmem => by
      simp only [List.mem_cons, List.not_mem_nil, or_false, Durable.Op.send.injEq, reduceCtorEq] at hmem
      rw [hmem.2]
      rfl)
  obtain ⟨oldest, rest, rfl⟩ := hsteady.oldest hdraining.pending
  obtain rfl : oldest = longLine := hsteady.all oldest List.mem_cons_self
  have hlines : 0 < 10 := by decide
  have hiff := hsteady.removes_iff hlines hdraining.connected hdraining.empty hdraining.pending {} ha answers
  obtain ⟨-, -, hfits⟩ := hiff.1 hremoves
  have hvalid : validLine (some longLine) = true := by decide +kernel
  have hlength := hfits hvalid
  unfold longLine at hlength
  rw [List.length_replicate, List.length_replicate] at hlength
  omega

end DominoLogForwarder.Domfwd
