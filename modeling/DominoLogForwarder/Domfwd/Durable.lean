/-
`DomfwdDurableSender` (`domfwd/domfwd_durable.hpp`): the socket sender with a WAL behind its queue. A line goes into the
queue if the forwarder is there and nothing waits in the WAL, otherwise it goes to the WAL, and `Drain` moves it into
the queue later.

The WAL is the one of `Wal/System.lean`, on a machine where no system call of it fails. `taken` adds the history: the
lines for which `Send` returned true.

`durable_keeps_order`: these are at every moment the lines which went to the socket, then those in the queue, then those
in the WAL.
-/
import DominoLogForwarder.Domfwd.SocketInv
import DominoLogForwarder.Wal.Sequential

namespace DominoLogForwarder.Domfwd

open Lines Slice Framing

/-! ## The object -/

/-- `DOMFWD_DURABLE_LOW_WATER` and `DOMFWD_DURABLE_DRAIN_MAX`, which can be set when the program is built -/
structure Limits where
  lowWater : ℕ := 16
  drainMax : ℕ := 200
deriving DecidableEq, Repr

structure Durable where
  /-- `m_Sender` -/
  line : World
  /-- `m_pWal` and its files. There is no WAL if no object is open -/
  wal : Wal.World
  spilled : ℕ := 0
  drained : ℕ := 0
  walRefused : ℕ := 0
  /-- the lines for which `Send` returned true -/
  taken : List Bytes := []

namespace Durable

/-- what `Configure` leaves behind with a WAL which holds nothing -/
def ready (maxLines : ℕ) (buffer : Bytes) (now walMaxBytes : ℕ) : Durable where
  line := .ready maxLines buffer now
  wal := Wal.World.new.step (Wal.Action.quiet (.start walMaxBytes))

variable (d : Durable)

def hasWal : Bool := d.wal.wal.isSome

def isReplayPending : Bool := d.wal.isReplayPending == some true

/-! ## Taking lines -/

/-- `Enqueue` of the sender -/
def offer (now : ℕ) (line : Option Bytes) : Durable × Bool :=
  let r := d.line.enqueue now line
  ({ d with line := r.1 }, r.2)

/-- appends a line to the WAL -/
def spill (line : Bytes) : Durable × Bool :=
  if h : line.length < 2 ^ 32 then
    let r := d.wal.tryAppend ⟨line, h⟩
    if r.2 then ({ d with wal := r.1, spilled := d.spilled + 1 }, true)
    else ({ d with wal := r.1, walRefused := d.walRefused + 1 }, false)
  else ({ d with walRefused := d.walRefused + 1 }, false)

/-- `Send` without the history -/
def sendLine (now : ℕ) (line : Option Bytes) : Durable × Bool :=
  if d.hasWal = true ∧ validLine line = true then
    -- the forwarder is there, nothing waits in the WAL, and there is room
    if d.line.sender.state = .connected ∧ d.isReplayPending = false ∧
        d.line.sender.hasRoom (line.getD []).length = true then d.offer now line
    else d.spill (line.getD [])
  else d.offer now line

def send (now : ℕ) (line : Option Bytes) : Durable × Bool :=
  let r := d.sendLine now line
  (if r.2 then { r.1 with taken := r.1.taken ++ [line.getD []] } else r.1, r.2)

end Durable

/-! ## Moving lines -/

namespace Durable

/-- the inner loop of `Drain`, with `budget` lines left to move. It gives back what is left, and whether `Drain` ends
behind the next `Pump` -/
def moveLines (lim : Limits) : ℕ → Durable → Durable × ℕ × Bool
  | 0, d => (d, 0, false)
  | budget + 1, d =>
    if d.line.sender.lines < lim.lowWater then
      let peeked := d.wal.tryPeek.2
      let d := { d with wal := d.wal.tryPeek.1 }
      match peeked with
      | none => (d, budget + 1, true)
      | some record =>
        -- a record which the queue cannot take stays in the WAL
        if validLine (some record) = true ∧ d.line.sender.hasRoom record.length = false then (d, budget + 1, true)
        else
          let acked := d.wal.tryAck.2
          let d := { d with wal := d.wal.tryAck.1 }
          if acked = false then (d, budget + 1, true)
          else moveLines lim budget { (d.offer 0 (some record)).1 with drained := d.drained + 1 }
    else (d, budget + 1, false)

/-- the outer loop of `Drain`. `answers` is for the calls of `Pump` in it. Every round but the first one moves a line,
so `drainMax` rounds and one are enough -/
def drainLoop (lim : Limits) (answers : ℕ → Answers) : ℕ → ℕ → Durable → Durable
  | 0, _, d => d
  | fuel + 1, budget, d =>
    if 0 < budget then
      let (d, left, ends) := moveLines lim budget d
      let d := { d with line := d.line.pump (answers fuel) }
      if ends = true ∨ lim.lowWater ≤ d.line.sender.lines ∨ d.line.sender.state ≠ .connected then d
      else drainLoop lim answers fuel left d
    else d

def drain (lim : Limits) (answers : ℕ → Answers) (d : Durable) : Durable :=
  if d.line.sender.state ≠ .connected ∨ d.isReplayPending = false then d
  else drainLoop lim answers (lim.drainMax + 1) lim.drainMax d

/-- connect, send, and move lines from the WAL to the sender -/
def pump (lim : Limits) (a : Answers) (answers : ℕ → Answers) (d : Durable) : Durable :=
  let d : Durable := { d with line := d.line.pump a }
  if d.hasWal = true then d.drain lim answers else d

/-! ## Runs -/

inductive Op where
  | send (now : ℕ) (line : Option Bytes)
  | pump (a : Answers) (answers : ℕ → Answers)

def step (lim : Limits) (d : Durable) : Op → Durable
  | .send now line => (d.send now line).1
  | .pump a answers => d.pump lim a answers

def run (lim : Limits) (d : Durable) (ops : List Op) : Durable := ops.foldl (step lim) d

end Durable

/-! ## The sender -/

section Sender

variable {w : World}

/-- what `Configure` set, and the lines which were refused -/
def Sender.settings (s : Sender) : Bool × ℕ × ℕ × ℕ := (s.configured, s.maxLines, s.maxBytes, s.rejected)

/-- no line is taken or refused, and the sender stays configured -/
structure Keeps (w w' : World) : Prop where
  accepted : w'.accepted = w.accepted
  settings : w'.sender.settings = w.sender.settings

theorem Keeps.refl (w : World) : Keeps w w := ⟨rfl, rfl⟩

theorem Keeps.trans {w w' w'' : World} (h : Keeps w w') (h' : Keeps w' w'') : Keeps w w'' :=
  ⟨h'.accepted.trans h.accepted, h'.settings.trans h.settings⟩

theorem Keeps.configured {w w' : World} (h : Keeps w w') : w'.sender.configured = w.sender.configured :=
  congrArg Prod.fst h.settings

theorem disconnect_keeps (w : World) (now : ℕ) (reason : Reason) : Keeps w (w.disconnect now reason) := by
  unfold World.disconnect
  dsimp only
  split_ifs <;> exact ⟨rfl, rfl⟩

theorem startConnect_keeps (w : World) (a : Answers) : Keeps w (w.startConnect a) := by
  unfold World.startConnect
  split_ifs
  · exact disconnect_keeps _ _ _
  · exact disconnect_keeps _ _ _
  · cases a.connect with
    | ok => exact ⟨rfl, rfl⟩
    | wouldBlock => exact ⟨rfl, rfl⟩
    | failed code => exact disconnect_keeps _ _ _

theorem checkConnect_keeps (w : World) (a : Answers) : Keeps w (w.checkConnect a) := by
  unfold World.checkConnect
  split
  · exact disconnect_keeps _ _ _
  · split_ifs
    · exact disconnect_keeps _ _ _
    · exact Keeps.refl w
  · split
    · exact disconnect_keeps _ _ _
    · exact ⟨rfl, rfl⟩
    · exact disconnect_keeps _ _ _

theorem checkPeerClosed_keeps (w : World) (a : Answers) : Keeps w (w.checkPeerClosed a) := by
  unfold World.checkPeerClosed
  split
  · exact Keeps.refl w
  · exact Keeps.refl w
  · split
    · exact Keeps.refl w
    · exact disconnect_keeps _ _ _
    · exact Keeps.refl w
    · exact disconnect_keeps _ _ _

theorem completeLoop_settings (fuel : ℕ) (s : Sender) : (s.completeLoop fuel).settings = s.settings := by
  induction fuel generalizing s with
  | zero => rfl
  | succ fuel ih =>
    unfold Sender.completeLoop
    split_ifs
    · cases find nl (slice s.buffer s.head s.sendPos) with
      | none => rfl
      | some n => exact ih _
    · rfl

theorem took_keeps (w : World) (n : ℕ) : Keeps w (w.took n) := by
  refine ⟨rfl, ?_⟩
  show Sender.settings (Sender.completeSentLines _) = _
  unfold Sender.completeSentLines
  dsimp only
  split_ifs <;> exact completeLoop_settings _ _

theorem sendQueued_keeps (gone : ℕ) (answers : List SendAnswer) (w : World) :
    Keeps w (World.sendQueued gone answers w) := by
  induction answers generalizing w with
  | nil => exact Keeps.refl w
  | cons answer answers ih =>
    unfold World.sendQueued
    split_ifs
    · cases answer with
      | took n =>
        dsimp only
        split_ifs
        · exact (took_keeps w _).trans (ih _)
        · exact Keeps.refl w
      | wouldBlock => exact Keeps.refl w
      | failed code => exact disconnect_keeps _ _ _
    · exact Keeps.refl w

/-- sending and connecting take no line -/
theorem pump_keeps (w : World) (a : Answers) : Keeps w (w.pump a) := by
  have htry : Keeps w (w.tryConnect a) := by
    unfold World.tryConnect
    split_ifs
    · exact startConnect_keeps w a
    · exact Keeps.refl w
  have hawait : ∀ w' : World, Keeps w' (w'.awaitConnect a) := by
    intro w'
    unfold World.awaitConnect
    split_ifs
    · exact checkConnect_keeps w' a
    · exact Keeps.refl w'
  have huse : ∀ w' : World, Keeps w' (w'.useConnection a) := by
    intro w'
    unfold World.useConnection
    split_ifs
    · dsimp only
      split_ifs
      · exact (checkPeerClosed_keeps w' a).trans (sendQueued_keeps _ _ _)
      · exact checkPeerClosed_keeps w' a
    · exact Keeps.refl w'
  unfold World.pump
  split_ifs
  · exact Keeps.refl w
  · exact (htry.trans (hawait _)).trans (huse _)

/-- what `Enqueue` takes is behind the other lines, and what it refuses changes no line -/
theorem enqueue_spec (now : ℕ) (line : Option Bytes) :
    ((w.enqueue now line).2 = true → validLine line = true ∧
      (w.enqueue now line).1.accepted = w.accepted ++ [line.getD []]) ∧
      ((w.enqueue now line).2 = false → (w.enqueue now line).1.accepted = w.accepted ∧
        (w.enqueue now line).1.sender.buffer = w.sender.buffer ∧ (w.enqueue now line).1.sender.head = w.sender.head ∧
        (w.enqueue now line).1.sender.sendPos = w.sender.sendPos ∧ (w.enqueue now line).1.sender.tail = w.sender.tail ∧
        (w.enqueue now line).1.sender.lines = w.sender.lines) := by
  unfold World.enqueue
  by_cases hconf : w.sender.configured = false
  · rw [if_pos hconf]
    exact ⟨(fun h => nomatch h), fun _ => ⟨rfl, rfl, rfl, rfl, rfl, rfl⟩⟩
  rw [if_neg hconf]
  by_cases hvalid : validLine line = false
  · rw [if_pos hvalid]
    exact ⟨(fun h => nomatch h), fun _ => ⟨rfl, rfl, rfl, rfl, rfl, rfl⟩⟩
  rw [if_neg hvalid]
  dsimp only
  split_ifs with hfull
  · refine ⟨(fun h => nomatch h), fun _ => ?_⟩
    unfold World.logDrop
    dsimp only
    split_ifs <;> exact ⟨rfl, rfl, rfl, rfl, rfl, rfl⟩
  all_goals exact ⟨fun _ => ⟨by simpa using hvalid, rfl⟩, fun h => nomatch h⟩

/-- `HasRoom` is the check of `Enqueue` -/
theorem enqueue_of_hasRoom (now : ℕ) {line : Option Bytes} (hvalid : validLine line = true)
    (hroom : w.sender.hasRoom (line.getD []).length = true) : (w.enqueue now line).2 = true := by
  simp only [Sender.hasRoom, Bool.and_eq_true, decide_eq_true_eq] at hroom
  obtain ⟨⟨hconf, hlines⟩, hbytes⟩ := hroom
  unfold World.enqueue
  rw [if_neg (by simp [hconf]), if_neg (by simp [hvalid])]
  dsimp only
  rw [if_neg (not_or.2 ⟨not_le.2 hlines, not_lt.2 hbytes⟩)]

end Sender

/-! ## The invariant -/

/-- the WAL holds the lines which were taken and which the sender does not have -/
structure Kept (d : Durable) (ls : List Bytes) : Prop where
  line : Inv d.line
  pending : Wal.Pending d.wal ls
  taken : d.taken = d.line.accepted ++ ls
  valid : ∀ l ∈ ls, validLine (some l) = true

section Steps

variable {d : Durable} {ls : List Bytes}

theorem Kept.hasWal (h : Kept d ls) : d.hasWal = true := by
  obtain ⟨o, ho⟩ := h.pending.opened
  simp [Durable.hasWal, ho]

theorem Kept.no_pending (h : Kept d ls) (hp : d.isReplayPending = false) : ls = [] := by
  apply h.pending.empty
  intro htrue
  simp [Durable.isReplayPending, htrue] at hp

theorem Kept.pump (h : Kept d ls) (a : Answers) : Kept { d with line := d.line.pump a } ls :=
  ⟨pump_inv h.line a, h.pending, by rw [h.taken]; exact congrArg (· ++ ls) (pump_keeps d.line a).accepted.symm, h.valid⟩

/-- a line goes into the queue of the sender: nothing may wait in the WAL -/
theorem Kept.offer (h : Kept d []) (now : ℕ) (line : Option Bytes) :
    ((d.offer now line).2 = true → Kept { (d.offer now line).1 with taken := d.taken ++ [line.getD []] } []) ∧
      ((d.offer now line).2 = false → Kept (d.offer now line).1 []) := by
  obtain ⟨htrue, hfalse⟩ := enqueue_spec (w := d.line) now line
  have hline := enqueue_inv h.line now line
  refine ⟨fun hok => ⟨hline, h.pending, ?_, h.valid⟩, fun hok => ⟨hline, h.pending, ?_, h.valid⟩⟩
  · show d.taken ++ _ = (d.line.enqueue now line).1.accepted ++ []
    rw [(htrue hok).2, h.taken, List.append_nil, List.append_nil]
  · show d.taken = (d.line.enqueue now line).1.accepted ++ []
    rw [(hfalse hok).1]
    exact h.taken

theorem Kept.spill (h : Kept d ls) {line : Bytes} (hvalid : validLine (some line) = true) :
    ((d.spill line).2 = true → Kept { (d.spill line).1 with taken := d.taken ++ [line] } (ls ++ [line])) ∧
      ((d.spill line).2 = false →
        Kept (d.spill line).1 ls ∧ (d.spill line).1.line = d.line ∧ (d.spill line).1.wal.files = d.wal.files) := by
  unfold Durable.spill
  split_ifs with hlen
  · obtain ⟨htrue, hfalse⟩ := h.pending.append ⟨line, hlen⟩
    have hne : line ≠ [] := (validLine_some.1 hvalid).1
    dsimp only
    split_ifs with hok
    · refine ⟨fun _ => ?_, fun hf => nomatch hf⟩
      have hpend := htrue hok
      rw [if_neg hne] at hpend
      refine ⟨h.line, hpend, ?_, fun l hl => ?_⟩
      · show d.taken ++ [line] = _
        rw [h.taken, List.append_assoc]
      · rcases List.mem_append.1 hl with hl | hl
        · exact h.valid l hl
        · rw [List.mem_singleton.1 hl]
          exact hvalid
    · obtain ⟨hpend, hfiles⟩ := hfalse (by simpa using hok)
      exact ⟨(fun hf => nomatch hf), fun _ => ⟨⟨h.line, hpend, h.taken, h.valid⟩, rfl, hfiles⟩⟩
  · exact ⟨(fun hf => nomatch hf), fun _ => ⟨⟨h.line, h.pending, h.taken, h.valid⟩, rfl, rfl⟩⟩

/-- the queue of the sender is the same -/
structure SameQueue (s s' : Sender) : Prop where
  buffer : s'.buffer = s.buffer
  head : s'.head = s.head
  sendPos : s'.sendPos = s.sendPos
  tail : s'.tail = s.tail
  lines : s'.lines = s.lines

theorem Kept.sendLine (h : Kept d ls) (now : ℕ) (line : Option Bytes) :
    ((d.sendLine now line).2 = true →
      ∃ ls', Kept { (d.sendLine now line).1 with taken := d.taken ++ [line.getD []] } ls') ∧
    ((d.sendLine now line).2 = false → Kept (d.sendLine now line).1 ls ∧
      SameQueue d.line.sender (d.sendLine now line).1.line.sender ∧
        (d.sendLine now line).1.wal.files = d.wal.files) := by
  have hrefused : (d.line.enqueue now line).2 = false → SameQueue d.line.sender (d.line.enqueue now line).1.sender := by
    intro hf
    obtain ⟨-, h1, h2, h3, h4, h5⟩ := (enqueue_spec (w := d.line) now line).2 hf
    exact ⟨h1, h2, h3, h4, h5⟩
  unfold Durable.sendLine
  split_ifs with hwal hfast
  · -- the fast path: nothing waits in the WAL
    obtain rfl := h.no_pending hfast.2.1
    obtain ⟨htrue, hfalse⟩ := h.offer now line
    exact ⟨fun hok => ⟨_, htrue hok⟩, fun hok => ⟨hfalse hok, hrefused hok, rfl⟩⟩
  · cases line with
    | none => exact absurd hwal.2 (by decide)
    | some line =>
      obtain ⟨htrue, hfalse⟩ := h.spill hwal.2
      refine ⟨fun hok => ⟨_, htrue hok⟩, fun hok => ?_⟩
      obtain ⟨hkept, hline, hfiles⟩ := hfalse hok
      refine ⟨hkept, ?_, hfiles⟩
      show SameQueue d.line.sender (d.spill line).1.line.sender
      rw [hline]
      exact ⟨rfl, rfl, rfl, rfl, rfl⟩
  · -- an invalid line is refused
    have hbad : validLine line ≠ true := fun hv => hwal ⟨h.hasWal, hv⟩
    have hfalse : (d.line.enqueue now line).2 = false := by
      cases hok : (d.line.enqueue now line).2 with
      | false => rfl
      | true => exact absurd ((enqueue_spec (w := d.line) now line).1 hok).1 hbad
    refine ⟨fun hok => absurd (hok.symm.trans hfalse) (by decide), fun _ => ⟨?_, hrefused hfalse, rfl⟩⟩
    refine ⟨enqueue_inv h.line now line, h.pending, ?_, h.valid⟩
    show d.taken = (d.line.enqueue now line).1.accepted ++ ls
    rw [((enqueue_spec (w := d.line) now line).2 hfalse).1]
    exact h.taken

/-! ## Drain -/

/-- the oldest record of the WAL moves into the queue -/
theorem Kept.moveLines (h : Kept d ls) (lim : Limits) (budget : ℕ) :
    ∃ ls', Kept (Durable.moveLines lim budget d).1 ls' := by
  induction budget generalizing d ls with
  | zero => exact ⟨ls, h⟩
  | succ budget ih =>
    unfold Durable.moveLines
    split_ifs with hlow
    · obtain ⟨hpeek, hheld⟩ := h.pending.peek
      have hkept : Kept { d with wal := d.wal.tryPeek.1 } ls := ⟨h.line, hpeek, h.taken, h.valid⟩
      dsimp only
      cases hrec : d.wal.tryPeek.2 with
      | none => exact ⟨ls, hkept⟩
      | some record =>
        dsimp only
        split_ifs with hroom hack
        · exact ⟨ls, hkept⟩
        · obtain ⟨-, hfalse⟩ := hpeek.ack (hheld.trans hrec)
          exact ⟨ls, h.line, hfalse hack, h.taken, h.valid⟩
        · obtain ⟨htrue, -⟩ := hpeek.ack (hheld.trans hrec)
          obtain ⟨ls', rfl, hpend⟩ := htrue (by simpa using hack)
          have hvalid : validLine (some record) = true := h.valid record List.mem_cons_self
          have hfits : d.line.sender.hasRoom record.length = true := by
            cases hr : d.line.sender.hasRoom record.length with
            | true => rfl
            | false => exact absurd ⟨hvalid, hr⟩ hroom
          -- the queue takes it, since there is room
          have hok : (d.line.enqueue 0 (some record)).2 = true := enqueue_of_hasRoom 0 hvalid hfits
          obtain ⟨-, hacc⟩ := (enqueue_spec (w := d.line) 0 (some record)).1 hok
          refine ih ⟨enqueue_inv h.line 0 (some record), hpend, ?_,
            fun l hl => h.valid l (List.mem_cons_of_mem _ hl)⟩
          show d.taken = (d.line.enqueue 0 (some record)).1.accepted ++ ls'
          rw [hacc, h.taken, List.append_assoc]
          rfl
    · exact ⟨ls, h⟩

theorem Kept.drainLoop (h : Kept d ls) (lim : Limits) (answers : ℕ → Answers) (fuel budget : ℕ) :
    ∃ ls', Kept (Durable.drainLoop lim answers fuel budget d) ls' := by
  induction fuel generalizing d ls budget with
  | zero => exact ⟨ls, h⟩
  | succ fuel ih =>
    unfold Durable.drainLoop
    split_ifs with hbudget
    · obtain ⟨ls', hmoved⟩ := h.moveLines lim budget
      have hpumped := hmoved.pump (answers fuel)
      dsimp only
      split_ifs
      · exact ⟨ls', hpumped⟩
      · exact ih hpumped _
    · exact ⟨ls, h⟩

theorem sendLine_taken (now : ℕ) (line : Option Bytes) : (d.sendLine now line).1.taken = d.taken := by
  unfold Durable.sendLine Durable.spill
  split_ifs
  · rfl
  · dsimp only
    split_ifs <;> rfl
  · rfl
  · rfl

theorem Kept.step (h : Kept d ls) (lim : Limits) (op : Durable.Op) : ∃ ls', Kept (d.step lim op) ls' := by
  cases op with
  | send now line =>
    obtain ⟨htrue, hfalse⟩ := h.sendLine now line
    show ∃ ls', Kept (d.send now line).1 ls'
    unfold Durable.send
    dsimp only
    split_ifs with hok
    · obtain ⟨ls', hkept⟩ := htrue hok
      refine ⟨ls', ?_⟩
      rw [sendLine_taken]
      exact hkept
    · exact ⟨ls, (hfalse (by simpa using hok)).1⟩
  | pump a answers =>
    have hpumped := h.pump a
    show ∃ ls', Kept (d.pump lim a answers) ls'
    unfold Durable.pump
    dsimp only
    split_ifs
    · unfold Durable.drain
      split_ifs
      · exact ⟨ls, hpumped⟩
      · exact hpumped.drainLoop lim answers _ _
    · exact ⟨ls, hpumped⟩

theorem kept_ready (maxLines : ℕ) (buffer : Bytes) (now walMaxBytes : ℕ) :
    Kept (Durable.ready maxLines buffer now walMaxBytes) [] :=
  ⟨inv_ready maxLines buffer now, Wal.pending_start walMaxBytes, rfl, fun _ hl => absurd hl List.not_mem_nil⟩

theorem Kept.run (h : Kept d ls) (lim : Limits) (ops : List Durable.Op) : ∃ ls', Kept (d.run lim ops) ls' := by
  induction ops generalizing d ls with
  | nil => exact ⟨ls, h⟩
  | cons op ops ih =>
    obtain ⟨ls', hnext⟩ := h.step lim op
    exact ih hnext

end Steps

/-! ## The order of the lines -/

/-- the lines which `Send` took: those which the socket took completely, those in the queue, and those in the WAL -/
def InOrder (d : Durable) : Prop :=
  ∃ queued pending, d.taken = d.line.conns.flatMap (lines nl) ++ queued ++ pending ∧
    slice d.line.sender.buffer d.line.sender.head d.line.sender.tail = joinLines nl queued ∧ (∀ l ∈ queued, nl ∉ l) ∧
    Parses Wal.lenSize (d.wal.files.walBytes.drop d.wal.files.commitValue) pending []

theorem Kept.inOrder {d : Durable} {ls : List Bytes} (h : Kept d ls) : InOrder d := by
  refine ⟨d.line.accepted.drop d.line.sender.sent, ls, ?_, h.line.queue.bytes, h.line.queue.valid, h.pending.stored⟩
  rw [h.line.done, List.take_append_drop]
  exact h.taken

/-- **A durable sender keeps the order and loses nothing between the memory and the WAL.** A line which it does not take
changes neither the queue nor the WAL. -/
theorem durable_keeps_order (maxLines : ℕ) (buffer : Bytes) (now walMaxBytes : ℕ) (lim : Limits)
    (ops : List Durable.Op) :
    let d := (Durable.ready maxLines buffer now walMaxBytes).run lim ops
    InOrder d ∧ ∀ now line, (d.send now line).2 = false →
      SameQueue d.line.sender (d.send now line).1.line.sender ∧ (d.send now line).1.wal.files = d.wal.files := by
  intro d
  obtain ⟨ls, h⟩ := (kept_ready maxLines buffer now walMaxBytes).run lim ops
  refine ⟨h.inOrder, fun now line hf => ?_⟩
  have hf' : (d.sendLine now line).2 = false := hf
  have hsend : (d.send now line).1 = (d.sendLine now line).1 := by
    unfold Durable.send
    dsimp only
    rw [if_neg (by rw [hf']; decide)]
  rw [hsend]
  exact ((h.sendLine now line).2 hf').2

end DominoLogForwarder.Domfwd
