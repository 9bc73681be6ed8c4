/-
The end of a program with a `DomfwdDurableSender`, and its next start. `Flush` tries to send the queue, and moves what
is left to the WAL. `Close` closes both, and a new sender opens the same WAL.

`taken` is the history of one sender. A line is in three places in its life: the queue, the WAL, and the socket, and a
partly sent line of the queue counts as not sent.

`shutdown_keeps_all`: the lines of the queue are behind the records which waited in the WAL before, and the new sender
takes over these records.
-/
import DominoLogForwarder.Domfwd.Durable

namespace DominoLogForwarder.Domfwd

open Lines Slice Framing

/-! ## The sender -/

namespace Sender

/-- `PeekUnsent`: the oldest line which was not sent completely -/
def peekUnsent (s : Sender) : Option Bytes :=
  if s.configured = false ∨ s.lines = 0 then none
  else (find nl (slice s.buffer s.head s.tail)).map fun n => slice s.buffer s.head (s.head + n)

/-- `DropUnsent`: removes the line which `PeekUnsent` returned -/
def dropUnsent (s : Sender) : Sender :=
  if s.configured = false ∨ s.lines = 0 then s
  else
    match find nl (slice s.buffer s.head s.tail) with
    | none => s
    | some n =>
      let head := s.head + n + 1
      let s := { s with head := head, lines := s.lines - 1, sendPos := if s.sendPos < head then head else s.sendPos }
      if s.head = s.tail then { s with head := 0, sendPos := 0, tail := 0 } else s

/-- `Close`. The buffer is freed -/
def close (s : Sender) : Sender :=
  { s with state := .disconnected, buffer := [], head := 0, sendPos := 0, tail := 0, lines := 0, configured := false }

end Sender

/-! ## The durable sender -/

/-- the length of a line is cast to a `uint32_t` -/
def castLine (line : Bytes) : Wal.Payload :=
  ⟨line.take (line.length % 2 ^ 32), by
    rw [List.length_take]
    exact (Nat.min_le_left _ _).trans_lt (Nat.mod_lt _ (by decide))⟩

namespace Durable

/-- the loop of `Flush` which moves the queue to the WAL. A round removes a line, so as many rounds as lines are
enough -/
def moveUnsent : ℕ → Durable → Durable
  | 0, d => d
  | fuel + 1, d =>
    match d.line.sender.peekUnsent with
    | none => d
    | some line =>
      let r := d.wal.tryAppend (castLine line)
      -- the WAL is full: this line and the ones behind it stay in memory, and are lost
      if r.2 = false then { d with wal := r.1, walRefused := d.walRefused + 1 }
      else
        moveUnsent fuel
          { d with
            wal := r.1
            line := { d.line with sender := d.line.sender.dropUnsent }
            spilled := d.spilled + 1 }

/-- `Flush`. `none`: it still waits -/
def flush (d : Durable) (now timeoutMs : ℕ) (rounds : List (Answers × ℕ)) : Durable × Option Bool :=
  let r := d.line.flush now timeoutMs rounds
  let d := { d with line := r.1 }
  match r.2 with
  | none => (d, none)
  | some true => (d, some true)
  | some false =>
    if d.hasWal = true then
      let d := d.moveUnsent d.line.sender.lines
      (d, some (d.line.sender.lines == 0))
    else (d, some false)

def close (d : Durable) : Durable :=
  { d with line := { d.line with sender := d.line.sender.close }, wal := d.wal.step (Wal.Action.quiet .close) }

/-- what `Configure` leaves behind with the files of an earlier WAL -/
def configured (wal : Wal.World) (maxLines : ℕ) (buffer : Bytes) (now walMaxBytes : ℕ) : Durable where
  line := .ready maxLines buffer now
  wal := wal.step (Wal.Action.quiet (.start walMaxBytes))

end Durable

/-! ## Where the lines are -/

/-- the lines of the queue, oldest first. A line which was sent in part is one of them, as a whole -/
def Queued (s : Sender) (ls : List Bytes) : Prop :=
  slice s.buffer s.head s.tail = joinLines nl ls ∧ ∀ l ∈ ls, nl ∉ l

/-- the records of a WAL from its commit position on -/
def Waiting (w : Wal.World) (records : List Bytes) : Prop :=
  Parses Wal.lenSize (w.files.walBytes.drop w.files.commitValue) records []

/-- the lines which were sent completely -/
def World.sentLines (w : World) : List Bytes := w.conns.flatMap (lines nl)

/-- what `Flush` of the sender `d` did when it returned `ok`. `w` is the socket sender when nothing more could be
sent -/
structure Flushed (d : Durable) (w : World) (d' : Durable) (ok : Bool) (old moved lost : List Bytes) : Prop where
  /-- waited in the WAL before `Flush` -/
  before : Waiting d.wal old
  /-- the unsent lines, in the order of the queue -/
  unsent : Queued w.sender (moved ++ lost)
  order : d.taken = w.sentLines ++ (moved ++ lost) ++ old
  /-- every line is once where it was sent to, or waits in the WAL, or is lost -/
  once : d.taken.Perm (d'.line.sentLines ++ (old ++ moved) ++ lost)
  waiting : Waiting d'.wal (old ++ moved)
  /-- the lines which are lost are those which are still counted as queued -/
  missing : Queued d'.line.sender lost
  count : d'.line.sender.lines = lost.length
  returned : ok = true ↔ lost = []

/-- a new sender has the records `ls` of the WAL, and what it takes itself comes behind them -/
def TakesOver (ls : List Bytes) (d : Durable) : Prop :=
  ∃ queued waiting, ls ++ d.taken = d.line.sentLines ++ queued ++ waiting ∧ Queued d.line.sender queued ∧
    Waiting d.wal waiting

/-! ## Moving the queue -/

section Move

variable {s : Sender} {d : Durable} {l : Bytes} {ls old : List Bytes}

theorem Holds.queued (h : Holds s ls) : Queued s ls := ⟨h.bytes, h.valid⟩

/-- the first line of a queue, and what is behind it -/
theorem Holds.cons (h : Holds s (l :: ls)) : slice s.buffer s.head (s.head + l.length) = l ∧
    s.head + l.length + 1 ≤ s.tail ∧ slice s.buffer s.head (s.head + l.length + 1) = l ++ [nl] ∧
    slice s.buffer (s.head + l.length + 1) s.tail = joinLines nl ls := by
  have hcap := h.tail_length
  have hlen := h.length_pending
  have hbytes := h.bytes
  rw [joinLines_cons] at hbytes
  rw [hbytes, List.length_append, List.length_cons] at hlen
  have hfirst : slice s.buffer s.head (s.head + l.length) ++ slice s.buffer (s.head + l.length) s.tail =
      l ++ nl :: joinLines nl ls := by
    rw [slice_append (by omega) (by omega), hbytes]
  have hl := (List.append_inj hfirst (by rw [length_slice (by omega)]; omega)).1
  have hsplit : slice s.buffer s.head (s.head + l.length + 1) ++ slice s.buffer (s.head + l.length + 1) s.tail =
      (l ++ [nl]) ++ joinLines nl ls := by
    rw [slice_append (by omega) (by omega), hbytes, List.append_assoc]
    rfl
  obtain ⟨hline, hrest⟩ := List.append_inj hsplit (by
    rw [length_slice (by omega), List.length_append, List.length_singleton]
    omega)
  exact ⟨hl, by omega, hline, hrest⟩

/-- the queue without its first line, with the next byte to send behind it -/
theorem Holds.dropped (h : Holds s (l :: ls)) {pos : ℕ} (hpos : s.head + l.length + 1 ≤ pos) (htail : pos ≤ s.tail) :
    Holds { s with head := s.head + l.length + 1, lines := s.lines - 1, sendPos := pos } ls := by
  obtain ⟨-, hle, hline, hrest⟩ := h.cons
  have hcap := h.tail_length
  exact {
    cap := h.cap
    head_send := hpos
    send_tail := htail
    tail_le := h.tail_le
    bytes := hrest
    count := by
      show s.lines - 1 = _
      rw [h.count, List.length_cons, Nat.add_sub_cancel]
    valid := fun l' hl' => h.valid l' (List.mem_cons_of_mem _ hl')
    start := by
      right
      show s.buffer[s.head + l.length + 1 - 1]? = some nl
      refine getElem?_of_slice (a := s.head) (by omega) (by omega) ?_
      rw [hline, List.getLast?_concat] }

/-- `PeekUnsent` returns the first line of the queue, and `DropUnsent` removes it -/
theorem Holds.unsent (h : Holds s (l :: ls)) (hconf : s.configured = true) :
    s.peekUnsent = some l ∧ Holds s.dropUnsent ls ∧ s.dropUnsent.configured = true := by
  obtain ⟨hl, hle, hline, hrest⟩ := h.cons
  have hsend := h.send_tail
  have hgo : ¬ (s.configured = false ∨ s.lines = 0) := by
    rw [hconf, h.count, List.length_cons]
    simp
  have hfind : find nl (slice s.buffer s.head s.tail) = some l.length := by
    rw [h.bytes, joinLines_cons]
    exact find_line (h.valid l List.mem_cons_self) _
  unfold Sender.peekUnsent Sender.dropUnsent
  rw [if_neg hgo, if_neg hgo, hfind]
  refine ⟨congrArg some hl, ?_⟩
  dsimp only
  by_cases hempty : s.head + l.length + 1 = s.tail
  · -- it was the last one: the buffer starts at 0 again
    have hnil : ls = [] := by
      rw [hempty, slice_self] at hrest
      cases ls with
      | nil => rfl
      | cons l' ls' => exact absurd hrest.symm (by rw [joinLines_cons]; simp)
    subst hnil
    rw [if_pos hempty]
    have hcount : s.lines - 1 = 0 := by
      rw [h.count]
      rfl
    exact ⟨⟨h.cap, le_rfl, le_rfl, Nat.zero_le _, slice_self _, hcount,
      fun _ hl => absurd hl List.not_mem_nil, .inl rfl⟩,
      hconf⟩
  · rw [if_neg hempty]
    refine ⟨h.dropped ?_ ?_, hconf⟩
    · split_ifs with hlt
      · exact le_rfl
      · exact Nat.le_of_not_lt hlt
    · split_ifs
      · exact hle
      · exact hsend

theorem castLine_of_lt (h : l.length < 2 ^ 32) : (castLine l).bytes = l := by
  unfold castLine
  dsimp only
  rw [Nat.mod_eq_of_lt h, List.take_length]

/-- **The queue goes to the WAL**, line by line, until the WAL is full. -/
theorem Holds.moveUnsent (h : Holds d.line.sender ls) (hconf : d.line.sender.configured = true)
    (hpend : Wal.Pending d.wal old)
    (hlines : ∀ l ∈ ls, l ≠ [] ∧ l.length < 2 ^ 32) {fuel : ℕ} (hfuel : ls.length ≤ fuel) :
    ∃ moved lost, ls = moved ++ lost ∧ Holds (d.moveUnsent fuel).line.sender lost ∧
      Wal.Pending (d.moveUnsent fuel).wal (old ++ moved) ∧ (d.moveUnsent fuel).line.conns = d.line.conns := by
  -- induction on the lines of the queue, with a round for each of them
  induction fuel generalizing d ls old with
  | zero =>
    obtain rfl : ls = [] := List.length_eq_zero_iff.1 (Nat.le_zero.1 hfuel)
    exact ⟨[], [], rfl, h, by rw [List.append_nil]; exact hpend, rfl⟩
  | succ fuel ih =>
    cases ls with
    | nil =>
      have hnone : d.line.sender.peekUnsent = none := by
        unfold Sender.peekUnsent
        rw [if_pos (.inr h.count)]
      unfold Durable.moveUnsent
      rw [hnone]
      exact ⟨[], [], rfl, h, by rw [List.append_nil]; exact hpend, rfl⟩
    | cons l ls =>
      obtain ⟨hne, hlt⟩ := hlines l List.mem_cons_self
      obtain ⟨hpeek, hdrop, hconf'⟩ := h.unsent hconf
      obtain ⟨htrue, hfalse⟩ := hpend.append (castLine l)
      unfold Durable.moveUnsent
      rw [hpeek]
      dsimp only
      cases hok : (d.wal.tryAppend (castLine l)).2 with
      | false =>
        rw [if_pos rfl]
        exact ⟨[], l :: ls, rfl, h, by rw [List.append_nil]; exact (hfalse hok).1, rfl⟩
      | true =>
        rw [if_neg (by decide)]
        have hstored := htrue hok
        rw [castLine_of_lt hlt, if_neg hne] at hstored
        obtain ⟨moved, lost, hls, hholds, hwal, hconns⟩ := ih
          (d := { d with
            wal := (d.wal.tryAppend (castLine l)).1
            line := { d.line with sender := d.line.sender.dropUnsent }
            spilled := d.spilled + 1 })
          hdrop hconf' hstored (fun l' hl' => hlines l' (List.mem_cons_of_mem _ hl'))
          (Nat.le_of_succ_le_succ hfuel)
        refine ⟨l :: moved, lost, by rw [hls]; rfl, hholds, ?_, hconns⟩
        rw [List.append_assoc] at hwal
        exact hwal

end Move

/-! ## What a sender takes -/

theorem enqueue_configured (w : World) (now : ℕ) (line : Option Bytes) :
    (w.enqueue now line).1.sender.configured = w.sender.configured := by
  unfold World.enqueue
  by_cases hconf : w.sender.configured = false
  · rw [if_pos hconf]
  rw [if_neg hconf]
  by_cases hvalid : validLine line = false
  · rw [if_pos hvalid]
  rw [if_neg hvalid]
  dsimp only
  split_ifs
  · unfold World.logDrop
    dsimp only
    split_ifs <;> rfl
  all_goals rfl

theorem flushLoop_keeps (limit : ℕ) (rounds : List (Answers × ℕ)) (w : World) : Keeps w
    (w.flushLoop limit rounds).1 := by
  induction rounds generalizing w with
  | nil => exact Keeps.refl w
  | cons round rounds ih =>
    obtain ⟨a, now⟩ := round
    have hnext := pump_keeps w a
    rw [World.flushLoop]
    split_ifs
    · exact hnext
    · exact hnext
    · exact hnext.trans (ih _)

/-- the result of the loop of `Flush` says whether the queue is empty -/
theorem flushLoop_result {limit : ℕ} {rounds : List (Answers × ℕ)} {w : World} {ok : Bool}
    (h : (w.flushLoop limit rounds).2 = some ok) : ok = true ↔ (w.flushLoop limit rounds).1.sender.lines = 0 := by
  induction rounds generalizing w with
  | nil => cases h
  | cons round rounds ih =>
    obtain ⟨a, now⟩ := round
    rw [World.flushLoop] at h ⊢
    split_ifs at h ⊢ with hempty hlate
    · cases h
      exact ⟨fun _ => hempty, fun _ => rfl⟩
    · cases h
      exact ⟨(fun hf => by cases hf), fun hf => absurd hf hempty⟩
    · exact ih h

namespace Durable

variable {d : Durable} {P : Bytes → Prop}

/-- every line which was taken is valid, and one of those which were offered -/
structure Fit (P : Bytes → Prop) (d : Durable) : Prop where
  configured : d.line.sender.configured = true
  taken : ∀ l ∈ d.taken, validLine (some l) = true ∧ P l

theorem Fit.of_line (h : Fit P d) {d' : Durable} (hline : d'.line.sender.configured = d.line.sender.configured)
    (htaken : d'.taken = d.taken) : Fit P d' :=
  ⟨hline.trans h.configured, fun l hl => h.taken l (htaken ▸ hl)⟩

theorem Fit.sendLine (h : Fit P d) (now : ℕ) (line : Option Bytes) : Fit P (d.sendLine now line).1 ∧
    ((d.sendLine now line).2 = true → validLine line = true) := by
  refine ⟨h.of_line ?_ (sendLine_taken now line), ?_⟩
  · unfold Durable.sendLine Durable.spill
    split_ifs
    · exact enqueue_configured _ _ _
    · dsimp only
      split_ifs <;> rfl
    · rfl
    · exact enqueue_configured _ _ _
  · unfold Durable.sendLine
    split_ifs with hwal hfast
    · exact fun _ => hwal.2
    · exact fun _ => hwal.2
    · exact fun hok => ((enqueue_spec (w := d.line) now line).1 hok).1

theorem Fit.moveLines (h : Fit P d) (lim : Limits) (budget : ℕ) : Fit P (Durable.moveLines lim budget d).1 := by
  induction budget generalizing d with
  | zero => exact h
  | succ budget ih =>
    unfold Durable.moveLines
    split_ifs with hlow
    · dsimp only
      cases d.wal.tryPeek.2 with
      | none => exact h.of_line rfl rfl
      | some record =>
        dsimp only
        split_ifs
        · exact h.of_line rfl rfl
        · exact h.of_line rfl rfl
        · exact ih (h.of_line (enqueue_configured _ _ _) rfl)
    · exact h

theorem Fit.drainLoop (h : Fit P d) (lim : Limits) (answers : ℕ → Answers) (fuel budget : ℕ) :
    Fit P (Durable.drainLoop lim answers fuel budget d) := by
  induction fuel generalizing d budget with
  | zero => exact h
  | succ fuel ih =>
    unfold Durable.drainLoop
    split_ifs
    · have hpumped : Fit P { (Durable.moveLines lim budget d).1 with
          line := (Durable.moveLines lim budget d).1.line.pump (answers fuel) } :=
        (h.moveLines lim budget).of_line (pump_keeps _ _).configured rfl
      dsimp only
      split_ifs
      · exact hpumped
      · exact ih hpumped _
    · exact h

theorem Fit.step (h : Fit P d) (lim : Limits) {op : Op} (hop : ∀ now line, op = .send now line → P (line.getD [])) :
    Fit P (d.step lim op) := by
  cases op with
  | send now line =>
    obtain ⟨hfit, hvalid⟩ := h.sendLine now line
    show Fit P (d.send now line).1
    unfold Durable.send
    dsimp only
    split_ifs with hok
    · refine ⟨hfit.configured, fun l hl => ?_⟩
      rcases List.mem_append.1 hl with hl | hl
      · exact hfit.taken l hl
      · rw [List.mem_singleton.1 hl]
        refine ⟨?_, hop now line rfl⟩
        cases line with
        | none => exact nomatch hvalid hok
        | some line => exact hvalid hok
    · exact hfit
  | pump a answers =>
    have hpumped : Fit P { d with line := d.line.pump a } := h.of_line (pump_keeps d.line a).configured rfl
    show Fit P (d.pump lim a answers)
    unfold Durable.pump Durable.drain
    dsimp only
    split_ifs
    · exact hpumped
    · exact hpumped.drainLoop lim answers _ _
    · exact hpumped

theorem Fit.run (h : Fit P d) (lim : Limits) {ops : List Op}
    (hops : ∀ now line, .send now line ∈ ops → P (line.getD [])) : Fit P (d.run lim ops) := by
  induction ops generalizing d with
  | nil => exact h
  | cons op ops ih =>
    apply ih
    · exact h.step lim fun now line heq => hops now line (heq ▸ List.mem_cons_self)
    · exact fun now line hmem => hops now line (List.mem_cons_of_mem _ hmem)

/-! ## The history of an earlier sender -/

/-- the lines `ts` were taken before -/
def behind (ts : List Bytes) (d : Durable) : Durable := { d with taken := ts ++ d.taken }

theorem moveLines_behind (ts : List Bytes) (lim : Limits) (budget : ℕ) (d : Durable) :
    Durable.moveLines lim budget (d.behind ts) =
      ((Durable.moveLines lim budget d).1.behind ts, (Durable.moveLines lim budget d).2) := by
  induction budget generalizing d with
  | zero => rfl
  | succ budget ih =>
    unfold Durable.moveLines
    by_cases hlow : d.line.sender.lines < lim.lowWater
    · have hlow' : (d.behind ts).line.sender.lines < lim.lowWater := hlow
      rw [if_pos hlow, if_pos hlow']
      have hwal : (d.behind ts).wal = d.wal := rfl
      rw [hwal]
      cases d.wal.tryPeek.2 with
      | none => rfl
      | some record =>
        dsimp only
        by_cases hroom : validLine (some record) = true ∧ d.line.sender.hasRoom record.length = false
        · have hroom' : validLine (some record) = true ∧
            (d.behind ts).line.sender.hasRoom record.length = false := hroom
          rw [if_pos hroom, if_pos hroom']
          rfl
        rw [if_neg hroom, if_neg (show ¬ (validLine (some record) = true ∧
          (d.behind ts).line.sender.hasRoom record.length = false) from hroom)]
        by_cases hack : d.wal.tryPeek.1.tryAck.2 = false
        · rw [if_pos hack, if_pos hack]
          rfl
        rw [if_neg hack, if_neg hack]
        exact ih { (({ d with wal := d.wal.tryPeek.1.tryAck.1 } : Durable).offer 0 (some record)).1 with
          drained := d.drained + 1 }
    · rw [if_neg hlow, if_neg (show ¬ (d.behind ts).line.sender.lines < lim.lowWater from hlow)]

theorem drainLoop_behind (ts : List Bytes) (lim : Limits) (answers : ℕ → Answers) (fuel budget : ℕ) (d : Durable) :
    Durable.drainLoop lim answers fuel budget (d.behind ts) =
      (Durable.drainLoop lim answers fuel budget d).behind ts := by
  induction fuel generalizing d budget with
  | zero => rfl
  | succ fuel ih =>
    unfold Durable.drainLoop
    rw [moveLines_behind]
    by_cases hbudget : 0 < budget
    · rw [if_pos hbudget, if_pos hbudget]
      generalize Durable.moveLines lim budget d = moved
      obtain ⟨d', left, ends⟩ := moved
      dsimp only
      by_cases hend : ends = true ∨ lim.lowWater ≤ (d'.line.pump (answers fuel)).sender.lines ∨
          (d'.line.pump (answers fuel)).sender.state ≠ .connected
      · rw [if_pos hend]
        exact if_pos hend
      · rw [if_neg hend]
        exact (if_neg hend).trans (ih left { d' with line := d'.line.pump (answers fuel) })
    · rw [if_neg hbudget, if_neg hbudget]

theorem spill_behind (ts : List Bytes) (d : Durable) (line : Bytes) :
    (d.behind ts).spill line = ((d.spill line).1.behind ts, (d.spill line).2) := by
  unfold Durable.spill
  by_cases hlen : line.length < 2 ^ 32
  · rw [dif_pos hlen, dif_pos hlen]
    by_cases hok : (d.wal.tryAppend ⟨line, hlen⟩).2 = true
    · dsimp only
      rw [if_pos hok]
      exact if_pos hok
    · dsimp only
      rw [if_neg hok]
      exact if_neg hok
  · rw [dif_neg hlen, dif_neg hlen]
    rfl

theorem sendLine_behind (ts : List Bytes) (d : Durable) (now : ℕ) (line : Option Bytes) :
    (d.behind ts).sendLine now line = ((d.sendLine now line).1.behind ts, (d.sendLine now line).2) := by
  unfold Durable.sendLine
  by_cases hwal : d.hasWal = true ∧ validLine line = true
  · have hwal' : (d.behind ts).hasWal = true ∧ validLine line = true := hwal
    rw [if_pos hwal, if_pos hwal']
    by_cases hfast : d.line.sender.state = .connected ∧ d.isReplayPending = false ∧
        d.line.sender.hasRoom (line.getD []).length = true
    · rw [if_pos hfast]
      exact if_pos hfast
    · rw [if_neg hfast]
      exact (if_neg hfast).trans (spill_behind ts d _)
  · rw [if_neg hwal]
    exact if_neg hwal

theorem step_behind (ts : List Bytes) (lim : Limits) (d : Durable) (op : Op) :
    (d.behind ts).step lim op = (d.step lim op).behind ts := by
  cases op with
  | send now line =>
    show ((d.behind ts).send now line).1 = ((d.send now line).1).behind ts
    unfold Durable.send
    rw [sendLine_behind]
    dsimp only
    by_cases hok : (d.sendLine now line).2 = true
    · rw [if_pos hok, if_pos hok]
      unfold Durable.behind
      dsimp only
      rw [List.append_assoc]
    · rw [if_neg hok, if_neg hok]
  | pump a answers =>
    show (d.behind ts).pump lim a answers = (d.pump lim a answers).behind ts
    have hdrain : ∀ d' : Durable, (d'.behind ts).drain lim answers = (d'.drain lim answers).behind ts := by
      intro d'
      unfold Durable.drain
      by_cases hstop : d'.line.sender.state ≠ .connected ∨ d'.isReplayPending = false
      · rw [if_pos hstop]
        exact if_pos hstop
      · rw [if_neg hstop]
        exact (if_neg hstop).trans (drainLoop_behind ts lim answers _ _ d')
    unfold Durable.pump
    by_cases hwal : d.hasWal = true
    · dsimp only
      rw [if_pos (show Durable.hasWal { d with line := d.line.pump a } = true from hwal)]
      exact (if_pos hwal).trans (hdrain { d with line := d.line.pump a })
    · dsimp only
      rw [if_neg (show ¬ Durable.hasWal { d with line := d.line.pump a } = true from hwal)]
      exact if_neg hwal

theorem run_behind (ts : List Bytes) (lim : Limits) (ops : List Op) (d : Durable) :
    (d.behind ts).run lim ops = (d.run lim ops).behind ts := by
  induction ops generalizing d with
  | nil => rfl
  | cons op ops ih =>
    calc (d.behind ts).run lim (op :: ops)
        = ((d.behind ts).step lim op).run lim ops := rfl
      _ = ((d.step lim op).behind ts).run lim ops := by rw [step_behind]
      _ = (d.run lim (op :: ops)).behind ts := ih _

end Durable

/-! ## Shutdown and restart -/

section Shutdown

variable {d : Durable} {old : List Bytes}

theorem Kept.inOrderWith (h : Kept d old) : d.taken = d.line.sentLines ++
    d.line.accepted.drop d.line.sender.sent ++ old := by
  rw [World.sentLines, h.line.done, List.take_append_drop]
  exact h.taken

/-- **`Flush`**: the lines which it cannot send are behind the records of the WAL, or they are lost. -/
theorem Kept.flush (h : Kept d old) (hfit : Durable.Fit (fun l => l.length < 2 ^ 32) d) (now timeoutMs : ℕ)
    (rounds : List (Answers × ℕ)) {ok : Bool} (hok : (d.flush now timeoutMs rounds).2 = some ok) :
    ∃ moved lost, Flushed d (d.line.flush now timeoutMs rounds).1 (d.flush now timeoutMs rounds).1 ok old moved lost ∧
      Wal.Pending (d.flush now timeoutMs rounds).1.wal (old ++ moved) := by
  have hkeeps : Keeps d.line (d.line.flush now timeoutMs rounds).1 := flushLoop_keeps _ _ _
  have hinv : Inv (d.line.flush now timeoutMs rounds).1 := flush_inv h.line _ _
  have hresult : ∀ b, (d.line.flush now timeoutMs rounds).2 = some b →
      (b = true ↔ (d.line.flush now timeoutMs rounds).1.sender.lines = 0) := fun b hb => flushLoop_result hb
  unfold Durable.flush at hok ⊢
  dsimp only at hok ⊢
  -- the socket sender when it gives up
  generalize d.line.flush now timeoutMs rounds = r at hkeeps hinv hresult hok ⊢
  obtain ⟨w, result⟩ := r
  dsimp only at hkeeps hinv hresult hok ⊢
  have hsent : Kept { d with line := w } old :=
    ⟨hinv, h.pending, by rw [h.taken]; exact congrArg (· ++ old) hkeeps.accepted.symm, h.valid⟩
  have horder : d.taken = w.sentLines ++ w.accepted.drop w.sender.sent ++ old := hsent.inOrderWith
  have hunsent : Holds w.sender (w.accepted.drop w.sender.sent) := hinv.queue
  have honce : ∀ moved lost, w.accepted.drop w.sender.sent = moved ++ lost →
      d.taken.Perm (w.sentLines ++ (old ++ moved) ++ lost) := by
    intro moved lost hsplit
    have hleft : w.sentLines ++ (moved ++ lost) ++ old = w.sentLines ++ ((moved ++ lost) ++ old) :=
      List.append_assoc _ _ _
    have hright : w.sentLines ++ (old ++ moved) ++ lost = w.sentLines ++ (old ++ (moved ++ lost)) := by
      rw [List.append_assoc, List.append_assoc]
    rw [horder, hsplit, hleft, hright]
    exact List.Perm.append_left _ List.perm_append_comm
  cases result with
  | none => exact nomatch hok
  | some b =>
    have hb := hresult b rfl
    cases b with
    | true =>
      cases hok
      have hnil : w.accepted.drop w.sender.sent = [] := by
        have hlines := hb.1 rfl
        rw [hunsent.count] at hlines
        exact List.length_eq_zero_iff.1 hlines
      rw [hnil] at hunsent horder
      refine ⟨[], [], ⟨h.pending.stored, hunsent.queued, horder, honce [] [] hnil, ?_, hunsent.queued, hunsent.count,
        fun _ => rfl, fun _ => rfl⟩, ?_⟩
      · rw [List.append_nil]
        exact h.pending.stored
      · rw [List.append_nil]
        exact h.pending
    | false =>
      have hwal : Durable.hasWal { d with line := w } = true := h.hasWal
      dsimp only at hok ⊢
      rw [if_pos hwal] at hok ⊢
      have hconf : w.sender.configured = true := hkeeps.configured.trans hfit.configured
      have hlines : ∀ l ∈ w.accepted.drop w.sender.sent, l ≠ [] ∧ l.length < 2 ^ 32 := by
        intro l hl
        have hmem : l ∈ d.taken := by
          rw [horder]
          exact List.mem_append_left _ (List.mem_append_right _ hl)
        obtain ⟨hvalid, hlt⟩ := hfit.taken l hmem
        exact ⟨(validLine_some.1 hvalid).1, hlt⟩
      have hfuel : (w.accepted.drop w.sender.sent).length ≤ w.sender.lines := hunsent.count.ge
      obtain ⟨moved, lost, hsplit, hholds, hpend, hconns⟩ := Holds.moveUnsent (d := { d with line := w }) hunsent hconf
        h.pending hlines hfuel
      have hsent' : (Durable.moveUnsent w.sender.lines { d with line := w }).line.sentLines = w.sentLines :=
        congrArg (·.flatMap (lines nl)) hconns
      refine ⟨moved, lost, ⟨h.pending.stored, hsplit ▸ hunsent.queued, hsplit ▸ horder, ?_, hpend.stored, hholds.queued,
        hholds.count, ?_⟩, hpend⟩
      · rw [hsent']
        exact honce moved lost hsplit
      · have hzero : ok = ((Durable.moveUnsent w.sender.lines { d with line := w }).line.sender.lines == 0) :=
          (Option.some.inj hok).symm
        rw [hzero, beq_iff_eq, hholds.count]
        exact List.length_eq_zero_iff

/-- **The next sender** takes over the records of the WAL, in their order and once each. -/
theorem TakesOver.configured {wal : Wal.World} {ls : List Bytes} (h : Wal.Pending wal ls)
    (hvalid : ∀ l ∈ ls, validLine (some l) = true) (maxLines : ℕ) (buffer : Bytes) (now walMaxBytes : ℕ) (lim : Limits)
    (ops : List Durable.Op) : TakesOver ls
      ((Durable.configured (wal.step (Wal.Action.quiet .close)) maxLines buffer now walMaxBytes).run lim ops) := by
  have hkept : Kept ((Durable.configured
    (wal.step (Wal.Action.quiet .close)) maxLines buffer now walMaxBytes).behind ls) ls :=
    ⟨inv_ready maxLines buffer now, h.reopen walMaxBytes, List.append_nil ls, hvalid⟩
  obtain ⟨waiting, hrun⟩ := hkept.run lim ops
  rw [Durable.run_behind] at hrun
  exact ⟨_, waiting, hrun.inOrderWith, hrun.line.queue.queued, hrun.pending.stored⟩

/-- **A shutdown and the next start lose no line and double none.** When `Flush` returned true, every line which was
taken was sent, or it waits in the WAL, behind what waited there before. When it returned false, the lines which are
missing are still counted as queued. -/
theorem shutdown_keeps_all (maxLines : ℕ) (buffer : Bytes) (now walMaxBytes : ℕ) (lim : Limits) (ops : List Durable.Op)
    (hshort : ∀ t line, Durable.Op.send t line ∈ ops → (line.getD []).length < 2 ^ 32) (flushNow timeoutMs : ℕ)
    (rounds : List (Answers × ℕ)) (ok : Bool)
    (hok : (((Durable.ready maxLines buffer now walMaxBytes).run lim ops).flush flushNow timeoutMs rounds).2 =
      some ok) :
    ∃ old moved lost,
      Flushed ((Durable.ready maxLines buffer now walMaxBytes).run lim ops)
        (((Durable.ready maxLines buffer now walMaxBytes).run lim ops).line.flush flushNow timeoutMs rounds).1
        (((Durable.ready maxLines buffer now walMaxBytes).run lim ops).flush flushNow timeoutMs rounds).1
        ok old moved lost ∧
      ∀ (maxLines' : ℕ) (buffer' : Bytes) (now' walMaxBytes' : ℕ) (lim' : Limits) (ops' : List Durable.Op),
        TakesOver (old ++ moved) ((Durable.configured
          (((Durable.ready maxLines buffer now walMaxBytes).run lim ops).flush flushNow timeoutMs rounds).1.close.wal
          maxLines' buffer' now' walMaxBytes').run lim' ops') := by
  obtain ⟨old, hkept⟩ := (kept_ready maxLines buffer now walMaxBytes).run lim ops
  have hfit : Durable.Fit (fun l => l.length < 2 ^ 32) ((Durable.ready maxLines buffer now walMaxBytes).run lim ops) :=
    Durable.Fit.run ⟨rfl, fun _ hl => absurd hl List.not_mem_nil⟩ lim hshort
  obtain ⟨moved, lost, hflushed, hpend⟩ := hkept.flush hfit flushNow timeoutMs rounds hok
  refine ⟨old, moved, lost, hflushed, fun maxLines' buffer' now' walMaxBytes' lim' ops' => ?_⟩
  apply TakesOver.configured hpend
  intro l hl
  refine (hfit.taken l ?_).1
  rw [hflushed.order]
  rcases List.mem_append.1 hl with hl | hl
  · exact List.mem_append_right _ hl
  · exact List.mem_append_left _ (List.mem_append_right _ (List.mem_append_left _ hl))

/-- a line goes to the WAL and from there to the queue, another one goes to the queue -/
def shutdownOps : List Durable.Op :=
  [.send 0 (some [97]), .pump { connect := .ok } fun _ => {}, .send 0 (some [98, 99])]

/-- the first line and the first byte of the second one are sent, and the second line goes to the WAL -/
theorem shutdown_keeps_all_partly :
    ((Durable.ready 10 (List.replicate 1024 0) 0 0).run {} shutdownOps).taken = [[97], [98, 99]] ∧
    (((Durable.ready 10 (List.replicate 1024 0) 0 0).run {} shutdownOps).flush 0 50
      [({ send := [.took 3] }, 100)]).1.line.conns = [[97, 10, 98]] ∧
    ∃ old moved lost,
      Flushed ((Durable.ready 10 (List.replicate 1024 0) 0 0).run {} shutdownOps)
        (((Durable.ready 10 (List.replicate 1024 0) 0 0).run {} shutdownOps).line.flush 0 50
          [({ send := [.took 3] }, 100)]).1
        (((Durable.ready 10 (List.replicate 1024 0) 0 0).run {} shutdownOps).flush 0 50
          [({ send := [.took 3] }, 100)]).1 true old moved lost ∧
      ∀ (maxLines' : ℕ) (buffer' : Bytes) (now' walMaxBytes' : ℕ) (lim' : Limits) (ops' : List Durable.Op),
        TakesOver (old ++ moved) ((Durable.configured
          (((Durable.ready 10 (List.replicate 1024 0) 0 0).run {} shutdownOps).flush 0 50
            [({ send := [.took 3] }, 100)]).1.close.wal maxLines' buffer' now' walMaxBytes').run lim' ops') := by
  refine ⟨by decide +kernel, by decide +kernel,
    shutdown_keeps_all 10 (List.replicate 1024 0) 0 0 {} shutdownOps (fun t line hmem => ?_) 0 50
      [({ send := [.took 3] }, 100)] true (by decide +kernel)⟩
  simp only [shutdownOps, List.mem_cons, List.not_mem_nil, or_false, Durable.Op.send.injEq, reduceCtorEq,
    false_or] at hmem
  rcases hmem with ⟨-, rfl⟩ | ⟨-, rfl⟩ <;> decide

end Shutdown

end DominoLogForwarder.Domfwd
