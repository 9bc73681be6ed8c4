/-
Delivery when no system call fails: what is accepted, in which order, and what stays in the WAL.

- `fifo_exactly_once`: without `Clear`, the accepted records are a prefix of the appended ones, over restarts too.
- `intact_of_position_fits`: with any content of the commit file, nothing is lost or misread, as long as no replay and
  no peek starts while the file holds a position that was found wrong.
- `intact_of_stale_ends`: with `Clear` in between, the same holds as long as a replay which was running then reads from
  offset 0 or from behind the end of the WAL, and does not store its position.
`misplaced_position_loses` and `cleared_under_replay_loses` are runs which break the last two conditions.
-/
import DominoLogForwarder.Wal.StepInv

namespace DominoLogForwarder.Wal

open CrashProg Framing FramedLog History

/-! ## Quiet steps -/

/-- no system call fails in this step, no process is killed, and no consumer throws -/
structure Step.Quiet (st : Step) : Prop where
  calls : ∀ c, st.oracle c = []
  alive : st.crashIn = none
  kill : st.action ≠ .kill
  throw : st.action ≠ .consume .throw

/-- a step in which nothing fails -/
def Action.quiet (a : Action) : Step := { action := a }

theorem Action.quiet_quiet {a : Action} (hk : a ≠ .kill) (ht : a ≠ .consume .throw) : a.quiet.Quiet :=
  ⟨fun _ => rfl, rfl, hk, ht⟩

theorem quiet_of_actions {as : List Action} (hk : .kill ∉ as) (ht : .consume .throw ∉ as) :
    ∀ st ∈ as.map Action.quiet, st.Quiet := by
  intro st hst
  obtain ⟨a, ha, rfl⟩ := List.mem_map.1 hst
  exact Action.quiet_quiet (fun h => hk (h ▸ ha)) fun h => ht (h ▸ ha)

theorem no_clear_of_actions {as : List Action} (hc : .clear ∉ as) : ∀ st ∈ as.map Action.quiet, st.action ≠ .clear := by
  intro st hst h
  obtain ⟨a, ha, rfl⟩ := List.mem_map.1 hst
  have h' : a = .clear := h
  exact hc (h' ▸ ha)

def quietMode (found : Option (Bytes × ℕ)) : Mode := { quiet := True, torn := False, found := found }

section Quiet

variable {w : World} {st : Step} {found : Option (Bytes × ℕ)}

/-- what is left to show for a quiet step -/
theorem Step.Quiet.allowed (hq : st.Quiet)
    (hpos : st.action = .replayStart ∨ st.action = .peek → ∀ bs v, found = some (bs, v) →
      ∀ o, w.wal = some o → PositionFits w bs v o)
    (hread : ∀ v g, st.action = .replayRead → w.replay = some ⟨v, .reading, g⟩ → g ≠ w.gen →
      v.newOffset = 0 ∨ w.files.walBytes.length < v.newOffset)
    (hend : ∀ v g, st.action = .replayEnd → w.replay = some ⟨v, .ending, g⟩ → g ≠ w.gen →
      v.cleared = true ∨ v.changed = true ∨ v.didReplay = false) : Allowed (quietMode found) w st where
  fstat := hq.calls _
  rewind := hq.calls _
  openWal := hq.calls _
  preadLen := fun n => by rw [hq.calls]; exact List.not_mem_nil
  quiet := fun _ => ⟨hq.calls, hq.alive, hq.kill, hq.throw⟩
  append := fun _ _ => ⟨fun h => h.elim, fun _ => ⟨hq.calls _, hq.alive⟩⟩
  clear := fun _ => trivial
  position := hpos
  reading := hread
  ending := hend

end Quiet

/-! ## Generations -/

theorem call_gen {α : Type} {w : World} {st : Step} {o : SimpleWal} {f : WalM α} {cut : List Event}
    {next : World → α → World} (h : ∀ w' a, w'.gen = w.gen → (next w' a).gen = w.gen) :
    (w.call st o f cut next).gen = w.gen := by
  unfold World.call
  cases f (w.sys o st) with
  | done a s => exact h _ _ rfl
  | crash s => rfl

/-- only `Clear` begins a new generation -/
theorem step_gen {w : World} {st : Step} (h : st.action ≠ .clear) : (w.step st).gen = w.gen := by
  unfold World.step
  cases hact : st.action with
  | start maxSize =>
    dsimp only [World.start]
    cases w.wal with
    | none => exact call_gen fun _ _ h => h
    | some o => rfl
  | close =>
    dsimp only [World.close]
    split
    · exact call_gen fun _ _ h => h
    · rfl
  | kill => dsimp only; cases w.wal <;> rfl
  | setMaxSize bytes =>
    dsimp only [World.setting]
    cases w.wal with
    | none => rfl
    | some o => exact call_gen fun _ _ h => h
  | setLogLevel level =>
    dsimp only [World.setting]
    cases w.wal with
    | none => rfl
    | some o => exact call_gen fun _ _ h => h
  | append data =>
    dsimp only [World.append]
    cases w.wal with
    | none => rfl
    | some o => exact call_gen fun _ _ h => h
  | replayStart =>
    dsimp only [World.replayStart]
    cases w.wal with
    | none => rfl
    | some o => exact call_gen fun _ r h => by cases r <;> exact h
  | replayRead =>
    dsimp only [World.replayRead]
    split
    · refine call_gen fun _ r h => ?_
      obtain ⟨v, b⟩ := r
      cases b <;> exact h
    · rfl
  | consume answer =>
    dsimp only [World.consume]
    split
    · cases answer with
      | accept => rfl
      | refuse => rfl
      | throw => exact call_gen fun _ _ h => h
    · rfl
  | replayEnd =>
    dsimp only [World.replayEnd]
    split
    · exact call_gen fun _ _ h => h
    · rfl
  | peek =>
    dsimp only [World.peek]
    cases w.wal with
    | none => rfl
    | some o => exact call_gen fun _ r h => by cases r <;> exact h
  | ack =>
    dsimp only [World.ack]
    cases w.wal with
    | none => rfl
    | some o => exact call_gen fun _ _ h => h
  | clear => exact absurd hact h

/-! ## First in, first out, exactly once -/

theorem ok_new (m : Mode) : Ok m World.new := by
  refine ⟨{}, [], ?_⟩
  constructor
  · exact ⟨parses_nil (by decide), CursorLog.valid_new⟩
  · exact Or.inl rfl
  · exact Or.inl rfl
  · exact fun _ => CursorLog.exact_new
  · exact ⟨rfl, rfl, (fun e he => nomatch he), each_nil⟩
  · exact fun o ho => nomatch ho
  · exact fun _ => ⟨rfl, rfl⟩
  · exact fun p hp => nomatch hp
  · exact fun _ => rfl
  · exact fun _ r hr => nomatch hr
  · rintro _ (hs | hs) <;> cases hs

/-- a replay or a peek which starts now is not misled by the position that was found with the WAL file -/
def StartFits (found : Option (Bytes × ℕ)) (w : World) (st : Step) : Prop :=
  st.action = .replayStart ∨ st.action = .peek → ∀ bs v, found = some (bs, v) →
    ∀ o, w.wal = some o → PositionFits w bs v o

/-- the invariant of a run in which `Clear` is not called -/
def Calm (m : Mode) (w : World) : Prop := Ok m w ∧ w.gen = 0

theorem Calm.same_gen {m : Mode} {w : World} (h : Calm m w) {p : Replaying}
    (hp : w.replay = some p) : p.gen = w.gen := by
  obtain ⟨⟨c, t, hinv⟩, hg⟩ := h
  have := (hinv.replay p hp).gen_le
  omega

/-- the cursor log counts what the history lists -/
theorem Inv.lists {m : Mode} {w : World} {c : CursorLog Bytes} {t : Bytes} (h : Inv m w c t) (hg : w.gen = 0) :
    c.appended = appendedOf w.trace ∧ c.accepted = acceptedOf w.trace := by
  have hup : UpTo 0 w.trace := hg ▸ h.trace.upTo
  constructor
  · rw [h.trace.live, hg, hup.appendedIn_zero]
  · rw [h.trace.hist, hg, hup.acceptedIn_zero]

theorem calm_step {found : Option (Bytes × ℕ)} {w : World} {st : Step} (h : Calm (quietMode found) w)
    (hq : st.Quiet) (hc : st.action ≠ .clear) (hst : StartFits found w st) : Calm (quietMode found) (w.step st) := by
  refine ⟨step_ok h.1 (hq.allowed hst (fun v g _ hp hg => ?_) fun v g _ hp hg => ?_), ?_⟩
  · exact absurd (h.same_gen hp) hg
  · exact absurd (h.same_gen hp) hg
  · rw [step_gen hc]; exact h.2

theorem calm_run {found : Option (Bytes × ℕ)} {w : World} {sts : List Step} (h : Calm (quietMode found) w)
    (hq : ∀ st ∈ sts, st.Quiet) (hc : ∀ st ∈ sts, st.action ≠ .clear)
    (hst : Guarded World.step (StartFits found) w sts) : Calm (quietMode found) (w.run sts) := by
  have hall : Guarded World.step (fun _ st => st.Quiet ∧ st.action ≠ .clear) w sts :=
    guarded_of_forall (fun _ _ h => h) sts w fun st hm => ⟨hq st hm, hc st hm⟩
  exact (hall.and hst).inv (fun _ _ hG hI => calm_step hI hG.1.1 hG.1.2 hG.2) h

/-- **SimpleWAL delivers first in, first out, and exactly once.** At every moment the accepted records are the first of
the appended ones, in order, and `IsReplayPending` is false only when all of them were accepted. -/
theorem fifo_exactly_once (sts : List Step) (hq : ∀ st ∈ sts, st.Quiet) (hc : ∀ st ∈ sts, st.action ≠ .clear) :
    acceptedOf (World.new.run sts).trace <+: appendedOf (World.new.run sts).trace ∧
      ((World.new.run sts).isReplayPending = some false →
        acceptedOf (World.new.run sts).trace = appendedOf (World.new.run sts).trace) := by
  have hrun : Calm (quietMode none) (World.new.run sts) := by
    refine calm_run ⟨ok_new _, rfl⟩ hq hc (guarded_of_forall (fun _ st (_ : True) => ?_) sts _ fun _ _ => trivial)
    exact fun _ bs v hf => nomatch hf
  generalize World.new.run sts = w at hrun
  obtain ⟨⟨c, t, h⟩, hg⟩ := hrun
  obtain ⟨happ, hacc⟩ := h.lists hg
  have hex := h.exact trivial
  rw [← happ, ← hacc]
  refine ⟨hex.in_order, fun hp => ?_⟩
  cases ho : w.wal with
  | none =>
    simp [World.isReplayPending, ho] at hp
  | some o =>
    have hpend : o.pendingReplay = false := by
      unfold World.isReplayPending at hp
      rw [ho] at hp
      exact Option.some.inj hp
    have hfront := h.disk.valid.front_of_base ((h.object o ho).pending hpend)
    rw [hex.all, hfront, List.take_length]

/-- two records, and a restart between them -/
def restartRun : List Step :=
  [.start, .append (.single 1), .append (.single 2), .peek, .ack, .close, .start, .peek, .ack].map Action.quiet

theorem fifo_exactly_once_restart :
    acceptedOf (World.new.run restartRun).trace = [[1], [2]] ∧
      acceptedOf (World.new.run restartRun).trace <+: appendedOf (World.new.run restartRun).trace := by
  exact ⟨by decide +kernel, (fifo_exactly_once restartRun (quiet_of_actions (by decide) (by decide))
    (no_clear_of_actions (by decide))).1⟩

/-! ## Nothing is lost or misread -/

/-- what was appended and not accepted is in the WAL file, and it is delivered next, in order and unchanged. This is
about the content since the last `Clear`. What was delivered before it was in order, too -/
structure Intact (w : World) : Prop where
  delivered : Each (fun pre e => ∀ g r, e = .delivered g r → acceptedIn g pre ++ [r] <+: appendedIn g pre) w.trace
  kept : ∃ kept rest, w.files.walBytes = encode lenSize (kept ++ rest) ∧
    acceptedIn w.gen w.trace ++ rest = appendedIn w.gen w.trace ∧ kept <:+ acceptedIn w.gen w.trace

/-- the position in the commit file is behind some of the accepted records of the WAL file -/
def Positioned (w : World) : Prop :=
  ∃ kept rest k, w.files.walBytes = encode lenSize (kept ++ rest) ∧
    acceptedIn w.gen w.trace ++ rest = appendedIn w.gen w.trace ∧ kept <:+ acceptedIn w.gen w.trace ∧
    w.files.commitValue = span lenSize (kept.take k)

section Intact

variable {w : World} {found : Option (Bytes × ℕ)}

/-- the accepted records in the file, and those behind them -/
theorem Inv.split {m : Mode} {c : CursorLog Bytes} {t : Bytes} (h : Inv m w c t) (hq : m.quiet) (ht : ¬ m.torn) :
    w.files.walBytes = encode lenSize ((c.appended.take c.front).drop c.base ++ c.appended.drop c.front) ∧
      acceptedIn w.gen w.trace ++ c.appended.drop c.front = appendedIn w.gen w.trace ∧
      (c.appended.take c.front).drop c.base <:+ acceptedIn w.gen w.trace := by
  have hv := h.disk.valid
  have hbf : c.base ≤ c.front := hv.base_mark.trans hv.mark_front
  have hall := (h.exact hq).all
  refine ⟨?_, ?_, ?_⟩
  · obtain rfl : t = [] := h.whole.resolve_right ht
    have hent : (c.appended.take c.front).drop c.base ++ c.appended.drop c.front = c.entries := by
      have hdrop : c.appended.drop c.front = c.entries.drop (c.front - c.base) := by
        rw [CursorLog.entries, List.drop_drop, Nat.add_sub_cancel' hbf]
      rw [hdrop, List.drop_take, CursorLog.entries, List.take_append_drop]
    rw [hent, h.disk.stored.split, List.append_nil]
  · rw [← h.trace.hist, ← h.trace.live, hall, List.take_append_drop]
  · rw [← h.trace.hist, hall]
    exact List.drop_suffix _ _

theorem Ok.intact (h : Ok (quietMode found) w) : Intact w := by
  obtain ⟨c, t, h⟩ := h
  refine ⟨h.trace.faithful.mono fun pre e hf g r he => (hf g r (Or.inl he)).2 trivial, ?_⟩
  exact ⟨_, _, h.split trivial id⟩

theorem Ok.positioned (h : Ok (quietMode none) w) : Positioned w := by
  obtain ⟨c, t, h⟩ := h
  have hv := h.disk.valid
  obtain ⟨h1, h2, h3⟩ := h.split trivial id
  refine ⟨_, _, c.mark - c.base, h1, h2, h3, ?_⟩
  have hm := h.marked_of_found rfl
  have hle : c.mark - c.base ≤ c.front - c.base := by
    have := hv.mark_front
    omega
  rw [List.drop_take, List.take_take, min_eq_left hle]
  exact hm

/-- nothing is pending if the WAL file is empty -/
theorem Intact.all_accepted (h : Intact w) (hnil : w.files.walBytes = []) :
    acceptedIn w.gen w.trace = appendedIn w.gen w.trace := by
  obtain ⟨kept, rest, hw, hall, -⟩ := h.kept
  have hrest : rest = [] := (List.append_eq_nil_iff.1 (encode_eq_nil (by decide) (hw.symm.trans hnil))).2
  rwa [hrest, List.append_nil] at hall

end Intact

/-! ## A position which was found wrong -/

/-- `j` of the records were accepted: those before the position, if it is the start of a record -/
def Accounts (rs : List Bytes) (position j : ℕ) : Prop :=
  j ≤ rs.length ∧ (position = span lenSize (rs.take j) ∨ j = 0 ∧ ¬ IsBoundary lenSize (encode lenSize rs) position)

/-- a WAL which was found on disk: `rs` are its records, and `j` of them count as accepted -/
def World.found (f : File) (commit corrupt : Option Bytes) (rs : List Bytes) (j : ℕ) : World where
  files := { wal := some f, commit := commit, corrupt := corrupt }
  trace := rs.map (.appended 0 · true) ++ (rs.take j).map (.accepted 0)

section Found

variable {f : File} {commit corrupt : Option Bytes} {rs : List Bytes} {j : ℕ}

theorem appendedIn_found (hfit : ∀ r ∈ rs, Fits lenSize r) (ts : List Bytes) :
    appendedIn 0 (rs.map (.appended 0 · true) ++ ts.map (.accepted 0)) = rs := by
  have h1 : appendedIn 0 (rs.map (.appended 0 · true)) = rs := by
    induction rs with
    | nil => rfl
    | cons r rs ih =>
      have hne : r ≠ [] := fun h0 => by
        have := (hfit r List.mem_cons_self).1
        rw [h0] at this
        exact lt_irrefl 0 this
      rw [List.map_cons, ← List.singleton_append, appendedIn_append, appendedIn_stored hne,
        ih fun r hr => hfit r (List.mem_cons_of_mem _ hr), List.singleton_append]
  have h2 : appendedIn 0 (ts.map (.accepted 0)) = [] := by
    refine List.filterMap_eq_nil_iff.2 fun e he => ?_
    obtain ⟨t, -, rfl⟩ := List.mem_map.1 he
    rfl
  rw [appendedIn_append, h1, h2, List.append_nil]

theorem acceptedIn_found (ts : List Bytes) :
    acceptedIn 0 (rs.map (.appended 0 · true) ++ ts.map (.accepted 0)) = ts := by
  have h1 : acceptedIn 0 (rs.map (.appended 0 · true)) = [] := by
    refine List.filterMap_eq_nil_iff.2 fun e he => ?_
    obtain ⟨t, -, rfl⟩ := List.mem_map.1 he
    rfl
  have h2 : acceptedIn 0 (ts.map (.accepted 0)) = ts := by
    induction ts with
    | nil => rfl
    | cons t ts ih =>
      rw [List.map_cons, ← List.singleton_append, acceptedIn_append, acceptedIn_accepted, ih, List.singleton_append]
  rw [acceptedIn_append, h1, h2, List.nil_append]

/-- the history which stands for a found WAL is one that can have happened -/
theorem faithful_found (m : Mode) (hfit : ∀ r ∈ rs, Fits lenSize r) (hj : j ≤ rs.length) :
    Each (Faithful m) (rs.map (.appended 0 · true) ++ (rs.take j).map (.accepted 0)) := by
  induction j with
  | zero =>
    intro pre e post heq g r he
    have hmem : e ∈ rs.map (Event.appended 0 · true) := by
      rw [List.take_zero, List.map_nil, List.append_nil] at heq
      rw [heq]
      exact List.mem_append_right _ List.mem_cons_self
    obtain ⟨t, -, rfl⟩ := List.mem_map.1 hmem
    rcases he with he | he <;> cases he
  | succ j ih =>
    have hlt : j < rs.length := hj
    have htake : (rs.take (j + 1)).map (Event.accepted 0) = (rs.take j).map (.accepted 0) ++ [.accepted 0 rs[j]] := by
      rw [List.take_succ_eq_append_getElem hlt, List.map_append, List.map_singleton]
    rw [htake, ← List.append_assoc]
    refine (ih hlt.le).concat (.accepted ?_)
    unfold Next
    rw [appendedIn_found hfit, acceptedIn_found]
    refine ⟨List.getElem_mem hlt, fun _ => ?_⟩
    rw [← List.take_succ_eq_append_getElem hlt]
    exact List.take_prefix _ _

theorem ok_found (hfit : ∀ r ∈ rs, Fits lenSize r) (hf : f.bytes = encode lenSize rs) {fs : Files}
    (hfs : fs = { wal := some f, commit := commit, corrupt := corrupt }) (hj : Accounts rs fs.commitValue j) :
    Ok (quietMode (some (f.bytes, fs.commitValue))) (World.found f commit corrupt rs j) := by
  obtain ⟨hjle, hpos⟩ := hj
  have happ : appendedIn 0 (World.found f commit corrupt rs j).trace = rs := appendedIn_found hfit _
  have hacc : acceptedIn 0 (World.found f commit corrupt rs j).trace = rs.take j := acceptedIn_found _
  subst hfs
  refine ⟨{ appended := rs, accepted := rs.take j, mark := j, front := j }, [], ?_⟩
  constructor
  · refine ⟨⟨?_, hfit, parseFrame_short (by decide)⟩, ?_⟩
    · rw [List.append_nil]
      exact hf
    · exact ⟨Nat.zero_le _, le_rfl, hjle, Nat.zero_le _, (fun i hi => nomatch hi), List.Sublist.refl _,
        fun i hi => nomatch hi⟩
  · rcases hpos with hpos | ⟨rfl, hpos⟩
    · exact Or.inl hpos
    · exact Or.inr ⟨trivial, ⟨_, rfl, by rw [hf]; exact hpos⟩, rfl, rfl, fun o ho => nomatch ho⟩
  · exact Or.inl rfl
  · exact fun _ => ⟨rfl, fun _ => rfl, fun i hi => nomatch hi⟩
  · refine ⟨happ.symm, hacc.symm, ?_, faithful_found _ hfit hjle⟩
    intro e he g hg
    rcases List.mem_append.1 he with he | he
    · obtain ⟨r, -, rfl⟩ := List.mem_map.1 he
      cases hg; exact le_rfl
    · obtain ⟨r, -, rfl⟩ := List.mem_map.1 he
      cases hg; exact le_rfl
  · exact fun o ho => nomatch ho
  · exact fun _ => ⟨rfl, rfl⟩
  · exact fun p hp => nomatch hp
  · exact fun _ => rfl
  · exact fun _ r hr => nomatch hr
  · intro _ hs
    exfalso
    have hlast : ∀ b, (World.found f commit corrupt rs j).trace.getLast? ≠ some (.replayed b) ∧
        (World.found f commit corrupt rs j).trace.getLast? ≠ some (.acked b) := by
      intro b
      refine ⟨fun hl => ?_, fun hl => ?_⟩ <;>
      · rcases List.mem_append.1 (List.mem_of_getLast? hl) with he | he <;>
        · obtain ⟨r, -, hr⟩ := List.mem_map.1 he
          cases hr
    exact hs.elim (hlast true).1 (hlast true).2

end Found

/-- **A damaged commit position costs no record unless it is used.** Whatever the commit file held when the WAL was
opened: if no replay and no peek starts while it holds a position which was found wrong, every record is delivered
whole and in order, and none is removed before it was accepted. -/
theorem intact_of_position_fits (rs : List Bytes) (hfit : ∀ r ∈ rs, Fits lenSize r) (f : File)
    (hf : f.bytes = encode lenSize rs) (commit corrupt : Option Bytes) (j : ℕ)
    (hj : Accounts rs (World.found f commit corrupt rs j).files.commitValue j) (sts : List Step)
    (hq : ∀ st ∈ sts, st.Quiet) (hc : ∀ st ∈ sts, st.action ≠ .clear)
    (hst : Guarded World.step (StartFits (some (f.bytes, (World.found f commit corrupt rs j).files.commitValue)))
      (World.found f commit corrupt rs j) sts) :
    Intact ((World.found f commit corrupt rs j).run sts) :=
  (calm_run ⟨ok_found hfit hf rfl hj, rfl⟩ hq hc hst).1.intact

/-- two records, and a position inside the first one -/
def damagedFile : File := ⟨encode lenSize [[7], [8]], by decide⟩

def damaged : World := World.found damagedFile (some (leBytes 8 4)) none [[7], [8]] 0

/-- the first replay finds out and starts at 0, its record is refused, and the second one uses the position -/
def damagedRun : List Step :=
  [.start, .replayStart, .replayRead, .consume .refuse, .replayEnd, .replayStart, .replayRead, .replayEnd].map
    Action.quiet

theorem damaged_not_start : ¬ IsBoundary lenSize (encode lenSize [[7], [8]]) 4 := by
  rw [(parses_encode (by decide) (by decide)).isBoundary_iff]
  decide

theorem misplaced_position_loses :
    Accounts [[7], [8]] damaged.files.commitValue 0 ∧ (∀ st ∈ damagedRun, st.Quiet) ∧
      ¬ Intact (damaged.run damagedRun) := by
  refine ⟨⟨by decide, Or.inr ⟨rfl, damaged_not_start⟩⟩, quiet_of_actions (by decide) (by decide), fun h => ?_⟩
  have hall := h.all_accepted (by decide +kernel)
  revert hall
  decide +kernel

/-- the same WAL with a consumer which accepts: the position is not used twice -/
def repairedRun : List Step :=
  [.start, .replayStart, .replayRead, .consume .accept, .replayRead, .consume .refuse, .replayEnd].map Action.quiet

theorem intact_of_position_fits_repaired : Intact (damaged.run repairedRun) := by
  have hplain : ∀ {w : World} {a : Action}, a ≠ .replayStart → a ≠ .peek →
      StartFits (some (damagedFile.bytes, damaged.files.commitValue)) w a.quiet :=
    fun h1 h2 h => absurd h (not_or.2 ⟨h1, h2⟩)
  refine intact_of_position_fits [[7], [8]] (by decide) damagedFile rfl (some (leBytes 8 4)) none 0
    ⟨by decide, Or.inr ⟨rfl, damaged_not_start⟩⟩ repairedRun (quiet_of_actions (by decide) (by decide))
    (no_clear_of_actions (by decide))
    ⟨hplain (by decide) (by decide), fun _ bs v hbs o ho => ?_, hplain (by decide) (by decide),
      hplain (by decide) (by decide), hplain (by decide) (by decide), hplain (by decide) (by decide),
      hplain (by decide) (by decide), trivial⟩
  -- not checked yet, and inside a record
  have hwal : (damaged.step (Action.quiet .start)).wal =
    some { fd := true, hasLock := true, pendingReplay := true } := by
    decide +kernel
  have hbytes : (damaged.step (Action.quiet .start)).files.walBytes = encode lenSize [[7], [8]] := by decide +kernel
  have hval : (damaged.step (Action.quiet .start)).files.commitValue = 4 := by decide +kernel
  obtain rfl := Option.some.inj (hwal.symm.trans ho)
  refine Or.inr (Or.inr (Or.inr ⟨rfl, ?_⟩))
  change ¬ IsBoundary lenSize (damaged.step (Action.quiet .start)).files.walBytes
    (damaged.step (Action.quiet .start)).files.commitValue
  rw [hbytes, hval]
  exact damaged_not_start

/-! ## Clear while a replay runs -/

/-- a replay which was running during a `Clear` goes on from offset 0 or notices that the WAL is shorter, and it does
not end by storing a position from before -/
def StaleEnds (w : World) (st : Step) : Prop :=
  ∀ p ∈ w.replay, p.gen ≠ w.gen →
    (st.action = .replayRead → p.place = .reading →
      p.vars.newOffset = 0 ∨ w.files.walBytes.length < p.vars.newOffset) ∧
    (st.action = .replayEnd → p.place = .ending →
      p.vars.cleared = true ∨ p.vars.changed = true ∨ p.vars.didReplay = false)

instance (w : World) (st : Step) : Decidable (StaleEnds w st) := by unfold StaleEnds; infer_instance

/-- **`Clear` is safe while a replay runs, as long as the replay notices it.** -/
theorem intact_of_stale_ends (sts : List Step) (hq : ∀ st ∈ sts, st.Quiet)
    (hst : Guarded World.step StaleEnds World.new sts) :
    Intact (World.new.run sts) ∧ Positioned (World.new.run sts) := by
  have hquiet : Guarded World.step (fun _ st => st.Quiet) World.new sts :=
    guarded_of_forall (fun _ _ h => h) sts _ hq
  have hrun : Ok (quietMode none) (World.new.run sts) := by
    refine run_ok (ok_new _) ((hquiet.and hst).mono fun w st h => ?_)
    refine h.1.allowed (fun _ _ _ hf => nomatch hf) (fun v g hact hp hg => ?_) fun v g hact hp hg => ?_
    · exact (h.2 _ hp hg).1 hact rfl
    · exact (h.2 _ hp hg).2 hact rfl
  exact ⟨hrun.intact, hrun.positioned⟩

/-- a record of the same length is appended behind a `Clear` which came while the consumer had the first one -/
def clearedRun : List Step :=
  [.start, .append (.single 1), .replayStart, .replayRead, .clear, .append (.single 2), .consume .accept,
    .replayRead, .replayEnd].map Action.quiet

theorem cleared_under_replay_loses : (∀ st ∈ clearedRun, st.Quiet) ∧ ¬ Intact (World.new.run clearedRun) := by
  refine ⟨quiet_of_actions (by decide) (by decide), fun h => ?_⟩
  have hall := h.all_accepted (by decide +kernel)
  revert hall
  decide +kernel

/-- a shorter record: the replay notices that the WAL changed -/
def noticedRun : List Step :=
  [.start, .append (.pair 1 1), .replayStart, .replayRead, .clear, .append (.single 2), .consume .accept,
    .replayRead, .replayEnd].map Action.quiet

theorem intact_of_stale_ends_noticed :
    Intact (World.new.run noticedRun) ∧ Positioned (World.new.run noticedRun) :=
  intact_of_stale_ends noticedRun (quiet_of_actions (by decide) (by decide)) (by decide +kernel)

end DominoLogForwarder.Wal
