/-
A WAL which one thread uses with `Append`, `Peek` and `Ack`, on a machine where no system call fails, is a queue:
`Pending w ls` says that it holds the records `ls`, oldest first, and the lemmas behind it say what each call does to
them. This is what a program that puts a WAL behind something else needs to know.
-/
import DominoLogForwarder.Wal.Recovery

namespace DominoLogForwarder.Wal

open CrashProg Framing FramedLog History

/-! ## Calls with their results -/

namespace World

variable (w : World)

/-- the result of a member function if nothing fails -/
def result {α : Type} (a : Action) (f : WalM α) : Option α :=
  match w.wal with
  | none => none
  | some o =>
    match f (w.sys o (Action.quiet a)) with
    | .done r _ => some r
    | .crash _ => none

def tryAppend (data : Payload) : World × Bool :=
  (w.step (Action.quiet (.append data)), w.result (.append data) (Wal.append data) == some true)

def tryPeek : World × Option Bytes := (w.step (Action.quiet .peek), (w.result .peek Wal.peek).getD none)

def tryAck : World × Bool := (w.step (Action.quiet .ack), w.result .ack Wal.ack == some true)

end World

/-! ## No call is interrupted -/

section Quiet

variable {s : Sys} {o : SimpleWal} {w : World}

theorem wp_clearInternal_quiet (hq : s.kern.crashIn = none) : wp clearInternal (fun _ _ => True) (fun _ => False) s :=
  wp_clearInternal (D := fun _ => False) (fun _ => trivial) (fun _ _ _ _ => trivial) (fun _ _ _ _ _ => trivial)
    (fun _ _ _ _ _ => trivial) (fun _ _ _ _ _ => trivial) fun hcr => absurd hq hcr

theorem wp_storeCommit_quiet {offset : ℕ} (hq : s.kern.crashIn = none) :
    wp (storeCommit offset) (fun _ _ => True) (fun _ => False) s :=
  wp_storeCommit (D := fun _ => False) (fun _ _ _ => trivial) (fun _ _ _ _ => trivial) (fun _ _ _ _ _ _ => trivial)
    fun hcr => absurd hq hcr

theorem wp_peek_quiet : wp Wal.peek (fun _ _ => True) (fun _ => False) (w.sys o (Action.quiet .peek)) := by
  refine wp_peek (D := fun _ => False) (fun _ _ _ _ _ _ _ => trivial) (fun _ _ _ _ _ _ _ _ _ _ _ _ => trivial)
    (fun _ _ _ _ _ fs _ l k hk => ?_) fun hcr _ => absurd rfl hcr
  exact wp_mono (wp_clearInternal_quiet (hk.alive rfl)) (fun _ _ _ _ => trivial) fun _ hf => hf

theorem wp_ack_quiet : wp Wal.ack (fun _ _ => True) (fun _ => False) (w.sys o (Action.quiet .ack)) := by
  refine wp_ack (D := fun _ => False) (fun _ _ _ _ => trivial) (fun _ _ _ _ _ l k hk => ?_) (fun _ _ _ _ _ l k hk => ?_)
    fun hcr => absurd rfl hcr
  · exact wp_mono (wp_clearInternal_quiet (hk.alive rfl)) (fun _ _ _ _ => trivial) fun _ hf => hf
  · exact wp_mono (wp_storeCommit_quiet (hk.alive rfl)) (fun _ _ _ _ => trivial) fun _ hf => hf

/-- an `Append` which returns false has changed no file -/
theorem wp_append_quiet (data : Payload) (hopen : o.fd = true → ∃ f, w.files.wal = some f) :
    wp (Wal.append data) (fun ok s => ok = false → s.files = w.files) (fun _ => False)
      (w.sys o (Action.quiet (.append data))) :=
  wp_append (D := fun _ => False) hopen (fun _ hf => nomatch hf) (fun _ _ _ _ _ _ _ _ hf => nomatch hf)
    (fun _ _ _ _ _ _ => rfl) (fun _ _ _ _ _ _ _ hno => absurd rfl hno) fun hcr => absurd rfl hcr

end Quiet

/-! ## The queue -/

/-- the WAL is open, no replay runs, and the records `ls` are not accepted yet -/
structure Pending (w : World) (ls : List Bytes) : Prop where
  calm : Calm (quietMode none) w
  opened : ∃ o, w.wal = some o
  idle : w.replay = none
  records : appendedOf w.trace = acceptedOf w.trace ++ ls

section Pending

variable {w : World} {ls : List Bytes}

theorem Pending.step (h : Pending w ls) {a : Action} (hq : a.quiet.Quiet) (hc : a ≠ .clear) :
    Calm (quietMode none) (w.step a.quiet) :=
  calm_step h.calm hq hc fun _ _ _ hf => nomatch hf

theorem Calm.in_order {w : World} (h : Calm (quietMode none) w) : acceptedOf w.trace <+: appendedOf w.trace := by
  obtain ⟨⟨c, t, h⟩, hg⟩ := h
  obtain ⟨happ, hacc⟩ := h.lists hg
  rw [← happ, ← hacc]
  exact (h.exact trivial).in_order

theorem Pending.append (h : Pending w ls) (data : Payload) :
    ((w.tryAppend data).2 = true → Pending (w.tryAppend data).1 (if data.bytes = [] then ls else ls ++ [data.bytes])) ∧
      ((w.tryAppend data).2 = false → Pending (w.tryAppend data).1 ls ∧ (w.tryAppend data).1.files = w.files) := by
  obtain ⟨o, ho⟩ := h.opened
  have hcalm := h.step (a := .append data) ⟨fun _ => rfl, rfl, by simp [Action.quiet], by simp [Action.quiet]⟩ (by simp)
  obtain ⟨⟨c, t, hinv⟩, -⟩ := h.calm
  obtain ⟨ok, s, hrun, hfiles⟩ := exists_of_wp (wp_append_quiet data fun _ => (hinv.object o ho).file)
  have hstep : w.step (Action.quiet (.append data)) = (w.after s).note [.appended w.gen data.bytes ok] := by
    show w.append _ data = _
    unfold World.append World.call
    rw [ho]
    dsimp only
    rw [hrun]
  have hresult : (w.tryAppend data).2 = ok := by
    unfold World.tryAppend World.result
    rw [ho]
    dsimp only
    rw [hrun]
    cases ok <;> rfl
  have hafter : (w.tryAppend data).1 = (w.after s).note [.appended w.gen data.bytes ok] := hstep
  have hpend : ∀ ls', appendedOf [.appended w.gen data.bytes ok] = ls' → Pending (w.tryAppend data).1 (ls ++ ls') := by
    intro ls' hls'
    refine ⟨hcalm, ⟨s.wal, ?_⟩, ?_, ?_⟩
    · rw [hafter]
      rfl
    · rw [hafter]
      exact h.idle
    · rw [hafter]
      show appendedOf (w.trace ++ _) = acceptedOf (w.trace ++ _) ++ _
      have hnone : acceptedOf [Event.appended w.gen data.bytes ok] = [] := rfl
      rw [appendedOf_append, acceptedOf_append, h.records, hls', hnone, List.append_nil, List.append_assoc]
  rw [hresult]
  refine ⟨fun hok => ?_, fun hok => ⟨?_, ?_⟩⟩
  · subst hok
    by_cases hnil : data.bytes = []
    · rw [if_pos hnil]
      have := hpend [] (by rw [hnil]; rfl)
      rwa [List.append_nil] at this
    · rw [if_neg hnil]
      exact hpend [data.bytes] (by simp [appendedOf, Event.appended?, hnil])
  · subst hok
    have := hpend [] rfl
    rwa [List.append_nil] at this
  · rw [hafter]
    exact hfiles hok

/-- a WAL which was just opened, and holds nothing -/
theorem pending_start (maxSize : ℕ) : Pending (World.new.step (Action.quiet (.start maxSize))) [] := by
  have hcalm : Calm (quietMode none) (World.new.step (Action.quiet (.start maxSize))) :=
    calm_step ⟨ok_new _, rfl⟩ ⟨fun _ => rfl, rfl, by simp [Action.quiet], by simp [Action.quiet]⟩
      (by simp [Action.quiet]) fun _ _ _ hf => nomatch hf
  obtain ⟨log, pending, hstart⟩ := step_start (w := World.new) rfl rfl maxSize
  refine ⟨hcalm, ⟨SimpleWal.opened { maxSize := maxSize } true true pending, ?_⟩, ?_, ?_⟩
  · rw [hstart]
  · rw [hstart]
    rfl
  · rw [hstart]
    rfl

/-- the object is destroyed -/
theorem Pending.closed (h : Pending w ls) : (w.step (Action.quiet .close)).wal = none ∧
    (w.step (Action.quiet .close)).files.locked = false ∧ (w.step (Action.quiet .close)).replay = none ∧
    (w.step (Action.quiet .close)).trace = w.trace ++ [.closed] := by
  obtain ⟨o, ho⟩ := h.opened
  have hclosed := h.step (a := .close) ⟨fun _ => rfl, rfl, by simp [Action.quiet], by simp [Action.quiet]⟩ (by simp)
  obtain ⟨⟨c, t, hinv⟩, -⟩ := h.calm
  have hstep : ∃ s, w.step (Action.quiet .close) = { (w.after s).note [.closed] with wal := none, held := none } := by
    obtain ⟨_, s, -, hcall⟩ : ∃ (_ : Unit) (s : Sys), True ∧
        (w.call (Action.quiet .close) o destroy [] fun w' _ => { w'.note [.closed] with wal := none, held := none }) =
          { (w.after s).note [.closed] with wal := none, held := none } :=
      call_quiet (wp_destroy (Q := fun _ _ => True) (D := fun _ => False) (hinv.object o ho).fd (fun _ _ _ => trivial)
        (fun _ _ _ _ _ _ _ => trivial) fun hcr => absurd rfl hcr)
    refine ⟨s, ?_⟩
    show w.close _ = _
    unfold World.close
    rw [ho, h.idle]
    exact hcall
  obtain ⟨s, hstep⟩ := hstep
  have hnone : (w.step (Action.quiet .close)).wal = none := by
    rw [hstep]
  refine ⟨hnone, ?_, ?_, ?_⟩
  · obtain ⟨⟨_, _, hinv'⟩, -⟩ := hclosed
    exact (hinv'.absent hnone).1
  · rw [hstep]
    exact h.idle
  · rw [hstep]
    rfl

/-- another object opens the files -/
theorem Pending.reopen (h : Pending w ls) (maxSize : ℕ) :
    Pending ((w.step (Action.quiet .close)).step (Action.quiet (.start maxSize))) ls := by
  have hclosed := h.step (a := .close) ⟨fun _ => rfl, rfl, by simp [Action.quiet], by simp [Action.quiet]⟩ (by simp)
  have hstarted : Calm (quietMode none) ((w.step (Action.quiet .close)).step (Action.quiet (.start maxSize))) :=
    calm_step hclosed ⟨fun _ => rfl, rfl, by simp [Action.quiet], by simp [Action.quiet]⟩
      (by simp [Action.quiet]) fun _ _ _ hf => nomatch hf
  obtain ⟨hnone, hfree, hidle, htrace⟩ := h.closed
  obtain ⟨log, pending, hstart⟩ := step_start hnone hfree maxSize
  refine ⟨hstarted, ⟨SimpleWal.opened { maxSize := maxSize } true true pending, ?_⟩, ?_, ?_⟩
  · rw [hstart]
  · rw [hstart]
    exact hidle
  · have hboth : ((w.step (Action.quiet .close)).step (Action.quiet (.start maxSize))).trace = w.trace ++
      [.closed, .started true] := by
      rw [hstart, htrace]
      exact List.append_assoc _ _ _
    have hplain : appendedOf [Event.closed, .started true] = [] ∧ acceptedOf [Event.closed, .started true] = [] :=
      ⟨rfl, rfl⟩
    rw [hboth, appendedOf_append, acceptedOf_append, hplain.1, hplain.2, List.append_nil, List.append_nil]
    exact h.records

/-- `Peek` takes nothing out. What it returns is what `Ack` accepts -/
theorem Pending.peek (h : Pending w ls) : Pending w.tryPeek.1 ls ∧ w.tryPeek.1.held = w.tryPeek.2 := by
  obtain ⟨o, ho⟩ := h.opened
  have hcalm := h.step (a := .peek) ⟨fun _ => rfl, rfl, by simp [Action.quiet], by simp [Action.quiet]⟩ (by simp)
  obtain ⟨r, s, hrun, -⟩ := exists_of_wp (wp_peek_quiet (w := w) (o := o))
  have hresult : w.tryPeek.2 = r := by
    unfold World.tryPeek World.result
    rw [ho]
    dsimp only
    rw [hrun]
    rfl
  have hafter : ∃ e, Plain e ∧ w.tryPeek.1 = { (w.after s).note [e] with held := r } := by
    show ∃ e, Plain e ∧ w.peek _ = _
    unfold World.peek World.call
    rw [ho]
    dsimp only
    rw [hrun]
    cases r with
    | none => exact ⟨.peekedNothing, ⟨rfl, rfl⟩, rfl⟩
    | some record => exact ⟨.delivered w.gen record, ⟨rfl, rfl⟩, rfl⟩
  obtain ⟨e, he, hafter⟩ := hafter
  refine ⟨⟨hcalm, ⟨s.wal, ?_⟩, ?_, ?_⟩, ?_⟩
  · rw [hafter]
    rfl
  · rw [hafter]
    exact h.idle
  · rw [hafter]
    show appendedOf (w.trace ++ [e]) = acceptedOf (w.trace ++ [e]) ++ ls
    have happ : appendedOf [e] = [] := by simp [appendedOf, he.appended]
    have hacc : acceptedOf [e] = [] := by simp [acceptedOf, he.accepted]
    rw [appendedOf_append, acceptedOf_append, happ, hacc, List.append_nil, List.append_nil]
    exact h.records
  · rw [hafter, hresult]

/-- `Ack` takes out the record of the last `Peek`, and it is the oldest one -/
theorem Pending.ack (h : Pending w ls) {r : Bytes} (hheld : w.held = some r) :
    (w.tryAck.2 = true → ∃ ls', ls = r :: ls' ∧ Pending w.tryAck.1 ls') ∧
    (w.tryAck.2 = false → Pending w.tryAck.1 ls) := by
  obtain ⟨o, ho⟩ := h.opened
  have hcalm := h.step (a := .ack) ⟨fun _ => rfl, rfl, by simp [Action.quiet], by simp [Action.quiet]⟩ (by simp)
  obtain ⟨ok, s, hrun, -⟩ := exists_of_wp (wp_ack_quiet (w := w) (o := o))
  have hresult : w.tryAck.2 = ok := by
    unfold World.tryAck World.result
    rw [ho]
    dsimp only
    rw [hrun]
    cases ok <;> rfl
  have hafter : w.tryAck.1 =
      { (w.after s).note (if ok then [.accepted w.gen r, .acked true] else [.acked false]) with held := none } := by
    show w.ack _ = _
    unfold World.ack World.call
    rw [ho]
    dsimp only
    rw [hrun]
    dsimp only
    rw [acceptHeld_some hheld]
    rfl
  have hopened : ∃ o, w.tryAck.1.wal = some o := ⟨s.wal, by rw [hafter]; rfl⟩
  have hidle : w.tryAck.1.replay = none := by
    rw [hafter]
    exact h.idle
  rw [hresult]
  refine ⟨fun hok => ?_, fun hok => ?_⟩
  · subst hok
    have hacc : acceptedOf w.tryAck.1.trace = acceptedOf w.trace ++ [r] := by
      rw [hafter]
      exact acceptedOf_append _ _
    have happ : appendedOf w.tryAck.1.trace = appendedOf w.trace := by
      rw [hafter]
      exact (appendedOf_append _ _).trans (List.append_nil _)
    have horder : acceptedOf w.tryAck.1.trace <+: appendedOf w.tryAck.1.trace := Calm.in_order hcalm
    rw [hacc, happ, h.records, List.prefix_append_right_inj] at horder
    obtain ⟨ls', hls'⟩ := horder
    refine ⟨ls', hls'.symm, hcalm, hopened, hidle, ?_⟩
    rw [hacc, happ, h.records, ← hls', List.append_assoc]
  · subst hok
    refine ⟨hcalm, hopened, hidle, ?_⟩
    rw [hafter]
    show appendedOf (w.trace ++ [.acked false]) = acceptedOf (w.trace ++ [.acked false]) ++ ls
    have hnone : appendedOf [Event.acked false] = [] ∧ acceptedOf [Event.acked false] = [] := ⟨rfl, rfl⟩
    rw [appendedOf_append, acceptedOf_append, hnone.1, hnone.2, List.append_nil, List.append_nil]
    exact h.records

/-- nothing is left if `IsReplayPending` says so -/
theorem Pending.empty (h : Pending w ls) (hp : w.isReplayPending ≠ some true) : ls = [] := by
  obtain ⟨o, ho⟩ := h.opened
  obtain ⟨⟨c, t, hinv⟩, hg⟩ := h.calm
  have hpend : o.pendingReplay = false := by
    cases hb : o.pendingReplay with
    | false => rfl
    | true =>
      refine absurd ?_ hp
      unfold World.isReplayPending
      rw [ho]
      exact congrArg some hb
  have hfront := hinv.disk.valid.front_of_base ((hinv.object o ho).pending hpend)
  obtain ⟨happ, hacc⟩ := hinv.lists hg
  have hrec := h.records
  rw [← happ, ← hacc, (hinv.exact trivial).all, hfront, List.take_length] at hrec
  simpa using hrec

/-- the records are in the WAL file, behind the position of the commit file -/
theorem Pending.stored (h : Pending w ls) : Parses lenSize (w.files.walBytes.drop w.files.commitValue) ls [] := by
  obtain ⟨⟨c, t, hinv⟩, hg⟩ := h.calm
  obtain ⟨happ, hacc⟩ := hinv.lists hg
  have hex := hinv.exact trivial
  have hmark : c.mark = c.front := hex.idle (hinv.idle h.idle)
  have hm := hinv.marked_of_found rfl
  have hnil : t = [] := hinv.whole.resolve_right id
  have hls : ls = c.entries.drop (c.mark - c.base) := by
    have hrec := h.records
    rw [← happ, ← hacc, hex.all] at hrec
    have hdrop : c.appended.drop c.front = ls := by
      have hsplit := (List.take_append_drop c.front c.appended).trans hrec
      exact List.append_cancel_left hsplit
    rw [← hdrop, CursorLog.entries, List.drop_drop, Nat.add_sub_cancel' hinv.disk.valid.base_mark, hmark]
  rw [hls, hm, ← hnil]
  exact parses_of_prefix hinv.disk.stored _

end Pending

end DominoLogForwarder.Wal
