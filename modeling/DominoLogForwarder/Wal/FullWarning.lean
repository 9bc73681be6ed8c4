/-
`Append`, for any size of the file and any limit: it stores the record as a whole or nothing of it, and it does not
fill the log with the message that the WAL is full.

`Object` is a `SimpleWAL` with its files and its log, and a call of a public function is a step (`Object.step`).
`FullView` is what the message depends on. `Quiet` is what most of the code does to it, `Calm` what the code does which
can empty the WAL: both are preorders, so the text of a function is enough (`Moves`). What is left are `Append`,
`SetMaxSize` and `Init`.
-/
import DominoLogForwarder.Lib.CrashView
import DominoLogForwarder.Wal.Spec

namespace DominoLogForwarder.Wal

open CrashProg Framing WalM

/-! ## Calls of an object -/

def Message.isFull : Message → Bool
  | .full _ _ _ => true
  | _ => false

/-- how often the log says that the WAL is full -/
def Log.fullWarnings (l : Log) : ℕ := (l.emitted ++ l.queue).countP Message.isFull

/-- an object which a process works with -/
structure Object where
  files : Files
  wal : SimpleWal
  log : Log := {}
deriving DecidableEq, Repr

/-- the WAL is open -/
def Object.Owned (o : Object) : Prop := o.wal.fd = true ∧ o.wal.hasLock = true ∧ o.files.wal.isSome

inductive ObjectCall where
  | init
  | setLogLevel (level : ℕ)
  | setMaxSize (bytes : ℕ)
  | isReplayPending
  | append (data : Payload)
  | replayStart
  | replayRead (v : ReplayVars)
  | replayEnd (v : ReplayVars)
  | replayThrow
  | peek
  | ack
  | clear
deriving DecidableEq, Repr

/-- the function. What it returns counts only for `Append` -/
def codeOf : ObjectCall → WalM Bool
  | .init => init
  | .setLogLevel level => do
    setLogLevel level
    pure true
  | .setMaxSize bytes => do
    setMaxSize bytes
    pure true
  | .isReplayPending => isReplayPending
  | .append data => append data
  | .replayStart => do
    let r ← replayStart
    pure r.isSome
  | .replayRead v => do
    let r ← replayRead v
    pure r.2.isSome
  | .replayEnd v => replayEnd v
  | .replayThrow => do
    replayThrow
    pure true
  | .peek => do
    let r ← peek
    pure r.isSome
  | .ack => ack
  | .clear => clear

/-- a call, and which system calls fail in it -/
structure Made where
  call : ObjectCall
  oracle : Oracle := fun _ => []

namespace Object

def sys (o : Object) (oracle : Oracle) : Sys := ⟨o.files, o.wal, o.log, ⟨oracle, none, .unset⟩⟩

/-- the process is not killed in a call -/
def make (o : Object) (m : Made) : Bool × Object :=
  match codeOf m.call (o.sys m.oracle) with
  | .done ok s => (ok, ⟨s.files, s.wal, s.log⟩)
  | .crash _ => (false, o)

def step (o : Object) (m : Made) : Object := (o.make m).2

def run (o : Object) (calls : List Made) : Object := calls.foldl step o

/-- `ClearInternal` emptied the WAL -/
def Emptied (o o' : Object) : Prop :=
  o.wal.positionEpoch < o'.wal.positionEpoch ∧ o'.wal.pendingReplay = false ∧ o'.files.walBytes = []

/-- a record was stored, the WAL was emptied, or the limit was set -/
def Relieves (o : Object) (m : Made) : Prop :=
  match m.call with
  | .append data => data.bytes ≠ [] ∧ (o.make m).1 = true
  | .setMaxSize _ => True
  | .replayRead _ | .peek | .ack | .clear => o.Emptied (o.step m)
  | _ => False

end Object

/-! ## What the message depends on -/

structure FullView where
  full : Bool
  warnings : ℕ
  epoch : ℕ
  pending : Bool
  bytes : Bytes

def Sys.fullView (s : Sys) : FullView :=
  ⟨s.wal.fullLogged, s.log.fullWarnings, s.wal.positionEpoch, s.wal.pendingReplay, s.files.walBytes⟩

/-- the WAL may be truncated, but nothing is counted as a change -/
structure FullView.Quiet (r r' : FullView) : Prop where
  full : r'.full = r.full
  warnings : r'.warnings = r.warnings
  epoch : r.epoch ≤ r'.epoch
  pending : r'.pending = r.pending
  bytes : r'.bytes = r.bytes ∨ r'.bytes = []

/-- `ClearInternal` emptied the WAL -/
structure FullView.Clears (r r' : FullView) : Prop where
  warnings : r'.warnings = r.warnings
  epoch : r.epoch < r'.epoch
  pending : r'.pending = false
  bytes : r'.bytes = []

def FullView.Calm (r r' : FullView) : Prop := r.Quiet r' ∨ r.Clears r'

theorem FullView.Quiet.trans {r r' r'' : FullView} (h : r.Quiet r') (h' : r'.Quiet r'') : r.Quiet r'' := by
  refine ⟨h'.full.trans h.full, h'.warnings.trans h.warnings, h.epoch.trans h'.epoch, h'.pending.trans h.pending, ?_⟩
  rcases h'.bytes with hb | hb
  · rw [hb]
    exact h.bytes
  · exact Or.inr hb

instance : IsPreorder FullView FullView.Quiet where
  refl _ := ⟨rfl, rfl, le_rfl, rfl, Or.inl rfl⟩
  trans _ _ _ := FullView.Quiet.trans

instance : IsPreorder FullView FullView.Calm where
  refl r := Or.inl (refl_of FullView.Quiet r)
  trans r r' r'' h h' := by
    rcases h with h | h <;> rcases h' with h' | h'
    · exact Or.inl (h.trans h')
    · exact Or.inr ⟨h'.warnings.trans h.warnings, h.epoch.trans_lt h'.epoch, h'.pending, h'.bytes⟩
    · refine Or.inr ⟨h'.warnings.trans h.warnings, h.epoch.trans_le h'.epoch, h'.pending.trans h.pending, ?_⟩
      exact h'.bytes.elim (fun hb => hb.trans h.bytes) id
    · exact Or.inr ⟨h'.warnings.trans h.warnings, h.epoch.trans h'.epoch, h'.pending, h'.bytes⟩

/-! ## Code which changes nothing of it -/

section Same

variable {R : FullView → FullView → Prop} [IsPreorder FullView R]

theorem fullWarnings_other {l : Log} {m : Message} (h : m.isFull = false) :
    ({ l with queue := l.queue ++ [m] } : Log).fullWarnings = l.fullWarnings := by
  simp [Log.fullWarnings, List.countP_append, h]

theorem fullView_log {files : Files} {wal : SimpleWal} {l l' : Log} {k k' : Kernel}
    (h : l'.fullWarnings = l.fullWarnings) :
    Sys.fullView ⟨files, wal, l', k'⟩ = Sys.fullView ⟨files, wal, l, k⟩ := by
  simp only [Sys.fullView, h]

theorem moves_queueLine {m : Message} (h : m.isFull = false) : Moves Sys.fullView R (queueLine m) :=
  moves_same fun _ => fullView_log (fullWarnings_other h)

theorem moves_queueErrno {m : Errno → Message} (h : ∀ e, (m e).isFull = false) : Moves Sys.fullView R (queueErrno m) :=
  moves_bind moves_get fun s => moves_queueLine (h s.kern.errno)

theorem moves_queueInfo {m : Message} (h : m.isFull = false) : Moves Sys.fullView R (queueInfo m) := by
  refine moves_bind moves_get fun s => moves_ite (fun _ => moves_pure) fun _ => moves_queueLine h

theorem moves_setErrno (e : Errno) : Moves Sys.fullView R (setErrno e) := moves_same fun _ => rfl

theorem moves_syscall (c : Call) : Moves Sys.fullView R (syscall c) := by
  intro s
  unfold wp syscall
  split
  · rename_i hcase
    split at hcase
    · cases hcase
    · split at hcase <;>
        · cases hcase
          exact refl_of R s.fullView
  · trivial

theorem moves_attempt (c : Call) : Moves Sys.fullView R (attempt c) := by
  refine moves_bind (moves_syscall c) fun f => ?_
  cases f with
  | fail code => exact moves_bind (moves_setErrno _) fun _ => moves_pure
  | ok | short n => exact moves_pure

theorem moves_locked {α : Type} {m : WalM α} (h : Moves Sys.fullView R m) : Moves Sys.fullView R (locked m) := by
  refine moves_bind h fun a => moves_bind (moves_same fun s => fullView_log ?_) fun _ => moves_pure
  simp [Log.fullWarnings]

theorem moves_pread (c : Call) (offset len : ℕ) : Moves Sys.fullView R (pread c offset len) := by
  refine moves_bind (moves_syscall c) fun f => moves_bind moves_get fun s => ?_
  cases f with
  | fail code => exact moves_bind (moves_setErrno _) fun _ => moves_pure
  | ok | short n => exact moves_pure

theorem moves_getFileSize : Moves Sys.fullView R getFileSize := by
  refine moves_bind (moves_attempt _) fun ok => ?_
  cases ok with
  | false => exact moves_pure
  | true => exact moves_bind moves_get fun _ => moves_pure

theorem moves_restrictMode (c : Call) {m : Message} (h : m.isFull = false) :
    Moves Sys.fullView R (restrictMode c m) := by
  refine moves_bind (moves_attempt _) fun ok => ?_
  cases ok with
  | false => exact moves_queueInfo h
  | true => exact moves_pure

/-- a file which is not the WAL -/
theorem moves_write {t : Target} (ht : t ≠ .wal) (bs : Bytes) : Moves Sys.fullView R (write t bs) := by
  have hput : ∀ bs, Moves Sys.fullView R (put t bs) := by
    intro bs s
    unfold put
    rw [wp_bind, wp_get]
    cases hwrite : s.files.write t bs with
    | none => exact moves_bind (moves_setErrno _) (fun _ => moves_pure) s
    | some fs =>
      have hwal : fs.walBytes = s.files.walBytes := by
        cases t with
        | wal => exact absurd rfl ht
        | commit | corrupt =>
          cases hwrite
          rfl
      change R s.fullView (Sys.fullView ⟨fs, s.wal, s.log, s.kern⟩)
      simp only [Sys.fullView, hwal]
      exact refl_of R _
  refine moves_bind (moves_syscall _) fun f => ?_
  cases f with
  | fail code => exact moves_bind (moves_setErrno _) fun _ => moves_pure
  | short n => exact hput _
  | ok => exact hput _

theorem moves_writeAllToFd {t : Target} (ht : t ≠ .wal) (fuel : ℕ) (bs : Bytes) :
    Moves Sys.fullView R (writeAllToFd t fuel bs) := by
  induction fuel generalizing bs with
  | zero => cases bs <;> exact moves_pure
  | succ fuel ih =>
    cases bs with
    | nil => exact moves_pure
    | cons b bs =>
      refine moves_bind (moves_write ht _) fun n => ?_
      match n with
      | none => exact moves_pure
      | some 0 => exact moves_pure
      | some (n + 1) => exact ih _

theorem moves_loadCommit : Moves Sys.fullView R loadCommit := by
  have hdamaged : Moves Sys.fullView R (do
      queueWarning .damagedCommit
      pure 0 : WalM ℕ) := moves_bind (moves_queueLine rfl) fun _ => moves_pure
  refine moves_bind (moves_attempt _) fun opened => ?_
  cases opened with
  | false => exact moves_pure
  | true =>
    refine moves_bind moves_get fun s => ?_
    cases s.files.commit with
    | none => exact moves_bind (moves_setErrno _) fun _ => moves_pure
    | some bs =>
      refine moves_bind (moves_attempt _) fun stat => ?_
      cases stat with
      | false => exact hdamaged
      | true =>
        refine moves_ite (fun _ => hdamaged) fun _ => moves_bind (moves_syscall _) fun f => ?_
        cases f with
        | ok => exact moves_pure
        | short n => exact moves_ite (fun _ => moves_pure) fun _ => hdamaged
        | fail code => exact moves_bind (moves_setErrno _) fun _ => hdamaged

theorem moves_walkRecords (offset fileSize fuel pos : ℕ) :
    Moves Sys.fullView R (walkRecords offset fileSize fuel pos) := by
  induction fuel generalizing pos with
  | zero => exact moves_pure
  | succ fuel ih =>
    refine moves_ite (fun _ => moves_bind (moves_pread _ _ _) fun bs => ?_) fun _ => moves_pure
    cases bs with
    | none => exact moves_pure
    | some bs =>
      exact moves_ite (fun _ => moves_pure) fun _ => moves_ite (fun _ => moves_pure) fun _ => ih _

theorem moves_getReplayPosition (fileSize : ℕ) : Moves Sys.fullView R (getReplayPosition fileSize) := by
  refine moves_bind moves_loadCommit fun loaded => ?_
  have hstale : Moves Sys.fullView R (dropStale loaded fileSize) :=
    moves_ite (fun _ => moves_bind (moves_queueLine rfl) fun _ => moves_pure) fun _ => moves_pure
  refine moves_bind hstale fun offset => moves_bind moves_get fun s => ?_
  have hstart : Moves Sys.fullView R (isStart offset fileSize) :=
    moves_ite (fun _ => moves_walkRecords _ _ _ _) fun _ => moves_pure
  refine moves_ite (fun _ => moves_pure) fun _ => moves_bind hstart fun start => ?_
  refine moves_bind (moves_same fun _ => rfl) fun _ => ?_
  exact moves_ite (fun _ => moves_pure) fun _ => moves_bind (moves_queueLine rfl) fun _ => moves_pure

theorem moves_copyTail (stop fuel pos : ℕ) : Moves Sys.fullView R (copyTail stop fuel pos) := by
  have hfailed : Moves Sys.fullView R (do
      queueErrno .cannotCopy
      pure false : WalM Bool) := moves_bind (moves_queueErrno fun _ => rfl) fun _ => moves_pure
  induction fuel generalizing pos with
  | zero => exact moves_pure
  | succ fuel ih =>
    refine moves_ite (fun _ => moves_bind (moves_pread _ _ _) fun bs => ?_) fun _ => moves_pure
    match bs with
    | none => exact hfailed
    | some [] => exact hfailed
    | some (b :: bs) =>
      refine moves_bind (moves_writeAllToFd (by decide) _ _) fun ok => ?_
      cases ok with
      | false => exact hfailed
      | true => exact ih _

theorem moves_quarantineTail (start stop : ℕ) : Moves Sys.fullView R (quarantineTail start stop) := by
  refine moves_bind (moves_attempt _) fun opened => ?_
  cases opened with
  | false => exact moves_bind (moves_queueErrno fun _ => rfl) fun _ => moves_pure
  | true =>
    refine moves_bind (moves_same fun _ => rfl) fun _ => moves_bind (moves_copyTail _ _ _) fun ok => ?_
    cases ok with
    | false => exact moves_pure
    | true => exact moves_bind (moves_queueLine rfl) fun _ => moves_pure

theorem moves_replayStart : Moves Sys.fullView R replayStart := by
  refine moves_locked (moves_bind moves_get fun s => moves_ite (fun _ => moves_pure) fun _ => ?_)
  refine moves_bind (moves_same fun _ => rfl) fun _ => ?_
  have hgiveUp : Moves Sys.fullView R (do
      setWal fun w => { w with replaying := false }
      pure none : WalM (Option ReplayVars)) := moves_bind (moves_same fun _ => rfl) fun _ => moves_pure
  refine moves_bind (moves_attempt _) fun opened => ?_
  cases opened with
  | false => exact hgiveUp
  | true =>
    cases s.files.wal with
    | none => exact hgiveUp
    | some f =>
      refine moves_bind moves_getFileSize fun size => ?_
      cases size with
      | none => exact moves_bind (moves_queueErrno fun _ => rfl) fun _ => hgiveUp
      | some fileSize => exact moves_bind (moves_getReplayPosition _) fun _ => moves_pure

end Same

/-! ## Code which can empty the WAL -/

section Emptying

theorem moves_storeCommit (offset : ℕ) : Moves Sys.fullView FullView.Quiet (storeCommit offset) := by
  refine moves_bind (moves_attempt _) fun opened => ?_
  cases opened with
  | false => exact moves_bind (moves_queueErrno fun _ => rfl) fun _ => moves_pure
  | true =>
    refine moves_bind (moves_same fun _ => rfl) fun _ => moves_bind (moves_modify fun s => ?_) fun _ => ?_
    · exact ⟨rfl, rfl, Nat.le_succ _, rfl, Or.inl rfl⟩
    · refine moves_bind (moves_restrictMode _ rfl) fun _ => moves_bind (moves_writeAllToFd (by decide) _ _) fun ok => ?_
      cases ok with
      | false => exact moves_bind (moves_queueErrno fun _ => rfl) fun _ => moves_pure
      | true => exact moves_pure

theorem moves_clearInternal : Moves Sys.fullView FullView.Calm clearInternal := by
  refine moves_bind moves_get fun s => moves_ite (fun _ => moves_pure) fun _ => ?_
  have hunlink : Moves Sys.fullView FullView.Calm unlinkCommit := by
    refine moves_bind (moves_attempt _) fun ok => ?_
    cases ok with
    | false => exact moves_pure
    | true =>
      refine moves_bind moves_get fun s => ?_
      cases s.files.commit with
      | none => exact moves_bind (moves_setErrno _) fun _ => moves_pure
      | some c => exact moves_bind (moves_same fun _ => rfl) fun _ => moves_pure
  refine moves_bind hunlink fun removed => moves_bind moves_get fun s => moves_ite (fun _ => ?_) fun _ => ?_
  · exact moves_bind (moves_queueErrno fun _ => rfl) fun _ => moves_pure
  · intro s
    have hattempt := fun c s => moves_attempt (R := Eq) c s
    have hfailed : ∀ m : Errno → Message, (∀ e, (m e).isFull = false) → Moves Sys.fullView FullView.Calm (do
        queueErrno m
        pure false : WalM Bool) := fun m hm => moves_bind (moves_queueErrno hm) fun _ => moves_pure
    have hreset : Moves Sys.fullView FullView.Calm (do
        queueInfo .walReset
        pure true : WalM Bool) := moves_bind (moves_queueInfo rfl) fun _ => moves_pure
    unfold ftruncate
    rw [wp_bind, wp_bind]
    refine wp_mono (hattempt _ s) (fun ok s₁ h₁ => ?_) fun _ _ => trivial
    rw [h₁]
    cases ok with
    | false => exact hfailed .truncateFailed (fun _ => rfl) s₁
    | true =>
      have hbytes : (s₁.files.truncated 0).walBytes = [] := walBytes_cleared s₁.files
      have hquiet : s₁.fullView.Quiet (Sys.fullView ⟨s₁.files.truncated 0, s₁.wal, s₁.log, s₁.kern⟩) :=
        ⟨rfl, rfl, le_rfl, rfl, Or.inr hbytes⟩
      change wp (_ >>= _) _ _ (Sys.mk (s₁.files.truncated 0) s₁.wal s₁.log s₁.kern)
      rw [wp_bind]
      refine wp_mono (hattempt _ _) (fun ok s₂ h₂ => ?_) fun _ _ => trivial
      rw [h₂] at hquiet
      have htrans : ∀ {r : FullView}, s₂.fullView.Calm r → s₁.fullView.Calm r := fun h =>
        trans_of FullView.Calm (Or.inl hquiet) h
      cases ok with
      | false =>
        exact wp_mono (hfailed .seekFailed (fun _ => rfl) s₂) (fun _ _ => htrans) fun _ _ => trivial
      | true =>
        have hempty : s₂.files.walBytes = [] := (congrArg FullView.bytes h₂).symm.trans hbytes
        have hclears : s₂.fullView.Clears (Sys.fullView ⟨s₂.files, s₂.wal.cleared, s₂.log, s₂.kern⟩) :=
          ⟨rfl, Nat.lt_succ_self _, rfl, hempty⟩
        change wp (_ >>= _) _ _ (Sys.mk s₂.files s₂.wal.cleared s₂.log s₂.kern)
        refine wp_mono (hreset _) (fun _ s₃ h₃ => ?_) fun _ _ => trivial
        exact htrans (trans_of FullView.Calm (Or.inr hclears) h₃)

theorem moves_readRecord (offset : ℕ) : Moves Sys.fullView FullView.Calm (readRecord offset) := by
  refine moves_bind moves_getFileSize fun size => ?_
  cases size with
  | none => exact moves_bind (moves_queueErrno fun _ => rfl) fun _ => moves_pure
  | some fileSize =>
    refine moves_ite (fun _ => moves_pure) fun _ => moves_ite (fun _ => ?_) fun _ => ?_
    · exact moves_bind moves_clearInternal fun _ => moves_pure
    · refine moves_bind (moves_pread _ _ _) fun bs => ?_
      cases bs with
      | none => exact moves_bind (moves_queueErrno fun _ => rfl) fun _ => moves_pure
      | some bs =>
        refine moves_ite (fun _ => moves_bind (moves_quarantineTail _ _) fun ok => ?_) fun _ => ?_
        · cases ok with
          | true => exact moves_bind moves_clearInternal fun _ => moves_pure
          | false => exact moves_pure
        · refine moves_bind (moves_attempt _) fun ok => ?_
          cases ok with
          | false => exact moves_bind (moves_queueLine rfl) fun _ => moves_pure
          | true =>
            refine moves_bind (moves_pread _ _ _) fun data => ?_
            cases data with
            | none => exact moves_pure
            | some data => exact moves_ite (fun _ => moves_pure) fun _ => moves_pure

theorem moves_replayRead (v : ReplayVars) : Moves Sys.fullView FullView.Calm (replayRead v) := by
  refine moves_locked (moves_bind (moves_readRecord _) fun r => ?_)
  cases r <;> exact moves_pure

theorem moves_replayEnd (v : ReplayVars) : Moves Sys.fullView FullView.Quiet (replayEnd v) := by
  refine moves_locked (moves_bind (moves_same fun _ => rfl) fun _ => ?_)
  refine moves_ite (fun _ => moves_pure) fun _ => moves_ite (fun _ => moves_pure) fun _ => ?_
  refine moves_ite (fun _ => moves_bind (moves_storeCommit _) fun ok => ?_) fun _ => moves_pure
  cases ok <;> exact moves_pure

theorem moves_peek : Moves Sys.fullView FullView.Calm peek := by
  refine moves_locked (moves_bind (moves_same fun _ => rfl) fun _ => moves_bind moves_get fun s => ?_)
  refine moves_ite (fun _ => moves_pure) fun _ => moves_bind (moves_attempt _) fun opened => ?_
  cases opened with
  | false => exact moves_bind (moves_queueErrno fun _ => rfl) fun _ => moves_pure
  | true =>
    refine moves_bind moves_getFileSize fun size => ?_
    cases size with
    | none => exact moves_bind (moves_queueErrno fun _ => rfl) fun _ => moves_pure
    | some fileSize =>
      refine moves_bind (moves_getReplayPosition _) fun offset => moves_bind (moves_readRecord _) fun r => ?_
      cases r with
      | record bytes => exact moves_bind (moves_same fun _ => rfl) fun _ => moves_pure
      | _ => exact moves_pure

theorem moves_ack : Moves Sys.fullView FullView.Calm ack := by
  refine moves_locked (moves_bind moves_get fun s => moves_ite (fun _ => moves_pure) fun _ => ?_)
  refine moves_bind (moves_same fun _ => rfl) fun _ => moves_ite (fun _ => moves_pure) fun _ => ?_
  refine moves_bind moves_getFileSize fun size => ?_
  cases size with
  | none => exact moves_pure
  | some fileSize =>
    refine moves_ite (fun _ => moves_pure) fun _ => moves_ite (fun _ => moves_clearInternal) fun _ => ?_
    exact (moves_storeCommit _).mono fun _ _ => Or.inl

theorem moves_clear : Moves Sys.fullView FullView.Calm clear := moves_locked moves_clearInternal

end Emptying

/-! ## Opening and writing -/

/-- nothing is logged of a full WAL -/
def FullView.Silent (r r' : FullView) : Prop := r'.warnings = r.warnings

instance : IsPreorder FullView FullView.Silent where
  refl _ := rfl
  trans _ _ _ h h' := h'.trans h

/-- the file may change, but nothing else -/
def FullView.Writes (r r' : FullView) : Prop := r'.warnings = r.warnings ∧ r'.full = r.full

instance : IsPreorder FullView FullView.Writes where
  refl _ := ⟨rfl, rfl⟩
  trans _ _ _ h h' := ⟨h'.1.trans h.1, h'.2.trans h.2⟩

theorem moves_writeWal (t : Target) (bs : Bytes) : Moves Sys.fullView FullView.Writes (write t bs) := by
  have hput : ∀ bs, Moves Sys.fullView FullView.Writes (put t bs) := by
    intro bs
    refine moves_bind moves_get fun s => ?_
    cases s.files.write t bs with
    | none => exact moves_bind (moves_setErrno _) fun _ => moves_pure
    | some fs => exact moves_bind (moves_modify fun _ => ⟨rfl, rfl⟩) fun _ => moves_pure
  refine moves_bind (moves_syscall _) fun f => ?_
  cases f with
  | fail code => exact moves_bind (moves_setErrno _) fun _ => moves_pure
  | short n => exact hput _
  | ok => exact hput _

theorem moves_writeRecord (data : Payload) : Moves Sys.fullView FullView.Writes (writeRecord data) := by
  have hfd : ∀ (fuel : ℕ) (bs : Bytes), Moves Sys.fullView FullView.Writes (writeAllToFd .wal fuel bs) := by
    intro fuel
    induction fuel with
    | zero => intro bs; cases bs <;> exact moves_pure
    | succ fuel ih =>
      intro bs
      cases bs with
      | nil => exact moves_pure
      | cons b bs =>
        refine moves_bind (moves_writeWal _ _) fun n => ?_
        match n with
        | none => exact moves_pure
        | some 0 => exact moves_pure
        | some (n + 1) => exact ih _
  have hall : ∀ bs, Moves Sys.fullView FullView.Writes (writeAll bs) := by
    intro bs
    refine moves_bind moves_get fun s => moves_ite (fun _ => moves_pure) fun _ => moves_bind (hfd _ _) fun ok => ?_
    cases ok with
    | false => exact moves_bind (moves_queueErrno fun _ => rfl) fun _ => moves_pure
    | true => exact moves_pure
  refine moves_bind (hall _) fun ok => ?_
  cases ok with
  | false => exact moves_pure
  | true => exact hall _

theorem moves_removePartial (start : ℕ) : Moves Sys.fullView FullView.Writes (removePartial start) := by
  have htruncate : Moves Sys.fullView FullView.Writes (ftruncate .rollback start) := by
    refine moves_bind (moves_attempt _) fun ok => ?_
    cases ok with
    | false => exact moves_pure
    | true => exact moves_bind (moves_modify fun _ => ⟨rfl, rfl⟩) fun _ => moves_pure
  refine moves_bind htruncate fun ok => ?_
  cases ok with
  | false => exact moves_queueErrno fun _ => rfl
  | true => exact moves_pure

/-- what `Append` does: nothing to the message, or it stored a record, or it wrote the message, which was not written
before -/
def AppendsFull (data : Payload) (r : FullView) (ok : Bool) (r' : FullView) : Prop :=
  r.Writes r' ∨ (ok = true ∧ data.bytes ≠ [] ∧ r.Silent r') ∨
    (r.full = false ∧ r'.full = true ∧ r'.warnings = r.warnings + 1)

theorem wp_append_full (data : Payload) (s : Sys) :
    wp (append data) (fun ok s' => AppendsFull data s.fullView ok s'.fullView) (fun _ => True) s := by
  unfold append
  by_cases h0 : data.bytes.length = 0
  · rw [if_pos h0]
    exact Or.inl (refl_of FullView.Writes _)
  · rw [if_neg h0]
    have hne : data.bytes ≠ [] := fun h => h0 (by rw [h]; rfl)
    unfold locked
    rw [wp_bind]
    refine wp_mono (Q := fun ok s' => AppendsFull data s.fullView ok s'.fullView) ?_ (fun ok s' h' => ?_) fun _ h => h
    · unfold appendRecord
      rw [wp_bind, wp_get, wp_ite]
      refine ⟨fun _ => Or.inl (refl_of FullView.Writes _), fun _ => ?_⟩
      rw [wp_bind]
      refine wp_mono (moves_attempt (R := Eq) _ s) (fun ok s₁ h₁ => ?_) fun _ _ => trivial
      rw [h₁]
      -- nothing is stored, nothing is said of a full WAL
      have hfalse : ∀ {m : WalM Unit}, Moves Sys.fullView FullView.Writes m → ∀ s₂, s₁.fullView.Writes s₂.fullView →
          wp (do
            m
            pure false) (fun ok s' => AppendsFull data s₁.fullView ok s'.fullView) (fun _ => True) s₂ := by
        intro m hm s₂ h₂
        rw [wp_bind]
        exact wp_mono (hm s₂) (fun _ _ h₃ => Or.inl (trans_of FullView.Writes h₂ h₃)) fun _ _ => trivial
      cases ok with
      | false => exact hfalse (moves_queueErrno fun _ => rfl) s₁ (refl_of FullView.Writes _)
      | true =>
        dsimp only
        rw [wp_ite]
        refine ⟨fun _ => ?_, fun _ => ?_⟩
        · rw [wp_ite]
          refine ⟨fun hfull => Or.inr (Or.inr ⟨?_, rfl, ?_⟩), fun _ => Or.inl (refl_of FullView.Writes _)⟩
          · exact (congrArg FullView.full h₁).symm.trans hfull
          · simp [Sys.fullView, Log.fullWarnings, List.countP_append, Message.isFull, add_assoc]
        · rw [wp_bind]
          refine wp_mono (moves_writeRecord data s₁) (fun ok s₂ h₂ => ?_) fun _ _ => trivial
          cases ok with
          | false => exact hfalse (moves_removePartial _) s₂ h₂
          | true => exact Or.inr (Or.inl ⟨rfl, hne, h₂.1⟩)
    · have hwarnings : Log.fullWarnings { queue := [], emitted := s'.log.emitted ++ s'.log.queue } =
        s'.log.fullWarnings := by
        simp [Log.fullWarnings]
      change AppendsFull data s.fullView ok (Sys.fullView ⟨s'.files, s'.wal, _, s'.kern⟩)
      rw [fullView_log hwarnings]
      exact h'

/-! ## Any calls -/

namespace Object

variable {o : Object} {m : Made}

def fullView (o : Object) : FullView := (o.sys fun _ => []).fullView

/-- what is known of the text of a function is known of its call -/
theorem make_of_wp {Q : Bool → FullView → Prop} (hsame : Q false o.fullView)
    (h : wp (codeOf m.call) (fun ok s' => Q ok s'.fullView) (fun _ => True) (o.sys m.oracle)) :
    Q (o.make m).1 (o.step m).fullView := by
  unfold step make
  unfold wp at h
  cases hcode : codeOf m.call (o.sys m.oracle) with
  | done ok s =>
    rw [hcode] at h
    exact h
  | crash s => exact hsame

theorem step_of_moves {R : FullView → FullView → Prop} [IsPreorder FullView R]
    (h : Moves Sys.fullView R (codeOf m.call)) : R o.fullView (o.step m).fullView :=
  make_of_wp (refl_of R o.fullView) (h (o.sys m.oracle))

/-- the warnings so far, and the one which can still come -/
def budget (o : Object) : ℕ := o.log.fullWarnings + if o.wal.fullLogged = true then 0 else 1

theorem budget_of_writes {o o' : Object} (h : o.fullView.Writes o'.fullView) : o'.budget = o.budget := by
  have hwarnings : o'.log.fullWarnings = o.log.fullWarnings := h.1
  have hfull : o'.wal.fullLogged = o.wal.fullLogged := h.2
  unfold budget
  rw [hwarnings, hfull]

theorem budget_of_calm {o o' : Object} (h : o.fullView.Calm o'.fullView) (hno : ¬ o.Emptied o') :
    o'.budget = o.budget := by
  rcases h with h | h
  · exact budget_of_writes ⟨h.warnings, h.full⟩
  · exact absurd ⟨h.epoch, h.pending, h.bytes⟩ hno

/-- **What a call does to the message.** -/
theorem step_budget (hrelieves : ¬ o.Relieves m) (hinit : m.call ≠ .init) : (o.step m).budget = o.budget := by
  obtain ⟨call, oracle⟩ := m
  have hsame : ∀ {code : WalM Unit} {ok : Bool}, Moves Sys.fullView FullView.Quiet code →
      Moves Sys.fullView FullView.Quiet (do
        code
        pure ok) := fun h => moves_bind h fun _ => moves_pure
  have hquiet : Moves Sys.fullView FullView.Quiet (codeOf call) → (o.step ⟨call, oracle⟩).budget = o.budget := by
    intro h
    have hstep : o.fullView.Quiet (o.step ⟨call, oracle⟩).fullView := step_of_moves h
    exact budget_of_writes ⟨hstep.warnings, hstep.full⟩
  cases call with
  | init => exact absurd rfl hinit
  | setMaxSize bytes => exact absurd trivial hrelieves
  | setLogLevel level => exact hquiet (hsame (moves_locked (moves_same fun _ => rfl)))
  | isReplayPending => exact hquiet (moves_locked (moves_bind moves_get fun _ => moves_pure))
  | replayStart => exact hquiet (moves_bind moves_replayStart fun _ => moves_pure)
  | replayEnd v => exact hquiet (moves_replayEnd v)
  | replayThrow => exact hquiet (hsame (moves_locked (moves_same fun _ => rfl)))
  | replayRead v =>
    exact budget_of_calm (step_of_moves (moves_bind (moves_replayRead v) fun _ => moves_pure)) hrelieves
  | peek => exact budget_of_calm (step_of_moves (moves_bind moves_peek fun _ => moves_pure)) hrelieves
  | ack => exact budget_of_calm (step_of_moves moves_ack) hrelieves
  | clear => exact budget_of_calm (step_of_moves moves_clear) hrelieves
  | append data =>
    have happend : AppendsFull data o.fullView (o.make ⟨.append data, oracle⟩).1
      (o.step ⟨.append data, oracle⟩).fullView :=
      make_of_wp (Or.inl (refl_of FullView.Writes _)) (wp_append_full data (o.sys oracle))
    rcases happend with hwrites | ⟨hok, hne, -⟩ | ⟨hbefore, hafter, hwarnings⟩
    · exact budget_of_writes hwrites
    · exact absurd ⟨hne, hok⟩ hrelieves
    · have hbefore : o.wal.fullLogged = false := hbefore
      have hafter : (o.step ⟨.append data, oracle⟩).wal.fullLogged = true := hafter
      have hwarnings : (o.step ⟨.append data, oracle⟩).log.fullWarnings = o.log.fullWarnings + 1 := hwarnings
      unfold budget
      rw [hbefore, hafter, hwarnings]
      rfl

/-- the calls of a run satisfy `P` in the state they are made in -/
abbrev Along (P : Object → Made → Prop) (o : Object) (calls : List Made) : Prop := Guarded step P o calls

theorem run_budget {calls : List Made} (h : o.Along (fun o m => ¬ o.Relieves m ∧ m.call ≠ .init) calls) :
    (o.run calls).budget = o.budget := by
  have hstep : ∀ (o' : Object) (m : Made), (¬ o'.Relieves m ∧ m.call ≠ .init) → o'.budget = o.budget →
      (o'.step m).budget = o.budget := fun o' m hm hb => (step_budget hm.1 hm.2).trans hb
  exact Guarded.inv hstep h rfl

end Object

/-! ## Append -/

/-- **Append is all or nothing.** If the rollback does not fail: when it returns false the files are as before; when it
returns true for a record, the record with its length is behind the bytes which were there, and the file is not larger
than the limit. The size is compared without wrapping around. And as long as no record is stored, the WAL is neither
emptied nor opened, and no limit is set, the log says at most once that the WAL is full. -/
theorem append_all_or_nothing (o : Object) (howned : o.Owned) :
    (∀ (data : Payload) (oracle : Oracle) (crashIn : Option ℕ) (ok : Bool) (s' : Sys), oracle .rollback = [] →
      append data ⟨o.files, o.wal, o.log, ⟨oracle, crashIn, .unset⟩⟩ = .done ok s' →
      (ok = false → s'.files.walBytes = o.files.walBytes) ∧
      (ok = true → data.bytes ≠ [] →
        s'.files.walBytes = o.files.walBytes ++ (leBytes 4 data.bytes.length ++ data.bytes) ∧
        (0 < o.wal.maxSize → s'.files.walBytes.length ≤ o.wal.maxSize))) ∧
    (∀ data : Payload, add64 (add64 o.files.walBytes.length lenSize) data.bytes.length =
      o.files.walBytes.length + lenSize + data.bytes.length) ∧
    ∀ calls, o.Along (fun o m => ¬ o.Relieves m ∧ m.call ≠ .init) calls →
      (o.run calls).log.fullWarnings ≤ o.log.fullWarnings + 1 := by
  refine ⟨fun data oracle crashIn ok s' hrollback hdone => ?_, fun data => ?_, fun calls hcalls => ?_⟩
  · obtain ⟨hfd, -, hsome⟩ := howned
    obtain ⟨f, hf⟩ := Option.isSome_iff_exists.1 hsome
    have hwp : wp (append data) (fun ok s' => (ok = false → s'.files.walBytes = o.files.walBytes) ∧
        (ok = true → data.bytes ≠ [] → s'.files.walBytes = o.files.walBytes ++ frame lenSize data.bytes ∧
          (0 < o.wal.maxSize → s'.files.walBytes.length ≤ o.wal.maxSize)))
        (fun _ => True) ⟨o.files, o.wal, o.log, ⟨oracle, crashIn, .unset⟩⟩ := wp_append (D := fun _ => True)
      (fun _ => ⟨f, hf⟩) (fun hnil => ⟨fun h => Bool.noConfusion h, fun _ hne => absurd hnil hne⟩)
      (fun _ _ f' l k _ hbytes hmax => ⟨fun h => Bool.noConfusion h, fun _ _ => ⟨hbytes, hmax⟩⟩)
      (fun _ b l k _ => ⟨fun _ => rfl, fun h => Bool.noConfusion h⟩)
      (fun _ _ p f' l k _ hfail => absurd hrollback hfail) (fun _ => ⟨trivial, fun _ _ _ _ _ _ _ => trivial⟩)
    rwa [wp_of_done hdone] at hwp
  · have hsize := o.files.walBytes_le
    have hlen := data.len_lt
    have hbig : offMax + 2 ^ 33 < 2 ^ 64 := by decide
    have h4 : lenSize = 4 := rfl
    rw [add64_of_lt (a := o.files.walBytes.length) (by omega)]
    exact add64_of_lt (by omega)
  · have hbudget := Object.run_budget hcalls
    unfold Object.budget at hbudget
    split_ifs at hbudget <;> omega

section Limit

/-- an empty WAL with room for 5 bytes -/
def smallWal : Object where
  files := { wal := some File.empty, locked := true }
  wal := { fd := true, hasLock := true, maxSize := 5 }

def tooLarge : Made := ⟨.append (.pair 1 2), fun _ => []⟩

/-- a second record which is refused leaves no message -/
theorem append_all_or_nothing_small :
    (smallWal.run [tooLarge, tooLarge]).log.fullWarnings ≤ smallWal.log.fullWarnings + 1 := by
  refine (append_all_or_nothing smallWal ⟨rfl, rfl, rfl⟩).2.2 [tooLarge, tooLarge] ⟨⟨?_, ?_⟩, ⟨?_, ?_⟩, trivial⟩
  · rintro ⟨-, h⟩
    revert h
    decide +kernel
  · decide
  · rintro ⟨-, h⟩
    revert h
    decide +kernel
  · decide

/-- opened again in between, the WAL says it again, though nothing was stored, emptied or limited -/
theorem init_warns_again : ¬ ∀ o : Object, o.Owned → ∀ calls, o.Along (fun o m => ¬ o.Relieves m) calls →
    (o.run calls).log.fullWarnings ≤ o.log.fullWarnings + 1 := by
  intro h
  have hcalls : smallWal.Along (fun o m => ¬ o.Relieves m) [tooLarge, ⟨.init, fun _ => []⟩, tooLarge] := by
    refine ⟨?_, not_false, ?_, trivial⟩
    · rintro ⟨-, h⟩
      revert h
      decide +kernel
    · rintro ⟨-, h⟩
      revert h
      decide +kernel
  have hle := h smallWal ⟨rfl, rfl, rfl⟩ _ hcalls
  revert hle
  decide +kernel

end Limit

end DominoLogForwarder.Wal
