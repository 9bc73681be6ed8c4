/-
What the calls of a `FileReader` do to the object, whatever other programs do to the files, whatever the system calls
answer, and wherever the process is killed.

`Reader.low` is the position behind the lines which were returned, and `Line.position` the position of a line: the
generation first, then the offset. Nothing moves `low` back, and every line is behind the `low` before it
(`readLine_ordered`). `Goes` is what a call does to the object up to any point inside of it.
-/
import DominoLogForwarder.Lib.CrashView
import DominoLogForwarder.FileReader.Reader
import Mathlib.Data.Prod.Lex

namespace DominoLogForwarder.FileReader

open CrashProg Lines FrM

/-! ## Positions -/

/-- a generation and an offset in it. A newer generation is behind every offset of the older ones -/
abbrev Position : Type := ℕ ×ₗ ℕ

def position (generation endOffset : ℕ) : Position := toLex (generation, endOffset)

theorem position_le {g g' o o' : ℕ} : position g o ≤ position g' o' ↔ g < g' ∨ g = g' ∧ o ≤ o' :=
    Prod.Lex.toLex_le_toLex

theorem position_lt {g g' o o' : ℕ} : position g o < position g' o' ↔ g < g' ∨ g = g' ∧ o < o' :=
    Prod.Lex.toLex_lt_toLex

def Line.position (line : Line) : Position := FileReader.position line.generation line.endOffset

namespace Reader

/-- every line which is returned from here on is behind this position. Without a file the next line is one of the next
generation -/
def low (r : Reader) : Position :=
  if r.fd.isSome then position r.generation r.bufferStart else position (r.generation + 1) 0

theorem low_some {r : Reader} (h : r.fd.isSome) : r.low = position r.generation r.bufferStart := if_pos h

theorem low_none {r : Reader} (h : r.fd = none) : r.low = position (r.generation + 1) 0 := by
  unfold low
  rw [h]
  rfl

/-- with a file the position which was committed is one of it -/
def Ordered (r : Reader) : Prop := r.fd.isSome → r.committed ≤ r.bufferStart

theorem Ordered.committed_le_low {r : Reader} (h : r.Ordered) : position r.generation r.committed ≤ r.low := by
  unfold low
  split_ifs with hfd
  · exact position_le.2 (Or.inr ⟨rfl, h hfd⟩)
  · exact position_le.2 (Or.inl (Nat.lt_succ_self _))

/-- what a call does up to a point inside of it -/
structure Goes (r r' : Reader) : Prop where
  low_le : r.low ≤ r'.low
  /-- the position which was committed is the same, or one of a newer generation -/
  committed : r'.generation = r.generation ∧ r'.committed = r.committed ∨ r.generation < r'.generation

theorem Goes.refl (r : Reader) : r.Goes r := ⟨le_rfl, Or.inl ⟨rfl, rfl⟩⟩

theorem Goes.generation_le {r r' : Reader} (h : r.Goes r') : r.generation ≤ r'.generation := by
  rcases h.committed with ⟨hg, -⟩ | hg <;> omega

theorem Goes.trans {r r' r'' : Reader} (h : r.Goes r') (h' : r'.Goes r'') : r.Goes r'' := by
  refine ⟨h.low_le.trans h'.low_le, ?_⟩
  have hle := h'.generation_le
  rcases h.committed with ⟨hg, hc⟩ | hg
  · rcases h'.committed with ⟨hg', hc'⟩ | hg'
    · exact Or.inl ⟨hg'.trans hg, hc'.trans hc⟩
    · exact Or.inr (by omega)
  · exact Or.inr (by omega)

/-- the members which a position depends on are the same, but the file can be read on -/
theorem Goes.of_eq {r r' : Reader} (hfd : r'.fd = r.fd) (hgen : r'.generation = r.generation)
    (hcom : r'.committed = r.committed) (hstart : r.fd.isSome → r.bufferStart ≤ r'.bufferStart) : r.Goes r' := by
  refine ⟨?_, Or.inl ⟨hgen, hcom⟩⟩
  unfold low
  rw [hfd, hgen]
  split_ifs with h
  · exact position_le.2 (Or.inr ⟨rfl, hstart h⟩)
  · exact le_rfl

/-- the file is let go of -/
theorem Goes.closeFile {r : Reader} (h : r.fd.isSome) : r.Goes r.closeFile := by
  refine ⟨?_, Or.inl ⟨rfl, rfl⟩⟩
  rw [low_some h, low_none rfl]
  apply position_le.2
  exact Or.inl (Nat.lt_succ_self _)

/-- a file of a new generation -/
theorem Goes.newFile {r r' : Reader} (hfd : r'.fd.isSome) (hgen : r'.generation = r.generation + 1) : r.Goes r' := by
  refine ⟨?_, Or.inr (by omega)⟩
  rw [low_some hfd, hgen]
  unfold low
  split_ifs with h
  · exact position_le.2 (Or.inl (Nat.lt_succ_self _))
  · exact position_le.2 (Or.inr ⟨rfl, Nat.zero_le _⟩)

/-! ## A line of the buffer -/

/-- the line is taken from the file which is read, and is behind what was returned -/
structure Takes (r : Reader) (line : Line) (r' : Reader) : Prop where
  fd : r'.fd = r.fd
  generation : r'.generation = r.generation
  committed : r'.committed = r.committed
  line_generation : line.generation = r.generation
  endOffset : line.endOffset = r'.bufferStart
  advances : r.bufferStart < r'.bufferStart

theorem findNl_ge {r : Reader} {idx : ℕ} (h : r.findNl = some idx) : r.pos ≤ idx := by
  unfold findNl at h
  obtain ⟨n, -, rfl⟩ := Option.map_eq_some_iff.1 h
  omega

theorem takeLine_takes {r r' : Reader} {line : Line} (h : r.takeLine = (some line, r')) : r.Takes line r' := by
  have hmax := r.settings.maxLineLength_pos
  unfold takeLine at h
  cases hfind : r.findNl with
  | none =>
    rw [hfind] at h
    by_cases hlong : r.settings.maxLineLength < r.pending
    · simp only [if_pos hlong, Prod.mk.injEq, Option.some.injEq] at h
      obtain ⟨rfl, rfl⟩ := h
      refine ⟨rfl, rfl, rfl, rfl, rfl, ?_⟩
      simp only [advance]
      omega
    · simp [if_neg hlong] at h
  | some idx =>
    have hidx := findNl_ge hfind
    rw [hfind] at h
    simp only [Prod.mk.injEq, Option.some.injEq] at h
    obtain ⟨rfl, rfl⟩ := h
    refine ⟨rfl, rfl, rfl, rfl, rfl, ?_⟩
    simp only [advance]
    omega

theorem takeLine_none_eq {r r' : Reader} (h : r.takeLine = (none, r')) : r' = { r with scanFrom := r.pending } := by
  unfold takeLine at h
  cases hfind : r.findNl with
  | none =>
    rw [hfind] at h
    by_cases hlong : r.settings.maxLineLength < r.pending
    · simp [if_pos hlong] at h
    · simp only [if_neg hlong, Prod.mk.injEq, true_and] at h
      exact h.symm
  | some idx =>
    rw [hfind] at h
    simp at h

theorem extractLine_takes {r r' : Reader} {line : Line} (h : r.extractLine = (some line, r')) : r.Takes line r' := by
  unfold extractLine at h
  by_cases hskip : r.skipping = true
  · rw [if_pos hskip] at h
    cases hfind : r.findNl with
    | none =>
      rw [hfind] at h
      simp at h
    | some idx =>
      have hidx := findNl_ge hfind
      rw [hfind] at h
      obtain ⟨hfd, hgen, hcom, hline, hend, hadv⟩ := takeLine_takes h
      refine ⟨hfd, hgen, hcom, hline, hend, lt_of_le_of_lt ?_ hadv⟩
      exact Nat.le_add_right _ _
  · rw [if_neg hskip] at h
    exact takeLine_takes h

theorem extractLine_goes {r r' : Reader} (h : r.extractLine = (none, r')) :
    r'.fd = r.fd ∧ r'.generation = r.generation ∧ r'.committed = r.committed ∧ r.bufferStart ≤ r'.bufferStart := by
  unfold extractLine at h
  by_cases hskip : r.skipping = true
  · rw [if_pos hskip] at h
    cases hfind : r.findNl with
    | none =>
      rw [hfind] at h
      simp only [Prod.mk.injEq, true_and] at h
      rw [← h]
      exact ⟨rfl, rfl, rfl, Nat.le_add_right _ _⟩
    | some idx =>
      rw [hfind] at h
      rw [takeLine_none_eq h]
      exact ⟨rfl, rfl, rfl, Nat.le_add_right _ _⟩
  · rw [if_neg hskip] at h
    rw [takeLine_none_eq h]
    exact ⟨rfl, rfl, rfl, le_rfl⟩

theorem emitRemainder_takes {r : Reader} (h : 0 < r.pending) : r.Takes r.emitRemainder.1 r.emitRemainder.2 := by
  refine ⟨rfl, rfl, rfl, rfl, rfl, ?_⟩
  simp only [emitRemainder]
  omega

end Reader

/-! ## System calls

Whatever a call answers, it leaves the object as it is. -/

section Calls

variable {α : Type} {C : Reader → Prop} {r : Reader} {c : Call}

theorem on_setReader {Q : Unit → Reader → Prop} {f : Reader → Reader} (h : Q () (f r)) :
    wpOn Sys.reader (setReader f) Q C r := by
  apply wpOn_modify
  rintro s rfl
  exact h

theorem on_setDisk {Q : Unit → Reader → Prop} {f : Disk → Disk} (h : Q () r) : wpOn Sys.reader (setDisk f) Q C r := by
  apply wpOn_modify
  rintro s rfl
  exact h

theorem on_note {Q : Unit → Reader → Prop} {m : Message} (h : Q () r) : wpOn Sys.reader (note m) Q C r := by
  apply wpOn_modify
  rintro s rfl
  exact h

theorem on_killed {Q : α → Reader → Prop} (hc : C r) : wpOn Sys.reader (killed : FrM α) Q C r := by
  rintro s rfl
  exact hc

theorem on_syscall {Q : Fault → Reader → Prop} (h : ∀ f, Q f r) (hc : C r) : wpOn Sys.reader (syscall c) Q C r := by
  rintro s rfl
  unfold wp syscall
  cases hn : s.kern.crashIn with
  | none => exact h _
  | some n =>
    cases n with
    | zero => exact hc
    | succ n => exact h _

theorem on_attempt {Q : Except ℕ Unit → Reader → Prop} (h : ∀ x, Q x r) (hc : C r) :
    wpOn Sys.reader (attempt c) Q C r := by
  apply wpOn_bind
  apply on_syscall _ hc
  intro f
  cases f <;> exact wpOn_pure (h _)

theorem on_openPath {Q : Except ℕ Node → Reader → Prop} (h : ∀ x, Q x r) (hc : C r) :
    wpOn Sys.reader openPath Q C r := by
  apply wpOn_bind
  apply on_syscall _ hc
  have hgood : wpOn Sys.reader nodeThere Q C r := by
    apply wpOn_bind
    apply wpOn_get
    intro s _
    cases s.disk.path <;> exact wpOn_pure (h _)
  intro f
  cases f with
  | ok => exact hgood
  | short n => exact hgood
  | fail code => exact wpOn_pure (h _)

theorem on_fstat {Q : Except ℕ ℕ → Reader → Prop} {id : FileId} (h : ∀ x, Q x r) (hc : C r) :
    wpOn Sys.reader (fstat c id) Q C r := by
  apply wpOn_bind
  apply on_syscall _ hc
  have hgood : wpOn Sys.reader (do
      let s ← Prog.get
      pure (.ok (s.disk.files id).size)) Q C r := by
    apply wpOn_bind
    apply wpOn_get
    exact fun s _ => wpOn_pure (h _)
  intro f
  cases f with
  | ok => exact hgood
  | short n => exact hgood
  | fail code => exact wpOn_pure (h _)

theorem on_statPath {Q : Option Node → Reader → Prop} (h : ∀ x, Q x r) (hc : C r) :
    wpOn Sys.reader statPath Q C r := by
  apply wpOn_bind
  apply on_syscall _ hc
  have hgood : wpOn Sys.reader (do
      let s ← Prog.get
      pure s.disk.path) Q C r := by
    apply wpOn_bind
    apply wpOn_get
    exact fun s _ => wpOn_pure (h _)
  intro f
  cases f with
  | ok => exact hgood
  | short n => exact hgood
  | fail code => exact wpOn_pure (h _)

theorem on_readAt {Q : Except ℕ Bytes → Reader → Prop} {id : FileId} {len offset : ℕ} (h : ∀ x, Q x r) (hc : C r) :
    wpOn Sys.reader (readAt c id len offset) Q C r := by
  apply wpOn_bind
  apply on_syscall _ hc
  intro f
  apply wpOn_bind
  apply wpOn_get
  intro s _
  cases f <;> exact wpOn_pure (h _)

theorem on_writeAll {Q : Except ℕ Unit → Reader → Prop} (h : ∀ x, Q x r) (hc : C r) (fuel : ℕ) (bs : Bytes) :
    wpOn Sys.reader (writeAll fuel bs) Q C r := by
  induction fuel generalizing bs with
  | zero => cases bs <;> exact wpOn_pure (h _)
  | succ fuel ih =>
    cases bs with
    | nil => exact wpOn_pure (h _)
    | cons b bs =>
      apply wpOn_bind
      apply on_syscall _ hc
      intro f
      cases f with
      | fail code => exact wpOn_pure (h _)
      | short n =>
        apply wpOn_bind
        exact on_setDisk (ih _)
      | ok =>
        apply wpOn_bind
        exact on_setDisk (wpOn_pure (h _))

end Calls

/-! ## The state file -/

section State

variable {C : Reader → Prop} {r : Reader}

theorem on_unlinkTemp {Q : Except ℕ Unit → Reader → Prop} {code : ℕ} (h : ∀ x, Q x r) (hc : C r) :
    wpOn Sys.reader (unlinkTemp code) Q C r := by
  apply wpOn_bind
  apply on_attempt _ hc
  intro x
  apply wpOn_bind
  exact on_setDisk (wpOn_pure (h _))

theorem on_replaceState {Q : Except ℕ Unit → Reader → Prop} (h : ∀ x, Q x r) (hc : C r) (text : Bytes) :
    wpOn Sys.reader (replaceState text) Q C r := by
  have hclose : ∀ code, wpOn Sys.reader (do
      let _ ← attempt .closeTemp
      unlinkTemp code) Q C r := by
    intro code
    apply wpOn_bind
    exact on_attempt (fun _ => on_unlinkTemp h hc) hc
  apply wpOn_bind
  apply on_attempt _ hc
  intro x
  cases x with
  | error code => exact wpOn_pure (h _)
  | ok _ =>
    apply wpOn_bind
    apply on_setDisk
    apply wpOn_bind
    apply on_writeAll _ hc
    intro x
    cases x with
    | error code => exact hclose code
    | ok _ =>
      apply wpOn_bind
      apply on_attempt _ hc
      intro x
      cases x with
      | error code => exact hclose code
      | ok _ =>
        apply wpOn_bind
        apply on_attempt _ hc
        intro x
        cases x with
        | error code => exact on_unlinkTemp h hc
        | ok _ =>
          apply wpOn_bind
          apply on_attempt _ hc
          intro x
          cases x with
          | error code => exact on_unlinkTemp h hc
          | ok _ =>
            apply wpOn_bind
            exact on_setDisk (wpOn_pure (h _))

/-- `SaveState` remembers whether it failed, and nothing else -/
theorem on_saveState {Q : Bool → Reader → Prop} (h : ∀ b failed, Q b { r with saveFailed := failed }) (hc : C r) :
    wpOn Sys.reader saveState Q C r := by
  have hsame : Q false r := h false r.saveFailed
  apply wpOn_bind
  apply wpOn_get
  intro s _
  apply wpOn_bind
  apply on_replaceState _ hc
  intro x
  cases x with
  | ok _ =>
    apply wpOn_bind
    exact on_setReader (wpOn_pure (h _ _))
  | error code =>
    dsimp only
    split_ifs
    · apply wpOn_bind
      apply on_setReader
      apply wpOn_bind
      exact on_note (wpOn_pure (h _ _))
    · exact wpOn_pure hsame

theorem on_loadState {Q : StateResult → Reader → Prop} (h : ∀ x, Q x r) (hc : C r) :
    wpOn Sys.reader loadState Q C r := by
  have hinvalid : ∀ m, wpOn Sys.reader (do
      note m
      pure .invalid) Q C r := by
    intro m
    apply wpOn_bind
    exact on_note (wpOn_pure (h _))
  have hopen : ∀ {Q : Except ℕ Bytes → Reader → Prop}, (∀ x, Q x r) → wpOn Sys.reader openState Q C r := by
    intro Q h
    apply wpOn_bind
    apply on_syscall _ hc
    have hgood : wpOn Sys.reader textThere Q C r := by
      apply wpOn_bind
      apply wpOn_get
      intro s _
      cases s.disk.state <;> exact wpOn_pure (h _)
    intro f
    cases f with
    | ok => exact hgood
    | short n => exact hgood
    | fail code => exact wpOn_pure (h _)
  apply wpOn_bind
  apply hopen
  intro x
  cases x with
  | error code =>
    dsimp only
    split_ifs
    · exact wpOn_pure (h _)
    · exact hinvalid _
  | ok text =>
    apply wpOn_bind
    apply on_attempt _ hc
    intro x
    cases x with
    | error code => exact hinvalid _
    | ok _ =>
      dsimp only
      split_ifs
      · exact hinvalid _
      · cases parseState (text.take (stateMax + 1)) with
        | error m => exact hinvalid _
        | ok saved => exact wpOn_pure (h _)

theorem on_resolveStart {Q : ℕ → Reader → Prop} {id : FileId} {size : ℕ} (h : ∀ o, Q o r) (hc : C r) :
    wpOn Sys.reader (resolveStart id size) Q C r := by
  have hzero : ∀ m, wpOn Sys.reader (do
      note m
      pure 0) Q C r := by
    intro m
    apply wpOn_bind
    exact on_note (wpOn_pure (h _))
  apply wpOn_bind
  apply wpOn_get
  intro s _
  apply wpOn_bind
  apply on_loadState _ hc
  intro x
  cases x with
  | none => exact wpOn_pure (h _)
  | invalid => exact wpOn_pure (h _)
  | ok saved =>
    dsimp only
    split_ifs
    · exact hzero _
    · exact hzero _
    · apply wpOn_bind
      apply on_readAt _ hc
      intro x
      cases x with
      | error code => exact hzero _
      | ok head =>
        dsimp only
        split_ifs
        · exact hzero _
        · exact wpOn_pure (h _)

end State

/-! ## Opening the file -/

section Open

variable {r : Reader}

/-- how a call which returns no line leaves the object behind: with a file or without one -/
def Reader.Steps (r r' : Reader) : Prop := r'.Ordered ∧ r.Goes r'

theorem Reader.Steps.refl (h : r.Ordered) : r.Steps r := ⟨h, .refl r⟩

/-- the members which a position depends on are the same, but the file can be read on -/
theorem Reader.Steps.of_eq {r' : Reader} (h : r.Ordered) (hfd : r'.fd = r.fd) (hgen : r'.generation = r.generation)
    (hcom : r'.committed = r.committed) (hstart : r.fd.isSome → r.bufferStart ≤ r'.bufferStart) : r.Steps r' := by
  refine ⟨fun hopen => ?_, .of_eq hfd hgen hcom hstart⟩
  rw [hfd] at hopen
  rw [hcom]
  exact (h hopen).trans (hstart hopen)

theorem on_startFile {id : FileId} {size : ℕ} :
    wpOn Sys.reader (startFile id size) (fun _ r' => r'.fd = some id ∧ r.Steps r') r.Goes r := by
  -- everything below happens with a file of the next generation
  have hnew : ∀ {r' : Reader}, r'.fd = some id → r'.generation = r.generation + 1 → r.Goes r' := by
    intro r' hfd hgen
    apply Reader.Goes.newFile _ hgen
    rw [hfd]
    rfl
  apply wpOn_bind
  apply on_setReader
  apply wpOn_seq (Q := fun _ r' => r'.fd = some id ∧ r'.generation = r.generation + 1)
    (D := fun r' => r'.fd = some id ∧ r'.generation = r.generation + 1)
  · apply wpOn_bind
    apply wpOn_get
    intro s _
    split_ifs
    · apply wpOn_bind
      apply on_setReader
      exact on_resolveStart (fun _ => ⟨rfl, rfl⟩) ⟨rfl, rfl⟩
    · exact wpOn_pure ⟨rfl, rfl⟩
  · rintro offset r' ⟨hfd, hgen⟩
    apply wpOn_bind
    apply on_readAt _ (hnew hfd hgen)
    intro head
    apply wpOn_bind
    apply on_setReader
    apply wpOn_bind
    apply on_saveState
    · intro b failed
      apply wpOn_pure
      exact ⟨hfd, fun _ => le_rfl, hnew hfd hgen⟩
    · exact hnew hfd hgen
  · exact fun r' ⟨hfd, hgen⟩ => hnew hfd hgen

theorem on_openFile (h : r.Ordered) :
    wpOn Sys.reader openFile (fun _ r' => r.Steps r') r.Goes r := by
  have hmember : ∀ code, r.Steps { r with lastOpenError := code } := by
    intro code
    exact .of_eq h rfl rfl rfl fun _ => le_rfl
  have hnote : ∀ {c : Prop} [Decidable c] {m : Message} {code : ℕ}, wpOn Sys.reader (do
      if c then note m else pure ()
      setReader fun r => { r with lastOpenError := code }
      pure false) (fun _ r' => r.Steps r') r.Goes r := by
    intro c _ m code
    have hrest : wpOn Sys.reader (do
        setReader fun r => { r with lastOpenError := code }
        pure false) (fun _ r' => r.Steps r') r.Goes r := by
      apply wpOn_bind
      exact on_setReader (wpOn_pure (hmember code))
    dsimp only
    split_ifs
    · apply wpOn_bind
      exact on_note hrest
    · exact hrest
  apply wpOn_bind
  apply on_openPath _ (.refl r)
  intro x
  cases x with
  | error code =>
    apply wpOn_bind
    apply wpOn_get
    intro s _
    exact hnote
  | ok node =>
    apply wpOn_bind
    apply on_fstat _ (.refl r)
    intro x
    cases x with
    | error code =>
      apply wpOn_bind
      exact on_note (wpOn_pure (.refl h))
    | ok size =>
      dsimp only
      split_ifs
      · apply wpOn_bind
        apply wpOn_get
        intro s _
        exact hnote
      · exact wpOn_mono on_startFile (fun _ _ hq => hq.2) fun _ hc => hc

end Open

/-! ## Reading on -/

section Read

variable {r : Reader} {id : FileId}

theorem on_refreshHead {Q : Bool → Reader → Prop} {C : Reader → Prop} (h : ∀ b head, Q b { r with head := head })
    (hc : C r) : wpOn Sys.reader (refreshHead id) Q C r := by
  have hsame : ∀ b, Q b r := fun b => h b r.head
  apply wpOn_bind
  apply on_readAt _ hc
  intro x
  cases x with
  | error code => exact wpOn_pure (hsame _)
  | ok bytes =>
    apply wpOn_bind
    apply wpOn_get
    intro s _
    split_ifs
    · apply wpOn_bind
      exact on_setReader (wpOn_pure (h _ _))
    · exact wpOn_pure (hsame _)

/-- the file starts again, in the next generation -/
theorem on_resetFile {m : Message} (hfd : r.fd.isSome) :
    wpOn Sys.reader (resetFile id m) (fun _ r' => r'.fd = r.fd ∧ r.Steps r') r.Goes r := by
  apply wpOn_bind
  apply on_note
  apply wpOn_bind
  apply on_setReader
  apply wpOn_bind
  apply on_refreshHead
  · intro b head
    apply wpOn_bind
    apply on_saveState
    · intro b failed
      apply wpOn_pure
      exact ⟨rfl, fun _ => le_rfl, .newFile hfd rfl⟩
    · exact .newFile hfd rfl
  · exact .newFile hfd rfl

theorem on_checkFile (h : r.Ordered) (hfd : r.fd.isSome) :
    wpOn Sys.reader (checkFile id) (fun _ r' => r'.fd = r.fd ∧ r.Steps r') r.Goes r := by
  have hreset : ∀ m r', r'.fd = r.fd → r.Steps r' → wpOn Sys.reader (do
      resetFile id m
      pure false) (fun _ r'' => r''.fd = r.fd ∧ r.Steps r'') r.Goes r' := by
    intro m r' hfd' hsteps
    apply wpOn_seq (on_resetFile (hfd' ▸ hfd))
    · rintro _ r'' ⟨hfd'', hord, hgoes⟩
      exact wpOn_pure ⟨hfd''.trans hfd', hord, hsteps.2.trans hgoes⟩
    · exact fun r'' hgoes => hsteps.2.trans hgoes
  apply wpOn_bind
  apply on_fstat _ (.refl r)
  intro x
  cases x with
  | error code => exact wpOn_pure ⟨rfl, .refl h⟩
  | ok size =>
    apply wpOn_bind
    apply wpOn_get
    intro s _
    split_ifs
    · exact hreset _ r rfl (.refl h)
    · apply wpOn_bind
      apply on_refreshHead _ (.refl r)
      intro b head
      have hsame : r.Steps { r with head := head } := .of_eq h rfl rfl rfl fun _ => le_rfl
      cases b with
      | true => exact wpOn_pure ⟨rfl, hsame⟩
      | false => exact hreset _ _ rfl hsame

theorem on_fillBuffer (h : r.Ordered) :
    wpOn Sys.reader (fillBuffer id) (fun _ r' => r'.fd = r.fd ∧ r.Steps r') r.Goes r := by
  apply wpOn_bind
  apply wpOn_get
  intro s _
  apply wpOn_bind
  apply on_readAt _ (.refl r)
  intro x
  cases x with
  | error code =>
    apply wpOn_bind
    exact on_note (wpOn_pure ⟨rfl, .refl h⟩)
  | ok chunk =>
    apply wpOn_bind
    exact on_setReader (wpOn_pure ⟨rfl, .of_eq h rfl rfl rfl fun _ => le_rfl⟩)

theorem on_pathReplaced : wpOn Sys.reader pathReplaced (fun _ r' => r' = r) r.Goes r := by
  apply wpOn_bind
  apply on_statPath _ (.refl r)
  intro x
  cases x with
  | none => exact wpOn_pure rfl
  | some node =>
    apply wpOn_bind
    apply wpOn_get
    exact fun s _ => wpOn_pure rfl

/-- what a call of `ReadLine` leaves behind -/
structure Reader.Returns (r : Reader) (line : Option Line) (r' : Reader) : Prop where
  steps : r.Steps r'
  /-- a line is behind all before it, and behind the position which was committed -/
  behind : ∀ l, line = some l → r.low < l.position ∧ l.position = r'.low ∧
    l.generation = r'.generation ∧ r'.committed < l.endOffset

theorem Reader.Returns.none {r' : Reader} (h : r.Steps r') : r.Returns none r' := ⟨h, fun _ hl => by cases hl⟩

theorem Reader.Takes.returns {r' : Reader} {line : Line} (h : r.Ordered) (hfd : r.fd.isSome) (ht : r.Takes line r') :
    r.Returns (some line) r' := by
  have hfd' : r'.fd.isSome := by
    rw [ht.fd]
    exact hfd
  have hcom := h hfd
  have hadv := ht.advances
  refine ⟨.of_eq h ht.fd ht.generation ht.committed fun _ => hadv.le, ?_⟩
  rintro l ⟨⟩
  refine ⟨?_, ?_, ht.line_generation.trans ht.generation.symm, ?_⟩
  · rw [low_some hfd, Line.position, ht.line_generation, ht.endOffset]
    exact position_lt.2 (Or.inr ⟨rfl, hadv⟩)
  · rw [low_some hfd', Line.position, ht.line_generation, ht.endOffset, ht.generation]
  · rw [ht.committed, ht.endOffset]
    omega

theorem Reader.Returns.after {r' r'' : Reader} {line : Option Line} (h : r.Goes r') (h' : r'.Returns line r'') :
    r.Returns line r'' := by
  refine ⟨⟨h'.steps.1, h.trans h'.steps.2⟩, fun l hl => ?_⟩
  obtain ⟨hlow, hrest⟩ := h'.behind l hl
  exact ⟨lt_of_le_of_lt h.low_le hlow, hrest⟩

theorem on_emit (h : r.Ordered) (hfd : r.fd.isSome) (hpending : 0 < r.pending) :
    wpOn Sys.reader emit r.Returns r.Goes r := by
  apply wpOn_bind
  apply wpOn_get
  rintro s rfl
  apply wpOn_bind
  apply on_setReader
  apply wpOn_pure
  exact (Reader.emitRemainder_takes hpending).returns h hfd

theorem on_waitForMore {tNow : ℤ} (h : r.Ordered) (hfd : r.fd.isSome) :
    wpOn Sys.reader (waitForMore tNow) r.Returns r.Goes r := by
  have hsame : r.Steps { r with rotationSeen := false } := .of_eq h rfl rfl rfl fun _ => le_rfl
  apply wpOn_bind
  apply on_setReader
  apply wpOn_bind
  apply wpOn_get
  intro s hs
  dsimp only
  rw [hs]
  split_ifs with hwait
  · apply wpOn_bind
    apply on_setReader
    apply wpOn_pure
    exact .none (.of_eq h rfl rfl rfl fun _ => le_rfl)
  · apply wpOn_mono (on_emit hsame.1 hfd hwait.2.1)
    · exact fun line r' hret => .after hsame.2 hret
    · exact fun r' hgoes => hsame.2.trans hgoes
  · exact wpOn_pure (.none hsame)
  · exact wpOn_pure (.none hsame)

/-- what the rounds below this one do -/
def Repeats (again : FrM (Option Line)) : Prop :=
  ∀ r : Reader, r.Ordered → wpOn Sys.reader again r.Returns r.Goes r

variable {again : FrM (Option Line)}

theorem Repeats.after (hrepeats : Repeats again) {r' : Reader} (h : r.Steps r') :
    wpOn Sys.reader again r.Returns r.Goes r' := by
  apply wpOn_mono (hrepeats r' h.1)
  · exact fun line r'' hret => .after h.2 hret
  · exact fun r'' hgoes => h.2.trans hgoes

theorem on_leaveFile (hrepeats : Repeats again) (h : r.Ordered) (hfd : r.fd.isSome) :
    wpOn Sys.reader (leaveFile again) r.Returns r.Goes r := by
  apply wpOn_bind
  apply wpOn_get
  rintro s rfl
  dsimp only
  split_ifs with hseen hpending
  · apply wpOn_bind
    apply on_setReader
    apply wpOn_pure
    exact .none (.of_eq h rfl rfl rfl fun _ => le_rfl)
  · exact on_emit h hfd hpending.1
  · apply wpOn_bind
    apply on_setReader
    apply hrepeats.after
    refine ⟨fun hno => ?_, .closeFile hfd⟩
    cases hno

theorem on_readRound {tNow : ℤ} (hrepeats : Repeats again) (h : r.Ordered) (hfd : r.fd.isSome) :
    wpOn Sys.reader (readRound tNow again id) r.Returns r.Goes r := by
  apply wpOn_bind
  apply wpOn_get
  rintro s rfl
  cases hextract : s.reader.extractLine with
  | mk line r₁ =>
    apply wpOn_bind
    apply on_setReader
    cases line with
    | some line => exact wpOn_pure ((Reader.extractLine_takes hextract).returns h hfd)
    | none =>
      obtain ⟨hfd₁, hgen₁, hcom₁, hstart₁⟩ := Reader.extractLine_goes hextract
      have hsteps₁ : s.reader.Steps r₁ := .of_eq h hfd₁ hgen₁ hcom₁ fun _ => hstart₁
      apply wpOn_seq (on_checkFile hsteps₁.1 (hfd₁ ▸ hfd))
      · rintro good r₂ ⟨hfd₂, hsteps₂⟩
        have hsteps : s.reader.Steps r₂ := ⟨hsteps₂.1, hsteps₁.2.trans hsteps₂.2⟩
        cases good with
        | false => exact hrepeats.after hsteps
        | true =>
          have hopen₂ : r₂.fd.isSome := hfd₂ ▸ hfd₁ ▸ hfd
          apply wpOn_seq (on_fillBuffer hsteps.1)
          · rintro x r₃ ⟨hfd₃, hsteps₃⟩
            have hsteps' : s.reader.Steps r₃ := ⟨hsteps₃.1, hsteps.2.trans hsteps₃.2⟩
            have hopen₃ : r₃.fd.isSome := hfd₃ ▸ hopen₂
            cases x with
            | error code => exact wpOn_pure (.none hsteps')
            | ok n =>
              cases n with
              | zero =>
                apply wpOn_seq on_pathReplaced
                · rintro replaced r₄ rfl
                  cases replaced with
                  | true =>
                    apply wpOn_mono (on_leaveFile hrepeats hsteps'.1 hopen₃)
                    · exact fun line r' hret => .after hsteps'.2 hret
                    · exact fun r' hgoes => hsteps'.2.trans hgoes
                  | false =>
                    apply wpOn_mono (on_waitForMore hsteps'.1 hopen₃)
                    · exact fun line r' hret => .after hsteps'.2 hret
                    · exact fun r' hgoes => hsteps'.2.trans hgoes
                · exact fun r' hgoes => hsteps'.2.trans hgoes
              | succ n =>
                apply wpOn_bind
                apply on_setReader
                apply hrepeats.after
                refine ⟨hsteps'.1, hsteps'.2.trans ?_⟩
                exact .of_eq rfl rfl rfl fun _ => le_rfl
          · exact fun r' hgoes => hsteps.2.trans hgoes
      · exact fun r' hgoes => hsteps₁.2.trans hgoes

theorem on_readLoop (tNow : ℤ) (rounds : ℕ) : Repeats (readLoop tNow rounds) := by
  induction rounds with
  | zero => exact fun r _ => on_killed (.refl r)
  | succ rounds ih =>
    intro r h
    apply wpOn_bind
    apply wpOn_get
    rintro s rfl
    cases hfd : s.reader.fd with
    | some id => exact on_readRound ih h (by rw [hfd]; rfl)
    | none =>
      apply wpOn_seq (on_openFile h)
      · intro opened r' hsteps
        cases opened with
        | false => exact wpOn_pure (.none hsteps)
        | true =>
          apply wpOn_bind
          apply wpOn_get
          rintro s' rfl
          cases hfd' : s'.reader.fd with
          | some id =>
            apply wpOn_mono (on_readRound ih hsteps.1 (by rw [hfd']; rfl))
            · exact fun line r' hret => .after hsteps.2 hret
            · exact fun r' hgoes => hsteps.2.trans hgoes
          | none => exact wpOn_pure (.none hsteps)
      · exact fun r' hgoes => hgoes

/-- **`ReadLine` never goes back**: a line is behind everything before it, in an order in which a newer generation is
behind all of the older ones. -/
theorem readLine_ordered (tNow : ℤ) (rounds : ℕ) (h : r.Ordered) :
    wpOn Sys.reader (readLine tNow rounds) r.Returns r.Goes r := by
  apply wpOn_bind
  apply wpOn_get
  rintro s rfl
  split_ifs
  · exact wpOn_pure (.none (.refl h))
  · exact on_readLoop tNow rounds _ h

/-- what a call of `Commit` does to the object up to any point inside of it -/
structure Reader.Commits (r : Reader) (g o : ℕ) (r' : Reader) : Prop where
  fd : r'.fd = r.fd
  generation : r'.generation = r.generation
  bufferStart : r'.bufferStart = r.bufferStart
  committed : r'.committed = r.committed ∨ g = r.generation ∧ o ≤ r.bufferStart ∧ r'.committed = o

theorem Reader.Commits.ordered {generation endOffset : ℕ} {r' : Reader} (h : r.Ordered)
    (hc : r.Commits generation endOffset r') : r'.Ordered := by
  intro hfd
  rw [hc.fd] at hfd
  rw [hc.bufferStart]
  rcases hc.committed with heq | ⟨-, hle, heq⟩
  · rw [heq]
    exact h hfd
  · rw [heq]
    exact hle

theorem Reader.Commits.low {generation endOffset : ℕ} {r' : Reader} (hc : r.Commits generation endOffset r') :
    r'.low = r.low := by
  unfold Reader.low
  rw [hc.fd, hc.generation, hc.bufferStart]

/-- `Commit` moves the position only to one of the generation which is read -/
theorem commit_commits (generation endOffset : ℕ) : wpOn Sys.reader (commit generation endOffset)
    (fun _ r' => r.Commits generation endOffset r') (r.Commits generation endOffset) r := by
  have hsame : r.Commits generation endOffset r := ⟨rfl, rfl, rfl, Or.inl rfl⟩
  apply wpOn_bind
  apply wpOn_get
  rintro s rfl
  split_ifs with hopened hgen hbehind hle
  · exact wpOn_pure hsame
  · exact wpOn_pure hsame
  · apply wpOn_bind
    exact on_note (wpOn_pure hsame)
  · exact wpOn_pure hsame
  · have hgen' : generation = s.reader.generation := not_not.1 hgen
    have hmoved : endOffset ≤ s.reader.bufferStart := Nat.not_lt.1 hbehind
    apply wpOn_bind
    apply on_setReader
    apply wpOn_bind
    apply on_saveState
    · intro saved failed
      cases saved with
      | true => exact wpOn_pure ⟨rfl, rfl, rfl, Or.inr ⟨hgen', hmoved, rfl⟩⟩
      | false =>
        apply wpOn_bind
        exact on_setReader (wpOn_pure ⟨rfl, rfl, rfl, Or.inl rfl⟩)
    · exact ⟨rfl, rfl, rfl, Or.inr ⟨hgen', hmoved, rfl⟩⟩

end Read

end DominoLogForwarder.FileReader
