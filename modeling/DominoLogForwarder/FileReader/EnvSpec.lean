/-
What the operations of a `FileReader` do in any environment, whatever the reader is.

`Env.readRound` has the ways in which a round of the loop of `ReadLine` ends or goes on, `Env.openFile` the ways in
which a file is opened.
-/
import DominoLogForwarder.FileReader.OpenSpec

namespace DominoLogForwarder.FileReader

open CrashProg Lines FrM
open Wal (File)

namespace Env

variable {E : Env} {C : Sys → Prop} {s : Sys} {id : FileId}

/-- `C` holds of everything -/
theorem killed_of (hc : E.Killable → ∀ s, C s) : E.Killed C s := fun hk _ _ _ _ => hc hk _

/-! ## Opening the file -/

theorem resolveStart {Q : ℕ → Sys → Prop} {size : ℕ} (hs : E.Ready s) (hc : E.Killable → ∀ s, C s)
    (h : ∀ o d k l, E.Goes s.disk s.kern d k → resets l = resets s.log → o ≤ size →
      (s.disk.state = none → o = if s.reader.settings.startAtEnd then size else 0) → Q o ⟨d, s.reader, l, k⟩) :
    wp (FrM.resolveStart id size) Q C s := by
  have hfresh : (if s.reader.settings.startAtEnd then size else 0) ≤ size := by
    split_ifs
    · exact le_rfl
    · exact Nat.zero_le _
  unfold FrM.resolveStart
  rw [wp_bind, wp_get, wp_bind]
  refine loadState hs (killed_of hc) fun x d k l hgo _ hx => ?_
  have hl := hx.resets
  cases x with
  | none => exact h _ d k l hgo hl hfresh fun _ => rfl
  | invalid => exact h _ d k l hgo hl hfresh fun _ => rfl
  | ok saved =>
    have hstate : ∀ {o : ℕ}, s.disk.state = none → o = if s.reader.settings.startAtEnd then size else 0 := by
      intro o hnone
      rcases hx.none hnone with h0 | h0 <;> cases h0
    have hzero : ∀ m d' k', E.Goes s.disk s.kern d' k' → m.isReset = false → wp (do
        note m
        pure 0) Q C ⟨d', s.reader, l, k'⟩ := by
      intro m d' k' hgo' hm
      rw [wp_bind]
      exact wp_noteOther hm fun l' hl' => h 0 d' k' l' hgo' (hl'.trans hl) (Nat.zero_le _) hstate
    dsimp only
    split_ifs with hother hshort
    · exact hzero _ d k hgo rfl
    · exact hzero _ d k hgo rfl
    · rw [wp_bind]
      refine readAt (E.right hgo) (fun hk => hc hk _) (by decide) (fun d' k' hgo' _ => ?_) fun code d' k' hgo' _ _ => ?_
      · dsimp only
        split_ifs
        · exact hzero _ d' k' (E.trans hgo hgo') rfl
        · exact h _ d' k' l (E.trans hgo hgo') hl (Nat.not_lt.1 hshort) hstate
      · exact hzero _ d' k' (E.trans hgo hgo') rfl

/-- where the reader `r` starts in a file of that size -/
structure StartsAt (r : Reader) (d : Disk) (size o : ℕ) : Prop where
  le : o ≤ size
  /-- a file which is opened later is new -/
  later : r.firstOpen = false → o = 0
  fresh : r.firstOpen = true → d.state = none → o = if r.settings.startAtEnd then size else 0

/-- the head is the start of the file at some point between `d` and `d'` -/
def HeadOf (E : Env) (id : FileId) (head : Bytes) (d : Disk) (k : Kernel) (d' : Disk) (k' : Kernel) : Prop :=
  ∃ d₁ k₁, E.Goes d k d₁ k₁ ∧ E.Goes d₁ k₁ d' k' ∧ (head = [] ∨ head = (d₁.files id).bytes.take headMax)

theorem HeadOf.before {head : Bytes} {d d' d'' : Disk} {k k' k'' : Kernel} (h : E.Goes d k d' k')
    (hhead : E.HeadOf id head d' k' d'' k'') : E.HeadOf id head d k d'' k'' := by
  obtain ⟨d₁, k₁, h₁, h₂, heq⟩ := hhead
  exact ⟨d₁, k₁, E.trans h h₁, h₂, heq⟩

theorem startFile {Q : Bool → Sys → Prop} {size : ℕ} (hs : E.Ready s) (hc : E.Killable → ∀ s, C s)
    (h : ∀ o head failed d k l, E.Goes s.disk s.kern d k → resets l = resets s.log → StartsAt s.reader s.disk size o →
      E.HeadOf id head s.disk s.kern d k →
      Q true ⟨d, { s.reader.started id o head with saveFailed := failed }, l, k⟩) :
    wp (FrM.startFile id size) Q C s := by
  -- what happens behind the decision where to start
  have hrest : ∀ (r : Reader) (o : ℕ) (d : Disk) (k : Kernel) (l : List Message), E.Goes s.disk s.kern d k →
      resets l = resets s.log → StartsAt s.reader s.disk size o →
      (∀ head failed, { r.clearBuffer with
        head := head, bufferStart := o, committed := o, saveFailed := failed } =
          { s.reader.started id o head with saveFailed := failed }) →
      wp (do
        let head ← FrM.readAt .preadHead id headMax 0
        setReader fun r =>
          { r.clearBuffer with
            head := head.toOption.getD []
            bufferStart := o
            committed := o }
        let _ ← FrM.saveState
        pure true) Q C ⟨d, r, l, k⟩ := by
    intro r o d k l hgo hl hstarts hr
    have hsave : ∀ head d' k', E.Goes d k d' k' → (head = [] ∨ head = (d'.files id).bytes.take headMax) → wp (do
        let _ ← FrM.saveState
        pure true) Q C ⟨d', { r.clearBuffer with head := head, bufferStart := o, committed := o }, l, k'⟩ := by
      intro head d' k' hgo' hhead
      have hgo' := E.trans hgo hgo'
      rw [wp_bind]
      refine saveState (E.right hgo') (killed_of hc) fun b failed d'' k'' l' hgo'' hsaves => ?_
      have hl' := hsaves.resets.trans hl
      have hq := h o head failed d'' k'' l' (E.trans hgo' hgo'') hl' hstarts ⟨d', k', hgo', hgo'', hhead⟩
      rw [← hr head failed] at hq
      exact hq
    rw [wp_bind]
    refine readAt (E.right hgo) (fun hk => hc hk _) (by decide) (fun d' k' hgo' _ => ?_) fun code d' k' hgo' _ _ => ?_
    · rw [wp_bind, wp_setReader]
      exact hsave _ d' k' hgo' (Or.inr rfl)
    · rw [wp_bind, wp_setReader]
      exact hsave [] d' k' hgo' (Or.inl rfl)
  unfold FrM.startFile startOffset
  rw [wp_bind, wp_setReader, wp_bind, wp_bind, wp_get]
  cases hfirst : s.reader.firstOpen with
  | true =>
    simp only [if_true]
    rw [wp_bind, wp_setReader]
    refine resolveStart hs hc fun o d k l hgo hl hle hfresh => ?_
    refine hrest _ o d k l hgo hl ⟨hle, fun h0 => ?_, fun _ => hfresh⟩ fun head failed => rfl
    rw [hfirst] at h0
    cases h0
  | false =>
    simp only [Bool.false_eq_true, if_false]
    refine hrest _ 0 s.disk s.kern s.log hs rfl ⟨Nat.zero_le _, fun _ => rfl, fun h0 => ?_⟩ fun head failed => ?_
    · rw [hfirst] at h0
      cases h0
    · simp only [Reader.started, Reader.clearBuffer, hfirst]

/-- how `OpenFile` opens the file `id`: it was at the path, it had `size` bytes then, and the reader is `r` now -/
structure Opens (E : Env) (s : Sys) (id : FileId) (r : Reader) (d : Disk) (k : Kernel) : Prop where
  goes : E.Goes s.disk s.kern d k
  path : ∃ d₀ k₀, E.Goes s.disk s.kern d₀ k₀ ∧ d₀.path = some ⟨id, true⟩
  reader : ∃ o head failed d₁ k₁, E.Goes s.disk s.kern d₁ k₁ ∧ E.Goes d₁ k₁ d k ∧
    StartsAt s.reader s.disk (d₁.files id).size o ∧ E.HeadOf id head s.disk s.kern d k ∧
    r = { s.reader.started id o head with saveFailed := failed }

/-- a file is opened when the path leads to a regular file. Otherwise the reader remembers the error -/
theorem openFile {Q : Bool → Sys → Prop} (hs : E.Ready s) (hc : E.Killable → ∀ s, C s)
    (hno : ∀ e d k l, E.Goes s.disk s.kern d k → d.state = s.disk.state → resets l = resets s.log →
      ((∃ d₀ k₀, E.Goes s.disk s.kern d₀ k₀ ∧ ∀ id, d₀.path ≠ some ⟨id, true⟩) ∨
        ∃ code, Fault.fail code ∈ s.kern.oracle .openPath ∨ Fault.fail code ∈ s.kern.oracle .fstatOpen) →
      Q false ⟨d, { s.reader with lastOpenError := e }, l, k⟩)
    (hyes : ∀ id r d k l, E.Opens s id r d k → resets l = resets s.log → Q true ⟨d, r, l, k⟩) :
    wp FrM.openFile Q C s := by
  -- the error is remembered, so that it is a message once
  have hremember : ∀ {c : Prop} [Decidable c] {m : Message} {code : ℕ} {d : Disk} {k : Kernel},
      E.Goes s.disk s.kern d k → d.state = s.disk.state → m.isReset = false →
      ((∃ d₀ k₀, E.Goes s.disk s.kern d₀ k₀ ∧ ∀ id, d₀.path ≠ some ⟨id, true⟩) ∨
        ∃ code, Fault.fail code ∈ s.kern.oracle .openPath ∨ Fault.fail code ∈ s.kern.oracle .fstatOpen) → wp (do
        if c then note m else pure ()
        setReader fun r => { r with lastOpenError := code }
        pure false) Q C ⟨d, s.reader, s.log, k⟩ := by
    intro c _ m code d k hgo hst hm hwhy
    by_cases hc : c
    · rw [if_pos hc, wp_bind]
      refine wp_noteOther hm fun l hl => ?_
      rw [wp_bind, wp_setReader]
      exact hno code d k l hgo hst hl hwhy
    · rw [if_neg hc]
      exact hno code d k s.log hgo hst rfl hwhy
  unfold FrM.openFile
  rw [wp_bind]
  refine openPath hs (fun hk => hc hk _) (fun node d k hgo hst hpath => ?_) fun code d k hgo hst hwhy => ?_
  · dsimp only
    rw [wp_bind]
    refine fstat (E.right hgo) (fun hk => hc hk _) (fun d' k' hgo' hst' => ?_) fun code d' k' hgo' hst' hf => ?_
    · have hgo' := E.trans hgo hgo'
      have hst' := hst'.trans hst
      obtain ⟨id, regular⟩ := node
      cases regular with
      | false =>
        dsimp only
        rw [if_pos rfl, wp_bind, wp_get]
        refine hremember hgo' hst' rfl (Or.inl ⟨d, k, hgo, fun id' h0 => ?_⟩)
        rw [hpath] at h0
        cases h0
      | true =>
        dsimp only
        rw [if_neg (by simp)]
        refine startFile (E.right hgo') hc fun o head failed d'' k'' l hgo'' hl hstarts hhead => ?_
        refine hyes id _ d'' k'' l ⟨E.trans hgo' hgo'', ⟨d, k, hgo, hpath⟩, o, head, failed, d', k', hgo', hgo'', ?_,
          hhead.before hgo', rfl⟩ hl
        exact ⟨hstarts.le, hstarts.later, fun hfirst hnone => hstarts.fresh hfirst (hst'.trans hnone)⟩
    · rw [wp_bind]
      refine wp_noteOther rfl fun l hl => ?_
      exact hno s.reader.lastOpenError d' k' l (E.trans hgo hgo') (hst'.trans hst) hl
        (Or.inr ⟨code, Or.inr ((E.calls hgo _).subset hf)⟩)
  · rw [wp_bind, wp_get]
    refine hremember hgo hst rfl ?_
    rcases hwhy with hf | hnone
    · exact Or.inr ⟨code, Or.inl hf⟩
    · refine Or.inl ⟨d, k, hgo, fun id h0 => ?_⟩
      rw [hnone] at h0
      cases h0

/-! ## Reading on -/

end Env

/-- the content can be the one which the reader saw: it is not shorter than what was read, and has the same start -/
def Reader.Like (r : Reader) (c : Bytes) : Prop :=
  r.bufferStart + r.pending ≤ c.length ∧ (c.take headMax).take r.head.length = r.head

instance (r : Reader) (c : Bytes) : Decidable (r.Like c) := by
  unfold Reader.Like
  infer_instance

/-- the reader starts again at the beginning of the same file -/
def Reader.restarted (r : Reader) (head : Bytes) (failed : Bool) : Reader :=
  { r.clearBuffer with
    generation := r.generation + 1
    bufferStart := 0
    skipping := false
    rotationSeen := false
    incompleteSince := 0
    head := head
    committed := 0
    saveFailed := failed }

/-- the buffer behind a read which found nothing more -/
def Reader.packed (r : Reader) (seen : Bool) : Reader := { r with buffer := r.rest, pos := 0, rotationSeen := seen }

theorem Reader.packed_pending (r : Reader) (seen : Bool) : (r.packed seen).pending = r.pending := by
  unfold Reader.packed Reader.pending Reader.rest
  rw [List.length_drop, Nat.sub_zero]

namespace Env

variable {E : Env} {C : Sys → Prop} {s : Sys} {id : FileId}

theorem refreshHead {Q : Bool → Sys → Prop} (hs : E.Ready s) (hc : E.Killable → ∀ s, C s)
    (h : ∀ d k, E.Goes s.disk s.kern d k →
      ((d.files id).bytes.take headMax).take s.reader.head.length = s.reader.head →
      Q true ⟨d, { s.reader with head := (d.files id).bytes.take headMax }, s.log, k⟩)
    (hno : ∀ d k, E.Goes s.disk s.kern d k →
      ((d.files id).bytes.take headMax).take s.reader.head.length ≠ s.reader.head → Q false ⟨d, s.reader, s.log, k⟩)
    (hfail : ∀ code d k, E.Goes s.disk s.kern d k → Fault.fail code ∈ s.kern.oracle .preadRefresh →
      Q true ⟨d, s.reader, s.log, k⟩) : wp (FrM.refreshHead id) Q C s := by
  unfold FrM.refreshHead
  rw [wp_bind]
  refine readAt hs (fun hk => hc hk _) (by decide) (fun d k hgo _ => ?_) fun code d k hgo _ hf => hfail code d k hgo hf
  dsimp only
  rw [wp_bind, wp_get, List.drop_zero]
  by_cases hsame : ((d.files id).bytes.take headMax).take s.reader.head.length = s.reader.head
  · rw [if_pos hsame, wp_bind, wp_setReader]
    exact h d k hgo hsame
  · rw [if_neg hsame]
    exact hno d k hgo hsame

theorem resetFile {Q : Unit → Sys → Prop} {m : Message} (hs : E.Ready s) (hc : E.Killable → ∀ s, C s)
    (hm : m.isReset = true)
    (h : ∀ head failed d k l, E.Goes s.disk s.kern d k → resets l = resets s.log + 1 →
      E.HeadOf id head s.disk s.kern d k → Q () ⟨d, s.reader.restarted head failed, l, k⟩) :
    wp (FrM.resetFile id m) Q C s := by
  have hsave : ∀ head d k, E.Goes s.disk s.kern d k → (head = [] ∨ head = (d.files id).bytes.take headMax) →
      wp (do
        let _ ← FrM.saveState
        pure ()) Q C ⟨d, s.reader.restarted head s.reader.saveFailed, s.log ++ [m], k⟩ := by
    intro head d k hgo hhead
    rw [wp_bind]
    refine saveState (E.right hgo) (killed_of hc) fun b failed d' k' l hgo' hsaves => ?_
    have hl := hsaves.resets.trans (resets_reset hm s.log)
    exact h head failed d' k' l (E.trans hgo hgo') hl ⟨d, k, hgo, hgo', hhead⟩
  unfold FrM.resetFile
  rw [wp_bind, wp_note_eq, wp_bind, wp_setReader, wp_bind]
  -- without a start which was remembered every content is one which continues it
  refine refreshHead hs hc (fun d k hgo _ => ?_) (fun d k _ hne => absurd rfl hne) fun code d k hgo _ => ?_
  · exact hsave _ d k hgo (Or.inr rfl)
  · exact hsave [] d k hgo (Or.inl rfl)

/-- the check of the file `id` let the reader go on: it is `r` now. A check which cannot be made says nothing -/
inductive Passes (E : Env) (s : Sys) (id : FileId) : Reader → Disk → Kernel → Prop
  | like {d₁ k₁ d k} (before : E.Goes s.disk s.kern d₁ k₁) (goes : E.Goes d₁ k₁ d k)
    (read : s.reader.bufferStart + s.reader.pending ≤ (d₁.files id).size)
    (head : ((d.files id).bytes.take headMax).take s.reader.head.length = s.reader.head) :
    Passes E s id { s.reader with head := (d.files id).bytes.take headMax } d k
  | unknown {d k} (goes : E.Goes s.disk s.kern d k) (code : ℕ)
    (fail : Fault.fail code ∈ s.kern.oracle .fstatCheck ∨ Fault.fail code ∈ s.kern.oracle .preadRefresh) :
    Passes E s id s.reader d k

theorem Passes.goes' {r : Reader} {d : Disk} {k : Kernel} (h : E.Passes s id r d k) : E.Goes s.disk s.kern d k := by
  cases h with
  | like before goes _ _ => exact E.trans before goes
  | unknown goes _ _ => exact goes

/-- the file `id` had other content at some point: the reader started again, and is `r` now -/
structure Restarts (E : Env) (s : Sys) (id : FileId) (r : Reader) (d : Disk) (k : Kernel) : Prop where
  goes : E.Goes s.disk s.kern d k
  unlike : ∃ d₁ k₁, E.Goes s.disk s.kern d₁ k₁ ∧ E.Goes d₁ k₁ d k ∧ ¬ s.reader.Like (d₁.files id).bytes
  reader : ∃ head failed, E.HeadOf id head s.disk s.kern d k ∧ r = s.reader.restarted head failed

theorem checkFile {Q : Bool → Sys → Prop} (hs : E.Ready s) (hc : E.Killable → ∀ s, C s)
    (h : ∀ r d k, E.Passes s id r d k → Q true ⟨d, r, s.log, k⟩)
    (hreset : ∀ r d k l, E.Restarts s id r d k → resets l = resets s.log + 1 → Q false ⟨d, r, l, k⟩) :
    wp (FrM.checkFile id) Q C s := by
  have hreset' : ∀ m d k, E.Goes s.disk s.kern d k → m.isReset = true → ¬ s.reader.Like (d.files id).bytes →
      wp (do
        FrM.resetFile id m
        pure false) Q C ⟨d, s.reader, s.log, k⟩ := by
    intro m d k hgo hm hunlike
    rw [wp_bind]
    refine resetFile (E.right hgo) hc hm fun head failed d' k' l hgo' hl hhead => ?_
    exact hreset _ d' k' l ⟨E.trans hgo hgo', ⟨d, k, hgo, hgo', hunlike⟩, head, failed, hhead.before hgo, rfl⟩ hl
  unfold FrM.checkFile
  rw [wp_bind]
  refine fstat hs (fun hk => hc hk _) (fun d k hgo _ => ?_) fun code d k hgo _ hf => ?_
  swap
  · exact h _ d k (.unknown hgo code (Or.inl hf))
  dsimp only
  rw [wp_bind, wp_get]
  by_cases hshort : (d.files id).size < s.reader.bufferStart + s.reader.pending
  · rw [if_pos hshort]
    exact hreset' _ d k hgo rfl fun hlike => absurd hlike.1 (Nat.not_le.2 hshort)
  · rw [if_neg hshort, wp_bind]
    refine refreshHead (E.right hgo) hc (fun d' k' hgo' hhead => ?_) (fun d' k' hgo' hhead => ?_)
      fun code d' k' hgo' hf => ?_
    · exact h _ d' k' (.like hgo hgo' (Nat.not_lt.1 hshort) hhead)
    · exact hreset' _ d' k' (E.trans hgo hgo') rfl fun hlike => hhead hlike.2
    · exact h _ d' k' (.unknown (E.trans hgo hgo') code (Or.inr ((E.calls hgo _).subset hf)))

theorem fillBuffer {Q : Except ℕ ℕ → Sys → Prop} (hs : E.Ready s) (hc : E.Killable → ∀ s, C s)
    (h : ∀ chunk d k, E.Goes s.disk s.kern d k →
      chunk <+: (d.files id).bytes.drop (s.reader.bufferStart + s.reader.pending) →
      (chunk = [] → (d.files id).bytes.drop (s.reader.bufferStart + s.reader.pending) = []) →
      Q (.ok chunk.length) ⟨d, { s.reader with buffer := s.reader.rest ++ chunk, pos := 0 }, s.log, k⟩)
    (hfail : ∀ code d k l, E.Goes s.disk s.kern d k → resets l = resets s.log →
      Fault.fail code ∈ s.kern.oracle .preadFill → Q (.error code) ⟨d, s.reader, l, k⟩) :
    wp (FrM.fillBuffer id) Q C s := by
  unfold FrM.fillBuffer
  rw [wp_bind, wp_get, wp_bind]
  refine readChunk hs (fun hk => hc hk _) (fun chunk d k hgo _ hchunk hempty => ?_) fun code d k hgo _ hf => ?_
  · exact h chunk d k hgo hchunk hempty
  · rw [wp_bind]
    refine wp_noteOther rfl fun l hl => ?_
    exact hfail code d k l hgo hl hf

/-- the path leads to another file -/
def Elsewhere (d : Disk) (r : Reader) : Prop := ∃ node, d.path = some node ∧ node.file ≠ r.file

theorem pathReplaced {Q : Bool → Sys → Prop} (hs : E.Ready s) (hc : E.Killable → ∀ s, C s)
    (hno : ∀ d k, E.Goes s.disk s.kern d k → Q false ⟨d, s.reader, s.log, k⟩)
    (hyes : ∀ d k, E.Goes s.disk s.kern d k → Elsewhere d s.reader → Q true ⟨d, s.reader, s.log, k⟩) :
    wp FrM.pathReplaced Q C s := by
  unfold FrM.pathReplaced
  rw [wp_bind]
  refine statPath hs (fun hk => hc hk _) fun node d k hgo _ hnode => ?_
  cases node with
  | none => exact hno d k hgo
  | some node =>
    have hpath : d.path = some node := by
      rcases hnode with h0 | h0
      · cases h0
      · exact h0.symm
    dsimp only
    rw [wp_bind, wp_get, wp_pure]
    by_cases hne : node.file ≠ s.reader.file
    · rw [decide_eq_true hne]
      exact hyes d k hgo ⟨node, hpath, hne⟩
    · rw [decide_eq_false hne]
      exact hno d k hgo

/-- a last line which did not grow for a while is returned -/
theorem waitForMore {Q : Option Line → Sys → Prop} {tNow : ℤ} {r : Reader} {seen : Bool} {l : List Message}
    {d : Disk} {k : Kernel}
    (h : ∀ since, Q none ⟨d, { r.packed false with incompleteSince := since }, l, k⟩)
    (hpiece : 0 < r.settings.incompleteSec → r.incompleteSince ≠ 0 →
      (r.settings.incompleteSec : ℤ) ≤ tNow - r.incompleteSince → 0 < r.pending → r.skipping = false →
      Q (some (r.packed false).emitRemainder.1) ⟨d, (r.packed false).emitRemainder.2, l, k⟩) :
    wp (FrM.waitForMore tNow) Q C ⟨d, r.packed seen, l, k⟩ := by
  unfold FrM.waitForMore
  rw [wp_bind, wp_setReader, wp_bind, wp_get]
  dsimp only
  by_cases hwait : 0 < (r.packed seen).settings.incompleteSec ∧
      0 < ({ r.packed seen with rotationSeen := false } : Reader).pending ∧ (r.packed seen).skipping = false
  · rw [if_pos hwait]
    by_cases hsince : (r.packed seen).incompleteSince = 0
    · rw [if_pos hsince]
      exact h tNow
    · rw [if_neg hsince]
      by_cases hlong : ((r.packed seen).settings.incompleteSec : ℤ) ≤ tNow - (r.packed seen).incompleteSince
      · rw [if_pos hlong]
        have hpending : 0 < r.pending := by
          rw [← r.packed_pending false]
          exact hwait.2.1
        exact hpiece hwait.1 hsince hlong hpending hwait.2.2
      · rw [if_neg hlong]
        exact h r.incompleteSince
  · rw [if_neg hwait]
    exact h r.incompleteSince

theorem leaveFile {Q : Option Line → Sys → Prop} {again : FrM (Option Line)} {r : Reader} {l : List Message}
    {d : Disk} {k : Kernel}
    (hseen : Q none ⟨d, r.packed true, l, k⟩)
    (hpiece : 0 < r.pending → r.skipping = false → r.rotationSeen = true →
      Q (some (r.packed true).emitRemainder.1) ⟨d, (r.packed true).emitRemainder.2, l, k⟩)
    (hclose : r.rotationSeen = true → wp again Q C ⟨d, r.closeFile, l, k⟩) :
    wp (FrM.leaveFile again) Q C ⟨d, r.packed r.rotationSeen, l, k⟩ := by
  unfold FrM.leaveFile
  rw [wp_bind, wp_get]
  dsimp only
  cases hrot : r.rotationSeen with
  | false =>
    have hseen' : (r.packed false).rotationSeen = false := rfl
    rw [if_pos hseen']
    exact hseen
  | true =>
    have hseen' : (r.packed true).rotationSeen ≠ false := by simp [Reader.packed]
    rw [if_neg hseen']
    by_cases hrest : 0 < (r.packed true).pending ∧ (r.packed true).skipping = false
    · rw [if_pos hrest]
      rw [r.packed_pending] at hrest
      exact hpiece hrest.1 hrest.2 hrot
    · rw [if_neg hrest]
      exact hclose hrot

/-- no line was in the buffer, the file was checked, and it was read to its end: the reader is `r` now -/
structure Ends (E : Env) (s : Sys) (id : FileId) (r : Reader) (d : Disk) (k : Kernel) : Prop where
  checked : ∃ r₀ d₁ k₁, s.reader.extractLine = (none, r₀) ∧ E.Passes { s with reader := r₀ } id r d₁ k₁ ∧
    E.Goes d₁ k₁ d k ∧ (d.files id).bytes.drop (r.bufferStart + r.pending) = []

theorem Ends.goes {r : Reader} {d : Disk} {k : Kernel} (h : E.Ends s id r d k) : E.Goes s.disk s.kern d k := by
  obtain ⟨r₀, d₁, k₁, -, hpass, hgo, -⟩ := h.checked
  exact E.trans hpass.goes' hgo

/-- a round of the loop, with the ways in which it ends or goes on -/
theorem readRound {Q : Option Line → Sys → Prop} {tNow : ℤ} {again : FrM (Option Line)} (hs : E.Ready s)
    (hc : E.Killable → ∀ s, C s)
    (hline : ∀ line r, s.reader.extractLine = (some line, r) → Q (some line) ⟨s.disk, r, s.log, s.kern⟩)
    (hreset : ∀ r₀ r d k l, s.reader.extractLine = (none, r₀) → E.Restarts { s with reader := r₀ } id r d k →
      resets l = resets s.log + 1 → wp again Q C ⟨d, r, l, k⟩)
    (hmore : ∀ r₀ r d₁ k₁ chunk d k, s.reader.extractLine = (none, r₀) → E.Passes { s with reader := r₀ } id r d₁ k₁ →
      E.Goes d₁ k₁ d k → chunk ≠ [] → chunk <+: (d.files id).bytes.drop (r.bufferStart + r.pending) →
      wp again Q C ⟨d, { r with
        buffer := r.rest ++ chunk, pos := 0, rotationSeen := false, incompleteSince := 0 }, s.log, k⟩)
    (hstop : ∀ r₀ r d₁ k₁ code d k l, s.reader.extractLine = (none, r₀) → E.Passes { s with reader := r₀ } id r d₁ k₁ →
      E.Goes d₁ k₁ d k → resets l = resets s.log → Fault.fail code ∈ s.kern.oracle .preadFill → Q none ⟨d, r, l, k⟩)
    (hwait : ∀ r since d₁ k₁ d k, E.Ends s id r d₁ k₁ → E.Goes d₁ k₁ d k →
      Q none ⟨d, { r.packed false with incompleteSince := since }, s.log, k⟩)
    (htime : ∀ r d₁ k₁ d k, E.Ends s id r d₁ k₁ → E.Goes d₁ k₁ d k → 0 < r.pending → r.skipping = false →
      0 < r.settings.incompleteSec → r.incompleteSince ≠ 0 →
      (r.settings.incompleteSec : ℤ) ≤ tNow - r.incompleteSince →
      Q (some (r.packed false).emitRemainder.1) ⟨d, (r.packed false).emitRemainder.2, s.log, k⟩)
    (hseen : ∀ r d₁ k₁ d k, E.Ends s id r d₁ k₁ → E.Goes d₁ k₁ d k → Elsewhere d r →
      Q none ⟨d, r.packed true, s.log, k⟩)
    (hpiece : ∀ r d₁ k₁ d k, E.Ends s id r d₁ k₁ → E.Goes d₁ k₁ d k → Elsewhere d r → 0 < r.pending →
      r.skipping = false → r.rotationSeen = true →
      Q (some (r.packed true).emitRemainder.1) ⟨d, (r.packed true).emitRemainder.2, s.log, k⟩)
    (hclose : ∀ r d₁ k₁ d k, E.Ends s id r d₁ k₁ → E.Goes d₁ k₁ d k → Elsewhere d r → r.rotationSeen = true →
      wp again Q C ⟨d, r.closeFile, s.log, k⟩) : wp (FrM.readRound tNow again id) Q C s := by
  -- behind the check
  have hread : ∀ r₀ r d₁ k₁, s.reader.extractLine = (none, r₀) → E.Passes { s with reader := r₀ } id r d₁ k₁ →
      wp (FrM.fillRound tNow again id) Q C ⟨d₁, r, s.log, k₁⟩ := by
    intro r₀ r d₁ k₁ hnone hr
    unfold FrM.fillRound
    rw [wp_bind]
    refine fillBuffer (E.right hr.goes') hc (fun chunk d₂ k₂ hgo₂ hchunk hempty => ?_)
      fun code d₂ k₂ l hgo₂ hl hf => ?_
    · cases chunk with
      | cons b chunk =>
        dsimp only [List.length_cons]
        rw [wp_bind, wp_setReader]
        exact hmore r₀ r d₁ k₁ (b :: chunk) d₂ k₂ hnone hr hgo₂ (List.cons_ne_nil _ _) hchunk
      | nil =>
        have hend : E.Ends s id r d₂ k₂ := ⟨r₀, d₁, k₁, hnone, hr, hgo₂, hempty rfl⟩
        have hpacked : { r with buffer := r.rest ++ [], pos := 0 } = r.packed r.rotationSeen := by
          rw [List.append_nil]
          rfl
        dsimp only [List.length_nil]
        rw [hpacked, wp_bind]
        refine pathReplaced (E.right hgo₂) hc (fun d₃ k₃ hgo₃ => ?_) fun d₃ k₃ hgo₃ helse => ?_
        · simp only [Bool.false_eq_true, if_false]
          apply waitForMore
          · exact fun since => hwait r since d₂ k₂ d₃ k₃ hend hgo₃
          · exact fun hsec hsince hlong hpending hskip => htime r d₂ k₂ d₃ k₃ hend hgo₃ hpending hskip hsec hsince hlong
        · have helse' : Elsewhere d₃ r := helse
          simp only [if_true]
          apply leaveFile
          · exact hseen r d₂ k₂ d₃ k₃ hend hgo₃ helse'
          · exact fun hpending hskip hrot => hpiece r d₂ k₂ d₃ k₃ hend hgo₃ helse' hpending hskip hrot
          · exact fun hrot => hclose r d₂ k₂ d₃ k₃ hend hgo₃ helse' hrot
    · exact hstop r₀ r d₁ k₁ code d₂ k₂ l hnone hr hgo₂ hl ((E.calls hr.goes' _).subset hf)
  unfold FrM.readRound
  rw [wp_bind, wp_get]
  cases he : s.reader.extractLine with
  | mk line r =>
    dsimp only
    rw [wp_bind, wp_setReader]
    cases line with
    | some line => exact hline line r he
    | none =>
      dsimp only
      rw [wp_bind]
      refine checkFile hs hc (fun r' d k hr => ?_) fun r' d k l hr hl => ?_
      · exact hread r r' d k he hr
      · exact hreset r r' d k l he hr hl

/-! ## Commit -/

/-- a position is saved when it is one of the generation, behind the one before, and not behind the lines -/
theorem commit {Q : Bool → Sys → Prop} {generation endOffset : ℕ} (hs : E.Ready s) (hc : E.Killable → ∀ s, C s)
    (hskip : ∀ b l, Q b ⟨s.disk, s.reader, l, s.kern⟩)
    (hsave : ∀ b committed failed d k l, generation = s.reader.generation → s.reader.committed < endOffset →
      endOffset ≤ s.reader.bufferStart → (committed = endOffset ∨ committed = s.reader.committed) →
      E.Goes s.disk s.kern d k → Q b ⟨d, { s.reader with committed := committed, saveFailed := failed }, l, k⟩) :
    wp (FrM.commit generation endOffset) Q C s := by
  unfold FrM.commit
  rw [wp_bind, wp_get]
  by_cases hopened : s.reader.opened = false
  · rw [if_pos hopened]
    exact hskip false s.log
  · rw [if_neg hopened]
    by_cases hgen : generation ≠ s.reader.generation
    · rw [if_pos hgen]
      exact hskip true s.log
    · rw [if_neg hgen]
      by_cases hbehind : s.reader.bufferStart < endOffset
      · rw [if_pos hbehind]
        exact hskip false _
      · rw [if_neg hbehind]
        by_cases hold : endOffset ≤ s.reader.committed
        · rw [if_pos hold]
          exact hskip true s.log
        · rw [if_neg hold, wp_bind, wp_setReader, wp_bind]
          refine saveState hs (killed_of hc) fun b failed d k l hgo _ => ?_
          have hsave' := fun committed h => hsave b committed failed d k l (not_not.1 hgen) (Nat.not_le.1 hold)
            (Nat.not_lt.1 hbehind) h hgo
          cases b with
          | true => exact hsave' endOffset (Or.inl rfl)
          | false => exact hsave' s.reader.committed (Or.inr rfl)

end Env

end DominoLogForwarder.FileReader
