/-
`ReadLine` and `Commit` on files which only grow.

`Stays`: the call ends on the file it was reading. It returned the first line which was left (`Found`), or what stood
behind the last new line of a file which is finished (`Remainder`), or there was nothing more (`Nothing`). `Outcome`
adds the calls which open a file. `readLoop_spec` is the induction over the rounds of the loop: it says how the call
ends, and how many rounds are enough for that (`need`).
-/
import DominoLogForwarder.FileReader.OpenSpec

namespace DominoLogForwarder.FileReader

open CrashProg Lines FrM
open Wal (File offMax)

variable {P : Option Node → Prop} {C : Sys → Prop} {s : Sys} {id : FileId}

/-! ## The calls of a round -/

section Round

theorem wp_refreshHead {Q : Bool → Sys → Prop} (hcalm : Calm P s.disk s.kern) (hon : s.reader.On s.disk id)
    (h : ∀ r d k, Later P s.disk s.kern d k → d.state = s.disk.state → r.On d id →
      r = { s.reader with head := r.head } →
      Q true ⟨d, r, s.log, k⟩)
    (hc : s.kern.crashIn ≠ none → C s) : wp (refreshHead id) Q C s := by
  unfold refreshHead
  rw [wp_bind]
  refine wp_readAt hcalm (by decide) (fun d k hl hs => ?_) (fun code d k _ hl hs => ?_) hc
  · have hgrown := hl.files id
    have hhead := hon.holds.head.trans hgrown
    have hlen := hon.holds.head_le
    have hsame : (((d.files id).bytes.drop 0).take headMax).take s.reader.head.length = s.reader.head := by
      rw [List.drop_zero, List.take_take, min_eq_left hlen]
      exact (List.prefix_iff_eq_take.1 hhead).symm
    dsimp only
    rw [wp_bind, wp_get, if_pos hsame, wp_bind, wp_setReader, wp_pure]
    have hon' := hon.mono hl hs
    have hholds := hon'.holds
    refine h _ d k hl hs ⟨hon'.fd, hon'.file, hon'.opened, hon'.firstOpen, ⟨hholds.pos_le, hholds.rest, hholds.read_le,
      hholds.scanFrom, hholds.scanFrom_le, ?_, ?_, hholds.committed_le⟩, hon'.saved⟩ rfl
    · simp only [List.drop_zero]
      exact List.take_prefix _ _
    · simp only [List.length_take]
      exact min_le_left _ _
  · exact h _ d k hl hs (hon.mono hl hs) rfl

/-- a file which only grew passes the check -/
theorem wp_checkFile {Q : Bool → Sys → Prop} (hcalm : Calm P s.disk s.kern) (hon : s.reader.On s.disk id)
    (h : ∀ r d k, Later P s.disk s.kern d k → d.state = s.disk.state → r.On d id →
      r = { s.reader with head := r.head } →
      Q true ⟨d, r, s.log, k⟩)
    (hc : ∀ d k, s.kern.crashIn ≠ none → Later P s.disk s.kern d k → d.state = s.disk.state →
      C ⟨d, s.reader, s.log, k⟩) : wp (checkFile id) Q C s := by
  unfold checkFile
  rw [wp_bind]
  refine wp_fstat hcalm (fun d k hl hs => ?_) (fun code d k _ hl hs => ?_) fun hcr => hc _ _ hcr (.refl hcalm) rfl
  · have hon' := hon.mono hl hs
    have hsize : ¬ (d.files id).size < s.reader.bufferStart + s.reader.pending := Nat.not_lt.2 hon'.holds.read_le
    dsimp only
    rw [wp_bind, wp_get, if_neg hsize, wp_bind]
    refine wp_refreshHead hl.calm hon' (fun r d' k' hl' hs' hr heq => ?_)
      fun hcr => hc d k (fun h0 => hcr (hl.alive h0)) hl hs
    exact h r d' k' (hl.trans hl') (hs'.trans hs) hr heq
  · exact h _ d k hl hs (hon.mono hl hs) rfl

/-- the buffer with a chunk behind it -/
def Reader.filled (r : Reader) (chunk : Bytes) : Reader := { r with buffer := r.buffer.drop r.pos ++ chunk, pos := 0 }

theorem Reader.filled_pending (r : Reader) (chunk : Bytes) : (r.filled chunk).pending = r.pending + chunk.length := by
  simp [Reader.filled, Reader.pending]

theorem Reader.Holds.filled {r : Reader} {c chunk : Bytes} (h : r.Holds c)
    (hchunk : chunk <+: c.drop (r.bufferStart + r.pending)) : (r.filled chunk).Holds c := by
  have hrest : (r.filled chunk).rest = r.rest ++ chunk := rfl
  obtain ⟨y, hy⟩ := h.rest
  have hdrop : c.drop (r.bufferStart + r.pending) = y := by
    rw [← List.drop_drop, ← hy, ← Reader.length_rest, List.drop_left]
  refine ⟨Nat.zero_le _, ?_, ?_, ?_, ?_, h.head, h.head_le, h.committed_le⟩
  · rw [hrest]
    obtain ⟨z, hz⟩ := hchunk
    refine ⟨z, ?_⟩
    rw [List.append_assoc, hz, hdrop, hy]
    rfl
  · rw [r.filled_pending]
    have hlen := hchunk.length_le
    have hread := h.read_le
    rw [List.length_drop] at hlen
    have hstart : (r.filled chunk).bufferStart = r.bufferStart := rfl
    omega
  · rw [hrest]
    have hfrom : (r.filled chunk).scanFrom = r.scanFrom := rfl
    have hle : r.scanFrom ≤ r.rest.length := r.length_rest ▸ h.scanFrom_le
    rw [hfrom, List.take_append_of_le_length hle]
    exact h.scanFrom
  · rw [r.filled_pending]
    exact h.scanFrom_le.trans (Nat.le_add_right _ _)

theorem wp_fillBuffer {Q : Except ℕ ℕ → Sys → Prop} (hcalm : Calm P s.disk s.kern) (hon : s.reader.On s.disk id)
    (h : ∀ chunk d k, Later P s.disk s.kern d k → d.state = s.disk.state → (s.reader.filled chunk).On d id →
      (chunk = [] → s.reader.bufferStart + s.reader.pending = (d.files id).size) →
      Q (.ok chunk.length) ⟨d, s.reader.filled chunk, s.log, k⟩)
    (hfail : ∀ code d k l, Fault.fail code ∈ s.kern.oracle .preadFill → Later P s.disk s.kern d k →
      d.state = s.disk.state → Q (.error code) ⟨d, s.reader, l, k⟩)
    (hc : s.kern.crashIn ≠ none → C s) : wp (fillBuffer id) Q C s := by
  unfold fillBuffer
  rw [wp_bind, wp_get, wp_bind]
  refine wp_readChunk hcalm (fun chunk d k hl hs hchunk hempty => ?_) (fun code d k hf hl hs => ?_) hc
  · dsimp only
    rw [wp_bind, wp_setReader, wp_pure]
    have hon' := hon.mono hl hs
    have hholds := hon'.holds.filled hchunk
    refine h chunk d k hl hs ⟨hon'.fd, hon'.file, hon'.opened, hon'.firstOpen, hholds, hon'.saved⟩ fun h0 => ?_
    have hend := List.drop_eq_nil_iff.1 (hempty h0)
    exact le_antisymm hon'.holds.read_le hend
  · dsimp only
    rw [wp_bind]
    refine wp_note _ fun l => ?_
    rw [wp_pure]
    exact hfail code d k l hf hl hs

theorem wp_pathReplaced {Q : Bool → Sys → Prop} (hcalm : Calm P s.disk s.kern) (hon : s.reader.On s.disk id)
    (h : ∀ b d k, Later P s.disk s.kern d k → d.state = s.disk.state →
      (b = true → ∃ node, P (some node) ∧ node.file ≠ id) → Q b ⟨d, s.reader, s.log, k⟩)
    (hc : s.kern.crashIn ≠ none → C s) : wp pathReplaced Q C s := by
  unfold pathReplaced
  rw [wp_bind]
  refine wp_statPath hcalm (fun node d k hl hs hnode => ?_) hc
  cases node with
  | none => exact h false d k hl hs fun h0 => by cases h0
  | some node =>
    dsimp only
    rw [wp_bind, wp_get, wp_pure]
    refine h _ d k hl hs fun hb => ⟨node, hnode node rfl, ?_⟩
    have hfile := hon.file
    simpa [hfile] using hb

end Round

/-! ## How a call ends -/

/-- the first line which was left -/
structure Found (r : Reader) (c : Bytes) (line : Line) (r' : Reader) : Prop where
  generation : line.generation = r.generation
  endOffset : line.endOffset = r'.bufferStart
  future : ∀ c', c <+: c' → r.future c' = Item.of (r.lineStart c) line :: r'.future c'
  start_le : r.bufferStart ≤ r.lineStart c
  lt_end : r.lineStart c < line.endOffset

/-- what stands behind the last new line, of a file which is finished or did not grow for a while. `c₀` is the content
at the start of the call, `c` the one at its end -/
structure Remainder (P : Option Node → Prop) (id : FileId) (r : Reader) (c₀ c : Bytes) (line : Line) (r' : Reader) :
    Prop where
  generation : line.generation = r.generation
  endOffset : line.endOffset = r'.bufferStart
  gone : ∃ c', c₀ <+: c' ∧ c' <+: c ∧ r.future c' = []
  cause : 0 < r.settings.incompleteSec ∨ ∃ node, P (some node) ∧ node.file ≠ id

/-- no line: everything was returned, or the file could not be read -/
structure Nothing (k : Kernel) (r : Reader) (c₀ c : Bytes) (r' : Reader) : Prop where
  future : ∀ c', c <+: c' → r.future c' = r'.future c'
  gone : (∃ c', c₀ <+: c' ∧ c' <+: c ∧ r.future c' = []) ∨ ∃ code, Fault.fail code ∈ k.oracle .preadFill

/-- the call ends on the file it was reading -/
structure Stays (P : Option Node → Prop) (d : Disk) (k : Kernel) (r : Reader) (id : FileId) (line : Option Line)
    (s' : Sys) : Prop where
  on : s'.reader.On s'.disk id
  keeps : r.Keeps s'.reader
  start_le : r.bufferStart ≤ s'.reader.bufferStart
  result : match line with
    | some line => Found r (s'.disk.files id).bytes line s'.reader ∨
        Remainder P id r (d.files id).bytes (s'.disk.files id).bytes line s'.reader
    | none => Nothing k r (d.files id).bytes (s'.disk.files id).bytes s'.reader

/-- the reader lets go of its file: it saw the rotation before, everything was read, and the path leads elsewhere -/
structure Leaving (P : Option Node → Prop) (d : Disk) (r : Reader) (id : FileId) : Prop where
  seen : r.rotationSeen = true
  read : r.bufferStart + r.pending = (d.files id).size
  done : r.pending = 0 ∨ r.skipping = true
  replaced : ∃ node, P (some node) ∧ node.file ≠ id

/-- how a call ends for a reader `r` which has no file open -/
inductive Opens (P : Option Node → Prop) (d : Disk) (k : Kernel) (r : Reader) : Option Line → Sys → Prop where
  | failed (e : ℕ) (s' : Sys) : OpenFails P k → s'.reader = { r with lastOpenError := e } → s'.disk.state = d.state →
      Opens P d k r none s'
  | opened (id : FileId) (o : ℕ) (head : Bytes) (d₀ d₁ : Disk) (k₀ k₁ : Kernel) (line : Option Line) (s' : Sys) :
      Later P d k d₀ k₀ → d₀.state = d.state → Later P d₀ k₀ d₁ k₁ → P (some ⟨id, true⟩) → Resolved r d₀ id o →
      (r.started id o head).On d₁ id → Later P d₁ k₁ s'.disk s'.kern →
      Stays P d₁ k₁ (r.started id o head) id line s' → Opens P d k r line s'

inductive Outcome (P : Option Node → Prop) (s : Sys) : Option Line → Sys → Prop where
  | stays (id : FileId) (line : Option Line) (s' : Sys) : s.reader.fd = some id →
      Stays P s.disk s.kern s.reader id line s' → Outcome P s line s'
  | opens (line : Option Line) (s' : Sys) : s.reader.fd = none → Opens P s.disk s.kern s.reader line s' →
      Outcome P s line s'
  | leaves (id : FileId) (d₁ : Disk) (k₁ : Kernel) (line : Option Line) (s' : Sys) : s.reader.fd = some id →
      Leaving P s.disk s.reader id → Later P s.disk s.kern d₁ k₁ → d₁.state = s.disk.state →
      Opens P d₁ k₁ s.reader.closeFile line s' → Outcome P s line s'

/-- what a call which is killed leaves behind: the state file is the one before, or the one of a file which was
opened -/
def Killed (P : Option Node → Prop) (s s' : Sys) : Prop :=
  s'.disk.state = s.disk.state ∨
    ∃ id o, SavedAt s'.disk id o ∧ P (some ⟨id, true⟩) ∧
      ((s.reader.fd = none ∧ ∃ d₀ k₀, Later P s.disk s.kern d₀ k₀ ∧ d₀.state = s.disk.state ∧
          Resolved s.reader d₀ id o) ∨
        o = 0 ∧ ∃ id₀, s.reader.fd = some id₀ ∧ Leaving P s.disk s.reader id₀)

/-- where a call can start -/
structure Ready (P : Option Node → Prop) (s : Sys) : Prop where
  calm : Calm P s.disk s.kern
  reliable : s.kern.Reliable
  opened : s.reader.opened = true
  clean : Clean s.disk
  file : (∃ id, s.reader.On s.disk id) ∨
    s.reader.fd = none ∧ s.reader.skipping = false ∧ s.reader.rotationSeen = false

/-- no file which the reader can come across will be larger than `L` -/
def Bounded (P : Option Node → Prop) (s : Sys) (L : ℕ) : Prop :=
  ∀ id, (s.reader.fd = some id ∨ ∃ node, P (some node) ∧ node.file = id) → (s.kern.final s.disk.files id).size ≤ L

/-- how many rounds are enough -/
def need (L : ℕ) (r : Reader) : ℕ :=
  match r.fd with
  | none => L + 1
  | some _ => L - (r.bufferStart + r.pending) + 1 + if r.rotationSeen then L + 2 else 0

theorem Bounded.later {s₁ : Sys} {L : ℕ} (h : Bounded P s L) (hl : Later P s.disk s.kern s₁.disk s₁.kern)
    (hfd : s₁.reader.fd = s.reader.fd ∨ s₁.reader.fd = none) : Bounded P s₁ L := by
  intro id' hid
  rw [hl.final]
  refine h id' ?_
  rcases hid with hid | hnode
  · rcases hfd with hfd | hfd
    · exact Or.inl (hfd ▸ hid)
    · rw [hfd] at hid
      cases hid
  · exact Or.inr hnode

theorem Bounded.size_le {L : ℕ} (h : Bounded P s L) (hcalm : Calm P s.disk s.kern) (hfd : s.reader.fd = some id) :
    (s.disk.files id).bytes.length ≤ L :=
  (hcalm.size_le id).length_le.trans (h id (Or.inl hfd))

/-- a part of the call in which nothing was returned comes before the rest -/
theorem Stays.before {d d₁ : Disk} {k k₁ : Kernel} {r r₁ : Reader} {line : Option Line} {s' : Sys}
    (h : Stays P d₁ k₁ r₁ id line s') (hl : Later P d k d₁ k₁) (hl' : Later P d₁ k₁ s'.disk s'.kern)
    (hfut : ∀ c', (d₁.files id).bytes <+: c' → r.future c' = r₁.future c') (hkeeps : r.Keeps r₁)
    (hle : r.bufferStart ≤ r₁.bufferStart) : Stays P d k r id line s' := by
  obtain ⟨hon, hkeeps', hle', hres⟩ := h
  have hfut' : ∀ c', (s'.disk.files id).bytes <+: c' → r.future c' = r₁.future c' :=
    fun c' hc => hfut c' ((hl'.files id).trans hc)
  refine ⟨hon, hkeeps.trans hkeeps', hle.trans hle', ?_⟩
  cases line with
  | none =>
    refine ⟨fun c' hc => (hfut' c' hc).trans (hres.future c' hc), ?_⟩
    rcases hres.gone with ⟨c', hc, hc', hnil⟩ | ⟨code, hcode⟩
    · exact Or.inl ⟨c', (hl.files id).trans hc, hc', (hfut c' hc).trans hnil⟩
    · exact Or.inr ⟨code, (hl.calls _).subset hcode⟩
  | some line =>
    rcases hres with hfound | hrem
    · have hstart : r.lineStart (s'.disk.files id).bytes = r₁.lineStart (s'.disk.files id).bytes := by
        have h1 := hfound.future _ (List.prefix_refl _)
        have h2 := (hfut' _ (List.prefix_refl _)).trans h1
        exact (Reader.lineStart_of_future h2).symm.trans (Reader.lineStart_of_future h1)
      refine Or.inl ⟨hfound.generation.trans hkeeps.generation, hfound.endOffset, fun c' hc => ?_, ?_, ?_⟩
      · rw [hfut' c' hc, hfound.future c' hc, hstart]
      · rw [hstart]
        exact hle.trans hfound.start_le
      · rw [hstart]
        exact hfound.lt_end
    · obtain ⟨c', hc, hc', hnil⟩ := hrem.gone
      refine Or.inr ⟨hrem.generation.trans hkeeps.generation, hrem.endOffset,
        ⟨c', (hl.files id).trans hc, hc', (hfut c' hc).trans hnil⟩, ?_⟩
      rw [← hkeeps.settings]
      exact hrem.cause

/-! ## The end of the file -/

/-- the call has reached the end of the file in the state `⟨d, r, l, k⟩`, without a line -/
structure AtEnd (P : Option Node → Prop) (s : Sys) (id : FileId) (d : Disk) (r : Reader) (k : Kernel) : Prop where
  later : Later P s.disk s.kern d k
  state : d.state = s.disk.state
  on : r.On d id
  keeps : s.reader.Keeps r
  start_le : s.reader.bufferStart ≤ r.bufferStart
  future : ∀ c', (d.files id).bytes <+: c' → s.reader.future c' = r.future c'
  gone : ∃ c', (s.disk.files id).bytes <+: c' ∧ c' <+: (d.files id).bytes ∧ s.reader.future c' = []

variable {d : Disk} {r : Reader} {k : Kernel}

theorem AtEnd.mono {d' : Disk} {k' : Kernel} (h : AtEnd P s id d r k) (hl : Later P d k d' k')
    (hs : d'.state = d.state) :
    AtEnd P s id d' r k' := by
  obtain ⟨c', hc, hc', hnil⟩ := h.gone
  exact ⟨h.later.trans hl, hs.trans h.state, h.on.mono hl hs, h.keeps, h.start_le,
    fun c' hc => h.future c' ((hl.files id).trans hc), ⟨c', hc, hc'.trans (hl.files id), hnil⟩⟩

/-- what the reader remembers about the end of the file -/
theorem AtEnd.touch (h : AtEnd P s id d r k) (seen : Bool) (since : ℤ) :
    AtEnd P s id d { r with rotationSeen := seen, incompleteSince := since } k :=
  ⟨h.later, h.state, ⟨h.on.fd, h.on.file, h.on.opened, h.on.firstOpen, ⟨h.on.holds.pos_le, h.on.holds.rest,
    h.on.holds.read_le, h.on.holds.scanFrom, h.on.holds.scanFrom_le, h.on.holds.head, h.on.holds.head_le,
    h.on.holds.committed_le⟩, h.on.saved⟩, ⟨h.keeps.settings, h.keeps.generation, h.keeps.committed⟩, h.start_le,
    h.future, h.gone⟩

theorem AtEnd.nothing (h : AtEnd P s id d r k) (l : List Message) :
    Stays P s.disk s.kern s.reader id none ⟨d, r, l, k⟩ :=
  ⟨h.on, h.keeps, h.start_le, h.future, Or.inl h.gone⟩

theorem AtEnd.remainder (h : AtEnd P s id d r k) (l : List Message)
    (hcause : 0 < s.reader.settings.incompleteSec ∨ ∃ node, P (some node) ∧ node.file ≠ id) :
    Stays P s.disk s.kern s.reader id (some r.emitRemainder.1) ⟨d, r.emitRemainder.2, l, k⟩ := by
  have hholds := h.on.holds
  have hread := hholds.read_le
  refine ⟨⟨h.on.fd, h.on.file, h.on.opened, h.on.firstOpen, ⟨le_rfl, List.nil_prefix, ?_, List.not_mem_nil, le_rfl,
    hholds.head, hholds.head_le, ?_⟩, h.on.saved⟩, ⟨h.keeps.settings, h.keeps.generation, h.keeps.committed⟩, ?_,
    Or.inr ⟨h.keeps.generation, rfl, h.gone, hcause⟩⟩
  · exact hread
  · exact hholds.committed_le.trans (Nat.le_add_right _ _)
  · exact h.start_le.trans (Nat.le_add_right _ _)

/-- the crash condition of a call which started in `s` with `rounds` rounds -/
def CallKilled (P : Option Node → Prop) (L : ℕ) (s : Sys) (rounds : ℕ) (s' : Sys) : Prop :=
  Later P s.disk s.kern s'.disk s'.kern ∧ Killed P s s' ∧ (s.kern.crashIn = none → rounds ≤ need L s.reader)

/-- the result of a call which started in `s` -/
def CallEnds (P : Option Node → Prop) (s : Sys) (line : Option Line) (s' : Sys) : Prop :=
  Later P s.disk s.kern s'.disk s'.kern ∧ Outcome P s line s'

theorem killed_of_state {L rounds : ℕ} (hcr : s.kern.crashIn ≠ none) (hl : Later P s.disk s.kern d k)
    (hs : d.state = s.disk.state) (l : List Message) : CallKilled P L s rounds ⟨d, r, l, k⟩ :=
  ⟨hl, Or.inl hs, fun h0 => absurd h0 hcr⟩

theorem wp_waitForMore {L rounds : ℕ} {tNow : ℤ} {l : List Message} (hfd : s.reader.fd = some id)
    (h : AtEnd P s id d r k) :
    wp (waitForMore tNow) (CallEnds P s) (CallKilled P L s rounds) ⟨d, r, l, k⟩ := by
  have hnothing : ∀ seen since, CallEnds P s none
      ⟨d, { r with rotationSeen := seen, incompleteSince := since }, l, k⟩ :=
    fun seen since => ⟨h.later, .stays id _ _ hfd ((h.touch seen since).nothing l)⟩
  unfold waitForMore
  rw [wp_bind, wp_setReader, wp_bind, wp_get]
  dsimp only
  by_cases hwait : 0 < r.settings.incompleteSec ∧ 0 < ({ r with rotationSeen := false } : Reader).pending ∧
      r.skipping = false
  · rw [if_pos hwait]
    have hsec : 0 < s.reader.settings.incompleteSec := h.keeps.settings ▸ hwait.1
    by_cases hsince : r.incompleteSince = 0
    · rw [if_pos hsince, wp_bind, wp_setReader, wp_pure]
      exact hnothing false tNow
    · rw [if_neg hsince]
      by_cases hlong : (r.settings.incompleteSec : ℤ) ≤ tNow - r.incompleteSince
      · rw [if_pos hlong]
        unfold emit
        rw [wp_bind, wp_get, wp_bind, wp_setReader, wp_pure]
        have hend := h.touch false r.incompleteSince
        exact ⟨hend.later, .stays id _ _ hfd (hend.remainder l (Or.inl hsec))⟩
      · rw [if_neg hlong, wp_pure]
        exact hnothing false r.incompleteSince
  · rw [if_neg hwait, wp_pure]
    exact hnothing false r.incompleteSince

/-- `again` keeps to the rules of a call with `rounds` rounds -/
def Again (P : Option Node → Prop) (L rounds : ℕ) (again : FrM (Option Line)) : Prop :=
  ∀ s₁, Ready P s₁ → Bounded P s₁ L → wp again (CallEnds P s₁) (CallKilled P L s₁ rounds) s₁

/-- a closed reader was reading `id` -/
theorem CallEnds.leaves {line : Option Line} {s' : Sys} {r₁ : Reader} {l : List Message} (hfd : s.reader.fd = some id)
    (hleaving : Leaving P s.disk s.reader id) (hl : Later P s.disk s.kern d k) (hs : d.state = s.disk.state)
    (hr₁ : r₁ = s.reader.closeFile) (h : CallEnds P ⟨d, r₁, l, k⟩ line s') : CallEnds P s line s' := by
  obtain ⟨hl', hout⟩ := h
  refine ⟨hl.trans hl', ?_⟩
  cases hout with
  | stays id' _ _ hfd' _ =>
    rw [hr₁] at hfd'
    cases hfd'
  | opens _ _ _ hopens => exact .leaves id d k line s' hfd hleaving hl hs (hr₁ ▸ hopens)
  | leaves id' _ _ _ _ hfd' =>
    rw [hr₁] at hfd'
    cases hfd'

theorem CallKilled.leaves {L rounds : ℕ} {s' : Sys} {r₁ : Reader} {l : List Message} (hfd : s.reader.fd = some id)
    (hfirst : s.reader.firstOpen = false) (hleaving : Leaving P s.disk s.reader id) (hl : Later P s.disk s.kern d k)
    (hs : d.state = s.disk.state) (hr₁ : r₁ = s.reader.closeFile) (h : CallKilled P L ⟨d, r₁, l, k⟩ rounds s') :
    CallKilled P L s (rounds + 1) s' := by
  obtain ⟨hl', hkilled, hneed⟩ := h
  refine ⟨hl.trans hl', ?_, fun h0 => ?_⟩
  · rcases hkilled with hst | ⟨id', o, hsaved, hp, hwhy⟩
    · exact Or.inl (hst.trans hs)
    · rcases hwhy with ⟨-, d₀, k₀, -, -, hres⟩ | ⟨-, id₀, hfd', -⟩
      · have ho : o = 0 := hres.later (by rw [hr₁]; exact hfirst)
        exact Or.inr ⟨id', o, hsaved, hp, Or.inr ⟨ho, id, hfd, hleaving⟩⟩
      · rw [hr₁] at hfd'
        cases hfd'
  · have hn := hneed (hl.alive h0)
    have hclosed : need L r₁ = L + 1 := by
      rw [hr₁]
      rfl
    have hopen : need L s.reader = L - (s.reader.bufferStart + s.reader.pending) + 1 + (L + 2) := by
      unfold need
      rw [hfd, hleaving.seen]
      rfl
    rw [hclosed] at hn
    omega

theorem wp_leaveFile {L rounds : ℕ} {l : List Message} {again : FrM (Option Line)} (hready : Ready P s)
    (hbound : Bounded P s L) (hfd : s.reader.fd = some id) (hfirst : s.reader.firstOpen = false)
    (hagain : Again P L rounds again) (h : AtEnd P s id d r k)
    (hread : s.reader.bufferStart + s.reader.pending = (s.disk.files id).size ∨ r.rotationSeen = false)
    (hseen : r.rotationSeen = s.reader.rotationSeen) (hclose : r.closeFile = s.reader.closeFile)
    (hdone : r.pending = 0 ∨ r.skipping = true → s.reader.pending = 0 ∨ s.reader.skipping = true)
    (hreplaced : ∃ node, P (some node) ∧ node.file ≠ id) :
    wp (leaveFile again) (CallEnds P s) (CallKilled P L s (rounds + 1)) ⟨d, r, l, k⟩ := by
  unfold leaveFile
  rw [wp_bind, wp_get]
  dsimp only
  by_cases hrot : r.rotationSeen = false
  · rw [if_pos hrot, wp_bind, wp_setReader, wp_pure]
    exact ⟨h.later, .stays id _ _ hfd ((h.touch true r.incompleteSince).nothing l)⟩
  · rw [if_neg hrot]
    by_cases hrest : 0 < r.pending ∧ r.skipping = false
    · rw [if_pos hrest]
      unfold emit
      rw [wp_bind, wp_get, wp_bind, wp_setReader, wp_pure]
      exact ⟨h.later, .stays id _ _ hfd (h.remainder l (Or.inr hreplaced))⟩
    · rw [if_neg hrest, wp_bind, wp_setReader]
      have hleaving : Leaving P s.disk s.reader id := by
        refine ⟨?_, hread.resolve_right hrot, hdone ?_, hreplaced⟩
        · rw [← hseen]
          simpa using hrot
        · by_cases hp : r.pending = 0
          · exact Or.inl hp
          · exact Or.inr (by simpa using fun hs => hrest ⟨Nat.pos_of_ne_zero hp, hs⟩)
      have hready' : Ready P ⟨d, r.closeFile, l, k⟩ := by
        refine ⟨h.later.calm, h.later.reliable hready.reliable, h.on.opened, hready.clean.mono h.later h.state, ?_⟩
        exact Or.inr ⟨rfl, rfl, rfl⟩
      refine wp_mono (hagain _ hready' (hbound.later h.later (Or.inr rfl)))
        (fun line s' hends => ?_) fun s' hkilled => ?_
      · exact hends.leaves hfd hleaving h.later h.state hclose
      · exact hkilled.leaves hfd hfirst hleaving h.later h.state hclose

/-! ## The loop -/

/-- the buffer part of a round: what `extractLine` and `refreshHead` left, with a chunk behind it -/
structure Filling (P : Option Node → Prop) (s : Sys) (id : FileId) (d : Disk) (r : Reader) (k : Kernel) : Prop where
  later : Later P s.disk s.kern d k
  state : d.state = s.disk.state
  on : r.On d id
  keeps : s.reader.Keeps r
  start_le : s.reader.bufferStart ≤ r.bufferStart
  read : r.bufferStart + r.pending = s.reader.bufferStart + s.reader.pending
  future : ∀ c', (d.files id).bytes <+: c' → s.reader.future c' = r.future c'
  starved : r.Starved
  rotationSeen : r.rotationSeen = s.reader.rotationSeen
  close : r.closeFile = s.reader.closeFile
  done : r.pending = 0 ∨ r.skipping = true → s.reader.pending = 0 ∨ s.reader.skipping = true

theorem Filling.atEnd {d' : Disk} {k' : Kernel} (h : Filling P s id d r k) (hl : Later P d k d' k')
    (hs : d'.state = d.state) (hon : (r.filled []).On d' id)
    (hall : r.bufferStart + r.pending = (d'.files id).size) : AtEnd P s id d' (r.filled []) k' := by
  have hfuture : ∀ c', (d'.files id).bytes <+: c' → s.reader.future c' = (r.filled []).future c' := by
    intro c' hc
    rw [h.future c' ((hl.files id).trans hc)]
    rfl
  have hrest : (r.filled []).rest = r.rest := by
    simp [Reader.filled, Reader.rest]
  have hpending : (r.filled []).pending = r.pending := by
    rw [r.filled_pending]
    rfl
  have hstarved : (r.filled []).Starved :=
    ⟨hrest ▸ h.starved.noLine, fun hs => hpending ▸ h.starved.short hs, fun hs => hpending ▸ h.starved.skipped hs⟩
  have hnil := Reader.future_eq_nil hon.holds hstarved (by rw [hpending]; exact hall)
  exact ⟨h.later.trans hl, hs.trans h.state, hon, ⟨h.keeps.settings, h.keeps.generation, h.keeps.committed⟩, h.start_le,
    hfuture, ⟨_, (h.later.trans hl).files id, List.prefix_refl _, (hfuture _ (List.prefix_refl _)).trans hnil⟩⟩

/-- a round which read something goes on with the next one -/
theorem Filling.again {L rounds : ℕ} {d' : Disk} {k' : Kernel} {l : List Message} {again : FrM (Option Line)}
    {chunk : Bytes} (h : Filling P s id d r k) (hready : Ready P s) (hbound : Bounded P s L)
    (hfd : s.reader.fd = some id)
    (hagain : Again P L rounds again) (hl : Later P d k d' k') (hs : d'.state = d.state)
    (hon : (r.filled chunk).On d' id) (hchunk : chunk ≠ []) :
    wp again (CallEnds P s) (CallKilled P L s (rounds + 1))
      ⟨d', { r.filled chunk with rotationSeen := false, incompleteSince := 0 }, l, k'⟩ := by
  have hl' := h.later.trans hl
  have hs' := hs.trans h.state
  have hon' : ({ r.filled chunk with rotationSeen := false, incompleteSince := 0 } : Reader).On d' id :=
    ⟨hon.fd, hon.file, hon.opened, hon.firstOpen, ⟨hon.holds.pos_le, hon.holds.rest, hon.holds.read_le,
      hon.holds.scanFrom, hon.holds.scanFrom_le, hon.holds.head, hon.holds.head_le, hon.holds.committed_le⟩, hon.saved⟩
  have hready' : Ready P ⟨d', { r.filled chunk with rotationSeen := false, incompleteSince := 0 }, l, k'⟩ :=
    ⟨hl'.calm, hl'.reliable hready.reliable, hon'.opened, hready.clean.mono hl' hs', Or.inl ⟨id, hon'⟩⟩
  have hfd' : (r.filled chunk).fd = some id := hon.fd
  have hfuture : ∀ c', (d'.files id).bytes <+: c' → s.reader.future c' = (r.filled chunk).future c' := by
    intro c' hc
    rw [h.future c' ((hl.files id).trans hc)]
    rfl
  refine wp_mono (hagain _ hready' (hbound.later hl' (Or.inl (hfd'.trans hfd.symm)))) (fun line s' hends => ?_)
    fun s' hkilled => ?_
  · obtain ⟨hl'', hout⟩ := hends
    refine ⟨hl'.trans hl'', ?_⟩
    cases hout with
    | stays id' _ _ hfd'' hstays =>
      obtain rfl : id = id' := Option.some.inj (hfd'.symm.trans hfd'')
      exact .stays id _ _ hfd (hstays.before hl' hl'' hfuture
        ⟨h.keeps.settings, h.keeps.generation, h.keeps.committed⟩ h.start_le)
    | opens _ _ hfd'' _ => cases hfd'.symm.trans hfd''
    | leaves id' _ _ _ _ _ hleaving => cases hleaving.seen
  · obtain ⟨hl'', hkill, hneed⟩ := hkilled
    refine ⟨hl'.trans hl'', ?_, fun h0 => ?_⟩
    · rcases hkill with hst | ⟨id', o, hsaved, hp, hwhy⟩
      · exact Or.inl (hst.trans hs')
      · rcases hwhy with ⟨hfd'', -⟩ | ⟨-, id₀, -, hleaving⟩
        · cases hfd'.symm.trans hfd''
        · cases hleaving.seen
    · have hn := hneed (hl'.alive h0)
      have hpos : 0 < chunk.length := List.length_pos_iff.2 hchunk
      have hsize : (d'.files id).bytes.length ≤ L :=
        (hl'.calm.size_le id).length_le.trans (by rw [hl'.final]; exact hbound id (Or.inl hfd))
      have hread := hon.holds.read_le
      have hpending := r.filled_pending chunk
      have hstart : (r.filled chunk).bufferStart = r.bufferStart := rfl
      have hall := h.read
      have hneed₁ : need L { r.filled chunk with rotationSeen := false, incompleteSince := 0 } =
          L - ((r.filled chunk).bufferStart + (r.filled chunk).pending) + 1 := by
        unfold need
        rw [show ({ r.filled chunk with rotationSeen := false, incompleteSince := 0 } : Reader).fd = some id from hfd']
        rfl
      have hneed₀ : L - (s.reader.bufferStart + s.reader.pending) + 1 ≤ need L s.reader := by
        unfold need
        rw [hfd]
        exact Nat.le_add_right _ _
      dsimp only at hn
      rw [hneed₁] at hn
      omega

theorem wp_readRound {L rounds : ℕ} {tNow : ℤ} {again : FrM (Option Line)} (hready : Ready P s) (hbound : Bounded P s L)
    (hon : s.reader.On s.disk id) (hagain : Again P L rounds again) :
    wp (readRound tNow again id) (CallEnds P s) (CallKilled P L s (rounds + 1)) s := by
  have hcalm := hready.calm
  unfold readRound
  rw [wp_bind, wp_get]
  cases he : s.reader.extractLine with
  | mk line r =>
    dsimp only
    rw [wp_bind, wp_setReader]
    cases line with
    | some line =>
      -- there is a line in the buffer
      obtain ⟨hholds, hsame, hfut, hgen, hend, hle, hlt⟩ := Reader.extractLine_some hon.holds he
      refine ⟨.refl hcalm, .stays id _ _ hon.fd ⟨hon.sameFile hsame hholds, hsame.keeps, ?_,
        Or.inl ⟨hgen, hend, ?_, hle,
        hlt⟩⟩⟩
      · rw [hend] at hlt
        exact hle.trans hlt.le
      · exact fun c' hc => hfut c' hc
    | none =>
      -- more of the file is needed
      obtain ⟨hholds, hsame, hfut, hstarved, hle, hread, hdone⟩ := Reader.extractLine_none hon.holds he
      have hon₁ := hon.sameFile hsame hholds
      have hseen : r.rotationSeen = s.reader.rotationSeen := by rw [hsame]
      have hclose : r.closeFile = s.reader.closeFile := by rw [hsame]; rfl
      dsimp only
      rw [wp_bind]
      refine wp_checkFile hcalm hon₁ (fun r₂ d₂ k₂ hl₂ hs₂ hon₂ heq => ?_)
        fun d k hcr hl hs => killed_of_state (s := s) hcr hl hs _
      have hfill : Filling P s id d₂ r₂ k₂ := by
        have hkeeps := hsame.keeps
        refine ⟨hl₂, hs₂, hon₂, ?_, ?_, ?_, fun c' hc => ?_, ?_, ?_, ?_, ?_⟩
        · rw [heq]
          exact ⟨hkeeps.settings, hkeeps.generation, hkeeps.committed⟩
        · rw [heq]
          exact hle
        · rw [heq]
          exact hread
        · rw [hfut c' ((hl₂.files id).trans hc), heq]
          rfl
        · rw [heq]
          exact ⟨hstarved.noLine, hstarved.short, hstarved.skipped⟩
        · rw [heq]
          exact hseen
        · rw [heq]
          exact hclose
        · rw [heq]
          exact hdone
      dsimp only
      rw [if_pos rfl, wp_bind]
      refine wp_fillBuffer hl₂.calm hon₂ (fun chunk d₃ k₃ hl₃ hs₃ hon₃ hall => ?_)
        (fun code d₃ k₃ l hf hl₃ hs₃ => ?_) fun hcr => killed_of_state (s := s) (fun h0 => hcr (hl₂.alive h0)) hl₂ hs₂ _
      · have hl₃' := hl₂.trans hl₃
        have hs₃' := hs₃.trans hs₂
        cases chunk with
        | nil =>
          -- the end of the file
          have hend := hfill.atEnd hl₃ hs₃ hon₃ (hall rfl)
          have hsize : s.reader.bufferStart + s.reader.pending = (s.disk.files id).size := by
            have h1 := hall rfl
            have h2 := hfill.read
            have h3 : (s.disk.files id).bytes.length ≤ (d₃.files id).bytes.length := (hl₃'.files id).length_le
            have h4 := hon.holds.read_le
            unfold File.size at *
            dsimp only at h1
            omega
          dsimp only [List.length_nil]
          rw [wp_bind]
          refine wp_pathReplaced hl₃.calm hon₃ (fun b d₄ k₄ hl₄ hs₄ hb => ?_)
            fun hcr => killed_of_state (s := s) (fun h0 => hcr (hl₃'.alive h0)) hl₃' hs₃' _
          have hend₄ := hend.mono hl₄ hs₄
          cases b with
          | true =>
            refine wp_leaveFile hready hbound hon.fd hon.firstOpen hagain hend₄ (Or.inl hsize) hfill.rotationSeen
              hfill.close (fun hd => hfill.done ?_) (hb rfl)
            rwa [r₂.filled_pending, List.length_nil, Nat.add_zero] at hd
          | false => exact wp_waitForMore hon.fd hend₄
        | cons b chunk =>
          dsimp only [List.length_cons]
          rw [wp_bind, wp_setReader]
          exact hfill.again hready hbound hon.fd hagain hl₃ hs₃ hon₃ (List.cons_ne_nil _ _)
      · dsimp only
        have hl₃' := hl₂.trans hl₃
        refine ⟨hl₃', .stays id _ _ hon.fd ⟨hon₂.mono hl₃ hs₃, hfill.keeps, hfill.start_le, ?_, Or.inr ⟨code, ?_⟩⟩⟩
        · exact fun c' hc => hfill.future c' ((hl₃.files id).trans hc)
        · exact (hl₂.calls _).subset hf

/-- **`ReadLine`** ends as `Outcome` says, if there are enough rounds for it. -/
theorem readLoop_spec {L : ℕ} (tNow : ℤ) (rounds : ℕ) : Again P L rounds (readLoop tNow rounds) := by
  induction rounds with
  | zero =>
    intro s hready _
    exact ⟨.refl hready.calm, Or.inl rfl, fun _ => Nat.zero_le _⟩
  | succ rounds ih =>
    intro s hready hbound
    have hcalm := hready.calm
    unfold readLoop
    rw [wp_bind, wp_get]
    rcases hready.file with ⟨id, hon⟩ | ⟨hfd, hskip, hseen⟩
    · rw [hon.fd]
      exact wp_readRound hready hbound hon ih
    · rw [hfd]
      dsimp only
      rw [wp_bind]
      refine wp_openFile hcalm hready.reliable hready.clean hready.opened (fun e d k l hwhy hl hs => ?_)
        (fun id o head d₀ k₀ d k l hl₀ hs₀ hl hnode hres hon => ?_)
        fun d r l k hcr hl hs => killed_of_state hcr hl hs _
      · exact ⟨hl, .opens _ _ hfd (.failed e _ hwhy rfl hs)⟩
      · have hl' := hl₀.trans hl
        have hready' : Ready P ⟨d, s.reader.started id o head, l, k⟩ :=
          ⟨hl.calm, hl'.reliable hready.reliable, hon.opened, Or.inr ⟨id, o, hon.saved⟩, Or.inl ⟨id, hon⟩⟩
        have hbound' : Bounded P ⟨d, s.reader.started id o head, l, k⟩ L := by
          intro id' hid
          rw [hl'.final]
          rcases hid with hid | hnode'
          · obtain rfl : id = id' := Option.some.inj (hon.fd.symm.trans hid)
            exact hbound id (Or.inr ⟨_, hnode, rfl⟩)
          · exact hbound id' (Or.inr hnode')
        rw [if_pos rfl, wp_bind, wp_get]
        dsimp only
        rw [hon.fd]
        refine wp_mono (wp_readRound hready' hbound' hon ih) (fun line s' hends => ?_) fun s' hkilled => ?_
        · obtain ⟨hl'', hout⟩ := hends
          refine ⟨hl'.trans hl'', ?_⟩
          cases hout with
          | stays id' _ _ hfd' hstays =>
            obtain rfl : id = id' := Option.some.inj (hon.fd.symm.trans hfd')
            exact .opens _ _ hfd (.opened id o head d₀ d k₀ k _ _ hl₀ hs₀ hl hnode hres hon hl'' hstays)
          | opens _ _ hfd' _ => cases hon.fd.symm.trans hfd'
          | leaves id' _ _ _ _ _ hleaving => cases hseen.symm.trans hleaving.seen
        · obtain ⟨hl'', hkill, hneed⟩ := hkilled
          refine ⟨hl'.trans hl'', Or.inr ?_, fun h0 => ?_⟩
          · rcases hkill with hst | ⟨id', o', hsaved, hp, hwhy⟩
            · exact ⟨id, o, hon.saved.mono hl'' hst, hnode, Or.inl ⟨hfd, d₀, k₀, hl₀, hs₀, hres⟩⟩
            · rcases hwhy with ⟨hfd', -⟩ | ⟨-, id₀, -, hleaving⟩
              · cases hon.fd.symm.trans hfd'
              · cases hseen.symm.trans hleaving.seen
          · have hn := hneed (hl'.alive h0)
            have hopen : need L (s.reader.started id o head) = L - (o + 0) + 1 := by
              unfold need
              rw [hon.fd]
              dsimp only
              rw [show (s.reader.started id o head).rotationSeen = false from hseen]
              rfl
            have hclosed : need L s.reader = L + 1 := by
              unfold need
              rw [hfd]
            dsimp only at hn
            omega

/-! ## Commit -/

/-- a position which is not saved leaves everything as it is -/
theorem wp_commit {Q : Bool → Sys → Prop} {generation endOffset : ℕ} (hready : Ready P s)
    (hclosed : s.reader.fd = none → s.reader.bufferStart = 0)
    (hskip : ∀ b l, (b = true → generation = s.reader.generation → endOffset ≤ s.reader.committed) →
      Q b ⟨s.disk, s.reader, l, s.kern⟩)
    (hsave : ∀ id d k, s.reader.On s.disk id → generation = s.reader.generation → s.reader.committed < endOffset →
      endOffset ≤ s.reader.bufferStart → Later P s.disk s.kern d k →
      ({ s.reader with committed := endOffset, saveFailed := false } : Reader).On d id →
      Q true ⟨d, { s.reader with committed := endOffset, saveFailed := false }, s.log, k⟩)
    (hc : ∀ d r l k, s.kern.crashIn ≠ none → Later P s.disk s.kern d k → d.state = s.disk.state → C ⟨d, r, l, k⟩) :
    wp (commit generation endOffset) Q C s := by
  unfold commit
  rw [wp_bind, wp_get, if_neg (by rw [hready.opened]; simp)]
  by_cases hgen : generation ≠ s.reader.generation
  · rw [if_pos hgen, wp_pure]
    exact hskip true s.log fun _ h => absurd h hgen
  · rw [if_neg hgen]
    by_cases hbehind : s.reader.bufferStart < endOffset
    · rw [if_pos hbehind, wp_bind]
      refine wp_note _ fun l => ?_
      rw [wp_pure]
      exact hskip false l fun h0 => by cases h0
    · rw [if_neg hbehind]
      by_cases hold : endOffset ≤ s.reader.committed
      · rw [if_pos hold, wp_pure]
        exact hskip true s.log fun _ _ => hold
      · rw [if_neg hold]
        rcases hready.file with ⟨id, hon⟩ | ⟨hfd, -⟩
        · rw [wp_bind, wp_setReader, wp_bind]
          refine wp_saveState hready.calm hready.reliable (fun d k hl hst => ?_)
            fun d k hcr hl hs => hc _ _ _ _ hcr hl hs
          rw [if_pos rfl, wp_pure]
          have hle : endOffset ≤ s.reader.bufferStart := Nat.not_lt.1 hbehind
          have hholds := hon.holds.mono (hl.files id)
          have hholds' : ({ s.reader with committed := endOffset, saveFailed := false } : Reader).Holds
              (d.files id).bytes :=
            ⟨hholds.pos_le, hholds.rest, hholds.read_le, hholds.scanFrom, hholds.scanFrom_le, hholds.head,
              hholds.head_le, hle⟩
          exact hsave id d k hon (not_not.1 hgen) (Nat.not_le.1 hold) hle hl
            ⟨hon.fd, hon.file, hon.opened, hon.firstOpen, hholds', Reader.savedAt hon.file hholds' hst⟩
        · have hzero := hclosed hfd
          omega

end DominoLogForwarder.FileReader
