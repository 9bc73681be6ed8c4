/-
Reading a file which only grows, while the path leads to no other file. Nothing is asked of the system calls: any of
them may fail, also those of the state file.

`Gives`: a line which is returned is the first one of those which are left, or a piece of it, when `IncompleteSec` is
set and the line did not grow for that time. `Pieces` is a history of such lines. `Reads` is what a call of `ReadLine`
does, and `readLoop_reads` is the induction over the rounds of its loop.
-/
import DominoLogForwarder.FileReader.Frozen
import DominoLogForwarder.FileReader.ReadSpec

namespace DominoLogForwarder.FileReader

open CrashProg Lines FrM
open Wal (File)

/-! ## What is returned -/

/-- of the lines `left` of the content the line is returned, and `left'` are left then -/
inductive Gives (sec maxLen : ℕ) (c : Bytes) : List Item → Line → List Item → Prop
  | line {start : ℕ} {l : Line} {left : List Item} : Gives sec maxLen c (Item.of start l :: left) l left
  /-- the part of a line which was there, up to the position `l.endOffset`. The next line begins behind it -/
  | piece {start : ℕ} {l : Line} (wait : 0 < sec) (lt : start < l.endOffset) (le : l.endOffset ≤ c.length)
    (noLine : nl ∉ (c.take l.endOffset).drop start) (text : l.text = stripCr ((c.take l.endOffset).drop start))
    (whole : l.truncated = false) : Gives sec maxLen c (linesFrom maxLen c start) l (linesFrom maxLen c l.endOffset)

/-- the lines `done` were returned of the content from the position `base` on, and `left` are left -/
inductive Pieces (sec maxLen : ℕ) (c : Bytes) (base : ℕ) : List Line → List Item → Prop
  | start : Pieces sec maxLen c base [] (linesFrom maxLen c base)
  | step {done : List Line} {left left' : List Item} {l : Line} (before : Pieces sec maxLen c base done left)
    (gives : Gives sec maxLen c left l left') : Pieces sec maxLen c base (done ++ [l]) left'

/-- what a line says, apart from the position where it begins -/
def Item.face (i : Item) : Bytes × Bool × Option ℕ := (i.text, i.truncated, i.endOffset)

def Line.face (l : Line) : Bytes × Bool × Option ℕ := (Item.of 0 l).face

/-- **Without `IncompleteSec`** only whole lines are returned. -/
theorem Pieces.lines {maxLen base : ℕ} {c : Bytes} {done : List Line} {left : List Item}
    (h : Pieces 0 maxLen c base done left) :
    done.map Line.face ++ left.map Item.face = (linesFrom maxLen c base).map Item.face := by
  induction h with
  | start => rfl
  | step before gives ih =>
    cases gives with
    | line =>
      rw [← ih, List.map_append, List.append_assoc]
      rfl
    | piece wait => exact absurd wait (lt_irrefl 0)

/-! ## The reader -/

/-- the files only grow -/
structure Env.Grows (E : Env) : Prop where
  grows : ∀ {d k d' k'}, E.Goes d k d' k' → ∀ {id}, (d.files id).bytes <+: (d'.files id).bytes

/-- and the path leads to no other file than `f` -/
structure Env.Follows (E : Env) (f : FileId) : Prop extends E.Grows where
  path : ∀ {d k d' k'}, E.Goes d k d' k' → Appears f d'.path

theorem grows_frozen : frozen.Grows where
  grows h id := by rw [h.content id]

theorem follows_frozenAt (f : FileId) : (frozenAt f).Follows f where
  grows h id := by rw [h.1.content id]
  path h := h.2

theorem Env.Follows.not_elsewhere {E : Env} {f : FileId} (hE : E.Follows f) {d d' : Disk} {k k' : Kernel}
    (h : E.Goes d k d' k') {r : Reader} (hfile : r.file = f) : ¬ Env.Elsewhere d' r := by
  rintro ⟨node, hpath, hne⟩
  have happ := hE.path h
  rw [hpath] at happ
  obtain ⟨id, regular⟩ := node
  exact hne ((appears_regular happ).trans hfile.symm)

/-- `r` reads the file -/
structure Reader.At (r : Reader) (f : FileId) : Prop where
  fd : r.fd = some f
  file : r.file = f
  opened : r.opened = true

theorem Reader.At.sameFile {r r' : Reader} {f : FileId} (h : r.At f) (hsame : r.SameFile r') : r'.At f := by
  unfold Reader.SameFile at hsame
  rw [hsame]
  exact ⟨h.fd, h.file, h.opened⟩

/-- a content of which the buffer is a piece can be the one which the reader saw -/
theorem Reader.Holds.like {r : Reader} {c : Bytes} (h : r.Holds c) : r.Like c := by
  refine ⟨h.read_le, ?_⟩
  rw [List.take_take, min_eq_left h.head_le]
  exact (List.prefix_iff_eq_take.1 h.head).symm

theorem Reader.Holds.withHead {r : Reader} {c : Bytes} (h : r.Holds c) :
    ({ r with head := c.take headMax } : Reader).Holds c :=
  ⟨h.pos_le, h.rest, h.read_le, h.scanFrom, h.scanFrom_le, List.take_prefix _ _,
    by rw [List.length_take]; exact min_le_left _ _, h.committed_le⟩

/-- what the reader remembers about the end of the file is no part of the buffer -/
theorem Reader.Holds.touch {r : Reader} {c : Bytes} (h : r.Holds c) (seen : Bool) (since : ℤ) :
    ({ r with rotationSeen := seen, incompleteSince := since } : Reader).Holds c :=
  ⟨h.pos_le, h.rest, h.read_le, h.scanFrom, h.scanFrom_le, h.head, h.head_le, h.committed_le⟩

/-- what a call does which goes on reading the file. `cut` is 0 when no line is returned in pieces -/
structure Reads (cut : ℕ) (E : Env) (f : FileId) (s : Sys) (line : Option Line) (s' : Sys) : Prop where
  goes : E.Goes s.disk s.kern s'.disk s'.kern
  reads : s'.reader.At f
  holds : s'.reader.Holds (s'.disk.files f).bytes
  keeps : s.reader.Keeps s'.reader
  firstOpen : s'.reader.firstOpen = s.reader.firstOpen
  result : match line with
    | some l => l.generation = s.reader.generation ∧ ∀ c', (s'.disk.files f).bytes <+: c' →
        Gives cut s.reader.settings.maxLineLength c' (s.reader.future c') l (s'.reader.future c')
    | none => Nothing s.kern s.reader (s.disk.files f).bytes (s'.disk.files f).bytes s'.reader

/-- a part of the call in which nothing was returned -/
structure Continues (E : Env) (f : FileId) (s s₁ : Sys) : Prop where
  goes : E.Goes s.disk s.kern s₁.disk s₁.kern
  reads : s₁.reader.At f
  holds : s₁.reader.Holds (s₁.disk.files f).bytes
  keeps : s.reader.Keeps s₁.reader
  firstOpen : s₁.reader.firstOpen = s.reader.firstOpen
  future : ∀ c', (s₁.disk.files f).bytes <+: c' → s.reader.future c' = s₁.reader.future c'

theorem Continues.reads_after {E : Env} {f : FileId} {cut : ℕ} {s s₁ s' : Sys} {line : Option Line} (hE : E.Grows)
    (h : Continues E f s s₁) (h' : Reads cut E f s₁ line s') : Reads cut E f s line s' := by
  have hfut : ∀ c', (s'.disk.files f).bytes <+: c' → s.reader.future c' = s₁.reader.future c' :=
    fun c' hc => h.future c' ((hE.grows h'.goes).trans hc)
  refine ⟨E.trans h.goes h'.goes, h'.reads, h'.holds, h.keeps.trans h'.keeps, h'.firstOpen.trans h.firstOpen, ?_⟩
  have hres := h'.result
  cases line with
  | none =>
    refine ⟨fun c' hc => (hfut c' hc).trans (hres.future c' hc), ?_⟩
    rcases hres.gone with ⟨c', hc, hc', hnil⟩ | ⟨code, hcode⟩
    · exact Or.inl ⟨c', (hE.grows h.goes).trans hc, hc', (h.future c' hc).trans hnil⟩
    · exact Or.inr ⟨code, (E.calls h.goes _).subset hcode⟩
  | some l =>
    refine ⟨hres.1.trans h.keeps.generation, fun c' hc => ?_⟩
    rw [hfut c' hc, ← h.keeps.settings]
    exact hres.2 c' hc

/-! ## A round -/

section Round

variable {E : Env} {f : FileId} {s : Sys} {r r₀ : Reader} {d : Disk} {k : Kernel} {cut : ℕ}

/-- the reader behind a check which a file passed that only grew -/
structure Checks (E : Env) (f : FileId) (s : Sys) (r₀ r : Reader) (d : Disk) (k : Kernel) : Prop where
  goes : E.Goes s.disk s.kern d k
  reader : r = { r₀ with head := r.head }
  holds : r.Holds (d.files f).bytes

theorem checks_passes (hE : E.Grows) (hholds : r₀.Holds (s.disk.files f).bytes)
    (h : E.Passes { s with reader := r₀ } f r d k) : Checks E f s r₀ r d k := by
  have hgrown := hholds.mono (hE.grows h.goes')
  refine ⟨h.goes', ?_, ?_⟩
  · cases h <;> rfl
  · cases h with
    | like _ _ _ _ => exact hgrown.withHead
    | unknown _ _ _ => exact hgrown

/-- a file which only grew is never one which starts again -/
theorem not_restarts (hE : E.Grows) (hholds : r₀.Holds (s.disk.files f).bytes) :
    ¬ E.Restarts { s with reader := r₀ } f r d k := by
  intro h
  obtain ⟨d₁, k₁, h₁, -, hunlike⟩ := h.unlike
  exact hunlike (hholds.mono (hE.grows h₁)).like

/-- the end of the file was reached, without a line -/
structure Finished (E : Env) (f : FileId) (s : Sys) (r : Reader) (d : Disk) (k : Kernel) : Prop where
  goes : E.Goes s.disk s.kern d k
  reads : r.At f
  holds : r.Holds (d.files f).bytes
  keeps : s.reader.Keeps r
  firstOpen : r.firstOpen = s.reader.firstOpen
  future : ∀ c', (d.files f).bytes <+: c' → s.reader.future c' = r.future c'
  starved : r.Starved
  all : r.bufferStart + r.pending = (d.files f).bytes.length

theorem finished_ends (hE : E.Grows) (hat : s.reader.At f) (hholds : s.reader.Holds (s.disk.files f).bytes)
    (h : E.Ends s f r d k) (seen : Bool) :
    r.rotationSeen = s.reader.rotationSeen ∧ r.incompleteSince = s.reader.incompleteSince ∧
      Finished E f s (r.packed seen) d k := by
  obtain ⟨r₀, d₁, k₁, hnone, hpass, hgo, hend⟩ := h.checked
  have hwait := Reader.extractLine_none hholds hnone
  obtain ⟨hgo₁, heq, hholds₁⟩ := checks_passes hE hwait.holds hpass
  have hgo' := E.trans hgo₁ hgo
  have hholds₂ := hholds₁.mono (hE.grows hgo)
  have hsame := hwait.same
  unfold Reader.SameFile at hsame
  have hrest : (r.packed seen).rest = r.rest := rfl
  have hpending := r.packed_pending seen
  have hstarved : r.Starved := by
    rw [heq]
    exact ⟨hwait.starved.noLine, hwait.starved.short, hwait.starved.skipped⟩
  refine ⟨?_, ?_, hgo', ⟨?_, ?_, ?_⟩, ⟨Nat.zero_le _, hholds₂.rest, ?_, ?_, ?_, hholds₂.head, hholds₂.head_le,
    hholds₂.committed_le⟩, ⟨?_, ?_, ?_⟩, ?_, fun c' hc => ?_, ⟨?_, ?_, ?_⟩, ?_⟩
  · rw [heq, hsame]
  · rw [heq, hsame]
  · show r.fd = some f
    rw [heq, hsame]
    exact hat.fd
  · show r.file = f
    rw [heq, hsame]
    exact hat.file
  · show r.opened = true
    rw [heq, hsame]
    exact hat.opened
  · rw [hpending]
    exact hholds₂.read_le
  · exact hholds₂.scanFrom
  · rw [hpending]
    exact hholds₂.scanFrom_le
  · show r.settings = _
    rw [heq, hsame]
  · show r.generation = _
    rw [heq, hsame]
  · show r.committed = _
    rw [heq, hsame]
  · show r.firstOpen = _
    rw [heq, hsame]
  · rw [hwait.future c' ((hE.grows hgo').trans hc), heq]
    rfl
  · exact hstarved.noLine
  · rw [hpending]
    exact hstarved.short
  · rw [hpending]
    exact hstarved.skipped
  · rw [hpending]
    have hle := List.drop_eq_nil_iff.1 hend
    exact le_antisymm hholds₂.read_le hle

theorem Finished.mono {d' : Disk} {k' : Kernel} (hE : E.Grows) (h : Finished E f s r d k) (hgo : E.Goes d k d' k')
    (since : ℤ) : Reads cut E f s none ⟨d', { r with incompleteSince := since }, s.log, k'⟩ := by
  have hgrown : (d.files f).bytes <+: (d'.files f).bytes := hE.grows hgo
  have hnil := Reader.future_eq_nil h.holds h.starved h.all
  refine ⟨E.trans h.goes hgo, ⟨h.reads.fd, h.reads.file, h.reads.opened⟩,
    (h.holds.touch r.rotationSeen since).mono hgrown, ⟨h.keeps.settings, h.keeps.generation, h.keeps.committed⟩,
    h.firstOpen, fun c' hc => ?_, Or.inl ⟨_, hE.grows h.goes, hgrown, (h.future _ (List.prefix_refl _)).trans hnil⟩⟩
  exact h.future c' (hgrown.trans hc)

/-- the text of what is in the buffer -/
theorem emitRemainder_text (r : Reader) (h : 0 < r.pending) : r.emitRemainder.1.text = stripCr r.rest := by
  have hlen : r.rest.length = r.pending := r.length_rest
  have hget : r.buffer[r.pos + r.pending - 1]? = r.rest.getLast? := by
    have hidx : r.pos + r.pending - 1 = r.pos + (r.rest.length - 1) := by omega
    rw [hidx, ← List.getElem?_drop, List.getLast?_eq_getElem?]
    rfl
  have htext : r.emitRemainder.1.text = r.rest.take
      (if 0 < r.pending ∧ r.buffer[r.pos + r.pending - 1]? = some cr then r.pending - 1 else r.pending) := rfl
  rw [htext, hget]
  unfold stripCr
  by_cases hcr : r.rest.getLast? = some cr
  · rw [if_pos ⟨h, hcr⟩, if_pos hcr, List.dropLast_eq_take, hlen]
  · rw [if_neg fun hh => hcr hh.2, if_neg hcr, ← hlen, List.take_length]

/-- a last line without its end is returned as it is -/
theorem Finished.piece {d' : Disk} {k' : Kernel} (hE : E.Grows) (h : Finished E f s r d k) (hgo : E.Goes d k d' k')
    (hpending : 0 < r.pending) (hskip : r.skipping = false) (hcut : 0 < cut) :
    Reads cut E f s (some r.emitRemainder.1) ⟨d', r.emitRemainder.2, s.log, k'⟩ := by
  have hgrown : (d.files f).bytes <+: (d'.files f).bytes := hE.grows hgo
  have hholds := h.holds
  have hread := hholds.read_le
  have hrest : r.rest = (d.files f).bytes.drop r.bufferStart := by
    apply hholds.rest.eq_of_length
    rw [r.length_rest, List.length_drop]
    have := h.all
    omega
  have hfuture : ∀ c, r.future c = linesFrom r.settings.maxLineLength c r.bufferStart := by
    intro c
    rw [Reader.future, hskip]
    rfl
  have hfuture' : ∀ c, r.emitRemainder.2.future c =
      linesFrom r.settings.maxLineLength c (r.bufferStart + r.pending) := by
    intro c
    have hskip' : r.emitRemainder.2.skipping = false := hskip
    rw [Reader.future, hskip']
    rfl
  have hholds' : r.emitRemainder.2.Holds (d.files f).bytes :=
    ⟨le_rfl, List.nil_prefix, hread, List.not_mem_nil, le_rfl, hholds.head, hholds.head_le,
      hholds.committed_le.trans (Nat.le_add_right _ _)⟩
  refine ⟨E.trans h.goes hgo, ⟨h.reads.fd, h.reads.file, h.reads.opened⟩, hholds'.mono hgrown,
    ⟨h.keeps.settings, h.keeps.generation, h.keeps.committed⟩, h.firstOpen, h.keeps.generation, fun c' hc => ?_⟩
  have hc' := hgrown.trans hc
  -- what was there when the end of the file was reached
  have htake : c'.take r.emitRemainder.1.endOffset = (d.files f).bytes := by
    have hend : r.emitRemainder.1.endOffset = (d.files f).bytes.length := h.all
    rw [hend]
    exact (List.prefix_iff_eq_take.1 hc').symm
  have hslice : (c'.take r.emitRemainder.1.endOffset).drop r.bufferStart = r.rest := by
    rw [htake, hrest]
  rw [h.future c' hc', hfuture, hfuture', ← h.keeps.settings]
  refine Gives.piece hcut ?_ ?_ ?_ ?_ rfl
  · show r.bufferStart < r.bufferStart + r.pending
    omega
  · show r.bufferStart + r.pending ≤ c'.length
    exact hread.trans hc'.length_le
  · rw [hslice]
    exact h.starved.noLine
  · rw [hslice]
    exact emitRemainder_text r hpending

/-- a line which is in the buffer -/
theorem reads_line {line : Line} (hs : E.Ready s) (hat : s.reader.At f) (hholds : s.reader.Holds (s.disk.files f).bytes)
    (he : s.reader.extractLine = (some line, r)) : Reads cut E f s (some line) ⟨s.disk, r, s.log, s.kern⟩ := by
  have hret := Reader.extractLine_some hholds he
  have hsame := hret.same
  unfold Reader.SameFile at hsame
  refine ⟨hs, hat.sameFile hret.same, hret.holds, hret.same.keeps, ?_, hret.generation, fun c' hc => ?_⟩
  · show r.firstOpen = _
    rw [hsame]
  · rw [hret.future c' hc]
    exact .line

/-- what is left of the reader behind the check is what was read before -/
theorem continues_checked {d' : Disk} {k' : Kernel} (hE : E.Grows) (hat : s.reader.At f)
    (hholds : s.reader.Holds (s.disk.files f).bytes) (hnone : s.reader.extractLine = (none, r₀))
    (hpass : E.Passes { s with reader := r₀ } f r d k) (hgo : E.Goes d k d' k') (l : List Message) :
    Continues E f s ⟨d', r, l, k'⟩ := by
  have hwait := Reader.extractLine_none hholds hnone
  obtain ⟨hgo₁, heq, hholds₁⟩ := checks_passes hE hwait.holds hpass
  have hgo' := E.trans hgo₁ hgo
  have hat₁ := hat.sameFile hwait.same
  have hsame := hwait.same
  unfold Reader.SameFile at hsame
  refine ⟨hgo', ⟨?_, ?_, ?_⟩, hholds₁.mono (hE.grows hgo), ⟨?_, ?_, ?_⟩, ?_, fun c' hc => ?_⟩
  · show r.fd = _
    rw [heq]
    exact hat₁.fd
  · show r.file = _
    rw [heq]
    exact hat₁.file
  · show r.opened = _
    rw [heq]
    exact hat₁.opened
  · show r.settings = _
    rw [heq, hsame]
  · show r.generation = _
    rw [heq, hsame]
  · show r.committed = _
    rw [heq, hsame]
  · show r.firstOpen = _
    rw [heq, hsame]
  · rw [hwait.future c' ((hE.grows hgo').trans hc)]
    show r₀.future c' = r.future c'
    rw [heq]
    rfl

/-- a chunk of the file was read -/
theorem Continues.filled {s₁ : Sys} {chunk : Bytes} (h : Continues E f s s₁)
    (hchunk : chunk <+: (s₁.disk.files f).bytes.drop (s₁.reader.bufferStart + s₁.reader.pending)) :
    Continues E f s ⟨s₁.disk, { s₁.reader with
      buffer := s₁.reader.rest ++ chunk, pos := 0, rotationSeen := false, incompleteSince := 0 }, s₁.log, s₁.kern⟩ :=
  ⟨h.goes, ⟨h.reads.fd, h.reads.file, h.reads.opened⟩, (h.holds.filled hchunk).touch false 0,
    ⟨h.keeps.settings, h.keeps.generation, h.keeps.committed⟩, h.firstOpen, h.future⟩

/-- **A round.** It ends, or the rounds behind it go on with the file or without one. A file which is not at the path
any more is let go of in the second call which finds it at its end -/
theorem readRound_grows {Q : Option Line → Sys → Prop} (hE : E.Grows) {tNow : ℤ} {again : FrM (Option Line)}
    (hs : E.Ready s) (hat : s.reader.At f) (hholds : s.reader.Holds (s.disk.files f).bytes)
    (hsec : s.reader.incompleteSince ≠ 0 → s.reader.settings.incompleteSec ≤ cut)
    (hrot : s.reader.rotationSeen = true → ∀ d k, E.Goes s.disk s.kern d k → Env.Elsewhere d s.reader → 0 < cut)
    (hend : ∀ line s', Reads cut E f s line s' → Q line s')
    (hagain : ∀ s₁, E.Ready s₁ → Continues E f s s₁ → s₁.reader.rotationSeen = false →
      s₁.reader.incompleteSince = 0 → wp again Q (fun _ => True) s₁)
    (hclose : s.reader.rotationSeen = true → ∀ r d k, E.Goes s.disk s.kern d k → Env.Elsewhere d s.reader →
      s.reader.Keeps r → r.opened = true → r.firstOpen = s.reader.firstOpen →
      wp again Q (fun _ => True) ⟨d, r.closeFile, s.log, k⟩) :
    wp (readRound tNow again f) Q (fun _ => True) s := by
  apply Env.readRound hs fun _ _ => trivial
  · exact fun line r he => hend _ _ (reads_line hs hat hholds he)
  · -- the file starts again
    intro r₀ r d k l hnone h
    exact absurd h (not_restarts hE (Reader.extractLine_none hholds hnone).holds)
  · -- more was read
    intro r₀ r d₁ k₁ chunk d k hnone hpass hgo hne hchunk
    have hcont := (continues_checked hE hat hholds hnone hpass hgo s.log).filled hchunk
    exact hagain _ (E.right hgo) hcont rfl rfl
  · -- the file could not be read
    intro r₀ r d₁ k₁ code d k l hnone hpass hgo hl hf
    have hcont := continues_checked hE hat hholds hnone hpass hgo l
    exact hend _ _ ⟨hcont.goes, hcont.reads, hcont.holds, hcont.keeps, hcont.firstOpen, hcont.future, Or.inr ⟨code, hf⟩⟩
  · intro r since d₁ k₁ d k hends hgo
    obtain ⟨-, -, hfin⟩ := finished_ends hE hat hholds hends false
    exact hend _ _ (hfin.mono hE hgo since)
  · intro r d₁ k₁ d k hends hgo hpending hskip hwait hsince _
    obtain ⟨-, heq, hfin⟩ := finished_ends hE hat hholds hends false
    have hcut : 0 < cut := by
      have hset : r.settings = s.reader.settings := hfin.keeps.settings
      rw [hset] at hwait
      rw [heq] at hsince
      exact hwait.trans_le (hsec hsince)
    rw [← r.packed_pending false] at hpending
    exact hend _ _ (hfin.piece hE hgo hpending hskip hcut)
  all_goals
    intro r d₁ k₁ d k hends hgo helse
    obtain ⟨hseen, -, hfin⟩ := finished_ends hE hat hholds hends true
    have hgo' := E.trans hfin.goes hgo
    have helse' : Env.Elsewhere d s.reader := by
      obtain ⟨node, hpath, hne⟩ := helse
      have hfile : r.file = f := hfin.reads.file
      exact ⟨node, hpath, by rwa [hat.file, ← hfile]⟩
  · exact hend _ _ (hfin.mono hE hgo r.incompleteSince)
  · intro hpending hskip hr
    rw [← r.packed_pending true] at hpending
    have hcut := hrot (hseen.symm.trans hr) d k hgo' helse'
    exact hend _ _ (hfin.piece hE hgo hpending hskip hcut)
  · intro hr
    exact hclose (hseen.symm.trans hr) r d k hgo' helse'
      ⟨hfin.keeps.settings, hfin.keeps.generation, hfin.keeps.committed⟩
      hfin.reads.opened hfin.firstOpen

/-- a call which did not find the file at its end before goes on reading it -/
theorem readLoop_waits (cut : ℕ) (hE : E.Grows) (tNow : ℤ) (rounds : ℕ) (hs : E.Ready s) (hat : s.reader.At f)
    (hholds : s.reader.Holds (s.disk.files f).bytes)
    (hsec : s.reader.incompleteSince ≠ 0 → s.reader.settings.incompleteSec ≤ cut)
    (hseen : s.reader.rotationSeen = false) : wp (readLoop tNow rounds) (Reads cut E f s) (fun _ => True) s := by
  induction rounds generalizing s with
  | zero => trivial
  | succ rounds ih =>
    unfold readLoop
    rw [wp_bind, wp_get, hat.fd]
    apply readRound_grows hE hs hat hholds hsec _ fun _ _ h => h
    · intro s₁ hs₁ hcont hseen₁ hsince₁
      apply wp_mono (ih hs₁ hcont.reads hcont.holds (fun hne => absurd hsince₁ hne) hseen₁)
      · exact fun line s' hreads => hcont.reads_after hE hreads
      · exact fun _ h => h
    all_goals
      intro hrot
      rw [hseen] at hrot
      cases hrot

/-- nor is it let go of when the path leads to no other one -/
theorem readLoop_reads (hE : E.Follows f) (tNow : ℤ) (rounds : ℕ) (hs : E.Ready s) (hat : s.reader.At f)
    (hholds : s.reader.Holds (s.disk.files f).bytes) (hsec : s.reader.settings.incompleteSec ≤ cut) :
    wp (readLoop tNow rounds) (Reads cut E f s) (fun _ => True) s := by
  cases rounds with
  | zero => trivial
  | succ rounds =>
    unfold readLoop
    rw [wp_bind, wp_get, hat.fd]
    apply readRound_grows hE.toGrows hs hat hholds (fun _ => hsec) _ fun _ _ h => h
    · intro s₁ hs₁ hcont hseen₁ hsince₁
      have hloop := readLoop_waits cut hE.toGrows tNow rounds hs₁ hcont.reads hcont.holds
        (fun hne => absurd hsince₁ hne) hseen₁
      apply wp_mono hloop
      · exact fun line s' hreads => hcont.reads_after hE.toGrows hreads
      · exact fun _ h => h
    · exact fun _ r d k hgo helse => absurd helse (hE.not_elsewhere hgo hat.file)
    · exact fun _ d k hgo helse => absurd helse (hE.not_elsewhere hgo hat.file)

/-! ## A file which is opened -/

/-- the reader behind `OpenFile`, which started at the position `o` -/
structure Begun (E : Env) (f : FileId) (s : Sys) (r : Reader) (d : Disk) (k : Kernel) (o : ℕ) : Prop where
  goes : E.Goes s.disk s.kern d k
  path : ∃ d₀ k₀, E.Goes s.disk s.kern d₀ k₀ ∧ d₀.path = some ⟨f, true⟩
  reads : r.At f
  holds : r.Holds (d.files f).bytes
  settings : r.settings = s.reader.settings
  generation : r.generation = s.reader.generation + 1
  committed : r.committed = o
  bufferStart : r.bufferStart = o
  firstOpen : r.firstOpen = false
  skipping : r.skipping = s.reader.skipping
  rotationSeen : r.rotationSeen = s.reader.rotationSeen
  since : r.incompleteSince = s.reader.incompleteSince
  starts : ∃ d₁ k₁, E.Goes s.disk s.kern d₁ k₁ ∧ Env.StartsAt s.reader s.disk (d₁.files f).size o

theorem begun_opens (hE : E.Grows) (hopened : s.reader.opened = true) (h : E.Opens s f r d k) :
    ∃ o, Begun E f s r d k o := by
  obtain ⟨hgo, hpath, o, head, failed, d₁, k₁, h₁, h₁', hstarts, hhead, hr⟩ := h
  obtain ⟨d₂, k₂, h₂, h₂', heq⟩ := hhead
  have hle : o ≤ (d.files f).bytes.length := hstarts.le.trans (hE.grows h₁').length_le
  have hprefix : head <+: (d.files f).bytes := by
    rcases heq with rfl | rfl
    · exact List.nil_prefix
    · exact (List.take_prefix _ _).trans (hE.grows h₂')
  have hlen : head.length ≤ headMax := by
    rcases heq with rfl | rfl
    · exact Nat.zero_le _
    · rw [List.length_take]
      exact min_le_left _ _
  have hholds : (s.reader.started f o head).Holds (d.files f).bytes := Reader.started_holds hle hprefix hlen
  refine ⟨o, ?_⟩
  rw [hr]
  exact ⟨hgo, hpath, ⟨rfl, rfl, hopened⟩, ⟨hholds.pos_le, hholds.rest, hholds.read_le, hholds.scanFrom,
    hholds.scanFrom_le, hholds.head, hholds.head_le, hholds.committed_le⟩, rfl, rfl, rfl, rfl, rfl, rfl,
      rfl, rfl, d₁, k₁,
    h₁, hstarts⟩

/-- how a call ends for a reader which has no file open -/
inductive Opening (cut : ℕ) (E : Env) (s : Sys) : Option Line → Sys → Prop
  | failed (e : ℕ) {s' : Sys} (goes : E.Goes s.disk s.kern s'.disk s'.kern) (state : s'.disk.state = s.disk.state)
    (reader : s'.reader = { s.reader with lastOpenError := e })
    (why : (∃ d₀ k₀, E.Goes s.disk s.kern d₀ k₀ ∧ ∀ id, d₀.path ≠ some ⟨id, true⟩) ∨
      ∃ code, Fault.fail code ∈ s.kern.oracle .openPath ∨ Fault.fail code ∈ s.kern.oracle .fstatOpen) :
    Opening cut E s none s'
  | opened {f : FileId} {r : Reader} {d : Disk} {k : Kernel} {o : ℕ} {l : List Message} {line : Option Line} {s' : Sys}
    (begun : Begun E f s r d k o) (reads : Reads cut E f ⟨d, r, l, k⟩ line s') : Opening cut E s line s'

theorem readLoop_begins (cut : ℕ) (hE : E.Grows) (tNow : ℤ) (rounds : ℕ) (hs : E.Ready s) (hfd : s.reader.fd = none)
    (hopened : s.reader.opened = true) (hseen : s.reader.rotationSeen = false) (hsince : s.reader.incompleteSince = 0) :
    wp (readLoop tNow rounds) (Opening cut E s) (fun _ => True) s := by
  cases rounds with
  | zero => trivial
  | succ rounds =>
    unfold readLoop
    rw [wp_bind, wp_get, hfd]
    dsimp only
    rw [wp_bind]
    apply Env.openFile hs fun _ _ => trivial
    · intro e d k l hgo hst _ hwhy
      exact .failed e hgo hst rfl hwhy
    · intro id r d k l hopens _
      obtain ⟨o, hbegun⟩ := begun_opens hE hopened hopens
      simp only [if_true]
      rw [wp_bind, wp_get]
      dsimp only
      rw [hbegun.reads.fd]
      -- the rest of the round is the first one of a loop which has the file open
      have hloop := readLoop_waits (s := ⟨d, r, l, k⟩) cut hE tNow (rounds + 1)
        (E.right hopens.goes) hbegun.reads hbegun.holds
        (fun hne => absurd (hbegun.since.trans hsince) hne) (hbegun.rotationSeen.trans hseen)
      unfold readLoop at hloop
      rw [wp_bind, wp_get] at hloop
      dsimp only at hloop
      rw [hbegun.reads.fd] at hloop
      apply wp_mono hloop
      · exact fun line s' hreads => .opened hbegun hreads
      · exact fun _ h => h

theorem wp_readLine {Q : Option Line → Sys → Prop} {C : Sys → Prop} {tNow : ℤ} {rounds : ℕ}
    (hopened : s.reader.opened = true) (h : wp (readLoop tNow rounds) Q C s) : wp (readLine tNow rounds) Q C s := by
  unfold readLine
  rw [wp_bind, wp_get, hopened]
  exact h

end Round

end DominoLogForwarder.FileReader
