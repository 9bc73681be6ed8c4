/-
A path which leads to other files: rotations.

A line is owed when `ReadLine` returned it and no `Commit` covers it, until a later process returns it once more. There
is one state file, and it knows one position in one file. So nothing may be owed of another file when the reader lets
go of its file, and when a new process opens another file than the one it finds in the state file. `mayLeave` is this
place of the code, seen from the state before the call.

`rotated_at_least_once`: in a run in which nothing is owed there, every line is returned once more after a restart.
`rotated_line_lost` is a run in which a line is owed there.
-/
import DominoLogForwarder.FileReader.Growing

namespace DominoLogForwarder.FileReader

open CrashProg
open Wal (File)

/-! ## What is owed -/

/-- `Commit` returned true for a position behind the line -/
def Life.covered (life : Life) (g : Given) : Bool :=
  life.commits.any fun c => decide (c.1 = g.line.generation) && decide (g.line.endOffset ≤ c.2)

/-- the lines which were returned and not committed -/
def Life.outstanding (life : Life) : List Given := life.given.filter fun g => g.whole && !life.covered g

/-- the line is one of those which the process returned -/
def Life.returns (life : Life) (g : Given) : Bool :=
  life.given.any fun g' => g'.whole && decide (g'.file = g.file) && decide (g'.item = g.item)

/-- what is owed at the end of a process, if `before` was owed at its start -/
def Life.owes (before : List Given) (life : Life) : List Given :=
  before.filter (fun g => !life.returns g) ++ life.outstanding

/-- the lines which were returned, not committed, and not returned once more by a later process -/
def owed (lives : List Life) : List Given := lives.foldl Life.owes []

theorem owed_append (lives : List Life) (life : Life) : owed (lives ++ [life]) = life.owes (owed lives) := by
  simp [owed, List.foldl_append]

theorem mem_outstanding {life : Life} {g : Given} :
    g ∈ life.outstanding ↔ g ∈ life.given ∧ g.whole = true ∧ life.covered g = false := by
  simp [Life.outstanding, List.mem_filter]

theorem mem_owes {before : List Given} {life : Life} {g : Given} :
    g ∈ life.owes before ↔ g ∈ before ∧ life.returns g = false ∨ g ∈ life.outstanding := by
  simp [Life.owes, List.mem_append, List.mem_filter]

theorem owes_new (before : List Given) : Life.owes before {} = before := by
  simp [Life.owes, Life.returns, Life.outstanding]

theorem returns_iff {life : Life} {g : Given} :
    life.returns g = true ↔ ∃ g' ∈ life.given, g'.whole = true ∧ g'.file = g.file ∧ g'.item = g.item := by
  simp [Life.returns, and_assoc]

theorem covered_iff {life : Life} {g : Given} :
    life.covered g = true ↔ ∃ e, (g.line.generation, e) ∈ life.commits ∧ g.line.endOffset ≤ e := by
  simp only [Life.covered, List.any_eq_true, Bool.and_eq_true, decide_eq_true_eq, Prod.exists]
  constructor
  · rintro ⟨_, e, hmem, rfl, hle⟩
    exact ⟨e, hmem, hle⟩
  · rintro ⟨e, hmem, hle⟩
    exact ⟨_, e, hmem, rfl, hle⟩

/-- a `Commit` only covers more lines -/
theorem covered_commit {life : Life} {g : Given} {generation endOffset : ℕ} {ok : Bool} (h : life.covered g = true) :
    (life.commit generation endOffset ok).covered g = true := by
  unfold Life.commit
  split_ifs
  · obtain ⟨e, hmem, hle⟩ := covered_iff.1 h
    exact covered_iff.2 ⟨e, List.mem_append_left _ hmem, hle⟩
  · exact h

theorem outstanding_commit {life : Life} {g : Given} {generation endOffset : ℕ} {ok : Bool}
    (h : g ∈ (life.commit generation endOffset ok).outstanding) : g ∈ life.outstanding := by
  obtain ⟨hmem, hwhole, hnot⟩ := mem_outstanding.1 h
  refine mem_outstanding.2 ⟨(life.commit_given generation endOffset ok).1 ▸ hmem, hwhole, ?_⟩
  by_contra hcov
  rw [covered_commit (by simpa using hcov)] at hnot
  cases hnot

theorem returns_commit (life : Life) (generation endOffset : ℕ) (ok : Bool) (g : Given) :
    (life.commit generation endOffset ok).returns g = life.returns g := by
  unfold Life.returns
  rw [(life.commit_given generation endOffset ok).1]

theorem owed_commit {lives : List Life} {life : Life} {generation endOffset : ℕ} {ok : Bool} {g : Given}
    (h : g ∈ owed (lives ++ [life.commit generation endOffset ok])) : g ∈ owed (lives ++ [life]) := by
  rw [owed_append, mem_owes] at h ⊢
  rw [returns_commit] at h
  exact h.imp_right outstanding_commit

/-- the history with what a call returned which read the file `id` on -/
def Life.goesOn (life : Life) (r : Reader) (id : FileId) (c : Bytes) (line : Option Line) : Life :=
  { life with given := life.given ++ line.toList.map (life.give r.settings id c (r.lineStart c)) }

/-- the history with a file which was opened -/
def Life.opens (life : Life) (id : FileId) (offset generation : ℕ) : Life :=
  { life with opened := life.opened ++ [(⟨id, offset, generation⟩ : Opened)] }

/-! ## Where a file is left -/

/-- everything the path leads to before and during a call -/
def pathsOf (w : World) (kern : Kernel) : List (Option Node) :=
  w.disk.path :: kern.others.flatten.filterMap fun
    | .path node => some node
    | _ => none

/-- the state file has a position in this file -/
def stateNames (d : Disk) (id : FileId) : Bool :=
  match d.state.map fun text => parseState (text.take (stateMax + 1)) with
  | some (.ok saved) => decide (saved.device = id.device.toNat) && decide (saved.inode = id.inode.toNat)
  | _ => false

/-- `ReadLine` can let go of its file, or open another one than the state file has. `LeaveFile` lets go of a file when
the rotation was seen by a call before, everything was read and returned, and the path leads to another file -/
def mayLeave (w : World) (kern : Kernel) : Bool :=
  match w.reader.fd with
  | some id =>
    w.reader.rotationSeen && decide (w.reader.bufferStart + w.reader.pending = (w.disk.files id).size) &&
      (decide (w.reader.pending = 0) || w.reader.skipping) &&
      (pathsOf w kern).any fun node => node.any fun node => decide (node.file ≠ id)
  | none => (pathsOf w kern).any fun node => node.any fun node => node.regular && !stateNames w.disk node.file

/-- the other programs append to files and rename them -/
def Kernel.Renames (k : Kernel) : Prop := k.Appends fun _ => True

/-- the calls of `SaveState` and `LoadState` do not fail, and positions of returned lines are committed -/
def Renaming (w : World) : Op → Prop
  | .others changes => ∀ ch ∈ changes, ch.Mild fun _ => True
  | .readLine _ _ kern => kern.Renames ∧ kern.Reliable
  | .commit generation endOffset kern => kern.Renames ∧ kern.Reliable ∧ w.Returned generation endOffset
  | .restart => True

/-- no line is owed where the call can leave a file -/
def Settled (w : World) (kern : Kernel) : Prop := mayLeave w kern = true → owed w.lives = []

def Rotating (w : World) (op : Op) : Prop :=
  Renaming w op ∧
    match op with
    | .readLine _ _ kern => Settled w kern
    | _ => True

/-- what the path leads to during a call -/
def Within (w : World) (kern : Kernel) (node : Option Node) : Prop := node ∈ pathsOf w kern

theorem within_path (w : World) (kern : Kernel) : Within w kern w.disk.path := List.mem_cons_self

theorem Kernel.Renames.within {kern : Kernel} (h : kern.Renames) (w : World) : kern.Appends (Within w kern) := by
  intro changes hchanges ch hch
  have hmild := h changes hchanges ch hch
  cases ch with
  | append id bytes => trivial
  | rewrite id content => exact hmild.elim
  | path node =>
    refine List.mem_cons_of_mem _ (List.mem_filterMap.2 ⟨.path node, ?_, rfl⟩)
    exact List.mem_flatten.2 ⟨changes, hchanges, hch⟩

theorem SavedAt.names {d : Disk} {id id' : FileId} {o : ℕ} (h : SavedAt d id o) (hnames : stateNames d id' = true) :
    id = id' := by
  obtain ⟨⟨saved, hst, hfits, hdev, hino, -⟩, -⟩ := h
  have htext : (stateText saved).take (stateMax + 1) = stateText saved :=
    List.take_of_length_le ((stateText_length_le hfits).trans (Nat.le_succ _))
  unfold stateNames at hnames
  rw [hst, Option.map_some, htext, parseState_stateText hfits] at hnames
  simp only [Bool.and_eq_true, decide_eq_true_eq] at hnames
  exact FileId.eq_of_toNat (hdev.symm.trans hnames.1) (hino.symm.trans hnames.2)

/-! ## The invariant -/

/-- the next process finds what is owed -/
def Safe (settings : Settings) (d : Disk) (lines : List Given) : Prop :=
  d.state = none ∧ lines = [] ∨
    ∃ id o, SavedAt d id o ∧
      ∀ g ∈ lines, g.file = id ∧ g.item ∈ linesFrom settings.maxLineLength (d.files id).bytes o

theorem Safe.mono {settings : Settings} {d d' : Disk} {k k' : Kernel} {P : Option Node → Prop} {lines : List Given}
    (h : Safe settings d lines) (hl : Later P d k d' k') (hs : d'.state = d.state) : Safe settings d' lines := by
  rcases h with ⟨hno, hnil⟩ | ⟨id, o, hsaved, hlines⟩
  · exact Or.inl ⟨hs.trans hno, hnil⟩
  · refine Or.inr ⟨id, o, hsaved.mono hl hs, fun g hg => ?_⟩
    obtain ⟨hfile, hitem⟩ := hlines g hg
    exact ⟨hfile, (linesFrom_grows (hl.files id) o).subset hitem⟩

theorem Safe.clean {settings : Settings} {d : Disk} {lines : List Given} (h : Safe settings d lines) : Clean d := by
  rcases h with ⟨hno, -⟩ | ⟨id, o, hsaved, -⟩
  · exact Or.inl hno
  · exact Or.inr ⟨id, o, hsaved⟩

/-- `a` was returned before `b` -/
def Given.Before (a b : Given) : Prop :=
  a.line.generation = b.line.generation → a.line.endOffset ≤ b.start ∧ a.line.endOffset ≤ b.line.endOffset

namespace World

/-- the reader let go of a file, and found no other one yet -/
structure Closed (w : World) : Prop where
  fd : w.reader.fd = none
  opened : w.reader.opened = true
  firstOpen : w.reader.firstOpen = false
  skipping : w.reader.skipping = false
  rotationSeen : w.reader.rotationSeen = false
  bufferStart : w.reader.bufferStart = 0
  owed : owed w.lives = []

/-- the process reads the file `id`, which it opened at the position `base` -/
structure Follows (id : FileId) (base : ℕ) (w : World) : Prop where
  on : w.reader.On w.disk id
  opened : w.life.opened.getLast? = some ⟨id, base, w.reader.generation⟩
  base_le : base ≤ w.reader.committed
  committed : w.reader.committed = base ∨
    ∃ g ∈ w.life.given, (w.reader.generation, w.reader.committed) ∈ w.life.commits ∧
      g.line.generation = w.reader.generation ∧ g.line.endOffset = w.reader.committed
  /-- the lines which are still to be returned once more -/
  again : ∀ g ∈ FileReader.owed w.earlier, w.life.returns g = false → g.file = id ∧
    g.item ∈ linesFrom w.reader.settings.maxLineLength (w.content id) base ∧ g.item ∈ w.reader.future (w.content id)
  own : ∀ g ∈ w.life.given, g.line.generation = w.reader.generation → g.file = id ∧
    g.line.endOffset ≤ w.reader.bufferStart ∧
      (g.whole = true → g.item ∈ linesFrom w.reader.settings.maxLineLength (w.content id) base)
  /-- of the files before nothing is left -/
  older : ∀ g ∈ w.life.outstanding, g.line.generation = w.reader.generation

structure RotationInv (settings : Settings) (w : World) : Prop where
  safe : Safe settings w.disk (owed w.lives)
  settings : w.reader.settings = settings
  generations : ∀ g ∈ w.life.given, g.line.generation ≤ w.reader.generation
  order : w.life.given.Pairwise Given.Before
  process : w.Waiting ∨ Closed w ∨ ∃ id base, Follows id base w

variable {settings : Settings} {id : FileId} {base : ℕ} {w : World}

/-- a line is also one of the lines from a later position on, up to its start -/
theorem linesFrom_later {maxLen : ℕ} {c : Bytes} {o : ℕ} {item : Item} (h : item ∈ linesFrom maxLen c base)
    (hle : base ≤ o) (hstart : o ≤ item.start) : item ∈ linesFrom maxLen c o := by
  obtain ⟨-, hbegins, hat⟩ := mem_linesFrom.1 h
  refine mem_linesFrom.2 ⟨hstart, ?_, hat⟩
  rcases hbegins with heq | ⟨-, hnl⟩
  · exact Or.inl (le_antisymm (heq.trans_le hle) hstart)
  · rcases Nat.eq_or_lt_of_le hstart with heq | hlt
    · exact Or.inl heq.symm
    · exact Or.inr ⟨hlt, hnl⟩

theorem future_start_le {r : Reader} {c : Bytes} {item : Item} (h : item ∈ r.future c) : r.bufferStart ≤
    item.start := by
  unfold Reader.future at h
  split_ifs at h
  · unfold afterSkip at h
    split at h
    · exact absurd h List.not_mem_nil
    · have := (mem_linesFrom.1 h).1
      omega
  · exact (mem_linesFrom.1 h).1

/-- one of two lines was returned first -/
theorem before_or {lines : List Given} (h : lines.Pairwise Given.Before) {a b : Given} (ha : a ∈ lines) (hb : b ∈ lines)
    (hne : a ≠ b) : a.Before b ∨ b.Before a := by
  have hsymm : Std.Symm fun a b : Given => a.Before b ∨ b.Before a := ⟨fun _ _ => Or.symm⟩
  have hboth : lines.Pairwise fun a b => a.Before b ∨ b.Before a := h.imp Or.inl
  exact hboth.forall ha hb hne

/-- nothing which is owed stands before the position of the state file -/
theorem Follows.safe (h : Follows id base w) (horder : w.life.given.Pairwise Given.Before) :
    ∀ g ∈ owed w.lives, g.file = id ∧
      g.item ∈ linesFrom w.reader.settings.maxLineLength (w.content id) w.reader.committed := by
  intro g hg
  rw [lives, owed_append, mem_owes] at hg
  rcases hg with ⟨hbefore, hnot⟩ | hout
  · obtain ⟨hfile, hitem, hfuture⟩ := h.again g hbefore hnot
    refine ⟨hfile, linesFrom_later hitem h.base_le ?_⟩
    exact h.on.holds.committed_le.trans (future_start_le hfuture)
  · obtain ⟨hgiven, hwhole, hnot⟩ := mem_outstanding.1 hout
    have hgen := h.older g hout
    obtain ⟨hfile, -, hitem⟩ := h.own g hgiven hgen
    refine ⟨hfile, linesFrom_later (hitem hwhole) h.base_le ?_⟩
    rcases h.committed with heq | ⟨g', hg', hcommit, hgen', hend⟩
    · rw [heq]
      exact (mem_linesFrom.1 (hitem hwhole)).1
    · -- the line is not covered, so it was returned behind the one which was committed
      have hlt : w.reader.committed < g.line.endOffset := by
        by_contra hcon
        rw [covered_iff.2 ⟨_, hgen ▸ hcommit, Nat.not_lt.1 hcon⟩] at hnot
        cases hnot
      rw [← hend] at hlt ⊢
      have hne : g' ≠ g := fun h0 => absurd (h0 ▸ hlt) (lt_irrefl _)
      rcases before_or horder hg' hgiven hne with hbefore | hbefore
      · exact (hbefore (hgen'.trans hgen.symm)).1
      · exact absurd (hbefore (hgen.trans hgen'.symm)).2 (Nat.not_le.2 hlt)

/-! ## A call which stays on its file -/

theorem le_lineStart {r : Reader} {c : Bytes} (h : r.Holds c) : r.bufferStart ≤ r.lineStart c := by
  have hread := h.read_le
  unfold Reader.lineStart
  split_ifs
  · split
    · omega
    · omega
  · exact le_rfl

variable {d : Disk} {k : Kernel} {r : Reader} {log : List Message} {life : Life} {earlier : List Life}
  {P : Option Node → Prop}
  {line : Option Line} {s' : Sys}

theorem mem_goesOn {c : Bytes} {g : Given} : g ∈ (life.goesOn r id c line).given ↔
    g ∈ life.given ∨ ∃ l, line = some l ∧ g = life.give r.settings id c (r.lineStart c) l := by
  cases line with
  | none => simp [Life.goesOn]
  | some l => simp [Life.goesOn]

theorem returns_goesOn {c : Bytes} {g : Given} (h : (life.goesOn r id c line).returns g = false) :
    life.returns g = false := by
  by_contra hcon
  obtain ⟨g', hg', hsame⟩ := returns_iff.1 (by simpa using hcon)
  rw [returns_iff.2 ⟨g', mem_goesOn.2 (Or.inl hg'), hsame⟩] at h
  cases h

/-- what is known of a line which was returned -/
theorem stays_line {l : Line} (h : Stays P d k r id (some l) s') :
    l.generation = r.generation ∧ l.endOffset = s'.reader.bufferStart := by
  rcases h.result with hfound | hrem
  · exact ⟨hfound.generation, hfound.endOffset⟩
  · exact ⟨hrem.generation, hrem.endOffset⟩

theorem follows_stays (h : Follows id base ⟨d, r, log, life, earlier⟩) (hl : Later P d k s'.disk s'.kern)
    (hstays : Stays P d k r id line s') :
    Follows id base ⟨s'.disk, s'.reader, s'.log, life.goesOn r id (s'.disk.files id).bytes line, earlier⟩ := by
  have hgrown := hl.files id
  have hkeeps := hstays.keeps
  have hopened : life.opened.getLast? = some ⟨id, base, r.generation⟩ := h.opened
  refine ⟨hstays.on, ?_, ?_, ?_, ?_, ?_, ?_⟩
  · rw [hkeeps.generation]
    exact h.opened
  · rw [hkeeps.committed]
    exact h.base_le
  · rw [hkeeps.committed, hkeeps.generation]
    exact h.committed.imp_right fun ⟨g, hg, hrest⟩ => ⟨g, mem_goesOn.2 (Or.inl hg), hrest⟩
  · intro g hg hnot
    obtain ⟨hfile, hitem, hfuture⟩ := h.again g hg (returns_goesOn hnot)
    have hitem' := (linesFrom_grows hgrown base).subset hitem
    have hfuture' := (Reader.future_grows hgrown r).subset hfuture
    rw [hkeeps.settings]
    refine ⟨hfile, hitem', ?_⟩
    have hres := hstays.result
    cases line with
    | none => exact hres.future _ (List.prefix_refl _) ▸ hfuture'
    | some l =>
      rcases hres with hfound | hrem
      · rw [hfound.future _ (List.prefix_refl _), List.mem_cons] at hfuture'
        refine hfuture'.resolve_left fun heq => ?_
        -- this is the line
        have hwhole : (life.give r.settings id (s'.disk.files id).bytes
          (r.lineStart (s'.disk.files id).bytes) l).whole =
            true := by
          simp only [Life.give, hopened, Option.any_some, decide_eq_true_eq]
          exact heq ▸ hitem'
        rw [returns_iff.2 ⟨_, mem_goesOn.2 (Or.inr ⟨l, rfl, rfl⟩), hwhole, hfile.symm, heq.symm⟩] at hnot
        cases hnot
      · obtain ⟨c', hc, -, hnil⟩ := hrem.gone
        have hnone := (Reader.future_grows hc r).subset hfuture
        rw [hnil] at hnone
        exact absurd hnone List.not_mem_nil
  · intro g hg hgen
    rw [hkeeps.settings]
    rcases mem_goesOn.1 hg with hold | ⟨l, rfl, rfl⟩
    · obtain ⟨hfile, hend, hitem⟩ := h.own g hold (hgen.trans hkeeps.generation)
      exact ⟨hfile, hend.trans hstays.start_le, fun hw => (linesFrom_grows hgrown base).subset (hitem hw)⟩
    · refine ⟨rfl, (stays_line hstays).2.le, fun hw => ?_⟩
      simp only [Life.give, hopened, Option.any_some, decide_eq_true_eq] at hw
      exact hw
  · intro g hg
    obtain ⟨hmem, hwhole, hnot⟩ := mem_outstanding.1 hg
    rw [hkeeps.generation]
    rcases mem_goesOn.1 hmem with hold | ⟨l, rfl, rfl⟩
    · exact h.older g (mem_outstanding.2 ⟨hold, hwhole, hnot⟩)
    · exact (stays_line hstays).1

/-- lines are returned in the order of the file -/
theorem order_stays (h : Follows id base ⟨d, r, log, life, earlier⟩) (horder : life.given.Pairwise Given.Before)
    (hl : Later P d k s'.disk s'.kern) (hstays : Stays P d k r id line s') :
    (life.goesOn r id (s'.disk.files id).bytes line).given.Pairwise Given.Before := by
  cases line with
  | none => simpa [Life.goesOn] using horder
  | some l =>
    refine List.pairwise_append.2 ⟨horder, List.pairwise_singleton _ _, fun a ha b hb hgen => ?_⟩
    rw [Option.toList_some, List.map_singleton, List.mem_singleton] at hb
    subst hb
    obtain ⟨hgen', hend⟩ := stays_line hstays
    have ha' := (h.own a ha (hgen.trans hgen')).2.1
    refine ⟨ha'.trans (le_lineStart (h.on.holds.mono (hl.files id))), ?_⟩
    exact ha'.trans (hstays.start_le.trans hend.ge)

theorem read_stays (w : World) (line : Option Line) (hfile : s'.reader.file = id) (hkeeps : w.reader.Keeps s'.reader) :
    w.life.read w.reader line s' = w.life.goesOn w.reader id (s'.disk.files id).bytes line := by
  simp only [Life.read, if_pos hkeeps.generation.symm, hfile, hkeeps.settings]
  rfl

/-! ## A file is opened -/

/-- what the call adds which opens the file `id` -/
theorem read_opens (w : World) (line : Option Line) {o : ℕ} {head : Bytes} (hskip : r.skipping = false)
    (hgen : r.generation = w.reader.generation)
    (hfile : s'.reader.file = id) (hkeeps : (r.started id o head).Keeps s'.reader) :
    w.life.read w.reader line s' = (w.life.opens id o (w.reader.generation + 1)).goesOn (r.started id o head) id
      (s'.disk.files id).bytes line := by
  have hgen' : s'.reader.generation = w.reader.generation + 1 := by
    rw [hkeeps.generation, ← hgen]
    rfl
  have hne : ¬ w.reader.generation = w.reader.generation + 1 := (Nat.succ_ne_self _).symm
  have hcommitted : s'.reader.committed = o := hkeeps.committed
  have hstart : (r.started id o head).lineStart (s'.disk.files id).bytes = o := (lines_started hskip).2
  simp only [Life.read, hgen', if_neg hne, hfile, hcommitted, hkeeps.settings]
  rw [Life.goesOn, hstart]
  rfl

/-- the process follows the file which it opened, if it finds there what is owed -/
theorem follows_opens (log : List Message) {o : ℕ} {head : Bytes} (hskip : r.skipping = false)
    (hgen : r.generation = w.reader.generation)
    (hgens : ∀ g ∈ w.life.given, g.line.generation ≤ w.reader.generation)
    (hout : w.life.outstanding = []) (hon : (r.started id o head).On d id)
    (hagain : ∀ g ∈ owed w.earlier, w.life.returns g = false →
      g.file = id ∧ g.item ∈ linesFrom r.settings.maxLineLength (d.files id).bytes o) :
    Follows id o ⟨d, r.started id o head, log, w.life.opens id o (w.reader.generation + 1), w.earlier⟩ := by
  have hgen' : (r.started id o head).generation = w.reader.generation + 1 := by
    rw [← hgen]
    rfl
  refine ⟨hon, ?_, le_rfl, Or.inl rfl, ?_, ?_, ?_⟩
  · rw [hgen']
    exact List.getLast?_concat
  · intro g hg hnot
    obtain ⟨hfile, hitem⟩ := hagain g hg hnot
    refine ⟨hfile, hitem, ?_⟩
    rw [(lines_started hskip).1]
    exact hitem
  · intro g hg hsame
    rw [hgen'] at hsame
    have := hgens g hg
    omega
  · intro g hg
    have hg' : g ∈ w.life.outstanding := hg
    rw [hout] at hg'
    exact absurd hg' List.not_mem_nil

/-- nothing is owed: everything which was owed before was returned once more, and what was returned is committed -/
theorem owed_eq_nil (h : owed w.lives = []) :
    (∀ g ∈ owed w.earlier, w.life.returns g = true) ∧ w.life.outstanding = [] := by
  rw [lives, owed_append, Life.owes, List.append_eq_nil_iff, List.filter_eq_nil_iff] at h
  exact ⟨fun g hg => by simpa using h.1 g hg, h.2⟩

theorem still_owed {g : Given} (h : g ∈ owed w.earlier) (hnot : w.life.returns g = false) : g ∈ owed w.lives := by
  rw [lives, owed_append, mem_owes]
  exact Or.inl ⟨h, hnot⟩

/-! ## The process -/

theorem inv_follows (hset : w.reader.settings = settings)
    (hgens : ∀ g ∈ w.life.given, g.line.generation ≤ w.reader.generation) (horder : w.life.given.Pairwise Given.Before)
    (h : Follows id base w) : RotationInv settings w :=
  ⟨Or.inr ⟨id, _, h.on.saved, hset ▸ h.safe horder⟩, hset, hgens, horder, Or.inr (Or.inr ⟨id, base, h⟩)⟩

theorem RotationInv.follows (h : RotationInv settings w) (hfd : w.reader.fd = some id) : ∃ base, Follows id base w := by
  rcases h.process with hw | hc | ⟨id', base, hf⟩
  · cases hw.fd.symm.trans hfd
  · cases hc.fd.symm.trans hfd
  · obtain rfl : id = id' := Option.some.inj (hfd.symm.trans hf.on.fd)
    exact ⟨base, hf⟩

theorem RotationInv.idle (h : RotationInv settings w) (hfd : w.reader.fd = none) : w.Waiting ∨ Closed w := by
  rcases h.process with hw | hc | ⟨id, base, hf⟩
  · exact Or.inl hw
  · exact Or.inr hc
  · cases hf.on.fd.symm.trans hfd

theorem idle_outstanding (h : w.Waiting ∨ Closed w) : w.life.outstanding = [] := by
  rcases h with hw | hc
  · rw [hw.life]
    rfl
  · exact (owed_eq_nil hc.owed).2

theorem idle_skipping (h : w.Waiting ∨ Closed w) : w.reader.skipping = false := by
  rcases h with hw | hc
  · exact hw.skipping
  · exact hc.skipping

variable {kern : Kernel}

theorem RotationInv.ready (h : RotationInv settings w) (hk : kern.Renames) (hr : kern.Reliable) :
    Ready (Within w kern) (w.sys kern) := by
  have hcalm : Calm (Within w kern) w.disk kern := ⟨hk.within w, within_path w kern⟩
  rcases h.process with ⟨⟨e, heq⟩, -⟩ | hc | ⟨id, base, hf⟩
  · refine ⟨hcalm, hr, ?_, h.safe.clean, Or.inr ⟨?_, ?_, ?_⟩⟩ <;>
      · simp only [sys]
        rw [heq]
        rfl
  · exact ⟨hcalm, hr, hc.opened, h.safe.clean, Or.inr ⟨hc.fd, hc.skipping, hc.rotationSeen⟩⟩
  · exact ⟨hcalm, hr, hf.on.opened, h.safe.clean, Or.inl ⟨id, hf.on⟩⟩

/-- the reader lets go of its file only where `mayLeave` says so -/
theorem mayLeave_of_leaving (hfd : w.reader.fd = some id) (h : Leaving (Within w kern) w.disk w.reader id) :
    mayLeave w kern = true := by
  obtain ⟨node, hnode, hne⟩ := h.replaced
  have hany : ((pathsOf w kern).any fun node => node.any fun node => decide (node.file ≠ id)) = true :=
    List.any_eq_true.2 ⟨some node, hnode, by simpa using hne⟩
  unfold mayLeave
  rw [hfd]
  simp only [Bool.and_eq_true, Bool.or_eq_true, decide_eq_true_eq]
  exact ⟨⟨⟨h.seen, h.read⟩, h.done⟩, hany⟩

theorem mayLeave_of_opens (hfd : w.reader.fd = none) (hnode : Within w kern (some ⟨id, true⟩))
    (hno : stateNames w.disk id = false) : mayLeave w kern = true := by
  unfold mayLeave
  rw [hfd]
  exact List.any_eq_true.2 ⟨some ⟨id, true⟩, hnode, by simp [hno]⟩

/-- a file which is opened is the one of the state file, if a line is owed -/
theorem RotationInv.finds (h : RotationInv settings w) (hguard : Settled w kern)
    (hfd : w.reader.fd = none) {d₀ : Disk} {k₀ : Kernel} {o : ℕ} (hl₀ : Later P w.disk kern d₀ k₀)
    (hs₀ : d₀.state = w.disk.state) (hnode : Within w kern (some ⟨id, true⟩)) (hres : Resolved w.reader d₀ id o) :
    ∀ g ∈ owed w.lives, g.file = id ∧ g.item ∈ linesFrom settings.maxLineLength (w.content id) o := by
  intro g hg
  have hne : owed w.lives ≠ [] := List.ne_nil_of_mem hg
  have hnames : stateNames w.disk id = true := by
    by_contra hno
    exact hne (hguard (mayLeave_of_opens hfd hnode (by simpa using hno)))
  rcases h.safe with ⟨-, hnil⟩ | ⟨id₀, o₀, hsaved, hlines⟩
  · exact absurd hnil hne
  · obtain rfl := hsaved.names hnames
    have hfirst : w.reader.firstOpen = true := by
      rcases h.idle hfd with hw | hc
      · exact hw.firstOpen
      · exact absurd hc.owed hne
    obtain rfl := hres.same hfirst o₀ (hsaved.mono hl₀ hs₀)
    exact hlines g hg

/-! ## The steps -/

theorem rotation_restart (h : RotationInv settings w) {d : Disk} (hsafe : Safe settings d (owed w.lives)) :
    RotationInv settings (w.restart d) := by
  have howed : owed (w.restart d).lives = owed w.lives := by
    have : (w.restart d).lives = w.lives ++ [({} : Life)] := rfl
    rw [this, owed_append, owes_new]
  exact ⟨howed ▸ hsafe, h.settings, fun g hg => absurd hg List.not_mem_nil, List.Pairwise.nil,
    Or.inl ⟨⟨0, rfl⟩, rfl⟩⟩

theorem rotation_killed (h : RotationInv settings w) (hguard : Settled w kern)
    (hl : Later (Within w kern) w.disk kern s'.disk s'.kern) (hk : Killed (Within w kern) (w.sys kern) s') :
    RotationInv settings (w.restart s'.disk) := by
  refine rotation_restart h ?_
  rcases hk with hst | ⟨id, o, hsaved, hnode, hwhy⟩
  · exact h.safe.mono hl hst
  · refine Or.inr ⟨id, o, hsaved, ?_⟩
    rcases hwhy with ⟨hfd, d₀, k₀, hl₀, hs₀, hres⟩ | ⟨-, id₀, hfd, hleaving⟩
    · intro g hg
      obtain ⟨hfile, hitem⟩ := h.finds hguard hfd hl₀ hs₀ hnode hres g hg
      exact ⟨hfile, (linesFrom_grows (hl.files id) o).subset hitem⟩
    · rw [hguard (mayLeave_of_leaving hfd hleaving)]
      exact fun g hg => absurd hg List.not_mem_nil

/-- the call opened the file `id` -/
theorem rotation_opened (h : RotationInv settings w) {o : ℕ} {head : Bytes} (hset : r.settings = settings)
    (hskip : r.skipping = false) (hgen : r.generation = w.reader.generation) (hout : w.life.outstanding = [])
    (hon : (r.started id o head).On d id)
    (hagain : ∀ g ∈ owed w.earlier, w.life.returns g = false →
      g.file = id ∧ g.item ∈ linesFrom settings.maxLineLength (d.files id).bytes o)
    (hl : Later P d k s'.disk s'.kern) (hstays : Stays P d k (r.started id o head) id line s') :
    RotationInv settings { w with
      disk := s'.disk, reader := s'.reader, log := s'.log, life := w.life.read w.reader line s' } ∧
    Follows id o { w with
      disk := s'.disk, reader := s'.reader, log := s'.log, life := w.life.read w.reader line s' } := by
  have hfollows := follows_opens [] hskip hgen h.generations hout hon (hset ▸ hagain)
  have hf := follows_stays hfollows hl hstays
  have hread := read_opens w line hskip hgen hstays.on.file hstays.keeps
  rw [← hread] at hf
  have hgen' : s'.reader.generation = w.reader.generation + 1 := by
    rw [hstays.keeps.generation, ← hgen]
    rfl
  refine ⟨inv_follows (hstays.keeps.settings.trans hset) (fun g hg => ?_) ?_ hf, hf⟩
  · simp only [hread] at hg
    rw [hgen']
    rcases mem_goesOn.1 hg with hold | ⟨l, rfl, rfl⟩
    · exact (h.generations g hold).trans (Nat.le_succ _)
    · exact ((stays_line hstays).1.trans (hstays.keeps.generation.symm.trans hgen')).le
  · simp only [hread]
    exact order_stays hfollows h.order hl hstays

/-- nothing was opened -/
theorem rotation_failed (h : RotationInv settings w) (hidle : w.Waiting ∨ Closed w) {e : ℕ}
    (hr : s'.reader = { w.reader with lastOpenError := e }) (hl : Later (Within w kern) w.disk kern s'.disk s'.kern)
    (hs : s'.disk.state = w.disk.state) : RotationInv settings { w with
      disk := s'.disk, reader := s'.reader, log := s'.log, life := w.life.read w.reader none s' } := by
  have hlife : w.life.read w.reader none s' = w.life := by
    have hgen : w.reader.generation = s'.reader.generation := by rw [hr]
    simp [Life.read, if_pos hgen]
  rw [hlife]
  refine ⟨h.safe.mono hl hs, ?_, ?_, h.order, ?_⟩
  · simp only [hr]
    exact h.settings
  · simp only [hr]
    exact h.generations
  · rcases hidle with ⟨⟨e₀, heq⟩, hlife'⟩ | hc
    · refine Or.inl ⟨⟨e, ?_⟩, hlife'⟩
      simp only [hr]
      rw [heq]
      rfl
    · refine Or.inr (Or.inl ⟨?_, ?_, ?_, ?_, ?_, ?_, hc.owed⟩) <;> simp only [hr]
      · exact hc.fd
      · exact hc.opened
      · exact hc.firstOpen
      · exact hc.skipping
      · exact hc.rotationSeen
      · exact hc.bufferStart

/-- where a call ends: the file is followed, or none is open -/
theorem rotation_outcome (h : RotationInv settings w) (hguard : Settled w kern)
    (hends : CallEnds (Within w kern) (w.sys kern) line s') : RotationInv settings { w with
      disk := s'.disk, reader := s'.reader, log := s'.log, life := w.life.read w.reader line s' } := by
  obtain ⟨hl, hout⟩ := hends
  cases hout with
  | stays id _ _ hfd hstays =>
    obtain ⟨base, hf⟩ := h.follows hfd
    have hread := read_stays w line hstays.on.file hstays.keeps
    have hf' := follows_stays hf hl hstays
    have horder := order_stays hf h.order hl hstays
    rw [← hread] at hf' horder
    refine inv_follows (hstays.keeps.settings.trans h.settings) (fun g hg => ?_) horder hf'
    simp only [hread] at hg
    rcases mem_goesOn.1 hg with hold | ⟨l, rfl, rfl⟩
    · exact (h.generations g hold).trans hstays.keeps.generation.ge
    · exact ((stays_line hstays).1.trans hstays.keeps.generation.symm).le
  | opens _ _ hfd hopens =>
    have hidle := h.idle hfd
    cases hopens with
    | failed e _ _ hr hst => exact rotation_failed h hidle hr hl hst
    | opened id o head d₀ d₁ k₀ k₁ _ _ hl₀ hs₀ hl₁ hnode hres hon hl₂ hstays =>
      have hl' := hl₀.trans hl₁
      refine (rotation_opened h h.settings (idle_skipping hidle) rfl (idle_outstanding hidle) hon (fun g hg hnot => ?_)
        hl₂ hstays).1
      have hg' := still_owed hg hnot
      obtain ⟨hfile, hitem⟩ := h.finds hguard hfd hl₀ hs₀ hnode hres g hg'
      exact ⟨hfile, (linesFrom_grows (hl'.files id) o).subset hitem⟩
  | leaves id d₁ k₁ _ _ hfd hleaving hl₁ hs₁ hopens =>
    obtain ⟨base, hf⟩ := h.follows hfd
    have hnil := hguard (mayLeave_of_leaving hfd hleaving)
    obtain ⟨hagain, hnone⟩ := owed_eq_nil hnil
    cases hopens with
    | failed e _ _ hr hst =>
      have hreader : s'.reader = { w.reader.closeFile with lastOpenError := e } := hr
      have hlife : w.life.read w.reader none s' = w.life := by
        have hgen : w.reader.generation = s'.reader.generation := by
          rw [hreader]
          rfl
        simp [Life.read, if_pos hgen]
      rw [hlife, hreader]
      refine ⟨h.safe.mono hl (hst.trans hs₁), h.settings, h.generations, h.order, Or.inr (Or.inl ?_)⟩
      exact ⟨rfl, hf.on.opened, hf.on.firstOpen, rfl, rfl, rfl, hnil⟩
    | opened id' o head d₀ d₂ k₀ k₂ _ _ hl₀ hs₀ hl₂ hnode hres hon hl₃ hstays =>
      refine (rotation_opened (r := w.reader.closeFile) h h.settings rfl rfl hnone hon (fun g hg hnot => ?_) hl₃
        hstays).1
      rw [hagain g hg] at hnot
      cases hnot

/-- no file which the reader can come across is larger -/
theorem exists_bounded (w : World) (kern : Kernel) : ∃ L, Bounded (Within w kern) (w.sys kern) L := by
  let sizes := (pathsOf w kern).map fun node => (node.map fun node => (kern.final w.disk.files node.file).size).getD 0
  let own := (w.reader.fd.map fun id => (kern.final w.disk.files id).size).getD 0
  refine ⟨own + sizes.sum, fun id hid => ?_⟩
  rcases hid with hfd | ⟨node, hnode, rfl⟩
  · have hown : own = (kern.final w.disk.files id).size := by
      simp only [own]
      rw [show w.reader.fd = some id from hfd]
      rfl
    exact hown.ge.trans (Nat.le_add_right _ _)
  · have hmem : (kern.final w.disk.files node.file).size ∈ sizes := List.mem_map.2 ⟨some node, hnode, rfl⟩
    exact (List.single_le_sum (fun _ _ => Nat.zero_le _) _ hmem).trans (Nat.le_add_left _ _)

theorem rotation_call (h : RotationInv settings w) (tNow : ℤ) (rounds : ℕ) (hk : kern.Renames) (hr : kern.Reliable)
    {L : ℕ} (hbound : Bounded (Within w kern) (w.sys kern) L) :
    wp (FrM.readLine tNow rounds) (CallEnds (Within w kern) (w.sys kern))
      (CallKilled (Within w kern) L (w.sys kern) rounds) (w.sys kern) := by
  have hready := h.ready hk hr
  unfold FrM.readLine
  rw [wp_bind, wp_get, if_neg (by rw [hready.opened]; simp)]
  exact readLoop_spec tNow rounds _ hready hbound

theorem rotation_readLine (h : RotationInv settings w) (tNow : ℤ) (rounds : ℕ) (hk : kern.Renames) (hr : kern.Reliable)
    (hguard : Settled w kern) : RotationInv settings (w.step (.readLine tNow rounds kern)) := by
  obtain ⟨L, hbound⟩ := exists_bounded w kern
  have hspec := rotation_call h tNow rounds hk hr hbound
  cases hres : FrM.readLine tNow rounds (w.sys kern) with
  | done line s' =>
    rw [wp_of_done hres] at hspec
    rw [step_readLine_done hres]
    exact rotation_outcome h hguard hspec
  | crash s' =>
    rw [wp_of_crash hres] at hspec
    rw [step_readLine_crash hres]
    exact rotation_killed h hguard hspec.1 hspec.2.1

/-- a position which is not saved changes nothing but the history -/
theorem rotation_ignored (h : RotationInv settings w) {generation endOffset : ℕ} {b : Bool} {l : List Message}
    (hret : w.Returned generation endOffset) : RotationInv settings { w with
      log := l, life := w.life.commit generation endOffset b } := by
  obtain ⟨hgiven, hopened⟩ := w.life.commit_given generation endOffset b
  have hsub : ∀ g ∈ owed (w.earlier ++ [w.life.commit generation endOffset b]), g ∈ owed w.lives :=
    fun g hg => owed_commit hg
  refine ⟨?_, h.settings, ?_, ?_, ?_⟩
  · rcases h.safe with ⟨hno, hnil⟩ | ⟨id, o, hsaved, hlines⟩
    · exact Or.inl ⟨hno, List.eq_nil_iff_forall_not_mem.2 fun g hg => List.ne_nil_of_mem (hsub g hg) hnil⟩
    · exact Or.inr ⟨id, o, hsaved, fun g hg => hlines g (hsub g hg)⟩
  · simp only [hgiven]
    exact h.generations
  · simp only [hgiven]
    exact h.order
  · rcases h.process with hw | hc | ⟨id, base, hf⟩
    · obtain ⟨g, hg, -⟩ := hret
      rw [hw.life] at hg
      exact absurd hg List.not_mem_nil
    · refine Or.inr (Or.inl ⟨hc.fd, hc.opened, hc.firstOpen, hc.skipping, hc.rotationSeen, hc.bufferStart, ?_⟩)
      exact List.eq_nil_iff_forall_not_mem.2 fun g hg => List.ne_nil_of_mem (hsub g hg) hc.owed
    · refine Or.inr (Or.inr ⟨id, base, hf.on, ?_, hf.base_le, ?_, ?_, ?_,
        fun g hg => hf.older g (outstanding_commit hg)⟩)
      · simp only [hopened]
        exact hf.opened
      · simp only [hgiven]
        refine hf.committed.imp_right fun ⟨g, hg, hmem, hrest⟩ => ⟨g, hg, ?_, hrest⟩
        unfold Life.commit
        split_ifs
        · exact List.mem_append_left _ hmem
        · exact hmem
      · simp only [returns_commit]
        exact hf.again
      · simp only [hgiven]
        exact hf.own

theorem rotation_commit (h : RotationInv settings w) {generation endOffset : ℕ} (hk : kern.Renames) (hr : kern.Reliable)
    (hret : w.Returned generation endOffset) : RotationInv settings (w.step (.commit generation endOffset kern)) := by
  have hclosed : w.reader.fd = none → w.reader.bufferStart = 0 := by
    intro hfd
    rcases h.idle hfd with ⟨⟨e, heq⟩, -⟩ | hc
    · rw [heq]
      rfl
    · exact hc.bufferStart
  have hspec : wp (FrM.commit generation endOffset)
      (fun ok s' => RotationInv settings { w with
        disk := s'.disk, reader := s'.reader, log := s'.log, life := w.life.commit generation endOffset ok })
      (fun s' => RotationInv settings (w.restart s'.disk)) (w.sys kern) := by
    refine wp_commit (h.ready hk hr) hclosed (fun b l _ => ?_) (fun id d k hon hgen hlt hle hl hon' => ?_)
      (fun d r l k hcr hl hs => rotation_restart h (h.safe.mono hl hs))
    · exact rotation_ignored h hret
    · -- the position is in the state file
      obtain ⟨base, hf⟩ := h.follows hon.fd
      obtain ⟨g, hg, hgen', hend⟩ := hret
      have hlt' : w.reader.committed < endOffset := hlt
      refine inv_follows h.settings h.generations h.order ⟨hon', hf.opened, hf.base_le.trans hlt'.le, Or.inr ?_, ?_, ?_,
        fun g hg => hf.older g (outstanding_commit hg)⟩
      · have hgen₀ : generation = w.reader.generation := hgen
        have hmem : (w.reader.generation, endOffset) ∈ (w.life.commit generation endOffset true).commits := by
          simp [Life.commit, hgen₀]
        exact ⟨g, hg, hmem, hgen'.trans hgen, hend⟩
      · intro g hg hnot
        rw [returns_commit] at hnot
        obtain ⟨hfile, hitem, hfuture⟩ := hf.again g hg hnot
        exact ⟨hfile, (linesFrom_grows (hl.files id) base).subset hitem,
          (Reader.future_grows (hl.files id) w.reader).subset hfuture⟩
      · intro g hg hsame
        obtain ⟨hfile, hle', hitem⟩ := hf.own g hg hsame
        exact ⟨hfile, hle', fun hw => (linesFrom_grows (hl.files id) base).subset (hitem hw)⟩
  cases hres : FrM.commit generation endOffset (w.sys kern) with
  | done ok s' =>
    rw [wp_of_done hres] at hspec
    rw [step_commit_done hres]
    exact hspec
  | crash s' =>
    rw [wp_of_crash hres] at hspec
    rw [step_commit_crash hres]
    exact hspec

theorem rotation_others (h : RotationInv settings w) {changes : List Change}
    (hmild : ∀ ch ∈ changes, ch.Mild fun _ => True) : RotationInv settings (w.step (.others changes)) := by
  have hl := later_others (d := w.disk) hmild trivial
  have hs := (Disk.applyAll_state changes w.disk).1
  refine ⟨h.safe.mono hl hs, h.settings, h.generations, h.order, ?_⟩
  rcases h.process with hw | hc | ⟨id, base, hf⟩
  · exact Or.inl ⟨hw.reader, hw.life⟩
  · exact Or.inr (Or.inl ⟨hc.fd, hc.opened, hc.firstOpen, hc.skipping, hc.rotationSeen, hc.bufferStart, hc.owed⟩)
  · refine Or.inr (Or.inr ⟨id, base, hf.on.mono hl hs, hf.opened, hf.base_le, hf.committed, fun g hg hnot => ?_,
      fun g hg hsame => ?_, hf.older⟩)
    · obtain ⟨hfile, hitem, hfuture⟩ := hf.again g hg hnot
      exact ⟨hfile, (linesFrom_grows (hl.files id) base).subset hitem,
        (Reader.future_grows (hl.files id) w.reader).subset hfuture⟩
    · obtain ⟨hfile, hle, hitem⟩ := hf.own g hg hsame
      exact ⟨hfile, hle, fun hwhole => (linesFrom_grows (hl.files id) base).subset (hitem hwhole)⟩

theorem rotation_step (w : World) (op : Op) (hg : Rotating w op) (h : RotationInv settings w) :
    RotationInv settings (w.step op) := by
  obtain ⟨hrenaming, hsettled⟩ := hg
  cases op with
  | others changes => exact rotation_others h hrenaming
  | readLine tNow rounds kern => exact rotation_readLine h tNow rounds hrenaming.1 hrenaming.2 hsettled
  | commit generation endOffset kern => exact rotation_commit h hrenaming.1 hrenaming.2.1 hrenaming.2.2
  | restart => exact rotation_restart h h.safe

theorem rotation_start (settings : Settings) (path : Option Node) (files : FileId → File) :
    RotationInv settings (start settings path files) :=
  ⟨Or.inl ⟨rfl, rfl⟩, rfl, fun _ hg => absurd hg List.not_mem_nil, List.Pairwise.nil, Or.inl ⟨⟨0, rfl⟩, rfl⟩⟩

/-! ## Every line is returned once more -/

/-- nothing is left in the file: the owed lines were returned -/
theorem Follows.drained (h : Follows id base ⟨d, r, log, life, earlier⟩) {c : Bytes} (hc : (d.files id).bytes <+: c)
    (hnil : r.future c = []) : ∀ g ∈ owed earlier, life.returns g = true := by
  intro g hg
  by_contra hnot
  obtain ⟨-, -, hfuture⟩ := h.again g hg (by simpa using hnot)
  have hmem := (Reader.future_grows hc r).subset hfuture
  rw [hnil] at hmem
  exact absurd hmem List.not_mem_nil

theorem goesOn_none (life : Life) (r : Reader) (id : FileId) (c : Bytes) : life.goesOn r id c none = life := by
  simp [Life.goesOn]

/-- a call which did not fail, has a file, and returned no line: the owed lines were returned -/
theorem rotation_drained (h : RotationInv settings w) (hguard : Settled w kern)
    (hq : kern.Quiet) (hends : CallEnds (Within w kern) (w.sys kern) none s') (hfd' : s'.reader.fd ≠ none) :
    ∀ g ∈ owed w.earlier, (w.life.read w.reader none s').returns g = true := by
  obtain ⟨-, hout⟩ := hends
  -- in the file which was opened
  have hopens : ∀ {d : Disk} {k : Kernel} {r : Reader} {o : ℕ} {head : Bytes} {d₁ : Disk} {k₁ : Kernel} {id : FileId},
      Later (Within w kern) w.disk kern d₁ k₁ → r.skipping = false → r.generation = w.reader.generation →
      w.life.outstanding = [] → (r.started id o head).On d₁ id →
      (∀ g ∈ owed w.earlier, w.life.returns g = false →
        g.file = id ∧ g.item ∈ linesFrom r.settings.maxLineLength (d₁.files id).bytes o) →
      Stays (Within w kern) d₁ k₁ (r.started id o head) id none s' →
      ∀ g ∈ owed w.earlier, (w.life.read w.reader none s').returns g = true := by
    intro d k r o head d₁ k₁ id hl hskip hgen hnone hon hagain hstays
    have hf := follows_opens [] hskip hgen h.generations hnone hon hagain
    obtain ⟨c, hc, -, hnil⟩ := hstays.result.gone.resolve_right fun ⟨code, hcode⟩ => (hl.quiet hq).calls _ code hcode
    rw [read_opens w none hskip hgen hstays.on.file hstays.keeps, goesOn_none]
    exact hf.drained hc hnil
  cases hout with
  | stays id _ _ hfd hstays =>
    obtain ⟨base, hf⟩ := h.follows hfd
    obtain ⟨c, hc, -, hnil⟩ := hstays.result.gone.resolve_right fun ⟨code, hcode⟩ => hq.calls _ code hcode
    rw [read_stays w none hstays.on.file hstays.keeps, goesOn_none]
    exact hf.drained hc hnil
  | opens _ _ hfd hopen =>
    have hidle := h.idle hfd
    cases hopen with
    | failed e _ _ hr _ =>
      rw [hr] at hfd'
      exact absurd hfd hfd'
    | opened id o head d₀ d₁ k₀ k₁ _ _ hl₀ hs₀ hl₁ hnode hres hon hl₂ hstays =>
      have hl := hl₀.trans hl₁
      refine hopens (d := d₀) (k := k₀) hl (idle_skipping hidle) rfl (idle_outstanding hidle) hon
        (fun g hg hnot => ?_) hstays
      have hg' := still_owed hg hnot
      obtain ⟨hfile, hitem⟩ := h.finds hguard hfd hl₀ hs₀ hnode hres g hg'
      rw [← h.settings] at hitem
      exact ⟨hfile, (linesFrom_grows (hl.files id) o).subset hitem⟩
  | leaves id d₁ k₁ _ _ hfd hleaving hl₁ hs₁ hopen =>
    obtain ⟨hagain, hnone⟩ := owed_eq_nil (hguard (mayLeave_of_leaving hfd hleaving))
    cases hopen with
    | failed e _ _ hr _ =>
      rw [hr] at hfd'
      exact absurd rfl hfd'
    | opened id' o head d₀ d₂ k₀ k₂ _ _ hl₀ hs₀ hl₂ hnode hres hon hl₃ hstays =>
      refine hopens (d := d₀) (k := k₀) (r := w.reader.closeFile) ((hl₁.trans hl₀).trans hl₂) rfl rfl hnone hon
        (fun g hg hnot => ?_) hstays
      rw [hagain g hg] at hnot
      cases hnot

/-- nobody else works on the files -/
theorem later_alone (hl : Later (Within w {}) w.disk {} s'.disk s'.kern) :
    s'.disk.path = w.disk.path ∧ ∀ id, (s'.disk.files id).bytes = (w.disk.files id).bytes := by
  constructor
  · have hpath : s'.disk.path ∈ [w.disk.path] := hl.calm.path
    exact List.mem_singleton.1 hpath
  · intro id
    have hfinal := hl.calm.size_le id
    rw [hl.final] at hfinal
    exact hfinal.eq_of_length_le (hl.files id).length_le

/-- the path leads to the file `id`, and the reader reads it or none -/
structure Leading (id : FileId) (w : World) : Prop where
  path : w.disk.path = some ⟨id, true⟩
  fd : w.reader.fd = none ∨ w.reader.fd = some id
  known : Settled w {}

theorem Leading.bounded (h : Leading id w) : Bounded (Within w {}) (w.sys {}) (w.content id).length := by
  intro id' hid
  have heq : id' = id := by
    rcases hid with hfd | ⟨node, hnode, rfl⟩
    · rcases h.fd with hnone | hsome
      · cases hnone.symm.trans hfd
      · exact Option.some.inj (hfd.symm.trans hsome)
    · have hpath : some node ∈ [w.disk.path] := hnode
      rw [h.path, List.mem_singleton, Option.some.injEq] at hpath
      rw [hpath]
  rw [heq]
  exact le_rfl

/-- the path leads to the file which is read -/
theorem settled_of_reads (hfd : w.reader.fd = some id) (hpath : w.disk.path = some ⟨id, true⟩) : Settled w {} := by
  intro hmay
  exfalso
  unfold mayLeave at hmay
  simp only [hfd, pathsOf, hpath] at hmay
  simp at hmay

theorem renames_alone : ({} : Kernel).Renames := appends_default _

/-- a poll which makes enough rounds returns -/
theorem poll_ends (h : RotationInv settings w) (hlead : Leading id w) (tNow : ℤ) {rounds : ℕ}
    (hrounds : 2 * (w.content id).length + 4 ≤ rounds) : ∃ line s',
      FrM.readLine tNow rounds (w.sys {}) = .done line s' ∧
      CallEnds (Within w {}) (w.sys {}) line s' := by
  have hspec := rotation_call h tNow rounds renames_alone quiet_default.reliable hlead.bounded
  cases hres : FrM.readLine tNow rounds (w.sys {}) with
  | done line s' =>
    rw [wp_of_done hres] at hspec
    exact ⟨line, s', rfl, hspec⟩
  | crash s' =>
    rw [wp_of_crash hres] at hspec
    have hle : rounds ≤ need (w.content id).length w.reader := hspec.2.2 rfl
    unfold need at hle
    split at hle
    · omega
    · split_ifs at hle <;> omega

/-- one line of the file less -/
theorem poll_follows (h : RotationInv settings w) (hf : Follows id base w) (hlead : Leading id w)
    (tNow : ℤ) {rounds : ℕ}
    (hrounds : 2 * (w.content id).length + 4 ≤ rounds) {w' : World} (hw' : w' = w.step (.readLine tNow rounds {})) :
    w'.earlier = w.earlier ∧ ((∀ g ∈ owed w.earlier, w'.life.returns g = true) ∨
      RotationInv settings w' ∧ (∃ base', Follows id base' w') ∧ Leading id w' ∧ w'.content id = w.content id ∧
        (w'.reader.future (w.content id)).length < (w.reader.future (w.content id)).length) := by
  have hquiet := quiet_default
  have hkeep := rotation_readLine h tNow rounds renames_alone hquiet.reliable hlead.known
  obtain ⟨line, s', hres, hends⟩ := poll_ends h hlead tNow hrounds
  rw [step_readLine_done hres] at hw' hkeep
  have hdrained := fun hline : line = none => rotation_drained h hlead.known hquiet (hline ▸ hends)
  obtain ⟨hl, hout⟩ := hends
  obtain ⟨hpath, hsame⟩ := later_alone hl
  subst hw'
  refine ⟨rfl, ?_⟩
  cases hout with
  | opens _ _ hfd => cases hf.on.fd.symm.trans hfd
  | leaves id' _ _ _ _ hfd hleaving =>
    obtain ⟨node, hnode, hne⟩ := hleaving.replaced
    obtain rfl : id = id' := Option.some.inj (hf.on.fd.symm.trans hfd)
    have hmem : some node ∈ [w.disk.path] := hnode
    rw [hlead.path, List.mem_singleton, Option.some.injEq] at hmem
    rw [hmem] at hne
    exact absurd rfl hne
  | stays id' _ _ hfd hstays =>
    obtain rfl : id = id' := Option.some.inj (hf.on.fd.symm.trans hfd)
    have hread := read_stays w line hstays.on.file hstays.keeps
    have hf' := follows_stays hf hl hstays
    cases line with
    | none => exact Or.inl (hdrained rfl (by rw [hstays.on.fd]; simp))
    | some l =>
      rcases hstays.result with hfound | hrem
      · have hpath' := hpath.trans hlead.path
        refine Or.inr ⟨hkeep, ⟨base, ?_⟩, ⟨hpath', Or.inr hstays.on.fd, settled_of_reads hstays.on.fd hpath'⟩, hsame id,
          ?_⟩
        · rw [← hread] at hf'
          exact hf'
        · have hfuture := hfound.future _ (List.prefix_refl _)
          rw [hsame id] at hfuture
          have hlen := congrArg List.length hfuture
          rw [List.length_cons] at hlen
          exact (Nat.lt_succ_self _).trans_eq hlen.symm
      · obtain ⟨c, hc, -, hnil⟩ := hrem.gone
        refine Or.inl fun g hg => ?_
        have hg' := hf.drained hc hnil g hg
        obtain ⟨g', hmem, hrest⟩ := returns_iff.1 hg'
        rw [hread]
        exact returns_iff.2 ⟨g', mem_goesOn.2 (Or.inl hmem), hrest⟩

/-- polls, one after the other -/
def polls (tNow : ℤ) (rounds n : ℕ) : List Op := List.replicate n (.readLine tNow rounds {})

theorem run_polls_succ (w : World) (tNow : ℤ) (rounds n : ℕ) :
    w.run (polls tNow rounds (n + 1)) = (w.step (.readLine tNow rounds {})).run (polls tNow rounds n) := by
  simp only [polls, run, List.replicate_succ, List.foldl_cons]

theorem polls_follow (tNow : ℤ) {rounds : ℕ} (h : RotationInv settings w) (hf : Follows id base w)
    (hlead : Leading id w) (hrounds : 2 * (w.content id).length + 4 ≤ rounds) :
    ∃ n, ∀ g ∈ owed w.earlier, (w.run (polls tNow rounds n)).life.returns g = true := by
  -- induction on the number of lines which are left
  induction hn : (w.reader.future (w.content id)).length using Nat.strong_induction_on generalizing w base with
  | _ n ih =>
    obtain ⟨hearlier, hdone | ⟨h', ⟨base', hf'⟩, hlead', hsame, hlt⟩⟩ := poll_follows h hf hlead tNow hrounds rfl
    · exact ⟨1, hdone⟩
    · obtain ⟨m, hm⟩ := ih _ (hsame ▸ hn ▸ hlt) h' hf' hlead' (hsame ▸ hrounds) rfl
      refine ⟨m + 1, fun g hg => ?_⟩
      rw [run_polls_succ]
      exact hm g (hearlier ▸ hg)

theorem names_of_saved {o : ℕ} (h : SavedAt d id o) : stateNames d id = true := by
  obtain ⟨⟨saved, hst, hfits, hdev, hino, -⟩, -⟩ := h
  have htext : (stateText saved).take (stateMax + 1) = stateText saved :=
    List.take_of_length_le ((stateText_length_le hfits).trans (Nat.le_succ _))
  unfold stateNames
  rw [hst, Option.map_some, htext, parseState_stateText hfits]
  simp [hdev, hino]

/-- a new process opens the file -/
theorem polls_wait (tNow : ℤ) {rounds : ℕ} (h : RotationInv settings w) (hw : w.Waiting) (hlead : Leading id w)
    (hrounds : 2 * (w.content id).length + 4 ≤ rounds) :
    ∃ n, ∀ g ∈ owed w.earlier, (w.run (polls tNow rounds n)).life.returns g = true := by
  have hquiet := quiet_default
  have hkeep := rotation_readLine h tNow rounds renames_alone hquiet.reliable hlead.known
  obtain ⟨line, s', hres, hends⟩ := poll_ends h hlead tNow hrounds
  have hstep := step_readLine_done hres
  rw [hstep] at hkeep
  obtain ⟨hl, hout⟩ := hends
  obtain ⟨hpath, hsame⟩ := later_alone hl
  have hnodes : ∀ node, Within w {} node → node = some ⟨id, true⟩ := by
    intro node hnode
    have hmem : node ∈ [w.disk.path] := hnode
    rwa [hlead.path, List.mem_singleton] at hmem
  cases hout with
  | stays id' _ _ hfd => cases hw.fd.symm.trans hfd
  | leaves id' _ _ _ _ hfd => cases hw.fd.symm.trans hfd
  | opens _ _ hfd hopen =>
    cases hopen with
    | failed e _ hfails _ _ =>
      exfalso
      rcases hfails with ⟨code, hcode | hcode⟩ | hnone | ⟨id', hnode⟩
      · exact hquiet.calls _ code hcode
      · exact hquiet.calls _ code hcode
      · cases hnodes _ hnone
      · cases hnodes _ hnode
    | opened id' o head d₀ d₁ k₀ k₁ _ _ hl₀ hs₀ hl₁ hnode hres' hon hl₂ hstays =>
      obtain rfl : id' = id := by
        have := hnodes _ hnode
        simpa using this
      have hl' := hl₀.trans hl₁
      obtain ⟨h', hf'⟩ := rotation_opened h h.settings hw.skipping rfl (idle_outstanding (Or.inl hw)) hon
        (fun g hg hnot => by
          have hg' := still_owed hg hnot
          obtain ⟨hfile, hitem⟩ := h.finds hlead.known hw.fd hl₀ hs₀ hnode hres' g hg'
          exact ⟨hfile, (linesFrom_grows (hl'.files id') o).subset hitem⟩) hl₂ hstays
      have hlead' : Leading id' (w.step (.readLine tNow rounds {})) := by
        rw [hstep]
        have hpath' := hpath.trans hlead.path
        exact ⟨hpath', Or.inr hstays.on.fd, settled_of_reads hstays.on.fd hpath'⟩
      rw [← hstep] at h' hf'
      have hcontent : (w.step (.readLine tNow rounds {})).content id' = w.content id' := by
        rw [hstep]
        exact hsame id'
      obtain ⟨n, hn⟩ := polls_follow tNow h' hf' hlead' (hcontent ▸ hrounds)
      refine ⟨n + 1, fun g hg => ?_⟩
      rw [run_polls_succ]
      refine hn g ?_
      rw [hstep]
      exact hg

/-- **A line which is owed is returned once more**, when the path leads to its file -/
theorem owed_returned (tNow : ℤ) (h : RotationInv settings w) {g : Given} (hg : g ∈ owed w.earlier)
    (hpath : w.disk.path = some ⟨g.file, true⟩) :
    ∃ rounds n, (w.run (polls tNow rounds n)).life.returns g = true := by
  cases hnot : w.life.returns g with
  | true => exact ⟨0, 0, hnot⟩
  | false =>
    have hg' := still_owed hg hnot
    refine ⟨2 * (w.content g.file).length + 4, ?_⟩
    rcases h.process with hw | hc | ⟨id, base, hf⟩
    · have hlead : Leading g.file w := by
        refine ⟨hpath, Or.inl hw.fd, fun hmay => ?_⟩
        -- the state file has a position in the file
        rcases h.safe with ⟨-, hnil⟩ | ⟨id, o, hsaved, hlines⟩
        · exact hnil
        · obtain ⟨rfl, -⟩ := hlines g hg'
          exfalso
          unfold mayLeave at hmay
          simp only [hw.fd, pathsOf, hpath] at hmay
          simp [names_of_saved hsaved] at hmay
      obtain ⟨n, hn⟩ := polls_wait tNow h hw hlead le_rfl
      exact ⟨n, hn g hg⟩
    · rw [hc.owed] at hg'
      exact absurd hg' List.not_mem_nil
    · obtain ⟨rfl, -⟩ := hf.again g hg hnot
      have hlead : Leading g.file w := ⟨hpath, Or.inr hf.on.fd, settled_of_reads hf.on.fd hpath⟩
      obtain ⟨n, hn⟩ := polls_follow tNow h hf hlead le_rfl
      exact ⟨n, hn g hg⟩

/-- the call has a file and returns no line -/
def silent (w : World) (tNow : ℤ) (rounds : ℕ) (kern : Kernel) : Bool :=
  match FrM.readLine tNow rounds (w.sys kern) with
  | .done none s => s.reader.fd.isSome
  | _ => false

theorem silent_returns (h : RotationInv settings w) (hk : kern.Renames) (hq : kern.Quiet) (hguard : Settled w kern)
    {tNow : ℤ} {rounds : ℕ} (hsilent : w.silent tNow rounds kern = true) :
    ∀ g ∈ owed w.earlier, (w.step (.readLine tNow rounds kern)).life.returns g = true := by
  obtain ⟨L, hbound⟩ := exists_bounded w kern
  have hspec := rotation_call h tNow rounds hk hq.reliable hbound
  unfold silent at hsilent
  cases hres : FrM.readLine tNow rounds (w.sys kern) with
  | crash s' =>
    rw [hres] at hsilent
    cases hsilent
  | done line s' =>
    rw [wp_of_done hres] at hspec
    rw [hres] at hsilent
    rw [step_readLine_done hres]
    cases line with
    | some l => cases hsilent
    | none => exact rotation_drained h hguard hq hspec (Option.isSome_iff_ne_none.1 hsilent)

end World

open World

/-- **At least once across rotations.** Nothing is owed where a file is left: then every line which a process returned
and did not commit is returned once more by the processes after it. It is returned by polls of the path which leads to
its file, and at the latest when a call finds no more lines. -/
theorem rotated_at_least_once (settings : Settings) (path : Option Node) (files : FileId → File) (ops : List Op)
    (hg : Guarded step Rotating (start settings path files) ops) :
    let w := (start settings path files).run ops
    (∀ g ∈ owed w.earlier, w.disk.path = some ⟨g.file, true⟩ →
      ∀ tNow, ∃ rounds n, (w.run (polls tNow rounds n)).life.returns g = true) ∧
    ∀ (tNow : ℤ) (kern : Kernel), kern.Renames → kern.Quiet → Settled w kern →
      (∃ enough, ∀ rounds, enough ≤ rounds → ∃ line s, FrM.readLine tNow rounds (w.sys kern) = .done line s) ∧
      ∀ rounds, w.silent tNow rounds kern = true →
        ∀ g ∈ owed w.earlier, (w.step (.readLine tNow rounds kern)).life.returns g = true := by
  intro w
  have h : RotationInv settings w := hg.inv rotation_step (rotation_start settings path files)
  refine ⟨fun g hmem hpath tNow => owed_returned tNow h hmem hpath, fun tNow kern hk hq hguard => ⟨?_, ?_⟩⟩
  · obtain ⟨L, hbound⟩ := exists_bounded w kern
    refine ⟨need L w.reader + 1, fun rounds hrounds => ?_⟩
    have hspec := rotation_call h tNow rounds hk hq.reliable hbound
    cases hres : FrM.readLine tNow rounds (w.sys kern) with
    | crash s' =>
      rw [wp_of_crash hres] at hspec
      have hle : rounds ≤ need L w.reader := hspec.2.2 hq.alive
      omega
    | done line s' => exact ⟨line, s', rfl⟩
  · exact fun rounds hsilent => silent_returns h hk hq hguard hsilent

section Rotations

/-- the file which is renamed, and the new one -/
def oldFile : FileId := ⟨1, 7⟩

def newFile : FileId := ⟨1, 8⟩

/-- the second line is committed only by the second process, before the file is left -/
def commitAndRotate : List Op :=
  [.others [.append oldFile (ascii "a\nb\n")], .readLine 0 9 {}, .readLine 0 9 {}, .commit 1 2 {}, .restart,
    .readLine 0 9 {}, .commit 1 4 {}, .others [.path (some ⟨newFile, true⟩), .append newFile (ascii "c\n")],
    .readLine 0 9 {}, .readLine 0 9 {}, .restart]

theorem rotated_and_restarted : ∃ rounds n,
    (((start {} (some ⟨oldFile, true⟩) fun _ => Wal.File.empty).run commitAndRotate).run
      (polls 0 rounds n)).life.returns
      ⟨newFile, 0, ⟨ascii "c", 2, 2, false⟩, true⟩ = true := by
  have hk := appends_default fun _ => True
  have hr := quiet_default.reliable
  have hmild : ∀ ch ∈ [Change.path (some ⟨newFile, true⟩), .append newFile (ascii "c\n")], ch.Mild fun _ => True := by
    intro ch hch
    rcases List.mem_cons.1 hch with rfl | hch
    · trivial
    · exact mild_append _ _ _ ch hch
  have hg : Guarded step Rotating (start {} (some ⟨oldFile, true⟩) fun _ => Wal.File.empty) commitAndRotate := by
    refine ⟨⟨mild_append _ _ _, trivial⟩, ⟨⟨hk, hr⟩, ?_⟩, ⟨⟨hk, hr⟩, ?_⟩, ⟨⟨hk, hr, ?_⟩, trivial⟩, ⟨trivial, trivial⟩,
      ⟨⟨hk, hr⟩, ?_⟩, ⟨⟨hk, hr, ?_⟩, trivial⟩, ⟨hmild, trivial⟩, ⟨⟨hk, hr⟩, ?_⟩, ⟨⟨hk, hr⟩, ?_⟩, ⟨trivial, trivial⟩,
      trivial⟩
    case refine_3 | refine_5 =>
      unfold World.Returned
      decide +kernel
    all_goals
      unfold Settled
      decide +kernel
  have hrun := rotated_at_least_once {} (some ⟨oldFile, true⟩) (fun _ => Wal.File.empty) commitAndRotate hg
  exact hrun.1 ⟨newFile, 0, ⟨ascii "c", 2, 2, false⟩, true⟩ (by decide +kernel) (by decide +kernel) 0

/-- the rotation comes before the line is committed, and so does the end of the process -/
def rotateAndCrash : List Op :=
  [.others [.append oldFile (ascii "a\n")], .readLine 0 9 {}, .others [.path (some ⟨newFile, true⟩)],
    .readLine 0 9 {}, .readLine 0 9 {}, .restart]

/-- without the condition a line is lost: the state file has the new file before the line of the old one is committed -/
theorem rotated_line_lost : ¬ ∀ (settings : Settings) (path : Option Node) (files : FileId → File) (ops : List Op),
    Guarded step Renaming (start settings path files) ops → ∀ (tNow : ℤ) (rounds : ℕ),
      ((start settings path files).run ops).silent tNow rounds {} = true →
      ∀ g ∈ owed ((start settings path files).run ops).earlier,
        (((start settings path files).run ops).step (.readLine tNow rounds {})).life.returns g = true := by
  intro h
  have hk := appends_default fun _ => True
  have hr := quiet_default.reliable
  have hmild : ∀ ch ∈ [Change.path (some ⟨newFile, true⟩)], ch.Mild fun _ => True := by
    intro ch hch
    rw [List.mem_singleton.1 hch]
    trivial
  have hg : Guarded step Renaming (start {} (some ⟨oldFile, true⟩) fun _ => Wal.File.empty) rotateAndCrash :=
    ⟨mild_append _ _ _, ⟨hk, hr⟩, hmild, ⟨hk, hr⟩, ⟨hk, hr⟩, trivial, trivial⟩
  have hlost := h {} (some ⟨oldFile, true⟩) (fun _ => Wal.File.empty) rotateAndCrash hg 0 9 (by decide +kernel)
    ⟨oldFile, 0, ⟨ascii "a", 1, 2, false⟩, true⟩ (by decide +kernel)
  revert hlost
  decide +kernel

end Rotations

end DominoLogForwarder.FileReader
