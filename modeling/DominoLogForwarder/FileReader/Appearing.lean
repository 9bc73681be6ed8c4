/-
A file which appears later.

The environment is `appending P True`: other programs append to files, the path stays within `P`, and the process can be
killed. `Inv` is the invariant of a run which starts without the file and without a state file, as long as the first
process runs.

- `appearing_file`: the file is read from its beginning, unless there is something in it when the reader opens it and
  `SetStartAtEnd` is set
- `appearing_skipped`: there the reader starts at the end
-/
import DominoLogForwarder.FileReader.Following
import DominoLogForwarder.FileReader.Rounds
import DominoLogForwarder.FileReader.Growing

namespace DominoLogForwarder.FileReader

open CrashProg
open Wal (File)

/-! ## The environment -/

theorem follows_appending {P : Option Node → Prop} {f : FileId} (hP : ∀ node, P node → Appears f node) :
    (appending P True).Follows f where
  grows h id := h.1.files id
  path h := hP _ h.1.calm.path

/-- other programs write the file and put it at the path, in any pieces -/
def Appearing (f : FileId) (_ : World) : Op → Prop
  | .others changes => ∀ ch ∈ changes, ch.Mild (Appears f)
  | .readLine _ _ kern => kern.Appends (Appears f)
  | .commit _ _ kern => kern.Appends (Appears f)
  | .restart => True

/-- nothing comes to the path while the call runs -/
def Kernel.KeepsPath (k : Kernel) : Prop := ∀ changes ∈ k.others, ∀ ch ∈ changes, ∀ node, ch ≠ .path node

/-- with `SetStartAtEnd` the first call which finds the file at the path finds it empty -/
def Unskipped (f : FileId) (w : World) : Op → Prop
  | .readLine _ _ kern => w.reader.settings.startAtEnd = true → w.reader.firstOpen = true →
      w.disk.path = none ∧ kern.KeepsPath ∨ (kern.final w.disk.files f).bytes = []
  | _ => True

/-! ## The invariant -/

namespace World

/-- the file was not opened yet -/
structure Unopened (settings : Settings) (w : World) : Prop where
  reader : ∃ e, w.reader = { Reader.ready settings with lastOpenError := e }
  state : w.disk.state = none
  opened : w.life.opened = []
  given : w.life.given = []

/-- the lines of `life` come from the beginning of the file which the reader `r` reads -/
structure Lines (settings : Settings) (f : FileId) (life : Life) (r : Reader) (c : Bytes) : Prop where
  settings_eq : r.settings = settings
  generation : r.generation = 1
  firstOpen : r.firstOpen = false
  opened : life.opened = [⟨f, 0, 1⟩]
  pieces : ∀ c', c <+: c' →
    Pieces settings.incompleteSec settings.maxLineLength c' 0 (life.given.map Given.line) (r.future c')

/-- the process reads the file from its beginning -/
structure Followed (settings : Settings) (f : FileId) (w : World) : Prop where
  reads : w.reader.At f
  holds : w.reader.Holds (w.content f)
  lines : Lines settings f w.life w.reader (w.content f)

/-- as long as the first process runs -/
def FromStart (settings : Settings) (f : FileId) (w : World) : Prop :=
  w.earlier = [] → Appears f w.disk.path ∧ (w.Unopened settings ∨ w.Followed settings f)

variable {settings : Settings} {f : FileId} {w : World}

theorem fromStart_start (files : FileId → File) : FromStart settings f (start settings none files) :=
  fun _ => ⟨Or.inl rfl, Or.inl ⟨⟨0, rfl⟩, rfl, rfl, rfl⟩⟩

/-- the next process is not the first one -/
theorem fromStart_restart (w : World) (d : Disk) : FromStart settings f (w.restart d) := by
  intro h
  simp [restart] at h

theorem Unopened.fd (h : w.Unopened settings) : w.reader.fd = none := by
  obtain ⟨e, heq⟩ := h.reader
  rw [heq]
  rfl

theorem Unopened.isOpen (h : w.Unopened settings) : w.reader.opened = true := by
  obtain ⟨e, heq⟩ := h.reader
  rw [heq]
  rfl

theorem Unopened.firstOpen (h : w.Unopened settings) : w.reader.firstOpen = true := by
  obtain ⟨e, heq⟩ := h.reader
  rw [heq]
  rfl

theorem Unopened.generation (h : w.Unopened settings) : w.reader.generation = 0 := by
  obtain ⟨e, heq⟩ := h.reader
  rw [heq]
  rfl

theorem Unopened.settings_eq (h : w.Unopened settings) : w.reader.settings = settings := by
  obtain ⟨e, heq⟩ := h.reader
  rw [heq]
  rfl

theorem Unopened.rotationSeen (h : w.Unopened settings) : w.reader.rotationSeen = false := by
  obtain ⟨e, heq⟩ := h.reader
  rw [heq]
  rfl

theorem Unopened.since (h : w.Unopened settings) : w.reader.incompleteSince = 0 := by
  obtain ⟨e, heq⟩ := h.reader
  rw [heq]
  rfl

theorem Unopened.skipping (h : w.Unopened settings) : w.reader.skipping = false := by
  obtain ⟨e, heq⟩ := h.reader
  rw [heq]
  rfl

/-! ## The steps -/

/-- what a call which reads on adds to the lines -/
theorem lines_reads {E : Env} (life : Life) {s s' : Sys} {line : Option Line} (hE : E.Follows f)
    (h : Lines settings f life s.reader (s.disk.files f).bytes) (hreads : Reads settings.incompleteSec E f s line s')
    {given : List Given}
    (hgiven : given.map Given.line = life.given.map Given.line ++ line.toList) :
    Lines settings f { life with given := given } s'.reader (s'.disk.files f).bytes := by
  refine ⟨hreads.keeps.settings.trans h.settings_eq, hreads.keeps.generation.trans h.generation,
    hreads.firstOpen.trans h.firstOpen, h.opened, fun c' hc => ?_⟩
  have hbefore := h.pieces c' ((hE.grows hreads.goes).trans hc)
  have hres := hreads.result
  dsimp only
  rw [hgiven]
  cases line with
  | none =>
    rw [hres.future c' hc] at hbefore
    simpa using hbefore
  | some l =>
    have hgives := hres.2 c' hc
    rw [h.settings_eq] at hgives
    exact .step hbefore hgives

/-- a file which is opened at its beginning has given nothing yet -/
theorem lines_begun {E : Env} {s : Sys} {r : Reader} {d : Disk} {k : Kernel} {o : ℕ}
    (life : Life) (hbegun : Begun E f s r d k o) (hset : s.reader.settings = settings) (hgen : s.reader.generation = 0)
    (hskip : s.reader.skipping = false) (ho : o = 0) (hopened : life.opened = [⟨f, 0, 1⟩]) (hgiven : life.given = []) :
    Lines settings f life r (d.files f).bytes := by
  refine ⟨hbegun.settings.trans hset, ?_, hbegun.firstOpen, hopened, fun c' _ => ?_⟩
  · rw [hbegun.generation, hgen]
  · have hfuture : r.future c' = linesFrom settings.maxLineLength c' 0 := by
      rw [Reader.future, hbegun.skipping.trans hskip, hbegun.bufferStart, ho, hbegun.settings, hset]
      rfl
    rw [hgiven, hfuture]
    exact .start

/-- `ReadLine` of a process which reads the file -/
theorem followed_reads {E : Env} (hE : E.Follows f) (h : w.Followed settings f) {kern : Kernel} {line : Option Line}
    {s' : Sys} (hreads : Reads settings.incompleteSec E f (w.sys kern) line s') :
    Followed settings f { w with
      disk := s'.disk, reader := s'.reader, log := s'.log, life := w.life.read w.reader line s' } := by
  obtain ⟨hopened, hgiven⟩ := w.life.read_on line hreads.keeps.generation
  have hlines := lines_reads w.life hE h.lines hreads hgiven
  refine ⟨hreads.reads, hreads.holds, hlines.settings_eq, hlines.generation, hlines.firstOpen, ?_, hlines.pieces⟩
  exact hopened.trans h.lines.opened

/-- `ReadLine` of a process which waits for the file. When it opens it, it starts at the beginning -/
theorem unopened_opening {E : Env} (hE : E.Follows f) (h : w.Unopened settings) {kern : Kernel} {line : Option Line}
    {s' : Sys} (hopens : Opening settings.incompleteSec E (w.sys kern) line s')
    (hempty : settings.startAtEnd = true → (∃ d₀ k₀, E.Goes w.disk kern d₀ k₀ ∧ d₀.path = some ⟨f, true⟩) →
      ∀ d₁ k₁, E.Goes w.disk kern d₁ k₁ → (d₁.files f).bytes = []) :
    Unopened settings { w with
        disk := s'.disk, reader := s'.reader, log := s'.log, life := w.life.read w.reader line s' } ∨
      Followed settings f { w with
        disk := s'.disk, reader := s'.reader, log := s'.log, life := w.life.read w.reader line s' } := by
  cases hopens with
  | failed e hgo hst hreader hwhy =>
    have hr : s'.reader = { w.reader with lastOpenError := e } := hreader
    have hgen : s'.reader.generation = w.reader.generation := by rw [hr]
    obtain ⟨hopened, hgiven⟩ := w.life.read_on none hgen
    obtain ⟨e', heq⟩ := h.reader
    refine Or.inl ⟨⟨e, ?_⟩, hst.trans h.state, hopened.trans h.opened, ?_⟩
    · show s'.reader = _
      rw [hr, heq]
    · rw [h.given] at hgiven
      exact List.map_eq_nil_iff.1 hgiven
  | @opened f' r d k o l line s' hbegun hreads =>
    obtain ⟨d₀, k₀, h₀, hpath₀⟩ := hbegun.path
    obtain rfl : f = f' := by
      have happ := hE.path h₀
      rw [hpath₀] at happ
      exact (appears_regular happ).symm
    have ho : o = 0 := by
      obtain ⟨d₁, k₁, h₁, hstarts⟩ := hbegun.starts
      have hfresh := hstarts.fresh h.firstOpen h.state
      have hset : (w.sys kern).reader.settings = settings := h.settings_eq
      rw [hset] at hfresh
      split_ifs at hfresh with hend
      · have hnil := hempty hend hbegun.path d₁ k₁ h₁
        rw [hfresh, File.size, hnil]
        rfl
      · exact hfresh
    have hgen : s'.reader.generation = 1 := by
      rw [hreads.keeps.generation, hbegun.generation]
      exact congrArg (· + 1) h.generation
    have hne : s'.reader.generation ≠ w.reader.generation := by
      rw [hgen, h.generation]
      decide
    obtain ⟨hopened, hgiven⟩ := w.life.read_new line hne
    have hopened' : (w.life.read w.reader line s').opened = [⟨f, 0, 1⟩] := by
      rw [hopened, h.opened, hreads.reads.file, hreads.keeps.committed, hbegun.committed, ho, hgen]
      rfl
    have hlines : Lines settings f { w.life with opened := [⟨f, 0, 1⟩] } r (d.files f).bytes :=
      lines_begun _ hbegun h.settings_eq h.generation h.skipping ho rfl h.given
    have hlines' := lines_reads { w.life with opened := [⟨f, 0, 1⟩] } hE hlines hreads hgiven
    exact Or.inr ⟨hreads.reads, hreads.holds, hlines'.settings_eq, hlines'.generation, hlines'.firstOpen, hopened',
      hlines'.pieces⟩

/-- a call of `ReadLine` in any environment in which the file only grows -/
theorem fromStart_call {E : Env} (hE : E.Follows f) (h : w.Unopened settings ∨ w.Followed settings f) {kern : Kernel}
    {tNow : ℤ} {rounds : ℕ} {line : Option Line} {s' : Sys} (hs : E.Ready (w.sys kern))
    (hres : FrM.readLine tNow rounds (w.sys kern) = .done line s')
    (hempty : w.reader.firstOpen = true → settings.startAtEnd = true →
      (∃ d₀ k₀, E.Goes w.disk kern d₀ k₀ ∧ d₀.path = some ⟨f, true⟩) →
      ∀ d₁ k₁, E.Goes w.disk kern d₁ k₁ → (d₁.files f).bytes = []) :
    Appears f s'.disk.path ∧ (Unopened settings { w with
        disk := s'.disk, reader := s'.reader, log := s'.log, life := w.life.read w.reader line s' } ∨
      Followed settings f { w with
        disk := s'.disk, reader := s'.reader, log := s'.log, life := w.life.read w.reader line s' }) := by
  rcases h with h | h
  · have hspec : wp (FrM.readLine tNow rounds) (Opening settings.incompleteSec E (w.sys kern)) (fun _ => True)
        (w.sys kern) :=
      wp_readLine h.isOpen
        (readLoop_begins settings.incompleteSec hE.toGrows tNow rounds hs h.fd h.isOpen h.rotationSeen h.since)
    rw [wp_of_done hres] at hspec
    refine ⟨?_, unopened_opening hE h hspec (hempty h.firstOpen)⟩
    cases hspec with
    | failed e hgo _ _ _ => exact hE.path hgo
    | opened _ hreads => exact hE.path hreads.goes
  · have hspec : wp (FrM.readLine tNow rounds) (Reads settings.incompleteSec E f (w.sys kern)) (fun _ => True)
        (w.sys kern) :=
      wp_readLine h.reads.opened
        (readLoop_reads hE tNow rounds hs h.reads h.holds (by rw [← h.lines.settings_eq]; exact le_rfl))
    rw [wp_of_done hres] at hspec
    exact ⟨hE.path hspec.goes, Or.inr (followed_reads hE h hspec)⟩

theorem fromStart_readLine (h : FromStart settings f w) {tNow : ℤ} {rounds : ℕ} {kern : Kernel}
    (hk : kern.Appends (Appears f)) (hskip : Unskipped f w (.readLine tNow rounds kern)) :
    FromStart settings f (w.step (.readLine tNow rounds kern)) := by
  cases hres : FrM.readLine tNow rounds (w.sys kern) with
  | crash s' =>
    rw [step_readLine_crash hres]
    exact fromStart_restart w s'.disk
  | done line s' =>
    rw [step_readLine_done hres]
    intro hfirst
    obtain ⟨hpath, hw⟩ := h hfirst
    have hset : w.reader.settings = settings := by
      rcases hw with hw | hw
      · exact hw.settings_eq
      · exact hw.lines.settings_eq
    by_cases habsent : w.disk.path = none ∧ kern.KeepsPath
    · -- nothing is at the path during the call
      have hcalm : Calm (fun node => node = none) w.disk kern := by
        refine ⟨fun changes hmem ch hch => ?_, habsent.1⟩
        have hmild := hk changes hmem ch hch
        cases ch with
        | append id bytes => trivial
        | rewrite id content => exact hmild.elim
        | path node => exact absurd rfl (habsent.2 changes hmem _ hch node)
      have hE : (appending (fun node => node = none) True).Follows f := follows_appending fun node => Or.inl
      refine fromStart_call hE hw ⟨Later.refl hcalm, fun _ => trivial⟩ hres fun _ _ ⟨d₀, k₀, h₀, hpath₀⟩ => ?_
      have hnone : d₀.path = none := h₀.1.calm.path
      rw [hnone] at hpath₀
      cases hpath₀
    · have hE : (appending (Appears f) True).Follows f := follows_appending fun _ => id
      refine fromStart_call hE hw ⟨Later.refl ⟨hk, hpath⟩, fun _ => trivial⟩ hres fun hopen hend _ d₁ k₁ h₁ => ?_
      have hnil := (hskip (by rw [hset]; exact hend) hopen).resolve_left habsent
      have hle := h₁.1.calm.size_le f
      rw [h₁.1.final, hnil] at hle
      exact List.prefix_nil.1 hle

theorem fromStart_commit (h : FromStart settings f w) {generation endOffset : ℕ} {kern : Kernel}
    (hk : kern.Appends (Appears f)) : FromStart settings f (w.step (.commit generation endOffset kern)) := by
  cases hres : FrM.commit generation endOffset (w.sys kern) with
  | crash s' =>
    rw [step_commit_crash hres]
    exact fromStart_restart w s'.disk
  | done ok s' =>
    rw [step_commit_done hres]
    intro hfirst
    obtain ⟨hpath, hw⟩ := h hfirst
    have hlife := w.life.commit_given generation endOffset ok
    have hready : (appending (Appears f) True).Ready (w.sys kern) := ⟨Later.refl ⟨hk, hpath⟩, fun _ => trivial⟩
    have hspec : wp (FrM.commit generation endOffset) (fun _ s' => Later (Appears f) w.disk kern s'.disk s'.kern ∧
        (s'.disk = w.disk ∧ s'.reader = w.reader ∨ ∃ committed failed, generation = w.reader.generation ∧
          committed ≤ w.reader.bufferStart ∧ w.reader.committed < w.reader.bufferStart ∧
          s'.reader = { w.reader with committed := committed, saveFailed := failed })) (fun _ => True)
            (w.sys kern) := by
      apply Env.commit hready fun _ _ => trivial
      · exact fun b l => ⟨Later.refl ⟨hk, hpath⟩, Or.inl ⟨rfl, rfl⟩⟩
      · intro b committed failed d k l hgen hlt hle hcommitted hgo
        have hlt' : w.reader.committed < endOffset := hlt
        have hle' : endOffset ≤ w.reader.bufferStart := hle
        refine ⟨hgo.1, Or.inr ⟨committed, failed, hgen, ?_, by omega, rfl⟩⟩
        rcases hcommitted with rfl | rfl
        · exact hle
        · exact (hlt'.trans_le hle').le
    rw [wp_of_done hres] at hspec
    obtain ⟨hl, hsame⟩ := hspec
    refine ⟨hl.calm.path, ?_⟩
    rcases hw with hw | hw
    · -- there is no position to commit yet
      have hstart : w.reader.bufferStart = 0 := by
        obtain ⟨e, heq⟩ := hw.reader
        rw [heq]
        rfl
      rcases hsame with ⟨hd, hr⟩ | ⟨committed, failed, -, -, hlt, -⟩
      · refine Or.inl ⟨?_, ?_, hlife.2.trans hw.opened, hlife.1.trans hw.given⟩
        · show ∃ e, s'.reader = _
          rw [hr]
          exact hw.reader
        · show s'.disk.state = none
          rw [hd]
          exact hw.state
      · rw [hstart] at hlt
        exact absurd hlt (Nat.not_lt_zero _)
    · have hgrown : (w.disk.files f).bytes <+: (s'.disk.files f).bytes := hl.files f
      have hholds := hw.holds.mono hgrown
      have hpieces : ∀ c', (s'.disk.files f).bytes <+: c' → Pieces settings.incompleteSec settings.maxLineLength c' 0
          ((w.life.commit generation endOffset ok).given.map Given.line) (w.reader.future c') := by
        intro c' hc
        rw [hlife.1]
        exact hw.lines.pieces c' (hgrown.trans hc)
      rcases hsame with ⟨-, hr⟩ | ⟨committed, failed, -, hle, -, hr⟩
      · refine Or.inr ⟨?_, ?_, ?_⟩
        · show s'.reader.At f
          rw [hr]
          exact hw.reads
        · show s'.reader.Holds _
          rw [hr]
          exact hholds
        · show Lines settings f _ s'.reader _
          rw [hr]
          exact ⟨hw.lines.settings_eq, hw.lines.generation, hw.lines.firstOpen, hlife.2.trans hw.lines.opened, hpieces⟩
      · refine Or.inr ⟨?_, ?_, ?_⟩
        · show s'.reader.At f
          rw [hr]
          exact ⟨hw.reads.fd, hw.reads.file, hw.reads.opened⟩
        · show s'.reader.Holds _
          rw [hr]
          exact ⟨hholds.pos_le, hholds.rest, hholds.read_le, hholds.scanFrom, hholds.scanFrom_le, hholds.head,
            hholds.head_le, hle⟩
        · show Lines settings f _ s'.reader _
          rw [hr]
          exact ⟨hw.lines.settings_eq, hw.lines.generation, hw.lines.firstOpen, hlife.2.trans hw.lines.opened, hpieces⟩

theorem fromStart_others (h : FromStart settings f w) {changes : List Change}
    (hmild : ∀ ch ∈ changes, ch.Mild (Appears f)) : FromStart settings f (w.step (.others changes)) := by
  intro hfirst
  obtain ⟨hpath, hw⟩ := h hfirst
  have hl := later_others hmild hpath
  have hgrown : (w.disk.files f).bytes <+: ((w.disk.applyAll changes).files f).bytes := hl.files f
  refine ⟨hl.calm.path, ?_⟩
  rcases hw with hw | hw
  · exact Or.inl ⟨hw.reader, (Disk.applyAll_state changes w.disk).1.trans hw.state, hw.opened, hw.given⟩
  · exact Or.inr ⟨hw.reads, hw.holds.mono hgrown, hw.lines.settings_eq, hw.lines.generation, hw.lines.firstOpen,
      hw.lines.opened, fun c' hc => hw.lines.pieces c' (hgrown.trans hc)⟩

theorem fromStart_step (w : World) (op : Op) (hg : Appearing f w op ∧ Unskipped f w op) (h : FromStart settings f w) :
    FromStart settings f (w.step op) := by
  cases op with
  | others changes => exact fromStart_others h hg.1
  | readLine tNow rounds kern => exact fromStart_readLine h hg.1 hg.2
  | commit generation endOffset kern => exact fromStart_commit h hg.1
  | restart => exact fromStart_restart w w.disk

/-- a call which returns nothing, while nobody writes and no system call fails: all lines were returned -/
theorem fromStart_drained (h : FromStart settings f w) (hfirst : w.earlier = []) {oracle : Call → List Fault}
    (hquiet : ∀ c code, Fault.fail code ∉ oracle c) {tNow : ℤ} {rounds : ℕ} {s' : Sys}
    (hthere : w.reader.fd.isSome ∨ w.disk.path.isSome)
    (hempty : settings.startAtEnd = true → w.reader.firstOpen = true → w.content f = [])
    (hres : FrM.readLine tNow rounds (w.sys { oracle := oracle }) = .done none s') :
    Pieces settings.incompleteSec settings.maxLineLength (w.content f) 0 (w.life.given.map Given.line) [] := by
  obtain ⟨hpath, hw⟩ := h hfirst
  have hE := follows_frozenAt f
  have hs : (frozenAt f).Ready (w.sys { oracle := oracle }) := frozenAt_ready ⟨rfl, rfl⟩ hpath
  rcases hw with hw | hw
  · have hspec : wp (FrM.readLine tNow rounds)
      (Opening settings.incompleteSec (frozenAt f) (w.sys { oracle := oracle }))
        (fun _ => True) (w.sys { oracle := oracle }) :=
      wp_readLine hw.isOpen
        (readLoop_begins settings.incompleteSec hE.toGrows tNow rounds hs hw.fd hw.isOpen hw.rotationSeen hw.since)
    rw [wp_of_done hres] at hspec
    have hat : w.disk.path = some ⟨f, true⟩ := by
      rcases hthere with hfd | hsome
      · rw [hw.fd] at hfd
        cases hfd
      · rcases hpath with hnone | hat
        · rw [hnone] at hsome
          cases hsome
        · exact hat
    cases hspec with
    | failed e _ _ _ hwhy =>
      exfalso
      rcases hwhy with ⟨d₀, k₀, h₀, hne⟩ | ⟨code, hcode | hcode⟩
      · exact hne f (h₀.1.path.trans hat)
      · exact hquiet _ code hcode
      · exact hquiet _ code hcode
    | @opened f' r d k o l line s' hbegun hreads =>
      obtain ⟨d₀, k₀, h₀, hpath₀⟩ := hbegun.path
      obtain rfl : f = f' := by
        have happ := hE.path h₀
        rw [hpath₀] at happ
        exact (appears_regular happ).symm
      -- the file was opened at its beginning, and it has no lines
      have ho : o = 0 := by
        obtain ⟨d₁, k₁, h₁, hstarts⟩ := hbegun.starts
        have hfresh := hstarts.fresh hw.firstOpen hw.state
        have hset : (w.sys { oracle := oracle }).reader.settings = settings := hw.settings_eq
        rw [hset] at hfresh
        split_ifs at hfresh with hend
        · have hnil : (d₁.files f).bytes = [] := (h₁.1.content f).trans (hempty hend hw.firstOpen)
          rw [hfresh, File.size, hnil]
          rfl
        · exact hfresh
      have hd : (d.files f).bytes = w.content f := hbegun.goes.1.content f
      have hs' : (s'.disk.files f).bytes = w.content f := (hreads.goes.1.content f).trans hd
      obtain ⟨c, hc, hc', hnil⟩ := hreads.result.gone.resolve_right fun ⟨code, hcode⟩ =>
        hquiet _ code ((hbegun.goes.1.calls _).subset hcode)
      have hcontent : c = w.content f := by
        dsimp only at hc
        rw [hd] at hc
        rw [hs'] at hc'
        exact hc'.eq_of_length_le hc.length_le
      have hlines := lines_begun { opened := [⟨f, 0, 1⟩] } hbegun hw.settings_eq hw.generation hw.skipping ho rfl
        rfl
      have hpieces := hlines.pieces (w.content f) (by rw [hd])
      rw [← hcontent, hnil, hcontent] at hpieces
      rw [hw.given]
      exact hpieces
  · have hspec : wp (FrM.readLine tNow rounds)
      (Reads settings.incompleteSec (frozenAt f) f (w.sys { oracle := oracle }))
        (fun _ => True) (w.sys { oracle := oracle }) :=
      wp_readLine hw.reads.opened
        (readLoop_reads hE tNow rounds hs hw.reads hw.holds (by rw [← hw.lines.settings_eq]; exact le_rfl))
    rw [wp_of_done hres] at hspec
    have hs' : (s'.disk.files f).bytes = w.content f := hspec.goes.1.content f
    obtain ⟨c, hc, hc', hnil⟩ := hspec.result.gone.resolve_right fun ⟨code, hcode⟩ => hquiet _ code hcode
    have hnil' : w.reader.future c = [] := hnil
    have hcontent : c = w.content f := by
      rw [hs'] at hc'
      exact hc'.eq_of_length_le hc.length_le
    have hpieces := hw.lines.pieces (w.content f) (List.prefix_refl _)
    rw [← hcontent, hnil', hcontent] at hpieces
    exact hpieces

end World

/-! ## The lines of a run -/

open World

/-- **A file which appears later** is read from its beginning, whatever the system calls answer: in pieces of the lines
when `IncompleteSec` is set, and of whole lines without it (`Pieces.lines`). When nobody writes and nothing fails a call
which returns no line has returned all. With `SetStartAtEnd` this holds when the file is empty as the reader opens
it. -/
theorem appearing_file (settings : Settings) (f : FileId) (files : FileId → File) (ops : List Op)
    (hg : Guarded step (fun w op => Appearing f w op ∧ Unskipped f w op) (start settings none files) ops) :
    let w := (start settings none files).run ops
    w.earlier = [] →
      (∀ o ∈ w.life.opened, o = ⟨f, 0, 1⟩) ∧
      (∃ left, Pieces settings.incompleteSec settings.maxLineLength (w.content f) 0
        (w.life.given.map Given.line) left) ∧
      ∀ (tNow : ℤ) (oracle : Call → List Fault), (∀ c code, Fault.fail code ∉ oracle c) →
        (w.reader.fd.isSome ∨ w.disk.path.isSome) →
        (settings.startAtEnd = true → w.reader.firstOpen = true → w.content f = []) →
        ∃ line s, (∀ more, FrM.readLine tNow (roundsLeft w.disk w.reader + more) (w.sys { oracle := oracle }) =
            .done line s) ∧
          (line = none → Pieces settings.incompleteSec settings.maxLineLength (w.content f) 0
            (w.life.given.map Given.line) []) := by
  intro w hfirst
  have h : FromStart settings f w := hg.inv fromStart_step (fromStart_start files)
  refine ⟨fun o ho => ?_, ?_, fun tNow oracle hquiet hthere hempty => ?_⟩
  · rcases (h hfirst).2 with hw | hw
    · rw [hw.opened] at ho
      exact absurd ho List.not_mem_nil
    · rw [hw.lines.opened] at ho
      exact List.mem_singleton.1 ho
  · rcases (h hfirst).2 with hw | hw
    · rw [hw.given]
      exact ⟨_, .start⟩
    · exact ⟨_, hw.lines.pieces _ (List.prefix_refl _)⟩
  · obtain ⟨line, s, hdone, -⟩ := readLine_ends w.disk w.reader w.log oracle tNow
    refine ⟨line, s, hdone, ?_⟩
    rintro rfl
    exact fromStart_drained h hfirst hquiet hthere hempty (hdone 0)

section Runs

def fromEnd : Settings := { startAtEnd := true, maxLineLength_pos := defaultMaxLine_pos }

theorem mild_path (f : FileId) (changes : List Change) (h : ∀ ch ∈ changes, ch.Mild (Appears f)) :
    ∀ ch ∈ changes ++ [Change.path (some ⟨f, true⟩)], ch.Mild (Appears f) := by
  intro ch hch
  rcases List.mem_append.1 hch with hch | hch
  · exact h ch hch
  · rw [List.mem_singleton.1 hch]
    exact Or.inr rfl

/-- the file appears empty, and then a line and a half are written to it -/
def appearsEmpty : List Op :=
  [.readLine 0 9 {}, .others [.path (some ⟨⟨1, 7⟩, true⟩)], .readLine 0 9 {}, .others [.append ⟨1, 7⟩ (ascii "a\nb")],
    .readLine 0 9 {}]

theorem appearing_file_empty :
    ((start fromEnd none fun _ => File.empty).run appearsEmpty).life.given.map (·.line.text) = [ascii "a"] ∧
      (∀ o ∈ ((start fromEnd none fun _ => File.empty).run appearsEmpty).life.opened, o = ⟨⟨1, 7⟩, 0, 1⟩) ∧
      ∃ line s, FrM.readLine 1 9 (((start fromEnd none fun _ => File.empty).run appearsEmpty).sys {}) = .done line s ∧
        (line = none → Pieces 0 defaultMaxLine
          (((start fromEnd none fun _ => File.empty).run appearsEmpty).content ⟨1, 7⟩) 0
          (((start fromEnd none fun _ => File.empty).run appearsEmpty).life.given.map Given.line) []) := by
  have hk := appends_default (Appears ⟨1, 7⟩)
  have hkeeps : ({} : Kernel).KeepsPath := fun _ h0 => absurd h0 List.not_mem_nil
  have hg : Guarded step (fun w op => Appearing ⟨1, 7⟩ w op ∧ Unskipped ⟨1, 7⟩ w op)
      (start fromEnd none fun _ => File.empty) appearsEmpty := by
    refine ⟨⟨hk, fun _ _ => Or.inl ⟨rfl, hkeeps⟩⟩, ⟨mild_path _ [] fun _ h0 => absurd h0 List.not_mem_nil, trivial⟩,
      ⟨hk, fun _ _ => Or.inr ?_⟩, ⟨mild_append _ _ _, trivial⟩, ⟨hk, fun _ hfirst => ?_⟩, trivial⟩
    · decide +kernel
    · exact absurd hfirst (by decide +kernel)
  obtain ⟨hopened, -, hread⟩ := appearing_file fromEnd ⟨1, 7⟩ (fun _ => File.empty) appearsEmpty hg (by decide +kernel)
  obtain ⟨line, s, hdone, hall⟩ := hread 1 (fun _ => []) (fun _ _ => List.not_mem_nil) (Or.inl (by decide +kernel))
    fun _ hfirst => absurd hfirst (by decide +kernel)
  have hrounds : roundsLeft ((start fromEnd none fun _ => File.empty).run appearsEmpty).disk
      ((start fromEnd none fun _ => File.empty).run appearsEmpty).reader + 8 = 9 := by decide +kernel
  refine ⟨by decide +kernel, hopened, line, s, ?_, hall⟩
  have hdone' := hdone 8
  rw [hrounds] at hdone'
  exact hdone'

theorem pieces_nil {sec maxLen base : ℕ} {c : Bytes} {left : List Item} (h : Pieces sec maxLen c base [] left) :
    left = linesFrom maxLen c base := by
  generalize hdone : ([] : List Line) = done at h
  cases h with
  | start => rfl
  | step _ _ => simp at hdone

/-- the file has a line when it appears: a reader with `SetStartAtEnd` starts behind it, and returns nothing -/
theorem appearing_skipped : ¬ ∀ (settings : Settings) (f : FileId) (files : FileId → File) (ops : List Op),
    Guarded step (Appearing f) (start settings none files) (.readLine 0 9 {} :: ops) →
    ((start settings none files).run (.readLine 0 9 {} :: ops)).earlier = [] →
      ((start settings none files).run (.readLine 0 9 {} :: ops)).disk.path.isSome →
      ∀ s, FrM.readLine 0 9 (((start settings none files).run (.readLine 0 9 {} :: ops)).sys {}) = .done none s →
        Pieces settings.incompleteSec settings.maxLineLength
          (((start settings none files).run (.readLine 0 9 {} :: ops)).content f) 0
          (((start settings none files).run (.readLine 0 9 {} :: ops)).life.given.map Given.line) [] := by
  intro h
  have hk := appends_default (Appears ⟨1, 7⟩)
  let ops : List Op := [.others [.append ⟨1, 7⟩ (ascii "a\n"), .path (some ⟨⟨1, 7⟩, true⟩)], .readLine 0 9 {}]
  have hg : Guarded step (Appearing ⟨1, 7⟩) (start fromEnd none fun _ => File.empty) (.readLine 0 9 {} :: ops) :=
    ⟨hk, mild_path _ [.append ⟨1, 7⟩ (ascii "a\n")] (mild_append _ _ _), hk, trivial⟩
  have hnone : (match FrM.readLine 0 9
      (((start fromEnd none fun _ => File.empty).run (.readLine 0 9 {} :: ops)).sys {}) with
      | .done none _ => true
      | _ => false) = true := by decide +kernel
  obtain ⟨s, hres⟩ : ∃ s, FrM.readLine 0 9
      (((start fromEnd none fun _ => File.empty).run (.readLine 0 9 {} :: ops)).sys {}) = .done none s := by
    cases hcall : FrM.readLine 0 9
        (((start fromEnd none fun _ => File.empty).run (.readLine 0 9 {} :: ops)).sys {}) with
    | crash s =>
      rw [hcall] at hnone
      cases hnone
    | done line s =>
      rw [hcall] at hnone
      cases line with
      | none => exact ⟨s, rfl⟩
      | some line => cases hnone
  have hall := h fromEnd ⟨1, 7⟩ (fun _ => File.empty) ops hg (by decide +kernel) (by decide +kernel) s hres
  have hgiven : ((start fromEnd none fun _ => File.empty).run (.readLine 0 9 {} :: ops)).life.given = [] := by
    decide +kernel
  rw [hgiven] at hall
  exact absurd (pieces_nil hall) (by decide +kernel)

end Runs

end DominoLogForwarder.FileReader
