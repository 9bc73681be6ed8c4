/-
A file which is truncated or written again.

Between the calls other programs append to the open file, or leave something there which the reader cannot take for what
it has read: it is shorter, or its start is another one (`Rewritten`). `Called` is what a call does then. The lines of a
generation are lines of one content which the file had at some point of the run (`Told`), and a generation which begins
with a file that was written again reads it from its beginning.

- `rewritten_file`: the run theorem, with what a single call does to a file which was written again
- `rewritten_limits`: a reader without a file keeps the position it saved, and a check which fails finds nothing
-/
import DominoLogForwarder.FileReader.Following
import DominoLogForwarder.FileReader.Rounds
import DominoLogForwarder.FileReader.System

namespace DominoLogForwarder.FileReader

open CrashProg Lines FrM
open Wal (File)

/-! ## The buffer -/

namespace Reader

variable {r r' : Reader} {line : Line} {c : Bytes}

theorem takeLine_some_read (h : r.takeLine = (some line, r')) :
    r'.bufferStart + r'.pending = r.bufferStart + r.pending := by
  unfold takeLine at h
  cases hfind : r.findNl with
  | none =>
    rw [hfind] at h
    by_cases hlong : r.settings.maxLineLength < r.pending
    · simp only [if_pos hlong, Prod.mk.injEq] at h
      obtain ⟨-, rfl⟩ := h
      simp only [advance, pending] at hlong ⊢
      omega
    · simp [if_neg hlong] at h
  | some idx =>
    have hidx := findNl_lt hfind
    rw [hfind] at h
    simp only [Prod.mk.injEq] at h
    obtain ⟨-, rfl⟩ := h
    simp only [advance, pending]
    omega

/-- a line is taken out of the buffer. The position up to which the file was read stays -/
theorem extractLine_some_read (h : r.extractLine = (some line, r')) :
    r'.bufferStart + r'.pending = r.bufferStart + r.pending := by
  unfold extractLine at h
  by_cases hskip : r.skipping = true
  · rw [if_pos hskip] at h
    cases hfind : r.findNl with
    | none =>
      rw [hfind] at h
      simp at h
    | some idx =>
      have hidx := findNl_lt hfind
      rw [hfind] at h
      rw [takeLine_some_read h]
      simp only [advance, pending]
      omega
  · rw [if_neg hskip] at h
    exact takeLine_some_read h

theorem like_of_read (hread : r'.bufferStart + r'.pending = r.bufferStart + r.pending) (hhead : r'.head = r.head) :
    r'.Like c ↔ r.Like c := by
  unfold Like
  rw [hread, hhead]

/-- no file is open, and nothing is left of the one before -/
structure Closed (r : Reader) : Prop where
  fd : r.fd = none
  opened : r.opened = true
  skipping : r.skipping = false
  rotationSeen : r.rotationSeen = false
  since : r.incompleteSince = 0

/-- `r'` reads a file from the position `o` on, as the next generation -/
structure Renewed (r : Reader) (o : ℕ) (r' : Reader) : Prop where
  settings : r'.settings = r.settings
  generation : r'.generation = r.generation + 1
  committed : r'.committed = o
  bufferStart : r'.bufferStart = o
  firstOpen : r'.firstOpen = false
  skipping : r'.skipping = false

/-- of the content, which the reader knows, the line was returned, or none -/
structure Advances (cut : ℕ) (c : Bytes) (r : Reader) (line : Option Line) (r' : Reader) : Prop where
  keeps : r.Keeps r'
  firstOpen : r'.firstOpen = r.firstOpen
  result : match line with
    | some l => l.generation = r.generation ∧
        ∀ c', c <+: c' → Gives cut r.settings.maxLineLength c' (r.future c') l (r'.future c')
    | none => ∀ c', c <+: c' → r.future c' = r'.future c'

/-- the reader has the file open, and has read it when its content was `c`. The content is that still, or one which the
reader cannot take for it -/
structure Knows (r : Reader) (f : FileId) (c now : Bytes) : Prop where
  reads : r.At f
  holds : r.Holds c
  firstOpen : r.firstOpen = false
  now : c = now ∨ ¬ r.Like now

end Reader

theorem Gives.mono {sec sec' maxLen : ℕ} {c : Bytes} {left left' : List Item} {l : Line} (hle : sec ≤ sec')
    (h : Gives sec maxLen c left l left') : Gives sec' maxLen c left l left' := by
  cases h with
  | line => exact .line
  | piece wait lt le noLine text whole => exact .piece (wait.trans_le hle) lt le noLine text whole

/-- a line which is not cut is the next one of those which are left -/
theorem Gives.whole {maxLen : ℕ} {c : Bytes} {left left' : List Item} {l : Line} (h : Gives 0 maxLen c left l left') :
    ∃ start, left = Item.of start l :: left' := by
  cases h with
  | line => exact ⟨_, rfl⟩
  | piece wait => exact absurd wait (lt_irrefl 0)

section Call

variable {known : FileId → Bytes → Prop} {cut : ℕ} {f : FileId} {s s' : Sys} {line : Option Line} {r : Reader}
  {d : Disk} {k : Kernel} {c : Bytes}

theorem Reads.advances {cut' : ℕ} (hle : cut' ≤ cut) (h : Reads cut' frozen f s line s') :
    s.reader.Advances cut (s'.disk.files f).bytes line s'.reader := by
  refine ⟨h.keeps, h.firstOpen, ?_⟩
  have hres := h.result
  cases line with
  | none => exact hres.future
  | some l => exact ⟨hres.1, fun c' hc => (hres.2 c' hc).mono hle⟩

theorem Reads.files (h : Reads cut frozen f s line s') : s'.disk.files = s.disk.files := h.goes.files

/-- a file which was opened is the next generation -/
theorem Begun.renewed {o : ℕ} (h : Begun frozen f s r d k o) (hskip : s.reader.skipping = false) :
    s.reader.Renewed o r :=
  ⟨h.settings, h.generation, h.committed, h.bufferStart, h.firstOpen, h.skipping.trans hskip⟩

/-- what a call does to the reader `r`, on the files of `d`. `known f c`: the reader knows the content `c` of `f` -/
inductive Called (known : FileId → Bytes → Prop) (cut : ℕ) (d : Disk) (r : Reader) : Option Line → Reader → Prop
  /-- it goes on with the file -/
  | reads {f : FileId} {c : Bytes} {line : Option Line} {r' : Reader} (mem : known f c) (open' : r.fd = some f)
    (after : r'.Knows f c (d.files f).bytes) (advances : r.Advances cut c line r') : Called known cut d r line r'
  /-- no file is open -/
  | closed {r' : Reader} (after : r'.Closed) (settings : r'.settings = r.settings)
    (generation : r'.generation = r.generation) (firstOpen : r'.firstOpen = r.firstOpen) : Called known cut d r none r'
  /-- it reads a file from the position `o` on. A file which is not the first one is read from its beginning -/
  | renewed {f : FileId} {o : ℕ} {r₁ r' : Reader} {line : Option Line} (new : r.Renewed o r₁)
    (first : r.firstOpen = false → o = 0) (after : r'.Knows f (d.files f).bytes (d.files f).bytes)
    (advances : r₁.Advances cut (d.files f).bytes line r') : Called known cut d r line r'

theorem called_begun {o : ℕ} {r₁ : Reader} {l : List Message} (hskip : s.reader.skipping = false)
    (hbegun : Begun frozen f s r₁ d k o) (hreads : Reads 0 frozen f ⟨d, r₁, l, k⟩ line s') :
    Called known cut s.disk s.reader line s'.reader := by
  have hfiles : s'.disk.files = s.disk.files := hreads.files.trans hbegun.goes.files
  have hholds := hreads.holds
  have hadvances := hreads.advances (Nat.zero_le cut)
  rw [hfiles] at hholds hadvances
  obtain ⟨d₁, k₁, -, hstarts⟩ := hbegun.starts
  exact .renewed (hbegun.renewed hskip) hstarts.later
    ⟨hreads.reads, hholds, hreads.firstOpen.trans hbegun.firstOpen, Or.inl rfl⟩ hadvances

/-- `ReadLine` without a file -/
theorem called_opening (hclosed : s.reader.Closed) (h : Opening 0 frozen s line s') :
    Called known cut s.disk s.reader line s'.reader := by
  cases h with
  | failed e goes state reader why =>
    rw [reader]
    exact .closed ⟨hclosed.fd, hclosed.opened, hclosed.skipping, hclosed.rotationSeen, hclosed.since⟩ rfl rfl rfl
  | opened begun reads => exact called_begun hclosed.skipping begun reads

theorem readLoop_closed (known : FileId → Bytes → Prop) (cut : ℕ) (hk : s.kern.Frozen) (hclosed : s.reader.Closed)
    (tNow : ℤ) (rounds : ℕ) : wp (readLoop tNow rounds) (fun line s' =>
      Called known cut s.disk s.reader line s'.reader ∧ s'.disk.files = s.disk.files) (fun _ => True) s := by
  have hloop := readLoop_begins 0 grows_frozen tNow rounds (frozen_ready hk) hclosed.fd hclosed.opened
    hclosed.rotationSeen hclosed.since
  apply wp_mono hloop
  · intro line s' hopening
    refine ⟨called_opening hclosed hopening, ?_⟩
    cases hopening with
    | failed e goes _ _ _ => exact goes.files
    | opened begun reads => exact reads.files.trans begun.goes.files
  · exact fun _ h => h

/-- the file was let go of before -/
theorem Called.of_closed {d' : Disk} {r' : Reader} (h : Called known cut d' r.closeFile line r')
    (hfiles : d'.files = d.files) (hset : r.settings = s.reader.settings) (hgen : r.generation = s.reader.generation)
    (hfirst : r.firstOpen = s.reader.firstOpen) : Called known cut d s.reader line r' := by
  cases h with
  | reads _ hopen => cases hopen
  | closed after settings generation firstOpen =>
    exact .closed after (settings.trans hset) (generation.trans hgen) (firstOpen.trans hfirst)
  | renewed new first after advances =>
    rw [hfiles] at after advances
    refine .renewed ⟨new.settings.trans hset, new.generation.trans (congrArg (· + 1) hgen), new.committed,
      new.bufferStart, new.firstOpen, new.skipping⟩ (fun h => first (hfirst.trans h)) after advances

/-- a file which is what the reader knows of it, or has more now -/
theorem readLoop_same (known : FileId → Bytes → Prop) (hk : s.kern.Frozen) (hknown : known f (s.disk.files f).bytes)
    (hknows : s.reader.Knows f (s.disk.files f).bytes (s.disk.files f).bytes)
    (hsec : s.reader.settings.incompleteSec ≤ cut) (hrot : cut = 0 → ¬ Env.Elsewhere s.disk s.reader) (tNow : ℤ)
    (rounds : ℕ) : wp (readLoop tNow rounds) (fun line s' =>
      Called known cut s.disk s.reader line s'.reader ∧ s'.disk.files = s.disk.files) (fun _ => True) s := by
  have hreads : ∀ line s', Reads cut frozen f s line s' →
      Called known cut s.disk s.reader line s'.reader ∧ s'.disk.files = s.disk.files := by
    intro line s' h
    have hholds := h.holds
    have hadvances := h.advances le_rfl
    rw [h.files] at hholds hadvances
    have hafter : s'.reader.Knows f (s.disk.files f).bytes (s.disk.files f).bytes :=
      ⟨h.reads, hholds, h.firstOpen.trans hknows.firstOpen, Or.inl rfl⟩
    exact ⟨.reads hknown hknows.reads.fd hafter hadvances, h.files⟩
  cases rounds with
  | zero => trivial
  | succ rounds =>
    unfold readLoop
    rw [wp_bind, wp_get, hknows.reads.fd]
    apply readRound_grows grows_frozen (frozen_ready hk) hknows.reads hknows.holds (fun _ => hsec) _ hreads
    · intro s₁ hs₁ hcont hseen₁ hsince₁
      have hloop := readLoop_waits cut grows_frozen tNow rounds hs₁ hcont.reads hcont.holds
        (fun hne => absurd hsince₁ hne) hseen₁
      apply wp_mono hloop
      · exact fun line s' h => hreads line s' (hcont.reads_after grows_frozen h)
      · exact fun _ h => h
    · intro _ r d k hgo helse hkeeps hopened hfirst
      have hloop := readLoop_closed known cut (s := ⟨d, r.closeFile, s.log, k⟩) hgo.frozen
        ⟨rfl, hopened, rfl, rfl, rfl⟩ tNow rounds
      apply wp_mono hloop
      · intro line s' h
        exact ⟨h.1.of_closed hgo.files hkeeps.settings hkeeps.generation hfirst, h.2.trans hgo.files⟩
      · exact fun _ h => h
    · intro _ d k hgo helse
      by_contra hcut
      obtain ⟨node, hpath, hne⟩ := helse
      exact hrot (Nat.eq_zero_of_not_pos hcut) ⟨node, hgo.path ▸ hpath, hne⟩

/-! ## A file which was written again -/

/-- `fstat` and the read of the start of the file do not fail -/
def Kernel.Checks (k : Kernel) : Prop :=
  ∀ code, Fault.fail code ∉ k.oracle .fstatCheck ∧ Fault.fail code ∉ k.oracle .preadRefresh

/-- the call read the file anew: `r₁` is the reader behind the check -/
structure ReadsAnew (f : FileId) (s : Sys) (line : Option Line) (s' : Sys) : Prop where
  noLine : s.reader.extractLine.1 = none
  renewed : ∃ r₁ d k l, s.reader.Renewed 0 r₁ ∧ Still s.disk s.kern d k ∧ Reads 0 frozen f ⟨d, r₁, l, k⟩ line s'

/-- a file which was written again: the lines of the buffer come first, and then it is read from its beginning -/
theorem readLoop_again (hk : s.kern.Frozen) (hchecks : s.kern.Checks)
    (hknows : s.reader.Knows f c (s.disk.files f).bytes) (hunlike : ¬ s.reader.Like (s.disk.files f).bytes) (tNow : ℤ)
    (rounds : ℕ) :
    wp (readLoop tNow rounds) (fun line s' =>
        (∃ l r, s.reader.extractLine = (some l, r) ∧ line = some l ∧ s' = ⟨s.disk, r, s.log, s.kern⟩) ∨
          ReadsAnew f s line s') (fun _ => True) s := by
  cases rounds with
  | zero => trivial
  | succ rounds =>
    unfold readLoop
    rw [wp_bind, wp_get, hknows.reads.fd]
    -- the check finds it
    have hpasses : ∀ {r₀ r d k}, s.reader.extractLine = (none, r₀) →
        ¬ frozen.Passes { s with reader := r₀ } f r d k := by
      intro r₀ r d k hnone h
      have hread := (Reader.extractLine_none_alike hnone).like (s.disk.files f).bytes
      cases h with
      | like before goes read head =>
        have hsize : (s.disk.files f).bytes = _ := (before.content f).symm
        have hlike : r₀.Like (s.disk.files f).bytes := by
          refine ⟨?_, ?_⟩
          · rw [hsize]
            exact read
          · rw [hsize, ← goes.content f]
            exact head
        exact hunlike (hread.1 hlike)
      | unknown goes code fail =>
        rcases fail with fail | fail
        · exact (hchecks code).1 fail
        · exact (hchecks code).2 fail
    have hends : ∀ {r d k}, ¬ frozen.Ends s f r d k := by
      intro r d k h
      obtain ⟨r₀, d₁, k₁, hnone, hpass, -⟩ := h.checked
      exact hpasses hnone hpass
    apply Env.readRound (frozen_ready hk) fun _ _ => trivial
    · exact fun l r he => Or.inl ⟨l, r, he, rfl, rfl⟩
    · intro r₀ r d k l hnone hrestarts hlog
      have hsame := (Reader.extractLine_none hknows.holds hnone).same
      unfold Reader.SameFile at hsame
      have hgo : Still s.disk s.kern d k := hrestarts.goes
      obtain ⟨head, failed, hhead, rfl⟩ := hrestarts.reader
      obtain ⟨d₁, k₁, h₁, -, heq⟩ := hhead
      have hcontent : (d₁.files f).bytes = (d.files f).bytes := (h₁.content f).trans (hgo.content f).symm
      have hhead : head <+: (d.files f).bytes ∧ head.length ≤ headMax := by
        rcases heq with rfl | rfl
        · exact ⟨List.nil_prefix, Nat.zero_le _⟩
        · rw [hcontent, List.length_take]
          exact ⟨List.take_prefix _ _, min_le_left _ _⟩
      have hat : r₀.At f := hknows.reads.sameFile (Reader.extractLine_none hknows.holds hnone).same
      have hrenewed : s.reader.Renewed 0 (r₀.restarted head failed) := by
        refine ⟨?_, ?_, rfl, rfl, ?_, rfl⟩
        · show r₀.settings = _
          rw [hsame]
        · show r₀.generation + 1 = _
          rw [hsame]
        · show r₀.firstOpen = false
          rw [hsame]
          exact hknows.firstOpen
      have hloop := readLoop_waits (s := ⟨d, r₀.restarted head failed, l, k⟩) 0 grows_frozen tNow rounds
        (frozen_ready hgo.frozen) ⟨hat.fd, hat.file, hat.opened⟩
        ⟨le_rfl, List.nil_prefix, Nat.zero_le _, List.not_mem_nil, le_rfl, hhead.1, hhead.2, le_rfl⟩
        (fun hne => absurd rfl hne) rfl
      apply wp_mono hloop
      · intro line s' hreads
        exact Or.inr ⟨by rw [hnone], _, d, k, l, hrenewed, hgo, hreads⟩
      · exact fun _ h => h
    · exact fun r₀ r d₁ k₁ chunk d k hnone hpass => absurd hpass (hpasses hnone)
    · exact fun r₀ r d₁ k₁ code d k l hnone hpass => absurd hpass (hpasses hnone)
    · exact fun r since d₁ k₁ d k h => absurd h hends
    · exact fun r d₁ k₁ d k h => absurd h hends
    · exact fun r d₁ k₁ d k h => absurd h hends
    · exact fun r d₁ k₁ d k h => absurd h hends
    · exact fun r d₁ k₁ d k h => absurd h hends

theorem ReadsAnew.called (h : ReadsAnew f s line s') :
    Called known cut s.disk s.reader line s'.reader ∧ s'.disk.files = s.disk.files := by
  obtain ⟨r₁, d, k, l, hrenewed, hgo, hreads⟩ := h.renewed
  have hfiles : s'.disk.files = s.disk.files := hreads.files.trans hgo.files
  have hholds := hreads.holds
  have hadvances := hreads.advances (Nat.zero_le cut)
  rw [hfiles] at hholds hadvances
  exact ⟨.renewed hrenewed (fun _ => rfl)
    ⟨hreads.reads, hholds, hreads.firstOpen.trans hrenewed.firstOpen, Or.inl rfl⟩ hadvances, hfiles⟩

/-- **A call of `ReadLine`** on a file which is what the reader knows of it, or which it cannot take for that. -/
theorem readLine_called (known : FileId → Bytes → Prop) (hk : s.kern.Frozen) (hchecks : s.kern.Checks)
    (hreader : s.reader.Closed ∨ ∃ f c, known f c ∧ s.reader.Knows f c (s.disk.files f).bytes)
    (hsec : s.reader.settings.incompleteSec ≤ cut)
    (hrot : cut = 0 → s.reader.fd.isSome → ¬ Env.Elsewhere s.disk s.reader) (tNow : ℤ) (rounds : ℕ) :
    wp (readLine tNow rounds) (fun line s' =>
      Called known cut s.disk s.reader line s'.reader ∧ s'.disk.files = s.disk.files) (fun _ => True) s := by
  rcases hreader with hclosed | ⟨f, c, hknown, hknows⟩
  · exact wp_readLine hclosed.opened (readLoop_closed known cut hk hclosed tNow rounds)
  · apply wp_readLine hknows.reads.opened
    rcases hknows.now with rfl | hunlike
    · have hsome : s.reader.fd.isSome := by
        rw [hknows.reads.fd]
        rfl
      exact readLoop_same known hk hknown hknows hsec (fun hcut => hrot hcut hsome) tNow rounds
    · apply wp_mono (readLoop_again hk hchecks hknows hunlike tNow rounds)
      · rintro line s' (⟨l, r, he, rfl, rfl⟩ | hagain)
        · have hret := Reader.extractLine_some hknows.holds he
          have hsame := hret.same
          unfold Reader.SameFile at hsame
          have hfirst : r.firstOpen = s.reader.firstOpen := by rw [hsame]
          have hhead : r.head = s.reader.head := by rw [hsame]
          refine ⟨.reads hknown hknows.reads.fd
            ⟨hknows.reads.sameFile hret.same, hret.holds, hfirst.trans hknows.firstOpen, Or.inr ?_⟩
            ⟨hret.same.keeps, hfirst, hret.generation, fun c' hc => ?_⟩, rfl⟩
          · rw [Reader.like_of_read (Reader.extractLine_some_read he) hhead]
            exact hunlike
          · rw [hret.future c' hc]
            exact .line
        · exact hagain.called
      · exact fun _ h => h

end Call

/-! ## The lines of a generation -/

/-- the lines which were returned of the generation -/
def Life.lines (life : Life) (g : ℕ) : List Line := (life.given.map Given.line).filter fun l => l.generation = g

theorem Life.lines_read {life life' : Life} {line : Option Line}
    (h : life'.given.map Given.line = life.given.map Given.line ++ line.toList) (g : ℕ) :
    life'.lines g = life.lines g ++ line.toList.filter fun l => l.generation = g := by
  unfold Life.lines
  rw [h, List.filter_append]

/-- a line which was returned belongs to another generation -/
theorem Life.lines_other {life life' : Life} {line : Option Line}
    (h : life'.given.map Given.line = life.given.map Given.line ++ line.toList) {g : ℕ}
    (hne : ∀ l, line = some l → l.generation ≠ g) : life'.lines g = life.lines g := by
  rw [Life.lines_read h]
  cases line with
  | none => simp
  | some l => simp [hne l rfl]

theorem Life.lines_same {life life' : Life} {line : Option Line}
    (h : life'.given.map Given.line = life.given.map Given.line ++ line.toList) {g : ℕ}
    (heq : ∀ l, line = some l → l.generation = g) : life'.lines g = life.lines g ++ line.toList := by
  rw [Life.lines_read h]
  cases line with
  | none => simp
  | some l => simp [heq l rfl]

theorem Life.lines_eq_nil {life : Life} {g : ℕ} (h : ∀ l ∈ life.given.map Given.line, l.generation ≠ g) :
    life.lines g = [] := by
  unfold Life.lines
  rw [List.filter_eq_nil_iff]
  intro l hl
  simpa using h l hl

theorem Reader.Advances.pieces {cut maxLen base : ℕ} {c : Bytes} {r r' : Reader} {line : Option Line} {done : List Line}
    (h : r.Advances cut c line r') (hmax : r.settings.maxLineLength = maxLen)
    (hdone : ∀ c', c <+: c' → Pieces cut maxLen c' base done (r.future c')) :
    ∀ c', c <+: c' → Pieces cut maxLen c' base (done ++ line.toList) (r'.future c') := by
  intro c' hc
  have hbefore := hdone c' hc
  have hres := h.result
  cases line with
  | none =>
    rw [hres c' hc] at hbefore
    simpa using hbefore
  | some l =>
    have hgives := hres.2 c' hc
    rw [hmax] at hgives
    exact .step hbefore hgives

theorem Reader.Advances.line_generation {cut : ℕ} {c : Bytes} {r r' : Reader} {line : Option Line}
    (h : r.Advances cut c line r') : ∀ l, line = some l → l.generation = r.generation := by
  rintro l rfl
  exact h.result.1

/-- a reader which begins a generation has everything to return from there on -/
theorem Reader.Renewed.future {r r' : Reader} {o : ℕ} (h : r.Renewed o r') (c : Bytes) :
    r'.future c = linesFrom r.settings.maxLineLength c o := by
  rw [Reader.future, h.skipping, h.settings, h.bufferStart]
  rfl

/-- the lines of the generation `o` are lines of one content which was seen of its file -/
def Told (seen : FileId → Bytes → Prop) (cut : ℕ) (settings : Settings) (life : Life) (o : Opened) : Prop :=
  ∃ c, seen o.file c ∧ ∃ left, Pieces cut settings.maxLineLength c o.offset (life.lines o.generation) left

theorem Told.congr {seen : FileId → Bytes → Prop} {cut : ℕ} {settings : Settings} {life life' : Life} {o : Opened}
    (h : Told seen cut settings life o) (hlines : life'.lines o.generation = life.lines o.generation) :
    Told seen cut settings life' o := by
  unfold Told
  rw [hlines]
  exact h

/-! ## Runs -/

namespace World

/-- a new process, with the files which are there -/
def fresh (settings : Settings) (disk : Disk) : World where
  disk := disk
  reader := .ready settings

/-- between the calls other programs append to the open file, or leave something there which the reader cannot take for
what it has read. `cut` is 0 when no line is returned in pieces: the path leads to no other file then -/
def Rewritten (cut : ℕ) (w : World) : Op → Prop
  | .others changes => ∀ f, w.reader.fd = some f →
      ¬ w.reader.Like ((w.disk.applyAll changes).files f).bytes ∨
        w.reader.Like (w.content f) ∧ w.content f <+: ((w.disk.applyAll changes).files f).bytes
  | .readLine _ _ kern => kern.Frozen ∧ kern.Checks ∧
      (cut = 0 → w.reader.fd.isSome → ¬ Env.Elsewhere w.disk w.reader)
  | .commit _ _ kern => kern.Frozen
  | .restart => True

/-- the content `c` was seen of the file, and the lines of the generation which is read are lines of it -/
structure Current (seen : FileId → Bytes → Prop) (cut : ℕ) (settings : Settings) (life : Life) (r : Reader) (f : FileId)
    (c : Bytes) : Prop where
  seen : seen f c
  opened : ∃ o ∈ life.opened, o.generation = r.generation
  pieces : ∀ o ∈ life.opened, o.generation = r.generation → o.file = f ∧ ∀ c', c <+: c' →
    Pieces cut settings.maxLineLength c' o.offset (life.lines o.generation) (r.future c')

theorem Current.told {seen : FileId → Bytes → Prop} {cut : ℕ} {settings : Settings} {life : Life} {r : Reader}
    {f : FileId} {c : Bytes} (h : Current seen cut settings life r f c) {o : Opened} (ho : o ∈ life.opened)
    (hgen : o.generation = r.generation) : Told seen cut settings life o := by
  obtain ⟨hfile, hpieces⟩ := h.pieces o ho hgen
  exact ⟨c, by rw [hfile]; exact h.seen, _, hpieces c (List.prefix_refl c)⟩

/-- the old and the new content are not mixed -/
structure Unmixed (seen : FileId → Bytes → Prop) (cut : ℕ) (settings : Settings) (w : World) : Prop where
  settings_eq : w.reader.settings = settings
  first : w.reader.firstOpen = true → w.life.opened = []
  known : ∀ l ∈ w.life.given.map Given.line, ∃ o ∈ w.life.opened, o.generation = l.generation
  bounded : ∀ o ∈ w.life.opened, o.generation ≤ w.reader.generation
  fresh : ∀ o ∈ w.life.opened.tail, o.offset = 0
  told : ∀ o ∈ w.life.opened, Told seen cut settings w.life o
  reader : w.reader.Closed ∨
    ∃ f c, Current seen cut settings w.life w.reader f c ∧ w.reader.Knows f c (w.content f)

variable {seen : FileId → Bytes → Prop} {cut : ℕ} {settings : Settings} {w : World}

theorem unmixed_fresh {w : World} (hlife : w.life = {}) (hreader : w.reader = .ready settings) :
    Unmixed seen cut settings w := by
  refine ⟨?_, ?_, ?_, ?_, ?_, ?_, Or.inl ?_⟩
  all_goals simp only [hlife, hreader]
  · rfl
  · exact fun _ => trivial
  · exact fun l hl => absurd hl List.not_mem_nil
  · exact fun o ho => absurd ho List.not_mem_nil
  · exact fun o ho => absurd ho List.not_mem_nil
  · exact fun o ho => absurd ho List.not_mem_nil
  · exact ⟨rfl, rfl, rfl, rfl, rfl⟩

theorem unmixed_restart (h : Unmixed seen cut settings w) (d : Disk) : Unmixed seen cut settings (w.restart d) := by
  apply unmixed_fresh rfl
  unfold restart
  rw [h.settings_eq]

/-- the call went on with the generation -/
theorem unmixed_reads {w' : World} {f : FileId} {c : Bytes} {line : Option Line} (h : Unmixed seen cut settings w)
    (hcur : Current seen cut settings w.life w.reader f c) (hadv : w.reader.Advances cut c line w'.reader)
    (hafter : w'.reader.Knows f c (w'.content f)) (hkeep : w'.life.opened = w.life.opened)
    (hgiven : w'.life.given.map Given.line = w.life.given.map Given.line ++ line.toList) :
    Unmixed seen cut settings w' := by
  have hgen := hadv.keeps.generation
  have hcur' : Current seen cut settings w'.life w'.reader f c := by
    refine ⟨hcur.seen, ?_, fun o ho heq => ?_⟩
    · rw [hkeep, hgen]
      exact hcur.opened
    · rw [hkeep] at ho
      rw [hgen] at heq
      obtain ⟨hfile, hpieces⟩ := hcur.pieces o ho heq
      refine ⟨hfile, ?_⟩
      rw [Life.lines_same hgiven fun l hl => (hadv.line_generation l hl).trans heq.symm]
      exact hadv.pieces (by rw [h.settings_eq]) hpieces
  refine ⟨hadv.keeps.settings.trans h.settings_eq, ?_, ?_, ?_, ?_, ?_, Or.inr ⟨f, c, hcur', hafter⟩⟩
  · intro hfirst
    rw [hkeep]
    exact h.first (hadv.firstOpen.symm.trans hfirst)
  · intro l hl
    rw [hgiven, List.mem_append, Option.mem_toList] at hl
    rw [hkeep]
    rcases hl with hl | hl
    · exact h.known l hl
    · rw [hadv.line_generation l hl]
      exact hcur.opened
  · rw [hkeep, hgen]
    exact h.bounded
  · rw [hkeep]
    exact h.fresh
  · intro o ho
    by_cases heq : o.generation = w'.reader.generation
    · exact hcur'.told ho heq
    · rw [hkeep] at ho
      rw [hgen] at heq
      apply (h.told o ho).congr
      apply Life.lines_other hgiven
      intro l hl
      rw [hadv.line_generation l hl]
      exact Ne.symm heq

/-- the call let go of the file, or there is none -/
theorem unmixed_closed {w' : World} (h : Unmixed seen cut settings w) (hclosed : w'.reader.Closed)
    (hset : w'.reader.settings = w.reader.settings) (hgen : w'.reader.generation = w.reader.generation)
    (hfirst : w'.reader.firstOpen = w.reader.firstOpen) (hkeep : w'.life.opened = w.life.opened)
    (hgiven : w'.life.given.map Given.line = w.life.given.map Given.line) : Unmixed seen cut settings w' := by
  refine ⟨hset.trans h.settings_eq, ?_, ?_, ?_, ?_, ?_, Or.inl hclosed⟩
  · rw [hfirst, hkeep]
    exact h.first
  · rw [hgiven, hkeep]
    exact h.known
  · rw [hkeep, hgen]
    exact h.bounded
  · rw [hkeep]
    exact h.fresh
  · intro o ho
    rw [hkeep] at ho
    apply (h.told o ho).congr
    unfold Life.lines
    rw [hgiven]

/-- the call began a generation, at the position `o` of the file -/
theorem unmixed_renewed {w' : World} {f : FileId} {o : ℕ} {r₁ : Reader} {line : Option Line}
    (h : Unmixed seen cut settings w) (hseen : seen f (w'.content f)) (hnew : w.reader.Renewed o r₁)
    (hstart : w.reader.firstOpen = false → o = 0) (hafter : w'.reader.Knows f (w'.content f) (w'.content f))
    (hadv : r₁.Advances cut (w'.content f) line w'.reader)
    (hopened : w'.life.opened = w.life.opened ++ [⟨w'.reader.file, w'.reader.committed, w'.reader.generation⟩])
    (hgiven : w'.life.given.map Given.line = w.life.given.map Given.line ++ line.toList) :
    Unmixed seen cut settings w' := by
  have hgen : w'.reader.generation = w.reader.generation + 1 := hadv.keeps.generation.trans hnew.generation
  have hoffset : w'.reader.committed = o := hadv.keeps.committed.trans hnew.committed
  have hline : ∀ l, line = some l → l.generation = w'.reader.generation :=
    fun l hl => (hadv.line_generation l hl).trans hadv.keeps.generation.symm
  -- nothing was returned of this generation before
  have hold : ∀ o ∈ w.life.opened, o.generation ≠ w'.reader.generation := by
    intro o ho heq
    have := h.bounded o ho
    omega
  have hnil : w.life.lines w'.reader.generation = [] := by
    apply Life.lines_eq_nil
    intro l hl heq
    obtain ⟨o, ho, hgo⟩ := h.known l hl
    exact hold o ho (hgo.trans heq)
  have hcur : Current seen cut settings w'.life w'.reader f (w'.content f) := by
    refine ⟨hseen, ⟨_, by rw [hopened]; exact List.mem_append_right _ (List.mem_singleton_self _), rfl⟩, ?_⟩
    intro o' ho' heq
    rw [hopened, List.mem_append, List.mem_singleton] at ho'
    rcases ho' with ho' | rfl
    · exact absurd heq (hold o' ho')
    · refine ⟨hafter.reads.file, ?_⟩
      dsimp only
      rw [Life.lines_same hgiven hline, hnil, hoffset]
      apply hadv.pieces
      · rw [hnew.settings, h.settings_eq]
      · intro c' _
        rw [hnew.future, h.settings_eq]
        exact .start
  refine ⟨?_, ?_, ?_, ?_, ?_, ?_, Or.inr ⟨f, _, hcur, hafter⟩⟩
  · exact hadv.keeps.settings.trans (hnew.settings.trans h.settings_eq)
  · intro hfirst
    rw [hafter.firstOpen] at hfirst
    cases hfirst
  · intro l hl
    rw [hgiven, List.mem_append, Option.mem_toList] at hl
    rw [hopened]
    rcases hl with hl | hl
    · obtain ⟨o', ho', heq⟩ := h.known l hl
      exact ⟨o', List.mem_append_left _ ho', heq⟩
    · exact ⟨_, List.mem_append_right _ (List.mem_singleton_self _), (hline l hl).symm⟩
  · intro o' ho'
    rw [hopened, List.mem_append, List.mem_singleton] at ho'
    rcases ho' with ho' | rfl
    · have := h.bounded o' ho'
      omega
    · exact le_rfl
  · intro o' ho'
    rw [hopened] at ho'
    by_cases hfirst : w.life.opened = []
    · rw [hfirst] at ho'
      exact absurd ho' List.not_mem_nil
    · rw [List.tail_append_of_ne_nil hfirst, List.mem_append, List.mem_singleton] at ho'
      rcases ho' with ho' | rfl
      · exact h.fresh o' ho'
      · apply hoffset.trans
        apply hstart
        cases hopen : w.reader.firstOpen with
        | false => rfl
        | true => exact absurd (h.first hopen) hfirst
  · intro o' ho'
    by_cases heq : o'.generation = w'.reader.generation
    · exact hcur.told ho' heq
    · rw [hopened, List.mem_append, List.mem_singleton] at ho'
      rcases ho' with ho' | rfl
      · apply (h.told o' ho').congr
        apply Life.lines_other hgiven
        intro l hl
        rw [hline l hl]
        exact Ne.symm heq
      · exact absurd rfl heq

/-- what a call of `ReadLine` leaves -/
theorem unmixed_called {w' : World} {line : Option Line} {s' : Sys} (h : Unmixed seen cut settings w)
    (hseen : ∀ f, seen f (w'.content f)) (hfiles : w'.disk.files = w.disk.files) (hreader : w'.reader = s'.reader)
    (hlife : w'.life = w.life.read w.reader line s')
    (hc : Called (Current seen cut settings w.life w.reader) cut w.disk w.reader line w'.reader) :
    Unmixed seen cut settings w' := by
  have hcontent : ∀ f, (w.disk.files f).bytes = w'.content f := by
    intro f
    rw [World.content, hfiles]
  have hon : w'.reader.generation = w.reader.generation → w'.life.opened = w.life.opened ∧
      w'.life.given.map Given.line = w.life.given.map Given.line ++ line.toList := by
    rw [hlife, hreader]
    exact w.life.read_on line
  have hnew : w'.reader.generation ≠ w.reader.generation →
      w'.life.opened = w.life.opened ++ [⟨w'.reader.file, w'.reader.committed, w'.reader.generation⟩] ∧
      w'.life.given.map Given.line = w.life.given.map Given.line ++ line.toList := by
    rw [hlife, hreader]
    exact w.life.read_new line
  cases hc with
  | reads hcur hopen hafter hadv =>
    obtain ⟨hkeep, hgiven⟩ := hon hadv.keeps.generation
    rw [hcontent] at hafter
    exact unmixed_reads h hcur hadv hafter hkeep hgiven
  | closed hafter hset hgen hfirst =>
    obtain ⟨hkeep, hgiven⟩ := hon hgen
    rw [Option.toList_none, List.append_nil] at hgiven
    exact unmixed_closed h hafter hset hgen hfirst hkeep hgiven
  | renewed hbegins hstart hafter hadv =>
    have hgen := hadv.keeps.generation.trans hbegins.generation
    obtain ⟨hopened, hgiven⟩ := hnew (by omega)
    rw [hcontent] at hafter hadv
    exact unmixed_renewed h (hseen _) hbegins hstart hafter hadv hopened hgiven

/-! ## The steps -/

theorem unmixed_readLine (h : Unmixed seen cut settings w) (hsec : settings.incompleteSec ≤ cut) {tNow : ℤ} {rounds : ℕ}
    {kern : Kernel} (hg : Rewritten cut w (.readLine tNow rounds kern))
    (hseen : ∀ f, seen f ((w.step (.readLine tNow rounds kern)).content f)) :
    Unmixed seen cut settings (w.step (.readLine tNow rounds kern)) := by
  cases hres : FrM.readLine tNow rounds (w.sys kern) with
  | crash s' =>
    rw [step_readLine_crash hres]
    exact unmixed_restart h s'.disk
  | done line s' =>
    obtain ⟨hfrozen, hchecks, hrot⟩ := hg
    rw [← h.settings_eq] at hsec
    have hspec := readLine_called (s := w.sys kern) (Current seen cut settings w.life w.reader) hfrozen hchecks h.reader
      hsec hrot tNow rounds
    rw [wp_of_done hres] at hspec
    rw [step_readLine_done hres] at hseen ⊢
    exact unmixed_called h hseen hspec.2 rfl rfl hspec.1

/-- a position is saved -/
theorem unmixed_commit (h : Unmixed seen cut settings w) {generation endOffset : ℕ} {kern : Kernel}
    (hg : Rewritten cut w (.commit generation endOffset kern)) :
    Unmixed seen cut settings (w.step (.commit generation endOffset kern)) := by
  cases hres : FrM.commit generation endOffset (w.sys kern) with
  | crash s' =>
    rw [step_commit_crash hres]
    exact unmixed_restart h s'.disk
  | done ok s' =>
    have hspec : wp (FrM.commit generation endOffset) (fun _ s' => s'.disk.files = w.disk.files ∧
        ∃ committed failed, (committed ≤ w.reader.bufferStart ∨ committed = w.reader.committed) ∧
          s'.reader = { w.reader with committed := committed, saveFailed := failed }) (fun _ => True) (w.sys kern) := by
      apply Env.commit (frozen_ready (s := w.sys kern) hg) fun _ _ => trivial
      · exact fun b l => ⟨rfl, w.reader.committed, w.reader.saveFailed, Or.inr rfl, rfl⟩
      · intro b committed failed d k l _ _ hle hcommitted hgo
        have hgo' : Still w.disk kern d k := hgo
        refine ⟨hgo'.files, committed, failed, ?_, rfl⟩
        rcases hcommitted with rfl | rfl
        · exact Or.inl hle
        · exact Or.inr rfl
    rw [wp_of_done hres] at hspec
    obtain ⟨hfiles, committed, failed, hle, hr⟩ := hspec
    obtain ⟨hgiven, hopened⟩ := w.life.commit_given generation endOffset ok
    have hlines : ∀ g, (w.life.commit generation endOffset ok).lines g = w.life.lines g := by
      intro g
      unfold Life.lines
      rw [hgiven]
    rw [step_commit_done hres]
    refine ⟨?_, ?_, ?_, ?_, ?_, ?_, ?_⟩
    all_goals dsimp only
    all_goals simp only [hr, hopened, hgiven]
    · exact h.settings_eq
    · exact h.first
    · exact h.known
    · exact h.bounded
    · exact h.fresh
    · exact fun o ho => (h.told o ho).congr (hlines _)
    · rcases h.reader with hclosed | ⟨f, c, hcur, hknows⟩
      · exact Or.inl ⟨hclosed.fd, hclosed.opened, hclosed.skipping, hclosed.rotationSeen, hclosed.since⟩
      · refine Or.inr ⟨f, c, ⟨hcur.seen, ?_, ?_⟩, ?_⟩
        · rw [hopened]
          exact hcur.opened
        · intro o ho heq
          rw [hopened] at ho
          rw [hlines]
          exact hcur.pieces o ho heq
        · have hholds := hknows.holds
          have hcommitted : committed ≤ w.reader.bufferStart := by
            rcases hle with hle | rfl
            · exact hle
            · exact hholds.committed_le
          refine ⟨⟨hknows.reads.fd, hknows.reads.file, hknows.reads.opened⟩, ⟨hholds.pos_le, hholds.rest,
            hholds.read_le, hholds.scanFrom, hholds.scanFrom_le, hholds.head, hholds.head_le, hcommitted⟩,
            hknows.firstOpen, ?_⟩
          have hnow : World.content { w with disk := s'.disk } f = w.content f := by
            unfold World.content
            rw [hfiles]
          unfold World.content at hnow ⊢
          rw [hnow]
          exact hknows.now

/-- other programs change the files -/
theorem unmixed_others (h : Unmixed seen cut settings w) {changes : List Change}
    (hg : Rewritten cut w (.others changes)) (hseen : ∀ f, seen f ((w.step (.others changes)).content f)) :
    Unmixed seen cut settings (w.step (.others changes)) := by
  refine ⟨h.settings_eq, h.first, h.known, h.bounded, h.fresh, h.told, ?_⟩
  rcases h.reader with hclosed | ⟨f, c, hcur, hknows⟩
  · exact Or.inl hclosed
  · right
    rcases hg f hknows.reads.fd with hunlike | ⟨hlike, hgrown⟩
    · exact ⟨f, c, hcur, hknows.reads, hknows.holds, hknows.firstOpen, Or.inr hunlike⟩
    · -- the content was what the reader knows, and only grew
      have hnow : c = w.content f := hknows.now.resolve_right fun hunlike => hunlike hlike
      subst hnow
      refine ⟨f, _, ⟨hseen f, hcur.opened, fun o ho heq => ?_⟩, hknows.reads, hknows.holds.mono hgrown,
        hknows.firstOpen, Or.inl rfl⟩
      obtain ⟨hfile, hpieces⟩ := hcur.pieces o ho heq
      exact ⟨hfile, fun c' hc => hpieces c' (hgrown.trans hc)⟩

theorem unmixed_step (hsec : settings.incompleteSec ≤ cut) (h : Unmixed seen cut settings w) (op : Op)
    (hg : Rewritten cut w op) (hseen : ∀ f, seen f ((w.step op).content f)) :
    Unmixed seen cut settings (w.step op) := by
  cases op with
  | others changes => exact unmixed_others h hg hseen
  | readLine tNow rounds kern => exact unmixed_readLine h hsec hg hseen
  | commit generation endOffset kern => exact unmixed_commit h hg
  | restart => exact unmixed_restart h w.disk

/-- the contents of a run are seen one after the other -/
theorem unmixed_run (hsec : settings.incompleteSec ≤ cut) {ops : List Op} (h : Unmixed seen cut settings w)
    (hg : Guarded step (Rewritten cut) w ops) (hseen : ∀ ops', ops' <+: ops → ∀ f, seen f ((w.run ops').content f)) :
    Unmixed seen cut settings (w.run ops) := by
  induction ops generalizing w with
  | nil => exact h
  | cons op ops ih =>
    have hstep := unmixed_step hsec h op hg.1 fun f => hseen [op] ⟨ops, rfl⟩ f
    exact ih hstep hg.2 fun ops' hpre f => hseen (op :: ops') (List.cons_prefix_cons.2 ⟨rfl, hpre⟩) f

/-! ## Single calls -/

/-- a file which was written again, and no line in the buffer: the call reads it from its beginning -/
theorem reads_anew (h : Unmixed seen cut settings w) {f : FileId} (hopen : w.reader.fd = some f)
    (hunlike : ¬ w.reader.Like (w.content f)) (hnone : w.reader.extractLine.1 = none) (tNow : ℤ)
    {oracle : Call → List Fault} (hchecks : Kernel.Checks { oracle := oracle }) :
    ∃ line s', (∀ more, FrM.readLine tNow (roundsLeft w.disk w.reader + more) (w.sys { oracle := oracle }) =
        .done line s') ∧ s'.reader.generation = w.reader.generation + 1 ∧
      (∀ l, line = some l → l.generation = w.reader.generation + 1) ∧
      ((∀ code, Fault.fail code ∉ oracle .preadFill) →
        line.map Line.face = ((linesFrom settings.maxLineLength (w.content f) 0).map Item.face).head? ∧
        s'.reader.future (w.content f) = (linesFrom settings.maxLineLength (w.content f) 0).tail) := by
  obtain ⟨line, s', hdone, -⟩ := readLine_ends w.disk w.reader w.log oracle tNow
  refine ⟨line, s', hdone, ?_⟩
  rcases h.reader with hclosed | ⟨f', c, -, hknows⟩
  · rw [hclosed.fd] at hopen
    cases hopen
  · obtain rfl : f' = f := by
      have hfd := hknows.reads.fd
      rw [hopen] at hfd
      exact (Option.some.inj hfd).symm
    have hspec := readLoop_again (s := w.sys { oracle := oracle }) ⟨rfl, rfl⟩ hchecks hknows hunlike tNow
      (roundsLeft w.disk w.reader + 0)
    have hread := wp_readLine (s := w.sys { oracle := oracle }) hknows.reads.opened hspec
    have hres := hdone 0
    rw [← World.sys] at hres
    rw [wp_of_done hres] at hread
    rcases hread with ⟨l, r, he, -, -⟩ | hagain
    · have he' : w.reader.extractLine = (some l, r) := he
      rw [he'] at hnone
      cases hnone
    · obtain ⟨r₁, d, k, log, hnew, hstill, hreads⟩ := hagain.renewed
      have hd : (d.files f').bytes = w.content f' := hstill.content f'
      have hd' : (s'.disk.files f').bytes = w.content f' := by
        rw [hreads.files]
        exact hd
      have hset : r₁.settings = settings := hnew.settings.trans h.settings_eq
      have hfuture : r₁.future (w.content f') = linesFrom settings.maxLineLength (w.content f') 0 := by
        rw [← h.settings_eq]
        exact hnew.future _
      have hadv := hreads.advances le_rfl
      refine ⟨hadv.keeps.generation.trans hnew.generation,
        fun l hl => (hadv.line_generation l hl).trans hnew.generation, fun hquiet => ?_⟩
      rw [hd'] at hadv
      have hresult := hreads.result
      cases line with
      | none =>
        obtain ⟨c', hc, hc', hnil⟩ := hresult.gone.resolve_right fun ⟨code, hcode⟩ =>
          hquiet code ((hstill.calls _).subset hcode)
        dsimp only at hc hnil
        rw [hd] at hc
        rw [hd'] at hc'
        obtain rfl : c' = w.content f' := hc'.eq_of_length_le hc.length_le
        rw [hfuture] at hnil
        refine ⟨by rw [hnil]; rfl, ?_⟩
        rw [← hadv.result _ (List.prefix_refl _), hfuture, hnil]
        rfl
      | some l =>
        have hgives := hadv.result.2 _ (List.prefix_refl _)
        dsimp only at hgives
        rw [hset, hfuture] at hgives
        obtain ⟨start, heq⟩ := hgives.whole
        rw [heq]
        exact ⟨rfl, rfl⟩

/-- a position of another generation is not saved -/
theorem step_commit_other (w : World) {generation : ℕ} (hne : generation ≠ w.reader.generation) (endOffset : ℕ)
    (kern : Kernel) : (w.step (.commit generation endOffset kern)).disk = w.disk ∧
      (w.step (.commit generation endOffset kern)).reader = w.reader := by
  have hspec : wp (FrM.commit generation endOffset) (fun _ s' => s'.disk = w.disk ∧ s'.reader = w.reader)
      (fun _ => False) (w.sys kern) := by
    unfold FrM.commit
    rw [wp_bind, wp_get]
    by_cases hopened : (w.sys kern).reader.opened = false
    · rw [if_pos hopened]
      exact ⟨rfl, rfl⟩
    · have hne' : generation ≠ (w.sys kern).reader.generation := hne
      rw [if_neg hopened, if_pos hne']
      exact ⟨rfl, rfl⟩
  obtain ⟨ok, s', hdone, hsame⟩ := exists_of_wp hspec
  rw [step_commit_done hdone]
  exact hsame

theorem ordered_step (w : World) (op : Op) (h : w.reader.Ordered) : (w.step op).reader.Ordered := by
  have hrestart : ∀ d, (w.restart d).reader.Ordered := fun d hfd => by cases hfd
  cases op with
  | others changes => exact h
  | readLine tNow rounds kern =>
    have hspec := readLine_ordered tNow rounds h (w.sys kern) rfl
    cases hres : FrM.readLine tNow rounds (w.sys kern) with
    | crash s' =>
      rw [step_readLine_crash hres]
      exact hrestart _
    | done line s' =>
      rw [wp_of_done hres] at hspec
      rw [step_readLine_done hres]
      exact hspec.steps.1
  | commit generation endOffset kern =>
    have hspec := commit_commits (r := w.reader) generation endOffset (w.sys kern) rfl
    cases hres : FrM.commit generation endOffset (w.sys kern) with
    | crash s' =>
      rw [step_commit_crash hres]
      exact hrestart _
    | done ok s' =>
      rw [wp_of_done hres] at hspec
      rw [step_commit_done hres]
      exact hspec.ordered h
  | restart => exact hrestart _

theorem ordered_run {w : World} (ops : List Op) (h : w.reader.Ordered) : (w.run ops).reader.Ordered := by
  induction ops generalizing w with
  | nil => exact h
  | cons op ops ih => exact ih (ordered_step w op h)

end World

/-! ## The lines of a run -/

open World

/-- **A file which is truncated or written again** is read anew, and nothing of the old content is mixed with the new
one. In any run the position which was saved is not behind the lines as long as a file is open, and a position of
another generation changes nothing. When the changes between the calls can be seen in the size or the start of the
file, and the calls which look there do not fail, the lines of each generation are lines of one content which its file
had, from the beginning on for each generation but the first. The next call without a line in its buffer begins a
generation. -/
theorem rewritten_file (settings : Settings) (disk : Disk) (ops : List Op) :
    let w := (fresh settings disk).run ops
    (w.reader.fd.isSome → w.reader.committed ≤ w.reader.bufferStart) ∧
    (∀ generation endOffset kern, generation ≠ w.reader.generation →
      (w.step (.commit generation endOffset kern)).disk = w.disk ∧
        (w.step (.commit generation endOffset kern)).reader = w.reader) ∧
    ∀ cut, settings.incompleteSec ≤ cut → Guarded step (Rewritten cut) (fresh settings disk) ops →
      (∀ l ∈ w.life.given.map Given.line, ∃ o ∈ w.life.opened, o.generation = l.generation) ∧
      (∀ o ∈ w.life.opened, ∃ ops', ops' <+: ops ∧ ∃ left, Pieces cut settings.maxLineLength
        (((fresh settings disk).run ops').content o.file) o.offset (w.life.lines o.generation) left) ∧
      (∀ o ∈ w.life.opened.tail, o.offset = 0) ∧
      ∀ f, w.reader.fd = some f → ¬ w.reader.Like (w.content f) → w.reader.extractLine.1 = none →
        ∀ tNow oracle, Kernel.Checks { oracle := oracle } →
          ∃ line s, (∀ more, FrM.readLine tNow (roundsLeft w.disk w.reader + more) (w.sys { oracle := oracle }) =
              .done line s) ∧ s.reader.generation = w.reader.generation + 1 ∧
            (∀ l, line = some l → l.generation = w.reader.generation + 1) ∧
            ((∀ code, Fault.fail code ∉ oracle .preadFill) →
              line.map Line.face = ((linesFrom settings.maxLineLength (w.content f) 0).map Item.face).head? ∧
              s.reader.future (w.content f) = (linesFrom settings.maxLineLength (w.content f) 0).tail) := by
  intro w
  refine ⟨?_, fun generation endOffset kern hne => step_commit_other w hne endOffset kern, fun cut hsec hg => ?_⟩
  · exact ordered_run ops fun hfd => by cases hfd
  · have h : Unmixed (fun f c => ∃ ops', ops' <+: ops ∧ c = ((fresh settings disk).run ops').content f) cut settings
        w :=
      unmixed_run hsec (unmixed_fresh rfl rfl) hg fun ops' hpre f => ⟨ops', hpre, rfl⟩
    refine ⟨h.known, fun o ho => ?_, h.fresh, fun f hopen hunlike hnone tNow oracle hchecks => ?_⟩
    · obtain ⟨c, ⟨ops', hpre, rfl⟩, left, hpieces⟩ := h.told o ho
      exact ⟨ops', hpre, left, hpieces⟩
    · exact reads_anew h hopen hunlike hnone tNow hchecks

section Runs

/-- the path leads to an empty file -/
def emptyFile : Disk where
  path := some ⟨⟨1, 7⟩, true⟩
  files _ := File.empty

theorem rewritten_open {cut : ℕ} {w : World} {changes : List Change} {f : FileId} (hfd : w.reader.fd = some f)
    (h : ¬ w.reader.Like ((w.disk.applyAll changes).files f).bytes ∨
      w.reader.Like (w.content f) ∧ w.content f <+: ((w.disk.applyAll changes).files f).bytes) :
    Rewritten cut w (.others changes) := by
  intro f' hf'
  rw [hfd] at hf'
  obtain rfl := Option.some.inj hf'
  exact h

theorem rewritten_none {cut : ℕ} {w : World} {changes : List Change} (hfd : w.reader.fd = none) :
    Rewritten cut w (.others changes) := by
  intro f hf
  rw [hfd] at hf
  cases hf

theorem rewritten_call {cut : ℕ} {w : World} {tNow : ℤ} {rounds : ℕ} (h : cut = 0 → w.reader.fd.isSome →
    ¬ Env.Elsewhere w.disk w.reader) : Rewritten cut w (.readLine tNow rounds {}) :=
  ⟨⟨rfl, rfl⟩, fun _ => ⟨List.not_mem_nil, List.not_mem_nil⟩, h⟩

/-- a line and a half were read, and then the file is truncated and written again -/
def writtenAgain : List Op :=
  [.others [.append ⟨1, 7⟩ (ascii "a\nbc")], .readLine 0 9 {},
    .others [.rewrite ⟨1, 7⟩ File.empty, .append ⟨1, 7⟩ (ascii "x\n")]]

/-- the line of the new content is returned, and the half of the old one is not -/
theorem rewritten_file_small :
    (((fresh {} emptyFile).run writtenAgain).life.given.map (·.line.text) = [ascii "a"]) ∧
      ∃ line s, FrM.readLine 0 9 (((fresh {} emptyFile).run writtenAgain).sys {}) = .done line s ∧
        s.reader.generation = 2 ∧ line.map Line.face = some (ascii "x", false, some 2) := by
  have hg : Guarded step (Rewritten 0) (fresh {} emptyFile) writtenAgain := by
    refine ⟨rewritten_none rfl, rewritten_call fun _ hopen => ?_, rewritten_open (f := ⟨1, 7⟩) ?_ (Or.inl ?_), trivial⟩
    · exact absurd hopen (by decide +kernel)
    · decide +kernel
    · decide +kernel
  obtain ⟨-, -, hrun⟩ := rewritten_file {} emptyFile writtenAgain
  obtain ⟨-, -, -, hcall⟩ := hrun 0 le_rfl hg
  obtain ⟨line, s, hdone, hgen, -, hline⟩ := hcall ⟨1, 7⟩ (by decide +kernel) (by decide +kernel) (by decide +kernel) 0
    (fun _ => []) fun _ => ⟨List.not_mem_nil, List.not_mem_nil⟩
  refine ⟨by decide +kernel, line, s, ?_, ?_, ?_⟩
  · have hrounds : roundsLeft ((fresh {} emptyFile).run writtenAgain).disk
        ((fresh {} emptyFile).run writtenAgain).reader + 3 = 9 := by decide +kernel
    have hdone' := hdone 3
    rw [hrounds] at hdone'
    exact hdone'
  · rw [hgen]
    decide +kernel
  · rw [(hline fun _ => List.not_mem_nil).1]
    decide +kernel

/-- a line is committed, the path leads to a directory, and the reader lets go of its file -/
def letGo : List Op :=
  [.others [.append ⟨1, 7⟩ (ascii "a\n")], .readLine 0 9 {}, .commit 1 2 {}, .others [.path (some ⟨⟨1, 8⟩, false⟩)],
    .readLine 0 9 {}, .readLine 0 9 {}]

/-- the file is written again while a line is not finished, and `fstat` fails in the next call -/
def unchecked : List Op :=
  [.others [.append ⟨1, 7⟩ (ascii "a\nbc")], .readLine 0 9 {},
    .others [.rewrite ⟨1, 7⟩ File.empty, .append ⟨1, 7⟩ (ascii "zzzzzz\n")],
    .readLine 0 9 { oracle := fun c => if c = .fstatCheck then [.fail 5] else [] }]

theorem unchecked_mixes : (((fresh {} emptyFile).run unchecked).life.given.map fun g => (g.file, g.line.text)) =
    [(⟨1, 7⟩, ascii "a"), (⟨1, 7⟩, ascii "bczz")] := by
  decide +kernel

/-- no content which the file has in that run has a `b` and a `z` -/
theorem unchecked_apart (n : ℕ) : ¬ (98 ∈ ((fresh {} emptyFile).run (unchecked.take n)).content ⟨1, 7⟩ ∧
    122 ∈ ((fresh {} emptyFile).run (unchecked.take n)).content ⟨1, 7⟩) := by
  by_cases hn : n < 4
  · interval_cases n <;> decide +kernel
  · rw [List.take_of_length_le (Nat.not_lt.1 hn)]
    decide +kernel

/-- a reader which let go of its file keeps the position it saved, and that is behind the start of an empty buffer. A
call which cannot check the file reads on: the line has bytes of both contents -/
theorem rewritten_limits :
    (¬ ∀ settings disk ops, Guarded step (Rewritten 1) (fresh settings disk) ops →
      ((fresh settings disk).run ops).reader.committed ≤ ((fresh settings disk).run ops).reader.bufferStart) ∧
    ¬ ∀ settings disk ops,
      Guarded step (fun w op => ∀ changes, op = .others changes → Rewritten 0 w op) (fresh settings disk) ops →
      ∀ g ∈ ((fresh settings disk).run ops).life.given, ∃ n,
        g.line.text <:+: ((fresh settings disk).run (ops.take n)).content g.file := by
  constructor
  · intro h
    have hg : Guarded step (Rewritten 1) (fresh {} emptyFile) letGo := by
      have hcall : ∀ w, Rewritten 1 w (.readLine 0 9 {}) := fun w => rewritten_call fun h1 => absurd h1 one_ne_zero
      refine ⟨rewritten_none rfl, hcall _, ⟨rfl, rfl⟩, rewritten_open (f := ⟨1, 7⟩) ?_ (Or.inr ⟨?_, ?_⟩), hcall _,
        hcall _, trivial⟩
      · decide +kernel
      · decide +kernel
      · decide +kernel
    exact absurd (h {} emptyFile letGo hg) (by decide +kernel)
  · intro h
    have hg : Guarded step (fun w op => ∀ changes, op = .others changes → Rewritten 0 w op) (fresh {} emptyFile)
        unchecked := by
      refine ⟨fun _ _ => rewritten_none rfl, fun _ h0 => (nomatch h0), fun changes h0 => ?_, fun _ h0 => (nomatch h0),
        trivial⟩
      obtain rfl := Op.others.inj h0
      refine rewritten_open (f := ⟨1, 7⟩) ?_ (Or.inl ?_)
      · decide +kernel
      · decide +kernel
    have hmem : ((⟨1, 7⟩, ascii "bczz") : FileId × Bytes) ∈
        ((fresh {} emptyFile).run unchecked).life.given.map fun g => (g.file, g.line.text) := by
      rw [unchecked_mixes]
      exact List.mem_cons_of_mem _ (List.mem_singleton_self _)
    obtain ⟨g, hgiven, heq⟩ := List.mem_map.1 hmem
    rw [Prod.mk.injEq] at heq
    obtain ⟨n, hn⟩ := h {} emptyFile unchecked hg g hgiven
    rw [heq.1, heq.2] at hn
    exact unchecked_apart n ⟨hn.subset (by decide +kernel), hn.subset (by decide +kernel)⟩

end Runs

end DominoLogForwarder.FileReader
