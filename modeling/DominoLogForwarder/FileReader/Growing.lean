/-
A file which only grows: what the reader returns is a function of the content.

`Inv` is the invariant of a run in which the path leads to one regular file, other programs append to it in any pieces,
and the processes come and go. `growing_file` reads the claim off it, with the rounds which a call needs.
-/
import DominoLogForwarder.FileReader.System

namespace DominoLogForwarder.FileReader

open CrashProg
open Wal (File)

/-! ## Where a process continues -/

def startsOf (lives : List Life) : List ℕ := lives.flatMap fun l => l.opened.map Opened.offset

def commitsOf (lives : List Life) : List ℕ := lives.flatMap fun l => l.commits.map Prod.snd

/-- where the next process continues: the highest position for which `Commit` returned true, or where the first process
started. None: no process opened the file -/
def resume (lives : List Life) : Option ℕ := (startsOf lives).head?.map fun o => (commitsOf lives).foldl max o

theorem resume_restart (lives : List Life) : resume (lives ++ [({} : Life)]) = resume lives ∧
    commitsOf (lives ++ [({} : Life)]) = commitsOf lives := by
  simp [resume, startsOf, commitsOf]

theorem resume_opened {lives : List Life} {o : Opened} {given : List Given}
    (h : ∀ p, resume lives = some p → o.offset = p) (h' : resume lives = none → commitsOf lives = []) :
    resume (lives ++ [⟨[o], given, []⟩]) = some o.offset := by
  unfold resume at *
  cases hs : startsOf lives with
  | nil =>
    rw [hs] at h'
    have hstarts : startsOf (lives ++ [⟨[o], given, []⟩]) = [o.offset] := by
      have : startsOf (lives ++ [⟨[o], given, []⟩]) = startsOf lives ++ [o.offset] := by simp [startsOf]
      rw [this, hs, List.nil_append]
    have hcommits : commitsOf (lives ++ [⟨[o], given, []⟩]) = [] := by
      have : commitsOf (lives ++ [⟨[o], given, []⟩]) = commitsOf lives := by simp [commitsOf]
      rw [this, h' rfl]
    rw [hstarts, hcommits]
    rfl
  | cons s rest =>
    have hstarts : startsOf (lives ++ [⟨[o], given, []⟩]) = s :: (rest ++ [o.offset]) := by
      have : startsOf (lives ++ [⟨[o], given, []⟩]) = startsOf lives ++ [o.offset] := by simp [startsOf]
      rw [this, hs, List.cons_append]
    have hcommits : commitsOf (lives ++ [⟨[o], given, []⟩]) = commitsOf lives := by simp [commitsOf]
    have hp := h ((commitsOf lives).foldl max s) (by rw [hs]; rfl)
    rw [hstarts, hcommits, hp]
    rfl

/-- what a process returned does not matter -/
theorem resume_given (lives : List Life) (opened : List Opened) (given given' : List Given) (commits : List (ℕ × ℕ)) :
    resume (lives ++ [⟨opened, given, commits⟩]) = resume (lives ++ [⟨opened, given', commits⟩]) := by
  simp [resume, startsOf, commitsOf]

theorem resume_commit {lives : List Life} {life : Life} {g e p : ℕ} (h : resume (lives ++ [life]) = some p) :
    resume (lives ++ [{ life with commits := life.commits ++ [(g, e)] }]) = some (max p e) := by
  unfold resume at *
  have hstarts : startsOf (lives ++ [{ life with commits := life.commits ++ [(g, e)] }]) =
    startsOf (lives ++ [life]) := by
    simp [startsOf]
  have hcommits : commitsOf (lives ++ [{ life with commits := life.commits ++ [(g, e)] }]) =
      commitsOf (lives ++ [life]) ++ [e] := by
    simp [commitsOf]
  rw [hstarts, hcommits]
  obtain ⟨s, hs, rfl⟩ := Option.map_eq_some_iff.1 h
  rw [hs, Option.map_some, List.foldl_append]
  rfl

/-! ## The invariant -/

/-- the path leads to the file all the time -/
def Leads (f : FileId) (node : Option Node) : Prop := node = some ⟨f, true⟩

/-- other programs only append -/
def Kernel.Appends (P : Option Node → Prop) (k : Kernel) : Prop := ∀ changes ∈ k.others, ∀ ch ∈ changes, ch.Mild P

/-- a line which this process returned -/
def World.Returned (w : World) (generation endOffset : ℕ) : Prop :=
  ∃ g ∈ w.life.given, g.line.generation = generation ∧ g.line.endOffset = endOffset

/-- what happens to a file which only grows. The calls on which the position depends do not fail, and positions of
returned lines are committed -/
def Growing (f : FileId) (w : World) : Op → Prop
  | .others changes => ∀ ch ∈ changes, ch.Mild (Leads f)
  | .readLine _ _ kern => kern.Appends (Leads f) ∧ kern.Reliable
  | .commit generation endOffset kern =>
    kern.Appends (Leads f) ∧ kern.Reliable ∧ w.Returned generation endOffset
  | .restart => True

namespace World

def lives (w : World) : List Life := w.earlier ++ [w.life]

/-- the process has not opened the file yet -/
structure Waiting (w : World) : Prop where
  reader : ∃ e, w.reader = { Reader.ready w.reader.settings with lastOpenError := e }
  life : w.life = {}

/-- the process reads the file, from the position `base` on -/
structure Reading (f : FileId) (base : ℕ) (w : World) : Prop where
  on : w.reader.On w.disk f
  opened : w.life.opened = [⟨f, base, w.reader.generation⟩]
  generations : ∀ g ∈ w.life.given, g.line.generation = w.reader.generation
  lines : ∀ c, w.content f <+: c →
    linesFrom w.reader.settings.maxLineLength c base = w.life.given.map Given.item ++ w.reader.future c
  resume : resume w.lives = some w.reader.committed
  base : ∀ p, FileReader.resume w.earlier = some p → base = p

structure Inv (settings : Settings) (f : FileId) (w : World) : Prop where
  path : Leads f w.disk.path
  settings : w.reader.settings = settings
  saved : w.disk.state = none ∧ resume w.lives = none ∨
    ∃ o, SavedAt w.disk f o ∧ ∀ p, resume w.lives = some p → p = o
  commits : resume w.earlier = none → commitsOf w.earlier = []
  process : w.Waiting ∨ ∃ base, w.Reading f base

variable {settings : Settings} {f : FileId} {w : World}

theorem inv_start (files : FileId → File) : Inv settings f (start settings (some ⟨f, true⟩) files) :=
  ⟨rfl, rfl, Or.inl ⟨rfl, rfl⟩, fun _ => rfl, Or.inl ⟨⟨0, rfl⟩, rfl⟩⟩

theorem Inv.clean (h : Inv settings f w) : Clean w.disk := by
  rcases h.saved with ⟨hno, -⟩ | ⟨o, ho, -⟩
  · exact Or.inl hno
  · exact Or.inr ⟨f, o, ho⟩

theorem Inv.ready (h : Inv settings f w) {kern : Kernel} (hk : kern.Appends (Leads f)) (hr : kern.Reliable) :
    Ready (Leads f) (w.sys kern) := by
  rcases h.process with ⟨⟨e, heq⟩, -⟩ | ⟨base, hread⟩
  · refine ⟨⟨hk, h.path⟩, hr, ?_, h.clean, Or.inr ⟨?_, ?_, ?_⟩⟩ <;>
      · simp only [sys]
        rw [heq]
        rfl
  · exact ⟨⟨hk, h.path⟩, hr, hread.on.opened, h.clean, Or.inl ⟨f, hread.on⟩⟩

theorem Waiting.fd (h : w.Waiting) : w.reader.fd = none := by
  obtain ⟨e, heq⟩ := h.reader
  rw [heq]
  rfl

theorem Waiting.firstOpen (h : w.Waiting) : w.reader.firstOpen = true := by
  obtain ⟨e, heq⟩ := h.reader
  rw [heq]
  rfl

theorem Waiting.skipping (h : w.Waiting) : w.reader.skipping = false := by
  obtain ⟨e, heq⟩ := h.reader
  rw [heq]
  rfl

theorem leads_regular {id : FileId} {regular : Bool} (h : Leads f (some ⟨id, regular⟩)) : id = f ∧ regular = true := by
  rw [Leads, Option.some.injEq, Node.mk.injEq] at h
  exact h

/-- the path leads nowhere else -/
theorem not_replaced : ¬ ∃ node, Leads f (some node) ∧ node.file ≠ f := by
  rintro ⟨node, hnode, hne⟩
  exact hne (leads_regular hnode).1

/-- a file which is open is the file -/
theorem Inv.reading (h : Inv settings f w) {id : FileId} (hfd : w.reader.fd = some id) :
    id = f ∧ ∃ base, w.Reading f base := by
  rcases h.process with hw | ⟨base, hread⟩
  · cases hw.fd.symm.trans hfd
  · exact ⟨Option.some.inj (hfd.symm.trans hread.on.fd), base, hread⟩

/-- without a file the process waits for it -/
theorem Inv.waiting (h : Inv settings f w) (hfd : w.reader.fd = none) : w.Waiting := by
  rcases h.process with hw | ⟨base, hread⟩
  · exact hw
  · cases hread.on.fd.symm.trans hfd

/-- a process which has no file open has returned nothing -/
theorem Waiting.resume (h : w.Waiting) : resume w.lives = resume w.earlier := by
  rw [lives, h.life]
  exact (resume_restart _).1

/-- where the next process starts -/
theorem Inv.resolved (h : Inv settings f w) {kern k₀ : Kernel} {d₀ : Disk} {o : ℕ} (hwait : w.reader.firstOpen = true)
    (hl₀ : Later (Leads f) w.disk kern d₀ k₀) (hs₀ : d₀.state = w.disk.state) (hres : Resolved w.reader d₀ f o) :
    ∀ p, resume w.lives = some p → o = p := by
  intro p hp
  rcases h.saved with ⟨-, hno⟩ | ⟨o', ho', hsame⟩
  · rw [hno] at hp
    cases hp
  · rw [hsame p hp]
    exact hres.same hwait o' (ho'.mono hl₀ hs₀)

/-! ## The steps -/

theorem inv_restart (h : Inv settings f w) {d : Disk} (hpath : Leads f d.path)
    (hsaved : d.state = none ∧ resume w.lives = none ∨ ∃ o, SavedAt d f o ∧ ∀ p, resume w.lives = some p → p = o) :
    Inv settings f (w.restart d) := by
  have hlives : resume (w.restart d).lives = resume w.lives := (resume_restart w.lives).1
  refine ⟨hpath, h.settings, ?_, fun hno => ?_, Or.inl ⟨⟨0, rfl⟩, rfl⟩⟩
  · rw [hlives]
    exact hsaved
  · have hno' : resume w.lives = none := hno
    show commitsOf w.lives = []
    rcases h.process with hwait | ⟨base, hread⟩
    · have hcommits : commitsOf w.lives = commitsOf w.earlier := by
        rw [lives, hwait.life]
        exact (resume_restart _).2
      rw [hcommits]
      exact h.commits (hwait.resume ▸ hno')
    · rw [hread.resume] at hno'
      cases hno'

/-- the call is killed -/
theorem inv_killed (h : Inv settings f w) {kern : Kernel} {s' : Sys}
    (hl : Later (Leads f) w.disk kern s'.disk s'.kern) (hk : Killed (Leads f) (w.sys kern) s') :
    Inv settings f (w.restart s'.disk) := by
  refine inv_restart h hl.calm.path ?_
  rcases hk with hst | ⟨id, o, hsaved, hnode, hwhy⟩
  · rcases h.saved with ⟨hno, hres⟩ | ⟨o, ho, hres⟩
    · exact Or.inl ⟨hst.trans hno, hres⟩
    · exact Or.inr ⟨o, ho.mono hl hst, hres⟩
  · obtain ⟨rfl, -⟩ := leads_regular hnode
    rcases hwhy with ⟨hfd, d₀, k₀, hl₀, hs₀, hres⟩ | ⟨-, id₀, hfd, hleaving⟩
    · exact Or.inr ⟨o, hsaved, fun p hp => (h.resolved (h.waiting hfd).firstOpen hl₀ hs₀ hres p hp).symm⟩
    · obtain ⟨rfl, -⟩ := h.reading hfd
      exact absurd hleaving.replaced not_replaced

/-- what a call which stays on the file adds to a history which is `life` after the file was opened -/
theorem inv_stays (life : Life) {d : Disk} {k : Kernel} {r : Reader} {line : Option Line} {s' : Sys} {base : ℕ}
    {earlier : List Life} (hpath : Leads f s'.disk.path) (hset : r.settings = settings)
    (hwait : settings.incompleteSec = 0)
    (hstays : Stays (Leads f) d k r f line s') (hopened : life.opened = [⟨f, base, r.generation⟩])
    (hgens : ∀ g ∈ life.given, g.line.generation = r.generation)
    (hlines : ∀ c, (s'.disk.files f).bytes <+: c →
      linesFrom settings.maxLineLength c base = life.given.map Given.item ++ r.future c)
    (hresume : resume (earlier ++ [life]) = some r.committed) (hbase : ∀ p, resume earlier = some p → base = p)
    (hcommits : resume earlier = none → commitsOf earlier = []) :
    Inv settings f ⟨s'.disk, s'.reader, s'.log, { life with
      given := life.given ++ line.toList.map (life.give s'.reader.settings f (s'.disk.files f).bytes
        (r.lineStart (s'.disk.files f).bytes)) }, earlier⟩ := by
  obtain ⟨hon, hkeeps, -, hres⟩ := hstays
  have hresume' : ∀ given, resume (earlier ++ [{ life with given := given }]) = some s'.reader.committed := by
    intro given
    rw [hkeeps.committed, ← hresume]
    exact resume_given _ _ _ _ _
  -- neither is there a timeout, nor does the path lead elsewhere
  have hfound : ∀ l, line = some l → Found r (s'.disk.files f).bytes l s'.reader := by
    rintro l rfl
    refine hres.resolve_right fun hrem => ?_
    rcases hrem.cause with hsec | hreplaced
    · rw [hset, hwait] at hsec
      exact absurd hsec (lt_irrefl 0)
    · exact not_replaced hreplaced
  refine ⟨hpath, hkeeps.settings.trans hset, Or.inr ⟨_, hon.saved, fun p hp => ?_⟩, hcommits, Or.inr ⟨base, hon, ?_, ?_,
    ?_, hresume' _, hbase⟩⟩
  · exact Option.some.inj (hp.symm.trans (hresume' _))
  · rw [hkeeps.generation]
    exact hopened
  · intro g hg
    rw [hkeeps.generation]
    rcases List.mem_append.1 hg with hg | hg
    · exact hgens g hg
    · cases line with
      | none => exact absurd hg List.not_mem_nil
      | some l =>
        rw [List.mem_singleton.1 hg]
        exact (hfound l rfl).generation
  · intro c hc
    rw [hkeeps.settings, hset, hlines c hc]
    cases line with
    | none =>
      rw [hres.future c hc]
      simp
    | some l =>
      rw [(hfound l rfl).future c hc, List.map_append, List.append_assoc]
      rfl

/-- a file which was opened is read from its start on -/
theorem lines_started {r : Reader} {o : ℕ} {head c : Bytes} (hskip : r.skipping = false) :
    (r.started f o head).future c = linesFrom r.settings.maxLineLength c o ∧ (r.started f o head).lineStart c = o := by
  have hskip' : (r.started f o head).skipping = false := hskip
  unfold Reader.future Reader.lineStart
  rw [hskip']
  exact ⟨rfl, rfl⟩

/-- `ReadLine` keeps the invariant -/
theorem inv_outcome (h : Inv settings f w) (hwait : settings.incompleteSec = 0) {kern : Kernel} {line : Option Line}
    {s' : Sys} (hends : CallEnds (Leads f) (w.sys kern) line s') :
    Inv settings f { w with
      disk := s'.disk, reader := s'.reader, log := s'.log, life := w.life.read w.reader line s' } := by
  obtain ⟨hl, hout⟩ := hends
  have hpath := hl.calm.path
  cases hout with
  | stays id _ _ hfd hstays =>
    obtain ⟨rfl, base, hread⟩ := h.reading hfd
    have hgen : w.reader.generation = s'.reader.generation := hstays.keeps.generation.symm
    have hlife : w.life.read w.reader line s' = { w.life with
        given := w.life.given ++ line.toList.map (w.life.give s'.reader.settings id (s'.disk.files id).bytes
          (w.reader.lineStart (s'.disk.files id).bytes)) } := by
      simp only [Life.read, if_pos hgen, hstays.on.file]
    rw [hlife]
    refine inv_stays w.life hpath h.settings hwait hstays hread.opened hread.generations (fun c hc => ?_) hread.resume
      hread.base h.commits
    rw [← h.settings]
    exact hread.lines c ((hl.files id).trans hc)
  | opens _ _ hfd hopens =>
    have hw := h.waiting hfd
    cases hopens with
    | failed e' _ _ hr hst =>
      have hreader : s'.reader = { w.reader with lastOpenError := e' } := hr
      have hgen : w.reader.generation = s'.reader.generation := by rw [hreader]
      have hlife : w.life.read w.reader none s' = {} := by
        simp only [Life.read, if_pos hgen, hw.life]
        rfl
      rw [hlife]
      have hlives : w.earlier ++ [({} : Life)] = w.lives := by
        rw [lives, hw.life]
      refine ⟨hpath, ?_, ?_, h.commits, Or.inl ⟨⟨e', ?_⟩, rfl⟩⟩
      · show s'.reader.settings = settings
        rw [hreader]
        exact h.settings
      · simp only [lives]
        rw [hlives]
        rcases h.saved with ⟨hno, hres⟩ | ⟨o, ho, hres⟩
        · exact Or.inl ⟨hst.trans hno, hres⟩
        · exact Or.inr ⟨o, ho.mono hl hst, hres⟩
      · obtain ⟨e, heq⟩ := hw.reader
        show s'.reader = _
        rw [hreader, heq]
        rfl
    | opened id o head d₀ d₁ k₀ k₁ _ _ hl₀ hs₀ hl₁ hnode hres hon _ hstays =>
      obtain ⟨rfl, -⟩ := leads_regular hnode
      have hstart := h.resolved hw.firstOpen hl₀ hs₀ hres
      have hbase : ∀ p, resume w.earlier = some p → o = p := fun p hp => hstart p (hw.resume.trans hp)
      have hgen : s'.reader.generation = w.reader.generation + 1 := hstays.keeps.generation
      have hcommitted : s'.reader.committed = o := hstays.keeps.committed
      have hlife : w.life.read w.reader line s' =
          ⟨[⟨id, o, w.reader.generation + 1⟩], [] ++ line.toList.map
            (Life.give ⟨[⟨id, o, w.reader.generation + 1⟩], [], []⟩ s'.reader.settings id (s'.disk.files id).bytes
              ((w.reader.started id o head).lineStart (s'.disk.files id).bytes)), []⟩ := by
        have hne : ¬ w.reader.generation = s'.reader.generation := by
          rw [hgen]
          exact (Nat.succ_ne_self _).symm
        simp only [Life.read, if_neg hne, hw.life, hstays.on.file, hcommitted, (lines_started hw.skipping).2]
        rw [hgen]
        rfl
      rw [hlife]
      refine inv_stays ⟨[⟨id, o, w.reader.generation + 1⟩], [], []⟩ hpath h.settings hwait hstays rfl
        (fun g hg => absurd hg List.not_mem_nil) (fun c hc => ?_) ?_ hbase h.commits
      · rw [(lines_started hw.skipping).1, h.settings]
        rfl
      · exact resume_opened (o := ⟨id, o, w.reader.generation + 1⟩) hbase h.commits
  | leaves id d₁ k₁ _ _ hfd hleaving _ _ _ =>
    obtain ⟨rfl, -⟩ := h.reading hfd
    exact absurd hleaving.replaced not_replaced

/-- a call which did not fail and returned no line has returned them all -/
theorem drained (h : Inv settings f w) {kern : Kernel} {s' : Sys} (hq : kern.Quiet)
    (hends : CallEnds (Leads f) (w.sys kern) none s') :
    ∃ o c, (w.life.read w.reader none s').opened = [o] ∧ w.content f <+: c ∧ c <+: (s'.disk.files f).bytes ∧
      (w.life.read w.reader none s').given.map Given.item = linesFrom settings.maxLineLength c o.offset := by
  obtain ⟨hl, hout⟩ := hends
  cases hout with
  | stays id _ _ hfd hstays =>
    obtain ⟨rfl, base, hread⟩ := h.reading hfd
    obtain ⟨-, hgone⟩ := hstays.result
    obtain ⟨c, hc, hc', hnil⟩ := hgone.resolve_right fun ⟨code, hcode⟩ => hq.calls _ code hcode
    have hgen : w.reader.generation = s'.reader.generation := hstays.keeps.generation.symm
    have hlife : w.life.read w.reader none s' = w.life := by
      simp [Life.read, if_pos hgen]
    refine ⟨⟨id, base, w.reader.generation⟩, c, ?_, hc, hc', ?_⟩
    · rw [hlife]
      exact hread.opened
    · have hnil' : w.reader.future c = [] := hnil
      rw [hlife, ← h.settings, hread.lines c hc, hnil', List.append_nil]
  | opens _ _ hfd hopens =>
    have hw := h.waiting hfd
    cases hopens with
    | failed e _ hfails _ _ =>
      exfalso
      rcases hfails with ⟨code, hcode | hcode⟩ | hnone | ⟨id, hnode⟩
      · exact hq.calls _ code hcode
      · exact hq.calls _ code hcode
      · cases hnone
      · cases (leads_regular hnode).2
    | opened id o head d₀ d₁ k₀ k₁ _ _ hl₀ hs₀ hl₁ hnode hres hon _ hstays =>
      obtain ⟨rfl, -⟩ := leads_regular hnode
      obtain ⟨-, hgone⟩ := hstays.result
      obtain ⟨c, hc, hc', hnil⟩ := hgone.resolve_right fun ⟨code, hcode⟩ =>
        ((hl₀.trans hl₁).quiet hq).calls _ code hcode
      have hlife : w.life.read w.reader none s' = ⟨[⟨id, o, w.reader.generation + 1⟩], [], []⟩ := by
        have hgen : s'.reader.generation = w.reader.generation + 1 := hstays.keeps.generation
        have hcommitted : s'.reader.committed = o := hstays.keeps.committed
        have hne : ¬ w.reader.generation = s'.reader.generation := by
          rw [hgen]
          exact (Nat.succ_ne_self _).symm
        simp only [Life.read, if_neg hne, hw.life, hstays.on.file, hcommitted]
        rw [hgen]
        rfl
      refine ⟨⟨id, o, w.reader.generation + 1⟩, c, ?_, ((hl₀.trans hl₁).files id).trans hc, hc', ?_⟩
      · rw [hlife]
      · have hnil' : (w.reader.started id o head).future c = [] := hnil
        rw [(lines_started hw.skipping).1] at hnil'
        have hset : w.reader.settings.maxLineLength = settings.maxLineLength := by rw [h.settings]
        rw [hlife, ← hset]
        exact hnil'.symm
  | leaves id d₁ k₁ _ _ hfd hleaving _ _ _ =>
    obtain ⟨rfl, -⟩ := h.reading hfd
    exact absurd hleaving.replaced not_replaced

/-- the largest file -/
theorem bounded_leads (h : Inv settings f w) (kern : Kernel) :
    Bounded (Leads f) (w.sys kern) (kern.final w.disk.files f).size := by
  intro id hid
  obtain rfl : id = f := by
    rcases hid with hfd | ⟨node, hnode, rfl⟩
    · exact (h.reading hfd).1
    · exact (leads_regular hnode).1
  exact le_rfl

/-- how a call of `ReadLine` ends -/
theorem readLine_spec (h : Inv settings f w) {kern : Kernel} (tNow : ℤ) (rounds : ℕ) (hk : kern.Appends (Leads f))
    (hr : kern.Reliable) :
    wp (FrM.readLine tNow rounds) (CallEnds (Leads f) (w.sys kern))
      (CallKilled (Leads f) (kern.final w.disk.files f).size (w.sys kern) rounds) (w.sys kern) := by
  have hready := h.ready hk hr
  unfold FrM.readLine
  rw [wp_bind, wp_get, if_neg (by rw [hready.opened]; simp)]
  exact readLoop_spec tNow rounds _ hready (bounded_leads h kern)

theorem inv_readLine (h : Inv settings f w) (hwait : settings.incompleteSec = 0) {kern : Kernel} (tNow : ℤ) (rounds : ℕ)
    (hk : kern.Appends (Leads f)) (hr : kern.Reliable) : Inv settings f (w.step (.readLine tNow rounds kern)) := by
  have hspec := readLine_spec h tNow rounds hk hr
  cases hres : FrM.readLine tNow rounds (w.sys kern) with
  | done line s' =>
    rw [wp_of_done hres] at hspec
    rw [step_readLine_done hres]
    exact inv_outcome h hwait hspec
  | crash s' =>
    rw [wp_of_crash hres] at hspec
    rw [step_readLine_crash hres]
    exact inv_killed h hspec.1 hspec.2.1

theorem inv_commit (h : Inv settings f w) {generation endOffset : ℕ} {kern : Kernel} (hk : kern.Appends (Leads f))
    (hr : kern.Reliable) (hret : w.Returned generation endOffset) :
    Inv settings f (w.step (.commit generation endOffset kern)) := by
  obtain ⟨g, hg, hgen, -⟩ := hret
  -- a line was returned, so the file is open
  obtain ⟨base, hread⟩ : ∃ base, w.Reading f base := by
    rcases h.process with hw | hread
    · rw [hw.life] at hg
      exact absurd hg List.not_mem_nil
    · exact hread
  have hgen' : generation = w.reader.generation := hgen ▸ hread.generations g hg
  have hclosed : w.reader.fd = none → w.reader.bufferStart = 0 := fun hfd => by cases hread.on.fd.symm.trans hfd
  have hspec : wp (FrM.commit generation endOffset)
      (fun ok s' => Inv settings f { w with
        disk := s'.disk, reader := s'.reader, log := s'.log, life := w.life.commit generation endOffset ok })
      (fun s' => Inv settings f (w.restart s'.disk)) (w.sys kern) := by
    refine wp_commit (h.ready hk hr) hclosed (fun b l hb => ?_) (fun id d k hon _ hlt hle hl hon' => ?_)
      (fun d r l k hcr hl hs => inv_killed h hl (Or.inl hs))
    · cases b with
      | false =>
        exact ⟨h.path, h.settings, h.saved, h.commits, Or.inr ⟨base, hread.on, hread.opened, hread.generations,
          hread.lines, hread.resume, hread.base⟩⟩
      | true =>
        have hold : endOffset ≤ w.reader.committed := hb rfl hgen'
        have hresume : resume (w.earlier ++ [w.life.commit generation endOffset true]) = some w.reader.committed := by
          have := resume_commit (g := generation) (e := endOffset) hread.resume
          rwa [max_eq_left hold] at this
        refine ⟨h.path, h.settings, Or.inr ⟨_, hread.on.saved, fun p hp => ?_⟩, h.commits, Or.inr ⟨base, hread.on,
          hread.opened, hread.generations, hread.lines, hresume, hread.base⟩⟩
        exact Option.some.inj (hp.symm.trans hresume)
    · obtain rfl : f = id := Option.some.inj (hread.on.fd.symm.trans hon.fd)
      have hresume : resume (w.earlier ++ [w.life.commit generation endOffset true]) = some endOffset := by
        have := resume_commit (g := generation) (e := endOffset) hread.resume
        rwa [max_eq_right (show w.reader.committed ≤ endOffset from hlt.le)] at this
      refine ⟨hl.calm.path, h.settings, Or.inr ⟨_, hon'.saved, fun p hp => ?_⟩, h.commits, Or.inr ⟨base, hon',
        hread.opened, hread.generations, fun c hc => ?_, hresume, hread.base⟩⟩
      · exact Option.some.inj (hp.symm.trans hresume)
      · exact hread.lines c ((hl.files f).trans hc)
  cases hres : FrM.commit generation endOffset (w.sys kern) with
  | done ok s' =>
    rw [wp_of_done hres] at hspec
    rw [step_commit_done hres]
    exact hspec
  | crash s' =>
    rw [wp_of_crash hres] at hspec
    rw [step_commit_crash hres]
    exact hspec

theorem inv_others (h : Inv settings f w) {changes : List Change} (hmild : ∀ ch ∈ changes, ch.Mild (Leads f)) :
    Inv settings f (w.step (.others changes)) := by
  have hl := later_others hmild h.path
  have hs := (Disk.applyAll_state changes w.disk).1
  refine ⟨hl.calm.path, h.settings, ?_, h.commits, ?_⟩
  · rcases h.saved with ⟨hno, hres⟩ | ⟨o, ho, hres⟩
    · exact Or.inl ⟨hs.trans hno, hres⟩
    · exact Or.inr ⟨o, ho.mono hl hs, hres⟩
  · rcases h.process with hw | ⟨base, hread⟩
    · exact Or.inl ⟨hw.reader, hw.life⟩
    · exact Or.inr ⟨base, hread.on.mono hl hs, hread.opened, hread.generations,
        fun c hc => hread.lines c ((hl.files f).trans hc), hread.resume, hread.base⟩

theorem step_inv (hwait : settings.incompleteSec = 0) (w : World) (op : Op) (hg : Growing f w op)
    (h : Inv settings f w) : Inv settings f (w.step op) := by
  cases op with
  | others changes => exact inv_others h hg
  | readLine tNow rounds kern => exact inv_readLine h hwait tNow rounds hg.1 hg.2
  | commit generation endOffset kern => exact inv_commit h hg.1 hg.2.1 hg.2.2
  | restart => exact inv_restart h h.path h.saved

end World

/-! ## The lines of a run -/

open World

/-- **A file which only grows.** In every process the returned lines are the first lines of the file from the place
where it was opened, and a call which returns none has returned them all. A process continues at the highest position
for which `Commit` returned true before. -/
theorem growing_file {settings : Settings} (hwait : settings.incompleteSec = 0) (f : FileId) (files : FileId → File)
    (ops : List Op) (hg : Guarded step (Growing f) (start settings (some ⟨f, true⟩) files) ops) :
    let w := (start settings (some ⟨f, true⟩) files).run ops
    (∀ o ∈ w.life.opened,
      w.life.given.map Given.item <+: linesFrom settings.maxLineLength (w.content f) o.offset ∧
      ∀ p, resume w.earlier = some p → o.offset = p) ∧
    ∀ (tNow : ℤ) (kern : Kernel), kern.Appends (Leads f) → kern.Quiet → ∃ enough, ∀ rounds, enough ≤ rounds →
      ∃ line s, FrM.readLine tNow rounds (w.sys kern) = .done line s ∧
        (line = none → ∃ o c, (w.step (.readLine tNow rounds kern)).life.opened = [o] ∧
          w.content f <+: c ∧ c <+: (s.disk.files f).bytes ∧
          (w.step (.readLine tNow rounds kern)).life.given.map Given.item =
            linesFrom settings.maxLineLength c o.offset) := by
  intro w
  have h : Inv settings f w := hg.inv (fun w op => step_inv hwait w op) (inv_start files)
  refine ⟨fun o ho => ?_, fun tNow kern hk hq => ?_⟩
  · rcases h.process with hw | ⟨base, hread⟩
    · rw [hw.life] at ho
      exact absurd ho List.not_mem_nil
    · rw [hread.opened, List.mem_singleton] at ho
      subst ho
      refine ⟨?_, hread.base⟩
      have hlines := hread.lines _ (List.prefix_refl _)
      rw [h.settings] at hlines
      rw [hlines]
      exact List.prefix_append _ _
  · refine ⟨need (kern.final w.disk.files f).size w.reader + 1, fun rounds hrounds => ?_⟩
    have hspec := readLine_spec h tNow rounds hk hq.reliable
    cases hres : FrM.readLine tNow rounds (w.sys kern) with
    | crash s' =>
      -- the rounds are enough
      rw [wp_of_crash hres] at hspec
      have hle : rounds ≤ need (kern.final w.disk.files f).size w.reader := hspec.2.2 hq.alive
      omega
    | done line s' =>
      refine ⟨line, s', rfl, ?_⟩
      rintro rfl
      rw [wp_of_done hres] at hspec
      rw [step_readLine_done hres]
      exact drained h hq hspec

/-- the kernel on which nothing fails and nobody else works -/
theorem quiet_default : ({} : Kernel).Quiet := ⟨fun _ _ => List.not_mem_nil, rfl⟩

theorem appends_default (P : Option Node → Prop) : ({} : Kernel).Appends P := fun _ h => absurd h List.not_mem_nil

theorem mild_append (P : Option Node → Prop) (id : FileId) (bytes : Bytes) :
    ∀ ch ∈ [Change.append id bytes], ch.Mild P := by
  intro ch hch
  rw [List.mem_singleton.1 hch]
  trivial

section Runs

/-- at most 4 bytes of a line are returned -/
def shortLines : Settings := { maxLineLength := 4, maxLineLength_pos := by decide }

/-- a line is committed, the process is started again, and the next line is too long -/
def commitAndRestart : List Op :=
  [.others [.append ⟨1, 7⟩ (ascii "a\r\nbcdefg\nh")], .readLine 0 9 {}, .commit 1 3 {}, .restart, .readLine 0 9 {},
    .others [.append ⟨1, 7⟩ (ascii "i\n")], .readLine 0 9 {}]

theorem growing_file_restart :
    ((start shortLines (some ⟨⟨1, 7⟩, true⟩) fun _ =>
      Wal.File.empty).run commitAndRestart).life.given.map Given.item <+:
      linesFrom shortLines.maxLineLength
        (((start shortLines (some ⟨⟨1, 7⟩, true⟩) fun _ => Wal.File.empty).run commitAndRestart).content ⟨1, 7⟩) 3 := by
  have hk := appends_default (Leads ⟨1, 7⟩)
  have hr := quiet_default.reliable
  have hwait : shortLines.incompleteSec = 0 := rfl
  have hg : Guarded step (Growing ⟨1, 7⟩) (start shortLines (some ⟨⟨1, 7⟩, true⟩) fun _ => Wal.File.empty)
      commitAndRestart := by
    refine ⟨mild_append _ _ _, ⟨hk, hr⟩, ⟨hk, hr, ?_⟩, trivial, ⟨hk, hr⟩, mild_append _ _ _, ⟨hk, hr⟩, trivial⟩
    unfold World.Returned
    decide +kernel
  have hrun := growing_file hwait ⟨1, 7⟩ (fun _ => Wal.File.empty) commitAndRestart hg
  exact (hrun.1 ⟨⟨1, 7⟩, 3, 1⟩ (by decide +kernel)).1

/-- the position of the last `Commit` which returned true for a line which was not cut -/
def lastCommit (lives : List Life) : Option ℕ :=
  (lives.flatMap fun l => l.commits.filter fun c => l.given.any fun g =>
    g.line.generation = c.1 && g.line.endOffset = c.2 && !g.line.truncated).getLast?.map Prod.snd

/-- a process does not go back to the last `Commit`: a position before the highest one is ignored, and `Commit` returns
true -/
theorem resume_not_last : ¬ ∀ (settings : Settings) (f : FileId) (files : FileId → File) (ops : List Op),
    settings.incompleteSec = 0 → Guarded step (Growing f) (start settings (some ⟨f, true⟩) files) ops →
    ∀ o ∈ ((start settings (some ⟨f, true⟩) files).run ops).life.opened,
      ∀ p, lastCommit ((start settings (some ⟨f, true⟩) files).run ops).earlier = some p → o.offset = p := by
  intro h
  have hk := appends_default (Leads ⟨1, 7⟩)
  have hr := quiet_default.reliable
  have hwait : shortLines.incompleteSec = 0 := rfl
  let ops : List Op := [.others [.append ⟨1, 7⟩ (ascii "a\nb\n")], .readLine 0 9 {}, .readLine 0 9 {}, .commit 1 4 {},
    .commit 1 2 {}, .restart, .readLine 0 9 {}]
  have hg : Guarded step (Growing ⟨1, 7⟩) (start shortLines (some ⟨⟨1, 7⟩, true⟩) fun _ => Wal.File.empty) ops := by
    refine ⟨mild_append _ _ _, ⟨hk, hr⟩, ⟨hk, hr⟩, ⟨hk, hr, ?_⟩, ⟨hk, hr, ?_⟩, trivial, ⟨hk, hr⟩, trivial⟩ <;>
      · unfold World.Returned
        decide +kernel
  have heq := h shortLines ⟨1, 7⟩ (fun _ => Wal.File.empty) ops hwait hg ⟨⟨1, 7⟩, 4, 1⟩ (by decide +kernel) 2
    (by decide +kernel)
  exact absurd heq (by decide)

end Runs

end DominoLogForwarder.FileReader
