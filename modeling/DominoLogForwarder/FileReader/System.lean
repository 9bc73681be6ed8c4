/-
Runs of a program which follows a file: other programs change the files, the reader returns lines and commits positions,
and the process ends at any point and is started again.

`Life` is what one process did, `World.earlier` are the processes before. The history is not part of the code: it
records what a call of `ReadLine` returned, and for which positions `Commit` returned true.
-/
import DominoLogForwarder.FileReader.ReadSpec

namespace DominoLogForwarder.FileReader

open CrashProg
open Wal (File)

/-! ## The history -/

/-- a file was opened, or started again -/
structure Opened where
  file : FileId
  offset : ℕ
  generation : ℕ
deriving DecidableEq, Repr

/-- a line which `ReadLine` returned, with the place it was read from -/
structure Given where
  file : FileId
  start : ℕ
  line : Line
  /-- it was one of the lines of the file, from the place where the process opened it. The reader also returns pieces of
  lines: at the end of a file which was rotated, and of a line which did not grow for a while -/
  whole : Bool
deriving DecidableEq, Repr

def Given.item (g : Given) : Item := Item.of g.start g.line

structure Life where
  opened : List Opened := []
  given : List Given := []
  /-- the generations and positions for which `Commit` returned true -/
  commits : List (ℕ × ℕ) := []
deriving DecidableEq, Repr

/-- the line `line` of the file was read from the position `start` on -/
def Life.give (life : Life) (settings : Settings) (file : FileId) (content : Bytes) (start : ℕ)
    (line : Line) : Given where
  file := file
  start := start
  line := line
  whole := life.opened.getLast?.any fun o =>
    decide (Item.of start line ∈ linesFrom settings.maxLineLength content o.offset)

/-- what a call of `ReadLine` added. `before` is the reader before the call, `s` the machine behind it -/
def Life.read (life : Life) (before : Reader) (line : Option Line) (s : Sys) : Life :=
  let r := s.reader
  let content := (s.disk.files r.file).bytes
  if before.generation = r.generation then
    let start := before.lineStart content
    { life with given := life.given ++ line.toList.map (life.give r.settings r.file content start) }
  else
    let life : Life := { life with opened := life.opened ++ [(⟨r.file, r.committed, r.generation⟩ : Opened)] }
    { life with given := life.given ++ line.toList.map (life.give r.settings r.file content r.committed) }

/-- a line of the generation which was read before -/
theorem Life.read_on (life : Life) (line : Option Line) {before : Reader} {s : Sys}
    (hgen : s.reader.generation = before.generation) :
    (life.read before line s).opened = life.opened ∧
      (life.read before line s).given.map Given.line = life.given.map Given.line ++ line.toList := by
  unfold Life.read
  rw [if_pos hgen.symm]
  refine ⟨rfl, ?_⟩
  cases line <;> simp [Life.give]

/-- a new generation, and its first line -/
theorem Life.read_new (life : Life) (line : Option Line) {before : Reader} {s : Sys}
    (hgen : s.reader.generation ≠ before.generation) :
    (life.read before line s).opened =
        life.opened ++ [⟨s.reader.file, s.reader.committed, s.reader.generation⟩] ∧
      (life.read before line s).given.map Given.line = life.given.map Given.line ++ line.toList := by
  unfold Life.read
  rw [if_neg fun h => hgen h.symm]
  refine ⟨rfl, ?_⟩
  cases line <;> simp [Life.give]

def Life.commit (life : Life) (generation endOffset : ℕ) (ok : Bool) : Life :=
  if ok then { life with commits := life.commits ++ [(generation, endOffset)] } else life

theorem Life.commit_given (life : Life) (generation endOffset : ℕ) (ok : Bool) :
    (life.commit generation endOffset ok).given = life.given ∧
      (life.commit generation endOffset ok).opened = life.opened := by
  unfold Life.commit
  split_ifs <;> exact ⟨rfl, rfl⟩

/-! ## Runs -/

structure World where
  disk : Disk
  reader : Reader
  log : List Message := []
  life : Life := {}
  /-- the processes before this one, oldest first -/
  earlier : List Life := []

inductive Op where
  /-- what other programs do between the calls -/
  | others (changes : List Change)
  | readLine (tNow : ℤ) (rounds : ℕ) (kern : Kernel)
  | commit (generation endOffset : ℕ) (kern : Kernel)
  /-- the process ends, and a new one is started -/
  | restart

namespace World

/-- there is no state file -/
def start (settings : Settings) (path : Option Node) (files : FileId → File) : World where
  disk := { path := path, files := files }
  reader := .ready settings

def sys (w : World) (kern : Kernel) : Sys := ⟨w.disk, w.reader, w.log, kern⟩

/-- a new process with the files which the old one left -/
def restart (w : World) (disk : Disk) : World where
  disk := disk
  reader := .ready w.reader.settings
  log := w.log
  earlier := w.earlier ++ [w.life]

def step (w : World) : Op → World
  | .others changes => { w with disk := w.disk.applyAll changes }
  | .readLine tNow rounds kern =>
    match FrM.readLine tNow rounds (w.sys kern) with
    | .done line s => { w with disk := s.disk, reader := s.reader, log := s.log, life := w.life.read w.reader line s }
    | .crash s => w.restart s.disk
  | .commit generation endOffset kern =>
    match FrM.commit generation endOffset (w.sys kern) with
    | .done ok s =>
      { w with disk := s.disk, reader := s.reader, log := s.log, life := w.life.commit generation endOffset ok }
    | .crash s => w.restart s.disk
  | .restart => w.restart w.disk

def run (w : World) (ops : List Op) : World := ops.foldl step w

section

variable {w : World} {kern : Kernel} {s : Sys}

theorem step_readLine_done {tNow : ℤ} {rounds : ℕ} {line : Option Line}
    (h : FrM.readLine tNow rounds (w.sys kern) = .done line s) : w.step (.readLine tNow rounds kern) =
      { w with disk := s.disk, reader := s.reader, log := s.log, life := w.life.read w.reader line s } := by
  simp only [step, h]

theorem step_readLine_crash {tNow : ℤ} {rounds : ℕ} (h : FrM.readLine tNow rounds (w.sys kern) = .crash s) :
    w.step (.readLine tNow rounds kern) = w.restart s.disk := by
  simp only [step, h]

theorem step_commit_done {generation endOffset : ℕ} {ok : Bool}
    (h : FrM.commit generation endOffset (w.sys kern) = .done ok s) : w.step (.commit generation endOffset kern) =
      { w with
        disk := s.disk, reader := s.reader, log := s.log, life := w.life.commit generation endOffset ok } := by
  simp only [step, h]

theorem step_commit_crash {generation endOffset : ℕ}
    (h : FrM.commit generation endOffset (w.sys kern) = .crash s) :
    w.step (.commit generation endOffset kern) = w.restart s.disk := by
  simp only [step, h]

end

def content (w : World) (id : FileId) : Bytes := (w.disk.files id).bytes

end World

end DominoLogForwarder.FileReader
