/-
The names of processes (`otelfwd.cpp`). `GetProcessName` looks a process up in a map. A process which is not there makes
`LoadPidMap` read the file `pid.nbf` of the Domino server again, but only if `stat` tells that the file has changed.

`NbfFile` is what the file system answers during a call. The path of the file is always set.

`getProcessNames_plain`: the answers are those of a lookup which reads the file every time when a process is not known
(`plainName`), so the look at `stat` spares work and nothing else.
-/
import DominoLogForwarder.Otelfwd.Ingest
import DominoLogForwarder.Otlp.Convert

namespace DominoLogForwarder.Otelfwd

open FileReader (Bytes ascii isSpace)
open Otlp (cString strtoll)

/-! ## The file -/

/-- what `HasFileChanged` looks at. A time is seconds and nanoseconds -/
structure FileStat where
  ino : ℕ := 0
  size : ℕ := 0
  mtime : ℤ × ℕ := (0, 0)
  ctime : ℤ × ℕ := (0, 0)
deriving DecidableEq, Repr

structure NbfFile where
  /-- `none`: `stat` failed -/
  stat : Option FileStat
  /-- `none`: the stream is not open -/
  content : Option Bytes
deriving DecidableEq, Repr

/-- `HasFileChanged`. The inode is 0 as long as the file was not looked at -/
def hasFileChanged (last : FileStat) : Option FileStat → Bool × FileStat
  | none => (false, last)
  | some current =>
    (decide (last.ino = 0) || decide (current.ino ≠ last.ino) || decide (current.size ≠ last.size) ||
      decide (current.mtime ≠ last.mtime) || decide (current.ctime ≠ last.ctime), current)

/-- the next word of a stream, and what follows it -/
def nextWord (text : Bytes) : Bytes × Bytes :=
  ((text.dropWhile isSpace).takeWhile fun b => !isSpace b, (text.dropWhile isSpace).dropWhile fun b => !isSpace b)

/-- `ParsePid`. The cast to `pid_t` takes the low 32 bits -/
def parsePid (text : Bytes) : Option Int32 :=
  let read := strtoll (cString text)
  if read.outOfRange ∨ read.rest = cString text ∨ read.rest ≠ [] then none
  else if read.number < 0 then none
  else some (Int32.ofInt read.number)

/-- a line of the file: the second word is the process, the fourth one its name -/
def nbfEntry (line : Bytes) : Option (Int32 × Bytes) :=
  let (_, line) := nextWord line
  let (pidText, line) := nextWord line
  let (_, line) := nextWord line
  let (processName, _) := nextWord line
  if processName = [] then none else (parsePid pidText).map fun pid => (pid, processName)

/-- the lines of a file which name a process, the last one first -/
def nbfEntries (content : Bytes) : List (Int32 × Bytes) := ((streamLines content true).filterMap nbfEntry).reverse

/-! ## The map -/

structure PidMap where
  /-- the newest entry of a process comes first -/
  names : List (Int32 × Bytes) := []
  /-- `g_PidNbfStat` -/
  stat : FileStat := {}
deriving DecidableEq, Repr

namespace PidMap

/-- `GetProcessNameFromMap` -/
def find (pidMap : PidMap) (pid : Int32) : Option Bytes := pidMap.names.lookup pid

/-- `LoadPidMap` -/
def load (pidMap : PidMap) (file : NbfFile) : Bool × PidMap :=
  match hasFileChanged pidMap.stat file.stat with
  | (false, stat) => (false, { pidMap with stat := stat })
  | (true, stat) =>
    match file.content with
    | none => (false, { pidMap with stat := stat })
    | some content => (true, { names := nbfEntries content ++ pidMap.names, stat := stat })

/-- `GetProcessName` -/
def getProcessName (pidMap : PidMap) (file : NbfFile) (pid : Int32) : Bytes × PidMap :=
  match pidMap.find pid with
  | some name => (name, pidMap)
  | none =>
    match pidMap.load file with
    | (false, pidMap) => ([], pidMap)
    | (true, pidMap) => ((pidMap.find pid).getD [], pidMap)

/-- one lookup after the other, each with the file as it is then -/
def getProcessNames (pidMap : PidMap) : List (NbfFile × Int32) → List Bytes × PidMap
  | [] => ([], pidMap)
  | (file, pid) :: lookups =>
    let (name, pidMap) := pidMap.getProcessName file pid
    let (names, pidMap) := pidMap.getProcessNames lookups
    (name :: names, pidMap)

end PidMap

/-! ## The plain lookup -/

/-- the file is read whenever a process is not known -/
def plainName (names : List (Int32 × Bytes)) (content : Option Bytes) (pid : Int32) : Bytes × List (Int32 × Bytes) :=
  match names.lookup pid with
  | some name => (name, names)
  | none =>
    let names := (content.elim [] nbfEntries) ++ names
    ((names.lookup pid).getD [], names)

def plainNames (names : List (Int32 × Bytes)) : List (Option Bytes × Int32) → List Bytes
  | [] => []
  | (content, pid) :: lookups =>
    let (name, names) := plainName names content pid
    name :: plainNames names lookups

/-- a file which is there can be opened, and `stat` tells one content from another -/
def Told (contents : FileStat → Bytes) (file : NbfFile) : Prop :=
  file.content = file.stat.map contents

/-- the answers of two maps are the same -/
def SameNames (names names' : List (Int32 × Bytes)) : Prop := ∀ pid, names.lookup pid = names'.lookup pid

theorem SameNames.append {names names' : List (Int32 × Bytes)} (h : SameNames names names')
    (entries : List (Int32 × Bytes)) : SameNames (entries ++ names) (entries ++ names') := by
  intro pid
  rw [List.lookup_append, List.lookup_append, h pid]

/-- entries which are there already change nothing -/
theorem SameNames.again {names names' entries : List (Int32 × Bytes)} (h : SameNames names (entries ++ names')) :
    SameNames names (entries ++ names) := by
  intro pid
  rw [List.lookup_append, h pid, List.lookup_append]
  cases entries.lookup pid <;> rfl

theorem SameNames.trans {names names' names'' : List (Int32 × Bytes)} (h : SameNames names names')
    (h' : SameNames names' names'') : SameNames names names'' := fun pid => (h pid).trans (h' pid)

/-- without a change the file is the one which was read last -/
theorem eq_of_not_changed {last current stat : FileStat} (h : hasFileChanged last (some current) = (false, stat)) :
    last.ino ≠ 0 ∧ current = last ∧ stat = current := by
  unfold hasFileChanged at h
  simp only [Prod.mk.injEq, Bool.or_eq_false_iff, decide_eq_false_iff_not, not_not] at h
  obtain ⟨⟨⟨⟨⟨hino, hsame⟩, hsize⟩, hmtime⟩, hctime⟩, hstat⟩ := h
  refine ⟨hino, ?_, hstat.symm⟩
  cases last
  cases current
  simp_all

namespace PidMap

variable {contents : FileStat → Bytes} {pidMap : PidMap} {names : List (Int32 × Bytes)}

/-- the map has what was read, and the file which was read last changes nothing in it -/
structure Agrees (contents : FileStat → Bytes) (pidMap : PidMap) (names : List (Int32 × Bytes)) : Prop where
  same : SameNames pidMap.names names
  loaded : pidMap.stat.ino ≠ 0 → SameNames pidMap.names (nbfEntries (contents pidMap.stat) ++ pidMap.names)

theorem Agrees.getProcessName (h : Agrees contents pidMap names) {file : NbfFile} (hfile : Told contents file)
    (pid : Int32) : (pidMap.getProcessName file pid).1 = (plainName names file.content pid).1 ∧
      Agrees contents (pidMap.getProcessName file pid).2 (plainName names file.content pid).2 := by
  have hfind : pidMap.find pid = names.lookup pid := h.same pid
  unfold PidMap.getProcessName plainName
  rw [hfind]
  cases hknown : names.lookup pid with
  | some name => exact ⟨rfl, h⟩
  | none =>
    dsimp only
    unfold Told at hfile
    unfold load
    cases hstat : file.stat with
    | none =>
      -- there is no file
      rw [hstat] at hfile
      rw [hfile]
      simp only [hasFileChanged, Option.map_none, Option.elim_none, List.nil_append, hknown, Option.getD_none]
      exact ⟨trivial, h⟩
    | some current =>
      rw [hstat, Option.map_some] at hfile
      rw [hfile]
      rcases hchanged : hasFileChanged pidMap.stat (some current) with ⟨changed, stat⟩
      cases changed with
      | false =>
        -- what the file holds was read before
        obtain ⟨hino, rfl, rfl⟩ := eq_of_not_changed hchanged
        have hagain := h.loaded hino
        have hsame : SameNames pidMap.names (nbfEntries (contents pidMap.stat) ++ names) :=
          hagain.trans (h.same.append _)
        refine ⟨?_, hsame, fun _ => hagain⟩
        have hnone : (nbfEntries (contents pidMap.stat) ++ names).lookup pid = none := by
          rw [← hsame pid, h.same pid, hknown]
        simp only [Option.elim_some, hnone, Option.getD_none]
      | true =>
        have hstat' : stat = current := by
          unfold hasFileChanged at hchanged
          exact (Prod.mk.inj hchanged).2.symm
        subst hstat'
        have hsame := h.same.append (nbfEntries (contents stat))
        refine ⟨?_, hsame, fun _ => SameNames.again (fun _ => rfl)⟩
        exact congrArg (Option.getD · []) (hsame pid)

/-- the answers are those of the plain lookup -/
theorem Agrees.getProcessNames (h : Agrees contents pidMap names) {lookups : List (NbfFile × Int32)}
    (hfile : ∀ l ∈ lookups, Told contents l.1) : (pidMap.getProcessNames lookups).1 =
      plainNames names (lookups.map fun l => (l.1.content, l.2)) := by
  induction lookups generalizing pidMap names with
  | nil => rfl
  | cons l lookups ih =>
    obtain ⟨hl, hlookups⟩ := List.forall_mem_cons.1 hfile
    obtain ⟨hname, hnext⟩ := h.getProcessName hl l.2
    have hrest := ih hnext hlookups
    calc (pidMap.getProcessNames (l :: lookups)).1
        = (pidMap.getProcessName l.1 l.2).1 :: ((pidMap.getProcessName l.1 l.2).2.getProcessNames lookups).1 := rfl
      _ = _ := by rw [hname, hrest]; rfl

end PidMap

theorem nbfEntries_named {content : Bytes} : ∀ e ∈ nbfEntries content, e.2 ≠ [] := by
  intro e he
  unfold nbfEntries at he
  obtain ⟨line, -, hline⟩ := List.mem_filterMap.1 (List.mem_reverse.1 he)
  unfold nbfEntry at hline
  dsimp only at hline
  split_ifs at hline with hname
  obtain ⟨pid, -, rfl⟩ := Option.map_eq_some_iff.1 hline
  exact hname

/-- a process without a name does not stand in the file -/
theorem plainName_nil {names : List (Int32 × Bytes)} (hnames : ∀ e ∈ names, e.2 ≠ []) {content : Option Bytes}
    {pid : Int32} (h : (plainName names content pid).1 = []) :
    ∀ text ∈ content, ∀ e ∈ nbfEntries text, e.1 ≠ pid := by
  have hnamed : ∀ {names : List (Int32 × Bytes)} {name : Bytes}, (∀ e ∈ names, e.2 ≠ []) →
      names.lookup pid = some name → name ≠ [] := by
    intro names name hall hlookup
    obtain ⟨before, after, rfl, -⟩ := List.lookup_eq_some_iff.1 hlookup
    exact hall (pid, name) (List.mem_append_right _ List.mem_cons_self)
  unfold plainName at h
  cases hknown : names.lookup pid with
  | some name =>
    rw [hknown] at h
    exact absurd h (hnamed hnames hknown)
  | none =>
    rw [hknown] at h
    intro text htext e he heq
    obtain rfl := Option.mem_def.1 htext
    dsimp only [Option.elim_some] at h
    have hmem : ((nbfEntries text ++ names).lookup pid) ≠ none := by
      intro hnone
      rw [List.lookup_eq_none_iff] at hnone
      have hne := hnone e (List.mem_append_left _ he)
      simp [heq] at hne
    obtain ⟨name, hname⟩ := Option.ne_none_iff_exists'.1 hmem
    rw [hname, Option.getD_some] at h
    exact hnamed (List.forall_mem_append.2 ⟨nbfEntries_named, hnames⟩) hname h

theorem plainName_named {names : List (Int32 × Bytes)} (hnames : ∀ e ∈ names, e.2 ≠ []) (content : Option Bytes)
    (pid : Int32) : ∀ e ∈ (plainName names content pid).2, e.2 ≠ [] := by
  unfold plainName
  cases names.lookup pid with
  | some name => exact hnames
  | none =>
    cases content with
    | none => exact hnames
    | some text => exact List.forall_mem_append.2 ⟨nbfEntries_named, hnames⟩

/-- without a name, the process does not stand in the file -/
def Unlisted (lookup : Option Bytes × Int32) (name : Bytes) : Prop :=
  name = [] → ∀ text ∈ lookup.1, ∀ e ∈ nbfEntries text, e.1 ≠ lookup.2

theorem plainNames_unlisted {names : List (Int32 × Bytes)} (hnames : ∀ e ∈ names, e.2 ≠ [])
    (lookups : List (Option Bytes × Int32)) : List.Forall₂ Unlisted lookups (plainNames names lookups) := by
  induction lookups generalizing names with
  | nil => exact .nil
  | cons l lookups ih =>
    exact .cons (fun h => plainName_nil hnames h) (ih (plainName_named hnames l.1 l.2))

/-- **A look at `stat` is as good as a look at the file.** The names are those of a lookup which reads the file
whenever a process is not known, and a process without a name does not stand in the file. A file which is there can be
opened, and `stat` tells one content from another. -/
theorem getProcessNames_plain (contents : FileStat → Bytes) (lookups : List (NbfFile × Int32))
    (htold : ∀ l ∈ lookups, Told contents l.1) :
    (PidMap.getProcessNames {} lookups).1 = plainNames [] (lookups.map fun l => (l.1.content, l.2)) ∧
      List.Forall₂ Unlisted (lookups.map fun l => (l.1.content, l.2)) (PidMap.getProcessNames {} lookups).1 := by
  have hagrees : PidMap.Agrees contents {} [] := ⟨fun _ => rfl, fun h => absurd rfl h⟩
  rw [hagrees.getProcessNames htold]
  exact ⟨rfl, plainNames_unlisted (fun _ h => absurd h List.not_mem_nil) _⟩

/-! ## A file which changes -/

/-- two versions of a file. The second one has a new process -/
def nbfContents (stat : FileStat) : Bytes :=
  if stat.ino = 1 then ascii "1 4711 1 nserver\n" else ascii "1 4711 1 nserver\n1 4712 4711 router"

def nbfFile (ino : ℕ) : NbfFile :=
  ⟨some { ino := ino }, some (nbfContents { ino := ino })⟩

/-- the file is not there at first. The process 4712 is in the second version only -/
def nbfLookups : List (NbfFile × Int32) :=
  [(⟨none, none⟩, 4711), (nbfFile 1, 4711), (nbfFile 1, 4712), (nbfFile 1, 4712), (nbfFile 2, 4712), (nbfFile 2, 4711)]

theorem getProcessNames_plain_router :
    (PidMap.getProcessNames {} nbfLookups).1 =
      [[], ascii "nserver", [], [], ascii "router", ascii "nserver"] ∧
    (PidMap.getProcessNames {} nbfLookups).1 = plainNames [] (nbfLookups.map fun l => (l.1.content, l.2)) := by
  refine ⟨by decide +kernel, (getProcessNames_plain nbfContents nbfLookups ?_).1⟩
  unfold nbfLookups
  simp only [List.forall_mem_cons]
  exact ⟨rfl, rfl, rfl, rfl, rfl, rfl, List.forall_mem_nil _⟩

end DominoLogForwarder.Otelfwd
