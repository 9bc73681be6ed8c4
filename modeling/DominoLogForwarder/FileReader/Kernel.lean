/-
The files around a `FileReader` (`filereader/file_reader.cpp`), its members, and the system calls it makes.

Other programs work on the same files: they append to them, write them again, rename them and create new ones. What they
do (`Change`) happens between the calls of the reader's functions, and also inside of these before any system call
(`others`). Every system call asks an oracle how it ends (`Fault`), and the process can be killed before it (`crashIn`).

What is kept of the system:
- a descriptor leads to its file also when the path leads to another one;
- `pread` returns what there is, fewer bytes than asked mean the end of the file. `FillBuffer` takes any number of
  bytes;
- `rename` replaces the state file at once. The process dies, not the machine: a flush changes nothing here;
- calls which are interrupted (EINTR) are made again and count as one.
-/
import DominoLogForwarder.Lib.CrashProg
import DominoLogForwarder.Lib.Lines
import DominoLogForwarder.Wal.Kernel

namespace DominoLogForwarder.FileReader

open CrashProg Lines
open Wal (File)

abbrev Bytes : Type := List UInt8

/-- the new line -/
def nl : UInt8 := 10

/-- the carriage return -/
def cr : UInt8 := 13

/-! ## Files -/

/-- what identifies a file: `st_dev` and `st_ino` -/
structure FileId where
  device : UInt64
  inode : UInt64
deriving DecidableEq, Repr

/-- what a path leads to -/
structure Node where
  file : FileId
  /-- `S_ISREG` -/
  regular : Bool
deriving DecidableEq, Repr

structure Disk where
  /-- `m_Path`. None: there is no file (ENOENT) -/
  path : Option Node
  files : FileId → File
  /-- `m_StatePath` -/
  state : Option Bytes := none
  /-- `<state path>.tmp` -/
  temp : Option Bytes := none

/-- what other programs do to the files -/
inductive Change where
  | append (file : FileId) (bytes : Bytes)
  /-- the file is truncated, or written again -/
  | rewrite (file : FileId) (content : File)
  /-- the path leads to something else: a rename, a new file, or no file any more -/
  | path (node : Option Node)

namespace Disk

def setFile (d : Disk) (id : FileId) (f : File) : Disk := { d with files := Function.update d.files id f }

/-- a file which would become too large stays as it is -/
def apply (d : Disk) : Change → Disk
  | .append id bytes => d.setFile id (((d.files id).append? bytes).getD (d.files id))
  | .rewrite id content => d.setFile id content
  | .path node => { d with path := node }

def applyAll (d : Disk) (changes : List Change) : Disk := changes.foldl apply d

end Disk

/-! ## Messages -/

inductive Message where
  | cannotOpen (code : ℕ)
  | cannotStat (code : ℕ)
  | notRegular
  | anotherFile
  | shorter (offset : ℕ)
  | startChanged
  | cannotRead (code : ℕ)
  | truncated
  | writtenAgain
  | behindTheLines (endOffset bufferStart : ℕ)
  | cannotOpenState (code : ℕ)
  | stateCannotBeRead
  | stateTooLarge
  | stateDamaged (name : Bytes)
  | stateVersion (number : ℕ)
  | stateIncomplete
  | cannotSave (code : ℕ)
deriving DecidableEq, Repr

/-- the line of a message. `strerror` is the C library's -/
def Message.text (path statePath : String) (strerror : ℕ → String) : Message → String
  | .cannotOpen code => "[Error] FileReader: cannot open " ++ path ++ ": " ++ strerror code
  | .cannotStat code => "[Error] FileReader: cannot read the status of " ++ path ++ ": " ++ strerror code
  | .notRegular => "[Error] FileReader: " ++ path ++ " is not a regular file"
  | .anotherFile =>
    "[Warning] FileReader: " ++ path ++ " is another file than the one of the state file (it was replaced while the " ++
      "reader was not running). Reading it from the start"
  | .shorter offset =>
    "[Warning] FileReader: " ++ path ++ " is shorter than the saved position " ++ toString offset ++
      " (it was truncated while the reader was not running). Reading it from the start"
  | .startChanged =>
    "[Warning] FileReader: the start of " ++ path ++ " has changed (it was replaced while the reader was not " ++
      "running). Reading it from the start"
  | .cannotRead code => "[Error] FileReader: cannot read " ++ path ++ ": " ++ strerror code
  | .truncated => "[Warning] FileReader: " ++ path ++ " was truncated. Reading it again from the start"
  | .writtenAgain =>
    "[Warning] FileReader: " ++ path ++ " was written again (its start has changed). Reading it again from the start"
  | .behindTheLines endOffset bufferStart =>
    "[Error] FileReader: the position " ++ toString endOffset ++ " is behind the lines which were read (" ++
      toString bufferStart ++ "). Not saved"
  | .cannotOpenState code =>
    "[Warning] FileReader: cannot read the state file " ++ statePath ++ ": " ++ strerror code ++ ". It is ignored"
  | .stateCannotBeRead =>
    "[Warning] FileReader: the state file " ++ statePath ++ " cannot be used (cannot be read). It is ignored"
  | .stateTooLarge => "[Warning] FileReader: the state file " ++ statePath ++
    " cannot be used (too large). It is ignored"
  | .stateDamaged name =>
    "[Warning] FileReader: the state file " ++ statePath ++ " is damaged (" ++
      String.ofList (name.map fun b => Char.ofNat b.toNat) ++ "). It is ignored"
  | .stateVersion number =>
    "[Warning] FileReader: the state file " ++ statePath ++ " has the version " ++ toString number ++ ". It is ignored"
  | .stateIncomplete => "[Warning] FileReader: the state file " ++ statePath ++ " is incomplete. It is ignored"
  | .cannotSave code => "[Error] FileReader: cannot save the state file " ++ statePath ++ ": " ++ strerror code

/-! ## The object -/

/-- `FILE_READER_DEFAULT_MAX_LINE` -/
def defaultMaxLine : ℕ := 1024 * 1024

/-- `FILE_READER_CHUNK` -/
def chunkSize : ℕ := 64 * 1024

/-- `FILE_READER_HEAD_MAX` -/
def headMax : ℕ := 256

theorem defaultMaxLine_pos : 0 < defaultMaxLine := by decide

structure Settings where
  /-- not 0: `SetMaxLineLength` takes 0 for the default -/
  maxLineLength : ℕ := defaultMaxLine
  startAtEnd : Bool := false
  /-- 0: the reader waits for the new line -/
  incompleteSec : ℕ := 0
  maxLineLength_pos : 0 < maxLineLength := by decide
deriving DecidableEq, Repr

structure Line where
  text : Bytes := []
  generation : ℕ := 0
  endOffset : ℕ := 0
  truncated : Bool := false
deriving DecidableEq, Repr

/-- the members of a `FileReader`. A new object is the default value -/
structure Reader where
  settings : Settings
  opened : Bool := false
  /-- the file was not opened yet: the state file decides where to start -/
  firstOpen : Bool := true
  /-- the file which `m_Fd` leads to -/
  fd : Option FileId := none
  /-- `m_Device` and `m_Inode` -/
  file : FileId := ⟨0, 0⟩
  generation : ℕ := 0
  /-- the first bytes of the file: its fingerprint -/
  head : Bytes := []
  buffer : Bytes := []
  /-- what was read and is not returned yet is the buffer from here on -/
  pos : ℕ := 0
  /-- where this is in the file -/
  bufferStart : ℕ := 0
  /-- there is no new line in that many bytes of what is not returned yet -/
  scanFrom : ℕ := 0
  /-- the rest of a line which was too long is dropped up to the next new line -/
  skipping : Bool := false
  rotationSeen : Bool := false
  incompleteSince : ℤ := 0
  committed : ℕ := 0
  saveFailed : Bool := false
  lastOpenError : ℕ := 0
deriving DecidableEq, Repr

/-- what `Open` leaves behind: a new object with its settings, and two paths which are not empty -/
def Reader.ready (settings : Settings) : Reader := { settings := settings, opened := true }

/-! ## The kernel -/

/-- how a system call ends -/
inductive Fault where
  | ok
  | fail (code : ℕ)
  /-- a read of a chunk or a write which takes only `n + 1` bytes -/
  | short (n : ℕ)
deriving DecidableEq, Repr

/-- the places where the code calls the system -/
inductive Call where
  | openPath
  | fstatOpen
  | openState
  | preadState
  /-- the `ReadAt` of `ResolveStart` -/
  | preadResolve
  /-- the `ReadAt` of `OpenFile` -/
  | preadHead
  | openTemp
  | writeTemp
  | fsyncTemp
  | closeTemp
  | rename
  | unlinkTemp
  | fstatCheck
  /-- the `ReadAt` of `RefreshHead` -/
  | preadRefresh
  /-- the `ReadAt` of `FillBuffer` -/
  | preadFill
  | statPath
deriving DecidableEq, Repr

structure Kernel where
  oracle : Call → List Fault := fun _ => []
  /-- what other programs do before each of the next calls -/
  others : List (List Change) := []
  /-- the process is killed before this many more calls -/
  crashIn : Option ℕ := none

/-- what a member function of `FileReader` works on -/
structure Sys where
  disk : Disk
  reader : Reader
  log : List Message
  kern : Kernel

/-- `ENOENT` -/
def noEntry : ℕ := 2

/-- `EISDIR` -/
def isDirectory : ℕ := 21

abbrev FrM (α : Type) : Type := Prog Sys α

namespace FrM

def setReader (f : Reader → Reader) : FrM Unit := Prog.modify fun s => { s with reader := f s.reader }

def setDisk (f : Disk → Disk) : FrM Unit := Prog.modify fun s => { s with disk := f s.disk }

/-- `Log` -/
def note (m : Message) : FrM Unit := Prog.modify fun s => { s with log := s.log ++ [m] }

/-- the process is killed -/
def killed {α : Type} : FrM α := fun s => .crash s

/-- one call of the system: the process is killed before it, or the others do their part and the oracle says how it
ends -/
def syscall (c : Call) : FrM Fault := fun s =>
  match s.kern.crashIn with
  | some 0 => .crash s
  | n =>
    .done ((s.kern.oracle c).headD .ok)
      { s with
        disk := s.disk.applyAll (s.kern.others.headD [])
        kern :=
          { oracle := Function.update s.kern.oracle c (s.kern.oracle c).tail
            others := s.kern.others.tail
            crashIn := n.map (· - 1) } }

/-- a call which has no other result than its error -/
def attempt (c : Call) : FrM (Except ℕ Unit) := do
  match ← syscall c with
  | .fail code => pure (.error code)
  | _ => pure (.ok ())

/-- `open` of the path -/
def openPath : FrM (Except ℕ Node) := do
  match ← syscall .openPath with
  | .fail code => pure (.error code)
  | _ => do
    let s ← Prog.get
    match s.disk.path with
    | none => pure (.error noEntry)
    | some node => pure (.ok node)

/-- what is at the path, when `open` did not fail otherwise -/
def nodeThere : FrM (Except ℕ Node) := do
  let s ← Prog.get
  match s.disk.path with
  | none => pure (.error noEntry)
  | some node => pure (.ok node)

/-- `fstat`: `st_size` -/
def fstat (c : Call) (id : FileId) : FrM (Except ℕ ℕ) := do
  match ← syscall c with
  | .fail code => pure (.error code)
  | _ => do
    let s ← Prog.get
    pure (.ok (s.disk.files id).size)

/-- `stat` of the path -/
def statPath : FrM (Option Node) := do
  match ← syscall .statPath with
  | .fail _ => pure none
  | _ => do
    let s ← Prog.get
    pure s.disk.path

/-- `ReadAt` -/
def readAt (c : Call) (id : FileId) (len offset : ℕ) : FrM (Except ℕ Bytes) := do
  let fault ← syscall c
  let s ← Prog.get
  let bytes := ((s.disk.files id).bytes.drop offset).take len
  match fault with
  | .fail code => pure (.error code)
  | .short n => pure (.ok (if c = .preadFill then bytes.take (n + 1) else bytes))
  | .ok => pure (.ok bytes)

/-- `WriteAll` to the temporary file. Every round writes at least one byte, so there are at most as many as bytes -/
def writeAll : ℕ → Bytes → FrM (Except ℕ Unit)
  | _, [] => pure (.ok ())
  | 0, _ :: _ => pure (.error 0)
  | fuel + 1, bs => do
    match ← syscall .writeTemp with
    | .fail code => pure (.error code)
    | .short n => do
      setDisk fun d => { d with temp := d.temp.map (· ++ bs.take (n + 1)) }
      writeAll fuel (bs.drop (n + 1))
    | .ok => do
      setDisk fun d => { d with temp := d.temp.map (· ++ bs) }
      pure (.ok ())

end FrM

end DominoLogForwarder.FileReader
