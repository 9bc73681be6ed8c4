/-
The files of a WAL and the system calls on them.

Every call asks an oracle how it ends (`Fault`), and the process can be killed before any call (`crashIn`). An oracle
with nothing to say and no crash is the machine on which no system call fails (`Kernel.Quiet`).

What is kept of the kernel:
- a file is at most `offMax` bytes long, a write beyond that fails with EFBIG;
- a write of a regular file appends (all of them are opened with O_APPEND or just truncated), whole or in part;
- `unlink` and `open` without O_CREAT fail with ENOENT if there is no file, and an injected failure is never ENOENT;
- `flock` belongs to the open file, it is gone when the file is closed or the process dies.
The file of a descriptor and the file of the path are the same: only the owner of the lock removes files.
-/
import DominoLogForwarder.Lib.CrashProg
import DominoLogForwarder.Lib.Framing

namespace DominoLogForwarder.Wal

open CrashProg Framing

/-! ## 64-bit arithmetic -/

/-- `uint64_t` addition -/
def add64 (a b : ℕ) : ℕ := (a + b) % 2 ^ 64

/-- `uint64_t` subtraction -/
def sub64 (a b : ℕ) : ℕ := (a + (2 ^ 64 - b % 2 ^ 64)) % 2 ^ 64

theorem add64_of_lt {a b : ℕ} (h : a + b < 2 ^ 64) : add64 a b = a + b := Nat.mod_eq_of_lt h

theorem sub64_of_le {a b : ℕ} (ha : a < 2 ^ 64) (h : b ≤ a) : sub64 a b = a - b := by
  unfold sub64; omega

/-! ## Files -/

/-- the largest `off_t` -/
def offMax : ℕ := 2 ^ 63 - 1

structure File where
  bytes : Bytes
  size_le : bytes.length ≤ offMax
deriving DecidableEq, Repr

namespace File

def empty : File := ⟨[], Nat.zero_le _⟩

def size (f : File) : ℕ := f.bytes.length

def append? (f : File) (bs : Bytes) : Option File :=
  if h : (f.bytes ++ bs).length ≤ offMax then some ⟨f.bytes ++ bs, h⟩ else none

def truncate (f : File) (n : ℕ) : File := ⟨f.bytes.take n, by have := f.size_le; simp; omega⟩

@[simp] theorem bytes_empty : empty.bytes = [] := rfl

theorem append?_eq {f : File} {bs : Bytes} {f' : File} (h : f.append? bs = some f') : f'.bytes = f.bytes ++ bs := by
  unfold append? at h
  split_ifs at h
  cases h
  rfl

theorem ext_bytes {f g : File} (h : f.bytes = g.bytes) : f = g := by
  cases f; cases g; cases h; rfl

end File

structure Files where
  /-- `<path>`: the records -/
  wal : Option File := none
  /-- `<path>.commit`: the position of the first record which was not accepted yet -/
  commit : Option Bytes := none
  /-- `<path>.corrupt`: data which could not be read -/
  corrupt : Option Bytes := none
  /-- an open descriptor of the WAL file holds its `flock` -/
  locked : Bool := false
deriving DecidableEq, Repr

/-- the bytes of the WAL file, none if it does not exist -/
def Files.walBytes (fs : Files) : Bytes := (fs.wal.map File.bytes).getD []

theorem Files.walBytes_le (fs : Files) : fs.walBytes.length ≤ offMax := by
  unfold Files.walBytes
  cases fs.wal with
  | none => simp
  | some f => exact f.size_le

/-! ## Messages -/

inductive Errno where
  | unset
  | ENOENT
  | EWOULDBLOCK
  | EFBIG
  | other (code : ℕ)
deriving DecidableEq, Repr

inductive Message where
  | openWalFailed (e : Errno)
  | inUse
  | cannotLock (e : Errno)
  | cannotRestrictWal
  | cannotGetEnd (e : Errno)
  | full (len start maxSize : ℕ)
  | cannotRemovePartial (e : Errno)
  | cannotGetSize (e : Errno)
  | cannotOpenForReading (e : Errno)
  | commitBehindEnd (offset size : ℕ)
  | commitNotStart (offset : ℕ)
  | cannotRead (e : Errno)
  | noMemory (len : ℕ)
  | cannotRemoveCommit (e : Errno)
  | truncateFailed (e : Errno)
  | seekFailed (e : Errno)
  | walReset
  | cannotOpenCorrupt (e : Errno)
  | cannotCopy (e : Errno)
  | unreadable (start size : ℕ)
  | cannotWriteWal (e : Errno)
  | damagedCommit
  | openCommitFailed (e : Errno)
  | cannotRestrictCommit
  | cannotWriteCommit (e : Errno)
deriving DecidableEq, Repr

/-- the line of a message. `strerror` is the C library's -/
def Message.text (walPath : String) (strerror : Errno → String) : Message → String
  | .openWalFailed e => "[Error] open wal failed: " ++ strerror e
  | .inUse => "[Error] WAL: " ++ walPath ++ " is in use by another WAL object or process"
  | .cannotLock e => "[Error] Cannot lock the WAL file. It is used without a lock: " ++ strerror e
  | .cannotRestrictWal => "Cannot restrict the permissions of the WAL file"
  | .cannotGetEnd e => "[Error] Cannot get the end of the WAL: " ++ strerror e
  | .full len start maxSize =>
    "[Warning] WAL: " ++ walPath ++ " is full: a record of " ++ toString len ++ " bytes does not fit (size " ++
      toString start ++ " bytes, limit " ++ toString maxSize ++
      " bytes). Records are not stored until there is room again"
  | .cannotRemovePartial e => "[Error] Cannot remove the partial WAL record: " ++ strerror e
  | .cannotGetSize e => "[Error] Cannot get the size of the WAL: " ++ strerror e
  | .cannotOpenForReading e => "[Error] Cannot open the WAL for reading: " ++ strerror e
  | .commitBehindEnd offset size =>
    "[Warning] WAL: commit offset " ++ toString offset ++ " is behind the end of the WAL (" ++ toString size ++
      " bytes). Replaying from the start"
  | .commitNotStart offset =>
    "[Warning] WAL: commit offset " ++ toString offset ++
      " is not the start of a record. Replaying from the start"
  | .cannotRead e => "[Error] Cannot read the WAL: " ++ strerror e
  | .noMemory len => "[Error] WAL: not enough memory for a record of " ++ toString len ++ " bytes"
  | .cannotRemoveCommit e => "[Error] Cannot remove the commit file: " ++ strerror e
  | .truncateFailed e => "[Error] file truncate failed: " ++ strerror e
  | .seekFailed e => "[Error] file seek failed: " ++ strerror e
  | .walReset => "WAL reset"
  | .cannotOpenCorrupt e => "[Error] Cannot open the file for unreadable WAL data: " ++ strerror e
  | .cannotCopy e => "[Error] Cannot copy unreadable WAL data: " ++ strerror e
  | .unreadable start size =>
    "[Error] WAL: unreadable data at offset " ++ toString start ++ " (" ++ toString size ++ " bytes) moved to " ++
      walPath ++ ".corrupt"
  | .cannotWriteWal e => "[Error] Cannot write to WAL: " ++ strerror e
  | .damagedCommit => "[Warning] WAL: ignoring the damaged commit file " ++ walPath ++ ".commit"
  | .openCommitFailed e => "[Error] open commit failed: " ++ strerror e
  | .cannotRestrictCommit => "Cannot restrict the permissions of the commit file"
  | .cannotWriteCommit e => "[Error] Cannot write the commit file: " ++ strerror e

/-- `m_LogQueue`, and what was given out when the mutex was released -/
structure Log where
  queue : List Message := []
  emitted : List Message := []
deriving DecidableEq, Repr

/-! ## The object -/

/-- the members of a `SimpleWAL`. `fd` says whether `m_fd` is open. A new object is the default value -/
structure SimpleWal where
  fd : Bool := false
  /-- this object's descriptor holds the lock -/
  hasLock : Bool := false
  logLevel : ℕ := 0
  /-- 0: no limit -/
  maxSize : ℕ := 0
  fullLogged : Bool := false
  pendingReplay : Bool := false
  /-- the commit position was checked against the records of the WAL -/
  commitChecked : Bool := false
  /-- a thread replays -/
  replaying : Bool := false
  peeked : Bool := false
  peekOffset : ℕ := 0
  peekLen : ℕ := 0
  peekEpoch : ℕ := 0
  /-- counts the changes of the position on disk -/
  positionEpoch : ℕ := 0
deriving DecidableEq, Repr

/-! ## The kernel -/

/-- how a system call ends -/
inductive Fault where
  | ok
  | fail (code : ℕ)
  /-- a read or a write which takes only `n` bytes -/
  | short (n : ℕ)
deriving DecidableEq, Repr

/-- the places where the code calls the system -/
inductive Call where
  | openWal
  | flock
  | fchmod
  | fstat
  | lseek
  | writeWal
  /-- the `ftruncate` of `Append`, which removes a part of a record -/
  | rollback
  /-- the `ftruncate` of `ClearInternal` -/
  | truncate
  /-- the `lseek` of `ClearInternal` -/
  | rewind
  | openRead
  | preadLen
  | preadData
  /-- the `pread` of `IsRecordBoundary` -/
  | preadWalk
  /-- the memory for a record -/
  | alloc
  | unlinkWal
  | unlinkCommit
  | openCommit
  | statCommit
  | readCommit
  | creatCommit
  | chmodCommit
  | writeCommit
  | openCorrupt
  /-- the `pread` of `QuarantineTail` -/
  | preadCorrupt
  | writeCorrupt
deriving DecidableEq, Repr

abbrev Oracle : Type := Call → List Fault

structure Kernel where
  oracle : Oracle
  /-- the process is killed before this many more calls -/
  crashIn : Option ℕ
  errno : Errno

namespace Kernel

/-- nothing fails and nothing crashes -/
structure Quiet (k : Kernel) : Prop where
  calls : ∀ c, k.oracle c = []
  alive : k.crashIn = none

/-- `k'` is what is left of `k` after some calls -/
structure Later (k k' : Kernel) : Prop where
  calls : ∀ c, k'.oracle c <:+ k.oracle c
  alive : k.crashIn = none → k'.crashIn = none

theorem Later.refl (k : Kernel) : Later k k := ⟨fun _ => List.suffix_refl _, id⟩

theorem Later.trans {k k' k'' : Kernel} (h : Later k k') (h' : Later k' k'') : Later k k'' :=
  ⟨fun c => (h'.calls c).trans (h.calls c), fun ha => h'.alive (h.alive ha)⟩

theorem Later.reliable {k k' : Kernel} (h : Later k k') {c : Call} (hc : k.oracle c = []) : k'.oracle c = [] :=
  List.suffix_nil.1 (hc ▸ h.calls c)

end Kernel

/-- what a member function of `SimpleWAL` works on -/
structure Sys where
  files : Files
  wal : SimpleWal
  log : Log
  kern : Kernel

/-- the files which are written -/
inductive Target where
  | wal
  | commit
  | corrupt
deriving DecidableEq, Repr

def Target.call : Target → Call
  | .wal => .writeWal
  | .commit => .writeCommit
  | .corrupt => .writeCorrupt

/-- the files after bytes were written at the end of one of them. `none`: it cannot be that large -/
def Files.write (fs : Files) : Target → Bytes → Option Files
  | .wal, bs => (fs.wal.bind (·.append? bs)).map fun f => { fs with wal := some f }
  | .commit, bs => some { fs with commit := fs.commit.map (· ++ bs) }
  | .corrupt, bs => some { fs with corrupt := fs.corrupt.map (· ++ bs) }

abbrev WalM (α : Type) : Type := Prog Sys α

namespace WalM

def setFiles (f : Files → Files) : WalM Unit := Prog.modify fun s => { s with files := f s.files }

def setWal (f : SimpleWal → SimpleWal) : WalM Unit := Prog.modify fun s => { s with wal := f s.wal }

def setErrno (e : Errno) : WalM Unit := Prog.modify fun s => { s with kern := { s.kern with errno := e } }

def queueLine (m : Message) : WalM Unit :=
  Prog.modify fun s => { s with log := { s.log with queue := s.log.queue ++ [m] } }

def queueInfo (m : Message) : WalM Unit := do
  let s ← Prog.get
  if s.wal.logLevel = 0 then pure () else queueLine m

def queueWarning (m : Message) : WalM Unit := queueLine m

def queueError (m : Message) : WalM Unit := queueLine m

def queueErrno (m : Errno → Message) : WalM Unit := do
  let s ← Prog.get
  queueLine (m s.kern.errno)

/-- one call of the system: the process is killed before it, or the oracle says how it ends -/
def syscall (c : Call) : WalM Fault := fun s =>
  match s.kern.crashIn with
  | some 0 => .crash s
  | n =>
    match s.kern.oracle c with
    | [] => .done .ok { s with kern := { s.kern with crashIn := n.map (· - 1) } }
    | f :: fs =>
      .done f { s with kern := { s.kern with crashIn := n.map (· - 1), oracle := Function.update s.kern.oracle c fs } }

/-- a call which succeeds or fails with `errno` set -/
def attempt (c : Call) : WalM Bool := do
  match ← syscall c with
  | .fail code => do
    setErrno (.other code)
    pure false
  | _ => pure true

/-- `pread` of the WAL file. `none` is -1, fewer bytes than asked are a short read or the end of the file -/
def pread (c : Call) (offset len : ℕ) : WalM (Option Bytes) := do
  let fault ← syscall c
  let s ← Prog.get
  let bytes := (s.files.walBytes.drop offset).take len
  match fault with
  | .fail code => do
    setErrno (.other code)
    pure none
  | .short n => pure (some (bytes.take n))
  | .ok => pure (some bytes)

/-- the effect of a write of `bs`, which the kernel took as a whole -/
def put (t : Target) (bs : Bytes) : WalM (Option ℕ) := do
  let s ← Prog.get
  match s.files.write t bs with
  | none => do
    setErrno .EFBIG
    pure none
  | some fs => do
    setFiles fun _ => fs
    pure (some bs.length)

/-- `write`. `none` is -1 -/
def write (t : Target) (bs : Bytes) : WalM (Option ℕ) := do
  match ← syscall t.call with
  | .fail code => do
    setErrno (.other code)
    pure none
  | .short n => put t (bs.take n)
  | .ok => put t bs

/-- writes everything or fails. Every round writes at least one byte, so there are at most as many as bytes -/
def writeAllToFd (t : Target) : ℕ → Bytes → WalM Bool
  | _, [] => pure true
  | 0, _ :: _ => pure false
  | fuel + 1, b :: bs => do
    match ← write t (b :: bs) with
    | none => pure false
    | some 0 => pure false
    | some (n + 1) => writeAllToFd t fuel ((b :: bs).drop (n + 1))

/-- a round of `writeAllToFd` behind its write -/
def writeOn (t : Target) (fuel : ℕ) (bs : Bytes) : Option ℕ → WalM Bool
  | none => pure false
  | some 0 => pure false
  | some (n + 1) => writeAllToFd t fuel (bs.drop (n + 1))

end WalM

end DominoLogForwarder.Wal
