/-
The member functions of `SimpleWAL` (`wal/simple_wal.cpp`), in the order of the source. Each is a program over the
files, the members of the object, the message queue and the kernel. A public function is one or more sections under
`m_mutex`: `locked` gives the messages out at the end of a section, as `SimpleWAL::Locked` does.

`Replay` calls the consumer outside the mutex, so it is split where the mutex is released: `replayStart`, `replayRead`
and `replayEnd` are its locked sections, `ReplayVars` its local variables. `System.lean` puts them together.

Left out: `fsync` and the settings of the log target, whose results nothing reads.
-/
import DominoLogForwarder.Wal.Kernel

namespace DominoLogForwarder.Wal

open CrashProg Framing WalM

/-- `sizeof (Len)` of a record's length -/
abbrev lenSize : ℕ := 4

/-- the end of a locked section: the messages are given out -/
def locked {α : Type} (m : WalM α) : WalM α := do
  let a ← m
  Prog.modify fun s => { s with log := { queue := [], emitted := s.log.emitted ++ s.log.queue } }
  pure a

/-! ## Settings -/

def setLogLevel (level : ℕ) : WalM Unit := locked (setWal fun w => { w with logLevel := level })

def setMaxSize (bytes : ℕ) : WalM Unit := locked (setWal fun w => { w with maxSize := bytes, fullLogged := false })

/-! ## Opening and closing -/

/-- the size of the open WAL file. `none` is -1 -/
def getFileSize : WalM (Option ℕ) := do
  match ← attempt .fstat with
  | false => pure none
  | true => do
    let s ← Prog.get
    pure (some s.files.walBytes.length)

/-- `close` of `m_fd`: the lock of this descriptor is gone with it -/
def closeFd : WalM Unit :=
  Prog.modify fun s =>
    { s with
      files := { s.files with locked := s.files.locked && !s.wal.hasLock }
      wal := { s.wal with fd := false, hasLock := false } }

/-- `flock` of the WAL file, without waiting -/
def flock : WalM Bool := do
  match ← attempt .flock with
  | false => pure false
  | true => do
    let s ← Prog.get
    if s.files.locked then do
      setErrno .EWOULDBLOCK
      pure false
    else do
      setFiles fun fs => { fs with locked := true }
      setWal fun w => { w with hasLock := true }
      pure true

/-- a file system without locks is only reported -/
def reportLock (gotLock : Bool) : WalM Unit := if gotLock then pure () else queueErrno .cannotLock

/-- `fchmod`. Only reported if it fails -/
def restrictMode (c : Call) (m : Message) : WalM Unit := do
  match ← attempt c with
  | false => queueInfo m
  | true => pure ()

/-- opened before: the old file is closed first -/
def closeOld : WalM Unit := do
  let s ← Prog.get
  if s.wal.fd then closeFd else pure ()

def init : WalM Bool := locked do
  closeOld
  setWal fun w => { w with commitChecked := false, pendingReplay := false, peeked := false, fullLogged := false }
  match ← attempt .openWal with
  | false => do
    queueErrno .openWalFailed
    pure false
  | true => do
    setFiles fun fs => { fs with wal := some (fs.wal.getD File.empty) }
    setWal fun w => { w with fd := true }
    let gotLock ← flock
    let s ← Prog.get
    if gotLock = false ∧ s.kern.errno = .EWOULDBLOCK then do
      queueError .inUse
      closeFd
      pure false
    else do
      reportLock gotLock
      restrictMode .fchmod .cannotRestrictWal
      let size ← getFileSize
      setWal fun w => { w with pendingReplay := decide (0 < size.getD 0) }
      pure true

/-- `unlink` of the WAL file -/
def unlinkWal : WalM Bool := do
  match ← attempt .unlinkWal with
  | false => pure false
  | true => do
    let s ← Prog.get
    match s.files.wal with
    | none => do
      setErrno .ENOENT
      pure false
    | some _ => do
      setFiles fun fs => { fs with wal := none }
      pure true

/-- `unlink` of the commit file -/
def unlinkCommit : WalM Bool := do
  match ← attempt .unlinkCommit with
  | false => pure false
  | true => do
    let s ← Prog.get
    match s.files.commit with
    | none => do
      setErrno .ENOENT
      pure false
    | some _ => do
      setFiles fun fs => { fs with commit := none }
      pure true

/-- `~SimpleWAL`. No other thread uses the object any more, so there is no lock and no message -/
def destroy : WalM Unit := do
  let s ← Prog.get
  if s.wal.fd then do
    let size ← getFileSize
    setWal fun w => { w with pendingReplay := false }
    closeFd
    match size with
    | some (_ + 1) => pure ()
    | _ => do
      let _ ← unlinkWal
      let _ ← unlinkCommit
      pure ()
  else pure ()

/-! ## Writing -/

/-- what `Append` is called with: `Len` is a `uint32_t` -/
structure Payload where
  bytes : Bytes
  len_lt : bytes.length < 2 ^ 32
deriving DecidableEq, Repr

/-- a record of one byte -/
def Payload.single (b : UInt8) : Payload := ⟨[b], by simp⟩

def Payload.pair (b b' : UInt8) : Payload := ⟨[b, b'], by simp⟩

def isReplayPending : WalM Bool := locked do
  let s ← Prog.get
  pure s.wal.pendingReplay

def writeAll (bs : Bytes) : WalM Bool := do
  let s ← Prog.get
  if s.wal.fd = false then pure false
  else
    match ← writeAllToFd .wal bs.length bs with
    | false => do
      queueErrno .cannotWriteWal
      pure false
    | true => pure true

/-- `ftruncate` of the WAL file -/
def ftruncate (c : Call) (size : ℕ) : WalM Bool := do
  match ← attempt c with
  | false => pure false
  | true => do
    setFiles fun fs => { fs with wal := fs.wal.map (·.truncate size) }
    pure true

/-- the two writes of `Append` -/
def writeRecord (data : Payload) : WalM Bool := do
  match ← writeAll (leBytes lenSize data.bytes.length) with
  | false => pure false
  | true => writeAll data.bytes

/-- a piece of a record must not stay behind: every record after it would be unreadable -/
def removePartial (start : ℕ) : WalM Unit := do
  match ← ftruncate .rollback start with
  | false => queueErrno .cannotRemovePartial
  | true => pure ()

/-- `Append` behind the check for an empty record -/
def appendRecord (data : Payload) : WalM Bool := do
  let s ← Prog.get
  if s.wal.fd = false then pure false
  else
    match ← attempt .lseek with
    | false => do
      queueErrno .cannotGetEnd
      pure false
    | true => do
      let start := s.files.walBytes.length
      let len := data.bytes.length
      if 0 < s.wal.maxSize ∧ s.wal.maxSize < add64 (add64 start lenSize) len then
        if s.wal.fullLogged = false then do
          setWal fun w => { w with fullLogged := true }
          queueWarning (.full len start s.wal.maxSize)
          pure false
        else pure false
      else do
        match ← writeRecord data with
        | false => do
          removePartial start
          pure false
        | true => do
          setWal fun w => { w with fullLogged := false, pendingReplay := true }
          pure true

def append (data : Payload) : WalM Bool :=
  if data.bytes.length = 0 then pure true else locked (appendRecord data)

/-! ## The commit file -/

/-- the position in the commit file. Anything but exactly one number counts as 0 -/
def loadCommit : WalM ℕ := do
  match ← attempt .openCommit with
  | false => pure 0
  | true => do
    let s ← Prog.get
    match s.files.commit with
    | none => do
      setErrno .ENOENT
      pure 0
    | some bs =>
      match ← attempt .statCommit with
      | false => do
        queueWarning .damagedCommit
        pure 0
      | true =>
        if bs.length ≠ 8 then do
          queueWarning .damagedCommit
          pure 0
        else
          match ← syscall .readCommit with
          | .ok => pure (leNat bs)
          | .short n =>
            if 8 ≤ n then pure (leNat bs)
            else do
              queueWarning .damagedCommit
              pure 0
          | .fail code => do
            setErrno (.other code)
            queueWarning .damagedCommit
            pure 0

def storeCommit (offset : ℕ) : WalM Bool := do
  match ← attempt .creatCommit with
  | false => do
    queueErrno .openCommitFailed
    pure false
  | true => do
    setFiles fun fs => { fs with commit := some [] }
    -- a record which was read with Peek before is not the one at the position any more
    setWal fun w => { w with positionEpoch := w.positionEpoch + 1 }
    restrictMode .chmodCommit .cannotRestrictCommit
    match ← writeAllToFd .commit 8 (leBytes 8 offset) with
    | false => do
      queueErrno .cannotWriteCommit
      pure false
    | true => pure true

/-- the write of `storeCommit` -/
def writeOffset (offset : ℕ) : WalM Bool := do
  match ← writeAllToFd .commit 8 (leBytes 8 offset) with
  | false => do
    queueErrno .cannotWriteCommit
    pure false
  | true => pure true

/-! ## Reading and repairing -/

/-- removes the commit file, then empties the WAL. A crash in between replays the whole WAL again -/
def clearInternal : WalM Bool := do
  let s ← Prog.get
  if s.wal.fd = false then pure true
  else do
    let removed ← unlinkCommit
    let s ← Prog.get
    if removed = false ∧ s.kern.errno ≠ .ENOENT then do
      queueErrno .cannotRemoveCommit
      pure false
    else
      match ← ftruncate .truncate 0 with
      | false => do
        queueErrno .truncateFailed
        pure false
      | true =>
        match ← attempt .rewind with
        | false => do
          queueErrno .seekFailed
          pure false
        | true => do
          setWal fun w =>
            { w with
              pendingReplay := false
              fullLogged := false
              peeked := false
              positionEpoch := w.positionEpoch + 1 }
          queueInfo .walReset
          pure true

/-- `clearInternal` when there is no commit file any more -/
def emptyWal : WalM Bool := do
  match ← ftruncate .truncate 0 with
  | false => do
    queueErrno .truncateFailed
    pure false
  | true =>
    match ← attempt .rewind with
    | false => do
      queueErrno .seekFailed
      pure false
    | true => do
      setWal fun w =>
        { w with
          pendingReplay := false
          fullLogged := false
          peeked := false
          positionEpoch := w.positionEpoch + 1 }
      queueInfo .walReset
      pure true

def clear : WalM Bool := locked clearInternal

/-- the loop of `IsRecordBoundary`. A round moves the position by at least 5 bytes, so `offset` rounds are enough -/
def walkRecords (offset fileSize : ℕ) : ℕ → ℕ → WalM Bool
  | 0, pos => pure (pos == offset)
  | fuel + 1, pos =>
    if pos < offset then do
      match ← pread .preadWalk pos lenSize with
      | none => pure false
      | some bs =>
        if bs.length ≠ lenSize then pure false
        else if leNat bs = 0 ∨ sub64 (sub64 fileSize pos) lenSize < leNat bs then pure false
        else walkRecords offset fileSize fuel (add64 pos (lenSize + leNat bs))
    else pure (pos == offset)

def isRecordBoundary (offset fileSize : ℕ) : WalM Bool := walkRecords offset fileSize offset 0

/-- a position behind the end of the WAL is stale: it belongs to an earlier WAL -/
def dropStale (offset fileSize : ℕ) : WalM ℕ :=
  if fileSize < offset then do
    queueWarning (.commitBehindEnd offset fileSize)
    pure 0
  else pure offset

/-- the start and the end of the file need no check -/
def isStart (offset fileSize : ℕ) : WalM Bool :=
  if 0 < offset ∧ offset < fileSize then isRecordBoundary offset fileSize else pure true

/-- where a replay starts -/
def getReplayPosition (fileSize : ℕ) : WalM ℕ := do
  let loaded ← loadCommit
  let offset ← dropStale loaded fileSize
  let s ← Prog.get
  if s.wal.commitChecked then pure offset
  else do
    let start ← isStart offset fileSize
    setWal fun w => { w with commitChecked := true }
    if start then pure offset
    else do
      queueWarning (.commitNotStart offset)
      pure 0

/-- the loop of `QuarantineTail`: copies the bytes up to `stop`, in chunks of 64 KB. A round copies at least one byte -/
def copyTail (stop : ℕ) : ℕ → ℕ → WalM Bool
  | 0, _ => pure true
  | fuel + 1, pos =>
    if pos < stop then do
      match ← pread .preadCorrupt pos (min 65536 (stop - pos)) with
      | none => do
        queueErrno .cannotCopy
        pure false
      | some [] => do
        queueErrno .cannotCopy
        pure false
      | some (b :: bs) =>
        match ← writeAllToFd .corrupt (bs.length + 1) (b :: bs) with
        | false => do
          queueErrno .cannotCopy
          pure false
        | true => copyTail stop fuel (pos + (bs.length + 1))
    else pure true

/-- a round of `copyTail` behind its read -/
def copyRound (stop fuel pos : ℕ) : Option Bytes → WalM Bool
  | none => do
    queueErrno .cannotCopy
    pure false
  | some [] => do
    queueErrno .cannotCopy
    pure false
  | some (b :: bs) => do
    match ← writeAllToFd .corrupt (bs.length + 1) (b :: bs) with
    | false => do
      queueErrno .cannotCopy
      pure false
    | true => copyTail stop fuel (pos + (bs.length + 1))

def quarantineTail (start stop : ℕ) : WalM Bool := do
  match ← attempt .openCorrupt with
  | false => do
    queueErrno .cannotOpenCorrupt
    pure false
  | true => do
    setFiles fun fs => { fs with corrupt := some (fs.corrupt.getD []) }
    match ← copyTail stop (stop - start) start with
    | false => pure false
    | true => do
      queueError (.unreadable start (stop - start))
      pure true

/-- `ReadResult`, with what comes back through the reference parameters: the record, or whether the WAL could be
emptied (`retClearOk`) -/
inductive ReadResult where
  | record (bytes : Bytes)
  | empty (clearOk : Bool)
  | damaged (clearOk : Bool)
  | changed
  | stop
deriving DecidableEq, Repr

/-- reads the record which starts at `offset`, and repairs what is damaged -/
def readRecord (offset : ℕ) : WalM ReadResult := do
  match ← getFileSize with
  | none => do
    queueErrno .cannotGetSize
    pure .stop
  | some fileSize =>
    if fileSize < offset then pure .changed
    else if sub64 fileSize offset = 0 then do
      let clearOk ← clearInternal
      pure (.empty clearOk)
    else
      match ← pread .preadLen offset lenSize with
      | none => do
        queueErrno .cannotRead
        pure .stop
      | some bs =>
        if bs.length ≠ lenSize ∨ leNat bs = 0 ∨ sub64 (sub64 fileSize offset) lenSize < leNat bs then
          -- cut off by a crash, or damaged: nothing behind it is readable either
          match ← quarantineTail offset fileSize with
          | true => do
            let clearOk ← clearInternal
            pure (.damaged clearOk)
          | false => pure .stop
        else
          match ← attempt .alloc with
          | false => do
            queueError (.noMemory (leNat bs))
            pure .stop
          | true =>
            match ← pread .preadData (offset + lenSize) (leNat bs) with
            | none => pure .stop
            | some data => if data.length ≠ leNat bs then pure .stop else pure (.record data)

/-- what `readRecord` does with a damaged record -/
def repair (offset fileSize : ℕ) : WalM ReadResult := do
  match ← quarantineTail offset fileSize with
  | true => do
    let clearOk ← clearInternal
    pure (.damaged clearOk)
  | false => pure .stop

/-- `readRecord` behind the read of the length -/
def readBehind (offset fileSize left : ℕ) (bs : Bytes) : WalM ReadResult :=
  if bs.length ≠ lenSize ∨ leNat bs = 0 ∨ sub64 left lenSize < leNat bs then repair offset fileSize
  else do
    match ← attempt .alloc with
    | false => do
      queueError (.noMemory (leNat bs))
      pure .stop
    | true =>
      match ← pread .preadData (offset + lenSize) (leNat bs) with
      | none => pure .stop
      | some data => if data.length ≠ leNat bs then pure .stop else pure (.record data)

/-! ## Taking records out -/

/-- the local variables of `Replay` -/
structure ReplayVars where
  newOffset : ℕ
  didReplay : Bool := false
  cleared : Bool := false
  clearOk : Bool := true
  changed : Bool := false
deriving DecidableEq, Repr

/-- the first locked section of `Replay`: one thread at a time, and the position. `none`: `Replay` returns false -/
def replayStart : WalM (Option ReplayVars) := locked do
  let s ← Prog.get
  if s.wal.replaying then pure none
  else do
    setWal fun w => { w with replaying := true }
    let giveUp : WalM (Option ReplayVars) := do
      setWal fun w => { w with replaying := false }
      pure none
    match ← attempt .openRead with
    | false => giveUp
    | true =>
      match s.files.wal with
      | none => giveUp
      | some _ =>
        match ← getFileSize with
        | none => do
          queueErrno .cannotGetSize
          giveUp
        | some fileSize => do
          let newOffset ← getReplayPosition fileSize
          pure (some { newOffset := newOffset })

/-- the locked section in the loop of `Replay`. A record: the consumer is called with it. `none`: the loop stops -/
def replayRead (v : ReplayVars) : WalM (ReplayVars × Option Bytes) := locked do
  match ← readRecord v.newOffset with
  | .record bytes => pure ({ v with clearOk := true }, some bytes)
  | .empty clearOk => pure ({ v with cleared := true, clearOk := clearOk }, none)
  | .damaged clearOk => pure ({ v with cleared := true, clearOk := clearOk }, none)
  | .changed => pure ({ v with changed := true, clearOk := true }, none)
  | .stop => pure ({ v with clearOk := true }, none)

/-- the consumer accepted the record -/
def ReplayVars.accept (v : ReplayVars) (len : ℕ) : ReplayVars :=
  { v with newOffset := v.newOffset + (lenSize + len), didReplay := true }

/-- the last locked section of `Replay` -/
def replayEnd (v : ReplayVars) : WalM Bool := locked do
  setWal fun w => { w with replaying := false }
  if v.cleared then pure v.clearOk
  else if v.changed then pure false
  else if v.didReplay then
    match ← storeCommit v.newOffset with
    | false => pure false
    | true => pure true
  else pure false

/-- the `catch` of `Replay`: the consumer threw -/
def replayThrow : WalM Unit := locked (setWal fun w => { w with replaying := false })

def peek : WalM (Option Bytes) := locked do
  setWal fun w => { w with peeked := false }
  let s ← Prog.get
  if s.wal.fd = false ∨ s.wal.replaying ∨ s.wal.pendingReplay = false then pure none
  else
    match ← attempt .openRead with
    | false => do
      queueErrno .cannotOpenForReading
      pure none
    | true =>
      match ← getFileSize with
      | none => do
        queueErrno .cannotGetSize
        pure none
      | some fileSize => do
        let offset ← getReplayPosition fileSize
        match ← readRecord offset with
        | .record bytes => do
          setWal fun w =>
            { w with
              peeked := true
              peekOffset := offset
              peekLen := bytes.length
              peekEpoch := w.positionEpoch }
          pure (some bytes)
        | _ => pure none

/-- what `peek` does at its position -/
def peekRecord (offset : ℕ) : WalM (Option Bytes) := do
  match ← readRecord offset with
  | .record bytes => do
    setWal fun w =>
      { w with
        peeked := true
        peekOffset := offset
        peekLen := bytes.length
        peekEpoch := w.positionEpoch }
    pure (some bytes)
  | _ => pure none

def ack : WalM Bool := locked do
  let s ← Prog.get
  if s.wal.peeked = false then pure false
  else do
    setWal fun w => { w with peeked := false }
    if s.wal.fd = false ∨ s.wal.replaying ∨ s.wal.peekEpoch ≠ s.wal.positionEpoch then pure false
    else do
      let fileSize ← getFileSize
      let next := s.wal.peekOffset + lenSize + s.wal.peekLen
      match fileSize with
      | none => pure false
      | some fileSize =>
        if fileSize < next then pure false
        else if next = fileSize then clearInternal
        else storeCommit next

end DominoLogForwarder.Wal
