/-
`FileReader` (`filereader/file_reader.cpp`): the member functions, in the order in which they call each other.

`extractLine` and `emitRemainder` work on the buffer alone, they are functions of the members. Everything else makes
system calls. The loop of `readLine` makes at most `rounds` rounds: the process is killed before the next one. How many
rounds are enough is a theorem (`readLoop_spec`).
-/
import DominoLogForwarder.FileReader.StateFile

namespace DominoLogForwarder.FileReader

open CrashProg Lines

/-! ## The buffer -/

namespace Reader

/-- what was read and is not returned yet -/
def rest (r : Reader) : Bytes := r.buffer.drop r.pos

/-- `Pending` -/
def pending (r : Reader) : ℕ := r.buffer.length - r.pos

def clearBuffer (r : Reader) : Reader := { r with buffer := [], pos := 0, scanFrom := 0 }

def closeFile (r : Reader) : Reader :=
  { r.clearBuffer with
    fd := none
    bufferStart := 0
    skipping := false
    rotationSeen := false
    incompleteSince := 0
    head := [] }

/-- `Close` -/
def close (r : Reader) : Reader := { r.closeFile with opened := false }

/-- `m_Buffer.find ('\n', m_Pos + m_ScanFrom)`: the index in the buffer -/
def findNl (r : Reader) : Option ℕ :=
  (find nl (r.buffer.drop (r.pos + r.scanFrom))).map (r.pos + r.scanFrom + ·)

/-- the buffer up to the index `idx` is done with -/
def advance (r : Reader) (idx : ℕ) : Reader :=
  { r with bufferStart := r.bufferStart + (idx - r.pos), pos := idx, scanFrom := 0 }

/-- the round of `ExtractLine` which returns a line or finds none -/
def takeLine (r : Reader) : Option Line × Reader :=
  let maxLen := r.settings.maxLineLength
  match r.findNl with
  | none =>
    -- more than the maximum and still no new line: the line is cut, the rest is dropped
    if maxLen < r.pending then
      let r' := { r.advance (r.pos + maxLen) with skipping := true }
      (some ⟨(r.buffer.drop r.pos).take maxLen, r.generation, r'.bufferStart, true⟩, r')
    else (none, { r with scanFrom := r.pending })
  | some idx =>
    let len := idx - r.pos
    let truncated := decide (maxLen < len)
    let len :=
      if truncated then maxLen
      else if 0 < len ∧ r.buffer[r.pos + len - 1]? = some cr then len - 1
      else len
    let r' := r.advance (idx + 1)
    (some ⟨(r.buffer.drop r.pos).take len, r.generation, r'.bufferStart, truncated⟩, r')

/-- the next complete line of the buffer. The rest of a line which was too long is dropped up to the new line first -/
def extractLine (r : Reader) : Option Line × Reader :=
  if r.skipping then
    match r.findNl with
    | none => (none, { r.clearBuffer with bufferStart := r.bufferStart + r.pending })
    | some idx => { r.advance (idx + 1) with skipping := false }.takeLine
  else r.takeLine

/-- what is in the buffer is a line -/
def emitRemainder (r : Reader) : Line × Reader :=
  let len :=
    if 0 < r.pending ∧ r.buffer[r.pos + r.pending - 1]? = some cr then r.pending - 1 else r.pending
  let r' := { r.clearBuffer with bufferStart := r.bufferStart + r.pending, incompleteSince := 0 }
  (⟨(r.buffer.drop r.pos).take len, r.generation, r'.bufferStart, false⟩, r')

/-- what `SaveState` saves. The fingerprint is as long as the committed part of the file, up to a few hundred bytes -/
def saved (r : Reader) : SavedState :=
  let headLen := if r.committed < r.head.length then r.committed else r.head.length
  { device := r.file.device.toNat
    inode := r.file.inode.toNat
    offset := r.committed
    headLen := headLen
    headHash := (hashBytes (r.head.take headLen)).toNat }

end Reader

namespace FrM

/-! ## The state file -/

inductive StateResult where
  | none
  | invalid
  | ok (saved : SavedState)
deriving DecidableEq, Repr

def openState : FrM (Except ℕ Bytes) := do
  match ← syscall .openState with
  | .fail code => pure (.error code)
  | _ => do
    let s ← Prog.get
    match s.disk.state with
    | .none => pure (.error noEntry)
    | .some text => pure (.ok text)

/-- what is in the state file, when `open` did not fail otherwise -/
def textThere : FrM (Except ℕ Bytes) := do
  let s ← Prog.get
  match s.disk.state with
  | .none => pure (.error noEntry)
  | .some text => pure (.ok text)

def loadState : FrM StateResult := do
  match ← openState with
  | .error code =>
    if code = noEntry then pure .none
    else do
      note (.cannotOpenState code)
      pure .invalid
  | .ok text =>
    match ← attempt .preadState with
    | .error _ => do
      note .stateCannotBeRead
      pure .invalid
    | .ok () =>
      if stateMax < (text.take (stateMax + 1)).length then do
        note .stateTooLarge
        pure .invalid
      else
        match parseState (text.take (stateMax + 1)) with
        | .error m => do
          note m
          pure .invalid
        | .ok saved => pure (.ok saved)

/-- the temporary file is removed. `SaveState` does not look at the result -/
def unlinkTemp (code : ℕ) : FrM (Except ℕ Unit) := do
  let _ ← attempt .unlinkTemp
  setDisk fun d => { d with temp := none }
  pure (.error code)

/-- the file of its own which is written, flushed and renamed -/
def replaceState (text : Bytes) : FrM (Except ℕ Unit) := do
  match ← attempt .openTemp with
  | .error code => pure (.error code)
  | .ok () => do
    setDisk fun d => { d with temp := some [] }
    match ← writeAll text.length text with
    | .error code => do
      let _ ← attempt .closeTemp
      unlinkTemp code
    | .ok () =>
      match ← attempt .fsyncTemp with
      | .error code => do
        let _ ← attempt .closeTemp
        unlinkTemp code
      | .ok () =>
        match ← attempt .closeTemp with
        | .error code => unlinkTemp code
        | .ok () =>
          match ← attempt .rename with
          | .error code => unlinkTemp code
          | .ok () => do
            setDisk fun d => { d with state := d.temp, temp := none }
            pure (.ok ())

def saveState : FrM Bool := do
  let s ← Prog.get
  match ← replaceState (stateText s.reader.saved) with
  | .ok () => do
    setReader fun r => { r with saveFailed := false }
    pure true
  | .error code =>
    if s.reader.saveFailed = false then do
      setReader fun r => { r with saveFailed := true }
      note (.cannotSave code)
      pure false
    else pure false

/-! ## Opening the file -/

/-- where to continue in the file `id`, which was opened for the first time and has `size` bytes -/
def resolveStart (id : FileId) (size : ℕ) : FrM ℕ := do
  let s ← Prog.get
  let fresh := if s.reader.settings.startAtEnd then size else 0
  match ← loadState with
  | .none => pure fresh
  | .invalid => pure fresh
  | .ok saved =>
    if saved.device ≠ id.device.toNat ∨ saved.inode ≠ id.inode.toNat then do
      note .anotherFile
      pure 0
    else if size < saved.offset then do
      note (.shorter saved.offset)
      pure 0
    else
      -- the start of the file must be the one which was seen: a file which was emptied keeps its inode
      match ← readAt .preadResolve id saved.headLen 0 with
      | .error _ => do
        note .startChanged
        pure 0
      | .ok head =>
        if head.length ≠ saved.headLen ∨ (hashBytes head).toNat ≠ saved.headHash then do
          note .startChanged
          pure 0
        else pure saved.offset

/-- the state file says where to start only the first time -/
def startOffset (id : FileId) (size : ℕ) : FrM ℕ := do
  let s ← Prog.get
  if s.reader.firstOpen then do
    setReader fun r => { r with firstOpen := false }
    resolveStart id size
  else pure 0

/-- the part of `OpenFile` behind its checks: the regular file `id` is open -/
def startFile (id : FileId) (size : ℕ) : FrM Bool := do
  setReader fun r => { r with lastOpenError := 0, fd := some id, file := id, generation := r.generation + 1 }
  let offset ← startOffset id size
  let head ← readAt .preadHead id headMax 0
  setReader fun r =>
    { r.clearBuffer with
      head := head.toOption.getD []
      bufferStart := offset
      committed := offset }
  let _ ← saveState
  pure true

/-- the first time the state file says where to continue, later it is a new file: from the beginning -/
def openFile : FrM Bool := do
  match ← openPath with
  | .error code => do
    let s ← Prog.get
    if code ≠ noEntry ∧ code ≠ s.reader.lastOpenError then note (.cannotOpen code) else pure ()
    setReader fun r => { r with lastOpenError := code }
    pure false
  | .ok node =>
    match ← fstat .fstatOpen node.file with
    | .error code => do
      note (.cannotStat code)
      pure false
    | .ok size =>
      if node.regular = false then do
        let s ← Prog.get
        if s.reader.lastOpenError ≠ isDirectory then note .notRegular else pure ()
        setReader fun r => { r with lastOpenError := isDirectory }
        pure false
      else startFile node.file size

/-! ## Reading on -/

/-- reads a chunk into the buffer. What was returned is dropped here, once for a whole chunk -/
def fillBuffer (id : FileId) : FrM (Except ℕ ℕ) := do
  let s ← Prog.get
  match ← readAt .preadFill id chunkSize (s.reader.bufferStart + s.reader.pending) with
  | .error code => do
    note (.cannotRead code)
    pure (.error code)
  | .ok chunk => do
    setReader fun r => { r with buffer := r.buffer.drop r.pos ++ chunk, pos := 0 }
    pure (.ok chunk.length)

/-- is the start of the file still the one which was seen? The start grows with the file -/
def refreshHead (id : FileId) : FrM Bool := do
  match ← readAt .preadRefresh id headMax 0 with
  | .error _ => pure true
  | .ok bytes => do
    let s ← Prog.get
    if bytes.take s.reader.head.length = s.reader.head then do
      setReader fun r => { r with head := bytes }
      pure true
    else pure false

/-- the same file has other content: starts again at the beginning -/
def resetFile (id : FileId) (m : Message) : FrM Unit := do
  note m
  setReader fun r =>
    { r.clearBuffer with
      generation := r.generation + 1
      bufferStart := 0
      skipping := false
      rotationSeen := false
      incompleteSince := 0
      head := []
      committed := 0 }
  let _ ← refreshHead id
  let _ ← saveState
  pure ()

/-- was the file emptied or written again? Returns false if it was, and the reader started again -/
def checkFile (id : FileId) : FrM Bool := do
  match ← fstat .fstatCheck id with
  | .error _ => pure true
  | .ok size => do
    let s ← Prog.get
    if size < s.reader.bufferStart + s.reader.pending then do
      resetFile id .truncated
      pure false
    else if ← refreshHead id then pure true
    else do
      resetFile id .writtenAgain
      pure false

/-- a path without a file does not count: there may be a new one soon -/
def pathReplaced : FrM Bool := do
  match ← statPath with
  | none => pure false
  | some node => do
    let s ← Prog.get
    pure (decide (node.file ≠ s.reader.file))

def emit : FrM (Option Line) := do
  let s ← Prog.get
  setReader fun r => r.emitRemainder.2
  pure (some s.reader.emitRemainder.1)

/-- the end of a file which is still at the path: a last line which did not grow for a while is returned -/
def waitForMore (tNow : ℤ) : FrM (Option Line) := do
  setReader fun r => { r with rotationSeen := false }
  let s ← Prog.get
  let r := s.reader
  if 0 < r.settings.incompleteSec ∧ 0 < r.pending ∧ r.skipping = false then
    if r.incompleteSince = 0 then do
      setReader fun r => { r with incompleteSince := tNow }
      pure none
    else if (r.settings.incompleteSec : ℤ) ≤ tNow - r.incompleteSince then emit
    else pure none
  else pure none

/-- the end of a file which is not at the path any more. The writer gets one more call to finish what it does, then the
file is let go of. `again` is the next round -/
def leaveFile (again : FrM (Option Line)) : FrM (Option Line) := do
  let s ← Prog.get
  let r := s.reader
  if r.rotationSeen = false then do
    setReader fun r => { r with rotationSeen := true }
    pure none
  else if 0 < r.pending ∧ r.skipping = false then emit
  else do
    setReader Reader.closeFile
    again

/-- a round of the loop, with a file which is open -/
def readRound (tNow : ℤ) (again : FrM (Option Line)) (id : FileId) : FrM (Option Line) := do
  let s ← Prog.get
  let (line, r) := s.reader.extractLine
  setReader fun _ => r
  match line with
  | some line => pure (some line)
  | none =>
    if ← checkFile id then
      match ← fillBuffer id with
      | .error _ => pure none
      | .ok 0 => if ← pathReplaced then leaveFile again else waitForMore tNow
      | .ok (_ + 1) => do
        setReader fun r => { r with rotationSeen := false, incompleteSince := 0 }
        again
    else again

/-- a round behind `checkFile` -/
def fillRound (tNow : ℤ) (again : FrM (Option Line)) (id : FileId) : FrM (Option Line) := do
  match ← fillBuffer id with
  | .error _ => pure none
  | .ok 0 => if ← pathReplaced then leaveFile again else waitForMore tNow
  | .ok (_ + 1) => do
    setReader fun r => { r with rotationSeen := false, incompleteSince := 0 }
    again

/-- the loop of `ReadLine` -/
def readLoop (tNow : ℤ) : ℕ → FrM (Option Line)
  | 0 => killed
  | rounds + 1 => do
    let s ← Prog.get
    match s.reader.fd with
    | some id => readRound tNow (readLoop tNow rounds) id
    | none =>
      if ← openFile then do
        let s ← Prog.get
        match s.reader.fd with
        | some id => readRound tNow (readLoop tNow rounds) id
        | none => pure none
      else pure none

def readLine (tNow : ℤ) (rounds : ℕ) : FrM (Option Line) := do
  let s ← Prog.get
  if s.reader.opened = false then pure none else readLoop tNow rounds

def commit (generation endOffset : ℕ) : FrM Bool := do
  let s ← Prog.get
  if s.reader.opened = false then pure false
  -- lines of a file which was replaced: the state file belongs to the new file already
  else if generation ≠ s.reader.generation then pure true
  else if s.reader.bufferStart < endOffset then do
    note (.behindTheLines endOffset s.reader.bufferStart)
    pure false
  else if endOffset ≤ s.reader.committed then pure true
  else do
    setReader fun r => { r with committed := endOffset }
    if ← saveState then pure true
    else do
      setReader fun r => { r with committed := s.reader.committed }
      pure false

end FrM

end DominoLogForwarder.FileReader
