/-
The file input of `otelfwd` (`otelfwd.cpp`, `file_input.hpp`). `FileThread` reads lines, queues them as records and
commits the positions which were delivered. `PushThread` delivers the records of all inputs in batches and hands the
positions of a batch over in a `FileCommitSlot`. At the end of the program `main` commits what the push thread
delivered last.

A step of a thread is what it does between two places where another thread can come in: a call of the queue, of the
slot, of the reader, of the WAL, or a push request. The answers of the receivers and of the WAL are given with the
step. The process can be killed at any time, also inside of a call of the reader.

The history is not part of the code: the lines which `ReadLine` returned, what became of the records, the calls of the
slot, and the generation and the position which the reader had behind each of its calls.
-/
import DominoLogForwarder.Lib.HighMark
import DominoLogForwarder.FileReader.Order
import DominoLogForwarder.Otelfwd.Fifo
import DominoLogForwarder.Otelfwd.Record
import DominoLogForwarder.Push.Failover

namespace DominoLogForwarder.Otelfwd

open CrashProg HighMark
open FileReader (Bytes ascii Reader Line Disk Change Kernel Message Sys Position position stateText)
open Push (PushAction)

/-! ## The slot -/

structure FileCommitSlot where
  pending : Bool := false
  generation : ℕ := 0
  endOffset : ℕ := 0
deriving DecidableEq, Repr

namespace FileCommitSlot

def add (slot : FileCommitSlot) (generation endOffset : ℕ) : FileCommitSlot :=
  if slot.generation < generation ∨ generation = slot.generation ∧ slot.endOffset < endOffset then
    ⟨true, generation, endOffset⟩
  else slot

def take (slot : FileCommitSlot) : Option (ℕ × ℕ) × FileCommitSlot :=
  if slot.pending = false then (none, slot)
  else (some (slot.generation, slot.endOffset), { slot with pending := false })

def position (slot : FileCommitSlot) : Position := FileReader.position slot.generation slot.endOffset

/-- the slot is a cell which keeps the greatest position -/
def mark (slot : FileCommitSlot) : Mark Position := ⟨slot.position, slot.pending⟩

theorem add_mark (slot : FileCommitSlot) (generation endOffset : ℕ) :
    (slot.add generation endOffset).mark = slot.mark.add (FileReader.position generation endOffset) := by
  have hlt : slot.position < FileReader.position generation endOffset ↔
      slot.generation < generation ∨ generation = slot.generation ∧ slot.endOffset < endOffset := by
    unfold position
    rw [FileReader.position_lt, eq_comm (a := generation)]
  unfold add Mark.add mark
  simp only [hlt]
  split_ifs <;> rfl

theorem take_mark (slot : FileCommitSlot) : slot.mark.take =
    (slot.take.1.map fun p => FileReader.position p.1 p.2, slot.take.2.mark) := by
  obtain ⟨pending, generation, endOffset⟩ := slot
  cases pending <;> rfl

theorem take_position (slot : FileCommitSlot) : slot.take.2.position = slot.position := by
  unfold take
  split_ifs <;> rfl

theorem add_position (slot : FileCommitSlot) (generation endOffset : ℕ) :
    (slot.add generation endOffset).position = slot.position ∨
      (slot.add generation endOffset).position = FileReader.position generation endOffset := by
  unfold add
  split_ifs
  · exact Or.inr rfl
  · exact Or.inl rfl

end FileCommitSlot

/-! ## Records -/

/-- what the threads look at of a `LogRecord` -/
structure QueuedRecord where
  source : LogSource
  line : Bytes
  fileGeneration : ℕ := 0
  fileEndOffset : ℕ := 0
deriving DecidableEq, Repr

/-- a record of one of the other inputs -/
abbrev OtherRecord : Type := { record : QueuedRecord // record.source ≠ .file }

/-- the record which `FileThread` makes of a line -/
def lineRecord (line : Line) : QueuedRecord := ⟨.file, line.text, line.generation, line.endOffset⟩

/-- `OTELFWD_MAX_BATCH_RECORDS` -/
def maxBatchRecords : ℕ := 100

/-- `OTELFWD_MAX_BATCH_BYTES` -/
def maxBatchBytes : ℕ := 512 * 1024

/-- `OTELFWD_FILE_LINES_PER_ROUND` -/
def fileLinesPerRound : ℕ := 1000

/-- the text which sends a record to the WAL -/
def walTesting : Bytes := ascii "WAL-TESTING"

structure ForwarderConfig where
  /-- `OTLP_PUSH_API_URL` is set -/
  pushUrl : Bool
  /-- `g_SocketQueueMax` -/
  socketQueueMax : ℕ
deriving DecidableEq, Repr

/-! ## The threads -/

/-- where `FileThread` is, and `main` behind it -/
inductive FilePhase where
  /-- before `Take` -/
  | top
  /-- before `Commit` -/
  | commit
  /-- before the size of the queue is read. `lines` were read in this round -/
  | room (lines : ℕ)
  | read (lines : ℕ)
  | push (lines : ℕ) (record : QueuedRecord)
  /-- the thread ended, `main` can take a last position -/
  | ended
  /-- before the `Commit` of `main` -/
  | last (generation endOffset : ℕ)
deriving DecidableEq, Repr

structure FileThread where
  phase : FilePhase := .top
  generation : ℕ := 0
  endOffset : ℕ := 0
  /-- `bRetry` -/
  retry : Bool := false
deriving DecidableEq, Repr

/-- where `PushThread` is. `safe` is `bBatchSafe` -/
inductive PushPhase where
  | idle
  /-- `todo` are the records of the batch which were not looked at, `otlpBatch` those which are pushed -/
  | collect (batch todo otlpBatch : List QueuedRecord) (safe : Bool)
  | send (batch otlpBatch : List QueuedRecord) (safe : Bool)
  /-- before the payload goes to the WAL -/
  | spill (batch otlpBatch : List QueuedRecord) (safe : Bool)
  /-- in `HandOverFilePositions` -/
  | handOver (todo : List QueuedRecord)
  | ended
deriving DecidableEq, Repr

structure Forwarder where
  disk : Disk
  reader : Reader
  log : List Message := []
  slot : FileCommitSlot := {}
  fifo : LogFifo QueuedRecord := {}
  file : FileThread := {}
  push : PushPhase := .idle
  /-- `g_Metric_WalRefused` -/
  walRefused : ℕ := 0
  alive : Bool := true
  /-- the lines which `ReadLine` returned -/
  returned : List Line := []
  accepted : List QueuedRecord := []
  stored : List QueuedRecord := []
  rejected : List QueuedRecord := []
  calls : List (Call Position) := []
  /-- the generation and the position of the reader, behind each of its calls -/
  positions : List (ℕ × ℕ) := []

/-- what happens next -/
inductive ForwarderAct where
  /-- what other programs do to the files -/
  | changes (changes : List Change)
  /-- another input queues a record -/
  | push (record : OtherRecord)
  | tryPush (record : OtherRecord)
  /-- the next step of `FileThread`. `stop` is `g_ShutdownRequested` -/
  | fileThread (tNow : ℤ) (rounds : ℕ) (kern : Kernel) (stop : Bool)
  /-- the next step of `PushThread` -/
  | pushThread (walAppends : Bool) (action : PushAction)
  /-- the shutdown of the queue -/
  | shutdown
  | kill

namespace Forwarder

/-- `FileReader::Open` was called -/
def start (settings : FileReader.Settings) (disk : Disk) : Forwarder where
  disk := disk
  reader := .ready settings
  positions := [(0, 0)]

def sys (w : Forwarder) (kern : Kernel) : Sys := ⟨w.disk, w.reader, w.log, kern⟩

/-- a call of the reader left this behind -/
def called (w : Forwarder) (s : Sys) : Forwarder :=
  { w with
    disk := s.disk
    reader := s.reader
    log := s.log
    positions := w.positions ++ [(s.reader.generation, s.reader.committed)] }

def killed (w : Forwarder) : Forwarder := { w with alive := false }

def atPhase (w : Forwarder) (phase : FilePhase) : Forwarder := { w with file := { w.file with phase := phase } }

/-- the slot answered `Take` -/
def took (w : Forwarder) : Forwarder :=
  { w with
    slot := w.slot.take.2
    calls := w.calls ++ [.take (w.slot.take.1.map fun p => position p.1 p.2)] }

/-! ### FileThread -/

/-- `g_FileCommit.Take` in `CommitDeliveredFilePositions` -/
def fileTake (w : Forwarder) : Forwarder :=
  match w.slot.take.1 with
  | none => w.took.atPhase .commit
  | some (generation, endOffset) =>
    { w.took with file := ⟨.commit, generation, endOffset, true⟩ }

/-- `g_FileReader.Commit` in `CommitDeliveredFilePositions` -/
def fileCommit (w : Forwarder) (kern : Kernel) : Forwarder :=
  if w.file.retry then
    match FileReader.FrM.commit w.file.generation w.file.endOffset (w.sys kern) with
    | .done ok s => { w.called s with file := { w.file with phase := .room 0, retry := !ok } }
    | .crash s => (w.called s).killed
  else w.atPhase (.room 0)

def fileRead (w : Forwarder) (tNow : ℤ) (rounds : ℕ) (kern : Kernel) (lines : ℕ) : Forwarder :=
  match FileReader.FrM.readLine tNow rounds (w.sys kern) with
  | .done none s => (w.called s).atPhase .top
  | .done (some line) s =>
    { (w.called s).atPhase (if line.text = [] then .room (lines + 1) else .push (lines + 1) (lineRecord line)) with
      returned := w.returned ++ [line] }
  | .crash s => (w.called s).killed

/-- `main`, when the thread has ended -/
def mainCommit (w : Forwarder) (kern : Kernel) (generation endOffset : ℕ) : Forwarder :=
  match FileReader.FrM.commit generation endOffset (w.sys kern) with
  | .done _ s => (w.called s).atPhase .ended
  | .crash s => (w.called s).killed

def fileStep (w : Forwarder) (config : ForwarderConfig) (tNow : ℤ) (rounds : ℕ) (kern : Kernel) (stop : Bool) :
    Forwarder :=
  match w.file.phase with
  | .top => if stop then w.atPhase .ended else w.fileTake
  | .commit => w.fileCommit kern
  | .room lines =>
    if lines < fileLinesPerRound ∧ w.fifo.size < config.socketQueueMax then w.atPhase (.read lines) else w.atPhase .top
  | .read lines => w.fileRead tNow rounds kern lines
  | .push lines record => { w.atPhase (.room lines) with fifo := w.fifo.push record }
  | .ended =>
    match w.slot.take.1 with
    | none => w.took
    | some (generation, endOffset) => w.took.atPhase (.last generation endOffset)
  | .last generation endOffset => w.mainCommit kern generation endOffset

/-! ### PushThread -/

/-- the end of a batch -/
def finishBatch (w : Forwarder) (batch : List QueuedRecord) (safe : Bool) : Forwarder :=
  { w with push := if safe then .handOver batch else .idle }

/-- `SendPayloadToWAL` -/
def storePayload (w : Forwarder) (payload : List QueuedRecord) (walAppends : Bool) : Forwarder :=
  if walAppends then { w with stored := w.stored ++ payload } else { w with walRefused := w.walRefused + 1 }

/-- a round of the loop which collects the records to push -/
def collect (w : Forwarder) (config : ForwarderConfig) (walAppends : Bool) (batch : List QueuedRecord)
    (record : QueuedRecord) (todo otlpBatch : List QueuedRecord) (safe : Bool) : Forwarder :=
  if config.pushUrl then
    if walTesting <:+: record.line then
      { w.storePayload [record] walAppends with push := .collect batch todo otlpBatch (safe && walAppends) }
    else { w with push := .collect batch todo (otlpBatch ++ [record]) safe }
  else { w with push := .collect batch todo otlpBatch safe }

/-- a round of the loop of `HandOverFilePositions` -/
def handOver (w : Forwarder) (record : QueuedRecord) (todo : List QueuedRecord) : Forwarder :=
  if record.source = .file then
    { w with
      slot := w.slot.add record.fileGeneration record.fileEndOffset
      calls := w.calls ++ [.add (position record.fileGeneration record.fileEndOffset)]
      push := .handOver todo }
  else { w with push := .handOver todo }

def pushStep (w : Forwarder) (config : ForwarderConfig) (walAppends : Bool) (action : PushAction) : Forwarder :=
  match w.push with
  | .idle =>
    match w.fifo.popBatch (fun record => record.line.length) maxBatchRecords maxBatchBytes with
    | (.batch batch, fifo) => { w with fifo := fifo, push := .collect batch batch [] true }
    | (.waiting, _) => w
    | (.ended, _) => { w with push := .ended }
  | .collect batch (record :: todo) otlpBatch safe => w.collect config walAppends batch record todo otlpBatch safe
  | .collect batch [] otlpBatch safe =>
    if otlpBatch = [] then w.finishBatch batch safe else { w with push := .send batch otlpBatch safe }
  | .send batch otlpBatch safe =>
    match action with
    | .accepted => { w.finishBatch batch safe with accepted := w.accepted ++ otlpBatch }
    | .rejected => { w.finishBatch batch safe with rejected := w.rejected ++ otlpBatch }
    | .retry => { w with push := .spill batch otlpBatch safe }
  | .spill batch otlpBatch safe =>
    (w.storePayload otlpBatch walAppends).finishBatch batch (safe && walAppends)
  | .handOver (record :: todo) => w.handOver record todo
  | .handOver [] => { w with push := .idle }
  | .ended => w

/-! ### Runs -/

def step (config : ForwarderConfig) (w : Forwarder) (act : ForwarderAct) : Forwarder :=
  if w.alive = false then w
  else
    match act with
    | .changes changes => { w with disk := w.disk.applyAll changes }
    | .push record => { w with fifo := w.fifo.push record.1 }
    | .tryPush record => { w with fifo := (w.fifo.tryPush record.1 config.socketQueueMax).2 }
    | .fileThread tNow rounds kern stop => w.fileStep config tNow rounds kern stop
    | .pushThread walAppends action => w.pushStep config walAppends action
    | .shutdown => { w with fifo := { w.fifo with shutdown := true } }
    | .kill => w.killed

def run (config : ForwarderConfig) (w : Forwarder) (acts : List ForwarderAct) : Forwarder := acts.foldl (step config) w

/-! ## What is said of a run -/

/-- the record was accepted by an endpoint, stored in the WAL, or refused for good -/
def Delivered (w : Forwarder) (record : QueuedRecord) : Prop :=
  record ∈ w.accepted ∨ record ∈ w.stored ∨ record ∈ w.rejected

/-- the state file holds the offset of the generation: the reader had this position behind one of its calls. A
generation which began and ended inside of one call of `ReadLine` was never seen behind a call -/
def Holds (w : Forwarder) (generation endOffset : ℕ) : Prop :=
  (∃ saved, w.disk.state = some (stateText saved) ∧ saved.offset = endOffset) ∧
    ((generation, endOffset) ∈ w.positions ∨ ∀ p ∈ w.positions, p.1 ≠ generation)

end Forwarder

end DominoLogForwarder.Otelfwd
