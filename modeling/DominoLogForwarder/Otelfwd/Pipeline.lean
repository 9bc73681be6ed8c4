/-
The way of a record through `otelfwd` (`otelfwd.cpp`), from the queue to a receiver. `PushThread` takes batches from the
queue and sends each of them as one request. A request which gets no answer is kept in the WAL, and `WalThread` sends it
again until it gets one.

A step of a thread is what it does between two places where another thread can come in: a call of the queue or of the
WAL, or a push request. What the receivers answer is given with the step, and so is what `pid.nbf` holds and which calls
of the WAL fail. The process can be killed at any time and start again. A thread which waits makes no step.

`OTLP_PUSH_API_URL` is set: without it nothing is sent. Which endpoint gets a request is in `Push/Failover.lean`, and
what the file input makes of a batch which was delivered is in `Otelfwd/FileInput.lean`.

The history is not part of the code. `Life` is what happened in one process.

- `run_memory`: the counters of a process and what became of its records.
-/
import DominoLogForwarder.Otelfwd.FileInput
import DominoLogForwarder.Otelfwd.Inputs
import DominoLogForwarder.Otelfwd.PidMap
import DominoLogForwarder.Otelfwd.Stdin
import DominoLogForwarder.Wal.Faults

namespace DominoLogForwarder.Otelfwd

open FileReader (Bytes ascii)
open Push (PushAction)

/-! ## The data -/

structure PipelineConfig where
  lib : JsonLib
  settings : Settings
  /-- `g_bPushProtobuf` -/
  protobuf : Bool := false
  /-- `g_WalMaxMB`, in bytes -/
  walMaxBytes : ℕ := 0

/-- the counters `g_Metric_...` -/
structure Metrics where
  logLines : ℕ := 0
  pushSuccess : ℕ := 0
  pushErrors : ℕ := 0
  pushRetrySuccess : ℕ := 0
  pushRetryErrors : ℕ := 0
  pushRejected : ℕ := 0
  pushConvertErrors : ℕ := 0
  walRefused : ℕ := 0
deriving DecidableEq, Repr

/-- what became of a request of the push thread -/
inductive Fate where
  | accepted
  /-- refused for good, by the receiver or because it cannot be converted -/
  | rejected
  /-- no answer, and the WAL has it -/
  | stored
  /-- no answer, and the WAL did not take it -/
  | refused
deriving DecidableEq, Repr

structure PushRequest where
  records : List LogRecord
  fate : Fate
  /-- false for WAL-TESTING, which goes to the WAL without a try -/
  tried : Bool := true
  /-- it could not be converted to protobuf -/
  unconverted : Bool := false
deriving DecidableEq

/-- a record of the WAL which was sent -/
structure Resent where
  text : Bytes
  action : PushAction
  unconverted : Bool := false
deriving DecidableEq, Repr

/-- what happened in one process -/
structure Life where
  /-- the records which the inputs put into the queue -/
  queued : List LogRecord := []
  /-- the records which left it -/
  popped : List LogRecord := []
  /-- the same records, as far as the push thread has annotated them -/
  collected : List LogRecord := []
  requests : List PushRequest := []
  resent : List Resent := []

/-- where `PushThread` is. `todo` are the records of the batch which were not looked at, `otlpBatch` those to push -/
inductive PushStage where
  | idle
  | collect (todo otlpBatch : List LogRecord)
  /-- before `SendPushRequest` -/
  | send (otlpBatch : List LogRecord)
  /-- before the payload goes to the WAL -/
  | spill (otlpBatch : List LogRecord)
  | ended
deriving DecidableEq

structure Pipeline where
  fifo : LogFifo LogRecord := {}
  pidMap : PidMap := {}
  stage : PushStage := .idle
  /-- `g_Wal`, and the replay of `WalThread`. Without an object there is no process -/
  wal : Wal.World := .new
  metrics : Metrics := {}
  life : Life := {}
  /-- the processes before -/
  past : List Life := []

/-- the calls of the WAL which fail in a step, and where the process is killed in it -/
structure WalFaults where
  oracle : Wal.Oracle := fun _ => []
  crashIn : Option ℕ := none

def WalFaults.step (faults : WalFaults) (action : Wal.Action) : Wal.Step := ⟨action, faults.oracle, faults.crashIn⟩

inductive PipelineAct where
  | push (record : LogRecord)
  | tryPush (record : LogRecord) (maxSize : ℕ)
  | pushThread (file : NbfFile) (action : PushAction) (faults : WalFaults)
  | walThread (action : PushAction) (faults : WalFaults)
  /-- the shutdown of the queue -/
  | shutdown
  /-- the process ends -/
  | exit (faults : WalFaults)
  | kill
  | start (faults : WalFaults)

/-! ## Requests -/

namespace PipelineConfig

variable (config : PipelineConfig)

/-- the text of a request -/
def payload (records : List LogRecord) : Bytes := config.lib.write (buildOtlpPayload config.settings records)

/-- `SendPushPayload`: without a body, or with a NUL in front, nothing is sent -/
def sendPushPayload (body : Bytes) (action : PushAction) : PushAction :=
  if body = [] ∨ body.head? = some 0 then .retry else action

/-- `SendPushRequest`, and whether the text could not be converted -/
def sendPushRequest (text : Bytes) (action : PushAction) : PushAction × Bool :=
  if config.protobuf then
    let converted := Otlp.convertOtlpJsonToProtobuf config.lib.parse (some text)
    if converted.ok then (sendPushPayload converted.out action, false) else (.rejected, true)
  else (sendPushPayload text action, false)

end PipelineConfig

/-- what `Append` is called with: the length of a text has 32 bits there -/
def walPayload (text : Bytes) : Wal.Payload :=
  ⟨text.take (text.length % 2 ^ 32), (List.length_take_le _ _).trans_lt (Nat.mod_lt _ (by decide))⟩

namespace Pipeline

/-! ## Steps -/

def alive (w : Pipeline) : Bool := w.wal.wal.isSome

/-- the process is gone, with what it had in memory -/
def died (w : Pipeline) : Pipeline := { wal := w.wal, past := w.past ++ [w.life] }

/-- a call of the WAL, in which the process can be killed -/
def callWal (w : Pipeline) (action : Wal.Action) (faults : WalFaults) (next : Pipeline → Pipeline) : Pipeline :=
  let w' := { w with wal := w.wal.step (faults.step action) }
  if w'.alive then next w' else w'.died

/-- what the last `Append` answered -/
def appended (w : Pipeline) : Bool :=
  match w.wal.trace.getLast? with
  | some (.appended _ _ ok) => ok
  | _ => false

def made (w : Pipeline) (request : PushRequest) : Pipeline :=
  { w with life := { w.life with requests := w.life.requests ++ [request] } }

/-- `SendPayloadToWAL` -/
def sendPayloadToWal (w : Pipeline) (config : PipelineConfig) (records : List LogRecord) (tried : Bool)
    (faults : WalFaults) : Pipeline :=
  w.callWal (.append (walPayload (config.payload records))) faults fun w =>
    if w.appended then w.made ⟨records, .stored, tried, false⟩
    else
      { w.made ⟨records, .refused, tried, false⟩ with metrics.walRefused := w.metrics.walRefused + 1 }

/-! ### PushThread -/

/-- the records of standard input get the process they came from -/
def annotate (pidMap : PidMap) (settings : Settings) (file : NbfFile) (record : LogRecord) : LogRecord × PidMap :=
  if record.source = .stdin then
    let pid := extractProcessId record.line
    let (process, pidMap) := pidMap.getProcessName file pid
    (setStdinAttributes settings { record with pid := pid, process := process }, pidMap)
  else (record, pidMap)

/-- a round of the loop which collects the records to push -/
def collect (w : Pipeline) (config : PipelineConfig) (file : NbfFile) (faults : WalFaults) (record : LogRecord)
    (todo otlpBatch : List LogRecord) : Pipeline :=
  let (record, pidMap) := annotate w.pidMap config.settings file record
  let w := { w with pidMap := pidMap, life.collected := w.life.collected ++ [record] }
  if walTesting <:+: record.line then
    { w with stage := .collect todo otlpBatch }.sendPayloadToWal config [record] false faults
  else { w with stage := .collect todo (otlpBatch ++ [record]) }

/-- what the answer to a request means -/
def answered (w : Pipeline) (otlpBatch : List LogRecord) : PushAction × Bool → Pipeline
  | (.accepted, _) =>
    { w.made ⟨otlpBatch, .accepted, true, false⟩ with
      stage := .idle, metrics.pushSuccess := w.metrics.pushSuccess + otlpBatch.length }
  | (.rejected, unconverted) =>
    { w.made ⟨otlpBatch, .rejected, true, unconverted⟩ with
      stage := .idle
      metrics :=
        { w.metrics with
          pushRejected := w.metrics.pushRejected + 1
          pushConvertErrors := w.metrics.pushConvertErrors + unconverted.toNat } }
  | (.retry, _) =>
    { w with stage := .spill otlpBatch, metrics.pushErrors := w.metrics.pushErrors + otlpBatch.length }

def pushStep (w : Pipeline) (config : PipelineConfig) (file : NbfFile) (action : PushAction) (faults : WalFaults) :
    Pipeline :=
  match w.stage with
  | .idle =>
    match w.fifo.popBatch (fun record => record.line.length) maxBatchRecords maxBatchBytes with
    | (.batch batch, fifo) =>
      { w with
        fifo := fifo
        stage := .collect batch []
        metrics.logLines := w.metrics.logLines + batch.length
        life.popped := w.life.popped ++ batch }
    | (.waiting, _) => w
    | (.ended, _) => { w with stage := .ended }
  | .collect (record :: todo) otlpBatch => w.collect config file faults record todo otlpBatch
  | .collect [] otlpBatch => { w with stage := if otlpBatch = [] then .idle else .send otlpBatch }
  | .send otlpBatch => w.answered otlpBatch (config.sendPushRequest (config.payload otlpBatch) action)
  | .spill otlpBatch => { w with stage := .idle }.sendPayloadToWal config otlpBatch true faults
  | .ended => w

/-! ### WalThread -/

def sentAgain (w : Pipeline) (resent : Resent) : Pipeline :=
  { w with life := { w.life with resent := w.life.resent ++ [resent] } }

/-- the consumer of the replay in `PushWalEntries` -/
def resend (w : Pipeline) (text : Bytes) (faults : WalFaults) : PushAction × Bool → Pipeline
  | (.accepted, _) =>
    { w.sentAgain ⟨text, .accepted, false⟩ with
      metrics.pushRetrySuccess := w.metrics.pushRetrySuccess + 1 }.callWal (.consume .accept) faults id
  | (.rejected, unconverted) =>
    { w.sentAgain ⟨text, .rejected, unconverted⟩ with
      metrics :=
        { w.metrics with
          pushRejected := w.metrics.pushRejected + 1
          pushConvertErrors := w.metrics.pushConvertErrors + unconverted.toNat } }.callWal (.consume .accept) faults id
  | (.retry, _) =>
    { w.sentAgain ⟨text, .retry, false⟩ with
      metrics.pushRetryErrors := w.metrics.pushRetryErrors + 1 }.callWal (.consume .refuse) faults id

def walStep (w : Pipeline) (config : PipelineConfig) (action : PushAction) (faults : WalFaults) : Pipeline :=
  match w.wal.replay with
  | none => if w.wal.isReplayPending = some true then w.callWal .replayStart faults id else w
  | some ⟨_, .reading, _⟩ => w.callWal .replayRead faults id
  | some ⟨_, .consuming text, _⟩ => w.resend text faults (config.sendPushRequest text action)
  | some ⟨_, .ending, _⟩ => w.callWal .replayEnd faults id

/-! ### Runs -/

/-- `main`: `SetMaxSize` and `Init` of the WAL -/
def start (w : Pipeline) (config : PipelineConfig) (faults : WalFaults) : Pipeline :=
  w.callWal (.start config.walMaxBytes) faults id

/-- the queue and the WAL are done with -/
def exit (w : Pipeline) (faults : WalFaults) : Pipeline :=
  if w.stage = .ended ∧ w.wal.replay = none then { w with wal := w.wal.step (faults.step .close) }.died else w

def step (config : PipelineConfig) (w : Pipeline) (act : PipelineAct) : Pipeline :=
  if w.alive = false then
    match act with
    | .start faults => w.start config faults
    | _ => w
  else
    match act with
    | .push record => { w with fifo := w.fifo.push record, life.queued := w.life.queued ++ [record] }
    | .tryPush record maxSize =>
      match w.fifo.tryPush record maxSize with
      | (true, fifo) => { w with fifo := fifo, life.queued := w.life.queued ++ [record] }
      | (false, _) => w
    | .pushThread file action faults => w.pushStep config file action faults
    | .walThread action faults => w.walStep config action faults
    | .shutdown => { w with fifo.shutdown := true }
    | .exit faults => w.exit faults
    | .kill => { w with wal := w.wal.step (WalFaults.step {} .kill) }.died
    | .start _ => w

def run (config : PipelineConfig) (acts : List PipelineAct) : Pipeline := acts.foldl (step config) {}

/-! ## What is said of a run -/

/-- all processes, the last one is the one which runs -/
def lives (w : Pipeline) : List Life := w.past ++ [w.life]

end Pipeline

/-- what the WAL has of a request. A text without a byte is not stored -/
def storedText (config : PipelineConfig) (request : PushRequest) : Option Bytes :=
  if request.fate = .stored ∧ (walPayload (config.payload request.records)).bytes ≠ [] then
    some (walPayload (config.payload request.records)).bytes
  else none

/-- the texts which were given to the WAL -/
def storedTexts (config : PipelineConfig) (lives : List Life) : List Bytes :=
  (lives.flatMap Life.requests).filterMap (storedText config)

/-- the text was answered, and the WAL need not keep it -/
def settledText (resent : Resent) : Option Bytes := if resent.action = .retry then none else some resent.text

def settledTexts (lives : List Life) : List Bytes := (lives.flatMap Life.resent).filterMap settledText

/-- the record which the push thread made of one of the queue -/
def Annotates (settings : Settings) (record annotated : LogRecord) : Prop :=
  if record.source = .stdin then
    ∃ process, annotated = setStdinAttributes settings
      { record with pid := extractProcessId record.line, process := process }
  else annotated = record

namespace PushStage

/-- the records of the batch which were not looked at -/
def todo : PushStage → List LogRecord
  | .collect todo _ => todo
  | _ => []

@[simp] theorem todo_idle : idle.todo = [] := rfl

/-- the records which are in no request yet -/
def inHand : PushStage → List LogRecord
  | .collect _ otlpBatch => otlpBatch
  | .send otlpBatch => otlpBatch
  | .spill otlpBatch => otlpBatch
  | _ => []

@[simp] theorem inHand_idle : idle.inHand = [] := rfl

/-- the records which were sent without an answer -/
def unanswered : PushStage → ℕ
  | .spill otlpBatch => otlpBatch.length
  | _ => 0

end PushStage

/-- how many records are in the requests -/
def recordsIn (requests : List PushRequest) (which : PushRequest → Bool) : ℕ :=
  ((requests.filter which).map fun request => request.records.length).sum

/-- the counters say what happened in the process -/
structure Counted (stage : PushStage) (metrics : Metrics) (life : Life) : Prop where
  logLines : metrics.logLines = life.popped.length
  pushSuccess : metrics.pushSuccess = recordsIn life.requests fun r => decide (r.fate = .accepted)
  pushErrors : metrics.pushErrors = stage.unanswered +
    recordsIn life.requests fun r => r.tried && (decide (r.fate = .stored) || decide (r.fate = .refused))
  walRefused : metrics.walRefused = life.requests.countP fun r => decide (r.fate = .refused)
  pushRejected : metrics.pushRejected = (life.requests.countP fun r => decide (r.fate = .rejected)) +
    life.resent.countP fun r => decide (r.action = .rejected)
  pushConvertErrors : metrics.pushConvertErrors = life.requests.countP PushRequest.unconverted +
    life.resent.countP Resent.unconverted
  pushRetrySuccess : metrics.pushRetrySuccess = life.resent.countP fun r => decide (r.action = .accepted)
  pushRetryErrors : metrics.pushRetryErrors = life.resent.countP fun r => decide (r.action = .retry)

/-- every record of the process is in one place -/
structure Accounted (settings : Settings) (fifo : LogFifo LogRecord) (stage : PushStage) (life : Life) : Prop where
  /-- the queue has those which were not taken from it -/
  queue : life.queued = life.popped ++ fifo.queue
  /-- the push thread annotates the others, in their order -/
  annotated : ∃ seen, life.popped = seen ++ stage.todo ∧ List.Forall₂ (Annotates settings) seen life.collected
  /-- each of them is in one request, or the push thread has it in hand -/
  once : (life.requests.flatMap PushRequest.records ++ stage.inHand).Perm life.collected

/-! ## The memory of a process -/

/-- a process which is gone: what its queue and its push thread had at the end is lost, and nothing else -/
def Left (settings : Settings) (life : Life) : Prop := ∃ fifo stage, Accounted settings fifo stage life

/-- what the processes have in their memory is accounted for -/
structure Memory (config : PipelineConfig) (w : Pipeline) : Prop where
  counted : Counted w.stage w.metrics w.life
  accounted : Accounted config.settings w.fifo w.stage w.life
  past : ∀ life ∈ w.past, Left config.settings life

theorem recordsIn_concat (requests : List PushRequest) (request : PushRequest) (which : PushRequest → Bool) :
    recordsIn (requests ++ [request]) which =
      recordsIn requests which + if which request then request.records.length else 0 := by
  unfold recordsIn
  rw [List.filter_append, List.map_append, List.sum_append]
  cases hwhich : which request <;> simp [hwhich]

section Memory

variable {config : PipelineConfig} {w : Pipeline}

theorem memory_new (wal : Wal.World) {past : List Life} (h : ∀ life ∈ past, Left config.settings life) :
    Memory config { wal := wal, past := past } :=
  ⟨⟨rfl, rfl, rfl, rfl, rfl, rfl, rfl, rfl⟩, ⟨rfl, ⟨[], rfl, .nil⟩, .refl []⟩, h⟩

/-- the process dies -/
theorem memory_died (h : Left config.settings w.life) (hpast : ∀ life ∈ w.past, Left config.settings life) :
    Memory config w.died :=
  memory_new _ (List.forall_mem_append.2 ⟨hpast, List.forall_mem_singleton.2 h⟩)

theorem Memory.died (h : Memory config w) (wal : Wal.World) : Memory config { w with wal := wal }.died :=
  memory_died ⟨_, _, h.accounted⟩ h.past

/-- a call of the WAL does not touch the memory, unless the process dies in it -/
theorem callWal_memory {action : Wal.Action} {faults : WalFaults} {next : Pipeline → Pipeline}
    (hdied : ∀ wal, Memory config { w with wal := wal }.died) (h : ∀ wal, Memory config (next { w with wal := wal })) :
    Memory config (w.callWal action faults next) := by
  unfold Pipeline.callWal
  dsimp only
  split_ifs
  · exact h _
  · exact hdied _

/-- the push thread goes on, and has the same in hand -/
theorem Memory.stage (h : Memory config w) {stage : PushStage} (htodo : stage.todo = w.stage.todo)
    (hhand : stage.inHand = w.stage.inHand) (hun : stage.unanswered = w.stage.unanswered) :
    Memory config { w with stage := stage } := by
  obtain ⟨hcounted, haccounted, hpast⟩ := h
  refine ⟨⟨hcounted.logLines, hcounted.pushSuccess, ?_, hcounted.walRefused, hcounted.pushRejected,
    hcounted.pushConvertErrors, hcounted.pushRetrySuccess, hcounted.pushRetryErrors⟩,
    ⟨haccounted.queue, ?_, ?_⟩, hpast⟩
  · rw [hun]
    exact hcounted.pushErrors
  · rw [htodo]
    exact haccounted.annotated
  · rw [hhand]
    exact haccounted.once

/-- records which the push thread had in hand are in a request now -/
theorem Accounted.made {settings : Settings} {fifo : LogFifo LogRecord} {stage stage' : PushStage} {life : Life}
    (h : Accounted settings fifo stage life) {request : PushRequest} (htodo : stage'.todo = stage.todo)
    (hhand : stage.inHand.Perm (request.records ++ stage'.inHand)) :
    Accounted settings fifo stage' { life with requests := life.requests ++ [request] } := by
  refine ⟨h.queue, ?_, ?_⟩
  · rw [htodo]
    exact h.annotated
  · dsimp only
    rw [List.flatMap_append, List.flatMap_singleton, List.append_assoc]
    exact (hhand.symm.append_left _).trans h.once

/-- a payload goes to the WAL -/
theorem sendPayloadToWal_memory (h : Memory config w) {stage : PushStage} {records : List LogRecord} {tried : Bool}
    (faults : WalFaults) (htodo : stage.todo = w.stage.todo) (hhand : w.stage.inHand.Perm (records ++ stage.inHand))
    (hun : w.stage.unanswered = stage.unanswered + if tried then records.length else 0) :
    Memory config ({ w with stage := stage }.sendPayloadToWal config records tried faults) := by
  unfold Pipeline.sendPayloadToWal
  obtain ⟨hcounted, haccounted, hpast⟩ := h
  refine callWal_memory (fun wal => memory_died ⟨_, _, haccounted⟩ hpast) fun wal => ?_
  split_ifs
  all_goals
    refine ⟨?_, haccounted.made htodo hhand, hpast⟩
    constructor
    all_goals
      simp [Pipeline.made, recordsIn_concat, hcounted.logLines, hcounted.pushSuccess, hcounted.pushErrors,
        hcounted.walRefused, hcounted.pushRejected, hcounted.pushConvertErrors, hcounted.pushRetrySuccess,
        hcounted.pushRetryErrors, hun] <;> omega

theorem annotates_annotate (pidMap : PidMap) (settings : Settings) (file : NbfFile) (record : LogRecord) :
    Annotates settings record (Pipeline.annotate pidMap settings file record).1 := by
  unfold Annotates Pipeline.annotate
  split_ifs
  · exact ⟨_, rfl⟩
  · rfl

theorem collect_memory (h : Memory config w) {record : LogRecord} {todo otlpBatch : List LogRecord}
    (hstage : w.stage = .collect (record :: todo) otlpBatch) (file : NbfFile) (faults : WalFaults) :
    Memory config (w.collect config file faults record todo otlpBatch) := by
  unfold Pipeline.collect
  have hannotates := annotates_annotate w.pidMap config.settings file record
  generalize Pipeline.annotate w.pidMap config.settings file record = result at hannotates ⊢
  obtain ⟨annotated, pidMap⟩ := result
  dsimp only at hannotates ⊢
  obtain ⟨hcounted, haccounted, hpast⟩ := h
  rw [hstage] at hcounted haccounted
  -- the record is in hand, wherever it goes then
  have hinHand : Memory config
      { w with
        pidMap := pidMap
        stage := .collect todo (otlpBatch ++ [annotated])
        life.collected := w.life.collected ++ [annotated] } := by
    refine ⟨?_, ⟨haccounted.queue, ?_, ?_⟩, hpast⟩
    · exact ⟨hcounted.logLines, hcounted.pushSuccess, hcounted.pushErrors, hcounted.walRefused, hcounted.pushRejected,
        hcounted.pushConvertErrors, hcounted.pushRetrySuccess, hcounted.pushRetryErrors⟩
    · obtain ⟨seen, hpopped, hseen⟩ := haccounted.annotated
      refine ⟨seen ++ [record], ?_, List.rel_append hseen (.cons hannotates .nil)⟩
      rw [List.append_assoc]
      exact hpopped
    · have honce := haccounted.once.append_right [annotated]
      rw [List.append_assoc] at honce
      exact honce
  split_ifs
  · refine sendPayloadToWal_memory hinHand faults rfl ?_ rfl
    exact List.perm_append_comm
  · exact hinHand

theorem answered_memory (h : Memory config w) {otlpBatch : List LogRecord} (hstage : w.stage = .send otlpBatch)
    (answer : PushAction × Bool) : Memory config (w.answered otlpBatch answer) := by
  obtain ⟨hcounted, haccounted, hpast⟩ := h
  rw [hstage] at hcounted haccounted
  obtain ⟨action, unconverted⟩ := answer
  have hperm : (PushStage.send otlpBatch).inHand.Perm (otlpBatch ++ PushStage.idle.inHand) := by
    rw [PushStage.inHand_idle, List.append_nil]
    exact .refl _
  cases action with
  | accepted =>
    refine ⟨?_, haccounted.made rfl hperm, hpast⟩
    unfold Pipeline.answered
    constructor
    all_goals
      simp [Pipeline.made, recordsIn_concat, hcounted.logLines, hcounted.pushSuccess, hcounted.pushErrors,
        hcounted.walRefused, hcounted.pushRejected, hcounted.pushConvertErrors, hcounted.pushRetrySuccess,
        hcounted.pushRetryErrors, PushStage.unanswered]
  | rejected =>
    refine ⟨?_, haccounted.made rfl hperm, hpast⟩
    unfold Pipeline.answered
    constructor
    all_goals
      simp [Pipeline.made, recordsIn_concat, hcounted.logLines, hcounted.pushSuccess, hcounted.pushErrors,
        hcounted.walRefused, hcounted.pushRejected, hcounted.pushConvertErrors, hcounted.pushRetrySuccess,
        hcounted.pushRetryErrors, PushStage.unanswered]
    · exact Nat.add_right_comm _ _ _
    · cases unconverted <;> simp [Nat.add_right_comm]
  | retry =>
    refine ⟨⟨hcounted.logLines, hcounted.pushSuccess, ?_, hcounted.walRefused, hcounted.pushRejected,
      hcounted.pushConvertErrors, hcounted.pushRetrySuccess, hcounted.pushRetryErrors⟩,
      ⟨haccounted.queue, haccounted.annotated, haccounted.once⟩, hpast⟩
    have herrors := hcounted.pushErrors
    unfold Pipeline.answered
    dsimp only [PushStage.unanswered] at herrors ⊢
    omega

theorem pushStep_memory (h : Memory config w) (file : NbfFile) (action : PushAction) (faults : WalFaults) :
    Memory config (w.pushStep config file action faults) := by
  unfold Pipeline.pushStep
  cases hstage : w.stage with
  | idle =>
    dsimp only
    rcases hpop : w.fifo.popBatch (fun record => record.line.length) maxBatchRecords maxBatchBytes with ⟨popped, fifo⟩
    cases popped with
    | waiting => exact h
    | ended =>
      refine h.stage ?_ ?_ ?_
      all_goals
        rw [hstage]
        rfl
    | batch batch =>
      obtain ⟨hcounted, haccounted, hpast⟩ := h
      rw [hstage] at hcounted haccounted
      refine ⟨⟨?_, hcounted.pushSuccess, hcounted.pushErrors, hcounted.walRefused, hcounted.pushRejected,
        hcounted.pushConvertErrors, hcounted.pushRetrySuccess, hcounted.pushRetryErrors⟩,
        ⟨?_, ?_, haccounted.once⟩, hpast⟩
      · dsimp only
        rw [hcounted.logLines, List.length_append]
      · dsimp only
        rw [haccounted.queue, List.append_assoc, LogFifo.popBatch_append hpop]
      · obtain ⟨seen, hpopped, hseen⟩ := haccounted.annotated
        rw [PushStage.todo_idle, List.append_nil] at hpopped
        exact ⟨seen, congrArg (· ++ batch) hpopped, hseen⟩
  | collect todo otlpBatch =>
    cases todo with
    | cons record todo => exact collect_memory h hstage file faults
    | nil =>
      dsimp only
      split_ifs with hempty
      · subst hempty
        refine h.stage ?_ ?_ ?_
        all_goals
          rw [hstage]
          rfl
      · refine h.stage ?_ ?_ ?_
        all_goals
          rw [hstage]
          rfl
  | send otlpBatch => exact answered_memory h hstage _
  | spill otlpBatch =>
    refine sendPayloadToWal_memory h faults ?_ ?_ ?_
    · rw [hstage]
      rfl
    · rw [hstage, PushStage.inHand_idle, List.append_nil]
      exact .refl _
    · rw [hstage, if_pos rfl]
      exact (Nat.zero_add _).symm
  | ended => exact h

theorem resend_memory (h : Memory config w) (text : Bytes) (faults : WalFaults) (answer : PushAction × Bool) :
    Memory config (w.resend text faults answer) := by
  obtain ⟨hcounted, haccounted, hpast⟩ := h
  have hdied : ∀ (resent : Resent) (metrics : Metrics) (wal : Wal.World),
      Memory config { w.sentAgain resent with metrics := metrics, wal := wal }.died :=
    fun resent metrics wal =>
      memory_died ⟨w.fifo, w.stage, haccounted.queue, haccounted.annotated, haccounted.once⟩ hpast
  obtain ⟨action, unconverted⟩ := answer
  cases action with
  | accepted =>
    refine callWal_memory (hdied _ _) fun wal =>
      ⟨?_, ⟨haccounted.queue, haccounted.annotated, haccounted.once⟩, hpast⟩
    constructor
    all_goals
      simp [Pipeline.sentAgain, hcounted.logLines, hcounted.pushSuccess, hcounted.pushErrors, hcounted.walRefused,
        hcounted.pushRejected, hcounted.pushConvertErrors, hcounted.pushRetrySuccess, hcounted.pushRetryErrors]
  | rejected =>
    refine callWal_memory (hdied _ _) fun wal =>
      ⟨?_, ⟨haccounted.queue, haccounted.annotated, haccounted.once⟩, hpast⟩
    constructor
    all_goals
      simp [Pipeline.sentAgain, hcounted.logLines, hcounted.pushSuccess, hcounted.pushErrors, hcounted.walRefused,
        hcounted.pushRejected, hcounted.pushConvertErrors, hcounted.pushRetrySuccess, hcounted.pushRetryErrors]
    · exact Nat.add_assoc _ _ _
    · cases unconverted <;> simp [Nat.add_assoc]
  | retry =>
    refine callWal_memory (hdied _ _) fun wal =>
      ⟨?_, ⟨haccounted.queue, haccounted.annotated, haccounted.once⟩, hpast⟩
    constructor
    all_goals
      simp [Pipeline.sentAgain, hcounted.logLines, hcounted.pushSuccess, hcounted.pushErrors, hcounted.walRefused,
        hcounted.pushRejected, hcounted.pushConvertErrors, hcounted.pushRetrySuccess, hcounted.pushRetryErrors]

/-- a record which comes into the queue -/
theorem queued_memory (h : Memory config w) (record : LogRecord) :
    Memory config { w with fifo := w.fifo.push record, life.queued := w.life.queued ++ [record] } := by
  obtain ⟨hcounted, haccounted, hpast⟩ := h
  refine ⟨⟨hcounted.logLines, hcounted.pushSuccess, hcounted.pushErrors, hcounted.walRefused, hcounted.pushRejected,
    hcounted.pushConvertErrors, hcounted.pushRetrySuccess, hcounted.pushRetryErrors⟩,
    ⟨?_, haccounted.annotated, haccounted.once⟩, hpast⟩
  dsimp only [LogFifo.push]
  rw [haccounted.queue, List.append_assoc]

theorem step_memory (h : Memory config w) (act : PipelineAct) : Memory config (w.step config act) := by
  have hwal : ∀ wal, Memory config { w with wal := wal } := fun wal => ⟨h.counted, h.accounted, h.past⟩
  have hcall : ∀ action faults, Memory config (w.callWal action faults id) :=
    fun action faults => callWal_memory h.died hwal
  unfold Pipeline.step
  split_ifs
  · cases act with
    | start faults => exact hcall _ faults
    | _ => exact h
  · cases act with
    | push record => exact queued_memory h record
    | tryPush record maxSize =>
      dsimp only [LogFifo.tryPush]
      split_ifs
      · exact h
      · exact queued_memory h record
    | pushThread file action faults => exact pushStep_memory h file action faults
    | walThread action faults =>
      dsimp only [Pipeline.walStep]
      split
      · split_ifs
        · exact hcall _ _
        · exact h
      · exact hcall _ _
      · exact resend_memory h _ _ _
      · exact hcall _ _
    | shutdown =>
      exact ⟨h.counted, ⟨h.accounted.queue, h.accounted.annotated, h.accounted.once⟩, h.past⟩
    | exit faults =>
      dsimp only [Pipeline.exit]
      split_ifs
      · exact h.died _
      · exact h
    | kill => exact h.died _
    | start faults => exact h

theorem run_memory (config : PipelineConfig) (acts : List PipelineAct) : Memory config (Pipeline.run config acts) := by
  have hrun : ∀ w, Memory config w → Memory config (acts.foldl (Pipeline.step config) w) := by
    induction acts with
    | nil => exact fun w h => h
    | cons act acts ih => exact fun w h => ih _ (step_memory h act)
  exact hrun _ (memory_new _ fun _ hmem => absurd hmem List.not_mem_nil)

end Memory

end DominoLogForwarder.Otelfwd
