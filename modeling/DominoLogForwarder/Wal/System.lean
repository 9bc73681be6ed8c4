/-
One WAL and the threads which use it, over whole runs: objects are opened and closed, processes are killed, and the
locked sections of the public functions follow each other in any order.

A section is atomic, since it holds the mutex. `Replay` is three actions and one for the answer of its consumer, and
anything can happen between them. Every step brings its own oracle: which calls fail in it, and whether the process is
killed in front of one of them.

`trace` is the history the theorems speak about. `gen` counts the calls of `Clear` which emptied the WAL: what was
appended, delivered and accepted belongs to the content between two of them.
-/
import DominoLogForwarder.Wal.SimpleWal

namespace DominoLogForwarder.Wal

open CrashProg Framing

/-! ## Histories -/

inductive Event where
  | started (ok : Bool)
  | closed
  | killed
  | configured
  | appended (gen : ℕ) (data : Bytes) (ok : Bool)
  /-- `Replay` returned false without looking at a record -/
  | notReplayed
  /-- `Replay` has its position -/
  | replaying
  /-- a record was given to the consumer of a `Replay`, or returned by `Peek` -/
  | delivered (gen : ℕ) (record : Bytes)
  /-- the consumer returned true, or `Ack` did for the record of the last `Peek` -/
  | accepted (gen : ℕ) (record : Bytes)
  | refused
  | threw
  /-- the loop of `Replay` found nothing more and emptied the WAL -/
  | emptied
  /-- the loop of `Replay` ended for another reason -/
  | stopped
  | replayed (ok : Bool)
  | peekedNothing
  | acked (ok : Bool)
  | cleared (ok : Bool)
deriving DecidableEq, Repr

/-- the record of a successful `Append`. An empty record is not stored -/
def Event.appended? : Event → Option (ℕ × Bytes)
  | .appended g r true => if r = [] then none else some (g, r)
  | _ => none

def Event.accepted? : Event → Option (ℕ × Bytes)
  | .accepted g r => some (g, r)
  | _ => none

/-- the records which were appended, in order -/
def appendedOf (tr : List Event) : List Bytes := tr.filterMap fun e => e.appended?.map Prod.snd

/-- the records which were accepted, in order -/
def acceptedOf (tr : List Event) : List Bytes := tr.filterMap fun e => e.accepted?.map Prod.snd

/-- the records which were appended to the content of generation `g` -/
def appendedIn (g : ℕ) (tr : List Event) : List Bytes :=
  tr.filterMap fun e => e.appended?.bind fun p => if p.1 = g then some p.2 else none

/-- the records of generation `g` which were accepted -/
def acceptedIn (g : ℕ) (tr : List Event) : List Bytes :=
  tr.filterMap fun e => e.accepted?.bind fun p => if p.1 = g then some p.2 else none

/-- the generation an event belongs to -/
def Event.gen : Event → Option ℕ
  | .appended g _ _ => some g
  | .delivered g _ => some g
  | .accepted g _ => some g
  | _ => none

/-! ## The state -/

/-- where a thread in `Replay` stands -/
inductive Place where
  /-- in front of the locked section of the loop -/
  | reading
  /-- in the consumer, outside the mutex -/
  | consuming (buffer : Bytes)
  /-- in front of the last locked section -/
  | ending
deriving DecidableEq, Repr

structure Replaying where
  vars : ReplayVars
  place : Place
  /-- the generation its position was computed in -/
  gen : ℕ
deriving DecidableEq, Repr

structure World where
  files : Files := {}
  /-- the object. `none`: no process uses the WAL -/
  wal : Option SimpleWal := none
  log : Log := {}
  replay : Option Replaying := none
  /-- the record of the last `Peek`, which its caller holds -/
  held : Option Bytes := none
  gen : ℕ := 0
  trace : List Event := []
deriving DecidableEq, Repr

/-- nothing was ever written -/
def World.new : World := {}

/-! ## Steps -/

inductive Answer where
  | accept
  | refuse
  | throw
deriving DecidableEq, Repr

inductive Action where
  /-- a new object, the limit of its `SetMaxSize` (0 is none), and its `Init` -/
  | start (maxSize : ℕ := 0)
  /-- the destructor. No thread uses the object any more -/
  | close
  /-- the process is killed between two system calls of any kind -/
  | kill
  | setMaxSize (bytes : ℕ)
  | setLogLevel (level : ℕ)
  | append (data : Payload)
  | replayStart
  | replayRead
  | consume (answer : Answer)
  | replayEnd
  | peek
  | ack
  | clear
deriving DecidableEq, Repr

structure Step where
  action : Action
  oracle : Oracle := fun _ => []
  crashIn : Option ℕ := none

namespace World

def note (w : World) (es : List Event) : World := { w with trace := w.trace ++ es }

/-- the process is gone, and its lock with it. `es` happened before -/
def killed (w : World) (files : Files) (log : Log) (es : List Event) : World :=
  { w with
    files := { files with locked := false }
    wal := none
    log := { queue := [], emitted := log.emitted }
    replay := none
    held := none
    trace := w.trace ++ (es ++ [.killed]) }

/-- what the object works on in one step -/
def sys (w : World) (o : SimpleWal) (st : Step) : Sys := ⟨w.files, o, w.log, ⟨st.oracle, st.crashIn, .unset⟩⟩

def after (w : World) (s : Sys) : World := { w with files := s.files, wal := some s.wal, log := s.log }

/-- a member function is called. `cut` happened if the process is killed inside it -/
def call {α : Type} (w : World) (st : Step) (o : SimpleWal) (m : WalM α) (cut : List Event)
    (next : World → α → World) : World :=
  match m (w.sys o st) with
  | .done a s => next (w.after s) a
  | .crash s => w.killed s.files s.log cut

def start (w : World) (maxSize : ℕ) (st : Step) : World :=
  match w.wal with
  | some _ => w
  | none => w.call st { maxSize := maxSize } init [] fun w' ok => w'.note [.started ok]

def close (w : World) (st : Step) : World :=
  match w.wal, w.replay with
  | some o, none => w.call st o destroy [] fun w' _ => { w'.note [.closed] with wal := none, held := none }
  | _, _ => w

def setting (w : World) (st : Step) (m : WalM Unit) : World :=
  match w.wal with
  | none => w
  | some o => w.call st o m [] fun w' _ => w'.note [.configured]

def append (w : World) (st : Step) (data : Payload) : World :=
  match w.wal with
  | none => w
  | some o => w.call st o (Wal.append data) [] fun w' ok => w'.note [.appended w.gen data.bytes ok]

def replayStart (w : World) (st : Step) : World :=
  match w.wal with
  | none => w
  | some o => w.call st o Wal.replayStart [] fun w' r =>
    match r with
    | none => w'.note [.notReplayed]
    | some v => { w'.note [.replaying] with replay := some ⟨v, .reading, w.gen⟩ }

/-- the loop of a replay goes on with the record, or it is over -/
def replayReadNext (w : World) (gen : ℕ) : ReplayVars × Option Bytes → World
  | (v, some buffer) => { w.note [.delivered w.gen buffer] with replay := some ⟨v, .consuming buffer, w.gen⟩ }
  | (v, none) =>
    { w.note [if v.cleared && v.clearOk then .emptied else .stopped] with
      replay := some ⟨v, .ending, if v.changed then gen else w.gen⟩ }

def replayRead (w : World) (st : Step) : World :=
  match w.wal, w.replay with
  | some o, some ⟨v, .reading, g⟩ => w.call st o (Wal.replayRead v) [] fun w' r => w'.replayReadNext g r
  | _, _ => w

def consume (w : World) (st : Step) (answer : Answer) : World :=
  match w.wal, w.replay with
  | some o, some ⟨v, .consuming buffer, g⟩ =>
    match answer with
    | .accept => { w.note [.accepted g buffer] with replay := some ⟨v.accept buffer.length, .reading, g⟩ }
    | .refuse => { w.note [.refused] with replay := some ⟨v, .ending, g⟩ }
    | .throw => w.call st o replayThrow [] fun w' _ => { w'.note [.threw] with replay := none }
  | _, _ => w

def replayEnd (w : World) (st : Step) : World :=
  match w.wal, w.replay with
  | some o, some ⟨v, .ending, _⟩ =>
    w.call st o (Wal.replayEnd v) [] fun w' ok => { w'.note [.replayed ok] with replay := none }
  | _, _ => w

def peek (w : World) (st : Step) : World :=
  match w.wal with
  | none => w
  | some o => w.call st o Wal.peek [] fun w' r =>
    match r with
    | none => { w'.note [.peekedNothing] with held := none }
    | some record => { w'.note [.delivered w.gen record] with held := some record }

/-- the record which the caller of `Ack` accepts -/
def acceptHeld (w : World) : List Event := (w.held.map (Event.accepted w.gen)).toList

def ack (w : World) (st : Step) : World :=
  match w.wal with
  | none => w
  | some o => w.call st o Wal.ack w.acceptHeld fun w' ok =>
    { w'.note (if ok then w.acceptHeld ++ [.acked true] else [.acked false]) with held := none }

def clear (w : World) (st : Step) : World :=
  match w.wal with
  | none => w
  | some o => w.call st o Wal.clear [] fun w' ok =>
    { w'.note [.cleared ok] with gen := if ok then w.gen + 1 else w.gen }

/-- an action which is not possible in a state changes nothing -/
def step (w : World) (st : Step) : World :=
  match st.action with
  | .start maxSize => w.start maxSize st
  | .close => w.close st
  | .kill => match w.wal with
    | none => w
    | some _ => w.killed w.files w.log []
  | .setMaxSize bytes => w.setting st (Wal.setMaxSize bytes)
  | .setLogLevel level => w.setting st (Wal.setLogLevel level)
  | .append data => w.append st data
  | .replayStart => w.replayStart st
  | .replayRead => w.replayRead st
  | .consume answer => w.consume st answer
  | .replayEnd => w.replayEnd st
  | .peek => w.peek st
  | .ack => w.ack st
  | .clear => w.clear st

def run (w : World) (sts : List Step) : World := sts.foldl step w

@[simp] theorem run_nil (w : World) : w.run [] = w := rfl

@[simp] theorem run_cons (w : World) (st : Step) (sts : List Step) : w.run (st :: sts) = (w.step st).run sts := rfl

/-- `IsReplayPending` of the object -/
def isReplayPending (w : World) : Option Bool :=
  match w.wal with
  | none => none
  | some o => match Wal.isReplayPending (w.sys o ⟨.peek, fun _ => [], none⟩) with
    | .done b _ => some b
    | .crash _ => none

end World

/-! ## What histories add up to -/

section Histories

variable (g : ℕ) (tr tr' : List Event)

@[simp] theorem appendedIn_nil : appendedIn g [] = [] := rfl

@[simp] theorem acceptedIn_nil : acceptedIn g [] = [] := rfl

theorem appendedIn_append : appendedIn g (tr ++ tr') = appendedIn g tr ++ appendedIn g tr' := List.filterMap_append

theorem acceptedIn_append : acceptedIn g (tr ++ tr') = acceptedIn g tr ++ acceptedIn g tr' := List.filterMap_append

theorem appendedOf_append : appendedOf (tr ++ tr') = appendedOf tr ++ appendedOf tr' := List.filterMap_append

theorem acceptedOf_append : acceptedOf (tr ++ tr') = acceptedOf tr ++ acceptedOf tr' := List.filterMap_append

/-- no event is newer than generation `g` -/
def UpTo (g : ℕ) (tr : List Event) : Prop := ∀ e ∈ tr, ∀ g', e.gen = some g' → g' ≤ g

variable {g tr}

theorem Event.appended?_gen {e : Event} {p : ℕ × Bytes} (h : e.appended? = some p) : e.gen = some p.1 := by
  unfold Event.appended? at h
  split at h
  · split_ifs at h
    cases h
    rfl
  · cases h

theorem Event.accepted?_gen {e : Event} {p : ℕ × Bytes} (h : e.accepted? = some p) : e.gen = some p.1 := by
  unfold Event.accepted? at h
  split at h
  · cases h
    rfl
  · cases h

/-- nothing belongs to a generation which has not begun -/
theorem UpTo.appendedIn_succ (h : UpTo g tr) : appendedIn (g + 1) tr = [] := by
  refine List.filterMap_eq_nil_iff.2 fun e he => ?_
  cases ha : e.appended? with
  | none => rfl
  | some p =>
    have := h e he p.1 (Event.appended?_gen ha)
    rw [Option.bind_some, if_neg (by omega)]

theorem UpTo.acceptedIn_succ (h : UpTo g tr) : acceptedIn (g + 1) tr = [] := by
  refine List.filterMap_eq_nil_iff.2 fun e he => ?_
  cases ha : e.accepted? with
  | none => rfl
  | some p =>
    have := h e he p.1 (Event.accepted?_gen ha)
    rw [Option.bind_some, if_neg (by omega)]

/-- if `Clear` was never called, there is one generation -/
theorem UpTo.appendedIn_zero (h : UpTo 0 tr) : appendedIn 0 tr = appendedOf tr := by
  refine List.filterMap_congr fun e he => ?_
  cases ha : e.appended? with
  | none => rfl
  | some p =>
    have := h e he p.1 (Event.appended?_gen ha)
    rw [Option.bind_some, if_pos (by omega), Option.map_some]

theorem UpTo.acceptedIn_zero (h : UpTo 0 tr) : acceptedIn 0 tr = acceptedOf tr := by
  refine List.filterMap_congr fun e he => ?_
  cases ha : e.accepted? with
  | none => rfl
  | some p =>
    have := h e he p.1 (Event.accepted?_gen ha)
    rw [Option.bind_some, if_pos (by omega), Option.map_some]

theorem UpTo.concat (h : UpTo g tr) {e : Event} (he : ∀ g', e.gen = some g' → g' ≤ g) : UpTo g (tr ++ [e]) := by
  intro e' he'
  rcases List.mem_append.1 he' with he' | he'
  · exact h e' he'
  · rw [List.mem_singleton.1 he']; exact he

theorem UpTo.mono (h : UpTo g tr) {g' : ℕ} (hg : g ≤ g') : UpTo g' tr :=
  fun e he k hk => (h e he k hk).trans hg

end Histories

end DominoLogForwarder.Wal
