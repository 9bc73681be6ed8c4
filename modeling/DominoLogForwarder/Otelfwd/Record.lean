/-
The records of `otelfwd` (`otelfwd.cpp`) and the payload which `BuildOtlpPayload` makes of them, as the JSON tree which
is given to the JSON writer.

The value of an `OtelKV` is one of the four kinds, and `Type` says which. `Settings` is what the configuration and the
version of the program add to a record: the default resource and the default scope.
-/
import DominoLogForwarder.Lib.Grouping
import DominoLogForwarder.Lib.Json
import DominoLogForwarder.FileReader.StateFile

namespace DominoLogForwarder.Otelfwd

open FileReader (Bytes ascii decimal)
open Grouping (Cluster groupsOf)

/-! ## The data -/

inductive OtelValue where
  | string (text : Bytes)
  | int (number : Int64)
  | double (number : Double)
  | bool (value : Bool)
deriving DecidableEq

structure OtelKV where
  key : Bytes
  value : OtelValue
deriving DecidableEq

inductive LogSource where
  | stdin
  | socket
  | file
deriving DecidableEq, Repr

structure LogRecord where
  source : LogSource := .stdin
  /-- event time. 0: use `observedTimeNs` -/
  timeNs : Int64 := 0
  /-- observed time. 0: use `timeNs` -/
  observedTimeNs : Int64 := 0
  line : Bytes := []
  pid : Int32 := 0
  process : Bytes := []
  severityNumber : Int32 := 0
  severityText : Bytes := []
  scopeName : Bytes := []
  scopeVersion : Bytes := []
  resource : List OtelKV := []
  attributes : List OtelKV := []
  fileGeneration : UInt64 := 0
  fileEndOffset : UInt64 := 0
deriving DecidableEq

structure Settings where
  /-- `g_szTask` -/
  task : Bytes := ascii "otelfwd"
  version : Bytes
  serviceName : Bytes := ascii "domino"
  serviceNamespace : Bytes := ascii "domino"
  serviceInstanceId : Bytes
  hostname : Bytes
  /-- `g_szProcessEmpty` -/
  processEmpty : Bytes := ascii "unknown"
deriving DecidableEq

/-! ## Valid UTF-8 -/

/-- the length of the character which begins with this byte, 0 for none -/
def charLength (c : UInt8) : ℕ :=
  if c < 0x80 then 1
  else if 0xC2 ≤ c ∧ c ≤ 0xDF then 2
  else if 0xE0 ≤ c ∧ c ≤ 0xEF then 3
  else if 0xF0 ≤ c ∧ c ≤ 0xF4 then 4
  else 0

/-- `bOk`: the character is complete, and neither overlong nor a surrogate nor above U+10FFFF -/
def charOk (c : UInt8) (rest : Bytes) : Bool :=
  let len := charLength c
  let c1 := rest.headD 0
  decide (0 < len) && decide (len ≤ rest.length + 1) && (rest.take (len - 1)).all (fun b => b &&& 0xC0 = 0x80) &&
    !(len = 3 && (c = 0xE0 && c1 < 0xA0 || c = 0xED && 0xA0 ≤ c1)) &&
    !(len = 4 && (c = 0xF0 && c1 < 0x90 || c = 0xF4 && 0x90 ≤ c1))

/-- the loop of `ToValidUtf8`. `copy` bytes are left of a character which is valid -/
def validUtf8From (copy : ℕ) : Bytes → Bytes
  | [] => []
  | c :: rest =>
    match copy with
    | copy + 1 => c :: validUtf8From copy rest
    | 0 =>
      if charOk c rest then c :: validUtf8From (charLength c - 1) rest
      else [0xEF, 0xBF, 0xBD] ++ validUtf8From 0 rest

def toValidUtf8 (text : Bytes) : Bytes := validUtf8From 0 text

/-! ## Keys and values -/

def stringKV (key : String) (text : Bytes) : OtelKV := ⟨ascii key, .string text⟩

def intKV (key : String) (n : Int64) : OtelKV := ⟨ascii key, .int n⟩

def sameKV (a b : OtelKV) : Bool :=
  match a.value, b.value with
  | .int x, .int y => decide (a.key = b.key) && decide (x = y)
  | .double x, .double y => decide (a.key = b.key) && x.same y
  | .bool x, .bool y => decide (a.key = b.key) && decide (x = y)
  | .string x, .string y => decide (a.key = b.key) && decide (x = y)
  | _, _ => false

def sameKVs : List OtelKV → List OtelKV → Bool
  | [], [] => true
  | a :: as, b :: bs => sameKV a b && sameKVs as bs
  | _, _ => false

/-- `GetDefaultResource` -/
def defaultResource (settings : Settings) : List OtelKV :=
  [stringKV "service.name" settings.serviceName, stringKV "service.namespace" settings.serviceNamespace,
    stringKV "service.instance.id" settings.serviceInstanceId, stringKV "host.name" settings.hostname,
    stringKV "os.type" (ascii "linux")]

/-- `SetStdinAttributes` -/
def setStdinAttributes (settings : Settings) (record : LogRecord) : LogRecord :=
  { record with
    attributes :=
      (if 0 < record.pid then [intKV "process.pid" record.pid.toInt64] else []) ++
        [stringKV "domino.task" (if record.process = [] then settings.processEmpty else record.process)] }

/-! ## The payload -/

/-- `MakeUtf8Value` -/
def utf8Value (text : Bytes) : Json := .string (toValidUtf8 text)

/-- `to_string` -/
def intText (n : Int64) : Bytes := if n < 0 then 45 :: decimal n.toInt.natAbs else decimal n.toInt.natAbs

/-- `AddOtlpKV` -/
def otlpKV (kv : OtelKV) : Json :=
  let value : Json :=
    match kv.value with
    | .int n => .object [(ascii "intValue", .string (intText n))]
    | .double d => .object [(ascii "doubleValue", .double d)]
    | .bool b => .object [(ascii "boolValue", .bool b)]
    | .string text => .object [(ascii "stringValue", utf8Value text)]
  .object [(ascii "key", utf8Value kv.key), (ascii "value", value)]

/-- a record joins the group whose first record has its scope and its resource -/
def joins (first record : LogRecord) : Bool :=
  decide (first.scopeName = record.scopeName) && decide (first.scopeVersion = record.scopeVersion) &&
    sameKVs first.resource record.resource

def otlpResource (settings : Settings) (first : LogRecord) : Json :=
  let resource := if first.resource = [] then defaultResource settings else first.resource
  .object [(ascii "attributes", .array (resource.map otlpKV))]

def otlpScope (settings : Settings) (first : LogRecord) : Json :=
  if first.scopeName = [] then
    .object [(ascii "name", .string settings.task), (ascii "version", .string settings.version)]
  else
    .object ((ascii "name", utf8Value first.scopeName) ::
      if first.scopeVersion = [] then [] else [(ascii "version", utf8Value first.scopeVersion)])

def otlpRecord (record : LogRecord) : Json :=
  let time := if record.timeNs ≠ 0 then record.timeNs else record.observedTimeNs
  let observed := if record.observedTimeNs ≠ 0 then record.observedTimeNs else record.timeNs
  .object
    ([(ascii "timeUnixNano", .string (intText time)), (ascii "observedTimeUnixNano", .string (intText observed))] ++
      (if 0 < record.severityNumber then [(ascii "severityNumber", .int (.ofInt32 record.severityNumber))] else []) ++
      (if record.severityText = [] then [] else [(ascii "severityText", utf8Value record.severityText)]) ++
      [(ascii "body", .object [(ascii "stringValue", utf8Value record.line)]),
        (ascii "attributes", .array (record.attributes.map otlpKV))])

def otlpGroup (settings : Settings) (group : Cluster LogRecord) : Json :=
  .object [(ascii "resource", otlpResource settings group.first),
    (ascii "scopeLogs", .array
      [.object [(ascii "scope", otlpScope settings group.first),
        (ascii "logRecords", .array (group.toList.map otlpRecord))]])]

/-- `BuildOtlpPayload` -/
def buildOtlpPayload (settings : Settings) (records : List LogRecord) : Json :=
  .object [(ascii "resourceLogs", .array ((groupsOf joins records).map (otlpGroup settings)))]

end DominoLogForwarder.Otelfwd
