/-
The messages of the logs part of OTLP which the forwarder sends, `ExportLogsServiceRequest` (here `Request`) down to
`AnyValue`, with the field numbers of the comment in `otlp_protobuf.hpp`, as protobuf writes them.

`decode` reads a message by its schema, `encode` writes the fields in the order of their numbers.
`Request.decode_encode`: every message is read back.
-/
import DominoLogForwarder.Lib.Protobuf
import DominoLogForwarder.Lib.Json
import DominoLogForwarder.FileReader.StateFile

namespace DominoLogForwarder.Otlp

open Protobuf (Field optionalField repeatedField foldlM_optional foldlM_repeated)
open FileReader (Bytes ascii isDigit number)

/-! ## The messages -/

inductive Scalar where
  | string (text : Bytes)
  | bool (value : Bool)
  | int (number : Int64)
  /-- the bits of the number -/
  | double (bits : UInt64)
deriving DecidableEq

structure AnyValue where
  value : Option Scalar := none
deriving DecidableEq

structure KeyValue where
  key : Bytes := []
  value : Option AnyValue := none
deriving DecidableEq

structure LogRecord where
  timeUnixNano : Option UInt64 := none
  severityNumber : Option Int32 := none
  severityText : Option Bytes := none
  body : Option AnyValue := none
  attributes : List KeyValue := []
  observedTimeUnixNano : Option UInt64 := none
deriving DecidableEq

structure Scope where
  name : Option Bytes := none
  version : Option Bytes := none
deriving DecidableEq

structure ScopeLogs where
  scope : Option Scope := none
  logRecords : List LogRecord := []
deriving DecidableEq

structure Resource where
  attributes : List KeyValue := []
deriving DecidableEq

structure ResourceLogs where
  resource : Option Resource := none
  scopeLogs : List ScopeLogs := []
deriving DecidableEq

structure Request where
  resourceLogs : List ResourceLogs := []
deriving DecidableEq

/-! ## Protobuf: reading by the schema -/

/-- the last value counts -/
def AnyValue.merge (m : AnyValue) : Field → Option AnyValue
  | ⟨1, .bytes text⟩ => some { m with value := some (.string text) }
  | ⟨2, .varint n⟩ => some { m with value := some (.bool (n != 0)) }
  | ⟨3, .varint n⟩ => some { m with value := some (.int (UInt64.ofNat n).toInt64) }
  | ⟨4, .fixed64 n⟩ => some { m with value := some (.double n) }
  | _ => none

def AnyValue.decode : Bytes → Option AnyValue := Protobuf.decode AnyValue.merge {}

def KeyValue.merge (m : KeyValue) : Field → Option KeyValue
  | ⟨1, .bytes key⟩ => some { m with key := key }
  | ⟨2, .bytes bs⟩ => (AnyValue.decode bs).map fun value => { m with value := some value }
  | _ => none

def KeyValue.decode : Bytes → Option KeyValue := Protobuf.decode KeyValue.merge {}

def LogRecord.merge (m : LogRecord) : Field → Option LogRecord
  | ⟨1, .fixed64 n⟩ => some { m with timeUnixNano := some n }
  | ⟨2, .varint n⟩ => some { m with severityNumber := some (UInt64.ofNat n).toInt64.toInt32 }
  | ⟨3, .bytes text⟩ => some { m with severityText := some text }
  | ⟨5, .bytes bs⟩ => (AnyValue.decode bs).map fun body => { m with body := some body }
  | ⟨6, .bytes bs⟩ => (KeyValue.decode bs).map fun kv => { m with attributes := m.attributes ++ [kv] }
  | ⟨11, .fixed64 n⟩ => some { m with observedTimeUnixNano := some n }
  | _ => none

def LogRecord.decode : Bytes → Option LogRecord := Protobuf.decode LogRecord.merge {}

def Scope.merge (m : Scope) : Field → Option Scope
  | ⟨1, .bytes name⟩ => some { m with name := some name }
  | ⟨2, .bytes version⟩ => some { m with version := some version }
  | _ => none

def Scope.decode : Bytes → Option Scope := Protobuf.decode Scope.merge {}

def ScopeLogs.merge (m : ScopeLogs) : Field → Option ScopeLogs
  | ⟨1, .bytes bs⟩ => (Scope.decode bs).map fun scope => { m with scope := some scope }
  | ⟨2, .bytes bs⟩ => (LogRecord.decode bs).map fun record => { m with logRecords := m.logRecords ++ [record] }
  | _ => none

def ScopeLogs.decode : Bytes → Option ScopeLogs := Protobuf.decode ScopeLogs.merge {}

def Resource.merge (m : Resource) : Field → Option Resource
  | ⟨1, .bytes bs⟩ => (KeyValue.decode bs).map fun kv => { m with attributes := m.attributes ++ [kv] }
  | _ => none

def Resource.decode : Bytes → Option Resource := Protobuf.decode Resource.merge {}

def ResourceLogs.merge (m : ResourceLogs) : Field → Option ResourceLogs
  | ⟨1, .bytes bs⟩ => (Resource.decode bs).map fun resource => { m with resource := some resource }
  | ⟨2, .bytes bs⟩ => (ScopeLogs.decode bs).map fun logs => { m with scopeLogs := m.scopeLogs ++ [logs] }
  | _ => none

def ResourceLogs.decode : Bytes → Option ResourceLogs := Protobuf.decode ResourceLogs.merge {}

def Request.merge (m : Request) : Field → Option Request
  | ⟨1, .bytes bs⟩ => (ResourceLogs.decode bs).map fun logs => { m with resourceLogs := m.resourceLogs ++ [logs] }
  | _ => none

def Request.decode : Bytes → Option Request := Protobuf.decode Request.merge {}

/-! ## Protobuf: writing in the order of the field numbers -/

def Scalar.field : Scalar → Field
  | .string text => ⟨1, .bytes text⟩
  | .bool b => ⟨2, .varint b.toNat⟩
  | .int n => ⟨3, .varint n.toUInt64.toNat⟩
  | .double bits => ⟨4, .fixed64 bits⟩

def AnyValue.fields (m : AnyValue) : List Field := m.value.toList.map Scalar.field

def AnyValue.encode (m : AnyValue) : Bytes := Protobuf.writeFields m.fields

def KeyValue.fields (m : KeyValue) : List Field :=
  ⟨1, .bytes m.key⟩ :: optionalField 2 (fun v => .bytes v.encode) m.value

def KeyValue.encode (m : KeyValue) : Bytes := Protobuf.writeFields m.fields

def LogRecord.fields (m : LogRecord) : List Field :=
  optionalField 1 .fixed64 m.timeUnixNano ++
    optionalField 2 (fun n => .varint n.toInt64.toUInt64.toNat) m.severityNumber ++
    optionalField 3 .bytes m.severityText ++
    optionalField 5 (fun v => .bytes v.encode) m.body ++
    repeatedField 6 (fun kv => .bytes kv.encode) m.attributes ++
    optionalField 11 .fixed64 m.observedTimeUnixNano

def LogRecord.encode (m : LogRecord) : Bytes := Protobuf.writeFields m.fields

def Scope.fields (m : Scope) : List Field := optionalField 1 .bytes m.name ++ optionalField 2 .bytes m.version

def Scope.encode (m : Scope) : Bytes := Protobuf.writeFields m.fields

def ScopeLogs.fields (m : ScopeLogs) : List Field :=
  optionalField 1 (fun s => .bytes s.encode) m.scope ++ repeatedField 2 (fun r => .bytes r.encode) m.logRecords

def ScopeLogs.encode (m : ScopeLogs) : Bytes := Protobuf.writeFields m.fields

def Resource.fields (m : Resource) : List Field := repeatedField 1 (fun kv => .bytes kv.encode) m.attributes

def Resource.encode (m : Resource) : Bytes := Protobuf.writeFields m.fields

def ResourceLogs.fields (m : ResourceLogs) : List Field :=
  optionalField 1 (fun r => .bytes r.encode) m.resource ++ repeatedField 2 (fun s => .bytes s.encode) m.scopeLogs

def ResourceLogs.encode (m : ResourceLogs) : Bytes := Protobuf.writeFields m.fields

def Request.fields (m : Request) : List Field := repeatedField 1 (fun r => .bytes r.encode) m.resourceLogs

def Request.encode (m : Request) : Bytes := Protobuf.writeFields m.fields

/-! ## Every message is read back -/

theorem AnyValue.decode_encode (m : AnyValue) : AnyValue.decode m.encode = some m := by
  refine (Protobuf.decode_writeFields _ _ _).trans ?_
  obtain ⟨value⟩ := m
  cases value with
  | none => rfl
  | some value =>
    cases value with
    | string text => rfl
    | bool b => cases b <;> rfl
    | int n => simp [AnyValue.fields, Scalar.field, AnyValue.merge]
    | double bits => rfl

theorem KeyValue.decode_encode (m : KeyValue) : KeyValue.decode m.encode = some m := by
  refine (Protobuf.decode_writeFields _ _ _).trans ?_
  unfold KeyValue.fields
  rw [List.foldlM_cons]
  refine foldlM_optional (fun value => KeyValue.mk m.key value) ?_ m.value
  intro v
  simp [KeyValue.merge, AnyValue.decode_encode]

theorem LogRecord.decode_encode (m : LogRecord) : LogRecord.decode m.encode = some m := by
  refine (Protobuf.decode_writeFields _ _ _).trans ?_
  obtain ⟨time, number, text, body, attributes, observed⟩ := m
  -- one member after the other, in the order of the field numbers
  have h₁ : (optionalField 1 .fixed64 time).foldlM LogRecord.merge {} = some { timeUnixNano := time } :=
    foldlM_optional (fun x => LogRecord.mk x none none none [] none) (fun _ => rfl) time
  have h₂ : (optionalField 2 (fun n => .varint n.toInt64.toUInt64.toNat) number).foldlM LogRecord.merge
      { timeUnixNano := time } = some ⟨time, number, none, none, [], none⟩ :=
    foldlM_optional (fun x => LogRecord.mk time x none none [] none) (fun n => by simp [LogRecord.merge]) number
  have h₃ : (optionalField 3 .bytes text).foldlM LogRecord.merge ⟨time, number, none, none, [], none⟩ =
      some ⟨time, number, text, none, [], none⟩ :=
    foldlM_optional (fun x => LogRecord.mk time number x none [] none) (fun _ => rfl) text
  have h₅ : (optionalField 5 (fun v => .bytes v.encode) body).foldlM LogRecord.merge
      ⟨time, number, text, none, [], none⟩ = some ⟨time, number, text, body, [], none⟩ :=
    foldlM_optional (fun x => LogRecord.mk time number text x [] none)
      (fun v => by simp [LogRecord.merge, AnyValue.decode_encode]) body
  have h₆ : (repeatedField 6 (fun kv => .bytes kv.encode) attributes).foldlM LogRecord.merge
      ⟨time, number, text, body, [], none⟩ = some ⟨time, number, text, body, attributes, none⟩ :=
    foldlM_repeated (fun xs => LogRecord.mk time number text body xs none)
      (fun xs kv => by simp [LogRecord.merge, KeyValue.decode_encode]) attributes
  have h₁₁ : (optionalField 11 .fixed64 observed).foldlM LogRecord.merge ⟨time, number, text, body, attributes, none⟩ =
      some ⟨time, number, text, body, attributes, observed⟩ :=
    foldlM_optional (LogRecord.mk time number text body attributes) (fun _ => rfl) observed
  simp only [LogRecord.fields, List.foldlM_append, Option.bind_eq_bind, h₁, h₂, h₃, h₅, h₆, h₁₁, Option.bind_some]

theorem Scope.decode_encode (m : Scope) : Scope.decode m.encode = some m := by
  refine (Protobuf.decode_writeFields _ _ _).trans ?_
  obtain ⟨name, version⟩ := m
  have h₁ : (optionalField 1 .bytes name).foldlM Scope.merge {} = some { name := name } :=
    foldlM_optional (fun x => Scope.mk x none) (fun _ => rfl) name
  have h₂ : (optionalField 2 .bytes version).foldlM Scope.merge { name := name } = some ⟨name, version⟩ :=
    foldlM_optional (Scope.mk name) (fun _ => rfl) version
  simp only [Scope.fields, List.foldlM_append, Option.bind_eq_bind, h₁, h₂, Option.bind_some]

theorem ScopeLogs.decode_encode (m : ScopeLogs) : ScopeLogs.decode m.encode = some m := by
  refine (Protobuf.decode_writeFields _ _ _).trans ?_
  obtain ⟨scope, logRecords⟩ := m
  have h₁ : (optionalField 1 (fun s => .bytes s.encode) scope).foldlM ScopeLogs.merge {} = some { scope := scope } :=
    foldlM_optional (fun x => ScopeLogs.mk x []) (fun s => by simp [ScopeLogs.merge, Scope.decode_encode]) scope
  have h₂ : (repeatedField 2 (fun r => .bytes r.encode) logRecords).foldlM ScopeLogs.merge { scope := scope } =
      some ⟨scope, logRecords⟩ :=
    foldlM_repeated (ScopeLogs.mk scope) (fun xs r => by simp [ScopeLogs.merge, LogRecord.decode_encode]) logRecords
  simp only [ScopeLogs.fields, List.foldlM_append, Option.bind_eq_bind, h₁, h₂, Option.bind_some]

theorem Resource.decode_encode (m : Resource) : Resource.decode m.encode = some m := by
  refine (Protobuf.decode_writeFields _ _ _).trans ?_
  exact foldlM_repeated Resource.mk (fun xs kv => by simp [Resource.merge, KeyValue.decode_encode]) m.attributes

theorem ResourceLogs.decode_encode (m : ResourceLogs) : ResourceLogs.decode m.encode = some m := by
  refine (Protobuf.decode_writeFields _ _ _).trans ?_
  obtain ⟨resource, scopeLogs⟩ := m
  have h₁ : (optionalField 1 (fun r => .bytes r.encode) resource).foldlM ResourceLogs.merge {} =
      some { resource := resource } :=
    foldlM_optional (fun x => ResourceLogs.mk x [])
      (fun r => by simp [ResourceLogs.merge, Resource.decode_encode]) resource
  have h₂ : (repeatedField 2 (fun s => .bytes s.encode) scopeLogs).foldlM ResourceLogs.merge { resource := resource } =
      some ⟨resource, scopeLogs⟩ :=
    foldlM_repeated (ResourceLogs.mk resource)
      (fun xs s => by simp [ResourceLogs.merge, ScopeLogs.decode_encode]) scopeLogs
  simp only [ResourceLogs.fields, List.foldlM_append, Option.bind_eq_bind, h₁, h₂, Option.bind_some]

/-- **Every request is read back.** -/
theorem Request.decode_encode (m : Request) : Request.decode m.encode = some m := by
  refine (Protobuf.decode_writeFields _ _ _).trans ?_
  exact foldlM_repeated Request.mk (fun xs r => by simp [Request.merge, ResourceLogs.decode_encode]) m.resourceLogs

end DominoLogForwarder.Otlp
