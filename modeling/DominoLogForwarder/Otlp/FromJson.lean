/-
The messages of OTLP as OTLP/JSON writes them: `ofJson` is the message which a JSON tree describes.

It takes nothing it does not know: a member with another name, or a value of another type, is not a message. An integer
of 64 bits is a decimal string or a number. The order of the members does not matter (`Request.stable_ofJson`).
-/
import DominoLogForwarder.Otlp.Message

namespace DominoLogForwarder.Otlp

open FileReader (Bytes ascii isDigit number)
open Json (membersIn member items text Stable Agree stable_membersIn stable_items stable_text)

/-! ## Numbers -/

/-- the digits are an unsigned number -/
def Digits (bs : Bytes) : Prop := bs ≠ [] ∧ bs.all isDigit = true

instance (bs : Bytes) : Decidable (Digits bs) := inferInstanceAs (Decidable (_ ∧ _))

def uint64 : Json → Option UInt64
  | .int n => if 0 ≤ n.value then some (UInt64.ofNat n.value.toNat) else none
  | .string bs => if Digits bs ∧ number bs < 2 ^ 64 then some (UInt64.ofNat (number bs)) else none
  | _ => none

/-- the integer which a text stands for, with a minus in front or without -/
def signed : Bytes → Option ℤ
  | 45 :: bs => if Digits bs then some (-(number bs : ℤ)) else none
  | bs => if Digits bs then some (number bs : ℤ) else none

def int64 : Json → Option Int64
  | .int n => if n.value < 2 ^ 63 then some (Int64.ofInt n.value) else none
  | .string bs => (signed bs).bind fun n => if -2 ^ 63 ≤ n ∧ n < 2 ^ 63 then some (Int64.ofInt n) else none
  | _ => none

def int32 : Json → Option Int32
  | .int n => if -2 ^ 31 ≤ n.value ∧ n.value < 2 ^ 31 then some (Int32.ofInt n.value) else none
  | _ => none

def bool : Json → Option Bool
  | .bool b => some b
  | _ => none

/-- the bits of a number. An integer is the double next to it -/
def doubleBits : Json → Option UInt64
  | .double d => some d.bits
  | .int n => some (Double.ofInt n.value).bits
  | _ => none

/-! ## The messages -/

def AnyValue.ofJson (j : Json) : Option AnyValue :=
  (membersIn [ascii "stringValue", ascii "intValue", ascii "doubleValue", ascii "boolValue"] j).bind fun ms =>
    if 1 < ms.length then none
    else do
      let string ← member ms (ascii "stringValue") text
      let bool ← member ms (ascii "boolValue") bool
      let int ← member ms (ascii "intValue") int64
      let double ← member ms (ascii "doubleValue") doubleBits
      return ⟨(string.map Scalar.string).or
        ((bool.map Scalar.bool).or ((int.map Scalar.int).or (double.map Scalar.double)))⟩

def KeyValue.ofJson (j : Json) : Option KeyValue :=
  (membersIn [ascii "key", ascii "value"] j).bind fun ms => do
    let key ← member ms (ascii "key") text
    let key ← key
    let value ← member ms (ascii "value") AnyValue.ofJson
    return ⟨key, value⟩

def attributesOf (ms : List (Bytes × Json)) : Option (List KeyValue) :=
  (member ms (ascii "attributes") (items KeyValue.ofJson)).map fun xs => xs.getD []

def LogRecord.ofJson (j : Json) : Option LogRecord :=
  (membersIn [ascii "timeUnixNano", ascii "observedTimeUnixNano", ascii "severityNumber",
    ascii "severityText", ascii "body",
      ascii "attributes"] j).bind fun ms => do
    let time ← member ms (ascii "timeUnixNano") uint64
    let severityNumber ← member ms (ascii "severityNumber") int32
    let severityText ← member ms (ascii "severityText") text
    let body ← member ms (ascii "body") AnyValue.ofJson
    let attributes ← attributesOf ms
    let observed ← member ms (ascii "observedTimeUnixNano") uint64
    return ⟨time, severityNumber, severityText, body, attributes, observed⟩

def Scope.ofJson (j : Json) : Option Scope :=
  (membersIn [ascii "name", ascii "version"] j).bind fun ms => do
    let name ← member ms (ascii "name") text
    let version ← member ms (ascii "version") text
    return ⟨name, version⟩

def ScopeLogs.ofJson (j : Json) : Option ScopeLogs :=
  (membersIn [ascii "scope", ascii "logRecords"] j).bind fun ms => do
    let scope ← member ms (ascii "scope") Scope.ofJson
    let logRecords ← member ms (ascii "logRecords") (items LogRecord.ofJson)
    return ⟨scope, logRecords.getD []⟩

def Resource.ofJson (j : Json) : Option Resource :=
  (membersIn [ascii "attributes"] j).bind fun ms => (attributesOf ms).map Resource.mk

def ResourceLogs.ofJson (j : Json) : Option ResourceLogs :=
  (membersIn [ascii "resource", ascii "scopeLogs"] j).bind fun ms => do
    let resource ← member ms (ascii "resource") Resource.ofJson
    let scopeLogs ← member ms (ascii "scopeLogs") (items ScopeLogs.ofJson)
    return ⟨resource, scopeLogs.getD []⟩

def Request.ofJson (j : Json) : Option Request :=
  (membersIn [ascii "resourceLogs"] j).bind fun ms =>
    (member ms (ascii "resourceLogs") (items ResourceLogs.ofJson)).map fun xs => ⟨xs.getD []⟩

/-! ## The order of the members -/

/-- a number is no object, so the order of members has no effect on it -/
theorem stable_uint64 : Stable uint64 := by
  intro j j' hj
  cases hj <;> rfl

theorem stable_int64 : Stable int64 := by
  intro j j' hj
  cases hj <;> rfl

theorem stable_int32 : Stable int32 := by
  intro j j' hj
  cases hj <;> rfl

theorem stable_bool : Stable bool := by
  intro j j' hj
  cases hj <;> rfl

theorem stable_doubleBits : Stable doubleBits := by
  intro j j' hj
  cases hj <;> rfl

/-- a value has one member at most, which does not depend on an order -/
theorem AnyValue.stable_ofJson : Stable AnyValue.ofJson := by
  apply stable_membersIn
  intro ms ms' h
  have hlen : ms.length = ms'.length := by simpa only [List.length_map] using h.names.length_eq
  rw [hlen, h.member _ stable_text, h.member _ stable_bool, h.member _ stable_int64, h.member _ stable_doubleBits]

theorem KeyValue.stable_ofJson : Stable KeyValue.ofJson := by
  apply stable_membersIn
  intro ms ms' h
  rw [h.member _ stable_text, h.member _ AnyValue.stable_ofJson]

/-- the entries keep their order: they are items of an array -/
theorem attributesOf_agree {ms ms' : List (Bytes × Json)} (h : Agree ms ms') : attributesOf ms = attributesOf ms' := by
  unfold attributesOf
  rw [h.member _ (stable_items KeyValue.stable_ofJson)]

/-- a log record is read by the names of its members -/
theorem LogRecord.stable_ofJson : Stable LogRecord.ofJson := by
  apply stable_membersIn
  intro ms ms' h
  rw [h.member _ stable_uint64, h.member _ stable_int32, h.member _ stable_text, h.member _ AnyValue.stable_ofJson,
    attributesOf_agree h, h.member (ascii "observedTimeUnixNano") stable_uint64]

theorem Scope.stable_ofJson : Stable Scope.ofJson := by
  apply stable_membersIn
  intro ms ms' h
  rw [h.member _ stable_text, h.member (ascii "version") stable_text]

theorem ScopeLogs.stable_ofJson : Stable ScopeLogs.ofJson := by
  apply stable_membersIn
  intro ms ms' h
  rw [h.member _ Scope.stable_ofJson, h.member _ (stable_items LogRecord.stable_ofJson)]

theorem Resource.stable_ofJson : Stable Resource.ofJson := by
  apply stable_membersIn
  intro ms ms' h
  rw [attributesOf_agree h]

theorem ResourceLogs.stable_ofJson : Stable ResourceLogs.ofJson := by
  apply stable_membersIn
  intro ms ms' h
  rw [h.member _ Resource.stable_ofJson, h.member _ (stable_items ScopeLogs.stable_ofJson)]

/-- **The order of the members does not matter** for the request which a document stands for. -/
theorem Request.stable_ofJson : Stable Request.ofJson := by
  apply stable_membersIn
  intro ms ms' h
  rw [h.member _ (stable_items ResourceLogs.stable_ofJson)]

end DominoLogForwarder.Otlp
