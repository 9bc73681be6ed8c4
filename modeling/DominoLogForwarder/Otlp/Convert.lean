/-
`OtlpJsonToProtobuf` (`otlp_protobuf.hpp`): the converter from OTLP/JSON to the protobuf of the same request.

A function which writes to `Out` takes what is there already and returns it with its own bytes behind. The functions of
the messages begin with an empty string, which their caller adds with its tag and its length. An error is its text.

`parse` is the JSON parser. A string of the code is never as long as 2^64 bytes, so a length is written as it is.

`convertRequest_eq`: the converter accepts a tree exactly when it describes a request, and writes the encoding of it.
-/
import DominoLogForwarder.Otlp.FromJson

namespace DominoLogForwarder.Otlp

open FileReader (Bytes ascii isDigit number strtoull isSpace)
open Json (membersIn member items text find)
open Protobuf (Field writeField writeFields varint optionalField repeatedField)

/-! ## The protobuf writer -/

def addVarint (out : Bytes) (value : ℕ) : Bytes :=
  if 0x80 ≤ value then addVarint (out ++ [UInt8.ofNat (value &&& 0x7F ||| 0x80)]) (value >>> 7)
  else out ++ [UInt8.ofNat value]
termination_by value
decreasing_by
  rw [Nat.shiftRight_eq_div_pow]
  omega

/-- wire types: 0 varint, 1 fixed 64 bit, 2 with a length -/
def addTag (out : Bytes) (field wireType : ℕ) : Bytes := addVarint out (field <<< 3 ||| wireType)

def addVarintField (out : Bytes) (field value : ℕ) : Bytes := addVarint (addTag out field 0) value

/-- the bytes of a number, least significant byte first -/
def addFixed64Field (out : Bytes) (field : ℕ) (value : UInt64) : Bytes :=
  addTag out field 1 ++ (List.range 8).map fun i => UInt8.ofNat (value.toNat >>> (8 * i) &&& 0xFF)

/-- a string, or a message which was written to a string before -/
def addBytesField (out : Bytes) (field : ℕ) (bytes : Bytes) : Bytes :=
    addVarint (addTag out field 2) bytes.length ++ bytes

/-! ## Reading the JSON -/

def fail {α : Type} (error : Bytes) : Except Bytes α := .error error

def quoted (name : Bytes) : Bytes := 34 :: name ++ [34]

/-- what a C function sees of a text -/
def cString (text : Bytes) : Bytes := text.takeWhile (· ≠ 0)

theorem cString_eq_self {text : Bytes} : cString text = text ↔ 0 ∉ text := by
  unfold cString
  rw [List.takeWhile_eq_self_iff]
  constructor
  · intro h hmem
    exact absurd (h 0 hmem) (by decide)
  · intro h b hb
    exact decide_eq_true fun heq => h (heq ▸ hb)

def checkObject (value : Json) (what : String) (known : List String) : Except Bytes (List (Bytes × Json)) :=
  match value with
  | .object members =>
    match members.find? fun m => !(known.map ascii).contains (cString m.1) with
    | none => .ok members
    | some m => fail (ascii "unknown member " ++ quoted (cString m.1) ++ ascii " in " ++ quoted (ascii what))
  | _ => fail (quoted (ascii what) ++ ascii " is not a JSON object")

def checkArray (value : Json) (name : String) : Except Bytes (List Json) :=
  match value with
  | .array items => .ok items
  | _ => fail (quoted (ascii name) ++ ascii " is not a JSON array")

def checkString (value : Json) (name : String) : Except Bytes Bytes :=
  match value with
  | .string text => .ok text
  | _ => fail (quoted (ascii name) ++ ascii " is not a string")

/-- only digits, and a minus if it is signed -/
def isDecimalText (text : Bytes) (isSigned : Bool) : Bool :=
  if text.contains 0 then false
  else
    let digits := if isSigned && text.head? = some 45 then text.tail else text
    !digits.isEmpty && digits.all isDigit

/-- what `strtoll` returns, what it leaves behind in `pszEnd` and `errno` -/
structure Strtoll where
  number : ℤ
  rest : Bytes
  outOfRange : Bool

/-- blanks, a sign, and as many digits as there are. Without a digit nothing is taken -/
def strtoll (bs : Bytes) : Strtoll :=
  let unsigned := bs.dropWhile isSpace
  let negative := unsigned.head? = some 45
  let digits := if negative ∨ unsigned.head? = some 43 then unsigned.tail else unsigned
  let n : ℤ := if negative then -number (digits.takeWhile isDigit) else number (digits.takeWhile isDigit)
  if digits.takeWhile isDigit = [] then ⟨0, bs, false⟩
  else if n < -2 ^ 63 then ⟨-2 ^ 63, digits.dropWhile isDigit, true⟩
  else if 2 ^ 63 ≤ n then ⟨2 ^ 63 - 1, digits.dropWhile isDigit, true⟩
  else ⟨n, digits.dropWhile isDigit, false⟩

def getUint64 (value : Json) (name : String) : Except Bytes UInt64 :=
  let error := quoted (ascii name) ++ ascii " is not an unsigned 64 bit integer"
  match value with
  | .int n => if n.isUint64 then .ok (UInt64.ofNat n.value.toNat) else fail error
  | .string text =>
    if isDecimalText text false then
      let read := strtoull text
      if read.outOfRange = false ∧ read.rest = [] then .ok (UInt64.ofNat read.number) else fail error
    else fail error
  | _ => fail error

def getInt64 (value : Json) (name : String) : Except Bytes Int64 :=
  let error := quoted (ascii name) ++ ascii " is not a signed 64 bit integer"
  match value with
  | .int n => if n.isInt64 then .ok (Int64.ofInt n.value) else fail error
  | .string text =>
    if isDecimalText text true then
      let read := strtoll text
      if read.outOfRange = false ∧ read.rest = [] then .ok (Int64.ofInt read.number) else fail error
    else fail error
  | _ => fail error

/-- the check of `boolValue` -/
def getBool (value : Json) : Except Bytes Bool :=
  match value with
  | .bool b => .ok b
  | _ => fail (quoted (ascii "boolValue") ++ ascii " is not true or false")

/-- the check of `doubleValue`. `GetDouble` makes a double of an integer -/
def getDouble (value : Json) : Except Bytes Double :=
  match value with
  | .double d => .ok d
  | .int n => .ok (Double.ofInt n.value)
  | _ => fail (quoted (ascii "doubleValue") ++ ascii " is not a number")

/-- the check of `severityNumber` -/
def getInt (value : Json) : Except Bytes Int32 :=
  let error := quoted (ascii "severityNumber") ++ ascii " is not an integer"
  match value with
  | .int n => if n.isInt then .ok (Int32.ofInt n.value) else fail error
  | _ => fail error

/-! ## The messages -/

/-- a member which is not there is not written -/
def ifMember (members : List (Bytes × Json)) (name : String) (out : Bytes) (convert : Json → Except Bytes Bytes) :
    Except Bytes Bytes :=
  match find members (ascii name) with
  | none => .ok out
  | some value => convert value

/-- the loop over an array: every item is written to a string of its own -/
def convertItems (field : ℕ) (convert : Json → Except Bytes Bytes) (values : List Json)
    (out : Bytes) : Except Bytes Bytes :=
  values.foldlM (fun out value => do return addBytesField out field (← convert value)) out

def convertAnyValue (value : Json) (what : String) : Except Bytes Bytes := do
  let members ← checkObject value what ["stringValue", "intValue", "doubleValue", "boolValue"]
  if 1 < members.length then fail (quoted (ascii what) ++ ascii " has more than one value")
  else
    let out ← ifMember members "stringValue" [] fun p => do return addBytesField [] 1 (← checkString p "stringValue")
    let out ← ifMember members "boolValue" out fun p => do
      return addVarintField out 2 (if (← getBool p) then 1 else 0)
    let out ← ifMember members "intValue" out fun p => do
      return addVarintField out 3 (← getInt64 p "intValue").toUInt64.toNat
    ifMember members "doubleValue" out fun p => do return addFixed64Field out 4 (← getDouble p).bits

def convertKeyValue (value : Json) : Except Bytes Bytes := do
  let members ← checkObject value "attribute" ["key", "value"]
  match find members (ascii "key") with
  | none => fail (ascii "attribute without " ++ quoted (ascii "key"))
  | some p =>
    let out := addBytesField [] 1 (← checkString p "key")
    ifMember members "value" out fun p => do return addBytesField out 2 (← convertAnyValue p "value")

def convertAttributes (value : Json) (field : ℕ) (out : Bytes) : Except Bytes Bytes := do
  convertItems field convertKeyValue (← checkArray value "attributes") out

def convertLogRecord (value : Json) : Except Bytes Bytes := do
  let members ← checkObject value "logRecord"
    ["timeUnixNano", "observedTimeUnixNano", "severityNumber", "severityText", "body", "attributes"]
  let out ← ifMember members "timeUnixNano" [] fun p => do return addFixed64Field [] 1 (← getUint64 p "timeUnixNano")
  let out ← ifMember members "severityNumber" out fun p => do
    return addVarintField out 2 (← getInt p).toInt64.toUInt64.toNat
  let out ← ifMember members "severityText" out fun p => do return addBytesField out 3 (← checkString p "severityText")
  let out ← ifMember members "body" out fun p => do return addBytesField out 5 (← convertAnyValue p "body")
  let out ← ifMember members "attributes" out fun p => convertAttributes p 6 out
  ifMember members "observedTimeUnixNano" out fun p => do
    return addFixed64Field out 11 (← getUint64 p "observedTimeUnixNano")

def convertScope (value : Json) : Except Bytes Bytes := do
  let members ← checkObject value "scope" ["name", "version"]
  let out ← ifMember members "name" [] fun p => do return addBytesField [] 1 (← checkString p "name")
  ifMember members "version" out fun p => do return addBytesField out 2 (← checkString p "version")

def convertScopeLogs (value : Json) : Except Bytes Bytes := do
  let members ← checkObject value "scopeLogs" ["scope", "logRecords"]
  let out ← ifMember members "scope" [] fun p => do return addBytesField [] 1 (← convertScope p)
  ifMember members "logRecords" out fun p => do convertItems 2 convertLogRecord (← checkArray p "logRecords") out

def convertResource (value : Json) : Except Bytes Bytes := do
  let members ← checkObject value "resource" ["attributes"]
  ifMember members "attributes" [] fun p => convertAttributes p 1 []

def convertResourceLogs (value : Json) : Except Bytes Bytes := do
  let members ← checkObject value "resourceLogs" ["resource", "scopeLogs"]
  let out ← ifMember members "resource" [] fun p => do return addBytesField [] 1 (← convertResource p)
  ifMember members "scopeLogs" out fun p => do convertItems 2 convertScopeLogs (← checkArray p "scopeLogs") out

/-- `ConvertRequest` behind the parser -/
def convertRequest (doc : Json) : Except Bytes Bytes := do
  let members ← checkObject doc "request" ["resourceLogs"]
  ifMember members "resourceLogs" [] fun p => do convertItems 1 convertResourceLogs (← checkArray p "resourceLogs") []

/-- what `Convert` returns, and what is in `Out` and `Error` then -/
structure Converted where
  ok : Bool
  out : Bytes
  error : Bytes
deriving DecidableEq

/-- a JSON parser: the tree, or the text of the error and its offset -/
abbrev Parser : Type := Bytes → Except (Bytes × ℕ) Json

/-- `ConvertRequest` -/
def convertText (parse : Parser) (json : Option Bytes) : Except Bytes Bytes :=
  match json with
  | none => fail (ascii "no input")
  | some json =>
    match parse json with
    | .error (error, offset) =>
      fail (ascii "not valid JSON: " ++ error ++ ascii " (offset " ++ FileReader.decimal offset ++ ascii ")")
    | .ok doc => convertRequest doc

/-- `ConvertOtlpJsonToProtobuf` -/
def convertOtlpJsonToProtobuf (parse : Parser) (json : Option Bytes) : Converted :=
  match convertText parse json with
  | .error error => ⟨false, [], if error = [] then ascii "conversion failed" else error⟩
  | .ok request => ⟨true, request, []⟩

end DominoLogForwarder.Otlp
