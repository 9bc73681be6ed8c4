/-
The four inputs of `otelfwd` (`otelfwd.cpp`): what becomes a record, and which.

* the sockets: `DecodeFlatRecord`, a line with a JSON object;
* syslog: `DecodeSyslogMessage`, a datagram;
* stdin: a line, which the push thread annotates with the process it came from;
* the file input: a line of the followed file.

The JSON parser and the JSON writer are parameters. A time of arrival is what `GetEpochNanoseconds` returned.
-/
import DominoLogForwarder.Otelfwd.Record
import DominoLogForwarder.Otlp.Convert

namespace DominoLogForwarder.Otelfwd

open FileReader (Bytes ascii decimal isDigit number nl)
open Otlp (Parser cString)
open Json (find)

/-- the C functions for JSON: `doc.Parse`, and `JsonToText` -/
structure JsonLib where
  parse : Parser
  write : Json → Bytes

/-! ## Digits -/

/-- the number when digits go on from `n` -/
def numberFrom (n : ℕ) (digits : Bytes) : ℕ := digits.foldl (fun n b => 10 * n + (b.toNat - 48)) n

theorem le_numberFrom (n : ℕ) (digits : Bytes) : n ≤ numberFrom n digits := by
  induction digits generalizing n with
  | nil => exact le_rfl
  | cons b digits ih => exact le_trans (by omega) (ih (10 * n + (b.toNat - 48)))

/-! ## The flat record format -/

/-- the loop over the digits, with its check for an overflow -/
def digitsToUint64 (n : ℕ) : Bytes → Option ℕ
  | [] => some n
  | b :: bs =>
    if isDigit b = false then none
    else if (2 ^ 64 - 1 - (b.toNat - 48)) / 10 < n then none
    else digitsToUint64 (n * 10 + (b.toNat - 48)) bs

/-- `GetUnixNanoFromJson` -/
def getUnixNanoFromJson (val : Json) : Option Int64 :=
  let n : Option ℕ :=
    match val with
    | .string text => if cString text = [] then none else digitsToUint64 0 (cString text)
    | .int n => if n.isUint64 then some n.value.toNat else none
    | _ => none
  n.bind fun n => if 2 ^ 63 - 1 < n then none else some (Int64.ofNat n)

/-- a member becomes an attribute, unless it is null -/
def kvFromMember (lib : JsonLib) (member : Bytes × Json) : Option OtelKV :=
  match member.2 with
  | .null => none
  | .bool b => some ⟨member.1, .bool b⟩
  | .string text => some ⟨member.1, .string text⟩
  | .int n =>
    if n.isInt64 then some ⟨member.1, .int (Int64.ofInt n.value)⟩
    -- does not fit into a signed 64 bit integer: the exact value as text
    else some ⟨member.1, .string (decimal n.value.toNat)⟩
  | .double d => some ⟨member.1, .double d⟩
  | val => some ⟨member.1, .string (lib.write val)⟩

/-- `AddKVsFromJsonObject` -/
def kvsFromJsonObject (lib : JsonLib) (obj : Json) : List OtelKV :=
  match obj with
  | .object members => members.filterMap (kvFromMember lib)
  | _ => []

/-- the text of a member which is a string -/
def stringMember (members : List (Bytes × Json)) (name : String) : Bytes :=
  match find members (ascii name) with
  | some (.string text) => text
  | _ => []

/-- the body: any value but null, as it is or as its JSON text -/
def bodyMember (lib : JsonLib) (members : List (Bytes × Json)) : Bytes :=
  match find members (ascii "body") with
  | none => []
  | some .null => []
  | some (.string text) => text
  | some val => lib.write val

def severityMember (members : List (Bytes × Json)) : Int32 :=
  match find members (ascii "severity_number") with
  | some (.int n) => if n.isInt && decide (0 ≤ n.value) && decide (n.value ≤ 24) then Int32.ofInt n.value else 0
  | _ => 0

/-- the members of a member which is an object -/
def objectMember (members : List (Bytes × Json)) (name : String) : List (Bytes × Json) :=
  match find members (ascii name) with
  | some (.object members) => members
  | _ => []

def timeMember (members : List (Bytes × Json)) (name : String) : Int64 :=
  ((find members (ascii name)).bind getUnixNanoFromJson).getD 0

/-- `DecodeFlatRecord` -/
def decodeFlatRecord (lib : JsonLib) (text : Bytes) (arrivalNs : Int64) : Option LogRecord :=
  match lib.parse (cString text) with
  | .ok (.object members) =>
    let timeNs := timeMember members "time_unix_nano"
    let observedNs := timeMember members "observed_time_unix_nano"
    -- a missing observed time is the arrival time, a missing event time is the observed time
    let observed := if observedNs ≠ 0 then observedNs else arrivalNs
    some
      { source := .socket
        severityNumber := severityMember members
        severityText := stringMember members "severity_text"
        line := bodyMember lib members
        scopeName := stringMember (objectMember members "scope") "name"
        scopeVersion := stringMember (objectMember members "scope") "version"
        resource := kvsFromJsonObject lib (.object (objectMember members "resource"))
        attributes := kvsFromJsonObject lib (.object (objectMember members "attributes"))
        observedTimeNs := observed
        timeNs := if timeNs ≠ 0 then timeNs else observed }
  | _ => none

/-! ## Syslog -/

structure SyslogMessage where
  pri : ℕ
  hostname : Bytes := []
  tag : Bytes := []
  text : Bytes := []
deriving DecidableEq, Repr

/-- the blank, which separates the tokens -/
def blank : UInt8 := 32

def isSyslogTag (token : Bytes) : Bool := decide (1 < token.length) && decide (token.getLast? = some 58)

/-- `isalpha` -/
def isAlpha (b : UInt8) : Bool := (65 ≤ b && b ≤ 90) || (97 ≤ b && b ≤ 122)

/-- "Mmm dd hh:mm:ss " is 16 characters -/
def skipTimestamp (msg : Bytes) : Bytes :=
  if 16 ≤ msg.length ∧ (msg[0]?.map isAlpha).getD false = true ∧ msg[3]? = some blank ∧ msg[9]? = some 58 ∧
      msg[12]? = some 58 ∧ msg[15]? = some blank then msg.drop 16
  else msg

/-- new lines and carriage returns at the end -/
def stripNewlines (bs : Bytes) : Bytes := (bs.reverse.dropWhile fun b => b = 10 || b = 13).reverse

/-- the text up to the first blank, and what follows it -/
def firstToken (bs : Bytes) : Bytes := bs.takeWhile (· ≠ blank)

def afterToken (bs : Bytes) : Bytes := (bs.dropWhile (· ≠ blank)).drop 1

/-- a tag can carry a process id: tag[123]: -/
def dropPid (tag : Bytes) : Bytes :=
  if tag.getLast? = some 93 then
    let bracket := (tag.takeWhile (· ≠ 91)).length
    if 0 < bracket ∧ bracket < tag.length then tag.take bracket else tag
  else tag

/-- the tokens behind the time stamp: a tag, or a host name and a tag, or neither -/
def parseTokens (pri : ℕ) (rest : Bytes) : SyslogMessage :=
  let token1 := firstToken rest
  let after := afterToken rest
  if isSyslogTag token1 then { pri := pri, tag := dropPid token1.dropLast, text := after }
  else
    let token2 := firstToken after
    if isSyslogTag token2 then
      { pri := pri, hostname := token1, tag := dropPid token2.dropLast, text := afterToken after }
    else { pri := pri, text := rest }

/-- `ParseSyslogMessage` -/
def parseSyslogMessage (msg : Bytes) : Option SyslogMessage :=
  let digits := ((msg.drop 1).take 3).takeWhile isDigit
  let rest := msg.drop (1 + digits.length)
  if msg.length < 4 ∨ msg.head? ≠ some 60 then none
  else if digits = [] ∨ rest.head? ≠ some 62 ∨ 191 < number digits then none
  else some (parseTokens (number digits) (stripNewlines (skipTimestamp (rest.drop 1))))

/-- `GetSyslogSeverity` -/
def getSyslogSeverity (severity : ℕ) : Int32 × Bytes :=
  match severity with
  | 0 => (21, ascii "EMERG")
  | 1 => (21, ascii "ALERT")
  | 2 => (21, ascii "CRIT")
  | 3 => (17, ascii "ERROR")
  | 4 => (13, ascii "WARN")
  | 5 => (10, ascii "NOTICE")
  | 6 => (9, ascii "INFO")
  | _ => (5, ascii "DEBUG")

def maxSeconds : ℕ := 9000000000

/-- the digits of the seconds, and what follows them. The check comes before the next digit -/
def secondsDigits (sec : ℕ) : Bytes → Option (ℕ × Bytes)
  | [] => some (sec, [])
  | b :: bs =>
    if isDigit b then if maxSeconds < sec then none else secondsDigits (sec * 10 + (b.toNat - 48)) bs
    else some (sec, b :: bs)

/-- the first nine digits of a fraction, as nanoseconds -/
def fractionNs (digits : Bytes) : ℕ := number (digits.take 9) * 10 ^ (9 - (digits.take 9).length)

/-- seconds with an optional fraction, as text -/
def secondsFromText (text : Bytes) : Option ℕ :=
  (secondsDigits 0 text).bind fun (sec, rest) =>
    if (text.head?.map isDigit).getD false = false then none
    else
      let fraction := if rest.head? = some 46 then (rest.drop 1).takeWhile isDigit else []
      let rest := if rest.head? = some 46 then (rest.drop 1).dropWhile isDigit else rest
      if rest ≠ [] ∨ maxSeconds < sec then none else some (sec * 1000000000 + fractionNs fraction)

/-- seconds as a number. `d - Sec` is exact, and the product is rounded -/
def secondsFromDouble (d : Double) : Option ℕ :=
  if d.units ≤ 0 ∨ (maxSeconds : ℤ) * 2 ^ 1074 < d.units then none
  else
    let sec := d.magnitude / 2 ^ 1074
    some (sec * 1000000000 + Double.round (d.magnitude % 2 ^ 1074 * 1000000000) / 2 ^ 1074)

/-- `GetUnixNanoFromSeconds` -/
def getUnixNanoFromSeconds (val : Json) : Option Int64 :=
  let ns : Option ℕ :=
    match val with
    | .string text => secondsFromText (cString text)
    | .double d => secondsFromDouble d
    | .int n => secondsFromDouble (Double.ofInt n.value)
    | _ => none
  ns.map Int64.ofNat

/-- the default resource, for a service with another name -/
def serviceResource (settings : Settings) (service : Bytes) : List OtelKV :=
  (defaultResource settings).map fun kv =>
    if kv.key = ascii "service.name" ∨ kv.key = ascii "service.namespace" then ⟨kv.key, .string service⟩ else kv

/-- `GetSyslogResource`: the service is the part of the tag before the first underscore -/
def getSyslogResource (settings : Settings) (tag : Bytes) : List OtelKV :=
  let service := tag.takeWhile (· ≠ 95)
  if service = [] then defaultResource settings else serviceResource settings service

/-- the members of a message which is a JSON object -/
def syslogMembers (lib : JsonLib) (text : Bytes) : List (Bytes × Json) :=
  if text.head? = some 123 then
    match lib.parse (cString text) with
    | .ok (.object members) => members
    | _ => []
  else []

/-- `DecodeSyslogMessage` -/
def decodeSyslogMessage (lib : JsonLib) (settings : Settings) (datagram : Bytes)
    (arrivalNs : Int64) : Option LogRecord :=
  match parseSyslogMessage datagram with
  | none => none
  | some msg =>
    if msg.text = [] then none
    else
      let members := syslogMembers lib msg.text
      let timeNs := ((find members (ascii "time")).bind getUnixNanoFromSeconds).getD 0
      let severity := getSyslogSeverity (msg.pri % 8)
      some
        { source := .socket
          observedTimeNs := arrivalNs
          line := msg.text
          scopeName := msg.tag
          resource := getSyslogResource settings msg.tag
          severityNumber := severity.1
          severityText := severity.2
          -- "time" is the event time and not an attribute. An empty string carries no information
          attributes := (kvsFromJsonObject lib (.object members)).filter fun kv =>
            decide (kv.key ≠ ascii "time") && decide (kv.value ≠ .string [])
          timeNs := if timeNs ≠ 0 then timeNs else arrivalNs }

/-! ## Standard input and the file input -/

/-- a line of standard input, with the process which the push thread found for it -/
def stdinRecord (settings : Settings) (line : Bytes) (now : Int64) (pid : Int32) (process : Bytes) : LogRecord :=
  setStdinAttributes settings { source := .stdin, timeNs := now, line := line, pid := pid, process := process }

structure FileSettings where
  /-- `g_szFileInput` -/
  path : Bytes
  severityNumber : Int32 := 9
  severityText : Bytes := ascii "INFO"
  service : Bytes := []

/-- `GetFileResource` -/
def getFileResource (settings : Settings) (file : FileSettings) : List OtelKV :=
  if file.service = [] then [] else serviceResource settings file.service

/-- the record of a line of the followed file -/
def fileRecord (settings : Settings) (file : FileSettings) (line : Bytes) (now : Int64)
    (generation endOffset : UInt64) :
    LogRecord :=
  { source := .file
    timeNs := now
    line := line
    severityNumber := file.severityNumber
    severityText := file.severityText
    resource := getFileResource settings file
    fileGeneration := generation
    fileEndOffset := endOffset
    attributes := [stringKV "log.file.path" file.path] }

end DominoLogForwarder.Otelfwd
