/-
An event of Domino in `domfwd` (`domfwd.cpp`): its fields for OpenTelemetry (`BuildOtelFields`), the line for the
socket (`BuildEventPayload`) and the document of the direct push (`PushEventToOtel`).

What the SDK of Domino does is a parameter (`Sdk`): the conversion of texts, the names of the event types, and the
sizes of its buffers. A `TIMEDATE` is the day and the ticks which the SDK takes out of it. An event is what
`PopulateEventInfo` has copied.
-/
import DominoLogForwarder.Domfwd.Socket
import DominoLogForwarder.Otelfwd.CompactJson
import DominoLogForwarder.Otelfwd.FlatRecord

namespace DominoLogForwarder.Domfwd

open FileReader (ascii decimal isSpace)
open Otlp (cString)
open Otelfwd (JsonLib noNul_cString)

/-! ## The event -/

/-- a C string -/
structure CText where
  bytes : Bytes
  noNul : 0 ∉ bytes
deriving DecidableEq

def CText.of (bytes : Bytes) : CText := ⟨cString bytes, noNul_cString bytes⟩

/-- `SEV_...`. `other` is a number without a name -/
inductive Severity where
  | unknown
  | fatal
  | failure
  | warning1
  | warning2
  | normal
  | other
deriving DecidableEq, Repr

/-- what `TimeExtractJulianDate` and `TimeExtractTicks` take out of a `TIMEDATE` -/
structure TimeDate where
  julianDate : UInt32
  ticks : UInt32
deriving DecidableEq, Repr

/-- `DOMFWD_EXT_EVENT_INFO` -/
structure ExtEventInfo where
  addinName : CText
  execName : CText
  pidTid : CText
  targetServer : CText
  targetDatabase : CText
  targetUser : CText
  errorText : CText
deriving DecidableEq

/-- `DOMFWD_EVENT_INFO` -/
structure EventInfo where
  version : UInt16 := 2
  errorCode : UInt16 := 0
  additionalErrorCode : UInt16 := 0
  type : UInt16
  severity : Severity
  time : TimeDate
  /-- the time as a text -/
  eventTime : CText
  originatingServerName : CText
  /-- `none`: `fExtValid` is not set -/
  ext : Option ExtEventInfo
deriving DecidableEq

structure Sdk where
  /-- `OSTranslate32` from LMBCS to UTF-8: the bytes for a buffer of this size -/
  translate : Bytes → ℕ → Bytes
  eventTypeName : UInt16 → CText
  maxUserName : ℕ
  maxPath : ℕ
  maxSprintf : ℕ

/-- what `domfwd` knows about its server -/
structure Addin where
  hostName : CText
  dominoVersion : CText
  ownProcessId : UInt32
  /-- `g_szOtelPushURL` -/
  pushUrl : CText

/-- the clock when an event comes in -/
structure Clock where
  /-- `time (NULL)` -/
  seconds : UInt64
  /-- `OSCurrentTIMEDATE` -/
  now : TimeDate

/-! ## Times and numbers -/

def getOtelSeverity : Severity → UInt16 × Bytes
  | .fatal => (21, ascii "FATAL")
  | .failure => (17, ascii "ERROR")
  | .warning1 => (13, ascii "WARN")
  | .warning2 => (14, ascii "WARN")
  | .normal => (9, ascii "INFO")
  | .unknown => (0, ascii "UNSPECIFIED")
  | .other => (0, ascii "UNSPECIFIED")

/-- 1970-01-01 -/
def julianDayUnixEpoch : UInt32 := 2440588

def Clock.getEpochNanoseconds (clock : Clock) : UInt64 := clock.seconds * 1000000000

/-- a tick is 10 ms. The number of days is a `LONG` -/
def getEventEpochNanoseconds (clock : Clock) (time : TimeDate) : UInt64 :=
  if time.julianDate = 0 ∨ time.julianDate = 0xFFFFFFFF ∨ time.julianDate < julianDayUnixEpoch then
    clock.getEpochNanoseconds
  else
    let daysSinceEpoch := (time.julianDate - julianDayUnixEpoch).toInt32
    let secondsOfDay := time.ticks / 100
    let subSecondTicks := time.ticks % 100
    let epochSeconds := daysSinceEpoch.toInt64.toUInt64 * 86400 + secondsOfDay.toUInt64
    epochSeconds * 1000000000 + subSecondTicks.toUInt64 * 10000000

/-- the ticks since 1970, and a tick is 10 ms -/
def TimeDate.nanoseconds (time : TimeDate) : ℕ :=
  ((time.julianDate.toNat - julianDayUnixEpoch.toNat) * 8640000 + time.ticks.toNat) * 10000000

/-- a time after 1970 which has a place in 64 bits -/
def TimeDate.InRange (time : TimeDate) : Prop :=
  julianDayUnixEpoch ≤ time.julianDate ∧ 0 < time.nanoseconds ∧ time.nanoseconds < 2 ^ 63

/-- a number of days which is positive as a `LONG` -/
theorem toNat_days {days : UInt32} (h : days.toNat < 2 ^ 31) : days.toInt32.toInt64.toUInt64.toNat = days.toNat := by
  have hmsb : days.toBitVec.msb = false := by
    rw [BitVec.msb_eq_decide]
    exact decide_eq_false (Nat.not_le.2 h)
  calc days.toInt32.toInt64.toUInt64.toNat
      = (days.toBitVec.signExtend 64).toNat := rfl
    _ = (days.toBitVec.setWidth 64).toNat := by rw [BitVec.signExtend_eq_setWidth_of_msb_false hmsb]
    _ = days.toNat := BitVec.toNat_setWidth_of_le (by decide)

/-- the time of an event is exact -/
theorem getEventEpochNanoseconds_toNat (clock : Clock) {time : TimeDate} (h : time.InRange) :
    (getEventEpochNanoseconds clock time).toNat = time.nanoseconds := by
  obtain ⟨hday, -, hlt⟩ := h
  have hle : (2440588 : ℕ) ≤ time.julianDate.toNat := UInt32.le_iff_toNat_le.1 hday
  have hdays : (time.julianDate - julianDayUnixEpoch).toNat = time.julianDate.toNat - 2440588 :=
    UInt32.toNat_sub_of_le _ _ hday
  have hepoch : julianDayUnixEpoch.toNat = 2440588 := rfl
  unfold TimeDate.nanoseconds at hlt ⊢
  rw [hepoch] at hlt ⊢
  have hsmall : time.julianDate.toNat - 2440588 < 2 ^ 31 := by omega
  have hlong := toNat_days (hdays.trans_lt hsmall)
  have hno : ¬(time.julianDate = 0 ∨ time.julianDate = 0xFFFFFFFF ∨ time.julianDate < julianDayUnixEpoch) := by
    have hmax : (0xFFFFFFFF : UInt32).toNat = 4294967295 := rfl
    rintro (hzero | hlast | hbefore)
    · rw [hzero] at hle
      exact absurd hle (by decide)
    · rw [hlast, hmax] at hsmall
      exact absurd hsmall (by decide)
    · exact absurd hday (UInt32.not_le.2 hbefore)
  unfold getEventEpochNanoseconds
  rw [if_neg hno]
  simp only [UInt64.toNat_add, UInt64.toNat_mul, UInt32.toNat_toUInt64, UInt32.toNat_div, UInt32.toNat_mod, hlong,
    hdays]
  have hconst : (86400 : UInt64).toNat = 86400 ∧ (1000000000 : UInt64).toNat = 1000000000 ∧
      (10000000 : UInt64).toNat = 10000000 ∧ (100 : UInt32).toNat = 100 := ⟨rfl, rfl, rfl, rfl⟩
  rw [hconst.1, hconst.2.1, hconst.2.2.1, hconst.2.2.2]
  omega

/-- `strtoul` with the base 16. A number which is too large is `ULONG_MAX` -/
def strtoulHex (text : Bytes) : UInt64 :=
  let text := text.dropWhile isSpace
  let (negative, text) :=
    match text with
    | 45 :: rest => (true, rest)
    | 43 :: rest => (false, rest)
    | _ => (false, text)
  let text :=
    match text with
    | 48 :: x :: d :: rest => if (x = 120 ∨ x = 88) ∧ (Json.hexDigit? d).isSome then d :: rest else text
    | _ => text
  let n := (text.map Json.hexDigit?).takeWhile Option.isSome |>.foldl (fun n d => 16 * n + d.getD 0) 0
  if 2 ^ 64 ≤ n then UInt64.ofNat (2 ^ 64 - 1) else if negative then -UInt64.ofNat n else UInt64.ofNat n

/-- the cast to `DWORD` -/
def processIdOf (pidTid : CText) : UInt32 := (strtoulHex pidTid.bytes).toUInt32

/-! ## The fields -/

/-- `DOMFWD_UTF8_SIZE` -/
def utf8Size (n : ℕ) : ℕ := n * 2 + 1

/-- what is in a buffer of `size` bytes behind `ConvertLmbcsToUtf8` -/
def convertLmbcsToUtf8 (sdk : Sdk) (text : CText) (size : ℕ) : Bytes :=
  cString ((sdk.translate text.bytes (size - 1)).take (size - 1))

inductive KVValue where
  | int (value : Int32)
  | text (value : Bytes)
deriving DecidableEq, Repr

/-- `DOMFWD_KV` -/
structure KV where
  key : Bytes
  value : KVValue
deriving DecidableEq, Repr

def maxResourceKV : ℕ := 8

def maxAttributeKV : ℕ := 11

/-- `AddKV` and `AddKVInt`: without room, the entry is left out -/
def addKV (max : ℕ) (key : String) (value : KVValue) (kvs : List KV) : List KV :=
  if max ≤ kvs.length then kvs else kvs ++ [⟨ascii key, value⟩]

/-- `DOMFWD_OTEL_FIELDS` -/
structure OtelFields where
  timeUnixNano : Bytes
  observedTimeUnixNano : Bytes
  severityNumber : UInt16
  severityText : Bytes
  body : Bytes
  resource : List KV
  attributes : List KV
deriving DecidableEq, Repr

def wordInt (n : UInt16) : KVValue := .int (Int32.ofNat n.toNat)

/-- the resource of `BuildOtelFields` -/
def buildResource (sdk : Sdk) (addin : Addin) (info : EventInfo) : List KV :=
  let add := addKV maxResourceKV
  let server := convertLmbcsToUtf8 sdk info.originatingServerName (utf8Size sdk.maxUserName)
  let resource := add "service.name" (.text (ascii "domino")) []
  let resource := add "service.instance.id" (.text server) resource
  let resource :=
    add "host.name" (.text (if addin.hostName.bytes = [] then server else addin.hostName.bytes)) resource
  let resource := add "os.type" (.text (ascii "linux")) resource
  let resource :=
    if addin.dominoVersion.bytes = [] then resource
    else add "service.version" (.text addin.dominoVersion.bytes) resource
  match info.ext with
  | none => resource
  | some ext =>
    let exec := convertLmbcsToUtf8 sdk ext.execName (utf8Size (sdk.maxSprintf + 1))
    let resource := add "process.executable.name" (.text exec) resource
    let resource := add "process.pid" (.int (processIdOf ext.pidTid).toInt32) resource
    add "domino.process.pidtid" (.text ext.pidTid.bytes) resource

/-- the attributes of `BuildOtelFields` -/
def buildAttributes (sdk : Sdk) (info : EventInfo) : List KV :=
  let add := addKV maxAttributeKV
  let attributes := add "domino.event.type_code" (wordInt info.type) []
  let attributes := add "domino.event.type" (.text (sdk.eventTypeName info.type).bytes) attributes
  let attributes := add "domino.event.time" (.text info.eventTime.bytes) attributes
  let attributes := add "domino.error.code" (wordInt info.errorCode) attributes
  let attributes := add "domino.error.additional_code" (wordInt info.additionalErrorCode) attributes
  match info.ext with
  | none => attributes
  | some ext =>
    let addinName := convertLmbcsToUtf8 sdk ext.addinName (utf8Size (sdk.maxSprintf + 1))
    let targetServer := convertLmbcsToUtf8 sdk ext.targetServer (utf8Size (sdk.maxUserName + 1))
    let targetDatabase := convertLmbcsToUtf8 sdk ext.targetDatabase (utf8Size (sdk.maxPath + 1))
    let targetUser := convertLmbcsToUtf8 sdk ext.targetUser (utf8Size (sdk.maxUserName + 1))
    let attributes := add "domino.addin.name" (.text addinName) attributes
    let attributes := add "domino.target.server" (.text targetServer) attributes
    let attributes := add "domino.target.database" (.text targetDatabase) attributes
    add "domino.target.user" (.text targetUser) attributes

def buildOtelFields (sdk : Sdk) (addin : Addin) (clock : Clock) (info : EventInfo) : OtelFields where
  timeUnixNano := decimal (getEventEpochNanoseconds clock info.time).toNat
  observedTimeUnixNano := decimal (getEventEpochNanoseconds clock clock.now).toNat
  severityNumber := (getOtelSeverity info.severity).1
  severityText := (getOtelSeverity info.severity).2
  body :=
    match info.ext with
    | none => []
    | some ext => convertLmbcsToUtf8 sdk ext.errorText (utf8Size (sdk.maxSprintf + 1))
  resource := buildResource sdk addin info
  attributes := buildAttributes sdk info

/-! ## The documents -/

def KVValue.json : KVValue → Json
  | .int value => .int (.ofInt32 value)
  | .text value => .string value

/-- `AddKVsToJsonObject` -/
def kvsToJsonObject (kvs : List KV) : Json := .object (kvs.map fun kv => (kv.key, kv.value.json))

/-- `g_szScope` -/
def scopeName : Bytes := ascii "domino.event"

/-- `DOMFWD_VERSION` -/
def addinVersion : Bytes := ascii "0.9.0"

def scopeJson : Json := .object [(ascii "name", .string scopeName), (ascii "version", .string addinVersion)]

def severityJson (n : UInt16) : Json := .int (.ofInt32 (Int32.ofNat n.toNat))

def buildEventPayload (fields : OtelFields) : Json :=
  .object
    [(ascii "time_unix_nano", .string fields.timeUnixNano),
      (ascii "observed_time_unix_nano", .string fields.observedTimeUnixNano),
      (ascii "severity_number", severityJson fields.severityNumber),
      (ascii "severity_text", .string fields.severityText),
      (ascii "body", .string fields.body),
      (ascii "scope", scopeJson),
      (ascii "resource", kvsToJsonObject fields.resource),
      (ascii "attributes", kvsToJsonObject fields.attributes)]

/-- the log record of `PushEventToOtel`. Its body is the line for the socket -/
def pushLogRecord (fields : OtelFields) (payload : Bytes) : Json :=
  .object
    [(ascii "timeUnixNano", .string fields.timeUnixNano),
      (ascii "observedTimeUnixNano", .string fields.observedTimeUnixNano),
      (ascii "severityNumber", severityJson fields.severityNumber),
      (ascii "severityText", .string fields.severityText),
      (ascii "body", .object [(ascii "stringValue", .string (cString payload))])]

/-- the resource of `PushEventToOtel` -/
def pushResource : Json :=
  let serviceName : Json :=
    .object
      [(ascii "key", .string (ascii "service.name")),
        (ascii "value", .object [(ascii "stringValue", .string (ascii "domino"))])]
  .object [(ascii "attributes", .array [serviceName])]

/-- what `PushEventToOtel` sends -/
def pushDocument (fields : OtelFields) (payload : Bytes) : Json :=
  let scopeLog : Json :=
    .object [(ascii "scope", scopeJson), (ascii "logRecords", .array [pushLogRecord fields payload])]
  let resourceLog : Json := .object [(ascii "resource", pushResource), (ascii "scopeLogs", .array [scopeLog])]
  .object [(ascii "resourceLogs", .array [resourceLog])]

/-! ## An event comes in -/

def toLower (b : UInt8) : UInt8 := if 65 ≤ b ∧ b ≤ 90 then b + 32 else b

def containsCaseInsensitive (haystack needle : Bytes) : Bool :=
  decide (needle ≠ []) && decide (needle.map toLower <:+: haystack.map toLower)

/-- the event comes from `domfwd` -/
def isOwnEvent (addin : Addin) (info : EventInfo) : Bool :=
  match info.ext with
  | none => false
  | some ext =>
    (decide (addin.ownProcessId ≠ 0) && decide (processIdOf ext.pidTid = addin.ownProcessId)) ||
      containsCaseInsensitive ext.execName.bytes (ascii "domfwd")

/-- `DOMFWD_EXPECTED_EVENT_VERSION` -/
def expectedEventVersion : UInt16 := 2

/-- the line for the socket -/
def eventLine (lib : JsonLib) (sdk : Sdk) (addin : Addin) (clock : Clock) (info : EventInfo) : Bytes :=
  lib.write (buildEventPayload (buildOtelFields sdk addin clock info))

/-- `ProcessEventData`: the line for the socket, and what is pushed. An own event and another version are left out -/
def processEventData (lib : JsonLib) (sdk : Sdk) (addin : Addin) (clock : Clock) (info : EventInfo) :
    Option (Bytes × Option Bytes) :=
  if isOwnEvent addin info then none
  else if info.version = expectedEventVersion then
    let line := eventLine lib sdk addin clock info
    some
      (line,
        if addin.pushUrl.bytes = [] then none
        else some (lib.write (pushDocument (buildOtelFields sdk addin clock info) line)))
  else none

end DominoLogForwarder.Domfwd
