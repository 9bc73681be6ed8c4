/-
An event of Domino as a record of `otelfwd`. `eventRecord` is what should be known of the event behind the socket.

- `event_round_trip`: the line of an event is taken, and the record has everything of the event.
- `paths_alike`: the document of the direct push looks like the one which `otelfwd` makes of the record.
-/
import DominoLogForwarder.Domfwd.Event
import DominoLogForwarder.Otelfwd.Payload
import DominoLogForwarder.Otelfwd.ValidUtf8

namespace DominoLogForwarder.Otelfwd

open Domfwd (Sdk Addin Clock EventInfo ExtEventInfo TimeDate KV KVValue OtelFields CText convertLmbcsToUtf8 utf8Size
  getEventEpochNanoseconds getOtelSeverity processIdOf buildOtelFields buildEventPayload eventLine)
open FileReader (Bytes ascii decimal)
open Json (find)

/-! ## What the record should be -/

/-- the server and the process which made the event -/
def eventResource (sdk : Sdk) (addin : Addin) (info : EventInfo) : List OtelKV :=
  let server := convertLmbcsToUtf8 sdk info.originatingServerName (utf8Size sdk.maxUserName)
  [stringKV "service.name" (ascii "domino"), stringKV "service.instance.id" server,
      stringKV "host.name" (if addin.hostName.bytes = [] then server else addin.hostName.bytes),
      stringKV "os.type" (ascii "linux")] ++
    (if addin.dominoVersion.bytes = [] then [] else [stringKV "service.version" addin.dominoVersion.bytes]) ++
    match info.ext with
    | none => []
    | some ext =>
      [stringKV "process.executable.name" (convertLmbcsToUtf8 sdk ext.execName (utf8Size (sdk.maxSprintf + 1))),
        intKV "process.pid" (processIdOf ext.pidTid).toInt32.toInt64, stringKV "domino.process.pidtid" ext.pidTid.bytes]

/-- what the event says about itself -/
def eventAttributes (sdk : Sdk) (info : EventInfo) : List OtelKV :=
  [intKV "domino.event.type_code" (.ofNat info.type.toNat),
      stringKV "domino.event.type" (sdk.eventTypeName info.type).bytes,
      stringKV "domino.event.time" info.eventTime.bytes, intKV "domino.error.code" (.ofNat info.errorCode.toNat),
      intKV "domino.error.additional_code" (.ofNat info.additionalErrorCode.toNat)] ++
    match info.ext with
    | none => []
    | some ext =>
      [stringKV "domino.addin.name" (convertLmbcsToUtf8 sdk ext.addinName (utf8Size (sdk.maxSprintf + 1))),
        stringKV "domino.target.server" (convertLmbcsToUtf8 sdk ext.targetServer (utf8Size (sdk.maxUserName + 1))),
        stringKV "domino.target.database" (convertLmbcsToUtf8 sdk ext.targetDatabase (utf8Size (sdk.maxPath + 1))),
        stringKV "domino.target.user" (convertLmbcsToUtf8 sdk ext.targetUser (utf8Size (sdk.maxUserName + 1)))]

/-- the message -/
def eventBody (sdk : Sdk) (info : EventInfo) : Bytes :=
  match info.ext with
  | none => []
  | some ext => convertLmbcsToUtf8 sdk ext.errorText (utf8Size (sdk.maxSprintf + 1))

/-- a time which a record can have, or another one -/
def takenTime (ns : UInt64) (other : Int64) : Int64 :=
  if 0 < ns.toNat ∧ ns.toNat < 2 ^ 63 then Int64.ofNat ns.toNat else other

def eventRecord (sdk : Sdk) (addin : Addin) (clock : Clock) (info : EventInfo) (arrivalNs : Int64) : LogRecord where
  source := .socket
  observedTimeNs := takenTime (getEventEpochNanoseconds clock clock.now) arrivalNs
  timeNs :=
    takenTime (getEventEpochNanoseconds clock info.time)
      (takenTime (getEventEpochNanoseconds clock clock.now) arrivalNs)
  severityNumber := Int32.ofNat (getOtelSeverity info.severity).1.toNat
  severityText := (getOtelSeverity info.severity).2
  line := eventBody sdk info
  scopeName := ascii "domino.event"
  scopeVersion := ascii "0.9.0"
  resource := eventResource sdk addin info
  attributes := eventAttributes sdk info

/-! ## Times -/

theorem timeMember_decimal {ms : List (Bytes × Json)} {name : String} {n : UInt64}
    (h : find ms (ascii name) = some (.string (decimal n.toNat))) (other : Int64) :
    (if timeMember ms name ≠ 0 then timeMember ms name else other) = takenTime n other := by
  have hdigits : ∀ b ∈ decimal n.toNat, FileReader.isDigit b = true := fun b hb => FileReader.isDigit_of_mem_decimal hb
  have hno : 0 ∉ decimal n.toNat := fun hmem => absurd (hdigits 0 hmem) (by decide)
  have hnumber := FileReader.number_decimal n.toNat
  unfold timeMember takenTime
  rw [h, Option.bind_some]
  by_cases hlt : n.toNat < 2 ^ 63
  · have hread : getUnixNanoFromJson (.string (decimal n.toNat)) = some (Int64.ofNat n.toNat) := by
      rw [getUnixNanoFromJson_iff hno, hnumber]
      exact ⟨FileReader.decimal_ne_nil _, hdigits, by omega, toInt_ofNat hlt⟩
    rw [hread, Option.getD_some]
    have hzero : Int64.ofNat n.toNat ≠ 0 ↔ 0 < n.toNat := by
      rw [ne_eq, ← Int64.toInt_inj, toInt_ofNat hlt]
      simp [Nat.pos_iff_ne_zero]
    simp only [hzero, hlt, and_true]
  · have hread : getUnixNanoFromJson (.string (decimal n.toNat)) = none := by
      refine Option.eq_none_iff_forall_ne_some.2 fun k hk => ?_
      rw [getUnixNanoFromJson_iff hno, hnumber] at hk
      omega
    rw [hread]
    simp only [Option.getD_none, ne_eq, not_true_eq_false, if_false, hlt, and_false]

/-! ## Entries -/

/-- what `AddKVsFromJsonObject` makes of an entry -/
def otelOfKV : KV → OtelKV
  | ⟨key, .int value⟩ => ⟨key, .int value.toInt64⟩
  | ⟨key, .text value⟩ => ⟨key, .string value⟩

theorem kvs_otel (lib : JsonLib) (kvs : List KV) :
    kvsFromJsonObject lib (Domfwd.kvsToJsonObject kvs) = kvs.map otelOfKV := by
  have hone : ∀ kv : KV, kvFromMember lib (kv.key, kv.value.json) = some (otelOfKV kv) := by
    intro kv
    obtain ⟨key, value⟩ := kv
    cases value with
    | int value =>
      have hint : (JsonInt.ofInt32 value).isInt64 = true := decide_eq_true ((Int32.toInt_lt value).trans (by decide))
      change (if (JsonInt.ofInt32 value).isInt64 = true then some (⟨key, .int (Int64.ofInt value.toInt)⟩ : OtelKV)
        else _) = _
      rw [if_pos hint, Int64.ofInt_int32ToInt]
      rfl
    | text value => rfl
  unfold Domfwd.kvsToJsonObject kvsFromJsonObject
  dsimp only
  rw [List.filterMap_map, ← List.filterMap_eq_map]
  exact List.filterMap_congr fun kv _ => hone kv

theorem otelOfKV_word (key : String) (n : UInt16) :
    otelOfKV ⟨ascii key, Domfwd.wordInt n⟩ = intKV key (.ofNat n.toNat) := by
  have hlt : n.toNat < 2 ^ 16 := n.toNat_lt
  have hword : (Int32.ofNat n.toNat).toInt64 = Int64.ofNat n.toNat := by
    rw [← Int64.toInt_inj, Int32.toInt_toInt64, toInt_ofNat (by omega), Int32.toInt_ofNat_of_lt (by omega)]
  unfold otelOfKV Domfwd.wordInt intKV
  dsimp only
  rw [hword]

/-- there is room for every entry of the resource -/
theorem buildResource_otel (sdk : Sdk) (addin : Addin) (info : EventInfo) :
    (Domfwd.buildResource sdk addin info).map otelOfKV = eventResource sdk addin info := by
  unfold Domfwd.buildResource eventResource
  cases info.ext <;> by_cases hversion : addin.dominoVersion.bytes = [] <;>
    simp [hversion, Domfwd.addKV, Domfwd.maxResourceKV, otelOfKV, stringKV, intKV]

/-- and of the attributes -/
theorem buildAttributes_otel (sdk : Sdk) (info : EventInfo) :
    (Domfwd.buildAttributes sdk info).map otelOfKV = eventAttributes sdk info := by
  unfold Domfwd.buildAttributes eventAttributes
  cases info.ext <;>
    simp [Domfwd.addKV, Domfwd.maxAttributeKV, otelOfKV_word] <;> simp [otelOfKV, stringKV]

theorem severityMember_json (severity : Domfwd.Severity) {ms : List (Bytes × Json)}
    (h : find ms (ascii "severity_number") = some (Domfwd.severityJson (getOtelSeverity severity).1)) :
    severityMember ms = Int32.ofNat (getOtelSeverity severity).1.toNat := by
  unfold severityMember
  rw [h]
  cases severity <;> rfl

/-! ## The line of an event -/

theorem noDouble_kvs (kvs : List KV) : NoDouble (Domfwd.kvsToJsonObject kvs) := by
  refine .object fun m hm => ?_
  obtain ⟨kv, -, rfl⟩ := List.mem_map.1 hm
  obtain ⟨key, value⟩ := kv
  cases value with
  | int value => exact .int _
  | text value => exact .string _

theorem noDouble_scope : NoDouble Domfwd.scopeJson := by
  refine .object ?_
  simp only [List.forall_mem_cons]
  exact ⟨.string _, .string _, List.forall_mem_nil _⟩

theorem noDouble_payload (fields : OtelFields) : NoDouble (buildEventPayload fields) := by
  refine .object ?_
  simp only [List.forall_mem_cons]
  exact ⟨.string _, .string _, .int _, .string _, .string _, noDouble_scope, noDouble_kvs _, noDouble_kvs _,
    List.forall_mem_nil _⟩

/-- the members of the line under their names -/
structure PayloadMembers (fields : OtelFields) (ms : List (Bytes × Json)) : Prop where
  time : find ms (ascii "time_unix_nano") = some (.string fields.timeUnixNano)
  observedTime : find ms (ascii "observed_time_unix_nano") = some (.string fields.observedTimeUnixNano)
  number : find ms (ascii "severity_number") = some (Domfwd.severityJson fields.severityNumber)
  text : find ms (ascii "severity_text") = some (.string fields.severityText)
  body : find ms (ascii "body") = some (.string fields.body)
  scope : find ms (ascii "scope") = some Domfwd.scopeJson
  resource : find ms (ascii "resource") = some (Domfwd.kvsToJsonObject fields.resource)
  attributes : find ms (ascii "attributes") = some (Domfwd.kvsToJsonObject fields.attributes)

theorem payloadMembers (fields : OtelFields) :
    ∃ ms, buildEventPayload fields = .object ms ∧ PayloadMembers fields ms :=
  ⟨_, rfl, ⟨rfl, rfl, rfl, rfl, rfl, rfl, rfl, rfl⟩⟩

section PayloadMembers

variable {fields : OtelFields} {ms : List (Bytes × Json)}

theorem PayloadMembers.scopeMembers (h : PayloadMembers fields ms) :
    stringMember (objectMember ms "scope") "name" = ascii "domino.event" ∧
      stringMember (objectMember ms "scope") "version" = ascii "0.9.0" := by
  have hmembers : objectMember ms "scope" =
      [(ascii "name", .string Domfwd.scopeName), (ascii "version", .string Domfwd.addinVersion)] := by
    unfold objectMember
    rw [h.scope]
    rfl
  rw [hmembers]
  exact ⟨rfl, rfl⟩

theorem kvs_member {name : String} {kvs : List KV} (lib : JsonLib)
    (h : find ms (ascii name) = some (Domfwd.kvsToJsonObject kvs)) :
    kvsFromJsonObject lib (.object (objectMember ms name)) = kvs.map otelOfKV := by
  rw [← kvs_otel lib kvs]
  unfold objectMember
  rw [h]
  rfl

end PayloadMembers

section Event

variable {lib : JsonLib} (sdk : Sdk) (addin : Addin) (clock : Clock) (info : EventInfo) (arrivalNs : Int64)

theorem decodeFlatRecord_event (hlib : lib.Standard) :
    decodeFlatRecord lib (eventLine lib sdk addin clock info) arrivalNs =
      some (eventRecord sdk addin clock info arrivalNs) := by
  have hpayload := noDouble_payload (buildOtelFields sdk addin clock info)
  have hparse := hlib.parse_write hpayload
  obtain ⟨ms, hms, hmembers⟩ := payloadMembers (buildOtelFields sdk addin clock info)
  have hscope := hmembers.scopeMembers
  have htext : stringMember ms "severity_text" = (getOtelSeverity info.severity).2 := by
    unfold stringMember
    rw [hmembers.text]
    rfl
  have hbody : bodyMember lib ms = eventBody sdk info := by
    unfold bodyMember
    rw [hmembers.body]
    rfl
  unfold decodeFlatRecord eventLine
  rw [Otlp.cString_eq_self.2 (hlib.noNul hpayload), hparse, hms]
  unfold eventRecord
  simp only [timeMember_decimal hmembers.time, timeMember_decimal hmembers.observedTime, htext, hbody, hscope.1,
    hscope.2, severityMember_json info.severity hmembers.number, kvs_member lib hmembers.resource,
    kvs_member lib hmembers.attributes]
  unfold buildOtelFields
  dsimp only
  rw [buildResource_otel, buildAttributes_otel]

/-- the record has the time of the event -/
theorem eventRecord_time (h : info.time.InRange) :
    (eventRecord sdk addin clock info arrivalNs).timeNs.toInt = info.time.nanoseconds := by
  have hns := Domfwd.getEventEpochNanoseconds_toNat clock h
  unfold eventRecord takenTime
  dsimp only
  rw [hns, if_pos h.2]
  exact toInt_ofNat h.2.2

/-- **An event gets through to a record**, and the record has everything of the event: its time, severity and message,
the server and the process which made it, and what the event says about itself. -/
theorem event_round_trip (lib : JsonLib) (hlib : lib.Standard) :
    ∃ record, decodeFlatRecord lib (eventLine lib sdk addin clock info) arrivalNs = some record ∧
      record = eventRecord sdk addin clock info arrivalNs ∧
      (info.time.InRange → record.timeNs.toInt = info.time.nanoseconds) :=
  ⟨_, decodeFlatRecord_event sdk addin clock info arrivalNs hlib, rfl,
    eventRecord_time sdk addin clock info arrivalNs⟩

end Event

/-- texts in ASCII, which are the same in LMBCS and in UTF-8 -/
def asciiSdk : Sdk where
  translate text size := text.take size
  eventTypeName type := .of (if type = 7 then ascii "Server" else ascii "EVT_?")
  maxUserName := 256
  maxPath := 256
  maxSprintf := 256

def serverAddin : Addin where
  hostName := .of (ascii "mail.example")
  dominoVersion := .of (ascii "14.0")
  ownProcessId := 77
  pushUrl := .of []

/-- 2024-01-01 00:00:01.5, as ticks of the day -/
def serverTime : TimeDate := ⟨2460311, 150⟩

def serverClock : Clock := ⟨1704067202, ⟨2460311, 200⟩⟩

/-- an event with a quote and a tab in its message -/
def serverEvent : EventInfo where
  type := 7
  severity := .failure
  time := serverTime
  eventTime := .of (ascii "2024-01-01T00:00:01Z")
  originatingServerName := .of (ascii "CN=mail/O=example")
  ext :=
    some
      { addinName := .of (ascii "server")
        execName := .of (ascii "nserver")
        pidTid := .of (ascii "8AF0:0002-CC18")
        targetServer := .of []
        targetDatabase := .of (ascii "names.nsf")
        targetUser := .of []
        errorText := .of (ascii "cannot open \"names.nsf\"\t(1)") }

theorem event_round_trip_server :
    (eventRecord asciiSdk serverAddin serverClock serverEvent 5).timeNs = 1704067201500000000 ∧
      ∃ record, decodeFlatRecord compactLib (eventLine compactLib asciiSdk serverAddin serverClock serverEvent) 5 =
          some record ∧
        record = eventRecord asciiSdk serverAddin serverClock serverEvent 5 ∧
        (serverEvent.time.InRange → record.timeNs.toInt = serverEvent.time.nanoseconds) :=
  ⟨by decide +kernel, event_round_trip asciiSdk serverAddin serverClock serverEvent 5 compactLib standard_compactLib⟩

section Event

variable (sdk : Sdk) (addin : Addin) (clock : Clock) (info : EventInfo) (arrivalNs : Int64)

/-! ## The direct push -/

/-- a document with one log record, and what stands around it -/
structure OneRecord (doc resource scope logRecord : Json) : Prop where
  resource : ∃ entry, doc.get (ascii "resourceLogs") = some (.array [entry]) ∧
    entry.get (ascii "resource") = some resource
  scope : ∃ entry scopeLog, doc.get (ascii "resourceLogs") = some (.array [entry]) ∧
    entry.get (ascii "scopeLogs") = some (.array [scopeLog]) ∧ scopeLog.get (ascii "scope") = some scope ∧
    scopeLog.get (ascii "logRecords") = some (.array [logRecord])

theorem oneRecord_push (fields : OtelFields) (payload : Bytes) :
    OneRecord (Domfwd.pushDocument fields payload) Domfwd.pushResource Domfwd.scopeJson
      (Domfwd.pushLogRecord fields payload) :=
  ⟨⟨_, rfl, rfl⟩, _, _, rfl, rfl, rfl, rfl⟩

theorem oneRecord_payload (settings : Settings) (record : LogRecord) :
    OneRecord (buildOtlpPayload settings [record]) (otlpResource settings record) (otlpScope settings record)
      (otlpRecord record) :=
  ⟨⟨_, rfl, rfl⟩, _, _, rfl, rfl, rfl, rfl⟩

/-- nanoseconds which `otelfwd` takes as a time: positive, and with a place in `int64_t` -/
def IsTaken (ns : UInt64) : Prop := 0 < ns.toNat ∧ ns.toNat < 2 ^ 63

/-- two log records which look alike: the severity, and each time whose nanoseconds are taken. A severity of 0 can be
left out -/
structure Alike (eventNs nowNs : UInt64) (a b : Json) : Prop where
  time : IsTaken eventNs → a.get (ascii "timeUnixNano") = b.get (ascii "timeUnixNano")
  observedTime : IsTaken nowNs → a.get (ascii "observedTimeUnixNano") = b.get (ascii "observedTimeUnixNano")
  severityText : a.get (ascii "severityText") = b.get (ascii "severityText")
  severityNumber : b.get (ascii "severityNumber") = a.get (ascii "severityNumber") ∨
    b.get (ascii "severityNumber") = none ∧ a.get (ascii "severityNumber") = some (.int (.ofInt32 0))

theorem intText_takenTime {ns : UInt64} (h : IsTaken ns) (other : Int64) :
    takenTime ns other ≠ 0 ∧ intText (takenTime ns other) = decimal ns.toNat := by
  obtain ⟨hpos, hlt⟩ := h
  have htaken : takenTime ns other = Int64.ofNat ns.toNat := if_pos ⟨hpos, hlt⟩
  have hint := toInt_ofNat hlt
  have h0 : (0 : Int64).toInt = 0 := rfl
  rw [htaken]
  constructor
  · intro hzero
    rw [hzero] at hint
    omega
  · have hnonneg : ¬Int64.ofNat ns.toNat < 0 := by
      rw [Int64.lt_iff_toInt_lt, hint]
      omega
    unfold intText
    rw [if_neg hnonneg, hint, Int.natAbs_natCast]

theorem toValidUtf8_severity (severity : Domfwd.Severity) :
    toValidUtf8 (getOtelSeverity severity).2 = (getOtelSeverity severity).2 ∧ (getOtelSeverity severity).2 ≠ [] := by
  constructor
  · refine toValidUtf8_wellFormed (Utf8.wellFormed_of_all ?_)
    cases severity <;> decide +kernel
  · cases severity <;> decide +kernel

theorem severity_pos_or (severity : Domfwd.Severity) :
    0 < Int32.ofNat (getOtelSeverity severity).1.toNat ∨ (getOtelSeverity severity).1 = 0 := by
  cases severity <;> decide

theorem alike_push (payload : Bytes) :
    Alike (getEventEpochNanoseconds clock info.time) (getEventEpochNanoseconds clock clock.now)
      (Domfwd.pushLogRecord (buildOtelFields sdk addin clock info) payload)
      (otlpRecord (eventRecord sdk addin clock info arrivalNs)) := by
  have hshows := showsRecord_otlpRecord (eventRecord sdk addin clock info arrivalNs)
  obtain ⟨hvalid, hne⟩ := toValidUtf8_severity info.severity
  constructor
  · intro hevent
    obtain ⟨htimeNe, htime⟩ :=
      intText_takenTime hevent (takenTime (getEventEpochNanoseconds clock clock.now) arrivalNs)
    rw [hshows.time]
    unfold eventRecord
    dsimp only
    rw [if_neg htimeNe, htime]
    rfl
  · intro hnow
    obtain ⟨hobservedNe, hobserved⟩ := intText_takenTime hnow arrivalNs
    rw [hshows.observed]
    unfold eventRecord
    dsimp only
    rw [if_neg hobservedNe, hobserved]
    rfl
  · rw [hshows.severityText]
    unfold eventRecord
    dsimp only
    rw [if_neg hne, hvalid]
    rfl
  · rw [hshows.severityNumber]
    unfold eventRecord
    dsimp only
    rcases severity_pos_or info.severity with hpos | hzero
    · left
      rw [if_pos hpos]
      rfl
    · right
      rw [hzero]
      refine ⟨if_neg (by decide), ?_⟩
      change some (Domfwd.severityJson (getOtelSeverity info.severity).1) = _
      rw [hzero]
      rfl

theorem ascii_scope : toValidUtf8 (ascii "domino.event") = ascii "domino.event" ∧
    toValidUtf8 (ascii "0.9.0") = ascii "0.9.0" :=
  ⟨toValidUtf8_wellFormed (Utf8.wellFormed_of_all (by decide +kernel)),
    toValidUtf8_wellFormed (Utf8.wellFormed_of_all (by decide +kernel))⟩

/-- the scope is the same one -/
theorem otlpScope_event (settings : Settings) :
    otlpScope settings (eventRecord sdk addin clock info arrivalNs) = Domfwd.scopeJson := by
  have hname : ascii "domino.event" ≠ [] := by decide +kernel
  have hversion : ascii "0.9.0" ≠ [] := by decide +kernel
  unfold otlpScope eventRecord utf8Value
  dsimp only
  rw [if_neg hname, if_neg hversion, ascii_scope.1, ascii_scope.2]
  rfl

/-- **Both paths look alike.** For every event, what `domfwd` pushes itself and what `otelfwd` pushes for the line of
the socket have the same scope and severity, and each time whose nanoseconds are positive and fit `int64_t` is the same.
The body of the direct push is the line, which `otelfwd` takes for this record. -/
theorem paths_alike (lib : JsonLib) (settings : Settings) (hlib : lib.Standard) :
    let line := eventLine lib sdk addin clock info
    ∃ record resource scope direct resource' forwarded,
      decodeFlatRecord lib line arrivalNs = some record ∧
      OneRecord (Domfwd.pushDocument (buildOtelFields sdk addin clock info) line) resource scope direct ∧
      OneRecord (buildOtlpPayload settings [record]) resource' scope forwarded ∧
      Alike (getEventEpochNanoseconds clock info.time) (getEventEpochNanoseconds clock clock.now) direct forwarded ∧
      direct.get (ascii "body") = some (.object [(ascii "stringValue", .string line)]) := by
  have hdecode := decodeFlatRecord_event sdk addin clock info arrivalNs hlib
  have hforwarded := oneRecord_payload settings (eventRecord sdk addin clock info arrivalNs)
  rw [otlpScope_event] at hforwarded
  -- the body is made of a C string, and the line has no NUL
  have hline : Otlp.cString (eventLine lib sdk addin clock info) = eventLine lib sdk addin clock info :=
    Otlp.cString_eq_self.2 (hlib.noNul (noDouble_payload (buildOtelFields sdk addin clock info)))
  have hbody : (Domfwd.pushLogRecord (buildOtelFields sdk addin clock info)
      (eventLine lib sdk addin clock info)).get (ascii "body") =
        some (.object [(ascii "stringValue", .string (Otlp.cString (eventLine lib sdk addin clock info)))]) := rfl
  rw [hline] at hbody
  exact ⟨_, _, _, _, _, _, hdecode, oneRecord_push _ _, hforwarded, alike_push sdk addin clock info arrivalNs _, hbody⟩

end Event

def bareSettings : Settings := { version := ascii "1.0", serviceInstanceId := [], hostname := [] }

theorem paths_alike_server :
    IsTaken (getEventEpochNanoseconds serverClock serverEvent.time) ∧
      IsTaken (getEventEpochNanoseconds serverClock serverClock.now) ∧
      let line := eventLine compactLib asciiSdk serverAddin serverClock serverEvent
      ∃ record resource scope direct resource' forwarded,
        decodeFlatRecord compactLib line 5 = some record ∧
        OneRecord (Domfwd.pushDocument (buildOtelFields asciiSdk serverAddin serverClock serverEvent) line) resource
          scope direct ∧
        OneRecord (buildOtlpPayload bareSettings [record]) resource' scope forwarded ∧
        Alike (getEventEpochNanoseconds serverClock serverEvent.time)
          (getEventEpochNanoseconds serverClock serverClock.now) direct forwarded ∧
        direct.get (ascii "body") = some (.object [(ascii "stringValue", .string line)]) :=
  ⟨⟨by decide +kernel, by decide +kernel⟩, ⟨by decide +kernel, by decide +kernel⟩,
    paths_alike asciiSdk serverAddin serverClock serverEvent 5 compactLib bareSettings standard_compactLib⟩

end DominoLogForwarder.Otelfwd
