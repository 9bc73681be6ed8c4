/-
The protobuf setting sends every record which the JSON setting sends: the payload of records of the four inputs is
always converted, and the protobuf is the request which the records describe (`requestOf`).

`Produced` is a record of an input. The clock does not return a time before 1970, so no time is negative. That is all
the converter needs: the other kinds of values which the inputs make are the kinds it knows.
-/
import DominoLogForwarder.Otelfwd.Inputs
import DominoLogForwarder.Otelfwd.Payload
import DominoLogForwarder.Otlp.Sound

namespace DominoLogForwarder.Otelfwd

open FileReader (Bytes ascii decimal isDigit number)
open Otlp (Parser cString Request convertOtlpJsonToProtobuf)
open Json (find member membersIn items text)
open Grouping (Cluster groupsOf)

/-! ## The records of the inputs -/

/-- a record which an input made, at a time the clock returned -/
inductive Produced (lib : JsonLib) (settings : Settings) (file : FileSettings) : LogRecord → Prop where
  | flat {text : Bytes} {now : Int64} {record : LogRecord} (hnow : 0 ≤ now)
      (h : decodeFlatRecord lib text now = some record) : Produced lib settings file record
  | syslog {datagram : Bytes} {now : Int64} {record : LogRecord} (hnow : 0 ≤ now)
      (h : decodeSyslogMessage lib settings datagram now = some record) : Produced lib settings file record
  | stdin (line : Bytes) {now : Int64} (hnow : 0 ≤ now) (pid : Int32) (process : Bytes) :
      Produced lib settings file (stdinRecord settings line now pid process)
  | file (line : Bytes) {now : Int64} (hnow : 0 ≤ now) (generation endOffset : UInt64) :
      Produced lib settings file (fileRecord settings file line now generation endOffset)

/-- no time is negative -/
structure Timed (record : LogRecord) : Prop where
  time : 0 ≤ record.timeNs
  observed : 0 ≤ record.observedTimeNs

theorem nonneg_ofNat {n : ℕ} (h : n < 2 ^ 63) : 0 ≤ Int64.ofNat n := by
  rw [Int64.le_iff_toInt_le, Int64.toInt_ofNat_of_lt h]
  exact Int.natCast_nonneg n

/-- a time is taken from JSON only when it fits `int64_t` -/
theorem getUnixNanoFromJson_nonneg {val : Json} {n : Int64} (h : getUnixNanoFromJson val = some n) : 0 ≤ n := by
  unfold getUnixNanoFromJson at h
  obtain ⟨m, -, hm⟩ := Option.bind_eq_some_iff.1 h
  split_ifs at hm
  obtain rfl := Option.some.inj hm
  exact nonneg_ofNat (by omega)

theorem timeMember_nonneg (members : List (Bytes × Json)) (name : String) : 0 ≤ timeMember members name := by
  unfold timeMember
  cases h : (find members (ascii name)).bind getUnixNanoFromJson with
  | none => decide
  | some n =>
    obtain ⟨val, -, hval⟩ := Option.bind_eq_some_iff.1 h
    exact getUnixNanoFromJson_nonneg hval

/-- rounding to a double at most doubles a number -/
theorem round_le (n : ℕ) : Double.round n ≤ 2 * n := by
  have hstep : 2 ^ (Nat.log2 n - 52) ≤ n ∨ n = 0 := by
    by_cases h : n = 0
    · exact Or.inr h
    · exact Or.inl ((Nat.pow_le_pow_right (by decide) (Nat.sub_le _ _)).trans (Nat.log2_self_le h))
  rcases hstep with hstep | rfl
  · unfold Double.round
    dsimp only
    have hdiv := Nat.div_mul_le_self n (2 ^ (Nat.log2 n - 52))
    split_ifs
    · rw [Nat.add_mul, Nat.one_mul]
      omega
    · omega
  · decide

theorem number_lt {digits : Bytes} (h : ∀ b ∈ digits, isDigit b = true) : number digits < 10 ^ digits.length := by
  induction digits using List.reverseRecOn with
  | nil => decide
  | append_singleton ds b ih =>
    have hb := h b (List.mem_append_right _ (List.mem_singleton_self b))
    have hds := ih fun b hb => h b (List.mem_append_left _ hb)
    unfold isDigit at hb
    rw [Bool.and_eq_true, decide_eq_true_eq, decide_eq_true_eq, UInt8.le_iff_toNat_le, UInt8.le_iff_toNat_le] at hb
    have hhigh : b.toNat ≤ 57 := hb.2
    have hnumber : number (ds ++ [b]) = 10 * number ds + (b.toNat - 48) := by simp [number]
    rw [hnumber, List.length_append, List.length_singleton, Nat.pow_succ]
    omega

/-- a fraction of a second has nine digits at most -/
theorem fractionNs_lt {digits : Bytes} (h : ∀ b ∈ digits, isDigit b = true) : fractionNs digits < 10 ^ 9 := by
  have hlen : (digits.take 9).length ≤ 9 := by
    rw [List.length_take]
    exact Nat.min_le_left _ _
  have hnumber : number (digits.take 9) < 10 ^ (digits.take 9).length :=
    number_lt fun b hb => h b (List.mem_of_mem_take hb)
  calc number (digits.take 9) * 10 ^ (9 - (digits.take 9).length)
      < 10 ^ (digits.take 9).length * 10 ^ (9 - (digits.take 9).length) :=
        Nat.mul_lt_mul_of_pos_right hnumber (Nat.pow_pos (by decide))
    _ = 10 ^ 9 := by rw [← Nat.pow_add, Nat.add_sub_cancel' hlen]

/-- `maxSeconds` keeps a time in seconds within 63 bits -/
theorem secondsFromText_lt {text : Bytes} {ns : ℕ} (h : secondsFromText text = some ns) : ns < 2 ^ 63 := by
  unfold secondsFromText at h
  obtain ⟨⟨sec, rest⟩, -, h⟩ := Option.bind_eq_some_iff.1 h
  have hdigits : ∀ b ∈ if rest.head? = some 46 then (rest.drop 1).takeWhile isDigit else [], isDigit b = true := by
    intro b hb
    split_ifs at hb
    · exact List.mem_takeWhile_imp hb
    · exact absurd hb List.not_mem_nil
  dsimp only at h
  generalize (if rest.head? = some 46 then (rest.drop 1).takeWhile isDigit else []) = fraction at h hdigits
  generalize (if rest.head? = some 46 then (rest.drop 1).dropWhile isDigit else rest) = left at h
  split_ifs at h with hno hbad
  obtain rfl := Option.some.inj h
  have hsec : sec ≤ maxSeconds := Nat.not_lt.1 fun hlt => hbad (Or.inr hlt)
  have hfraction := fractionNs_lt hdigits
  unfold maxSeconds at hsec
  omega

theorem secondsFromDouble_lt {d : Double} {ns : ℕ} (h : secondsFromDouble d = some ns) : ns < 2 ^ 63 := by
  unfold secondsFromDouble at h
  split at h
  · exact absurd h (Option.some_ne_none _).symm
  · rename_i hno
    obtain rfl := Option.some.inj h
    rw [not_or, Int.not_le, Int.not_lt] at hno
    obtain ⟨hpos, hmax⟩ := hno
    have hunit : 0 < 2 ^ 1074 := pow_pos (by decide) 1074
    have hmag : d.magnitude ≤ maxSeconds * 2 ^ 1074 := by
      have hunits : d.units = d.magnitude := by
        unfold Double.units at hpos ⊢
        split_ifs at hpos ⊢
        · omega
        · rfl
      rw [hunits] at hmax
      apply Int.ofNat_le.1
      rwa [Nat.cast_mul, Nat.cast_pow]
    have hsec : d.magnitude / 2 ^ 1074 ≤ maxSeconds := Nat.div_le_of_le_mul (by rwa [Nat.mul_comm])
    have hfraction : Double.round (d.magnitude % 2 ^ 1074 * 1000000000) / 2 ^ 1074 < 2000000000 := by
      apply Nat.div_lt_of_lt_mul
      calc Double.round (d.magnitude % 2 ^ 1074 * 1000000000)
          ≤ 2 * (d.magnitude % 2 ^ 1074 * 1000000000) := round_le _
        _ = d.magnitude % 2 ^ 1074 * 2000000000 := by ring
        _ < 2 ^ 1074 * 2000000000 := Nat.mul_lt_mul_of_pos_right (Nat.mod_lt _ hunit) (by decide)
    unfold maxSeconds at hsec
    generalize d.magnitude / 2 ^ 1074 = sec at *
    generalize Double.round (d.magnitude % 2 ^ 1074 * 1000000000) / 2 ^ 1074 = fraction at *
    omega

theorem getUnixNanoFromSeconds_nonneg {val : Json} {n : Int64} (h : getUnixNanoFromSeconds val = some n) : 0 ≤ n := by
  unfold getUnixNanoFromSeconds at h
  obtain ⟨ns, hns, rfl⟩ := Option.map_eq_some_iff.1 h
  apply nonneg_ofNat
  cases val with
  | string text => exact secondsFromText_lt hns
  | double d => exact secondsFromDouble_lt hns
  | int n => exact secondsFromDouble_lt hns
  | _ => exact absurd hns (Option.some_ne_none _).symm

/-- a time, or another one when it is missing -/
theorem nonneg_of_either {a b : Int64} (ha : 0 ≤ a) (hb : 0 ≤ b) : 0 ≤ if a ≠ 0 then a else b := by
  split_ifs
  · exact ha
  · exact hb

/-- no input makes a record with a negative time -/
theorem timed_of_produced {lib : JsonLib} {settings : Settings} {file : FileSettings} {record : LogRecord}
    (h : Produced lib settings file record) : Timed record := by
  cases h with
  | @flat text now record hnow h =>
    unfold decodeFlatRecord at h
    split at h
    · rename_i members _
      obtain rfl := Option.some.inj h
      have hobserved := nonneg_of_either (timeMember_nonneg members "observed_time_unix_nano") hnow
      exact ⟨nonneg_of_either (timeMember_nonneg members "time_unix_nano") hobserved, hobserved⟩
    · exact absurd h (Option.some_ne_none _).symm
  | @syslog datagram now record hnow h =>
    unfold decodeSyslogMessage at h
    split at h
    · exact absurd h (Option.some_ne_none _).symm
    · rename_i msg _
      split_ifs at h
      obtain rfl := Option.some.inj h
      refine ⟨nonneg_of_either ?_ hnow, hnow⟩
      cases hseconds : (find (syslogMembers lib msg.text) (ascii "time")).bind getUnixNanoFromSeconds with
      | none => exact Int64.le_refl _
      | some n =>
        obtain ⟨val, -, hval⟩ := Option.bind_eq_some_iff.1 hseconds
        exact getUnixNanoFromSeconds_nonneg hval
  | stdin line hnow pid process => exact ⟨hnow, Int64.le_refl _⟩
  | file line hnow generation endOffset => exact ⟨hnow, Int64.le_refl _⟩

/-! ## The request which the records describe -/

def valueOf : OtelValue → Otlp.AnyValue
  | .string text => ⟨some (.string (toValidUtf8 text))⟩
  | .int n => ⟨some (.int n)⟩
  | .double d => ⟨some (.double d.bits)⟩
  | .bool b => ⟨some (.bool b)⟩

def keyValueOf (kv : OtelKV) : Otlp.KeyValue := ⟨toValidUtf8 kv.key, some (valueOf kv.value)⟩

def recordOf (record : LogRecord) : Otlp.LogRecord where
  timeUnixNano := some (if record.timeNs = 0 then record.observedTimeNs else record.timeNs).toUInt64
  severityNumber := if 0 < record.severityNumber then some record.severityNumber else none
  severityText := if record.severityText = [] then none else some (toValidUtf8 record.severityText)
  body := some (valueOf (.string record.line))
  attributes := record.attributes.map keyValueOf
  observedTimeUnixNano := some (if record.observedTimeNs = 0 then record.timeNs else record.observedTimeNs).toUInt64

def scopeOf (settings : Settings) (record : LogRecord) : Otlp.Scope where
  name := some (if record.scopeName = [] then settings.task else toValidUtf8 record.scopeName)
  version :=
    if record.scopeName = [] then some settings.version
    else if record.scopeVersion = [] then none
    else some (toValidUtf8 record.scopeVersion)

def entryOf (settings : Settings) (group : Cluster LogRecord) : Otlp.ResourceLogs where
  resource := some ⟨(resourceOf settings group.first).map keyValueOf⟩
  scopeLogs := [⟨some (scopeOf settings group.first), group.toList.map recordOf⟩]

/-- the records, grouped by their source -/
def requestOf (settings : Settings) (records : List LogRecord) : Request :=
  ⟨(groupsOf joins records).map (entryOf settings)⟩

/-! ## The payload describes it -/

/-- a member which is there is read by its reader -/
theorem member_eq {ms : List (Bytes × Json)} {name : Bytes} {α : Type} (read : Json → Option α) {v : Json}
    (h : (Json.object ms).get name = some v) : member ms name read = (read v).map some := by
  unfold member
  rw [show find ms name = some v from h]

theorem member_read {ms : List (Bytes × Json)} {name : Bytes} {α : Type} {read : Json → Option α} {v : Json} {a : α}
    (h : (Json.object ms).get name = some v) (hread : read v = some a) : member ms name read = some (some a) := by
  rw [member_eq read h, hread]
  rfl

theorem member_eq_none {ms : List (Bytes × Json)} {name : Bytes} {α : Type} (read : Json → Option α)
    (h : (Json.object ms).get name = none) : member ms name read = some none := by
  unfold member
  rw [show find ms name = none from h]

/-- items which are read back one by one are read back as an array -/
theorem items_map {α β : Type} {read : Json → Option α} {write : β → Json} {f : β → α} {xs : List β}
    (h : ∀ x ∈ xs, read (write x) = some (f x)) : items read (.array (xs.map write)) = some (xs.map f) := by
  dsimp only [items]
  induction xs with
  | nil => rfl
  | cons x xs ih =>
    have hrest := ih fun x hx => h x (List.mem_cons_of_mem _ hx)
    simp [List.mapM_cons, h x List.mem_cons_self, hrest]

theorem digits_decimal (n : ℕ) : Otlp.Digits (decimal n) :=
  ⟨FileReader.decimal_ne_nil n, List.all_eq_true.2 fun _ hb => FileReader.isDigit_of_mem_decimal hb⟩

/-- `intText` is decimal, with a minus in front of a negative number -/
theorem signed_intText (n : Int64) : Otlp.signed (intText n) = some n.toInt := by
  unfold intText
  split_ifs with h
  · rw [Otlp.signed_minus, if_pos (digits_decimal _), FileReader.number_decimal]
    rw [Int64.lt_iff_toInt_lt] at h
    have hneg : n.toInt < 0 := h
    congr 1
    omega
  · have hdigit : (decimal n.toInt.natAbs).head? ≠ some 45 := by
      intro hhead
      obtain ⟨ds, hds⟩ := List.head?_eq_some_iff.1 hhead
      have hmem : (45 : UInt8) ∈ decimal n.toInt.natAbs := hds ▸ List.mem_cons_self
      exact absurd (FileReader.isDigit_of_mem_decimal hmem) (by decide)
    rw [Otlp.signed_plain hdigit, if_pos (digits_decimal _), FileReader.number_decimal]
    rw [Int64.lt_iff_toInt_lt] at h
    have hpos : ¬n.toInt < 0 := h
    congr 1
    omega

theorem int64_intText (n : Int64) : Otlp.int64 (.string (intText n)) = some n := by
  unfold Otlp.int64
  dsimp only
  rw [signed_intText, Option.bind_some, if_pos ⟨Int64.le_toInt n, Int64.toInt_lt n⟩, Int64.ofInt_toInt]

/-- a time is not negative, so it is the same number without a sign -/
theorem uint64_intText {n : Int64} (h : 0 ≤ n) : Otlp.uint64 (.string (intText n)) = some n.toUInt64 := by
  have hpos : 0 ≤ n.toInt := Int64.le_iff_toInt_le.1 h
  have hlt := Int64.toInt_lt n
  have htext : intText n = decimal n.toInt.natAbs := if_neg fun hneg => Int.not_lt.2 hpos (Int64.lt_iff_toInt_lt.1 hneg)
  have hfit : n.toInt.natAbs < 2 ^ 64 := by omega
  have hnumber : UInt64.ofNat n.toInt.natAbs = n.toUInt64 := by
    apply UInt64.toNat_inj.1
    rw [UInt64.toNat_ofNat', Nat.mod_eq_of_lt hfit, Int64.toNat_toUInt64_of_le h]
    have habs : (n.toInt.natAbs : ℤ) = n.toInt := Int.natAbs_of_nonneg hpos
    exact Int.ofNat_inj.1 (habs.trans (Int.toNat_of_nonneg hpos).symm)
  unfold Otlp.uint64
  dsimp only
  rw [htext, FileReader.number_decimal, if_pos ⟨digits_decimal _, hfit⟩, hnumber]

theorem int32_ofInt32 (n : Int32) : Otlp.int32 (.int (.ofInt32 n)) = some n := by
  have h : -2 ^ 31 ≤ (JsonInt.ofInt32 n).value ∧ (JsonInt.ofInt32 n).value < 2 ^ 31 :=
    ⟨Int32.le_toInt n, Int32.toInt_lt n⟩
  unfold Otlp.int32
  dsimp only
  rw [if_pos h]
  exact congrArg some (Int32.ofInt_toInt n)

theorem anyValue_int (n : Int64) :
    Otlp.AnyValue.ofJson (.object [(ascii "intValue", .string (intText n))]) = some ⟨some (.int n)⟩ := by
  have hknown : membersIn [ascii "stringValue", ascii "intValue", ascii "doubleValue", ascii "boolValue"]
      (.object [(ascii "intValue", .string (intText n))]) = some [(ascii "intValue", .string (intText n))] := rfl
  have hstring : member [(ascii "intValue", .string (intText n))] (ascii "stringValue") text = some none := rfl
  have hbool : member [(ascii "intValue", .string (intText n))] (ascii "boolValue") Otlp.bool = some none := rfl
  have hint : member [(ascii "intValue", .string (intText n))] (ascii "intValue") Otlp.int64 = some (some n) :=
    member_read rfl (int64_intText n)
  have hdouble : member [(ascii "intValue", .string (intText n))] (ascii "doubleValue") Otlp.doubleBits = some none :=
    rfl
  simp [Otlp.AnyValue.ofJson, hknown, hstring, hbool, hint, hdouble]

/-- an entry is read back, whatever its value is -/
theorem keyValue_otlpKV (kv : OtelKV) : Otlp.KeyValue.ofJson (otlpKV kv) = some (keyValueOf kv) := by
  obtain ⟨key, value⟩ := kv
  cases value with
  | int n =>
    let ms : List (Bytes × Json) :=
      [(ascii "key", utf8Value key), (ascii "value", .object [(ascii "intValue", .string (intText n))])]
    have hknown : membersIn [ascii "key", ascii "value"] (.object ms) = some ms := rfl
    have hkey : member ms (ascii "key") text = some (some (toValidUtf8 key)) := rfl
    have hvalue : member ms (ascii "value") Otlp.AnyValue.ofJson = some (some ⟨some (.int n)⟩) :=
      member_read rfl (anyValue_int n)
    have hread : Otlp.KeyValue.ofJson (.object ms) = some ⟨toValidUtf8 key, some ⟨some (.int n)⟩⟩ := by
      simp [Otlp.KeyValue.ofJson, hknown, hkey, hvalue]
    exact hread
  | _ => rfl

theorem attributes_otlpKV {ms : List (Bytes × Json)} {kvs : List OtelKV}
    (h : (Json.object ms).get (ascii "attributes") = some (.array (kvs.map otlpKV))) :
    Otlp.attributesOf ms = some (kvs.map keyValueOf) := by
  unfold Otlp.attributesOf
  rw [member_eq _ h, items_map fun kv _ => keyValue_otlpKV kv]
  rfl

theorem get_body (record : LogRecord) :
    (otlpRecord record).get (ascii "body") = some (.object [(ascii "stringValue", utf8Value record.line)]) := by
  unfold otlpRecord
  split_ifs <;> rfl

theorem get_attributes (record : LogRecord) :
    (otlpRecord record).get (ascii "attributes") = some (.array (record.attributes.map otlpKV)) := by
  unfold otlpRecord
  split_ifs <;> rfl

theorem known_otlpRecord {record : LogRecord} {ms : List (Bytes × Json)} (h : otlpRecord record = .object ms) :
    membersIn [ascii "timeUnixNano", ascii "observedTimeUnixNano", ascii "severityNumber", ascii "severityText",
      ascii "body", ascii "attributes"] (.object ms) = some ms := by
  unfold otlpRecord at h
  obtain rfl := Json.object.inj h
  split_ifs <;> rfl

/-- a log record is read back, with the members which were left out -/
theorem logRecord_otlpRecord {record : LogRecord} (h : Timed record) :
    Otlp.LogRecord.ofJson (otlpRecord record) = some (recordOf record) := by
  obtain ⟨ms, hms⟩ : ∃ ms, otlpRecord record = .object ms := ⟨_, rfl⟩
  have hshows := showsRecord_otlpRecord record
  have hbody := get_body record
  have hattributes := get_attributes record
  rw [hms] at hshows hbody hattributes ⊢
  have hknown := known_otlpRecord hms
  have htime : member ms (ascii "timeUnixNano") Otlp.uint64 = some (recordOf record).timeUnixNano := by
    have hnonneg : 0 ≤ if record.timeNs = 0 then record.observedTimeNs else record.timeNs := by
      split_ifs
      · exact h.observed
      · exact h.time
    rw [member_eq _ hshows.time, uint64_intText hnonneg]
    rfl
  have hobserved : member ms (ascii "observedTimeUnixNano") Otlp.uint64 =
    some (recordOf record).observedTimeUnixNano := by
    have hnonneg : 0 ≤ if record.observedTimeNs = 0 then record.timeNs else record.observedTimeNs := by
      split_ifs
      · exact h.time
      · exact h.observed
    rw [member_eq _ hshows.observed, uint64_intText hnonneg]
    rfl
  have hnumber : member ms (ascii "severityNumber") Otlp.int32 = some (recordOf record).severityNumber := by
    have hget := hshows.severityNumber
    dsimp only [recordOf]
    by_cases hn : 0 < record.severityNumber
    · rw [if_pos hn] at hget ⊢
      rw [member_eq _ hget, int32_ofInt32]
      rfl
    · rw [if_neg hn] at hget ⊢
      exact member_eq_none _ hget
  have htext : member ms (ascii "severityText") text = some (recordOf record).severityText := by
    have hget := hshows.severityText
    dsimp only [recordOf]
    by_cases ht : record.severityText = []
    · rw [if_pos ht] at hget ⊢
      exact member_eq_none _ hget
    · rw [if_neg ht] at hget ⊢
      rw [member_eq _ hget]
      rfl
  have hanyValue : member ms (ascii "body") Otlp.AnyValue.ofJson = some (recordOf record).body :=
    member_eq _ hbody
  have hattrs : Otlp.attributesOf ms = some (recordOf record).attributes := attributes_otlpKV hattributes
  simp [Otlp.LogRecord.ofJson, hknown, htime, hobserved, hnumber, htext, hanyValue, hattrs]

theorem scope_otlpScope (settings : Settings) (record : LogRecord) :
    Otlp.Scope.ofJson (otlpScope settings record) = some (scopeOf settings record) := by
  unfold otlpScope scopeOf
  split_ifs <;> rfl

theorem resource_otlpResource (settings : Settings) (record : LogRecord) :
    Otlp.Resource.ofJson (otlpResource settings record) = some ⟨(resourceOf settings record).map keyValueOf⟩ := by
  obtain ⟨ms, hms⟩ : ∃ ms, otlpResource settings record = .object ms := ⟨_, rfl⟩
  have hattributes : (Json.object ms).get (ascii "attributes") =
    some (.array ((resourceOf settings record).map otlpKV)) :=
    hms ▸ rfl
  have hknown : membersIn [ascii "attributes"] (.object ms) = some ms := by
    obtain rfl := Json.object.inj hms
    rfl
  rw [hms]
  simp [Otlp.Resource.ofJson, hknown, attributes_otlpKV hattributes]

theorem scopeLogs_otlpGroup {scope : Json} {scope' : Otlp.Scope} (hscope : Otlp.Scope.ofJson scope = some scope')
    {records : List LogRecord} (h : ∀ r ∈ records, Timed r) :
    Otlp.ScopeLogs.ofJson (.object [(ascii "scope", scope), (ascii "logRecords", .array (records.map otlpRecord))]) =
      some ⟨some scope', records.map recordOf⟩ := by
  let ms : List (Bytes × Json) := [(ascii "scope", scope), (ascii "logRecords", .array (records.map otlpRecord))]
  have hknown : membersIn [ascii "scope", ascii "logRecords"] (.object ms) = some ms := rfl
  have hscope' : member ms (ascii "scope") Otlp.Scope.ofJson = some (some scope') :=
    member_read rfl hscope
  have hrecords : member ms (ascii "logRecords") (items Otlp.LogRecord.ofJson) = some (some (records.map recordOf)) :=
    member_read rfl (items_map fun r hr => logRecord_otlpRecord (h r hr))
  have hread : Otlp.ScopeLogs.ofJson (.object ms) = some ⟨some scope', records.map recordOf⟩ := by
    simp [Otlp.ScopeLogs.ofJson, hknown, hscope', hrecords]
  exact hread

/-- and so is a group of records with one resource -/
theorem resourceLogs_otlpGroup (settings : Settings) {group : Cluster LogRecord} (h : ∀ r ∈ group.toList, Timed r) :
    Otlp.ResourceLogs.ofJson (otlpGroup settings group) = some (entryOf settings group) := by
  obtain ⟨ms, hms⟩ : ∃ ms, otlpGroup settings group = .object ms := ⟨_, rfl⟩
  have hlogs := scopeLogs_otlpGroup (scope_otlpScope settings group.first) h
  have hknown : membersIn [ascii "resource", ascii "scopeLogs"] (.object ms) = some ms := by
    obtain rfl := Json.object.inj hms
    rfl
  have hresource : member ms (ascii "resource") Otlp.Resource.ofJson = some (entryOf settings group).resource := by
    obtain rfl := Json.object.inj hms
    exact member_read rfl (resource_otlpResource settings group.first)
  have hscopeLogs : member ms (ascii "scopeLogs") (items Otlp.ScopeLogs.ofJson) =
      some (some (entryOf settings group).scopeLogs) := by
    obtain rfl := Json.object.inj hms
    apply member_read rfl
    simp [items, hlogs, entryOf]
  rw [hms]
  simp [Otlp.ResourceLogs.ofJson, hknown, hresource, hscopeLogs]

/-- the payload is OTLP/JSON, and describes the request of the records -/
theorem request_buildOtlpPayload (settings : Settings) {records : List LogRecord} (h : ∀ r ∈ records, Timed r) :
    Request.ofJson (buildOtlpPayload settings records) = some (requestOf settings records) := by
  obtain ⟨ms, hms⟩ : ∃ ms, buildOtlpPayload settings records = .object ms := ⟨_, rfl⟩
  have hknown : membersIn [ascii "resourceLogs"] (.object ms) = some ms := by
    obtain rfl := Json.object.inj hms
    rfl
  have hlogs : member ms (ascii "resourceLogs") (items Otlp.ResourceLogs.ofJson) =
      some (some ((groupsOf joins records).map (entryOf settings))) := by
    obtain rfl := Json.object.inj hms
    apply member_read rfl
    apply items_map
    intro group hgroup
    apply resourceLogs_otlpGroup
    intro r hr
    exact h r ((Grouping.sublist_of_mem records group hgroup).subset hr)
  rw [hms]
  simp [Request.ofJson, hknown, hlogs, requestOf]

/-! ## The payload has proper objects -/

theorem proper_items {α : Type} {f : α → Json} {xs : List α} (h : ∀ x ∈ xs, (f x).Proper) :
    (Json.array (xs.map f)).Proper := by
  apply Json.Proper.array
  intro j hj
  obtain ⟨x, hx, rfl⟩ := List.mem_map.1 hj
  exact h x hx

/-- an object whose names are among the ones which are fixed, in this order -/
theorem proper_object (names : List Bytes) (hnodup : names.Nodup) (hnul : ∀ name ∈ names, 0 ∉ name)
    {ms : List (Bytes × Json)} (hnames : (ms.map Prod.fst).Sublist names) (h : ∀ m ∈ ms, m.2.Proper) :
    (Json.object ms).Proper :=
  .object (hnodup.sublist hnames) (fun _ hm => hnul _ (hnames.subset (List.mem_map_of_mem hm))) h

theorem proper_one {name : String} {v : Json} (hname : 0 ∉ ascii name) (hv : v.Proper) :
    (Json.object [(ascii name, v)]).Proper := by
  apply proper_object [ascii name] (List.nodup_singleton _)
  · simpa using hname
  · exact List.Sublist.refl _
  · simpa using hv

theorem proper_two {name name' : String} {v v' : Json} (hne : ascii name ≠ ascii name') (hname : 0 ∉ ascii name)
    (hname' : 0 ∉ ascii name') (hv : v.Proper) (hv' : v'.Proper) :
    (Json.object [(ascii name, v), (ascii name', v')]).Proper := by
  apply proper_object [ascii name, ascii name']
  · simpa using hne
  · simpa using ⟨hname, hname'⟩
  · exact List.Sublist.refl _
  · simpa using ⟨hv, hv'⟩

theorem proper_otlpKV (kv : OtelKV) : (otlpKV kv).Proper := by
  obtain ⟨key, value⟩ := kv
  apply proper_two (by decide) (by decide) (by decide) (.string _)
  cases value with
  | string text => exact proper_one (by decide) (.string _)
  | int n => exact proper_one (by decide) (.string _)
  | double d => exact proper_one (by decide) (.double _)
  | bool b => exact proper_one (by decide) (.bool _)

/-- the names of a log record are different ones, also when some are left out -/
theorem proper_otlpRecord (record : LogRecord) : (otlpRecord record).Proper := by
  unfold otlpRecord
  apply proper_object [ascii "timeUnixNano", ascii "observedTimeUnixNano", ascii "severityNumber", ascii "severityText",
    ascii "body", ascii "attributes"] (by decide) (by decide)
  · split_ifs <;> simp only [List.map_append, List.map_cons, List.map_nil] <;> decide
  · intro m hm
    simp only [List.mem_append, List.mem_cons, List.not_mem_nil, or_false] at hm
    rcases hm with (((rfl | rfl) | hm) | hm) | rfl | rfl
    · exact .string _
    · exact .string _
    · split_ifs at hm
      · exact List.mem_singleton.1 hm ▸ .int _
      · exact absurd hm List.not_mem_nil
    · split_ifs at hm
      · exact absurd hm List.not_mem_nil
      · exact List.mem_singleton.1 hm ▸ .string _
    · exact proper_one (by decide) (.string _)
    · exact proper_items fun kv _ => proper_otlpKV kv

theorem proper_otlpScope (settings : Settings) (record : LogRecord) : (otlpScope settings record).Proper := by
  unfold otlpScope
  split_ifs
  · exact proper_two (by decide) (by decide) (by decide) (.string _) (.string _)
  · exact proper_one (by decide) (.string _)
  · exact proper_two (by decide) (by decide) (by decide) (.string _) (.string _)

theorem proper_otlpGroup (settings : Settings) (group : Cluster LogRecord) : (otlpGroup settings group).Proper := by
  have hresource : (otlpResource settings group.first).Proper :=
    proper_one (by decide) (proper_items fun kv _ => proper_otlpKV kv)
  have hrecords : (Json.array (group.toList.map otlpRecord)).Proper := proper_items fun r _ => proper_otlpRecord r
  apply proper_two (by decide) (by decide) (by decide) hresource
  apply Json.Proper.array
  intro j hj
  obtain rfl := List.mem_singleton.1 hj
  exact proper_two (by decide) (by decide) (by decide) (proper_otlpScope settings group.first) hrecords

theorem proper_buildOtlpPayload (settings : Settings) (records : List LogRecord) :
    (buildOtlpPayload settings records).Proper :=
  proper_one (by decide) (proper_items fun group _ => proper_otlpGroup settings group)

/-! ## The protobuf setting drops nothing -/

/-- **Every payload of records of the four inputs is converted.** The protobuf and the JSON payload are the same
request, the one which the records describe. `hround`: the JSON parser reads what the JSON writer wrote. -/
theorem payload_converts (lib : JsonLib) (settings : Settings) (file : FileSettings) (records : List LogRecord)
    (hrecords : ∀ r ∈ records, Produced lib settings file r)
    (hround : lib.parse (lib.write (buildOtlpPayload settings records)) = .ok (buildOtlpPayload settings records)) :
    (convertOtlpJsonToProtobuf lib.parse (some (lib.write (buildOtlpPayload settings records)))).ok = true ∧
      Request.ofJson (buildOtlpPayload settings records) = some (requestOf settings records) ∧
      Request.decode (convertOtlpJsonToProtobuf lib.parse (some (lib.write (buildOtlpPayload settings records)))).out =
        some (requestOf settings records) := by
  have hrequest := request_buildOtlpPayload settings fun r hr => timed_of_produced (hrecords r hr)
  have hconvert := Otlp.convertRequest_eq (proper_buildOtlpPayload settings records)
  rw [hrequest] at hconvert
  have hok := Otlp.toOption_eq_some.1 hconvert
  have hconverted : convertOtlpJsonToProtobuf lib.parse (some (lib.write (buildOtlpPayload settings records))) =
      ⟨true, (requestOf settings records).encode, []⟩ := by
    unfold convertOtlpJsonToProtobuf
    rw [Otlp.convertText_of_parse hround, hok]
  refine ⟨by rw [hconverted], hrequest, ?_⟩
  rw [hconverted]
  exact Request.decode_encode _

def plainSettings : Settings :=
  ⟨ascii "otelfwd", ascii "1", ascii "d", ascii "d", ascii "i", ascii "h", ascii "unknown"⟩

/-- the line of a client: a body and nothing else -/
def bodyText : Bytes := ascii "\x7b\"body\":\"x\"\x7d"

def flatRecord : LogRecord := { source := .socket, timeNs := 5, observedTimeNs := 5, line := ascii "x" }

def twoRecords : List LogRecord := [flatRecord, stdinRecord plainSettings (ascii "y") 6 0 []]

/-- the payload of the two records -/
def twoText : Bytes :=
  ascii "\x7b\"resourceLogs\":[\x7b\"resource\":\x7b\"attributes\":[\x7b\"key\":\"service.name\"," ++
    ascii "\"value\":\x7b\"stringValue\":\"d\"\x7d\x7d,\x7b\"key\":\"service.namespace\"," ++
    ascii "\"value\":\x7b\"stringValue\":\"d\"\x7d\x7d,\x7b\"key\":\"service.instance.id\"," ++
    ascii "\"value\":\x7b\"stringValue\":\"i\"\x7d\x7d,\x7b\"key\":\"host.name\"," ++
    ascii "\"value\":\x7b\"stringValue\":\"h\"\x7d\x7d,\x7b\"key\":\"os.type\"," ++
    ascii "\"value\":\x7b\"stringValue\":\"linux\"\x7d\x7d]\x7d," ++
    ascii "\"scopeLogs\":[\x7b\"scope\":\x7b\"name\":\"otelfwd\",\"version\":\"1\"\x7d," ++
    ascii "\"logRecords\":[\x7b\"timeUnixNano\":\"5\",\"observedTimeUnixNano\":\"5\"," ++
    ascii "\"body\":\x7b\"stringValue\":\"x\"\x7d,\"attributes\":[]\x7d,\x7b\"timeUnixNano\":\"6\"," ++
    ascii "\"observedTimeUnixNano\":\"6\",\"body\":\x7b\"stringValue\":\"y\"\x7d," ++
    ascii "\"attributes\":[\x7b\"key\":\"domino.task\"," ++
    ascii "\"value\":\x7b\"stringValue\":\"unknown\"\x7d\x7d]\x7d]\x7d]\x7d]\x7d"

/-- the JSON library, on the line and on the payload -/
def twoLib : JsonLib where
  parse json :=
    if json = bodyText then .ok (.object [(ascii "body", .string (ascii "x"))])
    else if json = twoText then .ok (buildOtlpPayload plainSettings twoRecords)
    else .error (ascii "Invalid value.", 0)
  write _ := twoText

theorem payload_converts_two :
    (convertOtlpJsonToProtobuf twoLib.parse (some twoText)).ok = true ∧
      Request.decode (convertOtlpJsonToProtobuf twoLib.parse (some twoText)).out =
        some (requestOf plainSettings twoRecords) := by
  have hflat : decodeFlatRecord twoLib bodyText 5 = some flatRecord := by
    have htext : cString bodyText = bodyText := by decide
    have hparse : twoLib.parse bodyText = .ok (.object [(ascii "body", .string (ascii "x"))]) := by
      simp only [twoLib, if_true]
    unfold decodeFlatRecord
    rw [htext, hparse]
    rfl
  have hproduced : ∀ r ∈ twoRecords, Produced twoLib plainSettings ⟨ascii "/log", 9, ascii "INFO", []⟩ r := by
    intro r hr
    rcases List.mem_cons.1 hr with rfl | hr
    · exact .flat (by decide) hflat
    · obtain rfl := List.mem_singleton.1 hr
      exact .stdin _ (by decide) _ _
  have hround : twoLib.parse (twoLib.write (buildOtlpPayload plainSettings twoRecords)) =
      .ok (buildOtlpPayload plainSettings twoRecords) := by
    have hne : twoText ≠ bodyText := by decide +kernel
    simp only [twoLib, if_neg hne, if_true]
  have h := payload_converts twoLib plainSettings ⟨ascii "/log", 9, ascii "INFO", []⟩ twoRecords hproduced hround
  exact ⟨h.1, h.2.2⟩

end DominoLogForwarder.Otelfwd
