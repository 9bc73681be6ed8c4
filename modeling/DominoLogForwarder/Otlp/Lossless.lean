/-
What the converter of `otlp_protobuf.hpp` writes of the JSON. It is strict on purpose: a member which it would not
write is an error, and is not lost without a trace.

`Request.Shown doc r`: every member of every object of the JSON tree is in the request, and the request has nothing
else. An array without items is an empty list, which is what a repeated field without entries is.

`Request.Accepted doc`: what the checks let pass. `CheckObject` compares the names as C strings, so a name with a NUL
byte passes as the part before it, and `Find` looks for the whole name. A name which is there twice passes too, and
`Find` takes the first.

- `convertRequest_ok`: the converter takes a tree exactly when it is accepted.
- `lossless_of_proper`: nothing is lost of a tree without such names.
- `converter_lossless`: these names are all that can be lost.
-/
import DominoLogForwarder.Otlp.Sound

namespace DominoLogForwarder.Otlp

open FileReader (Bytes ascii)
open Json (membersIn member items text find Consists)

variable {α : Type}

/-! ## What the request shows of the JSON -/

/-- a member and the field which holds what it stands for, or neither of them -/
def Read (read : Json → Option α) : Option Json → Option α → Prop := Option.Rel fun v a => read v = some a

/-- an array, item by item. A member which is not there is an empty list -/
def Repeated (shown : Json → α → Prop) : Option Json → List α → Prop
  | none, xs => xs = []
  | some (.array js), xs => List.Forall₂ shown js xs
  | some _, _ => False

def AnyValue.Shown (j : Json) (m : AnyValue) : Prop :=
  match m.value with
  | none => j = .object []
  | some (.string s) => ∃ v, j = .object [(ascii "stringValue", v)] ∧ text v = some s
  | some (.bool b) => ∃ v, j = .object [(ascii "boolValue", v)] ∧ bool v = some b
  | some (.int n) => ∃ v, j = .object [(ascii "intValue", v)] ∧ int64 v = some n
  | some (.double d) => ∃ v, j = .object [(ascii "doubleValue", v)] ∧ doubleBits v = some d

def KeyValue.Shown (j : Json) (m : KeyValue) : Prop :=
  ∃ key value, j.Consists [(ascii "key", some key), (ascii "value", value)] ∧ text key = some m.key ∧
    Option.Rel AnyValue.Shown value m.value

def LogRecord.Shown (j : Json) (m : LogRecord) : Prop :=
  ∃ time observed severityNumber severityText body attributes,
    j.Consists [(ascii "timeUnixNano", time), (ascii "observedTimeUnixNano", observed),
      (ascii "severityNumber", severityNumber), (ascii "severityText", severityText), (ascii "body", body),
      (ascii "attributes", attributes)] ∧
    Read uint64 time m.timeUnixNano ∧ Read uint64 observed m.observedTimeUnixNano ∧
    Read int32 severityNumber m.severityNumber ∧ Read text severityText m.severityText ∧
    Option.Rel AnyValue.Shown body m.body ∧ Repeated KeyValue.Shown attributes m.attributes

def Scope.Shown (j : Json) (m : Scope) : Prop :=
  ∃ name version, j.Consists [(ascii "name", name), (ascii "version", version)] ∧
    Read text name m.name ∧ Read text version m.version

def ScopeLogs.Shown (j : Json) (m : ScopeLogs) : Prop :=
  ∃ scope records, j.Consists [(ascii "scope", scope), (ascii "logRecords", records)] ∧
    Option.Rel Scope.Shown scope m.scope ∧ Repeated LogRecord.Shown records m.logRecords

def Resource.Shown (j : Json) (m : Resource) : Prop :=
  ∃ attributes, j.Consists [(ascii "attributes", attributes)] ∧ Repeated KeyValue.Shown attributes m.attributes

def ResourceLogs.Shown (j : Json) (m : ResourceLogs) : Prop :=
  ∃ resource logs, j.Consists [(ascii "resource", resource), (ascii "scopeLogs", logs)] ∧
    Option.Rel Resource.Shown resource m.resource ∧ Repeated ScopeLogs.Shown logs m.scopeLogs

def Request.Shown (j : Json) (m : Request) : Prop :=
  ∃ logs, j.Consists [(ascii "resourceLogs", logs)] ∧ Repeated ResourceLogs.Shown logs m.resourceLogs

/-! ## What the checks let pass -/

/-- an object in which each name is known as a C string, and the first member with a name is of its kind -/
def Fits (kinds : List (String × (Json → Prop))) (rule : List (Bytes × Json) → Prop) (j : Json) : Prop :=
  ∃ ms, j = .object ms ∧ (∀ m ∈ ms, cString m.1 ∈ kinds.map fun k => ascii k.1) ∧ rule ms ∧
    ∀ k ∈ kinds, ∀ v, find ms (ascii k.1) = some v → k.2 v

def ListOf (kind : Json → Prop) (j : Json) : Prop := ∃ js, j = .array js ∧ ∀ v ∈ js, kind v

/-- a value which the reader takes -/
def Taken (read : Json → Option α) (j : Json) : Prop := (read j).isSome

def noRule (_ : List (Bytes × Json)) : Prop := True

def AnyValue.Accepted : Json → Prop :=
  Fits [("stringValue", Taken text), ("boolValue", Taken bool), ("intValue", Taken int64),
    ("doubleValue", Taken doubleBits)]
    fun ms => ms.length ≤ 1

def KeyValue.Accepted : Json → Prop :=
  Fits [("key", Taken text), ("value", AnyValue.Accepted)] fun ms => (find ms (ascii "key")).isSome

def LogRecord.Accepted : Json → Prop :=
  Fits [("timeUnixNano", Taken uint64), ("severityNumber", Taken int32), ("severityText", Taken text),
    ("body", AnyValue.Accepted), ("attributes", ListOf KeyValue.Accepted),
      ("observedTimeUnixNano", Taken uint64)] noRule

def Scope.Accepted : Json → Prop := Fits [("name", Taken text), ("version", Taken text)] noRule

def ScopeLogs.Accepted : Json → Prop :=
  Fits [("scope", Scope.Accepted), ("logRecords", ListOf LogRecord.Accepted)] noRule

def Resource.Accepted : Json → Prop := Fits [("attributes", ListOf KeyValue.Accepted)] noRule

def ResourceLogs.Accepted : Json → Prop :=
  Fits [("resource", Resource.Accepted), ("scopeLogs", ListOf ScopeLogs.Accepted)] noRule

def Request.Accepted : Json → Prop := Fits [("resourceLogs", ListOf ResourceLogs.Accepted)] noRule

/-! ## The converter takes what is accepted -/

def Ok (x : Except Bytes α) : Prop := ∃ a, x = .ok a

theorem ok_iff_isSome {x : Except Bytes α} : Ok x ↔ x.toOption.isSome := by
  cases x <;> simp [Ok, Except.toOption]

theorem ok_pure (a : α) : Ok (Except.ok a : Except Bytes α) := ⟨a, rfl⟩

/-- when the rest does not look at the result -/
theorem ok_bind {β : Type} {x : Except Bytes α} {f : α → Except Bytes β} {P : Prop} (h : ∀ a, Ok (f a) ↔ P) :
    Ok (x >>= f) ↔ Ok x ∧ P := by
  cases x with
  | error e => exact iff_of_false (fun ⟨_, h⟩ => nomatch h) fun h => nomatch h.1.choose_spec
  | ok a => exact (h a).trans (and_iff_right (ok_pure a)).symm

/-- a value which is read and then written -/
theorem ok_map {β : Type} {x : Except Bytes α} {f : α → β} : Ok (x >>= fun a => pure (f a)) ↔ Ok x := by
  cases x with
  | error e => exact iff_of_false (fun ⟨_, h⟩ => nomatch h) fun ⟨_, h⟩ => nomatch h
  | ok a => exact iff_of_true (ok_pure _) (ok_pure a)

theorem ok_taken {x : Except Bytes α} {read : Json → Option α} {v : Json} (h : x.toOption = read v) :
    Ok x ↔ Taken read v := by
  rw [ok_iff_isSome, h]
  rfl

theorem ok_ifMember {ms : List (Bytes × Json)} {name : String} {out : Bytes} {convert : Json → Except Bytes Bytes}
    {kind : Json → Prop} (h : ∀ v, Ok (convert v) ↔ kind v) :
    Ok (ifMember ms name out convert) ↔ ∀ v, find ms (ascii name) = some v → kind v := by
  unfold ifMember
  cases find ms (ascii name) with
  | none => exact iff_of_true (ok_pure out) fun v hv => nomatch hv
  | some v =>
    constructor
    · rintro hok v' hv'
      obtain rfl := Option.some.inj hv'
      exact (h v).1 hok
    · intro hkind
      exact (h v).2 (hkind v rfl)

/-- a member, and what comes behind it -/
theorem ok_member {ms : List (Bytes × Json)} {name : String} {out : Bytes} {convert : Json → Except Bytes Bytes}
    {rest : Bytes → Except Bytes Bytes} {kind : Json → Prop} {P : Prop} (h : ∀ v, Ok (convert v) ↔ kind v)
    (hrest : ∀ out, Ok (rest out) ↔ P) :
    Ok (ifMember ms name out convert >>= rest) ↔ (∀ v, find ms (ascii name) = some v → kind v) ∧ P :=
  (ok_bind hrest).trans (and_congr_left' (ok_ifMember h))

theorem ok_convertItems {field : ℕ} {convert : Json → Except Bytes Bytes} {kind : Json → Prop}
    (h : ∀ v, Ok (convert v) ↔ kind v) (values : List Json) (out : Bytes) :
    Ok (convertItems field convert values out) ↔ ∀ v ∈ values, kind v := by
  unfold convertItems
  -- induction on the array: a round adds to the output, and nothing looks at it
  induction values generalizing out with
  | nil => exact iff_of_true (ok_pure out) fun v hv => absurd hv List.not_mem_nil
  | cons v values ih =>
    rw [List.foldlM_cons, ok_bind ih, ok_map, h, List.forall_mem_cons]

theorem ok_items {name : String} {field : ℕ} {convert : Json → Except Bytes Bytes} {kind : Json → Prop}
    (h : ∀ v, Ok (convert v) ↔ kind v) (out : Bytes) (v : Json) :
    Ok (checkArray v name >>= fun values => convertItems field convert values out) ↔ ListOf kind v := by
  cases v with
  | array js =>
    have hcheck : checkArray (.array js) name = .ok js := rfl
    rw [hcheck]
    refine (ok_convertItems h js out).trans ⟨fun hall => ⟨js, rfl, hall⟩, ?_⟩
    rintro ⟨js', hjs, hall⟩
    obtain rfl := Json.array.inj hjs
    exact hall
  | _ => exact iff_of_false (fun ⟨_, h⟩ => nomatch h) fun ⟨_, h, _⟩ => nomatch h

theorem checkObject_ok {value : Json} {what : String} {known : List String} {ms : List (Bytes × Json)} :
    checkObject value what known = .ok ms ↔ value = .object ms ∧ ∀ m ∈ ms, cString m.1 ∈ known.map ascii := by
  cases value with
  | object members =>
    rw [checkObject]
    cases h : members.find? fun m => !(known.map ascii).contains (cString m.1) with
    | none =>
      have hall : ∀ m ∈ members, cString m.1 ∈ known.map ascii := by
        intro m hm
        simpa using List.find?_eq_none.1 h m hm
      constructor
      · intro heq
        obtain rfl := Except.ok.inj heq
        exact ⟨rfl, hall⟩
      · rintro ⟨heq, -⟩
        exact congrArg Except.ok (Json.object.inj heq)
    | some m =>
      refine iff_of_false (fun heq => by cases heq) ?_
      rintro ⟨heq, hall⟩
      obtain rfl := Json.object.inj heq
      have hunknown := List.find?_some h
      have hmem := hall m (List.mem_of_find?_eq_some h)
      rw [List.contains_iff_mem.2 hmem] at hunknown
      exact absurd hunknown Bool.false_ne_true
  | _ => exact iff_of_false (fun h => by cases h) fun h => by cases h.1

theorem ok_object {value : Json} {what : String} {known : List String} {f : List (Bytes × Json) → Except Bytes Bytes}
    {kinds : List (String × (Json → Prop))} {rule : List (Bytes × Json) → Prop}
    (hnames : known.Perm (kinds.map Prod.fst))
    (h : ∀ ms, Ok (f ms) ↔ rule ms ∧ ∀ k ∈ kinds, ∀ v, find ms (ascii k.1) = some v → k.2 v) :
    Ok (checkObject value what known >>= f) ↔ Fits kinds rule value := by
  have hmem : ∀ name, name ∈ known.map ascii ↔ name ∈ kinds.map fun k => ascii k.1 := by
    intro name
    rw [(hnames.map ascii).mem_iff, List.map_map]
    rfl
  constructor
  · rintro ⟨out, hout⟩
    cases hcheck : checkObject value what known with
    | error e =>
      rw [hcheck] at hout
      exact nomatch hout
    | ok ms =>
      rw [hcheck] at hout
      obtain ⟨rfl, hknown⟩ := checkObject_ok.1 hcheck
      exact ⟨ms, rfl, fun m hm => (hmem _).1 (hknown m hm), (h ms).1 ⟨out, hout⟩⟩
  · rintro ⟨ms, rfl, hknown, hrule⟩
    have hcheck : checkObject (.object ms) what known = .ok ms :=
      checkObject_ok.2 ⟨rfl, fun m hm => (hmem _).2 (hknown m hm)⟩
    rw [hcheck]
    exact (h ms).2 hrule

theorem ok_text {v : Json} {name : String} : Ok (checkString v name) ↔ Taken text v := ok_taken (checkString_eq v name)

theorem ok_uint64 {v : Json} {name : String} : Ok (getUint64 v name) ↔ Taken uint64 v := ok_taken (getUint64_eq v name)

theorem ok_int64 {v : Json} {name : String} : Ok (getInt64 v name) ↔ Taken int64 v := ok_taken (getInt64_eq v name)

theorem ok_bool {v : Json} : Ok (getBool v) ↔ Taken bool v := by
  apply ok_taken
  cases v <;> rfl

theorem ok_double {v : Json} : Ok (getDouble v) ↔ Taken doubleBits v := by
  cases v <;> simp [Taken, doubleBits, getDouble, fail, Ok]

theorem ok_int32 {v : Json} : Ok (getInt v) ↔ Taken int32 v := by
  cases v with
  | int n =>
    have hint : n.isInt = true ↔ -2 ^ 31 ≤ n.value ∧ n.value < 2 ^ 31 := by simp [JsonInt.isInt]
    by_cases h : n.isInt = true
    · have hright : int32 (.int n) = some (Int32.ofInt n.value) := if_pos (hint.1 h)
      exact iff_of_true ⟨_, if_pos h⟩ (by rw [Taken, hright]; rfl)
    · have hleft : getInt (.int n) = fail (quoted (ascii "severityNumber") ++ ascii " is not an integer") := if_neg h
      have hright : int32 (.int n) = none := if_neg fun hn => h (hint.2 hn)
      rw [hleft, Taken, hright]
      simp [fail, Ok]
  | _ => simp [Taken, int32, getInt, fail, Ok]

theorem convertAnyValue_ok (v : Json) (what : String) : Ok (convertAnyValue v what) ↔ AnyValue.Accepted v := by
  refine ok_object (by decide) fun ms => ?_
  simp only [List.forall_mem_cons, List.not_mem_nil, false_imp_iff, implies_true, and_true]
  by_cases hlen : 1 < ms.length
  · rw [if_pos hlen]
    exact iff_of_false (fun ⟨_, h⟩ => nomatch h) fun h => absurd h.1 (Nat.not_le.2 hlen)
  · rw [if_neg hlen, and_iff_right (Nat.not_lt.1 hlen)]
    refine ok_member (fun _ => ok_map.trans ok_text) fun out => ?_
    refine ok_member (fun _ => ok_map.trans ok_bool) fun out => ?_
    refine ok_member (fun _ => ok_map.trans ok_int64) fun out => ?_
    exact ok_ifMember fun _ => ok_map.trans ok_double

theorem convertKeyValue_ok (v : Json) : Ok (convertKeyValue v) ↔ KeyValue.Accepted v := by
  refine ok_object (by decide) fun ms => ?_
  simp only [List.forall_mem_cons, List.not_mem_nil, false_imp_iff, implies_true, and_true]
  cases find ms (ascii "key") with
  | none => exact iff_of_false (fun ⟨_, h⟩ => nomatch h) fun h => nomatch h.1
  | some key =>
    have hkey : (∀ v, some key = some v → Taken text v) ↔ Ok (checkString key "key") :=
      ⟨fun h => ok_text.2 (h key rfl), fun h v hv => Option.some.inj hv ▸ ok_text.1 h⟩
    rw [Option.isSome_some, and_iff_right rfl, hkey]
    apply ok_bind
    intro out
    exact ok_ifMember fun v => ok_map.trans (convertAnyValue_ok v "value")

theorem ok_attributes (field : ℕ) (out : Bytes) (v : Json) :
    Ok (convertAttributes v field out) ↔ ListOf KeyValue.Accepted v := ok_items convertKeyValue_ok out v

theorem convertLogRecord_ok (v : Json) : Ok (convertLogRecord v) ↔ LogRecord.Accepted v := by
  refine ok_object (by decide) fun ms => ?_
  simp only [List.forall_mem_cons, List.not_mem_nil, false_imp_iff, implies_true, and_true, noRule, true_and]
  refine ok_member (fun _ => ok_map.trans ok_uint64) fun out => ?_
  refine ok_member (fun _ => ok_map.trans ok_int32) fun out => ?_
  refine ok_member (fun _ => ok_map.trans ok_text) fun out => ?_
  refine ok_member (fun v => ok_map.trans (convertAnyValue_ok v "body")) fun out => ?_
  refine ok_member (ok_attributes 6 out) fun out => ?_
  exact ok_ifMember fun _ => ok_map.trans ok_uint64

theorem convertScope_ok (v : Json) : Ok (convertScope v) ↔ Scope.Accepted v := by
  refine ok_object (by decide) fun ms => ?_
  simp only [List.forall_mem_cons, List.not_mem_nil, false_imp_iff, implies_true, and_true, noRule, true_and]
  refine ok_member (fun _ => ok_map.trans ok_text) fun out => ?_
  exact ok_ifMember fun _ => ok_map.trans ok_text

theorem convertScopeLogs_ok (v : Json) : Ok (convertScopeLogs v) ↔ ScopeLogs.Accepted v := by
  refine ok_object (by decide) fun ms => ?_
  simp only [List.forall_mem_cons, List.not_mem_nil, false_imp_iff, implies_true, and_true, noRule, true_and]
  refine ok_member (fun v => ok_map.trans (convertScope_ok v)) fun out => ?_
  exact ok_ifMember fun v => ok_items convertLogRecord_ok out v

theorem convertResource_ok (v : Json) : Ok (convertResource v) ↔ Resource.Accepted v := by
  refine ok_object (by decide) fun ms => ?_
  simp only [List.forall_mem_cons, List.not_mem_nil, false_imp_iff, implies_true, and_true, noRule, true_and]
  exact ok_ifMember (ok_attributes 1 [])

theorem convertResourceLogs_ok (v : Json) : Ok (convertResourceLogs v) ↔ ResourceLogs.Accepted v := by
  refine ok_object (by decide) fun ms => ?_
  simp only [List.forall_mem_cons, List.not_mem_nil, false_imp_iff, implies_true, and_true, noRule, true_and]
  refine ok_member (fun v => ok_map.trans (convertResource_ok v)) fun out => ?_
  exact ok_ifMember fun v => ok_items convertScopeLogs_ok out v

/-- **The converter takes a tree exactly when it is accepted.** -/
theorem convertRequest_ok (doc : Json) : Ok (convertRequest doc) ↔ Request.Accepted doc := by
  refine ok_object (by decide) fun ms => ?_
  simp only [List.forall_mem_cons, List.not_mem_nil, false_imp_iff, implies_true, and_true, noRule, true_and]
  exact ok_ifMember fun v => ok_items convertResourceLogs_ok [] v

/-! ## Nothing is lost of a proper tree -/

theorem membersIn_eq {known : List Bytes} {j : Json} {ms : List (Bytes × Json)} (h : membersIn known j = some ms) :
    j = .object ms ∧ ∀ m ∈ ms, m.1 ∈ known := by
  cases j with
  | object members =>
    unfold membersIn at h
    dsimp only at h
    split_ifs at h with hall
    obtain rfl := Option.some.inj h
    exact ⟨rfl, fun m hm => List.contains_iff_mem.1 (List.all_eq_true.1 hall m hm)⟩
  | _ => exact nomatch h

section Shown

variable {shown : Json → α → Prop} {read : Json → Option α} {ms : List (Bytes × Json)} {name : Bytes}

theorem rel_of_member (hms : (Json.object ms).Proper) (hread : ∀ v a, v.Proper → read v = some a → shown v a)
    {x : Option α} (h : member ms name read = some x) : Option.Rel shown (find ms name) x := by
  unfold member at h
  cases hv : find ms name with
  | none =>
    rw [hv] at h
    obtain rfl := Option.some.inj h
    exact .none
  | some v =>
    rw [hv] at h
    obtain ⟨a, ha, rfl⟩ := Option.map_eq_some_iff.1 h
    exact .some (hread v a (hms.find hv) ha)

theorem read_of_member (hms : (Json.object ms).Proper) {x : Option α} (h : member ms name read = some x) :
    Read read (find ms name) x := rel_of_member hms (fun _ _ _ ha => ha) h

theorem forall₂_of_mapM (hread : ∀ v a, v.Proper → read v = some a → shown v a) {js : List Json} {xs : List α}
    (hjs : ∀ j ∈ js, j.Proper) (h : js.mapM read = some xs) : List.Forall₂ shown js xs := by
  induction js generalizing xs with
  | nil =>
    obtain rfl := Option.some.inj h
    exact .nil
  | cons j js ih =>
    obtain ⟨hj, hjs⟩ := List.forall_mem_cons.1 hjs
    rw [List.mapM_cons] at h
    obtain ⟨a, ha, h⟩ := Option.bind_eq_some_iff.1 h
    obtain ⟨as, has, h⟩ := Option.bind_eq_some_iff.1 h
    obtain rfl := Option.some.inj h
    exact .cons (hread j a hj ha) (ih hjs has)

theorem repeated_of_member (hms : (Json.object ms).Proper) (hread : ∀ v a, v.Proper → read v = some a → shown v a)
    {x : Option (List α)} (h : member ms name (items read) = some x) : Repeated shown (find ms name) (x.getD []) := by
  have hitems : ∀ v xs, v.Proper → items read v = some xs → Repeated shown (some v) xs := by
    intro v xs hv hxs
    cases v with
    | array js => exact forall₂_of_mapM hread hv.item hxs
    | _ => exact nomatch hxs
  have hrel : Option.Rel (fun v xs => Repeated shown (some v) xs) (find ms name) x := rel_of_member hms hitems h
  cases hv : find ms name with
  | none =>
    rw [hv] at hrel
    cases hrel
    rfl
  | some v =>
    rw [hv] at hrel
    cases hrel with
    | some hxs => exact hxs

end Shown

/-- an object which a reader takes, when its names are known -/
theorem consists_of_membersIn {known : List Bytes} {j : Json} {ms : List (Bytes × Json)} (hj : j.Proper)
    (h : membersIn known j = some ms) (hknown : known.Nodup) :
    (Json.object ms).Proper ∧ j.Consists (known.map fun name => (name, find ms name)) := by
  obtain ⟨rfl, hnames⟩ := membersIn_eq h
  cases hj with
  | object nodup noNul values => exact ⟨.object nodup noNul values, Json.consists_of_find nodup hknown hnames⟩

theorem member_one {name : Bytes} {v : Json} {read : Json → Option α} :
    member [(name, v)] name read = (read v).map some := by
  simp [member, find]

theorem member_other {name name' : Bytes} {v : Json} {read : Json → Option α} (h : name ≠ name') :
    member [(name, v)] name' read = some none := by
  have hne : (name' == name) = false := beq_eq_false_iff_ne.2 h.symm
  simp [member, find, List.lookup_cons, hne]

theorem member_read {β : Type} {x : Option α} {next : Option α → Option β} {r : β}
    (h : (x.map some).bind next = some r) : ∃ a, x = some a ∧ next (some a) = some r := by
  obtain ⟨y, hy, hnext⟩ := Option.bind_eq_some_iff.1 h
  obtain ⟨a, ha, rfl⟩ := Option.map_eq_some_iff.1 hy
  exact ⟨a, ha, hnext⟩

theorem AnyValue.shown_of_ofJson {j : Json} {m : AnyValue} (h : AnyValue.ofJson j = some m) : AnyValue.Shown j m := by
  obtain ⟨ms, hms, hm⟩ := Option.bind_eq_some_iff.1 h
  obtain ⟨rfl, hnames⟩ := membersIn_eq hms
  split_ifs at hm with hlen
  cases ms with
  | nil =>
    obtain rfl := Option.some.inj hm
    rfl
  | cons f rest =>
    obtain rfl : rest = [] := List.length_eq_zero_iff.1 (by simpa using hlen)
    obtain ⟨name, v⟩ := f
    have hname := hnames _ List.mem_cons_self
    simp only [List.mem_cons, List.not_mem_nil, or_false] at hname
    -- the one member has one of the four names, and the other readers find nothing
    rcases hname with rfl | rfl | rfl | rfl
    · rw [member_one, member_other (by decide), member_other (by decide), member_other (by decide)] at hm
      simp only [Option.bind_eq_bind, Option.bind_some] at hm
      obtain ⟨s, htext, hm⟩ := member_read hm
      obtain rfl := Option.some.inj hm
      exact ⟨v, rfl, htext⟩
    · rw [member_one, member_other (by decide), member_other (by decide), member_other (by decide)] at hm
      simp only [Option.bind_eq_bind, Option.bind_some] at hm
      obtain ⟨n, hint, hm⟩ := member_read hm
      obtain rfl := Option.some.inj hm
      exact ⟨v, rfl, hint⟩
    · rw [member_one, member_other (by decide), member_other (by decide), member_other (by decide)] at hm
      simp only [Option.bind_eq_bind, Option.bind_some] at hm
      obtain ⟨d, hdouble, hm⟩ := member_read hm
      obtain rfl := Option.some.inj hm
      exact ⟨v, rfl, hdouble⟩
    · rw [member_one, member_other (by decide), member_other (by decide), member_other (by decide)] at hm
      simp only [Option.bind_eq_bind, Option.bind_some] at hm
      obtain ⟨b, hbool, hm⟩ := member_read hm
      obtain rfl := Option.some.inj hm
      exact ⟨v, rfl, hbool⟩

theorem KeyValue.shown_of_ofJson {j : Json} {m : KeyValue} (hj : j.Proper) (h : KeyValue.ofJson j = some m) :
    KeyValue.Shown j m := by
  obtain ⟨ms, hms, h⟩ := Option.bind_eq_some_iff.1 h
  obtain ⟨hproper, hconsists⟩ := consists_of_membersIn hj hms (by decide)
  obtain ⟨found, hkey, h⟩ := Option.bind_eq_some_iff.1 h
  obtain ⟨key, hfound, h⟩ := Option.bind_eq_some_iff.1 h
  obtain ⟨value, hvalue, h⟩ := Option.bind_eq_some_iff.1 h
  obtain rfl := Option.some.inj h
  subst hfound
  have hread := read_of_member hproper hkey
  cases hfind : find ms (ascii "key") with
  | none =>
    rw [hfind] at hread
    exact nomatch hread
  | some v =>
    rw [hfind] at hread
    cases hread with
    | some htext =>
      refine ⟨v, find ms (ascii "value"), hfind ▸ hconsists, htext, ?_⟩
      exact rel_of_member hproper (fun _ _ _ => AnyValue.shown_of_ofJson) hvalue

theorem attributes_of_member {ms : List (Bytes × Json)} (hms : (Json.object ms).Proper) {xs : List KeyValue}
    (h : attributesOf ms = some xs) : Repeated KeyValue.Shown (find ms (ascii "attributes")) xs := by
  obtain ⟨x, hx, rfl⟩ := Option.map_eq_some_iff.1 h
  exact repeated_of_member hms (fun _ _ => KeyValue.shown_of_ofJson) hx

theorem LogRecord.shown_of_ofJson {j : Json} {m : LogRecord} (hj : j.Proper) (h : LogRecord.ofJson j = some m) :
    LogRecord.Shown j m := by
  obtain ⟨ms, hms, h⟩ := Option.bind_eq_some_iff.1 h
  obtain ⟨hproper, hconsists⟩ := consists_of_membersIn hj hms (by decide)
  obtain ⟨time, htime, h⟩ := Option.bind_eq_some_iff.1 h
  obtain ⟨severityNumber, hnumber, h⟩ := Option.bind_eq_some_iff.1 h
  obtain ⟨severityText, htext, h⟩ := Option.bind_eq_some_iff.1 h
  obtain ⟨body, hbody, h⟩ := Option.bind_eq_some_iff.1 h
  obtain ⟨attributes, hattributes, h⟩ := Option.bind_eq_some_iff.1 h
  obtain ⟨observed, hobserved, h⟩ := Option.bind_eq_some_iff.1 h
  obtain rfl := Option.some.inj h
  exact ⟨_, _, _, _, _, _, hconsists, read_of_member hproper htime, read_of_member hproper hobserved,
    read_of_member hproper hnumber, read_of_member hproper htext,
    rel_of_member hproper (fun _ _ _ => AnyValue.shown_of_ofJson) hbody, attributes_of_member hproper hattributes⟩

theorem Scope.shown_of_ofJson {j : Json} {m : Scope} (hj : j.Proper)
    (h : Scope.ofJson j = some m) : Scope.Shown j m := by
  obtain ⟨ms, hms, h⟩ := Option.bind_eq_some_iff.1 h
  obtain ⟨hproper, hconsists⟩ := consists_of_membersIn hj hms (by decide)
  obtain ⟨name, hname, h⟩ := Option.bind_eq_some_iff.1 h
  obtain ⟨version, hversion, h⟩ := Option.bind_eq_some_iff.1 h
  obtain rfl := Option.some.inj h
  exact ⟨_, _, hconsists, read_of_member hproper hname, read_of_member hproper hversion⟩

theorem ScopeLogs.shown_of_ofJson {j : Json} {m : ScopeLogs} (hj : j.Proper) (h : ScopeLogs.ofJson j = some m) :
    ScopeLogs.Shown j m := by
  obtain ⟨ms, hms, h⟩ := Option.bind_eq_some_iff.1 h
  obtain ⟨hproper, hconsists⟩ := consists_of_membersIn hj hms (by decide)
  obtain ⟨scope, hscope, h⟩ := Option.bind_eq_some_iff.1 h
  obtain ⟨records, hrecords, h⟩ := Option.bind_eq_some_iff.1 h
  obtain rfl := Option.some.inj h
  exact ⟨_, _, hconsists, rel_of_member hproper (fun _ _ => Scope.shown_of_ofJson) hscope,
    repeated_of_member hproper (fun _ _ => LogRecord.shown_of_ofJson) hrecords⟩

theorem Resource.shown_of_ofJson {j : Json} {m : Resource} (hj : j.Proper) (h : Resource.ofJson j = some m) :
    Resource.Shown j m := by
  obtain ⟨ms, hms, h⟩ := Option.bind_eq_some_iff.1 h
  obtain ⟨hproper, hconsists⟩ := consists_of_membersIn hj hms (by decide)
  obtain ⟨attributes, hattributes, rfl⟩ := Option.map_eq_some_iff.1 h
  exact ⟨_, hconsists, attributes_of_member hproper hattributes⟩

theorem ResourceLogs.shown_of_ofJson {j : Json} {m : ResourceLogs} (hj : j.Proper)
    (h : ResourceLogs.ofJson j = some m) :
    ResourceLogs.Shown j m := by
  obtain ⟨ms, hms, h⟩ := Option.bind_eq_some_iff.1 h
  obtain ⟨hproper, hconsists⟩ := consists_of_membersIn hj hms (by decide)
  obtain ⟨resource, hresource, h⟩ := Option.bind_eq_some_iff.1 h
  obtain ⟨logs, hlogs, h⟩ := Option.bind_eq_some_iff.1 h
  obtain rfl := Option.some.inj h
  exact ⟨_, _, hconsists, rel_of_member hproper (fun _ _ => Resource.shown_of_ofJson) hresource,
    repeated_of_member hproper (fun _ _ => ScopeLogs.shown_of_ofJson) hlogs⟩

theorem Request.shown_of_ofJson {j : Json} {m : Request} (hj : j.Proper) (h : Request.ofJson j = some m) :
    Request.Shown j m := by
  obtain ⟨ms, hms, h⟩ := Option.bind_eq_some_iff.1 h
  obtain ⟨hproper, hconsists⟩ := consists_of_membersIn hj hms (by decide)
  obtain ⟨logs, hlogs, rfl⟩ := Option.map_eq_some_iff.1 h
  exact ⟨_, hconsists, repeated_of_member hproper (fun _ _ => ResourceLogs.shown_of_ofJson) hlogs⟩

/-- **The converter loses nothing of a proper tree.** -/
theorem lossless_of_proper {doc : Json} {out : Bytes} (hdoc : doc.Proper) (h : convertRequest doc = .ok out) :
    ∃ request, Request.decode out = some request ∧ Request.Shown doc request := by
  have heq := convertRequest_eq hdoc
  rw [h] at heq
  obtain ⟨request, hrequest, hencode⟩ := Option.map_eq_some_iff.1 heq.symm
  exact ⟨request, hencode ▸ Request.decode_encode request, Request.shown_of_ofJson hdoc hrequest⟩

/-! ## Only a proper tree is shown as a whole -/

section Proper

variable {shown : Json → α → Prop} {v : Option Json}

theorem proper_of_rel (h : ∀ v a, shown v a → v.Proper) {x : Option α} (hx : Option.Rel shown v x) :
    ∀ w, v = some w → w.Proper := by
  rintro w rfl
  cases hx with
  | some hw => exact h _ _ hw

theorem proper_of_repeated (h : ∀ v a, shown v a → v.Proper) {xs : List α} (hxs : Repeated shown v xs) :
    ∀ w, v = some w → w.Proper := by
  rintro w rfl
  cases w with
  | array js =>
    refine .array fun j hj => ?_
    obtain ⟨i, hi, rfl⟩ := List.mem_iff_getElem.1 hj
    have hall : List.Forall₂ shown js xs := hxs
    exact h _ _ (hall.get hi (hall.length_eq ▸ hi))
  | _ => exact hxs.elim

end Proper

theorem proper_of_text {v : Json} {s : Bytes} (h : text v = some s) : v.Proper := by
  cases v with
  | string s => exact .string s
  | _ => exact nomatch h

theorem proper_of_bool {v : Json} {b : Bool} (h : bool v = some b) : v.Proper := by
  cases v with
  | bool b => exact .bool b
  | _ => exact nomatch h

theorem proper_of_uint64 {v : Json} {n : UInt64} (h : uint64 v = some n) : v.Proper := by
  cases v with
  | int n => exact .int n
  | string s => exact .string s
  | _ => exact nomatch h

theorem proper_of_int64 {v : Json} {n : Int64} (h : int64 v = some n) : v.Proper := by
  cases v with
  | int n => exact .int n
  | string s => exact .string s
  | _ => exact nomatch h

theorem proper_of_int32 {v : Json} {n : Int32} (h : int32 v = some n) : v.Proper := by
  cases v with
  | int n => exact .int n
  | _ => exact nomatch h

theorem proper_of_double {v : Json} {d : UInt64} (h : doubleBits v = some d) : v.Proper := by
  cases v with
  | int n => exact .int n
  | double d => exact .double d
  | _ => exact nomatch h

theorem AnyValue.Shown.proper {j : Json} {m : AnyValue} (h : AnyValue.Shown j m) : j.Proper := by
  have hone : ∀ {name : Bytes} {v : Json}, 0 ∉ name → v.Proper → (Json.object [(name, v)]).Proper := by
    intro name v hname hv
    exact .object (List.nodup_singleton _) (by simpa using hname) (by simpa using hv)
  unfold AnyValue.Shown at h
  split at h
  · exact h ▸ .object List.nodup_nil (fun _ hm => absurd hm List.not_mem_nil) fun _ hm => absurd hm List.not_mem_nil
  · obtain ⟨v, rfl, hv⟩ := h
    exact hone (by decide) (proper_of_text hv)
  · obtain ⟨v, rfl, hv⟩ := h
    exact hone (by decide) (proper_of_bool hv)
  · obtain ⟨v, rfl, hv⟩ := h
    exact hone (by decide) (proper_of_int64 hv)
  · obtain ⟨v, rfl, hv⟩ := h
    exact hone (by decide) (proper_of_double hv)

theorem KeyValue.Shown.proper {j : Json} {m : KeyValue} (h : KeyValue.Shown j m) : j.Proper := by
  obtain ⟨key, value, hj, hkey, hvalue⟩ := h
  refine hj.proper [ascii "key", ascii "value"] rfl (by decide) (by decide) ?_
  simp only [List.forall_mem_cons, List.not_mem_nil, false_imp_iff, implies_true, and_true]
  refine ⟨?_, proper_of_rel (fun _ _ => AnyValue.Shown.proper) hvalue⟩
  intro v hv
  exact Option.some.inj hv ▸ proper_of_text hkey

theorem LogRecord.Shown.proper {j : Json} {m : LogRecord} (h : LogRecord.Shown j m) : j.Proper := by
  obtain ⟨time, observed, number, severityText, body, attributes, hj, htime, hobserved, hnumber, htext, hbody,
    hattributes⟩ := h
  refine hj.proper [ascii "timeUnixNano", ascii "observedTimeUnixNano", ascii "severityNumber", ascii "severityText",
    ascii "body", ascii "attributes"] rfl (by decide) (by decide) ?_
  simp only [List.forall_mem_cons, List.not_mem_nil, false_imp_iff, implies_true, and_true]
  exact ⟨proper_of_rel (fun _ _ => proper_of_uint64) htime, proper_of_rel (fun _ _ => proper_of_uint64) hobserved,
    proper_of_rel (fun _ _ => proper_of_int32) hnumber, proper_of_rel (fun _ _ => proper_of_text) htext,
    proper_of_rel (fun _ _ => AnyValue.Shown.proper) hbody,
      proper_of_repeated (fun _ _ => KeyValue.Shown.proper) hattributes⟩

theorem Scope.Shown.proper {j : Json} {m : Scope} (h : Scope.Shown j m) : j.Proper := by
  obtain ⟨name, version, hj, hname, hversion⟩ := h
  refine hj.proper [ascii "name", ascii "version"] rfl (by decide) (by decide) ?_
  simp only [List.forall_mem_cons, List.not_mem_nil, false_imp_iff, implies_true, and_true]
  exact ⟨proper_of_rel (fun _ _ => proper_of_text) hname, proper_of_rel (fun _ _ => proper_of_text) hversion⟩

theorem ScopeLogs.Shown.proper {j : Json} {m : ScopeLogs} (h : ScopeLogs.Shown j m) : j.Proper := by
  obtain ⟨scope, records, hj, hscope, hrecords⟩ := h
  refine hj.proper [ascii "scope", ascii "logRecords"] rfl (by decide) (by decide) ?_
  simp only [List.forall_mem_cons, List.not_mem_nil, false_imp_iff, implies_true, and_true]
  exact ⟨proper_of_rel (fun _ _ => Scope.Shown.proper) hscope,
    proper_of_repeated (fun _ _ => LogRecord.Shown.proper) hrecords⟩

theorem Resource.Shown.proper {j : Json} {m : Resource} (h : Resource.Shown j m) : j.Proper := by
  obtain ⟨attributes, hj, hattributes⟩ := h
  refine hj.proper [ascii "attributes"] rfl (by decide) (by decide) ?_
  simp only [List.forall_mem_cons, List.not_mem_nil, false_imp_iff, implies_true, and_true]
  exact proper_of_repeated (fun _ _ => KeyValue.Shown.proper) hattributes

theorem ResourceLogs.Shown.proper {j : Json} {m : ResourceLogs} (h : ResourceLogs.Shown j m) : j.Proper := by
  obtain ⟨resource, logs, hj, hresource, hlogs⟩ := h
  refine hj.proper [ascii "resource", ascii "scopeLogs"] rfl (by decide) (by decide) ?_
  simp only [List.forall_mem_cons, List.not_mem_nil, false_imp_iff, implies_true, and_true]
  exact ⟨proper_of_rel (fun _ _ => Resource.Shown.proper) hresource,
    proper_of_repeated (fun _ _ => ScopeLogs.Shown.proper) hlogs⟩

theorem Request.Shown.proper {j : Json} {m : Request} (h : Request.Shown j m) : j.Proper := by
  obtain ⟨logs, hj, hlogs⟩ := h
  refine hj.proper [ascii "resourceLogs"] rfl (by decide) (by decide) ?_
  simp only [List.forall_mem_cons, List.not_mem_nil, false_imp_iff, implies_true, and_true]
  exact proper_of_repeated (fun _ _ => ResourceLogs.Shown.proper) hlogs

/-! ## What can be lost -/

/-- the call fails, or all of the JSON is in the protobuf -/
def Lossless (parse : Parser) (json : Option Bytes) : Prop :=
  (convertOtlpJsonToProtobuf parse json).ok = false ∨
    ∃ text doc request, json = some text ∧ parse text = .ok doc ∧
      Request.decode (convertOtlpJsonToProtobuf parse json).out = some request ∧ Request.Shown doc request

theorem convert_ok_iff {parse : Parser} {text : Bytes} {doc : Json} (hparse : parse text = .ok doc) :
    (convertOtlpJsonToProtobuf parse (some text)).ok = true ↔ Request.Accepted doc := by
  rw [convert_ok, convertText_of_parse hparse, ← convertRequest_ok]
  constructor
  · rintro ⟨out, hout, -⟩
    exact ⟨out, hout⟩
  · rintro ⟨out, hout⟩
    refine ⟨out, hout, ?_⟩
    rw [convertOtlpJsonToProtobuf, convertText_of_parse hparse, hout]

theorem lossless_iff {parse : Parser} {text : Bytes} {doc : Json} (hparse : parse text = .ok doc) :
    Lossless parse (some text) ↔ doc.Proper ∨ ¬Request.Accepted doc := by
  by_cases haccepted : Request.Accepted doc
  · have hok := (convert_ok_iff hparse).2 haccepted
    constructor
    · rintro (hfail | ⟨text', doc', request, htext, hdoc, -, hshown⟩)
      · exact absurd (hok.symm.trans hfail) (by decide)
      · obtain rfl := Option.some.inj htext
        obtain rfl := Except.ok.inj (hparse.symm.trans hdoc)
        exact Or.inl hshown.proper
    · rintro (hproper | hnot)
      · obtain ⟨out, hout, hconv⟩ := convert_ok.1 hok
        rw [convertText_of_parse hparse] at hout
        obtain ⟨request, hdecode, hshown⟩ := lossless_of_proper hproper hout
        refine Or.inr ⟨text, doc, request, rfl, hparse, ?_, hshown⟩
        rw [hconv]
        exact hdecode
      · exact absurd haccepted hnot
  · refine iff_of_true (Or.inl ?_) (Or.inr haccepted)
    exact Bool.eq_false_iff.2 fun hok => haccepted ((convert_ok_iff hparse).1 hok)

/-- **The converter loses members of one kind only.** Either the call fails or all of the JSON is in the protobuf,
exactly when no object of the tree has a name twice or a name with a NUL byte, or the tree is not accepted. -/
theorem converter_lossless (parse : Parser) (json : Option Bytes) :
    Lossless parse json ↔
      ∀ text doc, json = some text → parse text = .ok doc → doc.Proper ∨ ¬Request.Accepted doc := by
  cases json with
  | none => exact iff_of_true (Or.inl rfl) fun _ _ h => by cases h
  | some text =>
    cases hparse : parse text with
    | error e =>
      have hfail : (convertOtlpJsonToProtobuf parse (some text)).ok = false := by
        simp [convertOtlpJsonToProtobuf, convertText, hparse, fail]
      refine iff_of_true (Or.inl hfail) ?_
      rintro text' doc htext hdoc
      obtain rfl := Option.some.inj htext
      have hnever := hparse.symm.trans hdoc
      cases hnever
    | ok doc =>
      rw [lossless_iff hparse]
      constructor
      · rintro h text' doc' htext hdoc
        obtain rfl := Option.some.inj htext
        obtain rfl := Except.ok.inj (hparse.symm.trans hdoc)
        exact h
      · intro h
        exact h text doc rfl hparse

/-- a request with one scope -/
def scopeOnly (members : List (Bytes × Json)) : Json :=
  .object [(ascii "resourceLogs", .array [.object [(ascii "scopeLogs",
    .array [.object [(ascii "scope", .object members)]])]])]

theorem proper_of_scopeOnly {members : List (Bytes × Json)} (h : (scopeOnly members).Proper) :
    (Json.object members).Proper := by
  have hfirst : ∀ {name : Bytes} {v : Json}, find [(name, v)] name = some v := fun {_ _} => List.lookup_cons_self
  have hlogs := h.find hfirst
  have hscopeLogs := (hlogs.item _ List.mem_cons_self).find hfirst
  exact (hscopeLogs.item _ List.mem_cons_self).find hfirst

def nameTwice : List (Bytes × Json) := [(ascii "name", .string (ascii "a")), (ascii "name", .string (ascii "b"))]

/-- the name of the member is not the whole name -/
def nameWithNul : List (Bytes × Json) := [(ascii "name" ++ [0] ++ ascii "x", .string (ascii "a"))]

def twiceText : Bytes :=
  ascii "\x7b\"resourceLogs\":[\x7b\"scopeLogs\":[\x7b\"scope\":\x7b\"name\":\"a\",\"name\":\"b\"\x7d\x7d]\x7d]\x7d"

def withNulText : Bytes :=
  ascii "\x7b\"resourceLogs\":[\x7b\"scopeLogs\":[\x7b\"scope\":\x7b\"name\\u0000x\":\"a\"\x7d\x7d]\x7d]\x7d"

/-- the parser, for these two texts -/
def parseScope (json : Bytes) : Except (Bytes × ℕ) Json :=
  if json = twiceText then .ok (scopeOnly nameTwice)
  else if json = withNulText then .ok (scopeOnly nameWithNul)
  else .error (ascii "Invalid value.", 0)

/-- **The second of two names, and the name with a NUL byte, are lost.** -/
theorem names_lost : ¬Lossless parseScope (some twiceText) ∧ ¬Lossless parseScope (some withNulText) := by
  constructor
  · have hparse : parseScope twiceText = .ok (scopeOnly nameTwice) := if_pos rfl
    have haccepted : Request.Accepted (scopeOnly nameTwice) :=
      (convertRequest_ok _).1 (ok_iff_isSome.2 (by decide +kernel))
    rw [lossless_iff hparse]
    rintro (hproper | hnot)
    · cases proper_of_scopeOnly hproper with
      | object nodup _ _ => exact absurd nodup (by decide)
    · exact hnot haccepted
  · have hparse : parseScope withNulText = .ok (scopeOnly nameWithNul) := by
      rw [parseScope, if_neg (by decide), if_pos rfl]
    have haccepted : Request.Accepted (scopeOnly nameWithNul) :=
      (convertRequest_ok _).1 (ok_iff_isSome.2 (by decide +kernel))
    rw [lossless_iff hparse]
    rintro (hproper | hnot)
    · exact absurd ((proper_of_scopeOnly hproper).noNul _ List.mem_cons_self) (by decide)
    · exact hnot haccepted

end DominoLogForwarder.Otlp
