/-
What `BuildOtlpPayload` makes of a list of records (`otelfwd.cpp`).

`ShowsRecord` and `ShowsEntry` say what a reader finds in the payload, by the names of OTLP/JSON. The records are named
by their position in the list, so that equal records are counted one by one. `SameSource` is what two records of one
entry have in common.

The resource of an entry is the one of its first record, and two doubles which are zero are the same for `SameKV`, also
when only one of them is negative (`Like`). So `-0.0` can be shown as `0.0` (`signed_zero_joins`). Everything else is
exact.
-/
import DominoLogForwarder.Otelfwd.Record

namespace DominoLogForwarder.Otelfwd

open FileReader (Bytes ascii decimal)
open Grouping (Cluster groupsOf)

/-! ## The same source -/

/-- equal, but for the sign of a double which is zero -/
def OtelValue.Like : OtelValue → OtelValue → Prop
  | .double x, .double y => x = y ∨ x.magnitude = 0 ∧ y.magnitude = 0
  | v, w => v = w

def OtelKV.Like (a b : OtelKV) : Prop := a.key = b.key ∧ a.value.Like b.value

/-- the scope name, the scope version and the resource are the same -/
structure SameSource (a b : LogRecord) : Prop where
  scopeName : a.scopeName = b.scopeName
  scopeVersion : a.scopeVersion = b.scopeVersion
  resource : List.Forall₂ OtelKV.Like a.resource b.resource

theorem sameKV_iff {a b : OtelKV} : sameKV a b = true ↔ a.Like b := by
  obtain ⟨ka, va⟩ := a
  obtain ⟨kb, vb⟩ := b
  cases va <;> cases vb <;> simp [sameKV, OtelKV.Like, OtelValue.Like, Double.same_iff]

theorem sameKVs_iff {as bs : List OtelKV} : sameKVs as bs = true ↔ List.Forall₂ OtelKV.Like as bs := by
  induction as generalizing bs with
  | nil => cases bs <;> simp [sameKVs]
  | cons a as ih =>
    cases bs with
    | nil => simp [sameKVs]
    | cons b bs => simp [sameKVs, ih, sameKV_iff]

theorem joins_iff {a b : LogRecord} : joins a b = true ↔ SameSource a b := by
  unfold joins
  rw [Bool.and_eq_true, Bool.and_eq_true, decide_eq_true_eq, decide_eq_true_eq, sameKVs_iff]
  exact ⟨fun h => ⟨h.1.1, h.1.2, h.2⟩, fun h => ⟨⟨h.scopeName, h.scopeVersion⟩, h.resource⟩⟩

theorem OtelValue.Like.refl (v : OtelValue) : v.Like v := by
  cases v <;> simp [OtelValue.Like]

theorem OtelValue.Like.symm {v w : OtelValue} (h : v.Like w) : w.Like v := by
  cases v <;> cases w <;> simp only [OtelValue.Like] at h ⊢ <;> grind

theorem OtelValue.Like.trans {v w x : OtelValue} (h : v.Like w) (h' : w.Like x) : v.Like x := by
  cases v <;> cases w <;> cases x <;> simp only [OtelValue.Like] at h h' ⊢ <;> grind

theorem OtelKV.Like.refl (a : OtelKV) : a.Like a := ⟨rfl, OtelValue.Like.refl _⟩

theorem like_trans {as bs cs : List OtelKV} (h : List.Forall₂ OtelKV.Like as bs) (h' : List.Forall₂ OtelKV.Like bs cs) :
    List.Forall₂ OtelKV.Like as cs := by
  induction h generalizing cs with
  | nil => exact h'
  | cons hab _ ih =>
    obtain ⟨c, cs, hbc, htail, rfl⟩ := List.forall₂_cons_left_iff.1 h'
    exact .cons ⟨hab.1.trans hbc.1, hab.2.trans hbc.2⟩ (ih htail)

theorem SameSource.refl (a : LogRecord) : SameSource a a :=
  ⟨rfl, rfl, List.forall₂_same.2 fun kv _ => OtelKV.Like.refl kv⟩

theorem SameSource.symm {a b : LogRecord} (h : SameSource a b) : SameSource b a :=
  ⟨h.scopeName.symm, h.scopeVersion.symm, (h.resource.imp fun _ _ hkv => ⟨hkv.1.symm, hkv.2.symm⟩).flip⟩

theorem SameSource.trans {a b c : LogRecord} (h : SameSource a b) (h' : SameSource b c) : SameSource a c :=
  ⟨h.scopeName.trans h'.scopeName, h.scopeVersion.trans h'.scopeVersion, like_trans h.resource h'.resource⟩

/-! ## What the payload shows -/

def ShowsValue (j : Json) : OtelValue → Prop
  | .int n => j = .object [(ascii "intValue", .string (intText n))]
  | .double d => j = .object [(ascii "doubleValue", .double d)]
  | .bool b => j = .object [(ascii "boolValue", .bool b)]
  | .string text => j = .object [(ascii "stringValue", .string (toValidUtf8 text))]

/-- an attribute of a record or of a resource -/
structure ShowsKV (j : Json) (kv : OtelKV) : Prop where
  key : j.get (ascii "key") = some (.string (toValidUtf8 kv.key))
  value : ∃ value, j.get (ascii "value") = some value ∧ ShowsValue value kv.value

/-- a record: its own body, attributes, severity and times. A time which is missing is the other one -/
structure ShowsRecord (j : Json) (record : LogRecord) : Prop where
  time : j.get (ascii "timeUnixNano") =
    some (.string (intText (if record.timeNs = 0 then record.observedTimeNs else record.timeNs)))
  observed : j.get (ascii "observedTimeUnixNano") =
    some (.string (intText (if record.observedTimeNs = 0 then record.timeNs else record.observedTimeNs)))
  severityNumber : j.get (ascii "severityNumber") =
    if 0 < record.severityNumber then some (.int (.ofInt32 record.severityNumber)) else none
  severityText : j.get (ascii "severityText") =
    if record.severityText = [] then none else some (.string (toValidUtf8 record.severityText))
  body : ∃ body, j.get (ascii "body") = some body ∧ ShowsValue body (.string record.line)
  attributes : ∃ items, j.get (ascii "attributes") = some (.array items) ∧ List.Forall₂ ShowsKV items record.attributes

/-- the scope of a record. Without a name it is the one of the forwarder -/
structure ShowsScope (settings : Settings) (j : Json) (record : LogRecord) : Prop where
  name : j.get (ascii "name") =
    some (.string (if record.scopeName = [] then settings.task else toValidUtf8 record.scopeName))
  version : j.get (ascii "version") =
    if record.scopeName = [] then some (.string settings.version)
    else if record.scopeVersion = [] then none
    else some (.string (toValidUtf8 record.scopeVersion))

/-- the resource of a record. Without one it is the default resource -/
def resourceOf (settings : Settings) (record : LogRecord) : List OtelKV :=
  if record.resource = [] then defaultResource settings else record.resource

def ShowsResource (settings : Settings) (j : Json) (record : LogRecord) : Prop :=
  ∃ items kvs, j.get (ascii "attributes") = some (.array items) ∧ List.Forall₂ ShowsKV items kvs ∧
    List.Forall₂ OtelKV.Like kvs (resourceOf settings record)

/-- an entry of `resourceLogs`: these records, in this order, and the resource and the scope of each of them -/
structure ShowsEntry (settings : Settings) (j : Json) (records : List LogRecord) : Prop where
  resource : ∃ resource, j.get (ascii "resource") = some resource ∧ ∀ r ∈ records, ShowsResource settings resource r
  scopeLogs : ∃ scopeLog, j.get (ascii "scopeLogs") = some (.array [scopeLog]) ∧
    (∃ scope, scopeLog.get (ascii "scope") = some scope ∧ ∀ r ∈ records, ShowsScope settings scope r) ∧
    ∃ items, scopeLog.get (ascii "logRecords") = some (.array items) ∧ List.Forall₂ ShowsRecord items records

/-! ## The pieces of the payload -/

theorem showsKV_otlpKV (kv : OtelKV) : ShowsKV (otlpKV kv) kv := by
  obtain ⟨key, value⟩ := kv
  cases value <;> exact ⟨rfl, _, rfl, rfl⟩

theorem showsKV_map (kvs : List OtelKV) : List.Forall₂ ShowsKV (kvs.map otlpKV) kvs := by
  rw [List.forall₂_map_left_iff]
  exact List.forall₂_same.2 fun kv _ => showsKV_otlpKV kv

theorem showsRecord_otlpRecord (record : LogRecord) : ShowsRecord (otlpRecord record) record := by
  have htime : (if record.timeNs ≠ 0 then record.timeNs else record.observedTimeNs) =
      if record.timeNs = 0 then record.observedTimeNs else record.timeNs := ite_not _ _ _
  have hobserved : (if record.observedTimeNs ≠ 0 then record.observedTimeNs else record.timeNs) =
      if record.observedTimeNs = 0 then record.timeNs else record.observedTimeNs := ite_not _ _ _
  unfold otlpRecord
  rw [htime, hobserved]
  -- the two optional members are there or not
  by_cases hn : 0 < record.severityNumber
  · rw [if_pos hn]
    by_cases ht : record.severityText = []
    · rw [if_pos ht]
      exact ⟨rfl, rfl, (if_pos hn).symm, (if_pos ht).symm, ⟨_, rfl, rfl⟩, _, rfl, showsKV_map _⟩
    · rw [if_neg ht]
      exact ⟨rfl, rfl, (if_pos hn).symm, (if_neg ht).symm, ⟨_, rfl, rfl⟩, _, rfl, showsKV_map _⟩
  · rw [if_neg hn]
    by_cases ht : record.severityText = []
    · rw [if_pos ht]
      exact ⟨rfl, rfl, (if_neg hn).symm, (if_pos ht).symm, ⟨_, rfl, rfl⟩, _, rfl, showsKV_map _⟩
    · rw [if_neg ht]
      exact ⟨rfl, rfl, (if_neg hn).symm, (if_neg ht).symm, ⟨_, rfl, rfl⟩, _, rfl, showsKV_map _⟩

theorem showsScope_otlpScope (settings : Settings) {first record : LogRecord} (h : SameSource first record) :
    ShowsScope settings (otlpScope settings first) record := by
  unfold otlpScope
  rw [h.scopeName, h.scopeVersion]
  by_cases hn : record.scopeName = []
  · rw [if_pos hn]
    constructor
    · rw [if_pos hn]
      rfl
    · rw [if_pos hn]
      rfl
  · rw [if_neg hn]
    constructor
    · rw [if_neg hn]
      rfl
    · rw [if_neg hn]
      by_cases hv : record.scopeVersion = []
      · rw [if_pos hv, if_pos hv]
        rfl
      · rw [if_neg hv, if_neg hv]
        rfl

theorem showsResource_otlpResource (settings : Settings) {first record : LogRecord} (h : SameSource first record) :
    ShowsResource settings (otlpResource settings first) record := by
  refine ⟨_, resourceOf settings first, rfl, showsKV_map _, ?_⟩
  unfold resourceOf
  -- a resource which is like an empty one is empty
  by_cases hempty : first.resource = []
  · have hempty' : record.resource = [] := by
      have hres := h.resource
      rw [hempty] at hres
      exact List.forall₂_nil_left_iff.1 hres
    rw [if_pos hempty, if_pos hempty']
    exact List.forall₂_same.2 fun kv _ => OtelKV.Like.refl kv
  · have hempty' : record.resource ≠ [] := by
      intro hnil
      have hres := h.resource
      rw [hnil] at hres
      exact hempty (List.forall₂_nil_right_iff.1 hres)
    rw [if_neg hempty, if_neg hempty']
    exact h.resource

theorem showsEntry_otlpGroup (settings : Settings) {group : Cluster LogRecord}
    (h : ∀ r ∈ group.toList, SameSource group.first r) : ShowsEntry settings
      (otlpGroup settings group) group.toList := by
  constructor
  · exact ⟨_, rfl, fun r hr => showsResource_otlpResource settings (h r hr)⟩
  · refine ⟨_, rfl, ⟨_, rfl, fun r hr => showsScope_otlpScope settings (h r hr)⟩, _, rfl, ?_⟩
    rw [List.forall₂_map_left_iff]
    exact List.forall₂_same.2 fun r _ => showsRecord_otlpRecord r

/-! ## The payload -/

/-- the records at these positions share an entry -/
def Together (records : List LogRecord) (i j : Fin records.length) : Bool := joins (records.get i) (records.get j)

/-- **`BuildOtlpPayload` groups without loss.** The payload has one entry for each list of positions. Every record is
at one place; the entries are in the order of their first records, and the records of an entry in the order of the
list; two records share an entry exactly when their source is the same; and an entry shows every one of its records,
with its own scope and resource. -/
theorem buildOtlpPayload_groups (settings : Settings) (records : List LogRecord) :
    ∃ (entries : List Json) (positions : List (List (Fin records.length))),
      buildOtlpPayload settings records = .object [(ascii "resourceLogs", .array entries)] ∧
      positions.flatten.Perm (List.finRange records.length) ∧
      (∀ ps ∈ positions, ps ≠ [] ∧ ps.Pairwise (· < ·)) ∧
      positions.Pairwise (fun ps ps' => ∀ i ∈ ps.head?, ∀ i' ∈ ps'.head?, i < i') ∧
      (∀ i j, (∃ ps ∈ positions, i ∈ ps ∧ j ∈ ps) ↔ SameSource (records.get i) (records.get j)) ∧
      List.Forall₂ (fun entry ps => ShowsEntry settings entry (ps.map records.get)) entries positions := by
  have hrefl : ∀ i, Together records i i = true := fun i => joins_iff.2 (SameSource.refl _)
  have hsymm : ∀ i j, Together records i j = true → Together records j i = true := by
    intro i j h
    exact joins_iff.2 (joins_iff.1 h).symm
  have htrans : ∀ i j k, Together records i j = true → Together records j k = true → Together records i k = true := by
    intro i j k h h'
    exact joins_iff.2 ((joins_iff.1 h).trans (joins_iff.1 h'))
  have hgroups : groupsOf joins records =
      (groupsOf (Together records) (List.finRange records.length)).map (Cluster.map records.get) :=
    calc groupsOf joins records
        = groupsOf joins ((List.finRange records.length).map records.get) := by rw [List.map_get_finRange]
      _ = _ := Grouping.groupsOf_map records.get _
  refine ⟨_, (groupsOf (Together records) (List.finRange records.length)).map Cluster.toList, rfl, ?_, ?_, ?_, ?_, ?_⟩
  · rw [← List.flatMap_def]
    exact Grouping.groupsOf_perm _
  · intro ps hps
    obtain ⟨g, hg, rfl⟩ := List.mem_map.1 hps
    exact ⟨List.cons_ne_nil _ _, (List.pairwise_lt_finRange _).sublist (Grouping.sublist_of_mem _ g hg)⟩
  · rw [List.pairwise_map]
    have hfirsts : ((groupsOf (Together records) (List.finRange records.length)).map Cluster.first).Sublist
      (List.finRange records.length) := Grouping.firsts_sublist _
    refine (List.pairwise_map.1 ((List.pairwise_lt_finRange _).sublist hfirsts)).imp ?_
    intro g g' hlt i hi i' hi'
    obtain rfl : g.first = i := Option.some.inj hi
    obtain rfl : g'.first = i' := Option.some.inj hi'
    exact hlt
  · intro i j
    rw [← joins_iff]
    refine Iff.trans ?_ (Grouping.together_iff hrefl hsymm htrans (List.mem_finRange i) (List.mem_finRange j))
    simp only [List.mem_map, exists_exists_and_eq_and]
  · rw [hgroups, List.map_map, List.forall₂_map_left_iff, List.forall₂_map_right_iff, List.forall₂_same]
    intro g hg
    rw [← Cluster.toList_map]
    apply showsEntry_otlpGroup
    intro r hr
    rw [Cluster.toList_map] at hr
    obtain ⟨i, hi, rfl⟩ := List.mem_map.1 hr
    exact joins_iff.1 (Grouping.same_first hrefl _ g hg i hi)

/-- a record with one resource attribute, a double with this sign and the value zero -/
def zeroRecord (negative : Bool) : LogRecord := { resource := [⟨ascii "load", .double (.zero negative)⟩] }

/-- Records with `-0.0` and `0.0` in the resource share an entry, although the resources differ. It shows the sign of
the first one. -/
theorem signed_zero_joins :
    (zeroRecord false).resource ≠ (zeroRecord true).resource ∧
      ∃ entry resource kv, buildOtlpPayload ⟨ascii "otelfwd", ascii "2.0.0", ascii "domino", ascii "domino", ascii "i",
          ascii "h", ascii "unknown"⟩ [zeroRecord false, zeroRecord true] =
            .object [(ascii "resourceLogs", .array [entry])] ∧
        entry.get (ascii "resource") = some resource ∧ resource.get (ascii "attributes") = some (.array [kv]) ∧
        kv.get (ascii "value") = some (.object [(ascii "doubleValue", .double ⟨false, 0, 0⟩)]) :=
  ⟨by decide, _, _, _, rfl, rfl, rfl, rfl⟩

end DominoLogForwarder.Otelfwd
