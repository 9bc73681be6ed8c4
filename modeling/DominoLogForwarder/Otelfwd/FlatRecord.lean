/-
A line of a socket (`otelfwd.cpp`): which lines `DecodeFlatRecord` takes, and which times it uses.

The line and the text of a time are bytes of any kind, and both go through a C string. A NUL byte ends them there: what
stands behind it is not looked at.

The grammar of JSON is a parameter (`IsJson`), and the parser is right about it for the texts which it can see whole.

- `decodeFlatRecord_exact`: when the line as a whole is one JSON object, and a time as a whole is a number.
- `decodeFlatRecord_cut`: a line with something behind the object, and a time with something behind its digits.
-/
import DominoLogForwarder.Otelfwd.Times

namespace DominoLogForwarder.Otelfwd

open FileReader (Bytes ascii isDigit number)
open Otlp (cString cString_eq_self)
open Json (find)

/-! ## What a line should be -/

/-- decimal digits of a number up to `INT64_MAX` -/
def NanoText (text : Bytes) : Prop := text ≠ [] ∧ (∀ b ∈ text, isDigit b = true) ∧ number text ≤ 2 ^ 63 - 1

/-- a non-negative integer up to `INT64_MAX`, or the text of one -/
def IsTime (val : Json) (n : Int64) : Prop :=
  match val with
  | .int k => 0 ≤ k.value ∧ k.value ≤ 2 ^ 63 - 1 ∧ n.toInt = k.value
  | .string text => NanoText text ∧ n.toInt = number text
  | _ => False

def timeNames : List String := ["time_unix_nano", "observed_time_unix_nano"]

/-- a member has this time, and the code takes it -/
def Used (members : List (Bytes × Json)) (name : String) (val : Json) (n : Int64) : Prop :=
  find members (ascii name) = some val ∧ getUnixNanoFromJson val = some n

/-- the line is taken when it is a JSON object as a whole, and only times are used as times -/
structure Exact (lib : JsonLib) (IsJson : Bytes → Json → Prop) (line : Bytes) (arrivalNs : Int64) : Prop where
  accepted : (decodeFlatRecord lib line arrivalNs).isSome = true ↔ ∃ members, IsJson line (.object members)
  times : ∀ members, lib.parse (cString line) = .ok (.object members) →
    ∀ name ∈ timeNames, ∀ val n, Used members name val n → IsTime val n

/-- no NUL byte behind an object, and none behind the digits of a time -/
structure Uncut (IsJson : Bytes → Json → Prop) (line : Bytes) : Prop where
  whole : 0 ∈ line → ∀ members, ¬IsJson (cString line) (.object members)
  times : ∀ members, IsJson line (.object members) →
    ∀ name ∈ timeNames, ∀ text, find members (ascii name) = some (.string text) → 0 ∈ text → ¬NanoText (cString text)

/-! ## The times of a record -/

variable {lib : JsonLib} {line : Bytes} {arrivalNs : Int64}

theorem decodeFlatRecord_isSome :
    (decodeFlatRecord lib line arrivalNs).isSome = true ↔
    ∃ members, lib.parse (cString line) = .ok (.object members) := by
  unfold decodeFlatRecord
  split
  · rename_i members hparse
    exact iff_of_true rfl ⟨members, hparse⟩
  · rename_i hno
    exact iff_of_false (by simp) fun ⟨members, hparse⟩ => hno members hparse

/-- the time of a member, or another one -/
theorem timeMember_or (members : List (Bytes × Json)) (name : String) (other : Int64) :
    (if timeMember members name ≠ 0 then timeMember members name else other) = other ∨
      ∃ val, Used members name val (if timeMember members name ≠ 0 then timeMember members name else other) := by
  by_cases h : timeMember members name ≠ 0
  · right
    rw [if_pos h]
    unfold timeMember at h ⊢
    cases hbind : (find members (ascii name)).bind getUnixNanoFromJson with
    | none => simp [hbind] at h
    | some n => exact Option.bind_eq_some_iff.1 hbind
  · exact Or.inl (if_neg h)

/-- a record has no other times than the ones which are used, and the time of arrival -/
theorem decodeFlatRecord_times {members : List (Bytes × Json)} {record : LogRecord}
    (hparse : lib.parse (cString line) = .ok (.object members))
    (h : decodeFlatRecord lib line arrivalNs = some record) :
    (record.observedTimeNs = arrivalNs ∨ ∃ val, Used members "observed_time_unix_nano" val record.observedTimeNs) ∧
    (record.timeNs = record.observedTimeNs ∨ ∃ val, Used members "time_unix_nano" val record.timeNs) := by
  unfold decodeFlatRecord at h
  rw [hparse] at h
  obtain rfl := Option.some.inj h
  exact ⟨timeMember_or members _ arrivalNs, timeMember_or members _ _⟩

theorem noNul_cString (text : Bytes) : 0 ∉ cString text := fun h => absurd (List.mem_takeWhile_imp h) (by decide)

/-- a text is read up to its first NUL -/
theorem getUnixNanoFromJson_string {text : Bytes} {n : Int64} :
    getUnixNanoFromJson (.string text) = some n ↔ NanoText (cString text) ∧ n.toInt = number (cString text) := by
  have hno := noNul_cString text
  have hsame : getUnixNanoFromJson (.string text) = getUnixNanoFromJson (.string (cString text)) := by
    unfold getUnixNanoFromJson
    dsimp only
    rw [cString_eq_self.2 hno]
  rw [hsame, getUnixNanoFromJson_iff hno, NanoText, and_assoc, and_assoc]

theorem isTime_of_int {k : JsonInt} {n : Int64} (h : getUnixNanoFromJson (.int k) = some n) : IsTime (.int k) n := by
  unfold getUnixNanoFromJson JsonInt.isUint64 at h
  dsimp only at h
  by_cases hpos : 0 ≤ k.value
  · rw [if_pos (decide_eq_true hpos), Option.bind_some] at h
    split_ifs at h with hbig
    obtain rfl := Option.some.inj h
    refine ⟨hpos, by omega, ?_⟩
    rw [toInt_ofNat (by omega)]
    exact Int.toNat_of_nonneg hpos
  · rw [if_neg (by simpa using hpos)] at h
    exact absurd h (by simp)

/-- a value which is taken is a time, unless it is a text with a NUL in it -/
theorem isTime_iff {val : Json} {n : Int64} (h : getUnixNanoFromJson val = some n) :
    IsTime val n ↔ ∀ text, val = .string text → 0 ∉ text := by
  cases val with
  | string text =>
    constructor
    · rintro ⟨⟨-, hdigits, -⟩, -⟩ _ ⟨⟩ hmem
      exact absurd (hdigits 0 hmem) (by decide)
    · intro hno
      have htext := getUnixNanoFromJson_string.1 h
      rwa [cString_eq_self.2 (hno text rfl)] at htext
  | int k => exact iff_of_true (isTime_of_int h) fun text heq => (nomatch heq)
  | null => exact absurd h (by simp [getUnixNanoFromJson])
  | bool b => exact absurd h (by simp [getUnixNanoFromJson])
  | double d => exact absurd h (by simp [getUnixNanoFromJson])
  | array items => exact absurd h (by simp [getUnixNanoFromJson])
  | object members => exact absurd h (by simp [getUnixNanoFromJson])

/-- **A line is taken when it is one JSON object as a whole, and only times are used, unless a NUL byte cuts the line
or a time.** -/
theorem decodeFlatRecord_exact (lib : JsonLib) (IsJson : Bytes → Json → Prop)
    (hparse : ∀ text doc, 0 ∉ text → (lib.parse text = .ok doc ↔ IsJson text doc))
    (hnul : ∀ text doc, IsJson text doc → 0 ∉ text) (line : Bytes) (arrivalNs : Int64) :
    Exact lib IsJson line arrivalNs ↔ Uncut IsJson line := by
  have hfront : ∀ doc, lib.parse (cString line) = .ok doc ↔ IsJson (cString line) doc := fun doc =>
    hparse _ doc (noNul_cString line)
  by_cases hline : 0 ∈ line
  · -- the line is no JSON text: it may not be taken
    have hno : ∀ doc, ¬IsJson line doc := fun doc h => hnul line doc h hline
    constructor
    · intro h
      refine ⟨fun _ members hobject => ?_, fun members hobject => absurd hobject (hno _)⟩
      obtain ⟨members', hobject'⟩ := h.accepted.1 (decodeFlatRecord_isSome.2 ⟨members, (hfront _).2 hobject⟩)
      exact hno _ hobject'
    · intro h
      have hrefused : ∀ members, lib.parse (cString line) ≠ .ok (.object members) := fun members hobject =>
        h.whole hline members ((hfront _).1 hobject)
      refine ⟨?_, fun members hobject => absurd hobject (hrefused members)⟩
      rw [decodeFlatRecord_isSome]
      exact iff_of_false (fun ⟨members, hobject⟩ => hrefused members hobject) fun ⟨members, hobject⟩ => hno _ hobject
  · -- the parser sees the whole line
    rw [cString_eq_self.2 hline] at hfront
    constructor
    · intro h
      refine ⟨fun hmem => absurd hmem hline, fun members hobject name hname text hfind hmem hnano => ?_⟩
      have hused : getUnixNanoFromJson (.string text) = some (Int64.ofNat (number (cString text))) := by
        have hmax := hnano.2.2
        exact getUnixNanoFromJson_string.2 ⟨hnano, toInt_ofNat (by omega)⟩
      have hwhole : lib.parse (cString line) = .ok (.object members) := by
        rw [cString_eq_self.2 hline]
        exact (hfront _).2 hobject
      have htime := h.times members hwhole name hname _ _ ⟨hfind, hused⟩
      exact (isTime_iff hused).1 htime text rfl hmem
    · intro h
      constructor
      · rw [decodeFlatRecord_isSome, cString_eq_self.2 hline]
        exact exists_congr fun members => hfront _
      · rintro members hobject name hname val n ⟨hfind, hused⟩
        rw [cString_eq_self.2 hline] at hobject
        apply (isTime_iff hused).2
        rintro text rfl hmem
        exact h.times members ((hfront _).1 hobject) name hname text hfind hmem (getUnixNanoFromJson_string.1 hused).1

/-! ## Lines which are cut -/

def emptyObject : Bytes := ascii "\x7b\x7d"

/-- an object with the time "1", a NUL byte, "x" -/
def cutTime : Bytes := ascii "\x7b\"time_unix_nano\":\"1\\u0000x\"\x7d"

/-- a parser for these two texts -/
def twoTexts : JsonLib where
  parse text :=
    if text = emptyObject then .ok (.object [])
    else if text = cutTime then .ok (.object [(ascii "time_unix_nano", .string [49, 0, 120])])
    else .error ([], 0)
  write _ := []

def IsOneOfTwo (text : Bytes) (doc : Json) : Prop := 0 ∉ text ∧ twoTexts.parse text = .ok doc

theorem isOneOfTwo_iff (text : Bytes) (doc : Json) (h : 0 ∉ text) : twoTexts.parse text = .ok doc ↔
    IsOneOfTwo text doc :=
  (and_iff_right h).symm

theorem isOneOfTwo_noNul (text : Bytes) (doc : Json) (h : IsOneOfTwo text doc) : 0 ∉ text := h.1

/-- a line without a NUL byte, and the same line with one behind the object -/
theorem decodeFlatRecord_exact_emptyObject :
    Exact twoTexts IsOneOfTwo emptyObject 5 ∧ ¬Exact twoTexts IsOneOfTwo (emptyObject ++ [0, 120]) 5 := by
  have hparse : twoTexts.parse emptyObject = .ok (.object []) := rfl
  have hno : 0 ∉ emptyObject := by decide +kernel
  rw [decodeFlatRecord_exact _ _ isOneOfTwo_iff isOneOfTwo_noNul,
    decodeFlatRecord_exact _ _ isOneOfTwo_iff isOneOfTwo_noNul]
  constructor
  · refine ⟨fun hmem => absurd hmem hno, fun members hobject name _ text hfind => ?_⟩
    have hmembers := hparse.symm.trans hobject.2
    cases hmembers
    simp [find] at hfind
  · intro h
    have hcut : cString (emptyObject ++ [0, 120]) = emptyObject := by decide +kernel
    apply h.whole (by decide +kernel) []
    rw [hcut]
    exact ⟨hno, hparse⟩

/-- a line with something behind the object is taken, and so is a time with something behind its digits -/
theorem decodeFlatRecord_cut :
    ¬(∀ line, Exact twoTexts IsOneOfTwo line 5) ∧
    (decodeFlatRecord twoTexts (emptyObject ++ [0, 120]) 5).isSome = true ∧
    (decodeFlatRecord twoTexts cutTime 5).map LogRecord.timeNs = some 1 := by
  refine ⟨fun h => ?_, rfl, by decide +kernel⟩
  obtain ⟨members, hno, -⟩ := (h (emptyObject ++ [0, 120])).accepted.1 rfl
  exact hno (by decide +kernel)

end DominoLogForwarder.Otelfwd
