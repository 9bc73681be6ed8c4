/-
A label for the metrics (`prom_label.hpp`): `PromAddLabel` puts it in front of the labels a metric has,
`PromRemoveLabel` takes it out.

`parseMetric` reads the text format of Prometheus: a name, and labels in braces, with the escapes of their values.

`promAddLabel_undone`: the label which was added is taken out again, and the text with it is read as the same metric
with one more label.
-/
import DominoLogForwarder.Lib.Search
import DominoLogForwarder.Otelfwd.Inputs

namespace DominoLogForwarder.Prom

open FileReader (Bytes ascii isDigit)
open Otelfwd (isAlpha)
open Search (find)

/-! ## The code -/

/-- a backslash, a double quote and a new line are escaped -/
def escapeByte (b : UInt8) : Bytes :=
  if b = 92 then [92, 92] else if b = 34 then [92, 34] else if b = 10 then [92, 110] else [b]

/-- `PromEscapeLabelValue` -/
def promEscapeLabelValue (value : Bytes) : Bytes := value.flatMap escapeByte

/-- `label="value"` -/
def labelText (label value : Bytes) : Bytes := label ++ 61 :: 34 :: (promEscapeLabelValue value ++ [34])

/-- `PromAddLabel` -/
def promAddLabel (name label value : Bytes) : Bytes :=
  if label = [] ∨ value = [] then name
  else
    let base := name.takeWhile (· ≠ 123)
    match name.dropWhile (· ≠ 123) with
    | [] => name ++ 123 :: (labelText label value ++ [125])
    | _ :: rest =>
      if rest = [] then base ++ 123 :: (labelText label value ++ [125])
      else if rest.head? = some 125 then base ++ 123 :: (labelText label value ++ rest)
      else base ++ 123 :: (labelText label value ++ 44 :: rest)

/-- what stands behind the closing double quote. A character behind a backslash is skipped -/
def afterQuote (skip : Bool) : Bytes → Option Bytes
  | [] => none
  | b :: rest => if skip then afterQuote false rest else if b = 34 then some rest else afterQuote (b = 92) rest

/-- `PromRemoveLabel` -/
def promRemoveLabel (name label : Bytes) : Bytes :=
  let base := name.takeWhile (· ≠ 123)
  match name.dropWhile (· ≠ 123) with
  | [] => name
  | _ :: rest =>
    if label = [] then name
    else
      match find (label ++ [61, 34]) rest with
      | none => name
      | some i =>
        -- up to the start of the label
        let front := base ++ 123 :: rest.take i
        -- it is a label of its own, not the end of the name of another one
        if front.getLast? ≠ some 123 ∧ front.getLast? ≠ some 44 then name
        else
          match afterQuote false (rest.drop (i + (label ++ [61, 34]).length)) with
          | none => name
          | some behind =>
            if behind.head? = some 44 then front ++ behind.drop 1
            else if front.getLast? = some 44 then front.dropLast ++ behind
            else if behind.head? = some 125 then base ++ behind.drop 1
            else front ++ behind

/-! ## The text format -/

def isLabelChar (b : UInt8) : Bool := isAlpha b || isDigit b || b = 95

/-- letters, digits and `_`, and no digit at the start -/
def isLabelName (name : Bytes) : Bool := name ≠ [] && name.all isLabelChar && !(name.head?.map isDigit).getD false

structure Metric where
  name : Bytes
  /-- with their values, which are not escaped -/
  labels : List (Bytes × Bytes)
deriving DecidableEq

def skipBlanks (text : Bytes) : Bytes := text.dropWhile fun b => b = 32 || b = 9

/-- the byte which is escaped so -/
def unescapeByte (b : UInt8) : Option UInt8 :=
  if b = 92 then some 92 else if b = 34 then some 34 else if b = 110 then some 10 else none

/-- a value up to its closing quote, and what stands behind it -/
def parseValue (escaped : Bool) : Bytes → Option (Bytes × Bytes)
  | [] => none
  | b :: rest =>
    if escaped then (unescapeByte b).bind fun b => (parseValue false rest).map fun (value, rest) => (b :: value, rest)
    else if b = 34 then some ([], rest)
    else if b = 92 then parseValue true rest
    else if b = 10 then none
    else (parseValue false rest).map fun (value, rest) => (b :: value, rest)

/-- `="`, with blanks in between -/
def skipEquals (text : Bytes) : Option Bytes :=
  match skipBlanks text with
  | 61 :: rest =>
    match skipBlanks rest with
    | 34 :: rest => some rest
    | _ => none
  | _ => none

/-- `label="value"`, with its value read, and what stands behind it -/
def parseLabel (text : Bytes) : Option ((Bytes × Bytes) × Bytes) :=
  let label := text.takeWhile isLabelChar
  if isLabelName label = false then none
  else
    ((skipEquals (text.dropWhile isLabelChar)).bind (parseValue false)).map fun (value, rest) => ((label, value), rest)

/-- the labels up to the closing brace, which ends the text. A comma can stand in front of it -/
def parseLabels : ℕ → Bytes → Option (List (Bytes × Bytes))
  | 0, _ => none
  | fuel + 1, text =>
    if skipBlanks text = [125] then some []
    else
      (parseLabel (skipBlanks text)).bind fun (label, rest) =>
        match skipBlanks rest with
        | [125] => some [label]
        | 44 :: rest => (parseLabels fuel rest).map (label :: ·)
        | _ => none

def notBrace (b : UInt8) : Bool := b ≠ 123 && b ≠ 125

/-- a name without braces, or a name and labels in braces -/
def parseMetric (text : Bytes) : Option Metric :=
  let name := text.takeWhile notBrace
  match text.dropWhile notBrace with
  | [] => some ⟨name, []⟩
  | 123 :: rest => (parseLabels (rest.length + 1) rest).map fun labels => ⟨name, labels⟩
  | _ => none

/-! ## Escaped values -/

variable {name label value rest behind : Bytes} {labels : List (Bytes × Bytes)}

theorem escapeByte_eq (b : UInt8) : escapeByte b = [92, 92] ∧ b = 92 ∨ escapeByte b = [92, 34] ∧ b = 34 ∨
    escapeByte b = [92, 110] ∧ b = 10 ∨ escapeByte b = [b] ∧ b ≠ 92 ∧ b ≠ 34 ∧ b ≠ 10 := by
  unfold escapeByte
  split_ifs with h92 h34 h10 <;> simp_all

/-- the value of a label ends at its own quote -/
theorem afterQuote_escape (value behind : Bytes) :
    afterQuote false (promEscapeLabelValue value ++ 34 :: behind) = some behind := by
  induction value with
  | nil => rfl
  | cons b value ih =>
    unfold promEscapeLabelValue at ih ⊢
    rw [List.flatMap_cons, List.append_assoc]
    rcases escapeByte_eq b with ⟨h, -⟩ | ⟨h, -⟩ | ⟨h, -⟩ | ⟨h, h92, h34, -⟩ <;> rw [h]
    · exact ih
    · exact ih
    · exact ih
    · simp [afterQuote, h34, h92, ih]

/-- and it is read as the value -/
theorem parseValue_escape (value behind : Bytes) :
    parseValue false (promEscapeLabelValue value ++ 34 :: behind) = some (value, behind) := by
  induction value with
  | nil => rfl
  | cons b value ih =>
    unfold promEscapeLabelValue at ih ⊢
    rw [List.flatMap_cons, List.append_assoc]
    rcases escapeByte_eq b with ⟨h, rfl⟩ | ⟨h, rfl⟩ | ⟨h, rfl⟩ | ⟨h, h92, h34, h10⟩
    · simp [h, parseValue, unescapeByte, ih]
    · simp [h, parseValue, unescapeByte, ih]
    · simp [h, parseValue, unescapeByte, ih]
    · simp [h, parseValue, h92, h34, h10, ih]

/-! ## Labels -/

theorem isLabelChar_of_mem (h : isLabelName label = true) : ∀ b ∈ label, isLabelChar b = true := by
  unfold isLabelName at h
  simp only [Bool.and_eq_true, List.all_eq_true] at h
  exact h.1.2

theorem label_ne_nil (h : isLabelName label = true) : label ≠ [] := by
  rintro rfl
  exact absurd h (by decide)

theorem skipBlanks_eq_self {b : UInt8} (h : isLabelChar b = true) (rest : Bytes) : skipBlanks (b :: rest) =
    b :: rest := by
  apply List.dropWhile_cons_of_neg
  intro hblank
  simp only [Bool.or_eq_true, decide_eq_true_eq] at hblank
  rcases hblank with rfl | rfl <;> exact absurd h (by decide)

/-- a label which is written without blanks is read -/
theorem parseLabel_labelText (h : isLabelName label = true) (value behind : Bytes) :
    parseLabel (labelText label value ++ behind) = some ((label, value), behind) := by
  have hall := isLabelChar_of_mem h
  have htext : labelText label value ++ behind = label ++ 61 :: 34 :: (promEscapeLabelValue value ++ 34 :: behind) := by
    simp [labelText]
  have hequals : skipEquals (61 :: 34 :: (promEscapeLabelValue value ++ 34 :: behind)) =
      some (promEscapeLabelValue value ++ 34 :: behind) := rfl
  have htake : (label ++ 61 :: 34 :: (promEscapeLabelValue value ++ 34 :: behind)).takeWhile isLabelChar = label :=
    Search.takeWhile_stop hall (by decide) _
  have hdrop : (label ++ 61 :: 34 :: (promEscapeLabelValue value ++ 34 :: behind)).dropWhile isLabelChar =
      61 :: 34 :: (promEscapeLabelValue value ++ 34 :: behind) := Search.dropWhile_stop hall (by decide) _
  unfold parseLabel
  rw [htext, htake, hdrop, if_neg (by simp [h]), hequals, Option.bind_some, parseValue_escape]
  rfl

theorem parseLabels_labelText (h : isLabelName label = true) (fuel : ℕ) (value behind : Bytes) :
    parseLabels (fuel + 1) (labelText label value ++ behind) =
      match skipBlanks behind with
      | [125] => some [(label, value)]
      | 44 :: rest => (parseLabels fuel rest).map ((label, value) :: ·)
      | _ => none := by
  have hskip : skipBlanks (labelText label value ++ behind) = labelText label value ++ behind := by
    obtain ⟨b, label, rfl⟩ := List.exists_cons_of_ne_nil (label_ne_nil h)
    exact skipBlanks_eq_self (isLabelChar_of_mem h b List.mem_cons_self) _
  have hne : labelText label value ++ behind ≠ [125] := by
    intro heq
    have hlen := congrArg List.length heq
    simp [labelText] at hlen
    omega
  rw [parseLabels, hskip, if_neg hne, parseLabel_labelText h]
  rfl

theorem parseLabels_mono {fuel fuel' : ℕ} (hle : fuel ≤ fuel') {text : Bytes}
    (h : parseLabels fuel text = some labels) :
    parseLabels fuel' text = some labels := by
  induction fuel generalizing fuel' text labels with
  | zero => exact nomatch h
  | succ fuel ih =>
    obtain ⟨fuel', rfl⟩ : ∃ k, fuel' = k + 1 := ⟨fuel' - 1, by omega⟩
    unfold parseLabels at h ⊢
    by_cases hend : skipBlanks text = [125]
    · rwa [if_pos hend] at h ⊢
    rw [if_neg hend] at h ⊢
    obtain ⟨⟨label, rest⟩, hlabel, h⟩ := Option.bind_eq_some_iff.1 h
    rw [hlabel, Option.bind_some]
    dsimp only at h ⊢
    split at h
    · exact h
    · obtain ⟨labels, hlabels, rfl⟩ := Option.map_eq_some_iff.1 h
      rw [ih (Nat.le_of_succ_le_succ hle) hlabels]
      rfl
    · exact nomatch h

/-! ## Adding a label and taking it out again -/

/-- the first label is found at once -/
theorem promRemoveLabel_front {base : Bytes} (hbase : 123 ∉ base) (hlabel : label ≠ []) (value behind : Bytes) :
    promRemoveLabel (base ++ 123 :: (labelText label value ++ behind)) label =
      if behind.head? = some 44 then base ++ 123 :: behind.drop 1
      else if behind.head? = some 125 then base ++ behind.drop 1
      else base ++ 123 :: behind := by
  have htext : labelText label value ++ behind = (label ++ [61, 34]) ++
    (promEscapeLabelValue value ++ 34 :: behind) := by
    simp [labelText]
  have hfind : find (label ++ [61, 34]) ((label ++ [61, 34]) ++ (promEscapeLabelValue value ++ 34 :: behind)) =
    some 0 :=
    Search.find_prefix _ _
  have hlast : (base ++ [123]).getLast? = some 123 := List.getLast?_concat
  unfold promRemoveLabel
  rw [htext, Search.takeWhile_ne hbase, Search.dropWhile_ne hbase]
  dsimp only
  rw [if_neg hlabel, hfind]
  dsimp only
  rw [List.take_zero, hlast, if_neg (by decide), Nat.zero_add, List.drop_left, afterQuote_escape]
  dsimp only
  rw [if_neg (by decide : (some 123 : Option UInt8) ≠ some 44), List.append_assoc, List.append_assoc]
  rfl

/-- the ways to add a label -/
theorem promAddLabel_eq (hlabel : label ≠ []) (hvalue : value ≠ []) :
    (123 ∉ name → promAddLabel name label value = name ++ 123 :: (labelText label value ++ [125])) ∧
    ∀ base rest, name = base ++ 123 :: rest → 123 ∉ base → rest ≠ [] → rest.head? ≠ some 125 →
      promAddLabel name label value = base ++ 123 :: (labelText label value ++ 44 :: rest) := by
  have hboth : ¬(label = [] ∨ value = []) := not_or.2 ⟨hlabel, hvalue⟩
  constructor
  · intro hno
    unfold promAddLabel
    rw [if_neg hboth, Search.dropWhile_ne_nil hno]
  · rintro base rest rfl hbase hne hhead
    unfold promAddLabel
    rw [if_neg hboth, Search.takeWhile_ne hbase, Search.dropWhile_ne hbase]
    dsimp only
    rw [if_neg hne, if_neg hhead]

theorem parseMetric_base {base : Bytes} (h : ∀ b ∈ base, notBrace b = true) (rest : Bytes) :
    parseMetric (base ++ 123 :: rest) = (parseLabels (rest.length + 1) rest).map fun labels => ⟨base, labels⟩ := by
  unfold parseMetric
  rw [Search.takeWhile_stop h (by decide), Search.dropWhile_stop h (by decide)]
  rfl

/-- labels do not begin with the closing brace -/
theorem labels_front {fuel : ℕ} (h : parseLabels fuel rest = some labels) (hne : labels ≠ []) :
    rest ≠ [] ∧ rest.head? ≠ some 125 := by
  cases fuel with
  | zero => exact nomatch h
  | succ fuel =>
    unfold parseLabels at h
    constructor
    · rintro rfl
      exact nomatch h
    · intro hhead
      obtain ⟨tail, rfl⟩ := List.head?_eq_some_iff.1 hhead
      have hskip : skipBlanks (125 :: tail) = 125 :: tail := List.dropWhile_cons_of_neg (by decide)
      rw [hskip] at h
      split_ifs at h with hend
      · exact hne (Option.some.inj h).symm
      · exact nomatch h

/-- **A label which was added is taken out again, and the text with it is the metric with one more label.** The name
has no braces, or labels in them. -/
theorem promAddLabel_undone (name label value : Bytes) (metric : Metric) (hparse : parseMetric name = some metric)
    (hbraces : metric.labels = [] → 123 ∉ name) (hlabel : isLabelName label = true) (hvalue : value ≠ []) :
    promRemoveLabel (promAddLabel name label value) label = name ∧
      parseMetric (promAddLabel name label value) = some ⟨metric.name, (label, value) :: metric.labels⟩ := by
  have hne := label_ne_nil hlabel
  have hsplit := List.takeWhile_append_dropWhile (p := notBrace) (l := name)
  have hbase : ∀ b ∈ name.takeWhile notBrace, notBrace b = true := fun b hb => List.mem_takeWhile_imp hb
  have hno : 123 ∉ name.takeWhile notBrace := fun hmem => absurd (hbase _ hmem) (by decide)
  unfold parseMetric at hparse
  dsimp only at hparse
  split at hparse
  · -- no braces
    rename_i hdrop
    obtain rfl := Option.some.inj hparse
    rw [hdrop, List.append_nil] at hsplit
    rw [hsplit] at hno hbase
    rw [hsplit, (promAddLabel_eq hne hvalue).1 hno, promRemoveLabel_front hno hne, parseMetric_base hbase,
      parseLabels_labelText hlabel]
    exact ⟨List.append_nil name, rfl⟩
  · -- the label in front of the others
    rename_i rest hdrop
    obtain ⟨labels, hlabels, rfl⟩ := Option.map_eq_some_iff.1 hparse
    rw [hdrop] at hsplit
    have hlabelsNe : labels ≠ [] := by
      intro hnil
      apply hbraces hnil
      rw [← hsplit]
      exact List.mem_append_right _ List.mem_cons_self
    obtain ⟨hrest, hhead⟩ := labels_front hlabels hlabelsNe
    have hmore : rest.length + 1 ≤ (labelText label value ++ 44 :: rest).length := by
      rw [List.length_append, List.length_cons]
      omega
    rw [(promAddLabel_eq hne hvalue).2 _ rest hsplit.symm hno hrest hhead, promRemoveLabel_front hno hne,
      parseMetric_base hbase,
      parseLabels_labelText hlabel]
    refine ⟨hsplit, ?_⟩
    have hskip : skipBlanks (44 :: rest) = 44 :: rest := List.dropWhile_cons_of_neg (by decide)
    rw [hskip]
    change Option.map _ ((parseLabels (labelText label value ++ 44 :: rest).length rest).map ((label, value) :: ·)) = _
    rw [parseLabels_mono hmore hlabels]
    rfl
  · exact nomatch hparse

/-- a value with everything in it which the scanner looks for -/
theorem promAddLabel_undone_odd :
    promRemoveLabel (promAddLabel (ascii "up\x7bjob=\"a\"\x7d") (ascii "who") (ascii "\\\",\n\x7dwho=\""))
    (ascii "who") =
      ascii "up\x7bjob=\"a\"\x7d" ∧
    parseMetric (promAddLabel (ascii "up\x7bjob=\"a\"\x7d") (ascii "who") (ascii "\\\",\n\x7dwho=\"")) =
      some ⟨ascii "up", [(ascii "who", ascii "\\\",\n\x7dwho=\""), (ascii "job", ascii "a")]⟩ :=
  promAddLabel_undone _ _ _ ⟨ascii "up", [(ascii "job", ascii "a")]⟩ (by decide +kernel) (fun h => nomatch h)
    (by decide +kernel)
    (by decide +kernel)

end DominoLogForwarder.Prom
