/-
What `PromRemoveLabel` takes out (`prom_label.hpp`): for every metric with labels, and every name of a label.

The code takes the first place of `label="` behind the brace. It can be the label, the end of a longer name, or the end
of an escaped value with its closing quote (`place_cases`), and only the first place is looked at.

- `parseMetric_render`: what a metric is written as, is read as the metric.
- `promRemoveLabel_at`: what the code does at the first place.
- `promRemoveLabel_exact`: for which metrics the result is the metric without the label.
- `promRemoveLabel_hidden`: a longer name and a value which hide the label.
-/
import DominoLogForwarder.Prom.Label

namespace DominoLogForwarder.Prom

open FileReader (Bytes ascii isDigit)
open Search (find)

variable {name label value rest behind before after base : Bytes} {labels pre post : List (Bytes × Bytes)}

/-! ## The text of a metric -/

/-- the labels, with commas in between -/
def joinLabels : List (Bytes × Bytes) → Bytes
  | [] => []
  | l :: rest => labelText l.1 l.2 ++ rest.flatMap fun l => 44 :: labelText l.1 l.2

def Metric.render (metric : Metric) : Bytes :=
  if metric.labels = [] then metric.name else metric.name ++ 123 :: (joinLabels metric.labels ++ [125])

def Metric.without (metric : Metric) (label : Bytes) : Metric :=
    ⟨metric.name, metric.labels.filter fun l => l.1 ≠ label⟩

/-- a letter, a digit, `_` or a colon -/
def isMetricChar (b : UInt8) : Bool := isLabelChar b || b = 58

structure Metric.Valid (metric : Metric) : Prop where
  name : ∀ b ∈ metric.name, isMetricChar b = true
  labels : ∀ l ∈ metric.labels, isLabelName l.1 = true
  distinct : (metric.labels.map Prod.fst).Nodup

/-- labels with a comma behind each -/
def preText (labels : List (Bytes × Bytes)) : Bytes := labels.flatMap fun l => labelText l.1 l.2 ++ [44]

/-- labels with a comma in front of each, and the closing brace -/
def tailText (labels : List (Bytes × Bytes)) : Bytes := (labels.flatMap fun l => 44 :: labelText l.1 l.2) ++ [125]

theorem preText_cons (l : Bytes × Bytes) (labels : List (Bytes × Bytes)) :
    preText (l :: labels) = labelText l.1 l.2 ++ 44 :: preText labels := by
  simp [preText]

theorem tailText_cons (l : Bytes × Bytes) (labels : List (Bytes × Bytes)) :
    tailText (l :: labels) = 44 :: (labelText l.1 l.2 ++ tailText labels) := by
  simp [tailText]

/-- the labels up to one of them, that one, and the others -/
theorem joinLabels_append (pre : List (Bytes × Bytes)) (l : Bytes × Bytes) (post : List (Bytes × Bytes)) :
    joinLabels (pre ++ l :: post) ++ [125] = preText pre ++ (labelText l.1 l.2 ++ tailText post) := by
  induction pre with
  | nil => simp [joinLabels, preText, tailText]
  | cons first pre ih =>
    have hnext : joinLabels (first :: (pre ++ l :: post)) = labelText first.1 first.2 ++
      44 :: joinLabels (pre ++ l :: post) := by
      cases pre <;> simp [joinLabels]
    calc joinLabels (first :: pre ++ l :: post) ++ [125]
        = labelText first.1 first.2 ++ 44 :: (joinLabels (pre ++ l :: post) ++ [125]) := by
          rw [List.cons_append, hnext]
          simp
      _ = preText (first :: pre) ++ (labelText l.1 l.2 ++ tailText post) := by
          rw [ih, preText_cons]
          simp

theorem render_append (base : Bytes) (pre : List (Bytes × Bytes)) (l : Bytes × Bytes) (post : List (Bytes × Bytes)) :
    Metric.render ⟨base, pre ++ l :: post⟩ = base ++ 123 :: (preText pre ++ (labelText l.1 l.2 ++ tailText post)) := by
  rw [Metric.render, if_neg (by simp), joinLabels_append]

/-! ## Metrics are read back -/

theorem parseLabels_joinLabels (hlabels : ∀ l ∈ labels, isLabelName l.1 = true) (hne : labels ≠ []) :
    parseLabels labels.length (joinLabels labels ++ [125]) = some labels := by
  induction labels with
  | nil => exact absurd rfl hne
  | cons l labels ih =>
    obtain ⟨hl, hrest⟩ := List.forall_mem_cons.1 hlabels
    have htext := joinLabels_append [] l labels
    rw [List.nil_append] at htext
    rw [htext, preText, List.flatMap_nil, List.nil_append, List.length_cons, parseLabels_labelText hl]
    cases labels with
    | nil => rfl
    | cons next labels =>
      have hnext := joinLabels_append [] next labels
      rw [List.nil_append] at hnext
      rw [tailText_cons]
      have hskip : skipBlanks (44 :: (labelText next.1 next.2 ++ tailText labels)) =
          44 :: (labelText next.1 next.2 ++ tailText labels) := List.dropWhile_cons_of_neg (by decide)
      have hread := ih hrest (by simp)
      rw [hnext, preText, List.flatMap_nil, List.nil_append] at hread
      rw [hskip]
      change (parseLabels _ (labelText next.1 next.2 ++ tailText labels)).map _ = _
      rw [hread]
      rfl

theorem length_le_tailText (labels : List (Bytes × Bytes)) : labels.length ≤ (tailText labels).length := by
  induction labels with
  | nil => exact Nat.zero_le _
  | cons l labels ih =>
    rw [tailText_cons, List.length_cons, List.length_cons, List.length_append]
    omega

theorem notBrace_of_isMetricChar {b : UInt8} (h : isMetricChar b = true) : notBrace b = true := by
  unfold notBrace
  rw [Bool.and_eq_true, decide_eq_true_eq, decide_eq_true_eq]
  constructor
  · rintro rfl
    exact absurd h (by decide)
  · rintro rfl
    exact absurd h (by decide)

/-- **A metric is read as it is written.** -/
theorem parseMetric_render {metric : Metric} (h : metric.Valid) : parseMetric metric.render = some metric := by
  obtain ⟨name, labels⟩ := metric
  have hname : ∀ b ∈ name, notBrace b = true := fun b hb => notBrace_of_isMetricChar (h.name b hb)
  cases labels with
  | nil =>
    have htake : name.takeWhile notBrace = name := List.takeWhile_eq_self_iff.2 hname
    have hdrop : name.dropWhile notBrace = [] := List.dropWhile_eq_nil_iff.2 hname
    rw [Metric.render, if_pos rfl, parseMetric, htake, hdrop]
  | cons l labels =>
    have hread := parseLabels_joinLabels h.labels (List.cons_ne_nil l labels)
    have htext := joinLabels_append [] l labels
    rw [List.nil_append] at htext
    have hfuel : (l :: labels).length ≤ (joinLabels (l :: labels) ++ [125]).length + 1 := by
      have htail := length_le_tailText labels
      rw [htext, List.length_append, List.length_append, List.length_cons]
      omega
    rw [Metric.render, if_neg (by simp), parseMetric_base hname, parseLabels_mono hfuel hread]
    rfl

/-! ## Where the pattern stands -/

theorem not_mem_of_isLabelName {b : UInt8} (hlabel : isLabelName label = true)
    (hb : isLabelChar b = false) : b ∉ label :=
  fun h => absurd (hb.symm.trans (isLabelChar_of_mem hlabel b h)) (by decide)

/-- the only quote of one escaped byte is behind a backslash -/
theorem quote_in_escapeByte {b : UInt8} (h : escapeByte b = before ++ 34 :: after) : before.getLast? = some 92 := by
  rcases escapeByte_eq b with ⟨heq, -⟩ | ⟨heq, -⟩ | ⟨heq, -⟩ | ⟨heq, -, h34, -⟩ <;> rw [heq] at h <;>
    rcases before with _ | ⟨c, _ | ⟨d, before⟩⟩ <;> simp_all

/-- a quote in an escaped value is an escaped one -/
theorem quote_in_escape (h : promEscapeLabelValue value = before ++ 34 :: after) : before.getLast? = some 92 := by
  induction value generalizing before with
  | nil => simp [promEscapeLabelValue] at h
  | cons b value ih =>
    have hcons : escapeByte b ++ promEscapeLabelValue value = before ++ 34 :: after := h
    rcases List.append_eq_append_iff.1 hcons with ⟨behind, rfl, hvalue⟩ | ⟨tail, hbyte, hvalue⟩
    · rw [List.getLast?_append, ih hvalue]
      rfl
    · cases tail with
      | nil =>
        have hnil : promEscapeLabelValue value = [] ++ 34 :: after := hvalue.symm
        exact nomatch ih hnil
      | cons c tail =>
        rw [List.cons_append, List.cons.injEq] at hvalue
        rw [← hvalue.1] at hbyte
        exact quote_in_escapeByte hbyte

/-- `label="` -/
def pattern (label : Bytes) : Bytes := label ++ [61, 34]

/-- an escaped value with its closing quote has `="` only at its end -/
theorem value_end (h : promEscapeLabelValue value ++ [34] = before ++ 61 :: 34 :: after) :
    promEscapeLabelValue value = before ++ [61] := by
  rcases List.eq_nil_or_concat' after with rfl | ⟨front, b, rfl⟩
  · have hsplit : promEscapeLabelValue value ++ [34] = (before ++ [61]) ++ [34] := by simpa using h
    exact List.append_cancel_right hsplit
  · have hsplit : promEscapeLabelValue value ++ [34] = ((before ++ [61]) ++ 34 :: front) ++ [b] := by simpa using h
    have hquote := quote_in_escape (List.append_inj_left' hsplit rfl)
    rw [List.getLast?_concat] at hquote
    exact absurd hquote (by decide)

/-- **The places of `label="` in a label.** The end of its name, or the end of its escaped value with the closing
quote. -/
theorem place_cases (hname : isLabelName name = true) (hlabel : isLabelName label = true)
    (h : labelText name value = before ++ (pattern label ++ after)) :
    name = before ++ label ∨
      ∃ front, promEscapeLabelValue value = front ++ (label ++ [61]) ∧ before = name ++ 61 :: 34 :: front := by
  have hequals : 61 ∉ name := not_mem_of_isLabelName hname (by decide)
  have hquote : 34 ∉ label := not_mem_of_isLabelName hlabel (by decide)
  have hsplit : name ++ 61 :: 34 :: (promEscapeLabelValue value ++ [34]) = (before ++ label) ++ 61 :: 34 :: after := by
    calc _ = before ++ (pattern label ++ after) := h
      _ = _ := by simp [pattern]
  rcases List.append_eq_append_iff.1 hsplit with ⟨tail, hfront, hback⟩ | ⟨tail, hfront, hback⟩
  · rcases tail with _ | ⟨c, _ | ⟨d, tail⟩⟩
    · left
      rw [hfront, List.append_nil]
    · simp at hback
    · -- behind the opening quote
      right
      simp only [List.cons_append, List.cons.injEq] at hback
      obtain ⟨rfl, rfl, hback⟩ := hback
      have hend := value_end hback
      have hbefore : before ++ label = (name ++ [61]) ++ 34 :: tail := by rw [hfront]; simp
      rcases List.append_eq_append_iff.1 hbefore with ⟨front, -, hlabelEq⟩ | ⟨front, hbeforeEq, hlabelEq⟩
      · exact absurd (hlabelEq ▸ List.mem_append_right _ List.mem_cons_self) hquote
      · cases front with
        | nil =>
          rw [List.nil_append] at hlabelEq
          exact absurd (hlabelEq ▸ List.mem_cons_self) hquote
        | cons c front =>
          rw [List.cons_append, List.cons.injEq] at hlabelEq
          obtain ⟨rfl, rfl⟩ := hlabelEq
          refine ⟨front, ?_, by simpa using hbeforeEq⟩
          rw [hend, List.append_assoc]
  · left
    cases tail with
    | nil => rw [hfront, List.append_nil]
    | cons c tail =>
      rw [List.cons_append, List.cons.injEq] at hback
      rw [← hback.1] at hfront
      exact absurd (hfront ▸ List.mem_append_right _ List.mem_cons_self) hequals

theorem not_mem_pattern (hlabel : isLabelName label = true) {c : UInt8}
    (hc : c = 44 ∨ c = 125) : c ∉ pattern label := by
  unfold pattern
  rw [List.mem_append]
  rintro (hmem | hmem)
  · refine not_mem_of_isLabelName hlabel ?_ hmem
    rcases hc with rfl | rfl <;> decide
  · rcases hc with rfl | rfl <;> exact absurd hmem (by decide)

/-- no place goes over a comma or the closing brace -/
theorem place_in_label (hname : isLabelName name = true) (hlabel : isLabelName label = true) {c : UInt8}
    (hc : c = 44 ∨ c = 125)
    {i : ℕ} (hi : i < (labelText name value ++ c :: rest).length - rest.length)
    (h : pattern label <+: (labelText name value ++ c :: rest).drop i) :
    (∃ front, name = front ++ label ∧ i = front.length) ∨
      ∃ front, promEscapeLabelValue value = front ++ (label ++ [61]) ∧ i = (name ++ 61 :: 34 :: front).length := by
  have hle : i ≤ (labelText name value).length := by
    rw [List.length_append, List.length_cons] at hi
    omega
  obtain ⟨after, hafter⟩ := h
  rw [List.drop_append_of_le_length hle] at hafter
  have hno := not_mem_pattern hlabel hc
  obtain ⟨after', hin⟩ : ∃ after', (labelText name value).drop i = pattern label ++ after' := by
    rcases List.append_eq_append_iff.1 hafter with ⟨tail, hdrop, -⟩ | ⟨tail, hpattern, hback⟩
    · exact ⟨tail, hdrop⟩
    · cases tail with
      | nil => exact ⟨[], by rw [hpattern]; simp⟩
      | cons d tail =>
        rw [List.cons_append, List.cons.injEq] at hback
        rw [← hback.1] at hpattern
        exact absurd (hpattern ▸ List.mem_append_right _ List.mem_cons_self) hno
  have htext : labelText name value = (labelText name value).take i ++ (pattern label ++ after') := by
    rw [← hin, List.take_append_drop]
  have hlen : ((labelText name value).take i).length = i := List.length_take_of_le hle
  rcases place_cases hname hlabel htext with hplace | ⟨front, hvalue, hplace⟩
  · exact Or.inl ⟨_, hplace, hlen.symm⟩
  · exact Or.inr ⟨front, hvalue, by rw [← hplace, hlen]⟩

/-! ## The first place -/

/-- neither the name ends in `label`, nor the escaped value in `label=` -/
def NoPlace (label : Bytes) (l : Bytes × Bytes) : Prop :=
  ¬label <:+ l.1 ∧ ¬(label ++ [61]) <:+ promEscapeLabelValue l.2

theorem find_in_name (hname : isLabelName (before ++ label) = true) (hlabel : isLabelName label = true) {c : UInt8}
    (hc : c = 44 ∨ c = 125) (value rest : Bytes) :
    find (pattern label) (labelText (before ++ label) value ++ c :: rest) = some before.length := by
  rw [Search.find_eq_some]
  constructor
  · refine ⟨promEscapeLabelValue value ++ 34 :: c :: rest, ?_⟩
    have htext : labelText (before ++ label) value ++ c :: rest =
        before ++ (pattern label ++ (promEscapeLabelValue value ++ 34 :: c :: rest)) := by simp [labelText, pattern]
    rw [htext, List.drop_left]
  · intro j hj hat
    have hlt : j < (labelText (before ++ label) value ++ c :: rest).length - rest.length := by
      simp only [labelText, List.length_append, List.length_cons]
      omega
    rcases place_in_label hname hlabel hc hlt hat with ⟨front, hfront, rfl⟩ | ⟨front, -, rfl⟩
    · rw [List.append_cancel_right hfront] at hj
      exact lt_irrefl _ hj
    · simp only [List.length_append] at hj
      omega

theorem find_in_value (hname : isLabelName name = true) (hlabel : isLabelName label = true) {c : UInt8}
    (hc : c = 44 ∨ c = 125)
    (hno : ¬label <:+ name) (hvalue : promEscapeLabelValue value = before ++ (label ++ [61])) (rest : Bytes) :
    find (pattern label) (labelText name value ++ c :: rest) = some (name ++ 61 :: 34 :: before).length := by
  rw [Search.find_eq_some]
  constructor
  · refine ⟨c :: rest, ?_⟩
    have htext : labelText name value ++ c :: rest = (name ++ 61 :: 34 :: before) ++ (pattern label ++ c :: rest) := by
      simp [labelText, pattern, hvalue]
    rw [htext, List.drop_left]
  · intro j hj hat
    have hlt : j < (labelText name value ++ c :: rest).length - rest.length := by
      simp only [labelText, hvalue, List.length_append, List.length_cons] at hj ⊢
      omega
    rcases place_in_label hname hlabel hc hlt hat with ⟨front, hfront, -⟩ | ⟨front, hfront, rfl⟩
    · exact hno ⟨front, hfront.symm⟩
    · rw [List.append_cancel_right (hfront.symm.trans hvalue)] at hj
      exact lt_irrefl _ hj

theorem find_behind (hname : isLabelName name = true) (hlabel : isLabelName label = true) {c : UInt8}
    (hc : c = 44 ∨ c = 125)
    (hno : NoPlace label (name, value)) (rest : Bytes) : find (pattern label) (labelText name value ++ c :: rest) =
      (find (pattern label) rest).map (· + (labelText name value ++ [c]).length) := by
  have hskip : (labelText name value ++ c :: rest).drop (labelText name value ++ [c]).length = rest := by
    rw [List.append_cons (labelText name value) c rest, List.drop_left]
  rw [Search.find_drop, hskip]
  intro j hj hat
  have hlt : j < (labelText name value ++ c :: rest).length - rest.length := by
    simp only [List.length_append, List.length_cons, List.length_nil] at hj ⊢
    omega
  rcases place_in_label hname hlabel hc hlt hat with ⟨front, hfront, -⟩ | ⟨front, hfront, -⟩
  · exact hno.1 ⟨front, hfront.symm⟩
  · exact hno.2 ⟨front, hfront.symm⟩

/-- the search goes on behind labels without a place -/
theorem find_preText (hlabel : isLabelName label = true) (hnames : ∀ l ∈ pre, isLabelName l.1 = true)
    (hno : ∀ l ∈ pre, NoPlace label l) (rest : Bytes) :
    find (pattern label) (preText pre ++ rest) = (find (pattern label) rest).map (· + (preText pre).length) := by
  induction pre with
  | nil => simp [preText]
  | cons l pre ih =>
    obtain ⟨hname, hnames⟩ := List.forall_mem_cons.1 hnames
    obtain ⟨hl, hno⟩ := List.forall_mem_cons.1 hno
    rw [preText_cons, List.append_assoc, List.cons_append, find_behind hname hlabel (Or.inl rfl) hl, ih hnames hno,
      Option.map_map]
    congr 1
    funext i
    simp only [Function.comp, List.length_append, List.length_cons, List.length_nil]
    omega

/-! ## What is taken out -/

/-- what the code does at the first place -/
def takeOut (base before after label : Bytes) : Bytes :=
  let name := base ++ 123 :: (before ++ (pattern label ++ after))
  let front := base ++ 123 :: before
  if front.getLast? ≠ some 123 ∧ front.getLast? ≠ some 44 then name
  else
    match afterQuote false after with
    | none => name
    | some behind =>
      if behind.head? = some 44 then front ++ behind.drop 1
      else if front.getLast? = some 44 then front.dropLast ++ behind
      else if behind.head? = some 125 then base ++ behind.drop 1
      else front ++ behind

theorem promRemoveLabel_at (hbase : 123 ∉ base) (hlabel : label ≠ [])
    (hfirst : find (pattern label) (before ++ (pattern label ++ after)) = some before.length) :
    promRemoveLabel (base ++ 123 :: (before ++ (pattern label ++ after))) label = takeOut base before after label := by
  have hbehind : (before ++ (pattern label ++ after)).drop (before.length + (pattern label).length) = after := by
    rw [← List.drop_drop, List.drop_left, List.drop_left]
  unfold promRemoveLabel
  rw [Search.takeWhile_ne hbase, Search.dropWhile_ne hbase]
  unfold pattern at hfirst hbehind ⊢
  dsimp only
  rw [if_neg hlabel, hfirst]
  dsimp only
  rw [List.take_left, hbehind]
  rfl

theorem promRemoveLabel_none (hbase : 123 ∉ base) (hnone : find (pattern label) rest = none) :
    promRemoveLabel (base ++ 123 :: rest) label = base ++ 123 :: rest := by
  unfold promRemoveLabel
  rw [Search.takeWhile_ne hbase, Search.dropWhile_ne hbase]
  unfold pattern at hnone
  dsimp only
  rw [hnone, ite_self]

theorem getLast?_front (base before : Bytes) : (base ++ 123 :: before).getLast? = some (before.getLast?.getD 123) := by
  rw [List.getLast?_append, List.getLast?_cons]
  rfl

theorem takeOut_not (h44 : before.getLast?.getD 123 ≠ 44) (h123 : before.getLast?.getD 123 ≠ 123) :
    takeOut base before after label = base ++ 123 :: (before ++ (pattern label ++ after)) := by
  unfold takeOut
  dsimp only
  rw [getLast?_front]
  exact if_pos ⟨fun h => h123 (Option.some.inj h), fun h => h44 (Option.some.inj h)⟩

theorem takeOut_open (hnone : afterQuote false after = none) :
    takeOut base before after label = base ++ 123 :: (before ++ (pattern label ++ after)) := by
  unfold takeOut
  dsimp only
  rw [hnone]
  dsimp only
  rw [ite_self]

theorem takeOut_closed (hfront : before.getLast?.getD 123 = 44 ∨ before.getLast?.getD 123 = 123)
    (hsome : afterQuote false after = some behind) :
    takeOut base before after label =
      if behind.head? = some 44 then base ++ 123 :: (before ++ behind.drop 1)
      else if before.getLast?.getD 123 = 44 then (base ++ 123 :: before).dropLast ++ behind
      else if behind.head? = some 125 then base ++ behind.drop 1
      else base ++ 123 :: (before ++ behind) := by
  unfold takeOut
  dsimp only
  rw [getLast?_front, hsome]
  dsimp only
  rw [if_neg]
  · simp only [Option.some.injEq, List.append_assoc, List.cons_append]
  · rintro ⟨h123, h44⟩
    rcases hfront with h | h
    · exact h44 (congrArg some h)
    · exact h123 (congrArg some h)

/-! ## The condition -/

/-- the first place, in the order of the text, is the label. Or it is none, and the code sees it: the end of a longer
name, or of a value without a comma or a brace in front of `label=`, or of the last value. Then there must not be the
label further behind.

Behind the comma or the brace of a value which ends in `,label=` or `label=` the code takes the next value for the
rest. This is the metric without the label in one case only: the next label is the one, with that text as its value. -/
def Finds (label : Bytes) : List (Bytes × Bytes) → Prop
  | [] => True
  | (name, value) :: rest =>
    if name = label then True
    else if label <:+ name then label ∉ rest.map Prod.fst
    else if (label ++ [61]) <:+ promEscapeLabelValue value then
      let before := ((promEscapeLabelValue value).take
        ((promEscapeLabelValue value).length - (label ++ [61]).length)).getLast?
      match rest with
      | [] => True
      | next :: _ =>
        if before = some 44 ∨ before = some 123 then
          next.1 = label ∧ (promEscapeLabelValue next.2 = 44 :: (label ++ [61]) ∨
            before = some 123 ∧ promEscapeLabelValue next.2 = label ++ [61])
        else label ∉ rest.map Prod.fst
    else Finds label rest

theorem finds_append (hno : ∀ l ∈ pre, NoPlace label l) (rest : List (Bytes × Bytes)) :
    Finds label (pre ++ rest) ↔ Finds label rest := by
  induction pre with
  | nil => rfl
  | cons l pre ih =>
    obtain ⟨hl, hno⟩ := List.forall_mem_cons.1 hno
    have hne : l.1 ≠ label := fun heq => hl.1 (heq ▸ List.suffix_rfl)
    rw [List.cons_append, Finds, if_neg hne, if_neg hl.1, if_neg hl.2]
    exact ih hno

theorem first_place (label : Bytes) (labels : List (Bytes × Bytes)) : (∀ l ∈ labels, NoPlace label l) ∨
    ∃ pre l post, labels = pre ++ l :: post ∧ (∀ l ∈ pre, NoPlace label l) ∧ ¬NoPlace label l := by
  induction labels with
  | nil => exact Or.inl fun l hl => absurd hl List.not_mem_nil
  | cons l labels ih =>
    by_cases hl : NoPlace label l
    · rcases ih with hno | ⟨pre, first, post, rfl, hpre, hfirst⟩
      · exact Or.inl (List.forall_mem_cons.2 ⟨hl, hno⟩)
      · exact Or.inr ⟨l :: pre, first, post, rfl, List.forall_mem_cons.2 ⟨hl, hpre⟩, hfirst⟩
    · exact Or.inr ⟨[], l, labels, rfl, fun l hl => absurd hl List.not_mem_nil, hl⟩

theorem ne_of_noPlace {l : Bytes × Bytes} (h : NoPlace label l) : l.1 ≠ label := fun heq => h.1 (heq ▸ List.suffix_rfl)

theorem filter_eq_self (h : label ∉ labels.map Prod.fst) : (labels.filter fun l => l.1 ≠ label) = labels :=
  List.filter_eq_self.2 fun l hl => decide_eq_true fun heq => h (List.mem_map.2 ⟨l, hl, heq⟩)

theorem not_mem_names (hno : ∀ l ∈ pre, NoPlace label l) : label ∉ pre.map Prod.fst := by
  intro hmem
  obtain ⟨l, hl, heq⟩ := List.mem_map.1 hmem
  exact ne_of_noPlace (hno l hl) heq

/-- the metric is the same without the label when it does not have it -/
theorem without_eq_iff {metric : Metric} (h : metric.Valid) (label : Bytes) :
    metric.render = (metric.without label).render ↔ label ∉ metric.labels.map Prod.fst := by
  constructor
  · intro hrender hmem
    have hwithout : (metric.without label).Valid :=
      { name := h.name
        labels := fun l hl => h.labels l (List.mem_filter.1 hl).1
        distinct := h.distinct.sublist (List.filter_sublist.map _) }
    have hread := parseMetric_render h
    rw [hrender, parseMetric_render hwithout] at hread
    have hlabels : metric.labels.filter (fun l => l.1 ≠ label) = metric.labels :=
      congrArg Metric.labels (Option.some.inj hread)
    obtain ⟨l, hl, rfl⟩ := List.mem_map.1 hmem
    exact absurd (List.filter_eq_self.1 hlabels l hl) (by simp)
  · intro hno
    rw [Metric.without, filter_eq_self hno]

/-! ## The cases of the first place -/

theorem no_brace (hname : ∀ b ∈ base, isMetricChar b = true) : 123 ∉ base := fun h => absurd (hname 123 h) (by decide)

/-- no place: nothing is taken out -/
theorem removes_none {metric : Metric} (h : metric.Valid) (hlabel : isLabelName label = true)
    (hno : ∀ l ∈ metric.labels, NoPlace label l) : promRemoveLabel metric.render label = metric.render := by
  obtain ⟨base, labels⟩ := metric
  have hbase := no_brace h.name
  rcases List.eq_nil_or_concat' labels with rfl | ⟨pre, l, rfl⟩
  · rw [Metric.render, if_pos rfl, promRemoveLabel, Search.dropWhile_ne_nil hbase]
  · rw [render_append]
    apply promRemoveLabel_none hbase
    have hpre : ∀ l ∈ pre, isLabelName l.1 = true := fun l hl => h.labels l (List.mem_append_left _ hl)
    have hl := h.labels l (List.mem_append_right _ List.mem_cons_self)
    have hend : find (pattern label) [] = none := by simp [find, pattern]
    rw [find_preText hlabel hpre fun l hl => hno l (List.mem_append_left _ hl), tailText, List.flatMap_nil,
      List.nil_append,
      find_behind hl hlabel (Or.inr rfl) (hno l (List.mem_append_right _ List.mem_cons_self)), hend]
    rfl

theorem preText_concat (pre : List (Bytes × Bytes)) (l : Bytes × Bytes) :
    preText (pre ++ [l]) = joinLabels (pre ++ [l]) ++ [44] := by
  have hjoin := joinLabels_append pre l []
  have hshort : joinLabels (pre ++ [l]) = preText pre ++ labelText l.1 l.2 := by
    have hsame : joinLabels (pre ++ [l]) ++ [125] = (preText pre ++ labelText l.1 l.2) ++ [125] := by
      rw [hjoin]
      simp [tailText]
    exact List.append_cancel_right hsame
  rw [hshort]
  simp [preText]

theorem preText_last (pre : List (Bytes × Bytes)) :
    (preText pre).getLast?.getD 123 = 44 ∨ (preText pre).getLast?.getD 123 = 123 := by
  rcases List.eq_nil_or_concat' pre with rfl | ⟨pre, l, rfl⟩
  · exact Or.inr rfl
  · left
    rw [preText_concat, List.getLast?_concat]
    rfl

theorem tailText_cases (labels : List (Bytes × Bytes)) : ∃ c rest, tailText labels = c :: rest ∧
    (c = 44 ∨ c = 125) := by
  cases labels with
  | nil => exact ⟨125, [], rfl, Or.inr rfl⟩
  | cons l labels => exact ⟨44, _, tailText_cons l labels, Or.inl rfl⟩

/-- the first place is in the name of a label -/
theorem remove_in_name (hname : ∀ b ∈ base, isMetricChar b = true) (hlabel : isLabelName label = true)
    (hpre : ∀ l ∈ pre, isLabelName l.1 = true) (hno : ∀ l ∈ pre, NoPlace label l)
    (hlong : isLabelName (before ++ label) = true) (value : Bytes) (post : List (Bytes × Bytes)) :
    promRemoveLabel (Metric.render ⟨base, pre ++ (before ++ label, value) :: post⟩) label =
      takeOut base (preText pre ++ before) (promEscapeLabelValue value ++ 34 :: tailText post) label := by
  obtain ⟨c, rest, htail, hc⟩ := tailText_cases post
  have htext : preText pre ++ (labelText (before ++ label) value ++ tailText post) =
      (preText pre ++ before) ++ (pattern label ++ (promEscapeLabelValue value ++ 34 :: tailText post)) := by
    simp [labelText, pattern]
  have hfind : find (pattern label) (preText pre ++ (labelText (before ++ label) value ++ tailText post)) =
      some (preText pre ++ before).length := by
    rw [find_preText hlabel hpre hno, htail, find_in_name hlong hlabel hc, List.length_append, Nat.add_comm]
    rfl
  rw [htext] at hfind
  rw [render_append, htext]
  exact promRemoveLabel_at (no_brace hname) (label_ne_nil hlabel) hfind

/-- the label itself is taken out -/
theorem removes_label (hname : ∀ b ∈ base, isMetricChar b = true) (hlabel : isLabelName label = true)
    (hpre : ∀ l ∈ pre, isLabelName l.1 = true) (hno : ∀ l ∈ pre, NoPlace label l) (value : Bytes)
    (post : List (Bytes × Bytes)) :
    promRemoveLabel (Metric.render ⟨base, pre ++ (label, value) :: post⟩) label =
      Metric.render ⟨base, pre ++ post⟩ := by
  have hclosed := afterQuote_escape value (tailText post)
  have hremove := @remove_in_name label [] base pre hname hlabel hpre hno hlabel value post
  rw [List.nil_append, List.append_nil] at hremove
  rw [hremove]
  cases post with
  | cons next post =>
    -- the comma behind it goes
    have hhead : (tailText (next :: post)).head? = some 44 := by rw [tailText_cons]; rfl
    rw [takeOut_closed (preText_last pre) hclosed, if_pos hhead, render_append, tailText_cons]
    rfl
  | nil =>
    have hhead : (tailText []).head? ≠ some 44 := by decide
    rw [takeOut_closed (preText_last pre) hclosed, if_neg hhead]
    rcases List.eq_nil_or_concat' pre with rfl | ⟨pre, l, rfl⟩
    · -- the only label: the braces go
      simp [tailText, preText, Metric.render]
    · -- the last label: the comma in front of it goes
      have hlast : (preText (pre ++ [l])).getLast?.getD 123 = 44 := by
        rw [preText_concat, List.getLast?_concat]
        rfl
      have hdrop : (base ++ 123 :: preText (pre ++ [l])).dropLast = base ++ 123 :: joinLabels (pre ++ [l]) := by
        rw [preText_concat, ← List.cons_append, ← List.append_assoc, List.dropLast_concat]
      have hne : pre ++ [l] ≠ [] := by simp
      rw [if_pos hlast, hdrop, List.append_nil, Metric.render, if_neg hne]
      simp [tailText]

/-! ## The first place is in a value -/

theorem remove_in_value (hbase : ∀ b ∈ base, isMetricChar b = true) (hlabel : isLabelName label = true)
    (hpre : ∀ l ∈ pre, isLabelName l.1 = true) (hno : ∀ l ∈ pre, NoPlace label l) (hname : isLabelName name = true)
    (hlong : ¬label <:+ name) (hvalue : promEscapeLabelValue value = before ++ (label ++ [61]))
    (post : List (Bytes × Bytes)) :
    promRemoveLabel (Metric.render ⟨base, pre ++ (name, value) :: post⟩) label =
      takeOut base (preText pre ++ (name ++ 61 :: 34 :: before)) (tailText post) label := by
  obtain ⟨c, rest, htail, hc⟩ := tailText_cases post
  have htext : preText pre ++ (labelText name value ++ tailText post) =
      (preText pre ++ (name ++ 61 :: 34 :: before)) ++ (pattern label ++ tailText post) := by
    simp [labelText, pattern, hvalue]
  have hfind : find (pattern label) (preText pre ++ (labelText name value ++ tailText post)) =
      some (preText pre ++ (name ++ 61 :: 34 :: before)).length := by
    rw [find_preText hlabel hpre hno, htail, find_in_value hname hlabel hc hlong hvalue, Option.map_some, Nat.add_comm,
      ← List.length_append]
  rw [htext] at hfind
  rw [render_append, htext]
  exact promRemoveLabel_at (no_brace hbase) (label_ne_nil hlabel) hfind

/-- a text without quotes and backslashes goes up to the next quote -/
theorem afterQuote_plain (h : ∀ b ∈ before, b ≠ 34 ∧ b ≠ 92) (after : Bytes) :
    afterQuote false (before ++ 34 :: after) = some after := by
  induction before with
  | nil => rfl
  | cons b before ih =>
    obtain ⟨⟨h34, h92⟩, hrest⟩ := List.forall_mem_cons.1 h
    simp [afterQuote, h34, h92, ih hrest]

theorem plain_of_isLabelName (h : isLabelName label = true) : ∀ b ∈ label, b ≠ 34 ∧ b ≠ 92 := by
  intro b hb
  have hchar := isLabelChar_of_mem h b hb
  constructor
  · rintro rfl
    exact absurd hchar (by decide)
  · rintro rfl
    exact absurd hchar (by decide)

/-- the code takes the opening quote of the next value for the end of this one -/
theorem afterQuote_tailText {next : Bytes × Bytes} (h : isLabelName next.1 = true) (post : List (Bytes × Bytes)) :
    afterQuote false (tailText (next :: post)) = some (promEscapeLabelValue next.2 ++ 34 :: tailText post) := by
  have htext : tailText (next :: post) = (44 :: (next.1 ++ [61])) ++
    34 :: (promEscapeLabelValue next.2 ++ 34 :: tailText post) := by
    rw [tailText_cons]
    simp [labelText]
  rw [htext, afterQuote_plain]
  intro b hb
  simp only [List.mem_cons, List.mem_append, List.not_mem_nil, or_false] at hb
  rcases hb with rfl | hb | rfl
  · decide
  · exact plain_of_isLabelName h b hb
  · decide

/-- texts which are closed by the next quote -/
theorem closed_eq {after' before' : Bytes} (h : afterQuote false (before ++ 34 :: after) = some after)
    (h' : afterQuote false (before' ++ 34 :: after') = some after')
    (heq : before ++ 34 :: after = before' ++ 34 :: after') :
    before = before' ∧ after = after' := by
  rw [heq, h'] at h
  obtain rfl := Option.some.inj h
  exact ⟨List.append_cancel_right heq, rfl⟩

theorem tailText_filter {next : Bytes × Bytes} (hnames : ∀ l ∈ next :: post, isLabelName l.1 = true)
    (hdistinct : ((next :: post).map Prod.fst).Nodup) :
    tailText post = tailText ((next :: post).filter fun l => l.1 ≠ label) ↔ next.1 = label := by
  rw [List.map_cons, List.nodup_cons] at hdistinct
  by_cases h : next.1 = label
  · refine iff_of_true ?_ h
    rw [List.filter_cons_of_neg (by simp [h]), filter_eq_self (h ▸ hdistinct.1)]
  · refine iff_of_false (fun heq => ?_) h
    rw [List.filter_cons_of_pos (by simp [h]), tailText_cons] at heq
    cases post with
    | nil => exact absurd (List.cons.inj heq).1 (by decide)
    | cons l post =>
      rw [tailText_cons] at heq
      have hnext := parseLabel_labelText (hnames next List.mem_cons_self) next.2
        (tailText ((l :: post).filter fun l => l.1 ≠ label))
      have hl := parseLabel_labelText (hnames l (List.mem_cons_of_mem _ List.mem_cons_self)) l.2 (tailText post)
      rw [(List.cons.inj heq).2, hnext] at hl
      have hsame : next.1 = l.1 := congrArg (fun p : (Bytes × Bytes) × Bytes => p.1.1) (Option.some.inj hl)
      exact hdistinct.1 (hsame ▸ List.mem_cons_self)

/-! ## An odd number of quotes -/

/-- quotes which are not escaped -/
def oddQuotes (skip : Bool) : Bytes → Bool
  | [] => false
  | b :: rest =>
    if skip then oddQuotes false rest
    else if b = 34 then !oddQuotes false rest
    else oddQuotes (b = 92) rest

theorem oddQuotes_plain (h : ∀ b ∈ before, b ≠ 34 ∧ b ≠ 92) (after : Bytes) :
    oddQuotes false (before ++ after) = oddQuotes false after := by
  induction before with
  | nil => rfl
  | cons b before ih =>
    obtain ⟨⟨h34, h92⟩, hrest⟩ := List.forall_mem_cons.1 h
    simp [oddQuotes, h34, h92, ih hrest]

theorem oddQuotes_escape (value after : Bytes) : oddQuotes false (promEscapeLabelValue value ++ after) =
    oddQuotes false after := by
  induction value with
  | nil => rfl
  | cons b value ih =>
    unfold promEscapeLabelValue at ih ⊢
    rw [List.flatMap_cons, List.append_assoc]
    rcases escapeByte_eq b with ⟨h, -⟩ | ⟨h, -⟩ | ⟨h, -⟩ | ⟨h, h92, h34, -⟩ <;> rw [h]
    · exact ih
    · exact ih
    · exact ih
    · simp [oddQuotes, h34, h92, ih]

theorem oddQuotes_labelText (h : isLabelName name = true) (value after : Bytes) :
    oddQuotes false (labelText name value ++ after) = oddQuotes false after := by
  have htext : labelText name value ++ after = name ++ 61 :: 34 :: (promEscapeLabelValue value ++ 34 :: after) := by
    simp [labelText]
  rw [htext, oddQuotes_plain (plain_of_isLabelName h)]
  simp [oddQuotes, oddQuotes_escape]

theorem oddQuotes_preText (h : ∀ l ∈ pre, isLabelName l.1 = true) (after : Bytes) :
    oddQuotes false (preText pre ++ after) = oddQuotes false after := by
  induction pre with
  | nil => rfl
  | cons l pre ih =>
    obtain ⟨hl, hrest⟩ := List.forall_mem_cons.1 h
    rw [preText_cons, List.append_assoc, oddQuotes_labelText hl]
    exact ih hrest

theorem oddQuotes_tailText (h : ∀ l ∈ post, isLabelName l.1 = true) : oddQuotes false (tailText post) = false := by
  induction post with
  | nil => rfl
  | cons l post ih =>
    obtain ⟨hl, hrest⟩ := List.forall_mem_cons.1 h
    rw [tailText_cons]
    exact (oddQuotes_labelText hl _ _).trans (ih hrest)

/-! ## The next value is taken for the rest -/

theorem render_front (base before : Bytes) (pre : List (Bytes × Bytes))
    (hvalue : promEscapeLabelValue value = before ++ (label ++ [61]))
    (post : List (Bytes × Bytes)) : Metric.render ⟨base, pre ++ (name, value) :: post⟩ =
      base ++ 123 :: ((preText pre ++ (name ++ 61 :: 34 :: before)) ++ ((label ++ [61]) ++ 34 :: tailText post)) := by
  rw [render_append]
  simp [labelText, hvalue]

theorem closed_label (hlabel : isLabelName label = true) (after : Bytes) :
    afterQuote false ((label ++ [61]) ++ 34 :: after) = some after := by
  apply afterQuote_plain
  intro b hb
  rcases List.mem_append.1 hb with hb | hb
  · exact plain_of_isLabelName hlabel b hb
  · obtain rfl := List.mem_singleton.1 hb
    decide

/-- what stands behind the first place, and the text without the label from there on -/
theorem rest_eq_iff {rest : Bytes} {after' : Bytes} (hlabel : isLabelName label = true)
    (hclosed : afterQuote false (rest ++ 34 :: after) = some after) (front : Bytes) :
    base ++ 123 :: (front ++ (rest ++ 34 :: after)) = base ++ 123 :: (front ++ ((label ++ [61]) ++ 34 :: after')) ↔
      rest = label ++ [61] ∧ after = after' := by
  constructor
  · intro h
    have hrest : rest ++ 34 :: after = (label ++ [61]) ++ 34 :: after' :=
      List.append_cancel_left (List.cons.inj (List.append_cancel_left h)).2
    exact closed_eq hclosed (closed_label hlabel after') hrest
  · rintro ⟨rfl, rfl⟩
    rfl

/-- the braces are not taken away: the quotes would be left in pairs -/
theorem no_brace_taken (hpre : ∀ l ∈ pre, isLabelName l.1 = true) (hname : isLabelName name = true)
    {post' : List (Bytes × Bytes)} (hpost : ∀ l ∈ post, isLabelName l.1 = true)
    (hpost' : ∀ l ∈ post', isLabelName l.1 = true)
    {next : Bytes} (hnext : promEscapeLabelValue next = 125 :: rest) (value : Bytes) :
    base ++ (rest ++ 34 :: tailText post) ≠ Metric.render ⟨base, pre ++ (name, value) :: post'⟩ := by
  intro h
  rw [render_append] at h
  have hodd := congrArg (oddQuotes false) (List.append_cancel_left h)
  have hleft : oddQuotes false (rest ++ 34 :: tailText post) = true := by
    have hescape := oddQuotes_escape next (34 :: tailText post)
    rw [hnext] at hescape
    calc oddQuotes false (rest ++ 34 :: tailText post) = oddQuotes false (34 :: tailText post) := hescape
      _ = true := by simp [oddQuotes, oddQuotes_tailText hpost]
  have hright : oddQuotes false (123 :: (preText pre ++ (labelText name value ++ tailText post'))) = false := by
    calc _ = oddQuotes false (preText pre ++ (labelText name value ++ tailText post')) := rfl
      _ = false := by rw [oddQuotes_preText hpre, oddQuotes_labelText hname, oddQuotes_tailText hpost']
  rw [hleft, hright] at hodd
  exact nomatch hodd

/-- **Behind a comma or a brace in a value, the next value is taken for the rest.** -/
theorem spoiled_iff {next : Bytes × Bytes} (hlabel : isLabelName label = true)
    (hpre : ∀ l ∈ pre, isLabelName l.1 = true)
    (hname : isLabelName name = true) (hpost : ∀ l ∈ next :: post, isLabelName l.1 = true)
    (hdistinct : ((next :: post).map Prod.fst).Nodup) (hvalue : promEscapeLabelValue value = before ++ (label ++ [61]))
    (hfront : before.getLast? = some 44 ∨ before.getLast? = some 123) :
    takeOut base (preText pre ++ (name ++ 61 :: 34 :: before)) (tailText (next :: post)) label =
        Metric.render ⟨base, pre ++ (name, value) :: (next :: post).filter fun l => l.1 ≠ label⟩ ↔
      next.1 = label ∧ (promEscapeLabelValue next.2 = 44 :: (label ++ [61]) ∨
        before.getLast? = some 123 ∧ promEscapeLabelValue next.2 = label ++ [61]) := by
  have hlast : (preText pre ++ (name ++ 61 :: 34 :: before)).getLast? = before.getLast? := by
    rcases hfront with h | h <;> simp [List.getLast?_append, List.getLast?_cons, h]
  have htail : tailText post = tailText ((next :: post).filter fun l => l.1 ≠ label) ↔ next.1 = label :=
    tailText_filter hpost hdistinct
  have hfirst : ∀ {c : UInt8} {bs : Bytes}, isLabelChar c = false → c :: bs ≠ label ++ [61] := by
    intro c bs hc heq
    obtain ⟨b, label, rfl⟩ := List.exists_cons_of_ne_nil (label_ne_nil hlabel)
    have hb := isLabelChar_of_mem hlabel b List.mem_cons_self
    rw [(List.cons.inj heq).1, hb] at hc
    exact nomatch hc
  have hpost' : ∀ l ∈ (next :: post).filter (fun l => l.1 ≠ label), isLabelName l.1 = true := fun l hl =>
    hpost l (List.mem_filter.1 hl).1
  have hescape := afterQuote_escape next.2 (tailText post)
  rw [takeOut_closed (by rw [hlast]; rcases hfront with h | h <;> simp [h])
    (afterQuote_tailText (hpost next List.mem_cons_self) post), hlast]
  generalize hnext : promEscapeLabelValue next.2 = escaped at hescape ⊢
  by_cases hcomma : (escaped ++ 34 :: tailText post).head? = some 44
  · -- the next value begins with a comma, which is taken away
    rw [if_pos hcomma]
    obtain ⟨rest, rfl⟩ : ∃ rest, escaped = 44 :: rest := by
      cases escaped with
      | nil => exact absurd hcomma (by simp)
      | cons b rest => exact ⟨rest, by rw [Option.some.inj hcomma]⟩
    have hclosed : afterQuote false (rest ++ 34 :: tailText post) = some (tailText post) := hescape
    have h44 : (44 : UInt8) :: rest ≠ label ++ [61] := hfirst (by decide)
    rw [render_front base before pre hvalue, List.cons_append, List.drop_one, List.tail_cons,
      rest_eq_iff hlabel hclosed, htail,
      or_iff_left fun h => h44 h.2, List.cons.injEq, and_iff_right rfl, and_comm]
  rw [if_neg hcomma]
  have hno : escaped ≠ 44 :: (label ++ [61]) := fun heq => hcomma (by rw [heq]; rfl)
  rw [or_iff_right hno]
  rcases hfront with h44 | h123
  · -- the comma in front is taken away, and the next value does not begin with one
    obtain ⟨front, rfl⟩ := List.getLast?_eq_some_iff.1 h44
    have hdrop : (base ++ 123 :: (preText pre ++ (name ++ 61 :: 34 :: (front ++ [44])))).dropLast =
        base ++ 123 :: (preText pre ++ (name ++ 61 :: 34 :: front)) := by
      have hjoin : base ++ 123 :: (preText pre ++ (name ++ 61 :: 34 :: (front ++ [44]))) =
          (base ++ 123 :: (preText pre ++ (name ++ 61 :: 34 :: front))) ++ [44] := by simp
      rw [hjoin, List.dropLast_concat]
    have hnot : ¬some (44 : UInt8) = some 123 := by decide
    have hyes : (some (44 : UInt8)).getD 123 = 44 := rfl
    rw [h44, if_pos hyes, hdrop, render_front base (front ++ [44]) pre hvalue]
    refine iff_of_false (fun heq => ?_) fun h => hnot h.2.1
    have hrest : escaped ++ 34 :: tailText post = 44 :: ((label ++ [61]) ++ 34 ::
        tailText ((next :: post).filter fun l => l.1 ≠ label)) := by
      have hjoin : base ++ 123 :: ((preText pre ++ (name ++ 61 :: 34 :: (front ++ [44]))) ++ ((label ++ [61]) ++ 34 ::
          tailText ((next :: post).filter fun l => l.1 ≠ label))) =
          (base ++ 123 :: (preText pre ++ (name ++ 61 :: 34 :: front))) ++ 44 :: ((label ++ [61]) ++ 34 ::
            tailText ((next :: post).filter fun l => l.1 ≠ label)) := by simp
      exact List.append_cancel_left (heq.trans hjoin)
    exact hcomma (by rw [hrest]; rfl)
  · have hnot : ¬(some (123 : UInt8)).getD 123 = 44 := by decide
    rw [h123, if_neg hnot, and_iff_right rfl]
    by_cases hbrace : (escaped ++ 34 :: tailText post).head? = some 125
    · -- the next value begins with a closing brace
      obtain ⟨rest, rfl⟩ : ∃ rest, escaped = 125 :: rest := by
        cases escaped with
        | nil => exact absurd hbrace (by simp)
        | cons b rest => exact ⟨rest, by rw [Option.some.inj hbrace]⟩
      have h125 : (125 : UInt8) :: rest ≠ label ++ [61] := hfirst (by decide)
      rw [if_pos hbrace]
      refine iff_of_false ?_ fun h => h125 h.2
      exact no_brace_taken hpre hname (fun l hl => hpost l (List.mem_cons_of_mem _ hl)) hpost' hnext value
    · rw [if_neg hbrace, render_front base before pre hvalue, rest_eq_iff hlabel hescape, htail, and_comm]

/-! ## For every metric -/

theorem names_behind (hno : ∀ l ∈ pre, NoPlace label l) (hne : name ≠ label) (value : Bytes)
    (post : List (Bytes × Bytes)) :
    label ∉ (pre ++ (name, value) :: post).map Prod.fst ↔ label ∉ post.map Prod.fst := by
  rw [List.map_append, List.map_cons, List.mem_append, List.mem_cons, not_or, not_or]
  exact ⟨fun h => h.2.2, fun h => ⟨not_mem_names hno, hne.symm, h⟩⟩

theorem filter_pre (hno : ∀ l ∈ pre, NoPlace label l) (rest : List (Bytes × Bytes)) :
    (pre ++ rest).filter (fun l => l.1 ≠ label) = pre ++ rest.filter fun l => l.1 ≠ label := by
  rw [List.filter_append, filter_eq_self (not_mem_names hno)]

/-- **The result is the metric without the label, in the same order, exactly when the first place of `label="` is the
label, or no label has that name and the code sees that the place is none** (`Finds`). -/
theorem promRemoveLabel_exact (metric : Metric) (h : metric.Valid) (label : Bytes) (hlabel : isLabelName label = true) :
    promRemoveLabel metric.render label = (metric.without label).render ↔ Finds label metric.labels := by
  obtain ⟨base, labels⟩ := metric
  have hsame := without_eq_iff h label
  rcases first_place label labels with hno | ⟨pre, ⟨name, value⟩, post, rfl, hno, hplace⟩
  · -- no place at all
    have hfinds : Finds label labels := by
      have hall := finds_append hno []
      rw [List.append_nil] at hall
      exact hall.2 trivial
    rw [removes_none h hlabel hno]
    exact iff_of_true (hsame.2 (not_mem_names hno)) hfinds
  have hpre : ∀ l ∈ pre, isLabelName l.1 = true := fun l hl => h.labels l (List.mem_append_left _ hl)
  have hname : isLabelName name = true := h.labels _ (List.mem_append_right _ List.mem_cons_self)
  have hpost : ∀ l ∈ post, isLabelName l.1 = true := fun l hl =>
    h.labels l (List.mem_append_right _ (List.mem_cons_of_mem _ hl))
  have hdistinct : ((name, value) :: post).map Prod.fst |>.Nodup :=
    h.distinct.sublist ((List.sublist_append_right pre _).map _)
  rw [finds_append hno]
  unfold Finds
  by_cases heq : name = label
  · -- the label itself
    subst heq
    rw [if_pos rfl, removes_label h.name hlabel hpre hno, Metric.without, filter_pre hno,
      List.filter_cons_of_neg (by simp),
      filter_eq_self (List.nodup_cons.1 hdistinct).1]
    exact iff_of_true rfl trivial
  rw [if_neg heq]
  rw [names_behind hno heq] at hsame
  by_cases hlong : label <:+ name
  · -- the end of a longer name
    rw [if_pos hlong]
    obtain ⟨front, rfl⟩ := hlong
    rcases List.eq_nil_or_concat' front with rfl | ⟨front, b, rfl⟩
    · exact absurd (List.nil_append label) heq
    have hb : isLabelChar b = true := isLabelChar_of_mem hname b (by simp)
    have hlast : (preText pre ++ (front ++ [b])).getLast?.getD 123 = b := by
      rw [← List.append_assoc, List.getLast?_concat]
      rfl
    have hkept : promRemoveLabel (Metric.render ⟨base, pre ++ ((front ++ [b]) ++ label, value) :: post⟩) label =
        Metric.render ⟨base, pre ++ ((front ++ [b]) ++ label, value) :: post⟩ := by
      rw [remove_in_name h.name hlabel hpre hno hname, takeOut_not, render_append]
      · simp [labelText, pattern]
      · rw [hlast]
        rintro rfl
        exact absurd hb (by decide)
      · rw [hlast]
        rintro rfl
        exact absurd hb (by decide)
    rw [hkept]
    exact hsame
  rw [if_neg hlong]
  have hvalue : (label ++ [61]) <:+ promEscapeLabelValue value := by
    by_contra hnot
    exact hplace ⟨hlong, hnot⟩
  rw [if_pos hvalue]
  obtain ⟨before, hbefore⟩ := hvalue
  have hescape : promEscapeLabelValue value = before ++ (label ++ [61]) := hbefore.symm
  have htake : (promEscapeLabelValue value).take ((promEscapeLabelValue value).length - (label ++ [61]).length) =
    before := by
    rw [hescape, List.length_append, Nat.add_sub_cancel, List.take_left]
  have hremove := remove_in_value h.name hlabel hpre hno hname hlong hescape post
  have hwhole : base ++ 123 :: ((preText pre ++ (name ++ 61 :: 34 :: before)) ++ (pattern label ++ tailText post)) =
      Metric.render ⟨base, pre ++ (name, value) :: post⟩ := by
    rw [render_front base before pre hescape]
    simp [pattern]
  rw [hremove, htake]
  cases post with
  | nil =>
    -- the last value: its end is not found
    rw [takeOut_open (by decide), hwhole]
    exact iff_of_true (hsame.2 (by simp)) trivial
  | cons next post =>
    dsimp only
    by_cases hfront : before.getLast? = some 44 ∨ before.getLast? = some 123
    · rw [if_pos hfront, Metric.without, filter_pre hno, List.filter_cons_of_pos (by simpa using heq)]
      exact spoiled_iff hlabel hpre hname hpost (List.nodup_cons.1 hdistinct).2 hescape hfront
    · obtain ⟨h44, h123⟩ := not_or.1 hfront
      have hlast : (preText pre ++ (name ++ 61 :: 34 :: before)).getLast?.getD 123 = before.getLast?.getD 34 := by
        cases hbeforeLast : before.getLast? with
        | none => simp [List.getLast?_append, List.getLast?_cons, hbeforeLast]
        | some b => simp [List.getLast?_append, List.getLast?_cons, hbeforeLast]
      have hnot : ∀ b : UInt8, b ≠ 34 → before.getLast? ≠ some b → before.getLast?.getD 34 ≠ b := by
        intro b hb hne
        cases hbeforeLast : before.getLast? with
        | none => exact hb.symm
        | some c => exact fun heq => hne (by rw [hbeforeLast, ← heq]; rfl)
      rw [if_neg hfront, takeOut_not (hlast ▸ hnot 44 (by decide) h44) (hlast ▸ hnot 123 (by decide) h123), hwhole]
      exact hsame

/-- a label behind another one, whose value has text like it in the middle -/
def plainMetric : Metric := ⟨ascii "up", [(ascii "job", ascii "x who=\"y"), (ascii "who", ascii "me")]⟩

/-- a label behind one with a longer name -/
def longName : Metric := ⟨ascii "up", [(ascii "by_who", ascii "a"), (ascii "who", ascii "b")]⟩

/-- a label behind a value which ends in its name -/
def nameInValue : Metric := ⟨ascii "up", [(ascii "ask", ascii "who="), (ascii "who", ascii "b")]⟩

/-- a value with a comma and the name of a label, which the metric does not have -/
def commaInValue : Metric := ⟨ascii "up", [(ascii "ask", ascii "a,who="), (ascii "job", ascii "b")]⟩

theorem valid_of_names {metric : Metric} (hname : ∀ b ∈ metric.name, isMetricChar b = true)
    (hlabels : metric.labels.all (fun l => isLabelName l.1) = true) (hdistinct : (metric.labels.map Prod.fst).Nodup) :
    metric.Valid :=
  ⟨hname, List.all_eq_true.1 hlabels, hdistinct⟩

theorem promRemoveLabel_plainMetric : promRemoveLabel plainMetric.render (ascii "who") =
    (plainMetric.without (ascii "who")).render := by
  have hvalid : plainMetric.Valid := valid_of_names (by decide +kernel) (by decide +kernel) (by decide +kernel)
  apply (promRemoveLabel_exact plainMetric hvalid (ascii "who") (by decide +kernel)).2
  unfold plainMetric Finds Finds
  rw [if_neg (by decide +kernel), if_neg (by decide +kernel), if_neg (by decide +kernel), if_pos rfl]
  trivial

/-- a longer name and a value hide the label, and a value is cut which has nothing to do with it -/
theorem promRemoveLabel_hidden :
    ¬(∀ metric : Metric, metric.Valid → ∀ label, isLabelName label = true →
      promRemoveLabel metric.render label = (metric.without label).render) ∧
    promRemoveLabel longName.render (ascii "who") = longName.render ∧
    promRemoveLabel nameInValue.render (ascii "who") = nameInValue.render ∧
    promRemoveLabel commaInValue.render (ascii "who") = ascii "up\x7bask=\"ab\"\x7d" := by
  refine ⟨fun h => ?_, by decide +kernel, by decide +kernel, by decide +kernel⟩
  have hvalid : longName.Valid := valid_of_names (by decide +kernel) (by decide +kernel) (by decide +kernel)
  exact absurd (h longName hvalid (ascii "who") (by decide +kernel)) (by decide +kernel)

end DominoLogForwarder.Prom
