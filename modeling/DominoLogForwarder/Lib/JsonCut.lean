/-
JSON texts which are cut. What a reader has taken is the same with more text behind it, so a text which is cut in front
of its end is no JSON text, when it was an object.

`Local` is a reader which looks at nothing behind what it takes. Digits are the exception: a number ends where the text
ends, and goes on when there are more digits (`LocalBefore`).

- `parse_front`: when a part of the text of an object is parsed, only blanks are missing.
- `parse_cut`: an object which ends with its brace is not parsed when it is cut.
-/
import DominoLogForwarder.Lib.JsonText
import Mathlib.Data.List.DropRight
import Mathlib.Data.List.TakeWhile

namespace DominoLogForwarder

namespace Json

open Decimal

/-! ## Readers -/

section Readers

variable {α : Type}

/-- the reader looks at nothing behind what it takes -/
def Local (read : List UInt8 → Option (α × List UInt8)) : Prop :=
  ∀ text v rest more, read text = some (v, rest) → read (text ++ more) = some (v, rest ++ more)

/-- the reader looks at nothing behind what it takes, but it can stop at the end of the text -/
def LocalBefore (read : List UInt8 → Option (α × List UInt8)) : Prop :=
  ∀ text v rest more, read text = some (v, rest) → rest ≠ [] → read (text ++ more) = some (v, rest ++ more)

end Readers

/-! ## Strings -/

theorem local_readHex4 : Local readHex4 := by
  intro text v rest more h
  unfold readHex4 at h
  split at h
  · simp only [Option.bind_eq_bind, Option.bind_eq_some_iff, Option.pure_def, Option.some.injEq, Prod.mk.injEq] at h
    obtain ⟨a, ha, b, hb, c, hc, d, hd, rfl, rfl⟩ := h
    simp [readHex4, ha, hb, hc, hd]
  · cases h

theorem local_readUnicode : Local readUnicode := by
  intro text v rest more h
  unfold readUnicode at h ⊢
  cases hfirst : readHex4 text with
  | none => simp [hfirst] at h
  | some first =>
    obtain ⟨n, tail⟩ := first
    rw [local_readHex4 _ _ _ more hfirst]
    rw [hfirst] at h
    dsimp only at h ⊢
    split_ifs at h ⊢ with hhigh hlow
    · -- the second one of the pair
      split at h
      · rename_i second
        cases hsecond : readHex4 second with
        | none => simp [hsecond] at h
        | some pair =>
          obtain ⟨m, last⟩ := pair
          rw [hsecond] at h
          simp only [List.cons_append, local_readHex4 _ _ _ more hsecond]
          dsimp only at h
          split_ifs at h ⊢ with hm
          obtain ⟨rfl, rfl⟩ := Prod.mk.inj (Option.some.inj h)
          rfl
      · cases h
    · obtain ⟨rfl, rfl⟩ := Prod.mk.inj (Option.some.inj h)
      rfl

theorem local_readEscape : Local readEscape := by
  intro text v rest more h
  unfold readEscape at h
  split at h
  case h_9 => exact local_readUnicode _ _ _ more h
  case h_10 => cases h
  all_goals
    obtain ⟨rfl, rfl⟩ := Prod.mk.inj (Option.some.inj h)
    rfl

theorem local_readString {fuel fuel' : ℕ} (hle : fuel ≤ fuel') {text more s rest : List UInt8}
    (h : readString fuel text = some (s, rest)) : readString fuel' (text ++ more) = some (s, rest ++ more) := by
  induction fuel generalizing fuel' text s with
  | zero => cases h
  | succ fuel ih =>
    obtain ⟨fuel', rfl⟩ := Nat.exists_eq_add_of_le' hle
    cases text with
    | nil => cases h
    | cons b text =>
      rw [List.cons_append, ← Nat.add_assoc]
      unfold readString at h ⊢
      have hnext : fuel ≤ fuel' + fuel := Nat.le_add_left _ _
      split_ifs at h ⊢ with hquote hescape hcontrol
      · obtain ⟨rfl, rfl⟩ := Prod.mk.inj (Option.some.inj h)
        rfl
      · cases hread : readEscape text with
        | none => simp [hread] at h
        | some escape =>
          obtain ⟨c, tail⟩ := escape
          rw [hread] at h
          rw [local_readEscape _ _ _ more hread]
          dsimp only at h ⊢
          obtain ⟨⟨s', rest'⟩, hs, heq⟩ := Option.map_eq_some_iff.1 h
          obtain ⟨rfl, rfl⟩ := Prod.mk.inj heq
          rw [ih hnext hs]
          rfl
      · obtain ⟨⟨s', rest'⟩, hs, heq⟩ := Option.map_eq_some_iff.1 h
        obtain ⟨rfl, rfl⟩ := Prod.mk.inj heq
        rw [ih hnext hs]
        rfl

/-! ## Numbers -/

/-- a part of the text which ends inside of it -/
theorem while_append {p : UInt8 → Bool} {text : List UInt8} (h : text.dropWhile p ≠ []) (more : List UInt8) :
    (text ++ more).takeWhile p = text.takeWhile p ∧ (text ++ more).dropWhile p = text.dropWhile p ++ more := by
  induction text with
  | nil => exact absurd rfl h
  | cons b text ih =>
    rw [List.cons_append, List.takeWhile_cons, List.dropWhile_cons, List.takeWhile_cons, List.dropWhile_cons]
    rw [List.dropWhile_cons] at h
    cases hb : p b with
    | true =>
      rw [hb, if_pos rfl] at h
      simp [ih h]
    | false => simp

theorem before_readFraction : LocalBefore readFraction := by
  intro text v rest more h hrest
  unfold readFraction at h
  split at h
  · rename_i digits
    split_ifs at h with hempty
    obtain ⟨rfl, rfl⟩ := Prod.mk.inj (Option.some.inj h)
    obtain ⟨htake, hdrop⟩ := while_append hrest more
    simp [readFraction, htake, hdrop, hempty]
  · rename_i hpoint
    obtain ⟨rfl, rfl⟩ := Prod.mk.inj (Option.some.inj h)
    cases text with
    | nil => exact absurd rfl hrest
    | cons b text =>
      have hb : b ≠ 46 := fun heq => hpoint text (by rw [heq])
      simp [readFraction, hb]

theorem readSign_append {text : List UInt8} (h : text ≠ []) (more : List UInt8) :
    readSign (text ++ more) = ((readSign text).1, (readSign text).2 ++ more) := by
  cases text with
  | nil => exact absurd rfl h
  | cons b text =>
    unfold readSign
    rw [List.cons_append]
    dsimp only
    split_ifs <;> rfl

theorem before_readExponent : LocalBefore readExponent := by
  intro text v rest more h hrest
  cases text with
  | nil =>
    obtain ⟨rfl, rfl⟩ := Prod.mk.inj (Option.some.inj h)
    exact absurd rfl hrest
  | cons b text =>
    rw [List.cons_append]
    unfold readExponent at h ⊢
    dsimp only at h ⊢
    by_cases hletter : b = 101 ∨ b = 69
    · rw [if_pos hletter] at h ⊢
      split_ifs at h with hempty
      obtain ⟨rfl, rfl⟩ := Prod.mk.inj (Option.some.inj h)
      have hne : text ≠ [] := by
        intro heq
        rw [heq] at hrest
        exact hrest rfl
      obtain ⟨htake, hdrop⟩ := while_append hrest more
      simp [readSign_append hne, htake, hdrop, hempty]
    · rw [if_neg hletter] at h ⊢
      obtain ⟨rfl, rfl⟩ := Prod.mk.inj (Option.some.inj h)
      rfl

theorem readFraction_nil {v rest : List UInt8} (h : readFraction [] = some (v, rest)) : rest = [] :=
  (Prod.mk.inj (Option.some.inj h)).2.symm

theorem readExponent_nil {v : Option Exponent} {rest : List UInt8} (h : readExponent [] = some (v, rest)) :
    rest = [] :=
  (Prod.mk.inj (Option.some.inj h)).2.symm

theorem before_readUnsigned (negative : Bool) : LocalBefore (readUnsigned negative) := by
  intro text v rest more h hrest
  unfold readUnsigned at h ⊢
  dsimp only at h ⊢
  split_ifs at h with hwhole
  cases hfraction : readFraction (text.dropWhile isDigit) with
  | none => simp [hfraction] at h
  | some f =>
    obtain ⟨fraction, tail⟩ := f
    rw [hfraction] at h
    dsimp only at h
    cases hexponent : readExponent tail with
    | none => simp [hexponent] at h
    | some e =>
      obtain ⟨exponent, last⟩ := e
      rw [hexponent] at h
      obtain ⟨rfl, rfl⟩ := Prod.mk.inj (Option.some.inj h)
      -- something is left behind each of the parts
      have htail : tail ≠ [] := by
        rintro rfl
        exact hrest (readExponent_nil hexponent)
      have hdrop : text.dropWhile isDigit ≠ [] := by
        intro heq
        rw [heq] at hfraction
        exact htail (readFraction_nil hfraction)
      obtain ⟨htake, hdrop'⟩ := while_append hdrop more
      rw [htake, hdrop', if_neg hwhole, before_readFraction _ _ _ more hfraction htail]
      dsimp only
      rw [before_readExponent _ _ _ more hexponent hrest]

theorem before_readNumeral : LocalBefore readNumeral := by
  intro text v rest more h hrest
  unfold readNumeral at h
  split at h
  · exact before_readUnsigned true _ _ _ more h hrest
  · rename_i hsign
    cases text with
    | nil => cases h
    | cons b text =>
      have hb : b ≠ 45 := fun heq => hsign text (by rw [heq])
      have hread := before_readUnsigned false _ _ _ more h hrest
      unfold readNumeral
      split
      · rename_i heq
        exact absurd (List.cons.inj heq).1 hb
      · exact hread

theorem before_readNumber : LocalBefore readNumber := by
  intro text v rest more h hrest
  unfold readNumber at h ⊢
  cases hread : readNumeral text with
  | none => simp [hread] at h
  | some numeral =>
    obtain ⟨n, tail⟩ := numeral
    rw [hread] at h
    obtain ⟨v', hv, heq⟩ := Option.map_eq_some_iff.1 h
    obtain ⟨rfl, rfl⟩ := Prod.mk.inj heq
    rw [before_readNumeral _ _ _ more hread hrest]
    simp [hv]

/-! ## Values -/

theorem skipBlanks_append {text : List UInt8} (h : skipBlanks text ≠ []) (more : List UInt8) :
    skipBlanks (text ++ more) = skipBlanks text ++ more := (while_append h more).2

theorem skipBlanks_cons_append {text tail : List UInt8} {b : UInt8} (h : skipBlanks text = b :: tail)
    (more : List UInt8) : skipBlanks (text ++ more) = b :: (tail ++ more) := by
  rw [skipBlanks_append (by rw [h]; exact List.cons_ne_nil _ _), h, List.cons_append]

def IsNumber : Json → Prop
  | int _ | double _ => True
  | _ => False

theorem isNumber_of_ofNumeral {n : Numeral} {v : Json} (h : ofNumeral n = some v) : v.IsNumber := by
  have hdouble : ∀ d : Option Double, d.map double = some v → v.IsNumber := by
    intro d hd
    obtain ⟨x, -, hx⟩ := Option.map_eq_some_iff.1 hd
    rw [← hx]
    trivial
  unfold ofNumeral at h
  by_cases hplain : n.fraction = [] ∧ n.exponent = none
  · rw [if_pos hplain] at h
    split at h
    · rw [← Option.some.inj h]
      trivial
    · exact hdouble _ h
  · rw [if_neg hplain] at h
    exact hdouble _ h

theorem isNumber_of_readNumber {text rest : List UInt8} {v : Json} (h : readNumber text = some (v, rest)) :
    v.IsNumber := by
  unfold readNumber at h
  cases hread : readNumeral text with
  | none => simp [hread] at h
  | some numeral =>
    rw [hread] at h
    obtain ⟨v', hv, heq⟩ := Option.map_eq_some_iff.1 h
    rw [← (Prod.mk.inj heq).1]
    exact isNumber_of_ofNumeral hv

/-- a number begins with a digit or a minus sign -/
theorem readNumber_starts {text rest : List UInt8} {v : Json} (h : readNumber text = some (v, rest)) :
    ∃ b tail, text = b :: tail ∧ (b = 45 ∨ isDigit b = true) := by
  cases text with
  | nil => cases h
  | cons b tail =>
    refine ⟨b, tail, rfl, ?_⟩
    by_contra hno
    rw [not_or] at hno
    have hread : readNumber (b :: tail) = none := by
      unfold readNumber readNumeral
      split
      · rfl
      · rename_i heq
        split at heq
        · rename_i hminus
          exact absurd (List.cons.inj hminus).1 hno.1
        · unfold readUnsigned at heq
          simp [hno.2] at heq
    rw [hread] at h
    cases h

theorem readValue_starts {fuel : ℕ} {text rest : List UInt8} {v : Json} (h : readValue fuel text = some (v, rest)) :
    skipBlanks text ≠ [] := by
  intro hempty
  cases fuel with
  | zero => cases h
  | succ fuel =>
    rw [readValue, hempty] at h
    cases h

theorem readItems_starts {fuel : ℕ} {text rest : List UInt8} {vs : List Json}
    (h : readItems fuel text = some (vs, rest)) : skipBlanks text ≠ [] := by
  cases fuel with
  | zero => cases h
  | succ fuel =>
    rw [readItems] at h
    cases hvalue : readValue fuel text with
    | none => simp [hvalue] at h
    | some r => exact readValue_starts hvalue

theorem readMembers_starts {fuel : ℕ} {text rest : List UInt8} {ms : List (List UInt8 × Json)}
    (h : readMembers fuel text = some (ms, rest)) : ∃ tail, skipBlanks text = 34 :: tail := by
  cases fuel with
  | zero => cases h
  | succ fuel =>
    rw [readMembers] at h
    split at h
    · rename_i tail heq
      exact ⟨tail, heq⟩
    · cases h

theorem readValue_skipBlanks (fuel : ℕ) (text : List UInt8) :
    readValue (fuel + 1) text = readValue (fuel + 1) (skipBlanks text) := by
  have hsame : skipBlanks (skipBlanks text) = skipBlanks text := List.dropWhile_idempotent ..
  rw [readValue, readValue, hsame]

/-- with this fuel nothing is looked at behind a value. A number can stop at the end of the text -/
structure LocalAt (fuel : ℕ) : Prop where
  value : ∀ fuel', fuel ≤ fuel' → ∀ text v rest more, readValue fuel text = some (v, rest) →
    rest ≠ [] ∨ ¬v.IsNumber → readValue fuel' (text ++ more) = some (v, rest ++ more)
  items : ∀ fuel', fuel ≤ fuel' → ∀ text vs rest more, readItems fuel text = some (vs, rest) →
    readItems fuel' (text ++ more) = some (vs, rest ++ more)
  members : ∀ fuel', fuel ≤ fuel' → ∀ text ms rest more, readMembers fuel text = some (ms, rest) →
    readMembers fuel' (text ++ more) = some (ms, rest ++ more)

variable {fuel fuel' : ℕ} {text rest : List UInt8}

theorem LocalAt.array (h : LocalAt fuel) (hle : fuel ≤ fuel') {v : Json} (more : List UInt8)
    (hread : readArray fuel text = some (v, rest)) : readArray fuel' (text ++ more) = some (v, rest ++ more) := by
  unfold readArray at hread
  split at hread
  · rename_i tail heq
    obtain ⟨rfl, rfl⟩ := Prod.mk.inj (Option.some.inj hread)
    simp [readArray, skipBlanks_cons_append heq]
  · rename_i hopen
    obtain ⟨⟨vs, rest'⟩, hitems, heq⟩ := Option.map_eq_some_iff.1 hread
    obtain ⟨rfl, rfl⟩ := Prod.mk.inj heq
    obtain ⟨b, tail, hb⟩ := List.exists_cons_of_ne_nil (readItems_starts hitems)
    have hne : b ≠ 93 := fun heq => hopen tail (by rw [hb, heq])
    simp [readArray, skipBlanks_cons_append hb, hne, h.items _ hle _ _ _ more hitems]

theorem LocalAt.object (h : LocalAt fuel) (hle : fuel ≤ fuel') {v : Json} (more : List UInt8)
    (hread : readObject fuel text = some (v, rest)) : readObject fuel' (text ++ more) = some (v, rest ++ more) := by
  unfold readObject at hread
  split at hread
  · rename_i tail heq
    obtain ⟨rfl, rfl⟩ := Prod.mk.inj (Option.some.inj hread)
    simp [readObject, skipBlanks_cons_append heq]
  · obtain ⟨⟨ms, rest'⟩, hmembers, heq⟩ := Option.map_eq_some_iff.1 hread
    obtain ⟨rfl, rfl⟩ := Prod.mk.inj heq
    obtain ⟨tail, htail⟩ := readMembers_starts hmembers
    simp [readObject, skipBlanks_cons_append htail, h.members _ hle _ _ _ more hmembers]

theorem LocalAt.next_value (h : LocalAt fuel) (hle : fuel ≤ fuel') {v : Json} (more : List UInt8)
    (hread : readValue (fuel + 1) text = some (v, rest)) (hend : rest ≠ [] ∨ ¬v.IsNumber) :
    readValue (fuel' + 1) (text ++ more) = some (v, rest ++ more) := by
  rw [readValue] at hread ⊢
  split at hread
  case h_1 tail heq | h_2 tail heq | h_3 tail heq =>
    obtain ⟨rfl, rfl⟩ := Prod.mk.inj (Option.some.inj hread)
    simp [skipBlanks_cons_append heq]
  case h_4 tail heq =>
    obtain ⟨⟨s, rest'⟩, hs, hpair⟩ := Option.map_eq_some_iff.1 hread
    obtain ⟨rfl, rfl⟩ := Prod.mk.inj hpair
    have hlen : tail.length + 1 ≤ (tail ++ more).length + 1 := by
      rw [List.length_append]
      omega
    simp only [skipBlanks_cons_append heq, local_readString hlen hs, Option.map_some]
  case h_5 tail heq =>
    rw [skipBlanks_cons_append heq]
    exact h.array hle more hread
  case h_6 tail heq =>
    rw [skipBlanks_cons_append heq]
    exact h.object hle more hread
  case h_7 =>
    obtain ⟨b, tail, hb, hstart⟩ := readNumber_starts hread
    have hrest : rest ≠ [] := hend.resolve_right fun hno => hno (isNumber_of_readNumber hread)
    have hnumber := before_readNumber _ _ _ more hread hrest
    rw [hb, List.cons_append] at hnumber
    rw [← hnumber, ← readValue_number hstart fuel' (tail ++ more), ← skipBlanks_cons_append hb, ← readValue_skipBlanks,
      readValue]

theorem LocalAt.next_items (h : LocalAt fuel) (hle : fuel ≤ fuel') {vs : List Json} (more : List UInt8)
    (hread : readItems (fuel + 1) text = some (vs, rest)) :
    readItems (fuel' + 1) (text ++ more) = some (vs, rest ++ more) := by
  rw [readItems] at hread ⊢
  cases hvalue : readValue fuel text with
  | none => simp [hvalue] at hread
  | some r =>
    obtain ⟨v, tail⟩ := r
    rw [hvalue] at hread
    dsimp only at hread
    have hne : tail ≠ [] := by
      rintro rfl
      cases hread
    rw [h.value _ hle _ _ _ more hvalue (Or.inl hne)]
    dsimp only
    split at hread
    · rename_i next heq
      obtain ⟨⟨vs', rest'⟩, hitems, hpair⟩ := Option.map_eq_some_iff.1 hread
      obtain ⟨rfl, rfl⟩ := Prod.mk.inj hpair
      simp only [skipBlanks_cons_append heq, h.items _ hle _ _ _ more hitems, Option.map_some]
    · rename_i next heq
      obtain ⟨rfl, rfl⟩ := Prod.mk.inj (Option.some.inj hread)
      simp only [skipBlanks_cons_append heq]
    · cases hread

theorem LocalAt.next_members (h : LocalAt fuel) (hle : fuel ≤ fuel') {ms : List (List UInt8 × Json)}
    (more : List UInt8) (hread : readMembers (fuel + 1) text = some (ms, rest)) :
    readMembers (fuel' + 1) (text ++ more) = some (ms, rest ++ more) := by
  rw [readMembers] at hread ⊢
  split at hread
  · rename_i name hquote
    have hlen : name.length + 1 ≤ (name ++ more).length + 1 := by
      rw [List.length_append]
      omega
    cases hname : readString (name.length + 1) name with
    | none => simp [hname] at hread
    | some r =>
      obtain ⟨key, colon⟩ := r
      rw [hname] at hread
      dsimp only at hread
      simp only [skipBlanks_cons_append hquote, local_readString hlen hname]
      split at hread
      · rename_i value hcolon
        simp only [skipBlanks_cons_append hcolon]
        cases hvalue : readValue fuel value with
        | none => simp [hvalue] at hread
        | some r =>
          obtain ⟨v, tail⟩ := r
          rw [hvalue] at hread
          dsimp only at hread
          have hne : tail ≠ [] := by
            rintro rfl
            cases hread
          rw [h.value _ hle _ _ _ more hvalue (Or.inl hne)]
          dsimp only
          split at hread
          · rename_i next heq
            obtain ⟨⟨ms', rest'⟩, hmembers, hpair⟩ := Option.map_eq_some_iff.1 hread
            obtain ⟨rfl, rfl⟩ := Prod.mk.inj hpair
            simp only [skipBlanks_cons_append heq, h.members _ hle _ _ _ more hmembers, Option.map_some]
          · rename_i next heq
            obtain ⟨rfl, rfl⟩ := Prod.mk.inj (Option.some.inj hread)
            simp only [skipBlanks_cons_append heq]
          · cases hread
      · cases hread
  · cases hread

theorem localAt (fuel : ℕ) : LocalAt fuel := by
  -- a value, the items and the members of one level more take the ones of the level below
  induction fuel with
  | zero =>
    refine ⟨fun fuel' _ text v rest more h => ?_, fun fuel' _ text vs rest more h => ?_,
      fun fuel' _ text ms rest more h => ?_⟩
    · rw [readValue] at h
      cases h
    · rw [readItems] at h
      cases h
    · rw [readMembers] at h
      cases h
  | succ fuel ih =>
    refine ⟨fun fuel' hle text v rest more h hend => ?_, fun fuel' hle text vs rest more h => ?_,
      fun fuel' hle text ms rest more h => ?_⟩
    all_goals obtain ⟨fuel', rfl⟩ := Nat.exists_eq_add_of_le' hle
    · exact ih.next_value (Nat.le_add_left fuel fuel') more h hend
    · exact ih.next_items (Nat.le_add_left fuel fuel') more h
    · exact ih.next_members (Nat.le_add_left fuel fuel') more h

/-! ## Texts which are cut -/

/-- a text whose value is an object begins with a brace, and one which begins with it is no number -/
theorem readValue_brace {fuel : ℕ} {text rest : List UInt8} {ms : List (List UInt8 × Json)}
    (h : readValue fuel text = some (object ms, rest)) : ∃ tail, skipBlanks text = 123 :: tail := by
  cases fuel with
  | zero => cases h
  | succ fuel =>
    rw [readValue] at h
    split at h
    case h_1 | h_2 | h_3 => cases h
    case h_4 =>
      obtain ⟨r, -, hpair⟩ := Option.map_eq_some_iff.1 h
      cases hpair
    case h_5 =>
      split at h
      · cases h
      · obtain ⟨r, -, hpair⟩ := Option.map_eq_some_iff.1 h
        cases hpair
    case h_6 tail heq => exact ⟨tail, heq⟩
    case h_7 => exact (isNumber_of_readNumber h).elim

theorem not_number_of_brace {fuel : ℕ} {text rest tail : List UInt8} {v : Json}
    (h : readValue fuel text = some (v, rest)) (hbrace : skipBlanks text = 123 :: tail) : ¬v.IsNumber := by
  cases fuel with
  | zero => cases h
  | succ fuel =>
    rw [readValue_skipBlanks, hbrace, readValue_object, readObject] at h
    split at h
    · obtain ⟨rfl, -⟩ := Prod.mk.inj (Option.some.inj h)
      exact id
    · obtain ⟨r, -, hpair⟩ := Option.map_eq_some_iff.1 h
      rw [← (Prod.mk.inj hpair).1]
      exact id

/-- **What is missing of an object which is parsed in front of its end are blanks.** -/
theorem parse_front {front back : List UInt8} {v : Json} {ms : List (List UInt8 × Json)}
    (hall : parse (front ++ back) = some (object ms)) (hfront : parse front = some v) :
    v = object ms ∧ ∀ b ∈ back, isBlank b = true := by
  unfold parse at hall hfront
  cases hread : readValue (2 * (front ++ back).length + 1) (front ++ back) with
  | none =>
    rw [hread] at hall
    cases hall
  | some all =>
    obtain ⟨w, last⟩ := all
    cases hpart : readValue (2 * front.length + 1) front with
    | none =>
      rw [hpart] at hfront
      cases hfront
    | some part =>
      obtain ⟨u, rest⟩ := part
      rw [hread] at hall
      rw [hpart] at hfront
      dsimp only at hall hfront
      split_ifs at hall with hlast
      split_ifs at hfront with hrest
      obtain rfl := Option.some.inj hall
      obtain rfl := Option.some.inj hfront
      -- the brace stands in the front part already
      obtain ⟨tail, htail⟩ := readValue_brace hread
      obtain ⟨b, tail', hb⟩ := List.exists_cons_of_ne_nil (readValue_starts hpart)
      rw [skipBlanks_cons_append hb] at htail
      obtain ⟨rfl, -⟩ := List.cons.inj htail
      have hlen : 2 * front.length + 1 ≤ 2 * (front ++ back).length + 1 := by
        rw [List.length_append]
        omega
      have hsame := (localAt _).value _ hlen _ _ _ back hpart (Or.inr (not_number_of_brace hpart hb))
      rw [hread] at hsame
      obtain ⟨hvalue, rfl⟩ := Prod.mk.inj (Option.some.inj hsame)
      refine ⟨hvalue.symm, fun b hmem => ?_⟩
      have hblank := List.dropWhile_eq_nil_iff.1 hlast
      exact hblank b (List.mem_append_right _ hmem)

/-- **An object which ends with its brace is not parsed when it is cut.** -/
theorem parse_cut {front back : List UInt8} {ms : List (List UInt8 × Json)}
    (h : parse (front ++ back ++ [125]) = some (object ms)) : parse front = none := by
  cases hfront : parse front with
  | none => rfl
  | some v =>
    rw [List.append_assoc] at h
    have hblank := (parse_front h hfront).2 125 (List.mem_append_right _ List.mem_cons_self)
    exact absurd hblank (by decide)

end Json

end DominoLogForwarder
