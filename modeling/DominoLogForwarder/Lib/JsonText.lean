/-
JSON as a text (RFC 8259): a parser, and rules for texts which are put together from parts.

`parse` reads one value with blanks around it. A number without a fraction and an exponent is an integer when it fits
into 64 bits, and the nearest double otherwise. Encodings are not looked at.

`Denotes text v`: wherever the text stands in a larger one, the parser reads the value `v` from it and goes on behind
it. The rules (`denotes_array`, `denotes_object`, ...) build larger texts from smaller ones, without a blank between
them.
-/
import DominoLogForwarder.Lib.Decimal
import DominoLogForwarder.Lib.Json

namespace DominoLogForwarder

namespace Json

open Decimal

/-! ## The parser -/

/-- blank, tab, new line, carriage return -/
def isBlank (b : UInt8) : Bool := b = 32 || b = 9 || b = 10 || b = 13

def skipBlanks (text : List UInt8) : List UInt8 := text.dropWhile isBlank

def hexDigit? (b : UInt8) : Option ℕ :=
  if 48 ≤ b ∧ b ≤ 57 then some (b.toNat - 48)
  else if 97 ≤ b ∧ b ≤ 102 then some (b.toNat - 87)
  else if 65 ≤ b ∧ b ≤ 70 then some (b.toNat - 55)
  else none

def readHex4 : List UInt8 → Option (ℕ × List UInt8)
  | a :: b :: c :: d :: rest => do
    let a ← hexDigit? a
    let b ← hexDigit? b
    let c ← hexDigit? c
    let d ← hexDigit? d
    pure (((a * 16 + b) * 16 + c) * 16 + d, rest)
  | _ => none

/-- the UTF-8 bytes of a code point -/
def encodePoint (n : ℕ) : List UInt8 :=
  if n < 0x80 then [n.toUInt8]
  else if n < 0x800 then [(0xC0 + n / 0x40).toUInt8, (0x80 + n % 0x40).toUInt8]
  else if n < 0x10000 then
    [(0xE0 + n / 0x1000).toUInt8, (0x80 + n / 0x40 % 0x40).toUInt8, (0x80 + n % 0x40).toUInt8]
  else
    [(0xF0 + n / 0x40000).toUInt8, (0x80 + n / 0x1000 % 0x40).toUInt8, (0x80 + n / 0x40 % 0x40).toUInt8,
      (0x80 + n % 0x40).toUInt8]

/-- `\uXXXX`. A surrogate has to be the first one of a pair -/
def readUnicode (text : List UInt8) : Option (List UInt8 × List UInt8) :=
  match readHex4 text with
  | none => none
  | some (n, rest) =>
    if 0xD800 ≤ n ∧ n < 0xDC00 then
      match rest with
      | 92 :: 117 :: rest =>
        match readHex4 rest with
        | none => none
        | some (m, rest) =>
          if 0xDC00 ≤ m ∧ m < 0xE000 then some (encodePoint (0x10000 + (n - 0xD800) * 0x400 + (m - 0xDC00)), rest)
          else none
      | _ => none
    else if 0xDC00 ≤ n ∧ n < 0xE000 then none
    else some (encodePoint n, rest)

/-- what comes behind a backslash -/
def readEscape : List UInt8 → Option (List UInt8 × List UInt8)
  | 34 :: rest => some ([34], rest)
  | 92 :: rest => some ([92], rest)
  | 47 :: rest => some ([47], rest)
  | 98 :: rest => some ([8], rest)
  | 102 :: rest => some ([12], rest)
  | 110 :: rest => some ([10], rest)
  | 114 :: rest => some ([13], rest)
  | 116 :: rest => some ([9], rest)
  | 117 :: rest => readUnicode rest
  | _ => none

/-- the part of a string behind the first quote, and what comes behind the last one -/
def readString : ℕ → List UInt8 → Option (List UInt8 × List UInt8)
  | 0, _ => none
  | _ + 1, [] => none
  | fuel + 1, b :: rest =>
    if b = 34 then some ([], rest)
    else if b = 92 then
      match readEscape rest with
      | none => none
      | some (c, rest) => (readString fuel rest).map fun r => (c ++ r.1, r.2)
    else if b < 32 then none
    else (readString fuel rest).map fun r => (b :: r.1, r.2)

/-- the digits behind a point -/
def readFraction (text : List UInt8) : Option (List UInt8 × List UInt8) :=
  match text with
  | 46 :: rest => if rest.takeWhile isDigit = [] then none else some (rest.takeWhile isDigit, rest.dropWhile isDigit)
  | _ => some ([], text)

def readSign (text : List UInt8) : Option UInt8 × List UInt8 :=
  match text with
  | b :: rest => if b = 43 ∨ b = 45 then (some b, rest) else (none, text)
  | [] => (none, [])

def readExponent (text : List UInt8) : Option (Option Exponent × List UInt8) :=
  match text with
  | b :: rest =>
    if b = 101 ∨ b = 69 then
      let signed := readSign rest
      if signed.2.takeWhile isDigit = [] then none
      else some (some ⟨b, signed.1, signed.2.takeWhile isDigit⟩, signed.2.dropWhile isDigit)
    else some (none, text)
  | [] => some (none, [])

/-- the part of a number behind its sign -/
def readUnsigned (negative : Bool) (text : List UInt8) : Option (Numeral × List UInt8) :=
  let whole := text.takeWhile isDigit
  if whole = [] ∨ whole.head? = some 48 ∧ whole ≠ [48] then none
  else
    match readFraction (text.dropWhile isDigit) with
    | none => none
    | some (fraction, rest) =>
      match readExponent rest with
      | none => none
      | some (exponent, rest) => some (⟨negative, whole, fraction, exponent⟩, rest)

def readNumeral (text : List UInt8) : Option (Numeral × List UInt8) :=
  match text with
  | 45 :: rest => readUnsigned true rest
  | _ => readUnsigned false text

def ofInteger (value : ℤ) : Option JsonInt :=
  if h : -2 ^ 63 ≤ value ∧ value < 2 ^ 64 then some ⟨value, h.1, h.2⟩ else none

def ofNumeral (n : Numeral) : Option Json :=
  if n.fraction = [] ∧ n.exponent = none then
    match ofInteger (if n.negative then -(number n.whole : ℤ) else number n.whole) with
    | some value => some (int value)
    | none => n.toDouble.map double
  else n.toDouble.map double

def readNumber (text : List UInt8) : Option (Json × List UInt8) :=
  match readNumeral text with
  | none => none
  | some (n, rest) => (ofNumeral n).map fun v => (v, rest)

mutual

/-- a value, with blanks in front of it -/
def readValue : ℕ → List UInt8 → Option (Json × List UInt8)
  | 0, _ => none
  | fuel + 1, text =>
    match skipBlanks text with
    | 110 :: 117 :: 108 :: 108 :: rest => some (null, rest)
    | 116 :: 114 :: 117 :: 101 :: rest => some (bool true, rest)
    | 102 :: 97 :: 108 :: 115 :: 101 :: rest => some (bool false, rest)
    | 34 :: rest => (readString (rest.length + 1) rest).map fun r => (string r.1, r.2)
    | 91 :: rest =>
      match skipBlanks rest with
      | 93 :: rest => some (array [], rest)
      | _ => (readItems fuel rest).map fun r => (array r.1, r.2)
    | 123 :: rest =>
      match skipBlanks rest with
      | 125 :: rest => some (object [], rest)
      | _ => (readMembers fuel rest).map fun r => (object r.1, r.2)
    | text => readNumber text

/-- the items of an array, up to its end -/
def readItems : ℕ → List UInt8 → Option (List Json × List UInt8)
  | 0, _ => none
  | fuel + 1, text =>
    match readValue fuel text with
    | none => none
    | some (v, rest) =>
      match skipBlanks rest with
      | 44 :: rest => (readItems fuel rest).map fun r => (v :: r.1, r.2)
      | 93 :: rest => some ([v], rest)
      | _ => none

/-- the members of an object, up to its end -/
def readMembers : ℕ → List UInt8 → Option (List (List UInt8 × Json) × List UInt8)
  | 0, _ => none
  | fuel + 1, text =>
    match skipBlanks text with
    | 34 :: rest =>
      match readString (rest.length + 1) rest with
      | none => none
      | some (name, rest) =>
        match skipBlanks rest with
        | 58 :: rest =>
          match readValue fuel rest with
          | none => none
          | some (v, rest) =>
            match skipBlanks rest with
            | 44 :: rest => (readMembers fuel rest).map fun r => ((name, v) :: r.1, r.2)
            | 125 :: rest => some ([(name, v)], rest)
            | _ => none
        | _ => none
    | _ => none

end

/-- an array, behind its bracket -/
def readArray (fuel : ℕ) (text : List UInt8) : Option (Json × List UInt8) :=
  match skipBlanks text with
  | 93 :: rest => some (array [], rest)
  | _ => (readItems fuel text).map fun r => (array r.1, r.2)

/-- an object, behind its brace -/
def readObject (fuel : ℕ) (text : List UInt8) : Option (Json × List UInt8) :=
  match skipBlanks text with
  | 125 :: rest => some (object [], rest)
  | _ => (readMembers fuel text).map fun r => (object r.1, r.2)

/-- a text with one value, and nothing behind it -/
def parse (text : List UInt8) : Option Json :=
  match readValue (2 * text.length + 1) text with
  | some (v, rest) => if skipBlanks rest = [] then some v else none
  | none => none

/-! ## Numbers -/

/-- what can come behind a value -/
def Ends (rest : List UInt8) : Prop := ∀ b, rest.head? = some b → b = 44 ∨ b = 93 ∨ b = 125

theorem ends_nil : Ends [] := fun _ h => by cases h

theorem ends_cons {b : UInt8} (h : b = 44 ∨ b = 93 ∨ b = 125) (rest : List UInt8) : Ends (b :: rest) := by
  intro c hc
  rw [List.head?_cons, Option.some.injEq] at hc
  rw [← hc]
  exact h

variable {rest : List UInt8}

/-- digits end at the first byte which is none -/
theorem digits_end {digits : List UInt8} (h : ∀ b ∈ digits, isDigit b = true)
    (hrest : ∀ b, rest.head? = some b → isDigit b = false) :
    (digits ++ rest).takeWhile isDigit = digits ∧ (digits ++ rest).dropWhile isDigit = rest := by
  have hstop : rest.takeWhile isDigit = [] ∧ rest.dropWhile isDigit = rest := by
    cases rest with
    | nil => exact ⟨rfl, rfl⟩
    | cons b rest =>
      have hb := hrest b rfl
      simp [hb]
  constructor
  · rw [List.takeWhile_append_of_pos h, hstop.1, List.append_nil]
  · rw [List.dropWhile_append_of_pos h, hstop.2]

theorem Ends.not_digit (h : Ends rest) : ∀ b, rest.head? = some b → isDigit b = false := by
  intro b hb
  rcases h b hb with rfl | rfl | rfl <;> rfl

theorem readExponent_text {e : Option Exponent}
    (h : ∀ x, e = some x → (x.letter = 101 ∨ x.letter = 69) ∧ (∀ b, x.sign = some b → b = 43 ∨ b = 45) ∧
      x.digits ≠ [] ∧ ∀ b ∈ x.digits, isDigit b = true) (hrest : Ends rest) :
    readExponent ((e.map Exponent.text).getD [] ++ rest) = some (e, rest) := by
  cases e with
  | none =>
    cases rest with
    | nil => rfl
    | cons b rest =>
      have hb : ¬ (b = 101 ∨ b = 69) := by
        rcases hrest b rfl with rfl | rfl | rfl <;> decide
      simp [readExponent, hb]
  | some x =>
    obtain ⟨hletter, hsign, hne, hdigits⟩ := h x rfl
    obtain ⟨letter, sign, digits⟩ := x
    dsimp only at hletter hsign hne hdigits
    have hsigned : readSign (sign.toList ++ (digits ++ rest)) = (sign, digits ++ rest) := by
      cases sign with
      | some b =>
        have hb := hsign b rfl
        simp [readSign, hb]
      | none =>
        obtain ⟨d, ds, rfl⟩ := List.exists_cons_of_ne_nil hne
        have hd := hdigits d List.mem_cons_self
        have hno : ¬ (d = 43 ∨ d = 45) := by
          rintro (rfl | rfl)
          · exact absurd hd (by decide)
          · exact absurd hd (by decide)
        simp [readSign, hno]
    obtain ⟨htake, hdrop⟩ := digits_end hdigits hrest.not_digit
    simp only [Option.map_some, Option.getD_some, Exponent.text, List.cons_append, List.append_assoc, readExponent,
      if_pos hletter, hsigned, htake, hdrop, if_neg hne]

theorem readFraction_text {fraction : List UInt8} (h : ∀ b ∈ fraction, isDigit b = true)
    (hrest : ∀ b, rest.head? = some b → isDigit b = false ∧ b ≠ 46) :
    readFraction ((if fraction = [] then [] else 46 :: fraction) ++ rest) = some (fraction, rest) := by
  by_cases hempty : fraction = []
  · rw [if_pos hempty, List.nil_append, hempty]
    cases rest with
    | nil => rfl
    | cons b rest =>
      have hb := (hrest b rfl).2
      simp [readFraction, hb]
  · obtain ⟨htake, hdrop⟩ := digits_end h fun b hb => (hrest b hb).1
    simp only [if_neg hempty, List.cons_append, readFraction, htake, hdrop]

/-- a numeral is read back, wherever it ends -/
theorem readNumeral_text {n : Numeral} (h : n.Valid) (hrest : Ends rest) : readNumeral (n.text ++ rest) =
    some (n, rest) := by
  have hexponent := readExponent_text h.exponent hrest
  -- the exponent, or what comes behind the number, ends the fraction
  have hafter : ∀ b, ((n.exponent.map Exponent.text).getD [] ++ rest).head? = some b → isDigit b = false ∧ b ≠ 46 := by
    intro b hb
    cases he : n.exponent with
    | none =>
      rw [he] at hb
      rcases hrest b hb with rfl | rfl | rfl <;> decide
    | some e =>
      rw [he] at hb
      have heq : e.letter = b := Option.some.inj hb
      rcases (h.exponent e he).1 with hl | hl
      · rw [← heq, hl]
        decide
      · rw [← heq, hl]
        decide
  have hfraction := readFraction_text h.fraction hafter
  have htail : ∀ b, (n.tail ++ rest).head? = some b → isDigit b = false := by
    intro b hb
    unfold Numeral.tail at hb
    rw [List.append_assoc] at hb
    by_cases hempty : n.fraction = []
    · rw [if_pos hempty] at hb
      exact (hafter b hb).1
    · rw [if_neg hempty] at hb
      have heq : 46 = b := Option.some.inj hb
      rw [← heq]
      rfl
  obtain ⟨htake, hdrop⟩ := digits_end h.whole.2 htail
  have hwhole : ¬ (n.whole = [] ∨ n.whole.head? = some 48 ∧ n.whole ≠ [48]) := by
    rintro (hnil | ⟨hzero, hne⟩)
    · exact h.whole.1 hnil
    · exact hne (h.no_zero hzero)
  have hunsigned : readUnsigned n.negative (n.whole ++ (n.tail ++ rest)) = some (n, rest) := by
    unfold readUnsigned
    simp only [htake, hdrop, if_neg hwhole]
    rw [Numeral.tail, List.append_assoc, hfraction]
    dsimp only
    rw [hexponent]
  unfold Numeral.text
  cases hsign : n.negative with
  | true =>
    rw [hsign] at hunsigned
    simpa [readNumeral] using hunsigned
  | false =>
    rw [hsign] at hunsigned
    obtain ⟨b, bs, hcons⟩ := List.exists_cons_of_ne_nil h.whole.1
    have hb : isDigit b = true := h.whole.2 b (by rw [hcons]; exact List.mem_cons_self)
    have hne : b ≠ 45 := by
      rintro rfl
      exact absurd hb (by decide)
    rw [hcons] at hunsigned
    simp only [Bool.false_eq_true, if_false, List.nil_append, hcons, List.cons_append, List.append_assoc] at hunsigned ⊢
    unfold readNumeral
    split
    · rename_i heq
      exact absurd (List.cons.inj heq).1 hne
    · exact hunsigned

/-! ## The rules -/

/-- the parser reads `v` from the text, and goes on behind it -/
structure Denotes (text : List UInt8) (v : Json) : Prop where
  starts : ∃ b tail, text = b :: tail ∧ isBlank b = false ∧ b ≠ 93
  reads : ∀ fuel rest, 2 * text.length ≤ fuel → Ends rest → readValue fuel (text ++ rest) = some (v, rest)

/-- a string literal, with its quotes -/
def Quoted (literal text : List UInt8) : Prop :=
  ∃ body, literal = 34 :: body ∧
    ∀ fuel rest, body.length ≤ fuel → readString fuel (body ++ rest) = some (text, rest)

/-- a member of an object -/
def DenotesMember (text : List UInt8) (member : List UInt8 × Json) : Prop :=
  ∃ literal value, text = literal ++ 58 :: value ∧ Quoted literal member.1 ∧ Denotes value member.2

/-- the texts, with a comma between them -/
def commas : List (List UInt8) → List UInt8
  | [] => []
  | [t] => t
  | t :: u :: texts => t ++ 44 :: commas (u :: texts)

theorem skipBlanks_cons {b : UInt8} (h : isBlank b = false) (rest : List UInt8) : skipBlanks (b :: rest) =
    b :: rest := by
  simp [skipBlanks, h]

theorem denotes_true : Denotes [116, 114, 117, 101] (bool true) := by
  refine ⟨⟨_, _, rfl, rfl, by decide⟩, fun fuel rest hfuel _ => ?_⟩
  cases fuel with
  | zero => simp at hfuel
  | succ fuel => rfl

theorem denotes_false : Denotes [102, 97, 108, 115, 101] (bool false) := by
  refine ⟨⟨_, _, rfl, rfl, by decide⟩, fun fuel rest hfuel _ => ?_⟩
  cases fuel with
  | zero => simp at hfuel
  | succ fuel => rfl

theorem readValue_string (fuel : ℕ) (text : List UInt8) : readValue (fuel + 1) (34 :: text) =
    (readString (text.length + 1) text).map fun r => (string r.1, r.2) := rfl

theorem denotes_string {literal text : List UInt8} (h : Quoted literal text) : Denotes literal (string text) := by
  obtain ⟨body, rfl, hread⟩ := h
  refine ⟨⟨34, body, rfl, rfl, by decide⟩, fun fuel rest hfuel _ => ?_⟩
  cases fuel with
  | zero => simp at hfuel
  | succ fuel =>
    have hbody := hread ((body ++ rest).length + 1) rest (by rw [List.length_append]; omega)
    rw [List.cons_append, readValue_string, hbody]
    rfl

/-- a digit or a minus sign begins a number -/
theorem readValue_number {b : UInt8} (hb : b = 45 ∨ isDigit b = true) (fuel : ℕ) (text : List UInt8) :
    readValue (fuel + 1) (b :: text) = readNumber (b :: text) := by
  have hblank : isBlank b = false := by
    rcases hb with rfl | hb
    · rfl
    · unfold isDigit at hb
      unfold isBlank
      simp only [Bool.and_eq_true, decide_eq_true_eq, UInt8.le_iff_toNat_le] at hb
      simp only [Bool.or_eq_false_iff, decide_eq_false_iff_not]
      refine ⟨⟨⟨?_, ?_⟩, ?_⟩, ?_⟩ <;>
      · rintro rfl
        exact absurd hb.1 (by decide)
  have hne : ∀ c : UInt8, c ≠ 45 → isDigit c = false → b ≠ c := by
    rintro c hc hdigit rfl
    rcases hb with hb | hb
    · exact hc hb
    · rw [hdigit] at hb
      cases hb
  rw [readValue, skipBlanks_cons hblank]
  split
  · rename_i heq
    exact absurd (List.cons.inj heq).1 (hne 110 (by decide) (by decide))
  · rename_i heq
    exact absurd (List.cons.inj heq).1 (hne 116 (by decide) (by decide))
  · rename_i heq
    exact absurd (List.cons.inj heq).1 (hne 102 (by decide) (by decide))
  · rename_i heq
    exact absurd (List.cons.inj heq).1 (hne 34 (by decide) (by decide))
  · rename_i heq
    exact absurd (List.cons.inj heq).1 (hne 91 (by decide) (by decide))
  · rename_i heq
    exact absurd (List.cons.inj heq).1 (hne 123 (by decide) (by decide))
  · rfl

theorem denotes_numeral {n : Numeral} {v : Json} (h : n.Valid) (hv : ofNumeral n = some v) : Denotes n.text v := by
  obtain ⟨b, tail, hcons, hb⟩ : ∃ b tail, n.text = b :: tail ∧ (b = 45 ∨ isDigit b = true) := by
    obtain ⟨d, ds, hwhole⟩ := List.exists_cons_of_ne_nil h.whole.1
    unfold Numeral.text
    cases n.negative with
    | true => exact ⟨45, _, rfl, Or.inl rfl⟩
    | false =>
      rw [hwhole]
      exact ⟨d, _, rfl, Or.inr (h.whole.2 d (by rw [hwhole]; exact List.mem_cons_self))⟩
  refine ⟨⟨b, tail, hcons, ?_, ?_⟩, fun fuel rest hfuel hrest => ?_⟩
  · rcases hb with rfl | hb
    · rfl
    · unfold isBlank
      simp only [Bool.or_eq_false_iff, decide_eq_false_iff_not]
      refine ⟨⟨⟨?_, ?_⟩, ?_⟩, ?_⟩ <;>
      · rintro rfl
        exact absurd hb (by decide)
  · rintro rfl
    rcases hb with hb | hb
    · exact absurd hb (by decide)
    · exact absurd hb (by decide)
  · have hread := readNumeral_text h hrest
    cases fuel with
    | zero =>
      rw [hcons] at hfuel
      simp at hfuel
    | succ fuel =>
      rw [hcons] at hread ⊢
      rw [List.cons_append, readValue_number hb, readNumber]
      rw [List.cons_append] at hread
      rw [hread]
      simp [hv]

/-- the items of an array, behind its bracket -/
theorem readItems_commas {texts : List (List UInt8)} {vs : List Json} (h : List.Forall₂ Denotes texts vs)
    (hne : texts ≠ []) (fuel : ℕ) (rest : List UInt8) (hfuel : 2 * (commas texts).length + 1 ≤ fuel) :
    readItems fuel (commas texts ++ 93 :: rest) = some (vs, rest) := by
  induction h generalizing fuel with
  | nil => exact absurd rfl hne
  | @cons t v texts vs ht htexts ih =>
    cases fuel with
    | zero => omega
    | succ fuel =>
      cases htexts with
      | nil =>
        have hvalue := ht.reads fuel (93 :: rest) (by simp only [commas] at hfuel; omega)
          (ends_cons (Or.inr (Or.inl rfl)) _)
        rw [commas, readItems, hvalue]
        simp only [skipBlanks_cons (show isBlank 93 = false from rfl)]
      | @cons u w texts vs hu htexts =>
        have hlen : (commas (t :: u :: texts)).length = t.length + 1 + (commas (u :: texts)).length := by
          rw [commas, List.length_append, List.length_cons]
          omega
        have hvalue := ht.reads fuel (44 :: (commas (u :: texts) ++ 93 :: rest)) (by omega) (ends_cons (Or.inl rfl) _)
        have hitems := ih (List.cons_ne_nil _ _) fuel (by omega)
        rw [commas, List.append_assoc, List.cons_append, readItems, hvalue]
        simp only [skipBlanks_cons (show isBlank 44 = false from rfl), hitems, Option.map_some]

theorem readValue_array (fuel : ℕ) (text : List UInt8) : readValue (fuel + 1) (91 :: text) = readArray fuel text :=
  rfl

theorem readValue_object (fuel : ℕ) (text : List UInt8) :
    readValue (fuel + 1) (123 :: text) = readObject fuel text :=
  rfl

/-- **An array**, of texts which denote its items. -/
theorem denotes_array {texts : List (List UInt8)} {vs : List Json} (h : List.Forall₂ Denotes texts vs) :
    Denotes (91 :: (commas texts ++ [93])) (array vs) := by
  refine ⟨⟨91, _, rfl, rfl, by decide⟩, fun fuel rest hfuel _ => ?_⟩
  cases fuel with
  | zero => simp at hfuel
  | succ fuel =>
    rw [List.cons_append, List.append_assoc, List.singleton_append, readValue_array, readArray]
    cases h with
    | nil => rfl
    | @cons t v texts vs ht htexts =>
      obtain ⟨b, tail, rfl, hblank, hend⟩ := ht.starts
      have hitems := readItems_commas (.cons ht htexts) (List.cons_ne_nil _ _) fuel rest (by
        simp only [List.length_cons, List.length_append] at hfuel
        omega)
      obtain ⟨tail', htail⟩ : ∃ tail', commas ((b :: tail) :: texts) ++ 93 :: rest = b :: tail' := by
        cases texts with
        | nil => exact ⟨_, rfl⟩
        | cons u texts => exact ⟨_, rfl⟩
      rw [htail] at hitems ⊢
      rw [skipBlanks_cons hblank]
      split
      · rename_i heq
        exact absurd (List.cons.inj heq).1 hend
      · rw [hitems]
        rfl

theorem readMembers_commas {texts : List (List UInt8)} {ms : List (List UInt8 × Json)}
    (h : List.Forall₂ DenotesMember texts ms) (hne : texts ≠ []) (fuel : ℕ) (rest : List UInt8)
    (hfuel : 2 * (commas texts).length + 1 ≤ fuel) :
    readMembers fuel (commas texts ++ 125 :: rest) = some (ms, rest) := by
  induction h generalizing fuel with
  | nil => exact absurd rfl hne
  | @cons t m texts ms ht htexts ih =>
    obtain ⟨literal, value, rfl, ⟨body, rfl, hname⟩, hdenotes⟩ := ht
    cases fuel with
    | zero => omega
    | succ fuel =>
      cases htexts with
      | nil =>
        have hvalue := hdenotes.reads fuel (125 :: rest)
          (by simp only [commas, List.length_append, List.length_cons] at hfuel; omega)
          (ends_cons (Or.inr (Or.inr rfl)) _)
        have hstring := hname ((body ++ 58 :: (value ++ 125 :: rest)).length + 1) (58 :: (value ++ 125 :: rest))
          (by rw [List.length_append]; omega)
        rw [commas, readMembers]
        simp only [List.cons_append, List.append_assoc, skipBlanks_cons (show isBlank 34 = false from rfl), hstring,
          skipBlanks_cons (show isBlank 58 = false from rfl), hvalue,
            skipBlanks_cons (show isBlank 125 = false from rfl)]
      | @cons u w texts ms hu htexts =>
        have hlen : (commas ((34 :: body ++ 58 :: value) :: u :: texts)).length =
            body.length + value.length + 3 + (commas (u :: texts)).length := by
          rw [commas]
          simp only [List.length_append, List.length_cons]
          omega
        have hvalue := hdenotes.reads fuel (44 :: (commas (u :: texts) ++ 125 :: rest)) (by omega)
          (ends_cons (Or.inl rfl) _)
        have hmembers := ih (List.cons_ne_nil _ _) fuel (by omega)
        have hstring := hname ((body ++ 58 :: (value ++ 44 :: (commas (u :: texts) ++ 125 :: rest))).length + 1)
          (58 :: (value ++ 44 :: (commas (u :: texts) ++ 125 :: rest))) (by rw [List.length_append]; omega)
        rw [commas, readMembers]
        simp only [List.cons_append, List.append_assoc, skipBlanks_cons (show isBlank 34 = false from rfl), hstring,
          skipBlanks_cons (show isBlank 58 = false from rfl), hvalue,
            skipBlanks_cons (show isBlank 44 = false from rfl),
          hmembers, Option.map_some]

/-- **An object**, of texts which denote its members. -/
theorem denotes_object {texts : List (List UInt8)} {ms : List (List UInt8 × Json)}
    (h : List.Forall₂ DenotesMember texts ms) : Denotes (123 :: (commas texts ++ [125])) (object ms) := by
  refine ⟨⟨123, _, rfl, rfl, by decide⟩, fun fuel rest hfuel _ => ?_⟩
  cases fuel with
  | zero => simp at hfuel
  | succ fuel =>
    rw [List.cons_append, List.append_assoc, List.singleton_append, readValue_object, readObject]
    cases h with
    | nil => rfl
    | @cons t m texts ms ht htexts =>
      have hmembers := readMembers_commas (.cons ht htexts) (List.cons_ne_nil _ _) fuel rest (by
        simp only [List.length_cons, List.length_append] at hfuel
        omega)
      obtain ⟨literal, value, rfl, ⟨body, rfl, -⟩, -⟩ := ht
      obtain ⟨tail', htail⟩ : ∃ tail', commas ((34 :: body ++ 58 :: value) :: texts) ++ 125 :: rest = 34 :: tail' := by
        cases texts with
        | nil => exact ⟨_, rfl⟩
        | cons u texts => exact ⟨_, rfl⟩
      rw [htail] at hmembers ⊢
      rw [skipBlanks_cons (show isBlank 34 = false from rfl)]
      split
      · rename_i heq
        exact absurd (List.cons.inj heq).1 (by decide)
      · rw [hmembers]
        rfl

/-- **A text which denotes a value is parsed as this value.** -/
theorem parse_of_denotes {text : List UInt8} {v : Json} (h : Denotes text v) : parse text = some v := by
  have hread := h.reads (2 * text.length + 1) [] (by omega) ends_nil
  rw [List.append_nil] at hread
  unfold parse
  rw [hread]
  rfl

end Json

end DominoLogForwarder
