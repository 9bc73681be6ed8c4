/-
Writing JSON: texts which are one line, in UTF-8, and denote a value.

A writer escapes the bytes of a string one by one. `Escapes` is what the parser has to make of one of them, and
`quoted_flatMap` is the string. `escapeByte` is the way in which most writers do it. `Renders text v` is a text which
denotes `v`, has no control character and is well-formed UTF-8. The rules put larger texts together.

`Distinct` values have no name twice in an object, at any depth.
-/
import DominoLogForwarder.Lib.JsonText
import DominoLogForwarder.Lib.Utf8
import Mathlib.Data.Bool.AllAny

namespace DominoLogForwarder

namespace Json

open Decimal

/-! ## Strings -/

/-- the parser makes the byte `c` of the text -/
def Escapes (text : List UInt8) (c : UInt8) : Prop :=
  ∀ fuel rest, readString (fuel + 1) (text ++ rest) = (readString fuel rest).map fun r => (c :: r.1, r.2)

/-- a byte which needs no escape -/
theorem escapes_self {c : UInt8} (hquote : c ≠ 34) (hslash : c ≠ 92) (hcontrol : 32 ≤ c) : Escapes [c] c := by
  intro fuel rest
  rw [List.singleton_append, readString, if_neg hquote, if_neg hslash, if_neg (UInt8.not_lt.2 hcontrol)]

theorem escapes_of_readEscape {text : List UInt8} {c : UInt8}
    (h : ∀ rest, readEscape (text ++ rest) = some ([c], rest)) : Escapes (92 :: text) c := by
  intro fuel rest
  rw [List.cons_append, readString, if_neg (by decide), if_pos rfl, h]
  rfl

theorem quoted_flatMap {escape : UInt8 → List UInt8} {text : List UInt8} (h : ∀ c ∈ text, Escapes (escape c) c)
    (hlen : ∀ c ∈ text, escape c ≠ []) : Quoted (34 :: (text.flatMap escape ++ [34])) text := by
  refine ⟨text.flatMap escape ++ [34], rfl, ?_⟩
  induction text with
  | nil =>
    intro fuel rest hfuel
    cases fuel with
    | zero => simp at hfuel
    | succ fuel => rfl
  | cons c text ih =>
    intro fuel rest hfuel
    rw [List.forall_mem_cons] at h hlen
    have hpos := List.length_pos_iff.2 hlen.1
    rw [List.flatMap_cons, List.append_assoc, List.length_append] at hfuel
    cases fuel with
    | zero => omega
    | succ fuel =>
      have hread := ih h.2 hlen.2 fuel rest (by omega)
      rw [List.flatMap_cons, List.append_assoc, List.append_assoc, h.1, ← List.append_assoc, hread]
      rfl

/-- no quote, no backslash and no control character -/
def Plain (text : List UInt8) : Prop := ∀ b ∈ text, b ≠ 34 ∧ b ≠ 92 ∧ 32 ≤ b

instance (text : List UInt8) : Decidable (Plain text) :=
  decidable_of_iff ((text.all fun b => decide (b ≠ 34 ∧ b ≠ 92 ∧ 32 ≤ b)) = true) List.all_iff_forall_prop

theorem quoted_plain {text : List UInt8} (h : Plain text) : Quoted (34 :: (text ++ [34])) text := by
  have hself : ∀ c ∈ text, Escapes ((fun b : UInt8 => [b]) c) c := fun c hc =>
    escapes_self (h c hc).1 (h c hc).2.1 (h c hc).2.2
  have hquoted := quoted_flatMap hself fun c _ => List.cons_ne_nil c []
  rwa [List.flatMap_singleton'] at hquoted

/-! ### The escape of a byte -/

/-- `"`, `\` and the control characters are escaped, with the given hexadecimal digits -/
def escapeByte (hexDigit : UInt8 → UInt8) (c : UInt8) : List UInt8 :=
  if c = 34 then [92, 34]
  else if c = 92 then [92, 92]
  else if c = 8 then [92, 98]
  else if c = 12 then [92, 102]
  else if c = 10 then [92, 110]
  else if c = 13 then [92, 114]
  else if c = 9 then [92, 116]
  else if c < 0x20 then [92, 117, 48, 48, hexDigit (c / 16), hexDigit (c % 16)]
  else [c]

/-- a hexadecimal digit in ASCII, with small letters or capital ones -/
def HexDigits (hexDigit : UInt8 → UInt8) : Prop :=
  ∀ n < 16, hexDigit? (hexDigit n) = some n.toNat ∧ 32 ≤ hexDigit n ∧ hexDigit n < 0x80

section EscapeByte

variable {hexDigit : UInt8 → UInt8}

theorem readUnicode_hex (h : HexDigits hexDigit) {c : UInt8} (hc : c < 0x20) (rest : List UInt8) :
    readUnicode ([48, 48, hexDigit (c / 16), hexDigit (c % 16)] ++ rest) = some ([c], rest) := by
  have hlt : c.toNat < 32 := UInt8.lt_iff_toNat_lt.1 hc
  have hhigh : (c / 16).toNat = c.toNat / 16 := UInt8.toNat_div _ _
  have hlow : (c % 16).toNat = c.toNat % 16 := UInt8.toNat_mod _ _
  have hdigit := (h (c / 16) (UInt8.lt_iff_toNat_lt.2 (by rw [hhigh]; exact (by omega : c.toNat / 16 < 16)))).1
  have hdigit' := (h (c % 16) (UInt8.lt_iff_toNat_lt.2 (by rw [hlow]; exact Nat.mod_lt _ (by decide)))).1
  have hread : readHex4 ([48, 48, hexDigit (c / 16), hexDigit (c % 16)] ++ rest) = some (c.toNat, rest) := by
    have hzero : hexDigit? 48 = some 0 := rfl
    simp only [List.cons_append, List.nil_append, readHex4, hzero, hdigit, hdigit', hhigh, hlow, Option.bind_eq_bind,
      Option.bind_some, Option.pure_def, Option.some.injEq, Prod.mk.injEq, and_true]
    omega
  unfold readUnicode
  rw [hread]
  dsimp only
  rw [if_neg (by omega), if_neg (by omega), encodePoint, if_pos (by omega), Nat.toUInt8_eq, UInt8.ofNat_toNat]

theorem escapes_escapeByte (h : HexDigits hexDigit) (c : UInt8) : Escapes (escapeByte hexDigit c) c := by
  unfold escapeByte
  split_ifs with h34 h92 h8 h12 h10 h13 h9 hcontrol
  · subst h34
    exact escapes_of_readEscape fun _ => rfl
  · subst h92
    exact escapes_of_readEscape fun _ => rfl
  · subst h8
    exact escapes_of_readEscape fun _ => rfl
  · subst h12
    exact escapes_of_readEscape fun _ => rfl
  · subst h10
    exact escapes_of_readEscape fun _ => rfl
  · subst h13
    exact escapes_of_readEscape fun _ => rfl
  · subst h9
    exact escapes_of_readEscape fun _ => rfl
  · exact escapes_of_readEscape (readUnicode_hex h hcontrol)
  · exact escapes_self h34 h92 (UInt8.not_lt.1 hcontrol)

theorem escapeByte_ne_nil (c : UInt8) : escapeByte hexDigit c ≠ [] := by
  unfold escapeByte
  split_ifs <;> exact List.cons_ne_nil _ _

theorem quoted_escapeByte (h : HexDigits hexDigit) (text : List UInt8) :
    Quoted (34 :: (text.flatMap (escapeByte hexDigit) ++ [34])) text :=
  quoted_flatMap (fun c _ => escapes_escapeByte h c) fun c _ => escapeByte_ne_nil c

theorem escapeByte_ascii (h : HexDigits hexDigit) {c : UInt8} (hc : c < 0x80) :
    ∀ b ∈ escapeByte hexDigit c, 32 ≤ b ∧ b < 0x80 := by
  unfold escapeByte
  have hpair : ∀ a : UInt8, 32 ≤ a ∧ a < 0x80 → ∀ b ∈ [92, a], 32 ≤ b ∧ b < 0x80 := fun a ha =>
    List.forall_mem_cons.2 ⟨by decide, List.forall_mem_singleton.2 ha⟩
  split_ifs with h34 h92 h8 h12 h10 h13 h9 hcontrol
  iterate 7 exact hpair _ (by decide)
  · have hlt : c.toNat < 32 := UInt8.lt_iff_toNat_lt.1 hcontrol
    have hhigh := h (c / 16) (UInt8.lt_iff_toNat_lt.2 (by
      rw [UInt8.toNat_div]
      exact (by omega : c.toNat / 16 < 16)))
    have hlow := h (c % 16) (UInt8.lt_iff_toNat_lt.2 (by
      rw [UInt8.toNat_mod]
      exact Nat.mod_lt _ (by decide)))
    intro b hb
    simp only [List.mem_cons, List.not_mem_nil, or_false] at hb
    rcases hb with rfl | rfl | rfl | rfl | rfl | rfl
    iterate 4 decide
    · exact hhigh.2
    · exact hlow.2
  · exact List.forall_mem_singleton.2 ⟨UInt8.not_lt.1 hcontrol, hc⟩

theorem escapeByte_other {c : UInt8} (h : 0x80 ≤ c) : escapeByte hexDigit c = [c] := by
  have hne : ∀ b : UInt8, b < 0x80 → c ≠ b := by
    rintro b hb rfl
    exact absurd hb (UInt8.not_lt.2 h)
  have hcontrol : ¬c < 0x20 := UInt8.not_lt.2 (UInt8.le_trans (by decide) h)
  unfold escapeByte
  rw [if_neg (hne 34 (by decide)), if_neg (hne 92 (by decide)), if_neg (hne 8 (by decide)), if_neg (hne 12 (by decide)),
    if_neg (hne 10 (by decide)), if_neg (hne 13 (by decide)), if_neg (hne 9 (by decide)), if_neg hcontrol]

/-- no control character is left -/
theorem printable_escapeByte (h : HexDigits hexDigit) (text : List UInt8) :
    ∀ b ∈ text.flatMap (escapeByte hexDigit), 32 ≤ b := by
  intro b hb
  obtain ⟨c, -, hc⟩ := List.mem_flatMap.1 hb
  by_cases hlow : c < 0x80
  · exact (escapeByte_ascii h hlow b hc).1
  · have hhigh := UInt8.not_lt.1 hlow
    rw [escapeByte_other hhigh, List.mem_singleton] at hc
    exact hc ▸ UInt8.le_trans (by decide) hhigh

end EscapeByte

end Json

end DominoLogForwarder

namespace Utf8

/-! ## Well-formed texts -/

theorem wellFormed_nil : WellFormed [] := ⟨[], rfl⟩

theorem WellFormed.append {a b : List UInt8} (ha : WellFormed a) (hb : WellFormed b) : WellFormed (a ++ b) := by
  obtain ⟨cs, rfl⟩ := ha
  obtain ⟨ds, rfl⟩ := hb
  exact ⟨cs ++ ds, List.flatMap_append.symm⟩

theorem wellFormed_flatMap {α : Type} {f : α → List UInt8} {l : List α} (h : ∀ a ∈ l, WellFormed (f a)) :
    WellFormed (l.flatMap f) := by
  induction l with
  | nil => exact wellFormed_nil
  | cons a l ih =>
    rw [List.forall_mem_cons] at h
    rw [List.flatMap_cons]
    exact h.1.append (ih h.2)

theorem wellFormed_encode (c : Char) : WellFormed (encode c) := ⟨[c], (List.flatMap_singleton _ _).symm⟩

/-- ASCII -/
theorem wellFormed_ascii {text : List UInt8} (h : ∀ b ∈ text, b < 0x80) : WellFormed text := by
  have hbyte : ∀ b ∈ text, WellFormed [b] := by
    intro b hb
    have hsize : IsChar [b] := size_eq_one.2 (h b hb)
    obtain ⟨c, hc⟩ := exists_encode hsize
    rw [← hc]
    exact wellFormed_encode c
  have hflat := wellFormed_flatMap hbyte
  rwa [List.flatMap_singleton'] at hflat

/-- the same for a text which is evaluated -/
theorem wellFormed_of_all {text : List UInt8} (h : (text.all fun b => decide (b < 0x80)) = true) : WellFormed text :=
  wellFormed_ascii (List.all_iff_forall_prop.1 h)

/-- the bytes of a character are one byte of ASCII, or none of them is ASCII -/
theorem encode_ascii (c : Char) : (∃ b, encode c = [b] ∧ b < 0x80) ∨ ∀ b ∈ encode c, 0x80 ≤ b := by
  have hchar := isChar_encode c
  obtain ⟨a, tail, heq, hsize, -, htail⟩ := isChar_cons hchar
  by_cases ha : a.toNat < 0x80
  · left
    have hone := size_eq_one.2 ha
    rw [heq, List.length_cons] at hsize
    obtain rfl : tail = [] := List.length_eq_zero_iff.1 (by omega)
    exact ⟨a, heq, UInt8.lt_iff_toNat_lt.2 ha⟩
  · right
    rw [heq]
    refine List.forall_mem_cons.2 ⟨UInt8.le_iff_toNat_le.2 (not_lt.1 ha), fun b hb => ?_⟩
    exact UInt8.le_iff_toNat_le.2 (htail b hb).1

/-- what only changes ASCII, and into ASCII, keeps a text well-formed -/
theorem WellFormed.flatMap {text : List UInt8} (h : WellFormed text) {f : UInt8 → List UInt8}
    (hascii : ∀ b < 0x80, ∀ x ∈ f b, x < 0x80) (hother : ∀ b, 0x80 ≤ b → f b = [b]) : WellFormed (text.flatMap f) := by
  obtain ⟨cs, rfl⟩ := h
  rw [List.flatMap_assoc]
  refine wellFormed_flatMap fun c _ => ?_
  rcases encode_ascii c with ⟨b, heq, hb⟩ | hhigh
  · rw [heq, List.flatMap_singleton]
    exact wellFormed_ascii (hascii b hb)
  · have hsame : (encode c).flatMap f = (encode c).flatMap fun b => [b] :=
      List.flatMap_congr fun b hb => hother b (hhigh b hb)
    rw [hsame, List.flatMap_singleton']
    exact wellFormed_encode c

end Utf8

namespace DominoLogForwarder.Json

open Utf8 (WellFormed)

/-! ## Texts of one line -/

/-- well-formed, and without a control character -/
structure Clean (text : List UInt8) : Prop where
  utf8 : WellFormed text
  printable : ∀ b ∈ text, 32 ≤ b

theorem clean_nil : Clean [] := ⟨Utf8.wellFormed_nil, fun _ h => absurd h List.not_mem_nil⟩

theorem Clean.append {a b : List UInt8} (ha : Clean a) (hb : Clean b) : Clean (a ++ b) :=
  ⟨ha.utf8.append hb.utf8, List.forall_mem_append.2 ⟨ha.printable, hb.printable⟩⟩

theorem clean_ascii {text : List UInt8} (h : ∀ b ∈ text, 32 ≤ b ∧ b < 0x80) : Clean text :=
  ⟨Utf8.wellFormed_ascii fun b hb => (h b hb).2, fun b hb => (h b hb).1⟩

theorem clean_of_all {text : List UInt8} (h : (text.all fun b => decide (32 ≤ b ∧ b < 0x80)) = true) : Clean text :=
  clean_ascii (List.all_iff_forall_prop.1 h)

theorem Clean.cons {b : UInt8} {text : List UInt8} (hb : 32 ≤ b ∧ b < 0x80) (h : Clean text) :
    Clean (b :: text) := by
  have hone : Clean [b] := clean_ascii (List.forall_mem_singleton.2 hb)
  exact hone.append h

theorem clean_escapeByte {hexDigit : UInt8 → UInt8} (h : HexDigits hexDigit) {text : List UInt8}
    (hutf8 : WellFormed text) : Clean (34 :: (text.flatMap (escapeByte hexDigit) ++ [34])) := by
  refine .cons (by decide) (.append ⟨?_, printable_escapeByte h text⟩ (clean_ascii ?_))
  · exact hutf8.flatMap (fun b hb x hx => (escapeByte_ascii h hb x hx).2) fun b hb => escapeByte_other hb
  · exact List.forall_mem_singleton.2 (by decide)

theorem clean_commas {texts : List (List UInt8)} (h : ∀ t ∈ texts, Clean t) : Clean (commas texts) := by
  induction texts with
  | nil => exact clean_nil
  | cons t texts ih =>
    rw [List.forall_mem_cons] at h
    cases texts with
    | nil => exact h.1
    | cons u texts => exact h.1.append (.cons (by decide) (ih h.2))

/-! ## The rules -/

structure Renders (text : List UInt8) (v : Json) : Prop where
  denotes : Denotes text v
  clean : Clean text

structure RendersMember (text : List UInt8) (member : List UInt8 × Json) : Prop where
  denotes : DenotesMember text member
  clean : Clean text

theorem renders_string {literal text : List UInt8} (h : Quoted literal text) (hclean : Clean literal) :
    Renders literal (string text) :=
  ⟨denotes_string h, hclean⟩

theorem rendersMember_mk {literal name value : List UInt8} {v : Json} (hname : Quoted literal name)
    (hclean : Clean literal) (h : Renders value v) : RendersMember (literal ++ 58 :: value) (name, v) :=
  ⟨⟨literal, value, rfl, hname, h.denotes⟩, hclean.append (.cons (by decide) h.clean)⟩

theorem clean_of_forall₂ {α : Type} {R : List UInt8 → α → Prop} {texts : List (List UInt8)} {vs : List α}
    (h : List.Forall₂ R texts vs) (hclean : ∀ t v, R t v → Clean t) : ∀ t ∈ texts, Clean t := by
  induction h with
  | nil => exact fun _ h => absurd h List.not_mem_nil
  | cons ht _ ih => exact List.forall_mem_cons.2 ⟨hclean _ _ ht, ih⟩

theorem renders_array {texts : List (List UInt8)} {vs : List Json} (h : List.Forall₂ Renders texts vs) :
    Renders (91 :: (commas texts ++ [93])) (array vs) := by
  refine ⟨denotes_array (h.imp fun _ _ ht => ht.denotes), .cons (by decide) (.append (clean_commas ?_) ?_)⟩
  · exact clean_of_forall₂ h fun _ _ ht => ht.clean
  · exact clean_ascii (List.forall_mem_singleton.2 (by decide))

theorem renders_object {texts : List (List UInt8)} {ms : List (List UInt8 × Json)}
    (h : List.Forall₂ RendersMember texts ms) : Renders (123 :: (commas texts ++ [125])) (object ms) := by
  refine ⟨denotes_object (h.imp fun _ _ ht => ht.denotes), .cons (by decide) (.append (clean_commas ?_) ?_)⟩
  · exact clean_of_forall₂ h fun _ _ ht => ht.clean
  · exact clean_ascii (List.forall_mem_singleton.2 (by decide))

/-! ## Names -/

/-- no object has a name twice -/
inductive Distinct : Json → Prop where
  | null : Distinct null
  | bool (b : Bool) : Distinct (bool b)
  | int (n : JsonInt) : Distinct (int n)
  | double (d : Double) : Distinct (double d)
  | string (text : List UInt8) : Distinct (string text)
  | array {items : List Json} (h : ∀ j ∈ items, Distinct j) : Distinct (array items)
  | object {members : List (List UInt8 × Json)} (nodup : (members.map Prod.fst).Nodup)
      (h : ∀ m ∈ members, Distinct m.2) : Distinct (object members)

end DominoLogForwarder.Json
