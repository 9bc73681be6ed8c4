/-
A writer of JSON without blanks. How strings are escaped and how numbers are printed is given by a `Printer`.

`text_denotes`: the parser reads the value back when it reads the numbers back. `text_printable`: the text is one line.
-/
import DominoLogForwarder.Lib.JsonWrite

namespace DominoLogForwarder.Json

structure Printer where
  hexDigit : UInt8 → UInt8
  int : JsonInt → List UInt8
  double : Double → List UInt8

/-- every double of the value is one of those -/
inductive Doubles (P : Double → Prop) : Json → Prop where
  | null : Doubles P null
  | bool (b : Bool) : Doubles P (bool b)
  | int (n : JsonInt) : Doubles P (int n)
  | double {d : Double} (h : P d) : Doubles P (double d)
  | string (text : List UInt8) : Doubles P (string text)
  | array {items : List Json} (h : ∀ j ∈ items, Doubles P j) : Doubles P (array items)
  | object {members : List (List UInt8 × Json)} (h : ∀ m ∈ members, Doubles P m.2) : Doubles P (object members)

namespace Printer

variable (p : Printer)

def string (text : List UInt8) : List UInt8 := 34 :: (text.flatMap (escapeByte p.hexDigit) ++ [34])

mutual

def text : Json → List UInt8
  | .null => [110, 117, 108, 108]
  | .bool true => [116, 114, 117, 101]
  | .bool false => [102, 97, 108, 115, 101]
  | .int n => p.int n
  | .double d => p.double d
  | .string s => p.string s
  | .array items => 91 :: (commas (itemTexts items) ++ [93])
  | .object members => 123 :: (commas (memberTexts members) ++ [125])

def itemTexts : List Json → List (List UInt8)
  | [] => []
  | v :: vs => text v :: itemTexts vs

def memberText : List UInt8 × Json → List UInt8
  | (name, v) => p.string name ++ 58 :: text v

def memberTexts : List (List UInt8 × Json) → List (List UInt8)
  | [] => []
  | m :: ms => memberText m :: memberTexts ms

end

/-- the parser reads the numbers back, and they are printable -/
structure Sound (P : Double → Prop) : Prop where
  hexDigit : HexDigits p.hexDigit
  int : ∀ n, Denotes (p.int n) (.int n) ∧ ∀ b ∈ p.int n, 32 ≤ b
  double : ∀ d, P d → Denotes (p.double d) (.double d) ∧ ∀ b ∈ p.double d, 32 ≤ b

variable {p} {P : Double → Prop}

theorem itemTexts_denotes {vs : List Json} (h : ∀ v ∈ vs, Denotes (p.text v) v) :
    List.Forall₂ Denotes (p.itemTexts vs) vs := by
  induction vs with
  | nil => exact .nil
  | cons v vs ih =>
    rw [List.forall_mem_cons] at h
    exact .cons h.1 (ih h.2)

theorem memberTexts_denotes (hp : HexDigits p.hexDigit) {ms : List (List UInt8 × Json)}
    (h : ∀ m ∈ ms, Denotes (p.text m.2) m.2) : List.Forall₂ DenotesMember (p.memberTexts ms) ms := by
  induction ms with
  | nil => exact .nil
  | cons m ms ih =>
    obtain ⟨name, v⟩ := m
    rw [List.forall_mem_cons] at h
    exact .cons ⟨p.string name, p.text v, rfl, quoted_escapeByte hp name, h.1⟩ (ih h.2)

theorem denotes_null : Denotes [110, 117, 108, 108] null := by
  refine ⟨⟨_, _, rfl, rfl, by decide⟩, fun fuel rest hfuel _ => ?_⟩
  cases fuel with
  | zero => simp at hfuel
  | succ fuel => simp [readValue, skipBlanks, isBlank]

/-- **The parser reads back what is written**, also where the text stands in a larger one. -/
theorem text_denotes (hp : p.Sound P) {v : Json} (h : v.Doubles P) : Denotes (p.text v) v := by
  induction h with
  | null => exact denotes_null
  | bool b =>
    cases b with
    | true => exact denotes_true
    | false => exact denotes_false
  | int n => exact (hp.int n).1
  | double hd => exact (hp.double _ hd).1
  | string s => exact denotes_string (quoted_escapeByte hp.hexDigit s)
  | array _ ih => exact denotes_array (itemTexts_denotes ih)
  | object _ ih => exact denotes_object (memberTexts_denotes hp.hexDigit ih)

theorem printable_commas {texts : List (List UInt8)} (h : ∀ t ∈ texts, ∀ b ∈ t, 32 ≤ b) :
    ∀ b ∈ commas texts, (32 : UInt8) ≤ b := by
  induction texts with
  | nil => exact fun _ h => absurd h List.not_mem_nil
  | cons t texts ih =>
    rw [List.forall_mem_cons] at h
    cases texts with
    | nil => exact h.1
    | cons u texts => exact List.forall_mem_append.2 ⟨h.1, List.forall_mem_cons.2 ⟨by decide, ih h.2⟩⟩

/-- a text between brackets -/
theorem printable_between {text : List UInt8} (h : ∀ b ∈ text, 32 ≤ b) {a z : UInt8} (ha : 32 ≤ a) (hz : 32 ≤ z) :
    ∀ b ∈ a :: (text ++ [z]), 32 ≤ b :=
  List.forall_mem_cons.2 ⟨ha, List.forall_mem_append.2 ⟨h, List.forall_mem_singleton.2 hz⟩⟩

theorem printable_string (hp : HexDigits p.hexDigit) (s : List UInt8) : ∀ b ∈ p.string s, 32 ≤ b :=
  printable_between (printable_escapeByte hp s) (by decide) (by decide)

theorem printable_items {vs : List Json} (h : ∀ v ∈ vs, ∀ b ∈ p.text v, 32 ≤ b) :
    ∀ t ∈ p.itemTexts vs, ∀ b ∈ t, 32 ≤ b := by
  induction vs with
  | nil => exact fun _ h => absurd h List.not_mem_nil
  | cons v vs ih =>
    rw [List.forall_mem_cons] at h
    exact List.forall_mem_cons.2 ⟨h.1, ih h.2⟩

theorem printable_members (hp : HexDigits p.hexDigit) {ms : List (List UInt8 × Json)}
    (h : ∀ m ∈ ms, ∀ b ∈ p.text m.2, 32 ≤ b) : ∀ t ∈ p.memberTexts ms, ∀ b ∈ t, 32 ≤ b := by
  induction ms with
  | nil => exact fun _ h => absurd h List.not_mem_nil
  | cons m ms ih =>
    obtain ⟨name, v⟩ := m
    rw [List.forall_mem_cons] at h
    have hcolon : (32 : UInt8) ≤ 58 := by decide
    have hvalue : ∀ b ∈ 58 :: p.text v, 32 ≤ b := List.forall_mem_cons.2 ⟨hcolon, h.1⟩
    exact List.forall_mem_cons.2 ⟨List.forall_mem_append.2 ⟨printable_string hp name, hvalue⟩, ih h.2⟩

/-- **What is written is one line.** -/
theorem text_printable (hp : p.Sound P) {v : Json} (h : v.Doubles P) : ∀ b ∈ p.text v, 32 ≤ b := by
  induction h with
  | null =>
    rw [text]
    exact List.all_iff_forall_prop.1 (by decide)
  | bool b =>
    cases b
    all_goals
      rw [text]
      exact List.all_iff_forall_prop.1 (by decide)
  | int n => exact (hp.int n).2
  | double hd => exact (hp.double _ hd).2
  | string s => exact printable_string hp.hexDigit s
  | array _ ih => exact printable_between (printable_commas (printable_items ih)) (by decide) (by decide)
  | object _ ih =>
    exact printable_between (printable_commas (printable_members hp.hexDigit ih)) (by decide) (by decide)

end Printer

end DominoLogForwarder.Json
