/-
A JSON library for the program: the parser of `Lib/JsonText.lean`, and a writer which prints integers in decimal. The
documents of the program have no double, so it prints none.

`Standard` is what the program needs from its library.
-/
import DominoLogForwarder.FileReader.StateFile
import DominoLogForwarder.Lib.JsonCompact
import DominoLogForwarder.Otelfwd.Inputs

namespace DominoLogForwarder.Otelfwd

open Decimal (Numeral)
open FileReader (Bytes decimal)
open Json (Denotes)

/-! ## Integers -/

def intDigits (n : ℤ) : Bytes := if n < 0 then 45 :: decimal n.natAbs else decimal n.natAbs

/-- no quote, no backslash, and printable ASCII -/
theorem printable_digit {b : UInt8} (h : Decimal.isDigit b = true) : b ≠ 34 ∧ b ≠ 92 ∧ 32 ≤ b ∧ b < 0x80 := by
  simp only [Decimal.isDigit, Bool.and_eq_true, decide_eq_true_eq, UInt8.le_iff_toNat_le] at h
  simp only [ne_eq, ← UInt8.toNat_inj, UInt8.le_iff_toNat_le, UInt8.lt_iff_toNat_lt]
  have hlow : 48 ≤ b.toNat := h.1
  have hhigh : b.toNat ≤ 57 := h.2
  refine ⟨?_, ?_, ?_, ?_⟩ <;> simp <;> omega

theorem printable_intDigits (n : ℤ) : ∀ b ∈ intDigits n, b ≠ 34 ∧ b ≠ 92 ∧ 32 ≤ b ∧ b < 0x80 := by
  have hdecimal : ∀ b ∈ decimal n.natAbs, b ≠ 34 ∧ b ≠ 92 ∧ 32 ≤ b ∧ b < 0x80 :=
    fun b hb => printable_digit (FileReader.isDigit_of_mem_decimal hb)
  unfold intDigits
  split_ifs
  · exact List.forall_mem_cons.2 ⟨by decide, hdecimal⟩
  · exact hdecimal

/-- no zero in front -/
theorem decimal_head {n : ℕ} (h : (decimal n).head? = some 48) : decimal n = [48] := by
  unfold decimal at h ⊢
  split_ifs at h ⊢ with h0
  · rfl
  · exfalso
    rw [List.head?_reverse, List.getLast?_map, Option.map_eq_some_iff] at h
    obtain ⟨d, hd, hzero⟩ := h
    have hne := Nat.digits_ne_nil_iff_ne_zero (b := 10) |>.2 h0
    have hlast := Nat.getLast_digit_ne_zero 10 h0
    rw [List.getLast?_eq_some_getLast hne, Option.some.injEq] at hd
    rw [hd] at hlast
    have hlt : d < 10 := Nat.digits_lt_base (b := 10) (by decide) (hd ▸ List.getLast_mem hne)
    have hval := FileReader.digit_toNat hlt
    rw [hzero] at hval
    have h48 : (48 : UInt8).toNat = 48 := rfl
    omega

def intNumeral (n : ℤ) : Numeral := { negative := n < 0, whole := decimal n.natAbs }

theorem intNumeral_text (n : ℤ) : (intNumeral n).text = intDigits n := by
  unfold intNumeral intDigits Numeral.text Numeral.tail
  by_cases h : n < 0 <;> simp [h]

theorem intNumeral_valid (n : ℤ) : (intNumeral n).Valid where
  whole := ⟨FileReader.decimal_ne_nil _, fun _ hb => FileReader.isDigit_of_mem_decimal hb⟩
  no_zero := decimal_head
  fraction := fun _ h => absurd h List.not_mem_nil
  exponent := fun _ h => by cases h

theorem denotes_intDigits (n : JsonInt) : Denotes (intDigits n.value) (.int n) := by
  have hvalue : (if (intNumeral n.value).negative then -(Decimal.number (intNumeral n.value).whole : ℤ)
      else Decimal.number (intNumeral n.value).whole) = n.value := by
    have hnumber : Decimal.number (intNumeral n.value).whole = n.value.natAbs := FileReader.number_decimal _
    rw [hnumber]
    by_cases h : n.value < 0
    · simp only [intNumeral, h, decide_true, if_true]
      omega
    · simp only [intNumeral, h, decide_false, Bool.false_eq_true, if_false]
      omega
  have hofNumeral : Json.ofNumeral (intNumeral n.value) = some (.int n) := by
    unfold Json.ofNumeral
    rw [if_pos ⟨rfl, rfl⟩, hvalue]
    unfold Json.ofInteger
    rw [dif_pos ⟨n.le_value, n.value_lt⟩]
  have hdenotes := Json.denotes_numeral (intNumeral_valid n.value) hofNumeral
  rwa [intNumeral_text] at hdenotes

/-! ## The library -/

/-- a document of the program -/
def NoDouble (doc : Json) : Prop := doc.Doubles fun _ => False

def printer : Json.Printer where
  hexDigit n := if n < 10 then 48 + n else 55 + n
  int n := intDigits n.value
  double _ := []

theorem sound_printer : printer.Sound fun _ => False where
  hexDigit := by
    have hall : ∀ n < 16, Json.hexDigit? (printer.hexDigit (UInt8.ofNat n)) = some n ∧
        32 ≤ printer.hexDigit (UInt8.ofNat n) ∧ printer.hexDigit (UInt8.ofNat n) < 0x80 := by
      decide +kernel
    intro n hn
    have hdigit := hall n.toNat (UInt8.lt_iff_toNat_lt.1 hn)
    rwa [UInt8.ofNat_toNat] at hdigit
  int := fun n => ⟨denotes_intDigits n, fun b hb => (printable_intDigits n.value b hb).2.2.1⟩
  double := fun _ h => h.elim

/-- what the program needs from its library -/
structure JsonLib.Standard (lib : JsonLib) : Prop where
  /-- a document is written without blanks -/
  writes : ∀ doc, NoDouble doc → lib.write doc = printer.text doc
  reads : ∀ text doc, NoDouble doc → Json.parse text = some doc → lib.parse text = .ok doc
  /-- what is read is JSON -/
  sound : ∀ text doc, lib.parse text = .ok doc → (Json.parse text).isSome = true

section Standard

variable {lib : JsonLib} {doc : Json}

theorem JsonLib.Standard.denotes (h : lib.Standard) (hdoc : NoDouble doc) : Denotes (lib.write doc) doc := by
  rw [h.writes doc hdoc]
  exact Json.Printer.text_denotes sound_printer hdoc

/-- what is written is read back -/
theorem JsonLib.Standard.parse_write (h : lib.Standard) (hdoc : NoDouble doc) :
    lib.parse (lib.write doc) = .ok doc :=
  h.reads _ doc hdoc (Json.parse_of_denotes (h.denotes hdoc))

/-- what is written is one line -/
theorem JsonLib.Standard.printable (h : lib.Standard) (hdoc : NoDouble doc) : ∀ b ∈ lib.write doc, 32 ≤ b := by
  rw [h.writes doc hdoc]
  exact Json.Printer.text_printable sound_printer hdoc

theorem JsonLib.Standard.noNul (h : lib.Standard) (hdoc : NoDouble doc) : 0 ∉ lib.write doc := fun hmem =>
  absurd (h.printable hdoc 0 hmem) (by decide)

end Standard

def compactLib : JsonLib where
  parse text :=
    match Json.parse text with
    | some doc => .ok doc
    | none => .error ([], 0)
  write := printer.text

theorem compactLib_parse {text : Bytes} {doc : Json} :
    compactLib.parse text = .ok doc ↔ Json.parse text = some doc := by
  unfold compactLib
  dsimp only
  cases Json.parse text <;> simp

theorem standard_compactLib : compactLib.Standard where
  writes := fun _ _ => rfl
  reads := fun _ _ _ h => compactLib_parse.2 h
  sound := fun _ _ h => by rw [compactLib_parse.1 h]; rfl

end DominoLogForwarder.Otelfwd
