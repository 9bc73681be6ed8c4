/-
Numbers in decimal notation: a sign, digits, a fraction and an exponent. `Numeral.toDouble` is the double which is
nearest to the number, the even one of two. It does not exist when the number is too large.

A numeral with one more zero in its fraction is the same number (`toDouble_fraction_zero`).
-/
import DominoLogForwarder.Lib.Double
import Mathlib.Tactic

namespace DominoLogForwarder

namespace Double

theorem least_exponent : 0 < 2047 := Nat.zero_lt_succ 2046

/-- the double with the value `units`, a multiple of 2^-1074 with at most 53 significant bits -/
def ofUnits (negative : Bool) (units : ℕ) : Option Double :=
  if h : units < 2 ^ 52 then some ⟨negative, ⟨0, least_exponent⟩, ⟨units, h⟩⟩
  else
    let scale := Nat.log2 units - 52
    let mantissa := units / 2 ^ scale
    if h : scale + 1 < 2047 then
      some ⟨negative, ⟨scale + 1, h⟩, ⟨mantissa % 2 ^ 52, Nat.mod_lt _ (Nat.two_pow_pos 52)⟩⟩
    else none

/-- the double which is nearest to `n / d`, in units of 2^-1074 -/
def nearest (negative : Bool) (n d : ℕ) : Option Double :=
  let step := 2 ^ (Nat.log2 (n / d) - 52)
  let q := n / (d * step)
  let r := n % (d * step)
  let up := d * step < 2 * r ∨ d * step = 2 * r ∧ q % 2 = 1
  ofUnits negative ((if up then q + 1 else q) * step)

/-- the double which is nearest to `m * 10 ^ e` -/
def ofDecimal (negative : Bool) (m : ℕ) (e : ℤ) : Option Double :=
  nearest negative (m * 10 ^ e.toNat * 2 ^ 1074) (10 ^ (-e).toNat)

theorem nearest_scale (negative : Bool) {c : ℕ} (hc : 0 < c) (n d : ℕ) :
    nearest negative (c * n) (c * d) = nearest negative n d := by
  unfold nearest
  have hdiv : c * n / (c * d) = n / d := Nat.mul_div_mul_left n d hc
  simp only [hdiv, Nat.mul_assoc c d, Nat.mul_div_mul_left _ _ hc, Nat.mul_mod_mul_left]
  have hlt : ∀ a b : ℕ, c * a < 2 * (c * b) ↔ a < 2 * b := by
    intro a b
    rw [Nat.mul_left_comm 2 c b]
    exact Nat.mul_lt_mul_left hc
  have heq : ∀ a b : ℕ, c * a = 2 * (c * b) ↔ a = 2 * b := by
    intro a b
    rw [Nat.mul_left_comm 2 c b]
    exact Nat.mul_right_inj hc.ne'
  simp only [hlt, heq]

/-- a zero behind the point changes nothing -/
theorem ofDecimal_tenth (negative : Bool) (m : ℕ) : ofDecimal negative (m * 10) (-1) = ofDecimal negative m 0 := by
  unfold ofDecimal
  generalize 2 ^ 1074 = p
  have hleft : m * 10 * 10 ^ (-1 : ℤ).toNat * p = 10 * (m * p) := by
    have h1 : (-1 : ℤ).toNat = 0 := rfl
    rw [h1, pow_zero, mul_one]
    ring
  have hright : m * 10 ^ (0 : ℤ).toNat * p = m * p := by
    have h0 : (0 : ℤ).toNat = 0 := rfl
    rw [h0, pow_zero, mul_one]
  rw [hleft, hright]
  exact nearest_scale negative (c := 10) (by decide) (m * p) 1

end Double

namespace Decimal

def isDigit (b : UInt8) : Bool := 48 ≤ b && b ≤ 57

/-- the number which digits stand for -/
def number (digits : List UInt8) : ℕ := digits.foldl (fun n b => 10 * n + (b.toNat - 48)) 0

theorem number_snoc (digits : List UInt8) (b : UInt8) : number (digits ++ [b]) =
    10 * number digits + (b.toNat - 48) := by
  unfold number
  rw [List.foldl_append]
  rfl

/-- `e`, a sign or none, and digits -/
structure Exponent where
  letter : UInt8
  sign : Option UInt8
  digits : List UInt8
deriving DecidableEq, Repr

structure Numeral where
  negative : Bool := false
  whole : List UInt8
  /-- empty: there is no point -/
  fraction : List UInt8 := []
  exponent : Option Exponent := none
deriving DecidableEq, Repr

def Exponent.text (e : Exponent) : List UInt8 := e.letter :: (e.sign.toList ++ e.digits)

def Exponent.value (e : Exponent) : ℤ := if e.sign = some 45 then -(number e.digits : ℤ) else number e.digits

namespace Numeral

variable (n : Numeral)

/-- the text behind the sign and the whole number -/
def tail : List UInt8 :=
  (if n.fraction = [] then [] else 46 :: n.fraction) ++ (n.exponent.map Exponent.text).getD []

def text : List UInt8 := (if n.negative then [45] else []) ++ (n.whole ++ n.tail)

def toDouble : Option Double :=
  Double.ofDecimal n.negative (number (n.whole ++ n.fraction))
    ((n.exponent.map Exponent.value).getD 0 - n.fraction.length)

/-- digits, no zero in front of them, and digits where there is a point or an exponent -/
structure Valid : Prop where
  whole : n.whole ≠ [] ∧ ∀ b ∈ n.whole, isDigit b = true
  no_zero : n.whole.head? = some 48 → n.whole = [48]
  fraction : ∀ b ∈ n.fraction, isDigit b = true
  exponent : ∀ e, n.exponent = some e → (e.letter = 101 ∨ e.letter = 69) ∧ (∀ b, e.sign = some b → b = 43 ∨ b = 45) ∧
    e.digits ≠ [] ∧ ∀ b ∈ e.digits, isDigit b = true

variable {n}

/-- a whole number without an exponent can be written with `.0` -/
theorem toDouble_fraction_zero (hfraction : n.fraction = []) (hexponent : n.exponent = none) :
    toDouble { n with fraction := [48] } = n.toDouble := by
  unfold toDouble
  simp only [hfraction, hexponent, List.append_nil, number_snoc]
  have hm : 10 * number n.whole + ((48 : UInt8).toNat - 48) = number n.whole * 10 := by
    rw [show ((48 : UInt8).toNat - 48) = 0 from rfl]
    omega
  rw [hm]
  exact Double.ofDecimal_tenth n.negative (number n.whole)

end Numeral

end Decimal

end DominoLogForwarder
