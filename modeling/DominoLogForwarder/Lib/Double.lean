/-
IEEE 754 double precision numbers which are finite: sign, biased exponent and fraction. The exponent 2047 (infinity,
NaN) does not exist here.

`units` is the value, as a multiple of 2^-1074, the smallest positive double. So comparing is comparing integers, and
`same`, the `==` of C++, is it too: it only differs from equality at zero, which has two signs (`same_iff`).
-/
import Mathlib.Data.Nat.Log
import Mathlib.Tactic.Ring

namespace DominoLogForwarder

@[ext] structure Double where
  negative : Bool
  exponent : Fin 2047
  fraction : Fin (2 ^ 52)
deriving DecidableEq, Repr

namespace Double

def bits (d : Double) : UInt64 :=
  UInt64.ofNat ((if d.negative then 2 ^ 63 else 0) + d.exponent.val * 2 ^ 52 + d.fraction.val)

/-- the significant bits. The leading one is not stored, but for the numbers next to zero -/
def mantissa (d : Double) : ℕ := if d.exponent.val = 0 then d.fraction.val else 2 ^ 52 + d.fraction.val

def magnitude (d : Double) : ℕ := d.mantissa * 2 ^ (d.exponent.val - 1)

/-- the value, in units of 2^-1074 -/
def units (d : Double) : ℤ := if d.negative then -(d.magnitude : ℤ) else d.magnitude

/-- `==` -/
def same (a b : Double) : Bool := decide (a.units = b.units)

/-- the nearest number with 53 significant bits, the even one of two -/
def round (n : ℕ) : ℕ :=
  let step := 2 ^ (Nat.log2 n - 52)
  let q := n / step
  let up := step < 2 * (n % step) ∨ step = 2 * (n % step) ∧ q % 2 = 1
  (if up then q + 1 else q) * step

/-- `-0.0` and `0.0` -/
def zero (negative : Bool) : Double := ⟨negative, 0, 0⟩

/-- an integer of 64 bits as a double -/
def ofInt (n : ℤ) : Double :=
  let m := round n.natAbs
  let e := Nat.log2 m
  if m = 0 then ⟨false, 0, 0⟩
  else ⟨decide (n < 0), Fin.ofNat 2047 (1023 + e), Fin.ofNat (2 ^ 52) (m * 2 ^ 52 / 2 ^ e)⟩

example : ([0, 5, -1, 2 ^ 53 + 1, 2 ^ 53 + 3, 2 ^ 64 - 1].map fun n => (ofInt n).bits) =
    [0, 0x4014000000000000, 0xBFF0000000000000, 0x4340000000000000, 0x4340000000000002, 0x43F0000000000000] := by
  decide +kernel

theorem mantissa_lt (d : Double) : d.mantissa < 2 ^ 53 := by
  have hf := d.fraction.isLt
  unfold mantissa
  split_ifs <;> omega

/-- the exponent is not zero: the leading bit is there -/
theorem le_mantissa {d : Double} (h : d.exponent.val ≠ 0) : 2 ^ 52 ≤ d.mantissa := by
  unfold mantissa
  rw [if_neg h]
  exact Nat.le_add_right _ _

theorem exponent_le_of_magnitude {a b : Double} (h : a.magnitude = b.magnitude) :
    a.exponent.val - 1 ≤ b.exponent.val - 1 := by
  by_contra hlt
  have ha := le_mantissa (d := a) (by omega)
  have hb := mantissa_lt b
  obtain ⟨k, hk⟩ : ∃ k, a.exponent.val - 1 = b.exponent.val - 1 + (k + 1) :=
    ⟨a.exponent.val - 1 - (b.exponent.val - 1) - 1, by omega⟩
  have hpos : 0 < 2 ^ (b.exponent.val - 1) := Nat.two_pow_pos _
  have heq : a.mantissa * 2 ^ (k + 1) = b.mantissa := by
    apply Nat.eq_of_mul_eq_mul_right hpos
    calc a.mantissa * 2 ^ (k + 1) * 2 ^ (b.exponent.val - 1)
        = a.mantissa * 2 ^ (b.exponent.val - 1 + (k + 1)) := by rw [pow_add 2 (b.exponent.val - 1)]; ring
      _ = a.magnitude := by rw [magnitude, hk]
      _ = b.mantissa * 2 ^ (b.exponent.val - 1) := h
  have htwo : 2 ≤ 2 ^ (k + 1) := by
    rw [pow_succ]
    exact Nat.le_mul_of_pos_left 2 (Nat.two_pow_pos k)
  have hle : a.mantissa * 2 ≤ b.mantissa := heq ▸ Nat.mul_le_mul_left _ htwo
  omega

/-- the magnitude determines everything but the sign -/
theorem eq_of_magnitude {a b : Double} (h : a.magnitude = b.magnitude) :
    a.exponent = b.exponent ∧ a.fraction = b.fraction := by
  have hexp : a.exponent.val - 1 = b.exponent.val - 1 :=
    le_antisymm (exponent_le_of_magnitude h) (exponent_le_of_magnitude h.symm)
  have hman : a.mantissa = b.mantissa := by
    unfold magnitude at h
    rw [hexp] at h
    exact Nat.eq_of_mul_eq_mul_right (Nat.two_pow_pos _) h
  have ha := a.fraction.isLt
  have hb := b.fraction.isLt
  -- zero and one scale alike, and the leading bit tells them apart
  have hval : a.exponent.val = b.exponent.val := by
    unfold mantissa at hman
    split_ifs at hman <;> omega
  refine ⟨Fin.ext hval, Fin.ext ?_⟩
  unfold mantissa at hman
  rw [hval] at hman
  split_ifs at hman <;> omega

/-- **`==` is equality, but for the sign of zero.** -/
theorem same_iff {a b : Double} : a.same b = true ↔ a = b ∨ a.magnitude = 0 ∧ b.magnitude = 0 := by
  unfold same
  rw [decide_eq_true_eq]
  constructor
  · intro h
    unfold units at h
    by_cases hneg : a.negative = b.negative
    · left
      have hmag : a.magnitude = b.magnitude := by
        rw [hneg] at h
        split_ifs at h <;> omega
      obtain ⟨hexp, hfrac⟩ := eq_of_magnitude hmag
      exact Double.ext hneg hexp hfrac
    · right
      split_ifs at h with h₁ h₂ h₂
      · exact absurd (h₁.trans h₂.symm) hneg
      · omega
      · omega
      · rw [Bool.not_eq_true] at h₁ h₂
        exact absurd (h₁.trans h₂.symm) hneg
  · rintro (rfl | ⟨ha, hb⟩)
    · rfl
    · simp [units, ha, hb]

end Double

end DominoLogForwarder
