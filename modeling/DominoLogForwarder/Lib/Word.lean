/-
Unsigned numbers of 64 bits which remember whether a computation on the way to them has left the 64 bits.

A program which computes with `Word` gives the values of the machine, where a sum or a product wraps around. `w.Is n`:
the value is the true number `n`, and nothing has wrapped.
-/
import Mathlib.Tactic

structure Word where
  value : UInt64
  wrapped : Bool := false
deriving DecidableEq

namespace Word

instance (n : ℕ) : OfNat Word n := ⟨⟨UInt64.ofNat n, false⟩⟩

instance : Add Word :=
  ⟨fun a b => ⟨a.value + b.value, a.wrapped || b.wrapped || decide (2 ^ 64 ≤ a.value.toNat + b.value.toNat)⟩⟩

instance : Mul Word :=
  ⟨fun a b => ⟨a.value * b.value, a.wrapped || b.wrapped || decide (2 ^ 64 ≤ a.value.toNat * b.value.toNat)⟩⟩

instance : Sub Word := ⟨fun a b => ⟨a.value - b.value,
    a.wrapped || b.wrapped || decide (a.value.toNat < b.value.toNat)⟩⟩

instance : Div Word := ⟨fun a b => ⟨a.value / b.value, a.wrapped || b.wrapped⟩⟩

/-- the number, when `b` was computed before -/
def after (a b : Word) : Word := ⟨a.value, a.wrapped || b.wrapped⟩

/-- the true number -/
structure Is (w : Word) (n : ℕ) : Prop where
  value : w.value.toNat = n
  exact : w.wrapped = false

variable {a b : Word} {m n : ℕ}

theorem is_ofNat (h : n < 2 ^ 64) : (OfNat.ofNat n : Word).Is n := ⟨UInt64.toNat_ofNat_of_lt' h, rfl⟩

theorem Is.add (ha : a.Is m) (hb : b.Is n) (h : m + n < 2 ^ 64) : (a + b).Is (m + n) := by
  constructor
  · calc (a.value + b.value).toNat = (a.value.toNat + b.value.toNat) % 2 ^ 64 := UInt64.toNat_add _ _
      _ = m + n := by rw [ha.value, hb.value, Nat.mod_eq_of_lt h]
  · change (a.wrapped || b.wrapped || decide (2 ^ 64 ≤ a.value.toNat + b.value.toNat)) = false
    rw [ha.exact, hb.exact, ha.value, hb.value, decide_eq_false (Nat.not_le.2 h)]
    rfl

theorem Is.mul (ha : a.Is m) (hb : b.Is n) (h : m * n < 2 ^ 64) : (a * b).Is (m * n) := by
  constructor
  · calc (a.value * b.value).toNat = (a.value.toNat * b.value.toNat) % 2 ^ 64 := UInt64.toNat_mul _ _
      _ = m * n := by rw [ha.value, hb.value, Nat.mod_eq_of_lt h]
  · change (a.wrapped || b.wrapped || decide (2 ^ 64 ≤ a.value.toNat * b.value.toNat)) = false
    rw [ha.exact, hb.exact, ha.value, hb.value, decide_eq_false (Nat.not_le.2 h)]
    rfl

theorem Is.sub (ha : a.Is m) (hb : b.Is n) (h : n ≤ m) : (a - b).Is (m - n) := by
  constructor
  · calc (a.value - b.value).toNat = a.value.toNat - b.value.toNat :=
          UInt64.toNat_sub_of_le _ _ (UInt64.le_iff_toNat_le.2 (by rw [ha.value, hb.value]; exact h))
      _ = m - n := by rw [ha.value, hb.value]
  · change (a.wrapped || b.wrapped || decide (a.value.toNat < b.value.toNat)) = false
    rw [ha.exact, hb.exact, ha.value, hb.value, decide_eq_false (Nat.not_lt.2 h)]
    rfl

theorem Is.div (ha : a.Is m) (hb : b.Is n) : (a / b).Is (m / n) := by
  constructor
  · calc (a.value / b.value).toNat = a.value.toNat / b.value.toNat := UInt64.toNat_div _ _
      _ = m / n := by rw [ha.value, hb.value]
  · change (a.wrapped || b.wrapped) = false
    rw [ha.exact, hb.exact]
    rfl

theorem Is.after (ha : a.Is m) (hb : b.Is n) : (a.after b).Is m := by
  refine ⟨ha.value, ?_⟩
  change (a.wrapped || b.wrapped) = false
  rw [ha.exact, hb.exact]
  rfl

theorem Is.value_lt (ha : a.Is m) (hb : b.Is n) : a.value < b.value ↔ m < n := by
  rw [UInt64.lt_iff_toNat_lt, ha.value, hb.value]

end Word
