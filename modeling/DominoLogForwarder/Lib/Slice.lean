/-
Buffers of a fixed size: what stands between two positions (`slice`), and copying to a position (`put`).
-/
import Mathlib.Data.List.Basic
import Mathlib.Tactic

namespace Slice

variable {α : Type} {buf xs : List α} {a b c pos i j : ℕ}

/-- the elements from position `a` up to position `b` -/
def slice (buf : List α) (a b : ℕ) : List α := (buf.drop a).take (b - a)

/-- `xs` is copied to position `pos` -/
def put (buf : List α) (pos : ℕ) (xs : List α) : List α := buf.take pos ++ xs ++ buf.drop (pos + xs.length)

theorem length_slice (h : b ≤ buf.length) : (slice buf a b).length = b - a := by
  rw [slice, List.length_take, List.length_drop]
  omega

@[simp] theorem slice_self (a : ℕ) : slice buf a a = [] := by simp [slice]

theorem slice_append (hab : a ≤ b) (hbc : b ≤ c) : slice buf a b ++ slice buf b c = slice buf a c := by
  have hsplit : c - a = (b - a) + (c - b) := by omega
  have hdrop : buf.drop b = (buf.drop a).drop (b - a) := by
    rw [List.drop_drop, Nat.add_sub_cancel' hab]
  rw [slice, slice, slice, hsplit, List.take_add, hdrop]

theorem length_put (h : pos + xs.length ≤ buf.length) : (put buf pos xs).length = buf.length := by
  rw [put, List.length_append, List.length_append, List.length_take, List.length_drop]
  omega

/-- what stands before the copy does not change -/
theorem slice_put_before (hb : b ≤ pos) (hp : pos ≤ buf.length) : slice (put buf pos xs) a b = slice buf a b := by
  rcases Nat.lt_or_ge b a with hlt | hab
  · have h0 : b - a = 0 := by omega
    rw [slice, slice, h0, List.take_zero, List.take_zero]
  · have hlen : b - a ≤ ((buf.take pos).drop a).length := by
      rw [List.length_drop, List.length_take]
      omega
    have hla : a ≤ (buf.take pos).length := by
      rw [List.length_take]
      omega
    have hmin : min (b - a) (pos - a) = b - a := by omega
    rw [slice, put, List.append_assoc, List.drop_append_of_le_length hla, List.take_append_of_le_length hlen,
      List.drop_take, List.take_take, hmin, slice]

theorem slice_put_at (hp : pos ≤ buf.length) : slice (put buf pos xs) pos (pos + xs.length) = xs := by
  have hlen : (buf.take pos).length = pos := by
    rw [List.length_take]
    omega
  rw [slice, put, List.append_assoc, List.drop_left' hlen, Nat.add_sub_cancel_left, List.take_left' rfl]

/-- what was copied to the start -/
theorem slice_put_zero (hb : b ≤ xs.length) : slice (put buf 0 xs) a b = slice xs a b := by
  rcases Nat.lt_or_ge b a with hlt | hab
  · have h0 : b - a = 0 := by omega
    rw [slice, slice, h0, List.take_zero, List.take_zero]
  · have hlen : b - a ≤ (xs.drop a).length := by
      rw [List.length_drop]
      omega
    rw [slice, put, List.take_zero, List.nil_append, List.drop_append_of_le_length (hab.trans hb),
      List.take_append_of_le_length hlen, slice]

theorem getElem?_put_before (hi : i < pos) (hp : pos ≤ buf.length) : (put buf pos xs)[i]? = buf[i]? := by
  have hlen : i < (buf.take pos).length := by
    rw [List.length_take]
    omega
  rw [put, List.append_assoc, List.getElem?_append_left hlen, List.getElem?_take_of_lt hi]

theorem slice_slice (h : a + j ≤ b) : slice (slice buf a b) i j = slice buf (a + i) (a + j) := by
  have hmin : min (j - i) (b - a - i) = j - i := by omega
  have hsub : a + j - (a + i) = j - i := by omega
  rw [slice, slice, slice, List.drop_take, List.take_take, hmin, List.drop_drop, hsub]

/-- the element before a position, if it is the last one of what stands there -/
theorem getElem?_of_slice {x : α} (hab : a < b) (hb : b ≤ buf.length) (h : (slice buf a b).getLast? = some x) :
    buf[b - 1]? = some x := by
  rw [List.getLast?_eq_getElem?, length_slice hb, slice, List.getElem?_take_of_lt (by omega), List.getElem?_drop] at h
  have hidx : a + (b - a - 1) = b - 1 := by omega
  rwa [hidx] at h

end Slice
