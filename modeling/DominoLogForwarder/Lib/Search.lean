/-
Searching in a text, as the member functions `find` and `rfind` of a C++ string do.

`find_eq_some`, `find_eq_none`: the first place where a pattern occurs. `rfind_eq_some`: the last place of a character,
up to a position. `takeWhile_stop`, `dropWhile_stop`: a text up to the first character of some kind, and the rest.
-/
import Mathlib.Data.List.TakeWhile
import Mathlib.Tactic

namespace Search

variable {α : Type*} [DecidableEq α] {pattern text : List α} {b : α} {i pos : ℕ}

/-- the first place where `pattern` occurs -/
def find (pattern : List α) : List α → Option ℕ
  | [] => if pattern = [] then some 0 else none
  | b :: bs => if pattern <+: b :: bs then some 0 else (find pattern bs).map (· + 1)

/-- the last place of `b` which is not behind `pos` -/
def rfind (b : α) (text : List α) : ℕ → Option ℕ
  | 0 => if text[0]? = some b then some 0 else none
  | pos + 1 => if text[pos + 1]? = some b then some (pos + 1) else rfind b text pos

theorem find_eq_none : find pattern text = none ↔ ∀ i, ¬pattern <+: text.drop i := by
  induction text with
  | nil => simp [find]
  | cons b bs ih =>
    unfold find
    by_cases h : pattern <+: b :: bs
    · rw [if_pos h]
      exact iff_of_false (by simp) fun hno => hno 0 h
    · rw [if_neg h, Option.map_eq_none_iff, ih]
      constructor
      · intro hno i
        cases i with
        | zero => exact h
        | succ i => exact hno i
      · intro hno i
        exact hno (i + 1)

theorem find_eq_some : find pattern text = some i ↔ pattern <+: text.drop i ∧ ∀ j < i, ¬pattern <+: text.drop j := by
  induction text generalizing i with
  | nil =>
    by_cases h : pattern = []
    · constructor
      · intro hi
        simp [find, h] at hi
        simp [h, ← hi]
      · rintro ⟨-, hno⟩
        have hi : i = 0 := by
          by_contra hne
          exact hno 0 (Nat.pos_of_ne_zero hne) (by simp [h])
        simp [find, h, hi]
    · simp [find, h]
  | cons b bs ih =>
    unfold find
    by_cases h : pattern <+: b :: bs
    · rw [if_pos h]
      constructor
      · intro hi
        obtain rfl := Option.some.inj hi
        exact ⟨h, fun j hj => absurd hj (Nat.not_lt_zero j)⟩
      · rintro ⟨-, hno⟩
        have hi : i = 0 := by
          by_contra hne
          exact hno 0 (Nat.pos_of_ne_zero hne) h
        rw [hi]
    · rw [if_neg h, Option.map_eq_some_iff]
      constructor
      · rintro ⟨k, hk, rfl⟩
        obtain ⟨hat, hno⟩ := ih.1 hk
        refine ⟨hat, fun j hj => ?_⟩
        cases j with
        | zero => exact h
        | succ j => exact hno j (Nat.lt_of_succ_lt_succ hj)
      · rintro ⟨hat, hno⟩
        cases i with
        | zero => exact absurd hat h
        | succ i => exact ⟨i, ih.2 ⟨hat, fun j hj => hno (j + 1) (Nat.succ_lt_succ hj)⟩, rfl⟩

/-- the text in front of the place, and the text behind the pattern -/
theorem find_split (h : find pattern text = some i) :
    ∃ before behind, text = before ++ (pattern ++ behind) ∧ before.length = i := by
  obtain ⟨⟨behind, hbehind⟩, hno⟩ := find_eq_some.1 h
  have hle : i ≤ text.length := by
    by_contra hlt
    apply hno text.length (by omega)
    refine ⟨behind, hbehind.trans ?_⟩
    rw [List.drop_eq_nil_of_le (by omega), List.drop_eq_nil_of_le le_rfl]
  refine ⟨text.take i, behind, ?_, List.length_take_of_le hle⟩
  rw [hbehind, List.take_append_drop]

/-- without a place in the first `k` characters, the search goes on behind them -/
theorem find_drop {k : ℕ} (hno : ∀ j < k, ¬pattern <+: text.drop j) :
    find pattern text = (find pattern (text.drop k)).map (· + k) := by
  cases h : find pattern (text.drop k) with
  | none =>
    rw [find_eq_none] at h
    rw [Option.map_none, find_eq_none]
    intro i
    by_cases hi : i < k
    · exact hno i hi
    · have hbehind := h (i - k)
      rwa [List.drop_drop, Nat.add_sub_cancel' (Nat.not_lt.1 hi)] at hbehind
  | some i =>
    obtain ⟨hat, hfirst⟩ := find_eq_some.1 h
    rw [Option.map_some, find_eq_some, Nat.add_comm, ← List.drop_drop]
    refine ⟨hat, fun j hj => ?_⟩
    by_cases hjk : j < k
    · exact hno j hjk
    · have hbehind := hfirst (j - k) (by omega)
      rwa [List.drop_drop, Nat.add_sub_cancel' (Nat.not_lt.1 hjk)] at hbehind

theorem find_prefix (pattern text : List α) : find pattern (pattern ++ text) = some 0 :=
  find_eq_some.2 ⟨⟨text, rfl⟩, fun j hj => absurd hj (Nat.not_lt_zero j)⟩

/-- a pattern is not found in front of its first character -/
theorem find_append {before : List α} (h : b ∉ before) :
    find (b :: pattern) (before ++ b :: (pattern ++ text)) = some before.length := by
  rw [find_eq_some, List.drop_left]
  refine ⟨⟨text, rfl⟩, fun j hj hat => ?_⟩
  obtain ⟨rest, hrest⟩ := hat
  have hb : (before ++ b :: (pattern ++ text))[j]? = some b := by
    rw [← List.head?_drop, ← hrest]
    rfl
  rw [List.getElem?_append_left hj] at hb
  exact h (List.mem_of_getElem? hb)

theorem rfind_eq_some :
    rfind b text pos = some i ↔ i ≤ pos ∧ text[i]? = some b ∧ ∀ j, i < j → j ≤ pos → text[j]? ≠ some b := by
  induction pos with
  | zero =>
    constructor
    · intro h
      simp [rfind] at h
      obtain ⟨h, rfl⟩ := h
      exact ⟨le_rfl, h, fun j hj hle => by omega⟩
    · rintro ⟨hle, h, -⟩
      obtain rfl : i = 0 := by omega
      simp [rfind, h]
  | succ pos ih =>
    unfold rfind
    by_cases hlast : text[pos + 1]? = some b
    · rw [if_pos hlast]
      constructor
      · intro h
        obtain rfl := Option.some.inj h
        exact ⟨le_rfl, hlast, fun j hj hle => by omega⟩
      · rintro ⟨hle, -, hno⟩
        by_contra hne
        exact hno (pos + 1) (by grind) le_rfl hlast
    · rw [if_neg hlast, ih]
      constructor
      · rintro ⟨hle, h, hno⟩
        refine ⟨by omega, h, fun j hj hle => ?_⟩
        by_cases hj' : j = pos + 1
        · rw [hj']
          exact hlast
        · exact hno j hj (by omega)
      · rintro ⟨hle, h, hno⟩
        have hne : i ≠ pos + 1 := by
          rintro rfl
          exact hlast h
        exact ⟨by omega, h, fun j hj hle => hno j hj (by omega)⟩

/-! ## Up to a character -/

section UpTo

variable {α : Type*} {p : α → Bool} {xs : List α} {x : α}

theorem takeWhile_stop (h : ∀ y ∈ xs, p y = true) (hx : p x = false) (ys : List α) :
    (xs ++ x :: ys).takeWhile p = xs := by
  rw [List.takeWhile_append_of_pos h, List.takeWhile_cons_of_neg (by simp [hx]), List.append_nil]

theorem dropWhile_stop (h : ∀ y ∈ xs, p y = true) (hx : p x = false) (ys : List α) :
    (xs ++ x :: ys).dropWhile p = x :: ys := by
  rw [List.dropWhile_append_of_pos h, List.dropWhile_cons_of_neg (by simp [hx])]

variable [DecidableEq α]

theorem all_ne (h : x ∉ xs) : ∀ y ∈ xs, decide (y ≠ x) = true := fun _ hy => decide_eq_true fun heq => h (heq ▸ hy)

theorem takeWhile_ne (h : x ∉ xs) (ys : List α) : (xs ++ x :: ys).takeWhile (· ≠ x) = xs :=
  takeWhile_stop (all_ne h) (by simp) ys

theorem dropWhile_ne (h : x ∉ xs) (ys : List α) : (xs ++ x :: ys).dropWhile (· ≠ x) = x :: ys :=
  dropWhile_stop (all_ne h) (by simp) ys

theorem dropWhile_ne_nil (h : x ∉ xs) : xs.dropWhile (· ≠ x) = [] := List.dropWhile_eq_nil_iff.2 (all_ne h)

end UpTo

end Search
