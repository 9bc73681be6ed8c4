/-
A cell which keeps the greatest value that was put into it, and gives it away once. Several parties add values, one
takes.

`Call` is what happened to the cell, `Kept` what is known of it after any calls: what is taken grows strictly, and the
last value which is taken behind all others is the greatest one.
-/
import Mathlib.Order.Bounds.Basic
import Mathlib.Tactic

namespace HighMark

variable {α : Type} [LinearOrder α]

structure Mark (α : Type) where
  value : α
  /-- the value was not taken yet -/
  pending : Bool := false
deriving DecidableEq

/-- only a value above every one before counts -/
def Mark.add (m : Mark α) (a : α) : Mark α := if m.value < a then ⟨a, true⟩ else m

omit [LinearOrder α] in
def Mark.take (m : Mark α) : Option α × Mark α :=
    if m.pending then (some m.value, { m with pending := false }) else (none, m)

/-- a call, with its answer -/
inductive Call (α : Type) where
  | add (a : α)
  | take (answer : Option α)
deriving DecidableEq

namespace Call

omit [LinearOrder α]

def added? : Call α → Option α
  | .add a => some a
  | .take _ => none

def taken? : Call α → Option α
  | .add _ => none
  | .take answer => answer

end Call

omit [LinearOrder α] in
def added (calls : List (Call α)) : List α := calls.filterMap Call.added?

omit [LinearOrder α] in
def taken (calls : List (Call α)) : List α := calls.filterMap Call.taken?

section Lists

omit [LinearOrder α]

variable (calls : List (Call α))

@[simp] theorem added_nil : added ([] : List (Call α)) = [] := rfl

@[simp] theorem taken_nil : taken ([] : List (Call α)) = [] := rfl

@[simp] theorem added_add (a : α) : added (calls ++ [.add a]) = added calls ++ [a] := by
  simp [added, Call.added?]

@[simp] theorem added_take (answer : Option α) : added (calls ++ [.take answer]) = added calls := by
  simp [added, Call.added?]

@[simp] theorem taken_add (a : α) : taken (calls ++ [.add a]) = taken calls := by
  simp [taken, Call.taken?]

@[simp] theorem taken_take (answer : Option α) : taken (calls ++ [.take answer]) = taken calls ++ answer.toList := by
  cases answer <;> simp [taken, Call.taken?]

end Lists

/-- what is known of a cell which was `start` at first -/
structure Kept (start : α) (m : Mark α) (calls : List (Call α)) : Prop where
  value : m.value = start ∨ m.value ∈ added calls
  start_le : start ≤ m.value
  greatest : ∀ a ∈ added calls, a ≤ m.value
  increasing : (taken calls).Pairwise (· < ·)
  taken_le : ∀ a ∈ taken calls, a ≤ m.value
  /-- a value which is not taken yet is above all which were taken -/
  waiting : m.pending = true → ∀ a ∈ taken calls, a < m.value
  /-- without one, the last value which was taken is the one of the cell -/
  settled : m.pending = false → start < m.value → (taken calls).getLast? = some m.value
  asked : ∀ answer, calls.getLast? = some (.take answer) → m.pending = false

theorem kept_new (start : α) : Kept start ⟨start, false⟩ [] where
  value := Or.inl rfl
  start_le := le_rfl
  greatest := by simp
  increasing := List.Pairwise.nil
  taken_le := by simp
  waiting := by simp
  settled _ h := absurd h (lt_irrefl _)
  asked _ h := by cases h

variable {start : α} {m : Mark α} {calls : List (Call α)}

theorem Kept.add (h : Kept start m calls) (a : α) : Kept start (m.add a) (calls ++ [.add a]) := by
  have hlast : ∀ answer, (calls ++ [Call.add a]).getLast? ≠ some (.take answer) := by
    intro answer
    simp
  unfold Mark.add
  by_cases hlt : m.value < a
  · rw [if_pos hlt]
    refine ⟨Or.inr (by simp), h.start_le.trans hlt.le, ?_, ?_, ?_, ?_, ?_, fun answer hq => absurd hq (hlast answer)⟩
    · intro b hb
      rw [added_add] at hb
      rcases List.mem_append.1 hb with hb | hb
      · exact (h.greatest b hb).trans hlt.le
      · exact (List.mem_singleton.1 hb).le
    · rw [taken_add]
      exact h.increasing
    · rw [taken_add]
      exact fun b hb => (h.taken_le b hb).trans hlt.le
    · rw [taken_add]
      exact fun _ b hb => lt_of_le_of_lt (h.taken_le b hb) hlt
    · intro hpending
      cases hpending
  · rw [if_neg hlt]
    refine ⟨?_, h.start_le, ?_, ?_, ?_, ?_, ?_, fun answer hq => absurd hq (hlast answer)⟩
    · rcases h.value with hv | hv
      · exact Or.inl hv
      · exact Or.inr (by rw [added_add]; exact List.mem_append_left _ hv)
    · intro b hb
      rw [added_add] at hb
      rcases List.mem_append.1 hb with hb | hb
      · exact h.greatest b hb
      · rw [List.mem_singleton.1 hb]
        exact not_lt.1 hlt
    · rw [taken_add]
      exact h.increasing
    · rw [taken_add]
      exact h.taken_le
    · rw [taken_add]
      exact h.waiting
    · rw [taken_add]
      exact h.settled

theorem Kept.take (h : Kept start m calls) : Kept start m.take.2 (calls ++ [.take m.take.1]) := by
  unfold Mark.take
  cases hpending : m.pending with
  | false =>
    simp only [Bool.false_eq_true, if_false]
    refine ⟨?_, h.start_le, ?_, ?_, ?_, ?_, ?_, fun _ _ => hpending⟩
    · rw [added_take]
      exact h.value
    · rw [added_take]
      exact h.greatest
    · rw [taken_take, Option.toList_none, List.append_nil]
      exact h.increasing
    · rw [taken_take, Option.toList_none, List.append_nil]
      exact h.taken_le
    · rw [taken_take, Option.toList_none, List.append_nil]
      exact h.waiting
    · rw [taken_take, Option.toList_none, List.append_nil]
      exact h.settled
  | true =>
    simp only [if_true]
    refine ⟨?_, h.start_le, ?_, ?_, ?_, ?_, ?_, fun _ _ => rfl⟩
    · rw [added_take]
      exact h.value
    · rw [added_take]
      exact h.greatest
    · rw [taken_take, Option.toList_some]
      apply List.pairwise_append.2
      refine ⟨h.increasing, List.pairwise_singleton _ _, fun a ha b hb => ?_⟩
      rw [List.mem_singleton.1 hb]
      exact h.waiting hpending a ha
    · intro a ha
      rw [taken_take] at ha
      rcases List.mem_append.1 ha with ha | ha
      · exact h.taken_le a ha
      · simp only [Option.toList_some, List.mem_singleton] at ha
        exact ha.le
    · intro hno
      cases hno
    · intro _ _
      rw [taken_take]
      simp

/-- **The last value which is taken behind all others** is the greatest of those which were added, if they are above the
first one. -/
theorem Kept.last_taken (h : Kept start m calls) {answer : Option α} (hlast : calls.getLast? = some (.take answer))
    (habove : ∀ a ∈ added calls, start < a) (hne : added calls ≠ []) :
    ∃ a, (taken calls).getLast? = some a ∧ IsGreatest {b | b ∈ added calls} a := by
  obtain ⟨b, hb⟩ := List.exists_mem_of_ne_nil _ hne
  have hlt : start < m.value := (habove b hb).trans_le (h.greatest b hb)
  refine ⟨m.value, h.settled (h.asked answer hlast) hlt, ?_, fun a ha => h.greatest a ha⟩
  rcases h.value with hv | hv
  · rw [hv] at hlt
    exact absurd hlt (lt_irrefl _)
  · exact hv

end HighMark
