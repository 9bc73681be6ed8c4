/-
What is remembered of a sequence of observations: the time of the last one of a kind stands for all of them, as long as
the times do not go back.

`rises f base l` are the observations of `l` whose counter `f` is greater than the one before, the first one compared
with `base`. `recent_iff_last`: there is one not longer ago than `w` exactly if the last one is not.
-/
import Mathlib.Data.List.Chain
import Mathlib.Tactic

namespace Window

variable {α β : Type}

/-! ## A counter which rises -/

section Rises

variable (f : α → β)

/-- the counter after `l` -/
def lastCount : β → List α → β
  | before, [] => before
  | _, a :: l => lastCount (f a) l

variable {f}

theorem lastCount_concat (before : β) (l : List α) (a : α) : lastCount f before (l ++ [a]) = f a := by
  induction l generalizing before with
  | nil => rfl
  | cons b l ih => exact ih (f b)

variable [LinearOrder β]

variable (f) in
def rises : β → List α → List α
  | _, [] => []
  | before, a :: l => if before < f a then a :: rises (f a) l else rises (f a) l

theorem rises_concat (before : β) (l : List α) (a : α) : rises f before (l ++ [a]) =
    if lastCount f before l < f a then rises f before l ++ [a] else rises f before l := by
  induction l generalizing before with
  | nil => rfl
  | cons b l ih =>
    rw [List.cons_append, rises, rises, lastCount, ih (f b)]
    split_ifs <;> rfl

theorem rises_sublist (before : β) (l : List α) : (rises f before l).Sublist l := by
  induction l generalizing before with
  | nil => exact List.Sublist.slnil
  | cons a l ih =>
    unfold rises
    split_ifs
    · exact (ih (f a)).cons_cons a
    · exact (ih (f a)).cons a

end Rises

/-! ## The last time -/

variable {time : α → ℤ}

/-- the time of the last observation, 0 if there is none -/
def lastTime (time : α → ℤ) (l : List α) : ℤ := (l.getLast?.map time).getD 0

/-- the time of the first observation, 0 if there is none -/
def firstTime (time : α → ℤ) (l : List α) : ℤ := (l.head?.map time).getD 0

theorem lastTime_concat (l : List α) (a : α) : lastTime time (l ++ [a]) = time a := by
  unfold lastTime
  rw [List.getLast?_concat]
  rfl

theorem firstTime_ne_zero {l : List α} (hpos : ∀ a ∈ l, 0 < time a) : firstTime time l ≠ 0 ↔ l ≠ [] := by
  cases l with
  | nil => simp [firstTime]
  | cons a l =>
    have ha := hpos a List.mem_cons_self
    simp [firstTime]
    omega

/-- **The last one stands for all.** -/
theorem recent_iff_last {l : List α} (hpos : ∀ a ∈ l, 0 < time a) (hsorted : l.Pairwise fun a b => time a ≤ time b)
    (now w : ℤ) : (∃ a ∈ l, now - time a ≤ w) ↔ lastTime time l ≠ 0 ∧ now - lastTime time l ≤ w := by
  rcases List.eq_nil_or_concat' l with rfl | ⟨l, b, rfl⟩
  · simp [lastTime]
  · rw [lastTime_concat]
    have hb : b ∈ l ++ [b] := by simp
    constructor
    · rintro ⟨a, ha, hle⟩
      refine ⟨(hpos b hb).ne', ?_⟩
      rcases List.mem_append.1 ha with hal | hab
      · have hab := (List.pairwise_append.1 hsorted).2.2 a hal b List.mem_cons_self
        omega
      · rwa [List.mem_singleton.1 hab] at hle
    · rintro ⟨-, hle⟩
      exact ⟨b, hb, hle⟩

end Window
