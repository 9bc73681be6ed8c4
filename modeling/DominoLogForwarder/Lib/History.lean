/-
Histories: what happened, oldest first. `Each P` says something about every event of a history, and `P` may look at what
happened before the event.
-/
import Mathlib.Data.List.Basic

namespace History

variable {ε : Type} {P Q : List ε → ε → Prop} {tr : List ε}

/-- `P pre e` holds of every event `e`, where `pre` is what happened before it -/
def Each (P : List ε → ε → Prop) (tr : List ε) : Prop := ∀ pre e post, tr = pre ++ e :: post → P pre e

theorem each_nil : Each P [] := by
  intro pre e post h
  cases pre <;> cases h

theorem Each.concat (h : Each P tr) {e : ε} (he : P tr e) : Each P (tr ++ [e]) := by
  intro pre e' post heq
  rcases List.eq_nil_or_concat post with rfl | ⟨post', b, rfl⟩
  · obtain ⟨rfl, hee⟩ := List.append_inj' heq rfl
    cases hee
    exact he
  · rw [List.concat_eq_append, ← List.cons_append, ← List.append_assoc] at heq
    exact h pre e' post' (List.append_inj' heq rfl).1

theorem Each.mono (h : Each P tr) (hPQ : ∀ pre e, P pre e → Q pre e) : Each Q tr :=
  fun pre e post heq => hPQ pre e (h pre e post heq)

end History
