/-
Programs over a state that can stop at any point: a run ends with a result, or it crashes and leaves a state behind.
The weakest precondition `wp m Q C` has two postconditions: `Q` for the result, `C` for what a crash leaves behind.

A run of such programs, one after the other, is a fold. `Guarded` says that every step of the fold was allowed in the
state it started from, and `Guarded.inv` is the induction over the run.
-/
import Mathlib.Logic.Basic
import Mathlib.Data.List.Basic

namespace CrashProg

/-! ## Programs -/

/-- how a run ends: with a result, or in a crash. Both leave a state -/
inductive Outcome (σ α : Type) where
  | done (a : α) (s : σ)
  | crash (s : σ)

def Prog (σ α : Type) : Type := σ → Outcome σ α

variable {σ α β : Type}

namespace Prog

protected def pure (a : α) : Prog σ α := fun s => .done a s

protected def bind (m : Prog σ α) (f : α → Prog σ β) : Prog σ β := fun s =>
  match m s with
  | .done a s' => f a s'
  | .crash s' => .crash s'

instance : Monad (Prog σ) where
  pure := Prog.pure
  bind := Prog.bind

/-- reads the state -/
def get : Prog σ σ := fun s => .done s s

/-- changes the state -/
def modify (f : σ → σ) : Prog σ Unit := fun s => .done () (f s)

end Prog

/-! ## The weakest precondition -/

/-- `m` started in `s` ends with a result that satisfies `Q`, or crashes in a state that satisfies `C` -/
def wp (m : Prog σ α) (Q : α → σ → Prop) (C : σ → Prop) (s : σ) : Prop :=
  match m s with
  | .done a s' => Q a s'
  | .crash s' => C s'

variable {Q R : α → σ → Prop} {C D : σ → Prop} {s : σ}

@[simp] theorem wp_pure (a : α) : wp (pure a : Prog σ α) Q C s = Q a s := rfl

@[simp] theorem wp_get {Q : σ → σ → Prop} : wp Prog.get Q C s = Q s s := rfl

@[simp] theorem wp_modify {Q : Unit → σ → Prop} (f : σ → σ) : wp (Prog.modify f) Q C s = Q () (f s) := rfl

@[simp] theorem wp_bind (m : Prog σ α) (f : α → Prog σ β) (Q : β → σ → Prop) :
    wp (m >>= f) Q C s = wp m (fun a => wp (f a) Q C) C s := by
  show wp (Prog.bind m f) Q C s = _
  unfold wp Prog.bind
  cases m s <;> rfl

theorem wp_ite {c : Prop} [Decidable c] {m m' : Prog σ α} :
    wp (if c then m else m') Q C s ↔ (c → wp m Q C s) ∧ (¬ c → wp m' Q C s) := by
  split_ifs with h <;> simp [h]

/-- the rule of consequence, for both postconditions -/
theorem wp_mono {m : Prog σ α} (h : wp m Q C s) (hq : ∀ a s', Q a s' → R a s') (hc : ∀ s', C s' → D s') :
    wp m R D s := by
  unfold wp at *
  cases hm : m s with
  | done a s' => rw [hm] at h; exact hq a s' h
  | crash s' => rw [hm] at h; exact hc s' h

/-- a program that cannot crash ends with a result -/
theorem exists_of_wp {m : Prog σ α} (h : wp m Q (fun _ => False) s) : ∃ a s', m s = .done a s' ∧ Q a s' := by
  unfold wp at h
  cases hm : m s with
  | done a s' => rw [hm] at h; exact ⟨a, s', rfl, h⟩
  | crash s' => rw [hm] at h; exact h.elim

theorem wp_of_done {m : Prog σ α} {a : α} {s' : σ} (hm : m s = .done a s') : wp m Q C s = Q a s' := by
  unfold wp; rw [hm]

theorem wp_of_crash {m : Prog σ α} {s' : σ} (hm : m s = .crash s') : wp m Q C s = C s' := by
  unfold wp; rw [hm]

/-! ## Programs which end more often -/

/-- where `m` ends with a result, `m'` ends with the same one -/
def Prog.Extends (m m' : Prog σ α) : Prop := ∀ s a s', m s = .done a s' → m' s = .done a s'

theorem Prog.Extends.refl (m : Prog σ α) : m.Extends m := fun _ _ _ h => h

theorem Prog.Extends.bind {m m' : Prog σ α} {f f' : α → Prog σ β} (h : m.Extends m') (hf : ∀ a, (f a).Extends (f' a)) :
    (m >>= f).Extends (m' >>= f') := by
  intro s b s' hb
  have hb' : Prog.bind m f s = .done b s' := hb
  unfold Prog.bind at hb'
  cases hm : m s with
  | crash s₁ =>
    rw [hm] at hb'
    cases hb'
  | done a s₁ =>
    rw [hm] at hb'
    show Prog.bind m' f' s = .done b s'
    unfold Prog.bind
    rw [h s a s₁ hm]
    exact hf a s₁ b s' hb'

theorem Prog.Extends.ite {c : Prop} [Decidable c] {m m' n n' : Prog σ α} (h : m.Extends m') (h' : n.Extends n') :
    (if c then m else n : Prog σ α).Extends (if c then m' else n') := by
  by_cases hc : c
  · rw [if_pos hc, if_pos hc]
    exact h
  · rw [if_neg hc, if_neg hc]
    exact h'

/-! ## Runs of guarded steps -/

section Runs

variable {S A : Type} (step : S → A → S) (G : S → A → Prop)

/-- every step of the run is allowed by `G` in the state it starts from -/
def Guarded : S → List A → Prop
  | _, [] => True
  | s, a :: as => G s a ∧ Guarded (step s a) as

variable {step G}

theorem guarded_of_forall {p : A → Prop} (hG : ∀ s a, p a → G s a) :
    ∀ (as : List A) (s : S), (∀ a ∈ as, p a) → Guarded step G s as
  | [], _, _ => trivial
  | a :: as, s, h =>
    ⟨hG s a (h a List.mem_cons_self), guarded_of_forall hG as _ fun b hb => h b (List.mem_cons_of_mem _ hb)⟩

theorem Guarded.mono {H : S → A → Prop} (hGH : ∀ s a, G s a → H s a) :
    ∀ {as : List A} {s : S}, Guarded step G s as → Guarded step H s as
  | [], _, _ => trivial
  | _ :: _, _, h => ⟨hGH _ _ h.1, Guarded.mono hGH h.2⟩

theorem Guarded.and {H : S → A → Prop} : ∀ {as : List A} {s : S}, Guarded step G s as → Guarded step H s as →
    Guarded step (fun s a => G s a ∧ H s a) s as
  | [], _, _, _ => trivial
  | _ :: _, _, hg, hh => ⟨⟨hg.1, hh.1⟩, Guarded.and hg.2 hh.2⟩

theorem Guarded.append : ∀ {as bs : List A} {s : S}, Guarded step G s as → Guarded step G (as.foldl step s) bs →
    Guarded step G s (as ++ bs)
  | [], _, _, _, h => h
  | _ :: _, _, _, h, h' => ⟨h.1, Guarded.append h.2 h'⟩

instance decidableGuarded [∀ s a, Decidable (G s a)] : ∀ (as : List A) (s : S), Decidable (Guarded step G s as)
  | [], _ => isTrue trivial
  | a :: as, s => @instDecidableAnd _ _ _ (decidableGuarded as (step s a))

/-- what every allowed step preserves holds at the end of the run -/
theorem Guarded.inv {I : S → Prop} (hI : ∀ s a, G s a → I s → I (step s a)) {as : List A} {s : S}
    (h : Guarded step G s as) (hs : I s) : I (as.foldl step s) := by
  induction as generalizing s with
  | nil => exact hs
  | cons a as ih => exact ih h.2 (hI s a h.1 hs)

end Runs

end CrashProg
