/-
Programs which can crash, seen through one part of their state. `wpOn view m Q C r` says what `m` does to the part, when
the part is `r` and nothing is known of the rest of the state.

It follows the rules of `wp`. A program reads the whole state, so what it does with the rest of it holds for any rest.

`Moves view R m`: whatever the state is, `m` moves the part along `R`. For a preorder `R` the programs which do are
closed under everything programs are built with, so a program needs no other proof than its text.
-/
import Mathlib.Order.Defs.Unbundled
import DominoLogForwarder.Lib.CrashProg

namespace CrashProg

variable {σ ρ α β : Type} (view : σ → ρ)

/-- started in any state whose part is `r`, `m` ends with a result and a part that satisfy `Q`, or crashes with a part
that satisfies `C` -/
def wpOn (m : Prog σ α) (Q : α → ρ → Prop) (C : ρ → Prop) (r : ρ) : Prop :=
  ∀ s, view s = r → wp m (fun a s' => Q a (view s')) (fun s' => C (view s')) s

variable {view} {m : Prog σ α} {Q R : α → ρ → Prop} {C D : ρ → Prop} {r : ρ}

theorem wpOn_pure {a : α} (h : Q a r) : wpOn view (pure a) Q C r := by
  intro s hs
  rw [wp_pure, hs]
  exact h

theorem wpOn_get {Q : σ → ρ → Prop} (h : ∀ s, view s = r → Q s r) : wpOn view Prog.get Q C r := by
  intro s hs
  rw [wp_get, hs]
  exact h s hs

theorem wpOn_modify {Q : Unit → ρ → Prop} {f : σ → σ} (h : ∀ s, view s = r → Q () (view (f s))) :
    wpOn view (Prog.modify f) Q C r := by
  intro s hs
  rw [wp_modify]
  exact h s hs

theorem wpOn_mono (h : wpOn view m Q C r) (hq : ∀ a r', Q a r' → R a r') (hc : ∀ r', C r' → D r') :
    wpOn view m R D r := by
  intro s hs
  apply wp_mono (h s hs)
  · exact fun a s' => hq a _
  · exact fun s' => hc _

theorem wpOn_bind {f : α → Prog σ β} {R : β → ρ → Prop} (h : wpOn view m (fun a r' => wpOn view (f a) R C r') C r) :
    wpOn view (m >>= f) R C r := by
  intro s hs
  rw [wp_bind]
  apply wp_mono (h s hs)
  · exact fun a s' hf => hf s' rfl
  · exact fun s' hc => hc

/-- one program after the other: what the first one leaves is enough for the second one -/
theorem wpOn_seq {f : α → Prog σ β} {R : β → ρ → Prop} (h : wpOn view m Q D r)
    (hf : ∀ a r', Q a r' → wpOn view (f a) R C r')
    (hc : ∀ r', D r' → C r') : wpOn view (m >>= f) R C r := by
  apply wpOn_bind
  exact wpOn_mono h hf hc

/-! ## Along a preorder -/

variable (view) in
/-- `m` moves the part along `R`, unless it crashes -/
def Moves (R : ρ → ρ → Prop) (m : Prog σ α) : Prop := ∀ s, wp m (fun _ s' => R (view s) (view s')) (fun _ => True) s

section Moves

variable {S : ρ → ρ → Prop}

theorem Moves.mono (h : Moves view S m) {T : ρ → ρ → Prop} (hST : ∀ r r', S r r' → T r r') : Moves view T m :=
  fun s => wp_mono (h s) (fun _ _ => hST _ _) fun _ _ => trivial

theorem moves_modify {f : σ → σ} (h : ∀ s, S (view s) (view (f s))) : Moves view S (Prog.modify f) := h

theorem moves_ite {c : Prop} [Decidable c] {m m' : Prog σ α} (h : c → Moves view S m) (h' : ¬ c → Moves view S m') :
    Moves view S (if c then m else m') := by
  split_ifs with hc
  · exact h hc
  · exact h' hc

variable [IsPreorder ρ S]

theorem moves_pure {a : α} : Moves view S (pure a) := fun s => refl_of S (view s)

theorem moves_get : Moves view S Prog.get := fun s => refl_of S (view s)

/-- nothing of the part is changed -/
theorem moves_same {f : σ → σ} (h : ∀ s, view (f s) = view s) : Moves view S (Prog.modify f) := by
  intro s
  rw [wp_modify, h]
  exact refl_of S (view s)

theorem moves_bind {f : α → Prog σ β} (h : Moves view S m) (hf : ∀ a, Moves view S (f a)) : Moves view S (m >>= f) := by
  intro s
  rw [wp_bind]
  refine wp_mono (h s) (fun a s' hs => ?_) fun _ _ => trivial
  exact wp_mono (hf a s') (fun _ _ hs' => trans_of S hs hs') fun _ _ => trivial

end Moves

end CrashProg
