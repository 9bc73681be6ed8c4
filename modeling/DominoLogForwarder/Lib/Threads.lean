/-
Programs which share a memory and work on it with atomic operations.

`Code` is the text of a program: it returns, or asks for one operation and goes on with the answer. `Code.alone` is a
run of one program with the memory to itself. `Pool` is a memory with any number of programs which have started, in any
interleaving of their operations (`Pool.run`).

`Code.Always Q trace code`: whatever the operations answer, the program ends with a trace and a result which satisfy
`Q`. It needs no knowledge of the others, so it holds for every program of a pool (`run_always`). What is known of the
memory comes from the list of all operations in their order (`run_memory`), and a sum over this list is the sum over
the traces of the programs (`run_sum`).
-/
import Mathlib.Tactic

namespace Threads

/-! ## Programs -/

inductive Code (Op : Type) (Res : Op → Type) (α : Type) where
  | ret (a : α)
  | call (o : Op) (next : Res o → Code Op Res α)

/-- an operation with its answer -/
abbrev Event (Op : Type) (Res : Op → Type) : Type := (o : Op) × Res o

variable {Op : Type} {Res : Op → Type} {α β : Type}

namespace Code

def bind : Code Op Res α → (α → Code Op Res β) → Code Op Res β
  | ret a, f => f a
  | call o next, f => call o fun r => (next r).bind f

instance : Monad (Code Op Res) where
  pure := ret
  bind := bind

/-- one operation -/
def op (o : Op) : Code Op Res (Res o) := call o ret

/-- whatever the operations answer -/
def Always (Q : List (Event Op Res) → α → Prop) : List (Event Op Res) → Code Op Res α → Prop
  | trace, ret a => Q trace a
  | trace, call o next => ∀ r, Always Q (trace ++ [⟨o, r⟩]) (next r)

variable {Q : List (Event Op Res) → α → Prop} {trace : List (Event Op Res)}

@[simp] theorem always_pure (a : α) : Always Q trace (pure a : Code Op Res α) ↔ Q trace a := Iff.rfl

@[simp] theorem always_op (o : Op) {Q : List (Event Op Res) → Res o → Prop} :
    Always Q trace (op o) ↔ ∀ r, Q (trace ++ [⟨o, r⟩]) r := Iff.rfl

@[simp] theorem always_bind (c : Code Op Res β) (f : β → Code Op Res α) :
    Always Q trace (c >>= f) ↔ Always (fun trace b => Always Q trace (f b)) trace c := by
  change Always Q trace (c.bind f) ↔ _
  induction c generalizing trace with
  | ret b => exact Iff.rfl
  | call o next ih => exact forall_congr' fun r => ih r

theorem Always.mono {Q' : List (Event Op Res) → α → Prop} (hQ : ∀ trace a, Q trace a → Q' trace a) {c : Code Op Res α}
    (h : Always Q trace c) : Always Q' trace c := by
  induction c generalizing trace with
  | ret a => exact hQ trace a h
  | call o next ih => exact fun r => ih r (h r)

/-- whatever the operations answer, the program asks only for operations with `P` -/
def Asks (P : Op → Prop) : Code Op Res α → Prop
  | ret _ => True
  | call o next => P o ∧ ∀ r, Asks P (next r)

variable {P : Op → Prop}

@[simp] theorem asks_pure (a : α) : Asks P (pure a : Code Op Res α) := trivial

@[simp] theorem asks_op (o : Op) : Asks P (op o : Code Op Res (Res o)) ↔ P o :=
  ⟨And.left, fun h => ⟨h, fun _ => trivial⟩⟩

theorem Asks.bind {c : Code Op Res β} {f : β → Code Op Res α} (hc : Asks P c) (hf : ∀ b, Asks P (f b)) :
    Asks P (c >>= f) := by
  change Asks P (c.bind f)
  induction c with
  | ret b => exact hf b
  | call o next ih => exact ⟨hc.1, fun r => ih r (hc.2 r)⟩

end Code

/-! ## One program alone -/

section Alone

variable {σ Env : Type} (apply : Env → (o : Op) → σ → Res o × σ)

/-- how a program ended -/
structure Ended (Op : Type) (Res : Op → Type) (α σ : Type) where
  result : α
  trace : List (Event Op Res)
  memory : σ

/-- a run from the memory `s`. The environment can look at what happened so far -/
def Code.alone (env : List (Event Op Res) → Env) : List (Event Op Res) → σ → Code Op Res α → Ended Op Res α σ
  | trace, s, ret a => ⟨a, trace, s⟩
  | trace, s, call o next =>
    let answer := apply (env trace) o s
    alone env (trace ++ [⟨o, answer.1⟩]) answer.2 (next answer.1)

variable {apply} {env : List (Event Op Res) → Env} {trace : List (Event Op Res)} {s : σ}

@[simp] theorem Code.alone_pure (a : α) : (pure a : Code Op Res α).alone apply env trace s = ⟨a, trace, s⟩ := rfl

@[simp] theorem Code.alone_op (o : Op) : (Code.op o : Code Op Res (Res o)).alone apply env trace s =
    ⟨(apply (env trace) o s).1, trace ++ [⟨o, (apply (env trace) o s).1⟩], (apply (env trace) o s).2⟩ := rfl

@[simp] theorem Code.alone_bind (c : Code Op Res β) (f : β → Code Op Res α) : (c >>= f).alone apply env trace s =
    (f (c.alone apply env trace s).result).alone apply env (c.alone apply env trace s).trace
      (c.alone apply env trace s).memory := by
  change (c.bind f).alone apply env trace s = _
  induction c generalizing trace s with
  | ret b => rfl
  | call o next ih => exact ih _

end Alone

/-! ## Many programs -/

/-- a program which has started -/
structure Thread (Op : Type) (Res : Op → Type) (α : Type) where
  code : Code Op Res α
  trace : List (Event Op Res) := []

def Thread.result? (t : Thread Op Res α) : Option α :=
  match t.code with
  | .ret a => some a
  | .call _ _ => none

theorem Thread.code_of_result? {t : Thread Op Res α} {a : α} (h : t.result? = some a) : t.code = .ret a := by
  unfold Thread.result? at h
  cases hc : t.code with
  | ret b =>
    rw [hc, Option.some.injEq] at h
    rw [h]
  | call o next =>
    rw [hc] at h
    cases h

structure Pool (Op : Type) (Res : Op → Type) (α σ : Type) where
  memory : σ
  threads : List (Thread Op Res α) := []
  /-- all operations in the order in which they were made -/
  history : List (Event Op Res) := []

inductive Act (Op : Type) (Res : Op → Type) (α Env : Type) where
  | start (code : Code Op Res α)
  /-- the next operation of a thread -/
  | step (thread : ℕ) (env : Env)

namespace Pool

variable {σ Env : Type} (apply : Env → (o : Op) → σ → Res o × σ)

/-- a thread which has returned, or does not exist, does nothing -/
def step (p : Pool Op Res α σ) : Act Op Res α Env → Pool Op Res α σ
  | .start code => { p with threads := p.threads ++ [⟨code, []⟩] }
  | .step i env =>
    match p.threads[i]? with
    | some ⟨.call o next, trace⟩ =>
      let answer := apply env o p.memory
      { memory := answer.2
        threads := p.threads.set i ⟨next answer.1, trace ++ [⟨o, answer.1⟩]⟩
        history := p.history ++ [⟨o, answer.1⟩] }
    | _ => p

def run (p : Pool Op Res α σ) (acts : List (Act Op Res α Env)) : Pool Op Res α σ := acts.foldl (step apply) p

/-- what an act can do -/
theorem step_cases (p : Pool Op Res α σ) (act : Act Op Res α Env) :
    (∃ code, act = .start code ∧ p.step apply act = { p with threads := p.threads ++ [⟨code, []⟩] }) ∨
    (∃ i env o next trace, act = .step i env ∧ p.threads[i]? = some ⟨.call o next, trace⟩ ∧ p.step apply act =
      { memory := (apply env o p.memory).2
        threads := p.threads.set i ⟨next (apply env o p.memory).1, trace ++ [⟨o, (apply env o p.memory).1⟩]⟩
        history := p.history ++ [⟨o, (apply env o p.memory).1⟩] }) ∨
    p.step apply act = p := by
  cases act with
  | start code => exact Or.inl ⟨code, rfl, rfl⟩
  | step i env =>
    refine Or.inr ?_
    cases ht : p.threads[i]? with
    | none => exact Or.inr (by simp only [step, ht])
    | some t =>
      obtain ⟨code, trace⟩ := t
      cases code with
      | ret a => exact Or.inr (by simp only [step, ht])
      | call o next => exact Or.inl ⟨i, env, o, next, trace, rfl, ht, by simp only [step, ht]⟩

/-- the programs which are started -/
def Starts (P : Code Op Res α → Prop) (acts : List (Act Op Res α Env)) : Prop := ∀ code, Act.start code ∈ acts → P code

variable {apply} {p : Pool Op Res α σ} {acts : List (Act Op Res α Env)}

/-- **What a program always does**, it does in every interleaving. -/
theorem run_always {Q : List (Event Op Res) → α → Prop} (hstarts : Starts (fun code => code.Always Q []) acts)
    (hp : ∀ t ∈ p.threads, t.code.Always Q t.trace) : ∀ t ∈ (p.run apply acts).threads, t.code.Always Q t.trace := by
  induction acts generalizing p with
  | nil => exact hp
  | cons act acts ih =>
    refine ih (fun code hcode => hstarts code (List.mem_cons_of_mem _ hcode)) fun t ht => ?_
    rcases p.step_cases apply act with ⟨code, rfl, heq⟩ |
      ⟨i, env, o, next, trace, rfl, hi, heq⟩ | heq <;> rw [heq] at ht
    · rcases List.mem_append.1 ht with ht | ht
      · exact hp t ht
      · rw [List.mem_singleton.1 ht]
        exact hstarts code List.mem_cons_self
    · rcases List.mem_or_eq_of_mem_set ht with ht | rfl
      · exact hp t ht
      · exact hp _ (List.mem_of_getElem? hi) _
    · exact hp t ht

theorem run_result {Q : List (Event Op Res) → α → Prop} (hstarts : Starts (fun code => code.Always Q []) acts)
    (hp : p.threads = []) {t : Thread Op Res α} (ht : t ∈ (p.run apply acts).threads) {a : α}
    (ha : t.result? = some a) :
    Q t.trace a := by
  have h := run_always hstarts (fun t ht => absurd (hp ▸ ht) List.not_mem_nil) t ht
  rw [Thread.code_of_result? ha] at h
  exact h

/-- what every operation keeps of the memory and of the operations so far -/
theorem run_memory {I : σ → List (Event Op Res) → Prop}
    (hI : ∀ env o s h, I s h → I (apply env o s).2 (h ++ [⟨o, (apply env o s).1⟩])) (hp : I p.memory p.history) :
    I (p.run apply acts).memory (p.run apply acts).history := by
  induction acts generalizing p with
  | nil => exact hp
  | cons act acts ih =>
    refine ih ?_
    rcases p.step_cases apply act with ⟨code, rfl, heq⟩ | ⟨i, env, o, next, trace, rfl, hi, heq⟩ | heq <;> rw [heq]
    · exact hp
    · exact hI env o _ _ hp
    · exact hp

/-- the sum over all operations is the sum over the programs -/
theorem run_sum {M : Type} [AddCommMonoid M] (f : Event Op Res → M)
    (hp : (p.history.map f).sum = (p.threads.map fun t => (t.trace.map f).sum).sum) :
    ((p.run apply acts).history.map f).sum = ((p.run apply acts).threads.map fun t => (t.trace.map f).sum).sum := by
  induction acts generalizing p with
  | nil => exact hp
  | cons act acts ih =>
    refine ih ?_
    rcases p.step_cases apply act with ⟨code, rfl, heq⟩ | ⟨i, env, o, next, trace, rfl, hi, heq⟩ | heq <;> rw [heq]
    · simp [hp]
    · obtain ⟨hlt, hget⟩ := List.getElem?_eq_some_iff.1 hi
      -- only the thread `i` is different
      have hset : p.threads.set i ⟨next (apply env o p.memory).1, trace ++ [⟨o, (apply env o p.memory).1⟩]⟩ =
          p.threads.take i ++ ⟨next (apply env o p.memory).1, trace ++ [⟨o, (apply env o p.memory).1⟩]⟩ ::
            p.threads.drop (i + 1) := List.set_eq_take_append_cons_drop.trans (if_pos hlt)
      have hsplit : p.threads = p.threads.take i ++ ⟨.call o next, trace⟩ :: p.threads.drop (i + 1) := by
        rw [← hget, List.getElem_cons_drop, List.take_append_drop]
      rw [hset]
      rw [hsplit] at hp
      simp only [List.map_append, List.map_cons, List.map_nil, List.sum_append, List.sum_cons, List.sum_nil,
        add_zero] at hp ⊢
      rw [hp]
      abel
    · exact hp

end Pool

end Threads
