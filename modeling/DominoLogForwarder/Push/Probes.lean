/-
How far the probes of the primary lie apart, with any number of threads.

`Watch` is the object with the calls in progress. Beside them it keeps the time of every call, and the times of the
calls which made a probe since the backup is in use. `Claims` is the text of a call up to its probe: the probe is made
right behind the exchange which moved the time of the next one.

A switch to the backup sets the time of the next probe too. A slow call does this when the backup is in use for long,
with a time of the past (`two_probes`). As long as no switch is older than a probe, the probes are apart
(`probes_apart`).
-/
import DominoLogForwarder.Push.Concurrent

namespace DominoLogForwarder.Push

open Threads

/-! ## The run -/

inductive Turn where
  | call (now : ℤ)
  /-- the next operation of a call -/
  | step (call : ℕ) (answer : PushAction)
deriving DecidableEq, Repr

def Turn.act (config : Config) : Turn → Act
  | .call now => .start (send config now)
  | .step i answer => .step i answer

structure Watch where
  calls : Calls := { memory := {} }
  /-- the time of every call -/
  nows : List ℤ := []
  /-- the times of the calls which probed since the backup is in use -/
  probes : List ℤ := []

namespace Watch

/-- the probe which is made now -/
def probe (w : Watch) : Turn → List ℤ
  | .call _ => []
  | .step i _ =>
    match w.calls.threads[i]? with
    | some ⟨.call (.sendTo .primary true) _, _⟩ => w.nows[i]?.toList
    | _ => []

def nowOf : Turn → List ℤ
  | .call now => [now]
  | .step _ _ => []

def step (config : Config) (w : Watch) (turn : Turn) : Watch :=
  let calls := Pool.step apply w.calls (turn.act config)
  { calls := calls
    nows := w.nows ++ nowOf turn
    probes :=
      if w.calls.memory.active = .backup ∧ calls.memory.active = .backup then w.probes ++ w.probe turn else [] }

def run (config : Config) (w : Watch) (turns : List Turn) : Watch := turns.foldl (step config) w

/-- the call `i` makes a probe next -/
def OnTheWay (w : Watch) (i : ℕ) (now : ℤ) : Prop :=
  (∃ next trace, w.calls.threads[i]? = some ⟨.call (.sendTo .primary true) next, trace⟩) ∧ w.nows[i]? = some now

/-- the times of the calls which make a probe next -/
def openProbes (w : Watch) : List ℤ :=
  (List.range w.calls.threads.length).flatMap fun i =>
    match w.calls.threads[i]? with
    | some ⟨.call (.sendTo .primary true) _, _⟩ => w.nows[i]?.toList
    | _ => []

/-- the time of the call which sets the time of the next probe, for its switch to the backup -/
def switching (w : Watch) : Turn → Option ℤ
  | .call _ => none
  | .step i _ =>
    match w.calls.threads[i]? with
    | some ⟨.call (.storeNextProbe _) _, _⟩ => w.nows[i]?
    | _ => none

/-- a call which switches to the backup is not older than a probe which was made since the backup is in use, or which
is made next -/
def SwitchNotOlder (w : Watch) (turn : Turn) : Prop :=
  ∀ now ∈ w.switching turn, ∀ p ∈ w.probes ++ w.openProbes, p ≤ now

instance (w : Watch) (turn : Turn) : Decidable (w.SwitchNotOlder turn) :=
  inferInstanceAs (Decidable (∀ now ∈ _, ∀ p ∈ _, p ≤ now))

/-- every turn of a run from `w` -/
def SwitchesNotOlder (config : Config) : Watch → List Turn → Prop
  | _, [] => True
  | w, turn :: turns => w.SwitchNotOlder turn ∧ SwitchesNotOlder config (w.step config turn) turns

instance decidableSwitches (config : Config) : ∀ (w : Watch) (turns : List Turn),
    Decidable (SwitchesNotOlder config w turns)
  | _, [] => isTrue trivial
  | w, turn :: turns =>
    have := decidableSwitches config (w.step config turn) turns
    inferInstanceAs (Decidable (_ ∧ _))

end Watch

/-- two probes in different intervals -/
def Apart (config : Config) (p q : ℤ) : Prop := config.failbackSec ≤ |p - q|

instance (config : Config) (p q : ℤ) : Decidable (Apart config p q) := inferInstanceAs (Decidable (_ ≤ _))

/-! ## The text of a call -/

section Text

variable (config : Config) (now : ℤ)

/-- an operation which has nothing to do with the probe -/
def Plain : Op → Prop
  | .sendTo .primary true => False
  | .exchangeNextProbe _ _ => False
  | .storeNextProbe t => t = now + config.failbackSec
  | _ => True

/-- no probe is made -/
abbrev NoProbe {α : Type} : Text α → Prop := Code.Asks (Plain config now)

/-- a probe is made only right behind the exchange, and only if the time of the next one has come -/
def Claims : Text Result → Prop
  | .ret _ => True
  | .call (.exchangeNextProbe expected new) next =>
    expected ≤ now ∧ new = now + config.failbackSec ∧ NoProbe config now (next false) ∧
      ∃ after, next true = .call (.sendTo .primary true) after ∧ ∀ a, NoProbe config now (after a)
  | .call o next => Plain config now o ∧ ∀ r, Claims (next r)

variable {config now}

theorem Claims.of_noProbe {code : Text Result} (h : NoProbe config now code) : Claims config now code := by
  induction code with
  | ret r => trivial
  | call o next ih =>
    cases o with
    | exchangeNextProbe expected new => exact h.1.elim
    | _ => exact ⟨h.1, fun r => ih r (h.2 r)⟩

variable (config now)

theorem noProbe_try (e : PushEndpoint) : NoProbe config now (tryEndpoint e false) := by
  have hplain : Plain config now (.sendTo e false) := by
    cases e <;> trivial
  exact Code.Asks.bind ((Code.asks_op _).2 hplain) fun a => Code.Asks.bind ((Code.asks_op _).2 trivial) fun _ => trivial

theorem noProbe_switchIfAccepted (e : PushEndpoint) (a : PushAction) :
    NoProbe config now (switchIfAccepted config now e a) := by
  have hexchange : NoProbe config now (exchange e) := by
    refine Code.Asks.bind ((Code.asks_op _).2 trivial) fun old => ?_
    by_cases hold : old = e
    · rw [if_pos hold]
      exact Code.asks_pure none
    · rw [if_neg hold]
      cases e <;> exact Code.Asks.bind ((Code.asks_op _).2 trivial) fun _ => Code.asks_pure _
  unfold switchIfAccepted
  by_cases ha : a = .accepted
  · rw [if_pos ha]
    refine Code.Asks.bind ?_ fun switched => Code.asks_pure _
    cases e with
    | primary => exact hexchange
    | backup => exact Code.Asks.bind ((Code.asks_op _).2 rfl) fun _ => hexchange
  · rw [if_neg ha]
    exact Code.asks_pure _

/-- one endpoint, and the other one behind it -/
theorem noProbe_two (e e' : PushEndpoint) : NoProbe config now (do
    let action ← tryEndpoint e false
    if action ≠ .retry then pure (action, none)
    else do
      let action ← tryEndpoint e' false
      switchIfAccepted config now e' action) := by
  refine Code.Asks.bind (noProbe_try config now e) fun a => ?_
  by_cases ha : a ≠ .retry
  · rw [if_pos ha]
    exact Code.asks_pure _
  · rw [if_neg ha]
    exact Code.Asks.bind (noProbe_try config now e') fun a' => noProbe_switchIfAccepted config now e' a'

theorem noProbe_sendFromPrimary : NoProbe config now (sendFromPrimary config now) :=
    noProbe_two config now .primary .backup

theorem noProbe_sendFromBackup : NoProbe config now (sendFromBackup config now) :=
    noProbe_two config now .backup .primary

/-- **The text of `Send`.** -/
theorem send_claims : Claims config now (send config now) := by
  unfold send
  by_cases hb : config.hasBackup = false
  · rw [if_pos hb]
    exact Claims.of_noProbe (Code.Asks.bind (noProbe_try config now .primary) fun a => Code.asks_pure _)
  · rw [if_neg hb]
    refine ⟨trivial, fun active => ?_⟩
    cases active with
    | primary => exact Claims.of_noProbe (noProbe_sendFromPrimary config now)
    | backup =>
      refine ⟨trivial, fun next => ?_⟩
      by_cases hdue : next ≤ now
      · simp only [Code.bind, if_pos hdue]
        refine ⟨hdue, rfl, noProbe_sendFromBackup config now, _, rfl, fun a => ?_⟩
        refine ⟨trivial, fun _ => ?_⟩
        change NoProbe config now
          (if a ≠ .retry then switchIfAccepted config now .primary a else sendFromBackup config now)
        by_cases ha : a ≠ .retry
        · rw [if_pos ha]
          exact noProbe_switchIfAccepted config now .primary a
        · rw [if_neg ha]
          exact noProbe_sendFromBackup config now
      · simp only [Code.bind, if_neg hdue]
        exact Claims.of_noProbe (noProbe_sendFromBackup config now)

end Text

/-! ## What a turn does -/

/-- where a call is: in front of its probe, or not so -/
inductive Place (config : Config) (now : ℤ) : Text Result → Prop where
  | claims {code : Text Result} : Claims config now code → Place config now code
  | probes {next : PushAction → Text Result} :
      (∀ a, NoProbe config now (next a)) → Place config now (.call (.sendTo .primary true) next)

theorem Claims.not_probes {config : Config} {now : ℤ} {next : PushAction → Text Result} :
    ¬ Claims config now (.call (.sendTo .primary true) next) := fun h => h.1

/-- the probes so far, and those which are made next, are apart, and lie in front of the next one -/
structure Probed (config : Config) (w : Watch) : Prop where
  length : w.nows.length = w.calls.threads.length
  place : ∀ (i : ℕ) (t : Thread Op Res Result) (now : ℤ), w.calls.threads[i]? = some t → w.nows[i]? = some now →
    Place config now t.code
  made : w.probes.Pairwise (Apart config)
  made_open : ∀ p ∈ w.probes, ∀ i q, w.OnTheWay i q → Apart config p q
  open_open : ∀ i p j q, i ≠ j → w.OnTheWay i p → w.OnTheWay j q → Apart config p q
  next : ∀ p, (p ∈ w.probes ∨ ∃ i, w.OnTheWay i p) → p + config.failbackSec ≤ w.calls.memory.nextProbe

section Turns

variable {config : Config} {w w' : Watch}

/-- a turn which claims nothing -/
theorem Probed.less (h : Probed config w) (hlength : w'.nows.length = w'.calls.threads.length)
    (hplace : ∀ (i : ℕ) (t : Thread Op Res Result) (now : ℤ), w'.calls.threads[i]? = some t → w'.nows[i]? = some now →
      Place config now t.code)
    (hprobes : w'.probes.Sublist w.probes) (hopen : ∀ i p, w'.OnTheWay i p → w.OnTheWay i p)
    (hnext : ∀ p, (p ∈ w'.probes ∨ ∃ i, w'.OnTheWay i p) → p + config.failbackSec ≤ w'.calls.memory.nextProbe) :
    Probed config w' :=
  ⟨hlength, hplace, h.made.sublist hprobes, fun p hp i q hq => h.made_open p (hprobes.subset hp) i q (hopen i q hq),
    fun i p j q hij hp hq => h.open_open i p j q hij (hopen i p hp) (hopen j q hq), hnext⟩

theorem probe_nil {i : ℕ} {a : PushAction} {o : Op} {next : Res o → Text Result} {trace : List (Event Op Res)}
    (hi : w.calls.threads[i]? = some ⟨.call o next, trace⟩) (ho : o ≠ .sendTo .primary true) :
    w.probe (.step i a) = [] := by
  simp only [Watch.probe, hi]
  split
  · rename_i heq
    simp only [Option.some.injEq, Thread.mk.injEq, Code.call.injEq] at heq
    exact absurd heq.1.1 ho
  · rfl

/-- only the call `i` is at another place -/
theorem onTheWay_set {i : ℕ} {code : Text Result} {trace : List (Event Op Res)} (hi : i < w.calls.threads.length)
    (hthreads : w'.calls.threads = w.calls.threads.set i ⟨code, trace⟩) (hnows : w'.nows = w.nows) {j : ℕ} {q : ℤ}
    (h : w'.OnTheWay j q) : (j ≠ i ∧ w.OnTheWay j q) ∨
      (j = i ∧ w.nows[i]? = some q ∧ ∃ next, code = .call (.sendTo .primary true) next) := by
  obtain ⟨⟨next, trace', hj⟩, hq⟩ := h
  rw [hthreads] at hj
  rw [hnows] at hq
  by_cases hji : j = i
  · subst hji
    rw [List.getElem?_set_self hi, Option.some.injEq, Thread.mk.injEq] at hj
    exact Or.inr ⟨rfl, hq, next, hj.1⟩
  · rw [List.getElem?_set_ne (Ne.symm hji)] at hj
    exact Or.inl ⟨hji, ⟨next, trace', hj⟩, hq⟩

theorem Probed.place_set (h : Probed config w) {i : ℕ} {code : Text Result} {trace : List (Event Op Res)} {now : ℤ}
    (hthreads : w'.calls.threads = w.calls.threads.set i ⟨code, trace⟩) (hnows : w'.nows = w.nows)
    (hnow : w.nows[i]? = some now) (hcode : Place config now code) (j : ℕ) (t : Thread Op Res Result) (now' : ℤ)
    (hj : w'.calls.threads[j]? = some t) (hnow' : w'.nows[j]? = some now') : Place config now' t.code := by
  rw [hthreads] at hj
  rw [hnows] at hnow'
  by_cases hji : j = i
  · subst hji
    obtain ⟨-, rfl⟩ : _ ∧ _ = t := by simpa [List.getElem?_set] using hj
    rw [hnow, Option.some.injEq] at hnow'
    exact hnow' ▸ hcode
  · rw [List.getElem?_set_ne (Ne.symm hji)] at hj
    exact h.place j t now' hj hnow'

theorem mem_openProbes {i : ℕ} {p : ℤ} (h : w.OnTheWay i p) : p ∈ w.openProbes := by
  obtain ⟨⟨next, trace, hi⟩, hp⟩ := h
  obtain ⟨hlt, -⟩ := List.getElem?_eq_some_iff.1 hi
  refine List.mem_flatMap.2 ⟨i, List.mem_range.2 hlt, ?_⟩
  simp only [hi, hp, Option.toList_some, List.mem_singleton]

/-- an operation of a call, which has the time `now` -/
structure OpStep (w w' : Watch) (i : ℕ) (now : ℤ) (a : PushAction) (o : Op) (next : Res o → Text Result) : Prop where
  lt : i < w.calls.threads.length
  before : ∃ trace, w.calls.threads[i]? = some ⟨.call o next, trace⟩
  now : w.nows[i]? = some now
  nows : w'.nows = w.nows
  threads : ∃ trace, w'.calls.threads = w.calls.threads.set i ⟨next (apply a o w.calls.memory).1, trace⟩
  memory : w'.calls.memory = (apply a o w.calls.memory).2
  probes : w'.probes.Sublist (w.probes ++ w.probe (.step i a))

theorem step_probes (config : Config) (turn : Turn) : (w.step config turn).probes.Sublist
    (w.probes ++ w.probe turn) := by
  simp only [Watch.step]
  split_ifs
  · exact List.Sublist.refl _
  · exact List.nil_sublist _

theorem step_probes_nil {turn : Turn} (h : w.probe turn = []) : (w.step config turn).probes.Sublist w.probes := by
  have hprobes := step_probes (w := w) config turn
  rwa [h, List.append_nil] at hprobes

theorem step_cases (config : Config) (h : w.nows.length = w.calls.threads.length) (turn : Turn) :
    (∃ now, turn = .call now ∧ (w.step config turn).calls.threads = w.calls.threads ++ [⟨send config now, []⟩] ∧
      (w.step config turn).nows = w.nows ++ [now] ∧ (w.step config turn).calls.memory = w.calls.memory ∧
      (w.step config turn).probes.Sublist w.probes) ∨
    (∃ i now a o next, turn = .step i a ∧ OpStep w (w.step config turn) i now a o next) ∨
    (w.step config turn).calls = w.calls ∧ (w.step config turn).nows = w.nows ∧
      (w.step config turn).probes.Sublist w.probes := by
  cases turn with
  | call now => exact Or.inl ⟨now, rfl, rfl, rfl, rfl, step_probes_nil rfl⟩
  | step i a =>
    refine Or.inr ?_
    cases ht : w.calls.threads[i]? with
    | none =>
      refine Or.inr ⟨?_, List.append_nil _, step_probes_nil ?_⟩
      · simp only [Watch.step, Turn.act, Pool.step, ht]
      · simp only [Watch.probe, ht]
    | some t =>
      obtain ⟨code, trace⟩ := t
      cases code with
      | ret r =>
        refine Or.inr ⟨?_, List.append_nil _, step_probes_nil ?_⟩
        · simp only [Watch.step, Turn.act, Pool.step, ht]
        · simp only [Watch.probe, ht]
      | call o next =>
        obtain ⟨hlt, -⟩ := List.getElem?_eq_some_iff.1 ht
        have hnow : w.nows[i]? = some (w.nows.get ⟨i, h ▸ hlt⟩) := List.getElem?_eq_getElem _
        refine Or.inl ⟨i, _, a, o, next, rfl, hlt, ⟨trace, ht⟩, hnow, List.append_nil _, ?_, ?_, step_probes config _⟩
        · exact ⟨trace ++ [⟨o, (apply a o w.calls.memory).1⟩], by simp only [Watch.step, Turn.act, Pool.step, ht]⟩
        · simp only [Watch.step, Turn.act, Pool.step, ht]

/-- a turn which claims the probe, behind everything so far -/
theorem Probed.claim (h : Probed config w) (hsec : 0 ≤ config.failbackSec) {i : ℕ} {now : ℤ}
    (hlength : w'.nows.length = w'.calls.threads.length)
    (hplace : ∀ (j : ℕ) (t : Thread Op Res Result) (now' : ℤ), w'.calls.threads[j]? = some t → w'.nows[j]? = some now' →
      Place config now' t.code)
    (hprobes : w'.probes.Sublist w.probes)
    (hopen : ∀ j q, w'.OnTheWay j q → (j ≠ i ∧ w.OnTheWay j q) ∨ (j = i ∧ q = now))
    (hdue : w.calls.memory.nextProbe ≤ now) (hnext : w'.calls.memory.nextProbe = now + config.failbackSec) :
    Probed config w' := by
  have hold : ∀ p, (p ∈ w.probes ∨ ∃ j, w.OnTheWay j p) → p + config.failbackSec ≤ now := fun p hp =>
    (h.next p hp).trans hdue
  have hapart : ∀ p, (p ∈ w.probes ∨ ∃ j, w.OnTheWay j p) → Apart config p now := by
    intro p hp
    have hle := hold p hp
    have habs := neg_le_abs (p - now)
    unfold Apart
    omega
  refine ⟨hlength, hplace, h.made.sublist hprobes, ?_, ?_, ?_⟩
  · intro p hp j q hq
    rcases hopen j q hq with ⟨-, hq⟩ | ⟨-, rfl⟩
    · exact h.made_open p (hprobes.subset hp) j q hq
    · exact hapart p (Or.inl (hprobes.subset hp))
  · intro j p k q hjk hp hq
    rcases hopen j p hp with ⟨-, hp⟩ | ⟨rfl, rfl⟩ <;> rcases hopen k q hq with ⟨-, hq⟩ | ⟨rfl, rfl⟩
    · exact h.open_open j p k q hjk hp hq
    · exact hapart p (Or.inr ⟨j, hp⟩)
    · unfold Apart
      rw [abs_sub_comm]
      exact hapart q (Or.inr ⟨k, hq⟩)
    · exact absurd rfl hjk
  · intro p hp
    rw [hnext]
    rcases hp with hp | ⟨j, hp⟩
    · have hle := hold p (Or.inl (hprobes.subset hp))
      omega
    · rcases hopen j p hp with ⟨-, hp⟩ | ⟨-, rfl⟩
      · have hle := hold p (Or.inr ⟨j, hp⟩)
        omega
      · exact le_rfl

/-- a call makes its probe -/
theorem Probed.probe (h : Probed config w) {i : ℕ} {now : ℤ} (hlength : w'.nows.length = w'.calls.threads.length)
    (hplace : ∀ (j : ℕ) (t : Thread Op Res Result) (now' : ℤ), w'.calls.threads[j]? = some t → w'.nows[j]? = some now' →
      Place config now' t.code)
    (hprobes : w'.probes.Sublist (w.probes ++ [now])) (hway : w.OnTheWay i now)
    (hopen : ∀ j q, w'.OnTheWay j q → j ≠ i ∧ w.OnTheWay j q)
    (hnext : w'.calls.memory.nextProbe = w.calls.memory.nextProbe) : Probed config w' := by
  have hsub : ∀ p ∈ w'.probes, p ∈ w.probes ∨ p = now := by
    intro p hp
    simpa using hprobes.subset hp
  refine ⟨hlength, hplace, ?_, ?_, ?_, ?_⟩
  · refine List.Pairwise.sublist hprobes (List.pairwise_append.2 ⟨h.made, List.pairwise_singleton _ _, ?_⟩)
    intro p hp q hq
    rw [List.mem_singleton.1 hq]
    exact h.made_open p hp i now hway
  · intro p hp j q hq
    obtain ⟨hji, hq⟩ := hopen j q hq
    rcases hsub p hp with hp | rfl
    · exact h.made_open p hp j q hq
    · exact h.open_open i p j q (Ne.symm hji) hway hq
  · exact fun j p k q hjk hp hq => h.open_open j p k q hjk (hopen j p hp).2 (hopen k q hq).2
  · intro p hp
    rw [hnext]
    refine h.next p ?_
    rcases hp with hp | ⟨j, hp⟩
    · rcases hsub p hp with hp | rfl
      · exact Or.inl hp
      · exact Or.inr ⟨i, hway⟩
    · exact Or.inr ⟨j, (hopen j p hp).2⟩

/-- the next operation of a call -/
theorem Probed.op (h : Probed config w) (hsec : 0 ≤ config.failbackSec) {i : ℕ} {now : ℤ} {a : PushAction} {o : Op}
    {next : Res o → Text Result} (hstep : OpStep w w' i now a o next) (hswitch : w.SwitchNotOlder (.step i a)) :
    Probed config w' := by
  obtain ⟨hlt, ⟨trace, hbefore⟩, hnow, hnows, ⟨trace', hthreads⟩, hmemory, hprobes⟩ := hstep
  have hlength : w'.nows.length = w'.calls.threads.length := by
    rw [hnows, hthreads, List.length_set, h.length]
  have hset := fun j q => onTheWay_set (j := j) (q := q) hlt hthreads hnows
  have hplace := fun hcode => h.place_set hthreads hnows hnow hcode
  cases h.place i _ now hbefore hnow with
  | @probes after hquiet =>
    have hprobe : w.probe (.step i a) = [now] := by
      simp only [Watch.probe, hbefore, hnow, Option.toList_some]
    have hway : w.OnTheWay i now := ⟨⟨after, trace, hbefore⟩, hnow⟩
    rw [hprobe] at hprobes
    refine h.probe hlength (hplace (.claims (Claims.of_noProbe (hquiet a)))) hprobes hway ?_ (hmemory ▸ rfl)
    intro j q hq
    rcases hset j q hq with hold | ⟨-, -, next', hnext⟩
    · exact hold
    · have hno := hquiet a
      have heq : after a = _ := hnext
      rw [heq] at hno
      exact hno.1.elim
  | claims hclaims =>
    have hprobe : w.probe (.step i a) = [] := by
      refine probe_nil hbefore ?_
      rintro rfl
      exact hclaims.1
    rw [hprobe, List.append_nil] at hprobes
    -- an operation which leads to no probe
    have hplain : Claims config now (next (apply a o w.calls.memory).1) →
        (∀ p, (p ∈ w.probes ∨ ∃ j, w.OnTheWay j p) → p + config.failbackSec ≤ w'.calls.memory.nextProbe) →
        Probed config w' := by
      intro hcode hnext
      have hopen : ∀ j q, w'.OnTheWay j q → w.OnTheWay j q := by
        intro j q hq
        rcases hset j q hq with hold | ⟨-, -, next', heq⟩
        · exact hold.2
        · rw [heq] at hcode
          exact hcode.1.elim
      refine h.less hlength (hplace (.claims hcode)) hprobes hopen fun p hp => hnext p ?_
      exact hp.imp (fun hp => hprobes.subset hp) fun ⟨j, hp⟩ => ⟨j, hopen j p hp⟩
    cases o with
    | exchangeNextProbe expected new =>
      obtain ⟨hdue, rfl, hfalse, after, htrue, hafter⟩ := hclaims
      by_cases hmoved : w.calls.memory.nextProbe = expected
      · rw [apply_moved hmoved] at hmemory hplace hset
        refine h.claim hsec hlength (hplace (htrue.symm ▸ .probes hafter)) hprobes (i := i) ?_ (hmoved.trans_le hdue)
          (hmemory ▸ rfl)
        intro j q hq
        rcases hset j q hq with hold | ⟨hji, hq, -⟩
        · exact Or.inl hold
        · rw [hnow] at hq
          exact Or.inr ⟨hji, (Option.some.inj hq).symm⟩
      · rw [apply_not_moved hmoved] at hmemory hplain
        exact hplain (Claims.of_noProbe hfalse) fun p hp => hmemory ▸ h.next p hp
    | storeNextProbe t =>
      obtain ⟨ht, hcode⟩ := hclaims
      refine hplain (hcode _) fun p hp => ?_
      have hstores : now ∈ w.switching (.step i a) := by
        simp only [Watch.switching, hbefore, hnow, Option.mem_def]
      have hmem : p ∈ w.probes ++ w.openProbes :=
        List.mem_append.2 (hp.imp id fun ⟨j, hj⟩ => mem_openProbes hj)
      have hle := hswitch now hstores p hmem
      have ht : t = now + config.failbackSec := ht
      have hnext : w'.calls.memory.nextProbe = t := hmemory ▸ rfl
      omega
    | _ => exact hplain (hclaims.2 _) fun p hp => hmemory ▸ h.next p hp

/-- **What a turn keeps**, unless it is a switch of a call which is older than a probe. -/
theorem Probed.step (h : Probed config w) (hsec : 0 ≤ config.failbackSec) (turn : Turn)
    (hswitch : w.SwitchNotOlder turn) :
    Probed config (w.step config turn) := by
  rcases step_cases config h.length turn with ⟨now, rfl, hthreads, hnows, hmemory, hprobes⟩ |
    ⟨i, now, a, o, next, rfl, hstep⟩ | ⟨hcalls, hnows, hprobes⟩
  · have hold : ∀ j : ℕ, j ≠ w.calls.threads.length →
      (w.step config (.call now)).calls.threads[j]? = w.calls.threads[j]? ∧
        (w.step config (.call now)).nows[j]? = w.nows[j]? := by
      intro j hj
      rw [hthreads, hnows]
      by_cases hlt : j < w.calls.threads.length
      · exact ⟨List.getElem?_append_left hlt, List.getElem?_append_left (h.length ▸ hlt)⟩
      · have hlength := h.length
        constructor
        · rw [List.getElem?_eq_none (by simp; omega), List.getElem?_eq_none (by omega)]
        · rw [List.getElem?_eq_none (by simp; omega), List.getElem?_eq_none (by omega)]
    have hnew : (w.step config (.call now)).calls.threads[w.calls.threads.length]? = some ⟨send config now, []⟩ := by
      rw [hthreads, List.getElem?_concat_length]
    have hopen : ∀ j q, (w.step config (.call now)).OnTheWay j q → w.OnTheWay j q := by
      rintro j q ⟨⟨next, trace, hj⟩, hq⟩
      by_cases hjl : j = w.calls.threads.length
      · subst hjl
        rw [hnew, Option.some.injEq, Thread.mk.injEq] at hj
        exact absurd (hj.1 ▸ send_claims config now) Claims.not_probes
      · rw [(hold j hjl).1] at hj
        rw [(hold j hjl).2] at hq
        exact ⟨⟨next, trace, hj⟩, hq⟩
    refine h.less (by rw [hnows, hthreads]; simp [h.length]) ?_ hprobes hopen ?_
    · intro j t now' hj hnow'
      by_cases hjl : j = w.calls.threads.length
      · subst hjl
        rw [hnew, Option.some.injEq] at hj
        rw [hnows, ← h.length, List.getElem?_concat_length, Option.some.injEq] at hnow'
        rw [← hj, ← hnow']
        exact .claims (send_claims config now)
      · rw [(hold j hjl).1] at hj
        rw [(hold j hjl).2] at hnow'
        exact h.place j t now' hj hnow'
    · intro p hp
      rw [hmemory]
      exact h.next p (hp.imp (fun hp => hprobes.subset hp) fun ⟨j, hp⟩ => ⟨j, hopen j p hp⟩)
  · exact h.op hsec hstep hswitch
  · have hopen : ∀ j q, (w.step config turn).OnTheWay j q → w.OnTheWay j q := by
      intro j q hq
      unfold Watch.OnTheWay at hq ⊢
      rwa [hcalls, hnows] at hq
    refine h.less (by rw [hnows, hcalls, h.length]) ?_ hprobes hopen ?_
    · intro j t now' hj hnow'
      rw [hcalls] at hj
      rw [hnows] at hnow'
      exact h.place j t now' hj hnow'
    · intro p hp
      rw [hcalls]
      exact h.next p (hp.imp (fun hp => hprobes.subset hp) fun ⟨j, hp⟩ => ⟨j, hopen j p hp⟩)

end Turns

/-! ## Any number of threads -/

theorem run_probed {config : Config} (hsec : 0 ≤ config.failbackSec) {w : Watch} (h : Probed config w)
    {turns : List Turn}
    (hswitches : Watch.SwitchesNotOlder config w turns) : Probed config (w.run config turns) := by
  induction turns generalizing w with
  | nil => exact h
  | cons turn turns ih => exact ih (h.step hsec turn hswitches.1) hswitches.2

/-- **The probes are apart**, as long as no call which switches to the backup is older than a probe. -/
theorem probes_apart (config : Config) (turns : List Turn) (hswitches : Watch.SwitchesNotOlder config {} turns) :
    (Watch.run config {} turns).probes.Pairwise (Apart config) := by
  by_cases hsec : 0 ≤ config.failbackSec
  · have hstart : Probed config {} := by
      refine ⟨rfl, ?_, List.Pairwise.nil, by simp, ?_, ?_⟩
      · intro i t now hi
        simp at hi
      · intro i p j q _ hp
        obtain ⟨⟨next, trace, hi⟩, -⟩ := hp
        simp at hi
      · rintro p (hp | ⟨i, ⟨⟨next, trace, hi⟩, -⟩⟩)
        · simp at hp
        · simp at hi
    exact (run_probed hsec hstart hswitches).made
  · refine List.pairwise_of_forall fun p q => ?_
    have habs := abs_nonneg (p - q)
    unfold Apart
    omega

section Runs

/-- operations of a call, with what the function of the caller answers -/
def ops (i : ℕ) (answers : List PushAction) : List Turn := answers.map (.step i)

/-- a switch to the backup, and two probes -/
theorem probes_apart_two :
    (Watch.run { hasBackup := true } {} (.call 0 :: ops 0 [.retry, .retry, .retry, .accepted, .retry, .retry, .retry] ++
      .call 60 :: ops 1 [.retry, .retry, .retry, .retry] ++
        .call 120 :: ops 2 [.retry, .retry, .retry, .retry])).probes.Pairwise
        (Apart { hasBackup := true }) :=
  probes_apart _ _ (by decide +kernel)

/-- the first call is still on its way to its switch when the backup is in use for long -/
def slowSwitch : List Turn :=
  .call 0 :: ops 0 [.retry, .retry, .retry, .accepted, .retry] ++
    .call 1 :: ops 1 [.retry, .retry, .retry, .accepted, .retry, .retry, .retry, .retry] ++
    .call 61 :: ops 2 [.retry, .retry, .retry, .retry] ++ ops 0 [.retry, .retry] ++
    .call 62 :: ops 3 [.retry, .retry, .retry, .retry]

/-- the times do not go back, and two calls probe within a second -/
theorem two_probes : ¬ ∀ (config : Config) (turns : List Turn), (Watch.run config {} turns).nows.Pairwise (· ≤ ·) →
    (Watch.run config {} turns).probes.Pairwise (Apart config) := by
  intro h
  have hprobes := h { hasBackup := true } slowSwitch (by decide +kernel)
  revert hprobes
  decide +kernel

end Runs

end DominoLogForwarder.Push
