/-
`PushFailover` with any number of threads: calls of `Send` in any interleaving of their operations.

`send_always` is what every call does, whatever the operations answer, so it holds of a call among others too.
`members_inv` ties the members to the list of all operations. When no call is in progress, both are about the same
operations, and `calls_consistent` puts them together.
-/
import DominoLogForwarder.Push.Failover

namespace DominoLogForwarder.Push

open Threads

abbrev Calls : Type := Pool Op Res Result Members

/-- a call which starts, or the next operation of a call -/
abbrev Act : Type := Threads.Act Op Res Result PushAction

/-- the calls which are started are calls of `Send` -/
def Sending (config : Config) (acts : List Act) : Prop := Pool.Starts (fun code => ∃ now, code = send config now) acts

def Calls.run (acts : List Act) : Calls := Pool.run apply { memory := {} } acts

/-! ## What the operations say -/

/-- a call of the function of the caller -/
def sentOf : Event Op Res → Multiset (PushEndpoint × PushAction)
  | ⟨.sendTo e _, action⟩ => {(e, action)}
  | _ => 0

/-- a request which is counted -/
def countedOf : Event Op Res → Multiset (PushEndpoint × PushAction)
  | ⟨.countRequest e action, _⟩ => {(e, action)}
  | _ => 0

/-- another endpoint is in use -/
def switchOf : Event Op Res → Multiset PushEndpoint
  | ⟨.exchangeActive e, old⟩ => if old = e then 0 else {e}
  | _ => 0

/-- a switch which is counted -/
def countedSwitchOf : Event Op Res → Multiset PushEndpoint
  | ⟨.countFailover, _⟩ => {.backup}
  | ⟨.countFailback, _⟩ => {.primary}
  | _ => 0

/-- the sum over the operations of a call, or of all calls -/
def total {M : Type} [AddCommMonoid M] (f : Event Op Res → M) (trace : List (Event Op Res)) : M := (trace.map f).sum

@[simp] theorem total_nil {M : Type} [AddCommMonoid M] (f : Event Op Res → M) : total f [] = 0 := rfl

@[simp] theorem total_append {M : Type} [AddCommMonoid M] (f : Event Op Res → M) (t t' : List (Event Op Res)) :
    total f (t ++ t') = total f t + total f t' := by
  simp [total]

@[simp] theorem total_cons {M : Type} [AddCommMonoid M] (f : Event Op Res → M) (ev : Event Op Res)
    (t : List (Event Op Res)) : total f (ev :: t) = f ev + total f t := by
  simp [total]

/-- what `*pSwitchedTo` says -/
def reports (r : Result) : Multiset PushEndpoint := r.2.toList

/-- what every call does -/
structure CallOk (trace : List (Event Op Res)) (r : Result) : Prop where
  counted : total countedOf trace = total sentOf trace
  countedSwitch : total countedSwitchOf trace = total switchOf trace
  reported : total switchOf trace = reports r
  last : (tries trace).getLast?.map Try.action = some r.1

/-! ## A call among others -/

section Always

variable {config : Config} {now : ℤ} {t : List (Event Op Res)}

/-- nothing is open: what was sent is counted, and no endpoint was switched yet -/
structure Settled (trace : List (Event Op Res)) : Prop where
  counted : total countedOf trace = total sentOf trace
  switches : total switchOf trace = 0
  countedSwitches : total countedSwitchOf trace = 0

theorem Settled.ok (h : Settled t) {a : PushAction} (hlast : (tries t).getLast?.map Try.action = some a) :
    CallOk t (a, none) :=
  ⟨h.counted, h.countedSwitches.trans h.switches.symm, h.switches, hlast⟩

/-- an operation which neither sends nor switches nor counts -/
theorem Settled.other (h : Settled t) {ev : Event Op Res} (hsent : sentOf ev = 0) (hcounted : countedOf ev = 0)
    (hswitch : switchOf ev = 0) (hcountedSwitch : countedSwitchOf ev = 0) : Settled (t ++ [ev]) := by
  constructor
  · simp [hsent, hcounted, h.counted]
  · simp [hswitch, h.switches]
  · simp [hcountedSwitch, h.countedSwitches]

theorem always_call {α : Type} {Q : List (Event Op Res) → α → Prop} (o : Op) (f : Res o → Text α) :
    (op o >>= f).Always Q t ↔ ∀ r, (f r).Always Q (t ++ [⟨o, r⟩]) := Iff.rfl

theorem always_try {Q : List (Event Op Res) → PushAction → Prop} (e : PushEndpoint) (probe : Bool) (h : Settled t)
    (hQ : ∀ t' a, Settled t' → (tries t').getLast?.map Try.action = some a → Q t' a) :
    (tryEndpoint e probe).Always Q t := by
  intro a _
  apply hQ
  · constructor
    · simp [sentOf, countedOf, h.counted]
    · simp [switchOf, h.switches]
    · simp [countedSwitchOf, h.countedSwitches]
  · simp [tries]

theorem always_exchange {e : PushEndpoint} (h : Settled t) :
    (exchange e).Always (fun t' switched => total countedOf t' = total sentOf t' ∧
      total countedSwitchOf t' = total switchOf t' ∧ total switchOf t' = (switched.toList : Multiset PushEndpoint) ∧
      tries t' = tries t) t := by
  unfold exchange
  refine (always_call _ _).2 fun old => ?_
  by_cases hold : old = e
  · rw [if_pos hold]
    refine ⟨?_, ?_, ?_, ?_⟩ <;>
      simp [sentOf, countedOf, switchOf, countedSwitchOf, tries, hold, h.counted, h.switches, h.countedSwitches]
  · rw [if_neg hold]
    cases e <;>
      · intro _
        refine ⟨?_, ?_, ?_, ?_⟩ <;> simp [sentOf, countedOf, switchOf, countedSwitchOf, tries, hold, h.counted,
          h.switches, h.countedSwitches]

theorem always_switchIfAccepted {e : PushEndpoint} {a : PushAction} (h : Settled t)
    (hlast : (tries t).getLast?.map Try.action = some a) : (switchIfAccepted config now e a).Always CallOk t := by
  unfold switchIfAccepted
  by_cases ha : a = .accepted
  · rw [if_pos ha, Code.always_bind]
    have hdone : ∀ t₁, Settled t₁ → tries t₁ = tries t → (exchange e).Always
        (fun t' switched => CallOk t' (a, switched)) t₁ := by
      intro t₁ h₁ htries
      refine (always_exchange h₁).mono fun t' switched ⟨hcounted, hswitches, hreported, hsame⟩ => ?_
      exact ⟨hcounted, hswitches, hreported, by rw [hsame, htries, hlast]⟩
    cases e with
    | primary => exact hdone t h rfl
    | backup =>
      refine fun _ => hdone _ (h.other rfl rfl rfl rfl) ?_
      simp [tries]
  · rw [if_neg ha]
    exact h.ok hlast

theorem always_sendFromPrimary (h : Settled t) : (sendFromPrimary config now).Always CallOk t := by
  unfold sendFromPrimary
  rw [Code.always_bind]
  refine always_try _ _ h fun t₁ a₁ h₁ hlast₁ => ?_
  by_cases ha : a₁ ≠ .retry
  · rw [if_pos ha]
    exact h₁.ok hlast₁
  · rw [if_neg ha, Code.always_bind]
    exact always_try _ _ h₁ fun t₂ a₂ h₂ hlast₂ => always_switchIfAccepted h₂ hlast₂

theorem always_sendFromBackup (h : Settled t) : (sendFromBackup config now).Always CallOk t := by
  unfold sendFromBackup
  rw [Code.always_bind]
  refine always_try _ _ h fun t₁ a₁ h₁ hlast₁ => ?_
  by_cases ha : a₁ ≠ .retry
  · rw [if_pos ha]
    exact h₁.ok hlast₁
  · rw [if_neg ha, Code.always_bind]
    exact always_try _ _ h₁ fun t₂ a₂ h₂ hlast₂ => always_switchIfAccepted h₂ hlast₂

theorem always_sendProbe (h : Settled t) : (sendProbe config now).Always CallOk t := by
  unfold sendProbe
  rw [Code.always_bind]
  refine always_try _ _ h fun t₁ a₁ h₁ hlast₁ => ?_
  by_cases ha : a₁ ≠ .retry
  · rw [if_pos ha]
    exact always_switchIfAccepted h₁ hlast₁
  · rw [if_neg ha]
    exact always_sendFromBackup h₁

theorem always_claimProbe {Q : List (Event Op Res) → Bool → Prop} (h : Settled t) (hQ : ∀ t' b, Settled t' → Q t' b) :
    (claimProbe config now).Always Q t := by
  unfold claimProbe
  refine (always_call _ _).2 fun next => ?_
  have h' : Settled (t ++ [⟨.loadNextProbe, next⟩]) := h.other rfl rfl rfl rfl
  split_ifs
  · exact fun b => hQ _ b (h'.other rfl rfl rfl rfl)
  · exact hQ _ false h'

/-- **What every call of `Send` does**, whatever the others do: every try is counted, a switch is counted and reported,
and the result is the one of the last try. -/
theorem send_always (config : Config) (now : ℤ) : (send config now).Always CallOk [] := by
  have hstart : Settled [] := ⟨rfl, rfl, rfl⟩
  unfold send
  by_cases hb : config.hasBackup = false
  · rw [if_pos hb, Code.always_bind]
    exact always_try _ _ hstart fun t₁ a₁ h₁ hlast₁ => h₁.ok hlast₁
  · rw [if_neg hb]
    refine (always_call _ _).2 fun active => ?_
    have h₁ : Settled ([] ++ [⟨.loadActive, active⟩]) := hstart.other rfl rfl rfl rfl
    cases active with
    | primary => exact always_sendFromPrimary h₁
    | backup =>
      dsimp only
      rw [Code.always_bind]
      refine always_claimProbe h₁ fun t₂ b h₂ => ?_
      cases b with
      | true => exact always_sendProbe h₂
      | false => exact always_sendFromBackup h₂

end Always

/-! ## The members -/

/-- the members after the operations `h` -/
structure MembersInv (m : Members) (h : List (Event Op Res)) : Prop where
  requests : ∀ e a, m.requests e a = (total countedOf h).count (e, a)
  failovers : m.failovers = (total countedSwitchOf h).count .backup
  failbacks : m.failbacks = (total countedSwitchOf h).count .primary
  active : ((total switchOf h).count .backup : ℤ) - (total switchOf h).count .primary = onBackup m.active

theorem apply_moved {answer : PushAction} {m : Members} {expected new : ℤ} (h : m.nextProbe = expected) :
    apply answer (.exchangeNextProbe expected new) m = (true, { m with nextProbe := new }) := if_pos h

theorem apply_not_moved {answer : PushAction} {m : Members} {expected new : ℤ} (h : m.nextProbe ≠ expected) :
    apply answer (.exchangeNextProbe expected new) m = (false, m) := if_neg h

theorem members_inv (answer : PushAction) (o : Op) (m : Members) (h : List (Event Op Res)) (hm : MembersInv m h) :
    MembersInv (apply answer o m).2 (h ++ [⟨o, (apply answer o m).1⟩]) := by
  obtain ⟨hrequests, hfailovers, hfailbacks, hactive⟩ := hm
  cases o with
  | loadActive | loadNextProbe | storeNextProbe t | sendTo e probe =>
    constructor <;> simp [apply, countedOf, switchOf, countedSwitchOf, *]
  | exchangeNextProbe expected new =>
    by_cases hmoved : m.nextProbe = expected
    · rw [apply_moved hmoved]
      constructor <;> simp [countedOf, switchOf, countedSwitchOf, *]
    · rw [apply_not_moved hmoved]
      constructor <;> simp [countedOf, switchOf, countedSwitchOf, *]
  | countRequest e a =>
    refine ⟨fun e' a' => ?_, ?_, ?_, ?_⟩
    · simp [apply, countedOf, hrequests, Multiset.count_singleton, eq_comm]
    all_goals simp [apply, switchOf, countedSwitchOf, *]
  | countFailover | countFailback => constructor <;> simp [apply, countedOf, switchOf, countedSwitchOf, *]
  | exchangeActive e =>
    refine ⟨?_, ?_, ?_, ?_⟩
    · simp [apply, countedOf, hrequests]
    · simp [apply, countedSwitchOf, hfailovers]
    · simp [apply, countedSwitchOf, hfailbacks]
    · revert hactive
      cases e <;> cases hact : m.active <;> simp [apply, switchOf, onBackup, hact] <;> omega

/-- the new endpoint, for every act which changed the one in use -/
def Calls.changes (p : Calls) : List Act → List PushEndpoint
  | [] => []
  | act :: acts =>
    let p' := Pool.step apply p act
    (if p'.memory.active = p.memory.active then [] else [p'.memory.active]) ++ Calls.changes p' acts

theorem step_active (answer : PushAction) (o : Op) (m : Members) :
    switchOf ⟨o, (apply answer o m).1⟩ =
      if (apply answer o m).2.active = m.active then 0 else {(apply answer o m).2.active} := by
  cases o with
  | exchangeNextProbe expected new =>
    by_cases hmoved : m.nextProbe = expected
    · rw [apply_moved hmoved]
      simp [switchOf]
    · rw [apply_not_moved hmoved]
      simp [switchOf]
  | exchangeActive e =>
    by_cases hsame : m.active = e
    · simp [apply, switchOf, hsame]
    · simp [apply, switchOf, hsame, Ne.symm hsame]
  | _ => simp [apply, switchOf, Members.countRequest]

/-- the switches are the changes of the endpoint in use -/
theorem total_switches (p : Calls) (acts : List Act) :
    total switchOf (Pool.run apply p acts).history = total switchOf p.history + p.changes acts := by
  induction acts generalizing p with
  | nil => simp [Pool.run, Calls.changes]
  | cons act acts ih =>
    have hstep : total switchOf (Pool.step apply p act).history = total switchOf p.history +
        ((if (Pool.step apply p act).memory.active = p.memory.active then []
          else [(Pool.step apply p act).memory.active] : List PushEndpoint) : Multiset PushEndpoint) := by
      rcases p.step_cases apply act with ⟨code, rfl, heq⟩ | ⟨i, env, o, next, trace, rfl, hi, heq⟩ | heq <;> rw [heq]
      · simp
      · simp only [total_append, total_cons, total_nil, add_zero, step_active]
        split_ifs <;> simp
      · simp
    have hrun : Pool.run apply p (act :: acts) = Pool.run apply (Pool.step apply p act) acts := rfl
    rw [hrun, ih, hstep, add_assoc]
    rfl

/-! ## Calls which have returned -/

/-- no call is in progress -/
def Calls.Idle (p : Calls) : Prop := ∀ t ∈ p.threads, t.result?.isSome

/-- what the calls which returned reported -/
def Calls.reported (p : Calls) : Multiset PushEndpoint :=
  (p.threads.map fun t => (t.result?.map reports).getD 0).sum

theorem calls_ok {config : Config} {acts : List Act} (hsending : Sending config acts) {t : Thread Op Res Result}
    (ht : t ∈ (Calls.run acts).threads) {r : Result} (hr : t.result? = some r) : CallOk t.trace r := by
  refine Pool.run_result (fun code hcode => ?_) rfl ht hr
  obtain ⟨now, rfl⟩ := hsending code hcode
  exact send_always config now

theorem calls_total {M : Type} [AddCommMonoid M] (f : Event Op Res → M) (acts : List Act) :
    total f (Calls.run acts).history = ((Calls.run acts).threads.map fun t => total f t.trace).sum :=
  Pool.run_sum f rfl

/-- what holds of every call holds of all of them together -/
theorem idle_total {M : Type} [AddCommMonoid M] {f : Event Op Res → M} {g : Thread Op Res Result → M} {acts : List Act}
    (h : ∀ t ∈ (Calls.run acts).threads, total f t.trace = g t) :
    total f (Calls.run acts).history = ((Calls.run acts).threads.map g).sum := by
  rw [calls_total, List.map_congr_left h]

theorem card_sent (h : List (Event Op Res)) : (total sentOf h).card = (tries h).length := by
  induction h with
  | nil => rfl
  | cons ev h ih =>
    rw [total_cons, Multiset.card_add, ih]
    obtain ⟨o, r⟩ := ev
    cases o <;> simp [sentOf, tries, add_comm]

/-- **Any number of threads.** The result of a call is the one of its last try, and it reports the change which it made.
When no call is in progress, the counters agree with each other, with the endpoint in use and with the calls of the
function of the caller, and every change was reported by one call. -/
theorem calls_consistent (config : Config) (acts : List Act) (hsending : Sending config acts) :
    let p := Calls.run acts
    (∀ t ∈ p.threads, ∀ r, t.result? = some r →
      (r.1 = .accepted ↔ (tries t.trace).getLast?.map Try.action = some .accepted) ∧
      total switchOf t.trace = reports r) ∧
    (p.Idle →
      (p.memory.failovers : ℤ) - p.memory.failbacks = (if p.memory.active = .backup then 1 else 0) ∧
      (Calls.changes { memory := {} } acts : Multiset PushEndpoint) = p.reported ∧
      ∑ e, ∑ a, p.memory.requests e a = (tries p.history).length) := by
  intro p
  have hok : ∀ t ∈ p.threads, ∀ r, t.result? = some r → CallOk t.trace r := fun t ht r hr => calls_ok hsending ht hr
  have hinv : MembersInv p.memory p.history := by
    refine Pool.run_memory (fun answer o m h => members_inv answer o m h) ⟨fun _ _ => ?_, ?_, ?_, ?_⟩ <;> rfl
  refine ⟨fun t ht r hr => ⟨?_, (hok t ht r hr).reported⟩, fun hidle => ?_⟩
  rotate_left
  have hreturned : ∀ t ∈ p.threads, ∃ r, t.result? = some r := fun t ht => Option.isSome_iff_exists.1 (hidle t ht)
  refine ⟨?_, ?_, ?_⟩
  rotate_right
  · rw [(hok t ht r hr).last, Option.some.injEq]
  · have hcounted : total countedSwitchOf p.history = total switchOf p.history := by
      rw [calls_total, calls_total]
      exact congrArg _ (List.map_congr_left fun t ht => (hreturned t ht).elim fun r hr => (hok t ht r hr).countedSwitch)
    rw [hinv.failovers, hinv.failbacks, hcounted]
    exact hinv.active
  · have hchanges := total_switches { memory := {} } acts
    rw [total_nil, zero_add] at hchanges
    rw [← hchanges]
    refine idle_total fun t ht => ?_
    obtain ⟨r, hr⟩ := hreturned t ht
    rw [hr]
    exact (hok t ht r hr).reported
  · have hcounted : total countedOf p.history = total sentOf p.history := by
      rw [calls_total, calls_total]
      exact congrArg _ (List.map_congr_left fun t ht => (hreturned t ht).elim fun r hr => (hok t ht r hr).counted)
    have hsum : ∑ e, ∑ a, p.memory.requests e a = ∑ x : PushEndpoint × PushAction,
      (total sentOf p.history).count x := by
      rw [Fintype.sum_prod_type]
      simp only [hinv.requests, hcounted]
    rw [hsum, Multiset.sum_count_eq_card (fun x _ => Finset.mem_univ x), card_sent]

section Race

/-- two calls find the primary in use, and both switch to the backup -/
def race : List Act :=
  [.start (send { hasBackup := true } 0), .start (send { hasBackup := true } 5)] ++
    (List.range 8).flatMap fun k =>
      [.step 0 (if k < 2 then .retry else .accepted), .step 1 (if k < 2 then .retry else .accepted)]

theorem race_consistent :
    ((Calls.run race).memory.failovers : ℤ) - (Calls.run race).memory.failbacks =
      (if (Calls.run race).memory.active = .backup then 1 else 0) ∧
    (Calls.changes { memory := {} } race : Multiset PushEndpoint) = (Calls.run race).reported ∧
    ∑ e, ∑ a, (Calls.run race).memory.requests e a = (tries (Calls.run race).history).length := by
  have hsending : Sending { hasBackup := true } race := by
    intro code hcode
    simp only [race, List.mem_append, List.mem_cons, List.not_mem_nil, or_false, List.mem_flatMap,
      reduceCtorEq, and_false,
      exists_false, Threads.Act.start.injEq] at hcode
    rcases hcode with rfl | rfl
    · exact ⟨0, rfl⟩
    · exact ⟨5, rfl⟩
  have hidle : (Calls.run race).Idle := by
    unfold Calls.Idle
    decide +kernel
  exact (calls_consistent { hasBackup := true } race hsending).2 hidle

end Race

end DominoLogForwarder.Push
