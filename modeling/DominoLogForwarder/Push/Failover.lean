/-
`PushFailover` (`push_failover.hpp`): which of the two endpoints a request is sent to.

`send` is the text of `Send`, with one operation for each access to an atomic member and for each call of the function
which sends the request. What this function answers is not known: the environment decides. `*pSwitchedTo` belongs to
the caller, so it is a part of the result; -1 is `none`.

This module is about calls one after the other, in any number: `Sends.send` makes one more call. The times are seconds
without a bound, the counters have no bound either.
-/
import DominoLogForwarder.Lib.Threads

namespace DominoLogForwarder.Push

open Threads

/-! ## The object -/

/-- what `GetPushAction` makes of the status of an answer -/
inductive PushAction where
  | accepted
  | retry
  | rejected
deriving DecidableEq, Repr

inductive PushEndpoint where
  | primary
  | backup
deriving DecidableEq, Repr

instance : Fintype PushAction := ⟨{.accepted, .retry, .rejected}, fun a => by cases a <;> simp⟩

instance : Fintype PushEndpoint := ⟨{.primary, .backup}, fun e => by cases e <;> simp⟩

/-- what `Configure` sets -/
structure Config where
  hasBackup : Bool := false
  failbackSec : ℤ := 60
deriving DecidableEq, Repr

/-- the atomic members -/
structure Members where
  active : PushEndpoint := .primary
  nextProbe : ℤ := 0
  failovers : ℕ := 0
  failbacks : ℕ := 0
  requests : PushEndpoint → PushAction → ℕ := fun _ _ => 0

/-! ## Operations -/

inductive Op where
  | loadActive
  | loadNextProbe
  /-- `compare_exchange_strong` -/
  | exchangeNextProbe (expected new : ℤ)
  | storeNextProbe (t : ℤ)
  /-- `exchange`. The answer is the endpoint before -/
  | exchangeActive (e : PushEndpoint)
  /-- the call of the function of the caller -/
  | sendTo (e : PushEndpoint) (probe : Bool)
  | countRequest (e : PushEndpoint) (a : PushAction)
  | countFailover
  | countFailback
deriving DecidableEq, Repr

abbrev Res : Op → Type
  | .loadActive => PushEndpoint
  | .loadNextProbe => ℤ
  | .exchangeNextProbe _ _ => Bool
  | .exchangeActive _ => PushEndpoint
  | .sendTo _ _ => PushAction
  | _ => Unit

@[simps] def Members.countRequest (m : Members) (e : PushEndpoint) (a : PushAction) : Members :=
  { m with requests := fun e' a' => m.requests e' a' + if e = e' ∧ a = a' then 1 else 0 }

/-- one operation. The answer of the function of the caller is the one of the environment -/
def apply (answer : PushAction) : (o : Op) → Members → Res o × Members
  | .loadActive, m => (m.active, m)
  | .loadNextProbe, m => (m.nextProbe, m)
  | .exchangeNextProbe expected new, m =>
    if m.nextProbe = expected then (true, { m with nextProbe := new }) else (false, m)
  | .storeNextProbe t, m => ((), { m with nextProbe := t })
  | .exchangeActive e, m => (m.active, { m with active := e })
  | .sendTo _ _, m => (answer, m)
  | .countRequest e a, m => ((), m.countRequest e a)
  | .countFailover, m => ((), { m with failovers := m.failovers + 1 })
  | .countFailback, m => ((), { m with failbacks := m.failbacks + 1 })

/-! ## Send -/

abbrev Text (α : Type) : Type := Code Op Res α

def op (o : Op) : Text (Res o) := Code.op o

/-- the action, and what `*pSwitchedTo` is -/
abbrev Result : Type := PushAction × Option PushEndpoint

/-- `Try` -/
def tryEndpoint (e : PushEndpoint) (probe : Bool) : Text PushAction := do
  let action : PushAction ← op (.sendTo e probe)
  op (.countRequest e action)
  pure action

/-- the part of `SwitchTo` behind the next probe -/
def exchange (e : PushEndpoint) : Text (Option PushEndpoint) := do
  let old : PushEndpoint ← op (.exchangeActive e)
  if old = e then pure none
  else do
    match e with
    | .backup => op .countFailover
    | .primary => op .countFailback
    pure (some e)

def switchTo (config : Config) (now : ℤ) (e : PushEndpoint) : Text (Option PushEndpoint) := do
  match e with
  | .backup => op (.storeNextProbe (now + config.failbackSec))
  | .primary => pure ()
  exchange e

/-- the endpoint is in use from now on if it delivered the request -/
def switchIfAccepted (config : Config) (now : ℤ) (e : PushEndpoint) (action : PushAction) : Text Result := do
  if action = .accepted then do
    let switched ← switchTo config now e
    pure (action, switched)
  else pure (action, none)

/-- the primary is in use -/
def sendFromPrimary (config : Config) (now : ℤ) : Text Result := do
  let action ← tryEndpoint .primary false
  if action ≠ .retry then pure (action, none)
  else do
    let action ← tryEndpoint .backup false
    switchIfAccepted config now .backup action

/-- the backup is in use, and the primary was tried if there was a probe -/
def sendFromBackup (config : Config) (now : ℤ) : Text Result := do
  let action ← tryEndpoint .backup false
  if action ≠ .retry then pure (action, none)
  else do
    -- the primary may be back: there is no wait for the next probe
    let action ← tryEndpoint .primary false
    switchIfAccepted config now .primary action

/-- only one thread makes the probe: the one which moves the time of the next one -/
def claimProbe (config : Config) (now : ℤ) : Text Bool := do
  let next : ℤ ← op .loadNextProbe
  if next ≤ now then op (.exchangeNextProbe next (now + config.failbackSec)) else pure false

/-- the probe: the primary is tried first -/
def sendProbe (config : Config) (now : ℤ) : Text Result := do
  let action ← tryEndpoint .primary true
  if action ≠ .retry then switchIfAccepted config now .primary action else sendFromBackup config now

def send (config : Config) (now : ℤ) : Text Result := do
  if config.hasBackup = false then do
    let action ← tryEndpoint .primary false
    pure (action, none)
  else do
    let active : PushEndpoint ← op .loadActive
    match active with
    | .primary => sendFromPrimary config now
    | .backup =>
      if ← claimProbe config now then sendProbe config now else sendFromBackup config now

/-! ## Calls one after the other -/

structure Try where
  endpoint : PushEndpoint
  probe : Bool
  action : PushAction
deriving DecidableEq, Repr

/-- the calls of the function of the caller -/
def tries : List (Event Op Res) → List Try :=
  List.filterMap fun
    | ⟨.sendTo e probe, action⟩ => some ⟨e, probe, action⟩
    | _ => none

/-- a call of `Send` which returned -/
structure Sent where
  now : ℤ
  tries : List Try
  action : PushAction
  switchedTo : Option PushEndpoint
deriving DecidableEq, Repr

/-- an object and the calls which were made -/
structure Sends where
  members : Members := {}
  sent : List Sent := []

/-- a call: the time, and what the function of the caller answers, which knows what happened in the call before -/
structure Call where
  now : ℤ
  answer : List (Event Op Res) → PushAction

def Members.send (m : Members) (config : Config) (c : Call) : Ended Op Res Result Members :=
  (Push.send config c.now).alone apply c.answer [] m

def Sends.send (config : Config) (s : Sends) (c : Call) : Sends :=
  let ended := s.members.send config c
  { members := ended.memory
    sent := s.sent ++ [⟨c.now, Push.tries ended.trace, ended.result.1, ended.result.2⟩] }

def Sends.run (config : Config) (s : Sends) (calls : List Call) : Sends := calls.foldl (Sends.send config) s

/-- the call began to use the backup, or it made a probe -/
def Sent.failoverOrProbe (s : Sent) : Bool := decide (s.switchedTo = some .backup) || s.tries.any Try.probe

/-- the time of the last failover or probe -/
def lastFailoverOrProbe (sent : List Sent) : Option ℤ := ((sent.filter Sent.failoverOrProbe).getLast?).map Sent.now

/-! ## What a call does -/

section Alone

variable {config : Config} {now : ℤ} {env : List (Event Op Res) → PushAction} {t : List (Event Op Res)} {m : Members}

@[simp] theorem tries_append (t t' : List (Event Op Res)) : tries (t ++ t') = tries t ++ tries t' :=
  List.filterMap_append

@[simp] theorem alone_try (e : PushEndpoint) (probe : Bool) : (tryEndpoint e probe).alone apply env t m =
    ⟨env t, t ++ [⟨.sendTo e probe, env t⟩] ++ [⟨.countRequest e (env t), ()⟩], m.countRequest e (env t)⟩ := rfl

theorem tries_try (t : List (Event Op Res)) (e : PushEndpoint) (probe : Bool) (a : PushAction) :
    tries (t ++ [⟨.sendTo e probe, a⟩] ++ [⟨.countRequest e a, ()⟩]) = tries t ++ [⟨e, probe, a⟩] := by
  rw [tries_append, tries_append]
  exact List.append_nil _

/-- the backup is used from now on -/
@[simps] def Members.failover (m : Members) (config : Config) (now : ℤ) : Members :=
  { m with active := .backup, nextProbe := now + config.failbackSec, failovers := m.failovers + 1 }

/-- the primary is used again -/
@[simps] def Members.failback (m : Members) : Members := { m with active := .primary, failbacks := m.failbacks + 1 }

/-- the endpoint which is not in use delivered the request -/
theorem alone_failover (hm : m.active = .primary) :
    (switchIfAccepted config now .backup .accepted).alone apply env t m = ⟨(.accepted, some .backup),
      t ++ [⟨.storeNextProbe (now + config.failbackSec), ()⟩] ++ [⟨.exchangeActive .backup, .primary⟩] ++
        [⟨.countFailover, ()⟩], m.failover config now⟩ := by
  simp only [switchIfAccepted, switchTo, exchange, op, if_true, Code.alone_bind, Code.alone_op, apply, hm, reduceCtorEq,
    if_false, Code.alone_pure, Members.failover]

theorem alone_failback (hm : m.active = .backup) :
    (switchIfAccepted config now .primary .accepted).alone apply env t m = ⟨(.accepted, some .primary),
      t ++ [⟨.exchangeActive .primary, .backup⟩] ++ [⟨.countFailback, ()⟩], m.failback⟩ := by
  simp only [switchIfAccepted, switchTo, exchange, op, if_true, Code.alone_bind, Code.alone_op, apply, hm, reduceCtorEq,
    if_false, Code.alone_pure, Members.failback]

theorem alone_stay {e : PushEndpoint} {a : PushAction} (ha : a ≠ .accepted) :
    (switchIfAccepted config now e a).alone apply env t m = ⟨(a, none), t, m⟩ := by
  rw [switchIfAccepted, if_neg ha]
  rfl

/-- what a call does while the primary is in use -/
inductive FromPrimary (config : Config) (now : ℤ) (m : Members) : List Try → Result → Members → Prop where
  | ended (a : PushAction) : a ≠ .retry →
      FromPrimary config now m [⟨.primary, false, a⟩] (a, none) (m.countRequest .primary a)
  | failed (a : PushAction) : a ≠ .accepted →
      FromPrimary config now m [⟨.primary, false, .retry⟩, ⟨.backup, false, a⟩] (a, none)
        ((m.countRequest .primary .retry).countRequest .backup a)
  | failover :
      FromPrimary config now m [⟨.primary, false, .retry⟩, ⟨.backup, false, .accepted⟩] (.accepted, some .backup)
        (((m.countRequest .primary .retry).countRequest .backup .accepted).failover config now)

/-- what a call does while the backup is in use, behind the probe -/
inductive FromBackup (m : Members) : List Try → Result → Members → Prop where
  | ended (a : PushAction) : a ≠ .retry → FromBackup m [⟨.backup, false, a⟩] (a, none) (m.countRequest .backup a)
  | failed (a : PushAction) : a ≠ .accepted →
      FromBackup m [⟨.backup, false, .retry⟩, ⟨.primary, false, a⟩] (a, none)
        ((m.countRequest .backup .retry).countRequest .primary a)
  | failback :
      FromBackup m [⟨.backup, false, .retry⟩, ⟨.primary, false, .accepted⟩] (.accepted, some .primary)
        ((m.countRequest .backup .retry).countRequest .primary .accepted).failback

/-- what a call does which makes the probe -/
inductive Probes (m : Members) : List Try → Result → Members → Prop where
  | rejected : Probes m [⟨.primary, true, .rejected⟩] (.rejected, none) (m.countRequest .primary .rejected)
  | accepted :
      Probes m [⟨.primary, true, .accepted⟩] (.accepted, some .primary) (m.countRequest .primary .accepted).failback
  | failed {T : List Try} {r : Result} {m' : Members} : FromBackup (m.countRequest .primary .retry) T r m' →
      Probes m (⟨.primary, true, .retry⟩ :: T) r m'

theorem sendFromPrimary_does (config : Config) (now : ℤ) (env : List (Event Op Res) → PushAction)
    (t : List (Event Op Res)) (hm : m.active = .primary) {E : Ended Op Res Result Members}
    (hE : E = (sendFromPrimary config now).alone apply env t m) :
    ∃ T, tries E.trace = tries t ++ T ∧ FromPrimary config now m T E.result E.memory := by
  unfold sendFromPrimary at hE
  rw [Code.alone_bind, alone_try] at hE
  cases h₁ : env t with
  | accepted | rejected =>
    rw [h₁] at hE
    subst hE
    exact ⟨_, tries_try _ _ _ _, .ended _ (by simp)⟩
  | retry =>
    rw [h₁] at hE
    dsimp only at hE
    rw [if_neg (by simp), Code.alone_bind, alone_try] at hE
    generalize env (t ++ [⟨.sendTo .primary false, PushAction.retry⟩] ++ [⟨.countRequest .primary .retry, ()⟩]) =
      a₂ at hE
    have htries : tries (t ++ [⟨.sendTo .primary false, PushAction.retry⟩] ++ [⟨.countRequest .primary .retry, ()⟩] ++
        [⟨.sendTo .backup false, a₂⟩] ++ [⟨.countRequest .backup a₂, ()⟩]) =
        tries t ++ [⟨.primary, false, .retry⟩, ⟨.backup, false, a₂⟩] := by
      rw [tries_try, tries_try, List.append_assoc]
      rfl
    by_cases ha : a₂ = .accepted
    · subst ha
      rw [alone_failover (by exact hm)] at hE
      subst hE
      refine ⟨_, ?_, .failover⟩
      rw [tries_append, tries_append, tries_append, htries]
      simp [tries]
    · rw [alone_stay ha] at hE
      subst hE
      exact ⟨_, htries, .failed a₂ ha⟩

theorem sendFromBackup_does (config : Config) (now : ℤ) (env : List (Event Op Res) → PushAction)
    (t : List (Event Op Res)) (hm : m.active = .backup) {E : Ended Op Res Result Members}
    (hE : E = (sendFromBackup config now).alone apply env t m) :
    ∃ T, tries E.trace = tries t ++ T ∧ FromBackup m T E.result E.memory := by
  unfold sendFromBackup at hE
  rw [Code.alone_bind, alone_try] at hE
  cases h₁ : env t with
  | accepted | rejected =>
    rw [h₁] at hE
    subst hE
    exact ⟨_, tries_try _ _ _ _, .ended _ (by simp)⟩
  | retry =>
    rw [h₁] at hE
    dsimp only at hE
    rw [if_neg (by simp), Code.alone_bind, alone_try] at hE
    generalize env (t ++ [⟨.sendTo .backup false, PushAction.retry⟩] ++ [⟨.countRequest .backup .retry, ()⟩]) = a₂ at hE
    have htries : tries (t ++ [⟨.sendTo .backup false, PushAction.retry⟩] ++ [⟨.countRequest .backup .retry, ()⟩] ++
        [⟨.sendTo .primary false, a₂⟩] ++ [⟨.countRequest .primary a₂, ()⟩]) =
        tries t ++ [⟨.backup, false, .retry⟩, ⟨.primary, false, a₂⟩] := by
      rw [tries_try, tries_try, List.append_assoc]
      rfl
    by_cases ha : a₂ = .accepted
    · subst ha
      rw [alone_failback (by exact hm)] at hE
      subst hE
      refine ⟨_, ?_, .failback⟩
      rw [tries_append, tries_append, htries]
      simp [tries]
    · rw [alone_stay ha] at hE
      subst hE
      exact ⟨_, htries, .failed a₂ ha⟩

theorem sendProbe_does (config : Config) (now : ℤ) (env : List (Event Op Res) → PushAction)
    (t : List (Event Op Res)) (hm : m.active = .backup) {E : Ended Op Res Result Members}
    (hE : E = (sendProbe config now).alone apply env t m) :
    ∃ T, tries E.trace = tries t ++ T ∧ Probes m T E.result E.memory := by
  unfold sendProbe at hE
  rw [Code.alone_bind, alone_try] at hE
  cases h₁ : env t with
  | accepted =>
    rw [h₁] at hE
    dsimp only at hE
    rw [if_pos (by simp), alone_failback (by exact hm)] at hE
    subst hE
    refine ⟨_, ?_, .accepted⟩
    rw [tries_append, tries_append, tries_try]
    simp [tries]
  | rejected =>
    rw [h₁] at hE
    dsimp only at hE
    rw [if_pos (by simp), alone_stay (by simp)] at hE
    subst hE
    exact ⟨_, tries_try _ _ _ _, .rejected⟩
  | retry =>
    rw [h₁] at hE
    dsimp only at hE
    rw [if_neg (by simp)] at hE
    have hm' : (m.countRequest .primary .retry).active = .backup := hm
    obtain ⟨T, htries, hdoes⟩ := sendFromBackup_does config now env _ hm' hE
    refine ⟨_, ?_, .failed hdoes⟩
    rw [htries, tries_try, List.append_assoc]
    rfl

/-- the thread which makes the probe moves the time of the next one -/
@[simps] def Members.claim (m : Members) (config : Config) (now : ℤ) : Members :=
    { m with nextProbe := now + config.failbackSec }

/-- what a call does -/
inductive Does (config : Config) (now : ℤ) (m : Members) : List Try → Result → Members → Prop where
  | noBackup (a : PushAction) : config.hasBackup = false →
      Does config now m [⟨.primary, false, a⟩] (a, none) (m.countRequest .primary a)
  | primary {T : List Try} {r : Result} {m' : Members} : config.hasBackup = true → m.active = .primary →
      FromPrimary config now m T r m' → Does config now m T r m'
  | early {T : List Try} {r : Result} {m' : Members} : config.hasBackup = true → m.active = .backup →
      now < m.nextProbe → FromBackup m T r m' → Does config now m T r m'
  | probe {T : List Try} {r : Result} {m' : Members} : config.hasBackup = true → m.active = .backup →
      m.nextProbe ≤ now → Probes (m.claim config now) T r m' → Does config now m T r m'

theorem alone_loadActive : (op .loadActive).alone apply env t m = ⟨m.active, t ++ [⟨.loadActive, m.active⟩], m⟩ := rfl

theorem alone_loadNextProbe :
    (op .loadNextProbe).alone apply env t m = ⟨m.nextProbe, t ++ [⟨.loadNextProbe, m.nextProbe⟩], m⟩ := rfl

theorem claimProbe_early (h : now < m.nextProbe) : (claimProbe config now).alone apply env t m =
    ⟨false, t ++ [⟨.loadNextProbe, m.nextProbe⟩], m⟩ := by
  unfold claimProbe
  rw [Code.alone_bind, alone_loadNextProbe]
  dsimp only
  rw [if_neg (not_le.2 h), Code.alone_pure]

/-- nobody else moved the time of the next probe -/
theorem claimProbe_due (h : m.nextProbe ≤ now) : (claimProbe config now).alone apply env t m =
    ⟨true, t ++ [⟨.loadNextProbe, m.nextProbe⟩] ++
      [⟨.exchangeNextProbe m.nextProbe (now + config.failbackSec), true⟩], m.claim config now⟩ := by
  have hmoved : apply (env (t ++ [⟨.loadNextProbe, m.nextProbe⟩]))
      (.exchangeNextProbe m.nextProbe (now + config.failbackSec)) m = (true, m.claim config now) := if_pos rfl
  unfold claimProbe
  rw [Code.alone_bind, alone_loadNextProbe]
  dsimp only
  rw [if_pos h, op, Code.alone_op, hmoved]

/-- **What a call of `Send` does**, with the object to itself. -/
theorem send_does (config : Config) (m : Members) (c : Call) : Does config c.now m (tries (m.send config c).trace)
    (m.send config c).result (m.send config c).memory := by
  unfold Members.send send
  by_cases hb : config.hasBackup = false
  · rw [if_pos hb, Code.alone_bind, alone_try]
    exact .noBackup _ hb
  · have hb' : config.hasBackup = true := by simpa using hb
    rw [if_neg hb, Code.alone_bind]
    cases hact : m.active with
    | primary =>
      rw [alone_loadActive, hact]
      obtain ⟨T, htries, hdoes⟩ := sendFromPrimary_does config c.now c.answer [⟨.loadActive, .primary⟩] hact rfl
      have heq : T = _ := htries.symm
      rw [heq] at hdoes
      exact .primary hb' hact hdoes
    | backup =>
      rw [alone_loadActive, hact]
      dsimp only
      rw [Code.alone_bind]
      by_cases hdue : m.nextProbe ≤ c.now
      · rw [claimProbe_due hdue]
        dsimp only
        rw [if_pos rfl]
        have hact' : (m.claim config c.now).active = .backup := hact
        obtain ⟨T, htries, hdoes⟩ := sendProbe_does config c.now c.answer [⟨.loadActive, .backup⟩,
          ⟨.loadNextProbe, m.nextProbe⟩, ⟨.exchangeNextProbe m.nextProbe (c.now + config.failbackSec), true⟩] hact' rfl
        have heq : T = _ := htries.symm
        rw [heq] at hdoes
        exact .probe hb' hact hdue hdoes
      · rw [claimProbe_early (not_le.1 hdue)]
        dsimp only
        rw [if_neg (by simp)]
        obtain ⟨T, htries, hdoes⟩ := sendFromBackup_does config c.now c.answer
          [⟨.loadActive, .backup⟩, ⟨.loadNextProbe, m.nextProbe⟩] hact rfl
        have heq : T = _ := htries.symm
        rw [heq] at hdoes
        exact .early hb' hact (not_le.1 hdue) hdoes

end Alone

/-! ## The rules -/

/-- 1 while the backup is in use -/
def onBackup (e : PushEndpoint) : ℤ := if e = .backup then 1 else 0

/-- what is promised of one call -/
structure Rules (config : Config) (now : ℤ) (m : Members) (tries : List Try) (r : Result) (m' : Members) : Prop where
  /-- another try is made only after `retry` -/
  stops : ∀ t ∈ tries.dropLast, t.action = .retry
  last : tries.getLast?.map Try.action = some r.1
  both : config.hasBackup = true → r.1 = .retry → ∀ e, e ∈ tries.map Try.endpoint
  accepted : r.1 = .accepted → tries.getLast?.map Try.endpoint = some m'.active
  first : m.active = .backup → (tries.head?.map Try.endpoint = some .primary ↔ m.nextProbe ≤ now)
  switched : r.2 = if m'.active = m.active then none else some m'.active
  counts : (m'.failovers : ℤ) - m'.failbacks - onBackup m'.active = m.failovers - m.failbacks - onBackup m.active
  requests : ∀ e a, m'.requests e a = m.requests e a + tries.countP fun t => t.endpoint = e ∧ t.action = a
  nextProbe : m'.nextProbe =
    if r.2 = some .backup ∨ ∃ t ∈ tries, t.probe = true then now + config.failbackSec else m.nextProbe
  noBackup : config.hasBackup = false → m'.active = .primary

/-- the two endpoints are all -/
theorem endpoint_cases (e : PushEndpoint) : e = .primary ∨ e = .backup := by
  cases e <;> simp

theorem does_rules {config : Config} {now : ℤ} {m m' : Members} {T : List Try} {r : Result}
    (hno : config.hasBackup = false → m.active = .primary) (h : Does config now m T r m') :
    Rules config now m T r m' := by
  cases h with
  | noBackup a hb =>
    have hm := hno hb
    constructor <;> simp [hm, hb]
  | primary hb hm h =>
    cases h with
    | ended a ha => constructor <;> simp [hm, hb, ha]
    | failed a ha =>
      constructor <;> simp [hm, hb, ha, endpoint_cases, List.countP_cons]
      intros
      omega
    | failover =>
      constructor <;> simp [hm, hb, onBackup, List.countP_cons]
      all_goals
        intros
        omega
  | early hb hm hlt h =>
    cases h with
    | ended a ha => constructor <;> simp [hm, hb, ha, hlt]
    | failed a ha =>
      constructor <;> simp [hm, hb, ha, hlt, fun e => (endpoint_cases e).symm, List.countP_cons]
      intros
      omega
    | failback =>
      constructor <;> simp [hm, hb, hlt, onBackup, List.countP_cons]
      all_goals
        intros
        omega
  | probe hb hm hle h =>
    cases h with
    | rejected => constructor <;> simp [hm, hb, hle]
    | accepted =>
      constructor <;> simp [hm, hb, hle, onBackup]
      omega
    | failed h =>
      cases h with
      | ended a ha =>
        constructor <;> simp [hm, hb, hle, ha, List.countP_cons]
        intros
        omega
      | failed a ha =>
        constructor <;> simp [hm, hb, hle, ha, fun e => (endpoint_cases e).symm, List.countP_cons]
        intros
        omega
      | failback =>
        constructor <;> simp [hm, hb, hle, onBackup, List.countP_cons]
        all_goals
          intros
          omega

/-! ## Any number of calls -/

/-- what is known of the members, from the calls so far -/
structure SendsInv (config : Config) (s : Sends) : Prop where
  noBackup : config.hasBackup = false → s.members.active = .primary
  nextProbe : s.members.active = .backup →
    ∃ t, lastFailoverOrProbe s.sent = some t ∧ s.members.nextProbe = t + config.failbackSec
  counts : (s.members.failovers : ℤ) - s.members.failbacks = onBackup s.members.active
  requests : ∀ e a, s.members.requests e a = (s.sent.flatMap Sent.tries).countP fun t => t.endpoint = e ∧ t.action = a

theorem last_append (sent : List Sent) (s : Sent) : lastFailoverOrProbe (sent ++ [s]) =
    if s.failoverOrProbe then some s.now else lastFailoverOrProbe sent := by
  unfold lastFailoverOrProbe
  rw [List.filter_append]
  by_cases hs : s.failoverOrProbe = true
  · rw [if_pos hs, List.filter_cons_of_pos hs, List.filter_nil, List.getLast?_concat, Option.map_some]
  · rw [if_neg hs, List.filter_cons_of_neg hs, List.filter_nil, List.append_nil]

theorem sends_inv {config : Config} {s : Sends} (h : SendsInv config s) (c : Call) :
    SendsInv config (s.send config c) := by
  have hrules := does_rules h.noBackup (send_does config s.members c)
  refine ⟨hrules.noBackup, fun hact => ?_, ?_, fun e a => ?_⟩
  · have hact' : (s.members.send config c).memory.active = .backup := hact
    have hprobe : (s.send config c).members.nextProbe = _ := hrules.nextProbe
    have hlast : lastFailoverOrProbe (s.send config c).sent = _ := last_append _ _
    rw [hprobe, hlast]
    by_cases hdid : (s.members.send config c).result.2 = some .backup ∨
        ∃ t ∈ tries (s.members.send config c).trace, t.probe = true
    · rw [if_pos hdid, if_pos (by simpa [Sent.failoverOrProbe] using hdid)]
      exact ⟨c.now, rfl, rfl⟩
    · -- the backup was in use before
      have hbefore : s.members.active = .backup := by
        by_contra hno
        apply hdid
        left
        rw [hrules.switched, if_neg (fun h0 => hno (h0.symm.trans hact')), hact']
      rw [if_neg hdid, if_neg (by simpa [Sent.failoverOrProbe] using hdid)]
      exact h.nextProbe hbefore
  · have hcounts := hrules.counts
    have hbefore := h.counts
    change ((s.members.send config c).memory.failovers : ℤ) - (s.members.send config c).memory.failbacks =
      onBackup (s.members.send config c).memory.active
    omega
  · have hsent : (s.send config c).sent.flatMap Sent.tries =
        s.sent.flatMap Sent.tries ++ tries (s.members.send config c).trace := by
      simp [Sends.send]
    rw [hsent, List.countP_append, ← h.requests e a]
    exact hrules.requests e a

theorem run_inv (config : Config) (calls : List Call) : SendsInv config (Sends.run config {} calls) := by
  have hstart : SendsInv config {} := ⟨fun _ => rfl, fun h => absurd h (by decide), rfl, fun _ _ => rfl⟩
  generalize ({} : Sends) = s at hstart
  induction calls generalizing s with
  | nil => exact hstart
  | cons c calls ih => exact ih _ (sends_inv hstart c)

/-- **The failover rules**, for a call after any number of calls: which endpoints are tried, what comes out, and what
the members are then. -/
theorem failover_rules (config : Config) (calls : List Call) (c : Call) :
    let s := Sends.run config {} calls
    let s' := s.send config c
    ∃ sent, s'.sent = s.sent ++ [sent] ∧ sent.now = c.now ∧
      (∀ t ∈ sent.tries.dropLast, t.action = .retry) ∧
      sent.tries.getLast?.map Try.action = some sent.action ∧
      (config.hasBackup = true → sent.action = .retry →
        (∀ e, e ∈ sent.tries.map Try.endpoint) ∧ ∀ t ∈ sent.tries, t.action = .retry) ∧
      (sent.action = .accepted → sent.tries.getLast?.map Try.endpoint = some s'.members.active) ∧
      (s.members.active = .backup → ∃ t, lastFailoverOrProbe s.sent = some t ∧
        (sent.tries.head?.map Try.endpoint = some .primary ↔ t + config.failbackSec ≤ c.now)) ∧
      (sent.switchedTo = if s'.members.active = s.members.active then none else some s'.members.active) ∧
      (s'.members.failovers : ℤ) - s'.members.failbacks = (if s'.members.active = .backup then 1 else 0) ∧
      ∀ e a, s'.members.requests e a =
        (s'.sent.flatMap Sent.tries).countP fun t => t.endpoint = e ∧ t.action = a := by
  intro s s'
  have h : SendsInv config s := run_inv config calls
  have h' : SendsInv config s' := sends_inv h c
  have hrules := does_rules h.noBackup (send_does config s.members c)
  refine ⟨_, rfl, rfl, hrules.stops, hrules.last, fun hb hretry => ⟨hrules.both hb hretry, ?_⟩, hrules.accepted,
    fun hact => ?_, hrules.switched, h'.counts, h'.requests⟩
  · intro t ht
    have hne : tries (s.members.send config c).trace ≠ [] := List.ne_nil_of_mem ht
    rw [← List.dropLast_append_getLast hne] at ht
    rcases List.mem_append.1 ht with ht | ht
    · exact hrules.stops t ht
    · have hlast := hrules.last
      rw [List.getLast?_eq_some_getLast hne, Option.map_some, Option.some.injEq] at hlast
      rw [List.mem_singleton.1 ht, hlast]
      exact hretry
  · obtain ⟨t, hlast, hprobe⟩ := h.nextProbe hact
    refine ⟨t, hlast, ?_⟩
    rw [← hprobe]
    exact hrules.first hact

end DominoLogForwarder.Push
