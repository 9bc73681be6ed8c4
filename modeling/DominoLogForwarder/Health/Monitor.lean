/-
`HealthMonitor` (`health.hpp`): one health state for alerting, shared by `otelfwd` and `domfwd`.

`update` is the text of `Update`. Behind it the documented rules are stated for the whole history of the calls
(`Rule`), and `update_worst` puts the two together: the members of the monitor are enough to know which rules hold.

The counters and the sizes are natural numbers, the times are seconds without a bound. The fill of the WAL is the exact
ratio.
-/
import Mathlib.Algebra.Order.Field.Rat
import Mathlib.Data.List.DropRight
import DominoLogForwarder.Lib.Window

namespace DominoLogForwarder.Health

open Window

/-! ## The monitor -/

inductive HealthState where
  | ok
  | warning
  | error
deriving DecidableEq, Repr

namespace HealthState

/-- the number of the metric -/
def code : HealthState → ℕ
  | ok => 0
  | warning => 1
  | error => 2

theorem code_injective : Function.Injective code := by
  intro s s' h
  cases s <;> cases s' <;> first | rfl | cases h

instance : LinearOrder HealthState := LinearOrder.lift' code code_injective

/-- `GetName` -/
def getName : HealthState → String
  | error => "ERROR"
  | warning => "WARNING"
  | ok => "OK"

end HealthState

def warnPercent : ℚ := 25

def errorPercent : ℚ := 50

def warnDownSec : ℤ := 15 * 60

def errorDownSec : ℤ := 30 * 60

def lostWindowSec : ℤ := 10 * 60

/-- what the program knows at the moment -/
structure HealthInput where
  unreachable : Bool := false
  walFailed : Bool := false
  walBytes : ℕ := 0
  /-- 0 for no limit -/
  walMaxBytes : ℕ := 0
  dropped : ℕ := 0
  rejected : ℕ := 0
deriving DecidableEq, Repr

structure HealthMonitor where
  state : HealthState := .ok
  /-- 0 while the receiver is reachable -/
  tUnreachableSince : ℤ := 0
  tLastDropped : ℤ := 0
  tLastRejected : ℤ := 0
  lastDropped : ℕ := 0
  lastRejected : ℕ := 0
deriving DecidableEq, Repr

/-- a state with its reason -/
abbrev Raised : Type := HealthState × String

/-- the worst state wins -/
def raise (r : Raised) (state : HealthState) (reason : String) : Raised := if r.1 < state then (state, reason) else r

namespace HealthMonitor

/-- the first part of `Update`: the times and the counters -/
def observe (m : HealthMonitor) (now : ℤ) (input : HealthInput) : HealthMonitor :=
  { m with
    tUnreachableSince :=
      if input.unreachable = true then (if m.tUnreachableSince = 0 then now else m.tUnreachableSince) else 0
    tLastDropped := if m.lastDropped < input.dropped then now else m.tLastDropped
    tLastRejected := if m.lastRejected < input.rejected then now else m.tLastRejected
    lastDropped := input.dropped
    lastRejected := input.rejected }

def raiseWalFailed (input : HealthInput) (r : Raised) : Raised :=
  if input.walFailed = true then
    raise r .error "the WAL could not be opened, nothing is kept while the receiver is not reachable"
  else r

/-- something happened at the time `t` of the window. 0 is never -/
def raiseLost (now t : ℤ) (state : HealthState) (reason : String) (r : Raised) : Raised :=
  if t ≠ 0 ∧ now - t ≤ lostWindowSec then raise r state reason else r

def raiseDown (now since : ℤ) (r : Raised) : Raised :=
  if since ≠ 0 then
    if errorDownSec < now - since then raise r .error "the receiver is not reachable for more than 30 minutes"
    else if warnDownSec < now - since then raise r .warning "the receiver is not reachable for more than 15 minutes"
    else r
  else r

def percent (input : HealthInput) : ℚ := 100 * input.walBytes / input.walMaxBytes

def raiseFill (input : HealthInput) (r : Raised) : Raised :=
  if 0 < input.walMaxBytes then
    if errorPercent ≤ percent input then raise r .error "the WAL is more than half full"
    else if warnPercent ≤ percent input then raise r .warning "the WAL is more than a quarter full"
    else r
  else r

/-- the second part of `Update`: the worst state, and why -/
def judge (m : HealthMonitor) (now : ℤ) (input : HealthInput) : Raised :=
  let r := raiseWalFailed input (.ok, "")
  let r := raiseLost now m.tLastDropped .error "data was dropped in the last 10 minutes" r
  let r := raiseLost now m.tLastRejected .warning "data was rejected in the last 10 minutes" r
  let r := raiseDown now m.tUnreachableSince r
  raiseFill input r

/-- what the log function is given -/
def message (r : Raised) : String :=
  "Health: " ++ r.1.getName ++ if r.2 = "" then "" else " (" ++ r.2 ++ ")"

/-- `Update`, with what it writes to the log -/
def update (m : HealthMonitor) (now : ℤ) (input : HealthInput) (log : Bool) : HealthMonitor × List String :=
  let m' := m.observe now input
  let r := m'.judge now input
  ({ m' with state := r.1 }, if r.1 ≠ m.state ∧ log = true then [message r] else [])

end HealthMonitor

/-! ## The documented rules -/

/-- a call of `Update` -/
structure Update where
  now : ℤ
  input : HealthInput
  /-- a log function is given -/
  log : Bool := true
deriving DecidableEq, Repr

def run (calls : List Update) : HealthMonitor := calls.foldl (fun m c => (m.update c.now c.input c.log).1) {}

/-- the calls in which the counter was greater than in the call before -/
def increases (counter : HealthInput → ℕ) (calls : List Update) : List Update :=
    rises (fun c => counter c.input) 0 calls

/-- the calls since the receiver is not reachable, none if it is reachable now -/
def outage (calls : List Update) : List Update := calls.rtakeWhile fun c => c.input.unreachable

/-- the rules which hold at the last of the calls, with the state which they ask for -/
inductive Rule (calls : List Update) (last : Update) : HealthState → Prop where
  | walFailed : last.input.walFailed = true → Rule calls last .error
  | dropped (c : Update) : c ∈ increases HealthInput.dropped calls → last.now - c.now ≤ 600 → Rule calls last .error
  | rejected (c : Update) : c ∈ increases HealthInput.rejected calls → last.now - c.now ≤ 600 → Rule calls last .warning
  | down (first : Update) : (outage calls).head? = some first → 30 * 60 < last.now - first.now → Rule calls last .error
  | downShort (first : Update) :
      (outage calls).head? = some first → 15 * 60 < last.now - first.now → Rule calls last .warning
  | half : 0 < last.input.walMaxBytes → 50 * last.input.walMaxBytes ≤ 100 * last.input.walBytes → Rule calls last .error
  | quarter : 0 < last.input.walMaxBytes → 25 * last.input.walMaxBytes ≤ 100 * last.input.walBytes →
      Rule calls last .warning

/-! ## The members of the monitor -/

/-- what the members are after `calls` -/
structure Remembers (m : HealthMonitor) (calls : List Update) : Prop where
  since : m.tUnreachableSince = firstTime Update.now (outage calls)
  dropped : m.tLastDropped = lastTime Update.now (increases HealthInput.dropped calls)
  rejected : m.tLastRejected = lastTime Update.now (increases HealthInput.rejected calls)
  lastDropped : m.lastDropped = lastCount (fun c : Update => c.input.dropped) 0 calls
  lastRejected : m.lastRejected = lastCount (fun c : Update => c.input.rejected) 0 calls

theorem outage_concat (calls : List Update) (c : Update) :
    outage (calls ++ [c]) = if c.input.unreachable = true then outage calls ++ [c] else [] := by
  by_cases h : c.input.unreachable = true
  · rw [if_pos h]
    exact List.rtakeWhile_concat_pos _ _ _ h
  · rw [if_neg h]
    exact List.rtakeWhile_concat_neg _ _ _ h

theorem lastTime_increases (counter : HealthInput → ℕ) (calls : List Update) (c : Update) :
    lastTime Update.now (increases counter (calls ++ [c])) =
      if lastCount (fun c : Update => counter c.input) 0 calls < counter c.input then c.now
      else lastTime Update.now (increases counter calls) := by
  unfold increases
  rw [rises_concat]
  split_ifs
  · exact lastTime_concat _ c
  · rfl

theorem remembers_observe {m : HealthMonitor} {calls : List Update} (hm : Remembers m calls)
    (hpos : ∀ c ∈ calls, 0 < c.now) (c : Update) : Remembers (m.observe c.now c.input) (calls ++ [c]) := by
  have hcount : ∀ f : Update → ℕ, f c = lastCount f 0 (calls ++ [c]) := fun f => (lastCount_concat 0 calls c).symm
  refine ⟨?_, ?_, ?_, hcount fun d => d.input.dropped, hcount fun d => d.input.rejected⟩
  · have hout : ∀ d ∈ outage calls, 0 < d.now := fun d hd => hpos d ((List.rtakeWhile_suffix _ _).subset hd)
    have hzero : m.tUnreachableSince ≠ 0 ↔ outage calls ≠ [] := hm.since ▸ firstTime_ne_zero hout
    rw [outage_concat]
    simp only [HealthMonitor.observe]
    by_cases h : c.input.unreachable = true
    · rw [if_pos h, if_pos h]
      by_cases hnone : outage calls = []
      · rw [hnone, if_pos (not_not.1 fun hne => hzero.1 hne hnone)]
        rfl
      · rw [if_neg (hzero.2 hnone), hm.since]
        unfold firstTime
        rw [List.head?_append_of_ne_nil _ hnone]
    · rw [if_neg h, if_neg h]
      rfl
  · rw [lastTime_increases, ← hm.dropped, ← hm.lastDropped]
    rfl
  · rw [lastTime_increases, ← hm.rejected, ← hm.lastRejected]
    rfl

theorem run_concat (calls : List Update) (c : Update) :
    run (calls ++ [c]) = ((run calls).update c.now c.input c.log).1 := List.foldl_concat _ _ _ _

theorem run_remembers (calls : List Update) (hpos : ∀ c ∈ calls, 0 < c.now) : Remembers (run calls) calls := by
  induction calls using List.reverseRecOn with
  | nil => exact ⟨rfl, rfl, rfl, rfl, rfl⟩
  | append_singleton calls c ih =>
    have hcalls := ih fun d hd => hpos d (List.mem_append_left _ hd)
    have hobserve := remembers_observe hcalls (fun d hd => hpos d (List.mem_append_left _ hd)) c
    rw [run_concat]
    exact ⟨hobserve.since, hobserve.dropped, hobserve.rejected, hobserve.lastDropped, hobserve.lastRejected⟩

/-! ## The worst rule -/

section Judge

variable {l : HealthState} {r : Raised} {now : ℤ} {input : HealthInput}

theorem le_raise (state : HealthState) (reason : String) : l ≤ (raise r state reason).1 ↔ l ≤ r.1 ∨ l ≤ state := by
  unfold raise
  split_ifs with h
  · exact ⟨Or.inr, fun hl => hl.elim (fun hl => hl.trans h.le) id⟩
  · exact ⟨Or.inl, fun hl => hl.elim id fun hl => hl.trans (not_lt.1 h)⟩

theorem le_raiseWalFailed :
    l ≤ (HealthMonitor.raiseWalFailed input r).1 ↔ l ≤ r.1 ∨ (input.walFailed = true ∧ l ≤ .error) := by
  unfold HealthMonitor.raiseWalFailed
  split_ifs with h
  · rw [le_raise, and_iff_right h]
  · simp [h]

theorem le_raiseLost (t : ℤ) (state : HealthState) (reason : String) :
    l ≤ (HealthMonitor.raiseLost now t state reason r).1 ↔
      l ≤ r.1 ∨ ((t ≠ 0 ∧ now - t ≤ lostWindowSec) ∧ l ≤ state) := by
  unfold HealthMonitor.raiseLost
  split_ifs with h
  · rw [le_raise, and_iff_right h]
  · rw [or_iff_left fun hl => h hl.1]

/-- a rule with two bounds -/
theorem le_raise_two (high low : Prop) [Decidable high] [Decidable low] (why why' : String) :
    l ≤ (if high then raise r .error why else if low then raise r .warning why' else r).1 ↔
      l ≤ r.1 ∨ (high ∧ l ≤ .error) ∨ (low ∧ l ≤ .warning) := by
  have hworse : l ≤ .warning → l ≤ .error := fun hl => hl.trans (by decide)
  split_ifs with hh hl
  · rw [le_raise]
    exact or_congr_right ⟨fun h => Or.inl ⟨hh, h⟩, fun h => h.elim And.right fun h => hworse h.2⟩
  · rw [le_raise]
    exact or_congr_right ⟨fun h => Or.inr ⟨hl, h⟩, fun h => h.elim (fun h => absurd h.1 hh) And.right⟩
  · simp [hh, hl]

theorem le_raiseDown (since : ℤ) : l ≤ (HealthMonitor.raiseDown now since r).1 ↔
    l ≤ r.1 ∨ since ≠ 0 ∧ ((errorDownSec < now - since ∧ l ≤ .error) ∨ (warnDownSec < now - since ∧ l ≤ .warning)) := by
  unfold HealthMonitor.raiseDown
  by_cases hzero : since ≠ 0
  · rw [if_pos hzero, le_raise_two, and_iff_right hzero]
  · rw [if_neg hzero, or_iff_left fun hl => hzero hl.1]

theorem percent_le_iff (hmax : 0 < input.walMaxBytes) (p : ℕ) :
    (p : ℚ) ≤ HealthMonitor.percent input ↔ p * input.walMaxBytes ≤ 100 * input.walBytes := by
  have hmax' : (0 : ℚ) < input.walMaxBytes := Nat.cast_pos.2 hmax
  unfold HealthMonitor.percent
  rw [le_div_iff₀ hmax']
  exact_mod_cast Iff.rfl

theorem le_raiseFill : l ≤ (HealthMonitor.raiseFill input r).1 ↔
    l ≤ r.1 ∨ 0 < input.walMaxBytes ∧ ((50 * input.walMaxBytes ≤ 100 * input.walBytes ∧ l ≤ .error) ∨
      (25 * input.walMaxBytes ≤ 100 * input.walBytes ∧ l ≤ .warning)) := by
  unfold HealthMonitor.raiseFill
  by_cases hmax : 0 < input.walMaxBytes
  · have herror : errorPercent ≤ HealthMonitor.percent input ↔ _ := percent_le_iff hmax 50
    have hwarn : warnPercent ≤ HealthMonitor.percent input ↔ _ := percent_le_iff hmax 25
    rw [if_pos hmax, le_raise_two, herror, hwarn, and_iff_right hmax]
  · rw [if_neg hmax, or_iff_left fun hl => hmax hl.1]

end Judge

/-- the times of the calls are positive and do not go back -/
structure Ordered (calls : List Update) : Prop where
  pos : ∀ c ∈ calls, 0 < c.now
  sorted : calls.Pairwise fun c d => c.now ≤ d.now

section Worst

variable {calls : List Update} {last : Update} {m : HealthMonitor}

theorem lost_iff (h : Ordered calls) (counter : HealthInput → ℕ) (now : ℤ) :
    (lastTime Update.now (increases counter calls) ≠ 0 ∧
      now - lastTime Update.now (increases counter calls) ≤ lostWindowSec) ↔
      ∃ c ∈ increases counter calls, now - c.now ≤ 600 := by
  have hsub := rises_sublist (f := fun c : Update => counter c.input) 0 calls
  exact (recent_iff_last (fun c hc => h.pos c (hsub.subset hc)) (h.sorted.sublist hsub) now 600).symm

theorem down_iff (h : Ordered calls) (now sec : ℤ) :
    (firstTime Update.now (outage calls) ≠ 0 ∧ sec < now - firstTime Update.now (outage calls)) ↔
      ∃ first, (outage calls).head? = some first ∧ sec < now - first.now := by
  have hpos : ∀ c ∈ outage calls, 0 < c.now := fun c hc => h.pos c ((List.rtakeWhile_suffix _ _).subset hc)
  rw [firstTime_ne_zero hpos]
  cases outage calls with
  | nil => simp
  | cons c run => simp [firstTime]

/-- what `Update` finds is exactly what the rules ask for -/
theorem le_judge_iff (h : Ordered calls) (hm : Remembers m calls) (l : HealthState) :
    l ≤ (m.judge last.now last.input).1 ↔ l = .ok ∨ ∃ s, Rule calls last s ∧ l ≤ s := by
  have hok : l ≤ HealthState.ok ↔ l = .ok := by
    cases l <;> decide
  have hdown := fun sec => down_iff h last.now sec
  unfold HealthMonitor.judge
  rw [le_raiseFill, le_raiseDown, le_raiseLost, le_raiseLost, le_raiseWalFailed, hm.since, hm.dropped, hm.rejected,
    lost_iff h, lost_iff h, hok]
  constructor
  · rintro (((((hl | ⟨hwal, hl⟩) | ⟨⟨c, hc, hin⟩, hl⟩) | ⟨⟨c, hc, hin⟩, hl⟩) | ⟨hne, ⟨hsec, hl⟩ | ⟨hsec, hl⟩⟩) |
      ⟨hmax, ⟨hfill, hl⟩ | ⟨hfill, hl⟩⟩)
    · exact Or.inl hl
    · exact Or.inr ⟨_, .walFailed hwal, hl⟩
    · exact Or.inr ⟨_, .dropped c hc hin, hl⟩
    · exact Or.inr ⟨_, .rejected c hc hin, hl⟩
    · obtain ⟨first, hfirst, hlong⟩ := (hdown _).1 ⟨hne, hsec⟩
      exact Or.inr ⟨_, .down first hfirst hlong, hl⟩
    · obtain ⟨first, hfirst, hlong⟩ := (hdown _).1 ⟨hne, hsec⟩
      exact Or.inr ⟨_, .downShort first hfirst hlong, hl⟩
    · exact Or.inr ⟨_, .half hmax hfill, hl⟩
    · exact Or.inr ⟨_, .quarter hmax hfill, hl⟩
  · rintro (hl | ⟨s, hrule, hl⟩)
    · exact Or.inl (Or.inl (Or.inl (Or.inl (Or.inl hl))))
    · cases hrule with
      | walFailed hwal => exact Or.inl (Or.inl (Or.inl (Or.inl (Or.inr ⟨hwal, hl⟩))))
      | dropped c hc hin => exact Or.inl (Or.inl (Or.inl (Or.inr ⟨⟨c, hc, hin⟩, hl⟩)))
      | rejected c hc hin => exact Or.inl (Or.inl (Or.inr ⟨⟨c, hc, hin⟩, hl⟩))
      | down first hfirst hlong =>
        obtain ⟨hne, hsec⟩ := (hdown errorDownSec).2 ⟨first, hfirst, hlong⟩
        exact Or.inl (Or.inr ⟨hne, Or.inl ⟨hsec, hl⟩⟩)
      | downShort first hfirst hlong =>
        obtain ⟨hne, hsec⟩ := (hdown warnDownSec).2 ⟨first, hfirst, hlong⟩
        exact Or.inl (Or.inr ⟨hne, Or.inr ⟨hsec, hl⟩⟩)
      | half hmax hfill => exact Or.inr ⟨hmax, Or.inl ⟨hfill, hl⟩⟩
      | quarter hmax hfill => exact Or.inr ⟨hmax, Or.inr ⟨hfill, hl⟩⟩

end Worst

/-- **The documented rules.** After every call the state is the worst which a rule asks for, evaluated on the whole
history, and OK if none does. A log function which is given is called once if the state is another one than before,
else not. -/
theorem update_worst (calls : List Update) (c : Update) (h : Ordered (calls ++ [c])) :
    let result := (run calls).update c.now c.input c.log
    IsGreatest {s | s = .ok ∨ Rule (calls ++ [c]) c s} result.1.state ∧
      result.2.length = if c.log = true ∧ result.1.state ≠ (run calls).state then 1 else 0 := by
  intro result
  have hbefore : ∀ d ∈ calls, 0 < d.now := fun d hd => h.pos d (List.mem_append_left _ hd)
  have hm : Remembers ((run calls).observe c.now c.input) (calls ++ [c]) :=
    remembers_observe (run_remembers calls hbefore) hbefore c
  have hiff : ∀ l, l ≤ result.1.state ↔ l = .ok ∨ ∃ s, Rule (calls ++ [c]) c s ∧ l ≤ s := le_judge_iff h hm
  refine ⟨⟨?_, ?_⟩, ?_⟩
  · rcases (hiff _).1 le_rfl with hok | ⟨s, hrule, hle⟩
    · exact Or.inl hok
    · have hs : s ≤ result.1.state := (hiff s).2 (Or.inr ⟨s, hrule, le_rfl⟩)
      exact Or.inr (le_antisymm hs hle ▸ hrule)
  · rintro s (hok | hrule)
    · exact (hiff s).2 (Or.inl hok)
    · exact (hiff s).2 (Or.inr ⟨s, hrule, le_rfl⟩)
  · have hlog : result.2 = if result.1.state ≠ (run calls).state ∧ c.log = true then _ else [] := rfl
    rw [hlog]
    simp only [and_comm]
    split_ifs <;> rfl

/-- an outage of 20 minutes -/
theorem update_worst_outage :
    let calls : List Update := [⟨100, { unreachable := true }, true⟩]
    let c : Update := ⟨1300, { unreachable := true, dropped := 0 }, true⟩
    IsGreatest {s | s = .ok ∨ Rule (calls ++ [c]) c s} ((run calls).update c.now c.input c.log).1.state ∧
      ((run calls).update c.now c.input c.log).2.length = 1 :=
  update_worst [⟨100, { unreachable := true }, true⟩] ⟨1300, { unreachable := true, dropped := 0 }, true⟩
    ⟨by decide, by decide⟩

example : ((run [⟨100, { unreachable := true }, true⟩]).update 1300 { unreachable := true } true).2 =
    ["Health: WARNING (the receiver is not reachable for more than 15 minutes)"] := by decide +kernel

end DominoLogForwarder.Health
