/-
The pipeline and its WAL: what the history of the WAL says about the requests. The texts which were appended are those
of the requests which got no answer, and the texts which were accepted are those which were answered later.

- `pipeline_delivers`: a record is in one place, and a request in the WAL stays there until it was answered, also when
  calls of the WAL fail (`Bearable`).
- `pipeline_exactly_once`: when nothing fails, the requests in the WAL are answered once, and in their order.
- `outage_ends`: when the receivers accept again, `WalThread` empties the WAL.
-/
import DominoLogForwarder.Otelfwd.CompactJson
import DominoLogForwarder.Otelfwd.Pipeline

namespace DominoLogForwarder.Wal

open CrashProg Framing

/-! ## What a call of the WAL adds to its history -/

/-- the event is no record which was appended or accepted -/
def Event.Plain (e : Event) : Prop := e.appended? = none ∧ e.accepted? = none

/-- what a run of the WAL adds to its history appends and accepts nothing -/
def AddsPlain (w w' : World) : Prop := ∃ es, w'.trace = w.trace ++ es ∧ ∀ e ∈ es, e.Plain

section Plain

variable {w w' : World}

theorem AddsPlain.refl (w : World) : AddsPlain w w :=
  ⟨[], (List.append_nil _).symm, fun _ h => absurd h List.not_mem_nil⟩

theorem AddsPlain.appended (h : AddsPlain w w') : appendedOf w'.trace = appendedOf w.trace := by
  obtain ⟨es, htrace, hplain⟩ := h
  rw [htrace, appendedOf_append]
  have hnone : appendedOf es = [] := List.filterMap_eq_nil_iff.2 fun e he => by rw [(hplain e he).1]; rfl
  rw [hnone, List.append_nil]

theorem AddsPlain.accepted (h : AddsPlain w w') : acceptedOf w'.trace = acceptedOf w.trace := by
  obtain ⟨es, htrace, hplain⟩ := h
  rw [htrace, acceptedOf_append]
  have hnone : acceptedOf es = [] := List.filterMap_eq_nil_iff.2 fun e he => by rw [(hplain e he).2]; rfl
  rw [hnone, List.append_nil]

theorem call_adds {α : Type} {st : Step} {o : SimpleWal} {m : WalM α} {next : World → α → World}
    (h : ∀ w' a, w'.trace = w.trace → ∃ e : Event, (next w' a).trace = w.trace ++ [e] ∧ e.Plain) :
    AddsPlain w (w.call st o m [] next) := by
  unfold World.call
  cases hm : m (w.sys o st) with
  | done a s =>
    obtain ⟨e, htrace, he⟩ := h (w.after s) a rfl
    exact ⟨[e], htrace, List.forall_mem_singleton.2 he⟩
  | crash s => exact ⟨[.killed], rfl, List.forall_mem_singleton.2 ⟨rfl, rfl⟩⟩

/-- the actions which neither append nor accept a record -/
def Action.plain : Action → Bool
  | .append _ => false
  | .consume .accept => false
  | .ack => false
  | _ => true

theorem step_adds {st : Step} (h : st.action.plain = true) : AddsPlain w (w.step st) := by
  have hnote : ∀ {w' : World} (e : Event), w'.trace = w.trace → e.Plain →
      ∃ e' : Event, w'.trace ++ [e] = w.trace ++ [e'] ∧ e'.Plain :=
    fun e htrace he => ⟨e, congrArg (· ++ [e]) htrace, he⟩
  unfold World.step
  cases hact : st.action with
  | start maxSize =>
    dsimp only [World.start]
    cases w.wal with
    | none => exact call_adds fun w' ok htrace => hnote (.started ok) htrace ⟨rfl, rfl⟩
    | some o => exact .refl w
  | close =>
    dsimp only [World.close]
    split
    · exact call_adds fun w' ok htrace => hnote .closed htrace ⟨rfl, rfl⟩
    · exact .refl w
  | kill =>
    dsimp only
    cases w.wal with
    | none => exact .refl w
    | some o => exact ⟨[.killed], rfl, List.forall_mem_singleton.2 ⟨rfl, rfl⟩⟩
  | setMaxSize bytes =>
    dsimp only [World.setting]
    cases w.wal with
    | none => exact .refl w
    | some o => exact call_adds fun w' ok htrace => hnote .configured htrace ⟨rfl, rfl⟩
  | setLogLevel level =>
    dsimp only [World.setting]
    cases w.wal with
    | none => exact .refl w
    | some o => exact call_adds fun w' ok htrace => hnote .configured htrace ⟨rfl, rfl⟩
  | append data => rw [hact] at h; cases h
  | replayStart =>
    dsimp only [World.replayStart]
    cases w.wal with
    | none => exact .refl w
    | some o =>
      refine call_adds fun w' r htrace => ?_
      cases r with
      | none => exact hnote .notReplayed htrace ⟨rfl, rfl⟩
      | some v => exact hnote .replaying htrace ⟨rfl, rfl⟩
  | replayRead =>
    dsimp only [World.replayRead]
    split
    · refine call_adds fun w' r htrace => ?_
      obtain ⟨v, buffer⟩ := r
      cases buffer with
      | some buffer => exact hnote (.delivered w'.gen buffer) htrace ⟨rfl, rfl⟩
      | none =>
        refine hnote (if v.cleared && v.clearOk then .emptied else .stopped) htrace ?_
        split_ifs <;> exact ⟨rfl, rfl⟩
    · exact .refl w
  | consume answer =>
    dsimp only [World.consume]
    split
    · cases answer with
      | accept => rw [hact] at h; cases h
      | refuse => exact ⟨[.refused], rfl, List.forall_mem_singleton.2 ⟨rfl, rfl⟩⟩
      | throw => exact call_adds fun w' ok htrace => hnote .threw htrace ⟨rfl, rfl⟩
    · exact .refl w
  | replayEnd =>
    dsimp only [World.replayEnd]
    split
    · exact call_adds fun w' ok htrace => hnote (.replayed ok) htrace ⟨rfl, rfl⟩
    · exact .refl w
  | peek =>
    dsimp only [World.peek]
    cases w.wal with
    | none => exact .refl w
    | some o =>
      refine call_adds fun w' r htrace => ?_
      cases r with
      | none => exact hnote .peekedNothing htrace ⟨rfl, rfl⟩
      | some record => exact hnote (.delivered w.gen record) htrace ⟨rfl, rfl⟩
  | ack => rw [hact] at h; cases h
  | clear =>
    dsimp only [World.clear]
    cases w.wal with
    | none => exact .refl w
    | some o => exact call_adds fun w' ok htrace => hnote (.cleared ok) htrace ⟨rfl, rfl⟩

/-- `Append` notes its record, and whether it was taken -/
theorem step_append (st : Step) {data : Payload} (hact : st.action = .append data) (hlive : w.wal.isSome) :
    ((w.step st).wal = none ∧ AddsPlain w (w.step st)) ∨
      ((w.step st).wal.isSome ∧ ∃ ok, (w.step st).trace = w.trace ++ [.appended w.gen data.bytes ok]) := by
  obtain ⟨o, ho⟩ := Option.isSome_iff_exists.1 hlive
  unfold World.step World.append World.call
  rw [hact]
  dsimp only
  rw [ho]
  dsimp only
  cases Wal.append data (w.sys o st) with
  | done ok s => exact Or.inr ⟨rfl, ok, rfl⟩
  | crash s => exact Or.inl ⟨rfl, [.killed], rfl, List.forall_mem_singleton.2 ⟨rfl, rfl⟩⟩

/-- the consumer takes the record -/
theorem step_accepted (st : Step) {v : ReplayVars} {buffer : Bytes} {g : ℕ} (hact : st.action = .consume .accept)
    (hlive : w.wal.isSome) (hreplay : w.replay = some ⟨v, .consuming buffer, g⟩) :
    w.step st =
      { w.note [.accepted g buffer] with replay := some ⟨v.accept buffer.length, .reading, g⟩ } := by
  obtain ⟨o, ho⟩ := Option.isSome_iff_exists.1 hlive
  unfold World.step World.consume
  rw [hact]
  dsimp only
  rw [ho, hreplay]

/-- without a replay at its end, its last section does nothing -/
theorem step_replayEnd_of_not (h : ∀ v g, w.replay ≠ some ⟨v, .ending, g⟩) : w.step (Action.quiet .replayEnd) = w := by
  unfold World.step World.replayEnd
  dsimp only [Action.quiet]
  split
  · rename_i hplace
    exact absurd hplace (h _ _)
  · rfl

end Plain

end DominoLogForwarder.Wal

namespace DominoLogForwarder.Otelfwd

open FileReader (Bytes ascii)
open Push (PushAction)
open Wal (AddsPlain appendedOf acceptedOf)

/-! ## The steps of the WAL -/

/-- the calls of the WAL in a step -/
def PipelineAct.Calls (P : Wal.Step → Prop) : PipelineAct → Prop
  | .pushThread _ _ faults => ∀ data, P (faults.step (.append data))
  | .walThread _ faults =>
    P (faults.step .replayStart) ∧ P (faults.step .replayRead) ∧ P (faults.step (.consume .accept)) ∧
      P (faults.step (.consume .refuse)) ∧ P (faults.step .replayEnd)
  | .exit faults => P (faults.step .close)
  | .start faults => ∀ maxSize, P (faults.step (.start maxSize))
  | .kill => P (WalFaults.step {} .kill)
  | _ => True

/-- the WAL gets from one state to another by steps of some kind -/
def Steps (P : Wal.Step → Prop) (a b : Wal.World) : Prop := ∃ sts, b = a.run sts ∧ ∀ st ∈ sts, P st

section Steps

variable {P : Wal.Step → Prop} {a b c : Wal.World}

theorem Steps.refl (a : Wal.World) : Steps P a a := ⟨[], rfl, fun _ h => absurd h List.not_mem_nil⟩

theorem Steps.one {st : Wal.Step} (h : P st) : Steps P a (a.step st) := ⟨[st], rfl, List.forall_mem_singleton.2 h⟩

end Steps

section Link

variable {config : PipelineConfig} {w : Pipeline}

/-- what follows a call of the WAL leaves the WAL alone -/
theorem callWal_wal {action : Wal.Action} {faults : WalFaults} {next : Pipeline → Pipeline}
    (h : ∀ w, (next w).wal = w.wal) : (w.callWal action faults next).wal = w.wal.step (faults.step action) := by
  unfold Pipeline.callWal
  dsimp only
  split_ifs
  · exact h _
  · rfl

theorem callWal_id {action : Wal.Action} {faults : WalFaults} :
    (w.callWal action faults id).wal = w.wal.step (faults.step action) := callWal_wal fun _ => rfl

theorem sendPayloadToWal_wal {records : List LogRecord} {tried : Bool} {faults : WalFaults} :
    (w.sendPayloadToWal config records tried faults).wal =
      w.wal.step (faults.step (.append (walPayload (config.payload records)))) :=
  callWal_wal fun w => by split_ifs <;> rfl

theorem steps_pushStep {P : Wal.Step → Prop} {faults : WalFaults} (h : ∀ data, P (faults.step (.append data)))
    (file : NbfFile) (action : PushAction) : Steps P w.wal (w.pushStep config file action faults).wal := by
  unfold Pipeline.pushStep
  split
  · split <;> exact .refl _
  · unfold Pipeline.collect
    dsimp only
    split_ifs
    · rw [sendPayloadToWal_wal]
      exact .one (h _)
    · exact .refl _
  · exact .refl _
  · unfold Pipeline.answered
    split <;> exact .refl _
  · rw [sendPayloadToWal_wal]
    exact .one (h _)
  · exact .refl _

theorem steps_walStep {P : Wal.Step → Prop} {action : PushAction} {faults : WalFaults}
    (h : PipelineAct.Calls P (.walThread action faults)) :
    Steps P w.wal (w.walStep config action faults).wal := by
  obtain ⟨hstart, hread, haccept, hrefuse, hend⟩ := h
  unfold Pipeline.walStep
  split
  · split_ifs
    · rw [callWal_id]
      exact .one hstart
    · exact .refl _
  · rw [callWal_id]
    exact .one hread
  · unfold Pipeline.resend
    split
    · rw [callWal_id]
      exact .one haccept
    · rw [callWal_id]
      exact .one haccept
    · rw [callWal_id]
      exact .one hrefuse
  · rw [callWal_id]
    exact .one hend

theorem steps_step {P : Wal.Step → Prop} {act : PipelineAct} (h : act.Calls P) :
    Steps P w.wal (w.step config act).wal := by
  unfold Pipeline.step
  split_ifs
  · cases act with
    | start faults =>
      dsimp only [Pipeline.start]
      rw [callWal_id]
      exact .one (h _)
    | _ => exact .refl _
  · cases act with
    | tryPush record maxSize =>
      dsimp only
      split <;> exact .refl _
    | pushThread file action faults => exact steps_pushStep h file action
    | walThread action faults => exact steps_walStep h
    | exit faults =>
      dsimp only [Pipeline.exit]
      split_ifs
      · exact .one h
      · exact .refl _
    | kill => exact .one h
    | _ => exact .refl _

/-! ## The history of the WAL -/

/-- the history of the WAL is the one of the requests -/
structure Linked (config : PipelineConfig) (w : Pipeline) : Prop where
  stored : appendedOf w.wal.trace = storedTexts config w.lives
  settled : acceptedOf w.wal.trace = settledTexts w.lives
  sent : ∀ resent ∈ w.lives.flatMap Life.resent, resent.text ∈ appendedOf w.wal.trace

theorem Linked.plain {w' : Pipeline} (h : Linked config w) (hplain : AddsPlain w.wal w'.wal)
    (hrequests : w'.lives.flatMap Life.requests = w.lives.flatMap Life.requests)
    (hresent : w'.lives.flatMap Life.resent = w.lives.flatMap Life.resent) : Linked config w' := by
  refine ⟨?_, ?_, ?_⟩
  · rw [hplain.appended, h.stored, storedTexts, storedTexts, hrequests]
  · rw [hplain.accepted, h.settled, settledTexts, settledTexts, hresent]
  · rw [hplain.appended, hresent]
    exact h.sent

theorem flatMap_died {α : Type} {f : Life → List α} (hf : f {} = []) :
    w.died.lives.flatMap f = w.lives.flatMap f := by
  unfold Pipeline.lives Pipeline.died
  rw [List.flatMap_append, List.flatMap_singleton, hf, List.append_nil]

theorem Linked.died (h : Linked config w) : Linked config w.died :=
  h.plain (.refl _) (flatMap_died rfl) (flatMap_died rfl)

/-- a call of the WAL which neither appends nor accepts -/
theorem Linked.callWal (h : Linked config w) {action : Wal.Action} (hplain : action.plain = true)
    (faults : WalFaults) {next : Pipeline → Pipeline} (hnext : ∀ w, Linked config w → Linked config (next w)) :
    Linked config (w.callWal action faults next) := by
  have hwal : Linked config { w with wal := w.wal.step (faults.step action) } :=
    h.plain (Wal.step_adds hplain) rfl rfl
  unfold Pipeline.callWal
  dsimp only
  split_ifs
  · exact hnext _ hwal
  · exact hwal.died

theorem flatMap_lives {α : Type} (f : Life → List α) : w.lives.flatMap f = w.past.flatMap f ++ f w.life := by
  unfold Pipeline.lives
  rw [List.flatMap_append, List.flatMap_singleton]

theorem resent_made (request : PushRequest) :
    (w.made request).lives.flatMap Life.resent = w.lives.flatMap Life.resent := by
  rw [flatMap_lives, flatMap_lives]
  rfl

theorem requests_sentAgain (resent : Resent) :
    (w.sentAgain resent).lives.flatMap Life.requests = w.lives.flatMap Life.requests := by
  rw [flatMap_lives, flatMap_lives]
  rfl

theorem storedTexts_made (request : PushRequest) :
    storedTexts config (w.made request).lives = storedTexts config w.lives ++ (storedText config request).toList := by
  unfold storedTexts
  rw [flatMap_lives, flatMap_lives]
  unfold Pipeline.made
  rw [← List.append_assoc, List.filterMap_append]
  rfl

theorem resent_sentAgain (resent : Resent) :
    (w.sentAgain resent).lives.flatMap Life.resent = w.lives.flatMap Life.resent ++ [resent] := by
  rw [flatMap_lives, flatMap_lives]
  exact (List.append_assoc _ _ _).symm

/-- what is not in the history of the WAL does not matter -/
theorem Linked.congr (h : Linked config w) {w' : Pipeline} (hwal : w'.wal = w.wal) (hpast : w'.past = w.past)
    (hrequests : w'.life.requests = w.life.requests) (hresent : w'.life.resent = w.life.resent) :
    Linked config w' := by
  refine h.plain (hwal ▸ .refl _) ?_ ?_
  · rw [flatMap_lives, flatMap_lives, hpast, hrequests]
  · rw [flatMap_lives, flatMap_lives, hpast, hresent]

/-- a request which the WAL does not get -/
theorem Linked.made (h : Linked config w) (request : PushRequest) (hnone : storedText config request = none) :
    Linked config (w.made request) := by
  refine ⟨?_, ?_, ?_⟩
  · rw [storedTexts_made, hnone]
    exact h.stored.trans (List.append_nil _).symm
  · exact h.settled.trans (congrArg (List.filterMap settledText) (resent_made request).symm)
  · rw [resent_made]
    exact h.sent

/-- a payload which is given to the WAL -/
theorem Linked.sendPayloadToWal (h : Linked config w) (hlive : w.alive = true) {records : List LogRecord} {tried : Bool}
    (faults : WalFaults) : Linked config (w.sendPayloadToWal config records tried faults) := by
  unfold Pipeline.sendPayloadToWal Pipeline.callWal
  rcases Wal.step_append (faults.step (.append (walPayload (config.payload records)))) rfl hlive with
    ⟨hnone, hplain⟩ | ⟨hsome, ok, htrace⟩
  · -- the process was killed
    have hdead : Pipeline.alive { w with wal := w.wal.step (faults.step
        (.append (walPayload (config.payload records)))) } = false := by
      unfold Pipeline.alive
      rw [hnone]
      rfl
    dsimp only
    rw [if_neg (by rw [hdead]; decide)]
    exact Linked.died (h.plain hplain rfl rfl)
  · have halive : Pipeline.alive { w with wal := w.wal.step (faults.step
        (.append (walPayload (config.payload records)))) } = true := hsome
    dsimp only
    rw [if_pos halive]
    generalize w.wal.step (faults.step (.append (walPayload (config.payload records)))) = wal at htrace
    have happended : Pipeline.appended { w with wal := wal } = ok := by
      unfold Pipeline.appended
      rw [htrace, List.getLast?_concat]
    rw [happended]
    cases ok with
    | true =>
      rw [if_pos rfl]
      have happ : appendedOf wal.trace =
          appendedOf w.wal.trace ++ (storedText config ⟨records, .stored, tried, false⟩).toList := by
        rw [htrace, Wal.appendedOf_append]
        congr 1
        unfold storedText
        by_cases hempty : (walPayload (config.payload records)).bytes = [] <;>
          simp [appendedOf, Wal.Event.appended?, hempty]
      refine ⟨?_, ?_, ?_⟩
      · rw [storedTexts_made]
        exact happ.trans (congrArg (· ++ _) h.stored)
      · change acceptedOf wal.trace = (settledTexts _)
        rw [htrace, Wal.acceptedOf_append, settledTexts, resent_made]
        exact (List.append_nil _).trans h.settled
      · rw [resent_made]
        intro resent hresent
        change resent.text ∈ appendedOf wal.trace
        rw [happ]
        exact List.mem_append_left _ (h.sent resent hresent)
    | false =>
      rw [if_neg Bool.false_ne_true]
      have hplain : AddsPlain w.wal wal := ⟨[_], htrace, List.forall_mem_singleton.2 ⟨rfl, rfl⟩⟩
      have hlinked : Linked config { w with wal := wal } := h.plain hplain rfl rfl
      exact (hlinked.made ⟨records, .refused, tried, false⟩ rfl).congr rfl rfl rfl rfl

/-- the consumer got a record which was appended -/
theorem mem_appended_of_consuming {m : Wal.Mode} {wal : Wal.World} (h : Wal.Calm m wal) {v : Wal.ReplayVars}
    {text : Bytes} {g : ℕ} (hreplay : wal.replay = some ⟨v, .consuming text, g⟩) : text ∈ appendedOf wal.trace := by
  obtain ⟨⟨c, t, hinv⟩, -⟩ := h
  exact Wal.appendedIn_subset ((hinv.replay _ hreplay).next text rfl).1

theorem settledTexts_sentAgain (resent : Resent) :
    settledTexts (w.sentAgain resent).lives = settledTexts w.lives ++ (settledText resent).toList := by
  unfold settledTexts
  rw [resent_sentAgain, List.filterMap_append]
  rfl

/-- an answer which is noted, and the call of the WAL behind it -/
theorem Linked.answer (h : Linked config w) (resent : Resent) (hmem : resent.text ∈ appendedOf w.wal.trace)
    {w' : Pipeline} (hlives : w'.lives = (w.sentAgain resent).lives)
    (happ : appendedOf w'.wal.trace = appendedOf w.wal.trace)
    (hacc : acceptedOf w'.wal.trace = acceptedOf w.wal.trace ++ (settledText resent).toList) : Linked config w' := by
  refine ⟨?_, ?_, ?_⟩
  · rw [happ, h.stored, hlives, storedTexts, storedTexts, requests_sentAgain]
  · rw [hacc, h.settled, hlives, settledTexts_sentAgain]
  · rw [hlives, resent_sentAgain, happ]
    exact List.forall_mem_append.2 ⟨h.sent, List.forall_mem_singleton.2 hmem⟩

/-- a record of the WAL which is sent again -/
theorem Linked.resend (h : Linked config w) (hlive : w.alive = true) {v : Wal.ReplayVars} {text : Bytes} {g : ℕ}
    (hreplay : w.wal.replay = some ⟨v, .consuming text, g⟩) (hmem : text ∈ appendedOf w.wal.trace)
    (faults : WalFaults) (answer : PushAction × Bool) : Linked config (w.resend text faults answer) := by
  have hcall : ∀ {w' : Pipeline} {answer : Wal.Answer},
      Linked config { w' with wal := w'.wal.step (faults.step (.consume answer)) } →
        Linked config (w'.callWal (.consume answer) faults id) := by
    intro w' answer hlinked
    unfold Pipeline.callWal
    dsimp only
    split_ifs
    · exact hlinked
    · exact hlinked.died
  have htrace : (w.wal.step (faults.step (.consume .accept))).trace = w.wal.trace ++ [.accepted g text] :=
    congrArg Wal.World.trace (Wal.step_accepted _ rfl hlive hreplay)
  have happ : appendedOf (w.wal.step (faults.step (.consume .accept))).trace = appendedOf w.wal.trace := by
    rw [htrace, Wal.appendedOf_append]
    exact List.append_nil _
  have hacc : acceptedOf (w.wal.step (faults.step (.consume .accept))).trace = acceptedOf w.wal.trace ++ [text] := by
    rw [htrace, Wal.acceptedOf_append]
    rfl
  have hrefused : AddsPlain w.wal (w.wal.step (faults.step (.consume .refuse))) := Wal.step_adds rfl
  obtain ⟨action, unconverted⟩ := answer
  cases action with
  | accepted => exact hcall (h.answer ⟨text, .accepted, false⟩ hmem rfl happ hacc)
  | rejected => exact hcall (h.answer ⟨text, .rejected, unconverted⟩ hmem rfl happ hacc)
  | retry =>
    exact hcall (h.answer ⟨text, .retry, false⟩ hmem rfl hrefused.appended
      (hrefused.accepted.trans (List.append_nil _).symm))

theorem Linked.pushStep (h : Linked config w) (hlive : w.alive = true) (file : NbfFile) (action : PushAction)
    (faults : WalFaults) : Linked config (w.pushStep config file action faults) := by
  unfold Pipeline.pushStep
  split
  · split
    · exact h.congr rfl rfl rfl rfl
    · exact h
    · exact h.congr rfl rfl rfl rfl
  · unfold Pipeline.collect
    dsimp only
    split_ifs
    · refine Linked.sendPayloadToWal ?_ ?_ faults
      · exact h.congr rfl rfl rfl rfl
      · exact hlive
    · exact h.congr rfl rfl rfl rfl
  · exact h.congr rfl rfl rfl rfl
  · unfold Pipeline.answered
    split
    · exact (h.made ⟨_, .accepted, true, false⟩ rfl).congr rfl rfl rfl rfl
    · exact (h.made ⟨_, .rejected, true, _⟩ rfl).congr rfl rfl rfl rfl
    · exact h.congr rfl rfl rfl rfl
  · refine Linked.sendPayloadToWal ?_ ?_ faults
    · exact h.congr rfl rfl rfl rfl
    · exact hlive
  · exact h

theorem linked_step {m : Wal.Mode} (h : Linked config w) (hcalm : Wal.Calm m w.wal) (act : PipelineAct) :
    Linked config (w.step config act) := by
  unfold Pipeline.step
  split_ifs with hdead
  · cases act with
    | start faults => exact h.callWal rfl faults fun _ hw => hw
    | _ => exact h
  · have hlive : w.alive = true := by simpa using hdead
    cases act with
    | push record => exact h.congr rfl rfl rfl rfl
    | tryPush record maxSize =>
      dsimp only
      split
      · exact h.congr rfl rfl rfl rfl
      · exact h
    | pushThread file action faults => exact h.pushStep hlive file action faults
    | walThread action faults =>
      dsimp only [Pipeline.walStep]
      split
      · split_ifs
        · exact h.callWal rfl faults fun _ h => h
        · exact h
      · exact h.callWal rfl faults fun _ h => h
      · rename_i hreplay
        exact h.resend hlive hreplay (mem_appended_of_consuming hcalm hreplay) faults _
      · exact h.callWal rfl faults fun _ h => h
    | shutdown => exact h.congr rfl rfl rfl rfl
    | exit faults =>
      dsimp only [Pipeline.exit]
      split_ifs
      · exact Linked.died (h.plain (Wal.step_adds rfl) rfl rfl)
      · exact h
    | kill => exact Linked.died (h.plain (Wal.step_adds rfl) rfl rfl)
    | start faults => exact h

end Link

/-! ## Whole runs -/

section Runs

variable {config : PipelineConfig} {P : Wal.Step → Prop} {m : Wal.Mode}

theorem calm_steps (hstep : ∀ wal st, P st → Wal.Calm m wal → Wal.Calm m (wal.step st)) {a b : Wal.World}
    (h : Steps P a b) (ha : Wal.Calm m a) : Wal.Calm m b := by
  obtain ⟨sts, rfl, hsts⟩ := h
  induction sts generalizing a with
  | nil => exact ha
  | cons st sts ih =>
    obtain ⟨hst, hsts⟩ := List.forall_mem_cons.1 hsts
    exact ih (hstep a st hst ha) hsts

/-- what holds in every state of a run: the WAL keeps its invariant, and its history is the one of the requests -/
theorem run_linked (config : PipelineConfig) (hstep : ∀ wal st, P st → Wal.Calm m wal → Wal.Calm m (wal.step st))
    (acts : List PipelineAct) (hcalls : ∀ act ∈ acts, act.Calls P) :
    Wal.Calm m (Pipeline.run config acts).wal ∧ Linked config (Pipeline.run config acts) := by
  have hrun : ∀ w : Pipeline, Wal.Calm m w.wal ∧ Linked config w →
      Wal.Calm m (acts.foldl (Pipeline.step config) w).wal ∧ Linked config (acts.foldl (Pipeline.step config) w) := by
    induction acts with
    | nil => exact fun w h => h
    | cons act acts ih =>
      obtain ⟨hact, hacts⟩ := List.forall_mem_cons.1 hcalls
      exact fun w h => ih hacts _ ⟨calm_steps hstep (steps_step hact) h.1, linked_step h.2 h.1 act⟩
  exact hrun {} ⟨⟨Wal.ok_new _, rfl⟩, ⟨rfl, rfl, fun _ h => absurd h List.not_mem_nil⟩⟩

/-- a step of the WAL in which calls may fail and the process may be killed, with these exceptions: `fstat`, the `open`
of `Init`, the `lseek` of `ClearInternal` and the rollback of an `Append` work, a `pread` of a length which is there is
not cut short, and no `Append` is killed -/
def Bearable (st : Wal.Step) : Prop := st.Faulty ∧ st.Clean

theorem bearable_step (wal : Wal.World) (st : Wal.Step) (hst : Bearable st)
    (h : Wal.Calm (Wal.faultyMode False) wal) : Wal.Calm (Wal.faultyMode False) (wal.step st) :=
  Wal.faulty_step h hst.1 ⟨fun ht => ht.elim, fun _ => hst.2⟩

theorem bearable_quiet (action : Wal.Action) (hclear : action ≠ .clear) : Bearable (Wal.Action.quiet action) :=
  ⟨Wal.Action.quiet_faulty hclear, fun _ _ => ⟨rfl, rfl⟩⟩

/-- a step of the WAL in which nothing fails -/
def Smooth (st : Wal.Step) : Prop := st.Quiet ∧ st.action ≠ .clear

theorem smooth_step (wal : Wal.World) (st : Wal.Step) (hst : Smooth st) (h : Wal.Calm (Wal.quietMode none) wal) :
    Wal.Calm (Wal.quietMode none) (wal.step st) :=
  Wal.calm_step h hst.1 hst.2 fun _ _ _ hfound => absurd hfound (by simp)

end Runs

/-- what was queued is not lost, and what the WAL has is sent until it was answered -/
structure Delivers (config : PipelineConfig) (w : Pipeline) : Prop where
  accounted : Accounted config.settings w.fifo w.stage w.life
  counted : Counted w.stage w.metrics w.life
  /-- a process which was killed lost its queue and what its push thread had in hand, and nothing else -/
  past : ∀ life ∈ w.past, Left config.settings life
  /-- the texts which the WAL file does not have any more were answered -/
  kept : ∃ gone inFile, storedTexts config w.lives = gone ++ inFile ∧
    Framing.Parses Wal.lenSize w.wal.files.walBytes inFile [] ∧ gone.Sublist (settledTexts w.lives)
  /-- nothing else is sent from the WAL -/
  sent : ∀ resent ∈ w.lives.flatMap Life.resent, resent.text ∈ storedTexts config w.lives

/-- **Every record is accounted for between the queue and a receiver**, whatever the receivers answer. Calls of the WAL
may fail and the process may be killed, apart from these: `fstat`, the `open` of `Init`, the `lseek` of `ClearInternal`
and the rollback of an `Append` work, a `pread` of a length is not cut short, and no `Append` is killed. A record which
was queued is in the queue, in the hands of the push thread, or in one request. A request was accepted, refused for
good, refused by the WAL, which is counted, or it stays in the WAL until it was answered, over all processes. -/
theorem pipeline_delivers (config : PipelineConfig) (acts : List PipelineAct)
    (hcalls : ∀ act ∈ acts, act.Calls Bearable) : Delivers config (Pipeline.run config acts) := by
  have hmemory := run_memory config acts
  obtain ⟨hcalm, hlinked⟩ := run_linked config bearable_step acts hcalls
  refine ⟨hmemory.accounted, hmemory.counted, hmemory.past, ?_, ?_⟩
  · rw [← hlinked.stored, ← hlinked.settled]
    exact hcalm.atLeastOnce.kept
  · rw [← hlinked.stored]
    exact hlinked.sent

def outageConfig : PipelineConfig where
  lib := compactLib
  settings := { version := ascii "1.0", serviceInstanceId := [], hostname := ascii "host" }

/-- a record which gets no answer: the push thread takes it, looks at it, sends it and stores it -/
def unanswered (line : String) : List PipelineAct :=
  [.push { source := .socket, timeNs := 5, line := ascii line }, .pushThread ⟨none, none⟩ .accepted {},
    .pushThread ⟨none, none⟩ .accepted {}, .pushThread ⟨none, none⟩ .accepted {}, .pushThread ⟨none, none⟩ .retry {},
    .pushThread ⟨none, none⟩ .accepted {}]

/-- a replay starts, and sends a record -/
def resentOnce (action : PushAction) : List PipelineAct :=
  [.walThread .accepted {}, .walThread .accepted {}, .walThread action {}]

/-- the process is killed behind the answer, before the position of the record is written -/
def killedActs : List PipelineAct :=
  .start {} :: unanswered "down" ++ resentOnce .accepted ++
    [.walThread .accepted { crashIn := some 0 }, .start {}] ++ resentOnce .accepted

/-- a list of acts, none of which ends the process or fails -/
theorem calls_of_forall {P : Wal.Step → Prop} (hquiet : ∀ action, action ≠ .clear → action ≠ .kill →
    action ≠ .consume .throw → P (Wal.Action.quiet action)) (line : String) (action : PushAction) :
    (∀ act ∈ unanswered line, act.Calls P) ∧ (∀ act ∈ resentOnce action, act.Calls P) ∧
      PipelineAct.Calls P (.start {}) := by
  have happend : ∀ data, P (Wal.Action.quiet (.append data)) :=
    fun data => hquiet _ (fun h => nomatch h) (fun h => nomatch h) fun h => nomatch h
  have hwal : ∀ action, PipelineAct.Calls P (.walThread action {}) := fun action =>
    ⟨hquiet _ (by decide) (by decide) (by decide), hquiet _ (by decide) (by decide) (by decide),
      hquiet _ (by decide) (by decide) (by decide), hquiet _ (by decide) (by decide) (by decide),
      hquiet _ (by decide) (by decide) (by decide)⟩
  refine ⟨?_, ?_, ?_⟩
  · unfold unanswered
    simp only [List.forall_mem_cons]
    exact ⟨trivial, happend, happend, happend, happend, happend, List.forall_mem_nil _⟩
  · unfold resentOnce
    simp only [List.forall_mem_cons]
    exact ⟨hwal _, hwal _, hwal _, List.forall_mem_nil _⟩
  · exact fun maxSize => hquiet _ (fun h => nomatch h) (fun h => nomatch h) fun h => nomatch h

theorem pipeline_delivers_killed :
    (storedTexts outageConfig (Pipeline.run outageConfig killedActs).lives).length = 1 ∧
      settledTexts (Pipeline.run outageConfig killedActs).lives =
        storedTexts outageConfig (Pipeline.run outageConfig killedActs).lives ++
          storedTexts outageConfig (Pipeline.run outageConfig killedActs).lives ∧
      Delivers outageConfig (Pipeline.run outageConfig killedActs) := by
  refine ⟨by decide +kernel, by decide +kernel, pipeline_delivers outageConfig killedActs ?_⟩
  obtain ⟨hunanswered, hresent, hstart⟩ := calls_of_forall (P := Bearable)
    (fun action hclear _ _ => bearable_quiet action hclear) "down" .accepted
  have hkilled : ∀ action, action ≠ .clear → (∀ data, action ≠ .append data) →
      Bearable (WalFaults.step { crashIn := some 0 } action) := fun action hclear happend =>
    ⟨⟨rfl, rfl, rfl, fun _ => List.not_mem_nil, hclear⟩, fun data hdata => absurd hdata (happend data)⟩
  unfold killedActs
  simp only [List.forall_mem_append, List.forall_mem_cons]
  refine ⟨⟨⟨⟨hstart, hunanswered⟩, hresent⟩, ⟨?_, hstart, List.forall_mem_nil _⟩⟩, hresent⟩
  exact ⟨hkilled _ (by decide) (by simp), hkilled _ (by decide) (by simp), hkilled _ (by decide) (by simp),
    hkilled _ (by decide) (by simp), hkilled _ (by decide) (by simp)⟩

/-- **A request in the WAL is answered once, and in order**, as long as nothing fails: the texts which were answered are
the first of those which were stored, and the WAL file has the others behind them. -/
theorem pipeline_exactly_once (config : PipelineConfig) (acts : List PipelineAct)
    (hcalls : ∀ act ∈ acts, act.Calls Smooth) :
    let w := Pipeline.run config acts
    ∃ kept rest, settledTexts w.lives ++ rest = storedTexts config w.lives ∧
      w.wal.files.walBytes = Framing.encode Wal.lenSize (kept ++ rest) ∧ kept <:+ settledTexts w.lives := by
  obtain ⟨⟨hok, hgen⟩, hlinked⟩ := run_linked config smooth_step acts hcalls
  obtain ⟨kept, rest, hfile, hall, hkept⟩ := hok.intact.kept
  have hup : Wal.UpTo 0 (Pipeline.run config acts).wal.trace := by
    obtain ⟨c, t, hinv⟩ := hok
    exact hgen ▸ hinv.trace.upTo
  rw [hgen, hup.acceptedIn_zero, hup.appendedIn_zero, hlinked.stored, hlinked.settled] at hall
  rw [hgen, hup.acceptedIn_zero, hlinked.settled] at hkept
  exact ⟨kept, rest, hall, hfile, hkept⟩

/-- the first one of two requests is answered, and the other one stays -/
def smoothActs : List PipelineAct :=
  .start {} :: unanswered "first" ++ unanswered "second" ++ resentOnce .accepted ++
    [.walThread .accepted {}, .walThread .retry {}]

theorem pipeline_exactly_once_first :
    (storedTexts outageConfig (Pipeline.run outageConfig smoothActs).lives).length = 2 ∧
      (settledTexts (Pipeline.run outageConfig smoothActs).lives).length = 1 ∧
      ∃ kept rest, settledTexts (Pipeline.run outageConfig smoothActs).lives ++ rest =
          storedTexts outageConfig (Pipeline.run outageConfig smoothActs).lives ∧
        (Pipeline.run outageConfig smoothActs).wal.files.walBytes = Framing.encode Wal.lenSize (kept ++ rest) ∧
        kept <:+ settledTexts (Pipeline.run outageConfig smoothActs).lives := by
  refine ⟨by decide +kernel, by decide +kernel, pipeline_exactly_once outageConfig smoothActs ?_⟩
  have hquiet : ∀ action, action ≠ .clear → action ≠ .kill → action ≠ .consume .throw →
      Smooth (Wal.Action.quiet action) := fun action hclear hkill hthrow =>
    ⟨Wal.Action.quiet_quiet hkill hthrow, hclear⟩
  obtain ⟨hfirst, haccepted, hstart⟩ := calls_of_forall hquiet "first" .accepted
  obtain ⟨hsecond, hretry, -⟩ := calls_of_forall hquiet "second" .retry
  unfold smoothActs
  simp only [List.forall_mem_append]
  refine ⟨⟨⟨List.forall_mem_cons.2 ⟨hstart, hfirst⟩, hsecond⟩, haccepted⟩, ?_⟩
  exact (List.forall_mem_cons.1 hretry).2

/-! ## The end of an outage -/

/-- `WalThread` goes on, and the receivers accept -/
def Pipeline.resume (config : PipelineConfig) (n : ℕ) (w : Pipeline) : Pipeline :=
  (List.replicate n (.walThread .accepted {})).foldl (Pipeline.step config) w

/-- a request is sent as it is: it can be converted, and it is not empty -/
def Sendable (config : PipelineConfig) (text : Bytes) : Prop := (config.sendPushRequest text .accepted).1 ≠ .retry

section Resume

variable {config : PipelineConfig} {m : Wal.Mode}

theorem resume_succ (n : ℕ) (w : Pipeline) :
    w.resume config (n + 1) = (w.step config (.walThread .accepted {})).resume config n := rfl

theorem step_walThread {w : Pipeline} (hlive : w.alive = true) :
    w.step config (.walThread .accepted {}) = w.walStep config .accepted {} := by
  unfold Pipeline.step
  rw [if_neg (by rw [hlive]; decide)]

theorem step_reading (config : PipelineConfig) {w : Pipeline} (hlive : w.alive = true) {v : Wal.ReplayVars} {g : ℕ}
    (hreplay : w.wal.replay = some ⟨v, .reading, g⟩) :
    (w.step config (.walThread .accepted {})).wal = w.wal.step (Wal.Action.quiet .replayRead) := by
  rw [step_walThread hlive, Pipeline.walStep, hreplay]
  exact callWal_id

theorem step_ending {w : Pipeline} (hlive : w.alive = true) {v : Wal.ReplayVars} {g : ℕ}
    (hreplay : w.wal.replay = some ⟨v, .ending, g⟩) :
    (w.step config (.walThread .accepted {})).wal = w.wal.step (Wal.Action.quiet .replayEnd) := by
  rw [step_walThread hlive, Pipeline.walStep, hreplay]
  exact callWal_id

theorem step_consuming {w : Pipeline} (hlive : w.alive = true) {v : Wal.ReplayVars} {text : Bytes} {g : ℕ}
    (hreplay : w.wal.replay = some ⟨v, .consuming text, g⟩) (hsend : Sendable config text) :
    (w.step config (.walThread .accepted {})).wal = w.wal.step (Wal.Action.quiet (.consume .accept)) := by
  rw [step_walThread hlive, Pipeline.walStep, hreplay]
  unfold Sendable at hsend
  dsimp only
  generalize config.sendPushRequest text .accepted = answer at hsend
  obtain ⟨action, unconverted⟩ := answer
  cases action with
  | accepted => exact callWal_id
  | rejected => exact callWal_id
  | retry => exact absurd rfl hsend

theorem alive_of_replay {w : Pipeline} (h : Wal.Calm m w.wal) {p : Wal.Replaying} (hreplay : w.wal.replay = some p) :
    w.alive = true := by
  obtain ⟨⟨c, t, hinv⟩, -⟩ := h
  unfold Pipeline.alive
  cases hwal : w.wal.wal with
  | some o => rfl
  | none => exact absurd ((hinv.absent hwal).2.symm.trans hreplay) (by simp)

/-- the loop of the replay -/
theorem resume_acceptAll (fuel : ℕ) {w : Pipeline} (hcalm : Wal.Calm (Wal.faultyMode False) w.wal)
    (hsend : ∀ text ∈ appendedOf w.wal.trace, Sendable config text) {v : Wal.ReplayVars} {g : ℕ}
    (hreplay : w.wal.replay = some ⟨v, .reading, g⟩) :
    ∃ n, (w.resume config n).wal = w.wal.acceptAll fuel := by
  induction fuel generalizing w v g with
  | zero => exact ⟨0, rfl⟩
  | succ fuel ih =>
    have hlive := alive_of_replay hcalm hreplay
    have hread := step_reading config hlive hreplay
    have hcalm' := bearable_step _ _ (bearable_quiet .replayRead (by decide)) hcalm
    rw [← hread] at hcalm'
    rw [Wal.World.acceptAll, ← hread]
    have hread' : AddsPlain w.wal (w.step config (.walThread .accepted {})).wal := by
      rw [hread]
      exact Wal.step_adds rfl
    split
    · -- a record is sent, and it is answered
      rename_i v' text g' hconsuming
      have hlive' := alive_of_replay hcalm' hconsuming
      have hsend' : ∀ text ∈ appendedOf (w.step config (.walThread .accepted {})).wal.trace, Sendable config text := by
        rw [hread'.appended]
        exact hsend
      have hstep := step_consuming hlive' hconsuming (hsend' text (mem_appended_of_consuming hcalm' hconsuming))
      have haccept := Wal.step_accepted (Wal.Action.quiet (.consume .accept)) rfl hlive' hconsuming
      have hcalm'' := bearable_step _ _ (bearable_quiet (.consume .accept) (by decide)) hcalm'
      rw [← hstep] at hcalm'' haccept
      have happ :
          appendedOf ((w.step config (.walThread .accepted {})).step config (.walThread .accepted {})).wal.trace =
            appendedOf (w.step config (.walThread .accepted {})).wal.trace := by
        rw [haccept]
        exact (Wal.appendedOf_append _ _).trans (List.append_nil _)
      obtain ⟨n, hn⟩ := ih hcalm'' (by rw [happ]; exact hsend') (congrArg Wal.World.replay haccept)
      refine ⟨n + 2, ?_⟩
      rw [resume_succ, resume_succ, hn, hstep]
    · exact ⟨1, rfl⟩

theorem calls_resume (n : ℕ) : ∀ act ∈ List.replicate n (PipelineAct.walThread .accepted {}), act.Calls Bearable := by
  intro act hact
  rw [(List.mem_replicate.1 hact).2]
  exact ⟨bearable_quiet .replayStart (by decide), bearable_quiet .replayRead (by decide),
    bearable_quiet (.consume .accept) (by decide), bearable_quiet (.consume .refuse) (by decide),
    bearable_quiet .replayEnd (by decide)⟩

theorem run_resume (acts : List PipelineAct) (n : ℕ) : Pipeline.run config
    (acts ++ List.replicate n (.walThread .accepted {})) = (Pipeline.run config acts).resume config n :=
  List.foldl_append

theorem resume_add (n k : ℕ) (w : Pipeline) : w.resume config (n + k) = (w.resume config n).resume config k := by
  unfold Pipeline.resume
  rw [List.replicate_add, List.foldl_append]

/-- a replay from its beginning to its end -/
theorem resume_replayAll {acts : List PipelineAct} (hcalls : ∀ act ∈ acts, act.Calls Bearable) {o : Wal.SimpleWal}
    (ho : (Pipeline.run config acts).wal.wal = some o) (hidle : (Pipeline.run config acts).wal.replay = none)
    (hpending : o.pendingReplay = true)
    (hsend : ∀ text ∈ appendedOf (Pipeline.run config acts).wal.trace, Sendable config text) :
    ∃ n, ((Pipeline.run config acts).resume config n).wal = (Pipeline.run config acts).wal.replayAll ∧
      (Pipeline.run config acts).wal.replayAll.files.walBytes = [] ∧
      appendedOf (Pipeline.run config acts).wal.replayAll.trace = appendedOf (Pipeline.run config acts).wal.trace := by
  have hcalm : ∀ n, Wal.Calm (Wal.faultyMode False) ((Pipeline.run config acts).resume config n).wal := by
    intro n
    rw [← run_resume]
    exact (run_linked config bearable_step _ (List.forall_mem_append.2 ⟨hcalls, calls_resume n⟩)).1
  generalize Pipeline.run config acts = w at ho hidle hsend hcalm ⊢
  have hlive : w.alive = true := by
    unfold Pipeline.alive
    rw [ho]
    rfl
  obtain ⟨⟨c, t, hinv⟩, -⟩ := hcalm 0
  have hobj := hinv.object o ho
  obtain ⟨f, hf⟩ := hobj.file
  have hreplaying : o.replaying = false := by
    rw [hobj.replaying]
    exact congrArg Option.isSome hidle
  obtain ⟨off, rs, rest, log, -, -, heq⟩ := Wal.replayAll_spec ho hobj.fd hreplaying hf
  obtain ⟨off', log', -, hstart⟩ := Wal.step_replayStart ho hreplaying hf
  -- the first step of the thread starts the replay
  have hfirst : (w.resume config 1).wal = w.wal.step (Wal.Action.quiet .replayStart) := by
    have hp : w.wal.isReplayPending = some true := by
      unfold Wal.World.isReplayPending
      rw [ho]
      exact congrArg some hpending
    change (w.step config (.walThread .accepted {})).wal = _
    rw [step_walThread hlive, Pipeline.walStep, hidle]
    dsimp only
    rw [if_pos hp]
    exact callWal_id
  have happ : appendedOf (w.resume config 1).wal.trace = appendedOf w.wal.trace := by
    rw [hfirst]
    exact (Wal.step_adds rfl).appended
  obtain ⟨k, hk⟩ := resume_acceptAll ((w.wal.step (Wal.Action.quiet .replayStart)).files.walBytes.length + 1) (hcalm 1)
    (by rw [happ]; exact hsend) (by rw [hfirst, hstart])
  rw [hfirst, ← resume_add] at hk
  have hall : w.wal.replayAll = ((w.resume config (1 + k)).wal).step (Wal.Action.quiet .replayEnd) := by
    rw [hk]
    rfl
  have hnil : w.wal.replayAll.files.walBytes = [] := by
    rw [heq]
    exact Wal.walBytes_recovered _ _
  have hsame : appendedOf w.wal.replayAll.trace = appendedOf w.wal.trace := by
    have hnone : appendedOf (.replaying :: Wal.handedOver w.wal.gen rs ++ [.emptied, .replayed true]) = [] :=
      (Wal.appendedOf_append (Wal.handedOver w.wal.gen rs) _).trans (by rw [Wal.appendedOf_handedOver]; rfl)
    rw [heq, Wal.appendedOf_append, hnone, List.append_nil]
  by_cases hending : ∃ v g, (w.resume config (1 + k)).wal.replay = some ⟨v, .ending, g⟩
  · obtain ⟨v, g, hplace⟩ := hending
    refine ⟨1 + k + 1, ?_, hnil, hsame⟩
    rw [resume_add, hall]
    exact step_ending (alive_of_replay (hcalm _) hplace) hplace
  · refine ⟨1 + k, ?_, hnil, hsame⟩
    rw [hall, Wal.step_replayEnd_of_not fun v g hplace => hending ⟨v, g, hplace⟩]

/-- **An outage ends.** A run with failing calls and kills, apart from those which `Bearable` leaves out, has reached a
running process between two replays. When the receivers accept from there on and no call fails, `WalThread` empties the
WAL, and every request which it had was answered. -/
theorem outage_ends (config : PipelineConfig) (acts : List PipelineAct) (hcalls : ∀ act ∈ acts, act.Calls Bearable)
    (hlive : (Pipeline.run config acts).alive = true) (hidle : (Pipeline.run config acts).wal.replay = none)
    (hsend : ∀ text ∈ storedTexts config (Pipeline.run config acts).lives, Sendable config text) :
    ∃ n, let w := Pipeline.run config (acts ++ List.replicate n (.walThread .accepted {}))
      w.wal.files.walBytes = [] ∧
        (storedTexts config (Pipeline.run config acts).lives).Sublist (settledTexts w.lives) := by
  obtain ⟨hcalm, hlinked⟩ := run_linked config bearable_step acts hcalls
  rw [← hlinked.stored] at hsend ⊢
  obtain ⟨o, ho⟩ := Option.isSome_iff_exists.1 hlive
  -- after `n` steps the WAL file is empty, and nothing was appended
  obtain ⟨n, hnil, happ⟩ : ∃ n, ((Pipeline.run config acts).resume config n).wal.files.walBytes = [] ∧
      appendedOf ((Pipeline.run config acts).resume config n).wal.trace =
        appendedOf (Pipeline.run config acts).wal.trace := by
    by_cases hpending : o.pendingReplay = true
    · obtain ⟨n, hn, hnil, happ⟩ := resume_replayAll hcalls ho hidle hpending hsend
      exact ⟨n, hn ▸ hnil, hn ▸ happ⟩
    · refine ⟨0, ?_, rfl⟩
      obtain ⟨⟨c, t, hinv⟩, -⟩ := hcalm
      have hbase := (hinv.object o ho).pending (by simpa using hpending)
      have hentries : c.entries = [] := by
        unfold CursorLog.entries
        rw [hbase, List.drop_length]
      have hrest : t = [] := hinv.whole.resolve_right id
      have hsplit := hinv.disk.stored.split
      rw [hentries, hrest] at hsplit
      exact hsplit
  refine ⟨n, ?_⟩
  obtain ⟨hcalm', hlinked'⟩ := run_linked config bearable_step _
    (List.forall_mem_append.2 ⟨hcalls, calls_resume n⟩)
  rw [run_resume] at hcalm' hlinked' ⊢
  dsimp only
  refine ⟨hnil, ?_⟩
  obtain ⟨gone, inFile, hall, hfile, hgone⟩ := hcalm'.atLeastOnce.kept
  have hin : inFile = [] := by
    refine Framing.encode_eq_nil (w := Wal.lenSize) (by decide) ?_
    exact (List.append_eq_nil_iff.1 (hfile.split.symm.trans hnil)).1
  rw [← happ, hall, hin, List.append_nil, ← hlinked'.settled]
  exact hgone

end Resume

instance (config : PipelineConfig) (text : Bytes) : Decidable (Sendable config text) :=
  inferInstanceAs (Decidable (_ ≠ _))

/-- the process was killed, and another one has started -/
def restartedActs : List PipelineAct := .start {} :: unanswered "down" ++ [.kill, .start {}]

theorem outage_ends_restarted :
    (storedTexts outageConfig (Pipeline.run outageConfig restartedActs).lives).length = 1 ∧
      ∃ n, let w := Pipeline.run outageConfig (restartedActs ++ List.replicate n (.walThread .accepted {}))
        w.wal.files.walBytes = [] ∧
          (storedTexts outageConfig (Pipeline.run outageConfig restartedActs).lives).Sublist
            (settledTexts w.lives) := by
  refine ⟨by decide +kernel, outage_ends outageConfig restartedActs ?_ (by decide +kernel) (by decide +kernel)
    (by decide +kernel)⟩
  obtain ⟨hunanswered, -, hstart⟩ := calls_of_forall (P := Bearable)
    (fun action hclear _ _ => bearable_quiet action hclear) "down" .accepted
  unfold restartedActs
  simp only [List.forall_mem_append, List.forall_mem_cons]
  exact ⟨⟨hstart, hunanswered⟩, bearable_quiet .kill (by decide), hstart, List.forall_mem_nil _⟩

end DominoLogForwarder.Otelfwd
