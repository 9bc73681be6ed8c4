/-
The position of the file input never passes a line which was not delivered.

The records of the lines travel in the order in which they were read: what is on its way (the batch, the queue, and the
record which `FileThread` has in its hand) is the end of what `ReadLine` returned, and everything before it was
delivered (`Flow`). So when a batch was delivered, every line up to one of its lines was. A position which holds this
(`Settled`) goes to the slot, to `FileThread` and to the reader, and stays behind every line which is returned later.
-/
import DominoLogForwarder.Otelfwd.FileInput

namespace DominoLogForwarder.Otelfwd

open CrashProg HighMark
open FileReader (Bytes Reader Line Kernel Sys Position position position_le position_lt)
open Push (PushAction)

/-- the records of the file input -/
def files (records : List QueuedRecord) : List QueuedRecord := records.filter (·.source = .file)

@[simp] theorem files_append (a b : List QueuedRecord) : files (a ++ b) = files a ++ files b := List.filter_append ..

theorem files_other (record : OtherRecord) : files [record.1] = [] := by
  simp [files, record.2]

theorem files_file (line : Line) : files [lineRecord line] = [lineRecord line] := by
  simp [files, lineRecord]

theorem mem_files {record : QueuedRecord} {records : List QueuedRecord} :
    record ∈ files records ↔ record ∈ records ∧ record.source = .file := by
  simp [files]

def QueuedRecord.position (record : QueuedRecord) : Position :=
  FileReader.position record.fileGeneration record.fileEndOffset

/-- the record which `FileThread` did not push yet -/
def FilePhase.inHand : FilePhase → List QueuedRecord
  | .push _ record => [record]
  | _ => []

/-- the batch which is not delivered yet -/
def PushPhase.batch : PushPhase → List QueuedRecord
  | .collect batch _ _ _ => batch
  | .send batch _ _ => batch
  | .spill batch _ _ => batch
  | _ => []

namespace Forwarder

/-- every line up to this position was delivered -/
def Settled (w : Forwarder) (p : Position) : Prop :=
  ∀ line ∈ w.returned, line.text ≠ [] → line.position ≤ p → w.Delivered (lineRecord line)

/-- every line of the generation up to this offset was delivered -/
def SettledIn (w : Forwarder) (generation endOffset : ℕ) : Prop :=
  ∀ line ∈ w.returned, line.text ≠ [] → line.generation = generation → line.endOffset ≤ endOffset →
    w.Delivered (lineRecord line)

theorem Settled.settledIn {w : Forwarder} {generation endOffset : ℕ} (h : w.Settled (position generation endOffset)) :
    w.SettledIn generation endOffset := by
  intro line hline htext hgen hend
  apply h line hline htext
  exact position_le.2 (Or.inr ⟨hgen, hend⟩)

/-! ## The invariant -/

/-- what is known of the reader and of the lines -/
structure Lines (w : Forwarder) : Prop where
  ordered : w.alive = true → w.reader.Ordered
  increasing : (w.returned.map Line.position).Pairwise (· < ·)
  behind : ∀ line ∈ w.returned, 0 < line.endOffset ∧ line.position ≤ w.reader.low
  current : (w.reader.generation, w.reader.committed) ∈ w.positions
  below : w.alive = true → ∀ p ∈ w.positions, position p.1 p.2 ≤ w.reader.low
  seen : ∀ line ∈ w.returned, ∃ p ∈ w.positions, p.1 = line.generation

/-- the positions which the threads hold -/
def marks (w : Forwarder) : List Position :=
  w.slot.position :: position w.file.generation w.file.endOffset ::
    match w.file.phase with
    | .last generation endOffset => [position generation endOffset]
    | _ => []

/-- the records of the lines which are to be delivered, in the order in which they were read -/
def lineRecords (w : Forwarder) : List QueuedRecord := (w.returned.filter (·.text ≠ [])).map lineRecord

/-- the records which are not delivered yet, of all inputs -/
def way (w : Forwarder) : List QueuedRecord := w.push.batch ++ (w.fifo.queue ++ w.file.phase.inHand)

/-- what is on its way is the end of what was read, and the rest was delivered -/
def Flow (w : Forwarder) : Prop :=
  ∃ past, w.lineRecords = past ++ files w.way ∧ ∀ record ∈ past, w.Delivered record

/-- the records of the batch are delivered, or will be with the next request -/
def Batch (w : Forwarder) : PushPhase → Prop
  | .collect batch todo otlpBatch safe =>
    safe = true ∧ ∀ record ∈ batch, record ∈ todo ∨ record ∈ otlpBatch ∨ w.Delivered record
  | .send batch otlpBatch safe => safe = true ∧ ∀ record ∈ batch, record ∈ otlpBatch ∨ w.Delivered record
  | .spill batch otlpBatch safe => safe = true ∧ ∀ record ∈ batch, record ∈ otlpBatch ∨ w.Delivered record
  | .handOver todo =>
    ∀ record ∈ todo, record.source = .file → w.Settled record.position ∧ record.position ≤ w.reader.low ∧
      position 0 0 < record.position
  | _ => True

structure Inv (w : Forwarder) : Prop where
  lines : w.Lines
  kept : Kept (position 0 0) w.slot.mark w.calls
  added : ∀ p ∈ added w.calls, position 0 0 < p
  marks : ∀ p ∈ w.marks, w.Settled p ∧ p ≤ w.reader.low
  committed : ∀ p ∈ w.positions, w.SettledIn p.1 p.2
  flow : w.Flow
  batch : w.Batch w.push

/-! ## What a step leaves alone -/

/-- the reader is left alone, and what was delivered is delivered -/
structure Keeps (w w' : Forwarder) : Prop where
  reader : w'.reader = w.reader
  alive : w'.alive = true → w.alive = true
  returned : w'.returned = w.returned
  positions : w'.positions = w.positions
  delivered : ∀ record, w.Delivered record → w'.Delivered record

variable {w w' : Forwarder}

theorem Keeps.settled (h : w.Keeps w') {p : Position} (hp : w.Settled p) : w'.Settled p := by
  intro line hline htext hle
  rw [h.returned] at hline
  exact h.delivered _ (hp line hline htext hle)

theorem Keeps.settledIn (h : w.Keeps w') {g o : ℕ} (hp : w.SettledIn g o) : w'.SettledIn g o := by
  intro line hline htext hgen hend
  rw [h.returned] at hline
  exact h.delivered _ (hp line hline htext hgen hend)

theorem Keeps.lines (h : w.Keeps w') (hl : w.Lines) : w'.Lines := by
  refine ⟨fun halive => ?_, ?_, ?_, ?_, fun halive => ?_, ?_⟩
  · rw [h.reader]
    exact hl.ordered (h.alive halive)
  · rw [h.returned]
    exact hl.increasing
  · rw [h.returned, h.reader]
    exact hl.behind
  · rw [h.reader, h.positions]
    exact hl.current
  · rw [h.positions, h.reader]
    exact hl.below (h.alive halive)
  · rw [h.returned, h.positions]
    exact hl.seen

theorem Keeps.lineRecords (h : w.Keeps w') : w'.lineRecords = w.lineRecords := by
  unfold Forwarder.lineRecords
  rw [h.returned]

theorem Keeps.batch (h : w.Keeps w') {phase : PushPhase} (hb : w.Batch phase) : w'.Batch phase := by
  cases phase with
  | collect batch todo otlpBatch safe =>
    refine ⟨hb.1, fun record hr => ?_⟩
    rcases hb.2 record hr with hin | hin | hin
    · exact Or.inl hin
    · exact Or.inr (Or.inl hin)
    · exact Or.inr (Or.inr (h.delivered _ hin))
  | send batch otlpBatch safe => exact ⟨hb.1, fun record hr => (hb.2 record hr).imp_right (h.delivered _)⟩
  | spill batch otlpBatch safe => exact ⟨hb.1, fun record hr => (hb.2 record hr).imp_right (h.delivered _)⟩
  | handOver todo =>
    intro record hr hfile
    obtain ⟨hsettled, hlow⟩ := hb record hr hfile
    refine ⟨h.settled hsettled, ?_⟩
    rw [h.reader]
    exact hlow
  | idle => trivial
  | ended => trivial

/-- a step which leaves the reader and the slot alone -/
theorem Inv.keep (hi : w.Inv) (h : w.Keeps w') (hslot : w'.slot = w.slot) (hcalls : w'.calls = w.calls)
    (hmarks : w'.marks ⊆ w.marks) (hflow : w'.Flow) (hbatch : w'.Batch w'.push) : w'.Inv where
  lines := h.lines hi.lines
  kept := by
    rw [hslot, hcalls]
    exact hi.kept
  added := by
    rw [hcalls]
    exact hi.added
  marks p hp := by
    obtain ⟨hsettled, hlow⟩ := hi.marks p (hmarks hp)
    rw [h.reader]
    exact ⟨h.settled hsettled, hlow⟩
  committed p hp := by
    rw [h.positions] at hp
    exact h.settledIn (hi.committed p hp)
  flow := hflow
  batch := hbatch

/-- the records on their way are the same -/
theorem Flow.keep (hf : w.Flow) (h : w.Keeps w') (hway : files w'.way = files w.way) : w'.Flow := by
  obtain ⟨past, heq, hpast⟩ := hf
  refine ⟨past, ?_, fun record hr => h.delivered _ (hpast record hr)⟩
  rw [h.lineRecords, heq, hway]

theorem lineRecords_source {record : QueuedRecord} (h : record ∈ w.lineRecords) :
    ∃ line ∈ w.returned, line.text ≠ [] ∧ lineRecord line = record := by
  obtain ⟨line, hline, rfl⟩ := List.mem_map.1 h
  obtain ⟨hin, htext⟩ := List.mem_filter.1 hline
  exact ⟨line, hin, by simpa using htext, rfl⟩

theorem mem_lineRecords {line : Line} (hline : line ∈ w.returned) (htext : line.text ≠ []) :
    lineRecord line ∈ w.lineRecords := by
  apply List.mem_map_of_mem
  rw [List.mem_filter]
  exact ⟨hline, by simpa using htext⟩

theorem Lines.records_increasing (h : w.Lines) : (w.lineRecords.map QueuedRecord.position).Pairwise (· < ·) := by
  have heq : w.lineRecords.map QueuedRecord.position = (w.returned.filter (·.text ≠ [])).map Line.position := by
    unfold lineRecords
    rw [List.map_map]
    rfl
  rw [heq]
  exact h.increasing.sublist (List.filter_sublist.map _)

/-- **When the lines up to a batch were delivered, and the batch**, every line up to one of the batch was. -/
theorem Lines.settled {past first rest : List QueuedRecord} (hl : w.Lines)
    (heq : w.lineRecords = past ++ (files first ++ rest)) (hpast : ∀ record ∈ past, w.Delivered record)
    (hfirst : ∀ record ∈ first, w.Delivered record) {record : QueuedRecord} (hrecord : record ∈ files first) :
    w.Settled record.position ∧ record.position ≤ w.reader.low ∧ position 0 0 < record.position := by
  have hall := hl.records_increasing
  rw [heq, List.map_append, List.map_append] at hall
  obtain ⟨-, hlater, -⟩ := List.pairwise_append.1 hall
  obtain ⟨-, -, hbefore⟩ := List.pairwise_append.1 hlater
  refine ⟨fun line hline htext hle => ?_, ?_⟩
  · have hin := mem_lineRecords hline htext
    rw [heq] at hin
    rcases List.mem_append.1 hin with hin | hin
    · exact hpast _ hin
    · rcases List.mem_append.1 hin with hin | hin
      · exact hfirst _ (mem_files.1 hin).1
      · -- a line of the rest is behind the record
        have hlt := hbefore _ (List.mem_map_of_mem hrecord) _ (List.mem_map_of_mem hin)
        exact absurd hle (not_le.2 hlt)
  · have hin : record ∈ w.lineRecords := by
      rw [heq]
      exact List.mem_append_right _ (List.mem_append_left _ hrecord)
    obtain ⟨line, hline, -, rfl⟩ := lineRecords_source hin
    obtain ⟨hpos, hlow⟩ := hl.behind line hline
    refine ⟨hlow, ?_⟩
    change position 0 0 < position line.generation line.endOffset
    rw [position_lt]
    omega

/-! ## The other inputs and the files -/

theorem inv_push (hi : w.Inv) (record : OtherRecord) : ({ w with fifo := w.fifo.push record.1 } : Forwarder).Inv := by
  have hk : w.Keeps { w with fifo := w.fifo.push record.1 } := ⟨rfl, id, rfl, rfl, fun _ h => h⟩
  apply hi.keep hk rfl rfl (List.Subset.refl _)
  · apply hi.flow.keep hk
    simp only [way, LogFifo.push, files_append, files_other, List.append_nil]
  · exact hk.batch hi.batch

theorem inv_tryPush (hi : w.Inv) (record : OtherRecord) (maxSize : ℕ) :
    ({ w with fifo := (w.fifo.tryPush record.1 maxSize).2 } : Forwarder).Inv := by
  unfold LogFifo.tryPush
  split_ifs
  · exact hi
  · exact inv_push hi record

/-! ## PushThread -/

theorem inv_pop (hi : w.Inv) (hphase : w.push = .idle) {batch : List QueuedRecord} {fifo : LogFifo QueuedRecord}
    (hpop : batch ++ fifo.queue = w.fifo.queue) :
    ({ w with fifo := fifo, push := .collect batch batch [] true } : Forwarder).Inv := by
  have hk : w.Keeps { w with fifo := fifo, push := .collect batch batch [] true } := ⟨rfl, id, rfl, rfl, fun _ h => h⟩
  apply hi.keep hk rfl rfl (List.Subset.refl _)
  · apply hi.flow.keep hk
    simp only [way, hphase, PushPhase.batch, List.nil_append]
    rw [← List.append_assoc, hpop]
  · exact ⟨rfl, fun record hr => Or.inl hr⟩

/-- the batch stays, and more of it may be delivered -/
theorem inv_batch (hi : w.Inv) (hk : w.Keeps w') (hslot : w'.slot = w.slot) (hcalls : w'.calls = w.calls)
    (hfile : w'.file = w.file) (hfifo : w'.fifo = w.fifo) (hsame : w'.push.batch = w.push.batch)
    (hbatch : w'.Batch w'.push) : w'.Inv := by
  apply hi.keep hk hslot hcalls _ _ hbatch
  · unfold marks
    rw [hslot, hfile]
    exact List.Subset.refl _
  · apply hi.flow.keep hk
    unfold way
    rw [hsame, hfile, hfifo]

/-- the whole batch was delivered: its positions are handed over -/
theorem inv_finish (hi : w.Inv) (hk : w.Keeps w') (hslot : w'.slot = w.slot) (hcalls : w'.calls = w.calls)
    (hfile : w'.file = w.file) (hfifo : w'.fifo = w.fifo) (hpush : w'.push = .handOver w.push.batch)
    (hall : ∀ record ∈ w.push.batch, w'.Delivered record) : w'.Inv := by
  have hrest : w'.way = w.fifo.queue ++ w.file.phase.inHand := by
    unfold way
    rw [hpush, hfile, hfifo]
    rfl
  obtain ⟨past, heq, hpast⟩ := hi.flow
  apply hi.keep hk hslot hcalls
  · unfold marks
    rw [hslot, hfile]
    exact List.Subset.refl _
  · refine ⟨past ++ files w.push.batch, ?_, fun record hr => ?_⟩
    · rw [hk.lineRecords, heq, hrest, way, files_append, List.append_assoc]
    · rcases List.mem_append.1 hr with hr | hr
      · exact hk.delivered _ (hpast record hr)
      · exact hall _ (mem_files.1 hr).1
  · rw [hpush]
    intro record hr hsource
    have heq' : w'.lineRecords = past ++ (files w.push.batch ++ files w'.way) := by
      rw [hk.lineRecords, heq, hrest, way, files_append]
    apply (hk.lines hi.lines).settled heq' (fun record hr => hk.delivered _ (hpast record hr)) hall
    exact mem_files.2 ⟨hr, hsource⟩

theorem storePayload_refused {payload : List QueuedRecord} {walAppends : Bool}
    (h : (w.storePayload payload walAppends).walRefused = 0) : walAppends = true := by
  unfold storePayload at h
  cases walAppends with
  | true => rfl
  | false => simp at h

theorem inv_collect (hi : w.Inv) {config : ForwarderConfig} (hurl : config.pushUrl = true) {walAppends : Bool}
    {batch todo otlpBatch : List QueuedRecord} {record : QueuedRecord} {safe : Bool}
    (hphase : w.push = .collect batch (record :: todo) otlpBatch safe)
    (hrefused : (w.collect config walAppends batch record todo otlpBatch safe).walRefused = 0) :
    (w.collect config walAppends batch record todo otlpBatch safe).Inv := by
  have hbatch := hi.batch
  rw [hphase] at hbatch
  obtain ⟨rfl, hall⟩ := hbatch
  unfold collect at hrefused ⊢
  rw [if_pos hurl] at hrefused ⊢
  by_cases htest : walTesting <:+: record.line
  · rw [if_pos htest] at hrefused ⊢
    obtain rfl := storePayload_refused hrefused
    have hdelivered : ∀ r, w.Delivered r → ({ w.storePayload [record] true with
        push := .collect batch todo otlpBatch (true && true) } : Forwarder).Delivered r := by
      intro r hr
      rcases hr with hr | hr | hr
      · exact Or.inl hr
      · exact Or.inr (Or.inl (List.mem_append_left _ hr))
      · exact Or.inr (Or.inr hr)
    refine inv_batch hi ⟨rfl, id, rfl, rfl, hdelivered⟩ rfl rfl rfl rfl ?_ ?_
    · rw [hphase]
      rfl
    · refine ⟨rfl, fun r hr => ?_⟩
      rcases hall r hr with hin | hin | hin
      · rcases List.mem_cons.1 hin with rfl | hin
        · exact Or.inr (Or.inr (Or.inr (Or.inl (List.mem_append_right _ List.mem_cons_self))))
        · exact Or.inl hin
      · exact Or.inr (Or.inl hin)
      · exact Or.inr (Or.inr (hdelivered r hin))
  · rw [if_neg htest]
    refine inv_batch hi ⟨rfl, id, rfl, rfl, fun _ h => h⟩ rfl rfl rfl rfl ?_ ?_
    · rw [hphase]
      rfl
    · refine ⟨rfl, fun r hr => ?_⟩
      rcases hall r hr with hin | hin | hin
      · rcases List.mem_cons.1 hin with rfl | hin
        · exact Or.inr (Or.inl (List.mem_append_right _ List.mem_cons_self))
        · exact Or.inl hin
      · exact Or.inr (Or.inl (List.mem_append_left _ hin))
      · exact Or.inr (Or.inr hin)

/-- a position of the batch goes to the slot -/
theorem inv_handOver (hi : w.Inv) {record : QueuedRecord} {todo : List QueuedRecord}
    (hphase : w.push = .handOver (record :: todo)) : (w.handOver record todo).Inv := by
  have hbatch := hi.batch
  rw [hphase] at hbatch
  have htodo : ∀ r ∈ todo, r.source = .file → w.Settled r.position ∧ r.position ≤ w.reader.low ∧
      position 0 0 < r.position := fun r hr => hbatch r (List.mem_cons_of_mem _ hr)
  unfold handOver
  by_cases hsource : record.source = .file
  · obtain ⟨hsettled, hlow, hpos⟩ := hbatch record List.mem_cons_self hsource
    rw [if_pos hsource]
    have hk : w.Keeps { w with
        slot := w.slot.add record.fileGeneration record.fileEndOffset
        calls := w.calls ++ [.add (position record.fileGeneration record.fileEndOffset)]
        push := .handOver todo } := ⟨rfl, id, rfl, rfl, fun _ h => h⟩
    refine ⟨hk.lines hi.lines, ?_, ?_, ?_, fun p hp => hk.settledIn (hi.committed p hp), ?_, htodo⟩
    · rw [FileCommitSlot.add_mark]
      exact hi.kept.add _
    · intro p hp
      rw [added_add] at hp
      rcases List.mem_append.1 hp with hp | hp
      · exact hi.added p hp
      · rw [List.mem_singleton.1 hp]
        exact hpos
    · intro p hp
      rcases List.mem_cons.1 hp with rfl | hp
      · rcases w.slot.add_position record.fileGeneration record.fileEndOffset with heq | heq
        · rw [heq]
          exact hi.marks _ List.mem_cons_self
        · rw [heq]
          exact ⟨hsettled, hlow⟩
      · exact hi.marks p (List.mem_cons_of_mem _ hp)
    · apply hi.flow.keep hk
      simp only [way, hphase, PushPhase.batch]
  · rw [if_neg hsource]
    refine inv_batch hi ⟨rfl, id, rfl, rfl, fun _ h => h⟩ rfl rfl rfl rfl ?_ htodo
    rw [hphase]
    rfl

/-- **A step of `PushThread`**, if the WAL refuses nothing. -/
theorem inv_pushStep (hi : w.Inv) {config : ForwarderConfig} (hurl : config.pushUrl = true) (walAppends : Bool)
    (action : PushAction) (hrefused : (w.pushStep config walAppends action).walRefused = 0) :
    (w.pushStep config walAppends action).Inv := by
  have hbatch := hi.batch
  unfold pushStep at hrefused ⊢
  cases hphase : w.push with
  | idle =>
    simp only [hphase] at hrefused ⊢
    cases hpop : w.fifo.popBatch (fun record => record.line.length) maxBatchRecords maxBatchBytes with
    | mk popped fifo =>
      cases popped with
      | batch batch => exact inv_pop hi hphase (LogFifo.popBatch_append hpop)
      | waiting => exact hi
      | ended =>
        refine inv_batch hi ⟨rfl, id, rfl, rfl, fun _ h => h⟩ rfl rfl rfl rfl ?_ trivial
        rw [hphase]
        rfl
  | collect batch todo otlpBatch safe =>
    rw [hphase] at hbatch
    cases todo with
    | cons record todo =>
      simp only [hphase] at hrefused ⊢
      exact inv_collect hi hurl hphase hrefused
    | nil =>
      obtain ⟨rfl, hall⟩ := hbatch
      simp only [hphase] at hrefused ⊢
      by_cases hempty : otlpBatch = []
      · rw [if_pos hempty]
        refine inv_finish hi ⟨rfl, id, rfl, rfl, fun _ h => h⟩ rfl rfl rfl rfl ?_ ?_
        · rw [hphase]
          rfl
        · rw [hphase]
          intro record hr
          rcases hall record hr with hin | hin | hin
          · cases hin
          · rw [hempty] at hin
            cases hin
          · exact hin
      · rw [if_neg hempty]
        refine inv_batch hi ⟨rfl, id, rfl, rfl, fun _ h => h⟩ rfl rfl rfl rfl ?_ ?_
        · rw [hphase]
          rfl
        · refine ⟨rfl, fun record hr => ?_⟩
          rcases hall record hr with hin | hin
          · cases hin
          · exact hin
  | send batch otlpBatch safe =>
    rw [hphase] at hbatch
    obtain ⟨rfl, hall⟩ := hbatch
    simp only [hphase] at hrefused ⊢
    cases action with
    | accepted =>
      have hdelivered : ∀ r, w.Delivered r → ({ w.finishBatch batch true with
          accepted := w.accepted ++ otlpBatch } : Forwarder).Delivered r :=
        fun r hr => hr.imp_left (List.mem_append_left _)
      refine inv_finish hi ⟨rfl, id, rfl, rfl, hdelivered⟩ rfl rfl rfl rfl ?_ ?_
      · rw [hphase]
        rfl
      · rw [hphase]
        intro record hr
        rcases hall record hr with hin | hin
        · exact Or.inl (List.mem_append_right _ hin)
        · exact hdelivered record hin
    | rejected =>
      have hdelivered : ∀ r, w.Delivered r → ({ w.finishBatch batch true with
          rejected := w.rejected ++ otlpBatch } : Forwarder).Delivered r :=
        fun r hr => hr.imp_right fun h => h.imp_right (List.mem_append_left _)
      refine inv_finish hi ⟨rfl, id, rfl, rfl, hdelivered⟩ rfl rfl rfl rfl ?_ ?_
      · rw [hphase]
        rfl
      · rw [hphase]
        intro record hr
        rcases hall record hr with hin | hin
        · exact Or.inr (Or.inr (List.mem_append_right _ hin))
        · exact hdelivered record hin
    | retry =>
      refine inv_batch hi ⟨rfl, id, rfl, rfl, fun _ h => h⟩ rfl rfl rfl rfl ?_ ?_
      · rw [hphase]
        rfl
      · exact ⟨rfl, hall⟩
  | spill batch otlpBatch safe =>
    rw [hphase] at hbatch
    obtain ⟨rfl, hall⟩ := hbatch
    simp only [hphase] at hrefused ⊢
    obtain rfl := storePayload_refused hrefused
    have hdelivered : ∀ r, w.Delivered r → ((w.storePayload otlpBatch true).finishBatch batch true).Delivered r :=
      fun r hr => hr.imp_right fun h => h.imp_left (List.mem_append_left _)
    refine inv_finish hi ⟨rfl, id, rfl, rfl, hdelivered⟩ rfl rfl rfl rfl ?_ ?_
    · rw [hphase]
      rfl
    · rw [hphase]
      intro record hr
      rcases hall record hr with hin | hin
      · exact Or.inr (Or.inl (List.mem_append_right _ hin))
      · exact hdelivered record hin
  | handOver todo =>
    cases todo with
    | cons record todo =>
      exact inv_handOver hi hphase
    | nil =>
      refine inv_batch hi ⟨rfl, id, rfl, rfl, fun _ h => h⟩ rfl rfl rfl rfl ?_ trivial
      rw [hphase]
      rfl
  | ended => exact hi

/-! ## The calls of the reader -/

theorem Lines.generation_le (h : w.Lines) {line : Line} (hline : line ∈ w.returned) :
    line.generation ≤ w.reader.generation := by
  obtain ⟨hend, hlow⟩ := h.behind line hline
  unfold Reader.low Line.position at hlow
  split_ifs at hlow
  · rcases position_le.1 hlow with hlt | ⟨heq, -⟩ <;> omega
  · rcases position_le.1 hlow with hlt | ⟨heq, hle⟩ <;> omega

/-- in a generation which is newer than all lines there is nothing to deliver -/
theorem Inv.settledIn_goes (hi : w.Inv) {r : Reader} (h : w.reader.Goes r) : w.SettledIn r.generation r.committed := by
  rcases h.committed with ⟨hgen, hcom⟩ | hlt
  · rw [hgen, hcom]
    exact hi.committed _ hi.lines.current
  · intro line hline _ hgen _
    have hle := hi.lines.generation_le hline
    omega

/-- what is known of `w'` when a call of the reader in `w` ended with `line` -/
structure AfterCall (w : Forwarder) (line : Option Line) (w' : Forwarder) : Prop where
  low_le : w.reader.low ≤ w'.reader.low
  ordered : w'.alive = true → w'.reader.Ordered
  line_behind : ∀ l, line = some l → w.reader.low < l.position ∧ l.position = w'.reader.low ∧
    l.generation = w'.reader.generation ∧ w'.reader.committed < l.endOffset
  settledIn : w.SettledIn w'.reader.generation w'.reader.committed
  positions : w'.positions = w.positions ++ [(w'.reader.generation, w'.reader.committed)]
  returned : w'.returned = w.returned ++ line.toList
  slot : w'.slot = w.slot
  calls : w'.calls = w.calls
  marks : w'.marks ⊆ w.marks
  push : w'.push = w.push
  delivered : ∀ record, w.Delivered record → w'.Delivered record
  way : files w'.way = files w.way ++ (line.toList.filter (·.text ≠ [])).map lineRecord

variable {line : Option Line}

theorem AfterCall.mem_returned (h : AfterCall w line w') {l : Line} (hl : l ∈ w'.returned) :
    l ∈ w.returned ∨ line = some l := by
  rw [h.returned] at hl
  exact (List.mem_append.1 hl).imp_right Option.mem_toList.1

theorem AfterCall.settled (h : AfterCall w line w') {p : Position} (hp : w.Settled p) (hle : p ≤ w.reader.low) :
    w'.Settled p ∧ p ≤ w'.reader.low := by
  refine ⟨fun l hl htext hpos => ?_, hle.trans h.low_le⟩
  rcases h.mem_returned hl with hl | hl
  · exact h.delivered _ (hp l hl htext hpos)
  · obtain ⟨hlt, -⟩ := h.line_behind l hl
    exact absurd (hpos.trans hle) (not_le.2 hlt)

theorem AfterCall.lines (h : AfterCall w line w') (hl : w.Lines) (halive : w.alive = true) : w'.Lines := by
  refine ⟨h.ordered, ?_, fun l hmem => ?_, ?_, fun halive' p hp => ?_, fun l hmem => ?_⟩
  · rw [h.returned, List.map_append]
    apply List.pairwise_append.2
    refine ⟨hl.increasing, ?_, ?_⟩
    · cases line <;> simp
    · intro p hp q hq
      obtain ⟨l, hmem, rfl⟩ := List.mem_map.1 hp
      obtain ⟨l', hmem', rfl⟩ := List.mem_map.1 hq
      exact lt_of_le_of_lt (hl.behind l hmem).2 (h.line_behind l' (Option.mem_toList.1 hmem')).1
  · rcases h.mem_returned hmem with hmem | heq
    · exact ⟨(hl.behind l hmem).1, (hl.behind l hmem).2.trans h.low_le⟩
    · obtain ⟨-, hlow, -, hcom⟩ := h.line_behind l heq
      exact ⟨by omega, hlow.le⟩
  · rw [h.positions]
    exact List.mem_append_right _ List.mem_cons_self
  · rw [h.positions] at hp
    rcases List.mem_append.1 hp with hp | hp
    · exact (hl.below halive p hp).trans h.low_le
    · rw [List.mem_singleton.1 hp]
      exact (h.ordered halive').committed_le_low
  · rw [h.positions]
    rcases h.mem_returned hmem with hmem | heq
    · obtain ⟨p, hp, hgen⟩ := hl.seen l hmem
      exact ⟨p, List.mem_append_left _ hp, hgen⟩
    · obtain ⟨-, -, hgen, -⟩ := h.line_behind l heq
      exact ⟨_, List.mem_append_right _ List.mem_cons_self, hgen.symm⟩

theorem AfterCall.inv (h : AfterCall w line w') (hi : w.Inv) (halive : w.alive = true) : w'.Inv := by
  refine ⟨h.lines hi.lines halive, ?_, ?_, fun p hp => ?_, fun p hp => ?_, ?_, ?_⟩
  · rw [h.slot, h.calls]
    exact hi.kept
  · rw [h.calls]
    exact hi.added
  · obtain ⟨hsettled, hlow⟩ := hi.marks p (h.marks hp)
    exact h.settled hsettled hlow
  · rw [h.positions] at hp
    intro l hl htext hgen hend
    rcases List.mem_append.1 hp with hp | hp
    · rcases h.mem_returned hl with hl | hl
      · exact h.delivered _ (hi.committed p hp l hl htext hgen hend)
      · -- the line is behind every position of the reader so far
        obtain ⟨hlt, -⟩ := h.line_behind l hl
        have hle : l.position ≤ position p.1 p.2 := position_le.2 (Or.inr ⟨hgen, hend⟩)
        exact absurd (hle.trans (hi.lines.below halive p hp)) (not_le.2 hlt)
    · rw [List.mem_singleton.1 hp] at hgen hend
      rcases h.mem_returned hl with hl | hl
      · exact h.delivered _ (h.settledIn l hl htext hgen hend)
      · obtain ⟨-, -, -, hcom⟩ := h.line_behind l hl
        exact absurd hend (not_le.2 hcom)
  · obtain ⟨past, heq, hpast⟩ := hi.flow
    refine ⟨past, ?_, fun record hr => h.delivered _ (hpast record hr)⟩
    have hrecords : w'.lineRecords = w.lineRecords ++ (line.toList.filter (·.text ≠ [])).map lineRecord := by
      unfold lineRecords
      rw [h.returned, List.filter_append, List.map_append]
    rw [hrecords, heq, h.way, List.append_assoc]
  · rw [h.push]
    have hbatch := hi.batch
    cases hphase : w.push with
    | collect batch todo otlpBatch safe =>
      rw [hphase] at hbatch
      exact ⟨hbatch.1, fun record hr => (hbatch.2 record hr).imp_right fun hq => hq.imp_right (h.delivered _)⟩
    | send batch otlpBatch safe =>
      rw [hphase] at hbatch
      exact ⟨hbatch.1, fun record hr => (hbatch.2 record hr).imp_right (h.delivered _)⟩
    | spill batch otlpBatch safe =>
      rw [hphase] at hbatch
      exact ⟨hbatch.1, fun record hr => (hbatch.2 record hr).imp_right (h.delivered _)⟩
    | handOver todo =>
      rw [hphase] at hbatch
      intro record hr hfile
      obtain ⟨hsettled, hlow, hpos⟩ := hbatch record hr hfile
      obtain ⟨hsettled', hlow'⟩ := h.settled hsettled hlow
      exact ⟨hsettled', hlow', hpos⟩
    | idle => trivial
    | ended => trivial

/-! ## FileThread -/

theorem Inv.settledIn_commits (hi : w.Inv) {g o : ℕ} (hmark : position g o ∈ w.marks) {r : Reader}
    (h : w.reader.Commits g o r) : w.SettledIn r.generation r.committed := by
  rw [h.generation]
  rcases h.committed with hcom | ⟨hgen, -, hcom⟩
  · rw [hcom]
    exact hi.committed _ hi.lines.current
  · rw [hcom, ← hgen]
    exact (hi.marks _ hmark).1.settledIn

/-- a call of `Commit` with a position which a thread holds -/
theorem inv_commit (hi : w.Inv) (halive : w.alive = true) {g o : ℕ} (hmark : position g o ∈ w.marks) {s : Sys}
    (hcommits : w.reader.Commits g o s.reader) (file : FileThread) (alive : Bool)
    (hmarks : ({ w.called s with file := file, alive := alive } : Forwarder).marks ⊆ w.marks)
    (hhand : file.phase.inHand = w.file.phase.inHand) :
    ({ w.called s with file := file, alive := alive } : Forwarder).Inv := by
  have hcall : AfterCall w none { w.called s with file := file, alive := alive } :=
    { low_le := hcommits.low.ge
      ordered := fun _ => hcommits.ordered (hi.lines.ordered halive)
      line_behind := fun _ hl => by cases hl
      settledIn := hi.settledIn_commits hmark hcommits
      positions := rfl
      returned := (List.append_nil _).symm
      slot := rfl
      calls := rfl
      marks := hmarks
      push := rfl
      delivered := fun _ h => h
      way := by
        unfold way
        rw [hhand]
        exact (List.append_nil _).symm }
  exact hcall.inv hi halive

theorem inv_fileCommit (hi : w.Inv) (halive : w.alive = true) (hphase : w.file.phase = .commit) (kern : Kernel) :
    (w.fileCommit kern).Inv := by
  have hmark : position w.file.generation w.file.endOffset ∈ w.marks :=
    List.mem_cons_of_mem _ List.mem_cons_self
  have hspec := FileReader.commit_commits (r := w.reader) w.file.generation w.file.endOffset (w.sys kern) rfl
  unfold fileCommit
  split_ifs
  · cases hrun : FileReader.FrM.commit w.file.generation w.file.endOffset (w.sys kern) with
    | done ok s =>
      rw [wp_of_done hrun] at hspec
      refine inv_commit hi halive hmark hspec { w.file with phase := .room 0, retry := !ok } w.alive ?_ ?_
      · intro p hp
        simpa [marks, called, hphase] using hp
      · rw [hphase]
        rfl
    | crash s =>
      rw [wp_of_crash hrun] at hspec
      exact inv_commit hi halive hmark hspec w.file false (List.Subset.refl _) rfl
  · have hk : w.Keeps (w.atPhase (.room 0)) := ⟨rfl, id, rfl, rfl, fun _ h => h⟩
    apply hi.keep hk rfl rfl
    · intro p hp
      simpa [marks, atPhase, hphase] using hp
    · apply hi.flow.keep hk
      simp only [way, atPhase, hphase, FilePhase.inHand]
    · exact hk.batch hi.batch

theorem inv_mainCommit (hi : w.Inv) (halive : w.alive = true) {g o : ℕ} (hphase : w.file.phase = .last g o)
    (kern : Kernel) : (w.mainCommit kern g o).Inv := by
  have hmark : position g o ∈ w.marks := by
    simp [marks, hphase]
  have hspec := FileReader.commit_commits (r := w.reader) g o (w.sys kern) rfl
  unfold mainCommit
  cases hrun : FileReader.FrM.commit g o (w.sys kern) with
  | done ok s =>
    rw [wp_of_done hrun] at hspec
    refine inv_commit hi halive hmark hspec { w.file with phase := .ended } w.alive ?_ ?_
    · intro p hp
      simp only [marks, called, hphase, List.mem_cons, List.not_mem_nil, or_false] at hp ⊢
      rcases hp with hp | hp
      · exact Or.inl hp
      · exact Or.inr (Or.inl hp)
    · rw [hphase]
      rfl
  | crash s =>
    rw [wp_of_crash hrun] at hspec
    exact inv_commit hi halive hmark hspec w.file false (List.Subset.refl _) rfl

/-- a call of `ReadLine` -/
theorem inv_fileRead (hi : w.Inv) (halive : w.alive = true) {lines : ℕ} (hphase : w.file.phase = .read lines)
    (tNow : ℤ) (rounds : ℕ) (kern : Kernel) : (w.fileRead tNow rounds kern lines).Inv := by
  have hspec := FileReader.readLine_ordered tNow rounds (hi.lines.ordered halive) (w.sys kern) rfl
  have hmarks : ∀ phase s, (∀ g o, phase ≠ .last g o) → ((w.called s).atPhase phase).marks ⊆ w.marks := by
    intro phase s hno p hp
    cases phase with
    | last g o => exact absurd rfl (hno g o)
    | _ => simpa [marks, called, atPhase, hphase] using hp
  unfold fileRead
  cases hrun : FileReader.FrM.readLine tNow rounds (w.sys kern) with
  | crash s =>
    rw [wp_of_crash hrun] at hspec
    have hcall : AfterCall w none (w.called s).killed :=
      { low_le := hspec.low_le
        ordered := fun h => by cases h
        line_behind := fun _ hl => by cases hl
        settledIn := hi.settledIn_goes hspec
        positions := rfl
        returned := (List.append_nil _).symm
        slot := rfl
        calls := rfl
        marks := List.Subset.refl _
        push := rfl
        delivered := fun _ h => h
        way := (List.append_nil _).symm }
    exact hcall.inv hi halive
  | done line s =>
    rw [wp_of_done hrun] at hspec
    cases line with
    | none =>
      have hcall : AfterCall w none ((w.called s).atPhase .top) :=
        { low_le := hspec.steps.2.low_le
          ordered := fun _ => hspec.steps.1
          line_behind := fun _ hl => by cases hl
          settledIn := hi.settledIn_goes hspec.steps.2
          positions := rfl
          returned := (List.append_nil _).symm
          slot := rfl
          calls := rfl
          marks := hmarks _ s fun g o h => by cases h
          push := rfl
          delivered := fun _ h => h
          way := by simp [way, called, atPhase, hphase, FilePhase.inHand] }
      exact hcall.inv hi halive
    | some line =>
      have hcall : AfterCall w (some line)
          { (w.called s).atPhase (if line.text = [] then .room (lines + 1) else .push (lines + 1)
            (lineRecord line)) with
            returned := w.returned ++ [line] } :=
        { low_le := hspec.steps.2.low_le
          ordered := fun _ => hspec.steps.1
          line_behind := hspec.behind
          settledIn := hi.settledIn_goes hspec.steps.2
          positions := rfl
          returned := rfl
          slot := rfl
          calls := rfl
          marks := hmarks _ s fun g o h => by split_ifs at h
          push := rfl
          delivered := fun _ h => h
          way := by
            -- an empty line is not queued
            by_cases hempty : line.text = []
            · simp [way, called, atPhase, hphase, FilePhase.inHand, hempty]
            · simp [way, called, atPhase, hphase, FilePhase.inHand, hempty, files_file] }
      exact hcall.inv hi halive

/-- `FileThread` or `main` took what there was -/
theorem inv_took (hi : w.Inv) (file : FileThread) (hhand : file.phase.inHand = w.file.phase.inHand)
    (hmarks : ({ w.took with file := file } : Forwarder).marks ⊆ w.marks) :
    ({ w.took with file := file } : Forwarder).Inv := by
  have hk : w.Keeps { w.took with file := file } := ⟨rfl, id, rfl, rfl, fun _ h => h⟩
  have htake := hi.kept.take
  rw [FileCommitSlot.take_mark] at htake
  refine ⟨hk.lines hi.lines, htake, ?_, fun p hp => ?_, fun p hp => hk.settledIn (hi.committed p hp), ?_,
    hk.batch hi.batch⟩
  · intro p hp
    simp only [took, added_take] at hp
    exact hi.added p hp
  · obtain ⟨hsettled, hlow⟩ := hi.marks p (hmarks hp)
    exact ⟨hk.settled hsettled, hlow⟩
  · apply hi.flow.keep hk
    unfold way
    rw [hhand]
    rfl

theorem slot_taken {g o : ℕ} (h : w.slot.take.1 = some (g, o)) : position g o = w.slot.position := by
  unfold FileCommitSlot.take at h
  split_ifs at h
  · simp only [Option.some.injEq, Prod.mk.injEq] at h
    rw [← h.1, ← h.2]
    rfl

/-- **A step of `FileThread`**, and of `main` behind it. -/
theorem inv_fileStep (hi : w.Inv) (halive : w.alive = true) (config : ForwarderConfig) (tNow : ℤ) (rounds : ℕ)
    (kern : Kernel) (stop : Bool) : (w.fileStep config tNow rounds kern stop).Inv := by
  -- the phase changes, and no thread gets a position or a record
  have hmove : ∀ phase, (∀ g o, phase ≠ .last g o) → phase.inHand = w.file.phase.inHand → (w.atPhase phase).Inv := by
    intro phase hno hhand
    have hk : w.Keeps (w.atPhase phase) := ⟨rfl, id, rfl, rfl, fun _ h => h⟩
    apply hi.keep hk rfl rfl
    · intro p hp
      cases phase with
      | last g o => exact absurd rfl (hno g o)
      | _ =>
        simp only [marks, atPhase, List.mem_cons, List.not_mem_nil, or_false] at hp
        rcases hp with rfl | rfl
        · exact List.mem_cons_self
        · exact List.mem_cons_of_mem _ List.mem_cons_self
    · apply hi.flow.keep hk
      unfold way
      rw [show (w.atPhase phase).file.phase.inHand = w.file.phase.inHand from hhand]
      rfl
    · exact hk.batch hi.batch
  unfold fileStep
  cases hphase : w.file.phase with
  | top =>
    dsimp only
    split_ifs
    · exact hmove _ (fun g o h => by cases h) (by rw [hphase]; rfl)
    · unfold fileTake
      cases htake : w.slot.take.1 with
      | none =>
        refine inv_took hi { w.file with phase := .commit } (by rw [hphase]; rfl) fun p hp => ?_
        simpa [marks, took, FileCommitSlot.take_position, hphase] using hp
      | some taken =>
        obtain ⟨g, o⟩ := taken
        refine inv_took hi ⟨.commit, g, o, true⟩ (by rw [hphase]; rfl) fun p hp => ?_
        simp only [marks, took, FileCommitSlot.take_position, slot_taken htake, List.mem_cons, List.not_mem_nil,
          or_false, or_self] at hp
        rw [hp]
        exact List.mem_cons_self
  | commit => exact inv_fileCommit hi halive hphase kern
  | room lines =>
    dsimp only
    split_ifs
    · exact hmove _ (fun g o h => by cases h) (by rw [hphase]; rfl)
    · exact hmove _ (fun g o h => by cases h) (by rw [hphase]; rfl)
  | read lines => exact inv_fileRead hi halive hphase tNow rounds kern
  | push lines record =>
    have hk : w.Keeps { w.atPhase (.room lines) with fifo := w.fifo.push record } := ⟨rfl, id, rfl, rfl, fun _ h => h⟩
    apply hi.keep hk rfl rfl
    · intro p hp
      simpa [marks, atPhase, hphase] using hp
    · apply hi.flow.keep hk
      simp only [way, atPhase, hphase, FilePhase.inHand, LogFifo.push, List.append_nil]
    · exact hk.batch hi.batch
  | ended =>
    dsimp only
    cases htake : w.slot.take.1 with
    | none =>
      refine inv_took hi w.file rfl fun p hp => ?_
      simpa [marks, took, FileCommitSlot.take_position] using hp
    | some taken =>
      obtain ⟨g, o⟩ := taken
      refine inv_took hi { w.file with phase := .last g o } (by rw [hphase]; rfl) fun p hp => ?_
      simp only [marks, took, FileCommitSlot.take_position, slot_taken htake, List.mem_cons, List.not_mem_nil,
        or_false] at hp
      rcases hp with rfl | rfl | rfl
      · exact List.mem_cons_self
      · exact List.mem_cons_of_mem _ List.mem_cons_self
      · exact List.mem_cons_self
  | last g o => exact inv_mainCommit hi halive hphase kern

/-! ## Runs -/

theorem storePayload_walRefused_le (payload : List QueuedRecord) (walAppends : Bool) :
    w.walRefused ≤ (w.storePayload payload walAppends).walRefused := by
  unfold storePayload
  split_ifs
  · exact le_rfl
  · exact Nat.le_succ _

theorem pushStep_walRefused_le (config : ForwarderConfig) (walAppends : Bool) (action : PushAction) :
    w.walRefused ≤ (w.pushStep config walAppends action).walRefused := by
  unfold pushStep
  split
  · split <;> exact le_rfl
  · unfold collect
    split_ifs
    · exact storePayload_walRefused_le _ _
    · exact le_rfl
    · exact le_rfl
  · split_ifs <;> exact le_rfl
  · cases action <;> exact le_rfl
  · exact storePayload_walRefused_le _ _
  · unfold handOver
    split_ifs <;> exact le_rfl
  · exact le_rfl
  · exact le_rfl

theorem fileStep_walRefused (config : ForwarderConfig) (tNow : ℤ) (rounds : ℕ) (kern : Kernel) (stop : Bool) :
    (w.fileStep config tNow rounds kern stop).walRefused = w.walRefused := by
  unfold fileStep
  split
  · split_ifs
    · rfl
    · unfold fileTake
      split <;> rfl
  · unfold fileCommit
    split_ifs
    · split <;> rfl
    · rfl
  · split_ifs <;> rfl
  · unfold fileRead
    split <;> rfl
  · rfl
  · split <;> rfl
  · unfold mainCommit
    split <;> rfl

theorem step_walRefused_le (config : ForwarderConfig) (act : ForwarderAct) :
    w.walRefused ≤ (step config w act).walRefused := by
  unfold step
  split_ifs
  · exact le_rfl
  · cases act with
    | fileThread tNow rounds kern stop => exact (fileStep_walRefused config tNow rounds kern stop).ge
    | pushThread walAppends action => exact pushStep_walRefused_le config walAppends action
    | _ => exact le_rfl

theorem run_walRefused_le (config : ForwarderConfig) (acts : List ForwarderAct) :
    w.walRefused ≤ (w.run config acts).walRefused := by
  induction acts generalizing w with
  | nil => exact le_rfl
  | cons act acts ih => exact (step_walRefused_le config act).trans ih

theorem inv_start (settings : FileReader.Settings) (disk : FileReader.Disk) : (start settings disk).Inv where
  lines :=
    { ordered := fun _ h => by cases h
      increasing := List.Pairwise.nil
      behind := fun _ h => by cases h
      current := List.mem_cons_self
      below := fun _ p hp => by
        rw [List.mem_singleton.1 hp]
        exact position_le.2 (Or.inl Nat.one_pos)
      seen := fun _ h => by cases h }
  kept := kept_new _
  added _ h := by cases h
  marks p hp := by
    refine ⟨fun _ h => (by cases h), ?_⟩
    have hp' : p = position 0 0 := by simpa [marks, start, FileCommitSlot.position] using hp
    rw [hp']
    exact position_le.2 (Or.inl Nat.one_pos)
  committed _ _ _ h := by cases h
  flow := ⟨[], rfl, fun _ h => by cases h⟩
  batch := trivial

/-- **Every step keeps the invariant**, if the WAL refuses nothing. -/
theorem inv_step (hi : w.Inv) {config : ForwarderConfig} (hurl : config.pushUrl = true) (act : ForwarderAct)
    (hrefused : (step config w act).walRefused = 0) : (step config w act).Inv := by
  unfold step at hrefused ⊢
  by_cases halive : w.alive = false
  · rw [if_pos halive]
    exact hi
  · rw [if_neg halive] at hrefused ⊢
    have halive' : w.alive = true := by simpa using halive
    cases act with
    | changes changes =>
      have hk : w.Keeps { w with disk := w.disk.applyAll changes } := ⟨rfl, id, rfl, rfl, fun _ h => h⟩
      exact hi.keep hk rfl rfl (List.Subset.refl _) (hi.flow.keep hk rfl) (hk.batch hi.batch)
    | push record => exact inv_push hi record
    | tryPush record => exact inv_tryPush hi record _
    | fileThread tNow rounds kern stop => exact inv_fileStep hi halive' config tNow rounds kern stop
    | pushThread walAppends action => exact inv_pushStep hi hurl walAppends action hrefused
    | shutdown =>
      have hk : w.Keeps { w with fifo := { w.fifo with shutdown := true } } := ⟨rfl, id, rfl, rfl, fun _ h => h⟩
      exact hi.keep hk rfl rfl (List.Subset.refl _) (hi.flow.keep hk rfl) (hk.batch hi.batch)
    | kill =>
      have hk : w.Keeps w.killed := ⟨rfl, fun _ => halive', rfl, rfl, fun _ h => h⟩
      exact hi.keep hk rfl rfl (List.Subset.refl _) (hi.flow.keep hk rfl) (hk.batch hi.batch)

theorem inv_run (hi : w.Inv) {config : ForwarderConfig} (hurl : config.pushUrl = true) (acts : List ForwarderAct)
    (hrefused : (w.run config acts).walRefused = 0) : (w.run config acts).Inv := by
  induction acts generalizing w with
  | nil => exact hi
  | cons act acts ih =>
    have hstep : (step config w act).walRefused = 0 := by
      have hle := run_walRefused_le (w := step config w act) config acts
      have hzero : ((step config w act).run config acts).walRefused = 0 := hrefused
      omega
    exact ih (inv_step hi hurl act hstep) hrefused

/-- the state file never holds a position behind a line which was not delivered -/
theorem Inv.holds (hi : w.Inv) {g o : ℕ} (h : w.Holds g o) : w.SettledIn g o := by
  rcases h.2 with hp | hno
  · exact hi.committed _ hp
  · intro line hline _ hgen _
    obtain ⟨p, hp, heq⟩ := hi.lines.seen line hline
    exact absurd (heq.trans hgen) (hno p hp)

/-- **Committed positions never pass undelivered lines.** In every run with a push URL in which the WAL refuses no
append: when the state file holds an offset of a generation, every line of it up to there which is not empty was
delivered. The positions which are taken from the slot grow strictly, and one which is taken behind all others is the
greatest. -/
theorem committed_delivered (config : ForwarderConfig) (settings : FileReader.Settings) (disk : FileReader.Disk)
    (acts : List ForwarderAct) (hurl : config.pushUrl = true)
    (hrefused : ((start settings disk).run config acts).walRefused = 0) :
    let w := (start settings disk).run config acts
    (∀ generation endOffset, w.Holds generation endOffset → ∀ line ∈ w.returned, line.text ≠ [] →
      line.generation = generation → line.endOffset ≤ endOffset → w.Delivered (lineRecord line)) ∧
    (taken w.calls).Pairwise (· < ·) ∧
    ∀ answer, w.calls.getLast? = some (.take answer) → added w.calls ≠ [] →
      ∃ p, (taken w.calls).getLast? = some p ∧ IsGreatest {q | q ∈ added w.calls} p := by
  intro w
  have hi : w.Inv := inv_run (inv_start settings disk) hurl acts hrefused
  refine ⟨fun generation endOffset h => hi.holds h, hi.kept.increasing, fun answer hlast hne => ?_⟩
  exact hi.kept.last_taken hlast hi.added hne

end Forwarder

section Witness

open Forwarder
open FileReader (FileId ascii)

def followed : FileId := ⟨1, 7⟩

def followedDisk : FileReader.Disk where
  path := some ⟨followed, true⟩
  files := fun _ => Wal.File.empty

/-- a step of `FileThread` in which nothing fails -/
def fileGoesOn : ForwarderAct := .fileThread 0 9 {} false

/-- two lines are read between two other records, the second one goes to the WAL. The first batch is pushed, its
position taken and committed -/
def followAndCommit : List ForwarderAct :=
  [.changes [.append followed (ascii "a\nWAL-TESTING\n")], .push ⟨⟨.stdin, ascii "x", 0, 0⟩, by decide⟩] ++
    List.replicate 8 fileGoesOn ++ [.tryPush ⟨⟨.socket, ascii "y", 0, 0⟩, by decide⟩] ++
    List.replicate 12 (.pushThread true .accepted) ++ List.replicate 6 fileGoesOn

theorem committed_delivered_two :
    ((start {} followedDisk).run ⟨true, 10⟩ followAndCommit).Delivered (lineRecord ⟨ascii "a", 1, 2, false⟩) ∧
      ((start {} followedDisk).run ⟨true, 10⟩ followAndCommit).Delivered
        (lineRecord ⟨ascii "WAL-TESTING", 1, 14, false⟩) := by
  have h := committed_delivered ⟨true, 10⟩ {} followedDisk followAndCommit rfl (by decide +kernel)
  have hholds : ((start {} followedDisk).run ⟨true, 10⟩ followAndCommit).Holds 1 14 :=
    ⟨⟨⟨1, 7, 14, 14, (FileReader.hashBytes (ascii "a\nWAL-TESTING\n")).toNat⟩, by decide +kernel, rfl⟩,
      Or.inl (by decide +kernel)⟩
  exact ⟨h.1 1 14 hholds _ (by decide +kernel) (by decide) rfl (by decide),
    h.1 1 14 hholds _ (by decide +kernel) (by decide) rfl (by decide)⟩

end Witness

end DominoLogForwarder.Otelfwd
