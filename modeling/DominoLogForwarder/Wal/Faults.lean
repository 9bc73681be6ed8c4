/-
Delivery when system calls fail and processes are killed: at least once.

- `at_least_once_under_faults`: if an `Append` which fails removes its part of the record, whatever else fails and
  wherever the process is killed, nothing leaves the WAL before it was accepted, and `Replay` and `Ack` only return true
  when what was accepted is not delivered again.
- `survives_torn_append`: an `Append` may also be cut off and leave a part of a record behind. Nothing is lost then
  either, as long as the next `Append` comes after that part was removed by a replay or a peek.
`torn_append_loses` is a run in which the next `Append` comes first.
-/
import DominoLogForwarder.Wal.Recovery

namespace DominoLogForwarder.Wal

open CrashProg Framing FramedLog History

/-! ## Steps in which calls may fail -/

/-- any call may fail and the process may be killed before any call, with these exceptions: `fstat` and the `open` and
`lseek` of `Init` and `ClearInternal` work, and a `pread` of a length which is there is not cut short -/
structure Step.Faulty (st : Step) : Prop where
  fstat : st.oracle .fstat = []
  rewind : st.oracle .rewind = []
  openWal : st.oracle .openWal = []
  preadLen : ∀ n, Fault.short n ∉ st.oracle .preadLen
  clear : st.action ≠ .clear

/-- no part of a record stays behind this `Append` -/
def Step.Clean (st : Step) : Prop := ∀ d, st.action = .append d → st.oracle .rollback = [] ∧ st.crashIn = none

/-- an `Append` starts behind whole records -/
def BehindWhole (w : World) (st : Step) : Prop := ∀ d, st.action = .append d → d.bytes ≠ [] → Whole w.files.walBytes

def faultyMode (torn : Prop) : Mode := { quiet := False, torn := torn, found := none }

theorem faulty_step {torn : Prop} {w : World} {st : Step} (h : Calm (faultyMode torn) w) (hst : st.Faulty)
    (happ : (torn → BehindWhole w st) ∧ (¬ torn → st.Clean)) : Calm (faultyMode torn) (w.step st) := by
  refine ⟨step_ok h.1 ?_, ?_⟩
  · exact {
      fstat := hst.fstat
      rewind := hst.rewind
      openWal := hst.openWal
      preadLen := hst.preadLen
      quiet := fun hq => hq.elim
      append := fun d hd => ⟨fun ht => happ.1 ht d hd, fun ht => happ.2 ht d hd⟩
      clear := fun hc => absurd hc hst.clear
      position := fun _ _ _ hf => nomatch hf
      reading := fun _ _ _ hp hg => absurd (h.same_gen hp) hg
      ending := fun _ _ _ hp hg => absurd (h.same_gen hp) hg }
  · rw [step_gen hst.clear]
    exact h.2

/-! ## What every state says about the past -/

section Past

variable {torn : Prop} {w : World}

/-- what was delivered was appended before -/
def Delivered (tr : List Event) : Prop := Each (fun pre e => ∀ g r, e = .delivered g r → r ∈ appendedOf pre) tr

/-- the records which are not in the WAL file any more were accepted -/
def Kept (w : World) (rest : Bytes) : Prop :=
  ∃ gone inFile, appendedOf w.trace = gone ++ inFile ∧ Parses lenSize w.files.walBytes inFile rest ∧
    gone.Sublist (acceptedOf w.trace)

theorem appendedIn_subset {g : ℕ} {tr : List Event} {r : Bytes} (h : r ∈ appendedIn g tr) : r ∈ appendedOf tr := by
  obtain ⟨e, he, hr⟩ := List.mem_filterMap.1 h
  refine List.mem_filterMap.2 ⟨e, he, ?_⟩
  obtain ⟨p, hp, hpr⟩ := Option.bind_eq_some_iff.1 hr
  rw [hp, Option.map_some]
  split_ifs at hpr
  exact hpr

theorem Calm.delivered {m : Mode} (h : Calm m w) : Delivered w.trace := by
  obtain ⟨⟨c, t, h⟩, -⟩ := h
  exact h.trace.faithful.mono fun pre e hf g r he => appendedIn_subset (hf g r (Or.inl he)).1

theorem Inv.kept {m : Mode} {c : CursorLog Bytes} {t : Bytes} (h : Inv m w c t) (hg : w.gen = 0) : Kept w t := by
  obtain ⟨happ, hacc⟩ := h.lists hg
  have hv := h.disk.valid
  refine ⟨c.appended.take c.base, c.entries, ?_, h.disk.stored, ?_⟩
  · rw [← happ]
    exact (List.take_append_drop _ _).symm
  · rw [← hacc]
    exact (List.take_prefix_take_left (hv.base_mark.trans hv.mark_front)).sublist.trans hv.kept

end Past

/-! ## At least once -/

/-- the commit file holds the position behind the record which was accepted last -/
def Recorded (w : World) : Prop :=
  ∃ inFile k, w.files.walBytes = encode lenSize inFile ∧ k < inFile.length ∧
    w.files.commitValue = span lenSize (inFile.take (k + 1)) ∧ (acceptedOf w.trace).getLast? = inFile[k]?

/-- the replay which just returned emptied the WAL file, and it holds what was appended since then, before the replay
returned. If nothing was, it is empty -/
def EmptiedByReplay (w : World) : Prop :=
  w.trace.getLast? = some (.replayed true) ∧ ∃ pre post, w.trace = pre ++ .emptied :: post ∧ .replaying ∉ post ∧
    acceptedOf post = [] ∧ w.files.walBytes = encode lenSize (appendedOf post)

structure AtLeastOnce (w : World) : Prop where
  delivered : Delivered w.trace
  kept : Kept w []
  settled : Settles w.trace → Recorded w ∨ w.files.walBytes = [] ∨ EmptiedByReplay w

theorem Inv.recorded {m : Mode} {w : World} {c : CursorLog Bytes} (h : Inv m w c []) (hq : ¬ m.quiet) (hg : w.gen = 0)
    (hlast : c.base < c.last) (hmark : c.mark = c.last) : Recorded w := by
  obtain ⟨-, hacc⟩ := h.lists hg
  have hv := h.disk.valid
  have hle := hv.last_le.trans hv.front_le
  refine ⟨c.entries, c.last - 1 - c.base, ?_, ?_, ?_, ?_⟩
  · rw [h.disk.stored.split, List.append_nil]
  · rw [CursorLog.entries, List.length_drop]
    omega
  · have hk : c.last - 1 - c.base + 1 = c.mark - c.base := by omega
    rw [h.marked hq, hk]
    rfl
  · rw [← hacc, hv.last_accepted (c.last - 1) (by omega), CursorLog.entries, List.getElem?_drop]
    congr 1
    omega

theorem Calm.atLeastOnce {w : World} (h : Calm (faultyMode False) w) : AtLeastOnce w := by
  have hdel := h.delivered
  obtain ⟨⟨c, t, h⟩, hg⟩ := h
  obtain rfl : t = [] := h.whole.resolve_right id
  refine ⟨hdel, h.kept hg, fun hs => ?_⟩
  have hbytes : w.files.walBytes = encode lenSize c.entries := by
    rw [h.disk.stored.split, List.append_nil]
  rcases h.settled hg hs with ⟨hlast, hmark⟩ | hnil | ⟨hret, pre, post, heq, hent, hacc, hno⟩
  · exact Or.inl (h.recorded id hg hlast hmark)
  · rw [hbytes, hnil]
    exact Or.inr (Or.inl rfl)
  · refine Or.inr (Or.inr ⟨hret, pre, post, heq, hno, ?_, ?_⟩)
    · have hup : UpTo 0 post := fun e he => by
        refine (hg ▸ h.trace.upTo : UpTo 0 w.trace) e ?_
        rw [heq]
        exact List.mem_append_right _ (List.mem_cons_of_mem _ he)
      rw [← hup.acceptedIn_zero, ← hg]
      exact hacc
    · have hup : UpTo 0 post := fun e he => by
        refine (hg ▸ h.trace.upTo : UpTo 0 w.trace) e ?_
        rw [heq]
        exact List.mem_append_right _ (List.mem_cons_of_mem _ he)
      rw [hbytes, hent, hg, hup.appendedIn_zero]

/-- **Delivery is at least once, whatever fails.** -/
theorem at_least_once_under_faults (sts : List Step) (hf : ∀ st ∈ sts, st.Faulty) (hc : ∀ st ∈ sts, st.Clean) :
    AtLeastOnce (World.new.run sts) := by
  have hall : Guarded World.step (fun _ st => st.Faulty ∧ st.Clean) World.new sts :=
    guarded_of_forall (fun _ _ h => h) sts _ fun st hst => ⟨hf st hst, hc st hst⟩
  have hrun : Calm (faultyMode False) (World.new.run sts) := by
    refine hall.inv (fun w st hG hI => ?_) ⟨ok_new _, rfl⟩
    exact faulty_step hI hG.1 ⟨fun ht => ht.elim, fun _ => hG.2⟩
  exact hrun.atLeastOnce

/-- a step in which one kind of call fails -/
def Action.failing (a : Action) (c : Call) (faults : List Fault) : Step :=
  { action := a, oracle := fun c' => if c' = c then faults else [] }

theorem Action.failing_faulty {a : Action} {c : Call} {faults : List Fault} (ha : a ≠ .clear)
    (hc : c ∉ [Call.fstat, .rewind, .openWal, .preadLen]) : (a.failing c faults).Faulty := by
  have hother : ∀ c' ∈ [Call.fstat, .rewind, .openWal, .preadLen], (a.failing c faults).oracle c' = [] := by
    intro c' hc'
    have hne : c' ≠ c := fun h => hc (h ▸ hc')
    exact if_neg hne
  refine ⟨hother _ (by simp), hother _ (by simp), hother _ (by simp), fun n => ?_, ha⟩
  rw [hother .preadLen (by simp)]
  exact List.not_mem_nil

theorem Action.quiet_faulty {a : Action} (ha : a ≠ .clear) : a.quiet.Faulty :=
  ⟨rfl, rfl, rfl, fun _ => List.not_mem_nil, ha⟩

theorem faulty_of_actions {as : List Action} (hc : .clear ∉ as) : ∀ st ∈ as.map Action.quiet, st.Faulty := by
  intro st hst
  obtain ⟨a, ha, rfl⟩ := List.mem_map.1 hst
  exact Action.quiet_faulty fun h => hc (h ▸ ha)

theorem clean_of_actions {as : List Action} : ∀ st ∈ as.map Action.quiet, st.Clean := by
  intro st hst
  obtain ⟨a, -, rfl⟩ := List.mem_map.1 hst
  exact fun _ _ => ⟨rfl, rfl⟩

/-- the position of the first record cannot be written, and the process is killed: the record is delivered again -/
def twiceRun : List Step :=
  [.start, .append (.single 1), .append (.single 2), .replayStart, .replayRead, .consume .accept, .replayRead,
    .consume .refuse].map Action.quiet ++
  [Action.failing .replayEnd .writeCommit [.short 3, .fail 28]] ++
  [.kill, .start, .peek, .ack].map Action.quiet

theorem at_least_once_under_faults_twice :
    acceptedOf (World.new.run twiceRun).trace = [[1], [1]] ∧ AtLeastOnce (World.new.run twiceRun) := by
  refine ⟨by decide +kernel, at_least_once_under_faults twiceRun ?_ ?_⟩
  · unfold twiceRun
    simp only [List.forall_mem_append]
    refine ⟨⟨faulty_of_actions (by decide), fun st hst => ?_⟩, faulty_of_actions (by decide)⟩
    rw [List.mem_singleton.1 hst]
    exact Action.failing_faulty (by decide) (by decide)
  · unfold twiceRun
    simp only [List.forall_mem_append]
    refine ⟨⟨clean_of_actions, fun st hst => ?_⟩, clean_of_actions⟩
    rw [List.mem_singleton.1 hst]
    exact fun _ hd => nomatch hd

/-! ## A part of a record which was left behind -/

/-- nothing was lost: what was appended is delivered unchanged, and a replay which accepts everything gets it all -/
structure Survives (w : World) : Prop where
  delivered : Delivered w.trace
  kept : ∃ rest, Kept w rest
  eventually : ∀ o, w.wal = some o → w.replay = none → (appendedOf w.trace).Sublist (acceptedOf w.replayAll.trace)

/-- a replay consists of quiet steps -/
theorem replayAll_keeps {I : World → Prop} {w : World}
    (hI : ∀ w a, a ∈ [Action.replayStart, .replayRead, .consume .accept, .replayEnd] → I w →
      I (w.step (Action.quiet a))) (h : I w) : I w.replayAll := by
  have hloop : ∀ fuel w, I w → I (w.acceptAll fuel) := by
    intro fuel
    induction fuel with
    | zero => exact fun w h => h
    | succ fuel ih =>
      intro w h
      have hread := hI w .replayRead (by simp) h
      rw [World.acceptAll]
      split
      · exact ih _ (hI _ _ (by simp) hread)
      · exact hread
  exact hI _ .replayEnd (by simp) (hloop _ _ (hI _ .replayStart (by simp) h))

theorem appendedOf_handedOver (g : ℕ) (rs : List Bytes) : appendedOf (handedOver g rs) = [] := by
  induction rs with
  | nil => rfl
  | cons r rs ih => exact ih

theorem Calm.survives {w : World} (h : Calm (faultyMode True) w) : Survives w := by
  refine ⟨h.delivered, ?_, fun o ho hr => ?_⟩
  · obtain ⟨⟨c, t, h⟩, hg⟩ := h
    exact ⟨t, h.kept hg⟩
  · have hafter : Calm (faultyMode True) w.replayAll := by
      refine replayAll_keeps (fun w a ha hw => ?_) h
      have hno : a ≠ .clear ∧ ∀ d, a ≠ .append d := by
        simp only [List.mem_cons, List.not_mem_nil, or_false] at ha
        rcases ha with rfl | rfl | rfl | rfl <;> simp
      exact faulty_step hw (Action.quiet_faulty hno.1) ⟨fun _ d hd => absurd hd (hno.2 d), fun ht => absurd trivial ht⟩
    obtain ⟨⟨c, t, h⟩, hg⟩ := h
    have hobj := h.object o ho
    obtain ⟨f, hf⟩ := hobj.file
    have hidle : o.replaying = false := by rw [hobj.replaying, hr]; rfl
    obtain ⟨off, rs, rest, log, -, -, heq⟩ := replayAll_spec ho hobj.fd hidle hf
    have hnil : w.replayAll.files.walBytes = [] := by
      rw [heq]
      exact walBytes_recovered _ _
    have hsame : appendedOf w.replayAll.trace = appendedOf w.trace := by
      rw [heq, appendedOf_append]
      have : appendedOf (.replaying :: handedOver w.gen rs ++ [.emptied, .replayed true]) = [] :=
        (appendedOf_append (handedOver w.gen rs) _).trans (by rw [appendedOf_handedOver]; rfl)
      rw [this, List.append_nil]
    -- the WAL is empty now, so everything was accepted
    obtain ⟨⟨c', t', h'⟩, hg'⟩ := hafter
    obtain ⟨gone, inFile, happ, hparse, hgone⟩ := h'.kept hg'
    have hin : inFile = [] := by
      have := (List.append_eq_nil_iff.1 (hparse.split.symm.trans hnil)).1
      exact encode_eq_nil (by decide) this
    rw [hin, List.append_nil, hsame] at happ
    rw [happ]
    exact hgone

/-- **A torn append costs no record, as long as nothing is appended behind it.** -/
theorem survives_torn_append (sts : List Step) (hf : ∀ st ∈ sts, st.Faulty)
    (hw : Guarded World.step BehindWhole World.new sts) : Survives (World.new.run sts) := by
  have hall : Guarded World.step (fun _ st => st.Faulty) World.new sts := guarded_of_forall (fun _ _ h => h) sts _ hf
  have hrun : Calm (faultyMode True) (World.new.run sts) := by
    refine (hall.and hw).inv (fun w st hG hI => ?_) ⟨ok_new _, rfl⟩
    exact faulty_step hI hG.1 ⟨fun _ => hG.2, fun ht => absurd trivial ht⟩
  exact hrun.survives

/-- the process is killed when the length of a record is written and its data is not -/
def tornAppend : Step := { action := .append (.pair 1 1), crashIn := some 2 }

theorem tornAppend_faulty : tornAppend.Faulty := ⟨rfl, rfl, rfl, fun _ => List.not_mem_nil, fun h => nomatch h⟩

/-- the next record is appended behind the torn one, before any replay -/
def behindTornRun : List Step :=
  [Action.start].map Action.quiet ++ [tornAppend] ++ [.start, .append (.single 9)].map Action.quiet

theorem torn_append_loses :
    (∀ st ∈ behindTornRun, st.Faulty) ∧ appendedOf (World.new.run behindTornRun).trace = [[9]] ∧
      deliveredOf (World.new.run behindTornRun).replayAll.trace = [[1, 0]] ∧
      ¬ Survives (World.new.run behindTornRun) := by
  have happ : appendedOf (World.new.run behindTornRun).trace = [[9]] := by decide +kernel
  refine ⟨?_, happ, by decide +kernel, fun h => ?_⟩
  · unfold behindTornRun
    simp only [List.forall_mem_append]
    refine ⟨⟨faulty_of_actions (by decide), fun st hst => ?_⟩, faulty_of_actions (by decide)⟩
    rw [List.mem_singleton.1 hst]
    exact tornAppend_faulty
  · have hopen : (World.new.run behindTornRun).wal.isSome = true := by decide +kernel
    obtain ⟨o, ho⟩ := Option.isSome_iff_exists.1 hopen
    have hall := h.eventually o ho (by decide +kernel)
    have hacc : acceptedOf (World.new.run behindTornRun).replayAll.trace = [[1, 0]] := by decide +kernel
    rw [happ, hacc] at hall
    revert hall
    decide

/-- a replay comes first -/
def repairedTornRun : List Step :=
  [Action.start].map Action.quiet ++ [tornAppend] ++
    ([.start, .replayStart, .replayRead, .replayEnd].map Action.quiet ++ [.append (.single 9)].map Action.quiet)

theorem whole_nil : Whole [] := ⟨[], parses_nil (by decide)⟩


theorem survives_torn_append_repaired :
    deliveredOf (World.new.run repairedTornRun).replayAll.trace = [[9]] ∧ Survives (World.new.run repairedTornRun) := by
  refine ⟨by decide +kernel, survives_torn_append repairedTornRun ?_ ?_⟩
  · unfold repairedTornRun
    simp only [List.forall_mem_append]
    refine ⟨⟨faulty_of_actions (by decide), fun st hst => ?_⟩, faulty_of_actions (by decide),
      faulty_of_actions (by decide)⟩
    rw [List.mem_singleton.1 hst]
    exact tornAppend_faulty
  · have hother : ∀ {w : World} {as : List Action}, (∀ a ∈ as, ∀ d, a ≠ .append d) →
        Guarded World.step BehindWhole w (as.map Action.quiet) := fun {w as} has =>
      guarded_of_forall (p := fun st => ∀ d, st.action ≠ .append d) (fun _ _ h d hd => absurd hd (h d)) _ _
        (List.forall_mem_map.2 has)
    have hempty : ∀ {w : World} {st : Step}, w.files.walBytes = [] → Guarded World.step BehindWhole w [st] :=
      fun hnil => ⟨fun _ _ _ => hnil ▸ whole_nil, trivial⟩
    refine ((hother (by simp)).append (hempty ?_)).append ((hother (by simp)).append (hempty ?_))
    · decide +kernel
    · decide +kernel

end DominoLogForwarder.Wal
