/-
`log_fifo` with any number of threads.

A call of `push`, `try_push` or `shutdown` holds the mutex from its begin to its end, so it is one step. A call of
`pop_batch` looks at the queue when it starts, and again each time it wakes up, for whatever reason (`m_cond`). Between
two looks the others go on. `Queue.step` takes the threads in any order.
-/
import DominoLogForwarder.Otelfwd.Fifo

namespace DominoLogForwarder.Otelfwd

/-- the parameters of `pop_batch`. A batch has room for one record -/
structure Limits where
  maxRecords : ℕ
  maxBytes : ℕ
  pos : 0 < maxRecords

inductive FifoCall (Record : Type) where
  | push (record : Record)
  | tryPush (record : Record) (maxSize : ℕ)
  | popBatch (limits : Limits)
  | shutdown

inductive FifoAct (Thread Record : Type) where
  | call (thread : Thread) (call : FifoCall Record)
  /-- a thread which waits in `pop_batch` looks at the queue again -/
  | wake (thread : Thread)

/-- how a call ended, and how it left the queue -/
inductive FifoEvent (Record : Type) where
  | pushed (record : Record)
  | tryPushed (record : Record) (maxSize : ℕ) (accepted : Bool) (before after : LogFifo Record)
  | popped (limits : Limits) (batch : List Record) (after : LogFifo Record)
  | ended (fifo : LogFifo Record)
  | shutdown

structure Queue (Thread Record : Type) where
  fifo : LogFifo Record := {}
  /-- the threads which wait in `pop_batch` -/
  waits : Thread → Option Limits := fun _ => none
  events : List (FifoEvent Record) := []

namespace Queue

variable {Thread Record : Type} [DecidableEq Thread] (lineSize : Record → ℕ)

/-- a look at the queue in `pop_batch` -/
def look (q : Queue Thread Record) (thread : Thread) (limits : Limits) : Queue Thread Record :=
  match q.fifo.popBatch lineSize limits.maxRecords limits.maxBytes with
  | (.waiting, _) => { q with waits := Function.update q.waits thread (some limits) }
  | (.ended, fifo) =>
    { fifo := fifo, waits := Function.update q.waits thread none, events := q.events ++ [.ended fifo] }
  | (.batch batch, fifo) =>
    { fifo := fifo, waits := Function.update q.waits thread none, events := q.events ++ [.popped limits batch fifo] }

/-- a thread which waits makes no other call -/
def step (q : Queue Thread Record) : FifoAct Thread Record → Queue Thread Record
  | .call thread call =>
    if (q.waits thread).isSome then q
    else
      match call with
      | .push record => { q with fifo := q.fifo.push record, events := q.events ++ [.pushed record] }
      | .tryPush record maxSize =>
        match q.fifo.tryPush record maxSize with
        | (accepted, fifo) =>
          { q with fifo := fifo, events := q.events ++ [.tryPushed record maxSize accepted q.fifo fifo] }
      | .popBatch limits => q.look lineSize thread limits
      | .shutdown => { q with fifo := { q.fifo with shutdown := true }, events := q.events ++ [.shutdown] }
  | .wake thread =>
    match q.waits thread with
    | some limits => q.look lineSize thread limits
    | none => q

def run (q : Queue Thread Record) (acts : List (FifoAct Thread Record)) : Queue Thread Record :=
  acts.foldl (step lineSize) q

end Queue

/-! ## What is promised -/

section Promises

variable {Record : Type}

/-- the record which a call put into the queue -/
def FifoEvent.pushedRecords : FifoEvent Record → List Record
  | .pushed record => [record]
  | .tryPushed record _ accepted _ _ => if accepted = true then [record] else []
  | _ => []

/-- the records which a call took out of the queue -/
def FifoEvent.poppedRecords : FifoEvent Record → List Record
  | .popped _ batch _ => batch
  | _ => []

def pushedRecords (events : List (FifoEvent Record)) : List Record := events.flatMap FifoEvent.pushedRecords

def poppedRecords (events : List (FifoEvent Record)) : List Record := events.flatMap FifoEvent.poppedRecords

/-- the bytes of the lines -/
def lineBytes (lineSize : Record → ℕ) (records : List Record) : ℕ := (records.map lineSize).sum

/-- a batch within its limits. Another record breaks one of them -/
structure GoodBatch (lineSize : Record → ℕ) (limits : Limits) (batch queue : List Record) : Prop where
  ne_nil : batch ≠ []
  records : batch.length ≤ limits.maxRecords
  bytes : lineBytes lineSize batch ≤ limits.maxBytes ∨ batch.length = 1
  maximal : ∀ next ∈ queue.head?,
    batch.length = limits.maxRecords ∨ limits.maxBytes < lineBytes lineSize (batch ++ [next])

/-- what is promised of a call -/
def FifoEvent.Ok (lineSize : Record → ℕ) : FifoEvent Record → Prop
  | .tryPushed record maxSize accepted before after =>
    if accepted = true then after.queue.length ≤ maxSize ∧ after.queue = before.queue ++ [record] else after = before
  | .popped limits batch after => GoodBatch lineSize limits batch after.queue
  | .ended fifo => fifo.shutdown = true ∧ fifo.queue = []
  | _ => True

/-- the queue was shut down -/
def FifoEvent.isShutdown : FifoEvent Record → Bool
  | .shutdown => true
  | _ => false

end Promises

namespace LogFifo

variable {Record : Type} {fifo fifo' : LogFifo Record} {lineSize : Record → ℕ} {maxRecords maxBytes : ℕ}

theorem lineBytes_append (records records' : List Record) :
    lineBytes lineSize (records ++ records') = lineBytes lineSize records + lineBytes lineSize records' := by
  simp [lineBytes]

/-- what the loop of `pop_batch` keeps of the batch so far -/
structure Taking (lineSize : Record → ℕ) (maxRecords maxBytes : ℕ) (out : List Record) : Prop where
  records : out.length ≤ maxRecords
  bytes : out = [] ∨ lineBytes lineSize out ≤ maxBytes ∨ out.length = 1

theorem taking_concat {out : List Record} {record : Record} (hroom : out.length < maxRecords)
    (hfits : ¬ (out ≠ [] ∧ maxBytes < lineBytes lineSize out + lineSize record)) :
    Taking lineSize maxRecords maxBytes (out ++ [record]) := by
  constructor
  · rw [List.length_append, List.length_singleton]
    exact hroom
  · refine Or.inr ?_
    by_cases hout : out = []
    · rw [hout]
      exact Or.inr rfl
    · rw [lineBytes_append]
      exact Or.inl (not_lt.1 fun hlt => hfits ⟨hout, by simpa [lineBytes] using hlt⟩)

/-- the loop ends with a batch of these limits which has no room for the next record -/
theorem takeBatch_good (out : List Record) (queue : List Record) (h : Taking lineSize maxRecords maxBytes out)
    {out' queue' : List Record}
    (heq : takeBatch lineSize maxRecords maxBytes out (lineBytes lineSize out) queue = (out', queue')) :
    Taking lineSize maxRecords maxBytes out' ∧ out <+: out' ∧ (0 < maxRecords → queue ≠ [] → out' ≠ []) ∧
      ∀ next ∈ queue'.head?, out'.length = maxRecords ∨ maxBytes < lineBytes lineSize (out' ++ [next]) := by
  induction queue generalizing out with
  | nil =>
    obtain ⟨rfl, rfl⟩ := Prod.mk.inj heq
    exact ⟨h, List.prefix_refl _, fun _ hne => absurd rfl hne, by simp⟩
  | cons record queue ih =>
    unfold takeBatch at heq
    by_cases hroom : out.length < maxRecords
    · rw [if_pos hroom] at heq
      by_cases hfull : out ≠ [] ∧ maxBytes < lineBytes lineSize out + lineSize record
      · rw [if_pos hfull] at heq
        obtain ⟨rfl, rfl⟩ := Prod.mk.inj heq
        refine ⟨h, List.prefix_refl _, fun _ _ => hfull.1, ?_⟩
        rintro next ⟨⟩
        refine Or.inr ?_
        rw [lineBytes_append]
        simpa [lineBytes] using hfull.2
      · rw [if_neg hfull] at heq
        have hbytes : lineBytes lineSize out + lineSize record = lineBytes lineSize (out ++ [record]) := by
          simp [lineBytes]
        rw [hbytes] at heq
        obtain ⟨htaking, hprefix, -, hmax⟩ := ih (out ++ [record]) (taking_concat hroom hfull) heq
        refine ⟨htaking, (List.prefix_append out [record]).trans hprefix, fun _ _ => ?_, hmax⟩
        exact fun hnil => by simp [hnil] at hprefix
    · rw [if_neg hroom] at heq
      obtain ⟨rfl, rfl⟩ := Prod.mk.inj heq
      have hlen : out.length = maxRecords := le_antisymm h.records (not_lt.1 hroom)
      exact ⟨h, List.prefix_refl _, fun hpos _ hnil => by simp [hnil] at hlen; omega, fun _ _ => Or.inl hlen⟩

/-- **A batch is good**, whatever the sizes of the records are. -/
theorem popBatch_good {limits : Limits} {batch : List Record}
    (h : fifo.popBatch lineSize limits.maxRecords limits.maxBytes = (.batch batch, fifo')) :
    GoodBatch lineSize limits batch fifo'.queue ∧ fifo'.shutdown = fifo.shutdown := by
  unfold popBatch at h
  by_cases hempty : fifo.queue = []
  · rw [if_pos hempty] at h
    split_ifs at h <;> simp at h
  · rw [if_neg hempty] at h
    cases htake : takeBatch lineSize limits.maxRecords limits.maxBytes [] 0 fifo.queue with
    | mk out queue =>
      rw [htake] at h
      simp only [Prod.mk.injEq, Popped.batch.injEq] at h
      obtain ⟨rfl, rfl⟩ := h
      have hstart : Taking lineSize limits.maxRecords limits.maxBytes ([] : List Record) := ⟨Nat.zero_le _, Or.inl rfl⟩
      obtain ⟨htaking, -, hne, hmax⟩ := takeBatch_good [] fifo.queue hstart htake
      have hout : out ≠ [] := hne limits.pos hempty
      exact ⟨⟨hout, htaking.records, htaking.bytes.resolve_left hout, hmax⟩, rfl⟩

theorem popBatch_ended (h : fifo.popBatch lineSize maxRecords maxBytes = (.ended, fifo')) :
    fifo'.shutdown = true ∧ fifo'.queue = [] := by
  have hsame := popBatch_same (by simp) h
  subst hsame
  unfold popBatch at h
  by_cases hempty : fifo'.queue = []
  · rw [if_pos hempty] at h
    by_cases hshutdown : fifo'.shutdown = true
    · exact ⟨hshutdown, hempty⟩
    · rw [if_neg hshutdown] at h
      cases (Prod.mk.inj h).1
  · rw [if_neg hempty] at h
    cases (Prod.mk.inj h).1

theorem tryPush_ok (record : Record) (maxSize : ℕ) :
    (FifoEvent.tryPushed record maxSize (fifo.tryPush record maxSize).1 fifo
      (fifo.tryPush record maxSize).2).Ok lineSize ∧
      (fifo.tryPush record maxSize).2.queue =
        fifo.queue ++ if (fifo.tryPush record maxSize).1 = true then [record] else [] := by
  unfold tryPush
  by_cases hfull : maxSize ≤ fifo.queue.length
  · rw [if_pos hfull]
    exact ⟨rfl, (List.append_nil _).symm⟩
  · rw [if_neg hfull]
    refine ⟨⟨?_, rfl⟩, rfl⟩
    simp only [push, List.length_append, List.length_singleton]
    exact not_le.1 hfull

end LogFifo

/-! ## Any order of the steps -/

namespace Queue

variable {Thread Record : Type} [DecidableEq Thread] {lineSize : Record → ℕ} {q : Queue Thread Record}

/-- nothing is lost, nothing comes twice, and every call so far kept its promise -/
structure Inv (lineSize : Record → ℕ) (q : Queue Thread Record) : Prop where
  records : poppedRecords q.events ++ q.fifo.queue = pushedRecords q.events
  ok : ∀ e ∈ q.events, e.Ok lineSize
  shutdown : q.fifo.shutdown = true → ∃ e ∈ q.events, e.isShutdown = true
  /-- `pop_batch` returned false behind a shutdown -/
  ended : ∀ before fifo after, q.events = before ++ .ended fifo :: after → ∃ e ∈ before, e.isShutdown = true

omit [DecidableEq Thread] in
/-- a call which ended -/
theorem Inv.event (h : Inv lineSize q) {fifo : LogFifo Record} {waits : Thread → Option Limits} {e : FifoEvent Record}
    (hrecords : e.poppedRecords ++ fifo.queue = q.fifo.queue ++ e.pushedRecords) (hok : e.Ok lineSize)
    (hshutdown : fifo.shutdown = true → q.fifo.shutdown = true ∨ e.isShutdown = true)
    (hended : ∀ fifo, e = .ended fifo → q.fifo.shutdown = true) :
    Inv lineSize { fifo := fifo, waits := waits, events := q.events ++ [e] } := by
  refine ⟨?_, fun e' he' => ?_, fun hdown => ?_, fun before fifo' after heq => ?_⟩
  · have hpopped : poppedRecords (q.events ++ [e]) = poppedRecords q.events ++ e.poppedRecords := by
      simp [poppedRecords]
    have hpushed : pushedRecords (q.events ++ [e]) = pushedRecords q.events ++ e.pushedRecords := by
      simp [pushedRecords]
    rw [hpopped, hpushed, List.append_assoc, hrecords, ← List.append_assoc, h.records]
  · rcases List.mem_append.1 he' with he' | he'
    · exact h.ok e' he'
    · rw [List.mem_singleton.1 he']
      exact hok
  · rcases hshutdown hdown with hdown | he
    · obtain ⟨e', he', hdown'⟩ := h.shutdown hdown
      exact ⟨e', List.mem_append_left _ he', hdown'⟩
    · exact ⟨e, by simp, he⟩
  · rcases List.eq_nil_or_concat' after with rfl | ⟨after, last, rfl⟩
    · obtain ⟨rfl, he⟩ := List.append_inj' heq rfl
      exact h.shutdown (hended fifo' (List.singleton_inj.1 he))
    · have hsplit : q.events ++ [e] = (before ++ .ended fifo' :: after) ++ [last] := by
        rw [List.append_assoc, List.cons_append]
        exact heq
      exact h.ended before fifo' after (List.append_inj' hsplit rfl).1

theorem Inv.look (h : Inv lineSize q) (thread : Thread) (limits : Limits) :
    Inv lineSize (q.look lineSize thread limits) := by
  unfold Queue.look
  cases hpop : q.fifo.popBatch lineSize limits.maxRecords limits.maxBytes with
  | mk popped fifo =>
    cases popped with
    | waiting => exact ⟨h.records, h.ok, h.shutdown, h.ended⟩
    | ended =>
      have hsame : fifo = q.fifo := LogFifo.popBatch_same (by simp) hpop
      have hended := LogFifo.popBatch_ended hpop
      refine h.event ?_ hended (fun hdown => Or.inl (hsame ▸ hdown)) fun _ _ => hsame ▸ hended.1
      rw [hsame]
      exact (List.append_nil _).symm
    | batch batch =>
      obtain ⟨hgood, hshutdown⟩ := LogFifo.popBatch_good hpop
      refine h.event ?_ hgood (fun hdown => Or.inl (hshutdown ▸ hdown)) fun _ hended => nomatch hended
      exact (LogFifo.popBatch_append hpop).trans (List.append_nil _).symm

theorem Inv.step (h : Inv lineSize q) (act : FifoAct Thread Record) : Inv lineSize (q.step lineSize act) := by
  cases act with
  | wake thread =>
    unfold Queue.step
    dsimp only
    cases q.waits thread with
    | none => exact h
    | some limits => exact h.look thread limits
  | call thread call =>
    unfold Queue.step
    dsimp only
    by_cases hwaits : (q.waits thread).isSome = true
    · rw [if_pos hwaits]
      exact h
    · rw [if_neg hwaits]
      cases call with
      | push record => exact h.event rfl trivial Or.inl fun _ hended => nomatch hended
      | tryPush record maxSize =>
        have hpushed : (FifoEvent.tryPushed record maxSize (q.fifo.tryPush record maxSize).1 q.fifo
            (q.fifo.tryPush record maxSize).2).Ok lineSize ∧ (q.fifo.tryPush record maxSize).2.queue =
            q.fifo.queue ++ if (q.fifo.tryPush record maxSize).1 = true then [record] else [] :=
          LogFifo.tryPush_ok record maxSize
        obtain ⟨hok, hqueue⟩ := hpushed
        refine h.event hqueue hok (fun hdown => Or.inl ?_) fun _ hended => nomatch hended
        unfold LogFifo.tryPush at hdown
        split_ifs at hdown <;> exact hdown
      | popBatch limits => exact h.look thread limits
      | shutdown =>
        exact h.event (List.append_nil _).symm trivial (fun _ => Or.inr rfl) fun _ hended => nomatch hended

theorem run_inv (lineSize : Record → ℕ) (acts : List (FifoAct Thread Record)) :
    Inv lineSize (({} : Queue Thread Record).run lineSize acts) := by
  have hstart : Inv lineSize ({} : Queue Thread Record) :=
    ⟨rfl, by simp, fun h => Bool.noConfusion h, fun before fifo after heq => by simp at heq⟩
  generalize ({} : Queue Thread Record) = q at hstart
  induction acts generalizing q with
  | nil => exact hstart
  | cons act acts ih => exact ih _ (hstart.step act)

/-- **A bounded queue without loss.** In every interleaving of the threads: what was taken out, and then what is in the
queue, is what was put in, in this order. Every batch is good, `pop_batch` returns false only behind a shutdown with an
empty queue, and `try_push` keeps its limit or changes nothing. -/
theorem fifo_lossless (lineSize : Record → ℕ) (acts : List (FifoAct Thread Record)) :
    let q := ({} : Queue Thread Record).run lineSize acts
    poppedRecords q.events ++ q.fifo.queue = pushedRecords q.events ∧
      (∀ limits batch after, .popped limits batch after ∈ q.events → GoodBatch lineSize limits batch after.queue) ∧
      (∀ before fifo after, q.events = before ++ .ended fifo :: after →
        fifo.queue = [] ∧ fifo.shutdown = true ∧ ∃ e ∈ before, e.isShutdown = true) ∧
      ∀ record maxSize accepted before after, .tryPushed record maxSize accepted before after ∈ q.events →
        if accepted = true then after.queue.length ≤ maxSize ∧ after.queue = before.queue ++ [record]
        else after = before := by
  intro q
  have h : Inv lineSize q := run_inv lineSize acts
  refine ⟨h.records, fun limits batch after hmem => h.ok _ hmem, fun before fifo after heq => ?_,
    fun record maxSize accepted before after hmem => h.ok _ hmem⟩
  have hmem : .ended fifo ∈ q.events := by
    rw [heq]
    exact List.mem_append_right _ List.mem_cons_self
  have hended : fifo.shutdown = true ∧ fifo.queue = [] := h.ok _ hmem
  exact ⟨hended.2, hended.1, h.ended before fifo after heq⟩

end Queue

/-- a record which is larger than the limit is a batch of its own -/
example : (({} : Queue Bool ℕ).run id [.call true (.popBatch ⟨9, 5, by decide⟩), .call false (.push 7),
    .call false (.push 2), .wake true]).fifo.queue = [2] := by decide

end DominoLogForwarder.Otelfwd
