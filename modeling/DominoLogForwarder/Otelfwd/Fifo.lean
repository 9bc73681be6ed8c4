/-
`log_fifo` (`otelfwd.cpp`): the queue between the inputs and the push thread. A call holds the mutex, so it is one step.

`pop_batch` waits until there is a record, or the queue is shut down: as long as it waits, `popBatch` answers `waiting`.
-/
import Mathlib.Data.List.Basic
import Mathlib.Tactic

namespace DominoLogForwarder.Otelfwd

structure LogFifo (Record : Type) where
  queue : List Record := []
  shutdown : Bool := false
deriving DecidableEq

/-- how far a call of `pop_batch` came -/
inductive Popped (Record : Type) where
  | waiting
  /-- it returns false -/
  | ended
  | batch (records : List Record)
deriving DecidableEq

namespace LogFifo

variable {Record : Type} (fifo : LogFifo Record)

def push (record : Record) : LogFifo Record := { fifo with queue := fifo.queue ++ [record] }

/-- a queue which is full drops the record -/
def tryPush (record : Record) (maxSize : ℕ) : Bool × LogFifo Record :=
  if maxSize ≤ fifo.queue.length then (false, fifo) else (true, fifo.push record)

def size : ℕ := fifo.queue.length

/-- the loop of `pop_batch`. `bytes` are those of the records of `out` -/
def takeBatch (lineSize : Record → ℕ) (maxRecords maxBytes : ℕ) :
    (out : List Record) → (bytes : ℕ) → (queue : List Record) → List Record × List Record
  | out, _, [] => (out, [])
  | out, bytes, record :: queue =>
    if out.length < maxRecords then
      -- at least one record is taken, even if it is larger than the limit
      if out ≠ [] ∧ maxBytes < bytes + lineSize record then (out, record :: queue)
      else takeBatch lineSize maxRecords maxBytes (out ++ [record]) (bytes + lineSize record) queue
    else (out, record :: queue)

def popBatch (lineSize : Record → ℕ) (maxRecords maxBytes : ℕ) : Popped Record × LogFifo Record :=
  if fifo.queue = [] then (if fifo.shutdown then .ended else .waiting, fifo)
  else
    match takeBatch lineSize maxRecords maxBytes [] 0 fifo.queue with
    | (out, queue) => (.batch out, { fifo with queue := queue })

variable {fifo} {lineSize : Record → ℕ} {maxRecords maxBytes : ℕ}

variable (lineSize maxRecords maxBytes) in
theorem takeBatch_append (out : List Record) (bytes : ℕ) (queue : List Record) :
    (takeBatch lineSize maxRecords maxBytes out bytes queue).1 ++
      (takeBatch lineSize maxRecords maxBytes out bytes queue).2 =
      out ++ queue := by
  induction queue generalizing out bytes with
  | nil => rfl
  | cons record queue ih =>
    unfold takeBatch
    split_ifs
    · rfl
    · rw [ih, List.append_assoc]
      rfl
    · rfl

/-- a batch is the front of the queue -/
theorem popBatch_append {batch : List Record} {fifo' : LogFifo Record}
    (h : fifo.popBatch lineSize maxRecords maxBytes = (.batch batch, fifo')) : batch ++ fifo'.queue = fifo.queue := by
  unfold popBatch at h
  split_ifs at h
  · simp at h
  · simp at h
  · have happ := takeBatch_append lineSize maxRecords maxBytes [] 0 fifo.queue
    simp only [Prod.mk.injEq, Popped.batch.injEq] at h
    obtain ⟨rfl, rfl⟩ := h
    exact happ

/-- without a batch the queue stays as it is -/
theorem popBatch_same {popped : Popped Record} {fifo' : LogFifo Record} (hno : ∀ batch, popped ≠ .batch batch)
    (h : fifo.popBatch lineSize maxRecords maxBytes = (popped, fifo')) : fifo' = fifo := by
  unfold popBatch at h
  by_cases hempty : fifo.queue = []
  · rw [if_pos hempty] at h
    exact (Prod.mk.inj h).2.symm
  · rw [if_neg hempty] at h
    exact absurd (Prod.mk.inj h).1.symm (hno _)

end LogFifo

end DominoLogForwarder.Otelfwd
