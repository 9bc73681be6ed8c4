/-
A log which is read from its front: entries are appended at the end, a reader accepts them one after the other, a stored
position remembers how far it came, and the log is emptied when everything was accepted.

Positions count entries since the start, so they do not move when the log is emptied (`base` is how many are gone).
- `Valid`: nothing is gone and no position is passed which was not accepted. This survives a lost position and a reader
  which starts again from an older one: delivery at least once, in order.
- `Exact`: the stored position is lost by nobody, so every entry is accepted once.
-/
import Mathlib.Data.List.Basic
import Mathlib.Tactic

structure CursorLog (α : Type) where
  /-- everything which was appended -/
  appended : List α := []
  /-- what was accepted, oldest first -/
  accepted : List α := []
  /-- how many entries were removed -/
  base : ℕ := 0
  /-- the stored position -/
  mark : ℕ := 0
  /-- everything before this position was accepted -/
  front : ℕ := 0
  /-- the position behind the entry which was accepted last -/
  last : ℕ := 0
  /-- where a reader stands -/
  reader : Option ℕ := none

namespace CursorLog

variable {α : Type} (c : CursorLog α)

/-! ## The operations -/

/-- the entries which were not removed -/
def entries : List α := c.appended.drop c.base

def append (x : α) : CursorLog α := { c with appended := c.appended ++ [x] }

/-- a reader at position `i` -/
def read (i : ℕ) : CursorLog α := { c with reader := some i }

def stop : CursorLog α := { c with reader := none }

/-- the entry `x` at position `i` is accepted -/
def accept (i : ℕ) (x : α) : CursorLog α :=
  { c with accepted := c.accepted ++ [x], front := max c.front (i + 1), last := i + 1 }

/-- an entry is accepted again, and nobody knows which one -/
def again (x : α) : CursorLog α := { c with accepted := c.accepted ++ [x], last := 0 }

def store (i : ℕ) : CursorLog α := { c with mark := i }

/-- all entries are removed -/
def empty : CursorLog α := { c with base := c.appended.length, mark := c.appended.length, reader := none }

@[simp] theorem read_entries (i : ℕ) : (c.read i).entries = c.entries := rfl

@[simp] theorem stop_entries : c.stop.entries = c.entries := rfl

@[simp] theorem accept_entries (i : ℕ) (x : α) : (c.accept i x).entries = c.entries := rfl

@[simp] theorem again_entries (x : α) : (c.again x).entries = c.entries := rfl

@[simp] theorem store_entries (i : ℕ) : (c.store i).entries = c.entries := rfl

@[simp] theorem empty_entries : c.empty.entries = [] := by simp [entries, empty]

/-! ## At least once -/

structure Valid : Prop where
  base_mark : c.base ≤ c.mark
  mark_front : c.mark ≤ c.front
  front_le : c.front ≤ c.appended.length
  last_le : c.last ≤ c.front
  reader_le : ∀ i, c.reader = some i → c.base ≤ i ∧ i ≤ c.front
  kept : (c.appended.take c.front).Sublist c.accepted
  last_accepted : ∀ i, c.last = i + 1 → c.accepted.getLast? = c.appended[i]?

variable {c}

theorem valid_new : ({} : CursorLog α).Valid := by
  constructor <;> simp

/-- if all entries were removed, all of them were accepted -/
theorem Valid.front_of_base (h : c.Valid) (hall : c.base = c.appended.length) : c.front = c.appended.length :=
  le_antisymm h.front_le (hall ▸ h.base_mark.trans h.mark_front)

theorem Valid.append_entries (h : c.Valid) (x : α) : (c.append x).entries = c.entries ++ [x] := by
  have hle : c.base ≤ c.appended.length := le_trans (h.base_mark.trans h.mark_front) h.front_le
  simp [entries, append, List.drop_append_of_le_length hle]

theorem Valid.append (h : c.Valid) (x : α) : (c.append x).Valid where
  base_mark := h.base_mark
  mark_front := h.mark_front
  front_le := by
    have := h.front_le
    simp only [CursorLog.append, List.length_append]
    omega
  last_le := h.last_le
  reader_le := h.reader_le
  kept := by
    show ((c.appended ++ [x]).take c.front).Sublist c.accepted
    rw [List.take_append_of_le_length h.front_le]
    exact h.kept
  last_accepted := fun i hi => by
    have hi' : c.last = i + 1 := hi
    have hlt : i < c.appended.length := by
      have h1 := h.last_le
      have h2 := h.front_le
      omega
    show c.accepted.getLast? = (c.appended ++ [x])[i]?
    rw [List.getElem?_append_left hlt]
    exact h.last_accepted i hi'

theorem Valid.read (h : c.Valid) {i : ℕ} (hb : c.base ≤ i) (hf : i ≤ c.front) : (c.read i).Valid :=
  { h with reader_le := fun _ hj => Option.some.inj hj ▸ ⟨hb, hf⟩ }

theorem Valid.stop (h : c.Valid) : c.stop.Valid := { h with reader_le := fun _ hj => nomatch hj }

theorem Valid.store (h : c.Valid) {i : ℕ} (hb : c.base ≤ i) (hf : i ≤ c.front) : (c.store i).Valid :=
  { h with base_mark := hb, mark_front := hf }

/-- an entry at or before the front is accepted: the front moves by one, or an older entry is accepted again -/
theorem Valid.accept (h : c.Valid) {i : ℕ} {x : α} (hf : i ≤ c.front) (hx : c.appended[i]? = some x) :
    (c.accept i x).Valid := by
  have hlt : i < c.appended.length := (List.getElem?_eq_some_iff.1 hx).1
  have hfl := h.front_le
  constructor
  · exact h.base_mark
  · exact h.mark_front.trans (le_max_left _ _)
  · show max c.front (i + 1) ≤ c.appended.length
    omega
  · exact le_max_right _ _
  · exact fun j hj => ⟨(h.reader_le j hj).1, (h.reader_le j hj).2.trans (le_max_left _ _)⟩
  · show (c.appended.take (max c.front (i + 1))).Sublist (c.accepted ++ [x])
    rcases Nat.lt_or_ge i c.front with hlt' | hge
    · rw [max_eq_left (by omega)]
      exact h.kept.trans (List.sublist_append_left _ _)
    · have heq : i = c.front := by omega
      subst heq
      rw [max_eq_right (by omega), List.take_add_one, hx]
      exact h.kept.append (List.Sublist.refl _)
  · intro j hj
    have hij : i = j := Nat.succ.inj hj
    show (c.accepted ++ [x]).getLast? = c.appended[j]?
    rw [List.getLast?_append, ← hij, hx]
    rfl

theorem Valid.again (h : c.Valid) (x : α) : (c.again x).Valid :=
  { h with
    last_le := Nat.zero_le _
    kept := h.kept.trans (List.sublist_append_left _ _)
    last_accepted := fun _ hi => nomatch hi }

/-- everything was accepted: nothing is lost if the entries are removed -/
theorem Valid.empty (h : c.Valid) (hall : c.front = c.appended.length) : c.empty.Valid where
  base_mark := le_rfl
  mark_front := hall.ge
  front_le := h.front_le
  last_le := h.last_le
  reader_le := fun _ hj => nomatch hj
  kept := h.kept
  last_accepted := h.last_accepted

/-! ## Exactly once -/

variable (c) in
structure Exact : Prop where
  all : c.accepted = c.appended.take c.front
  idle : c.reader = none → c.mark = c.front
  reading : ∀ i, c.reader = some i → i = c.front

theorem exact_new : ({} : CursorLog α).Exact := by
  constructor <;> simp

theorem Exact.in_order (h : c.Exact) : c.accepted <+: c.appended := by
  rw [h.all]
  exact List.take_prefix _ _

theorem Exact.append (h : c.Exact) (hv : c.Valid) (x : α) : (c.append x).Exact where
  all := by
    show c.accepted = (c.appended ++ [x]).take c.front
    rw [List.take_append_of_le_length hv.front_le]
    exact h.all
  idle := h.idle
  reading := h.reading

/-- a reader which starts at the stored position -/
theorem Exact.read (h : c.Exact) (hidle : c.reader = none) : (c.read c.mark).Exact where
  all := h.all
  idle := fun hn => nomatch hn
  reading := fun _ hj => Option.some.inj hj ▸ h.idle hidle

theorem Exact.accept (h : c.Exact) {x : α} (hx : c.appended[c.front]? = some x) :
    (c.accept c.front x).accepted = (c.accept c.front x).appended.take (c.accept c.front x).front := by
  show c.accepted ++ [x] = c.appended.take (max c.front (c.front + 1))
  rw [max_eq_right (by omega), List.take_add_one, hx, h.all]
  rfl

theorem Exact.empty (h : c.Exact) (hall : c.front = c.appended.length) : c.empty.Exact where
  all := h.all
  idle := fun _ => hall.symm
  reading := fun _ hj => nomatch hj

end CursorLog
