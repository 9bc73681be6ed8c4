/-
Values under keys. The keys stand in the order of their first use, each of them once, and each has a value.

`set` gives a key one value, and `add` gives it one more. A key which is new comes at the end. What they do is said by
`find`: `find_set`, `find_add`.
-/
import Mathlib.Data.List.Nodup

namespace DominoLogForwarder

structure Keyed (κ α : Type) where
  entries : List (κ × List α)
  nodup : (entries.map Prod.fst).Nodup
  ne_nil : ∀ e ∈ entries, e.2 ≠ []

namespace Keyed

variable {κ α : Type} [DecidableEq κ]

def empty : Keyed κ α := ⟨[], List.nodup_nil, fun _ h => absurd h List.not_mem_nil⟩

/-- the values under the first entry with the key -/
def findIn (key : κ) : List (κ × List α) → Option (List α)
  | [] => none
  | entry :: rest => if entry.1 = key then some entry.2 else findIn key rest

/-- change the values under a key. A key which is new begins with `value` -/
def update (change : List α → List α) (key : κ) (value : α) : List (κ × List α) → List (κ × List α)
  | [] => [(key, [value])]
  | entry :: rest => if entry.1 = key then (entry.1, change entry.2) :: rest else entry :: update change key value rest

theorem keys_update (change : List α → List α) (key : κ) (value : α) (entries : List (κ × List α)) :
    (update change key value entries).map Prod.fst =
      if key ∈ entries.map Prod.fst then entries.map Prod.fst else entries.map Prod.fst ++ [key] := by
  induction entries with
  | nil => rfl
  | cons entry rest ih =>
    unfold update
    by_cases hkey : entry.1 = key
    · rw [if_pos hkey, if_pos (by simp [hkey])]
      rfl
    · rw [if_neg hkey, List.map_cons, ih]
      have hmem : key ∈ (entry :: rest).map Prod.fst ↔ key ∈ rest.map Prod.fst := by
        simp [Ne.symm hkey]
      split_ifs with h h' h'
      · rfl
      · exact absurd (hmem.2 h) h'
      · exact absurd (hmem.1 h') h
      · rfl

theorem nodup_update (change : List α → List α) (key : κ) (value : α) {entries : List (κ × List α)}
    (h : (entries.map Prod.fst).Nodup) : ((update change key value entries).map Prod.fst).Nodup := by
  rw [keys_update]
  split_ifs with hmem
  · exact h
  · rw [← List.concat_eq_append]
    exact h.concat hmem

theorem ne_nil_update {change : List α → List α} (hchange : ∀ vs, change vs ≠ []) (key : κ) (value : α)
    {entries : List (κ × List α)} (h : ∀ e ∈ entries, e.2 ≠ []) : ∀ e ∈ update change key value entries, e.2 ≠ [] := by
  induction entries with
  | nil => simp [update]
  | cons entry rest ih =>
    rw [List.forall_mem_cons] at h
    unfold update
    split_ifs
    · exact List.forall_mem_cons.2 ⟨hchange _, h.2⟩
    · exact List.forall_mem_cons.2 ⟨h.1, ih h.2⟩

theorem findIn_update (change : List α → List α) (key : κ) (value : α) (entries : List (κ × List α)) (k : κ) :
    findIn k (update change key value entries) =
      if k = key then some (((findIn key entries).map change).getD [value]) else findIn k entries := by
  induction entries with
  | nil => simp [update, findIn, eq_comm]
  | cons entry rest ih =>
    unfold update
    by_cases hkey : entry.1 = key
    · rw [if_pos hkey]
      by_cases hk : k = key
      · simp [findIn, hkey, hk]
      · have hne : ¬entry.1 = k := fun h => hk (h.symm.trans hkey)
        simp [findIn, hne, hk]
    · rw [if_neg hkey]
      by_cases hk : k = key
      · subst hk
        simp only [findIn, if_neg hkey, ih]
      · by_cases hentry : entry.1 = k
        · simp [findIn, hentry, hk]
        · simp [findIn, hentry, ih, hk]

def find (list : Keyed κ α) (key : κ) : Option (List α) := findIn key list.entries

def set (list : Keyed κ α) (key : κ) (value : α) : Keyed κ α :=
  ⟨update (fun _ => [value]) key value list.entries, nodup_update _ key value list.nodup,
    ne_nil_update (fun _ => List.cons_ne_nil _ _) key value list.ne_nil⟩

def add (list : Keyed κ α) (key : κ) (value : α) : Keyed κ α :=
  ⟨update (· ++ [value]) key value list.entries, nodup_update _ key value list.nodup,
    ne_nil_update (fun vs => List.append_ne_nil_of_right_ne_nil vs (List.cons_ne_nil _ _)) key value list.ne_nil⟩

variable (list : Keyed κ α) (key k : κ) (value : α)

@[simp] theorem find_empty : find (empty : Keyed κ α) key = none := rfl

@[simp] theorem find_set : (list.set key value).find k = if k = key then some [value] else list.find k := by
  unfold set find
  rw [findIn_update]
  cases findIn key list.entries <;> rfl

@[simp] theorem find_add :
    (list.add key value).find k = if k = key then some ((list.find key).getD [] ++ [value]) else list.find k := by
  unfold add find
  rw [findIn_update]
  cases findIn key list.entries <;> rfl

theorem findIn_of_mem {entries : List (κ × List α)} (hnodup : (entries.map Prod.fst).Nodup) {key : κ}
    {values : List α} (h : (key, values) ∈ entries) : findIn key entries = some values := by
  induction entries with
  | nil => exact absurd h List.not_mem_nil
  | cons entry rest ih =>
    rw [List.map_cons, List.nodup_cons] at hnodup
    unfold findIn
    rcases List.mem_cons.1 h with rfl | h
    · exact if_pos rfl
    · have hne : ¬entry.1 = key := by
        rintro rfl
        exact hnodup.1 (List.mem_map.2 ⟨_, h, rfl⟩)
      rw [if_neg hne]
      exact ih hnodup.2 h

theorem mem_of_findIn {entries : List (κ × List α)} {key : κ} {values : List α}
    (h : findIn key entries = some values) : (key, values) ∈ entries := by
  induction entries with
  | nil => exact absurd h (by simp [findIn])
  | cons entry rest ih =>
    unfold findIn at h
    split_ifs at h with hkey
    · obtain rfl := Option.some.inj h
      subst hkey
      exact List.mem_cons_self
    · exact List.mem_cons_of_mem _ (ih h)

variable {list key}

/-- an entry is found under its key -/
theorem find_of_mem {values : List α} (h : (key, values) ∈ list.entries) : list.find key = some values :=
  findIn_of_mem list.nodup h

theorem mem_of_find {values : List α} (h : list.find key = some values) : (key, values) ∈ list.entries :=
  mem_of_findIn h

end Keyed

end DominoLogForwarder
