/-
Sequences of elements which a separator cuts into lines. A line is what stands between two separators, and what comes
behind the last separator is the rest, a line which has no end yet.

`cut` reads the lines and the rest from the left, `joinLines` writes lines, each with its separator. They undo each
other (`cut_joinLines`, `joinLines_cut`), and cutting does not depend on how a sequence arrived (`lines_append`).
-/
import Mathlib.Data.List.Basic
import Mathlib.Tactic

namespace Lines

variable {α : Type} [DecidableEq α]

/-! ## Cutting and joining -/

/-- the lines with a separator at the end, and the rest -/
def cut (sep : α) : List α → List (List α) × List α
  | [] => ([], [])
  | x :: xs =>
    if x = sep then ([] :: (cut sep xs).1, (cut sep xs).2)
    else
      match cut sep xs with
      | (l :: ls, r) => ((x :: l) :: ls, r)
      | ([], r) => ([], x :: r)

def lines (sep : α) (xs : List α) : List (List α) := (cut sep xs).1

def rest (sep : α) (xs : List α) : List α := (cut sep xs).2

omit [DecidableEq α] in
/-- every line with its separator -/
def joinLines (sep : α) (ls : List (List α)) : List α := ls.flatMap (· ++ [sep])

section Join

omit [DecidableEq α]

variable (sep : α)

@[simp] theorem joinLines_nil : joinLines sep [] = [] := rfl

@[simp] theorem joinLines_cons (l : List α) (ls : List (List α)) :
    joinLines sep (l :: ls) = l ++ sep :: joinLines sep ls := by
  simp [joinLines]

@[simp] theorem joinLines_append (ls ls' : List (List α)) :
    joinLines sep (ls ++ ls') = joinLines sep ls ++ joinLines sep ls' := by
  simp [joinLines]

end Join

variable {sep : α}

theorem cut_line {l : List α} (h : sep ∉ l) (xs : List α) :
    cut sep (l ++ sep :: xs) = (l :: lines sep xs, rest sep xs) := by
  induction l with
  | nil => rw [List.nil_append, cut, if_pos rfl]; rfl
  | cons x l ih =>
    have hx : x ≠ sep := fun h0 => h (h0 ▸ List.mem_cons_self)
    rw [List.cons_append, cut, if_neg hx, ih fun hm => h (List.mem_cons_of_mem _ hm)]

theorem cut_of_not_mem {p : List α} (h : sep ∉ p) : cut sep p = ([], p) := by
  induction p with
  | nil => rfl
  | cons x p ih =>
    have hx : x ≠ sep := fun h0 => h (h0 ▸ List.mem_cons_self)
    rw [cut, if_neg hx, ih fun hm => h (List.mem_cons_of_mem _ hm)]

/-- **Cutting undoes joining.** -/
theorem cut_joinLines {ls : List (List α)} {p : List α} (hls : ∀ l ∈ ls, sep ∉ l) (hp : sep ∉ p) :
    cut sep (joinLines sep ls ++ p) = (ls, p) := by
  induction ls with
  | nil => exact cut_of_not_mem hp
  | cons l ls ih =>
    have htail := ih fun l' hl' => hls l' (List.mem_cons_of_mem _ hl')
    rw [joinLines_cons, List.append_assoc, List.cons_append, cut_line (hls l List.mem_cons_self), lines, rest, htail]

theorem lines_joinLines {ls : List (List α)} {p : List α} (hls : ∀ l ∈ ls, sep ∉ l) (hp : sep ∉ p) :
    lines sep (joinLines sep ls ++ p) = ls := by
  rw [lines, cut_joinLines hls hp]

theorem rest_joinLines {ls : List (List α)} {p : List α} (hls : ∀ l ∈ ls, sep ∉ l) (hp : sep ∉ p) :
    rest sep (joinLines sep ls ++ p) = p := by
  rw [rest, cut_joinLines hls hp]

@[simp] theorem lines_nil : lines sep ([] : List α) = [] := rfl

@[simp] theorem rest_nil : rest sep ([] : List α) = [] := rfl

variable (sep) in
/-- **Joining undoes cutting**, and no line holds a separator. -/
theorem joinLines_cut (xs : List α) :
    joinLines sep (lines sep xs) ++ rest sep xs = xs ∧ (∀ l ∈ lines sep xs, sep ∉ l) ∧ sep ∉ rest sep xs := by
  induction xs with
  | nil => exact ⟨rfl, by simp, by simp⟩
  | cons x xs ih =>
    obtain ⟨hjoin, hls, hr⟩ := ih
    unfold lines rest at *
    rw [cut]
    by_cases hx : x = sep
    · rw [if_pos hx]
      refine ⟨?_, ?_, hr⟩
      · rw [joinLines_cons, List.nil_append, List.cons_append, hjoin, hx]
      · exact List.forall_mem_cons.2 ⟨List.not_mem_nil, hls⟩
    · rw [if_neg hx]
      cases hc : cut sep xs with
      | mk ls r =>
        rw [hc] at hjoin hls hr
        cases ls with
        | nil =>
          refine ⟨?_, ?_, ?_⟩
          · have hjoin' : r = xs := hjoin
            rw [← hjoin']
            rfl
          · intro l hl
            exact absurd hl List.not_mem_nil
          · exact List.not_mem_cons_of_ne_of_not_mem (Ne.symm hx) hr
        | cons l ls =>
          refine ⟨?_, ?_, hr⟩
          · rw [joinLines_cons, List.cons_append, List.cons_append, ← joinLines_cons, hjoin]
          · obtain ⟨hl, htail⟩ := List.forall_mem_cons.1 hls
            exact List.forall_mem_cons.2 ⟨List.not_mem_cons_of_ne_of_not_mem (Ne.symm hx) hl, htail⟩

variable (sep) in
theorem joinLines_lines (xs : List α) : joinLines sep (lines sep xs) ++ rest sep xs = xs := (joinLines_cut sep xs).1

variable (sep) in
theorem not_mem_rest (xs : List α) : sep ∉ rest sep xs := (joinLines_cut sep xs).2.2

/-- what arrives later is cut together with the rest -/
theorem cut_append (xs ys : List α) :
    cut sep (xs ++ ys) = (lines sep xs ++ lines sep (rest sep xs ++ ys), rest sep (rest sep xs ++ ys)) := by
  obtain ⟨hjoin, hls, -⟩ := joinLines_cut sep xs
  obtain ⟨hjoin', hls', hr'⟩ := joinLines_cut sep (rest sep xs ++ ys)
  have hall : xs ++ ys =
      joinLines sep (lines sep xs ++ lines sep (rest sep xs ++ ys)) ++ rest sep (rest sep xs ++ ys) := by
    rw [joinLines_append, List.append_assoc, hjoin', ← List.append_assoc, hjoin]
  rw [hall]
  refine cut_joinLines (fun l hl => ?_) hr'
  rcases List.mem_append.1 hl with hl | hl
  · exact hls l hl
  · exact hls' l hl

theorem lines_append (xs ys : List α) : lines sep (xs ++ ys) = lines sep xs ++ lines sep (rest sep xs ++ ys) := by
  rw [lines, cut_append]

theorem rest_append (xs ys : List α) : rest sep (xs ++ ys) = rest sep (rest sep xs ++ ys) := by
  rw [rest, cut_append]

/-- there are as many lines as separators -/
theorem count_joinLines {ls : List (List α)} (hls : ∀ l ∈ ls, sep ∉ l) : (joinLines sep ls).count sep = ls.length := by
  induction ls with
  | nil => rfl
  | cons l ls ih =>
    have hl := List.count_eq_zero_of_not_mem (hls l List.mem_cons_self)
    rw [joinLines_cons, List.count_append, List.count_cons_self, hl,
      ih fun l' hl' => hls l' (List.mem_cons_of_mem _ hl'),
      List.length_cons, Nat.zero_add]

/-! ## The end of the first line -/

/-- where the first separator is -/
def find (sep : α) (xs : List α) : Option ℕ := xs.findIdx? (· = sep)

theorem find_line {l : List α} (h : sep ∉ l) (xs : List α) : find sep (l ++ sep :: xs) = some l.length := by
  induction l with
  | nil => simp [find, List.findIdx?_cons]
  | cons x l ih =>
    have hx : x ≠ sep := fun h0 => h (h0 ▸ List.mem_cons_self)
    have htail := ih fun hm => h (List.mem_cons_of_mem _ hm)
    unfold find at *
    rw [List.cons_append, List.findIdx?_cons, htail]
    simp [hx]

theorem find_eq_none {xs : List α} : find sep xs = none ↔ sep ∉ xs := by
  rw [find, List.findIdx?_eq_none_iff]
  constructor
  · intro h hm
    simpa using h sep hm
  · intro h x hx
    have hne : x ≠ sep := fun h0 => h (h0 ▸ hx)
    simp [hne]

theorem find_eq_some {xs : List α} {n : ℕ} (h : find sep xs = some n) :
    ∃ l ys, xs = l ++ sep :: ys ∧ l.length = n ∧ sep ∉ l := by
  have hjoin := joinLines_lines sep xs
  cases hls : lines sep xs with
  | nil =>
    rw [hls, joinLines_nil, List.nil_append] at hjoin
    have hno := find_eq_none.2 (not_mem_rest sep xs)
    rw [hjoin, h] at hno
    cases hno
  | cons l ls =>
    have hl : sep ∉ l := (joinLines_cut sep xs).2.1 l (hls ▸ List.mem_cons_self)
    have hxs : xs = l ++ sep :: (joinLines sep ls ++ rest sep xs) := by
      rw [hls, joinLines_cons, List.append_assoc, List.cons_append] at hjoin
      exact hjoin.symm
    rw [hxs, find_line hl] at h
    exact ⟨l, _, hxs, Option.some.inj h, hl⟩

/-- the search can start behind what holds no separator -/
theorem find_drop {xs : List α} {k : ℕ} (h : sep ∉ xs.take k) : (find sep (xs.drop k)).map (k + ·) = find sep xs := by
  have hsplit := List.take_append_drop k xs
  cases hf : find sep (xs.drop k) with
  | none =>
    have hno : sep ∉ xs := by
      rw [← hsplit, List.mem_append]
      exact fun hm => hm.elim h (find_eq_none.1 hf)
    rw [find_eq_none.2 hno]
    rfl
  | some n =>
    obtain ⟨l, ys, heq, rfl, hl⟩ := find_eq_some hf
    have hlt : k < xs.length := by
      have hlen := congrArg List.length heq
      rw [List.length_drop, List.length_append, List.length_cons] at hlen
      omega
    have hxs : xs = (xs.take k ++ l) ++ sep :: ys := by
      rw [List.append_assoc, ← heq, hsplit]
    have hnot : sep ∉ xs.take k ++ l := by
      rw [List.mem_append]
      exact fun hm => hm.elim h hl
    have hfind := find_line hnot ys
    rw [← hxs, List.length_append, List.length_take, min_eq_left hlt.le] at hfind
    rw [hfind]
    rfl

/-- the first line of a sequence is what stands before its first separator -/
theorem first_line_inj {l l' xs ys : List α} (h : sep ∉ l) (h' : sep ∉ l') (heq : l ++ sep :: xs = l' ++ sep :: ys) :
    l = l' ∧ xs = ys := by
  have hlen : l.length = l'.length := by
    have := find_line h xs
    rw [heq, find_line h'] at this
    exact (Option.some.inj this).symm
  obtain ⟨hl, htail⟩ := List.append_inj heq hlen
  exact ⟨hl, (List.cons.inj htail).2⟩

omit [DecidableEq α] in
/-- what holds no separator and is the start of a line and more is the start of the line -/
theorem prefix_line {p l xs : List α} (h : sep ∉ p) (hp : p <+: l ++ sep :: xs) : p <+: l := by
  rcases Nat.lt_or_ge l.length p.length with hlt | hle
  · exfalso
    have hsep : l ++ [sep] <+: l ++ sep :: xs := by
      have hsplit : l ++ sep :: xs = (l ++ [sep]) ++ xs := by simp
      rw [hsplit]
      exact List.prefix_append _ _
    have hin : l ++ [sep] <+: p := List.prefix_of_prefix_length_le hsep hp (by simpa using hlt)
    exact h (hin.subset (by simp))
  · exact List.prefix_of_prefix_length_le hp (List.prefix_append _ _) hle

end Lines
