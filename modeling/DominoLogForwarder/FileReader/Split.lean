/-
What the lines of a file are: the content from a position on, cut at every new line. This is what `FileReader` is for,
it says nothing about buffers and chunks.

`linesFrom` is a function of the content alone, and it only grows when the content does (`linesFrom_grows`). A line is
found again from every position up to its start, if it begins there or behind a new line (`mem_linesFrom`).
-/
import DominoLogForwarder.FileReader.Reader

namespace DominoLogForwarder.FileReader

open Lines

/-! ## The lines of a content -/

/-- a line of a file -/
structure Item where
  start : ℕ
  text : Bytes
  truncated : Bool
  /-- the position behind the new line. None for a line which is cut -/
  endOffset : Option ℕ
deriving DecidableEq, Repr

/-- one carriage return at the end is not part of the text -/
def stripCr (l : Bytes) : Bytes := if l.getLast? = some cr then l.dropLast else l

/-- a line which is longer than the maximum is cut -/
def entry (maxLen start : ℕ) (l : Bytes) : Item :=
  if maxLen < l.length then ⟨start, l.take maxLen, true, none⟩
  else ⟨start, stripCr l, false, some (start + l.length + 1)⟩

/-- a last line without a new line is a line only if it is longer than the maximum already -/
def cutRest (maxLen start : ℕ) (p : Bytes) : List Item :=
  if maxLen < p.length then [⟨start, p.take maxLen, true, none⟩] else []

def split (maxLen : ℕ) : ℕ → List Bytes → Bytes → List Item
  | start, [], p => cutRest maxLen start p
  | start, l :: ls, p => entry maxLen start l :: split maxLen (start + l.length + 1) ls p

/-- the lines of the content `c` from the position `o` on -/
def linesFrom (maxLen : ℕ) (c : Bytes) (o : ℕ) : List Item :=
  split maxLen o (lines nl (c.drop o)) (rest nl (c.drop o))

/-- the lines behind the next new line -/
def afterSkip (maxLen : ℕ) (c : Bytes) (o : ℕ) : List Item :=
  match find nl (c.drop o) with
  | none => []
  | some n => linesFrom maxLen c (o + n + 1)

variable {maxLen o : ℕ} {c x : Bytes}

theorem drop_behind {l xs : Bytes} (h : c.drop o = l ++ nl :: xs) : c.drop (o + l.length + 1) = xs := by
  rw [Nat.add_assoc, ← List.drop_drop, h, List.drop_append, List.drop_eq_nil_of_le (Nat.le_succ _), List.nil_append,
    Nat.add_sub_cancel_left]
  rfl

theorem linesFrom_line {l xs : Bytes} (h : c.drop o = l ++ nl :: xs) (hl : nl ∉ l) :
    linesFrom maxLen c o = entry maxLen o l :: linesFrom maxLen c (o + l.length + 1) := by
  unfold linesFrom
  rw [drop_behind h, h, lines, rest, cut_line hl, split]

theorem linesFrom_rest (h : nl ∉ c.drop o) : linesFrom maxLen c o = cutRest maxLen o (c.drop o) := by
  rw [linesFrom, lines, rest, cut_of_not_mem h, split]

/-- there is a line at the position, or there is no new line behind it -/
theorem line_or_rest (c : Bytes) (o : ℕ) : (∃ l xs, c.drop o = l ++ nl :: xs ∧ nl ∉ l) ∨ nl ∉ c.drop o := by
  cases hf : find nl (c.drop o) with
  | none => exact Or.inr (find_eq_none.1 hf)
  | some n =>
    obtain ⟨l, xs, heq, -, hl⟩ := find_eq_some hf
    exact Or.inl ⟨l, xs, heq, hl⟩

theorem afterSkip_line {l xs : Bytes} (h : c.drop o = l ++ nl :: xs) (hl : nl ∉ l) :
    afterSkip maxLen c o = linesFrom maxLen c (o + l.length + 1) := by
  unfold afterSkip
  rw [h, find_line hl]

theorem afterSkip_rest (h : nl ∉ c.drop o) : afterSkip maxLen c o = [] := by
  unfold afterSkip
  rw [find_eq_none.2 h]

/-- what holds no new line can be skipped -/
theorem afterSkip_skip {p : Bytes} (hp : p <+: c.drop o) (hnl : nl ∉ p) :
    afterSkip maxLen c o = afterSkip maxLen c (o + p.length) := by
  obtain ⟨y, hy⟩ := hp
  have hdrop : c.drop (o + p.length) = y := by
    rw [← List.drop_drop, ← hy, List.drop_left]
  rcases line_or_rest c (o + p.length) with ⟨l, xs, heq, hl⟩ | hrest
  · have hall : c.drop o = (p ++ l) ++ nl :: xs := by
      rw [← hy, ← hdrop, heq, List.append_assoc]
    have hnot : nl ∉ p ++ l := by
      rw [List.mem_append]
      exact fun h => h.elim hnl hl
    rw [afterSkip_line heq hl, afterSkip_line hall hnot, List.length_append, ← Nat.add_assoc o]
  · have hall : nl ∉ c.drop o := by
      rw [← hy, List.mem_append]
      exact fun h => h.elim hnl (hdrop ▸ hrest)
    rw [afterSkip_rest hrest, afterSkip_rest hall]

/-- the start of a line is longer than the maximum: the line is cut, whether it has an end yet or not -/
theorem linesFrom_long {p : Bytes} (hp : p <+: c.drop o) (hnl : nl ∉ p) (hlong : maxLen < p.length) :
    linesFrom maxLen c o = ⟨o, p.take maxLen, true, none⟩ :: afterSkip maxLen c (o + maxLen) := by
  have hcut : p.take maxLen <+: c.drop o := (List.take_prefix _ _).trans hp
  have hcutlen : (p.take maxLen).length = maxLen := by
    rw [List.length_take]
    omega
  have hskip : afterSkip maxLen c o = afterSkip maxLen c (o + maxLen) := by
    rw [afterSkip_skip hcut fun h => hnl (List.mem_of_mem_take h), hcutlen]
  rw [← hskip]
  rcases line_or_rest c o with ⟨l, xs, heq, hl⟩ | hrest
  · have hpl : p <+: l := prefix_line hnl (heq ▸ hp)
    have hlen : maxLen < l.length := lt_of_lt_of_le hlong hpl.length_le
    have htake : l.take maxLen = p.take maxLen := by
      obtain ⟨y, rfl⟩ := hpl
      rw [List.take_append_of_le_length hlong.le]
    rw [linesFrom_line heq hl, afterSkip_line heq hl, entry, if_pos hlen, htake]
  · have hlen : maxLen < (c.drop o).length := lt_of_lt_of_le hlong hp.length_le
    have htake : (c.drop o).take maxLen = p.take maxLen := by
      obtain ⟨y, hy⟩ := hp
      rw [← hy, List.take_append_of_le_length hlong.le]
    rw [linesFrom_rest hrest, afterSkip_rest hrest, cutRest, if_pos hlen, htake]

/-! ## A growing content -/

theorem drop_grows {c' : Bytes} (h : c <+: c') (o : ℕ) : c.drop o <+: c'.drop o := by
  obtain ⟨x, rfl⟩ := h
  rw [List.drop_append]
  exact List.prefix_append _ _

/-- **The lines of a content are the first lines of what it grows to.** -/
theorem linesFrom_grows {c' : Bytes} (h : c <+: c') (o : ℕ) : linesFrom maxLen c o <+: linesFrom maxLen c' o := by
  -- induction on what is left of the content
  induction hn : c.length - o using Nat.strong_induction_on generalizing o with
  | _ n ih =>
    have hdrop := drop_grows h o
    rcases line_or_rest c o with ⟨l, xs, heq, hl⟩ | hrest
    · obtain ⟨y, hy⟩ := hdrop
      have heq' : c'.drop o = l ++ nl :: (xs ++ y) := by
        rw [← hy, heq, List.append_assoc, List.cons_append]
      have hlt : c.length - (o + l.length + 1) < n := by
        have hlen := congrArg List.length heq
        rw [List.length_drop, List.length_append, List.length_cons] at hlen
        omega
      rw [linesFrom_line heq hl, linesFrom_line heq' hl, List.cons_prefix_cons]
      exact ⟨rfl, ih _ hlt _ rfl⟩
    · rw [linesFrom_rest hrest, cutRest]
      split_ifs with hlong
      · rw [linesFrom_long hdrop hrest hlong, List.cons_prefix_cons]
        exact ⟨rfl, List.nil_prefix⟩
      · exact List.nil_prefix

theorem afterSkip_grows {c' : Bytes} (h : c <+: c') (o : ℕ) : afterSkip maxLen c o <+: afterSkip maxLen c' o := by
  rcases line_or_rest c o with ⟨l, xs, heq, hl⟩ | hrest
  · obtain ⟨y, hy⟩ := drop_grows h o
    have heq' : c'.drop o = l ++ nl :: (xs ++ y) := by
      rw [← hy, heq, List.append_assoc, List.cons_append]
    rw [afterSkip_line heq hl, afterSkip_line heq' hl]
    exact linesFrom_grows h _
  · rw [afterSkip_rest hrest]
    exact List.nil_prefix

/-! ## A line on its own -/

/-- a line begins at `s` when the lines are read from `o` on -/
def Begins (content : Bytes) (o s : ℕ) : Prop := s = o ∨ o < s ∧ content[s - 1]? = some nl

/-- the line which begins at a position -/
def lineAt (maxLen : ℕ) (c : Bytes) (s : ℕ) : Option Item := (linesFrom maxLen c s).head?

theorem lineAt_start {item : Item} {s : ℕ} (h : lineAt maxLen c s = some item) : item.start = s := by
  unfold lineAt at h
  rcases line_or_rest c s with ⟨l, xs, heq, hl⟩ | hrest
  · rw [linesFrom_line heq hl, List.head?_cons, Option.some.injEq] at h
    rw [← h, entry]
    split_ifs <;> rfl
  · rw [linesFrom_rest hrest, cutRest] at h
    split_ifs at h
    · rw [List.head?_cons, Option.some.injEq] at h
      rw [← h]
    · simp at h

/-- **The lines from a position on** are the lines which begin there or behind a new line. -/
theorem mem_linesFrom {content : Bytes} {item : Item} :
    item ∈ linesFrom maxLen content o ↔
      o ≤ item.start ∧ Begins content o item.start ∧ lineAt maxLen content item.start = some item := by
  -- induction on what is left of the content
  induction hn : content.length - o using Nat.strong_induction_on generalizing o with
  | _ n ih =>
    rcases line_or_rest content o with ⟨l, xs, heq, hl⟩ | hrest
    · have hlen := congrArg List.length heq
      rw [List.length_drop, List.length_append, List.length_cons] at hlen
      have hih := ih (content.length - (o + l.length + 1)) (by omega) (o := o + l.length + 1) rfl
      -- the new line which ends the first line
      have hend : content[o + l.length]? = some nl := by
        rw [← List.getElem?_drop, heq, List.getElem?_append_right le_rfl, Nat.sub_self]
        rfl
      have hbefore : ∀ i, o ≤ i → i < o + l.length → content[i]? ≠ some nl := by
        intro i hoi hi hnl
        have hidx : content[i]? = l[i - o]? := by
          have hsplit : i = o + (i - o) := by omega
          rw [hsplit, ← List.getElem?_drop, heq, List.getElem?_append_left (by omega), ← hsplit]
        rw [hidx] at hnl
        exact hl (List.mem_of_getElem? hnl)
      have hfirst : lineAt maxLen content o = some (entry maxLen o l) := by
        rw [lineAt, linesFrom_line heq hl, List.head?_cons]
      rw [linesFrom_line heq hl, List.mem_cons, hih]
      constructor
      · rintro (rfl | ⟨hle, hbegins, hat⟩)
        · have hstart := lineAt_start hfirst
          rw [hstart]
          exact ⟨le_rfl, Or.inl rfl, hfirst⟩
        · refine ⟨by omega, Or.inr ⟨by omega, ?_⟩, hat⟩
          rcases hbegins with heq' | ⟨-, hnl⟩
          · rw [heq', Nat.add_sub_cancel]
            exact hend
          · exact hnl
      · rintro ⟨hle, hbegins, hat⟩
        rcases hbegins with heq' | ⟨hlt, hnl⟩
        · rw [heq', hfirst, Option.some.injEq] at hat
          exact Or.inl hat.symm
        · have hbehind : o + l.length + 1 ≤ item.start := by
            by_contra hcon
            exact hbefore (item.start - 1) (by omega) (by omega) hnl
          refine Or.inr ⟨hbehind, ?_, hat⟩
          rcases Nat.eq_or_lt_of_le hbehind with heq' | hlt'
          · exact Or.inl heq'.symm
          · exact Or.inr ⟨hlt', hnl⟩
    · rw [linesFrom_rest hrest]
      constructor
      · intro hmem
        have hstart : item.start = o := by
          unfold cutRest at hmem
          split_ifs at hmem
          · rw [List.mem_singleton.1 hmem]
          · exact absurd hmem List.not_mem_nil
        refine ⟨hstart.ge, Or.inl hstart, ?_⟩
        rw [hstart, lineAt, linesFrom_rest hrest]
        unfold cutRest at hmem ⊢
        split_ifs at hmem ⊢
        · rw [List.mem_singleton.1 hmem, List.head?_cons]
        · exact absurd hmem List.not_mem_nil
      · rintro ⟨hle, hbegins, hat⟩
        rcases hbegins with heq' | ⟨hlt, hnl⟩
        · rw [heq', lineAt, linesFrom_rest hrest] at hat
          exact List.mem_of_mem_head? hat
        · exfalso
          apply hrest
          have hsplit : item.start - 1 = o + (item.start - 1 - o) := by omega
          rw [hsplit, ← List.getElem?_drop] at hnl
          exact List.mem_of_getElem? hnl

end DominoLogForwarder.FileReader
