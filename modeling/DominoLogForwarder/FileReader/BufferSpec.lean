/-
The buffer of a `FileReader` and the lines of the file.

`Holds r c`: the buffer is a piece of the content `c`. `Reader.future r c` is what `r` still has to return of it.
`extractLine` returns the first line of the future and leaves the others (`extractLine_some`), or there is no line in
the buffer (`extractLine_none`), and then nothing is left when the whole file was read (`future_eq_nil`).
-/
import DominoLogForwarder.FileReader.Split

namespace DominoLogForwarder.FileReader

open Lines

variable {r r' : Reader} {c : Bytes} {line : Line}

namespace Reader

/-! ## What a reader still has to return -/

/-- the lines of the content which were not returned yet -/
def future (r : Reader) (c : Bytes) : List Item :=
  if r.skipping then afterSkip r.settings.maxLineLength c r.bufferStart
  else linesFrom r.settings.maxLineLength c r.bufferStart

/-- where the next line begins -/
def lineStart (r : Reader) (c : Bytes) : ℕ :=
  if r.skipping then
    match find nl (c.drop r.bufferStart) with
    | none => c.length
    | some n => r.bufferStart + n + 1
  else r.bufferStart

/-- what is known of the buffer and of the start of the file -/
structure Holds (r : Reader) (c : Bytes) : Prop where
  pos_le : r.pos ≤ r.buffer.length
  rest : r.rest <+: c.drop r.bufferStart
  read_le : r.bufferStart + r.pending ≤ c.length
  scanFrom : nl ∉ r.rest.take r.scanFrom
  scanFrom_le : r.scanFrom ≤ r.pending
  head : r.head <+: c
  head_le : r.head.length ≤ headMax
  committed_le : r.committed ≤ r.bufferStart

/-- there is no line in the buffer -/
structure Starved (r : Reader) : Prop where
  noLine : nl ∉ r.rest
  short : r.skipping = false → r.pending ≤ r.settings.maxLineLength
  skipped : r.skipping = true → r.pending = 0

/-- nothing but the buffer is different -/
def SameFile (r r' : Reader) : Prop :=
  r' = { r with
    buffer := r'.buffer
    pos := r'.pos
    bufferStart := r'.bufferStart
    scanFrom := r'.scanFrom
    skipping := r'.skipping }

theorem length_rest (r : Reader) : r.rest.length = r.pending := List.length_drop

theorem Holds.mono {c' : Bytes} (h : r.Holds c) (hc : c <+: c') : r.Holds c' where
  pos_le := h.pos_le
  rest := h.rest.trans (drop_grows hc _)
  read_le := h.read_le.trans hc.length_le
  scanFrom := h.scanFrom
  scanFrom_le := h.scanFrom_le
  head := h.head.trans hc
  head_le := h.head_le
  committed_le := h.committed_le

theorem future_grows {c' : Bytes} (hc : c <+: c') (r : Reader) : r.future c <+: r.future c' := by
  unfold future
  split_ifs
  · exact afterSkip_grows hc _
  · exact linesFrom_grows hc _

/-- the first line of the future begins where the next line begins -/
theorem lineStart_of_future {item : Item} {items : List Item} (h : r.future c = item :: items) :
    item.start = r.lineStart c := by
  unfold future at h
  unfold lineStart
  split_ifs at h ⊢ with hskip
  · rw [afterSkip] at h
    cases hn : find nl (c.drop r.bufferStart) with
    | none =>
      simp only [hn, reduceCtorEq] at h
    | some n =>
      simp only [hn] at h
      simp only
      exact lineAt_start (by rw [lineAt, h, List.head?_cons])
  · exact lineAt_start (by rw [lineAt, h, List.head?_cons])

/-- everything was read, and there is no line in the buffer: nothing is left -/
theorem future_eq_nil (h : r.Holds c) (hs : r.Starved) (hall : r.bufferStart + r.pending = c.length) :
    r.future c = [] := by
  have hrest : r.rest = c.drop r.bufferStart := by
    apply h.rest.eq_of_length
    rw [length_rest, List.length_drop]
    omega
  have hno : nl ∉ c.drop r.bufferStart := hrest ▸ hs.noLine
  unfold future
  split_ifs with hskip
  · exact afterSkip_rest hno
  · have hshort := hs.short (by simpa using hskip)
    rw [← length_rest, hrest] at hshort
    rw [linesFrom_rest hno, cutRest, if_neg (Nat.not_lt.2 hshort)]

theorem findNl_eq (h : r.Holds c) : r.findNl = (find nl r.rest).map (r.pos + ·) := by
  have hdrop : r.buffer.drop (r.pos + r.scanFrom) = r.rest.drop r.scanFrom := by
    rw [rest, List.drop_drop]
  rw [findNl, hdrop, ← find_drop h.scanFrom, Option.map_map]
  simp only [Function.comp_def, Nat.add_assoc]

/-- the buffer behind an index -/
theorem rest_advance (idx : ℕ) : (r.advance idx).rest = r.buffer.drop idx := rfl

theorem Holds.advance (h : r.Holds c) {n : ℕ} (hn : n ≤ r.pending) : (r.advance (r.pos + n)).Holds c where
  pos_le := by
    have := h.pos_le
    unfold pending at hn
    exact (by omega : r.pos + n ≤ r.buffer.length)
  rest := by
    obtain ⟨y, hy⟩ := h.rest
    refine ⟨y, ?_⟩
    have hstart : (r.advance (r.pos + n)).bufferStart = r.bufferStart + n := by
      simp [Reader.advance]
    have hrest : (r.advance (r.pos + n)).rest = r.rest.drop n := by
      rw [rest_advance, Reader.rest, List.drop_drop]
    rw [hstart, hrest, ← List.drop_drop, ← hy, List.drop_append_of_le_length]
    rwa [length_rest]
  read_le := by
    have := h.read_le
    simp only [Reader.advance, pending] at *
    omega
  scanFrom := List.not_mem_nil
  scanFrom_le := Nat.zero_le _
  head := h.head
  head_le := h.head_le
  committed_le := by
    have := h.committed_le
    simp only [Reader.advance]
    omega

/-! ## Lines of the buffer -/

end Reader

/-- the line of a file which a returned line is -/
def Item.of (start : ℕ) (line : Line) : Item :=
  ⟨start, line.text, line.truncated, if line.truncated then none else some line.endOffset⟩

namespace Reader

/-- what `takeLine` does with a line which is complete in the buffer -/
theorem takeLine_line (h : r.Holds c) {l xs : Bytes} (hrest : r.rest = l ++ nl :: xs) (hl : nl ∉ l) :
    ∃ line, r.takeLine = (some line, r.advance (r.pos + l.length + 1)) ∧ line.generation = r.generation ∧
      line.endOffset = r.bufferStart + l.length + 1 ∧
      Item.of r.bufferStart line = entry r.settings.maxLineLength r.bufferStart l := by
  have hfind : r.findNl = some (r.pos + l.length) := by
    rw [findNl_eq h, hrest, find_line hl]
    rfl
  have hlen : r.pos + l.length - r.pos = l.length := Nat.add_sub_cancel_left _ _
  have hstart : (r.advance (r.pos + l.length + 1)).bufferStart = r.bufferStart + l.length + 1 := by
    simp only [Reader.advance]
    omega
  have hbuf : r.buffer.drop r.pos = l ++ nl :: xs := hrest
  unfold takeLine
  rw [hfind]
  simp only [hlen, hbuf, decide_eq_true_eq]
  refine ⟨_, rfl, rfl, hstart, ?_⟩
  by_cases hlong : r.settings.maxLineLength < l.length
  · simp only [hlong, Item.of, entry, decide_true, if_true, List.take_append_of_le_length hlong.le]
  · have hget : 0 < l.length → r.buffer[r.pos + l.length - 1]? = l.getLast? := by
      intro hpos
      have hidx : r.pos + l.length - 1 = r.pos + (l.length - 1) := by omega
      rw [hidx, ← List.getElem?_drop, hbuf, List.getElem?_append_left (by omega), List.getLast?_eq_getElem?]
    have htext : (l ++ nl :: xs).take (if 0 < l.length ∧ r.buffer[r.pos + l.length - 1]? = some cr
        then l.length - 1 else l.length) = stripCr l := by
      unfold stripCr
      by_cases hpos : 0 < l.length
      · rw [hget hpos]
        by_cases hcr : l.getLast? = some cr
        · rw [if_pos ⟨hpos, hcr⟩, if_pos hcr, List.take_append_of_le_length (Nat.sub_le _ _), List.dropLast_eq_take]
        · rw [if_neg fun hh => hcr hh.2, if_neg hcr, List.take_left' rfl]
      · obtain rfl : l = [] := List.length_eq_zero_iff.1 (by omega)
        rfl
    simp only [hlong, Item.of, entry, decide_false, Bool.false_eq_true, if_false, htext, hstart]

/-- what `takeLine` does with a line which is too long and has no end in the buffer -/
theorem takeLine_long (h : r.Holds c) (hno : nl ∉ r.rest) (hlong : r.settings.maxLineLength < r.pending) :
    r.takeLine = (some ⟨r.rest.take r.settings.maxLineLength, r.generation,
      r.bufferStart + r.settings.maxLineLength, true⟩,
      { r.advance (r.pos + r.settings.maxLineLength) with skipping := true }) := by
  have hfind : r.findNl = none := by
    rw [findNl_eq h, find_eq_none.2 hno]
    rfl
  unfold takeLine
  rw [hfind]
  simp only [hlong, if_true, Reader.advance, Nat.add_sub_cancel_left]
  rfl

theorem takeLine_none (h : r.Holds c) (hno : nl ∉ r.rest) (hshort : r.pending ≤ r.settings.maxLineLength) :
    r.takeLine = (none, { r with scanFrom := r.pending }) := by
  have hfind : r.findNl = none := by
    rw [findNl_eq h, find_eq_none.2 hno]
    rfl
  unfold takeLine
  rw [hfind]
  simp only [if_neg (Nat.not_lt.2 hshort)]

/-- the line which was returned is the first line of the future -/
structure Returned (r : Reader) (c : Bytes) (line : Line) (r' : Reader) : Prop where
  holds : r'.Holds c
  same : r.SameFile r'
  future : ∀ c', c <+: c' → r.future c' = Item.of (r.lineStart c) line :: r'.future c'
  generation : line.generation = r.generation
  endOffset : line.endOffset = r'.bufferStart
  start_le : r.bufferStart ≤ r.lineStart c
  lt_end : r.lineStart c < line.endOffset

theorem takeLine_some (h : r.Holds c) (hskip : r.skipping = false) (ht : r.takeLine = (some line, r')) :
    r.Returned c line r' := by
  have hfuture : ∀ c', r.future c' = linesFrom r.settings.maxLineLength c' r.bufferStart := by
    intro c'
    rw [Reader.future, hskip]
    rfl
  have hstart : r.lineStart c = r.bufferStart := by
    rw [lineStart, hskip]
    rfl
  rcases Classical.em (nl ∈ r.rest) with hin | hno
  · obtain ⟨n, hn⟩ := Option.ne_none_iff_exists'.1 fun h0 => find_eq_none.1 h0 hin
    obtain ⟨l, xs, hrest, -, hl⟩ := find_eq_some hn
    obtain ⟨line', heq, hgen, hend, hitem⟩ := takeLine_line h hrest hl
    rw [heq, Prod.mk.injEq, Option.some.injEq] at ht
    obtain ⟨rfl, rfl⟩ := ht
    have hle : l.length + 1 ≤ r.pending := by
      rw [← length_rest, hrest, List.length_append, List.length_cons]
      omega
    have hbs : (r.advance (r.pos + l.length + 1)).bufferStart = r.bufferStart + l.length + 1 := by
      simp only [Reader.advance]
      omega
    refine ⟨h.advance (n := l.length + 1) hle, rfl, fun c' hc => ?_, hgen, ?_, hstart.ge, ?_⟩
    · obtain ⟨y, hy⟩ := h.rest.trans (drop_grows hc _)
      have hdrop : c'.drop r.bufferStart = l ++ nl :: (xs ++ y) := by
        rw [← hy, hrest, List.append_assoc, List.cons_append]
      rw [hfuture, linesFrom_line hdrop hl, hstart, hitem]
      congr 1
      unfold Reader.future
      rw [hbs]
      simp only [Reader.advance, hskip, Bool.false_eq_true, if_false]
    · rw [hend, hbs]
    · omega
  · by_cases hlong : r.settings.maxLineLength < r.pending
    · rw [takeLine_long h hno hlong, Prod.mk.injEq, Option.some.injEq] at ht
      obtain ⟨rfl, rfl⟩ := ht
      have hadv := h.advance hlong.le
      have hpos := r.settings.maxLineLength_pos
      refine ⟨⟨hadv.pos_le, hadv.rest, hadv.read_le, hadv.scanFrom, hadv.scanFrom_le, hadv.head, hadv.head_le,
        hadv.committed_le⟩, rfl,
        fun c' hc => ?_, rfl, ?_, hstart.ge, ?_⟩
      · have hlen : r.settings.maxLineLength < r.rest.length := by rwa [length_rest]
        rw [hfuture, linesFrom_long (h.rest.trans (drop_grows hc _)) hno hlen, hstart]
        unfold Reader.future
        simp only [Reader.advance, if_true, Item.of, Nat.add_sub_cancel_left]
      · simp only [Reader.advance, Nat.add_sub_cancel_left]
      · rw [hstart]
        exact Nat.lt_add_of_pos_right hpos
    · rw [takeLine_none h hno (Nat.not_lt.1 hlong)] at ht
      cases ht

/-- nothing in the buffer is a line, and what the reader has to return is the same -/
structure Waits (r : Reader) (c : Bytes) (r' : Reader) : Prop where
  holds : r'.Holds c
  same : r.SameFile r'
  future : ∀ c', c <+: c' → r.future c' = r'.future c'
  starved : r'.Starved
  start_le : r.bufferStart ≤ r'.bufferStart
  read : r'.bufferStart + r'.pending = r.bufferStart + r.pending
  /-- what is left in the buffer is what was there, or the rest of a line which is dropped -/
  pending : r'.pending = 0 ∨ r'.skipping = true → r.pending = 0 ∨ r.skipping = true

theorem takeLine_waits (h : r.Holds c) (hskip : r.skipping = false) (ht : r.takeLine = (none, r')) :
    r.Waits c r' := by
  have hno : nl ∉ r.rest := by
    intro hin
    obtain ⟨n, hn⟩ := Option.ne_none_iff_exists'.1 fun h0 => find_eq_none.1 h0 hin
    obtain ⟨l, xs, hrest, -, hl⟩ := find_eq_some hn
    obtain ⟨line', heq, -⟩ := takeLine_line h hrest hl
    rw [heq] at ht
    cases ht
  by_cases hlong : r.settings.maxLineLength < r.pending
  · rw [takeLine_long h hno hlong] at ht
    cases ht
  · rw [takeLine_none h hno (Nat.not_lt.1 hlong), Prod.mk.injEq] at ht
    obtain ⟨-, rfl⟩ := ht
    refine ⟨⟨h.pos_le, h.rest, h.read_le, ?_, le_rfl, h.head, h.head_le, h.committed_le⟩, rfl, fun _ _ => rfl, ?_,
      le_rfl, rfl, id⟩
    · exact fun hin => hno (List.mem_of_mem_take hin)
    · refine ⟨hno, fun _ => Nat.not_lt.1 hlong, fun hs => ?_⟩
      rw [hskip] at hs
      cases hs

theorem extractLine_eq_takeLine (hskip : r.skipping = false) : r.extractLine = r.takeLine := by
  rw [extractLine, hskip]
  rfl

/-- the rest of a line which is dropped ends in the buffer -/
theorem skip_line (h : r.Holds c) (hskip : r.skipping = true) {l xs : Bytes} (hrest : r.rest = l ++ nl :: xs)
    (hl : nl ∉ l) :
    ∃ s : Reader, r.extractLine = s.takeLine ∧ s.skipping = false ∧ s.Holds c ∧ r.SameFile s ∧
      s.generation = r.generation ∧ s.bufferStart = r.bufferStart + l.length + 1 ∧ s.lineStart c = r.lineStart c ∧
      s.bufferStart + s.pending = r.bufferStart + r.pending ∧ ∀ c', c <+: c' → r.future c' = s.future c' := by
  have hfind : r.findNl = some (r.pos + l.length) := by
    rw [findNl_eq h, hrest, find_line hl]
    rfl
  have hle : l.length + 1 ≤ r.pending := by
    rw [← length_rest, hrest, List.length_append, List.length_cons]
    omega
  have hadv := h.advance hle
  have hbs : (r.advance (r.pos + l.length + 1)).bufferStart = r.bufferStart + l.length + 1 := by
    simp only [Reader.advance]
    omega
  have hdrop : ∀ c', c <+: c' → ∃ y, c'.drop r.bufferStart = l ++ nl :: (xs ++ y) := by
    intro c' hc
    obtain ⟨y, hy⟩ := h.rest.trans (drop_grows hc _)
    exact ⟨y, by rw [← hy, hrest, List.append_assoc, List.cons_append]⟩
  refine ⟨{ r.advance (r.pos + l.length + 1) with skipping := false }, ?_, rfl,
    ⟨hadv.pos_le, hadv.rest, hadv.read_le, hadv.scanFrom, hadv.scanFrom_le, hadv.head, hadv.head_le,
        hadv.committed_le⟩, rfl, rfl, hbs, ?_,
    ?_, fun c' hc => ?_⟩
  · rw [extractLine, hskip, hfind]
    rfl
  · obtain ⟨y, hy⟩ := hdrop c (List.prefix_refl c)
    unfold lineStart
    rw [hskip, hy, find_line hl]
    exact hbs
  · have := h.pos_le
    unfold Reader.pending at hle ⊢
    simp only [Reader.advance]
    omega
  · obtain ⟨y, hy⟩ := hdrop c' hc
    unfold Reader.future
    rw [hskip, if_pos rfl, afterSkip_line hy hl]
    simp only [hbs, Bool.false_eq_true, if_false]
    rfl

theorem SameFile.trans {r'' : Reader} (h : r.SameFile r') (h' : r'.SameFile r'') : r.SameFile r'' := by
  unfold SameFile at *
  rw [h] at h'
  exact h'

/-- **A line of the buffer** is the first one of those which are left. -/
theorem extractLine_some (h : r.Holds c) (he : r.extractLine = (some line, r')) : r.Returned c line r' := by
  cases hskip : r.skipping with
  | false => exact takeLine_some h hskip (extractLine_eq_takeLine hskip ▸ he)
  | true =>
    cases hf : find nl r.rest with
    | none =>
      rw [extractLine, hskip, findNl_eq h, hf] at he
      cases he
    | some n =>
      obtain ⟨l, xs, hrest, -, hl⟩ := find_eq_some hf
      obtain ⟨s, heq, hs, hholds, hsame, hgen, hbs, hls, -, hfut⟩ := skip_line h hskip hrest hl
      obtain ⟨hholds', hsame', hfut', hgen', hend, hle, hlt⟩ := takeLine_some hholds hs (heq ▸ he)
      have hstart : s.lineStart c = s.bufferStart := by
        rw [lineStart, hs]
        rfl
      refine ⟨hholds', hsame.trans hsame', fun c' hc => ?_, hgen'.trans hgen, hend, ?_, hls ▸ hlt⟩
      · rw [hfut c' hc, hfut' c' hc, hls]
      · rw [← hls, hstart, hbs]
        omega

/-- **No line in the buffer**: more of the file is needed. -/
theorem extractLine_none (h : r.Holds c) (he : r.extractLine = (none, r')) : r.Waits c r' := by
  cases hskip : r.skipping with
  | false => exact takeLine_waits h hskip (extractLine_eq_takeLine hskip ▸ he)
  | true =>
    cases hf : find nl r.rest with
    | none =>
      have hno := find_eq_none.1 hf
      rw [extractLine, hskip, findNl_eq h, hf, if_pos rfl, Option.map_none, Prod.mk.injEq] at he
      obtain ⟨-, rfl⟩ := he
      have hread := h.read_le
      refine ⟨⟨le_rfl, List.nil_prefix, ?_, List.not_mem_nil, le_rfl, h.head, h.head_le, ?_⟩, rfl,
        fun c' hc => ?_, ?_, ?_, ?_,
        fun _ => Or.inr hskip⟩
      · simpa [Reader.pending, clearBuffer] using hread
      · exact h.committed_le.trans (Nat.le_add_right _ _)
      · have hfut : afterSkip r.settings.maxLineLength c' r.bufferStart =
            afterSkip r.settings.maxLineLength c' (r.bufferStart + r.rest.length) :=
          afterSkip_skip (h.rest.trans (drop_grows hc _)) hno
        rw [length_rest] at hfut
        unfold Reader.future
        simp only [hskip, clearBuffer, if_true]
        exact hfut
      · refine ⟨List.not_mem_nil, fun _ => Nat.zero_le _, fun _ => rfl⟩
      · exact Nat.le_add_right _ _
      · simp [Reader.pending, clearBuffer]
    | some n =>
      obtain ⟨l, xs, hrest, -, hl⟩ := find_eq_some hf
      obtain ⟨s, heq, hs, hholds, hsame, hgen, hbs, hls, hread, hfut⟩ := skip_line h hskip hrest hl
      obtain ⟨hholds', hsame', hfut', hstarved, hle, hread', -⟩ := takeLine_waits hholds hs (heq ▸ he)
      refine ⟨hholds', hsame.trans hsame', fun c' hc => ?_, hstarved, ?_, hread'.trans hread, fun _ => Or.inr hskip⟩
      · rw [hfut c' hc, hfut' c' hc]
      · rw [hbs] at hle
        omega

end Reader

end DominoLogForwarder.FileReader
