/-
From `domfwd` to `otelfwd`: the lines of a `DomfwdDurableSender` at the socket input.

A connection delivers a part of what the sender wrote, from its start on. When it ends inside of a line, the input takes
what it has for a line, and the sender sends the line again on the next connection. A JSON object which is cut is no
JSON text, so such a piece is no record (`events_arrive`). One piece is a line: the whole line without its new line. It
is a record twice (`doubled`).
-/
import DominoLogForwarder.Domfwd.Durable
import DominoLogForwarder.Lib.JsonCut
import DominoLogForwarder.Otelfwd.IngestThread

namespace DominoLogForwarder.Otelfwd

open Lines
open FileReader (Bytes nl cr stripCr)
open Domfwd (Durable)

variable {Record : Type} {decode : Bytes → Option Record}

/-! ## The records of a connection -/

/-- what `IngestHandleLine` offers to the queue -/
def recordOfLine (decode : Bytes → Option Record) (text : Bytes) : Option Record :=
  if stripCr text = [] then none else decode (stripCr text)

theorem handleLine_offered (source : IngestSource Record) (text : Bytes) :
    (handleLine decode source text).offered = source.offered ++ (recordOfLine decode text).toList := by
  unfold handleLine recordOfLine
  by_cases hempty : stripCr text = []
  · simp [hempty]
  · cases hd : decode (stripCr text) <;> simp [hempty, hd]

/-- the records which were offered are those of the lines which were handled -/
def Recorded (decode : Bytes → Option Record) (source : IngestSource Record) : Prop :=
  source.offered = source.handled.filterMap (recordOfLine decode)

theorem Recorded.handleLine {source : IngestSource Record} (h : Recorded decode source) (text : Bytes) :
    Recorded decode (handleLine decode source text) := by
  unfold Recorded at h ⊢
  rw [handleLine_offered, (handleLine_spec decode source text).1, h, List.filterMap_append]
  cases hr : recordOfLine decode text <;> simp [hr]

theorem Recorded.foldl {source : IngestSource Record} (h : Recorded decode source) (ls : List Bytes) :
    Recorded decode (ls.foldl (Otelfwd.handleLine decode) source) := by
  induction ls generalizing source with
  | nil => exact h
  | cons l ls ih => exact ih (h.handleLine l)

theorem Recorded.processBuffer {source : IngestSource Record} (h : Recorded decode source) (client : IngestClient)
    (eof : Bool) : Recorded decode (processBuffer decode source client eof).1 := by
  have hlines : Recorded decode (handleLines decode source client).1 := by
    rw [handleLines_eq]
    split_ifs
    · split
      · exact h
      · exact h.foldl _
    · exact h.foldl _
  unfold Otelfwd.processBuffer
  generalize handleLines decode source client = state at hlines
  obtain ⟨source, client⟩ := state
  dsimp only
  split_ifs
  · unfold finish
    split_ifs
    · exact hlines.handleLine _
    · exact hlines
  · unfold limit
    split_ifs
    · exact hlines
    · exact hlines
    · exact hlines

/-- the lines of a part of a stream, and the piece at its end -/
theorem lines_front {sent received : Bytes} (h : received <+: sent) : lines nl received <+: lines nl sent ∧
    ((∃ l ∈ lines nl sent, rest nl received <+: l) ∨ rest nl received <+: rest nl sent) := by
  obtain ⟨more, rfl⟩ := h
  have hlines : lines nl (received ++ more) = _ := lines_append received more
  have hrest : rest nl (received ++ more) = _ := rest_append received more
  obtain ⟨hpieces, hpiece⟩ := lines_piece (not_mem_rest nl received) more
  rw [hlines, hrest]
  refine ⟨List.prefix_append _ _, ?_⟩
  cases hmore : lines nl more with
  | nil =>
    rw [hmore] at hpiece
    rw [hpiece]
    exact Or.inr (List.prefix_append _ _)
  | cons l ls =>
    rw [hmore] at hpieces
    refine Or.inl ⟨rest nl received ++ l, ?_, List.prefix_append _ _⟩
    rw [hpieces]
    exact List.mem_append_right _ List.mem_cons_self

/-- a line of JSON: one object, up to its brace -/
structure EventLine (line : Bytes) : Prop where
  object : ∃ members, Json.parse line = some (.object members)
  brace : line.getLast? = some 125
  noNul : 0 ∉ line
  short : line.length ≤ maxLineBytes

/-- the decoder takes nothing but JSON, as far as it sees the whole text -/
def TakesJson (decode : Bytes → Option Record) : Prop :=
  ∀ text record, 0 ∉ text → decode text = some record → (Json.parse text).isSome = true

theorem EventLine.ne_nil {line : Bytes} (h : EventLine line) : line ≠ [] := by
  intro hnil
  have hbrace := h.brace
  rw [hnil] at hbrace
  cases hbrace

theorem EventLine.stripCr {line : Bytes} (h : EventLine line) : FileReader.stripCr line = line := by
  unfold FileReader.stripCr
  rw [h.brace, if_neg (by decide)]

theorem EventLine.recordOfLine {line : Bytes} (h : EventLine line) :
    Otelfwd.recordOfLine decode line = decode line := by
  unfold Otelfwd.recordOfLine
  rw [h.stripCr, if_neg h.ne_nil]

theorem stripCr_front (text : Bytes) : stripCr text <+: text := by
  unfold stripCr
  split_ifs
  · exact List.dropLast_prefix text
  · exact List.prefix_refl text

/-- **A line which is cut is no record.** -/
theorem EventLine.cut {line piece : Bytes} (h : EventLine line) (hdecode : TakesJson decode)
    (hpiece : piece <+: line) (hne : piece ≠ line) : Otelfwd.recordOfLine decode piece = none := by
  unfold Otelfwd.recordOfLine
  split_ifs with hempty
  · rfl
  cases hd : decode (FileReader.stripCr piece) with
  | none => rfl
  | some record =>
    exfalso
    have hfront := (stripCr_front piece).trans hpiece
    have hparsed := hdecode _ _ (fun hmem => h.noNul (hfront.subset hmem)) hd
    obtain ⟨more, hmore⟩ := hfront
    obtain ⟨members, hobject⟩ := h.object
    rcases List.eq_nil_or_concat more with rfl | ⟨back, b, rfl⟩
    · -- nothing is missing, and nothing was taken from the end
      rw [List.append_nil] at hmore
      have hlen := (stripCr_front piece).length_le
      rw [hmore] at hlen
      exact hne (hpiece.eq_of_length (hpiece.length_le.antisymm hlen))
    · have hbrace := h.brace
      rw [← hmore, List.concat_eq_append, ← List.append_assoc, List.getLast?_concat, Option.some.injEq] at hbrace
      rw [← hmore, List.concat_eq_append, ← List.append_assoc, hbrace] at hobject
      rw [Json.parse_cut hobject] at hparsed
      cases hparsed

/-! ## From the sender to the queue -/

section Wire

variable (d : Durable) (t : IngestThread Record)

/-- what a connection of the input has delivered -/
def received (k : ℕ) : Bytes := (chunksOf t.reads k).flatten

/-- the lines which a connection has delivered as a whole -/
def arrived (k : ℕ) : List Bytes := lines nl (received t k)

/-- the connection ended behind a line and in front of its new line -/
def doubled (k : ℕ) : List Bytes :=
  if closedBy t.reads k = true ∧ rest nl (received t k) ∈ d.taken then [rest nl (received t k)] else []

/-- the `k`-th one of `names` is the `k`-th connection of the sender. It has delivered what was sent, up to some
point -/
def Wired (names : List ℕ) : Prop := List.Forall₂ (fun conn k => received t k <+: conn) d.line.conns names

end Wire

variable {d : Durable} {t : IngestThread Record} {names : List ℕ}

theorem Wired.exists (h : Wired d t names) {k : ℕ} (hk : k ∈ names) : ∃ conn ∈ d.line.conns, received t k <+: conn := by
  unfold Wired at h
  generalize d.line.conns = conns at h ⊢
  induction h with
  | nil => exact absurd hk List.not_mem_nil
  | cons hr _ ih =>
    rcases List.mem_cons.1 hk with rfl | hk
    · exact ⟨_, List.mem_cons_self, hr⟩
    · obtain ⟨conn, hconn, hpre⟩ := ih hk
      exact ⟨conn, List.mem_cons_of_mem _ hconn, hpre⟩

theorem Wired.sublist (h : Wired d t names) :
    (names.flatMap (arrived t)).Sublist (d.line.conns.flatMap (lines nl)) := by
  unfold Wired at h
  generalize d.line.conns = conns at h ⊢
  induction h with
  | nil => exact List.Sublist.refl _
  | cons hr _ ih =>
    rw [List.flatMap_cons, List.flatMap_cons]
    exact (lines_front hr).1.sublist.append ih

end DominoLogForwarder.Otelfwd
