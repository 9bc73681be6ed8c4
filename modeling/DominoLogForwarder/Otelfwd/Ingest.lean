/-
The socket input of `otelfwd` (`otelfwd.cpp`): a connection delivers bytes in any pieces, and `IngestProcessBuffer` cuts
them into lines.

`IngestClient` is a connection, `IngestSource` what it has in common with the others: the counter of invalid lines, and
the queue, of which only the records are kept which were offered to it. `DecodeFlatRecord` is a parameter: whether a
line is a record depends on nothing but the line.

`handled` and `discarded` are the history: the lines which were given to `IngestHandleLine`, and how many were too
long. A line is cut off as too long when a receive ends inside of it, so this depends on the pieces. `CutInside` says
when it does not.
-/
import DominoLogForwarder.FileReader.Split

namespace DominoLogForwarder.Otelfwd

open Lines
open FileReader (Bytes nl stripCr)

/-- `OTELFWD_MAX_LINE_BYTES` -/
def maxLineBytes : ℕ := 1024 * 1024

/-! ## The code -/

structure IngestClient where
  buffer : Bytes := []
  /-- the rest of a line which is too long is skipped -/
  discarding : Bool := false
deriving DecidableEq, Repr

structure IngestSource (Record : Type) where
  invalid : ℕ := 0
  offered : List Record := []
  handled : List Bytes := []
  discarded : ℕ := 0

variable {Record : Type} (decode : Bytes → Option Record)

/-- `IngestHandleLine` -/
def handleLine (source : IngestSource Record) (text : Bytes) : IngestSource Record :=
  let source := { source with handled := source.handled ++ [text] }
  let line := stripCr text
  if line = [] then source
  else
    match decode line with
    | none => { source with invalid := source.invalid + 1 }
    | some record => { source with offered := source.offered ++ [record] }

/-- the loop over the lines of the buffer -/
def handleLines (source : IngestSource Record) (client : IngestClient) : IngestSource Record × IngestClient :=
  match h : find nl client.buffer with
  | none => (source, client)
  | some pos =>
    let rest := client.buffer.drop (pos + 1)
    if client.discarding then handleLines source ⟨rest, false⟩
    else handleLines (handleLine decode source (client.buffer.take pos)) ⟨rest, false⟩
termination_by client.buffer.length
decreasing_by
  all_goals
    obtain ⟨l, ys, heq, hlen, -⟩ := find_eq_some h
    rw [heq, ← hlen]
    simp only [List.drop_append, List.length_append, List.length_drop, List.length_cons]
    omega

/-- the part of `IngestProcessBuffer` behind the loop, at the end of the connection -/
def finish (source : IngestSource Record) (client : IngestClient) : IngestSource Record × IngestClient :=
  if client.discarding = false ∧ client.buffer ≠ [] then
    (handleLine decode source client.buffer, ⟨[], client.discarding⟩)
  else (source, ⟨[], client.discarding⟩)

/-- the part of `IngestProcessBuffer` behind the loop, when more can come -/
def limit (source : IngestSource Record) (client : IngestClient) : IngestSource Record × IngestClient :=
  if client.discarding then (source, ⟨[], true⟩)
  else if maxLineBytes < client.buffer.length then
    ({ source with invalid := source.invalid + 1, discarded := source.discarded + 1 }, ⟨[], true⟩)
  else (source, client)

def processBuffer (source : IngestSource Record) (client : IngestClient) (eof : Bool) :
    IngestSource Record × IngestClient :=
  let (source, client) := handleLines decode source client
  if eof then finish decode source client else limit source client

/-- a chunk was received -/
def receive (state : IngestSource Record × IngestClient) (chunk : Bytes) : IngestSource Record × IngestClient :=
  processBuffer decode state.1 { state.2 with buffer := state.2.buffer ++ chunk } false

/-- the receive loop, for one connection. `eof`: the sender closed it. Otherwise it is still open, or it failed -/
def serve (chunks : List Bytes) (eof : Bool) : IngestSource Record :=
  let state := chunks.foldl (receive decode) ({}, {})
  if eof then (processBuffer decode state.1 state.2 true).1 else state.1

/-! ## The lines of a stream -/

/-- the lines of a connection. The last one has no new line, it counts when the sender closed the connection -/
def streamLines (stream : Bytes) (eof : Bool) : List Bytes :=
  lines nl stream ++ if eof ∧ rest nl stream ≠ [] then [rest nl stream] else []

def short (l : Bytes) : Bool := decide (l.length ≤ maxLineBytes)

/-- the lines which are not records -/
def badLines (ls : List Bytes) : ℕ := ls.countP fun l => decide (stripCr l ≠ []) && (decode (stripCr l)).isNone

/-- how many lines of the stream are too long, the last one included if it is too long already -/
def longLines (stream : Bytes) : ℕ :=
  (lines nl stream).countP (fun l => !short l) + if short (rest nl stream) then 0 else 1

/-- where the receives ended -/
def Border (chunks : List Bytes) (b : ℕ) : Prop := ∃ k, b = (chunks.take k).flatten.length

/-- a receive ended inside of every line `l` which is too long, behind its first megabyte. `ls` are the lines before
it -/
def CutInside (chunks : List Bytes) : Prop :=
  ∀ ls l, ls ++ [l] <+: lines nl chunks.flatten → maxLineBytes < l.length →
    ∃ b, Border chunks b ∧ (joinLines nl ls).length + maxLineBytes < b ∧ b ≤ (joinLines nl ls).length + l.length

/-! ## A call -/

variable {decode}

/-- the loop handles every line of the buffer, but the first one when it is skipped -/
theorem handleLines_eq (source : IngestSource Record) (client : IngestClient) : handleLines decode source client =
    if client.discarding then
      match lines nl client.buffer with
      | [] => (source, client)
      | _ :: ls => (ls.foldl (handleLine decode) source, ⟨rest nl client.buffer, false⟩)
    else ((lines nl client.buffer).foldl (handleLine decode) source, ⟨rest nl client.buffer, false⟩) := by
  -- induction on the buffer, a line at a time
  induction hn : client.buffer.length using Nat.strong_induction_on generalizing source client with
  | _ n ih =>
    rw [handleLines]
    split
    · rename_i h
      have hno := find_eq_none.1 h
      rw [lines, rest, cut_of_not_mem hno]
      obtain ⟨buffer, discarding⟩ := client
      cases discarding <;> rfl
    · rename_i pos h
      obtain ⟨l, ys, heq, rfl, hl⟩ := find_eq_some h
      have hdrop : client.buffer.drop (l.length + 1) = ys := by
        rw [heq, List.drop_append, List.drop_eq_nil_of_le (Nat.le_succ _), Nat.add_sub_cancel_left]
        rfl
      have htake : client.buffer.take l.length = l := by
        rw [heq, List.take_left' rfl]
      have hlt : ys.length < n := by
        rw [← hn, heq, List.length_append, List.length_cons]
        omega
      have hcut : lines nl client.buffer = l :: lines nl ys ∧ rest nl client.buffer = rest nl ys := by
        rw [lines, rest, heq, cut_line hl]
        exact ⟨rfl, rfl⟩
      dsimp only
      rw [hdrop, htake, ih _ hlt _ ⟨ys, false⟩ rfl, ih _ hlt _ ⟨ys, false⟩ rfl, hcut.1, hcut.2]
      rfl

/-- what comes behind a piece of a line -/
theorem lines_piece {r : Bytes} (hr : nl ∉ r) (x : Bytes) :
    lines nl (r ++ x) = (match lines nl x with
      | [] => []
      | l :: ls => (r ++ l) :: ls) ∧
    rest nl (r ++ x) = match lines nl x with
      | [] => r ++ x
      | _ :: _ => rest nl x := by
  cases hf : find nl x with
  | none =>
    have hno := find_eq_none.1 hf
    have hall : nl ∉ r ++ x := by
      rw [List.mem_append]
      exact fun h => h.elim hr hno
    rw [lines, rest, cut_of_not_mem hall, lines, cut_of_not_mem hno]
    exact ⟨rfl, rfl⟩
  | some n =>
    obtain ⟨l, ys, heq, -, hl⟩ := find_eq_some hf
    have hall : nl ∉ r ++ l := by
      rw [List.mem_append]
      exact fun h => h.elim hr hl
    have hx : lines nl x = l :: lines nl ys ∧ rest nl x = rest nl ys := by
      rw [lines, rest, heq, cut_line hl]
      exact ⟨rfl, rfl⟩
    have hrx : r ++ x = (r ++ l) ++ nl :: ys := by
      rw [heq, List.append_assoc]
    rw [hx.1, hx.2, hrx, lines, rest, cut_line hall]
    exact ⟨rfl, rfl⟩

/-- the lines which are handled when `x` comes behind the piece `r` of a line -/
def newLines (r x : Bytes) : List Bytes := if short r then lines nl (r ++ x) else (lines nl (r ++ x)).tail

/-- what is known of a connection which received the stream -/
structure Connection (decode : Bytes → Option Record) (stream : Bytes) (source : IngestSource Record)
    (client : IngestClient) : Prop where
  discarding : client.discarding = !short (rest nl stream)
  buffer : client.buffer = if short (rest nl stream) then rest nl stream else []
  handled : source.handled.filter short = (lines nl stream).filter short
  discarded : source.handled.length + source.discarded =
    (lines nl stream).length + if short (rest nl stream) then 0 else 1
  invalid : source.invalid = source.discarded + badLines decode source.handled

theorem handleLine_spec (decode : Bytes → Option Record) (source : IngestSource Record) (l : Bytes) :
    (handleLine decode source l).handled = source.handled ++ [l] ∧
    (handleLine decode source l).discarded = source.discarded ∧
    (handleLine decode source l).invalid = source.invalid + badLines decode [l] := by
  unfold handleLine badLines
  by_cases hempty : stripCr l = []
  · simp [hempty]
  · cases hd : decode (stripCr l) <;> simp [hempty, hd]

theorem foldl_handleLine (decode : Bytes → Option Record) (ls : List Bytes) (source : IngestSource Record) :
    (ls.foldl (handleLine decode) source).handled = source.handled ++ ls ∧
    (ls.foldl (handleLine decode) source).discarded = source.discarded ∧
    (ls.foldl (handleLine decode) source).invalid = source.invalid + badLines decode ls := by
  induction ls generalizing source with
  | nil => simp [badLines]
  | cons l ls ih =>
    obtain ⟨h₁, h₂, h₃⟩ := handleLine_spec decode source l
    obtain ⟨i₁, i₂, i₃⟩ := ih (handleLine decode source l)
    refine ⟨?_, i₂.trans h₂, ?_⟩
    · rw [List.foldl_cons, i₁, h₁, List.append_assoc]
      rfl
    · rw [List.foldl_cons, i₃, h₃]
      simp only [badLines, List.countP_cons, List.countP_nil]
      omega

/-- the part behind the loop, when the rest `r` of the stream is in the buffer -/
theorem limit_rest (source : IngestSource Record) (r : Bytes) : limit source ⟨r, false⟩ =
    if short r then (source, ⟨r, false⟩)
    else ({ source with invalid := source.invalid + 1, discarded := source.discarded + 1 }, ⟨[], true⟩) := by
  unfold limit short
  by_cases hr : r.length ≤ maxLineBytes
  · simp [hr, Nat.not_lt.2 hr]
  · simp [hr, Nat.lt_of_not_le hr]

theorem not_short_append {r : Bytes} (h : short r = false) (x : Bytes) : short (r ++ x) = false := by
  unfold short at *
  simp only [decide_eq_false_iff_not, List.length_append] at *
  omega

/-- the rest of the stream is in the buffer, behind the lines `new` which were handled -/
theorem Connection.limit {source source₁ : IngestSource Record} {client : IngestClient} {stream stream' : Bytes}
    {new : List Bytes} (h : Connection decode stream source client)
    (hsource : source₁ = new.foldl (handleLine decode) source)
    (hfilter : (source.handled ++ new).filter short = (lines nl stream').filter short)
    (hlength : source.handled.length + new.length + source.discarded = (lines nl stream').length) :
    Connection decode stream' (Otelfwd.limit source₁ ⟨rest nl stream', false⟩).1
      (Otelfwd.limit source₁ ⟨rest nl stream', false⟩).2 ∧
      (Otelfwd.limit source₁ ⟨rest nl stream', false⟩).1.handled = source.handled ++ new := by
  obtain ⟨hhandled, hdiscarded, hinvalid⟩ := foldl_handleLine decode new source
  rw [← hsource] at hhandled hdiscarded hinvalid
  have hbad : source₁.invalid = source₁.discarded + badLines decode source₁.handled := by
    rw [hinvalid, hdiscarded, hhandled, h.invalid, badLines, badLines, badLines, List.countP_append, Nat.add_assoc]
  have hlength' : source₁.handled.length + source₁.discarded = (lines nl stream').length := by
    rw [hhandled, hdiscarded, List.length_append]
    exact hlength
  rw [limit_rest]
  cases hshort : short (rest nl stream') with
  | true =>
    simp only [if_true]
    refine ⟨⟨?_, ?_, ?_, ?_, hbad⟩, hhandled⟩
    · rw [hshort]
      rfl
    · rw [hshort]
      rfl
    · rw [hhandled, hfilter]
    · rw [hshort]
      exact hlength'
  | false =>
    simp only [Bool.false_eq_true, if_false]
    refine ⟨⟨?_, ?_, ?_, ?_, ?_⟩, hhandled⟩
    · rw [hshort]
      rfl
    · rw [hshort]
      rfl
    · exact (congrArg (List.filter short) hhandled).trans hfilter
    · rw [hshort, ← hlength', ← Nat.add_assoc]
      rfl
    · simp only [hbad]
      omega

/-- **A receive**: the lines are handled which end in the chunk, but the first one when its start was too long
already. -/
theorem receive_spec {stream : Bytes} {source : IngestSource Record} {client : IngestClient}
    (h : Connection decode stream source client) (x : Bytes) :
    Connection decode (stream ++ x) (receive decode (source, client) x).1 (receive decode (source, client) x).2 ∧
      (receive decode (source, client) x).1.handled = source.handled ++ newLines (rest nl stream) x := by
  have hr := not_mem_rest nl stream
  have hlines : lines nl (stream ++ x) = _ := lines_append stream x
  have hrest : rest nl (stream ++ x) = _ := rest_append stream x
  obtain ⟨hpieces, hpiece⟩ := lines_piece hr x
  obtain ⟨buffer, discarding⟩ := client
  obtain ⟨hdiscarding, hbuffer, hhandled, hdiscarded, hinvalid⟩ := h
  unfold receive processBuffer
  rw [handleLines_eq]
  cases hshort : short (rest nl stream) with
  | true =>
    rw [hshort] at hdiscarding hbuffer hdiscarded
    have hd : discarding = false := hdiscarding
    have hb : buffer = rest nl stream := hbuffer
    subst hd hb
    simp only [Bool.false_eq_true, if_false]
    rw [← hrest]
    unfold newLines
    rw [hshort, if_pos rfl]
    have hconn : Connection decode stream source ⟨rest nl stream, false⟩ := by
      refine ⟨?_, ?_, hhandled, ?_, hinvalid⟩
      · rw [hshort]
        rfl
      · rw [hshort]
        rfl
      · rw [hshort]
        exact hdiscarded
    apply hconn.limit rfl
    · rw [List.filter_append, hhandled, hlines, List.filter_append]
    · have hsum : source.handled.length + source.discarded = (lines nl stream).length := hdiscarded
      rw [hlines, List.length_append]
      omega
  | false =>
    -- the start of the line is gone already
    rw [hshort] at hdiscarding hbuffer hdiscarded
    have hd : discarding = true := hdiscarding
    have hb : buffer = [] := hbuffer
    subst hd hb
    have hconn : Connection decode stream source ⟨[], true⟩ := by
      refine ⟨?_, ?_, hhandled, ?_, hinvalid⟩
      · rw [hshort]
        rfl
      · rw [hshort]
        rfl
      · rw [hshort]
        exact hdiscarded
    have hsum : source.handled.length + source.discarded = (lines nl stream).length + 1 := hdiscarded
    unfold newLines
    rw [hshort, if_neg Bool.false_ne_true, hpieces, List.nil_append, if_pos rfl]
    cases hx : lines nl x with
    | nil =>
      rw [hx] at hpieces hpiece
      have hlong : short (rest nl (stream ++ x)) = false := by
        rw [hrest, hpiece]
        exact not_short_append hshort x
      have hsame : lines nl (stream ++ x) = lines nl stream := by
        rw [hlines, hpieces, List.append_nil]
      have hlimit : limit source ⟨x, true⟩ = (source, ⟨[], true⟩) := rfl
      simp only [Bool.false_eq_true, if_false, hlimit]
      refine ⟨⟨?_, ?_, ?_, ?_, hinvalid⟩, (List.append_nil _).symm⟩
      · rw [hlong]
        rfl
      · rw [hlong]
        rfl
      · rw [hsame, hhandled]
      · rw [hlong, hsame]
        exact hdiscarded
    | cons l ls =>
      rw [hx] at hpieces hpiece
      have hrest' : rest nl (stream ++ x) = rest nl x := hrest.trans hpiece
      have hlines' : lines nl (stream ++ x) = lines nl stream ++ (rest nl stream ++ l) :: ls := by
        rw [hlines, hpieces]
      simp only [Bool.false_eq_true, if_false, List.tail_cons]
      rw [← hrest']
      apply hconn.limit rfl
      · rw [hlines', List.filter_append, List.filter_append, hhandled,
          List.filter_cons_of_neg (by rw [not_short_append hshort]; exact Bool.false_ne_true)]
      · rw [hlines', List.length_append, List.length_cons]
        omega

/-! ## Where the receives end -/

theorem border_le {chunks : List Bytes} {b : ℕ} (h : Border chunks b) : b ≤ chunks.flatten.length := by
  obtain ⟨k, rfl⟩ := h
  calc (chunks.take k).flatten.length
      ≤ (chunks.take k).flatten.length + (chunks.drop k).flatten.length := Nat.le_add_right _ _
    _ = chunks.flatten.length := by
      rw [← List.length_append, ← List.flatten_append, List.take_append_drop]

theorem border_length (chunks : List Bytes) : Border chunks chunks.flatten.length :=
  ⟨chunks.length, by rw [List.take_length]⟩

theorem border_append {chunks : List Bytes} {x : Bytes} {b : ℕ} :
    Border (chunks ++ [x]) b ↔ Border chunks b ∨ b = (chunks.flatten ++ x).length := by
  constructor
  · rintro ⟨k, rfl⟩
    by_cases hk : k ≤ chunks.length
    · exact .inl ⟨k, by rw [List.take_append_of_le_length hk]⟩
    · right
      rw [List.take_of_length_le (by simp only [List.length_append, List.length_singleton]; omega)]
      simp only [List.flatten_append, List.flatten_singleton]
  · rintro (⟨k, rfl⟩ | rfl)
    · by_cases hk : k ≤ chunks.length
      · exact ⟨k, by rw [List.take_append_of_le_length hk]⟩
      · refine ⟨chunks.length, ?_⟩
        rw [List.take_append_of_le_length le_rfl, List.take_length, List.take_of_length_le (by omega)]
    · refine ⟨(chunks ++ [x]).length, ?_⟩
      rw [List.take_length]
      simp only [List.flatten_append, List.flatten_singleton]

/-- the lines behind a part of the stream -/
theorem concat_prefix_append {α : Type} {as bs ls : List α} {l : α} (h : ls ++ [l] <+: as ++ bs) :
    ls ++ [l] <+: as ∨ ∃ cs, ls = as ++ cs ∧ cs ++ [l] <+: bs := by
  rcases List.prefix_or_prefix_of_prefix h (List.prefix_append as bs) with h' | h'
  · exact .inl h'
  rcases List.prefix_concat_iff.1 h' with h' | ⟨cs, rfl⟩
  · rw [h']
    exact .inl (List.prefix_refl _)
  · right
    refine ⟨cs, rfl, ?_⟩
    rw [List.append_assoc] at h
    exact (List.prefix_append_right_inj as).1 h

theorem mem_newLines {r x l : Bytes} (hl : l ∈ newLines r x) : ∃ ls, ls ++ [l] <+: lines nl (r ++ x) ∧
    (ls = [] → short r = true) := by
  unfold newLines at hl
  cases hr : short r with
  | true =>
    rw [hr, if_pos rfl] at hl
    obtain ⟨ls, bs, heq⟩ := List.append_of_mem hl
    refine ⟨ls, ⟨bs, ?_⟩, fun _ => rfl⟩
    rw [heq, List.append_assoc]
    rfl
  | false =>
    rw [hr, if_neg Bool.false_ne_true] at hl
    cases hlines : lines nl (r ++ x) with
    | nil =>
      rw [hlines] at hl
      exact absurd hl List.not_mem_nil
    | cons first others =>
      rw [hlines, List.tail_cons] at hl
      obtain ⟨ls, bs, heq⟩ := List.append_of_mem hl
      refine ⟨first :: ls, ⟨bs, ?_⟩, fun h => absurd h (List.cons_ne_nil _ _)⟩
      rw [heq, List.cons_append, List.cons_append, List.append_assoc]
      rfl

/-- the first line which ends in a chunk starts with what was left of the chunks before -/
theorem prefix_first {r x : Bytes} (hr : nl ∉ r) {l : Bytes} {ls : List Bytes} (h : l :: ls <+: lines nl (r ++ x)) :
    r.length ≤ l.length := by
  rw [(lines_piece hr x).1] at h
  cases hx : lines nl x with
  | nil =>
    rw [hx] at h
    exact absurd (List.prefix_nil.1 h) (List.cons_ne_nil _ _)
  | cons l' ls' =>
    rw [hx] at h
    rw [(List.cons_prefix_cons.1 h).1, List.length_append]
    exact Nat.le_add_right _ _

theorem joinLines_prefix_length {ls : List Bytes} {l stream : Bytes} (h : ls ++ [l] <+: lines nl stream) :
    (joinLines nl ls).length + l.length < stream.length := by
  obtain ⟨more, heq⟩ := h
  have hstream := congrArg List.length (joinLines_lines nl stream)
  rw [← heq] at hstream
  simp only [joinLines_append, joinLines_cons, joinLines_nil, List.length_append, List.length_cons,
    List.length_nil] at hstream
  omega

theorem joinLines_lines_length (stream : Bytes) :
    (joinLines nl (lines nl stream)).length + (rest nl stream).length = stream.length := by
  rw [← List.length_append, joinLines_lines]

theorem short_iff {l : Bytes} : short l = true ↔ l.length ≤ maxLineBytes := decide_eq_true_iff

theorem short_eq_false_iff {l : Bytes} : short l = false ↔ maxLineBytes < l.length := by
  rw [← Nat.not_le, ← short_iff, Bool.not_eq_true]

/-- **One chunk more**: the lines which are handled in it are short when every line which is too long was cut inside. -/
theorem cutInside_append {chunks : List Bytes} {x : Bytes} : CutInside (chunks ++ [x]) ↔
    CutInside chunks ∧ ∀ l ∈ newLines (rest nl chunks.flatten) x, short l = true := by
  have hflatten : (chunks ++ [x]).flatten = chunks.flatten ++ x := by
    simp only [List.flatten_append, List.flatten_singleton]
  have hr := not_mem_rest nl chunks.flatten
  have hlength := joinLines_lines_length chunks.flatten
  constructor
  · intro h
    -- the border is inside of a line of the stream, so it is not its end
    have hbefore : ∀ ls l, ls ++ [l] <+: lines nl (chunks.flatten ++ x) → maxLineBytes < l.length →
        ∃ b, Border chunks b ∧ (joinLines nl ls).length + maxLineBytes < b ∧
          b ≤ (joinLines nl ls).length + l.length := by
      intro ls l hpre hlong
      have hinside := joinLines_prefix_length hpre
      obtain ⟨b, hb, hlow, hhigh⟩ := h ls l (by rw [hflatten]; exact hpre) hlong
      rcases border_append.1 hb with hb | rfl
      · exact ⟨b, hb, hlow, hhigh⟩
      · omega
    constructor
    · intro ls l hpre hlong
      apply hbefore ls l _ hlong
      rw [lines_append]
      exact hpre.trans (List.prefix_append _ _)
    · intro l hl
      by_contra hlong
      rw [Bool.not_eq_true, short_eq_false_iff] at hlong
      obtain ⟨ls, hpre, hshort⟩ := mem_newLines hl
      obtain ⟨b, hb, hlow, -⟩ := hbefore (lines nl chunks.flatten ++ ls) l (by
        rw [lines_append, List.append_assoc]
        exact (List.prefix_append_right_inj _).2 hpre) hlong
      have hle := border_le hb
      rw [joinLines_append, List.length_append] at hlow
      cases ls with
      | nil =>
        have hrest := short_iff.1 (hshort rfl)
        rw [joinLines_nil, List.length_nil] at hlow
        omega
      | cons first others =>
        have hfirst : (rest nl chunks.flatten).length ≤ first.length := prefix_first hr hpre
        rw [joinLines_cons, List.length_append] at hlow
        omega
  · rintro ⟨hcut, hnew⟩ ls l hpre hlong
    rw [hflatten, lines_append] at hpre
    rcases concat_prefix_append hpre with hold | ⟨cs, rfl, hline⟩
    · obtain ⟨b, hb, hinside⟩ := hcut ls l hold hlong
      exact ⟨b, border_append.2 (.inl hb), hinside⟩
    · -- `l` is not handled, so its start was too long at the end of the chunks before
      have hl : l ∉ newLines (rest nl chunks.flatten) x := by
        intro hl
        have hshort := short_iff.1 (hnew l hl)
        omega
      have hmem : l ∈ lines nl (rest nl chunks.flatten ++ x) := hline.subset List.mem_concat_self
      unfold newLines at hl
      cases hshort : short (rest nl chunks.flatten) with
      | true =>
        rw [hshort, if_pos rfl] at hl
        exact absurd hmem hl
      | false =>
        rw [hshort, if_neg Bool.false_ne_true] at hl
        cases cs with
        | nil =>
          have hfirst : (rest nl chunks.flatten).length ≤ l.length := prefix_first hr hline
          have hrest := short_eq_false_iff.1 hshort
          refine ⟨chunks.flatten.length, border_append.2 (.inl (border_length _)), ?_, ?_⟩
          all_goals
            rw [List.append_nil]
            omega
        | cons first others =>
          obtain ⟨more, heq⟩ := hline
          rw [← heq] at hl
          exact absurd (by simp) hl

/-! ## A connection -/

/-- **What was received**: the lines which were handled are short when every line which is too long was cut inside. -/
theorem receives (decode : Bytes → Option Record) (chunks : List Bytes) :
    Connection decode chunks.flatten (chunks.foldl (receive decode) ({}, {})).1
      (chunks.foldl (receive decode) ({}, {})).2 ∧
    ((∀ l ∈ (chunks.foldl (receive decode) ({}, {})).1.handled, short l = true) ↔ CutInside chunks) := by
  -- induction on the chunks, the last one is the step
  induction chunks using List.reverseRecOn with
  | nil =>
    refine ⟨⟨rfl, rfl, rfl, rfl, rfl⟩, fun _ ls l hpre => ?_, fun _ l hl => absurd hl List.not_mem_nil⟩
    have hnil : lines nl ([] : List Bytes).flatten = [] := rfl
    rw [hnil, List.prefix_nil] at hpre
    exact absurd hpre (List.append_ne_nil_of_right_ne_nil _ (List.cons_ne_nil _ _))
  | append_singleton chunks x ih =>
    obtain ⟨hconn, hcut⟩ := ih
    obtain ⟨hconn', hhandled⟩ := receive_spec hconn x
    rw [List.foldl_append, List.foldl_cons, List.foldl_nil]
    refine ⟨?_, ?_⟩
    · rw [List.flatten_append, List.flatten_singleton]
      exact hconn'
    · rw [hhandled, cutInside_append, ← hcut]
      simp only [List.mem_append, or_imp, forall_and]

/-- the end of the connection: the rest is a line, when it is not too long -/
theorem finish_spec {stream : Bytes} {source : IngestSource Record} {client : IngestClient}
    (h : Connection decode stream source client) : (processBuffer decode source client true).1 =
    if short (rest nl stream) ∧ rest nl stream ≠ [] then handleLine decode source (rest nl stream) else source := by
  have hno : find nl client.buffer = none := by
    apply find_eq_none.2
    rw [h.buffer]
    split
    · exact not_mem_rest nl stream
    · exact List.not_mem_nil
  have hloop : handleLines decode source client = (source, client) := by
    rw [handleLines]
    split
    · rfl
    · rename_i pos hpos
      rw [hno] at hpos
      cases hpos
  unfold processBuffer
  rw [hloop]
  unfold finish
  simp only [if_true]
  rw [h.discarding, h.buffer]
  cases short (rest nl stream) with
  | true => by_cases hempty : rest nl stream = [] <;> simp [hempty]
  | false => simp

/-- what is handled at the end of the connection -/
def lastLine (stream : Bytes) (eof : Bool) : List Bytes :=
  if eof ∧ short (rest nl stream) ∧ rest nl stream ≠ [] then [rest nl stream] else []

theorem short_lastLine {stream l : Bytes} {eof : Bool} (h : l ∈ lastLine stream eof) : short l = true := by
  unfold lastLine at h
  split at h
  · rename_i hrest
    rw [List.mem_singleton.1 h]
    exact hrest.2.1
  · exact absurd h List.not_mem_nil

theorem filter_streamLines (stream : Bytes) (eof : Bool) :
    (streamLines stream eof).filter short = (lines nl stream).filter short ++ lastLine stream eof := by
  unfold streamLines lastLine
  rw [List.filter_append]
  cases hshort : short (rest nl stream) with
  | true => by_cases h : eof ∧ rest nl stream ≠ [] <;> simp_all
  | false => by_cases h : eof ∧ rest nl stream ≠ [] <;> simp_all

/-- **The lines of a connection**: what is handled, and how the invalid lines are counted. -/
theorem serve_spec (decode : Bytes → Option Record) (chunks : List Bytes) (eof : Bool) :
    (serve decode chunks eof).handled.filter short = (streamLines chunks.flatten eof).filter short ∧
    (serve decode chunks eof).handled.length + (serve decode chunks eof).discarded =
      (lines nl chunks.flatten).length + (if short (rest nl chunks.flatten) then 0 else 1) +
        (lastLine chunks.flatten eof).length ∧
    (serve decode chunks eof).invalid =
      (serve decode chunks eof).discarded + badLines decode (serve decode chunks eof).handled ∧
    ((∀ l ∈ (serve decode chunks eof).handled, short l = true) ↔ CutInside chunks) := by
  obtain ⟨hconn, hcut⟩ := receives decode chunks
  have hserve : serve decode chunks eof = (lastLine chunks.flatten eof).foldl (handleLine decode)
      (chunks.foldl (receive decode) ({}, {})).1 := by
    unfold serve lastLine
    cases eof with
    | true =>
      rw [if_pos rfl, finish_spec hconn]
      by_cases h : short (rest nl chunks.flatten) ∧ rest nl chunks.flatten ≠ [] <;> simp [h]
    | false => simp
  obtain ⟨hhandled, hdiscarded, hinvalid⟩ :=
    foldl_handleLine decode (lastLine chunks.flatten eof) (chunks.foldl (receive decode) ({}, {})).1
  rw [← hserve] at hhandled hdiscarded hinvalid
  have hlast : (lastLine chunks.flatten eof).filter short = lastLine chunks.flatten eof :=
    List.filter_eq_self.2 fun l hl => short_lastLine hl
  refine ⟨?_, ?_, ?_, ?_⟩
  · rw [hhandled, List.filter_append, hconn.handled, hlast, filter_streamLines]
  · have hsum := hconn.discarded
    rw [hhandled, hdiscarded, List.length_append]
    omega
  · rw [hinvalid, hdiscarded, hhandled, hconn.invalid, badLines, badLines, badLines, List.countP_append, Nat.add_assoc]
  · rw [hhandled, ← hcut]
    refine ⟨fun h l hl => h l (List.mem_append_left _ hl), fun h l hl => ?_⟩
    rcases List.mem_append.1 hl with hl | hl
    · exact h l hl
    · exact short_lastLine hl

/-- **The socket input does not depend on the pieces**, when every line which is too long was cut inside: the lines of
the stream which are short are handled, each of the others is counted as invalid. -/
theorem pieces_iff (decode : Bytes → Option Record) (chunks : List Bytes) (eof : Bool) :
    ((serve decode chunks eof).handled = (streamLines chunks.flatten eof).filter short ∧
      (serve decode chunks eof).invalid = longLines chunks.flatten +
        badLines decode ((streamLines chunks.flatten eof).filter short)) ↔ CutInside chunks := by
  obtain ⟨hfilter, hlength, hinvalid, hcut⟩ := serve_spec decode chunks eof
  rw [← hcut]
  constructor
  · rintro ⟨hhandled, -⟩ l hl
    rw [hhandled] at hl
    exact (List.mem_filter.1 hl).2
  · intro hshort
    have hhandled : (serve decode chunks eof).handled = (streamLines chunks.flatten eof).filter short := by
      rw [← hfilter, List.filter_eq_self.2 hshort]
    refine ⟨hhandled, ?_⟩
    rw [hinvalid, ← hhandled, Nat.add_right_cancel_iff]
    have hlines : (lines nl chunks.flatten).length = (lines nl chunks.flatten).countP (fun l => !short l) +
        ((lines nl chunks.flatten).filter short).length := by
      rw [← List.countP_eq_length_filter, Nat.add_comm]
      rw [List.length_eq_countP_add_countP short]
      congr 1
      apply List.countP_congr
      intro l _
      simp
    have hall := congrArg List.length (hhandled.trans (filter_streamLines _ _))
    rw [List.length_append] at hall
    unfold longLines
    omega

theorem lines_of_not_mem {c : Bytes} (h : nl ∉ c) : lines nl c = [] ∧ rest nl c = c := by
  rw [lines, rest, cut_of_not_mem h]
  exact ⟨rfl, rfl⟩

theorem lines_one {c : Bytes} (h : nl ∉ c) : lines nl (c ++ [nl]) = [c] := by
  rw [lines, cut_line h]
  rfl

theorem cutInside_of_not_mem {chunks : List Bytes} (h : nl ∉ chunks.flatten) : CutInside chunks := by
  intro ls l hpre
  rw [(lines_of_not_mem h).1, List.prefix_nil] at hpre
  exact absurd hpre (List.append_ne_nil_of_right_ne_nil _ (List.cons_ne_nil _ _))

/-- the line is one byte too long, and its last byte and its new line come in one receive, or in two -/
theorem last_byte {chunks : List Bytes} {a : UInt8} (hno : nl ∉ chunks.flatten) (ha : a ≠ nl)
    (hlength : chunks.flatten.length = maxLineBytes) :
    ¬ CutInside (chunks ++ [[a, nl]]) ∧ CutInside (chunks ++ [[a]] ++ [[nl]]) := by
  have hshort : short chunks.flatten = true := short_iff.2 hlength.le
  have hno' : nl ∉ chunks.flatten ++ [a] := by
    rw [List.mem_append, List.mem_singleton]
    exact fun h => h.elim hno fun h => ha h.symm
  have hlong : short (chunks.flatten ++ [a]) = false := by
    rw [short_eq_false_iff, List.length_append, hlength]
    exact Nat.lt_succ_self _
  have hflatten : (chunks ++ [[a]]).flatten = chunks.flatten ++ [a] := by
    rw [List.flatten_append, List.flatten_singleton]
  have hline : lines nl (chunks.flatten ++ [a, nl]) = [chunks.flatten ++ [a]] := by
    rw [← List.singleton_append, ← List.append_assoc, lines_one hno']
  constructor
  · rw [cutInside_append, (lines_of_not_mem hno).2]
    unfold newLines
    rw [hshort, if_pos rfl, hline]
    rintro ⟨-, h⟩
    rw [h _ (List.mem_singleton_self _)] at hlong
    cases hlong
  · rw [cutInside_append, cutInside_append, hflatten, (lines_of_not_mem hno).2, (lines_of_not_mem hno').2]
    unfold newLines
    rw [hshort, hlong, if_pos rfl, if_neg Bool.false_ne_true, (lines_of_not_mem hno').1, lines_one hno']
    exact ⟨⟨cutInside_of_not_mem hno, fun l hl => absurd hl List.not_mem_nil⟩, fun l hl => absurd hl List.not_mem_nil⟩

/-- a line of `2^20 + 1` bytes. It is handled when its last byte comes with its new line, and discarded when they come
in two receives -/
theorem piece_decides : ∃ chunks chunks' : List Bytes,
    (∀ c ∈ chunks ++ chunks', 1 ≤ c.length ∧ c.length ≤ 65536) ∧ chunks.flatten = chunks'.flatten ∧
    (serve (fun _ => some ()) chunks true).handled ≠ (serve (fun _ => some ()) chunks' true).handled := by
  refine ⟨List.replicate 16 (List.replicate 65536 97) ++ [[97, nl]],
    List.replicate 16 (List.replicate 65536 97) ++ [[97]] ++ [[nl]], ?_, ?_, ?_⟩
  · intro c hc
    simp only [List.mem_append, List.mem_replicate, List.mem_singleton] at hc
    have hblock : 1 ≤ (List.replicate 65536 (97 : UInt8)).length ∧
      (List.replicate 65536 (97 : UInt8)).length ≤ 65536 := by
      rw [List.length_replicate]
      decide
    rcases hc with (⟨-, rfl⟩ | rfl) | (⟨-, rfl⟩ | rfl) | rfl
    · exact hblock
    · decide
    · exact hblock
    · decide
    · decide
  · rw [List.flatten_append, List.flatten_append, List.flatten_append, List.append_assoc]
    rfl
  · have hno : nl ∉ (List.replicate 16 (List.replicate 65536 (97 : UInt8))).flatten := by
      rw [List.flatten_replicate_replicate, List.mem_replicate]
      exact fun h => absurd h.2 (by decide)
    have ha : (97 : UInt8) ≠ nl := by decide
    obtain ⟨hwhole, hcut⟩ := last_byte hno ha (by
      rw [List.flatten_replicate_replicate, List.length_replicate]
      rfl)
    intro heq
    rw [← (serve_spec (fun _ => some ()) _ true).2.2.2, ← heq] at hcut
    rw [← (serve_spec (fun _ => some ()) _ true).2.2.2] at hwhole
    exact hwhole hcut

end DominoLogForwarder.Otelfwd
