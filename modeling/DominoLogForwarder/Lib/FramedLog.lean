/-
A cursor log of byte strings in a file: its entries are stored as frames, one behind the other, with what a write which
was cut off left behind them (`Parses w bs c.entries torn`). Every position of the log is a byte offset in the file.
-/
import DominoLogForwarder.Lib.CursorLog
import DominoLogForwarder.Lib.Framing

namespace FramedLog

open Framing

variable {w : ℕ} {c : CursorLog Bytes} {bs torn : Bytes}

/-! ## Offsets -/

variable (w c) in
/-- where the entry `i` starts in the file -/
def offset (i : ℕ) : ℕ := span w (c.entries.take (i - c.base))

@[simp] theorem offset_read (i j : ℕ) : offset w (c.read j) i = offset w c i := rfl

@[simp] theorem offset_stop (i : ℕ) : offset w c.stop i = offset w c i := rfl

@[simp] theorem offset_accept (i j : ℕ) (x : Bytes) : offset w (c.accept j x) i = offset w c i := rfl

@[simp] theorem offset_again (i : ℕ) (x : Bytes) : offset w (c.again x) i = offset w c i := rfl

@[simp] theorem offset_store (i j : ℕ) : offset w (c.store j) i = offset w c i := rfl

@[simp] theorem offset_base : offset w c c.base = 0 := by simp [offset]

theorem offset_le_base {i : ℕ} (h : i ≤ c.base) : offset w c i = 0 := by
  simp [offset, Nat.sub_eq_zero_of_le h]

theorem entries_getElem? {i : ℕ} (hb : c.base ≤ i) : c.entries[i - c.base]? = c.appended[i]? := by
  rw [CursorLog.entries, List.getElem?_drop]
  congr 1
  omega

theorem length_entries : c.entries.length = c.appended.length - c.base := List.length_drop

theorem offset_succ {i : ℕ} {r : Bytes} (hb : c.base ≤ i) (hr : c.appended[i]? = some r) :
    offset w c (i + 1) = offset w c i + (w + r.length) := by
  rw [← entries_getElem? hb] at hr
  obtain ⟨hlt, hget⟩ := List.getElem?_eq_some_iff.1 hr
  have hsub : i + 1 - c.base = i - c.base + 1 := by omega
  rw [offset, offset, hsub, span_take_succ _ _ hlt, hget]

theorem offset_append (hv : c.Valid) {i : ℕ} (hi : i ≤ c.appended.length) (x : Bytes) :
    offset w (c.append x) i = offset w c i := by
  show span w ((c.append x).entries.take (i - c.base)) = _
  rw [hv.append_entries, List.take_append_of_le_length]
  · rfl
  · rw [length_entries]; omega

theorem offset_end : offset w c c.appended.length = span w c.entries := by
  rw [offset, List.take_of_length_le length_entries.le]

theorem offset_le_end (i : ℕ) : offset w c i ≤ offset w c c.appended.length := by
  rw [offset_end]
  exact span_take_le _ _

section Stored

variable (h : Parses w bs c.entries torn)

include h

theorem offset_le (i : ℕ) : offset w c i ≤ bs.length := by
  rw [h.split, List.length_append, length_encode]
  exact (span_take_le _ _).trans (Nat.le_add_right _ _)

theorem isBoundary_offset {i : ℕ} (hi : i ≤ c.appended.length) : IsBoundary w bs (offset w c i) := by
  rw [h.isBoundary_iff]
  exact ⟨i - c.base, by rw [length_entries]; omega, rfl⟩

/-- different positions are different offsets -/
theorem offset_inj {i j : ℕ} (hi : c.base ≤ i) (hi' : i ≤ c.appended.length) (hj : c.base ≤ j)
    (hj' : j ≤ c.appended.length) (heq : offset w c i = offset w c j) : i = j := by
  have hlen : c.entries.length = c.appended.length - c.base := length_entries
  have := span_take_inj h.fits (j := i - c.base) (k := j - c.base) (by omega) (by omega) heq
  omega

theorem offset_pos {i : ℕ} (hb : c.base < i) (hi : i ≤ c.appended.length) : 0 < offset w c i := by
  refine Nat.pos_of_ne_zero fun h0 => ?_
  have := offset_inj h hb.le hi le_rfl (hb.le.trans hi) (h0.trans offset_base.symm)
  omega

/-- what stands at the offset of a position: its entry -/
theorem parse_entry {i : ℕ} {r : Bytes} (hb : c.base ≤ i) (hr : c.appended[i]? = some r) :
    ∃ rest, parseFrame w (bs.drop (offset w c i)) = some (r, rest) := by
  rw [← entries_getElem? hb] at hr
  obtain ⟨hlt, hget⟩ := List.getElem?_eq_some_iff.1 hr
  have := h.parseFrame_drop (i - c.base)
  rw [dif_pos hlt, hget] at this
  exact ⟨_, this⟩

/-- behind the last entry there is no frame -/
theorem parse_end : parseFrame w (bs.drop (offset w c c.appended.length)) = none := by
  have := h.parseFrame_drop (c.appended.length - c.base)
  rwa [dif_neg (by rw [length_entries]; omega)] at this

theorem entry_of_parse {i : ℕ} {r rest : Bytes} (hb : c.base ≤ i) (hi : i ≤ c.appended.length)
    (hp : parseFrame w (bs.drop (offset w c i)) = some (r, rest)) : c.appended[i]? = some r := by
  rcases Nat.lt_or_ge i c.appended.length with hlt | hge
  · have hget := List.getElem?_eq_getElem hlt
    obtain ⟨rest', hp'⟩ := parse_entry h hb hget
    rw [hp] at hp'
    cases hp'
    exact hget
  · obtain rfl : i = c.appended.length := le_antisymm hi hge
    rw [parse_end h] at hp
    cases hp

theorem end_of_parse {i : ℕ} (hb : c.base ≤ i) (hi : i ≤ c.appended.length)
    (hp : parseFrame w (bs.drop (offset w c i)) = none) : i = c.appended.length := by
  refine le_antisymm hi (Nat.le_of_not_lt fun hlt => ?_)
  obtain ⟨rest, hp'⟩ := parse_entry h hb (List.getElem?_eq_getElem hlt)
  rw [hp] at hp'
  cases hp'

theorem length_eq : bs.length = offset w c c.appended.length + torn.length := by
  rw [offset_end, h.split, List.length_append, length_encode]

theorem end_of_length {i : ℕ} (hb : c.base ≤ i) (hi : i ≤ c.appended.length) (heq : offset w c i = bs.length) :
    i = c.appended.length := by
  have hlen := length_eq h
  have hle := offset_le_end (w := w) (c := c) i
  exact offset_inj h hb hi (hb.trans hi) le_rfl (by omega)

theorem empty_of_nil (hv : c.Valid) (hbs : bs = []) : c.base = c.appended.length := by
  have hle : c.base ≤ c.appended.length := le_trans (hv.base_mark.trans hv.mark_front) hv.front_le
  refine end_of_length h le_rfl hle ?_
  rw [offset_base, hbs]
  rfl

omit h in
theorem parses_append (hv : c.Valid) (h : Parses w bs c.entries []) {r : Bytes} (hr : Fits w r) :
    Parses w (bs ++ frame w r) (c.append r).entries [] := by
  rw [hv.append_entries]
  refine ⟨?_, fun x hx => ?_, h.stop⟩
  · rw [h.split]; simp
  · rcases List.mem_append.1 hx with hx | hx
    · exact h.fits x hx
    · rw [List.mem_singleton.1 hx]; exact hr

omit h in
theorem parses_torn (h : Parses w bs c.entries []) {r p : Bytes} (hr : Fits w r) (hp : p <+: frame w r)
    (hne : p ≠ frame w r) : Parses w (bs ++ p) c.entries p := by
  refine ⟨?_, h.fits, parseFrame_of_torn hr hp hne⟩
  rw [h.split, List.append_nil]

end Stored

theorem parses_nil (hw : 0 < w) : Parses w [] [] [] := by
  refine ⟨rfl, by simp, parseFrame_short ?_⟩
  simp only [List.take_nil, List.length_nil]
  omega

end FramedLog
