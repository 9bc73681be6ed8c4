/-
`ToValidUtf8` (`otelfwd.cpp`): it keeps every character and replaces every other byte by U+FFFD.

The code looks at the ranges of the bytes. `charOk_iff`: it finds a character exactly where one begins. So a round of
the loop takes a character, or a byte which belongs to none, and the output is the one of the `Pieces` of the text.
-/
import DominoLogForwarder.Lib.Utf8
import DominoLogForwarder.Otelfwd.Record

namespace DominoLogForwarder.Otelfwd

open FileReader (Bytes ascii)
open Utf8 (encode WellFormed Continues IsChar Second Piece Pieces)

/-! ## One character -/

theorem charLength_eq (c : UInt8) : charLength c = Utf8.size c := by
  simp only [charLength, Utf8.size, UInt8.lt_iff_toNat_lt, UInt8.le_iff_toNat_le]
  split_ifs <;> simp_all <;> omega

theorem continues_iff (b : UInt8) : b &&& 0xC0 = 0x80 ↔ Continues b := by
  have hall : ∀ n : Fin 256, UInt8.ofNat n &&& 0xC0 = 0x80 ↔ 0x80 ≤ n.val ∧ n.val < 0xC0 := by decide +kernel
  have hb := hall ⟨b.toNat, b.toNat_lt⟩
  rwa [UInt8.ofNat_toNat] at hb

theorem charOk_take (c : UInt8) (rest : Bytes) : charOk c rest = true ↔ IsChar ((c :: rest).take (charLength c)) := by
  have hlen : charLength c = 0 ∨ charLength c = 1 ∨ charLength c = 2 ∨ charLength c = 3 ∨ charLength c = 4 := by
    unfold charLength
    split_ifs <;> simp
  unfold charOk
  rcases hlen with h | h | h | h | h
  · simp [h, IsChar]
  · rw [charLength_eq] at h
    simp [charLength_eq, h, IsChar]
  · rcases rest with _ | ⟨b, rest⟩
    · simp [h, IsChar, ← charLength_eq]
    · simp only [h]
      simp [IsChar, ← charLength_eq, h, Second, continues_iff]
      have hc := Utf8.size_eq_two.1 ((charLength_eq c).symm.trans h)
      omega
  · rcases rest with _ | ⟨b, _ | ⟨b', rest⟩⟩
    · simp [h, IsChar, ← charLength_eq]
    · simp [h, IsChar, ← charLength_eq]
    · simp only [h]
      simp [IsChar, ← charLength_eq, h, Second, continues_iff]
      have hc := Utf8.size_eq_three.1 ((charLength_eq c).symm.trans h)
      simp only [Continues, ← UInt8.toNat_inj, UInt8.le_iff_toNat_le, UInt8.lt_iff_toNat_lt, UInt8.reduceToNat]
      omega
  · rcases rest with _ | ⟨b, _ | ⟨b', _ | ⟨b'', rest⟩⟩⟩
    · simp [h, IsChar, ← charLength_eq]
    · simp [h, IsChar, ← charLength_eq]
    · simp [h, IsChar, ← charLength_eq]
    · simp only [h]
      simp [IsChar, ← charLength_eq, h, Second, continues_iff]
      have hc := Utf8.size_eq_four.1 ((charLength_eq c).symm.trans h)
      simp only [Continues, ← UInt8.toNat_inj, UInt8.le_iff_toNat_le, UInt8.lt_iff_toNat_lt, UInt8.reduceToNat]
      omega

theorem charOk_iff (c : UInt8) (rest : Bytes) : charOk c rest = true ↔ ∃ ch, encode ch <+: c :: rest := by
  rw [charOk_take, Utf8.isChar_iff]
  constructor
  · rintro ⟨ch, hch⟩
    exact ⟨ch, hch ▸ List.take_prefix _ _⟩
  · rintro ⟨ch, hch⟩
    refine ⟨ch, ?_⟩
    obtain ⟨a, tail, heq, hsize, -, -⟩ := Utf8.isChar_cons (Utf8.isChar_encode ch)
    have hac : a = c := (List.cons_prefix_cons.1 (heq ▸ hch)).1
    subst hac
    rw [charLength_eq, hsize]
    exact List.prefix_iff_eq_take.1 hch

/-! ## The loop -/

theorem validUtf8From_copy (bytes rest : Bytes) :
    validUtf8From bytes.length (bytes ++ rest) = bytes ++ validUtf8From 0 rest := by
  induction bytes with
  | nil => rfl
  | cons b bytes ih =>
    rw [List.length_cons, List.cons_append, validUtf8From, ih]
    rfl

theorem toValidUtf8_char (c : Char) (rest : Bytes) : toValidUtf8 (encode c ++ rest) = encode c ++ toValidUtf8 rest := by
  obtain ⟨a, tail, heq, hsize, -, -⟩ := Utf8.isChar_cons (Utf8.isChar_encode c)
  have hok : charOk a (tail ++ rest) = true := by
    refine (charOk_iff a _).2 ⟨c, ?_⟩
    rw [heq]
    exact List.prefix_append (a :: tail) rest
  have hcopy : charLength a - 1 = tail.length := by
    rw [charLength_eq, hsize, heq]
    rfl
  rw [heq]
  unfold toValidUtf8
  rw [List.cons_append, validUtf8From, if_pos hok, hcopy, validUtf8From_copy]
  rfl

theorem toValidUtf8_stray {b : UInt8} {rest : Bytes} (h : ∀ c, ¬encode c <+: b :: rest) :
    toValidUtf8 (b :: rest) = encode (Char.ofNat 0xFFFD) ++ toValidUtf8 rest := by
  have hok : ¬charOk b rest = true := fun hok => (h _) ((charOk_iff b rest).1 hok).choose_spec
  unfold toValidUtf8
  rw [validUtf8From, if_neg hok]
  rfl

theorem exists_pieces (text : Bytes) : ∃ ps, Pieces text ps ∧ toValidUtf8 text = ps.flatMap Piece.repaired := by
  -- induction on the length: a round takes a character or a byte
  induction hlen : text.length using Nat.strong_induction_on generalizing text with
  | _ n ih =>
    cases text with
    | nil => exact ⟨[], .nil, rfl⟩
    | cons b rest =>
      by_cases hchar : ∃ c, encode c <+: b :: rest
      · obtain ⟨c, after, hafter⟩ := hchar
        have hpos : 0 < (encode c).length := List.length_pos_iff.2 String.utf8EncodeChar_ne_nil
        have hshort : after.length < n := by
          rw [← hlen, ← hafter, List.length_append]
          omega
        obtain ⟨ps, hps, hrun⟩ := ih _ hshort after rfl
        refine ⟨.char c :: ps, hafter ▸ hps.char c, ?_⟩
        calc toValidUtf8 (b :: rest)
            = encode c ++ toValidUtf8 after := by rw [← hafter, toValidUtf8_char]
          _ = (Piece.char c :: ps).flatMap Piece.repaired := by rw [hrun]; rfl
      · have hstray : ∀ c, ¬encode c <+: b :: rest := fun c hc => hchar ⟨c, hc⟩
        obtain ⟨ps, hps, hrun⟩ := ih _ (hlen ▸ Nat.lt_succ_self _) rest rfl
        refine ⟨.stray b :: ps, hps.stray hstray, ?_⟩
        calc toValidUtf8 (b :: rest)
            = encode (Char.ofNat 0xFFFD) ++ toValidUtf8 rest := toValidUtf8_stray hstray
          _ = (Piece.stray b :: ps).flatMap Piece.repaired := by rw [hrun]; rfl

theorem toValidUtf8_wellFormed {text : Bytes} (h : WellFormed text) : toValidUtf8 text = text := by
  obtain ⟨cs, rfl⟩ := h
  induction cs with
  | nil => rfl
  | cons c cs ih => rw [List.flatMap_cons, toValidUtf8_char, ih]

/-- **The text is repaired, and no more than that.** The output is well-formed, and a well-formed text stays as it is.
Every character of the input is kept, at whatever byte it begins, and each byte which belongs to none becomes one
U+FFFD. -/
theorem toValidUtf8_repairs (text : Bytes) :
    WellFormed (toValidUtf8 text) ∧ (WellFormed text → toValidUtf8 text = text) ∧
      toValidUtf8 (toValidUtf8 text) = toValidUtf8 text ∧
      ∃ ps, Pieces text ps ∧ toValidUtf8 text = ps.flatMap Piece.repaired := by
  obtain ⟨ps, hps, hrun⟩ := exists_pieces text
  have hvalid : WellFormed (toValidUtf8 text) := hrun ▸ Utf8.wellFormed_repaired ps
  exact ⟨hvalid, toValidUtf8_wellFormed, toValidUtf8_wellFormed hvalid, ps, hps, hrun⟩

/-- a cut character in front of an A, an overlong form and a surrogate -/
example : toValidUtf8 [0xC3, 0x41, 0xC0, 0x80, 0xED, 0xA0, 0x80] =
    [0xEF, 0xBF, 0xBD, 0x41, 0xEF, 0xBF, 0xBD, 0xEF, 0xBF, 0xBD, 0xEF, 0xBF, 0xBD, 0xEF, 0xBF, 0xBD, 0xEF,
      0xBF, 0xBD] := by
  decide

end DominoLogForwarder.Otelfwd
