/-
UTF-8, as RFC 3629 has it. A `Char` is neither a surrogate nor above U+10FFFF, and `encode` is its one encoding, so a
text of encoded characters has no overlong form.

`IsChar` is the same by the ranges of the bytes (`isChar_iff`): the first byte says how many there are, and the range
of the second depends on it. The bytes behind the first one are never first bytes, so characters do not overlap
(`apart`).
-/
import Mathlib.Data.List.Basic
import Mathlib.Tactic

namespace Utf8

abbrev encode (c : Char) : List UInt8 := String.utf8EncodeChar c

/-- well-formed UTF-8 -/
def WellFormed (bs : List UInt8) : Prop := ∃ cs : List Char, bs = cs.flatMap encode

/-- a byte behind the first one -/
def Continues (b : UInt8) : Prop := 0x80 ≤ b.toNat ∧ b.toNat < 0xC0

/-- how many bytes a character with this first byte has, 0 for none -/
def size (a : UInt8) : ℕ :=
  if a.toNat < 0x80 then 1
  else if 0xC2 ≤ a.toNat ∧ a.toNat < 0xE0 then 2
  else if 0xE0 ≤ a.toNat ∧ a.toNat < 0xF0 then 3
  else if 0xF0 ≤ a.toNat ∧ a.toNat < 0xF5 then 4
  else 0

/-- the range of the second byte: neither an overlong form nor a surrogate nor above U+10FFFF -/
def Second (a b : UInt8) : Prop :=
  Continues b ∧ (a.toNat = 0xE0 → 0xA0 ≤ b.toNat) ∧ (a.toNat = 0xED → b.toNat < 0xA0) ∧
    (a.toNat = 0xF0 → 0x90 ≤ b.toNat) ∧ (a.toNat = 0xF4 → b.toNat < 0x90)

/-- the bytes of one character -/
def IsChar : List UInt8 → Prop
  | [a] => size a = 1
  | [a, b] => size a = 2 ∧ Second a b
  | [a, b, c] => size a = 3 ∧ Second a b ∧ Continues c
  | [a, b, c, d] => size a = 4 ∧ Second a b ∧ Continues c ∧ Continues d
  | _ => False

/-! ## The bytes of a character -/

theorem size_eq_one {a : UInt8} : size a = 1 ↔ a.toNat < 0x80 := by
  unfold size
  split_ifs <;> simp <;> omega

theorem size_eq_two {a : UInt8} : size a = 2 ↔ 0xC2 ≤ a.toNat ∧ a.toNat < 0xE0 := by
  unfold size
  split_ifs <;> simp <;> omega

theorem size_eq_three {a : UInt8} : size a = 3 ↔ 0xE0 ≤ a.toNat ∧ a.toNat < 0xF0 := by
  unfold size
  split_ifs <;> simp <;> omega

theorem size_eq_four {a : UInt8} : size a = 4 ↔ 0xF0 ≤ a.toNat ∧ a.toNat < 0xF5 := by
  unfold size
  split_ifs <;> simp <;> omega

theorem isChar_encode (c : Char) : IsChar (encode c) := by
  have hvalid : c.val.toNat < 0xD800 ∨ 0xDFFF < c.val.toNat ∧ c.val.toNat < 0x110000 := c.valid
  generalize hv : c.val.toNat = v at hvalid
  unfold encode String.utf8EncodeChar
  simp only [hv]
  split_ifs
  · rw [IsChar, size_eq_one, UInt8.toNat_ofNat']
    omega
  · rw [IsChar, size_eq_two, Second, Continues]
    simp only [UInt8.toNat_ofNat']
    omega
  · rw [IsChar, size_eq_three, Second, Continues, Continues]
    simp only [UInt8.toNat_ofNat']
    omega
  · rw [IsChar, size_eq_four, Second, Continues, Continues, Continues]
    simp only [UInt8.toNat_ofNat']
    omega

theorem ofNat_eq {n : ℕ} {b : UInt8} (h : n = b.toNat) : UInt8.ofNat n = b := by
  subst h
  exact UInt8.ofNat_toNat

theorem exists_char {v : ℕ} (h : v.isValidChar) : ∃ c : Char, c.val.toNat = v := ⟨Char.ofNatAux v h, rfl⟩

theorem exists_encode {bs : List UInt8} (h : IsChar bs) : ∃ c, encode c = bs := by
  -- the number in the bits of the bytes is a scalar value, and has these bytes
  match bs with
  | [a] =>
    rw [IsChar, size_eq_one] at h
    have hvalid : a.toNat.isValidChar := by unfold Nat.isValidChar; omega
    obtain ⟨char, hval⟩ := exists_char hvalid
    refine ⟨char, ?_⟩
    unfold encode String.utf8EncodeChar
    simp only [hval]
    rw [if_pos (by omega), ofNat_eq rfl]
  | [a, b] =>
    rw [IsChar, size_eq_two, Second, Continues] at h
    generalize hv : (a.toNat - 0xC0) * 64 + (b.toNat - 0x80) = v
    have hvalid : v.isValidChar := by unfold Nat.isValidChar; omega
    obtain ⟨char, hval⟩ := exists_char hvalid
    refine ⟨char, ?_⟩
    unfold encode String.utf8EncodeChar
    simp only [hval]
    rw [if_neg (by omega), if_pos (by omega), ofNat_eq (b := a) (by omega), ofNat_eq (b := b) (by omega)]
  | [a, b, c] =>
    rw [IsChar, size_eq_three, Second, Continues, Continues] at h
    generalize hv : (a.toNat - 0xE0) * 4096 + (b.toNat - 0x80) * 64 + (c.toNat - 0x80) = v
    have hvalid : v.isValidChar := by unfold Nat.isValidChar; omega
    obtain ⟨char, hval⟩ := exists_char hvalid
    refine ⟨char, ?_⟩
    unfold encode String.utf8EncodeChar
    simp only [hval]
    rw [if_neg (by omega), if_neg (by omega), if_pos (by omega), ofNat_eq (b := a) (by omega),
      ofNat_eq (b := b) (by omega),
      ofNat_eq (b := c) (by omega)]
  | [a, b, c, d] =>
    rw [IsChar, size_eq_four, Second, Continues, Continues, Continues] at h
    generalize hv : (a.toNat - 0xF0) * 262144 + (b.toNat - 0x80) * 4096 + (c.toNat - 0x80) * 64 + (d.toNat - 0x80) = v
    have hvalid : v.isValidChar := by unfold Nat.isValidChar; omega
    obtain ⟨char, hval⟩ := exists_char hvalid
    refine ⟨char, ?_⟩
    unfold encode String.utf8EncodeChar
    simp only [hval]
    rw [if_neg (by omega), if_neg (by omega), if_neg (by omega), ofNat_eq (b := a) (by omega),
      ofNat_eq (b := b) (by omega),
      ofNat_eq (b := c) (by omega), ofNat_eq (b := d) (by omega)]
  | [] => exact h.elim
  | _ :: _ :: _ :: _ :: _ :: _ => exact h.elim

theorem isChar_iff {bs : List UInt8} : IsChar bs ↔ ∃ c, encode c = bs := by
  constructor
  · exact exists_encode
  · rintro ⟨c, rfl⟩
    exact isChar_encode c

theorem encode_injective {c d : Char} (h : encode c = encode d) : c = d := by
  have hc : c.val.toNat < 0xD800 ∨ 0xDFFF < c.val.toNat ∧ c.val.toNat < 0x110000 := c.valid
  have hd : d.val.toNat < 0xD800 ∨ 0xDFFF < d.val.toNat ∧ d.val.toNat < 0x110000 := d.valid
  apply Char.ext
  rw [← UInt32.toNat_inj]
  unfold encode String.utf8EncodeChar at h
  generalize c.val.toNat = v at h hc
  generalize d.val.toNat = w at h hd
  dsimp only at h
  split_ifs at h <;> simp only [List.cons.injEq, ← UInt8.toNat_inj, UInt8.toNat_ofNat', reduceCtorEq,
    and_false] at h <;> omega

/-! ## Where characters stand -/

theorem isChar_cons {bs : List UInt8} (h : IsChar bs) :
    ∃ a tail, bs = a :: tail ∧ size a = bs.length ∧ ¬Continues a ∧ ∀ t ∈ tail, Continues t := by
  match bs with
  | [a] =>
    have hsize := size_eq_one.1 h
    exact ⟨a, [], rfl, h, fun hc => by unfold Continues at hc; omega, fun t ht => absurd ht List.not_mem_nil⟩
  | [a, b] =>
    have hsize := size_eq_two.1 h.1
    refine ⟨a, [b], rfl, h.1, fun hc => by unfold Continues at hc; omega, ?_⟩
    simpa using h.2.1
  | [a, b, c] =>
    have hsize := size_eq_three.1 h.1
    refine ⟨a, [b, c], rfl, h.1, fun hc => by unfold Continues at hc; omega, ?_⟩
    simpa using ⟨h.2.1.1, h.2.2⟩
  | [a, b, c, d] =>
    have hsize := size_eq_four.1 h.1
    refine ⟨a, [b, c, d], rfl, h.1, fun hc => by unfold Continues at hc; omega, ?_⟩
    simpa using ⟨h.2.1.1, h.2.2⟩
  | [] => exact h.elim
  | _ :: _ :: _ :: _ :: _ :: _ => exact h.elim

/-- the first byte says how long the character is -/
theorem isChar_prefix {x y z : List UInt8} (hx : IsChar x) (hy : IsChar y) (hxz : x <+: z) (hyz : y <+: z) : x = y := by
  obtain ⟨a, xs, rfl, ha, -, -⟩ := isChar_cons hx
  obtain ⟨b, ys, rfl, hb, -, -⟩ := isChar_cons hy
  obtain ⟨c, zs, rfl⟩ : ∃ c zs, z = c :: zs :=
    List.exists_cons_of_ne_nil (List.ne_nil_of_mem (hxz.subset List.mem_cons_self))
  obtain rfl : a = c := (List.cons_prefix_cons.1 hxz).1
  obtain rfl : b = a := (List.cons_prefix_cons.1 hyz).1
  exact (List.prefix_of_prefix_length_le hxz hyz (ha ▸ hb ▸ le_rfl)).eq_of_length (ha.symm.trans hb)

/-- **Characters do not overlap.** Where a text begins with a character, every other one stands behind it. -/
theorem apart {x y pre post rest : List UInt8} (hx : IsChar x) (hy : IsChar y) (h : x ++ rest = pre ++ y ++ post) :
    pre = [] ∧ y = x ∨ ∃ pre', pre = x ++ pre' ∧ rest = pre' ++ y ++ post := by
  rcases List.append_eq_append_iff.1 (h.trans (List.append_assoc _ _ _)) with ⟨inner, hpre, hrest⟩ | ⟨inner, hxi, hyi⟩
  · exact Or.inr ⟨inner, hpre, by rw [hrest, List.append_assoc]⟩
  · cases inner with
    | nil => exact Or.inr ⟨[], by rw [hxi, List.append_nil, List.append_nil], by rw [List.nil_append]; exact hyi.symm⟩
    | cons i inner =>
      cases pre with
      | nil =>
        refine Or.inl ⟨rfl, isChar_prefix hy hx (z := x ++ rest) ?_ (List.prefix_append _ _)⟩
        rw [h]
        exact List.prefix_append _ _
      | cons p pre =>
        -- the first byte of `y` would be one behind the first byte of `x`
        exfalso
        obtain ⟨b, ys, rfl, -, hb, -⟩ := isChar_cons hy
        obtain ⟨a, xs, rfl, -, -, hxs⟩ := isChar_cons hx
        obtain rfl : b = i := (List.cons.inj hyi).1
        have hmem : b ∈ xs := by
          rw [(List.cons.inj hxi).2]
          exact List.mem_append_right _ List.mem_cons_self
        exact hb (hxs b hmem)

/-! ## Characters and stray bytes -/

inductive Piece where
  | char (c : Char)
  /-- a byte which belongs to no character -/
  | stray (b : UInt8)

def Piece.bytes : Piece → List UInt8
  | .char c => encode c
  | .stray b => [b]

/-- U+FFFD in the place of a stray byte -/
def Piece.repaired : Piece → List UInt8
  | .char c => encode c
  | .stray _ => encode (Char.ofNat 0xFFFD)

/-- the pieces of a text: every character of it, wherever it stands, is one of them -/
structure Pieces (text : List UInt8) (ps : List Piece) : Prop where
  bytes : ps.flatMap Piece.bytes = text
  chars : ∀ pre c post, text = pre ++ encode c ++ post →
    ∃ before after, ps = before ++ .char c :: after ∧ before.flatMap Piece.bytes = pre

variable {text rest : List UInt8} {ps : List Piece}

theorem Pieces.nil : Pieces [] [] := by
  refine ⟨rfl, fun pre c post h => ?_⟩
  have hne : encode c ≠ [] := String.utf8EncodeChar_ne_nil
  rw [eq_comm, List.append_eq_nil_iff, List.append_eq_nil_iff] at h
  exact absurd h.1.2 hne

theorem Pieces.char (h : Pieces rest ps) (c : Char) : Pieces (encode c ++ rest) (.char c :: ps) := by
  refine ⟨by rw [List.flatMap_cons, h.bytes]; rfl, fun pre d post heq => ?_⟩
  rcases apart (isChar_encode c) (isChar_encode d) heq with ⟨rfl, hd⟩ | ⟨pre', rfl, hrest⟩
  · obtain rfl := encode_injective hd
    exact ⟨[], ps, rfl, rfl⟩
  · obtain ⟨before, after, rfl, hbefore⟩ := h.chars pre' d post hrest
    exact ⟨.char c :: before, after, rfl, by rw [List.flatMap_cons, hbefore]; rfl⟩

theorem Pieces.stray (h : Pieces rest ps) {b : UInt8} (hb : ∀ c, ¬encode c <+: b :: rest) :
    Pieces (b :: rest) (.stray b :: ps) := by
  refine ⟨by rw [List.flatMap_cons, h.bytes]; rfl, fun pre d post heq => ?_⟩
  cases pre with
  | nil => exact absurd ⟨post, heq.symm⟩ (hb d)
  | cons p pre =>
    obtain ⟨rfl, hrest⟩ := List.cons.inj heq
    obtain ⟨before, after, rfl, hbefore⟩ := h.chars pre d post hrest
    exact ⟨.stray b :: before, after, rfl, by rw [List.flatMap_cons, hbefore]; rfl⟩

theorem wellFormed_repaired (ps : List Piece) : WellFormed (ps.flatMap Piece.repaired) := by
  refine ⟨ps.map fun p => match p with | .char c => c | .stray _ => Char.ofNat 0xFFFD, ?_⟩
  rw [List.flatMap_map]
  apply List.flatMap_congr
  intro p _
  cases p <;> rfl

end Utf8
