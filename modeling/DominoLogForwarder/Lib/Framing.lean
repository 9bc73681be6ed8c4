/-
Length-prefixed frames: a frame is a little-endian length of `w` bytes, which is not 0, and that many bytes of data.

A byte string splits in one way only into whole frames and a rest which does not start with one (`Parses`,
`Parses.unique`). The sizes of its prefixes of whole frames are the frame boundaries (`IsBoundary`). What a write which
was cut off leaves behind, a proper prefix of a frame, never starts with a frame (`parseFrame_of_torn`).
-/
import Mathlib.Tactic

namespace Framing

abbrev Bytes : Type := List UInt8

/-! ## Little-endian numbers -/

def leBytes : ℕ → ℕ → Bytes
  | 0, _ => []
  | k + 1, n => UInt8.ofNat (n % 256) :: leBytes k (n / 256)

def leNat : Bytes → ℕ
  | [] => 0
  | b :: bs => b.toNat + 256 * leNat bs

@[simp] theorem length_leBytes (k n : ℕ) : (leBytes k n).length = k := by
  induction k generalizing n with
  | zero => rfl
  | succ k ih => simp [leBytes, ih]

theorem leNat_leBytes (k n : ℕ) (h : n < 256 ^ k) : leNat (leBytes k n) = n := by
  induction k generalizing n with
  | zero => simp at h; simp [leBytes, leNat, h]
  | succ k ih =>
    have hd : n / 256 < 256 ^ k := by
      rw [pow_succ] at h
      exact Nat.div_lt_of_lt_mul (by linarith)
    simp only [leBytes, leNat, ih _ hd, UInt8.toNat_ofNat']
    omega

theorem leNat_lt (bs : Bytes) : leNat bs < 256 ^ bs.length := by
  induction bs with
  | nil => simp [leNat]
  | cons b bs ih =>
    have hb : b.toNat < 256 := b.toNat_lt
    simp only [leNat, List.length_cons, pow_succ]
    omega

theorem leBytes_leNat (bs : Bytes) : leBytes bs.length (leNat bs) = bs := by
  induction bs with
  | nil => rfl
  | cons b bs ih =>
    have hb : b.toNat < 256 := b.toNat_lt
    have hm : (b.toNat + 256 * leNat bs) % 256 = b.toNat := by omega
    have hd : (b.toNat + 256 * leNat bs) / 256 = leNat bs := by omega
    simp [leNat, leBytes, hm, hd, ih]

/-! ## Frames -/

section Frames

variable (w : ℕ)

/-- what a frame can hold: at least one byte, and no more than its length can say -/
def Fits (r : Bytes) : Prop := 0 < r.length ∧ r.length < 256 ^ w

instance (r : Bytes) : Decidable (Fits w r) := by unfold Fits; infer_instance

def frame (r : Bytes) : Bytes := leBytes w r.length ++ r

/-- the first frame of a byte string and what follows it -/
def parseFrame (bs : Bytes) : Option (Bytes × Bytes) :=
  if bs.length < w then none
  else if leNat (bs.take w) = 0 ∨ bs.length - w < leNat (bs.take w) then none
  else some ((bs.drop w).take (leNat (bs.take w)), bs.drop (w + leNat (bs.take w)))

def encode (rs : List Bytes) : Bytes := (rs.map (frame w)).flatten

/-- the bytes which whole frames take -/
def span (rs : List Bytes) : ℕ := (encode w rs).length

variable {w}

@[simp] theorem length_frame (r : Bytes) : (frame w r).length = w + r.length := by simp [frame]

@[simp] theorem encode_nil : encode w [] = [] := rfl

@[simp] theorem encode_cons (r : Bytes) (rs : List Bytes) : encode w (r :: rs) = frame w r ++ encode w rs := rfl

@[simp] theorem encode_append (rs ts : List Bytes) : encode w (rs ++ ts) = encode w rs ++ encode w ts := by
  simp [encode]

@[simp] theorem span_nil : span w [] = 0 := rfl

@[simp] theorem span_cons (r : Bytes) (rs : List Bytes) : span w (r :: rs) = w + r.length + span w rs := by
  simp [span]

@[simp] theorem span_append (rs ts : List Bytes) : span w (rs ++ ts) = span w rs + span w ts := by
  simp [span]

@[simp] theorem length_encode (rs : List Bytes) : (encode w rs).length = span w rs := rfl

theorem encode_eq_nil (hw : 0 < w) {rs : List Bytes} (h : encode w rs = []) : rs = [] := by
  cases rs with
  | nil => rfl
  | cons r rs =>
    have hlen := congrArg List.length h
    rw [length_encode, span_cons, List.length_nil] at hlen
    omega

theorem parseFrame_frame {r : Bytes} (h : Fits w r) (rest : Bytes) :
    parseFrame w (frame w r ++ rest) = some (r, rest) := by
  have htake : (frame w r ++ rest).take w = leBytes w r.length := by
    rw [frame, List.append_assoc, List.take_left' (length_leBytes w _)]
  have hlen : leNat ((frame w r ++ rest).take w) = r.length := by
    rw [htake, leNat_leBytes _ _ h.2]
  have hdrop : (frame w r ++ rest).drop w = r ++ rest := by
    rw [frame, List.append_assoc, List.drop_left' (length_leBytes w _)]
  have hpos := h.1
  unfold parseFrame
  have hsize : (frame w r ++ rest).length = w + r.length + rest.length := by simp
  rw [hlen, hsize, if_neg (by omega), if_neg (by omega), ← List.drop_drop, hdrop, List.take_left' rfl,
    List.drop_left' rfl]

theorem parseFrame_some {bs r rest : Bytes} (h : parseFrame w bs = some (r, rest)) :
    bs = frame w r ++ rest ∧ Fits w r := by
  unfold parseFrame at h
  split_ifs at h with h1 h2
  obtain ⟨rfl, rfl⟩ := Prod.mk.inj (Option.some.inj h)
  push Not at h1 h2
  have htake : (bs.take w).length = w := by simp; omega
  have hlt := leNat_lt (bs.take w)
  have hr : ((bs.drop w).take (leNat (bs.take w))).length = leNat (bs.take w) := by simp; omega
  rw [htake] at hlt
  refine ⟨?_, by rw [Fits, hr]; omega⟩
  have hhead : leBytes w (leNat (bs.take w)) = bs.take w := by
    have := leBytes_leNat (bs.take w)
    rwa [htake] at this
  rw [frame, hr, hhead, ← List.drop_drop, List.append_assoc, List.take_append_drop, List.take_append_drop]

theorem parseFrame_short {bs : Bytes} (h : (bs.take w).length ≠ w) : parseFrame w bs = none := by
  rw [List.length_take] at h
  exact if_pos (by omega)

theorem parseFrame_bad {bs : Bytes} (h : leNat (bs.take w) = 0 ∨ bs.length - w < leNat (bs.take w)) :
    parseFrame w bs = none := by
  unfold parseFrame
  split_ifs <;> rfl

theorem parseFrame_good {bs : Bytes} (h : (bs.take w).length = w)
    (hgood : ¬ (leNat (bs.take w) = 0 ∨ bs.length - w < leNat (bs.take w))) :
    parseFrame w bs = some ((bs.drop w).take (leNat (bs.take w)), bs.drop (w + leNat (bs.take w))) := by
  have hlen : min w bs.length = w := List.length_take.symm.trans h
  unfold parseFrame
  rw [if_neg (by omega), if_neg hgood]

/-- a write which was cut off inside a frame leaves bytes that do not start with a frame -/
theorem parseFrame_of_torn {r p : Bytes} (h : Fits w r) (hp : p <+: frame w r) (hne : p ≠ frame w r) :
    parseFrame w p = none := by
  cases hparse : parseFrame w p with
  | none => rfl
  | some q =>
    obtain ⟨r', rest⟩ := q
    obtain ⟨t, ht⟩ := hp
    have hp' := (parseFrame_some hparse).1
    have h1 : parseFrame w (frame w r ++ []) = some (r, []) := parseFrame_frame h []
    have h2 : parseFrame w (frame w r' ++ (rest ++ t)) = some (r', rest ++ t) :=
      parseFrame_frame (parseFrame_some hparse).2 _
    rw [List.append_nil, ← ht, hp', List.append_assoc, h2] at h1
    have htnil : t = [] := (List.append_eq_nil_iff.1 (Prod.mk.inj (Option.some.inj h1)).2).2
    rw [htnil, List.append_nil] at ht
    exact absurd ht hne

/-! ## Byte strings of whole frames -/

theorem encode_drop (rs : List Bytes) (k : ℕ) (rest : Bytes) :
    (encode w rs ++ rest).drop (span w (rs.take k)) = encode w (rs.drop k) ++ rest := by
  conv_lhs => rw [← List.take_append_drop k rs, encode_append, List.append_assoc]
  simp only [List.take_append_drop]
  rw [List.drop_left' (length_encode _)]

theorem span_take_succ (rs : List Bytes) (k : ℕ) (h : k < rs.length) :
    span w (rs.take (k + 1)) = span w (rs.take k) + (w + rs[k].length) := by
  rw [List.take_succ_eq_append_getElem h, span_append, span_cons, span_nil, Nat.add_zero]

theorem span_take_le (rs : List Bytes) (k : ℕ) : span w (rs.take k) ≤ span w rs := by
  conv_rhs => rw [← List.take_append_drop k rs, span_append]
  exact Nat.le_add_right _ _

/-- two different numbers of whole frames take different numbers of bytes -/
theorem span_take_lt {rs : List Bytes} (hfit : ∀ r ∈ rs, Fits w r) {j k : ℕ} (hjk : j < k) (hk : k ≤ rs.length) :
    span w (rs.take j) < span w (rs.take k) := by
  have hj : j < rs.length := lt_of_lt_of_le hjk hk
  have hstep : span w (rs.take j) < span w (rs.take (j + 1)) := by
    rw [span_take_succ _ _ hj]
    have := (hfit _ (List.getElem_mem hj)).1
    omega
  have hle : span w (rs.take (j + 1)) ≤ span w (rs.take k) := by
    have h1 := span_take_le (w := w) (rs.take k) (j + 1)
    rwa [List.take_take, min_eq_left (by omega)] at h1
  omega

theorem span_take_inj {rs : List Bytes} (hfit : ∀ r ∈ rs, Fits w r) {j k : ℕ} (hj : j ≤ rs.length)
    (hk : k ≤ rs.length) (h : span w (rs.take j) = span w (rs.take k)) : j = k := by
  rcases Nat.lt_trichotomy j k with hlt | heq | hgt
  · have := span_take_lt hfit hlt hk; omega
  · exact heq
  · have := span_take_lt hfit hgt hj; omega

variable (w) in
/-- `bs` is the whole frames `rs` and a rest which does not start with a frame -/
structure Parses (bs : Bytes) (rs : List Bytes) (rest : Bytes) : Prop where
  split : bs = encode w rs ++ rest
  fits : ∀ r ∈ rs, Fits w r
  stop : parseFrame w rest = none

theorem exists_parses (bs : Bytes) : ∃ rs rest, Parses w bs rs rest := by
  induction hn : bs.length using Nat.strong_induction_on generalizing bs with
  | _ n ih =>
    cases h : parseFrame w bs with
    | none => exact ⟨[], bs, by simp, by simp, h⟩
    | some q =>
      obtain ⟨r, rest⟩ := q
      obtain ⟨hbs, hfit⟩ := parseFrame_some h
      have hlt : rest.length < n := by
        have := hfit.1
        rw [← hn, hbs, List.length_append, length_frame]; omega
      obtain ⟨rs, rest', hp⟩ := ih _ hlt rest rfl
      refine ⟨r :: rs, rest', ?_, ?_, hp.stop⟩
      · rw [encode_cons, List.append_assoc, ← hp.split, ← hbs]
      · exact List.forall_mem_cons.2 ⟨hfit, hp.fits⟩

theorem Parses.unique {bs : Bytes} {rs ts : List Bytes} {p q : Bytes} (h1 : Parses w bs rs p)
    (h2 : Parses w bs ts q) : rs = ts ∧ p = q := by
  induction rs generalizing bs ts with
  | nil =>
    obtain rfl : bs = p := by simpa using h1.split
    cases ts with
    | nil => exact ⟨rfl, by simpa using h2.split⟩
    | cons t ts =>
      have hf := parseFrame_frame (h2.fits t List.mem_cons_self) (encode w ts ++ q)
      rw [← List.append_assoc, ← encode_cons, ← h2.split, h1.stop] at hf
      cases hf
  | cons r rs ih =>
    have hf := parseFrame_frame (h1.fits r List.mem_cons_self) (encode w rs ++ p)
    rw [← List.append_assoc, ← encode_cons, ← h1.split] at hf
    cases ts with
    | nil =>
      have hq : bs = q := by simpa using h2.split
      rw [hq, h2.stop] at hf
      cases hf
    | cons t ts =>
      have hg := parseFrame_frame (h2.fits t List.mem_cons_self) (encode w ts ++ q)
      rw [← List.append_assoc, ← encode_cons, ← h2.split, hf] at hg
      obtain ⟨rfl, hrest⟩ := Prod.mk.inj (Option.some.inj hg)
      obtain ⟨rfl, rfl⟩ := ih ⟨rfl, fun r' hr' => h1.fits r' (List.mem_cons_of_mem _ hr'), h1.stop⟩
        ⟨hrest, fun r' hr' => h2.fits r' (List.mem_cons_of_mem _ hr'), h2.stop⟩
      exact ⟨rfl, rfl⟩

theorem parses_encode (hw : 0 < w) {rs : List Bytes} (hfit : ∀ r ∈ rs, Fits w r) : Parses w (encode w rs) rs [] := by
  refine ⟨(List.append_nil _).symm, hfit, parseFrame_short ?_⟩
  rw [List.take_nil, List.length_nil]
  omega

theorem parses_of_prefix {rs : List Bytes} {rest : Bytes} {bs : Bytes} (h : Parses w bs rs rest) (k : ℕ) :
    Parses w (bs.drop (span w (rs.take k))) (rs.drop k) rest := by
  refine ⟨?_, fun r hr => h.fits r (List.mem_of_mem_drop hr), h.stop⟩
  rw [h.split, encode_drop]

/-- what stands at the `k`-th boundary -/
theorem Parses.parseFrame_drop {rs : List Bytes} {rest : Bytes} {bs : Bytes} (h : Parses w bs rs rest) (k : ℕ) :
    parseFrame w (bs.drop (span w (rs.take k))) =
      if hk : k < rs.length then some (rs[k], encode w (rs.drop (k + 1)) ++ rest) else none := by
  rw [h.split, encode_drop]
  split_ifs with hk
  · rw [List.drop_eq_getElem_cons hk, encode_cons, List.append_assoc,
      parseFrame_frame (h.fits _ (List.getElem_mem hk))]
  · rw [List.drop_eq_nil_of_le (by omega), encode_nil, List.nil_append, h.stop]

/-! ## Boundaries -/

variable (w) in
/-- `off` is the size of some whole frames at the start of `bs` -/
def IsBoundary (bs : Bytes) (off : ℕ) : Prop := ∃ rs, (∀ r ∈ rs, Fits w r) ∧ encode w rs <+: bs ∧ span w rs = off

theorem isBoundary_zero (bs : Bytes) : IsBoundary w bs 0 := ⟨[], by simp, List.nil_prefix, rfl⟩

theorem IsBoundary.le {bs : Bytes} {off : ℕ} (h : IsBoundary w bs off) : off ≤ bs.length := by
  obtain ⟨rs, -, hp, rfl⟩ := h
  exact hp.length_le

/-- the boundaries of a byte string are those of its whole frames -/
theorem Parses.isBoundary_iff {bs : Bytes} {rs : List Bytes} {rest : Bytes} (h : Parses w bs rs rest) {off : ℕ} :
    IsBoundary w bs off ↔ ∃ k ≤ rs.length, off = span w (rs.take k) := by
  constructor
  · rintro ⟨ts, hts, ⟨t, ht⟩, rfl⟩
    obtain ⟨us, rest', hu⟩ := exists_parses (w := w) t
    have hts' : Parses w bs (ts ++ us) rest' := by
      refine ⟨?_, ?_, hu.stop⟩
      · rw [encode_append, List.append_assoc, ← hu.split, ht]
      · intro r hr
        rcases List.mem_append.1 hr with hr | hr
        · exact hts r hr
        · exact hu.fits r hr
    obtain ⟨rfl, -⟩ := h.unique hts'
    exact ⟨ts.length, by simp, by simp⟩
  · rintro ⟨k, -, rfl⟩
    refine ⟨rs.take k, fun r hr => h.fits r (List.mem_of_mem_take hr), ?_, rfl⟩
    rw [h.split]
    conv_rhs => rw [← List.take_append_drop k rs, encode_append, List.append_assoc]
    exact List.prefix_append _ _

/-- one frame further is a boundary again -/
theorem isBoundary_step {bs r rest : Bytes} {pos : ℕ} (h : parseFrame w (bs.drop pos) = some (r, rest))
    (hpos : IsBoundary w bs pos) : IsBoundary w bs (pos + (w + r.length)) := by
  obtain ⟨rs, hf, ⟨t, ht⟩, rfl⟩ := hpos
  obtain ⟨hbs, hfit⟩ := parseFrame_some h
  refine ⟨rs ++ [r], ?_, ⟨rest, ?_⟩, by simp⟩
  · intro r' hr'
    rcases List.mem_append.1 hr' with hr' | hr'
    · exact hf r' hr'
    · rw [List.mem_singleton.1 hr']; exact hfit
  · have htd : bs.drop (span w rs) = t := by rw [← ht, List.drop_left' (length_encode _)]
    rw [htd] at hbs
    rw [← ht, hbs]; simp

/-- there is no boundary inside a frame, and none behind bytes which are not a frame -/
theorem isBoundary_next {bs : Bytes} {pos off : ℕ} (hpos : IsBoundary w bs pos) (hoff : IsBoundary w bs off)
    (hlt : pos < off) : ∃ r rest, parseFrame w (bs.drop pos) = some (r, rest) ∧ pos + (w + r.length) ≤ off := by
  obtain ⟨rs, rest, h⟩ := exists_parses (w := w) bs
  obtain ⟨k, hk, rfl⟩ := h.isBoundary_iff.1 hpos
  obtain ⟨j, hj, rfl⟩ := h.isBoundary_iff.1 hoff
  have hkj : k < j := by
    by_contra hc
    rcases Nat.lt_or_ge j k with hlt' | hge
    · have := span_take_lt h.fits hlt' hk; omega
    · obtain rfl : j = k := by omega
      omega
  have hk' : k < rs.length := by omega
  refine ⟨rs[k], encode w (rs.drop (k + 1)) ++ rest, by rw [h.parseFrame_drop, dif_pos hk'], ?_⟩
  rw [← span_take_succ _ _ hk']
  have h1 := span_take_le (w := w) (rs.take j) (k + 1)
  rwa [List.take_take, min_eq_left (by omega)] at h1

end Frames

end Framing
