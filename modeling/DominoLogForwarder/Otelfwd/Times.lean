/-
The times of records (`otelfwd.cpp`): `GetUnixNanoFromJson` and `GetUnixNanoFromSeconds` for texts, with the 64-bit
numbers of the code.

`Inputs` has the two functions with numbers of any size. Here the loops are the ones of the code on `Word`, which
remember whether a computation has wrapped, in the rounds of a text which is refused too.

- `jsonLoop_digits`, `secondsLoop_digits`, `fractionLoop_digits`: the loops compute the true numbers.
- `digitsToUint64_iff`, `secondsFromText_iff`: which texts are taken, and the number they give.
- `times_exact`: both together, for every text.
-/
import DominoLogForwarder.Lib.Search
import DominoLogForwarder.Lib.Word
import DominoLogForwarder.Otelfwd.Convertible

namespace DominoLogForwarder.Otelfwd

open FileReader (Bytes ascii isDigit number takeWhile_digits dropWhile_digits)
open Otlp (cString cString_eq_self)

/-! ## The loops of the code -/

/-- what a call returns, and whether a computation on the way has wrapped -/
structure Computed where
  nano : Option Int64
  wrapped : Bool

/-- `*p - '0'` -/
def digitWord (b : UInt8) : Word := ⟨UInt64.ofNat (b.toNat - 48), false⟩

/-- the loop of `GetUnixNanoFromJson`. It ends early at another character, or in front of an overflow -/
def jsonLoop (n : Word) : Bytes → Bool × Word
  | [] => (true, n)
  | b :: bs =>
    if isDigit b = false then (false, n)
    else
      let limit := (18446744073709551615 - digitWord b) / 10
      if limit.value < n.value then (false, n.after limit) else jsonLoop (n.after limit * 10 + digitWord b) bs

/-- `GetUnixNanoFromJson` for a string -/
def jsonText (text : Bytes) : Computed :=
  if text = [] then ⟨none, false⟩
  else
    match jsonLoop 0 text with
    | (false, n) => ⟨none, n.wrapped⟩
    | (true, n) => if 9223372036854775807 < n.value then ⟨none, n.wrapped⟩ else ⟨some n.value.toInt64, n.wrapped⟩

/-- the loop over the seconds. It ends early when they are too many -/
def secondsLoop (sec : Word) : Bytes → Bool × Word × Bytes
  | [] => (true, sec, [])
  | b :: bs =>
    if isDigit b then
      if 9000000000 < sec.value then (false, sec, b :: bs) else secondsLoop (sec * 10 + digitWord b) bs
    else (true, sec, b :: bs)

/-- the loop over the fraction, which takes nine digits and skips the others -/
def fractionLoop (frac : Word) (fracDigits : ℕ) : Bytes → Word × ℕ × Bytes
  | [] => (frac, fracDigits, [])
  | b :: bs =>
    if isDigit b then
      if fracDigits < 9 then fractionLoop (frac * 10 + digitWord b) (fracDigits + 1) bs
      else fractionLoop frac fracDigits bs
    else (frac, fracDigits, b :: bs)

/-- the loop for the digits which are missing -/
def scaleLoop (frac : Word) : ℕ → Word
  | 0 => frac
  | rounds + 1 => scaleLoop (frac * 10) rounds

/-- `GetUnixNanoFromSeconds` for a string -/
def secondsText (text : Bytes) : Computed :=
  match secondsLoop 0 text with
  | (false, sec, _) => ⟨none, sec.wrapped⟩
  | (true, sec, rest) =>
    if (text.head?.map isDigit).getD false = false then ⟨none, sec.wrapped⟩
    else
      match (if rest.head? = some 46 then fractionLoop 0 0 (rest.drop 1) else (0, 0, rest)) with
      | (frac, fracDigits, rest) =>
        if rest ≠ [] ∨ 9000000000 < sec.value then ⟨none, sec.wrapped || frac.wrapped⟩
        else
          let nano := sec * 1000000000 + scaleLoop frac (9 - fracDigits)
          ⟨some nano.value.toInt64, nano.wrapped⟩

/-! ## The loops compute the true numbers -/

variable {text rest : Bytes} {w : Word} {m k : ℕ}

theorem digit_lt {b : UInt8} (h : isDigit b = true) : b.toNat - 48 < 10 := by
  simp only [isDigit, Bool.and_eq_true, decide_eq_true_eq, UInt8.le_iff_toNat_le] at h
  have hhigh : b.toNat ≤ 57 := h.2
  omega

theorem is_digitWord (b : UInt8) : (digitWord b).Is (b.toNat - 48) := by
  have hb := b.toNat_lt
  exact Word.is_ofNat (by omega)

theorem is_ten : (10 : Word).Is 10 := ⟨rfl, rfl⟩

/-- one more digit -/
theorem is_next {b : UInt8} (hw : w.Is m) (h : m * 10 + (b.toNat - 48) < 2 ^ 64) :
    (w * 10 + digitWord b).Is (m * 10 + (b.toNat - 48)) :=
  (hw.mul is_ten (lt_of_le_of_lt (Nat.le_add_right _ _) h)).add (is_digitWord b) h

theorem jsonLoop_digits (hw : w.Is m) :
    match digitsToUint64 m text with
    | some k => ∃ w', jsonLoop w text = (true, w') ∧ w'.Is k
    | none => ∃ w', jsonLoop w text = (false, w') ∧ w'.wrapped = false := by
  induction text generalizing w m with
  | nil => exact ⟨w, rfl, hw⟩
  | cons b bs ih =>
    unfold digitsToUint64 jsonLoop
    by_cases hdigit : isDigit b = false
    · rw [if_pos hdigit, if_pos hdigit]
      exact ⟨w, rfl, hw.exact⟩
    rw [if_neg hdigit, if_neg hdigit]
    have hlt := digit_lt (by simpa using hdigit)
    have hmax : (18446744073709551615 : Word).Is 18446744073709551615 := ⟨rfl, rfl⟩
    have hlimit := (hmax.sub (is_digitWord b) (by omega)).div is_ten
    have hafter := hw.after hlimit
    by_cases hbig : (2 ^ 64 - 1 - (b.toNat - 48)) / 10 < m
    · rw [if_pos hbig]
      dsimp only
      rw [if_pos ((hlimit.value_lt hw).2 hbig)]
      exact ⟨_, rfl, hafter.exact⟩
    · rw [if_neg hbig]
      dsimp only
      rw [if_neg fun h => hbig ((hlimit.value_lt hw).1 h)]
      exact ih (is_next hafter (by omega))

theorem secondsLoop_digits (hw : w.Is m) :
    match secondsDigits m text with
    | some (k, rest) => ∃ w', secondsLoop w text = (true, w', rest) ∧ w'.Is k
    | none => ∃ w' rest, secondsLoop w text = (false, w', rest) ∧ w'.wrapped = false := by
  induction text generalizing w m with
  | nil => exact ⟨w, rfl, hw⟩
  | cons b bs ih =>
    unfold secondsDigits secondsLoop
    by_cases hdigit : isDigit b = true
    · rw [if_pos hdigit, if_pos hdigit]
      have hmax : (9000000000 : Word).Is maxSeconds := ⟨rfl, rfl⟩
      have hover : (9000000000 : UInt64) < w.value ↔ maxSeconds < m := hmax.value_lt hw
      have hlt := digit_lt hdigit
      by_cases hbig : maxSeconds < m
      · rw [if_pos hbig, if_pos (hover.2 hbig)]
        exact ⟨w, _, rfl, hw.exact⟩
      · rw [if_neg hbig, if_neg fun h => hbig (hover.1 h)]
        have hbound : maxSeconds = 9000000000 := rfl
        exact ih (is_next hw (by omega))
    · rw [if_neg hdigit, if_neg hdigit]
      exact ⟨w, rfl, hw⟩

theorem numberFrom_cons (n : ℕ) (b : UInt8) (digits : Bytes) :
    numberFrom n (b :: digits) = numberFrom (n * 10 + (b.toNat - 48)) digits := by
  rw [Nat.mul_comm]
  rfl

/-- nine digits at most: `left` more are taken, and their number stays below its power of ten -/
theorem fractionLoop_digits {left : ℕ} (hw : w.Is m) (hk : k + left = 9) (hm : m < 10 ^ k) :
    ∃ w', fractionLoop w k text = (w', k + ((text.takeWhile isDigit).take left).length, text.dropWhile isDigit) ∧
      w'.Is (numberFrom m ((text.takeWhile isDigit).take left)) ∧
      numberFrom m ((text.takeWhile isDigit).take left) < 10 ^ (k + ((text.takeWhile isDigit).take left).length) := by
  induction text generalizing w m k left with
  | nil => exact ⟨w, by simp [fractionLoop], by simpa [numberFrom] using hw, by simpa [numberFrom] using hm⟩
  | cons b bs ih =>
    unfold fractionLoop
    by_cases hdigit : isDigit b = true
    · rw [if_pos hdigit, List.takeWhile_cons_of_pos hdigit, List.dropWhile_cons_of_pos hdigit]
      have hlt := digit_lt hdigit
      cases left with
      | zero =>
        rw [if_neg (by omega)]
        obtain ⟨w', hrun, his, hsmall⟩ := ih hw hk hm
        rw [List.take_zero] at hrun his hsmall ⊢
        exact ⟨w', hrun, his, hsmall⟩
      | succ left =>
        rw [if_pos (by omega), List.take_succ_cons, numberFrom_cons, List.length_cons]
        have hnext : m * 10 + (b.toNat - 48) < 10 ^ (k + 1) := by
          rw [Nat.pow_succ]
          omega
        have hten : 10 ^ (k + 1) ≤ 10 ^ 9 := Nat.pow_le_pow_right (by decide) (by omega)
        have hleft : k + 1 + left = 9 := by omega
        obtain ⟨w', hrun, his, hsmall⟩ := ih (is_next hw (by omega)) hleft hnext
        rw [Nat.add_assoc, Nat.add_comm 1] at hrun hsmall
        exact ⟨w', hrun, his, hsmall⟩
    · rw [if_neg hdigit, List.takeWhile_cons_of_neg hdigit, List.dropWhile_cons_of_neg hdigit, List.take_nil]
      exact ⟨w, rfl, hw, hm⟩

theorem scaleLoop_is (hw : w.Is m) {rounds : ℕ} (h : m * 10 ^ rounds < 2 ^ 64) : (scaleLoop w rounds).Is
    (m * 10 ^ rounds) := by
  induction rounds generalizing w m with
  | zero => simpa [scaleLoop] using hw
  | succ rounds ih =>
    have hpow : m * 10 ^ (rounds + 1) = m * 10 * 10 ^ rounds := by
      rw [Nat.pow_succ]
      ring
    rw [hpow] at h ⊢
    have hten : m * 10 < 2 ^ 64 := lt_of_le_of_lt (Nat.le_mul_of_pos_right _ (Nat.pow_pos (by decide))) h
    exact ih (hw.mul is_ten hten) h

/-! ## The texts which are taken -/

theorem digitsToUint64_iff (hm : m < 2 ^ 64) : digitsToUint64 m text = some k ↔
    (∀ b ∈ text, isDigit b = true) ∧ numberFrom m text < 2 ^ 64 ∧ k = numberFrom m text := by
  induction text generalizing m with
  | nil =>
    refine ⟨fun h => ⟨fun b hb => absurd hb List.not_mem_nil, hm, ?_⟩, fun h => congrArg some h.2.2.symm⟩
    exact (Option.some.inj h).symm
  | cons b bs ih =>
    unfold digitsToUint64
    rw [List.forall_mem_cons, numberFrom_cons]
    by_cases hdigit : isDigit b = false
    · rw [if_pos hdigit]
      exact iff_of_false (fun h => nomatch h) fun h => absurd (hdigit.symm.trans h.1.1) (by decide)
    rw [if_neg hdigit]
    have hlt := digit_lt (b := b) (by simpa using hdigit)
    have hmono := le_numberFrom (m * 10 + (b.toNat - 48)) bs
    by_cases hbig : (2 ^ 64 - 1 - (b.toNat - 48)) / 10 < m
    · rw [if_pos hbig]
      exact iff_of_false (fun h => nomatch h) fun h => absurd h.2.1 (by omega)
    · rw [if_neg hbig, ih (by omega), and_iff_right (a := isDigit b = true) (by simpa using hdigit)]

/-- the seconds are the digits at the front. Too many of them are refused here or behind the loop -/
theorem secondsDigits_iff : (∀ k rest, secondsDigits m text = some (k, rest) →
      k = numberFrom m (text.takeWhile isDigit) ∧ rest = text.dropWhile isDigit) ∧
    (numberFrom m (text.takeWhile isDigit) ≤ maxSeconds →
      secondsDigits m text = some (numberFrom m (text.takeWhile isDigit), text.dropWhile isDigit)) := by
  induction text generalizing m with
  | nil => simp [secondsDigits, numberFrom, eq_comm]
  | cons b bs ih =>
    unfold secondsDigits
    by_cases hdigit : isDigit b = true
    · rw [if_pos hdigit, List.takeWhile_cons_of_pos hdigit, List.dropWhile_cons_of_pos hdigit, numberFrom_cons]
      by_cases hbig : maxSeconds < m
      · rw [if_pos hbig]
        have hmono := le_numberFrom (m * 10 + (b.toNat - 48)) (bs.takeWhile isDigit)
        exact ⟨fun _ _ h => (nomatch h), fun h => absurd h (by omega)⟩
      · rw [if_neg hbig]
        exact ih
    · rw [if_neg hdigit, List.takeWhile_cons_of_neg hdigit, List.dropWhile_cons_of_neg hdigit]
      refine ⟨fun k rest h => ?_, fun _ => rfl⟩
      obtain ⟨rfl, rfl⟩ := Prod.mk.inj (Option.some.inj h)
      exact ⟨rfl, rfl⟩

/-- the digits of the seconds, and an optional point with the digits of the fraction. There can be none behind the
point -/
def SecondsText (text sec frac : Bytes) : Prop :=
  sec ≠ [] ∧ (∀ b ∈ sec, isDigit b = true) ∧ (∀ b ∈ frac, isDigit b = true) ∧
    (text = sec ∧ frac = [] ∨ text = sec ++ 46 :: frac)

/-- the first nine digits, and a zero for each which is missing -/
def nineDigits (frac : Bytes) : ℕ := number ((frac ++ List.replicate 9 48).take 9)

theorem number_zeros (digits : Bytes) (k : ℕ) : number (digits ++ List.replicate k 48) = number digits * 10 ^ k := by
  induction k with
  | zero => simp
  | succ k ih =>
    have hlast : number (digits ++ List.replicate k 48 ++ [48]) = 10 * number (digits ++ List.replicate k 48) := by
      simp [number]
    rw [List.replicate_succ', ← List.append_assoc, hlast, ih, Nat.pow_succ]
    ring

theorem fractionNs_eq (frac : Bytes) : fractionNs frac = nineDigits frac := by
  unfold fractionNs nineDigits
  rw [List.take_append, List.take_replicate, number_zeros, List.length_take]
  congr 2
  omega

theorem secondsFromText_iff {ns : ℕ} : secondsFromText text = some ns ↔
    ∃ sec frac, SecondsText text sec frac ∧ number sec ≤ maxSeconds ∧
    ns = number sec * 1000000000 + nineDigits frac := by
  constructor
  · intro h
    obtain ⟨⟨k, rest⟩, hseconds, h⟩ := Option.bind_eq_some_iff.1 h
    obtain ⟨rfl, rfl⟩ := secondsDigits_iff.1 _ _ hseconds
    have hsplit := List.takeWhile_append_dropWhile (p := isDigit) (l := text)
    have hall : ∀ (bs : Bytes), ∀ b ∈ bs.takeWhile isDigit, isDigit b = true := fun bs b hb => List.mem_takeWhile_imp hb
    dsimp only at h
    split_ifs at h with hhead hdot hend hend
    · -- a point, and digits up to the end
      obtain ⟨hend, hmax⟩ := not_or.1 hend
      obtain ⟨tail, htail⟩ := List.head?_eq_some_iff.1 hdot
      rw [htail, List.drop_one, List.tail_cons, not_not] at hend
      have hfrac : tail.takeWhile isDigit = tail := List.takeWhile_eq_self_iff.2 (List.dropWhile_eq_nil_iff.1 hend)
      rw [htail, List.drop_one, List.tail_cons, hfrac, fractionNs_eq] at h
      rw [htail] at hsplit
      refine ⟨text.takeWhile isDigit, tail, ⟨?_, hall text, hfrac ▸ hall tail, Or.inr hsplit.symm⟩,
        Nat.not_lt.1 hmax, ?_⟩
      · intro hnil
        rw [hnil] at hsplit
        rw [← hsplit] at hhead
        exact hhead rfl
      · exact (Option.some.inj h).symm
    · -- digits up to the end
      obtain ⟨hend, hmax⟩ := not_or.1 hend
      rw [not_not] at hend
      rw [hend, List.append_nil] at hsplit
      refine ⟨text.takeWhile isDigit, [], ⟨?_, hall text, by simp, Or.inl ⟨hsplit.symm, rfl⟩⟩, Nat.not_lt.1 hmax, ?_⟩
      · intro hnil
        rw [← hsplit, hnil] at hhead
        exact hhead rfl
      · exact (Option.some.inj h).symm
  · rintro ⟨sec, frac, ⟨hne, hsec, hfrac, htext⟩, hmax, rfl⟩
    have hhead : (text.head?.map isDigit).getD false = true := by
      obtain ⟨b, tail, rfl⟩ := List.exists_cons_of_ne_nil hne
      rcases htext with ⟨rfl, -⟩ | rfl <;> exact hsec b List.mem_cons_self
    have hnumber : numberFrom 0 sec = number sec := rfl
    unfold secondsFromText
    rcases htext with ⟨rfl, rfl⟩ | rfl
    · have htake := takeWhile_digits hsec
      have hdrop := dropWhile_digits hsec
      rw [secondsDigits_iff.2 (by rw [htake]; exact hmax), htake, hdrop, Option.bind_some]
      have hpoint : ([] : Bytes).head? ≠ some 46 := by decide
      dsimp only
      rw [if_neg (by rw [hhead]; decide), if_neg hpoint, if_neg hpoint, if_neg (by simpa [hnumber] using hmax), hnumber,
        fractionNs_eq]
    · have htake : (sec ++ 46 :: frac).takeWhile isDigit = sec := Search.takeWhile_stop hsec rfl frac
      have hdrop : (sec ++ 46 :: frac).dropWhile isDigit = 46 :: frac := Search.dropWhile_stop hsec rfl frac
      rw [secondsDigits_iff.2 (by rw [htake]; exact hmax), htake, hdrop, Option.bind_some]
      have hpoint : (46 :: frac).head? = some 46 := rfl
      dsimp only
      rw [if_neg (by rw [hhead]; decide), if_pos hpoint, if_pos hpoint, List.drop_one, List.tail_cons,
        takeWhile_digits hfrac, dropWhile_digits hfrac, if_neg (by simpa [hnumber] using hmax), hnumber, fractionNs_eq]

/-! ## What the calls return -/

theorem toInt64_of_is (hw : w.Is m) : w.value.toInt64 = Int64.ofNat m := by
  rw [← hw.value]
  rw [← UInt64.toInt64_ofNat', UInt64.ofNat_toNat]

theorem jsonText_computes (h : 0 ∉ text) :
    (jsonText text).nano = getUnixNanoFromJson (.string text) ∧ (jsonText text).wrapped = false := by
  unfold jsonText getUnixNanoFromJson
  dsimp only
  rw [cString_eq_self.2 h]
  by_cases hnil : text = []
  · rw [if_pos hnil, if_pos hnil]
    exact ⟨rfl, rfl⟩
  rw [if_neg hnil, if_neg hnil]
  have hzero : (0 : Word).Is 0 := ⟨rfl, rfl⟩
  have hloop : match digitsToUint64 0 text with
      | some k => ∃ w, jsonLoop 0 text = (true, w) ∧ w.Is k
      | none => ∃ w, jsonLoop 0 text = (false, w) ∧ w.wrapped = false := jsonLoop_digits hzero
  cases hdigits : digitsToUint64 0 text with
  | none =>
    rw [hdigits] at hloop
    obtain ⟨w, hrun, hexact⟩ := hloop
    rw [hrun]
    exact ⟨rfl, hexact⟩
  | some k =>
    rw [hdigits] at hloop
    obtain ⟨w, hrun, hw⟩ := hloop
    have hmax : (9223372036854775807 : Word).Is (2 ^ 63 - 1) := ⟨rfl, rfl⟩
    have hover : (9223372036854775807 : UInt64) < w.value ↔ 2 ^ 63 - 1 < k := hmax.value_lt hw
    rw [hrun, Option.bind_some]
    dsimp only
    by_cases hbig : 2 ^ 63 - 1 < k
    · rw [if_pos (hover.2 hbig), if_pos hbig]
      exact ⟨rfl, hw.exact⟩
    · rw [if_neg fun hlt => hbig (hover.1 hlt), if_neg hbig, toInt64_of_is hw]
      exact ⟨rfl, hw.exact⟩

/-- the fraction, scaled to nine digits. A text without a point has none -/
theorem fraction_computes (rest : Bytes) :
    let fraction := if rest.head? = some 46 then (rest.drop 1).takeWhile isDigit else []
    let behind := if rest.head? = some 46 then (rest.drop 1).dropWhile isDigit else rest
    ∃ frac fracDigits, (if rest.head? = some 46 then fractionLoop 0 0 (rest.drop 1) else (0, 0, rest)) =
      (frac, fracDigits, behind) ∧
      frac.wrapped = false ∧ (scaleLoop frac (9 - fracDigits)).Is (fractionNs fraction) ∧
        fractionNs fraction < 10 ^ 9 := by
  have hzero : (0 : Word).Is 0 := ⟨rfl, rfl⟩
  by_cases hpoint : rest.head? = some 46
  · simp only [if_pos hpoint]
    have hnine : 0 + 9 = 9 := rfl
    obtain ⟨frac, hrun, his, -⟩ := @fractionLoop_digits (rest.drop 1) _ _ _ _ hzero hnine (by decide)
    have hsmall : fractionNs ((rest.drop 1).takeWhile isDigit) < 10 ^ 9 :=
      fractionNs_lt fun b hb => List.mem_takeWhile_imp hb
    rw [Nat.zero_add] at hrun
    exact ⟨frac, _, hrun, his.exact, scaleLoop_is his (lt_trans hsmall (by decide)), hsmall⟩
  · simp only [if_neg hpoint]
    exact ⟨0, 0, rfl, rfl, scaleLoop_is hzero (by decide), by decide⟩

theorem secondsText_computes (h : 0 ∉ text) :
    (secondsText text).nano = getUnixNanoFromSeconds (.string text) ∧ (secondsText text).wrapped = false := by
  unfold secondsText getUnixNanoFromSeconds secondsFromText
  dsimp only
  rw [cString_eq_self.2 h]
  have hzero : (0 : Word).Is 0 := ⟨rfl, rfl⟩
  have hloop : match secondsDigits 0 text with
      | some (k, rest) => ∃ w, secondsLoop 0 text = (true, w, rest) ∧ w.Is k
      | none => ∃ w rest, secondsLoop 0 text = (false, w, rest) ∧ w.wrapped = false := secondsLoop_digits hzero
  cases hdigits : secondsDigits 0 text with
  | none =>
    rw [hdigits] at hloop
    obtain ⟨w, rest, hrun, hexact⟩ := hloop
    rw [hrun]
    exact ⟨rfl, hexact⟩
  | some taken =>
    obtain ⟨sec, rest⟩ := taken
    rw [hdigits] at hloop
    obtain ⟨w, hrun, hw⟩ := hloop
    rw [hrun, Option.bind_some]
    dsimp only
    by_cases hhead : (text.head?.map isDigit).getD false = false
    · rw [if_pos hhead, if_pos hhead]
      exact ⟨rfl, hw.exact⟩
    rw [if_neg hhead, if_neg hhead]
    have hmax : (9000000000 : Word).Is maxSeconds := ⟨rfl, rfl⟩
    have hover : (9000000000 : UInt64) < w.value ↔ maxSeconds < sec := hmax.value_lt hw
    obtain ⟨frac, fracDigits, hfraction, hexact, hscaled, hsmall⟩ := fraction_computes rest
    rw [hfraction]
    simp only [hover]
    by_cases hbad : (if rest.head? = some 46 then (rest.drop 1).dropWhile isDigit else rest) ≠ [] ∨ maxSeconds < sec
    · rw [if_pos hbad, if_pos hbad, hw.exact, hexact]
      exact ⟨rfl, rfl⟩
    rw [if_neg hbad, if_neg hbad]
    have hbillion : (1000000000 : Word).Is 1000000000 := ⟨rfl, rfl⟩
    have hsec : sec ≤ 9000000000 := Nat.not_lt.1 fun hlt => hbad (Or.inr hlt)
    have hnano := (hw.mul hbillion (by omega)).add hscaled (by omega)
    exact ⟨congrArg some (toInt64_of_is hnano), hnano.exact⟩

theorem toInt_ofNat (h : m < 2 ^ 63) : (Int64.ofNat m).toInt = m := Int64.toInt_ofNat_of_lt h

theorem getUnixNanoFromJson_iff (h : 0 ∉ text) {n : Int64} : getUnixNanoFromJson (.string text) = some n ↔
    text ≠ [] ∧ (∀ b ∈ text, isDigit b = true) ∧ number text ≤ 2 ^ 63 - 1 ∧ n.toInt = number text := by
  have hnumber : numberFrom 0 text = number text := rfl
  unfold getUnixNanoFromJson
  dsimp only
  rw [cString_eq_self.2 h, Option.bind_eq_some_iff]
  constructor
  · rintro ⟨k, hk, hn⟩
    split_ifs at hk hn with hnil hbig
    obtain ⟨hdigits, -, rfl⟩ := (digitsToUint64_iff (by decide)).1 hk
    obtain rfl := Option.some.inj hn
    rw [hnumber] at hbig ⊢
    exact ⟨hnil, hdigits, Nat.not_lt.1 hbig, toInt_ofNat (by omega)⟩
  · rintro ⟨hnil, hdigits, hmax, hn⟩
    have hk : digitsToUint64 0 text = some (number text) :=
      (digitsToUint64_iff (by decide)).2 ⟨hdigits, by rw [hnumber]; omega, rfl⟩
    refine ⟨number text, by rw [if_neg hnil, hk], ?_⟩
    rw [if_neg (Nat.not_lt.2 hmax)]
    apply congrArg some
    apply Int64.toInt_inj.1
    rw [hn]
    exact toInt_ofNat (by omega)

theorem getUnixNanoFromSeconds_iff (h : 0 ∉ text) {n : Int64} : getUnixNanoFromSeconds (.string text) = some n ↔
    ∃ sec frac, SecondsText text sec frac ∧ number sec ≤ maxSeconds ∧
      n.toInt = number sec * 1000000000 + nineDigits frac := by
  unfold getUnixNanoFromSeconds
  dsimp only
  rw [cString_eq_self.2 h, Option.map_eq_some_iff]
  constructor
  · rintro ⟨ns, hns, rfl⟩
    obtain ⟨sec, frac, htext, hmax, rfl⟩ := secondsFromText_iff.1 hns
    refine ⟨sec, frac, htext, hmax, ?_⟩
    rw [toInt_ofNat (secondsFromText_lt hns)]
    push_cast
    rfl
  · rintro ⟨sec, frac, htext, hmax, hn⟩
    have hns := secondsFromText_iff.2 ⟨sec, frac, htext, hmax, rfl⟩
    refine ⟨_, hns, ?_⟩
    apply Int64.toInt_inj.1
    rw [hn, toInt_ofNat (secondsFromText_lt hns)]
    push_cast
    rfl

/-- **Times are read exactly, and nothing wraps on the way.** A text without NUL is taken as nanoseconds when it is the
decimal digits of a number up to `INT64_MAX`, and as seconds when it is digits with an optional point and the digits of
a fraction (there can be none), up to 9000000000 seconds. Every other text is refused. -/
theorem times_exact (text : Bytes) (h : 0 ∉ text) :
    ((jsonText text).nano = getUnixNanoFromJson (.string text) ∧ (jsonText text).wrapped = false ∧
      ∀ n : Int64, (jsonText text).nano = some n ↔
        text ≠ [] ∧ (∀ b ∈ text, isDigit b = true) ∧ number text ≤ 2 ^ 63 - 1 ∧ n.toInt = number text) ∧
    (secondsText text).nano = getUnixNanoFromSeconds (.string text) ∧ (secondsText text).wrapped = false ∧
      ∀ n : Int64, (secondsText text).nano = some n ↔
        ∃ sec frac, SecondsText text sec frac ∧ number sec ≤ 9000000000 ∧
          n.toInt = number sec * 1000000000 + nineDigits frac := by
  obtain ⟨hjson, hjsonExact⟩ := jsonText_computes h
  obtain ⟨hseconds, hsecondsExact⟩ := secondsText_computes h
  refine ⟨⟨hjson, hjsonExact, fun n => ?_⟩, hseconds, hsecondsExact, fun n => ?_⟩
  · rw [hjson]
    exact getUnixNanoFromJson_iff h
  · rw [hseconds]
    exact getUnixNanoFromSeconds_iff h

/-- the last nanosecond, and the last second with a fraction of one digit -/
theorem times_exact_limits : (jsonText (ascii "9223372036854775807")).nano = some (Int64.ofNat (2 ^ 63 - 1)) ∧
    (jsonText (ascii "9223372036854775808")).nano = none ∧
    (secondsText (ascii "9000000000.5")).nano = some (Int64.ofNat 9000000000500000000) ∧
    (secondsText (ascii "9000000001")).wrapped = false := by
  have hno : ∀ text ∈ [ascii "9223372036854775807", ascii "9223372036854775808", ascii "9000000000.5",
    ascii "9000000001"],
      0 ∉ text := by decide +kernel
  refine ⟨((times_exact _ (hno _ (by decide +kernel))).1.2.2 _).2 (by decide +kernel), ?_, ?_, ?_⟩
  · rw [(times_exact _ (hno _ (by decide +kernel))).1.1]
    decide +kernel
  · rw [(times_exact _ (hno _ (by decide +kernel))).2.1]
    decide +kernel
  · exact (times_exact _ (hno _ (by decide +kernel))).2.2.1

end DominoLogForwarder.Otelfwd
