/-
The text of the state file: six lines `name=number`. `stateText` is what `SaveState` prints and `parseState` is what
`LoadState` does with the text it read, with the C functions it calls (`strtok`, `strchr`, `strtoull`).

`parseState_stateText`: what was printed is read back.
-/
import DominoLogForwarder.FileReader.Kernel
import Mathlib.Data.List.TakeWhile
import Mathlib.Data.Nat.Digits.Lemmas

namespace DominoLogForwarder.FileReader

open Lines

def ascii (s : String) : Bytes := s.toList.map fun c => c.toNat.toUInt8

/-- `=` -/
def eqSign : UInt8 := 61

/-- `FILE_READER_STATE_VERSION` -/
def stateVersion : ℕ := 1

/-- `FILE_READER_STATE_MAX` -/
def stateMax : ℕ := 4096

structure SavedState where
  device : ℕ := 0
  inode : ℕ := 0
  offset : ℕ := 0
  headLen : ℕ := 0
  headHash : ℕ := 0
deriving DecidableEq, Repr

/-- `HashBytes`: FNV-1a, 64 bit -/
def hashBytes (bytes : Bytes) : UInt64 :=
  bytes.foldl (fun hash b => (hash ^^^ b.toUInt64) * 1099511628211) 14695981039346656037

/-! ## Numbers -/

def digit (d : ℕ) : UInt8 := (48 + d).toUInt8

/-- `%llu` -/
def decimal (n : ℕ) : Bytes := if n = 0 then [digit 0] else ((Nat.digits 10 n).map digit).reverse

def isDigit (b : UInt8) : Bool := 48 ≤ b && b ≤ 57

/-- `isspace` -/
def isSpace (b : UInt8) : Bool := b = 32 || (9 ≤ b && b ≤ 13)

/-- the number which digits stand for -/
def number (digits : Bytes) : ℕ := digits.foldl (fun n b => 10 * n + (b.toNat - 48)) 0

/-- what `strtoull` returns, what it leaves behind in `pEnd` and `errno` -/
structure Strtoull where
  number : ℕ
  rest : Bytes
  outOfRange : Bool
deriving DecidableEq, Repr

/-- blanks, a sign, and as many digits as there are. Without a digit nothing is taken -/
def strtoull (bs : Bytes) : Strtoull :=
  let unsigned := bs.dropWhile isSpace
  let negative := unsigned.head? = some 45
  let digits := if negative ∨ unsigned.head? = some 43 then unsigned.tail else unsigned
  let n := number (digits.takeWhile isDigit)
  if digits.takeWhile isDigit = [] then ⟨0, bs, false⟩
  else if 2 ^ 64 ≤ n then ⟨2 ^ 64 - 1, digits.dropWhile isDigit, true⟩
  else ⟨if negative then (2 ^ 64 - n) % 2 ^ 64 else n, digits.dropWhile isDigit, false⟩

/-! ## The text -/

/-- a line of the state file, without its new line -/
def stateLine (name : String) (n : ℕ) : Bytes := ascii name ++ eqSign :: decimal n

def stateLines (saved : SavedState) : List Bytes :=
  [stateLine "version" stateVersion, stateLine "device" saved.device, stateLine "inode" saved.inode,
    stateLine "offset" saved.offset, stateLine "headlen" saved.headLen, stateLine "headhash" saved.headHash]

/-- what `SaveState` prints -/
def stateText (saved : SavedState) : Bytes := joinLines nl (stateLines saved)

/-- the values which were found, and the flags `bVersion` to `bHeadHash` -/
structure Fields where
  version : Bool := false
  device : Option ℕ := none
  inode : Option ℕ := none
  offset : Option ℕ := none
  headLen : Option ℕ := none
  headHash : Option ℕ := none
deriving DecidableEq, Repr

/-- a line with a known name. Other names are left alone -/
def setField (name : Bytes) (n : ℕ) (fields : Fields) : Except Message Fields :=
  if name = ascii "version" then
    if n = stateVersion then .ok { fields with version := true } else .error (.stateVersion n)
  else if name = ascii "device" then .ok { fields with device := some n }
  else if name = ascii "inode" then .ok { fields with inode := some n }
  else if name = ascii "offset" then .ok { fields with offset := some n }
  else if name = ascii "headlen" then .ok { fields with headLen := some n }
  else if name = ascii "headhash" then .ok { fields with headHash := some n }
  else .ok fields

/-- one round of the loop over the lines. Only digits: `strtoull` also takes a sign and blanks -/
def readField (fields : Fields) (line : Bytes) : Except Message Fields :=
  match find eqSign line with
  | none => .ok fields
  | some n =>
    let name := line.take n
    let value := line.drop (n + 1)
    let read := strtoull value
    if read.outOfRange ∨ read.rest = value ∨ read.rest ≠ [] ∨ value.head?.all isDigit = false then
      .error (.stateDamaged name)
    else setField name read.number fields

/-- all six fields, and a head which fits -/
def checkFields : Fields → Except Message SavedState
  | ⟨true, some device, some inode, some offset, some headLen, some headHash⟩ =>
    if headMax < headLen ∨ offset < headLen then .error .stateIncomplete
    else .ok ⟨device, inode, offset, headLen, headHash⟩
  | _ => .error .stateIncomplete

/-- the tokens of `strtok`: what stands between new lines, up to the first NUL byte, and is not empty -/
def tokens (bs : Bytes) : List Bytes :=
  let text := bs.takeWhile (· ≠ 0)
  (lines nl text ++ [rest nl text]).filter (· ≠ [])

def parseState (bs : Bytes) : Except Message SavedState := do
  let fields ← (tokens bs).foldlM readField {}
  checkFields fields

/-! ## What was printed is read back -/

theorem isDigit_digit {d : ℕ} (h : d < 10) : isDigit (digit d) = true := by
  interval_cases d <;> rfl

theorem digit_toNat {d : ℕ} (h : d < 10) : (digit d).toNat = 48 + d := by
  interval_cases d <;> rfl

theorem isDigit_of_mem_decimal {n : ℕ} {b : UInt8} (hb : b ∈ decimal n) : isDigit b = true := by
  unfold decimal at hb
  split_ifs at hb with h0
  · rw [List.mem_singleton.1 hb]
    rfl
  · obtain ⟨d, hd, rfl⟩ := List.mem_map.1 (List.mem_reverse.1 hb)
    exact isDigit_digit (Nat.digits_lt_base (by decide) hd)

theorem decimal_ne_nil (n : ℕ) : decimal n ≠ [] := by
  unfold decimal
  split_ifs with h0
  · simp
  · simp [Nat.digits_ne_nil_iff_ne_zero.2 h0]

/-- the digits of a number, the last one first, stand for the number -/
theorem number_reverse {ds : List ℕ} (h : ∀ d ∈ ds, d < 10) : number (ds.map digit).reverse = Nat.ofDigits 10 ds := by
  induction ds with
  | nil => rfl
  | cons d ds ih =>
    obtain ⟨hd, hds⟩ := List.forall_mem_cons.1 h
    have htail := ih hds
    unfold number at *
    rw [List.map_cons, List.reverse_cons, List.foldl_append, htail, List.foldl_cons, List.foldl_nil, digit_toNat hd,
      Nat.ofDigits_cons]
    omega

theorem decimal_length_le {n k : ℕ} (hk : 0 < k) (hn : n < 10 ^ k) : (decimal n).length ≤ k := by
  unfold decimal
  split_ifs with h0
  · exact hk
  · rw [List.length_reverse, List.length_map]
    exact (Nat.digits_length_le_iff (by decide) n).2 hn

theorem number_decimal (n : ℕ) : number (decimal n) = n := by
  unfold decimal
  split_ifs with h0
  · rw [h0]
    rfl
  · rw [number_reverse fun d hd => Nat.digits_lt_base (by decide) hd, Nat.ofDigits_digits]

theorem takeWhile_digits {bs : Bytes} (h : ∀ b ∈ bs, isDigit b = true) : bs.takeWhile isDigit = bs :=
  List.takeWhile_eq_self_iff.2 h

theorem dropWhile_digits {bs : Bytes} (h : ∀ b ∈ bs, isDigit b = true) : bs.dropWhile isDigit = [] :=
  List.dropWhile_eq_nil_iff.2 h

/-- a digit is not a blank and not a sign -/
theorem not_blank_of_isDigit {b : UInt8} (h : isDigit b = true) : isSpace b = false ∧ b ≠ 45 ∧ b ≠ 43 := by
  unfold isDigit at h
  simp only [Bool.and_eq_true, decide_eq_true_eq] at h
  obtain ⟨hlo, hhi⟩ := h
  rw [UInt8.le_iff_toNat_le] at hlo hhi
  have hlo' : 48 ≤ b.toNat := hlo
  refine ⟨?_, ?_, ?_⟩
  · unfold isSpace
    simp only [Bool.or_eq_false_iff, Bool.and_eq_false_iff, decide_eq_false_iff_not, UInt8.le_iff_toNat_le]
    refine ⟨fun h32 => ?_, Or.inr fun h13 => ?_⟩
    · rw [h32] at hlo'
      exact absurd hlo' (by decide)
    · have h13' : b.toNat ≤ 13 := h13
      omega
  · intro h45
    rw [h45] at hlo'
    exact absurd hlo' (by decide)
  · intro h43
    rw [h43] at hlo'
    exact absurd hlo' (by decide)

/-- `strtoull` of digits which fit -/
theorem strtoull_digits {bs : Bytes} (h : ∀ b ∈ bs, isDigit b = true) (hne : bs ≠ []) (hn : number bs < 2 ^ 64) :
    strtoull bs = ⟨number bs, [], false⟩ := by
  obtain ⟨b, tail, rfl⟩ := List.exists_cons_of_ne_nil hne
  obtain ⟨hspace, hminus, hplus⟩ := not_blank_of_isDigit (h b List.mem_cons_self)
  have hdrop : (b :: tail).dropWhile isSpace = b :: tail := by
    rw [List.dropWhile_cons, hspace]
    rfl
  unfold strtoull
  simp only [hdrop, List.head?_cons, Option.some.injEq, hminus, hplus, or_self, if_false]
  rw [takeWhile_digits h, dropWhile_digits h, if_neg hne, if_neg (Nat.not_le.2 hn)]

theorem strtoull_decimal {n : ℕ} (hn : n < 2 ^ 64) : strtoull (decimal n) = ⟨n, [], false⟩ := by
  have hlt : number (decimal n) < 2 ^ 64 := by rwa [number_decimal]
  rw [strtoull_digits (fun b hb => isDigit_of_mem_decimal hb) (decimal_ne_nil n) hlt, number_decimal]

/-- the line of a known name is read as the field of that name -/
theorem readField_stateLine {fields : Fields} {name : String} {n : ℕ} (hname : eqSign ∉ ascii name)
    (hn : n < 2 ^ 64) : readField fields (stateLine name n) = setField (ascii name) n fields := by
  have hne := decimal_ne_nil n
  have hdrop : (stateLine name n).drop ((ascii name).length + 1) = decimal n := by
    simp [stateLine, List.drop_append]
  have htake : (stateLine name n).take (ascii name).length = ascii name := by
    simp [stateLine]
  have hdigit : (decimal n).head?.all isDigit = true := by
    rw [Option.all_eq_true_iff_get]
    intro hs
    exact isDigit_of_mem_decimal (List.mem_of_mem_head? (Option.get_mem hs))
  unfold readField
  rw [show find eqSign (stateLine name n) = some (ascii name).length from find_line hname _]
  simp only [hdrop, htake, strtoull_decimal hn, hdigit]
  simp [hne.symm]

/-- bytes of a line of the state file are printed characters -/
theorem stateLine_plain {name : String} {n : ℕ} {b : UInt8} (hname : nl ∉ ascii name ∧ 0 ∉ ascii name)
    (hb : b ∈ stateLine name n) : b ≠ nl ∧ b ≠ 0 := by
  rcases List.mem_append.1 hb with hb | hb
  · exact ⟨fun h => hname.1 (h ▸ hb), fun h => hname.2 (h ▸ hb)⟩
  · rcases List.mem_cons.1 hb with rfl | hb
    · exact ⟨by decide, by decide⟩
    · have hd := isDigit_of_mem_decimal hb
      constructor
      · rintro rfl
        exact absurd hd (by decide)
      · rintro rfl
        exact absurd hd (by decide)

theorem stateLines_plain {saved : SavedState} {line : Bytes} {b : UInt8} (hline : line ∈ stateLines saved)
    (hb : b ∈ line) : b ≠ nl ∧ b ≠ 0 := by
  simp only [stateLines, List.mem_cons, List.not_mem_nil, or_false] at hline
  rcases hline with rfl | rfl | rfl | rfl | rfl | rfl <;> exact stateLine_plain (by decide) hb

theorem tokens_stateText (saved : SavedState) : tokens (stateText saved) = stateLines saved := by
  have hplain : ∀ b ∈ stateText saved, b ≠ 0 := by
    intro b hb
    obtain ⟨line, hline, hb⟩ := List.mem_flatMap.1 hb
    rcases List.mem_append.1 hb with hb | hb
    · exact (stateLines_plain hline hb).2
    · rw [List.mem_singleton.1 hb]
      decide
  have hnl : ∀ line ∈ stateLines saved, nl ∉ line := fun line hline hb => (stateLines_plain hline hb).1 rfl
  have hcut : cut nl (stateText saved) = (stateLines saved, []) := by
    have := cut_joinLines hnl (p := []) List.not_mem_nil
    rwa [List.append_nil] at this
  have hne : ∀ line ∈ stateLines saved, line ≠ [] := by
    intro line hline
    simp only [stateLines, List.mem_cons, List.not_mem_nil, or_false] at hline
    rcases hline with rfl | rfl | rfl | rfl | rfl | rfl <;> simp [stateLine]
  unfold tokens
  rw [List.takeWhile_eq_self_iff.2 (by simpa using hplain)]
  simp only [lines, rest, hcut, List.filter_append]
  rw [List.filter_eq_self.2 (by simpa using hne)]
  simp

/-- the numbers are 64-bit numbers, and the head fits -/
structure SavedState.Fits (saved : SavedState) : Prop where
  device : saved.device < 2 ^ 64
  inode : saved.inode < 2 ^ 64
  offset : saved.offset < 2 ^ 64
  headLen : saved.headLen ≤ headMax
  headLen_le : saved.headLen ≤ saved.offset
  headHash : saved.headHash < 2 ^ 64

section

variable (fields : Fields) (n : ℕ)

theorem setField_version : setField (ascii "version") stateVersion fields = .ok { fields with version := true } := rfl

theorem setField_device : setField (ascii "device") n fields = .ok { fields with device := some n } := rfl

theorem setField_inode : setField (ascii "inode") n fields = .ok { fields with inode := some n } := rfl

theorem setField_offset : setField (ascii "offset") n fields = .ok { fields with offset := some n } := rfl

theorem setField_headLen : setField (ascii "headlen") n fields = .ok { fields with headLen := some n } := rfl

theorem setField_headHash : setField (ascii "headhash") n fields = .ok { fields with headHash := some n } := rfl

end

/-- **What `SaveState` printed is what `LoadState` reads.** -/
theorem parseState_stateText {saved : SavedState} (h : saved.Fits) : parseState (stateText saved) = .ok saved := by
  have hlen : saved.headLen < 2 ^ 64 := lt_of_le_of_lt h.headLen (by decide)
  have hread : (stateLines saved).foldlM readField {} =
      .ok ⟨true, some saved.device, some saved.inode, some saved.offset, some saved.headLen, some saved.headHash⟩ := by
    simp only [stateLines, List.foldlM_cons, List.foldlM_nil]
    rw [readField_stateLine (by decide) (by decide), setField_version]
    simp only [bind, Except.bind]
    rw [readField_stateLine (by decide) h.device, setField_device]
    dsimp only
    rw [readField_stateLine (by decide) h.inode, setField_inode]
    dsimp only
    rw [readField_stateLine (by decide) h.offset, setField_offset]
    dsimp only
    rw [readField_stateLine (by decide) hlen, setField_headLen]
    dsimp only
    rw [readField_stateLine (by decide) h.headHash, setField_headHash]
    rfl
  have hfits : ¬ (headMax < saved.headLen ∨ saved.offset < saved.headLen) := by
    have := h.headLen
    have := h.headLen_le
    omega
  unfold parseState
  rw [tokens_stateText, hread]
  simp only [bind, Except.bind, checkFields]
  rw [if_neg hfits]

end DominoLogForwarder.FileReader
