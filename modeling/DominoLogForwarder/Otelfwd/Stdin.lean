/-
Standard input (`otelfwd.cpp`): the loop of `main` which makes a record of every line, and `ExtractProcessId`, which
reads the process id at the start of a line.

The loop reads a line with `getline`, and puts it into the queue as a C string. `stdinLines` is what it should queue.
`stdin_unchanged`: it does, when no byte of the stream is NUL.

A process id is a `pid_t`, a signed number of 32 bits. The code does not look for an overflow, and here it wraps;
`pidOverflows` says whether it did. `processId_exact`: the result is the real number or 0, when the digits fit.
-/
import DominoLogForwarder.Lib.Lines
import DominoLogForwarder.Lib.Search
import DominoLogForwarder.Otelfwd.Fifo
import DominoLogForwarder.Otelfwd.Inputs

namespace DominoLogForwarder.Otelfwd

open FileReader (Bytes ascii isDigit number nl)
open Otlp (cString cString_eq_self)

/-! ## The loop over standard input -/

/-- the bytes up to the next new line, with the new line, and what comes behind them. None at the end of the stream -/
def getline (stream : Bytes) : Option (Bytes × Bytes) :=
  if stream = [] then none
  else
    match stream.dropWhile (· ≠ nl) with
    | [] => some (stream, [])
    | b :: rest => some (stream.takeWhile (· ≠ nl) ++ [b], rest)

theorem getline_shorter {stream line rest : Bytes} (h : getline stream = some (line, rest)) : rest.length <
    stream.length := by
  unfold getline at h
  split_ifs at h with hempty
  have hdrop := (List.dropWhile_suffix (fun b => decide (b ≠ nl)) (l := stream)).length_le
  cases hcase : stream.dropWhile (· ≠ nl) with
  | nil =>
    rw [hcase] at h
    cases h
    exact List.length_pos_iff.2 hempty
  | cons b tail =>
    rw [hcase] at h hdrop
    cases h
    exact hdrop

/-- the buffer of `getline`, which ends with a NUL byte. The new line is replaced by another one -/
def lineBuffer (line : Bytes) : Bytes :=
  (if line.getLast? = some nl then line.dropLast ++ [0] else line) ++ [0]

/-- the loop of `main`. `clock` is the time at which each line is read -/
def stdinLoop (clock : ℕ → Int64) (count : ℕ) (stream : Bytes) (fifo : LogFifo LogRecord) : LogFifo LogRecord :=
  match _h : getline stream with
  | none => fifo
  | some (line, rest) =>
    stdinLoop clock (count + 1) rest (fifo.push { timeNs := clock count, line := cString (lineBuffer line) })
termination_by stream.length
decreasing_by exact getline_shorter _h

/-- the lines of a stream. The last one has no new line -/
def stdinLines (stream : Bytes) : List Bytes :=
  Lines.lines nl stream ++ if Lines.rest nl stream = [] then [] else [Lines.rest nl stream]

theorem stdinLines_nil : stdinLines [] = [] := rfl

theorem stdinLines_last {text : Bytes} (h : nl ∉ text) (hne : text ≠ []) : stdinLines text = [text] := by
  unfold stdinLines Lines.lines Lines.rest
  rw [Lines.cut_of_not_mem h, if_neg hne]
  rfl

theorem stdinLines_cons {line : Bytes} (h : nl ∉ line) (rest : Bytes) :
    stdinLines (line ++ nl :: rest) = line :: stdinLines rest := by
  unfold stdinLines Lines.lines Lines.rest
  rw [Lines.cut_line h]
  rfl

theorem getline_last {text : Bytes} (h : nl ∉ text) (hne : text ≠ []) : getline text = some (text, []) := by
  unfold getline
  rw [if_neg hne, Search.dropWhile_ne_nil h]

theorem getline_line {line : Bytes} (h : nl ∉ line) (rest : Bytes) :
    getline (line ++ nl :: rest) = some (line ++ [nl], rest) := by
  unfold getline
  rw [if_neg (by simp), Search.dropWhile_ne h, Search.takeWhile_ne h]

theorem cString_append (text rest : Bytes) : cString (text ++ 0 :: rest) = cString text := by
  unfold cString
  induction text with
  | nil => rfl
  | cons b text ih =>
    rw [List.cons_append, List.takeWhile_cons, List.takeWhile_cons, ih]

theorem cString_buffer_last {text : Bytes} (h : nl ∉ text) : cString (lineBuffer text) = cString text := by
  unfold lineBuffer
  rw [if_neg fun hlast => h (List.mem_of_getLast? hlast), cString_append]

theorem cString_buffer_line (line : Bytes) : cString (lineBuffer (line ++ [nl])) = cString line := by
  unfold lineBuffer
  rw [List.getLast?_concat, if_pos rfl, List.dropLast_concat, List.append_assoc]
  exact cString_append line [0]

theorem stdinLoop_end (clock : ℕ → Int64) (count : ℕ)
    (fifo : LogFifo LogRecord) : stdinLoop clock count [] fifo = fifo := by
  rw [stdinLoop]
  rfl

/-- a round of the loop -/
theorem stdinLoop_round {clock : ℕ → Int64} {count : ℕ} {stream line rest : Bytes} {fifo : LogFifo LogRecord}
    (h : getline stream = some (line, rest)) : stdinLoop clock count stream fifo =
      stdinLoop clock (count + 1) rest (fifo.push { timeNs := clock count, line := cString (lineBuffer line) }) := by
  rw [stdinLoop]
  split
  · rename_i hnone
    exact nomatch h.symm.trans hnone
  · rename_i line' rest' hsome
    obtain ⟨rfl, rfl⟩ := Prod.mk.inj (Option.some.inj (h.symm.trans hsome))
    rfl

/-- **Every line is queued, as a C string.** -/
theorem stdinLoop_lines (clock : ℕ → Int64) (count : ℕ) (stream : Bytes) (fifo : LogFifo LogRecord) :
    (stdinLoop clock count stream fifo).queue.map LogRecord.line =
      fifo.queue.map LogRecord.line ++ (stdinLines stream).map cString := by
  -- induction on the length of the stream, a line at a time
  induction hlen : stream.length using Nat.strong_induction_on generalizing stream count fifo with
  | _ n ih =>
    by_cases hempty : stream = []
    · rw [hempty, stdinLoop_end, stdinLines_nil, List.map_nil, List.append_nil]
    by_cases hnl : nl ∈ stream
    · obtain ⟨line, rest, rfl, hline⟩ := List.eq_append_cons_of_mem hnl
      have hshort : rest.length < n := by
        rw [← hlen, List.length_append, List.length_cons]
        omega
      rw [stdinLoop_round (getline_line hline rest), ih _ hshort _ _ _ rfl, stdinLines_cons hline, cString_buffer_line]
      simp [LogFifo.push]
    · have hshort : ([] : Bytes).length < n := hlen ▸ List.length_pos_iff.2 hempty
      rw [stdinLoop_round (getline_last hnl hempty), ih _ hshort _ _ _ rfl, stdinLines_nil, stdinLines_last hnl hempty,
        cString_buffer_last hnl]
      simp [LogFifo.push]

theorem mem_stdinLines {stream : Bytes} {b : UInt8} (hb : b ≠ nl) : b ∈ stream ↔
    ∃ line ∈ stdinLines stream, b ∈ line := by
  have hjoin := Lines.joinLines_lines nl stream
  have hlines : b ∈ Lines.joinLines nl (Lines.lines nl stream) ↔ ∃ line ∈ Lines.lines nl stream, b ∈ line := by
    simp [Lines.joinLines, hb]
  have hrest : b ∈ Lines.rest nl stream ↔
      ∃ line ∈ (if Lines.rest nl stream = [] then [] else [Lines.rest nl stream]), b ∈ line := by
    split_ifs with h <;> simp [h]
  calc b ∈ stream
      ↔ b ∈ Lines.joinLines nl (Lines.lines nl stream) ∨ b ∈ Lines.rest nl stream := by rw [← List.mem_append, hjoin]
    _ ↔ ∃ line ∈ stdinLines stream, b ∈ line := by
        rw [hlines, hrest]
        simp only [stdinLines, List.mem_append, or_and_right, exists_or]

/-- the loop queues the lines of the stream, in order, each with all of its bytes -/
def Unchanged (clock : ℕ → Int64) (stream : Bytes) : Prop :=
  ∀ fifo, (stdinLoop clock 0 stream fifo).queue.map LogRecord.line = fifo.queue.map LogRecord.line ++ stdinLines stream

/-- **The lines arrive unchanged exactly when no byte of the stream is NUL.** -/
theorem stdin_unchanged (clock : ℕ → Int64) (stream : Bytes) : Unchanged clock stream ↔ 0 ∉ stream := by
  have hlines : Unchanged clock stream ↔ (stdinLines stream).map cString = stdinLines stream := by
    constructor
    · intro h
      exact List.append_cancel_left ((stdinLoop_lines clock 0 stream {}).symm.trans (h {}))
    · intro h fifo
      rw [stdinLoop_lines, h]
  have hsame : (stdinLines stream).map cString = stdinLines stream ↔ ∀ line ∈ stdinLines stream, 0 ∉ line := by
    conv_lhs => rw [← List.map_id (stdinLines stream), List.map_map]
    rw [List.map_inj_left]
    exact forall₂_congr fun _ _ => cString_eq_self
  rw [hlines, hsame, mem_stdinLines (by decide)]
  simp only [not_exists, not_and]

/-- **What is behind a NUL byte is lost.** -/
theorem stdin_cut : ¬Unchanged (fun _ => 0) (ascii "a" ++ [0] ++ ascii "b\n") := by
  intro h
  have hqueue := (stdinLoop_lines (fun _ => 0) 0 (ascii "a" ++ [0] ++ ascii "b\n") {}).symm.trans (h {})
  exact absurd hqueue (by decide)

/-! ## The process id -/

/-- a round of the loop: one more digit, in 32 bits -/
def pidDigit (pid : Int32) (c : UInt8) : Int32 := pid * 10 + Int32.ofNat (c.toNat - 48)

/-- the loop of `ExtractProcessId` -/
def scanPid (pid : Int32) : Bytes → Int32
  | [] => 0
  | c :: rest => if c = 58 then pid else if isDigit c = false then 0 else scanPid (pidDigit pid c) rest

/-- the part of a line which is scanned, behind the bracket -/
def pidPrefix (line : Bytes) : Bytes := (line.take 40).drop 1

def extractProcessId (line : Bytes) : Int32 := if line.head? = some 91 then scanPid 0 (pidPrefix line) else 0

/-- the rounds of the loop, and whether one of them left the range of 32 bits -/
def pidOverflows (pid : Int32) : Bytes → Bool
  | [] => false
  | c :: rest =>
    if c = 58 then false
    else if isDigit c = false then false
    else decide (pid.toInt * 10 + (c.toNat - 48 : ℕ) ≠ (pidDigit pid c).toInt) || pidOverflows (pidDigit pid c) rest

/-- a bracket, digits and a colon in the first 40 characters -/
def HasPid (line digits : Bytes) : Prop :=
  digits ≠ [] ∧ (∀ b ∈ digits, isDigit b = true) ∧ digits.length + 2 ≤ 40 ∧ ∃ rest, line = 91 :: digits ++ 58 :: rest

/-- the real number, or 0 when there is none or when it is no `pid_t` -/
structure PidExact (line : Bytes) : Prop where
  real : ∀ digits, HasPid line digits → number digits < 2 ^ 31 → (extractProcessId line).toInt = number digits
  zero : (∀ digits, HasPid line digits → 2 ^ 31 ≤ number digits) → extractProcessId line = 0
  exact : line.head? = some 91 → pidOverflows 0 (pidPrefix line) = false

theorem pidDigit_toInt {pid : Int32} {n : ℕ} (hpid : pid.toInt = n) {c : UInt8}
    (hfit : 10 * n + (c.toNat - 48) < 2 ^ 31) :
    (pidDigit pid c).toInt = (10 * n + (c.toNat - 48) : ℕ) := by
  have hc : ((Int32.ofNat (c.toNat - 48)).toInt : ℤ) = (c.toNat - 48 : ℕ) := Int32.toInt_ofNat_of_lt (by omega)
  have hten : (10 : Int32).toInt = 10 := rfl
  have hproduct : ((n : ℤ) * 10).bmod (2 ^ 32) = n * 10 := Int.bmod_eq_of_le (by omega) (by omega)
  have hsum : ((n : ℤ) * 10 + (c.toNat - 48 : ℕ)).bmod (2 ^ 32) = n * 10 + (c.toNat - 48 : ℕ) :=
    Int.bmod_eq_of_le (by omega) (by omega)
  unfold pidDigit
  rw [Int32.toInt_add, Int32.toInt_mul, hpid, hc, hten, hproduct, hsum]
  omega

/-- digits which fit are read without an overflow -/
theorem scanPid_exact {text : Bytes} {pid : Int32} {n : ℕ} (hpid : pid.toInt = n)
    (hfit : numberFrom n (text.takeWhile isDigit) < 2 ^ 31) :
    pidOverflows pid text = false ∧
      (scanPid pid text).toInt =
        if (text.dropWhile isDigit).head? = some 58 then (numberFrom n (text.takeWhile isDigit) : ℤ) else 0 := by
  induction text generalizing pid n with
  | nil => exact ⟨rfl, rfl⟩
  | cons c rest ih =>
    unfold pidOverflows scanPid
    by_cases hcolon : c = 58
    · subst hcolon
      exact ⟨rfl, hpid⟩
    by_cases hdigit : isDigit c = true
    · rw [List.takeWhile_cons_of_pos hdigit] at hfit ⊢
      rw [List.dropWhile_cons_of_pos hdigit]
      have hnext := pidDigit_toInt hpid (lt_of_le_of_lt (le_numberFrom _ (rest.takeWhile isDigit)) hfit)
      obtain ⟨hover, hscan⟩ := ih hnext hfit
      have hsame : (pid.toInt * 10 + (c.toNat - 48 : ℕ)) = (pidDigit pid c).toInt := by
        rw [hnext, hpid]
        omega
      rw [if_neg hcolon, if_neg (by simp [hdigit]), if_neg hcolon, if_neg (by simp [hdigit])]
      exact ⟨by simp [hsame, hover], hscan⟩
    · rw [if_neg hcolon, if_pos (by simpa using hdigit), if_neg hcolon, if_pos (by simpa using hdigit),
        List.dropWhile_cons_of_neg hdigit, if_neg (by simpa using hcolon)]
      exact ⟨rfl, rfl⟩

/-- without an overflow the digits fit -/
theorem fit_of_exact {text : Bytes} {pid : Int32} {n : ℕ} (hpid : pid.toInt = n) (h : pidOverflows pid text = false) :
    numberFrom n (text.takeWhile isDigit) < 2 ^ 31 := by
  have hrange : n < 2 ^ 31 := by
    have hlt := pid.toInt_lt
    omega
  induction text generalizing pid n with
  | nil => exact hrange
  | cons c rest ih =>
    by_cases hdigit : isDigit c = true
    · have hcolon : c ≠ 58 := by
        rintro rfl
        exact absurd hdigit (by decide)
      unfold pidOverflows at h
      rw [if_neg hcolon, if_neg (by simp [hdigit]), Bool.or_eq_false_iff] at h
      have hexact : pid.toInt * 10 + (c.toNat - 48 : ℕ) = (pidDigit pid c).toInt := not_not.1 (of_decide_eq_false h.1)
      have hnext : (pidDigit pid c).toInt = (10 * n + (c.toNat - 48) : ℕ) := by
        rw [← hexact, hpid]
        omega
      have hlt := (pidDigit pid c).toInt_lt
      have hfit : 10 * n + (c.toNat - 48) < 2 ^ 31 := by omega
      rw [List.takeWhile_cons_of_pos hdigit]
      exact ih hnext h.2 hfit
    · rw [List.takeWhile_cons_of_neg hdigit]
      exact hrange

theorem pidPrefix_hasPid {line digits : Bytes} (h : HasPid line digits) :
    line.head? = some 91 ∧ (pidPrefix line).takeWhile isDigit = digits ∧
      ((pidPrefix line).dropWhile isDigit).head? = some 58 := by
  obtain ⟨-, hall, hlen, rest, rfl⟩ := h
  have htake : pidPrefix (91 :: digits ++ 58 :: rest) = digits ++ 58 :: rest.take (38 - digits.length) := by
    unfold pidPrefix
    have hcut : 40 = (91 :: digits ++ [58]).length + (38 - digits.length) := by
      simp only [List.length_append, List.length_cons, List.length_nil]
      omega
    have hsplit : 91 :: digits ++ 58 :: rest = (91 :: digits ++ [58]) ++ rest := by simp
    rw [hsplit, hcut, List.take_append, List.take_of_length_le (by simp)]
    simp
  rw [htake]
  refine ⟨rfl, ?_, ?_⟩
  · exact Search.takeWhile_stop hall (by decide) _
  · rw [Search.dropWhile_stop hall (by decide)]
    rfl

theorem hasPid_of_pidPrefix {line : Bytes} (hhead : line.head? = some 91)
    (hne : (pidPrefix line).takeWhile isDigit ≠ []) (hcolon : ((pidPrefix line).dropWhile isDigit).head? = some 58) :
    HasPid line ((pidPrefix line).takeWhile isDigit) := by
  obtain ⟨text, rfl⟩ := List.head?_eq_some_iff.1 hhead
  have htext : pidPrefix (91 :: text) = text.take 39 := rfl
  rw [htext] at hne hcolon ⊢
  obtain ⟨tail, htail⟩ := List.head?_eq_some_iff.1 hcolon
  have hsplit := List.takeWhile_append_dropWhile (p := isDigit) (l := text.take 39)
  rw [htail] at hsplit
  refine ⟨hne, fun b hb => List.mem_takeWhile_imp hb, ?_, tail ++ text.drop 39, ?_⟩
  · have hlen := congrArg List.length hsplit
    have htake := List.length_take_le 39 text
    rw [List.length_append, List.length_cons] at hlen
    omega
  · calc 91 :: text = 91 :: (text.take 39 ++ text.drop 39) := by rw [List.take_append_drop]
      _ = 91 :: ((text.take 39).takeWhile isDigit ++ 58 :: tail ++ text.drop 39) := by rw [hsplit]
      _ = 91 :: (text.take 39).takeWhile isDigit ++ 58 :: (tail ++ text.drop 39) := by simp

/-- **The process id is exact exactly when the digits which are scanned are a number of 31 bits.** -/
theorem processId_exact (line : Bytes) :
    PidExact line ↔ (line.head? = some 91 → number ((pidPrefix line).takeWhile isDigit) < 2 ^ 31) := by
  constructor
  · intro h hhead
    exact fit_of_exact (n := 0) rfl (h.exact hhead)
  · intro h
    have hscan : line.head? = some 91 → (extractProcessId line).toInt =
        if ((pidPrefix line).dropWhile isDigit).head? = some 58 then (number ((pidPrefix line).takeWhile isDigit) : ℤ)
        else 0 := by
      intro hhead
      rw [extractProcessId, if_pos hhead]
      exact (scanPid_exact (n := 0) rfl (h hhead)).2
    refine ⟨?_, ?_, ?_⟩
    · intro digits hdigits _
      obtain ⟨hhead, htake, hcolon⟩ := pidPrefix_hasPid hdigits
      rw [hscan hhead, if_pos hcolon, htake]
    · intro hno
      by_cases hhead : line.head? = some 91
      · have hresult := hscan hhead
        apply Int32.toInt_inj.1
        rw [hresult]
        split_ifs with hcolon
        · by_cases hne : (pidPrefix line).takeWhile isDigit = []
          · rw [hne]
            rfl
          · exact absurd (h hhead) (Nat.not_lt.2 (hno _ (hasPid_of_pidPrefix hhead hne hcolon)))
        · rfl
      · exact if_neg hhead
    · intro hhead
      exact (scanPid_exact (n := 0) rfl (h hhead)).1

/-- **A number of eleven digits wraps**, and the line gets a process id which is not in it. -/
theorem processId_wraps : ¬PidExact (ascii "[99999999999:00002] x") ∧
    extractProcessId (ascii "[99999999999:00002] x") = 1215752191 := by
  constructor
  · intro h
    exact absurd (h.exact rfl) (by decide)
  · decide

end DominoLogForwarder.Otelfwd
