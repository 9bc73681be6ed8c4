/-
The converter of `otlp_protobuf.hpp` is sound: it accepts a JSON tree exactly when it describes a request, and the
protobuf is that request (`convertRequest_eq`, `converter_sound`).

The names of the members have to be without a NUL byte: `CheckObject` compares C strings, and `Find` whole names.
-/
import DominoLogForwarder.Otlp.Convert

namespace DominoLogForwarder.Otlp

open FileReader (Bytes ascii isDigit number strtoull isSpace)
open Json (membersIn member items text find)
open Protobuf (Field writeField writeFields varint optionalField repeatedField)

/-! ## The protobuf writer -/

theorem addVarint_eq (out : Bytes) (n : ℕ) : addVarint out n = out ++ varint n := by
  -- induction on the number, seven bits at a time
  induction n using Nat.strong_induction_on generalizing out with
  | _ n ih =>
    unfold addVarint varint
    by_cases h : n < 128
    · rw [if_neg (Nat.not_le.2 h), if_pos h]
    · have hshift : n >>> 7 = n / 128 := Nat.shiftRight_eq_div_pow n 7
      have hlow : n &&& 0x7F ||| 0x80 = n % 128 + 128 := by
        have hmod : n &&& 0x7F = n % 128 := Nat.and_two_pow_sub_one_eq_mod n 7
        have hlt : n % 128 < 2 ^ 7 := Nat.mod_lt _ (by decide)
        rw [hmod, Nat.or_comm, ← Nat.two_pow_add_eq_or_of_lt hlt 1]
        omega
      rw [if_pos (Nat.not_lt.1 h), if_neg h, hshift, ih (n / 128) (by omega), hlow, List.append_assoc]
      rfl

theorem addTag_eq (out : Bytes) (field : ℕ) {wireType : ℕ} (h : wireType < 8) :
    addTag out field wireType = out ++ varint (8 * field + wireType) := by
  have hor : field <<< 3 ||| wireType = 8 * field + wireType := by
    rw [Nat.shiftLeft_eq, Nat.mul_comm, ← Nat.two_pow_add_eq_or_of_lt h field]
  rw [addTag, addVarint_eq, hor]

theorem addVarintField_eq (out : Bytes) (field n : ℕ) :
    addVarintField out field n = out ++ writeField ⟨field, .varint n⟩ := by
  rw [addVarintField, addVarint_eq, addTag_eq _ _ (by decide), List.append_assoc]
  rfl

theorem addBytesField_eq (out : Bytes) (field : ℕ) (bytes : Bytes) :
    addBytesField out field bytes = out ++ writeField ⟨field, .bytes bytes⟩ := by
  rw [addBytesField, addVarint_eq, addTag_eq _ _ (by decide), List.append_assoc, List.append_assoc]
  rfl

theorem addFixed64Field_eq (out : Bytes) (field : ℕ) (n : UInt64) :
    addFixed64Field out field n = out ++ writeField ⟨field, .fixed64 n⟩ := by
  have hbytes : ∀ k m : ℕ, (List.range k).map (fun i => UInt8.ofNat (m >>> (8 * i) &&& 0xFF)) =
    Framing.leBytes k m := by
    intro k
    induction k with
    | zero => intro m; rfl
    | succ k ih =>
      intro m
      rw [List.range_succ_eq_map, List.map_cons, List.map_map, Framing.leBytes, ← ih (m / 256)]
      have hfirst : m >>> (8 * 0) &&& 0xFF = m % 256 := Nat.and_two_pow_sub_one_eq_mod m 8
      have hrest : ∀ i, m >>> (8 * (i + 1)) = (m / 256) >>> (8 * i) := by
        intro i
        rw [Nat.mul_succ, Nat.add_comm, Nat.shiftRight_add, Nat.shiftRight_eq_div_pow m 8]
      rw [hfirst]
      simp only [Function.comp_def, Nat.succ_eq_add_one, hrest]
  rw [addFixed64Field, addTag_eq _ _ (by decide), hbytes, List.append_assoc]
  rfl

/-! ## Reading the JSON -/

variable {α β : Type}

theorem toOption_bind (x : Except Bytes α) (f : α → Except Bytes β) :
    (x >>= f).toOption = x.toOption.bind fun a => (f a).toOption := by
  cases x <;> rfl

/-- the check for unknown members, for names which are C strings -/
theorem checkObject_eq {value : Json} (h : value.Proper) (what : String) (known : List String) :
    (checkObject value what known).toOption = membersIn (known.map ascii) value := by
  cases value with
  | object members =>
    have hsame : ∀ m ∈ members, cString m.1 = m.1 := fun m hm => cString_eq_self.2 (h.noNul m hm)
    have hfind : (members.find? fun m => !(known.map ascii).contains (cString m.1)) =
        members.find? fun m => !(known.map ascii).contains m.1 := by
      apply List.find?_congr
      intro m hm
      rw [hsame m hm]
    rw [checkObject, hfind, membersIn]
    by_cases hall : (members.all fun m => (known.map ascii).contains m.1) = true
    · have hnone : (members.find? fun m => !(known.map ascii).contains m.1) = none := by
        rw [List.find?_eq_none]
        intro m hm
        rw [List.all_eq_true.1 hall m hm]
        exact Bool.false_ne_true
      rw [if_pos hall, hnone]
      rfl
    · rw [if_neg hall]
      cases hsome : members.find? fun m => !(known.map ascii).contains m.1 with
      | none =>
        rw [List.find?_eq_none] at hsome
        refine absurd (List.all_eq_true.2 fun m hm => ?_) hall
        simpa using hsome m hm
      | some m => rfl
  | _ => rfl

theorem checkString_eq (value : Json) (name : String) : (checkString value name).toOption = text value := by
  cases value <;> rfl

theorem digits_noNul {bs : Bytes} (h : Digits bs) : 0 ∉ bs := by
  intro h0
  exact absurd (List.all_eq_true.1 h.2 0 h0) (by decide)

theorem isDecimalText_iff {bs : Bytes} {isSigned : Bool} : isDecimalText bs isSigned = true ↔
    Digits (if isSigned && bs.head? = some 45 then bs.tail else bs) := by
  have hdigits : ∀ ds : Bytes, (!ds.isEmpty && ds.all isDigit) = true ↔ Digits ds := by
    intro ds
    cases ds <;> simp [Digits]
  unfold isDecimalText
  by_cases h0 : bs.contains 0 = true
  · rw [if_pos h0]
    refine iff_of_false Bool.false_ne_true fun hd => digits_noNul hd ?_
    have hmem := List.contains_iff_mem.1 h0
    -- the minus is not the NUL byte
    split_ifs with hminus
    · obtain ⟨b, tail, rfl⟩ := List.exists_cons_of_ne_nil (List.ne_nil_of_mem hmem)
      rcases List.mem_cons.1 hmem with rfl | hmem
      · simp at hminus
      · exact hmem
    · exact hmem
  · rw [if_neg h0]
    exact hdigits _

/-- `strtoull` of digits which do not fit -/
theorem strtoull_overflow {bs : Bytes} (h : Digits bs) (hn : 2 ^ 64 ≤ number bs) : (strtoull bs).outOfRange = true := by
  obtain ⟨hne, hall⟩ := h
  have hdigit := List.all_eq_true.1 hall
  obtain ⟨b, tail, rfl⟩ := List.exists_cons_of_ne_nil hne
  obtain ⟨hspace, hminus, hplus⟩ := FileReader.not_blank_of_isDigit (hdigit b List.mem_cons_self)
  have hdrop : (b :: tail).dropWhile isSpace = b :: tail := by
    rw [List.dropWhile_cons, hspace]
    rfl
  unfold strtoull
  simp only [hdrop, List.head?_cons, Option.some.injEq, hminus, hplus, or_self, if_false]
  rw [FileReader.takeWhile_digits hdigit, if_neg hne, if_pos hn]

theorem getUint64_eq (value : Json) (name : String) : (getUint64 value name).toOption = uint64 value := by
  cases value with
  | int n =>
    unfold getUint64 uint64 JsonInt.isUint64
    by_cases h : 0 ≤ n.value <;> simp [h, fail] <;> rfl
  | string bs =>
    by_cases hd : Digits bs
    · have hdec : isDecimalText bs false = true := isDecimalText_iff.2 hd
      by_cases hn : number bs < 2 ^ 64
      · have hread := FileReader.strtoull_digits (List.all_eq_true.1 hd.2) hd.1 hn
        have hright : uint64 (.string bs) = some (UInt64.ofNat (number bs)) := if_pos ⟨hd, hn⟩
        rw [hright]
        simp [getUint64, hdec, hread]
        rfl
      · have hover := strtoull_overflow hd (Nat.not_lt.1 hn)
        have hright : uint64 (.string bs) = none := if_neg fun h => hn h.2
        rw [hright]
        simp [getUint64, hdec, hover, fail]
        rfl
    · have hdec : isDecimalText bs false = false := Bool.eq_false_iff.2 fun h => hd (isDecimalText_iff.1 h)
      have hright : uint64 (.string bs) = none := if_neg fun h => hd h.1
      rw [hright]
      simp [getUint64, hdec, fail]
      rfl
  | _ => rfl

/-! ### `strtoll` -/

/-- a text with a minus in front, and a text without -/
theorem signed_minus (ds : Bytes) : signed (45 :: ds) = if Digits ds then some (-(number ds : ℤ)) else none := rfl

theorem signed_plain {bs : Bytes} (h : bs.head? ≠ some 45) :
    signed bs = if Digits bs then some (number bs : ℤ) else none := by
  unfold signed
  split
  · exact absurd rfl h
  · rfl

/-- `strtoll` of digits, with a minus in front or without: nothing is left behind -/
theorem strtoll_signed {bs : Bytes} {n : ℤ} (h : signed bs = some n) : strtoll bs =
    if n < -2 ^ 63 then ⟨-2 ^ 63, [], true⟩ else if 2 ^ 63 ≤ n then ⟨2 ^ 63 - 1, [], true⟩ else ⟨n, [], false⟩ := by
  by_cases hminus : bs.head? = some 45
  · obtain ⟨ds, rfl⟩ := List.head?_eq_some_iff.1 hminus
    rw [signed_minus] at h
    split_ifs at h with hd
    obtain rfl := Option.some.inj h
    have hdigit := List.all_eq_true.1 hd.2
    have hspace : (45 :: ds).dropWhile isSpace = 45 :: ds := rfl
    unfold strtoll
    simp only [hspace, List.head?_cons, List.tail_cons, true_or, if_true, FileReader.takeWhile_digits hdigit,
      FileReader.dropWhile_digits hdigit, if_neg hd.1]
  · rw [signed_plain hminus] at h
    split_ifs at h with hd
    obtain rfl := Option.some.inj h
    have hdigit := List.all_eq_true.1 hd.2
    obtain ⟨b, tail, rfl⟩ := List.exists_cons_of_ne_nil hd.1
    obtain ⟨hblank, h45, h43⟩ := FileReader.not_blank_of_isDigit (hdigit b List.mem_cons_self)
    have hspace : (b :: tail).dropWhile isSpace = b :: tail := by
      rw [List.dropWhile_cons, hblank]
      rfl
    unfold strtoll
    simp only [hspace, List.head?_cons, Option.some.injEq, h45, h43, or_self, if_false,
      FileReader.takeWhile_digits hdigit, FileReader.dropWhile_digits hdigit, if_neg hd.1]

theorem isDecimalText_signed (bs : Bytes) : isDecimalText bs true = (signed bs).isSome := by
  rw [Bool.eq_iff_iff, isDecimalText_iff]
  by_cases hminus : bs.head? = some 45
  · obtain ⟨ds, rfl⟩ := List.head?_eq_some_iff.1 hminus
    rw [signed_minus]
    by_cases hd : Digits ds <;> simp [hd]
  · rw [signed_plain hminus]
    by_cases hd : Digits bs <;> simp [hd, hminus]

theorem getInt64_eq (value : Json) (name : String) : (getInt64 value name).toOption = int64 value := by
  cases value with
  | int n =>
    by_cases h : n.value < 2 ^ 63
    · have hleft : getInt64 (.int n) name = .ok (Int64.ofInt n.value) := if_pos (decide_eq_true h)
      have hright : int64 (.int n) = some (Int64.ofInt n.value) := if_pos h
      rw [hleft, hright]
      rfl
    · have hleft : getInt64 (.int n) name = fail (quoted (ascii name) ++ ascii " is not a signed 64 bit integer") :=
        if_neg fun hd => h (of_decide_eq_true hd)
      have hright : int64 (.int n) = none := if_neg h
      rw [hleft, hright]
      rfl
  | string bs =>
    cases hs : signed bs with
    | none =>
      have hdec : isDecimalText bs true = false := by
        rw [isDecimalText_signed, hs]
        rfl
      have hright : int64 (.string bs) = none := by
        rw [int64, hs]
        rfl
      rw [hright]
      simp [getInt64, hdec, fail]
      rfl
    | some n =>
      have hdec : isDecimalText bs true = true := by
        rw [isDecimalText_signed, hs]
        rfl
      have hright : int64 (.string bs) = if -2 ^ 63 ≤ n ∧ n < 2 ^ 63 then some (Int64.ofInt n) else none := by
        rw [int64, hs]
        rfl
      rw [hright]
      by_cases hlow : n < -2 ^ 63
      · have hread : strtoll bs = ⟨-2 ^ 63, [], true⟩ := (strtoll_signed hs).trans (if_pos hlow)
        rw [if_neg fun hn => absurd hn.1 (Int.not_le.2 hlow)]
        simp [getInt64, hdec, hread, fail]
        rfl
      · by_cases hhigh : 2 ^ 63 ≤ n
        · have hread : strtoll bs = ⟨2 ^ 63 - 1, [], true⟩ :=
            (strtoll_signed hs).trans ((if_neg hlow).trans (if_pos hhigh))
          rw [if_neg fun hn => absurd hn.2 (Int.not_lt.2 hhigh)]
          simp [getInt64, hdec, hread, fail]
          rfl
        · have hread : strtoll bs = ⟨n, [], false⟩ := (strtoll_signed hs).trans ((if_neg hlow).trans (if_neg hhigh))
          rw [if_pos ⟨Int.not_lt.1 hlow, Int.not_le.1 hhigh⟩]
          simp [getInt64, hdec, hread]
          rfl
  | _ => rfl

/-! ## The messages -/

/-- a member which is written as a field -/
theorem ifMember_eq {members : List (Bytes × Json)} {name : String} {out : Bytes} {convert : Json → Except Bytes Bytes}
    {read : Json → Option α} {field : ℕ} {write : α → Protobuf.Value}
    (h : ∀ v, find members (ascii name) = some v →
      (convert v).toOption = (read v).map fun a => out ++ writeField ⟨field, write a⟩) :
    (ifMember members name out convert).toOption =
      (member members (ascii name) read).map fun x => out ++ writeFields (optionalField field write x) := by
  unfold ifMember member
  cases hfind : find members (ascii name) with
  | none => simp [optionalField, writeFields, Except.toOption]
  | some v =>
    dsimp only
    rw [h v hfind]
    cases read v <;> simp [optionalField, writeFields]

/-- a member which is an array -/
theorem convertItems_eq {field : ℕ} {convert : Json → Except Bytes Bytes} {read : Json → Option α} {encode : α → Bytes}
    {values : List Json} (h : ∀ v ∈ values, (convert v).toOption = (read v).map encode) (out : Bytes) :
    (convertItems field convert values out).toOption = (values.mapM read).map fun xs =>
      out ++ writeFields (repeatedField field (fun a => .bytes (encode a)) xs) := by
  induction values generalizing out with
  | nil => simp [convertItems, repeatedField, writeFields]; rfl
  | cons v values ih =>
    have hv := h v List.mem_cons_self
    have hrest := fun out => ih (fun v hv => h v (List.mem_cons_of_mem _ hv)) out
    rw [List.mapM_cons]
    cases hc : convert v with
    | error e =>
      rw [hc] at hv
      cases hread : read v with
      | none => simp [convertItems, hc]; rfl
      | some a =>
        rw [hread] at hv
        exact absurd hv (by simp [Except.toOption])
    | ok bytes =>
      rw [hc] at hv
      cases hread : read v with
      | none =>
        rw [hread] at hv
        exact absurd hv (by simp [Except.toOption])
      | some a =>
        rw [hread] at hv
        obtain rfl : bytes = encode a := Option.some.inj hv
        have hstep : convertItems field convert (v :: values) out =
            convertItems field convert values (addBytesField out field (encode a)) := by
          simp [convertItems, hc]
          rfl
        rw [hstep, hrest, addBytesField_eq]
        cases hxs : values.mapM read <;> simp [repeatedField, writeFields, List.append_assoc]

theorem ifMember_text (members : List (Bytes × Json)) (name : String) (out : Bytes) (field : ℕ) :
    (ifMember members name out fun p => do return addBytesField out field (← checkString p name)).toOption =
      (member members (ascii name) text).map fun x => out ++ writeFields (optionalField field .bytes x) := by
  apply ifMember_eq
  intro p _
  cases p <;> simp [checkString, text, fail, addBytesField_eq] <;> rfl

theorem ifMember_uint64 (members : List (Bytes × Json)) (name : String) (out : Bytes) (field : ℕ) :
    (ifMember members name out fun p => do return addFixed64Field out field (← getUint64 p name)).toOption =
      (member members (ascii name) uint64).map fun x => out ++ writeFields (optionalField field .fixed64 x) := by
  apply ifMember_eq
  intro p _
  rw [toOption_bind, getUint64_eq]
  cases uint64 p with
  | none => rfl
  | some n => exact congrArg some (addFixed64Field_eq out field n)

/-- a member which is a message: it is written to a string of its own -/
theorem ifMember_message {members : List (Bytes × Json)} {name : String} {convert : Json → Except Bytes Bytes}
    {read : Json → Option α} {encode : α → Bytes}
    (h : ∀ v, find members (ascii name) = some v → (convert v).toOption = (read v).map encode)
    (out : Bytes) (field : ℕ) :
    (ifMember members name out fun p => do return addBytesField out field (← convert p)).toOption =
      (member members (ascii name) read).map fun x =>
        out ++ writeFields (optionalField field (fun a => .bytes (encode a)) x) := by
  apply ifMember_eq
  intro p hp
  rw [toOption_bind, h p hp]
  cases read p with
  | none => rfl
  | some a => exact congrArg some (addBytesField_eq out field (encode a))

/-- a member which is an array of messages -/
theorem ifMember_items {members : List (Bytes × Json)} {name : String} {convert : Json → Except Bytes Bytes}
    {read : Json → Option α} {encode : α → Bytes} (hp : (Json.object members).Proper)
    (h : ∀ v, v.Proper → (convert v).toOption = (read v).map encode) (out : Bytes) (what : String) (field : ℕ) :
    (ifMember members name out fun p => do convertItems field convert (← checkArray p what) out).toOption =
      (member members (ascii name) (items read)).map fun xs =>
        out ++ writeFields (repeatedField field (fun a => .bytes (encode a)) (xs.getD [])) := by
  unfold ifMember member
  cases hfind : find members (ascii name) with
  | none => simp [repeatedField, writeFields, Except.toOption]
  | some v =>
    dsimp only
    rw [toOption_bind]
    cases v with
    | array values =>
      calc ((checkArray (.array values) what).toOption.bind fun xs => (convertItems field convert xs out).toOption)
          = (convertItems field convert values out).toOption := rfl
        _ = _ := convertItems_eq (fun v hv => h v ((hp.find hfind).item v hv)) out
        _ = _ := by
          dsimp only [items]
          cases values.mapM read <;> rfl
    | _ => rfl

/-- a message: its members are known, and what is written of them is what is read -/
theorem convertObject_eq {value : Json} (h : value.Proper) {what : String} {known : List String}
    {convert : List (Bytes × Json) → Except Bytes Bytes} {read : List (Bytes × Json) → Option α} {encode : α → Bytes}
    (hread : ∀ ms, (Json.object ms).Proper → membersIn (known.map ascii) (.object ms) = some ms →
      (convert ms).toOption = (read ms).map encode) :
    (checkObject value what known >>= convert).toOption =
      ((membersIn (known.map ascii) value).bind read).map encode := by
  rw [toOption_bind, checkObject_eq h]
  cases value with
  | object members =>
    cases hms : membersIn (known.map ascii) (.object members) with
    | none => rfl
    | some ms =>
      obtain rfl : members = ms := by
        simp only [membersIn] at hms
        split_ifs at hms
        exact Option.some.inj hms
      exact hread members h hms
  | _ => rfl

theorem ifMember_bool (members : List (Bytes × Json)) (name : String) (out : Bytes) (field : ℕ) :
    (ifMember members name out fun p => do return addVarintField out field (if (← getBool p) then 1 else 0)).toOption =
      (member members (ascii name) bool).map fun x =>
        out ++ writeFields (optionalField field (fun b => .varint b.toNat) x) := by
  apply ifMember_eq
  intro p _
  cases p with
  | bool b => cases b <;> exact congrArg some (addVarintField_eq out field _)
  | _ => rfl

theorem ifMember_int64 (members : List (Bytes × Json)) (name : String) (out : Bytes) (field : ℕ) :
    (ifMember members name out fun p => do
      return addVarintField out field (← getInt64 p name).toUInt64.toNat).toOption =
    (member members (ascii name) int64).map fun x =>
      out ++ writeFields (optionalField field (fun n => .varint n.toUInt64.toNat) x) := by
  apply ifMember_eq
  intro p _
  rw [toOption_bind, getInt64_eq]
  cases int64 p with
  | none => rfl
  | some n => exact congrArg some (addVarintField_eq out field _)

theorem ifMember_double (members : List (Bytes × Json)) (name : String) (out : Bytes) (field : ℕ) :
    (ifMember members name out fun p => do return addFixed64Field out field (← getDouble p).bits).toOption =
      (member members (ascii name) doubleBits).map fun x => out ++ writeFields (optionalField field .fixed64 x) := by
  apply ifMember_eq
  intro p _
  cases p with
  | double d => exact congrArg some (addFixed64Field_eq out field _)
  | int n => exact congrArg some (addFixed64Field_eq out field _)
  | _ => rfl

theorem ifMember_int32 (members : List (Bytes × Json)) (name : String) (out : Bytes) (field : ℕ) :
    (ifMember members name out fun p => do
      return addVarintField out field (← getInt p).toInt64.toUInt64.toNat).toOption =
    (member members (ascii name) int32).map fun x =>
      out ++ writeFields (optionalField field (fun n => .varint n.toInt64.toUInt64.toNat) x) := by
  apply ifMember_eq
  intro p _
  cases p with
  | int n =>
    by_cases hn : -2 ^ 31 ≤ n.value ∧ n.value < 2 ^ 31
    · have hleft : getInt (.int n) = .ok (Int32.ofInt n.value) :=
        if_pos (Bool.and_eq_true_iff.2 ⟨decide_eq_true hn.1, decide_eq_true hn.2⟩)
      have hright : int32 (.int n) = some (Int32.ofInt n.value) := if_pos hn
      rw [toOption_bind, hleft, hright]
      exact congrArg some (addVarintField_eq out field _)
    · have hleft : getInt (.int n) = fail (quoted (ascii "severityNumber") ++ ascii " is not an integer") := by
        refine if_neg fun hd => hn ?_
        exact ⟨of_decide_eq_true (Bool.and_eq_true_iff.1 hd).1, of_decide_eq_true (Bool.and_eq_true_iff.1 hd).2⟩
      have hright : int32 (.int n) = none := if_neg hn
      rw [toOption_bind, hleft, hright]
      rfl
  | _ => rfl

/-- an object with one member does not have another one -/
theorem member_absent {ms : List (Bytes × Json)} (hlen : ¬1 < ms.length) {name name' : Bytes} {read : Json → Option α}
    {read' : Json → Option β} {a : α} {x : Option β} (hne : name ≠ name') (h : member ms name read = some (some a))
    (h' : member ms name' read' = some x) : x = none := by
  unfold member at h h'
  cases hv : find ms name with
  | none =>
    rw [hv] at h
    exact absurd (Option.some.inj h) (Option.some_ne_none _).symm
  | some v =>
    cases hv' : find ms name' with
    | none =>
      rw [hv'] at h'
      exact (Option.some.inj h').symm
    | some v' =>
      have hm := Json.mem_of_find hv
      have hm' := Json.mem_of_find hv'
      match ms, hlen with
      | [], _ => exact absurd hm List.not_mem_nil
      | [m], _ =>
        have heq : (name, v) = (name', v') := (List.mem_singleton.1 hm).trans (List.mem_singleton.1 hm').symm
        exact absurd (congrArg Prod.fst heq) hne
      | _ :: _ :: _, hlen => exact absurd hlen (by simp)

theorem convertAnyValue_eq {value : Json} (h : value.Proper) (what : String) :
    (convertAnyValue value what).toOption = (AnyValue.ofJson value).map AnyValue.encode := by
  refine convertObject_eq h fun ms hms _ => ?_
  by_cases hlen : 1 < ms.length
  · rw [if_pos hlen, if_pos hlen]
    rfl
  rw [if_neg hlen, if_neg hlen, toOption_bind, ifMember_text]
  cases hs : member ms (ascii "stringValue") text with
  | none => rfl
  | some string =>
    simp only [Option.map_some, Option.bind_some, toOption_bind, ifMember_bool]
    cases hb : member ms (ascii "boolValue") bool with
    | none => rfl
    | some bool =>
      simp only [Option.map_some, Option.bind_some, ifMember_int64]
      cases hn : member ms (ascii "intValue") int64 with
      | none => rfl
      | some int =>
        simp only [Option.map_some, Option.bind_some, ifMember_double]
        cases hd : member ms (ascii "doubleValue") doubleBits with
        | none => rfl
        | some double =>
          -- at most one of the four is there
          have hone : writeFields (optionalField 1 .bytes string) ++
              writeFields (optionalField 2 (fun b => .varint b.toNat) bool) ++
              writeFields (optionalField 3 (fun n => .varint n.toUInt64.toNat) int) ++
              writeFields (optionalField 4 .fixed64 double) =
              AnyValue.encode ⟨(string.map Scalar.string).or ((bool.map Scalar.bool).or
                ((int.map Scalar.int).or (double.map Scalar.double)))⟩ := by
            cases string with
            | some s =>
              obtain rfl := member_absent hlen (by decide) hs hb
              obtain rfl := member_absent hlen (by decide) hs hn
              obtain rfl := member_absent hlen (by decide) hs hd
              simp [AnyValue.encode, AnyValue.fields, Scalar.field, optionalField, writeFields]
            | none =>
              cases bool with
              | some b =>
                obtain rfl := member_absent hlen (by decide) hb hn
                obtain rfl := member_absent hlen (by decide) hb hd
                simp [AnyValue.encode, AnyValue.fields, Scalar.field, optionalField, writeFields]
              | none =>
                cases int with
                | some n =>
                  obtain rfl := member_absent hlen (by decide) hn hd
                  simp [AnyValue.encode, AnyValue.fields, Scalar.field, optionalField, writeFields]
                | none => cases double <;> simp [AnyValue.encode, AnyValue.fields, Scalar.field,
                  optionalField, writeFields]
          exact congrArg some hone

theorem convertKeyValue_eq {value : Json} (h : value.Proper) :
    (convertKeyValue value).toOption = (KeyValue.ofJson value).map KeyValue.encode := by
  refine convertObject_eq h fun ms hms _ => ?_
  cases hkey : find ms (ascii "key") with
  | none =>
    simp [member, hkey]
    rfl
  | some p =>
    dsimp only
    rw [toOption_bind, checkString_eq]
    cases htext : text p with
    | none => simp [member, hkey, htext]
    | some key =>
      have hmember : member ms (ascii "key") text = some (some key) := by
        unfold member
        rw [hkey]
        exact congrArg (Option.map some) htext
      rw [hmember, Option.bind_some, ifMember_message fun v hv => convertAnyValue_eq (hms.find hv) "value"]
      cases member ms (ascii "value") AnyValue.ofJson with
      | none => rfl
      | some x =>
        have hkey := addBytesField_eq [] 1 key
        simp [KeyValue.encode, KeyValue.fields, writeFields, hkey]

theorem convertAttributes_eq {ms : List (Bytes × Json)} (hms : (Json.object ms).Proper) (field : ℕ) (out : Bytes) :
    (ifMember ms "attributes" out fun p => convertAttributes p field out).toOption =
      (attributesOf ms).map fun xs => out ++ writeFields (repeatedField field (fun kv => .bytes kv.encode) xs) := by
  have hitems : (ifMember ms "attributes" out fun p => do
      convertItems field convertKeyValue (← checkArray p "attributes") out).toOption = _ :=
    ifMember_items hms (fun v hv => convertKeyValue_eq hv) out "attributes" field
  unfold attributesOf
  rw [Option.map_map]
  exact hitems

theorem convertLogRecord_eq {value : Json} (h : value.Proper) :
    (convertLogRecord value).toOption = (LogRecord.ofJson value).map LogRecord.encode := by
  refine convertObject_eq h fun ms hms _ => ?_
  rw [toOption_bind, ifMember_uint64]
  cases member ms (ascii "timeUnixNano") uint64 with
  | none => rfl
  | some time =>
    simp only [Option.map_some, Option.bind_some, toOption_bind, ifMember_int32]
    cases member ms (ascii "severityNumber") int32 with
    | none => rfl
    | some severityNumber =>
      simp only [Option.map_some, Option.bind_some, ifMember_text]
      cases member ms (ascii "severityText") text with
      | none => rfl
      | some severityText =>
        simp only [Option.map_some, Option.bind_some]
        rw [ifMember_message fun v hv => convertAnyValue_eq (hms.find hv) "body"]
        cases member ms (ascii "body") AnyValue.ofJson with
        | none => rfl
        | some body =>
          simp only [Option.map_some, Option.bind_some, convertAttributes_eq hms]
          cases attributesOf ms with
          | none => rfl
          | some attributes =>
            simp only [Option.map_some, Option.bind_some, ifMember_uint64]
            cases member ms (ascii "observedTimeUnixNano") uint64 with
            | none => rfl
            | some observed => simp [LogRecord.encode, LogRecord.fields, writeFields]

theorem convertScope_eq {value : Json} (h : value.Proper) :
    (convertScope value).toOption = (Scope.ofJson value).map Scope.encode := by
  refine convertObject_eq h fun ms hms _ => ?_
  rw [toOption_bind, ifMember_text]
  cases member ms (ascii "name") text with
  | none => rfl
  | some name =>
    simp only [Option.map_some, Option.bind_some, ifMember_text]
    cases member ms (ascii "version") text with
    | none => rfl
    | some version => simp [Scope.encode, Scope.fields, writeFields]

theorem convertScopeLogs_eq {value : Json} (h : value.Proper) :
    (convertScopeLogs value).toOption = (ScopeLogs.ofJson value).map ScopeLogs.encode := by
  refine convertObject_eq h fun ms hms _ => ?_
  rw [toOption_bind, ifMember_message fun v hv => convertScope_eq (hms.find hv)]
  cases member ms (ascii "scope") Scope.ofJson with
  | none => rfl
  | some scope =>
    simp only [Option.map_some, Option.bind_some]
    rw [ifMember_items hms fun v hv => convertLogRecord_eq hv]
    cases member ms (ascii "logRecords") (items LogRecord.ofJson) with
    | none => rfl
    | some records => simp [ScopeLogs.encode, ScopeLogs.fields, writeFields]

theorem convertResource_eq {value : Json} (h : value.Proper) :
    (convertResource value).toOption = (Resource.ofJson value).map Resource.encode := by
  refine convertObject_eq h fun ms hms _ => ?_
  rw [convertAttributes_eq hms]
  cases attributesOf ms with
  | none => rfl
  | some attributes => simp [Resource.encode, Resource.fields]

theorem convertResourceLogs_eq {value : Json} (h : value.Proper) :
    (convertResourceLogs value).toOption = (ResourceLogs.ofJson value).map ResourceLogs.encode := by
  refine convertObject_eq h fun ms hms _ => ?_
  rw [toOption_bind, ifMember_message fun v hv => convertResource_eq (hms.find hv)]
  cases member ms (ascii "resource") Resource.ofJson with
  | none => rfl
  | some resource =>
    simp only [Option.map_some, Option.bind_some]
    rw [ifMember_items hms fun v hv => convertScopeLogs_eq hv]
    cases member ms (ascii "scopeLogs") (items ScopeLogs.ofJson) with
    | none => rfl
    | some logs => simp [ResourceLogs.encode, ResourceLogs.fields, writeFields]

/-- **The converter accepts a tree exactly when it describes a request, and writes the encoding of it.** -/
theorem convertRequest_eq {value : Json} (h : value.Proper) :
    (convertRequest value).toOption = (Request.ofJson value).map Request.encode := by
  refine convertObject_eq h fun ms hms _ => ?_
  rw [ifMember_items hms fun v hv => convertResourceLogs_eq hv]
  cases member ms (ascii "resourceLogs") (items ResourceLogs.ofJson) with
  | none => rfl
  | some logs => simp [Request.encode, Request.fields]

/-! ## The converter -/

theorem toOption_eq_some {x : Except Bytes α} {a : α} : x.toOption = some a ↔ x = .ok a := by
  cases x <;> simp [Except.toOption]

theorem convert_ok {parse : Parser} {json : Option Bytes} :
    (convertOtlpJsonToProtobuf parse json).ok = true ↔ ∃ out, convertText parse json = .ok out ∧
      convertOtlpJsonToProtobuf parse json = ⟨true, out, []⟩ := by
  unfold convertOtlpJsonToProtobuf
  cases convertText parse json <;> simp

theorem convertText_of_parse {parse : Parser} {json : Bytes} {doc : Json} (h : parse json = .ok doc) :
    convertText parse (some json) = convertRequest doc := by
  unfold convertText
  dsimp only
  rw [h]

/-- **The converter is sound.** What it accepts describes a request, and a protobuf decoder with the schema reads
exactly this request from all bytes of the output. The same tree with its members in another order gives the same
output. After an error there is no output. -/
theorem converter_sound (parse : Parser) :
    (∀ json doc, parse json = .ok doc → doc.Proper → (convertOtlpJsonToProtobuf parse (some json)).ok = true →
      ∃ request, Request.ofJson doc = some request ∧
        Request.decode (convertOtlpJsonToProtobuf parse (some json)).out = some request) ∧
    (∀ json json' doc doc', parse json = .ok doc → parse json' = .ok doc' → doc.Proper → doc'.Proper →
      Json.Reordered doc doc' → (convertOtlpJsonToProtobuf parse (some json)).ok = true →
      convertOtlpJsonToProtobuf parse (some json') = convertOtlpJsonToProtobuf parse (some json)) ∧
    ∀ json, (convertOtlpJsonToProtobuf parse json).ok = false → (convertOtlpJsonToProtobuf parse json).out = [] := by
  refine ⟨?_, ?_, ?_⟩
  · intro json doc hparse hproper hok
    obtain ⟨out, hout, hconv⟩ := convert_ok.1 hok
    rw [convertText_of_parse hparse] at hout
    have heq := convertRequest_eq hproper
    rw [hout] at heq
    obtain ⟨request, hrequest, hencode⟩ := Option.map_eq_some_iff.1 heq.symm
    refine ⟨request, hrequest, ?_⟩
    rw [hconv]
    exact hencode ▸ Request.decode_encode request
  · intro json json' doc doc' hparse hparse' hproper hproper' hreordered hok
    obtain ⟨out, hout, hconv⟩ := convert_ok.1 hok
    rw [convertText_of_parse hparse] at hout
    have hout' : convertRequest doc' = .ok out := by
      apply toOption_eq_some.1
      calc (convertRequest doc').toOption
          = (Request.ofJson doc').map Request.encode := convertRequest_eq hproper'
        _ = (Request.ofJson doc).map Request.encode := by rw [Request.stable_ofJson doc doc' hreordered]
        _ = (convertRequest doc).toOption := (convertRequest_eq hproper).symm
        _ = some out := by rw [hout]; rfl
    rw [hconv]
    unfold convertOtlpJsonToProtobuf
    rw [convertText_of_parse hparse', hout']
  · intro json hfail
    unfold convertOtlpJsonToProtobuf at hfail ⊢
    cases h : convertText parse json with
    | error e => rfl
    | ok out =>
      rw [h] at hfail
      exact absurd hfail Bool.true_eq_false.mp

/-- a request with one entry, which is empty -/
def emptyEntry (members : List (Bytes × Json)) : Json := .object [(ascii "resourceLogs", .array [.object members])]

def emptyResource : Bytes × Json := (ascii "resource", .object [])

def emptyLogs : Bytes × Json := (ascii "scopeLogs", .array [])

/-- the parser, for one text with the resource first and one with the resource last -/
def parseEmptyEntry (json : Bytes) : Except (Bytes × ℕ) Json :=
  if json = ascii "\x7b\"resourceLogs\":[\x7b\"resource\":\x7b\x7d,\"scopeLogs\":[]\x7d]\x7d" then
    .ok (emptyEntry [emptyResource, emptyLogs])
  else .ok (emptyEntry [emptyLogs, emptyResource])

theorem proper_emptyEntry {members : List (Bytes × Json)} (h : members.Perm [emptyResource, emptyLogs]) :
    (emptyEntry members).Proper := by
  have hmembers : (Json.object members).Proper := by
    refine .object ((h.map _).nodup_iff.2 (by decide)) ?_ ?_
    · intro m hm
      rcases List.mem_cons.1 (h.mem_iff.1 hm) with rfl | hm
      · decide
      · exact List.mem_singleton.1 hm ▸ by decide
    · intro m hm
      rcases List.mem_cons.1 (h.mem_iff.1 hm) with rfl | hm
      · exact .object List.nodup_nil (fun _ hm => absurd hm List.not_mem_nil) fun _ hm => absurd hm List.not_mem_nil
      · exact List.mem_singleton.1 hm ▸ .array fun _ hm => absurd hm List.not_mem_nil
  have hname : 0 ∉ ascii "resourceLogs" := by decide
  refine .object (List.nodup_singleton _) ?_ ?_
  · intro m hm
    exact List.mem_singleton.1 hm ▸ hname
  · intro m hm
    exact List.mem_singleton.1 hm ▸ .array fun j hj => List.mem_singleton.1 hj ▸ hmembers

theorem converter_sound_emptyEntry :
    let text := ascii "\x7b\"resourceLogs\":[\x7b\"resource\":\x7b\x7d,\"scopeLogs\":[]\x7d]\x7d"
    let text' := ascii "\x7b\"resourceLogs\":[\x7b\"scopeLogs\":[],\"resource\":\x7b\x7d\x7d]\x7d"
    (∃ request, Request.ofJson (emptyEntry [emptyResource, emptyLogs]) = some request ∧
        Request.decode (convertOtlpJsonToProtobuf parseEmptyEntry (some text)).out = some request) ∧
      convertOtlpJsonToProtobuf parseEmptyEntry (some text') = convertOtlpJsonToProtobuf parseEmptyEntry (some text) ∧
      (convertOtlpJsonToProtobuf parseEmptyEntry none).out = [] := by
  intro text text'
  have hparse : parseEmptyEntry text = .ok (emptyEntry [emptyResource, emptyLogs]) := if_pos rfl
  have hparse' : parseEmptyEntry text' = .ok (emptyEntry [emptyLogs, emptyResource]) := if_neg (by decide)
  have hproper : (emptyEntry [emptyResource, emptyLogs]).Proper := proper_emptyEntry (List.Perm.refl _)
  have hproper' : (emptyEntry [emptyLogs, emptyResource]).Proper := proper_emptyEntry (List.Perm.swap _ _ _)
  have hrequest : Request.ofJson (emptyEntry [emptyResource, emptyLogs]) = some ⟨[⟨some ⟨[]⟩, []⟩]⟩ := rfl
  have hok : (convertOtlpJsonToProtobuf parseEmptyEntry (some text)).ok = true := by
    have heq := convertRequest_eq hproper
    rw [hrequest] at heq
    refine convert_ok.2 ⟨_, (convertText_of_parse hparse).trans (toOption_eq_some.1 heq), ?_⟩
    unfold convertOtlpJsonToProtobuf
    rw [convertText_of_parse hparse, toOption_eq_some.1 heq]
  have hreordered : Json.Reordered (emptyEntry [emptyResource, emptyLogs]) (emptyEntry [emptyLogs, emptyResource]) := by
    refine .object (List.Perm.refl _) ?_
    intro name v v' hv hv'
    obtain rfl : v = .array [.object [emptyResource, emptyLogs]] :=
      (Prod.mk.inj (List.mem_singleton.1 (Json.mem_of_find hv))).2
    obtain rfl : v' = .array [.object [emptyLogs, emptyResource]] :=
      (Prod.mk.inj (List.mem_singleton.1 (Json.mem_of_find hv'))).2
    refine .array rfl ?_
    intro i x y hx hy
    cases i with
    | zero =>
      obtain rfl := Option.some.inj hx
      obtain rfl := Option.some.inj hy
      exact Json.reordered_of_perm (by decide) (List.Perm.swap _ _ _)
    | succ i => exact absurd hx (by simp)
  have hsound := converter_sound parseEmptyEntry
  exact ⟨hsound.1 text _ hparse hproper hok, hsound.2.1 text text' _ _ hparse hparse' hproper hproper' hreordered hok,
    hsound.2.2 none rfl⟩

end DominoLogForwarder.Otlp
