/-
The wire format of protobuf: a message is a list of fields, and a field is a number and a value of one of three wire
types, a varint, 64 bits, or bytes with their length in front. `readFields` takes a message apart, and has to use up
every byte.

`readFields_writeFields`: what was written is read back, whatever the fields are.

A message type is read by its schema: `decode` gives the fields one after the other to `merge`, which sets the member
of the message that the field number stands for, and refuses a field it does not know.
-/
import DominoLogForwarder.Lib.Framing

namespace DominoLogForwarder.Protobuf

abbrev Bytes : Type := List UInt8

inductive Value where
  | varint (n : ℕ)
  | fixed64 (n : UInt64)
  | bytes (bs : Bytes)
deriving DecidableEq

structure Field where
  number : ℕ
  value : Value
deriving DecidableEq

/-! ## Writing -/

/-- seven bits a byte, the least significant ones first. The high bit says that more bytes follow -/
def varint (n : ℕ) : Bytes :=
  if n < 128 then [UInt8.ofNat n] else UInt8.ofNat (n % 128 + 128) :: varint (n / 128)

def Value.wireType : Value → ℕ
  | .varint _ => 0
  | .fixed64 _ => 1
  | .bytes _ => 2

def writeValue : Value → Bytes
  | .varint n => varint n
  | .fixed64 n => Framing.leBytes 8 n.toNat
  | .bytes bs => varint bs.length ++ bs

def writeField (f : Field) : Bytes := varint (8 * f.number + f.value.wireType) ++ writeValue f.value

def writeFields (fs : List Field) : Bytes := fs.flatMap writeField

/-! ## Reading -/

def readVarint : Bytes → Option (ℕ × Bytes)
  | [] => none
  | b :: bs =>
    if b < 128 then some (b.toNat, bs)
    else (readVarint bs).map fun r => (b.toNat - 128 + 128 * r.1, r.2)

def readValue (wireType : ℕ) (bs : Bytes) : Option (Value × Bytes) :=
  match wireType with
  | 0 => (readVarint bs).map fun r => (.varint r.1, r.2)
  | 1 => if bs.length < 8 then none else some (.fixed64 (UInt64.ofNat (Framing.leNat (bs.take 8))), bs.drop 8)
  | 2 => (readVarint bs).bind fun r => if r.2.length < r.1 then none else some (.bytes (r.2.take r.1), r.2.drop r.1)
  | _ => none

def readField (bs : Bytes) : Option (Field × Bytes) :=
  (readVarint bs).bind fun tag => (readValue (tag.1 % 8) tag.2).map fun r => (⟨tag.1 / 8, r.1⟩, r.2)

/-- reads fields until nothing is left, at most `fuel` of them -/
def readFieldsFrom : ℕ → Bytes → Option (List Field)
  | _, [] => some []
  | 0, _ :: _ => none
  | fuel + 1, b :: bs => (readField (b :: bs)).bind fun r => (readFieldsFrom fuel r.2).map (r.1 :: ·)

/-- a field has at least one byte, so the length is enough -/
def readFields (bs : Bytes) : Option (List Field) := readFieldsFrom bs.length bs

theorem varint_ne_nil (n : ℕ) : varint n ≠ [] := by
  unfold varint
  split_ifs <;> exact List.cons_ne_nil _ _

theorem readVarint_append (n : ℕ) (bs : Bytes) : readVarint (varint n ++ bs) = some (n, bs) := by
  -- induction on the number, seven bits at a time
  induction n using Nat.strong_induction_on with
  | _ n ih =>
    unfold varint
    by_cases h : n < 128
    · have hlt : UInt8.ofNat n < 128 := by
        rw [UInt8.lt_iff_toNat_lt, UInt8.toNat_ofNat']
        exact (Nat.mod_le _ _).trans_lt h
      have hval : (UInt8.ofNat n).toNat = n := by
        rw [UInt8.toNat_ofNat']
        omega
      rw [if_pos h, List.singleton_append, readVarint, if_pos hlt, hval]
    · have hval : (UInt8.ofNat (n % 128 + 128)).toNat = n % 128 + 128 := by
        rw [UInt8.toNat_ofNat']
        omega
      have hge : ¬UInt8.ofNat (n % 128 + 128) < 128 := by
        rw [UInt8.lt_iff_toNat_lt, hval]
        exact Nat.not_lt.2 (Nat.le_add_left _ _)
      rw [if_neg h, List.cons_append, readVarint, if_neg hge, ih (n / 128) (by omega), hval, Option.map_some]
      congr 2
      omega

theorem readValue_append (v : Value) (bs : Bytes) : readValue v.wireType (writeValue v ++ bs) = some (v, bs) := by
  cases v with
  | varint n =>
    simp only [Value.wireType, readValue, writeValue, readVarint_append, Option.map_some]
  | fixed64 n =>
    have hlen : ¬(Framing.leBytes 8 n.toNat ++ bs).length < 8 := by
      rw [List.length_append, Framing.length_leBytes]
      exact Nat.not_lt.2 (Nat.le_add_right _ _)
    have htake : (Framing.leBytes 8 n.toNat ++ bs).take 8 = Framing.leBytes 8 n.toNat :=
      List.take_left' (Framing.length_leBytes _ _)
    have hdrop : (Framing.leBytes 8 n.toNat ++ bs).drop 8 = bs := List.drop_left' (Framing.length_leBytes _ _)
    have hread : readValue 1 (Framing.leBytes 8 n.toNat ++ bs) = some (.fixed64 n, bs) := by
      unfold readValue
      rw [if_neg hlen, htake, hdrop, Framing.leNat_leBytes 8 n.toNat n.toNat_lt, UInt64.ofNat_toNat]
      rfl
    exact hread
  | bytes b =>
    have hlen : ¬(b ++ bs).length < b.length := by
      rw [List.length_append]
      exact Nat.not_lt.2 (Nat.le_add_right _ _)
    have hread : readValue 2 (varint b.length ++ (b ++ bs)) = some (.bytes b, bs) := by
      unfold readValue
      rw [readVarint_append, Option.bind_some, if_neg hlen, List.take_left, List.drop_left]
      rfl
    rw [writeValue, List.append_assoc]
    exact hread

theorem readField_append (f : Field) (bs : Bytes) : readField (writeField f ++ bs) = some (f, bs) := by
  obtain ⟨number, value⟩ := f
  have hlt : value.wireType < 8 := by cases value <;> simp [Value.wireType]
  have hmod : (8 * number + value.wireType) % 8 = value.wireType := by omega
  have hdiv : (8 * number + value.wireType) / 8 = number := by omega
  simp only [readField, writeField, List.append_assoc, readVarint_append, Option.bind_some, hmod, hdiv,
    readValue_append,
    Option.map_some]

theorem writeField_ne_nil (f : Field) : writeField f ≠ [] := by
  intro h
  exact varint_ne_nil _ (List.append_eq_nil_iff.1 h).1

theorem readFieldsFrom_writeFields (fs : List Field) (fuel : ℕ) (h : fs.length ≤ fuel) :
    readFieldsFrom fuel (writeFields fs) = some fs := by
  induction fs generalizing fuel with
  | nil => cases fuel <;> rfl
  | cons f fs ih =>
    cases fuel with
    | zero => exact absurd h (Nat.not_succ_le_zero _)
    | succ fuel =>
      have hread := readField_append f (writeFields fs)
      obtain ⟨b, bs, hcons⟩ := List.exists_cons_of_ne_nil (writeField_ne_nil f)
      have heq : writeFields (f :: fs) = b :: (bs ++ writeFields fs) := by
        rw [writeFields, List.flatMap_cons, hcons]
        rfl
      rw [heq, readFieldsFrom]
      rw [hcons, List.cons_append] at hread
      rw [hread, Option.bind_some, ih fuel (Nat.le_of_succ_le_succ h), Option.map_some]

theorem length_le_writeFields (fs : List Field) : fs.length ≤ (writeFields fs).length := by
  induction fs with
  | nil => exact Nat.zero_le _
  | cons f fs ih =>
    have hpos := List.length_pos_iff.2 (writeField_ne_nil f)
    rw [writeFields, List.flatMap_cons, List.length_append, List.length_cons]
    rw [writeFields] at ih
    omega

/-- **Every list of fields is read back.** -/
theorem readFields_writeFields (fs : List Field) : readFields (writeFields fs) = some fs :=
  readFieldsFrom_writeFields fs _ (length_le_writeFields fs)

/-! ## Messages -/

variable {α β : Type}

/-- reads a message. It starts as `empty`, and `merge` sets what a field says -/
def decode (merge : α → Field → Option α) (empty : α) (bs : Bytes) : Option α :=
  (readFields bs).bind fun fs => fs.foldlM merge empty

theorem decode_writeFields (merge : α → Field → Option α) (empty : α) (fs : List Field) :
    decode merge empty (writeFields fs) = fs.foldlM merge empty := by
  unfold decode
  rw [readFields_writeFields, Option.bind_some]

/-- a member of a message which was written when it is there -/
def optionalField (number : ℕ) (write : β → Value) (x : Option β) : List Field :=
  x.toList.map fun b => ⟨number, write b⟩

/-- a member which is not set yet becomes what was written -/
theorem foldlM_optional {merge : α → Field → Option α} {number : ℕ} {write : β → Value} (set : Option β → α)
    (hmerge : ∀ b, merge (set none) ⟨number, write b⟩ = some (set (some b))) (x : Option β) :
    (optionalField number write x).foldlM merge (set none) = some (set x) := by
  cases x with
  | none => rfl
  | some b => simp [optionalField, hmerge]

/-- a member of a message which is a list -/
def repeatedField (number : ℕ) (write : β → Value) (xs : List β) : List Field := xs.map fun b => ⟨number, write b⟩

/-- a list which is empty becomes what was written, in order -/
theorem foldlM_repeated {merge : α → Field → Option α} {number : ℕ} {write : β → Value} (set : List β → α)
    (hmerge : ∀ bs b, merge (set bs) ⟨number, write b⟩ = some (set (bs ++ [b]))) (xs : List β) :
    (repeatedField number write xs).foldlM merge (set []) = some (set xs) := by
  induction xs using List.reverseRecOn with
  | nil => rfl
  | append_singleton xs x ih =>
    rw [repeatedField, List.map_append, List.map_singleton, List.foldlM_append]
    rw [repeatedField] at ih
    rw [ih, Option.bind_eq_bind, Option.bind_some, List.foldlM_cons, hmerge]
    rfl

end DominoLogForwarder.Protobuf
