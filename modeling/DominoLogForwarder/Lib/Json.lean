/-
JSON as the tree which a parser makes of it. A number without a fraction and an exponent is an integer when it fits
into 64 bits, signed or unsigned, and every other number is a double. The members of an object keep their order, and a
name can appear twice.

`Proper` is a tree without that, and without a NUL byte in a name. `Reordered` is the same tree with the members of its
objects in another order, at any depth.

A reader takes a value out of a tree, and is `none` when the tree is something else. `membersIn` and `member` are the
readers of objects, `items` is the one of arrays. `Stable` readers do not see the order.
-/
import DominoLogForwarder.Lib.Double
import Mathlib.Data.List.Nodup
import Mathlib.Data.List.Perm.Basic

namespace DominoLogForwarder

/-- an integer of 64 bits, signed or unsigned -/
structure JsonInt where
  value : ℤ
  le_value : -2 ^ 63 ≤ value
  value_lt : value < 2 ^ 64
deriving DecidableEq

inductive Json where
  | null
  | bool (value : Bool)
  | int (number : JsonInt)
  | double (number : Double)
  | string (text : List UInt8)
  | array (items : List Json)
  | object (members : List (List UInt8 × Json))

namespace JsonInt

def ofInt64 (n : Int64) : JsonInt := ⟨n.toInt, Int64.le_toInt n, (Int64.toInt_lt n).trans (by decide)⟩

def ofInt32 (n : Int32) : JsonInt :=
  ⟨n.toInt, le_trans (by decide) (Int32.le_toInt n), (Int32.toInt_lt n).trans (by decide)⟩

/-- `IsInt` -/
def isInt (n : JsonInt) : Bool := decide (-2 ^ 31 ≤ n.value) && decide (n.value < 2 ^ 31)

/-- `IsInt64` -/
def isInt64 (n : JsonInt) : Bool := decide (n.value < 2 ^ 63)

/-- `IsUint64` -/
def isUint64 (n : JsonInt) : Bool := decide (0 ≤ n.value)

end JsonInt

namespace Json

/-- `FindMember`: the first one with the name -/
def find (members : List (List UInt8 × Json)) (name : List UInt8) : Option Json := members.lookup name

def get : Json → List UInt8 → Option Json
  | object members, name => find members name
  | _, _ => none

/-! ## Names and order -/

/-- no object has a name twice, and no name has a NUL byte in it -/
inductive Proper : Json → Prop where
  | null : Proper null
  | bool (b : Bool) : Proper (bool b)
  | int (n : JsonInt) : Proper (int n)
  | double (d : Double) : Proper (double d)
  | string (text : List UInt8) : Proper (string text)
  | array {items : List Json} (h : ∀ j ∈ items, Proper j) : Proper (array items)
  | object {members : List (List UInt8 × Json)} (nodup : (members.map Prod.fst).Nodup) (noNul : ∀ m ∈ members, 0 ∉ m.1)
      (h : ∀ m ∈ members, Proper m.2) : Proper (object members)

/-- the same names in any order, and the same values under them, which are reordered too -/
inductive Reordered : Json → Json → Prop where
  | refl (j : Json) : Reordered j j
  | array {xs ys : List Json} (length : xs.length = ys.length)
      (h : ∀ (i : ℕ) (x y : Json), xs[i]? = some x → ys[i]? = some y → Reordered x y) : Reordered (array xs) (array ys)
  | object {ms ms' : List (List UInt8 × Json)} (names : (ms.map Prod.fst).Perm (ms'.map Prod.fst))
      (h : ∀ name v v', find ms name = some v → find ms' name = some v' → Reordered v v') :
      Reordered (object ms) (object ms')

theorem find_eq_none_iff {ms : List (List UInt8 × Json)} {name : List UInt8} :
    find ms name = none ↔ name ∉ ms.map Prod.fst := by
  unfold find
  rw [List.lookup_eq_none_iff]
  simp only [List.mem_map, not_exists, not_and, bne_iff_ne, ne_eq]
  constructor
  · intro h m hm heq
    exact h m hm heq.symm
  · intro h m hm heq
    exact h m hm heq.symm

theorem mem_of_find {ms : List (List UInt8 × Json)} {name : List UInt8} {v : Json} (h : find ms name = some v) :
    (name, v) ∈ ms := by
  obtain ⟨before, after, heq, -⟩ := List.lookup_eq_some_iff.1 h
  rw [heq]
  exact List.mem_append_right _ List.mem_cons_self

/-- without a name twice, the member is found wherever it stands -/
theorem find_of_mem {ms : List (List UInt8 × Json)} (hnodup : (ms.map Prod.fst).Nodup) {name : List UInt8} {v : Json}
    (h : (name, v) ∈ ms) : find ms name = some v := by
  induction ms with
  | nil => exact absurd h List.not_mem_nil
  | cons m ms ih =>
    rw [List.map_cons, List.nodup_cons] at hnodup
    unfold find
    rcases List.mem_cons.1 h with rfl | h
    · simp
    · have hne : name ≠ m.1 := by
        rintro rfl
        exact hnodup.1 (List.mem_map.2 ⟨_, h, rfl⟩)
      rw [List.lookup_cons, beq_false_of_ne hne]
      exact ih hnodup.2 h

/-- **Members in another order are `Reordered`.** -/
theorem reordered_of_perm {ms ms' : List (List UInt8 × Json)} (hnodup : (ms.map Prod.fst).Nodup) (h : ms.Perm ms') :
    Reordered (object ms) (object ms') := by
  refine .object (h.map _) ?_
  intro name v v' hv hv'
  have hsame : find ms name = some v' := find_of_mem hnodup (h.mem_iff.2 (mem_of_find hv'))
  obtain rfl : v = v' := Option.some.inj (hv.symm.trans hsame)
  exact .refl v

theorem Proper.find {ms : List (List UInt8 × Json)} (h : Proper (.object ms)) {name : List UInt8} {v : Json}
    (hv : Json.find ms name = some v) : v.Proper := by
  cases h with
  | object _ _ h => exact h _ (mem_of_find hv)

theorem Proper.noNul {ms : List (List UInt8 × Json)} (h : Proper (.object ms)) : ∀ m ∈ ms, 0 ∉ m.1 := by
  cases h with
  | object _ h _ => exact h

theorem Proper.item {items : List Json} (h : Proper (.array items)) : ∀ j ∈ items, j.Proper := by
  cases h with
  | array h => exact h

/-! ## All members of an object -/

/-- the members of the object are these fields, those of them which are there, in any order. There are no others -/
def Consists (j : Json) (fields : List (List UInt8 × Option Json)) : Prop :=
  ∃ ms, j = object ms ∧ ms.Perm (fields.filterMap fun f => f.2.map (Prod.mk f.1))

theorem consists_of_find {ms : List (List UInt8 × Json)} (hms : (ms.map Prod.fst).Nodup) {names : List (List UInt8)}
    (hnames : names.Nodup) (hknown : ∀ m ∈ ms, m.1 ∈ names) :
    Consists (object ms) (names.map fun name => (name, find ms name)) := by
  refine ⟨ms, rfl, ?_⟩
  rw [List.filterMap_map]
  -- both lists have no member twice, and they have the same ones
  have hnodup : (names.filterMap fun name => (find ms name).map (Prod.mk name)).Nodup := by
    refine hnames.filterMap fun name name' m hm hm' => ?_
    obtain ⟨v, -, rfl⟩ := Option.map_eq_some_iff.1 hm
    obtain ⟨v', -, heq⟩ := Option.map_eq_some_iff.1 hm'
    exact (Prod.mk.inj heq).1.symm
  refine (List.perm_ext_iff_of_nodup (List.Nodup.of_map _ hms) hnodup).2 fun m => ?_
  simp only [List.mem_filterMap, Option.map_eq_some_iff]
  constructor
  · intro hm
    exact ⟨m.1, hknown m hm, m.2, find_of_mem hms hm, rfl⟩
  · rintro ⟨name, -, v, hv, rfl⟩
    exact mem_of_find hv

/-- an object of fields with different names is `Proper` when its values are -/
theorem Consists.proper {j : Json} {fields : List (List UInt8 × Option Json)} (h : Consists j fields)
    (names : List (List UInt8)) (hnames : fields.map Prod.fst = names) (hnodup : names.Nodup)
    (hnoNul : ∀ name ∈ names, 0 ∉ name)
    (hvalues : ∀ f ∈ fields, ∀ v, f.2 = some v → v.Proper) : j.Proper := by
  subst hnames
  obtain ⟨ms, rfl, hperm⟩ := h
  have hfield : ∀ m ∈ ms, (m.1, some m.2) ∈ fields := by
    intro m hm
    obtain ⟨f, hf, hfm⟩ := List.mem_filterMap.1 (hperm.mem_iff.1 hm)
    obtain ⟨v, hv, rfl⟩ := Option.map_eq_some_iff.1 hfm
    exact hv ▸ hf
  have hsub : ((fields.filterMap fun f => f.2.map (Prod.mk f.1)).map Prod.fst).Sublist (fields.map Prod.fst) := by
    clear hnodup hnoNul hvalues hperm hfield
    induction fields with
    | nil => exact List.Sublist.slnil
    | cons f fields ih =>
      obtain ⟨name, v⟩ := f
      cases v with
      | none => exact ih.cons name
      | some v => exact ih.cons_cons name
  refine .object ((hperm.map _).nodup_iff.2 (hsub.nodup hnodup)) ?_ ?_
  · intro m hm
    exact hnoNul _ (List.mem_map_of_mem (hfield m hm))
  · intro m hm
    exact hvalues _ (hfield m hm) _ rfl

/-! ## Readers -/

variable {α : Type}

/-- the members of an object, when the names of all of them are known -/
def membersIn (known : List (List UInt8)) : Json → Option (List (List UInt8 × Json))
  | object members => if members.all fun m => known.contains m.1 then some members else none
  | _ => none

/-- a member which can be absent -/
def member (ms : List (List UInt8 × Json)) (name : List UInt8) (read : Json → Option α) : Option (Option α) :=
  match find ms name with
  | none => some none
  | some v => (read v).map some

/-- every item of an array -/
def items (read : Json → Option α) : Json → Option (List α)
  | array xs => xs.mapM read
  | _ => none

def text : Json → Option (List UInt8)
  | string s => some s
  | _ => none

/-- the reader does not see the order of the members -/
def Stable (read : Json → Option α) : Prop := ∀ j j', Reordered j j' → read j = read j'

/-- the same names, and the same values under them -/
structure Agree (ms ms' : List (List UInt8 × Json)) : Prop where
  names : (ms.map Prod.fst).Perm (ms'.map Prod.fst)
  values : ∀ name v v', find ms name = some v → find ms' name = some v' → Reordered v v'

theorem Agree.member {ms ms' : List (List UInt8 × Json)} (h : Agree ms ms') (name : List UInt8) {read : Json → Option α}
    (hread : Stable read) : Json.member ms name read = Json.member ms' name read := by
  unfold Json.member
  cases hv : Json.find ms name with
  | none =>
    have hv' : Json.find ms' name = none :=
      find_eq_none_iff.2 fun hm => find_eq_none_iff.1 hv (h.names.mem_iff.2 hm)
    rw [hv']
  | some v =>
    cases hv' : Json.find ms' name with
    | none => exact absurd (h.names.mem_iff.1 (List.mem_map_of_mem (mem_of_find hv))) (find_eq_none_iff.1 hv')
    | some v' =>
      dsimp only
      rw [hread v v' (h.values name v v' hv hv')]

/-- a reader of an object which only looks at the names, and reads the members with stable readers, is stable -/
theorem stable_membersIn {known : List (List UInt8)} {read : List (List UInt8 × Json) → Option α}
    (h : ∀ ms ms', Agree ms ms' → read ms = read ms') : Stable fun j => (membersIn known j).bind read := by
  intro j j' hj
  cases hj with
  | refl => rfl
  | array => rfl
  | @object ms ms' names values =>
    have hagree : Agree ms ms' := ⟨names, values⟩
    have hall : (ms.all fun m => known.contains m.1) = ms'.all fun m => known.contains m.1 := by
      have hperm := names.all_eq (f := known.contains)
      simpa only [List.all_map, Function.comp_def] using hperm
    dsimp only [membersIn]
    rw [hall]
    split_ifs
    · exact h ms ms' hagree
    · rfl

theorem stable_items {read : Json → Option α} (h : Stable read) : Stable (items read) := by
  intro j j' hj
  cases hj with
  | refl => rfl
  | @array xs ys hlen hxy =>
    dsimp only [items]
    -- induction on the two arrays, item by item
    induction xs generalizing ys with
    | nil =>
      obtain rfl : ys = [] := List.length_eq_zero_iff.1 hlen.symm
      rfl
    | cons x xs ih =>
      cases ys with
      | nil => exact absurd hlen (Nat.succ_ne_zero _)
      | cons y ys =>
        have hfirst : read x = read y := h x y (hxy 0 x y rfl rfl)
        have hrest : xs.mapM read = ys.mapM read :=
          ih (Nat.succ.inj hlen) fun i x' y' hx hy => hxy (i + 1) x' y' hx hy
        rw [List.mapM_cons, List.mapM_cons, hfirst, hrest]
  | object => rfl

theorem stable_text : Stable text := by
  intro j j' hj
  cases hj <;> rfl

end Json

end DominoLogForwarder
