/-
The record which `Build` writes, as a tree, and that the text is this tree.

`topMembers` and `ownMembers` are the members which can be left out. `tree` has them, and the texts in the order of
their keys. `renders_build`: for texts in UTF-8 the line of `Build` is clean, and denotes the tree. Of `std::to_chars`
it is used that a double is printed as a numeral which stands for it (`PrintsBack`).
-/
import DominoLogForwarder.MailLog.Latest
import DominoLogForwarder.Otelfwd.CompactJson

namespace DominoLogForwarder.MailLog

open FileReader (Bytes ascii)
open Otelfwd (intText printable_digit)
open Json (Renders RendersMember Quoted Clean commas)
open Decimal (Numeral)
open Utf8 (WellFormed)

/-! ## The tree -/

/-- a member, unless it is left out -/
def slot (name : String) (value : Option Json) : List (Bytes × Json) := (value.map fun v => (ascii name, v)).toList

def stringJson (text : Bytes) : Option Json := (givenText text).map .string

def intJson (n : Option Int64) : Option Json := n.map fun n => .int (.ofInt64 n)

def timeJson (n : Option Int64) : Option Json := n.map fun n => .string (intText n)

def objectJson (members : List (Bytes × Json)) : Option Json := if members = [] then none else some (.object members)

def arrayJson (items : List Json) : Option Json := if items = [] then none else some (.array items)

def scoreJson : Option (Option Double) → Option Json
  | some (some score) => some (.double score)
  | _ => none

def scopeJson : Json := .object [(ascii "name", .string (ascii "mail-log")), (ascii "version", .string (ascii "0.1.0"))]

def recipientJson (entry : Recipient) : Json :=
  .object ((ascii "address", .string entry.address) ::
    (slot "status" (stringJson entry.status) ++ slot "code" (intJson (given entry.code)) ++
      slot "enhanced_status_code" (stringJson entry.enhancedStatus) ++ slot "text" (stringJson entry.text)))

def attachmentJson (entry : Attachment) : Json :=
  .object ((ascii "name", .string entry.name) ::
    (slot "size_bytes" (intJson (given entry.size)) ++ slot "sha256" (stringJson entry.sha256) ++
      slot "content_type" (stringJson entry.contentType)))

/-- the values of an attribute -/
def attributeJson (key : Bytes) (values : List Bytes) : Json :=
  if values.length = 1 ∧ isRecipientKey key = false then .string (values.headD []) else .array (values.map .string)

/-- the attributes behind the texts -/
def ownMembers (number : Number → Option Int64) (flag : Flag → Option Bool) (score : Option (Option Double))
    (attachments : List Attachment) (recipients : List Recipient) : List (String × Option Json) :=
  [("email.size_bytes", intJson (number .size)),
    ("email.attachments", arrayJson (attachments.map attachmentJson)),
    ("email.envelope.recipients", arrayJson (recipients.map recipientJson)),
    ("client.port", intJson (number .clientPort)),
    ("server.port", intJson (number .serverPort)),
    ("network.local.port", intJson (number .networkLocalPort)),
    ("network.peer.port", intJson (number .networkPeerPort)),
    ("email.smtp.response.code", intJson (number .smtpResponseCode)),
    ("email.signed", (flag .signed).map .bool),
    ("email.encrypted", (flag .encrypted).map .bool),
    ("tls.established", (flag .tlsEstablished).map .bool),
    ("email.spam.score", scoreJson score),
    ("email.virus.checked", (flag .virusChecked).map .bool)]

/-- the members of the record -/
def topMembers (resource : List (Bytes × Json)) (time observedTime : Option Int64) (severity : Option (Int64 × Bytes))
    (body : Bytes) (attributes : List (Bytes × Json)) : List (String × Option Json) :=
  [("scope", some scopeJson),
    ("resource", objectJson resource),
    ("time_unix_nano", timeJson time),
    ("observed_time_unix_nano", timeJson observedTime),
    ("severity_number", intJson (severity.map Prod.fst)),
    ("severity_text", severity.bind fun s => stringJson s.2),
    ("body", stringJson body),
    ("attributes", objectJson attributes)]

/-- the ones which are there -/
def present (members : List (String × Option Json)) : List (Bytes × Json) := members.flatMap fun m => slot m.1 m.2

variable (log : MailLog)

def resourceMembers : List (Bytes × Json) :=
  log.resource.entries.map fun entry => (entry.1, .string (entry.2.headD []))

def attributeMembers : List (Bytes × Json) :=
  log.attributes.entries.map (fun entry => (entry.1, attributeJson entry.1 entry.2)) ++
    present (ownMembers (fun which => given (log.number which)) log.flag log.spamScore log.attachments log.recipients)

def bodyText : Bytes := if log.body = [] then log.buildDefaultBody else log.body

def tree : Json :=
  .object (present (topMembers log.resourceMembers (given log.timeUnixNano) (given log.observedTimeUnixNano)
    log.severity log.bodyText log.attributeMembers))

/-! ## Strings and names -/

theorem hexDigits_hexDigit : Json.HexDigits hexDigit := by
  have hall : ∀ n < 16, Json.hexDigit? (hexDigit (UInt8.ofNat n)) = some n ∧ 32 ≤ hexDigit (UInt8.ofNat n) ∧
      hexDigit (UInt8.ofNat n) < 0x80 := by
    decide +kernel
  intro n hn
  have hdigit := hall n.toNat (UInt8.lt_iff_toNat_lt.1 hn)
  rwa [UInt8.ofNat_toNat] at hdigit

theorem quoted_jsonString (text : Bytes) : Quoted (jsonString text) text :=
  Json.quoted_escapeByte hexDigits_hexDigit text

/-- control characters are escaped, and the bytes of UTF-8 characters stay as they are -/
theorem clean_jsonString {text : Bytes} (h : WellFormed text) : Clean (jsonString text) :=
  Json.clean_escapeByte hexDigits_hexDigit h

theorem renders_jsonString {text : Bytes} (h : WellFormed text) : Renders (jsonString text) (.string text) :=
  Json.renders_string (quoted_jsonString text) (clean_jsonString h)

/-- the names in the source -/
def names : List String :=
  ["scope", "name", "version", "resource", "time_unix_nano", "observed_time_unix_nano", "severity_number",
    "severity_text", "body", "attributes", "address", "status", "code", "enhanced_status_code", "text", "size_bytes",
    "sha256", "content_type", "email.size_bytes", "email.attachments", "email.envelope.recipients", "client.port",
    "server.port", "network.local.port", "network.peer.port", "email.smtp.response.code", "email.signed",
    "email.encrypted", "tls.established", "email.spam.score", "email.virus.checked"]

/-- printable ASCII, which needs no escape -/
def Printable (text : Bytes) : Prop := ∀ b ∈ text, b ≠ 34 ∧ b ≠ 92 ∧ 32 ≤ b ∧ b < 0x80

instance (text : Bytes) : Decidable (Printable text) :=
  decidable_of_iff ((text.all fun b => decide (b ≠ 34 ∧ b ≠ 92 ∧ 32 ≤ b ∧ b < 0x80)) = true)
    List.all_iff_forall_prop

theorem printable_names : ∀ name ∈ names, Printable (ascii name) := by decide +kernel

theorem quoted_printable {text : Bytes} (h : Printable text) : Quoted (34 :: (text ++ [34])) text :=
  Json.quoted_plain fun b hb => ⟨(h b hb).1, (h b hb).2.1, (h b hb).2.2.1⟩

theorem clean_printable {text : Bytes} (h : Printable text) : Clean (34 :: (text ++ [34])) :=
  .cons (by decide) (.append (Json.clean_ascii fun b hb => (h b hb).2.2)
    (Json.clean_ascii (List.forall_mem_singleton.2 (by decide))))

/-- a field is its name in quotes, a colon, and a value -/
theorem renders_field {name : String} (hname : name ∈ names) {value : Bytes} {v : Json} (h : Renders value v) :
    RendersMember (field name value) (ascii name, v) := by
  have hprintable := printable_names name hname
  have hmember := Json.rendersMember_mk (quoted_printable hprintable) (clean_printable hprintable) h
  rw [List.cons_append, List.append_assoc, List.singleton_append] at hmember
  exact hmember

/-! ## Numbers -/

theorem intText_eq (n : Int64) : intText n = Otelfwd.intDigits n.toInt := by
  unfold intText Otelfwd.intDigits
  have hneg : n < 0 ↔ n.toInt < 0 := Int64.lt_iff_toInt_lt
  simp only [hneg]

theorem printable_intText (n : Int64) : Printable (intText n) := by
  rw [intText_eq]
  exact Otelfwd.printable_intDigits n.toInt

theorem renders_intText (n : Int64) : Renders (intText n) (.int (.ofInt64 n)) := by
  refine ⟨?_, Json.clean_ascii fun b hb => (printable_intText n b hb).2.2⟩
  rw [intText_eq]
  exact Otelfwd.denotes_intDigits (.ofInt64 n)

/-- `std::to_chars` prints a numeral which stands for the double -/
def PrintsBack (toChars : Double → Bytes) (d : Double) : Prop :=
  ∃ n : Numeral, n.Valid ∧ toChars d = n.text ∧ n.toDouble = some d

/-- the bytes of a numeral -/
theorem mem_numeral {n : Numeral} {b : UInt8} (h : b ∈ n.text) :
    b = 45 ∧ n.negative = true ∨ b ∈ n.whole ∨ b = 46 ∧ n.fraction ≠ [] ∨ b ∈ n.fraction ∨
      ∃ e, n.exponent = some e ∧ (b = e.letter ∨ e.sign = some b ∨ b ∈ e.digits) := by
  unfold Numeral.text Numeral.tail at h
  rw [List.mem_append, List.mem_append, List.mem_append] at h
  rcases h with h | h | h | h
  · split_ifs at h with hneg
    · exact Or.inl ⟨List.mem_singleton.1 h, hneg⟩
    · exact absurd h List.not_mem_nil
  · exact Or.inr (Or.inl h)
  · split_ifs at h with hfraction
    · exact absurd h List.not_mem_nil
    · rcases List.mem_cons.1 h with h | h
      · exact Or.inr (Or.inr (Or.inl ⟨h, hfraction⟩))
      · exact Or.inr (Or.inr (Or.inr (Or.inl h)))
  · cases he : n.exponent with
    | none =>
      rw [he] at h
      exact absurd h List.not_mem_nil
    | some e =>
      rw [he] at h
      have hmem : b ∈ e.text := h
      unfold Decimal.Exponent.text at hmem
      rw [List.mem_cons, List.mem_append, Option.mem_toList] at hmem
      exact Or.inr (Or.inr (Or.inr (Or.inr ⟨e, rfl, hmem⟩)))

/-- a numeral is made of digits, a point, signs and an `e` -/
theorem printable_numeral {n : Numeral} (h : n.Valid) : Printable n.text := by
  intro b hb
  rcases mem_numeral hb with ⟨rfl, -⟩ | hb | ⟨rfl, -⟩ | hb | ⟨e, he, hb⟩
  · decide
  · exact printable_digit (h.whole.2 b hb)
  · decide
  · exact printable_digit (h.fraction b hb)
  · obtain ⟨hletter, hsign, -, hdigits⟩ := h.exponent e he
    rcases hb with rfl | hb | hb
    · rcases hletter with hl | hl
      · rw [hl]
        decide
      · rw [hl]
        decide
    · rcases hsign b hb with rfl | rfl
      · decide
      · decide
    · exact printable_digit (hdigits b hb)

/-- a point or an exponent -/
def isReal (b : UInt8) : Bool := b = 46 || b = 101 || b = 69

theorem isReal_digit {b : UInt8} (h : Decimal.isDigit b = true) : isReal b = false := by
  have hne : ∀ c : UInt8, Decimal.isDigit c = false → b ≠ c := by
    rintro c hc rfl
    rw [h] at hc
    cases hc
  unfold isReal
  simp only [hne 46 (by decide), hne 101 (by decide), hne 69 (by decide), decide_false, Bool.or_self]

/-- a numeral with a point or an exponent has one of these characters -/
theorem any_isReal {n : Numeral} (h : n.Valid) :
    n.text.any isReal = true ↔ ¬(n.fraction = [] ∧ n.exponent = none) := by
  rw [List.any_eq_true]
  constructor
  · rintro ⟨b, hb, hreal⟩ ⟨hfraction, hexponent⟩
    rcases mem_numeral hb with ⟨rfl, -⟩ | hb | ⟨-, hne⟩ | hb | ⟨e, he, -⟩
    · exact absurd hreal (by decide)
    · rw [isReal_digit (h.whole.2 b hb)] at hreal
      cases hreal
    · exact hne hfraction
    · rw [hfraction] at hb
      exact absurd hb List.not_mem_nil
    · rw [hexponent] at he
      cases he
  · intro hreal
    by_cases hfraction : n.fraction = []
    · obtain ⟨e, he⟩ : ∃ e, n.exponent = some e :=
        Option.ne_none_iff_exists'.1 fun hnone => hreal ⟨hfraction, hnone⟩
      refine ⟨e.letter, ?_, ?_⟩
      · simp [Numeral.text, Numeral.tail, he, Decimal.Exponent.text]
      · rcases (h.exponent e he).1 with hl | hl
        · rw [hl]
          rfl
        · rw [hl]
          rfl
    · exact ⟨46, by simp [Numeral.text, Numeral.tail, hfraction], rfl⟩

theorem renders_numeral {n : Numeral} (h : n.Valid) {v : Json} (hv : Json.ofNumeral n = some v) : Renders n.text v :=
  ⟨Json.denotes_numeral h hv, Json.clean_ascii fun b hb => (printable_numeral h b hb).2.2⟩

/-- **The score is read back as the same double**, a whole number too. -/
theorem renders_scoreText {toChars : Double → Bytes} {d : Double} (h : PrintsBack toChars d) :
    Renders (scoreText toChars d) (.double d) := by
  obtain ⟨n, hvalid, htext, hdouble⟩ := h
  have hunfold : scoreText toChars d = if n.text.any isReal then n.text else n.text ++ [46, 48] := by
    unfold scoreText
    rw [htext]
    rfl
  rw [hunfold]
  by_cases hwhole : n.fraction = [] ∧ n.exponent = none
  · -- a whole number, with ".0" behind it
    rw [if_neg fun hany => (any_isReal hvalid).1 hany hwhole]
    have htext' : n.text ++ [46, 48] = { n with fraction := [48] }.text := by
      simp [Numeral.text, Numeral.tail, hwhole.1, hwhole.2]
    have hvalid' : { n with fraction := [48] }.Valid :=
      ⟨hvalid.whole, hvalid.no_zero, by simp [Decimal.isDigit], hvalid.exponent⟩
    rw [htext']
    refine renders_numeral hvalid' ?_
    unfold Json.ofNumeral
    rw [if_neg fun hempty => List.cons_ne_nil _ _ hempty.1, Numeral.toDouble_fraction_zero hwhole.1 hwhole.2, hdouble]
    rfl
  · rw [if_pos ((any_isReal hvalid).2 hwhole)]
    refine renders_numeral hvalid ?_
    unfold Json.ofNumeral
    rw [if_neg hwhole, hdouble]
    rfl

/-! ## Members -/

open List (Forall₂ rel_append)

variable {name : String}

theorem renders_textField (hname : name ∈ names) {text : Bytes} (h : WellFormed text) :
    Forall₂ RendersMember (textField name text) (slot name (stringJson text)) := by
  unfold textField stringJson givenText
  split_ifs
  · exact .nil
  · exact .cons (renders_field hname (renders_jsonString h)) .nil

theorem renders_numberField (hname : name ∈ names) (n : Int64) :
    Forall₂ RendersMember (numberField name n) (slot name (intJson (given n))) := by
  unfold numberField intJson given
  by_cases h : n = 0
  · simp [h, slot]
  · rw [if_pos h, if_neg h]
    exact .cons (renders_field hname (renders_intText n)) .nil

/-- times are decimal numbers in quotes -/
theorem renders_timeField (hname : name ∈ names) (n : Int64) :
    Forall₂ RendersMember (timeField name n) (slot name (timeJson (given n))) := by
  unfold timeField timeJson given
  by_cases h : n = 0
  · simp [h, slot]
  · rw [if_pos h, if_neg h]
    have hprintable := printable_intText n
    exact .cons (renders_field hname
      (Json.renders_string (quoted_printable hprintable) (clean_printable hprintable))) .nil

theorem renders_flagField (hname : name ∈ names) (value : Option Bool) :
    Forall₂ RendersMember (flagField name value) (slot name (value.map .bool)) := by
  have htrue : Renders (ascii "true") (.bool true) := ⟨Json.denotes_true, Json.clean_of_all (by decide +kernel)⟩
  have hfalse : Renders (ascii "false") (.bool false) := ⟨Json.denotes_false, Json.clean_of_all (by decide +kernel)⟩
  cases value with
  | none => exact .nil
  | some value =>
    cases value with
    | true => exact .cons (renders_field hname htrue) .nil
    | false => exact .cons (renders_field hname hfalse) .nil

/-- a score which is no number is left out -/
theorem renders_scoreField {toChars : Double → Bytes} {score : Option (Option Double)}
    (h : ∀ d, score = some (some d) → PrintsBack toChars d) :
    Forall₂ RendersMember (scoreField toChars score) (slot "email.spam.score" (scoreJson score)) := by
  cases score with
  | none => exact .nil
  | some score =>
    cases score with
    | none => exact .nil
    | some d => exact .cons (renders_field (by simp [names]) (renders_scoreText (h d rfl))) .nil

theorem renders_arrayField (hname : name ∈ names) {texts : List Bytes} {items : List Json}
    (h : Forall₂ Renders texts items) : Forall₂ RendersMember (arrayField name texts)
    (slot name (arrayJson items)) := by
  unfold arrayField arrayJson
  cases h with
  | nil => exact .nil
  | cons ht htexts =>
    rw [if_neg (List.cons_ne_nil _ _), if_neg (List.cons_ne_nil _ _)]
    exact .cons (renders_field hname (Json.renders_array (.cons ht htexts))) .nil

/-- an object with members is their list, without any it is left out -/
theorem renders_objectField (hname : name ∈ names) {texts : List Bytes} {members : List (Bytes × Json)}
    (h : Forall₂ RendersMember texts members) :
    Forall₂ RendersMember (objectField name texts) (slot name (objectJson members)) := by
  unfold objectField objectJson
  cases h with
  | nil => exact .nil
  | cons ht htexts =>
    rw [if_neg (List.cons_ne_nil _ _), if_neg (List.cons_ne_nil _ _)]
    exact .cons (renders_field hname (Json.renders_object (.cons ht htexts))) .nil

theorem forall₂_map {α β γ : Type} {R : β → γ → Prop} {f : α → β} {g : α → γ} {l : List α}
    (h : ∀ a ∈ l, R (f a) (g a)) : Forall₂ R (l.map f) (l.map g) := by
  induction l with
  | nil => exact .nil
  | cons a l ih =>
    rw [List.forall_mem_cons] at h
    exact .cons h.1 (ih h.2)

/-! ## The record -/

/-- the texts of an object are UTF-8 -/
structure Utf8Texts (log : MailLog) : Prop where
  body : WellFormed log.body
  severityText : log.severityNumber ≠ 0 → WellFormed log.severityText
  resource : ∀ e ∈ log.resource.entries, WellFormed e.1 ∧ ∀ v ∈ e.2, WellFormed v
  attributes : ∀ e ∈ log.attributes.entries, WellFormed e.1 ∧ ∀ v ∈ e.2, WellFormed v
  recipients : ∀ r ∈ log.recipients,
    WellFormed r.address ∧ WellFormed r.status ∧ WellFormed r.enhancedStatus ∧ WellFormed r.text
  attachments : ∀ a ∈ log.attachments, WellFormed a.name ∧ WellFormed a.sha256 ∧ WellFormed a.contentType

theorem renders_recipient {entry : Recipient} (h : WellFormed entry.address ∧ WellFormed entry.status ∧
    WellFormed entry.enhancedStatus ∧ WellFormed entry.text) : Renders (recipientText entry) (recipientJson entry) := by
  obtain ⟨haddress, hstatus, henhanced, htext⟩ := h
  refine Json.renders_object (.cons (renders_field (by simp [names]) (renders_jsonString haddress)) ?_)
  exact rel_append (rel_append (rel_append (renders_textField (by simp [names]) hstatus)
    (renders_numberField (by simp [names]) _)) (renders_textField (by simp [names]) henhanced))
    (renders_textField (by simp [names]) htext)

theorem renders_attachment {entry : Attachment} (h : WellFormed entry.name ∧ WellFormed entry.sha256 ∧
    WellFormed entry.contentType) : Renders (attachmentText entry) (attachmentJson entry) := by
  obtain ⟨hname, hhash, htype⟩ := h
  refine Json.renders_object (.cons (renders_field (by simp [names]) (renders_jsonString hname)) ?_)
  exact rel_append (rel_append (renders_numberField (by simp [names]) _) (renders_textField (by simp [names]) hhash))
    (renders_textField (by simp [names]) htype)

theorem renders_attribute {entry : Bytes × List Bytes} (hkey : WellFormed entry.1) (h : ∀ v ∈ entry.2, WellFormed v) :
    RendersMember (attributeText entry) (entry.1, attributeJson entry.1 entry.2) := by
  refine Json.rendersMember_mk (quoted_jsonString _) (clean_jsonString hkey) ?_
  unfold attributeJson
  split_ifs with hone
  · obtain ⟨v, hv⟩ := List.length_eq_one_iff.1 hone.1
    rw [hv] at h ⊢
    exact renders_jsonString (h v List.mem_cons_self)
  · exact Json.renders_array (forall₂_map fun v hv => renders_jsonString (h v hv))

theorem renders_resource {entry : Bytes × List Bytes} (hkey : WellFormed entry.1) (h : ∀ v ∈ entry.2, WellFormed v) :
    RendersMember (resourceText entry) (entry.1, .string (entry.2.headD [])) := by
  refine Json.rendersMember_mk (quoted_jsonString _) (clean_jsonString hkey) (renders_jsonString ?_)
  cases hvalues : entry.2 with
  | nil => exact Utf8.wellFormed_nil
  | cons v vs =>
    rw [hvalues] at h
    exact h v List.mem_cons_self

variable {toChars : Double → Bytes} {log : MailLog}

/-- the attributes in the order of `AttributeFields` -/
theorem renders_attributes (h : Utf8Texts log) (hscore : ∀ d, log.spamScore = some (some d) → PrintsBack toChars d) :
    Forall₂ RendersMember (log.attributeFields toChars) log.attributeMembers := by
  have htexts : Forall₂ RendersMember (log.attributes.entries.map attributeText)
      (log.attributes.entries.map fun entry => (entry.1, attributeJson entry.1 entry.2)) :=
    forall₂_map fun entry he => renders_attribute (h.attributes entry he).1 (h.attributes entry he).2
  have hattachments : Forall₂ Renders (log.attachments.map attachmentText) (log.attachments.map attachmentJson) :=
    forall₂_map fun entry he => renders_attachment (h.attachments entry he)
  have hrecipients : Forall₂ Renders (log.recipients.map recipientText) (log.recipients.map recipientJson) :=
    forall₂_map fun entry he => renders_recipient (h.recipients entry he)
  unfold attributeFields attributeMembers present ownMembers
  simp only [List.flatMap_cons, List.flatMap_nil, List.append_nil, List.append_assoc]
  refine rel_append htexts (rel_append (renders_numberField (by simp [names]) _) ?_)
  refine rel_append (renders_arrayField (by simp [names]) hattachments) ?_
  refine rel_append (renders_arrayField (by simp [names]) hrecipients) ?_
  refine rel_append (renders_numberField (by simp [names]) _) (rel_append (renders_numberField (by simp [names]) _) ?_)
  refine rel_append (renders_numberField (by simp [names]) _) (rel_append (renders_numberField (by simp [names]) _) ?_)
  refine rel_append (renders_numberField (by simp [names]) _) (rel_append (renders_flagField (by simp [names]) _) ?_)
  refine rel_append (renders_flagField (by simp [names]) _) (rel_append (renders_flagField (by simp [names]) _) ?_)
  exact rel_append (renders_scoreField hscore) (renders_flagField (by simp [names]) _)

theorem wellFormed_firstValue (h : Utf8Texts log) {key : String} {around : Bytes → Bytes}
    (haround : ∀ text, WellFormed text → WellFormed (around text)) : ∀ part ∈ log.firstValue key around,
      WellFormed part := by
  intro part hpart
  unfold firstValue at hpart
  rw [Option.mem_toList, Option.map_eq_some_iff] at hpart
  obtain ⟨values, hfind, rfl⟩ := hpart
  apply haround
  cases values with
  | nil => exact Utf8.wellFormed_nil
  | cons v vs => exact (h.attributes _ (Keyed.mem_of_find hfind)).2 v List.mem_cons_self

theorem wellFormed_bodyParts (h : Utf8Texts log) : ∀ part ∈ log.bodyParts, WellFormed part := by
  have hascii : WellFormed (ascii "from=<") ∧ WellFormed (ascii ">") ∧ WellFormed (ascii "from=") ∧
      WellFormed (ascii "message-id=") ∧ WellFormed (ascii "nrcpt=") :=
    ⟨Utf8.wellFormed_of_all (by decide +kernel), Utf8.wellFormed_of_all (by decide +kernel),
      Utf8.wellFormed_of_all (by decide +kernel), Utf8.wellFormed_of_all (by decide +kernel),
      Utf8.wellFormed_of_all (by decide +kernel)⟩
  obtain ⟨hopen, hclose, hfrom, hid, hcount⟩ := hascii
  unfold bodyParts
  simp only [List.forall_mem_append]
  refine ⟨⟨⟨⟨?_, ?_⟩, ?_⟩, ?_⟩, ?_⟩
  · exact wellFormed_firstValue h fun _ => id
  · exact wellFormed_firstValue h fun _ => id
  · split_ifs
    · exact wellFormed_firstValue h fun _ ht => (hopen.append ht).append hclose
    · exact wellFormed_firstValue h fun _ ht => hfrom.append ht
  · exact wellFormed_firstValue h fun _ ht => hid.append ht
  · split_ifs
    · refine List.forall_mem_singleton.2 (hcount.append (Utf8.wellFormed_ascii fun b hb => ?_))
      exact (printable_digit (FileReader.isDigit_of_mem_decimal hb)).2.2.2
    · exact fun _ hmem => absurd hmem List.not_mem_nil

/-- the summary is UTF-8: it is made of texts of the caller and of ASCII -/
theorem wellFormed_bodyText (h : Utf8Texts log) : WellFormed log.bodyText := by
  have hfold : ∀ (parts : List Bytes) (text : Bytes), WellFormed text → (∀ part ∈ parts, WellFormed part) →
      WellFormed (parts.foldl addPart text) := by
    intro parts
    induction parts with
    | nil => exact fun _ ht _ => ht
    | cons part parts ih =>
      intro text ht hparts
      rw [List.forall_mem_cons] at hparts
      refine ih _ ?_ hparts.2
      unfold addPart
      split_ifs
      · exact hparts.1
      · have hspace : Utf8.WellFormed [32] := Utf8.wellFormed_ascii (List.forall_mem_singleton.2 (by decide))
        exact ht.append (hspace.append hparts.1)
  unfold bodyText
  split_ifs
  · exact hfold _ _ Utf8.wellFormed_nil (wellFormed_bodyParts h)
  · exact h.body

theorem renders_scope : RendersMember scopeField (ascii "scope", scopeJson) := by
  have hascii : WellFormed (ascii "mail-log") ∧ WellFormed (ascii "0.1.0") :=
    ⟨Utf8.wellFormed_of_all (by decide +kernel), Utf8.wellFormed_of_all (by decide +kernel)⟩
  refine renders_field (by simp [names]) (Json.renders_object ?_)
  exact .cons (renders_field (by simp [names]) (renders_jsonString hascii.1))
    (.cons (renders_field (by simp [names]) (renders_jsonString hascii.2)) .nil)

/-- the severity is left out, or the number is there and perhaps the text -/
theorem renders_severity (h : Utf8Texts log) : Forall₂ RendersMember
    (if log.severityNumber ≠ 0 then
      numberField "severity_number" log.severityNumber ++ textField "severity_text" log.severityText
    else [])
    (slot "severity_number" (intJson (log.severity.map Prod.fst)) ++
      slot "severity_text" (log.severity.bind fun s => stringJson s.2)) := by
  by_cases hzero : log.severityNumber = 0
  · simp [severity, given, hzero, slot, intJson]
  · have hseverity : log.severity = some (log.severityNumber, log.severityText) := by
      unfold severity given
      rw [if_neg hzero]
      rfl
    have hgiven : intJson (given log.severityNumber) = intJson (some log.severityNumber) := by
      unfold given
      rw [if_neg hzero]
    rw [if_pos hzero, hseverity]
    have hnumber : Forall₂ RendersMember (numberField "severity_number" log.severityNumber)
        (slot "severity_number" (intJson (given log.severityNumber))) :=
      renders_numberField (by simp [names]) log.severityNumber
    rw [hgiven] at hnumber
    exact rel_append hnumber (renders_textField (by simp [names]) (h.severityText hzero))

/-- **The line of `Build` is one line of UTF-8, and denotes the tree.** -/
theorem renders_build (h : Utf8Texts log) (hscore : ∀ d, log.spamScore = some (some d) → PrintsBack toChars d) :
    Renders (log.build toChars) log.tree := by
  have hresource : Forall₂ RendersMember (log.resource.entries.map resourceText) log.resourceMembers :=
    forall₂_map fun entry he => renders_resource (h.resource entry he).1 (h.resource entry he).2
  refine Json.renders_object ?_
  unfold fields present topMembers
  simp only [List.flatMap_cons, List.flatMap_nil, List.append_nil, List.append_assoc]
  refine rel_append (.cons renders_scope .nil) (rel_append (renders_objectField (by simp [names]) hresource) ?_)
  refine rel_append (renders_timeField (by simp [names]) _) (rel_append (renders_timeField (by simp [names]) _) ?_)
  rw [← List.append_assoc (slot "severity_number" _)]
  refine rel_append (renders_severity h) (rel_append (renders_textField (by simp [names]) (wellFormed_bodyText h)) ?_)
  exact renders_objectField (by simp [names]) (renders_attributes h hscore)

end DominoLogForwarder.MailLog
