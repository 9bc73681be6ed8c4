/-
What is read from a line of `Build`.

`Restores` compares a tree with the changes since the last `Clear`: it has a member for what the calls have left and no
other one. Where no call has set a body, the body is a summary (`summary`).

- `build_lossless`: the line is parsed, and the tree restores the calls.
- `decodeFlatRecord_build`: the line is taken by a socket, and the record has what the calls have left (`Keeps`).
-/
import DominoLogForwarder.MailLog.Tree
import DominoLogForwarder.Otelfwd.Times

namespace DominoLogForwarder.MailLog

open FileReader (Bytes ascii decimal)
open Json (find Distinct Clean)
open Utf8 (WellFormed)

/-! ## What the record has to say -/

section Spec

variable (changes : List Change)

def lastText (key : String) : Option Bytes := last (text? (ascii key)) changes

/-- the recipients of the envelope, or else of the headers -/
def countOf : ℕ :=
  if changes.filterMap recipient? ≠ [] then (changes.filterMap recipient?).length
  else
    (["email.to.addresses", "email.cc.addresses", "email.bcc.addresses"].map fun key =>
      (changes.filterMap (added? (ascii key))).length).sum

def partsOf : List Bytes :=
  (lastText changes "email.event").toList ++ (lastText changes "email.action").toList ++
    (match lastText changes "email.envelope.from.address" with
      | some sender => [ascii "from=<" ++ sender ++ ascii ">"]
      | none => ((lastText changes "email.from.address").map fun sender => ascii "from=" ++ sender).toList) ++
    ((lastText changes "email.message.id").map fun id => ascii "message-id=" ++ id).toList ++
    if 0 < countOf changes then [ascii "nrcpt=" ++ decimal (countOf changes)] else []

/-- what happened, from whom, which message and to how many, with blanks between them -/
def summary : Bytes := [32].intercalate (partsOf changes)

def bodyOf : Bytes := (last body? changes).getD (summary changes)

def resourceOf (key : Bytes) : Option Json := (last (resource? key) changes).map .string

/-- the attributes which are not texts -/
def ownOf : List (String × Option Json) :=
  ownMembers (fun which => last (number? which) changes) (fun which => last (flag? which) changes) (last score? changes)
    (changes.filterMap attachment?) (changes.filterMap recipient?)

def attributeOf (key : Bytes) : Option Json :=
  ((values key changes).map (attributeJson key)).or (find (present (ownOf changes)) key)

def Restores (doc : Json) : Prop :=
  ∃ resource attributes : List (Bytes × Json),
    doc = .object (present (topMembers resource (last time? changes) (last observedTime? changes)
      (last severity? changes) (bodyOf changes) attributes)) ∧
    (∀ key, find resource key = resourceOf changes key) ∧ ∀ key, find attributes key = attributeOf changes key

end Spec

/-- the line of the calls is one line of UTF-8 with one object, and the object restores the calls -/
structure Lossless (toChars : Double → Bytes) (calls : List Call) : Prop where
  clean : Clean ((run calls).build toChars)
  parsed : ∃ doc, Json.parse ((run calls).build toChars) = some doc ∧ doc.Distinct ∧ Restores (changesOf calls) doc

/-! ## Members which are there -/

theorem find_append (a b : List (Bytes × Json)) (key : Bytes) : find (a ++ b) key = (find a key).or (find b key) := by
  unfold find
  rw [List.lookup_append]

theorem find_slot (name : String) (v : Option Json) : find (slot name v) (ascii name) = v := by
  cases v with
  | none => rfl
  | some v => simp [slot, find]

theorem find_slot_ne {name : String} {key : Bytes} (h : key ≠ ascii name) (v : Option Json) : find
    (slot name v) key = none := by
  cases v with
  | none => rfl
  | some v => simp [slot, find, List.lookup_cons, beq_false_of_ne h]

theorem names_present (members : List (String × Option Json)) :
    ((present members).map Prod.fst).Sublist (members.map fun m => ascii m.1) := by
  induction members with
  | nil => exact List.Sublist.slnil
  | cons m members ih =>
    obtain ⟨name, v⟩ := m
    have hsplit : present ((name, v) :: members) = slot name v ++ present members := List.flatMap_cons
    rw [hsplit, List.map_append, List.map_cons]
    cases v with
    | none => exact ih.cons _
    | some v => exact ih.cons_cons _

/-- a name is found where it stands in the list -/
theorem find_present {members : List (String × Option Json)} (hnodup : (members.map fun m => ascii m.1).Nodup)
    {name : String} {v : Option Json} (h : (name, v) ∈ members) : find (present members) (ascii name) = v := by
  induction members with
  | nil => exact absurd h List.not_mem_nil
  | cons m members ih =>
    rw [List.map_cons, List.nodup_cons] at hnodup
    have hsplit : present (m :: members) = slot m.1 m.2 ++ present members := List.flatMap_cons
    rw [hsplit, find_append]
    rcases List.mem_cons.1 h with rfl | h
    · have hnone : find (present members) (ascii name) = none := by
        rw [Json.find_eq_none_iff]
        exact fun hmem => hnodup.1 ((names_present members).subset hmem)
      rw [find_slot, hnone, Option.or_none]
    · have hne : ascii name ≠ ascii m.1 := by
        intro heq
        exact hnodup.1 (heq ▸ List.mem_map_of_mem (f := fun m : String × Option Json => ascii m.1) h)
      rw [find_slot_ne hne, Option.none_or]
      exact ih hnodup.2 h

/-! ## The keys -/

variable {changes : List Change} {log : MailLog}

/-- the keys of the texts are the ones of setters and adders -/
theorem values_key (hfits : ∀ c ∈ changes, c.Fits) {key : Bytes} {vs : List Bytes} (h : values key changes = some vs) :
    isSetKey key = true ∨ isAddedKey key = true := by
  unfold values at h
  cases hlast : last (text? key) changes with
  | some value =>
    obtain ⟨change, hmem, hread⟩ := mem_of_last hlast
    cases change with
    | text k v =>
      rw [text?_text] at hread
      split_ifs at hread with hk
      exact Or.inl (hk ▸ (hfits _ hmem).1)
    | _ => exact absurd hread (by simp [text?])
  | none =>
    rw [hlast] at h
    dsimp only at h
    split_ifs at h with hempty
    obtain ⟨v, hv⟩ := List.exists_mem_of_ne_nil _ hempty
    obtain ⟨change, hmem, hread⟩ := List.mem_filterMap.1 hv
    cases change with
    | added k v =>
      rw [added?_added] at hread
      split_ifs at hread with hk
      exact Or.inr (hk ▸ (hfits _ hmem).1)
    | _ => exact absurd hread (by simp [added?])

/-- the keys of the fields are different, and neither a setter nor an adder has one of them -/
theorem ownKeys_apart : ownKeys.Nodup ∧ ∀ key ∈ ownKeys, isSetKey key = false ∧ isAddedKey key = false := by
  decide +kernel

theorem names_ownMembers (number : Number → Option Int64) (flag : Flag → Option Bool) (score : Option (Option Double))
    (attachments : List Attachment) (recipients : List Recipient) :
    ((ownMembers number flag score attachments recipients).map fun m => ascii m.1) = ownKeys := rfl

/-- no attribute has a key twice -/
theorem nodup_attributeMembers (h : Holds log changes) (hfits : ∀ c ∈ changes, c.Fits) :
    (log.attributeMembers.map Prod.fst).Nodup := by
  unfold attributeMembers
  rw [List.map_append, List.map_map]
  have hown := names_present (ownMembers (fun which => given (log.number which)) log.flag log.spamScore log.attachments
    log.recipients)
  rw [names_ownMembers] at hown
  refine List.nodup_append'.2 ⟨log.attributes.nodup, hown.nodup ownKeys_apart.1, ?_⟩
  intro key hkey hmem
  obtain ⟨entry, hentry, rfl⟩ := List.mem_map.1 hkey
  have hfind : log.attributes.find entry.1 = some entry.2 := Keyed.find_of_mem hentry
  rw [h.attributes] at hfind
  have hnot : isSetKey entry.1 = false ∧ isAddedKey entry.1 = false := ownKeys_apart.2 _ (hown.subset hmem)
  rcases values_key hfits hfind with hset | hadded
  · exact Bool.false_ne_true (hnot.1.symm.trans hset)
  · exact Bool.false_ne_true (hnot.2.symm.trans hadded)

theorem find_map_entries (entries : List (Bytes × List Bytes)) (value : Bytes → List Bytes → Json) (key : Bytes) :
    find (entries.map fun entry => (entry.1, value entry.1 entry.2)) key =
      (Keyed.findIn key entries).map (value key) := by
  induction entries with
  | nil => rfl
  | cons entry entries ih =>
    unfold find at ih ⊢
    rw [List.map_cons, List.lookup_cons, Keyed.findIn]
    by_cases hkey : entry.1 = key
    · subst hkey
      simp
    · rw [beq_false_of_ne (Ne.symm hkey), if_neg hkey]
      exact ih

theorem find_attributeMembers (h : Holds log changes) (key : Bytes) :
    find log.attributeMembers key = attributeOf changes key := by
  have hnumber : (fun which => given (log.number which)) = fun which => last (number? which) changes :=
    funext h.number
  have hflag : log.flag = fun which => last (flag? which) changes := funext h.flag
  unfold attributeMembers attributeOf ownOf
  rw [find_append, find_map_entries log.attributes.entries attributeJson, hnumber, hflag, h.score, h.attachments,
    h.recipients, ← h.attributes]
  rfl

theorem find_resourceMembers (h : Holds log changes) (key : Bytes) :
    find log.resourceMembers key = resourceOf changes key := by
  unfold resourceMembers resourceOf
  rw [find_map_entries log.resource.entries fun _ values => .string (values.headD [])]
  have hfind : Keyed.findIn key log.resource.entries = (last (resource? key) changes).map fun value => [value] :=
    h.resource key
  rw [hfind, Option.map_map]
  rfl

/-! ## The summary -/

theorem values_set (hfits : ∀ c ∈ changes, c.Fits) {key : Bytes} (h : isSetKey key = true) :
    values key changes = (last (text? key) changes).map fun value => [value] := by
  unfold values
  cases hlast : last (text? key) changes with
  | some value => rfl
  | none =>
    have hempty : changes.filterMap (added? key) = [] := by
      rw [List.filterMap_eq_nil_iff]
      intro change hmem
      cases change with
      | added k v =>
        rw [added?_added, if_neg]
        rintro rfl
        have hadded : isAddedKey k = true := (hfits _ hmem).1
        unfold isSetKey at h
        rw [hadded] at h
        exact absurd h Bool.false_ne_true
      | _ => rfl
    dsimp only
    rw [if_pos hempty]
    rfl

theorem values_adder (hfits : ∀ c ∈ changes, c.Fits) {key : Bytes} (h : isAddedKey key = true) :
    ((values key changes).map List.length).getD 0 = (changes.filterMap (added? key)).length := by
  unfold values
  rw [last_text_eq_none hfits h]
  dsimp only
  split_ifs with hempty
  · rw [hempty]
    rfl
  · rfl

theorem firstValue_eq (h : Holds log changes) (hfits : ∀ c ∈ changes, c.Fits) {key : String} (hkey : key ∈ setKeys)
    (around : Bytes → Bytes) : log.firstValue key around = ((lastText changes key).map around).toList := by
  unfold firstValue lastText
  rw [h.attributes, values_set hfits (isSetKey_of_mem key hkey), Option.map_map]
  rfl

theorem recipientCount_eq (h : Holds log changes) (hfits : ∀ c ∈ changes, c.Fits) : log.recipientCount =
    countOf changes := by
  have hkeys : ∀ key ∈ ["email.to.addresses", "email.cc.addresses", "email.bcc.addresses"],
      isAddedKey (ascii key) = true := by simp [isAddedKey, isRecipientKey]
  unfold recipientCount countOf
  rw [h.recipients]
  split_ifs
  · rfl
  · congr 1
    refine List.map_congr_left fun key hkey => ?_
    rw [h.attributes]
    exact values_adder hfits (hkeys key hkey)

theorem bodyParts_eq (h : Holds log changes) (hfits : ∀ c ∈ changes, c.Fits) : log.bodyParts = partsOf changes := by
  have hsender : (log.attributes.find (ascii "email.envelope.from.address")).isSome =
      (lastText changes "email.envelope.from.address").isSome := by
    rw [h.attributes, values_set hfits (isSetKey_of_mem _ (by simp [setKeys])), Option.isSome_map]
    rfl
  unfold bodyParts partsOf
  rw [firstValue_eq h hfits (by simp [setKeys]), firstValue_eq h hfits (by simp [setKeys]),
    firstValue_eq h hfits (by simp [setKeys]), firstValue_eq h hfits (by simp [setKeys]),
    firstValue_eq h hfits (by simp [setKeys]), recipientCount_eq h hfits, hsender, Option.map_id_apply,
      Option.map_id_apply]
  cases lastText changes "email.envelope.from.address" <;> rfl

/-- the parts, one after the other with blanks -/
theorem foldl_addPart (text : Bytes) (h : text ≠ []) (parts : List Bytes) :
    parts.foldl addPart text = [32].intercalate (text :: parts) := by
  induction parts generalizing text with
  | nil => simp
  | cons part parts ih =>
    have hadd : addPart text part = text ++ 32 :: part := if_neg h
    rw [List.foldl_cons, hadd, ih _ (by simp), List.intercalate_cons_cons]
    cases parts with
    | nil => simp
    | cons next parts => simp [List.intercalate_cons_cons]

theorem lastText_ne_nil (hfits : ∀ c ∈ changes, c.Fits) {key : String}
    (hkey : ascii key ≠ ascii "email.envelope.from.address") {text : Bytes} (h : lastText changes key = some text) :
    text ≠ [] := by
  obtain ⟨change, hmem, hread⟩ := mem_of_last h
  cases change with
  | text k v =>
    rw [text?_text] at hread
    split_ifs at hread with hk
    obtain rfl := Option.some.inj hread
    exact fun hempty => hkey (hk ▸ (hfits _ hmem).2.2 hempty)
  | _ => exact absurd hread (by simp [text?])

theorem partsOf_ne_nil (hfits : ∀ c ∈ changes, c.Fits) : ∀ part ∈ partsOf changes, part ≠ [] := by
  have hwords : ascii "from=<" ≠ [] ∧ ascii "from=" ≠ [] ∧ ascii "message-id=" ≠ [] ∧ ascii "nrcpt=" ≠ [] := by
    simp [ascii]
  obtain ⟨hopen, hfrom, hid, hcount⟩ := hwords
  unfold partsOf
  simp only [List.forall_mem_append, Option.mem_toList]
  refine ⟨⟨⟨⟨?_, ?_⟩, ?_⟩, ?_⟩, ?_⟩
  · exact fun part hpart => lastText_ne_nil hfits (by simp [ascii]) hpart
  · exact fun part hpart => lastText_ne_nil hfits (by simp [ascii]) hpart
  · cases lastText changes "email.envelope.from.address" with
    | some sender => exact List.forall_mem_singleton.2 (by simp [hopen])
    | none =>
      intro part hpart
      rw [Option.mem_toList, Option.map_eq_some_iff] at hpart
      obtain ⟨sender, -, rfl⟩ := hpart
      simp [hfrom]
  · intro part hpart
    obtain ⟨id, -, rfl⟩ := Option.map_eq_some_iff.1 hpart
    simp [hid]
  · split_ifs
    · exact List.forall_mem_singleton.2 (by simp [hcount])
    · exact fun _ hmem => absurd hmem List.not_mem_nil

theorem bodyText_eq (h : Holds log changes) (hfits : ∀ c ∈ changes, c.Fits) : log.bodyText = bodyOf changes := by
  have hbody := h.body
  unfold bodyText bodyOf
  unfold givenText at hbody
  split_ifs at hbody ⊢ with hempty
  · rw [← hbody, Option.getD_none, buildDefaultBody, bodyParts_eq h hfits, summary]
    have hparts := partsOf_ne_nil hfits
    cases hcons : partsOf changes with
    | nil => rfl
    | cons part parts =>
      rw [hcons] at hparts
      exact foldl_addPart part (hparts part List.mem_cons_self) parts
  · rw [← hbody]
    rfl

/-! ## UTF-8 -/

/-- the texts of a change -/
def Change.texts : Change → List Bytes
  | .resource key value => [key, value]
  | .text _ value => [value]
  | .added _ value => [value]
  | .recipient entry => [entry.address, entry.status, entry.enhancedStatus, entry.text]
  | .attachment entry => [entry.name, entry.sha256, entry.contentType]
  | .body value => [value]
  | .severity _ value => [value]
  | _ => []

/-- all texts of the changes are UTF-8 -/
def Utf8Changes (changes : List Change) : Prop := ∀ change ∈ changes, ∀ text ∈ change.texts, WellFormed text

/-- the values of an attribute, and its key -/
theorem wellFormed_values (hfits : ∀ c ∈ changes, c.Fits) (hutf8 : Utf8Changes changes) {key : Bytes} {vs : List Bytes}
    (h : values key changes = some vs) : WellFormed key ∧ ∀ v ∈ vs, WellFormed v := by
  unfold values at h
  cases hlast : last (text? key) changes with
  | some value =>
    rw [hlast] at h
    obtain rfl := Option.some.inj h
    obtain ⟨change, hmem, hread⟩ := mem_of_last hlast
    cases change with
    | text k v =>
      rw [text?_text] at hread
      split_ifs at hread with hk
      obtain rfl := Option.some.inj hread
      refine ⟨hk ▸ Utf8.wellFormed_ascii (hfits _ hmem).2.1, ?_⟩
      exact List.forall_mem_singleton.2 (hutf8 _ hmem _ List.mem_cons_self)
    | _ => exact absurd hread (by simp [text?])
  | none =>
    rw [hlast] at h
    dsimp only at h
    split_ifs at h with hempty
    obtain rfl := Option.some.inj h
    have hadded : ∀ v ∈ changes.filterMap (added? key), WellFormed key ∧ WellFormed v := by
      intro v hv
      obtain ⟨change, hmem, hread⟩ := List.mem_filterMap.1 hv
      cases change with
      | added k v' =>
        rw [added?_added] at hread
        split_ifs at hread with hk
        obtain rfl := Option.some.inj hread
        exact ⟨hk ▸ Utf8.wellFormed_ascii (hfits _ hmem).2, hutf8 _ hmem _ List.mem_cons_self⟩
      | _ => exact absurd hread (by simp [added?])
    obtain ⟨v, hv⟩ := List.exists_mem_of_ne_nil _ hempty
    exact ⟨(hadded v hv).1, fun v hv => (hadded v hv).2⟩

theorem utf8Texts_of_holds (h : Holds log changes) (hfits : ∀ c ∈ changes, c.Fits) (hutf8 : Utf8Changes changes) :
    Utf8Texts log where
  body := by
    have hbody := h.body
    unfold givenText at hbody
    split_ifs at hbody with hempty
    · rw [hempty]
      exact Utf8.wellFormed_nil
    · obtain ⟨change, hmem, hread⟩ := mem_of_last hbody.symm
      cases change with
      | body value =>
        rw [← Option.some.inj hread]
        exact hutf8 _ hmem _ List.mem_cons_self
      | _ => exact absurd hread (by simp [body?])
  severityText := by
    intro hne
    have hseverity := h.severity
    unfold severity given at hseverity
    rw [if_neg hne, Option.map_some] at hseverity
    obtain ⟨change, hmem, hread⟩ := mem_of_last hseverity.symm
    cases change with
    | severity number text =>
      obtain ⟨-, rfl⟩ := Prod.mk.inj (Option.some.inj hread)
      exact hutf8 _ hmem _ List.mem_cons_self
    | _ => exact absurd hread (by simp [severity?])
  resource := by
    intro entry hentry
    have hfind : log.resource.find entry.1 = some entry.2 := Keyed.find_of_mem hentry
    rw [h.resource, Option.map_eq_some_iff] at hfind
    obtain ⟨value, hlast, hvalue⟩ := hfind
    obtain ⟨change, hmem, hread⟩ := mem_of_last hlast
    cases change with
    | resource k v =>
      unfold resource? at hread
      dsimp only at hread
      split_ifs at hread with hk
      obtain rfl := Option.some.inj hread
      have htexts := hutf8 _ hmem
      rw [← hvalue, ← hk]
      exact ⟨htexts _ List.mem_cons_self,
        List.forall_mem_singleton.2 (htexts _ (List.mem_cons_of_mem _ List.mem_cons_self))⟩
    | _ => exact absurd hread (by simp [resource?])
  attributes := by
    intro entry hentry
    have hfind : log.attributes.find entry.1 = some entry.2 := Keyed.find_of_mem hentry
    rw [h.attributes] at hfind
    exact wellFormed_values hfits hutf8 hfind
  recipients := by
    intro entry hentry
    rw [h.recipients] at hentry
    obtain ⟨change, hmem, hread⟩ := List.mem_filterMap.1 hentry
    cases change with
    | recipient r =>
      have htexts := hutf8 _ hmem
      obtain rfl := Option.some.inj hread
      exact ⟨htexts _ (by simp [Change.texts]), htexts _ (by simp [Change.texts]), htexts _ (by simp [Change.texts]),
        htexts _ (by simp [Change.texts])⟩
    | _ => exact absurd hread (by simp [recipient?])
  attachments := by
    intro entry hentry
    rw [h.attachments] at hentry
    obtain ⟨change, hmem, hread⟩ := List.mem_filterMap.1 hentry
    cases change with
    | attachment a =>
      have htexts := hutf8 _ hmem
      obtain rfl := Option.some.inj hread
      exact ⟨htexts _ (by simp [Change.texts]), htexts _ (by simp [Change.texts]), htexts _ (by simp [Change.texts])⟩
    | _ => exact absurd hread (by simp [attachment?])

/-! ## The line is lossless -/

theorem distinct_slot {name : String} {v : Option Json} (h : ∀ w, v = some w → Distinct w) :
    ∀ m ∈ slot name v, Distinct m.2 := by
  intro m hm
  unfold slot at hm
  rw [Option.mem_toList, Option.map_eq_some_iff] at hm
  obtain ⟨w, hw, rfl⟩ := hm
  exact h w hw

theorem distinct_present {members : List (String × Option Json)} (hnodup : (members.map fun m => ascii m.1).Nodup)
    (h : ∀ m ∈ members, ∀ v, m.2 = some v → Distinct v) : Distinct (.object (present members)) := by
  refine .object ((names_present members).nodup hnodup) fun m hm => ?_
  obtain ⟨member, hmember, hslot⟩ := List.mem_flatMap.1 hm
  exact distinct_slot (h member hmember) m hslot

theorem distinct_stringJson (text : Bytes) : ∀ v, stringJson text = some v → Distinct v := by
  intro v hv
  obtain ⟨t, -, rfl⟩ := Option.map_eq_some_iff.1 hv
  exact .string t

theorem distinct_intJson (n : Option Int64) : ∀ v, intJson n = some v → Distinct v := by
  intro v hv
  obtain ⟨k, -, rfl⟩ := Option.map_eq_some_iff.1 hv
  exact .int _

theorem distinct_bool (value : Option Bool) : ∀ v, value.map Json.bool = some v → Distinct v := by
  intro v hv
  obtain ⟨b, -, rfl⟩ := Option.map_eq_some_iff.1 hv
  exact .bool b

theorem distinct_arrayJson {items : List Json} (h : ∀ j ∈ items, Distinct j) : ∀ v, arrayJson items = some v →
    Distinct v := by
  intro v hv
  unfold arrayJson at hv
  split_ifs at hv
  obtain rfl := Option.some.inj hv
  exact .array h

theorem distinct_scoreJson (score : Option (Option Double)) : ∀ v, scoreJson score = some v → Distinct v := by
  intro v hv
  cases score with
  | none => cases hv
  | some score =>
    cases score with
    | none => cases hv
    | some d =>
      obtain rfl := Option.some.inj hv
      exact .double d

/-- no object has a name twice -/
theorem nodup_names : ∀ names ∈ [["scope", "resource", "time_unix_nano", "observed_time_unix_nano", "severity_number",
    "severity_text", "body", "attributes"], ["name", "version"], ["name", "size_bytes", "sha256", "content_type"],
    ["address", "status", "code", "enhanced_status_code", "text"]], (names.map ascii).Nodup := by
  decide +kernel

theorem distinct_recipient (entry : Recipient) : Distinct (recipientJson entry) := by
  have heq : recipientJson entry = .object (present [("address", some (.string entry.address)),
      ("status", stringJson entry.status), ("code", intJson (given entry.code)),
      ("enhanced_status_code", stringJson entry.enhancedStatus), ("text", stringJson entry.text)]) := by
    simp [recipientJson, present, slot]
  have hnames : (["address", "status", "code", "enhanced_status_code", "text"].map ascii).Nodup :=
    nodup_names _ (by simp)
  rw [heq]
  refine distinct_present hnames ?_
  simp only [List.forall_mem_cons, Option.some.injEq, forall_eq']
  exact ⟨.string _, distinct_stringJson _, distinct_intJson _, distinct_stringJson _, distinct_stringJson _,
    fun _ h => absurd h List.not_mem_nil⟩

theorem distinct_attachment (entry : Attachment) : Distinct (attachmentJson entry) := by
  have heq : attachmentJson entry = .object (present [("name", some (.string entry.name)),
      ("size_bytes", intJson (given entry.size)), ("sha256", stringJson entry.sha256),
      ("content_type", stringJson entry.contentType)]) := by
    simp [attachmentJson, present, slot]
  have hnames : (["name", "size_bytes", "sha256", "content_type"].map ascii).Nodup := nodup_names _ (by simp)
  rw [heq]
  refine distinct_present hnames ?_
  simp only [List.forall_mem_cons, Option.some.injEq, forall_eq']
  exact ⟨.string _, distinct_intJson _, distinct_stringJson _, distinct_stringJson _,
    fun _ h => absurd h List.not_mem_nil⟩

theorem distinct_attributeJson (key : Bytes) (vs : List Bytes) : Distinct (attributeJson key vs) := by
  unfold attributeJson
  split_ifs
  · exact .string _
  · refine .array fun j hj => ?_
    obtain ⟨v, -, rfl⟩ := List.mem_map.1 hj
    exact .string v

theorem distinct_ownMembers (number : Number → Option Int64) (flag : Flag → Option Bool)
    (score : Option (Option Double))
    (attachments : List Attachment) (recipients : List Recipient) :
    ∀ m ∈ ownMembers number flag score attachments recipients, ∀ v, m.2 = some v → Distinct v := by
  have hattachments : ∀ j ∈ attachments.map attachmentJson, Distinct j := by
    intro j hj
    obtain ⟨entry, -, rfl⟩ := List.mem_map.1 hj
    exact distinct_attachment entry
  have hrecipients : ∀ j ∈ recipients.map recipientJson, Distinct j := by
    intro j hj
    obtain ⟨entry, -, rfl⟩ := List.mem_map.1 hj
    exact distinct_recipient entry
  unfold ownMembers
  simp only [List.forall_mem_cons]
  refine ⟨distinct_intJson _, distinct_arrayJson hattachments, distinct_arrayJson hrecipients, distinct_intJson _,
    distinct_intJson _, distinct_intJson _, distinct_intJson _, distinct_intJson _, distinct_bool _, distinct_bool _,
    distinct_bool _, distinct_scoreJson _, distinct_bool _, fun _ h => absurd h List.not_mem_nil⟩

theorem distinct_attributes (h : Holds log changes) (hfits : ∀ c ∈ changes, c.Fits) :
    Distinct (.object log.attributeMembers) := by
  refine .object (nodup_attributeMembers h hfits) fun m hm => ?_
  unfold attributeMembers at hm
  rcases List.mem_append.1 hm with hm | hm
  · obtain ⟨entry, -, rfl⟩ := List.mem_map.1 hm
    exact distinct_attributeJson _ _
  · obtain ⟨member, hmember, hslot⟩ := List.mem_flatMap.1 hm
    exact distinct_slot (distinct_ownMembers _ _ _ _ _ member hmember) m hslot

theorem distinct_resource (log : MailLog) : Distinct (.object log.resourceMembers) := by
  have hnames : log.resourceMembers.map Prod.fst = log.resource.entries.map Prod.fst := by
    unfold resourceMembers
    rw [List.map_map]
    rfl
  refine .object (hnames ▸ log.resource.nodup) fun m hm => ?_
  obtain ⟨entry, -, rfl⟩ := List.mem_map.1 hm
  exact .string _

theorem distinct_objectJson {members : List (Bytes × Json)} (h : Distinct (.object members)) :
    ∀ v, objectJson members = some v → Distinct v := by
  intro v hv
  unfold objectJson at hv
  split_ifs at hv
  rwa [← Option.some.inj hv]

theorem nodup_topNames : (["scope", "resource", "time_unix_nano", "observed_time_unix_nano", "severity_number",
    "severity_text", "body", "attributes"].map ascii).Nodup :=
  nodup_names _ (by simp)

theorem distinct_timeJson (n : Option Int64) : ∀ v, timeJson n = some v → Distinct v := by
  intro v hv
  obtain ⟨k, -, rfl⟩ := Option.map_eq_some_iff.1 hv
  exact .string _

theorem distinct_scope : Distinct scopeJson := by
  have hnames : (["name", "version"].map ascii).Nodup := nodup_names _ (by simp)
  refine .object hnames ?_
  simp only [List.forall_mem_cons]
  exact ⟨.string _, .string _, fun _ h => absurd h List.not_mem_nil⟩

theorem distinct_tree (h : Holds log changes) (hfits : ∀ c ∈ changes, c.Fits) : log.tree.Distinct := by
  refine distinct_present nodup_topNames ?_
  unfold topMembers
  simp only [List.forall_mem_cons, Option.some.injEq, forall_eq']
  refine ⟨distinct_scope, distinct_objectJson (distinct_resource log), distinct_timeJson _, distinct_timeJson _,
    distinct_intJson _, ?_, distinct_stringJson _, distinct_objectJson (distinct_attributes h hfits),
    fun _ h => absurd h List.not_mem_nil⟩
  intro v hv
  obtain ⟨s, -, hs⟩ := Option.bind_eq_some_iff.1 hv
  exact distinct_stringJson s.2 v hs

theorem restores_tree (h : Holds log changes) (hfits : ∀ c ∈ changes, c.Fits) : Restores changes log.tree := by
  refine ⟨log.resourceMembers, log.attributeMembers, ?_, find_resourceMembers h, find_attributeMembers h⟩
  unfold tree
  rw [h.time, h.observedTime, h.severity, bodyText_eq h hfits]

/-- the score, when it is a number, is printed as this number -/
def PrintsScore (toChars : Double → Bytes) (changes : List Change) : Prop :=
  ∀ d, last score? changes = some (some d) → PrintsBack toChars d

theorem renders_run {toChars : Double → Bytes} {calls : List Call} (hutf8 : Utf8Changes (changesOf calls))
    (hscore : PrintsScore toChars (changesOf calls)) : Json.Renders ((run calls).build toChars) (run calls).tree := by
  have hholds := holds_run calls
  exact renders_build (utf8Texts_of_holds hholds (fits_changesOf calls) hutf8) fun d hd => hscore d (hholds.score ▸ hd)

/-- **A line of `Build` restores the calls since the last `Clear`.** The caller passes UTF-8, as the class asks for, and
a score is printed as a number which reads back. -/
theorem build_lossless (toChars : Double → Bytes) (calls : List Call) (hutf8 : Utf8Changes (changesOf calls))
    (hscore : PrintsScore toChars (changesOf calls)) : Lossless toChars calls := by
  have hholds := holds_run calls
  have hrenders := renders_run hutf8 hscore
  exact ⟨hrenders.clean, (run calls).tree, Json.parse_of_denotes hrenders.denotes,
    distinct_tree hholds (fits_changesOf calls), restores_tree hholds (fits_changesOf calls)⟩

/-- 3 -/
theorem three_fits : 1024 < 2047 ∧ 2 ^ 51 < 2 ^ 52 := by decide

def three : Double := ⟨false, ⟨1024, three_fits.1⟩, ⟨2 ^ 51, three_fits.2⟩⟩

/-- the calls of the documentation, with something in front of a `Clear`, a header with control characters and a
score -/
def scoredCalls : List Call :=
  [.setSubject (ascii "other"), .clear] ++ sampleCalls ++
    [.addHeader (ascii "Reply-To") [34, 0, 10], .setSpamScore (some three)]

theorem utf8_scoredCalls : Utf8Changes (changesOf scoredCalls) := by
  have hascii : ((changesOf scoredCalls).all fun change => change.texts.all fun text => text.all fun b =>
      decide (b < 0x80)) = true := by
    decide +kernel
  intro change hmem text htext
  have htexts := List.all_eq_true.1 hascii change hmem
  exact Utf8.wellFormed_of_all (List.all_eq_true.1 htexts text htext)

/-- the score 3 is printed as "3" -/
theorem printsScore_scoredCalls : PrintsScore (fun _ => [51]) (changesOf scoredCalls) := by
  have hlast : last score? (changesOf scoredCalls) = some (some three) := by decide +kernel
  intro d hd
  obtain rfl := Option.some.inj (Option.some.inj (hlast.symm.trans hd))
  have hvalid : Decimal.Numeral.Valid { whole := [51] } :=
    ⟨⟨List.cons_ne_nil _ _, List.forall_mem_singleton.2 (by decide)⟩, by decide, fun _ h => absurd h List.not_mem_nil,
      fun _ h => by cases h⟩
  exact ⟨{ whole := [51] }, hvalid, rfl, by decide +kernel⟩

theorem build_lossless_scoredCalls : Lossless (fun _ => [51]) scoredCalls :=
  build_lossless _ _ utf8_scoredCalls printsScore_scoredCalls

/-! ## The record of the socket -/

open Otelfwd (LogRecord OtelKV OtelValue JsonLib compactLib compactLib_parse decodeFlatRecord kvFromMember
  kvsFromJsonObject stringMember objectMember timeMember bodyMember severityMember intText)

/-- the value of an attribute. Arrays are kept as JSON text -/
def otelValue (lib : JsonLib) : Json → OtelValue
  | .bool b => .bool b
  | .string text => .string text
  | .int n => .int (Int64.ofInt n.value)
  | .double d => .double d
  | v => .string (lib.write v)

def findKV (kvs : List OtelKV) (key : Bytes) : Option OtelValue := (kvs.find? fun kv => kv.key = key).map OtelKV.value

/-- the record has what the changes have left -/
structure Keeps (lib : JsonLib) (changes : List Change) (arrivalNs : Int64) (record : LogRecord) : Prop where
  scope : record.scopeName = ascii "mail-log" ∧ record.scopeVersion = ascii "0.1.0"
  observedTime : record.observedTimeNs = (last observedTime? changes).getD arrivalNs
  time : record.timeNs = (last time? changes).getD record.observedTimeNs
  severity : match last severity? changes with
    | some (number, text) => record.severityNumber.toInt = number.toInt ∧ record.severityText = text
    | none => record.severityNumber = 0 ∧ record.severityText = []
  body : record.line = bodyOf changes
  resourceKeys : (record.resource.map OtelKV.key).Nodup
  resource : ∀ key, findKV record.resource key = (last (resource? key) changes).map .string
  attributeKeys : (record.attributes.map OtelKV.key).Nodup
  attributes : ∀ key, findKV record.attributes key = (attributeOf changes key).map (otelValue lib)

variable {lib : JsonLib}

/-- not null, and not an integer which needs 64 bits without a sign -/
def Storable : Json → Prop
  | .null => False
  | .int n => n.value < 2 ^ 63
  | _ => True

theorem kvFromMember_storable {m : Bytes × Json} (h : Storable m.2) :
    kvFromMember lib m = some ⟨m.1, otelValue lib m.2⟩ := by
  obtain ⟨key, v⟩ := m
  cases v with
  | null => exact h.elim
  | int n =>
    have hint : n.isInt64 = true := decide_eq_true h
    unfold kvFromMember
    dsimp only
    rw [if_pos hint]
    rfl
  | _ => rfl

theorem kvs_storable {members : List (Bytes × Json)} (h : ∀ m ∈ members, Storable m.2) :
    kvsFromJsonObject lib (.object members) = members.map fun m => ⟨m.1, otelValue lib m.2⟩ := by
  unfold kvsFromJsonObject
  dsimp only
  rw [← List.filterMap_eq_map]
  exact List.filterMap_congr fun m hm => kvFromMember_storable (h m hm)

theorem findKV_map (members : List (Bytes × Json)) (key : Bytes) :
    findKV (members.map fun m => ⟨m.1, otelValue lib m.2⟩) key = (find members key).map (otelValue lib) := by
  induction members with
  | nil => rfl
  | cons m members ih =>
    unfold findKV find at ih ⊢
    rw [List.map_cons, List.find?_cons, List.lookup_cons]
    by_cases hkey : m.1 = key
    · simp [hkey]
    · rw [beq_false_of_ne (Ne.symm hkey)]
      simpa [hkey] using ih

theorem storable_intJson (n : Option Int64) : ∀ v, intJson n = some v → Storable v := by
  intro v hv
  obtain ⟨k, -, rfl⟩ := Option.map_eq_some_iff.1 hv
  exact Int64.toInt_lt k

theorem storable_arrayJson (items : List Json) : ∀ v, arrayJson items = some v → Storable v := by
  intro v hv
  unfold arrayJson at hv
  split_ifs at hv
  obtain rfl := Option.some.inj hv
  trivial

theorem storable_bool (value : Option Bool) : ∀ v, value.map Json.bool = some v → Storable v := by
  intro v hv
  obtain ⟨b, -, rfl⟩ := Option.map_eq_some_iff.1 hv
  trivial

theorem storable_scoreJson (score : Option (Option Double)) : ∀ v, scoreJson score = some v → Storable v := by
  intro v hv
  cases score with
  | none => cases hv
  | some score =>
    cases score with
    | none => cases hv
    | some d =>
      obtain rfl := Option.some.inj hv
      trivial

theorem storable_attributes (log : MailLog) : ∀ m ∈ log.attributeMembers, Storable m.2 := by
  have hown : ∀ m ∈ ownMembers (fun which => given (log.number which)) log.flag log.spamScore log.attachments
      log.recipients, ∀ v, m.2 = some v → Storable v := by
    unfold ownMembers
    simp only [List.forall_mem_cons]
    exact ⟨storable_intJson _, storable_arrayJson _, storable_arrayJson _, storable_intJson _, storable_intJson _,
      storable_intJson _, storable_intJson _, storable_intJson _, storable_bool _, storable_bool _, storable_bool _,
      storable_scoreJson _, storable_bool _, fun _ h => absurd h List.not_mem_nil⟩
  intro m hm
  unfold attributeMembers at hm
  rcases List.mem_append.1 hm with hm | hm
  · obtain ⟨entry, -, rfl⟩ := List.mem_map.1 hm
    unfold attributeJson
    dsimp only
    split_ifs <;> trivial
  · obtain ⟨member, hmember, hslot⟩ := List.mem_flatMap.1 hm
    unfold slot at hslot
    rw [Option.mem_toList, Option.map_eq_some_iff] at hslot
    obtain ⟨v, hv, rfl⟩ := hslot
    exact hown member hmember v hv

theorem storable_resource (log : MailLog) : ∀ m ∈ log.resourceMembers, Storable m.2 := by
  intro m hm
  obtain ⟨entry, -, rfl⟩ := List.mem_map.1 hm
  trivial

/-! ### The readers -/

variable {ms : List (Bytes × Json)} {name : String}

theorem getUnixNanoFromJson_intText {n : Int64} (h : 0 < n) :
    Otelfwd.getUnixNanoFromJson (.string (intText n)) = some n := by
  have hpos : 0 < n.toInt := by simpa using Int64.lt_iff_toInt_lt.1 h
  have hlt := Int64.toInt_lt n
  have htext : intText n = decimal n.toInt.natAbs := by
    unfold intText
    rw [if_neg (Int64.not_lt.2 (Int64.le_of_lt h))]
  have hno : (0 : UInt8) ∉ intText n := fun hmem => absurd (printable_intText n 0 hmem).2.2.1 (by decide)
  rw [Otelfwd.getUnixNanoFromJson_iff hno, htext, FileReader.number_decimal]
  exact ⟨FileReader.decimal_ne_nil _, fun b hb => FileReader.isDigit_of_mem_decimal hb, by omega, by omega⟩

theorem timeMember_timeJson {t : Option Int64} (h : find ms (ascii name) = timeJson t)
    (hpos : ∀ n, t = some n → 0 < n) :
    timeMember ms name = t.getD 0 := by
  unfold timeMember
  rw [h]
  cases t with
  | none => rfl
  | some n =>
    have hread := getUnixNanoFromJson_intText (hpos n rfl)
    unfold timeJson
    rw [Option.map_some, Option.bind_some, hread]

theorem getD_or {t : Option Int64} (hpos : ∀ n, t = some n → 0 < n) (other : Int64) :
    (if t.getD 0 ≠ 0 then t.getD 0 else other) = t.getD other := by
  cases t with
  | none => rfl
  | some n =>
    have hne : n ≠ 0 := by
      rintro rfl
      exact absurd (hpos 0 rfl) (by decide)
    exact if_pos hne

theorem objectMember_objectJson {members : List (Bytes × Json)} (h : find ms (ascii name) = objectJson members) :
    objectMember ms name = members := by
  unfold objectMember
  rw [h]
  unfold objectJson
  split_ifs with hempty
  · exact hempty.symm
  · rfl

theorem stringMember_stringJson {text : Bytes} (h : find ms (ascii name) = stringJson text) :
    stringMember ms name = text := by
  unfold stringMember
  rw [h]
  unfold stringJson givenText
  split_ifs with hempty
  · exact hempty.symm
  · rfl

theorem bodyMember_stringJson {text : Bytes} (h : find ms (ascii "body") = stringJson text) :
    bodyMember lib ms = text := by
  unfold bodyMember
  rw [h]
  unfold stringJson givenText
  split_ifs with hempty
  · exact hempty.symm
  · rfl

theorem severityMember_intJson {number : Int64} (h : find ms (ascii "severity_number") = intJson (some number))
    (hpos : 0 < number ∧ number ≤ 24) : (severityMember ms).toInt = number.toInt := by
  have hlow : 0 < number.toInt := by simpa using Int64.lt_iff_toInt_lt.1 hpos.1
  have hhigh : number.toInt ≤ 24 := by simpa using Int64.le_iff_toInt_le.1 hpos.2
  unfold severityMember
  rw [h]
  have hvalue : (JsonInt.ofInt64 number).value = number.toInt := rfl
  have hint : (JsonInt.ofInt64 number).isInt = true := by
    unfold JsonInt.isInt
    rw [hvalue]
    simp only [Bool.and_eq_true, decide_eq_true_eq]
    omega
  unfold intJson
  dsimp only [Option.map_some]
  rw [hint, hvalue, decide_eq_true hlow.le, decide_eq_true hhigh]
  exact Int32.toInt_ofInt_of_le (by omega) (by omega)

/-! ### The record -/

/-- the last value of a change which has to be positive -/
theorem last_time_pos (hfits : ∀ c ∈ changes, c.Fits) : ∀ n, last time? changes = some n → 0 < n := by
  intro n hn
  obtain ⟨change, hmem, hread⟩ := mem_of_last hn
  cases change with
  | time timeUnixNano =>
    obtain rfl := Option.some.inj hread
    exact hfits _ hmem
  | _ => exact absurd hread (by simp [time?])

theorem last_observedTime_pos (hfits : ∀ c ∈ changes, c.Fits) : ∀ n, last observedTime? changes = some n → 0 < n := by
  intro n hn
  obtain ⟨change, hmem, hread⟩ := mem_of_last hn
  cases change with
  | observedTime timeUnixNano =>
    obtain rfl := Option.some.inj hread
    exact hfits _ hmem
  | _ => exact absurd hread (by simp [observedTime?])

theorem last_severity_pos (hfits : ∀ c ∈ changes, c.Fits) {number : Int64} {text : Bytes}
    (h : last severity? changes = some (number, text)) : 0 < number ∧ number ≤ 24 := by
  obtain ⟨change, hmem, hread⟩ := mem_of_last h
  cases change with
  | severity k t =>
    obtain ⟨rfl, -⟩ := Prod.mk.inj (Option.some.inj hread)
    exact hfits _ hmem
  | _ => exact absurd hread (by simp [severity?])

/-- the members of the record under their names -/
structure Top (ms resource : List (Bytes × Json)) (time observedTime : Option Int64)
    (severity : Option (Int64 × Bytes)) (body : Bytes) (attributes : List (Bytes × Json)) : Prop where
  scope : find ms (ascii "scope") = some scopeJson
  resource : find ms (ascii "resource") = objectJson resource
  time : find ms (ascii "time_unix_nano") = timeJson time
  observedTime : find ms (ascii "observed_time_unix_nano") = timeJson observedTime
  number : find ms (ascii "severity_number") = intJson (severity.map Prod.fst)
  text : find ms (ascii "severity_text") = severity.bind fun s => stringJson s.2
  body : find ms (ascii "body") = stringJson body
  attributes : find ms (ascii "attributes") = objectJson attributes

theorem top_present (resource : List (Bytes × Json)) (time observedTime : Option Int64)
    (severity : Option (Int64 × Bytes)) (body : Bytes) (attributes : List (Bytes × Json)) :
    Top (present (topMembers resource time observedTime severity body attributes)) resource time observedTime severity
      body attributes := by
  have hnames : ((topMembers resource time observedTime severity body attributes).map fun m => ascii m.1).Nodup :=
    nodup_topNames
  constructor <;> exact find_present hnames (by simp [topMembers])

theorem scope_members {resource attributes : List (Bytes × Json)} {time observedTime : Option Int64}
    {severity : Option (Int64 × Bytes)} {body : Bytes}
    (h : Top ms resource time observedTime severity body attributes) :
    stringMember (objectMember ms "scope") "name" = ascii "mail-log" ∧
      stringMember (objectMember ms "scope") "version" = ascii "0.1.0" := by
  have hmembers : objectMember ms "scope" =
      [(ascii "name", .string (ascii "mail-log")), (ascii "version", .string (ascii "0.1.0"))] := by
    unfold objectMember
    rw [h.scope]
    rfl
  rw [hmembers]
  decide +kernel

/-- the record of a tree which restores the changes -/
theorem keeps_tree (h : Holds log changes) (hfits : ∀ c ∈ changes, c.Fits) {text : Bytes}
    (hparse : lib.parse (Otlp.cString text) = .ok log.tree) (arrivalNs : Int64) :
    ∃ record, decodeFlatRecord lib text arrivalNs = some record ∧ Keeps lib changes arrivalNs record := by
  have hattributeNames := nodup_attributeMembers h hfits
  have hresourceNames : (log.resourceMembers.map Prod.fst).Nodup := by
    cases distinct_resource log with
    | object nodup _ => exact nodup
  unfold tree at hparse
  rw [h.time, h.observedTime, h.severity, bodyText_eq h hfits] at hparse
  have htop := top_present log.resourceMembers (last time? changes) (last observedTime? changes)
    (last severity? changes) (bodyOf changes) log.attributeMembers
  generalize present (topMembers log.resourceMembers (last time? changes) (last observedTime? changes)
    (last severity? changes) (bodyOf changes) log.attributeMembers) = ms at hparse htop
  have htime := timeMember_timeJson htop.time (last_time_pos hfits)
  have hobserved := timeMember_timeJson htop.observedTime (last_observedTime_pos hfits)
  unfold decodeFlatRecord
  rw [hparse]
  refine ⟨_, rfl, ?_⟩
  rw [htime, hobserved, objectMember_objectJson htop.resource, objectMember_objectJson htop.attributes,
    kvs_storable (storable_resource log), kvs_storable (storable_attributes log), bodyMember_stringJson htop.body,
    getD_or (last_observedTime_pos hfits), getD_or (last_time_pos hfits)]
  refine
    { scope := scope_members htop
      observedTime := rfl
      time := rfl
      severity := ?_
      body := rfl
      resourceKeys := ?_
      resource := ?_
      attributeKeys := ?_
      attributes := ?_ }
  · cases hlast : last severity? changes with
    | none =>
      have hnumber := htop.number
      have htext := htop.text
      rw [hlast] at hnumber htext
      dsimp only
      unfold severityMember stringMember
      rw [hnumber, htext]
      exact ⟨rfl, rfl⟩
    | some severity =>
      obtain ⟨number, text⟩ := severity
      have hnumber := htop.number
      have htext := htop.text
      rw [hlast] at hnumber htext
      exact ⟨severityMember_intJson hnumber (last_severity_pos hfits hlast), stringMember_stringJson htext⟩
  · rw [List.map_map]
    exact hresourceNames
  · intro key
    rw [findKV_map, find_resourceMembers h]
    unfold resourceOf
    rw [Option.map_map]
    rfl
  · rw [List.map_map]
    exact hattributeNames
  · intro key
    rw [findKV_map, find_attributeMembers h]

/-- **A line of `Build` is taken by a socket**, and the record has what the calls have left since the last `Clear`. As
for `Build`, the texts are UTF-8 and a score is printed as a number which reads back. -/
theorem decodeFlatRecord_build (lib : JsonLib) (toChars : Double → Bytes) (calls : List Call) (arrivalNs : Int64)
    (hparse : ∀ text doc, WellFormed text → Json.parse text = some doc → lib.parse text = .ok doc)
    (hutf8 : Utf8Changes (changesOf calls)) (hscore : PrintsScore toChars (changesOf calls)) :
    ∃ record, decodeFlatRecord lib ((run calls).build toChars) arrivalNs = some record ∧
      Keeps lib (changesOf calls) arrivalNs record := by
  have hrenders := renders_run hutf8 hscore
  have hno : (0 : UInt8) ∉ (run calls).build toChars := fun hmem =>
    absurd (hrenders.clean.printable 0 hmem) (by decide)
  refine keeps_tree (holds_run calls) (fits_changesOf calls) ?_ arrivalNs
  rw [Otlp.cString_eq_self.2 hno]
  exact hparse _ _ hrenders.clean.utf8 (Json.parse_of_denotes hrenders.denotes)

theorem decodeFlatRecord_build_scoredCalls : ∃ record,
    decodeFlatRecord compactLib ((run scoredCalls).build fun _ => [51]) 5 = some record ∧
      Keeps compactLib (changesOf scoredCalls) 5 record :=
  decodeFlatRecord_build compactLib _ scoredCalls 5 (fun _ _ _ h => compactLib_parse.2 h) utf8_scoredCalls
    printsScore_scoredCalls

end DominoLogForwarder.MailLog
