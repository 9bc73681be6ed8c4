/-
What a sequence of calls leaves in a `MailLog`: of each setter the last value, of each adder all values in their order,
and nothing of what stands in front of the last `Clear`.

`Fits` is what is true of every change which a call makes, and `Holds` compares an object with the changes since the
last `Clear`.

- `holds_apply`: a change keeps it.
- `holds_run`: it is true after any calls.
-/
import DominoLogForwarder.MailLog.Calls
import Mathlib.Data.Bool.AllAny

namespace DominoLogForwarder.MailLog

open FileReader (Bytes ascii)

/-! ## The changes which count -/

def Change.isClear : Change → Bool
  | .clear => true
  | _ => false

def sinceClear (changes : List Change) : List Change := (changes.reverse.takeWhile fun c => !c.isClear).reverse

/-- what the calls have changed since the last `Clear` -/
def changesOf (calls : List Call) : List Change := sinceClear (calls.map Call.change)

/-- the last one of the values -/
def last {α : Type} (read : Change → Option α) (changes : List Change) : Option α := (changes.filterMap read).getLast?

def resource? (key : Bytes) : Change → Option Bytes
  | .resource k value => if k = key then some value else none
  | _ => none

def text? (key : Bytes) : Change → Option Bytes
  | .text k value => if k = key then some value else none
  | _ => none

def added? (key : Bytes) : Change → Option Bytes
  | .added k value => if k = key then some value else none
  | _ => none

def number? : Number → Change → Option Int64
  | .size, .number .size value => some value
  | .clientPort, .number .clientPort value => some value
  | .serverPort, .number .serverPort value => some value
  | .networkLocalPort, .number .networkLocalPort value => some value
  | .networkPeerPort, .number .networkPeerPort value => some value
  | .smtpResponseCode, .number .smtpResponseCode value => some value
  | _, _ => none

def flag? : Flag → Change → Option Bool
  | .signed, .flag .signed value => some value
  | .encrypted, .flag .encrypted value => some value
  | .tlsEstablished, .flag .tlsEstablished value => some value
  | .virusChecked, .flag .virusChecked value => some value
  | _, _ => none

def score? : Change → Option (Option Double)
  | .score value => some value
  | _ => none

def recipient? : Change → Option Recipient
  | .recipient entry => some entry
  | _ => none

def attachment? : Change → Option Attachment
  | .attachment entry => some entry
  | _ => none

def body? : Change → Option Bytes
  | .body text => some text
  | _ => none

def severity? : Change → Option (Int64 × Bytes)
  | .severity number text => some (number, text)
  | _ => none

def time? : Change → Option Int64
  | .time timeUnixNano => some timeUnixNano
  | _ => none

def observedTime? : Change → Option Int64
  | .observedTime timeUnixNano => some timeUnixNano
  | _ => none

/-- the values of an attribute: the last text of its setter, or all texts of its adder -/
def values (key : Bytes) (changes : List Change) : Option (List Bytes) :=
  match last (text? key) changes with
  | some value => some [value]
  | none => if changes.filterMap (added? key) = [] then none else some (changes.filterMap (added? key))

/-! ## What a call can change -/

/-- the attributes which are not in the list of texts -/
def ownKeys : List Bytes :=
  ["email.size_bytes", "email.attachments", "email.envelope.recipients", "client.port", "server.port",
    "network.local.port", "network.peer.port", "email.smtp.response.code", "email.signed", "email.encrypted",
    "tls.established", "email.spam.score", "email.virus.checked"].map ascii

/-- recipients and headers have adders, all other attributes have setters -/
def isAddedKey (key : Bytes) : Bool := isRecipientKey key || (ascii "email.header.").isPrefixOf key

def isSetKey (key : Bytes) : Bool := !isAddedKey key && !ownKeys.contains key

/-- the keys of the setters -/
def setKeys : List String :=
  ["email.from.address", "email.envelope.from.address", "email.subject", "email.message.id", "email.queue.id",
    "email.event", "email.direction", "email.crypto.protocol.name", "tls.protocol.name", "tls.protocol.version",
    "tls.cipher", "tls.client.subject", "tls.client.issuer", "tls.client.hash.sha256", "tls.client.not_before",
    "tls.client.not_after", "tls.server.subject", "tls.server.issuer", "tls.server.hash.sha256",
    "tls.server.not_before", "tls.server.not_after", "client.address", "server.address", "network.local.address",
    "network.peer.address", "email.smtp.helo", "email.smtp.response.enhanced_status_code",
    "email.smtp.response.text", "email.spam.result", "email.spf.result", "email.dkim.result", "email.dmarc.result",
    "email.spf.domain", "email.dkim.domain", "email.dkim.selector", "email.virus.result", "email.spam.engine.name",
    "email.virus.engine.name", "email.virus.threat.name", "email.classification", "email.auto_submitted",
    "email.action", "email.reason", "email.policy.name", "email.policy.id"]

/-- no adder and no field has a key of a setter, and all its characters are ASCII -/
theorem setKeys_apart : ∀ key ∈ setKeys,
    isSetKey (ascii key) = true ∧ ((ascii key).all fun b => decide (b < 0x80)) = true := by
  decide +kernel

theorem isSetKey_of_mem (key : String) (h : key ∈ setKeys) : isSetKey (ascii key) = true := (setKeys_apart key h).1

theorem ascii_setKeys (key : String) (h : key ∈ setKeys) : ∀ b ∈ ascii key, b < 0x80 :=
  List.all_iff_forall_prop.1 (setKeys_apart key h).2

theorem ascii_addedKeys : ∀ key ∈ ["email.header.", "email.to.addresses", "email.cc.addresses", "email.bcc.addresses"],
    ∀ b ∈ ascii key, b < 0x80 := by
  have hall : ∀ key ∈ ["email.header.", "email.to.addresses", "email.cc.addresses", "email.bcc.addresses"],
      ((ascii key).all fun b => decide (b < 0x80)) = true := by
    decide +kernel
  exact fun key hkey => List.all_iff_forall_prop.1 (hall key hkey)

def Change.Fits : Change → Prop
  | .text key value =>
    isSetKey key = true ∧ (∀ b ∈ key, b < 0x80) ∧ (value = [] → key = ascii "email.envelope.from.address")
  | .added key _ => isAddedKey key = true ∧ ∀ b ∈ key, b < 0x80
  | .number _ value => 0 < value
  | .body value => value ≠ []
  | .severity value _ => 0 < value ∧ value ≤ 24
  | .time timeUnixNano => 0 < timeUnixNano
  | .observedTime timeUnixNano => 0 < timeUnixNano
  | _ => True

theorem fits_unlessEmpty {text : Bytes} {change : Change} (h : text ≠ [] → change.Fits) :
    (unlessEmpty text change).Fits := by
  unfold unlessEmpty
  split_ifs with hempty
  · trivial
  · exact h hempty

theorem fits_ifPositive {number : Int64} {change : Change} (h : 0 < number → change.Fits) :
    (ifPositive number change).Fits := by
  unfold ifPositive
  split_ifs with hpos
  · exact h hpos
  · trivial

theorem fits_text {key : String} (h : key ∈ setKeys) (value : Bytes) :
    (unlessEmpty value (.text (ascii key) value)).Fits :=
  fits_unlessEmpty fun hne => ⟨isSetKey_of_mem key h, ascii_setKeys key h, fun hempty => absurd hempty hne⟩

theorem fits_recipient {key : Bytes} (h : isRecipientKey key = true) (hascii : ∀ b ∈ key, b < 0x80) (value : Bytes) :
    (Change.added key value).Fits :=
  ⟨Bool.or_eq_true_iff.2 (Or.inl h), hascii⟩

theorem normalizeByte_lt (c : UInt8) : normalizeByte c < 0x80 := by
  have hall : ∀ n < 256, normalizeByte (UInt8.ofNat n) < 0x80 := by decide +kernel
  have hc := hall c.toNat c.toNat_lt
  rwa [UInt8.ofNat_toNat] at hc

theorem fits_header (name value : Bytes) : (Change.added (headerKey name) value).Fits := by
  unfold headerKey
  constructor
  · unfold isAddedKey
    rw [Bool.or_eq_true, List.isPrefixOf_iff_prefix]
    exact Or.inr (List.prefix_append _ _)
  · refine List.forall_mem_append.2 ⟨ascii_addedKeys "email.header." (by simp), fun b hb => ?_⟩
    obtain ⟨c, -, rfl⟩ := List.mem_map.1 hb
    exact normalizeByte_lt c

theorem fits_change (call : Call) : call.change.Fits := by
  cases call with
  | setHostName name | setServiceName name | setServiceNamespace name | setServiceInstanceId name =>
    exact fits_unlessEmpty fun _ => trivial
  | setResourceAttribute key value => exact fits_unlessEmpty fun _ => fits_unlessEmpty fun _ => trivial
  | addTo address | addCc address | addBcc address =>
    exact fits_unlessEmpty fun _ =>
      fits_recipient (by simp [isRecipientKey]) (ascii_addedKeys _ (by simp)) _
  | addHeader name value => exact fits_unlessEmpty fun _ => fits_unlessEmpty fun _ => fits_header name value
  | setEnvelopeFromEmpty =>
    exact ⟨isSetKey_of_mem _ (by simp [setKeys]), ascii_setKeys _ (by simp [setKeys]), fun _ => rfl⟩
  | addRecipient address | addAttachment name => exact fits_unlessEmpty fun _ => trivial
  | setSize n | setClientPort n | setServerPort n | setNetworkLocalPort n | setNetworkPeerPort n
  | setSmtpResponseCode n | setTime n | setObservedTime n => exact fits_ifPositive id
  | setSigned | setEncrypted | setTlsEstablished | setVirusChecked | setSpamScore | clear => trivial
  | setBody text => exact fits_unlessEmpty id
  | setSeverity number text =>
    dsimp only [Call.change]
    split_ifs with h
    · exact h
    · trivial
  | _ => exact fits_text (by simp [setKeys]) _

/-! ## One more change -/

variable {changes : List Change} {change : Change}

theorem sinceClear_snoc (changes : List Change) (change : Change) :
    sinceClear (changes ++ [change]) = if change.isClear then [] else sinceClear changes ++ [change] := by
  unfold sinceClear
  rw [List.reverse_append, List.reverse_singleton, List.singleton_append, List.takeWhile_cons]
  cases change.isClear <;> simp

theorem mem_of_sinceClear (h : change ∈ sinceClear changes) : change ∈ changes := by
  unfold sinceClear at h
  rw [List.mem_reverse] at h
  exact List.mem_reverse.1 (List.takeWhile_subset _ h)

theorem last_snoc {α : Type} (read : Change → Option α) (changes : List Change) (change : Change) :
    last read (changes ++ [change]) = (read change).or (last read changes) := by
  unfold last
  rw [List.filterMap_append]
  cases h : read change with
  | none => simp [h]
  | some v => simp [h]

/-- the last value comes from a change -/
theorem mem_of_last {α : Type} {read : Change → Option α} {v : α} (h : last read changes = some v) :
    ∃ change ∈ changes, read change = some v :=
  List.mem_filterMap.1 (List.mem_of_getLast? h)

theorem filterMap_snoc {α : Type} (read : Change → Option α) (changes : List Change) (change : Change) :
    (changes ++ [change]).filterMap read = changes.filterMap read ++ (read change).toList := by
  rw [List.filterMap_append]
  cases h : read change <;> simp [h]

theorem text?_text (key value k : Bytes) : text? k (.text key value) = if key = k then some value else none := rfl

theorem added?_added (key value k : Bytes) : added? k (.added key value) = if key = k then some value else none := rfl

theorem values_text (key value : Bytes) (changes : List Change) (k : Bytes) :
    values k (changes ++ [.text key value]) = if k = key then some [value] else values k changes := by
  have hadded : added? k (.text key value) = none := rfl
  unfold values
  rw [last_snoc, filterMap_snoc, hadded, text?_text]
  by_cases h : k = key
  · rw [if_pos h, if_pos h.symm]
    rfl
  · rw [if_neg h, if_neg (Ne.symm h), Option.none_or, Option.toList_none, List.append_nil]

/-- no setter has given a value to a key of an adder -/
theorem last_text_eq_none (hfits : ∀ c ∈ changes, c.Fits) {key : Bytes} (h : isAddedKey key = true) :
    last (text? key) changes = none := by
  rw [Option.eq_none_iff_forall_ne_some]
  intro value hlast
  obtain ⟨change, hmem, hread⟩ := mem_of_last hlast
  cases change with
  | text k v =>
    rw [text?_text] at hread
    split_ifs at hread with hk
    obtain rfl := hk
    have hset := (hfits _ hmem).1
    unfold isSetKey at hset
    rw [h] at hset
    exact absurd hset (by simp)
  | _ => exact absurd hread (by simp [text?])

theorem values_added (hfits : ∀ c ∈ changes, c.Fits) {key : Bytes} (hkey : isAddedKey key = true) (value k : Bytes) :
    values k (changes ++ [.added key value]) =
      if k = key then some ((values key changes).getD [] ++ [value]) else values k changes := by
  have htext : text? k (.added key value) = none := rfl
  unfold values
  rw [last_snoc, filterMap_snoc, htext, Option.none_or, added?_added]
  by_cases h : k = key
  · subst h
    have hnone := last_text_eq_none hfits hkey
    rw [hnone, if_pos rfl, if_pos rfl]
    by_cases hempty : changes.filterMap (added? k) = []
    · simp [hempty]
    · simp [hempty]
  · rw [if_neg h, if_neg (Ne.symm h), Option.toList_none, List.append_nil]

/-- every other change leaves the attributes as they are -/
theorem values_snoc (htext : ∀ key, text? key change = none) (hadded : ∀ key, added? key change = none) (key : Bytes) :
    values key (changes ++ [change]) = values key changes := by
  unfold values
  rw [last_snoc, filterMap_snoc, htext, hadded, Option.none_or, Option.toList_none, List.append_nil]

/-! ## The object -/

/-- 0: not set -/
def given (n : Int64) : Option Int64 := if n = 0 then none else some n

/-- empty: not set -/
def givenText (text : Bytes) : Option Bytes := if text = [] then none else some text

def severity (log : MailLog) : Option (Int64 × Bytes) := (given log.severityNumber).map fun n => (n, log.severityText)

def number (log : MailLog) : Number → Int64
  | .size => log.size
  | .clientPort => log.clientPort
  | .serverPort => log.serverPort
  | .networkLocalPort => log.networkLocalPort
  | .networkPeerPort => log.networkPeerPort
  | .smtpResponseCode => log.smtpResponseCode

def flag (log : MailLog) : Flag → Option Bool
  | .signed => log.signed
  | .encrypted => log.encrypted
  | .tlsEstablished => log.tlsEstablished
  | .virusChecked => log.virusChecked

/-- the object has what the changes have left -/
structure Holds (log : MailLog) (changes : List Change) : Prop where
  body : givenText log.body = last body? changes
  severity : log.severity = last severity? changes
  time : given log.timeUnixNano = last time? changes
  observedTime : given log.observedTimeUnixNano = last observedTime? changes
  number : ∀ which, given (log.number which) = last (number? which) changes
  flag : ∀ which, log.flag which = last (flag? which) changes
  score : log.spamScore = last score? changes
  resource : ∀ key, log.resource.find key = (last (resource? key) changes).map fun value => [value]
  attributes : ∀ key, log.attributes.find key = values key changes
  recipients : log.recipients = changes.filterMap recipient?
  attachments : log.attachments = changes.filterMap attachment?

theorem given_of_pos {n : Int64} (h : 0 < n) : given n = some n := by
  unfold given
  rw [if_neg]
  rintro rfl
  exact absurd h (by decide)

theorem holds_nil : Holds {} [] := by
  constructor
  case number => intro which; cases which <;> rfl
  case flag => intro which; cases which <;> rfl
  all_goals first | rfl | exact fun _ => rfl

/-! ## What a change does to the object -/

variable {log : MailLog}

theorem body_apply (hfits : change.Fits) (hclear : change.isClear = false) :
    givenText (log.apply change).body = (body? change).or (givenText log.body) := by
  cases change with
  | body text => exact if_neg hfits
  | clear => exact absurd hclear (by decide)
  | number which value => cases which <;> rfl
  | flag which value => cases which <;> rfl
  | _ => rfl

theorem severity_apply (hfits : change.Fits) (hclear : change.isClear = false) :
    (log.apply change).severity = (severity? change).or log.severity := by
  cases change with
  | severity number text =>
    unfold severity
    dsimp only [apply]
    rw [given_of_pos hfits.1]
    rfl
  | clear => exact absurd hclear (by decide)
  | number which value => cases which <;> rfl
  | flag which value => cases which <;> rfl
  | _ => rfl

theorem time_apply (hfits : change.Fits) (hclear : change.isClear = false) :
    given (log.apply change).timeUnixNano = (time? change).or (given log.timeUnixNano) := by
  cases change with
  | time timeUnixNano => exact given_of_pos hfits
  | clear => exact absurd hclear (by decide)
  | number which value => cases which <;> rfl
  | flag which value => cases which <;> rfl
  | _ => rfl

theorem observedTime_apply (hfits : change.Fits) (hclear : change.isClear = false) :
    given (log.apply change).observedTimeUnixNano = (observedTime? change).or (given log.observedTimeUnixNano) := by
  cases change with
  | observedTime timeUnixNano => exact given_of_pos hfits
  | clear => exact absurd hclear (by decide)
  | number which value => cases which <;> rfl
  | flag which value => cases which <;> rfl
  | _ => rfl

theorem number_apply (hfits : change.Fits) (hclear : change.isClear = false) (which : Number) :
    given ((log.apply change).number which) = (number? which change).or (given (log.number which)) := by
  cases change with
  | number own value =>
    -- the number which is set, and the others
    have hgiven : given value = some value := given_of_pos hfits
    cases own <;> cases which <;> first | rfl | exact hgiven
  | clear => exact absurd hclear (by decide)
  | flag own value => cases own <;> cases which <;> rfl
  | _ => cases which <;> rfl

theorem flag_apply (hclear : change.isClear = false) (which : Flag) :
    (log.apply change).flag which = (flag? which change).or (log.flag which) := by
  cases change with
  | clear => exact absurd hclear (by decide)
  | number own value => cases own <;> cases which <;> rfl
  | flag own value => cases own <;> cases which <;> rfl
  | _ => cases which <;> rfl

theorem score_apply (hclear : change.isClear = false) :
    (log.apply change).spamScore = (score? change).or log.spamScore := by
  cases change with
  | clear => exact absurd hclear (by decide)
  | number which value => cases which <;> rfl
  | flag which value => cases which <;> rfl
  | _ => rfl

theorem resource_apply (hclear : change.isClear = false) (key : Bytes) :
    (log.apply change).resource.find key =
      ((resource? key change).map fun value => [value]).or (log.resource.find key) := by
  cases change with
  | resource k value =>
    dsimp only [apply, resource?]
    rw [Keyed.find_set]
    by_cases h : key = k
    · rw [if_pos h, if_pos h.symm]
      rfl
    · rw [if_neg h, if_neg (Ne.symm h)]
      rfl
  | clear => exact absurd hclear (by decide)
  | number which value => cases which <;> rfl
  | flag which value => cases which <;> rfl
  | _ => rfl

theorem attributes_apply (hfits : ∀ c ∈ changes, c.Fits) (hchange : change.Fits) (hclear : change.isClear = false)
    (h : ∀ key, log.attributes.find key = values key changes) (key : Bytes) :
    (log.apply change).attributes.find key = values key (changes ++ [change]) := by
  cases change with
  | text k value =>
    rw [values_text, ← h]
    exact Keyed.find_set _ _ _ _
  | added k value =>
    rw [values_added hfits hchange.1, ← h, ← h]
    exact Keyed.find_add _ _ _ _
  | clear => exact absurd hclear (by decide)
  | number which value =>
    rw [values_snoc (fun _ => rfl) fun _ => rfl, ← h]
    cases which <;> rfl
  | flag which value =>
    rw [values_snoc (fun _ => rfl) fun _ => rfl, ← h]
    cases which <;> rfl
  | _ =>
    rw [values_snoc (fun _ => rfl) fun _ => rfl, ← h]
    rfl

theorem recipients_apply (hclear : change.isClear = false) :
    (log.apply change).recipients = log.recipients ++ (recipient? change).toList := by
  cases change with
  | recipient entry => rfl
  | clear => exact absurd hclear (by decide)
  | number which value => cases which <;> exact (List.append_nil _).symm
  | flag which value => cases which <;> exact (List.append_nil _).symm
  | _ => exact (List.append_nil _).symm

theorem attachments_apply (hclear : change.isClear = false) :
    (log.apply change).attachments = log.attachments ++ (attachment? change).toList := by
  cases change with
  | attachment entry => rfl
  | clear => exact absurd hclear (by decide)
  | number which value => cases which <;> exact (List.append_nil _).symm
  | flag which value => cases which <;> exact (List.append_nil _).symm
  | _ => exact (List.append_nil _).symm

/-! ## After any calls -/

theorem holds_apply (h : Holds log changes) (hfits : ∀ c ∈ changes, c.Fits) (hchange : change.Fits)
    (hclear : change.isClear = false) : Holds (log.apply change) (changes ++ [change]) where
  body := by rw [body_apply hchange hclear, last_snoc, h.body]
  severity := by rw [severity_apply hchange hclear, last_snoc, h.severity]
  time := by rw [time_apply hchange hclear, last_snoc, h.time]
  observedTime := by rw [observedTime_apply hchange hclear, last_snoc, h.observedTime]
  number which := by rw [number_apply hchange hclear, last_snoc, h.number]
  flag which := by rw [flag_apply hclear, last_snoc, h.flag]
  score := by rw [score_apply hclear, last_snoc, h.score]
  resource key := by rw [resource_apply hclear, last_snoc, h.resource, Option.map_or]
  attributes := attributes_apply hfits hchange hclear h.attributes
  recipients := by rw [recipients_apply hclear, filterMap_snoc, h.recipients]
  attachments := by rw [attachments_apply hclear, filterMap_snoc, h.attachments]

theorem changesOf_snoc (calls : List Call) (call : Call) :
    changesOf (calls ++ [call]) = if call.change.isClear then [] else changesOf calls ++ [call.change] := by
  unfold changesOf
  rw [List.map_append, List.map_singleton, sinceClear_snoc]

theorem fits_changesOf (calls : List Call) : ∀ c ∈ changesOf calls, c.Fits := by
  intro change hmem
  obtain ⟨call, -, rfl⟩ := List.mem_map.1 (mem_of_sinceClear hmem)
  exact fits_change call

/-- **After any calls the object has what they have left since the last `Clear`.** -/
theorem holds_run (calls : List Call) : Holds (run calls) (changesOf calls) := by
  induction calls using List.reverseRecOn with
  | nil => exact holds_nil
  | append_singleton calls call ih =>
    have hrun : run (calls ++ [call]) = (run calls).apply call.change := by
      unfold run
      rw [List.foldl_append, List.foldl_cons, List.foldl_nil, step_eq_apply]
    rw [hrun, changesOf_snoc]
    cases hclear : call.change.isClear with
    | false => exact holds_apply ih (fits_changesOf calls) (fits_change call) hclear
    | true =>
      cases hchange : call.change with
      | clear => exact holds_nil
      | _ =>
        rw [hchange] at hclear
        exact absurd hclear Bool.false_ne_true

end DominoLogForwarder.MailLog
