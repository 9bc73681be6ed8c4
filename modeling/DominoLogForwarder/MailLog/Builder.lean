/-
`MailLog` (`mail-log/mail_log.cpp`): the record of a mail message, which is put together by calls and written by
`Build` as one JSON object.

An object of the class is the structure `MailLog`, and a method is a function of it. A value with a flag which says
whether it was set is an `Option`. A `double` is an `Option Double` too: `none` is NaN and the infinite ones. What the
`Append...` functions append is the value of a function here.

`std::to_chars` is a parameter.
-/
import DominoLogForwarder.Lib.JsonText
import DominoLogForwarder.Lib.Keyed
import DominoLogForwarder.Otelfwd.Record

namespace DominoLogForwarder

open FileReader (Bytes ascii decimal)
open Json (commas)
open Otelfwd (intText)

namespace MailLog

abbrev AttributeList := Keyed Bytes Bytes

/-- one entry of `email.envelope.recipients` -/
structure Recipient where
  address : Bytes
  status : Bytes := []
  /-- 0: not known -/
  code : Int64 := 0
  enhancedStatus : Bytes := []
  text : Bytes := []
deriving DecidableEq

/-- one entry of `email.attachments` -/
structure Attachment where
  name : Bytes
  /-- 0: not known -/
  size : Int64 := 0
  sha256 : Bytes := []
  contentType : Bytes := []
deriving DecidableEq

end MailLog

structure MailLog where
  body : Bytes := []
  /-- 0: unspecified -/
  severityNumber : Int64 := 0
  severityText : Bytes := []
  /-- 0: not set. The same for the numbers below -/
  timeUnixNano : Int64 := 0
  observedTimeUnixNano : Int64 := 0
  size : Int64 := 0
  clientPort : Int64 := 0
  serverPort : Int64 := 0
  networkLocalPort : Int64 := 0
  networkPeerPort : Int64 := 0
  smtpResponseCode : Int64 := 0
  signed : Option Bool := none
  encrypted : Option Bool := none
  tlsEstablished : Option Bool := none
  spamScore : Option (Option Double) := none
  virusChecked : Option Bool := none
  resource : MailLog.AttributeList := .empty
  attributes : MailLog.AttributeList := .empty
  recipients : List MailLog.Recipient := []
  attachments : List MailLog.Attachment := []

namespace MailLog

variable (log : MailLog)

/-! ## The setters

An empty text is ignored, and so is a number of 0 or less. -/

def setResource (key : String) (value : Bytes) : MailLog :=
  if value = [] then log else { log with resource := log.resource.set (ascii key) value }

def setText (key : String) (value : Bytes) : MailLog :=
  if value = [] then log else { log with attributes := log.attributes.set (ascii key) value }

def addText (key : String) (value : Bytes) : MailLog :=
  if value = [] then log else { log with attributes := log.attributes.add (ascii key) value }

def setHostName (name : Bytes) : MailLog := log.setResource "host.name" name

def setServiceName (name : Bytes) : MailLog := log.setResource "service.name" name

def setServiceNamespace (nameSpace : Bytes) : MailLog := log.setResource "service.namespace" nameSpace

def setServiceInstanceId (id : Bytes) : MailLog := log.setResource "service.instance.id" id

def setResourceAttribute (key value : Bytes) : MailLog :=
  if key = [] ∨ value = [] then log else { log with resource := log.resource.set key value }

def setFrom (address : Bytes) : MailLog := log.setText "email.from.address" address

def addTo (address : Bytes) : MailLog := log.addText "email.to.addresses" address

def addCc (address : Bytes) : MailLog := log.addText "email.cc.addresses" address

def addBcc (address : Bytes) : MailLog := log.addText "email.bcc.addresses" address

def setEnvelopeFrom (address : Bytes) : MailLog := log.setText "email.envelope.from.address" address

/-- an empty text is the value here -/
def setEnvelopeFromEmpty : MailLog :=
  { log with attributes := log.attributes.set (ascii "email.envelope.from.address") [] }

def addRecipient (address status : Bytes) (code : Int64) (enhancedStatus text : Bytes) : MailLog :=
  if address = [] then log
  else
    { log with
      recipients := log.recipients ++ [⟨address, status, if 0 < code then code else 0, enhancedStatus, text⟩] }

def setSubject (subject : Bytes) : MailLog := log.setText "email.subject" subject

def setMessageId (id : Bytes) : MailLog := log.setText "email.message.id" id

def setQueueId (id : Bytes) : MailLog := log.setText "email.queue.id" id

def setEvent (event : Bytes) : MailLog := log.setText "email.event" event

def setDirection (direction : Bytes) : MailLog := log.setText "email.direction" direction

def setSize (bytes : Int64) : MailLog := if bytes ≤ 0 then log else { log with size := bytes }

def addAttachment (name : Bytes) (size : Int64) (sha256 contentType : Bytes) : MailLog :=
  if name = [] then log
  else { log with attachments := log.attachments ++ [⟨name, if 0 < size then size else 0, sha256, contentType⟩] }

/-- a byte of `NormalizeHeaderName`: lower case, and `_` in the place of everything else -/
def normalizeByte (c : UInt8) : UInt8 :=
  if 97 ≤ c ∧ c ≤ 122 then c
  else if 65 ≤ c ∧ c ≤ 90 then c - 65 + 97
  else if (48 ≤ c ∧ c ≤ 57) ∨ c = 95 then c
  else 95

def normalizeHeaderName (name : Bytes) : Bytes := name.map normalizeByte

def addHeader (name value : Bytes) : MailLog :=
  if name = [] ∨ value = [] then log
  else { log with attributes := log.attributes.add (ascii "email.header." ++ normalizeHeaderName name) value }

def setSigned (value : Bool) : MailLog := { log with signed := some value }

def setEncrypted (value : Bool) : MailLog := { log with encrypted := some value }

def setCryptoProtocol (protocol : Bytes) : MailLog := log.setText "email.crypto.protocol.name" protocol

def setTlsEstablished (value : Bool) : MailLog := { log with tlsEstablished := some value }

def setTlsProtocolName (name : Bytes) : MailLog := log.setText "tls.protocol.name" name

def setTlsProtocolVersion (version : Bytes) : MailLog := log.setText "tls.protocol.version" version

def setTlsCipher (cipher : Bytes) : MailLog := log.setText "tls.cipher" cipher

def setTlsClientSubject (subject : Bytes) : MailLog := log.setText "tls.client.subject" subject

def setTlsClientIssuer (issuer : Bytes) : MailLog := log.setText "tls.client.issuer" issuer

def setTlsClientSha256 (hash : Bytes) : MailLog := log.setText "tls.client.hash.sha256" hash

def setTlsClientNotBefore (time : Bytes) : MailLog := log.setText "tls.client.not_before" time

def setTlsClientNotAfter (time : Bytes) : MailLog := log.setText "tls.client.not_after" time

def setTlsServerSubject (subject : Bytes) : MailLog := log.setText "tls.server.subject" subject

def setTlsServerIssuer (issuer : Bytes) : MailLog := log.setText "tls.server.issuer" issuer

def setTlsServerSha256 (hash : Bytes) : MailLog := log.setText "tls.server.hash.sha256" hash

def setTlsServerNotBefore (time : Bytes) : MailLog := log.setText "tls.server.not_before" time

def setTlsServerNotAfter (time : Bytes) : MailLog := log.setText "tls.server.not_after" time

def setClientAddress (address : Bytes) : MailLog := log.setText "client.address" address

def setClientPort (port : Int64) : MailLog := if port ≤ 0 then log else { log with clientPort := port }

def setServerAddress (address : Bytes) : MailLog := log.setText "server.address" address

def setServerPort (port : Int64) : MailLog := if port ≤ 0 then log else { log with serverPort := port }

def setNetworkLocalAddress (address : Bytes) : MailLog := log.setText "network.local.address" address

def setNetworkLocalPort (port : Int64) : MailLog := if port ≤ 0 then log else { log with networkLocalPort := port }

def setNetworkPeerAddress (address : Bytes) : MailLog := log.setText "network.peer.address" address

def setNetworkPeerPort (port : Int64) : MailLog := if port ≤ 0 then log else { log with networkPeerPort := port }

def setSmtpHelo (helo : Bytes) : MailLog := log.setText "email.smtp.helo" helo

def setSmtpResponseCode (code : Int64) : MailLog := if code ≤ 0 then log else { log with smtpResponseCode := code }

def setSmtpEnhancedStatus (status : Bytes) : MailLog := log.setText "email.smtp.response.enhanced_status_code" status

def setSmtpResponseText (text : Bytes) : MailLog := log.setText "email.smtp.response.text" text

def setSpamScore (score : Option Double) : MailLog := { log with spamScore := some score }

def setSpamResult (result : Bytes) : MailLog := log.setText "email.spam.result" result

def setSpfResult (result : Bytes) : MailLog := log.setText "email.spf.result" result

def setDkimResult (result : Bytes) : MailLog := log.setText "email.dkim.result" result

def setDmarcResult (result : Bytes) : MailLog := log.setText "email.dmarc.result" result

def setSpfDomain (domain : Bytes) : MailLog := log.setText "email.spf.domain" domain

def setDkimDomain (domain : Bytes) : MailLog := log.setText "email.dkim.domain" domain

def setDkimSelector (selector : Bytes) : MailLog := log.setText "email.dkim.selector" selector

def setVirusChecked (value : Bool) : MailLog := { log with virusChecked := some value }

def setVirusResult (result : Bytes) : MailLog := log.setText "email.virus.result" result

def setSpamEngine (engine : Bytes) : MailLog := log.setText "email.spam.engine.name" engine

def setVirusEngine (engine : Bytes) : MailLog := log.setText "email.virus.engine.name" engine

def setVirusName (name : Bytes) : MailLog := log.setText "email.virus.threat.name" name

def setClassification (classification : Bytes) : MailLog := log.setText "email.classification" classification

def setAutoSubmitted (value : Bytes) : MailLog := log.setText "email.auto_submitted" value

def setAction (action : Bytes) : MailLog := log.setText "email.action" action

def setReason (reason : Bytes) : MailLog := log.setText "email.reason" reason

def setPolicyName (name : Bytes) : MailLog := log.setText "email.policy.name" name

def setPolicyId (id : Bytes) : MailLog := log.setText "email.policy.id" id

def setBody (text : Bytes) : MailLog := if text = [] then log else { log with body := text }

def setSeverity (number : Int64) (text : Bytes) : MailLog :=
  if number ≤ 0 ∨ 24 < number then log else { log with severityNumber := number, severityText := text }

def setTime (timeUnixNano : Int64) : MailLog :=
  if timeUnixNano ≤ 0 then log else { log with timeUnixNano := timeUnixNano }

def setObservedTime (timeUnixNano : Int64) : MailLog :=
  if timeUnixNano ≤ 0 then log else { log with observedTimeUnixNano := timeUnixNano }

def clear (_ : MailLog) : MailLog := {}

/-! ## The texts -/

def hexDigit (n : UInt8) : UInt8 := if n < 10 then 48 + n else 87 + n

/-- a byte of a JSON string: `"`, `\` and the control characters are escaped -/
def escape (c : UInt8) : Bytes :=
  if c = 34 then [92, 34]
  else if c = 92 then [92, 92]
  else if c = 8 then [92, 98]
  else if c = 12 then [92, 102]
  else if c = 10 then [92, 110]
  else if c = 13 then [92, 114]
  else if c = 9 then [92, 116]
  else if c < 0x20 then [92, 117, 48, 48, hexDigit (c / 16), hexDigit (c % 16)]
  else [c]

/-- what `AppendJsonString` appends -/
def jsonString (text : Bytes) : Bytes := 34 :: (text.flatMap escape ++ [34])

/-- `"name":`, and the value -/
def field (name : String) (value : Bytes) : Bytes := 34 :: (ascii name ++ 34 :: 58 :: value)

def objectText (fields : List Bytes) : Bytes := 123 :: (commas fields ++ [125])

def arrayText (items : List Bytes) : Bytes := 91 :: (commas items ++ [93])

/-! ## Fields which can be left out -/

def textField (name : String) (text : Bytes) : List Bytes := if text = [] then [] else [field name (jsonString text)]

def numberField (name : String) (number : Int64) : List Bytes :=
  if number ≠ 0 then [field name (intText number)] else []

/-- a time is a string of digits -/
def timeField (name : String) (time : Int64) : List Bytes :=
  if time ≠ 0 then [field name (34 :: (intText time ++ [34]))] else []

def flagField (name : String) : Option Bool → List Bytes
  | some true => [field name (ascii "true")]
  | some false => [field name (ascii "false")]
  | none => []

def arrayField (name : String) (items : List Bytes) : List Bytes :=
  if items = [] then [] else [field name (arrayText items)]

def objectField (name : String) (fields : List Bytes) : List Bytes :=
  if fields = [] then [] else [field name (objectText fields)]

/-- a whole number is written with ".0" -/
def scoreText (toChars : Double → Bytes) (score : Double) : Bytes :=
  let text := toChars score
  if text.any fun b => b = 46 || b = 101 || b = 69 then text else text ++ [46, 48]

/-- NaN and infinite are not sent -/
def scoreField (toChars : Double → Bytes) : Option (Option Double) → List Bytes
  | some (some score) => [field "email.spam.score" (scoreText toChars score)]
  | _ => []

/-! ## Build -/

/-- `AppendRecipient` -/
def recipientText (entry : Recipient) : Bytes :=
  objectText (field "address" (jsonString entry.address) ::
    (textField "status" entry.status ++ numberField "code" entry.code ++
      textField "enhanced_status_code" entry.enhancedStatus ++ textField "text" entry.text))

/-- `AppendAttachment` -/
def attachmentText (entry : Attachment) : Bytes :=
  objectText (field "name" (jsonString entry.name) ::
    (numberField "size_bytes" entry.size ++ textField "sha256" entry.sha256 ++
      textField "content_type" entry.contentType))

/-- an entry of `AppendResource`: the first value of the key -/
def resourceText (entry : Bytes × List Bytes) : Bytes := jsonString entry.1 ++ 58 :: jsonString (entry.2.headD [])

def isRecipientKey (key : Bytes) : Bool :=
  key = ascii "email.to.addresses" || key = ascii "email.cc.addresses" || key = ascii "email.bcc.addresses"

/-- one value is a string, more of them are an array. The recipients are one in any case -/
def attributeText (entry : Bytes × List Bytes) : Bytes :=
  jsonString entry.1 ++ 58 ::
    if entry.2.length = 1 ∧ isRecipientKey entry.1 = false then jsonString (entry.2.headD [])
    else arrayText (entry.2.map jsonString)

/-- `AttributeFields` -/
def attributeFields (toChars : Double → Bytes) : List Bytes :=
  log.attributes.entries.map attributeText ++ numberField "email.size_bytes" log.size ++
    arrayField "email.attachments" (log.attachments.map attachmentText) ++
    arrayField "email.envelope.recipients" (log.recipients.map recipientText) ++
    numberField "client.port" log.clientPort ++ numberField "server.port" log.serverPort ++
    numberField "network.local.port" log.networkLocalPort ++ numberField "network.peer.port" log.networkPeerPort ++
    numberField "email.smtp.response.code" log.smtpResponseCode ++ flagField "email.signed" log.signed ++
    flagField "email.encrypted" log.encrypted ++ flagField "tls.established" log.tlsEstablished ++
    scoreField toChars log.spamScore ++ flagField "email.virus.checked" log.virusChecked

/-- `AddPart`, with a blank in front of it unless it is the first one -/
def addPart (text part : Bytes) : Bytes := if text = [] then part else text ++ 32 :: part

/-- the first value of a key, with a text around it -/
def firstValue (key : String) (around : Bytes → Bytes) : List Bytes :=
  ((log.attributes.find (ascii key)).map fun values => around (values.headD [])).toList

/-- the recipients of the envelope, or of the headers -/
def recipientCount : ℕ :=
  if log.recipients ≠ [] then log.recipients.length
  else
    (["email.to.addresses", "email.cc.addresses", "email.bcc.addresses"].map fun key =>
      ((log.attributes.find (ascii key)).map List.length).getD 0).sum

def bodyParts : List Bytes :=
  log.firstValue "email.event" id ++ log.firstValue "email.action" id ++
    (if (log.attributes.find (ascii "email.envelope.from.address")).isSome then
      log.firstValue "email.envelope.from.address" fun sender => ascii "from=<" ++ sender ++ ascii ">"
    else log.firstValue "email.from.address" fun sender => ascii "from=" ++ sender) ++
    log.firstValue "email.message.id" (fun id => ascii "message-id=" ++ id) ++
    if 0 < log.recipientCount then [ascii "nrcpt=" ++ decimal log.recipientCount] else []

def buildDefaultBody : Bytes := log.bodyParts.foldl addPart []

def scopeField : Bytes :=
  field "scope" (objectText [field "name" (jsonString (ascii "mail-log")),
    field "version" (jsonString (ascii "0.1.0"))])

example : scopeField = ascii "\"scope\":\x7b\"name\":\"mail-log\",\"version\":\"0.1.0\"\x7d" := by decide +kernel

/-- `Fields` -/
def fields (toChars : Double → Bytes) : List Bytes :=
  [scopeField] ++ objectField "resource" (log.resource.entries.map resourceText) ++
    timeField "time_unix_nano" log.timeUnixNano ++ timeField "observed_time_unix_nano" log.observedTimeUnixNano ++
    (if log.severityNumber ≠ 0 then
      numberField "severity_number" log.severityNumber ++ textField "severity_text" log.severityText
    else []) ++
    textField "body" (if log.body = [] then log.buildDefaultBody else log.body) ++
    objectField "attributes" (log.attributeFields toChars)

def build (toChars : Double → Bytes) : Bytes := objectText (log.fields toChars)

end MailLog

end DominoLogForwarder
