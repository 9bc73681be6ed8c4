/-
The calls of a `MailLog`, and what each of them changes.

`Call` has the public methods, `step` is a call and `run` is a sequence of them. `Change` is what the documentation of
the class says about a call: a value under a key, one more value, a number, nothing. `step_eq_apply`: this is what the
code does.
-/
import DominoLogForwarder.MailLog.Builder

namespace DominoLogForwarder.MailLog

open FileReader (Bytes ascii)

/-! ## Calls -/

inductive Call where
  | setHostName (name : Bytes)
  | setServiceName (name : Bytes)
  | setServiceNamespace (nameSpace : Bytes)
  | setServiceInstanceId (id : Bytes)
  | setResourceAttribute (key value : Bytes)
  | setFrom (address : Bytes)
  | addTo (address : Bytes)
  | addCc (address : Bytes)
  | addBcc (address : Bytes)
  | setEnvelopeFrom (address : Bytes)
  | setEnvelopeFromEmpty
  | addRecipient (address status : Bytes) (code : Int64) (enhancedStatus text : Bytes)
  | setSubject (subject : Bytes)
  | setMessageId (id : Bytes)
  | setQueueId (id : Bytes)
  | setEvent (event : Bytes)
  | setDirection (direction : Bytes)
  | setSize (bytes : Int64)
  | addAttachment (name : Bytes) (size : Int64) (sha256 contentType : Bytes)
  | addHeader (name value : Bytes)
  | setSigned (value : Bool)
  | setEncrypted (value : Bool)
  | setCryptoProtocol (protocol : Bytes)
  | setTlsEstablished (value : Bool)
  | setTlsProtocolName (name : Bytes)
  | setTlsProtocolVersion (version : Bytes)
  | setTlsCipher (cipher : Bytes)
  | setTlsClientSubject (subject : Bytes)
  | setTlsClientIssuer (issuer : Bytes)
  | setTlsClientSha256 (hash : Bytes)
  | setTlsClientNotBefore (time : Bytes)
  | setTlsClientNotAfter (time : Bytes)
  | setTlsServerSubject (subject : Bytes)
  | setTlsServerIssuer (issuer : Bytes)
  | setTlsServerSha256 (hash : Bytes)
  | setTlsServerNotBefore (time : Bytes)
  | setTlsServerNotAfter (time : Bytes)
  | setClientAddress (address : Bytes)
  | setClientPort (port : Int64)
  | setServerAddress (address : Bytes)
  | setServerPort (port : Int64)
  | setNetworkLocalAddress (address : Bytes)
  | setNetworkLocalPort (port : Int64)
  | setNetworkPeerAddress (address : Bytes)
  | setNetworkPeerPort (port : Int64)
  | setSmtpHelo (helo : Bytes)
  | setSmtpResponseCode (code : Int64)
  | setSmtpEnhancedStatus (status : Bytes)
  | setSmtpResponseText (text : Bytes)
  | setSpamScore (score : Option Double)
  | setSpamResult (result : Bytes)
  | setSpfResult (result : Bytes)
  | setDkimResult (result : Bytes)
  | setDmarcResult (result : Bytes)
  | setSpfDomain (domain : Bytes)
  | setDkimDomain (domain : Bytes)
  | setDkimSelector (selector : Bytes)
  | setVirusChecked (value : Bool)
  | setVirusResult (result : Bytes)
  | setSpamEngine (engine : Bytes)
  | setVirusEngine (engine : Bytes)
  | setVirusName (name : Bytes)
  | setClassification (classification : Bytes)
  | setAutoSubmitted (value : Bytes)
  | setAction (action : Bytes)
  | setReason (reason : Bytes)
  | setPolicyName (name : Bytes)
  | setPolicyId (id : Bytes)
  | setBody (text : Bytes)
  | setSeverity (number : Int64) (text : Bytes)
  | setTime (timeUnixNano : Int64)
  | setObservedTime (timeUnixNano : Int64)
  | clear

def step (log : MailLog) : Call → MailLog
  | .setHostName name => log.setHostName name
  | .setServiceName name => log.setServiceName name
  | .setServiceNamespace nameSpace => log.setServiceNamespace nameSpace
  | .setServiceInstanceId id => log.setServiceInstanceId id
  | .setResourceAttribute key value => log.setResourceAttribute key value
  | .setFrom address => log.setFrom address
  | .addTo address => log.addTo address
  | .addCc address => log.addCc address
  | .addBcc address => log.addBcc address
  | .setEnvelopeFrom address => log.setEnvelopeFrom address
  | .setEnvelopeFromEmpty => log.setEnvelopeFromEmpty
  | .addRecipient address status code enhancedStatus text => log.addRecipient address status code enhancedStatus text
  | .setSubject subject => log.setSubject subject
  | .setMessageId id => log.setMessageId id
  | .setQueueId id => log.setQueueId id
  | .setEvent event => log.setEvent event
  | .setDirection direction => log.setDirection direction
  | .setSize bytes => log.setSize bytes
  | .addAttachment name size sha256 contentType => log.addAttachment name size sha256 contentType
  | .addHeader name value => log.addHeader name value
  | .setSigned value => log.setSigned value
  | .setEncrypted value => log.setEncrypted value
  | .setCryptoProtocol protocol => log.setCryptoProtocol protocol
  | .setTlsEstablished value => log.setTlsEstablished value
  | .setTlsProtocolName name => log.setTlsProtocolName name
  | .setTlsProtocolVersion version => log.setTlsProtocolVersion version
  | .setTlsCipher cipher => log.setTlsCipher cipher
  | .setTlsClientSubject subject => log.setTlsClientSubject subject
  | .setTlsClientIssuer issuer => log.setTlsClientIssuer issuer
  | .setTlsClientSha256 hash => log.setTlsClientSha256 hash
  | .setTlsClientNotBefore time => log.setTlsClientNotBefore time
  | .setTlsClientNotAfter time => log.setTlsClientNotAfter time
  | .setTlsServerSubject subject => log.setTlsServerSubject subject
  | .setTlsServerIssuer issuer => log.setTlsServerIssuer issuer
  | .setTlsServerSha256 hash => log.setTlsServerSha256 hash
  | .setTlsServerNotBefore time => log.setTlsServerNotBefore time
  | .setTlsServerNotAfter time => log.setTlsServerNotAfter time
  | .setClientAddress address => log.setClientAddress address
  | .setClientPort port => log.setClientPort port
  | .setServerAddress address => log.setServerAddress address
  | .setServerPort port => log.setServerPort port
  | .setNetworkLocalAddress address => log.setNetworkLocalAddress address
  | .setNetworkLocalPort port => log.setNetworkLocalPort port
  | .setNetworkPeerAddress address => log.setNetworkPeerAddress address
  | .setNetworkPeerPort port => log.setNetworkPeerPort port
  | .setSmtpHelo helo => log.setSmtpHelo helo
  | .setSmtpResponseCode code => log.setSmtpResponseCode code
  | .setSmtpEnhancedStatus status => log.setSmtpEnhancedStatus status
  | .setSmtpResponseText text => log.setSmtpResponseText text
  | .setSpamScore score => log.setSpamScore score
  | .setSpamResult result => log.setSpamResult result
  | .setSpfResult result => log.setSpfResult result
  | .setDkimResult result => log.setDkimResult result
  | .setDmarcResult result => log.setDmarcResult result
  | .setSpfDomain domain => log.setSpfDomain domain
  | .setDkimDomain domain => log.setDkimDomain domain
  | .setDkimSelector selector => log.setDkimSelector selector
  | .setVirusChecked value => log.setVirusChecked value
  | .setVirusResult result => log.setVirusResult result
  | .setSpamEngine engine => log.setSpamEngine engine
  | .setVirusEngine engine => log.setVirusEngine engine
  | .setVirusName name => log.setVirusName name
  | .setClassification classification => log.setClassification classification
  | .setAutoSubmitted value => log.setAutoSubmitted value
  | .setAction action => log.setAction action
  | .setReason reason => log.setReason reason
  | .setPolicyName name => log.setPolicyName name
  | .setPolicyId id => log.setPolicyId id
  | .setBody text => log.setBody text
  | .setSeverity number text => log.setSeverity number text
  | .setTime timeUnixNano => log.setTime timeUnixNano
  | .setObservedTime timeUnixNano => log.setObservedTime timeUnixNano
  | .clear => log.clear

/-- the calls of a new object -/
def run (calls : List Call) : MailLog := calls.foldl step {}

/-- the calls which the documentation shows -/
def sampleCalls : List Call :=
  [.setHostName (ascii "mail01.example.com"), .setServiceName (ascii "postfix"),
    .setFrom (ascii "sender@example.com"), .addTo (ascii "recipient@example.com"), .setSubject (ascii "Hello World"),
    .setSize 4096, .setMessageId (ascii "<abc@example.com>"), .setBody (ascii "Delivered to recipient@example.com"),
    .setSeverity 9 (ascii "INFO")]

/-! ## Changes -/

inductive Number where
  | size
  | clientPort
  | serverPort
  | networkLocalPort
  | networkPeerPort
  | smtpResponseCode

inductive Flag where
  | signed
  | encrypted
  | tlsEstablished
  | virusChecked

inductive Change where
  | nothing
  | resource (key value : Bytes)
  /-- the only value of an attribute -/
  | text (key value : Bytes)
  /-- one more value of an attribute -/
  | added (key value : Bytes)
  | number (which : Number) (value : Int64)
  | flag (which : Flag) (value : Bool)
  | score (value : Option Double)
  | recipient (entry : Recipient)
  | attachment (entry : Attachment)
  | body (text : Bytes)
  | severity (number : Int64) (text : Bytes)
  | time (timeUnixNano : Int64)
  | observedTime (timeUnixNano : Int64)
  | clear

/-- an empty text is ignored -/
def unlessEmpty (text : Bytes) (change : Change) : Change := if text = [] then .nothing else change

/-- a number of 0 or less is ignored -/
def ifPositive (number : Int64) (change : Change) : Change := if 0 < number then change else .nothing

def headerKey (name : Bytes) : Bytes := ascii "email.header." ++ normalizeHeaderName name

def Call.change : Call → Change
  | .setHostName name => unlessEmpty name (.resource (ascii "host.name") name)
  | .setServiceName name => unlessEmpty name (.resource (ascii "service.name") name)
  | .setServiceNamespace nameSpace => unlessEmpty nameSpace (.resource (ascii "service.namespace") nameSpace)
  | .setServiceInstanceId id => unlessEmpty id (.resource (ascii "service.instance.id") id)
  | .setResourceAttribute key value => unlessEmpty key (unlessEmpty value (.resource key value))
  | .setFrom address => unlessEmpty address (.text (ascii "email.from.address") address)
  | .addTo address => unlessEmpty address (.added (ascii "email.to.addresses") address)
  | .addCc address => unlessEmpty address (.added (ascii "email.cc.addresses") address)
  | .addBcc address => unlessEmpty address (.added (ascii "email.bcc.addresses") address)
  | .setEnvelopeFrom address => unlessEmpty address (.text (ascii "email.envelope.from.address") address)
  | .setEnvelopeFromEmpty => .text (ascii "email.envelope.from.address") []
  | .addRecipient address status code enhancedStatus text =>
    unlessEmpty address (.recipient ⟨address, status, if 0 < code then code else 0, enhancedStatus, text⟩)
  | .setSubject subject => unlessEmpty subject (.text (ascii "email.subject") subject)
  | .setMessageId id => unlessEmpty id (.text (ascii "email.message.id") id)
  | .setQueueId id => unlessEmpty id (.text (ascii "email.queue.id") id)
  | .setEvent event => unlessEmpty event (.text (ascii "email.event") event)
  | .setDirection direction => unlessEmpty direction (.text (ascii "email.direction") direction)
  | .setSize bytes => ifPositive bytes (.number .size bytes)
  | .addAttachment name size sha256 contentType =>
    unlessEmpty name (.attachment ⟨name, if 0 < size then size else 0, sha256, contentType⟩)
  | .addHeader name value => unlessEmpty name (unlessEmpty value (.added (headerKey name) value))
  | .setSigned value => .flag .signed value
  | .setEncrypted value => .flag .encrypted value
  | .setCryptoProtocol protocol => unlessEmpty protocol (.text (ascii "email.crypto.protocol.name") protocol)
  | .setTlsEstablished value => .flag .tlsEstablished value
  | .setTlsProtocolName name => unlessEmpty name (.text (ascii "tls.protocol.name") name)
  | .setTlsProtocolVersion version => unlessEmpty version (.text (ascii "tls.protocol.version") version)
  | .setTlsCipher cipher => unlessEmpty cipher (.text (ascii "tls.cipher") cipher)
  | .setTlsClientSubject subject => unlessEmpty subject (.text (ascii "tls.client.subject") subject)
  | .setTlsClientIssuer issuer => unlessEmpty issuer (.text (ascii "tls.client.issuer") issuer)
  | .setTlsClientSha256 hash => unlessEmpty hash (.text (ascii "tls.client.hash.sha256") hash)
  | .setTlsClientNotBefore time => unlessEmpty time (.text (ascii "tls.client.not_before") time)
  | .setTlsClientNotAfter time => unlessEmpty time (.text (ascii "tls.client.not_after") time)
  | .setTlsServerSubject subject => unlessEmpty subject (.text (ascii "tls.server.subject") subject)
  | .setTlsServerIssuer issuer => unlessEmpty issuer (.text (ascii "tls.server.issuer") issuer)
  | .setTlsServerSha256 hash => unlessEmpty hash (.text (ascii "tls.server.hash.sha256") hash)
  | .setTlsServerNotBefore time => unlessEmpty time (.text (ascii "tls.server.not_before") time)
  | .setTlsServerNotAfter time => unlessEmpty time (.text (ascii "tls.server.not_after") time)
  | .setClientAddress address => unlessEmpty address (.text (ascii "client.address") address)
  | .setClientPort port => ifPositive port (.number .clientPort port)
  | .setServerAddress address => unlessEmpty address (.text (ascii "server.address") address)
  | .setServerPort port => ifPositive port (.number .serverPort port)
  | .setNetworkLocalAddress address => unlessEmpty address (.text (ascii "network.local.address") address)
  | .setNetworkLocalPort port => ifPositive port (.number .networkLocalPort port)
  | .setNetworkPeerAddress address => unlessEmpty address (.text (ascii "network.peer.address") address)
  | .setNetworkPeerPort port => ifPositive port (.number .networkPeerPort port)
  | .setSmtpHelo helo => unlessEmpty helo (.text (ascii "email.smtp.helo") helo)
  | .setSmtpResponseCode code => ifPositive code (.number .smtpResponseCode code)
  | .setSmtpEnhancedStatus status => unlessEmpty status
    (.text (ascii "email.smtp.response.enhanced_status_code") status)
  | .setSmtpResponseText text => unlessEmpty text (.text (ascii "email.smtp.response.text") text)
  | .setSpamScore score => .score score
  | .setSpamResult result => unlessEmpty result (.text (ascii "email.spam.result") result)
  | .setSpfResult result => unlessEmpty result (.text (ascii "email.spf.result") result)
  | .setDkimResult result => unlessEmpty result (.text (ascii "email.dkim.result") result)
  | .setDmarcResult result => unlessEmpty result (.text (ascii "email.dmarc.result") result)
  | .setSpfDomain domain => unlessEmpty domain (.text (ascii "email.spf.domain") domain)
  | .setDkimDomain domain => unlessEmpty domain (.text (ascii "email.dkim.domain") domain)
  | .setDkimSelector selector => unlessEmpty selector (.text (ascii "email.dkim.selector") selector)
  | .setVirusChecked value => .flag .virusChecked value
  | .setVirusResult result => unlessEmpty result (.text (ascii "email.virus.result") result)
  | .setSpamEngine engine => unlessEmpty engine (.text (ascii "email.spam.engine.name") engine)
  | .setVirusEngine engine => unlessEmpty engine (.text (ascii "email.virus.engine.name") engine)
  | .setVirusName name => unlessEmpty name (.text (ascii "email.virus.threat.name") name)
  | .setClassification classification => unlessEmpty classification
    (.text (ascii "email.classification") classification)
  | .setAutoSubmitted value => unlessEmpty value (.text (ascii "email.auto_submitted") value)
  | .setAction action => unlessEmpty action (.text (ascii "email.action") action)
  | .setReason reason => unlessEmpty reason (.text (ascii "email.reason") reason)
  | .setPolicyName name => unlessEmpty name (.text (ascii "email.policy.name") name)
  | .setPolicyId id => unlessEmpty id (.text (ascii "email.policy.id") id)
  | .setBody text => unlessEmpty text (.body text)
  | .setSeverity number text => if 0 < number ∧ number ≤ 24 then .severity number text else .nothing
  | .setTime timeUnixNano => ifPositive timeUnixNano (.time timeUnixNano)
  | .setObservedTime timeUnixNano => ifPositive timeUnixNano (.observedTime timeUnixNano)
  | .clear => .clear

def apply (log : MailLog) : Change → MailLog
  | .nothing => log
  | .resource key value => { log with resource := log.resource.set key value }
  | .text key value => { log with attributes := log.attributes.set key value }
  | .added key value => { log with attributes := log.attributes.add key value }
  | .number .size value => { log with size := value }
  | .number .clientPort value => { log with clientPort := value }
  | .number .serverPort value => { log with serverPort := value }
  | .number .networkLocalPort value => { log with networkLocalPort := value }
  | .number .networkPeerPort value => { log with networkPeerPort := value }
  | .number .smtpResponseCode value => { log with smtpResponseCode := value }
  | .flag .signed value => { log with signed := some value }
  | .flag .encrypted value => { log with encrypted := some value }
  | .flag .tlsEstablished value => { log with tlsEstablished := some value }
  | .flag .virusChecked value => { log with virusChecked := some value }
  | .score value => { log with spamScore := some value }
  | .recipient entry => { log with recipients := log.recipients ++ [entry] }
  | .attachment entry => { log with attachments := log.attachments ++ [entry] }
  | .body text => { log with body := text }
  | .severity number text => { log with severityNumber := number, severityText := text }
  | .time timeUnixNano => { log with timeUnixNano := timeUnixNano }
  | .observedTime timeUnixNano => { log with observedTimeUnixNano := timeUnixNano }
  | .clear => {}

variable (log : MailLog)

theorem apply_unlessEmpty (text : Bytes) (change : Change) :
    log.apply (unlessEmpty text change) = if text = [] then log else log.apply change := by
  unfold unlessEmpty
  split_ifs <;> rfl

theorem apply_ifPositive (number : Int64) (change : Change) :
    log.apply (ifPositive number change) = if number ≤ 0 then log else log.apply change := by
  unfold ifPositive
  by_cases h : 0 < number
  · rw [if_pos h, if_neg (Int64.not_le.2 h)]
  · rw [if_neg h, if_pos (Int64.not_lt.1 h)]
    rfl

/-- two texts, and one of them is empty -/
theorem ite_or {α : Type} (p q : Prop) [Decidable p] [Decidable q] (a b : α) :
    (if p ∨ q then a else b) = if p then a else if q then a else b := by
  by_cases hp : p
  · rw [if_pos (Or.inl hp), if_pos hp]
  · simp only [hp, false_or, if_false]

/-- **A call changes what the documentation says.** -/
theorem step_eq_apply (call : Call) : log.step call = log.apply call.change := by
  cases call with
  | setResourceAttribute key value =>
    simp only [step, setResourceAttribute, Call.change, apply_unlessEmpty, ite_or]
    rfl
  | addHeader name value =>
    simp only [step, addHeader, Call.change, apply_unlessEmpty, ite_or]
    rfl
  | setSeverity number text =>
    have hiff : (number ≤ 0 ∨ 24 < number) ↔ ¬(0 < number ∧ number ≤ 24) := by
      rw [not_and_or, Int64.not_lt, Int64.not_le]
    simp only [step, setSeverity, Call.change, hiff, ite_not]
    split_ifs <;> rfl
  | _ =>
    simp only [step, Call.change, apply_unlessEmpty, apply_ifPositive]
    rfl

end DominoLogForwarder.MailLog
