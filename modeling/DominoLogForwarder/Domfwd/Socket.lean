/-
`DomfwdSocketSender` (`domfwd/domfwd_socket.hpp`): a bounded queue of lines in one buffer, which is written to a
non-blocking stream socket.

`Answers` is what the system answers during one call of `Pump`: each of the calls is made at most once in it, apart from
`send`. The clock is read where the source reads it, and every reading is arbitrary.

`World` adds the history to the object: the bytes which each connection took, oldest connection first, and the lines for
which `Enqueue` returned true. Addresses, the socket handle and `Close` are left out: no line depends on them.
-/
import DominoLogForwarder.Lib.Lines
import DominoLogForwarder.Lib.Slice

namespace DominoLogForwarder.Domfwd

open Lines Slice

abbrev Bytes : Type := List UInt8

/-- the new line -/
def nl : UInt8 := 10

/-! ## Messages -/

/-- why a connection is gone -/
inductive Reason where
  | cannotCreateSocket
  | cannotSetNonBlocking
  | pollFailed
  | connectTimeout
  | getsockoptFailed
  | closedByForwarder
  | connectionError
  | error (code : ℕ)
deriving DecidableEq, Repr

/-- `strerror` is the C library's -/
def Reason.text (strerror : ℕ → String) : Reason → String
  | .cannotCreateSocket => "cannot create socket"
  | .cannotSetNonBlocking => "cannot set non-blocking mode"
  | .pollFailed => "poll failed"
  | .connectTimeout => "connect timeout"
  | .getsockoptFailed => "getsockopt failed"
  | .closedByForwarder => "closed by the forwarder"
  | .connectionError => "connection error"
  | .error code => strerror code

inductive Message where
  | queueFull (dropped : ℕ)
  | connectionLost (reason : Reason)
  | cannotConnect (reason : Reason)
  | connected
deriving DecidableEq, Repr

/-- `DOMFWD_SOCKET_RECONNECT_MS` -/
def reconnectMs : ℕ := 5000

/-- `DOMFWD_SOCKET_CONNECT_MAX_MS` -/
def connectMaxMs : ℕ := 5000

/-- `DOMFWD_SOCKET_DROP_LOG_MS` -/
def dropLogMs : ℕ := 60000

/-- `DOMFWD_SOCKET_SEND_CHUNK` -/
def sendChunk : ℕ := 65536

def Message.text (spec : String) (strerror : ℕ → String) : Message → String
  | .queueFull dropped => "Queue is full, dropping lines (dropped so far: " ++ toString dropped ++ ")"
  | .connectionLost reason => "Connection to " ++ spec ++ " lost: " ++ reason.text strerror
  | .cannotConnect reason =>
    "Cannot connect to " ++ spec ++ ": " ++ reason.text strerror ++ ". Retrying every " ++ toString reconnectMs ++ " ms"
  | .connected => "Connected to " ++ spec

/-! ## The object -/

inductive ConnState where
  | disconnected
  | connecting
  | connected
deriving DecidableEq, Repr

/-- the members of a `DomfwdSocketSender`. A line is an object in memory and the buffer another one, so the sums of
their sizes fit into a `size_t` -/
structure Sender where
  configured : Bool := false
  state : ConnState := .disconnected
  /-- `m_MaxBytes` long -/
  buffer : Bytes := []
  /-- the start of the oldest line which is not completely sent yet -/
  head : ℕ := 0
  /-- the next byte to send -/
  sendPos : ℕ := 0
  /-- the end of the queued data -/
  tail : ℕ := 0
  lines : ℕ := 0
  maxLines : ℕ := 0
  maxBytes : ℕ := 0
  nextAttempt : ℕ := 0
  connectStart : ℕ := 0
  lastDropLog : ℕ := 0
  loggedDown : Bool := false
  sent : ℕ := 0
  dropped : ℕ := 0
  rejected : ℕ := 0
  connects : ℕ := 0
deriving DecidableEq, Repr

/-- what `Configure` leaves behind if it succeeds. The buffer comes from `malloc` -/
def Sender.ready (maxLines : ℕ) (buffer : Bytes) (now : ℕ) : Sender where
  configured := true
  buffer := buffer
  maxLines := maxLines
  maxBytes := buffer.length
  nextAttempt := now

structure World where
  sender : Sender
  /-- the bytes which the socket of each connection took -/
  conns : List Bytes := []
  /-- the lines for which `Enqueue` returned true -/
  accepted : List Bytes := []
  log : List Message := []
deriving DecidableEq, Repr

def World.ready (maxLines : ℕ) (buffer : Bytes) (now : ℕ) : World := { sender := .ready maxLines buffer now }

/-! ## What the system answers -/

inductive ConnectAnswer where
  | ok
  | wouldBlock
  | failed (code : ℕ)
deriving DecidableEq, Repr

inductive PollAnswer where
  | failed
  | notReady
  | ready
deriving DecidableEq, Repr

inductive RecvAnswer where
  | data
  | closed
  | wouldBlock
  | failed
deriving DecidableEq, Repr

inductive SendAnswer where
  /-- the socket takes this many bytes, or all of them if there are fewer -/
  | took (n : ℕ)
  | wouldBlock
  | failed (code : ℕ)
deriving DecidableEq, Repr

structure Answers where
  now : ℕ := 0
  socket : Bool := true
  setNonBlocking : Bool := true
  connect : ConnectAnswer := .ok
  connectStart : ℕ := 0
  pollOut : PollAnswer := .notReady
  pollNow : ℕ := 0
  /-- `SO_ERROR`. `none`: `getsockopt` failed -/
  soError : Option ℕ := some 0
  pollIn : PollAnswer := .notReady
  recv : RecvAnswer := .wouldBlock
  /-- the answers to `send`, one for each call. Behind the last one the socket would block -/
  send : List SendAnswer := []
  /-- `NowMs()` in `Disconnect` -/
  gone : ℕ := 0
deriving DecidableEq, Repr

namespace World

variable (w : World)

def note (m : Message) : World := { w with log := w.log ++ [m] }

/-! ## The queue -/

/-- at most one message per minute -/
def logDrop (now : ℕ) : World :=
  if w.sender.lastDropLog = 0 ∨ dropLogMs ≤ now - w.sender.lastDropLog then
    { w.note (.queueFull w.sender.dropped) with sender := { w.sender with lastDropLog := now } }
  else w

end World

/-- no room left at the end of the buffer: the pending data is moved to the start -/
def Sender.compact (s : Sender) : Sender :=
  { s with
    buffer := put s.buffer 0 (slice s.buffer s.head s.tail)
    sendPos := s.sendPos - s.head
    tail := s.tail - s.head
    head := 0 }

/-- a line and its new line at the end of the queue -/
def Sender.store (s : Sender) (line : Bytes) : Sender :=
  { s with
    buffer := put s.buffer s.tail (line ++ [nl])
    tail := s.tail + (line.length + 1)
    lines := s.lines + 1 }

/-- `HasRoom` -/
def Sender.hasRoom (s : Sender) (len : ℕ) : Bool :=
  s.configured && decide (s.lines < s.maxLines) && decide (s.tail - s.head + len + 1 ≤ s.maxBytes)

/-- `IsValidLine`, and the check of `Enqueue`: there is a line, it is not empty, and it has no new line inside -/
def validLine : Option Bytes → Bool
  | none => false
  | some line => decide (0 < line.length) && decide (nl ∉ line)

namespace World

variable (w : World)

/-- `Enqueue`. `none` is a NULL pointer -/
def enqueue (now : ℕ) (line : Option Bytes) : World × Bool :=
  if w.sender.configured = false then (w, false)
  else if validLine line = false then
    ({ w with sender := { w.sender with rejected := w.sender.rejected + 1 } }, false)
  else
    let bytes := line.getD []
    if w.sender.maxLines ≤ w.sender.lines ∨ w.sender.maxBytes < w.sender.tail - w.sender.head + bytes.length + 1 then
      (logDrop { w with sender := { w.sender with dropped := w.sender.dropped + 1 } } now, false)
    else
      let s := if w.sender.maxBytes < w.sender.tail + bytes.length + 1 then w.sender.compact else w.sender
      ({ w with sender := s.store bytes, accepted := w.accepted ++ [bytes] }, true)

/-! ## The connection -/

/-- a line which was partly sent starts again from its beginning on the next connection -/
def disconnect (now : ℕ) (reason : Reason) : World :=
  let s := { w.sender with state := .disconnected, sendPos := w.sender.head, nextAttempt := now + reconnectMs }
  if w.sender.state = .connected then
    { w.note (.connectionLost reason) with sender := { s with loggedDown := true } }
  else if w.sender.loggedDown = false then
    { w.note (.cannotConnect reason) with sender := { s with loggedDown := true } }
  else { w with sender := s }

def connected : World :=
  { w.note .connected with
    sender := { w.sender with state := .connected, connects := w.sender.connects + 1, loggedDown := false }
    conns := w.conns ++ [[]] }

def startConnect (a : Answers) : World :=
  if a.socket = false then w.disconnect a.gone .cannotCreateSocket
  else if a.setNonBlocking = false then w.disconnect a.gone .cannotSetNonBlocking
  else
    match a.connect with
    | .ok => w.connected
    | .wouldBlock => { w with sender := { w.sender with state := .connecting, connectStart := a.connectStart } }
    | .failed code => w.disconnect a.gone (.error code)

def checkConnect (a : Answers) : World :=
  match a.pollOut with
  | .failed => w.disconnect a.gone .pollFailed
  | .notReady =>
    if connectMaxMs ≤ a.pollNow - w.sender.connectStart then w.disconnect a.gone .connectTimeout else w
  | .ready =>
    match a.soError with
    | none => w.disconnect a.gone .getsockoptFailed
    | some 0 => w.connected
    | some (code + 1) => w.disconnect a.gone (.error (code + 1))

/-- the forwarder never sends data. A readable socket means that the peer closed the connection -/
def checkPeerClosed (a : Answers) : World :=
  match a.pollIn with
  | .failed => w
  | .notReady => w
  | .ready =>
    match a.recv with
    | .data => w
    | .closed => w.disconnect a.gone .closedByForwarder
    | .wouldBlock => w
    | .failed => w.disconnect a.gone .connectionError

end World

/-! ## Sending -/

/-- the loop of `CompleteSentLines`. A round moves the head, so as many rounds as bytes are enough -/
def Sender.completeLoop : ℕ → Sender → Sender
  | 0, s => s
  | fuel + 1, s =>
    if s.head < s.sendPos then
      match find nl (slice s.buffer s.head s.sendPos) with
      | none => s
      | some n => completeLoop fuel { s with head := s.head + n + 1, sent := s.sent + 1, lines := s.lines - 1 }
    else s

/-- moves the head behind all lines which have been sent completely -/
def Sender.completeSentLines (s : Sender) : Sender :=
  let s := s.completeLoop (s.sendPos - s.head)
  if s.head = s.tail then { s with head := 0, sendPos := 0, tail := 0 } else s

/-- the bytes go to the socket of the last connection -/
def wire (bytes : Bytes) : List Bytes → List Bytes
  | [] => []
  | [conn] => [conn ++ bytes]
  | conn :: conns => conn :: wire bytes conns

namespace World

/-- `send` took `n` bytes -/
def took (w : World) (n : ℕ) : World :=
  { w with
    sender := { w.sender with sendPos := w.sender.sendPos + n }.completeSentLines
    conns := wire (slice w.sender.buffer w.sender.sendPos (w.sender.sendPos + n)) w.conns }

def sendQueued (gone : ℕ) : List SendAnswer → World → World
  | [], w => w
  | answer :: answers, w =>
    if w.sender.sendPos < w.sender.tail then
      match answer with
      | .took n =>
        let taken := min n (min (w.sender.tail - w.sender.sendPos) sendChunk)
        if 0 < taken then sendQueued gone answers (w.took taken) else w
      | .wouldBlock => w
      | .failed code => w.disconnect gone (.error code)
    else w

/-- `Pump` without a connection: the next attempt, when it is time for it -/
def tryConnect (w : World) (a : Answers) : World :=
  if w.sender.state = .disconnected ∧ w.sender.nextAttempt ≤ a.now then w.startConnect a else w

/-- `Pump` while it connects -/
def awaitConnect (w : World) (a : Answers) : World := if w.sender.state = .connecting then w.checkConnect a else w

/-- `Pump` with a connection -/
def useConnection (w : World) (a : Answers) : World :=
  if w.sender.state = .connected then
    let w := w.checkPeerClosed a
    if w.sender.state = .connected then sendQueued a.gone a.send w else w
  else w

/-- does what can be done without waiting -/
def pump (w : World) (a : Answers) : World :=
  if w.sender.configured = false then w else ((w.tryConnect a).awaitConnect a).useConnection a

/-- the loop of `Flush`, until the time `limit`. Each round is a `Pump` and the time behind it. `none`: it still
waits -/
def flushLoop (limit : ℕ) : List (Answers × ℕ) → World → World × Option Bool
  | [], w => (w, none)
  | (a, now) :: rounds, w =>
    let w := w.pump a
    if w.sender.lines = 0 then (w, some true)
    else if limit ≤ now then (w, some false)
    else flushLoop limit rounds w

def flush (w : World) (now timeoutMs : ℕ) (rounds : List (Answers × ℕ)) : World × Option Bool :=
  flushLoop (now + timeoutMs) rounds w

/-! ## Runs -/

inductive Op where
  | enqueue (now : ℕ) (line : Option Bytes)
  | pump (answers : Answers)
  | flush (now timeoutMs : ℕ) (rounds : List (Answers × ℕ))
deriving DecidableEq, Repr

def step (w : World) : Op → World
  | .enqueue now line => (w.enqueue now line).1
  | .pump answers => w.pump answers
  | .flush now timeoutMs rounds => (w.flush now timeoutMs rounds).1

def run (w : World) (ops : List Op) : World := ops.foldl step w

end World

end DominoLogForwarder.Domfwd
