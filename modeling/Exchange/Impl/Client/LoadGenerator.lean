import Exchange.Impl.Server.Validation
import Exchange.Impl.Soup
import Mathlib.Logic.Function.Basic

/-!
# The client

One client of `load_generator.cpp`: what it does with the bytes it receives, and the
Login Request it opens a connection with. The orders it sends (`buildBatch`) and the loop
that drives it are in `Exchange.Impl.Client.EventLoop`: nothing it receives is read
differently for them.

`handled` records the payloads that were handled, so that properties can be stated; no
function of the client reads it.
-/

namespace Exchange

/-! ## Buffers -/

/-- `Buffer`: `data` has the first `len_` bytes. -/
structure Buffer where
  data : List UInt8 := []
  readOff : ℕ := 0

namespace Buffer

def length (b : Buffer) : ℕ := b.data.length - b.readOff

def view (b : Buffer) : List UInt8 := b.data.drop b.readOff

/-- The beginning of `read_from`: a full buffer is compacted. -/
def compact (capacity : ℕ) (b : Buffer) : Buffer :=
  if 0 < b.readOff ∧ b.data.length = capacity then { data := b.view } else b

/-- `Buffer::read_from`, of a socket that has these bytes: how many were read. -/
def readFrom (capacity : ℕ) (b : Buffer) (bytes : List UInt8) : ℕ × Buffer :=
  let b := b.compact capacity
  let read := bytes.take (capacity - b.data.length)
  (read.length, { b with data := b.data ++ read })

/-- `Buffer::advance`. -/
def advance (b : Buffer) (n : ℕ) : Buffer :=
  if b.readOff + n ≥ b.data.length then {} else { b with readOff := b.readOff + n }

end Buffer

/-! ## The client -/

/-- `ClientState::ActiveOrder`. -/
structure ActiveOrder where
  userRefNum : UInt32
  side : Side

/-- `ClientState`, without what only the sending side uses. Sockets are numbered in the
order they are made; `fd` is none for -1. -/
structure ClientState where
  clientId : ℕ
  fd : Option ℕ := none
  connecting : Bool := false
  loggedIn : Bool := false
  readBuf : Buffer := {}
  acksPending : ℕ := 0
  reconnectAtNs : ℕ := 0
  reconnectBackoffMs : ℕ := 0
  nextSequence : ℕ := 1
  activeOrders : ℕ → ActiveOrder := fun _ => ⟨0, .bid⟩
  activeWrite : ℕ := 0
  activeCount : ℕ := 0
  activeRead : ℕ := 0
  responsesAck : ℕ := 0
  responsesMatch : ℕ := 0
  responsesErr : ℕ := 0
  responsesCanceled : ℕ := 0
  responsesReplaced : ℕ := 0
  ordersInFlight : Int := 0
  handled : List (List UInt8) := []

namespace ClientState

/-- `kReadBufBytes`. -/
def readBufBytes : ℕ := 64 * 1024

/-- `MAX_ACTIVE_ORDERS`. -/
def maxActiveOrders : ℕ := 32

/-- `RECONNECT_DELAY_MS`. -/
def reconnectDelayMs : ℕ := 1000

/-- `LoadGenerator::connectClient`, on a new socket. -/
def connectClient (cs : ClientState) (fd : ℕ) : ClientState :=
  { cs with
    fd := some fd, connecting := true, loggedIn := false, readBuf := {}, acksPending := 0, activeWrite := 0,
    activeCount := 0, activeRead := 0 }

/-- The username of a client: the prefix and four digits of its id. -/
def username (clientId : ℕ) : Vector UInt8 6 :=
  alpha 6 ['L', 'G', digit (clientId / 1000), digit (clientId / 100), digit (clientId / 10), digit clientId]
where
  digit (n : ℕ) : Char := Char.ofNat (48 + n % 10)

/-- The Login Request of a client. -/
def loginRequest (cs : ClientState) : SoupLoginRequest where
  username := username cs.clientId
  password := alpha 10 ['L', 'O', 'A', 'D', 'G', 'E', 'N']
  requestedSession := alpha 10 []
  requestedSequenceNumber := cs.nextSequence

/-- `LoadGenerator::handleConnect`: the connection is there, and the Login Request is
written. -/
def handleConnect (cs : ClientState) : ClientState × List UInt8 :=
  ({ cs with connecting := false }, encodeSoupLoginRequest cs.loginRequest (soupHeaderLen + soupLoginRequestLen))

/-- `LoadGenerator::reconnect`: the connection is closed, and the next one is made after a
while. -/
def reconnect (cs : ClientState) (now : ℕ) : ClientState :=
  if cs.fd = none then cs
  else
    let backoff := if cs.reconnectBackoffMs < reconnectDelayMs then cs.reconnectBackoffMs + 50
      else cs.reconnectBackoffMs
    { cs with
      fd := none, loggedIn := false, ordersInFlight := cs.ordersInFlight - cs.acksPending, acksPending := 0,
      reconnectBackoffMs := backoff, reconnectAtNs := now + backoff * 1000000 }

/-- `LoadGenerator::rememberOrder`. -/
def rememberOrder (cs : ClientState) (userRefNum : UInt32) (side : Side) : ClientState :=
  { cs with
    activeOrders := Function.update cs.activeOrders (cs.activeWrite % maxActiveOrders) ⟨userRefNum, side⟩
    activeWrite := cs.activeWrite + 1
    activeCount := if cs.activeCount < maxActiveOrders then cs.activeCount + 1 else cs.activeCount }

/-- An order is remembered if its side is one. -/
def rememberSide (cs : ClientState) (userRefNum : UInt32) (side : UInt8) : ClientState :=
  (Validation.toEngineSide side).elim cs (cs.rememberOrder userRefNum)

/-- `answer_enter`: an Enter is answered, which frees its slot. -/
def answerEnter (cs : ClientState) : ClientState :=
  if cs.acksPending > 0 then
    { cs with acksPending := cs.acksPending - 1, ordersInFlight := cs.ordersInFlight - 1 }
  else cs

/-- `LoadGenerator::handleOuch`. -/
def handleOuch (cs : ClientState) : OuchOutboundFrame → Bool × ClientState
  | .orderAccepted a =>
    let cs := cs.answerEnter
    (true, { cs with responsesAck := cs.responsesAck + 1 }.rememberSide a.userRefNum a.side)
  | .orderRejected _ =>
    let cs := cs.answerEnter
    (true, { cs with responsesErr := cs.responsesErr + 1 })
  | .orderExecuted _ => (true, { cs with responsesMatch := cs.responsesMatch + 1 })
  | .orderCanceled _ => (true, { cs with responsesCanceled := cs.responsesCanceled + 1 })
  | .orderReplaced r =>
    (true, { cs with responsesReplaced := cs.responsesReplaced + 1 }.rememberSide r.userRefNum r.side)
  | .none => (false, cs)

/-- A Sequenced Data packet of a logged-in client. -/
def handleSequenced (cs : ClientState) (payload : List UInt8) : Bool × ClientState :=
  let cs := { cs with nextSequence := (cs.nextSequence + 1) % 2 ^ 64 }
  match decodeOutboundOuch payload with
  | .none => (false, cs)
  | msg => { cs with handled := cs.handled ++ [payload] }.handleOuch msg

/-- `LoadGenerator::handleSoupPacket`. -/
def handleSoupPacket (cs : ClientState) (packet : SoupPacket) : Bool × ClientState :=
  match SoupPacketType.ofByte packet.type with
  | some .loginAccepted =>
    match decodeSoupLoginAccepted packet.payload with
    | none => (false, cs)
    | some accepted =>
      (true, { cs with nextSequence := accepted.sequenceNumber, loggedIn := true, reconnectBackoffMs := 0 })
  | some .loginRejected => (false, cs)
  | some .sequencedData => if cs.loggedIn then cs.handleSequenced packet.payload else (false, cs)
  | some .serverHeartbeat => (true, cs)
  | some .debug => (true, cs)
  | _ => (false, cs)

/-- The loop of `handleReadable`; `fuel` is at least the number of bytes in the buffer. -/
def handlePackets (now : ℕ) : ℕ → ClientState → ClientState
  | 0, cs => cs
  | fuel + 1, cs =>
    if cs.readBuf.length = 0 then cs
    else
      match parseSoupPacket cs.readBuf.view with
      | .incomplete => cs
      | .malformed => cs.reconnect now
      | .packet packet consumed =>
        let (ok, cs) := cs.handleSoupPacket packet
        if ok then handlePackets now fuel { cs with readBuf := cs.readBuf.advance consumed } else cs.reconnect now

/-- `LoadGenerator::handleReadable`, of a socket that has these bytes; no bytes stand for
the end of the stream. -/
def handleReadable (cs : ClientState) (now : ℕ) (bytes : List UInt8) : ClientState :=
  let (n, readBuf) := cs.readBuf.readFrom readBufBytes bytes
  let cs := { cs with readBuf := readBuf }
  if n = 0 then cs.reconnect now else handlePackets now cs.readBuf.length cs

end ClientState

end Exchange
