import Exchange.Impl.Server.Outbound

/-!
# The inbound thread

The inbound half of `server.cpp`: SoupBinTCP packets out of TCP segments, logins, the
sessions they are for, and the notes to the outbound thread. The latency stamps of a
request are left out.

A copy that would go past the end of `partial` is `none`. `InboundHistory` records what
happened, and `acceptedAt` when, so that properties can be stated; no function of the
server reads them.
-/

namespace Exchange

/-- `Server::InboundConnection`: `partialBytes` has the first `partial_len` bytes of
`partial`. -/
structure InboundConnection where
  conn : ConnId := ⟨0, 0⟩
  /-- Accepted, and DISCONNECTED not yet pushed. -/
  isOpen : Bool := false
  loggedIn : Bool := false
  /-- Turned away: its input is ignored until it is gone. -/
  closing : Bool := false
  clientId : ℕ := 0
  openedTsc : ℕ := 0
  lastRecvTsc : ℕ := 0
  partialBytes : List UInt8 := []
  /-- How many notes had been pushed when it was accepted. -/
  acceptedAt : ℕ := 0

/-- A call of `handle_ouch_`: for which connection, as which client, and how many notes had
been pushed when the connection was accepted and when the call was made. -/
structure OuchCall where
  conn : ConnId
  clientId : ℕ
  acceptedAt : ℕ
  calledAt : ℕ

/-- What has happened: the packets passed to `handle_soup_packet_`, and the calls of
`handle_ouch_`. -/
structure InboundHistory where
  packets : List (ConnId × SoupPacket) := []
  calls : List OuchCall := []

/-- The state of the inbound thread; `connected` is `inbound_sessions_`, and `notes` and
`requests` are what has been pushed to the rings. -/
structure InboundThread where
  entry : OrderEntry := { band := Gateway.band }
  connections : ℕ → InboundConnection := fun _ => {}
  connected : ℕ → Bool := fun _ => false
  usernames : AList (fun _ : UInt64 => ℕ) := ∅
  nextClientId : ℕ := 1
  notes : List ServerNote := []
  requests : List EngineRequest := []
  history : InboundHistory := {}

namespace InboundThread

/-- `MAX_CLIENTS`. -/
def maxClients : ℕ := 64

def setConnection (t : InboundThread) (slot : ℕ) (connection : InboundConnection) : InboundThread :=
  { t with connections := Function.update t.connections slot connection }

/-- `Server::push_note_`. -/
def pushNote (t : InboundThread) (note : ServerNote) : InboundThread := { t with notes := t.notes ++ [note] }

def recordPacket (t : InboundThread) (slot : ℕ) (packet : SoupPacket) : InboundThread :=
  { t with history := { t.history with packets := t.history.packets ++ [((t.connections slot).conn, packet)] } }

def recordCall (t : InboundThread) (slot : ℕ) : InboundThread :=
  let connection := t.connections slot
  { t with history := { t.history with
      calls := t.history.calls ++ [⟨connection.conn, connection.clientId, connection.acceptedAt, t.notes.length⟩] } }

/-- `Server::reject_login_`. -/
def rejectLogin (t : InboundThread) (slot : ℕ) (reason : SoupReject) : InboundThread :=
  let connection := t.connections slot
  (t.setConnection slot { connection with closing := true }).pushNote (.loginRejected connection.conn reason)

/-- `std::toupper`. -/
def toUpper (ch : UInt8) : UInt8 := if chr 'a' ≤ ch ∧ ch ≤ chr 'z' then ch - 32 else ch

/-- A username as sessions are keyed on it: upper-case, padded with spaces. -/
def normalize (username : Vector UInt8 6) : List UInt8 :=
  username.toList.map fun ch => if ch = 0 then chr ' ' else toUpper ch

/-- The key of a username. -/
def pack (username : List UInt8) : UInt64 := username.foldl (fun key ch => key <<< 8 ||| ch.toUInt64) 0

/-- The session of a username, a new one if it has none and there is room. -/
def findClient (t : InboundThread) (username : UInt64) : Option (ℕ × InboundThread) :=
  match t.usernames.lookup username with
  | some clientId => some (clientId, t)
  | none =>
    if t.nextClientId ≤ maxClients then
      some (t.nextClientId, { t with
        nextClientId := t.nextClientId + 1
        usernames := t.usernames.insert username t.nextClientId })
    else none

/-- The names of the session a login may ask for. -/
def sessionNames : List (Vector UInt8 10) :=
  [alpha 10 [], soupSessionId ['S', 'I', 'M'], alpha 10 ['S', 'I', 'M']]

/-- The end of `login_`: the connection is logged in. -/
def letIn (t : InboundThread) (slot clientId sequence : ℕ) : InboundThread :=
  let connection := t.connections slot
  let t := { t with connected := Function.update t.connected clientId true }
  (t.setConnection slot { connection with loggedIn := true, clientId := clientId }).pushNote
    (.loginAccepted clientId connection.conn sequence)

/-- `login_` for a known session; `retainedFrom` is `retained_from_`. -/
def loginTo (retainedFrom : ℕ → ℕ) (t : InboundThread) (slot clientId sequence : ℕ) : InboundThread :=
  if t.connected clientId then t.rejectLogin slot .notAuthorized
  else if sequence ≠ 0 ∧ sequence < retainedFrom clientId then t.rejectLogin slot .sessionNotAvailable
  else t.letIn slot clientId sequence

/-- `Server::login_`. -/
def login (retainedFrom : ℕ → ℕ) (t : InboundThread) (slot : ℕ) (payload : List UInt8) : InboundThread :=
  match decodeSoupLoginRequest payload with
  | none => t.rejectLogin slot .notAuthorized
  | some login =>
    let username := normalize login.username
    if login.requestedSession ∉ sessionNames then t.rejectLogin slot .sessionNotAvailable
    else if username.all (· = chr ' ') then t.rejectLogin slot .notAuthorized
    else
      match t.findClient (pack username) with
      | none => t.rejectLogin slot .notAuthorized
      | some (clientId, t) => t.loginTo retainedFrom slot clientId login.requestedSequenceNumber

/-- `Server::disconnect_`. -/
def disconnect (t : InboundThread) (slot : ℕ) : InboundThread :=
  let connection := t.connections slot
  if !connection.isOpen then t
  else
    let t := if connection.loggedIn then { t with connected := Function.update t.connected connection.clientId false }
      else t
    let t := t.pushNote (.disconnected (if connection.loggedIn then connection.clientId else 0) connection.conn)
    t.setConnection slot { connection with isOpen := false, loggedIn := false, closing := true, partialBytes := [] }

/-- `Server::handle_ouch_`. -/
def handleOuch (t : InboundThread) (clientId : ℕ) (msg : OuchInboundFrame) : Option InboundThread :=
  if msg = .none then some t
  else do
    let (entry, translation) ← t.entry.translate clientId msg
    let t := { t with entry := entry, requests := t.requests ++ translation.request.toList }
    some (translation.note.elim t fun note => t.pushNote (.gateway note))

/-- The connection in a slot is read from: the answer of `handle_soup_packet_`. -/
def takesInput (t : InboundThread) (slot : ℕ) : Bool := (t.connections slot).isOpen && !(t.connections slot).closing

/-- `Server::handle_soup_packet_`. -/
def handleSoupPacket (retainedFrom : ℕ → ℕ) (t : InboundThread) (slot : ℕ) (packet : SoupPacket) :
    Option InboundThread :=
  let t := t.recordPacket slot packet
  let connection := t.connections slot
  match SoupPacketType.ofByte packet.type with
  | some .loginRequest => some (if connection.loggedIn then t else t.login retainedFrom slot packet.payload)
  | some .unsequencedData =>
    if connection.loggedIn then
      (t.recordCall slot).handleOuch connection.clientId (decodeInboundOuch packet.payload)
    else some t
  | some .logoutRequest => some (t.disconnect slot)
  | _ => some t

/-! ## Segments -/

/-- `kMaxInboundSoupPacket`, the size of `partial`. -/
def maxInboundSoupPacket : ℕ := 512

/-- `packet_len` of `on_data_`. -/
def packetLen (header : List UInt8) : ℕ := 2 + ofBigEndian (header.take 2)

/-- `too_long` of `on_data_`. -/
def tooLong (header : List UInt8) : Bool := packetLen header > maxInboundSoupPacket

/-- `bytes` copied behind the first bytes `kept` of `partial`. -/
def hold (t : InboundThread) (slot : ℕ) (kept bytes : List UInt8) : Option InboundThread :=
  if kept.length + bytes.length ≤ maxInboundSoupPacket then
    some (t.setConnection slot { t.connections slot with partialBytes := kept ++ bytes })
  else none

/-- The loop of `on_data_` over the packets of a segment; `fuel` is at least the number of
bytes. -/
def takePackets (retainedFrom : ℕ → ℕ) (slot : ℕ) : ℕ → InboundThread → List UInt8 → Option InboundThread
  | 0, t, _ => some t
  | fuel + 1, t, bytes =>
    if bytes = [] then some t
    else
      match parseSoupPacket bytes with
      | .packet packet consumed => do
        let t ← t.handleSoupPacket retainedFrom slot packet
        if t.takesInput slot then takePackets retainedFrom slot fuel t (bytes.drop consumed) else some t
      | .malformed => some (t.disconnect slot)
      | .incomplete =>
        if 2 ≤ bytes.length ∧ tooLong bytes then some (t.disconnect slot) else t.hold slot [] bytes

/-- `on_data_` with the length field of a packet in `partial`: the packet is finished,
then come the others. -/
def finishPacket (retainedFrom : ℕ → ℕ) (t : InboundThread) (slot : ℕ) (bytes : List UInt8) :
    Option InboundThread := do
  let held := (t.connections slot).partialBytes
  let total := packetLen held
  -- the difference is one of unsigned numbers
  let take := if held.length ≤ total then min (total - held.length) bytes.length else bytes.length
  let t ← t.hold slot held (bytes.take take)
  let bytes := bytes.drop take
  if held.length + take < total then some t
  else
    let connection := t.connections slot
    let t := t.setConnection slot { connection with partialBytes := [] }
    match parseSoupPacket (connection.partialBytes.take total) with
    | .packet packet _ => do
      let t ← t.handleSoupPacket retainedFrom slot packet
      if t.takesInput slot then takePackets retainedFrom slot bytes.length t bytes else some t
    | _ => some (t.disconnect slot)

/-- `Server::on_data_`. -/
def onData (retainedFrom : ℕ → ℕ) (t : InboundThread) (slot : ℕ) (bytes : List UInt8) : Option InboundThread :=
  let held := (t.connections slot).partialBytes
  if held = [] then takePackets retainedFrom slot bytes.length t bytes
  else if held.length < 2 then do
    let take := min (2 - held.length) bytes.length
    let t ← t.hold slot held (bytes.take take)
    if held.length + take < 2 then some t
    else if tooLong (t.connections slot).partialBytes then some (t.disconnect slot)
    else t.finishPacket retainedFrom slot (bytes.drop take)
  else t.finishPacket retainedFrom slot bytes

/-! ## Events -/

/-- `dpdk::tcp_event`; the constructor is its type. -/
inductive TcpEvent
  | accepted (conn : ConnId)
  | data (conn : ConnId) (bytes : List UInt8)
  | peerClosed (conn : ConnId)
  | closed (conn : ConnId)
  | reset (conn : ConnId)

/-- A connection is accepted. -/
def accept (t : InboundThread) (conn : ConnId) (recvTsc : ℕ) : InboundThread :=
  t.setConnection conn.slot
    { conn := conn, isOpen := true, openedTsc := recvTsc, lastRecvTsc := recvTsc, acceptedAt := t.notes.length }

/-- A connection has ended, if it is the one its slot has now. -/
def connEnded (t : InboundThread) (conn : ConnId) : InboundThread :=
  if (t.connections conn.slot).conn ≠ conn then t else t.disconnect conn.slot

/-- `Server::on_tcp_event_`. -/
def onTcpEvent (retainedFrom : ℕ → ℕ) (recvTsc : ℕ) (t : InboundThread) : TcpEvent → Option InboundThread
  | .accepted conn => some (t.accept conn recvTsc)
  | .data conn bytes =>
    let connection := t.connections conn.slot
    if connection.conn ≠ conn ∨ !t.takesInput conn.slot then some t
    else (t.setConnection conn.slot { connection with lastRecvTsc := recvTsc }).onData retainedFrom conn.slot bytes
  | .peerClosed conn => some (t.connEnded conn)
  | .closed conn => some (t.connEnded conn)
  | .reset conn => some (t.connEnded conn)

/-- `kIdleTimeoutNs`. -/
def idleTimeoutNs : ℕ := 15000 * 1000000

/-- `kLoginTimeoutNs`. -/
def loginTimeoutNs : ℕ := 30000 * 1000000

/-- A connection has been silent, or has not logged in, for too long. -/
def expired (clock : Clock) (now : ℕ) (connection : InboundConnection) : Bool :=
  if connection.loggedIn then clock.ticksToNs (now - min now connection.lastRecvTsc) > idleTimeoutNs
  else clock.ticksToNs (now - min now connection.openedTsc) > loginTimeoutNs

/-- `Server::check_timeouts_`. -/
def checkTimeouts (clock : Clock) (now : ℕ) (t : InboundThread) : InboundThread :=
  (List.range Outbound.maxConnections).foldl
    (fun t slot =>
      if (t.connections slot).isOpen && expired clock now (t.connections slot) then t.disconnect slot else t) t

/-- What the inbound thread does next. `retained_from_` is written by the outbound thread,
so it is what it happens to be. -/
inductive Step
  | tcp (retainedFrom : ℕ → ℕ) (recvTsc : ℕ) (event : TcpEvent)
  | scan (now : ℕ)

def step (clock : Clock) (t : InboundThread) : Step → Option InboundThread
  | .tcp retainedFrom recvTsc event => t.onTcpEvent retainedFrom recvTsc event
  | .scan now => some (t.checkTimeouts clock now)

def run (clock : Clock) : InboundThread → List Step → Option InboundThread
  | t, [] => some t
  | t, step :: steps => do
    let t ← t.step clock step
    run clock t steps

/-- An event with data given as one of the packets in it; a connection that has timed out
is `ended` as well. -/
inductive Event
  | accepted (conn : ConnId)
  | packet (conn : ConnId) (packet : SoupPacket)
  | ended (conn : ConnId)

/-- What an event comes to, packet by packet. -/
def onEvent (retainedFrom : ℕ → ℕ) (t : InboundThread) : Event → Option InboundThread
  | .accepted conn => some (t.accept conn 0)
  | .packet conn packet =>
    if (t.connections conn.slot).conn ≠ conn ∨ !t.takesInput conn.slot then some t
    else t.handleSoupPacket retainedFrom conn.slot packet
  | .ended conn => some (t.connEnded conn)

end InboundThread

end Exchange
