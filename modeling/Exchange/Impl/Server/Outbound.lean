import Exchange.Impl.Engine.Orderbook
import Exchange.Impl.Server.Gateway

/-!
# The outbound thread

The outbound half of `server.cpp`: what becomes of the notes of the inbound thread and
of the engine's events, and the bytes that are sent on each connection. The latency
samples of `OutboundSession` are left out: nothing that is sent depends on them.

The TCP stack is a `Tcp`: each call of `tcp_sender::send` accepts as many bytes as the
stack likes. `OutboundHistory` records what happened, so that properties can be stated;
no function of the server reads it. Dereferencing a null `log` is `none`.
-/

namespace Exchange

/-- `dpdk::conn_id`. -/
structure ConnId where
  slot : ℕ
  generation : ℕ
  deriving DecidableEq

/-- `Server::ServerNote`; the constructor is its kind. -/
inductive ServerNote
  | gateway (gateway : GatewayNote)
  | loginAccepted (clientId : ℕ) (conn : ConnId) (sequence : ℕ)
  | loginRejected (conn : ConnId) (rejectReason : SoupReject)
  | disconnected (clientId : ℕ) (conn : ConnId)
  deriving DecidableEq

/-- A call of the stack. -/
inductive TcpCall
  | send (conn : ConnId)
  | close (conn : ConnId)
  deriving DecidableEq

/-- The TCP stack: `takes i` is the most bytes call `i` of `send` accepts, `sendableAt i`
the answer of `sendable` after `i` calls. -/
structure Tcp where
  takes : ℕ → ℕ
  sendableAt : ℕ → Bool
  calls : ℕ := 0
  /-- The bytes accepted on each connection. -/
  accepted : ConnId → List UInt8 := fun _ => []
  /-- The calls of `send` and `close`. -/
  made : List TcpCall := []

namespace Tcp

/-- `tcp_sender::send`: a prefix of the bytes is accepted. -/
def send (t : Tcp) (conn : ConnId) (bytes : List UInt8) : ℕ × Tcp :=
  let n := min (t.takes t.calls) bytes.length
  (n, { t with
    calls := t.calls + 1
    accepted := Function.update t.accepted conn (t.accepted conn ++ bytes.take n)
    made := t.made ++ [.send conn] })

/-- `tcp_sender::close`. -/
def close (t : Tcp) (conn : ConnId) : Tcp := { t with made := t.made ++ [.close conn] }

/-- `tcp_sender::sendable`. -/
def sendable (t : Tcp) : Bool := t.sendableAt t.calls

end Tcp

/-- The clocks: the values `__rdtsc` reads, and `TscClock`. -/
structure Clock where
  rdtsc : ℕ → ℕ
  ticksToNs : ℕ → ℕ
  nsSinceMidnight : ℕ → UInt64

/-- `OutboundConnection`: `control` has the first `control_len` bytes of the array. -/
structure OutboundConnection where
  conn : ConnId := ⟨0, 0⟩
  isOpen : Bool := false
  closeWhenFlushed : Bool := false
  dirty : Bool := false
  clientId : ℕ := 0
  lastSentTsc : ℕ := 0
  control : List UInt8 := []
  controlSent : ℕ := 0
  closedGeneration : ℕ := 0

/-- `OutboundSession`. -/
structure OutboundSession where
  log : Option SessionLog := none
  slot : Option ℕ := none
  cursor : ℕ := 0

/-- How a login was answered. -/
inductive Login
  | accepted (clientId start : ℕ)
  | rejected (reason : SoupReject)

/-- What has happened: how the login of each connection was answered, the packets
appended to each session, the connections that lost a control packet, and those that the
last flush could not send to. -/
structure OutboundHistory where
  logins : ConnId → Option Login := fun _ => none
  appended : ℕ → List (List UInt8) := fun _ => []
  overwritten : List ConnId := []
  unsendable : ConnId → Bool := fun _ => false

/-- The state of the outbound thread. -/
structure Outbound where
  soupReplayBytes : ℕ
  clock : Clock
  tcp : Tcp
  /-- How often the time stamp counter was read. -/
  reads : ℕ := 0
  responder : OuchResponder := {}
  connections : ℕ → OutboundConnection := fun _ => {}
  sessions : ℕ → OutboundSession := fun _ => {}
  dirty : List ℕ := []
  retainedFrom : ℕ → ℕ := fun _ => 0
  history : OutboundHistory := {}

namespace Outbound

/-- `kMaxConnections`, for `MAX_CLIENTS` 64. -/
def maxConnections : ℕ := 2 * 64

/-- `kSoupHeartbeatIntervalNs`. -/
def soupHeartbeatIntervalNs : ℕ := 1000000000

/-- The session id of Login Accepted, `SOUP_SESSION`. -/
def soupSession : Vector UInt8 10 := soupSessionId ['S', 'I', 'M']

/-- `Login Accepted` from message `start` on. -/
def loginAcceptedPacket (start : ℕ) : List UInt8 :=
  encodeSoupLoginAccepted { session := soupSession, sequenceNumber := start } (soupHeaderLen + soupLoginAcceptedLen)

/-- `Login Rejected`. -/
def loginRejectedPacket (reason : SoupReject) : List UInt8 := encodeSoupLoginRejected reason.byte (soupHeaderLen + 1)

/-- `Server Heartbeat`. -/
def heartbeatPacket : List UInt8 := encodeSoupEmpty .serverHeartbeat soupHeaderLen

def setConnection (s : Outbound) (slot : ℕ) (connection : OutboundConnection) : Outbound :=
  { s with connections := Function.update s.connections slot connection }

def setSession (s : Outbound) (clientId : ℕ) (session : OutboundSession) : Outbound :=
  { s with sessions := Function.update s.sessions clientId session }

/-- `__rdtsc`. -/
def rdtsc (s : Outbound) : ℕ × Outbound := (s.clock.rdtsc s.reads, { s with reads := s.reads + 1 })

/-- A control packet replaces what is left of another. -/
def recordOverwritten (s : Outbound) (connection : OutboundConnection) : Outbound :=
  if connection.control = [] then s
  else { s with history := { s.history with overwritten := s.history.overwritten ++ [connection.conn] } }

def recordLogin (s : Outbound) (conn : ConnId) (login : Login) : Outbound :=
  { s with history := { s.history with logins := Function.update s.history.logins conn (some login) } }

def recordAppended (s : Outbound) (clientId : ℕ) (packet : List UInt8) : Outbound :=
  { s with history := { s.history with
      appended := Function.update s.history.appended clientId (s.history.appended clientId ++ [packet]) } }

/-- Whether a flush of the connection saw `sendable` return false. -/
def recordUnsendable (s : Outbound) (conn : ConnId) (unsendable : Bool) : Outbound :=
  { s with history := { s.history with unsendable := Function.update s.history.unsendable conn unsendable } }

/-- `Server::mark_dirty_` of the connection in a slot. -/
def markDirty (s : Outbound) (slot : ℕ) : Outbound :=
  let connection := s.connections slot
  if connection.dirty then s
  else
    let s := s.setConnection slot { connection with dirty := true }
    { s with dirty := s.dirty ++ [connection.conn.slot] }

/-- `Server::send_control_`. -/
def sendControl (s : Outbound) (slot : ℕ) (packet : List UInt8) : Outbound :=
  let connection := s.connections slot
  let s := s.recordOverwritten connection
  (s.setConnection slot { connection with control := packet, controlSent := 0 }).markDirty slot

/-- `Server::open_connection_`: `dirty` and `closed_generation` describe the slot. -/
def openConnection (s : Outbound) (conn : ConnId) : Outbound :=
  let connection := s.connections conn.slot
  let s := s.recordOverwritten connection
  let (now, s) := s.rdtsc
  s.setConnection conn.slot {
    conn := conn, isOpen := true, dirty := connection.dirty, closedGeneration := connection.closedGeneration,
    lastSentTsc := now }

/-- `Server::close_`. -/
def close (s : Outbound) (conn : ConnId) : Outbound :=
  let connection := s.connections conn.slot
  if connection.closedGeneration = conn.generation then s
  else
    let connection := { connection with closedGeneration := conn.generation }
    let s := { s.setConnection conn.slot connection with tcp := s.tcp.close conn }
    if connection.conn ≠ conn ∨ !connection.isOpen then s
    else
      let session := s.sessions connection.clientId
      let s := if connection.clientId ≠ 0 ∧ session.slot = some conn.slot then
          s.setSession connection.clientId { session with slot := none }
        else s
      s.setConnection conn.slot { connection with
        isOpen := false, clientId := 0, control := [], controlSent := 0, closeWhenFlushed := false }

/-- A login turned away: Login Rejected, then the connection is closed. -/
def rejectLogin (s : Outbound) (conn : ConnId) (reason : SoupReject) : Outbound :=
  let s := (s.recordLogin conn (.rejected reason)).sendControl conn.slot (loginRejectedPacket reason)
  s.setConnection conn.slot { s.connections conn.slot with closeWhenFlushed := true }

/-- The session's log, made on its first login. -/
def ensureLog (s : Outbound) (clientId : ℕ) : SessionLog × Outbound :=
  let session := s.sessions clientId
  match session.log with
  | some log => (log, s)
  | none =>
    let log := SessionLog.new s.soupReplayBytes
    (log, { s.setSession clientId { session with log := some log } with
      retainedFrom := Function.update s.retainedFrom clientId log.firstSeq })

/-- `Server::accept_login_`. -/
def acceptLogin (s : Outbound) (clientId : ℕ) (conn : ConnId) (sequence : ℕ) : Outbound :=
  let (log, s) := s.ensureLog clientId
  let s := s.openConnection conn
  let start := if sequence = 0 ∨ sequence > log.nextSeq then log.nextSeq else sequence
  match log.offsetOf start with
  | none => s.rejectLogin conn .sessionNotAvailable
  | some offset =>
    let s := s.setConnection conn.slot { s.connections conn.slot with clientId := clientId }
    let s := s.setSession clientId { s.sessions clientId with slot := some conn.slot, cursor := offset }
    (s.recordLogin conn (.accepted clientId start)).sendControl conn.slot (loginAcceptedPacket start)

/-- A connected client whose unsent backlog `len` more bytes would overwrite is dropped. -/
def dropSlow (s : Outbound) (clientId : ℕ) (log : SessionLog) (len : ℕ) : Outbound :=
  match (s.sessions clientId).slot with
  | none => s
  | some slot =>
    if log.wouldOverwrite (s.sessions clientId).cursor len then s.close (s.connections slot).conn else s

/-- `retained_from_` is stored if appending dropped messages. -/
def storeRetained (s : Outbound) (clientId firstBefore first : ℕ) : Outbound :=
  if first ≠ firstBefore then { s with retainedFrom := Function.update s.retainedFrom clientId first } else s

/-- `Server::send_sequenced_`. -/
def sendSequenced (s : Outbound) (clientId : ℕ) (packet : List UInt8) : Outbound :=
  match (s.sessions clientId).log with
  | none => s
  | some log =>
    let s := s.dropSlow clientId log packet.length
    let log' := log.append packet
    let s := s.setSession clientId { s.sessions clientId with log := some log' }
    let s := (s.recordAppended clientId packet).storeRetained clientId log.firstSeq log'.firstSeq
    match (s.sessions clientId).slot with
    | none => s
    | some slot => s.markDirty slot

/-- `Server::send_ouch_`. -/
def sendOuch (s : Outbound) (response : OuchResponse) : Outbound :=
  let packet := encodeSoupSequenced response.ouch maxSoupPacket
  if packet.length = 0 then s else s.sendSequenced response.clientId packet

/-- `Server::on_note_`. -/
def onNote (s : Outbound) : ServerNote → Outbound
  | .gateway gateway =>
    let (now, s) := s.rdtsc
    let (responder, response) := s.responder.onNote gateway (s.clock.nsSinceMidnight now)
    let s := { s with responder := responder }
    match response with
    | none => s
    | some response => s.sendOuch response
  | .loginAccepted clientId conn sequence => s.acceptLogin clientId conn sequence
  | .loginRejected conn rejectReason => (s.openConnection conn).rejectLogin conn rejectReason
  | .disconnected _ conn => s.close conn

/-- The outbound loop on an event of the engine. -/
def onEvent (s : Outbound) (event : EngineEvent) : Outbound :=
  let (responder, response) := s.responder.onEvent event.toEvent (s.clock.nsSinceMidnight event.enginePushTsc)
  let s := { s with responder := responder }
  match response with
  | none => s
  | some response => s.sendOuch response

/-! ## Sending -/

/-- The first half of `flush_connection_`, the pending control packet: the answers are
`done` and `sent_any`. -/
def flushControl (s : Outbound) (slot : ℕ) : Bool × Bool × Outbound :=
  let connection := s.connections slot
  if connection.controlSent < connection.control.length then
    let (n, tcp) := s.tcp.send connection.conn (connection.control.drop connection.controlSent)
    let sent := connection.controlSent + n
    let done := sent = connection.control.length
    (done, decide (0 < n), { s with tcp := tcp }.setConnection slot
      (if done then { connection with control := [], controlSent := 0 } else { connection with controlSent := sent }))
  else (true, false, s)

/-- The loop of `flush_connection_` over the log; the first answer is `sent_any`. `fuel`
is at least the number of bytes left. -/
def flushLog (conn : ConnId) (clientId : ℕ) (log : SessionLog) : ℕ → Bool → Outbound → Bool × Outbound
  | 0, sentAny, s => (sentAny, s)
  | fuel + 1, sentAny, s =>
    let session := s.sessions clientId
    if session.cursor < log.endOffset then
      let (n, tcp) := s.tcp.send conn (log.contiguousFrom session.cursor)
      let s := { s with tcp := tcp }
      if n = 0 then (sentAny, s)
      else flushLog conn clientId log fuel true (s.setSession clientId { session with cursor := session.cursor + n })
    else (sentAny, s)

/-- The second half of `flush_connection_`, the log of the session. -/
def flushSession (s : Outbound) (conn : ConnId) (clientId : ℕ) (sentAny : Bool) : Option (Bool × Bool × Outbound) := do
  let log ← (s.sessions clientId).log
  let (sentAny, s) := flushLog conn clientId log (log.endOffset - (s.sessions clientId).cursor) sentAny s
  some (decide ((s.sessions clientId).cursor = log.endOffset), sentAny, s)

/-- `last_sent_tsc` set to now. -/
def stampSent (s : Outbound) (slot : ℕ) : Outbound :=
  let (now, s) := s.rdtsc
  s.setConnection slot { s.connections slot with lastSentTsc := now }

/-- The end of `flush_connection_`. -/
def endFlush (s : Outbound) (slot : ℕ) (conn : ConnId) (done sentAny : Bool) : Bool × Outbound :=
  let s := if sentAny then s.stampSent slot else s
  let s := s.recordUnsendable conn (!done && !s.tcp.sendable)
  if !done then (!s.tcp.sendable, s)
  else (true, if (s.connections slot).closeWhenFlushed then s.close conn else s)

/-- `Server::flush_connection_`: false while the connection has bytes left to send. -/
def flushConnection (s : Outbound) (slot : ℕ) : Option (Bool × Outbound) :=
  let conn := (s.connections slot).conn
  let clientId := (s.connections slot).clientId
  let (done, sentAny, s) := s.flushControl slot
  (if done ∧ clientId ≠ 0 then s.flushSession conn clientId sentAny else some (done, sentAny, s)).map
    fun (done, sentAny, s) => s.endFlush slot conn done sentAny

/-- The loop of `flush_` over the slots that have something to send; those that are kept
go to `kept`. -/
def flushDirty : List ℕ → List ℕ → Outbound → Option Outbound
  | [], kept, s => some { s with dirty := kept }
  | slot :: slots, kept, s =>
    if (s.connections slot).isOpen then do
      let (done, s) ← s.flushConnection slot
      if done then flushDirty slots kept (s.setConnection slot { s.connections slot with dirty := false })
      else flushDirty slots (kept ++ [slot]) s
    else flushDirty slots kept (s.setConnection slot { s.connections slot with dirty := false })

/-- `Server::flush_`. -/
def flush (s : Outbound) : Option Outbound := flushDirty s.dirty [] s

/-- `Server::heartbeat_` on one connection. -/
def heartbeatOne (s : Outbound) (now slot : ℕ) : Option Outbound :=
  let connection := s.connections slot
  if !connection.isOpen ∨ connection.clientId = 0 ∨ connection.control ≠ [] then some s
  else if s.clock.ticksToNs (now - min now connection.lastSentTsc) ≤ soupHeartbeatIntervalNs then some s
  else do
    let log ← (s.sessions connection.clientId).log
    if (s.sessions connection.clientId).cursor ≠ log.endOffset then some s
    else some (s.sendControl slot heartbeatPacket)

/-- `Server::heartbeat_`. -/
def heartbeat (s : Outbound) (now : ℕ) : Option Outbound :=
  (List.range maxConnections).foldlM (fun s slot => s.heartbeatOne now slot) s

/-- The end of `Server::outbound_`: a FIN to everyone still connected. -/
def closeAll (s : Outbound) : Outbound :=
  (List.range maxConnections).foldl
    (fun s slot => if (s.connections slot).isOpen then s.close (s.connections slot).conn else s) s

/-! ## Runs -/

/-- What the outbound thread does next. -/
inductive Step
  | note (note : ServerNote)
  | event (event : EngineEvent)
  | flush
  | heartbeat
  | closeAll

def step (s : Outbound) : Step → Option Outbound
  | .note note => some (s.onNote note)
  | .event event => some (s.onEvent event)
  | .flush => s.flush
  | .heartbeat =>
    let (now, s) := s.rdtsc
    s.heartbeat now
  | .closeAll => some s.closeAll

def run : Outbound → List Step → Option Outbound
  | s, [] => some s
  | s, step :: steps => do
    let s ← s.step step
    run s steps

end Outbound

end Exchange
