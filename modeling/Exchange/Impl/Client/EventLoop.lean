import Exchange.Impl.Client.LoadGenerator
import Exchange.Impl.Client.OrderFactory
import Exchange.Impl.Server.Outbound
import Mathlib.Order.Monotone.Defs

/-!
# The event loop of the load generator

`load_generator.cpp`: its clients, the epoll loop that drives them, and what they send.
What the kernel answers comes from outside (`Kernel`), so that a run is any that the
system calls allow. What a client does with the packets it receives is in
`Exchange.Impl.Client.LoadGenerator`.

`log` records what a client did, and its state after that, so that properties can be
stated; no function reads it.
-/

namespace Exchange

/-! ## The write buffer -/

/-- `Buffer`, with what only its write path uses. -/
structure WriteBuffer extends Buffer where
  bytesWritten : ℕ := 0

namespace WriteBuffer

/-- `kWriteBufBytes`. -/
def writeBufBytes : ℕ := 4096

def remainingToSend (b : WriteBuffer) : ℕ := b.data.length - b.bytesWritten

/-- What `write_to` offers to `send()`. -/
def unsent (b : WriteBuffer) : List UInt8 := b.data.drop b.bytesWritten

def hasRoom (b : WriteBuffer) (n : ℕ) : Bool := b.data.length + n ≤ writeBufBytes

def append (b : WriteBuffer) (src : List UInt8) : Bool × WriteBuffer :=
  if b.hasRoom src.length then (true, { b with data := b.data ++ src }) else (false, b)

/-- `Buffer::try_reset`. It leaves the read position. -/
def tryReset (b : WriteBuffer) : WriteBuffer :=
  if b.bytesWritten = b.data.length then { b with data := [], bytesWritten := 0 } else b

end WriteBuffer

/-! ## The kernel -/

/-- What `connect()` returns: 0, `EINPROGRESS`, or another error. -/
inductive ConnectResult
  | connected
  | inProgress
  | failed

/-- What `send()` returns; it takes no more bytes than it is offered. -/
inductive SendResult
  | sent (n : ℕ)
  | again
  | failed

/-- What `recv()` returns: bytes, as far as there is room, or an error. No bytes are the
end of the stream. -/
inductive RecvResult
  | bytes (bytes : List UInt8)
  | again
  | failed

/-- The events of a socket: `EPOLLERR` or `EPOLLHUP`, `EPOLLIN` and `EPOLLOUT`. -/
structure Ready where
  error : Bool := false
  input : Bool := false
  output : Bool := false

/-- What `epoll_wait()` returns: the clients, by index, whose sockets have events. -/
inductive EpollResult
  | ready (events : List (ℕ × Ready))
  | interrupted
  | failed

/-- The answers to the system calls from here on, call by call, and the numbers the order
factory draws. `clock` is the time of each call whose time matters: it does not go back. -/
structure Kernel where
  clock : ℕ → ℕ
  clock_mono : Monotone clock
  /-- How many sockets have been made. -/
  sockets : ℕ := 0
  /-- Whether `socket()` makes one. -/
  socket : ℕ → Bool := fun _ => true
  connect : ℕ → ConnectResult := fun _ => .connected
  /-- Whether `SO_ERROR` has an error. -/
  soError : ℕ → Bool := fun _ => false
  send : ℕ → SendResult := fun _ => .again
  recv : ℕ → RecvResult := fun _ => .again
  epollWait : ℕ → EpollResult := fun _ => .ready []
  draw : ℕ → OrderFactory.Draw := fun _ => {}

namespace Kernel

/-- The time of the next call. -/
def time (k : Kernel) : ℕ := k.clock 0

/-- A call at the present time. -/
def tick (k : Kernel) : ℕ × Kernel :=
  (k.time, { k with clock := fun i => k.clock (i + 1), clock_mono := fun _ _ h => k.clock_mono (Nat.succ_le_succ h) })

/-- `now_ns`. -/
def nowNs (k : Kernel) : ℕ × Kernel := k.tick

def nextSocket (k : Kernel) : Option ℕ × Kernel :=
  let k' := { k with socket := fun i => k.socket (i + 1) }
  if k.socket 0 then (some k.sockets, { k' with sockets := k.sockets + 1 }) else (none, k')

def nextConnect (k : Kernel) : ConnectResult × Kernel :=
  (k.connect 0, { k with connect := fun i => k.connect (i + 1) })

def nextSoError (k : Kernel) : Bool × Kernel := (k.soError 0, { k with soError := fun i => k.soError (i + 1) })

def nextSend (k : Kernel) : SendResult × Kernel := (k.send 0, { k with send := fun i => k.send (i + 1) })

def nextRecv (k : Kernel) : RecvResult × Kernel := (k.recv 0, { k with recv := fun i => k.recv (i + 1) })

def nextEpollWait (k : Kernel) : EpollResult × Kernel :=
  (k.epollWait 0, { k with epollWait := fun i => k.epollWait (i + 1) })

def nextDraw (k : Kernel) : OrderFactory.Draw × Kernel := (k.draw 0, { k with draw := fun i => k.draw (i + 1) })

end Kernel

/-! ## Clients -/

/-- What a packet in the write buffer is. -/
inductive Queued
  | login
  | message (msg : OuchInboundFrame)
  | heartbeat
  deriving DecidableEq

/-- What a client does. -/
inductive ClientEvent
  /-- `connectClient`, at that time: whether the connection was made, or is being made. -/
  | attempt (time : ℕ) (started : Bool)
  /-- The connection was closed at that time. -/
  | closed (time : ℕ)
  /-- A packet was appended to the write buffer. -/
  | queued (item : Queued) (packet : List UInt8)
  /-- The write buffer had no room for a packet. -/
  | refused
  /-- The write buffer was cleared for a new batch. -/
  | cleared
  | sent (bytes : List UInt8)
  /-- `send()` returned `EAGAIN`. -/
  | blocked
  /-- `recv()` was called with that room, and there were these bytes. -/
  | recv (room : ℕ) (bytes : List UInt8)
  /-- `handleSoupPacket` took a packet, and the read buffer went on by its `n` bytes. -/
  | handed (packet : SoupPacket) (n : ℕ)
  /-- `handleSoupPacket` did not take a packet. -/
  | rejected (packet : SoupPacket)
  deriving DecidableEq

/-- What a socket is registered for. -/
structure Interest where
  input : Bool
  output : Bool
  deriving DecidableEq

/-- A moment of a client: what it did, and its state after that. -/
structure Moment where
  event : ClientEvent
  state : ClientState
  writeBuf : WriteBuffer

/-- A client with what the sending side uses. `interest` is none for a socket that is not
registered. -/
structure LoadClient extends ClientState where
  writeBuf : WriteBuffer := {}
  nextSendNs : ℕ := 0
  lastSentNs : ℕ := 0
  nextUserRefNum : UInt32 := 1
  requestsSent : ℕ := 0
  interest : Option Interest := none
  log : List Moment := []

namespace LoadClient

open OrderFactory (FrameKind Target buildMessage)

/-- `PIPELINE_DEPTH`. -/
def pipelineDepth : ℕ := 32

/-- `MAX_BATCH_MESSAGES`. -/
def maxBatchMessages : ℕ := 2 * pipelineDepth

def record (c : LoadClient) (event : ClientEvent) : LoadClient :=
  { c with log := c.log ++ [⟨event, c.toClientState, c.writeBuf⟩] }

/-- `Buffer::append` of a packet to the write buffer. -/
def queue (c : LoadClient) (item : Queued) (packet : List UInt8) : LoadClient :=
  let appended := c.writeBuf.append packet
  { c with writeBuf := appended.2 }.record (if appended.1 then .queued item packet else .refused)

/-! ### Connecting -/

/-- `LoadGenerator::reconnect`. -/
def reconnect (c : LoadClient) (k : Kernel) : LoadClient × Kernel :=
  if c.fd = none then (c, k)
  else
    let (time, k) := k.tick
    let (now, k) := k.nowNs
    ({ c with toClientState := c.toClientState.reconnect now, interest := none }.record (.closed time), k)

/-- What `connectClient` does with a new socket before `connect()`. -/
def opened (c : LoadClient) (fd : ℕ) : LoadClient :=
  { c with toClientState := c.toClientState.connectClient fd, writeBuf := {} }

/-- `LoadGenerator::connectClient`. -/
def connectClient (c : LoadClient) (k : Kernel) : LoadClient × Kernel :=
  let (time, k) := k.tick
  match k.nextSocket with
  | (none, k) => (c.record (.attempt time false), k)
  | (some fd, k) =>
    let c := c.opened fd
    match k.nextConnect with
    | (.failed, k) => ({ c with fd := none }.record (.attempt time false), k)
    | (_, k) => ({ c with interest := some ⟨false, true⟩ }.record (.attempt time true), k)

/-! ### Writing -/

/-- The bytes that `send()` took. -/
def written (c : LoadClient) (n : ℕ) (now : ℕ) : LoadClient :=
  { c with writeBuf := { c.writeBuf with bytesWritten := c.writeBuf.bytesWritten + n }, lastSentNs := now }.record
    (.sent (c.writeBuf.unsent.take n))

/-- `send()` returned `EAGAIN`: the socket is polled for both. -/
def blocked (c : LoadClient) : LoadClient := { c with interest := some ⟨true, true⟩ }.record .blocked

/-- The loop of `flushWrite`; `fuel` is at least the number of unsent bytes. -/
def flush : ℕ → LoadClient → Kernel → LoadClient × Kernel
  | 0, c, k => (c, k)
  | fuel + 1, c, k =>
    if c.writeBuf.remainingToSend > 0 then
      match k.nextSend with
      | (.sent n, k) =>
        if min n c.writeBuf.remainingToSend > 0 then
          let (now, k) := k.nowNs
          flush fuel (c.written (min n c.writeBuf.remainingToSend) now) k
        else c.reconnect k
      | (.again, k) => (c.blocked, k)
      | (.failed, k) => c.reconnect k
    else ({ c with writeBuf := c.writeBuf.tryReset }, k)

/-- `LoadGenerator::flushWrite`. -/
def flushWrite (c : LoadClient) (k : Kernel) : LoadClient × Kernel := flush (c.writeBuf.remainingToSend + 1) c k

/-- The Login Request of `handleConnect`. -/
def loginPacket (c : LoadClient) : List UInt8 := c.toClientState.handleConnect.2

/-- What `handleConnect` does once the connection is there: it logs in. -/
def logIn (c : LoadClient) : LoadClient :=
  { c with toClientState := c.toClientState.handleConnect.1, interest := some ⟨true, false⟩ }.queue .login c.loginPacket

/-- `LoadGenerator::handleConnect`. -/
def handleConnect (c : LoadClient) (k : Kernel) : LoadClient × Kernel :=
  match k.nextSoError with
  | (true, k) => c.reconnect k
  | (false, k) => c.logIn.flushWrite k

/-- Appends a Client Heartbeat. -/
def heartbeat (c : LoadClient) : LoadClient := c.queue .heartbeat (encodeSoupEmpty .clientHeartbeat soupHeaderLen)

/-- `LoadGenerator::sendHeartbeat`. -/
def sendHeartbeat (c : LoadClient) (k : Kernel) : LoadClient × Kernel := c.heartbeat.flushWrite k

/-! ### Batches -/

/-- The live order a Cancel or Replace would be for. -/
def target (c : LoadClient) : Option Target :=
  if c.activeCount > 0 then
    let active := c.activeOrders (c.activeRead % ClientState.maxActiveOrders)
    some ⟨active.userRefNum, active.side⟩
  else none

/-- What `buildBatch` counts for a message it appends. -/
def count (c : LoadClient) (kind : FrameKind) : LoadClient :=
  let c := match kind with
    | .enter | .invalid => { c with
        nextUserRefNum := c.nextUserRefNum + 1, acksPending := c.acksPending + 1,
        ordersInFlight := c.ordersInFlight + 1 }
    | .replace => { c with nextUserRefNum := c.nextUserRefNum + 1, activeRead := c.activeRead + 1 }
    | .cancel => { c with activeRead := c.activeRead + 1 }
  { c with requestsSent := c.requestsSent + 1 }

/-- Appends and counts a message of the order factory. -/
def enqueue (c : LoadClient) (kind : FrameKind) (msg : OuchInboundFrame) (packet : List UInt8) : LoadClient :=
  (c.count kind).queue (.message msg) packet

/-- The loop of `buildBatch`, with `n` messages at most. -/
def fill : ℕ → LoadClient → Kernel → LoadClient × Kernel
  | 0, c, k => (c, k)
  | n + 1, c, k =>
    if c.acksPending < pipelineDepth then
      let (draw, k) := k.nextDraw
      let (kind, msg) := buildMessage draw c.nextUserRefNum c.target
      let packet := encodeSoupUnsequenced msg 128
      if packet.length = 0 ∨ !c.writeBuf.hasRoom packet.length then (c, k)
      else fill n (c.enqueue kind msg packet) k
    else (c, k)

/-- Whether the time between two messages, if there is one, is over. -/
def slotElapsed (interArrivalNs : ℕ) (c : LoadClient) (k : Kernel) : Bool × Kernel :=
  if interArrivalNs > 0 then
    let (now, k) := k.nowNs
    (c.nextSendNs ≤ now, k)
  else (true, k)

/-- `buildBatch` sets the time of the next message. -/
def nextSlot (interArrivalNs : ℕ) (c : LoadClient) (k : Kernel) : LoadClient × Kernel :=
  if interArrivalNs > 0 then
    let (now, k) := k.nowNs
    ({ c with nextSendNs := now + interArrivalNs }, k)
  else (c, k)

def clear (c : LoadClient) : LoadClient := { c with writeBuf := {} }.record .cleared

/-- `LoadGenerator::buildBatch`. -/
def buildBatch (interArrivalNs : ℕ) (c : LoadClient) (k : Kernel) : LoadClient × Kernel :=
  if !c.loggedIn ∨ c.writeBuf.length > 0 ∨ c.acksPending ≥ pipelineDepth then (c, k)
  else
    let (elapsed, k) := c.slotElapsed interArrivalNs k
    if elapsed then
      let (c, k) := fill (if interArrivalNs > 0 then 1 else maxBatchMessages) c.clear k
      let (c, k) := c.nextSlot interArrivalNs k
      c.flushWrite k
    else (c, k)

/-! ### Reading -/

/-- `handleSoupPacket` takes a packet of `n` bytes. -/
def take (c : LoadClient) (packet : SoupPacket) (n : ℕ) : LoadClient :=
  let cs := (c.toClientState.handleSoupPacket packet).2
  { c with toClientState := { cs with readBuf := cs.readBuf.advance n } }.record (.handed packet n)

/-- `handleSoupPacket` does not take a packet. -/
def reject (c : LoadClient) (packet : SoupPacket) : LoadClient :=
  { c with toClientState := (c.toClientState.handleSoupPacket packet).2 }.record (.rejected packet)

/-- The loop of `handleReadable`: whether the connection goes on. `fuel` is at least the
number of bytes in the buffer. -/
def handlePackets : ℕ → LoadClient → Bool × LoadClient
  | 0, c => (true, c)
  | fuel + 1, c =>
    if c.readBuf.length = 0 then (true, c)
    else
      match parseSoupPacket c.readBuf.view with
      | .incomplete => (true, c)
      | .malformed => (false, c)
      | .packet packet consumed =>
        if (c.toClientState.handleSoupPacket packet).1 then handlePackets fuel (c.take packet consumed)
        else (false, c.reject packet)

/-- The room that `read_from` offers to `recv()`. -/
def room (c : LoadClient) : ℕ :=
  ClientState.readBufBytes - (c.readBuf.compact ClientState.readBufBytes).data.length

/-- `Buffer::read_from` of a socket that has these bytes. -/
def receive (c : LoadClient) (bytes : List UInt8) : LoadClient :=
  { c with readBuf := (c.readBuf.readFrom ClientState.readBufBytes bytes).2 }.record
    (.recv c.room (bytes.take c.room))

/-- `LoadGenerator::handleReadable`. -/
def handleReadable (interArrivalNs : ℕ) (c : LoadClient) (k : Kernel) : LoadClient × Kernel :=
  match k.nextRecv with
  | (.bytes bytes, k) =>
    if (bytes.take c.room).length = 0 then (c.receive bytes).reconnect k
    else
      let c := c.receive bytes
      match handlePackets c.readBuf.length c with
      | (true, c) => c.buildBatch interArrivalNs k
      | (false, c) => c.reconnect k
  | (.again, k) => (c.receive [], k)
  | (.failed, k) => (c.receive []).reconnect k

end LoadClient

/-! ## The event loop -/

/-- `LoadGenerator`. `interArrivalNs` is 0 if the rate is not limited. -/
structure LoadGenerator where
  interArrivalNs : ℕ
  clients : List LoadClient

namespace LoadGenerator

open LoadClient (pipelineDepth)

/-- The constructor. -/
def new (numClients interArrivalNs : ℕ) : LoadGenerator where
  interArrivalNs := interArrivalNs
  clients := (List.range numClients).map fun i => { clientId := i + 1 }

/-- `for (auto& cs : clients_)`. -/
def forClients (f : LoadClient → Kernel → LoadClient × Kernel) : List LoadClient → Kernel → List LoadClient × Kernel
  | [], k => ([], k)
  | c :: clients, k =>
    let (c, k) := f c k
    let (clients, k) := forClients f clients k
    (c :: clients, k)

/-- An event of a client: `EPOLLOUT` first, unless there is an error. -/
def handleOutput (ready : Ready) (c : LoadClient) (k : Kernel) : LoadClient × Kernel :=
  if ready.output then (if c.connecting then c.handleConnect k else c.flushWrite k) else (c, k)

/-- An event of a client. -/
def handleEvent (interArrivalNs : ℕ) (ready : Ready) (c : LoadClient) (k : Kernel) : LoadClient × Kernel :=
  if ready.error then c.reconnect k
  else
    let (c, k) := handleOutput ready c k
    if ready.output ∧ c.fd = none then (c, k)
    else if ready.input then c.handleReadable interArrivalNs k
    else (c, k)

/-- What epoll can report of a socket: what it is registered for, and errors. -/
def reported (interest : Interest) (ready : Ready) : Ready where
  error := ready.error
  input := ready.input && interest.input
  output := ready.output && interest.output

/-- The events `epoll_wait` returned. One of a socket that is not registered is none. -/
def handleEvents (interArrivalNs : ℕ) : List (ℕ × Ready) → List LoadClient → Kernel → List LoadClient × Kernel
  | [], clients, k => (clients, k)
  | (i, ready) :: events, clients, k =>
    match clients[i]? with
    | none => handleEvents interArrivalNs events clients k
    | some c =>
      match c.interest with
      | none => handleEvents interArrivalNs events clients k
      | some interest =>
        let (c, k) := handleEvent interArrivalNs (reported interest ready) c k
        handleEvents interArrivalNs events (clients.set i c) k

/-- A client whose backoff has elapsed connects again. -/
def retry (after : ℕ) (c : LoadClient) (k : Kernel) : LoadClient × Kernel :=
  if c.fd = none ∧ after ≥ c.reconnectAtNs then c.connectClient k else (c, k)

/-- A client whose slot may have elapsed sends. -/
def unblock (interArrivalNs : ℕ) (c : LoadClient) (k : Kernel) : LoadClient × Kernel :=
  if c.fd ≠ none ∧ c.loggedIn ∧ c.acksPending < pipelineDepth ∧ c.writeBuf.length = 0 then
    c.buildBatch interArrivalNs k
  else (c, k)

/-- A client that has been quiet sends a heartbeat. -/
def keepAlive (after : ℕ) (c : LoadClient) (k : Kernel) : LoadClient × Kernel :=
  if c.fd ≠ none ∧ c.loggedIn ∧ c.writeBuf.length = 0 ∧
      after ≥ c.lastSentNs + Outbound.soupHeartbeatIntervalNs then c.sendHeartbeat k
  else (c, k)

/-- The passes over the clients that end an iteration. -/
def passes (interArrivalNs after : ℕ) (clients : List LoadClient) (k : Kernel) : List LoadClient × Kernel :=
  let (clients, k) := forClients (retry after) clients k
  let (clients, k) := if interArrivalNs > 0 then forClients (unblock interArrivalNs) clients k else (clients, k)
  forClients (keepAlive after) clients k

/-- An iteration of the loop; none if `epoll_wait` fails, which ends the loop. How long
`epoll_wait` waits is up to the clock. -/
def iteration (g : LoadGenerator) (k : Kernel) : Option (LoadGenerator × Kernel) :=
  let (_, k) := k.nowNs
  match k.nextEpollWait with
  | (.failed, _) => none
  | (.interrupted, k) => some (g, k)
  | (.ready events, k) =>
    let (clients, k) := handleEvents g.interArrivalNs events g.clients k
    let (after, k) := k.nowNs
    let (clients, k) := passes g.interArrivalNs after clients k
    some ({ g with clients := clients }, k)

/-- At most `n` iterations. -/
def loop : ℕ → LoadGenerator → Kernel → LoadGenerator × Kernel
  | 0, g, k => (g, k)
  | n + 1, g, k =>
    match g.iteration k with
    | none => (g, k)
    | some (g, k) => loop n g k

/-- `LoadGenerator::run`, stopped after at most `n` iterations. -/
def run (n : ℕ) (g : LoadGenerator) (k : Kernel) : LoadGenerator × Kernel :=
  let (clients, k) := forClients LoadClient.connectClient g.clients k
  loop n { g with clients := clients } k

/-- `LoadGenerator::Stats`. -/
structure Stats where
  requestsSent : ℕ := 0
  responsesAck : ℕ := 0
  responsesMatch : ℕ := 0
  responsesErr : ℕ := 0
  responsesCanceled : ℕ := 0
  responsesReplaced : ℕ := 0
  ordersInFlight : Int := 0

/-- A client's part of `stats`. -/
def Stats.add (s : Stats) (c : LoadClient) : Stats where
  requestsSent := s.requestsSent + c.requestsSent
  responsesAck := s.responsesAck + c.responsesAck
  responsesMatch := s.responsesMatch + c.responsesMatch
  responsesErr := s.responsesErr + c.responsesErr
  responsesCanceled := s.responsesCanceled + c.responsesCanceled
  responsesReplaced := s.responsesReplaced + c.responsesReplaced
  ordersInFlight := s.ordersInFlight + c.ordersInFlight

/-- `LoadGenerator::stats`. -/
def stats (g : LoadGenerator) : Stats := g.clients.foldl Stats.add {}

end LoadGenerator

end Exchange
