import Exchange.Impl.Server.Threads
import Exchange.Impl.System

/-!
# The platform

The exchange as a whole: the inbound thread on the packets of every connection, the matching
thread, the outbound thread with its loop (`outbound_`), the rings between the three, and
what `System` has around them, the TCP stack, the network and a client of the load generator.

As in `Threads`, a thread's steps are cut where it pushes or pops. The inbound thread handles
a packet when it has pushed the note and the request of the last one. `messages` and `said`
record what happened, so that properties can be stated; no thread reads them. The pushes that
are given up when the exchange shuts down are left out.
-/

namespace Exchange

/-- The call of `translate` a packet leads to. -/
def InboundThread.called (t : InboundThread) (conn : ConnId) (packet : SoupPacket) : Option (ℕ × OuchInboundFrame) :=
  let connection := t.connections conn.slot
  let msg := decodeInboundOuch packet.payload
  if connection.conn = conn ∧ t.takesInput conn.slot ∧ connection.loggedIn ∧
      SoupPacketType.ofByte packet.type = some .unsequencedData ∧ msg ≠ .none then some (connection.clientId, msg)
  else none

/-- `GatewayNote` of a note of that kind. -/
def ServerNote.gateway? : ServerNote → Option GatewayNote
  | .gateway note => some note
  | _ => none

/-- The time stamps of a request. -/
structure Stamps where
  readBeginTsc : ℕ := 0
  recvTsc : ℕ := 0
  serverPushTsc : ℕ := 0
  enginePopTsc : ℕ := 0

/-- A message of a client at these times. -/
def Stamps.inbound (stamps : Stamps) (clientId : ℕ) (msg : OuchInboundFrame) : Inbound where
  clientId := clientId
  msg := msg
  readBeginTsc := stamps.readBeginTsc
  recvTsc := stamps.recvTsc
  serverPushTsc := stamps.serverPushTsc
  enginePopTsc := stamps.enginePopTsc

/-- Where the outbound thread is in `outbound_`: `n` counts the events of the batch. -/
inductive LoopPc
  /-- About to read `shutdown_`. -/
  | top
  /-- In the first `drain_notes`. -/
  | drain
  /-- About to pop an event. -/
  | poll (n : ℕ)
  /-- In the second `drain_notes`. -/
  | catchUp (n : ℕ) (event : EngineEvent)
  /-- About to call `on_event`. -/
  | answer (n : ℕ) (event : EngineEvent)
  | flush
  /-- About to see whether it is time for heartbeats. -/
  | scan
  /-- Past the loop. -/
  | stopped

/-- The part of the loop that `Threads` has. -/
def LoopPc.outbound : LoopPc → OutboundPc
  | .poll n => .poll n
  | .catchUp n event => .catchUp n event
  | .answer n event => .answer n event
  | _ => .drain

structure Platform where
  /-- The inbound and the outbound thread, the network and the client. `notes` of the inbound
  thread has all its notes, `taken` counts those the outbound thread has popped. -/
  system : System
  /-- How many of the notes have been pushed to `notes_`. -/
  pushed : ℕ := 0
  /-- The request the inbound thread pushes next. -/
  request : Option TimedRequest := none
  /-- `inbound_ring_`. -/
  requests : List TimedRequest := []
  book : Orderbook
  engine : EnginePc := .poll
  /-- `outbound_ring_`. -/
  events : List EngineEvent := []
  loop : LoopPc := .top
  /-- The messages given to `translate`. -/
  messages : List Inbound := []
  /-- What the responder was given, and what it answered. -/
  said : List Said := []

namespace Platform

def inbound (s : Platform) : InboundThread := s.system.inbound

def outbound (s : Platform) : Outbound := s.system.outbound

/-- Nothing has happened. -/
def init (k capacity : ℕ) (env : Env) (clock : Clock) (takes : ℕ → ℕ) (sendableAt : ℕ → Bool) (clientId : ℕ) :
    Platform where
  system := {
    outbound := { soupReplayBytes := 2 ^ (k + 9), clock := clock, tcp := ⟨takes, sendableAt, 0, fun _ => [], []⟩ }
    client := { clientId := clientId } }
  book := Orderbook.new capacity env

/-- What the three threads share and what the matching thread has of its own, with the
messages that are still to come. -/
def threads (s : Platform) (left : List Inbound) : Threads where
  left := left
  entry := s.inbound.entry
  note := ((s.inbound.notes.drop s.pushed).filterMap (·.gateway?)).head?
  request := s.request
  notes := ((s.inbound.notes.take s.pushed).drop s.system.taken).filterMap (·.gateway?)
  requests := s.requests
  book := s.book
  engine := s.engine
  events := s.events
  responder := s.outbound.responder
  outbound := s.loop.outbound
  log := s.said

/-- A step of the system around the threads. -/
def onSystem (s : Platform) (step : System.Step) : Option Platform :=
  (s.system.step step).map fun system => { s with system := system }

/-! ## The inbound thread -/

/-- The inbound thread has pushed what came of the last packet. -/
def ready (s : Platform) : Bool := s.pushed = s.inbound.notes.length && s.request.isNone

/-- The message of a packet, as it is recorded. -/
def message (s : Platform) (conn : ConnId) (packet : SoupPacket) (stamps : Stamps) : Option Inbound :=
  (s.inbound.called conn packet).map fun (clientId, msg) => stamps.inbound clientId msg

/-- The inbound thread handles a packet; its request is stamped. -/
def onPacket (s : Platform) (conn : ConnId) (packet : SoupPacket) (stamps : Stamps) : Option Platform := do
  let s' ← s.onSystem (.packet conn packet)
  let request := (s'.inbound.requests.drop s.inbound.requests.length).head?.map fun request =>
    ({ request with
        readBeginTsc := stamps.readBeginTsc, recvTsc := stamps.recvTsc, serverPushTsc := stamps.serverPushTsc },
      stamps.enginePopTsc)
  some { s' with request := request, messages := s.messages ++ (s.message conn packet stamps).toList }

/-- The inbound thread pushes a note, or the request once its note is pushed. -/
def push (s : Platform) : Platform :=
  if s.pushed < s.inbound.notes.length then
    if s.pushed - s.system.taken + 1 < communicationRingCount then { s with pushed := s.pushed + 1 } else s
  else
    match s.request with
    | none => s
    | some request =>
      match RingBuffer.push s.requests request with
      | none => s
      | some requests => { s with requests := requests, request := none }

/-! ## The other threads -/

/-- The matching thread goes on. -/
def onEngine (a : Arith) (s : Platform) : Option Platform :=
  ((s.threads []).engineStep a).map fun t =>
    { s with requests := t.requests, book := t.book, engine := t.engine, events := t.events }

/-- What the responder answers to a note. -/
def saidOf (s : Platform) (note : ServerNote) : Option Said :=
  note.gateway?.map fun gateway =>
    .note gateway (s.outbound.responder.onNote gateway (s.outbound.clock.nsSinceMidnight s.outbound.rdtsc.1)).2

/-- `drain_notes`: a note is popped, or the loop goes on with `next`. -/
def drainNotes (s : Platform) (next : LoopPc) : Option Platform :=
  if s.system.taken < s.pushed then
    match s.inbound.notes[s.system.taken]? with
    | none => some s
    | some note => (s.onSystem .takeNote).map fun s' => { s' with said := s.said ++ (s.saidOf note).toList }
  else some { s with loop := next }

/-- `on_event`, and the response is sent. -/
def onAnswer (s : Platform) (n : ℕ) (event : EngineEvent) : Option Platform :=
  let response :=
    (s.outbound.responder.onEvent event.toEvent (s.outbound.clock.nsSinceMidnight event.enginePushTsc)).2
  (s.onSystem (.event event)).map fun s' =>
    { s' with loop := .poll (n + 1), said := s.said ++ [.event event.toEvent response] }

/-- `Server::outbound_`, to the next pop; `due` is whether it is time for heartbeats, and
`shutdown` what `shutdown_` has. -/
def onOutbound (s : Platform) (due shutdown : Bool) : Option Platform :=
  match s.loop with
  | .top =>
    if shutdown then (s.onSystem .closeAll).map fun s' => { s' with loop := .stopped }
    else some { s with loop := .drain }
  | .drain => s.drainNotes (.poll 0)
  | .poll n =>
    if n < outboundBatch then
      match s.events with
      | [] => some { s with loop := .flush }
      | event :: events => some { s with events := events, loop := .catchUp n event }
    else some { s with loop := .flush }
  | .catchUp n event => s.drainNotes (.answer n event)
  | .answer n event => s.onAnswer n event
  | .flush => (s.onSystem .flush).map fun s' => { s' with loop := .scan }
  | .scan =>
    if due then (s.onSystem .heartbeat).map fun s' => { s' with loop := .top } else some { s with loop := .top }
  | .stopped => some s

/-! ## Runs -/

inductive Step
  /-- The stack reports a connection of the given socket of the client, or of another client. -/
  | accepted (conn : ConnId) (socket : Option ℕ)
  /-- The inbound thread handles a packet of a connection. -/
  | packet (conn : ConnId) (packet : SoupPacket) (stamps : Stamps)
  /-- A connection is over for the inbound thread. -/
  | ended (conn : ConnId)
  /-- The inbound thread pushes. -/
  | push
  | engine
  | outbound (due shutdown : Bool)
  /-- The client makes a socket and connects. -/
  | connect
  /-- The client's connection is there. -/
  | connected
  /-- The client's connection is lost, or could not be made. -/
  | lost (now : ℕ)
  /-- The client reads from its socket, when `n` more bytes of connection `conn` have arrived. -/
  | receive (now n : ℕ) (conn : ConnId)

/-- One step. A step that a thread, the stack or the network cannot take changes nothing; none
stands for undefined behaviour. -/
def step (a : Arith) (s : Platform) : Step → Option Platform
  | .accepted conn socket => if s.ready then s.onSystem (.accepted conn socket) else some s
  | .packet conn packet stamps => if s.ready then s.onPacket conn packet stamps else some s
  | .ended conn => if s.ready then s.onSystem (.ended conn) else some s
  | .push => some s.push
  | .engine => s.onEngine a
  | .outbound due shutdown => s.onOutbound due shutdown
  | .connect => s.onSystem .connect
  | .connected => s.onSystem .connected
  | .lost now => s.onSystem (.lost now)
  | .receive now n conn => s.onSystem (.receive now n conn)

def run (a : Arith) : Platform → List Step → Option Platform
  | s, [] => some s
  | s, step :: steps => do
    let s ← s.step a step
    run a s steps

/-- The inbound thread has pushed everything, and nothing is on its way to the responder. -/
def Quiet (s : Platform) : Prop := s.ready ∧ (s.threads []).Done

end Platform

end Exchange
