import Exchange.Impl.Client.LoadGenerator
import Exchange.Impl.Server.Inbound

/-!
# The server and a client

The two threads of the server with `notes_` between them, one client of the load
generator, and the TCP connections it makes. The steps of the threads, of the client and
of the network are interleaved in any way. Other connections come and go and send any
packets, and the engine's events are any.

The network gives the client's connection the bytes that the server's stack accepted for
it, in order, as many as it likes. Connection ids are those of the server's stack: it
reports an id once, and a slot's next connection after the end of the last one.
-/

namespace Exchange

structure System where
  inbound : InboundThread := {}
  /-- How many of the notes the outbound thread has taken. -/
  taken : ℕ := 0
  outbound : Outbound
  client : ClientState
  /-- How many sockets the client has made. -/
  sockets : ℕ := 0
  /-- The Login Request the client wrote on a socket. -/
  written : ℕ → Option (List UInt8) := fun _ => none
  /-- How many bytes the client has read from its socket. -/
  received : ℕ := 0
  /-- The connections the stack has reported. -/
  seen : List ConnId := []
  /-- The client's socket a connection is of, none for those of others. -/
  socketOf : ConnId → Option ℕ := fun _ => none

namespace System

inductive Step
  /-- The stack reports a connection of the given socket of the client, or of another client. -/
  | accepted (conn : ConnId) (socket : Option ℕ)
  /-- The inbound thread handles a packet of a connection. -/
  | packet (conn : ConnId) (packet : SoupPacket)
  /-- A connection is over for the inbound thread. -/
  | ended (conn : ConnId)
  /-- The outbound thread takes a note. -/
  | takeNote
  /-- The outbound thread does something else. -/
  | event (event : EngineEvent)
  | flush
  | heartbeat
  | closeAll
  /-- The client makes a socket and connects. -/
  | connect
  /-- The client's connection is there. -/
  | connected
  /-- The client's connection is lost, or could not be made. -/
  | lost (now : ℕ)
  /-- The client reads from its socket, when `n` more bytes of connection `conn` have arrived. -/
  | receive (now n : ℕ) (conn : ConnId)

/-- The stack can report this connection: its id is new, its slot is free, and the
client's socket has no other connection. -/
def canAccept (s : System) (conn : ConnId) (socket : Option ℕ) : Bool :=
  conn.generation ≠ 0 && conn ∉ s.seen && !(s.inbound.connections conn.slot).isOpen &&
    match socket with
    | none => true
    | some i => decide (i < s.sockets) && s.seen.all (s.socketOf · ≠ some i)

/-- The packet can arrive on the connection: on those of the client, the one Login Request
is that which the client wrote. -/
def canArrive (s : System) (conn : ConnId) (packet : SoupPacket) : Bool :=
  match s.socketOf conn with
  | none => true
  | some i => packet.type ≠ SoupPacketType.loginRequest.byte ||
      match s.written i with
      | none => false
      | some bytes => parseSoupPacket bytes = .packet packet bytes.length

/-- The inbound thread on an event. -/
def onInbound (s : System) (event : InboundThread.Event) : Option System :=
  (s.inbound.onEvent s.outbound.retainedFrom event).map fun inbound => { s with inbound := inbound }

/-- The outbound thread on a step of its own. -/
def onOutbound (s : System) (step : Outbound.Step) : Option System :=
  (s.outbound.step step).map fun outbound => { s with outbound := outbound }

/-- One step. What the stack or the network cannot do changes nothing; none stands for
undefined behaviour of the server. -/
def step (s : System) : Step → Option System
  | .accepted conn socket =>
    if s.canAccept conn socket then
      { s with seen := conn :: s.seen, socketOf := Function.update s.socketOf conn socket }.onInbound (.accepted conn)
    else some s
  | .packet conn packet => if s.canArrive conn packet then s.onInbound (.packet conn packet) else some s
  | .ended conn => s.onInbound (.ended conn)
  | .takeNote =>
    match s.inbound.notes[s.taken]? with
    | none => some s
    | some note => { s with taken := s.taken + 1 }.onOutbound (.note note)
  | .event event => s.onOutbound (.event event)
  | .flush => s.onOutbound .flush
  | .heartbeat => s.onOutbound .heartbeat
  | .closeAll => s.onOutbound .closeAll
  | .connect =>
    if s.client.fd = none then
      some { s with client := s.client.connectClient s.sockets, sockets := s.sockets + 1, received := 0 }
    else some s
  | .connected =>
    match s.client.fd with
    | some i =>
      if s.client.connecting then
        let (client, login) := s.client.handleConnect
        some { s with client := client, written := Function.update s.written i (some login) }
      else some s
    | none => some s
  | .lost now => some { s with client := s.client.reconnect now }
  | .receive now n conn =>
    if s.client.fd ≠ none ∧ s.socketOf conn = s.client.fd ∧ !s.client.connecting then
      let arrived := ((s.outbound.tcp.accepted conn).drop s.received).take n
      if arrived = [] then some s
      else
        let room := (s.client.readBuf.readFrom ClientState.readBufBytes arrived).1
        some { s with client := s.client.handleReadable now arrived, received := s.received + room }
    else some s

def run : System → List Step → Option System
  | s, [] => some s
  | s, step :: steps => do
    let s ← s.step step
    run s steps

end System

end Exchange
