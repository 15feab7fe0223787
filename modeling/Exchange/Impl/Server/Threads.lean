import Exchange.Impl.Server.Gateway

/-!
# The three threads

`server.cpp` and `engine.cpp` as three threads over rings: the inbound thread pushes a
message's note and then its request (`handle_ouch_`), the matching thread takes requests
off their ring, one ahead of the one it executes (`handleMatching`), and pushes the events,
and the outbound thread drains the notes, takes an event, drains the notes again and hands
the event to the responder (`outbound_`). A thread touches what it shares with another one
only by pushing and popping, so its steps are cut there; in between, `Threads.run` lets
any thread go on. A thread that finds its ring full tries again.

Notes of other kinds than `GATEWAY` do not reach the responder and are left out, and so is
shutting down.
-/

namespace Exchange

/-- `COMMUNICATION_RING_COUNT`. -/
def communicationRingCount : ℕ := 524288

/-- `kOutboundBatch`. -/
def outboundBatch : ℕ := 32

/-- `RingBuffer::push` on what is in the ring: one slot stays free. -/
def RingBuffer.push {α : Type} (ring : List α) (item : α) : Option (List α) :=
  if ring.length + 1 < communicationRingCount then some (ring ++ [item]) else none

inductive Thread
  | inbound
  | engine
  | outbound

/-- A request, and the time stamp counter when it is executed. -/
abbrev TimedRequest := EngineRequest × ℕ

/-- Where the matching thread is in `handleMatching`: `cur` and `nxt` are its own. -/
inductive EnginePc
  /-- About to pop `cur`. -/
  | poll
  /-- About to pop `nxt`. -/
  | peek (cur : TimedRequest)
  /-- About to execute `cur`. -/
  | execute (cur : TimedRequest) (nxt : Option TimedRequest)
  /-- With `events` of `cur` still to push. -/
  | emit (events : List EngineEvent) (nxt : Option TimedRequest)

/-- `cur = std::move(nxt)`. -/
def EnginePc.next : Option TimedRequest → EnginePc
  | none => .poll
  | some cur => .peek cur

/-- Where the outbound thread is in `outbound_`: `n` counts the events of the batch. -/
inductive OutboundPc
  /-- In the first `drain_notes`. -/
  | drain
  /-- About to pop an event. -/
  | poll (n : ℕ)
  /-- In the second `drain_notes`. -/
  | catchUp (n : ℕ) (event : EngineEvent)
  /-- About to call `on_event`. -/
  | answer (n : ℕ) (event : EngineEvent)

/-- What the outbound thread did: `on_note` or `on_event`, and the response. -/
inductive Said
  | note (note : GatewayNote) (response : Option OuchResponse)
  | event (event : Event) (response : Option OuchResponse)

structure Threads where
  /-- The messages the inbound thread has not read yet. -/
  left : List Inbound
  entry : OrderEntry
  /-- The note the inbound thread is pushing. -/
  note : Option GatewayNote := none
  /-- The request it pushes next. -/
  request : Option TimedRequest := none
  /-- `notes_`. -/
  notes : List GatewayNote := []
  /-- `inbound_ring_`. -/
  requests : List TimedRequest := []
  book : Orderbook
  engine : EnginePc := .poll
  /-- `outbound_ring_`. -/
  events : List EngineEvent := []
  responder : OuchResponder := {}
  outbound : OutboundPc := .drain
  /-- What the outbound thread did so far. -/
  log : List Said := []

namespace Threads

/-- The exchange at the start of the day, with the messages that will come. -/
def new (capacity : ℕ) (env : Env) (ms : List Inbound) : Threads where
  left := ms
  entry := { band := Gateway.band }
  book := Orderbook.new capacity env

/-- `Server::handle_ouch_`, to the next push. -/
def inboundStep (s : Threads) : Option Threads :=
  match s.note, s.request with
  | some note, _ =>
    match RingBuffer.push s.notes note with
    | none => some s
    | some notes => some { s with notes := notes, note := none }
  | none, some request =>
    match RingBuffer.push s.requests request with
    | none => some s
    | some requests => some { s with requests := requests, request := none }
  | none, none =>
    match s.left with
    | [] => some s
    | m :: left => do
      let (entry, translation) ← s.entry.translate m.clientId m.msg
      some { s with
        left := left
        entry := entry
        note := translation.note
        request := translation.request.map fun request => (Gateway.stamp m request, m.enginePopTsc) }

/-- `Engine::handleMatching`, to the next push or pop. -/
def engineStep (a : Arith) (s : Threads) : Option Threads :=
  match s.engine with
  | .poll =>
    match s.requests with
    | [] => some s
    | cur :: requests => some { s with requests := requests, engine := .peek cur }
  | .peek cur => some { s with requests := s.requests.tail, engine := .execute cur s.requests.head? }
  | .execute cur nxt => do
    let (_, book) ← Engine.executeRequest a s.book cur
    some { s with book := book, engine := .emit (book.out.outRing.drop s.book.out.outRing.length) nxt }
  | .emit [] nxt => some { s with engine := EnginePc.next nxt }
  | .emit (event :: rest) nxt =>
    match RingBuffer.push s.events event with
    | none => some s
    | some events => some { s with events := events, engine := .emit rest nxt }

/-- `Server::on_note_` of the note at the front of the ring. -/
def onNote (noteClock : ℕ → UInt64) (s : Threads) (note : GatewayNote) (notes : List GatewayNote) : Threads :=
  let (responder, response) := s.responder.onNote note (noteClock s.log.length)
  { s with notes := notes, responder := responder, log := s.log ++ [.note note response] }

/-- `responder_.on_event`. -/
def onEvent (clock : ℕ → UInt64) (s : Threads) (event : EngineEvent) : Threads :=
  let (responder, response) := s.responder.onEvent event.toEvent (clock event.enginePushTsc)
  { s with responder := responder, log := s.log ++ [.event event.toEvent response] }

/-- `Server::outbound_`, to the next pop. -/
def outboundStep (clock noteClock : ℕ → UInt64) (s : Threads) : Threads :=
  match s.outbound with
  | .drain =>
    match s.notes with
    | [] => { s with outbound := .poll 0 }
    | note :: notes => s.onNote noteClock note notes
  | .poll n =>
    if n < outboundBatch then
      match s.events with
      | [] => { s with outbound := .drain }
      | event :: events => { s with events := events, outbound := .catchUp n event }
    else { s with outbound := .drain }
  | .catchUp n event =>
    match s.notes with
    | [] => { s with outbound := .answer n event }
    | note :: notes => s.onNote noteClock note notes
  | .answer n event => { s.onEvent clock event with outbound := .poll (n + 1) }

/-- One step of a thread; `clock` is `ns_since_midnight` of an event's time, `noteClock` of
the time each note is taken. -/
def step (a : Arith) (clock noteClock : ℕ → UInt64) (s : Threads) : Thread → Option Threads
  | .inbound => s.inboundStep
  | .engine => s.engineStep a
  | .outbound => some (s.outboundStep clock noteClock)

/-- The threads' steps in the order `schedule` gives. -/
def run (a : Arith) (clock noteClock : ℕ → UInt64) (s : Threads) (schedule : List Thread) : Option Threads :=
  schedule.foldlM (fun s t => s.step a clock noteClock t) s

/-- Every message has been read, and nothing is on its way. -/
def Done (s : Threads) : Prop :=
  s.left = [] ∧ s.note = none ∧ s.request = none ∧ s.notes = [] ∧ s.requests = [] ∧ s.engine = .poll ∧
    s.events = [] ∧ (s.outbound = .drain ∨ ∃ n, s.outbound = .poll n)

end Threads

end Exchange
