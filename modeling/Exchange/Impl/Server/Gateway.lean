import Exchange.Impl.Engine.Engine
import Exchange.Impl.Server.OuchResponder
import Exchange.Impl.Server.SessionLog
import Exchange.Impl.Soup
import Mathlib.Logic.Function.Basic

/-!
# From a client's message to the clients' logs

The way of one OUCH message through the exchange when nothing else is on its way:
`handle_ouch_` of the inbound thread, the engine, and the outbound thread's `on_note_`
and its loop over the engine's events. Every client has logged in, so its session has a
log.
-/

namespace Exchange

/-- `kMaxSoupPacket`, the size of `scratch_`. -/
def maxSoupPacket : ℕ := 256

/-- A message with the times it is handled at. -/
structure Inbound where
  clientId : ℕ
  msg : OuchInboundFrame
  readBeginTsc : ℕ := 0
  recvTsc : ℕ := 0
  serverPushTsc : ℕ := 0
  enginePopTsc : ℕ := 0
  noteTimestamp : UInt64 := 0

structure Gateway where
  entry : OrderEntry
  responder : OuchResponder := {}
  book : Orderbook
  /-- The log of each client's session. -/
  logs : ℕ → SessionLog

/-- What became of an engine event: the responder's answer, and the packet that was
appended to the log of the client it goes to. -/
structure Delivery where
  event : Event
  response : Option OuchResponse
  packet : List UInt8

/-- What became of a message: what it was translated to, the responder's answer to the
note, the packets of a gateway-level reject, the engine's events, and the market data it
published. -/
structure Handled where
  clientId : ℕ
  msg : OuchInboundFrame
  translation : Translation
  noteResponse : Option OuchResponse
  rejects : List (ℕ × List UInt8)
  deliveries : List Delivery
  itch : List ItchBody

namespace Gateway

/-- The price band of `Server::order_entry_`. -/
def band : Validation.PriceBand := { min := minPrice, max := maxPrice }

/-- The exchange at the start of the day; `SOUP_REPLAY_BYTES` is the size of the logs. -/
def new (capacity soupReplayBytes : ℕ) (env : Env) : Gateway where
  entry := { band := band }
  book := Orderbook.new capacity env
  logs := fun _ => SessionLog.new soupReplayBytes

/-- A packet appended to the log of a client's session. -/
def appendLog (logs : ℕ → SessionLog) (p : ℕ × List UInt8) : ℕ → SessionLog :=
  Function.update logs p.1 ((logs p.1).append p.2)

/-- `Server::send_ouch_`: the packet appended, none if it does not fit `scratch_`. -/
def sendOuch (g : Gateway) (response : OuchResponse) : Gateway × List UInt8 :=
  let packet := encodeSoupSequenced response.ouch maxSoupPacket
  if packet.length = 0 then (g, [])
  else ({ g with logs := appendLog g.logs (response.clientId, packet) }, packet)

/-- `Server::on_note_` of a gateway note, with the packet it appends. -/
def onNote (g : Gateway) (note : GatewayNote) (timestamp : UInt64) : Gateway × List (ℕ × List UInt8) :=
  let (responder, response) := g.responder.onNote note timestamp
  let g := { g with responder := responder }
  match response with
  | none => (g, [])
  | some response =>
    let (g, packet) := g.sendOuch response
    (g, [(response.clientId, packet)])

/-- The note of a translation, if it has one. -/
def takeNote (g : Gateway) (note : Option GatewayNote) (timestamp : UInt64) : Gateway × List (ℕ × List UInt8) :=
  match note with
  | none => (g, [])
  | some note => g.onNote note timestamp

/-- The outbound loop on one event; `clock` is `ns_since_midnight`. -/
def onEvent (clock : ℕ → UInt64) (g : Gateway) (event : EngineEvent) : Gateway × Delivery :=
  let (responder, response) := g.responder.onEvent event.toEvent (clock event.enginePushTsc)
  let g := { g with responder := responder }
  match response with
  | none => (g, ⟨event.toEvent, none, []⟩)
  | some response =>
    let (g, packet) := g.sendOuch response
    (g, ⟨event.toEvent, some response, packet⟩)

/-- The outbound loop on the events of a request. -/
def onEvents (clock : ℕ → UInt64) : Gateway → List EngineEvent → Gateway × List Delivery
  | g, [] => (g, [])
  | g, event :: events =>
    let (g, d) := g.onEvent clock event
    let (g, ds) := onEvents clock g events
    (g, d :: ds)

/-- The request with its latency stamps. -/
def stamp (m : Inbound) (request : EngineRequest) : EngineRequest :=
  { request with readBeginTsc := m.readBeginTsc, recvTsc := m.recvTsc, serverPushTsc := m.serverPushTsc }

/-- The engine on a request, and the outbound loop on the events it pushed. -/
def execute (a : Arith) (clock : ℕ → UInt64) (g : Gateway) (req : EngineRequest × ℕ) :
    Option (Gateway × List Delivery) := do
  let (_, book) ← Engine.executeRequest a g.book req
  some (onEvents clock { g with book := book } (book.out.outRing.drop g.book.out.outRing.length))

/-- The market data published since there were `n` messages. -/
def published (g : Gateway) (n : ℕ) : List ItchBody := (g.book.out.marketData.drop n).map (·.body)

/-- `Server::handle_ouch_` and what follows from it. -/
def handleOuch (a : Arith) (clock : ℕ → UInt64) (g : Gateway) (m : Inbound) : Option (Gateway × Handled) := do
  let (entry, translation) ← g.entry.translate m.clientId m.msg
  let noteResponse := translation.note.bind fun note => (g.responder.onNote note m.noteTimestamp).2
  let (g, rejects) := { g with entry := entry }.takeNote translation.note m.noteTimestamp
  match translation.request with
  | none => some (g, ⟨m.clientId, m.msg, translation, noteResponse, rejects, [], []⟩)
  | some request =>
    let (g', deliveries) ← g.execute a clock (stamp m request, m.enginePopTsc)
    some (g', ⟨m.clientId, m.msg, translation, noteResponse, rejects, deliveries,
      g'.published g.book.out.marketData.length⟩)

/-- The messages of the clients, one after the other. -/
def run (a : Arith) (clock : ℕ → UInt64) : Gateway → List Inbound → Option (Gateway × List Handled)
  | g, [] => some (g, [])
  | g, m :: ms => do
    let (g, handled) ← g.handleOuch a clock m
    let (g, rest) ← run a clock g ms
    some (g, handled :: rest)

end Gateway

end Exchange
