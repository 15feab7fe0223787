import Exchange.Impl.Server.Inbound

/-!
# Sessions

What the bytes sent on a connection are meant to be, and which notes the inbound thread
can push.
-/

namespace Exchange.Spec

/-! ## The stream of a connection -/

/-- A packet that follows Login Accepted. -/
inductive SoupItem
  | heartbeat
  | data (packet : List UInt8)

namespace SoupItem

def bytes : SoupItem → List UInt8
  | heartbeat => Outbound.heartbeatPacket
  | data packet => packet

def packet? : SoupItem → Option (List UInt8)
  | heartbeat => none
  | data packet => some packet

end SoupItem

/-- The Sequenced Data packets among the items. -/
def packetsOf (items : List SoupItem) : List (List UInt8) := items.filterMap (·.packet?)

/-- The bytes of the items, one after the other. -/
def bytesOf (items : List SoupItem) : List UInt8 := items.flatMap (·.bytes)

/-- The beginning of Login Accepted, heartbeats, and the session's packets from number
`start` on. -/
def Stream (packets : List (List UInt8)) (start : ℕ) (bytes : List UInt8) : Prop :=
  1 ≤ start ∧ start ≤ packets.length + 1 ∧ ∃ items, packetsOf items <+: packets.drop (start - 1) ∧
    bytes <+: Outbound.loginAcceptedPacket start ++ bytesOf items

/-- What may have been sent on a connection, given how its login was answered. -/
def Sent (appended : ℕ → List (List UInt8)) (login : Option Login) (bytes : List UInt8) : Prop :=
  match login with
  | none => bytes = []
  | some (.rejected reason) => bytes <+: Outbound.loginRejectedPacket reason
  | some (.accepted clientId start) => Stream (appended clientId) start bytes

/-- The connection in a slot has bytes left to send, of its control packet or of its
session's log. -/
def Unsent (s : Outbound) (slot : ℕ) : Prop :=
  let connection := s.connections slot
  let session := s.sessions connection.clientId
  connection.controlSent < connection.control.length ∨
    connection.clientId ≠ 0 ∧ ∃ log, session.log = some log ∧ session.cursor < log.endOffset

/-! ## The notes of the inbound thread -/

/-- The notes have a login of the connection. -/
def LoggedIn (past : List ServerNote) (conn : ConnId) : Prop :=
  (∃ clientId sequence, .loginAccepted clientId conn sequence ∈ past) ∨ ∃ reason, .loginRejected conn reason ∈ past

/-- The notes say that the connection is over. -/
def Disconnected (past : List ServerNote) (conn : ConnId) : Prop := ∃ clientId, .disconnected clientId conn ∈ past

/-- The connection may log in: it has not before, it is not over, and the connections
that logged in on its slot are. The stack's generations start at 1. -/
def MayLogin (past : List ServerNote) (conn : ConnId) : Prop :=
  conn.generation ≠ 0 ∧ ¬ LoggedIn past conn ∧ ¬ Disconnected past conn ∧
    ∀ conn', conn'.slot = conn.slot → LoggedIn past conn' → Disconnected past conn'

/-- The inbound thread can push the note after the notes of the past: a session's next
login follows the end of its last connection. -/
def Pushable (past : List ServerNote) : ServerNote → Prop
  | .gateway _ => True
  | .loginAccepted clientId conn _ => clientId ≠ 0 ∧ MayLogin past conn ∧
      ∀ conn' sequence, .loginAccepted clientId conn' sequence ∈ past → Disconnected past conn'
  | .loginRejected conn _ => MayLogin past conn
  | .disconnected _ _ => True

/-- Notes that the inbound thread can push, one after the other. -/
def Pushed (notes : List ServerNote) : Prop := ∀ past note rest, notes = past ++ note :: rest → Pushable past note

/-- If the note is the end of a connection, it is the first, and the other connections that
logged in on the slot are over. -/
def Endable (past : List ServerNote) : ServerNote → Prop
  | .disconnected _ conn => conn.generation ≠ 0 ∧ ¬ Disconnected past conn ∧
      ∀ conn', conn'.slot = conn.slot → conn' ≠ conn → LoggedIn past conn' → Disconnected past conn'
  | _ => True

/-- Notes with the end of each connection once, before those of the next one in its slot. -/
def EndedOnce (notes : List ServerNote) : Prop := ∀ past note rest, notes = past ++ note :: rest → Endable past note

/-- The note is about the connection. -/
def about (conn : ConnId) : ServerNote → Bool
  | .gateway _ => false
  | .loginAccepted _ conn' _ => conn' = conn
  | .loginRejected conn' _ => conn' = conn
  | .disconnected _ conn' => conn' = conn

/-- The notes about a connection. -/
def notesAbout (conn : ConnId) (notes : List ServerNote) : List ServerNote := notes.filter (about conn)

/-- At most one login of the connection, then at most one end. -/
def LoginThenEnd (conn : ConnId) (notes : List ServerNote) : Prop :=
  ∃ login leave, notes = login ++ leave ∧ (login = [] ∨ ∃ note, login = [note] ∧ LoggedIn [note] conn) ∧
    (leave = [] ∨ ∃ clientId, leave = [.disconnected clientId conn])

/-! ## What TCP reports -/

/-- The event is the end of a connection. -/
def endOf : InboundThread.TcpEvent → Option ConnId
  | .accepted _ => none
  | .data _ _ => none
  | .peerClosed conn => some conn
  | .closed conn => some conn
  | .reset conn => some conn

/-- The connection whose acceptance is reported. -/
def acceptOf : InboundThread.Step → Option ConnId
  | .tcp _ _ (.accepted conn) => some conn
  | _ => none

/-- The connections that were accepted and whose end has not been reported, slot by slot. -/
def liveAfter (live : ℕ → Option ConnId) : InboundThread.Step → ℕ → Option ConnId
  | .scan _ => live
  | .tcp _ _ (.accepted conn) => Function.update live conn.slot (some conn)
  | .tcp _ _ event =>
    match endOf event with
    | none => live
    | some conn => if live conn.slot = some conn then Function.update live conn.slot none else live

/-- A connection is accepted in a slot only after the end of the slot's previous one was
reported. -/
def Reported (live : ℕ → Option ConnId) : List InboundThread.Step → Prop
  | [] => True
  | step :: steps =>
    (∀ conn, acceptOf step = some conn → live conn.slot = none) ∧ Reported (liveAfter live step) steps

/-! ## The packets of a stream -/

/-- The packets `parse_soup_packet` finds in a stream one after the other, with the bytes
each takes, and what it stops at; `fuel` is at least the number of bytes. -/
def cut : ℕ → List UInt8 → List (SoupPacket × ℕ) × List UInt8
  | 0, stream => ([], stream)
  | fuel + 1, stream =>
    match parseSoupPacket stream with
    | .packet packet consumed =>
      let (packets, rest) := cut fuel (stream.drop consumed)
      ((packet, consumed) :: packets, rest)
    | _ => ([], stream)

def packetsIn (stream : List UInt8) : List SoupPacket := (cut stream.length stream).1.map Prod.fst

/-- What follows the last whole packet of a stream. -/
def restOf (stream : List UInt8) : List UInt8 := (cut stream.length stream).2

/-- No packet of the stream, also the one it ends in, is announced to be longer than `max`
bytes. -/
def UpTo (max : ℕ) (stream : List UInt8) : Prop :=
  (∀ p ∈ (cut stream.length stream).1, p.2 ≤ max) ∧
    (2 ≤ (restOf stream).length → InboundThread.packetLen (restOf stream) ≤ max)

/-- No packet of the stream, also the one it ends in, is announced to be longer than
`partial`. -/
def Short (stream : List UInt8) : Prop := UpTo InboundThread.maxInboundSoupPacket stream

/-- Packets passed to `handle_soup_packet_` as long as the connection takes input, and then
the rest of the stream: what cannot begin a packet ends the connection. `retained i` is
`retained_from_` when packet `i` is handled. -/
def handleAll (slot : ℕ) (rest : List UInt8) (retained : ℕ → ℕ → ℕ) (t : InboundThread) :
    List SoupPacket → Option InboundThread
  | [] =>
    if parseSoupPacket rest = .malformed then some (t.disconnect slot)
    else some (t.setConnection slot { t.connections slot with partialBytes := rest })
  | packet :: packets => do
    let t ← t.handleSoupPacket (retained 0) slot packet
    if t.takesInput slot then handleAll slot rest (fun i => retained (i + 1)) t packets else some t

/-- What a whole stream comes to. -/
def handleStream (slot : ℕ) (retained : ℕ → ℕ → ℕ) (t : InboundThread) (stream : List UInt8) : Option InboundThread :=
  handleAll slot (restOf stream) retained t (packetsIn stream)

/-- A segment that TCP reports. -/
structure Segment where
  retainedFrom : ℕ → ℕ
  recvTsc : ℕ
  bytes : List UInt8

def Segment.step (conn : ConnId) (segment : Segment) : InboundThread.Step :=
  .tcp segment.retainedFrom segment.recvTsc (.data conn segment.bytes)

/-- The notes of a run of the outbound thread. -/
def notesOf (steps : List Outbound.Step) : List ServerNote :=
  steps.filterMap fun
    | .note note => some note
    | _ => none

end Exchange.Spec
