import Exchange.Impl.Client.EventLoop
import Exchange.Spec.Entry
import Exchange.Spec.Session

/-!
# Clients

What the log of a client of the load generator says: about its connection, its stream in
both directions, the Enters that are unanswered, and its failures to connect.
-/

namespace Exchange.Spec

/-- What happened, without the states. -/
def eventsLogged (log : List Moment) : List ClientEvent := log.map Moment.event

/-! ## Connections -/

def connectionAfter (conn : List ClientEvent) : ClientEvent → List ClientEvent
  | .attempt _ _ => []
  | event => conn ++ [event]

/-- What has happened on the connection that was made last: everything since the last
attempt to connect. -/
def connectionOf (events : List ClientEvent) : List ClientEvent := events.foldl connectionAfter []

/-- A Login Accepted is handled. -/
def AcceptsLogin : ClientEvent → Prop
  | .handed packet _ => packet.type = SoupPacketType.loginAccepted.byte
  | _ => False

instance (event : ClientEvent) : Decidable (AcceptsLogin event) := by
  cases event <;> unfold AcceptsLogin <;> infer_instance

/-! ## What is sent -/

/-- The bytes `send()` took. -/
def bytesSent (events : List ClientEvent) : List UInt8 :=
  events.flatMap fun
    | .sent bytes => bytes
    | _ => []

/-- The packets that were appended to the write buffer. -/
def packetsQueued (events : List ClientEvent) : List (List UInt8) :=
  events.filterMap fun
    | .queued _ packet => some packet
    | _ => none

/-- The messages in the Unsequenced Data packets that were appended. -/
def messagesQueued (events : List ClientEvent) : List OuchInboundFrame :=
  events.filterMap fun
    | .queued (.message msg) _ => some msg
    | _ => none

/-- The message the server finds in a packet. -/
def messageIn (packet : SoupPacket) : Option OuchInboundFrame :=
  if packet.type = SoupPacketType.unsequencedData.byte then some (decodeInboundOuch packet.payload) else none

/-- The server's checks let the message through. -/
def Passes : OuchInboundFrame → Prop
  | .enterOrder m => ∃ check, Validation.checkEnter m Gateway.band = .ok check
  | .replaceOrder m => ∀ origSide, (Validation.checkReplace m origSide Gateway.band).isSome
  | _ => True

/-- The bytes are one whole packet of that type. -/
def IsPacket (type : SoupPacketType) (bytes : List UInt8) : Prop :=
  ∃ payload, parseSoupPacket bytes = .packet ⟨type.byte, payload⟩ bytes.length

/-- A Login Request, and then Unsequenced Data and Client Heartbeats; or nothing yet. -/
def ClientPackets (packets : List (List UInt8)) : Prop :=
  packets = [] ∨ ∃ login rest, packets = login :: rest ∧ IsPacket .loginRequest login ∧
    ∀ packet ∈ rest, IsPacket .unsequencedData packet ∨ IsPacket .clientHeartbeat packet

/-- The UserRefNum of a message that is queued, if it has one of its own. -/
def newUserRefNum : ClientEvent → Option UInt32
  | .queued (.message msg) _ => ownRefNum msg
  | _ => none

def newUserRefNums (events : List ClientEvent) : List UInt32 := events.filterMap newUserRefNum

/-! ## What is received -/

/-- The bytes `recv()` returned. -/
def bytesReceived (events : List ClientEvent) : List UInt8 :=
  events.flatMap fun
    | .recv _ bytes => bytes
    | _ => []

/-- The packets that were passed to `handleSoupPacket`. -/
def packetsHanded (events : List ClientEvent) : List SoupPacket :=
  events.filterMap fun
    | .handed packet _ => some packet
    | .rejected packet => some packet
    | _ => none

/-- How many bytes `advance` went on by. -/
def bytesConsumed (events : List ClientEvent) : ℕ :=
  (events.map fun
    | .handed _ n => n
    | _ => 0).sum

/-! ## The pipeline -/

/-- The UserRefNum of an Enter that is written. -/
def enterRef : ClientEvent → Option UInt32
  | .queued (.message (.enterOrder msg)) _ => some msg.userRefNum
  | _ => none

/-- The UserRefNum in an Accepted or Rejected that is handled. -/
def answerRef : ClientEvent → Option UInt32
  | .handed packet _ =>
    if packet.type = SoupPacketType.sequencedData.byte then
      match decodeOutboundOuch packet.payload with
      | .orderAccepted msg => some msg.userRefNum
      | .orderRejected msg => some msg.userRefNum
      | _ => none
    else none
  | _ => none

def unansweredAfter (refs : List UInt32) : ClientEvent → List UInt32
  | .attempt _ _ => []
  | .closed _ => []
  | event => refs.diff (answerRef event).toList ++ (enterRef event).toList

/-- The Enters written on the current connection whose Accepted or Rejected has not been
handled. -/
def unanswered (events : List ClientEvent) : List UInt32 := events.foldl unansweredAfter []

/-- The exchange answers only Enters it was sent, and each once. -/
def AnswersOnce (events : List ClientEvent) : Prop :=
  (events.filterMap answerRef).Nodup ∧
    ∀ past ∈ events.inits, past.filterMap answerRef ⊆ past.filterMap enterRef

instance (events : List ClientEvent) : Decidable (AnswersOnce events) := inferInstanceAs (Decidable (_ ∧ _))

/-- An answer to an Enter of an earlier connection comes only while no Enter of the current
one is unanswered. -/
def ReplaysFirst (events : List ClientEvent) : Prop :=
  ∀ past event rest, events = past ++ event :: rest →
    ∀ ref, answerRef event = some ref → ref ∈ unanswered past ∨ unanswered past = []

instance (events : List ClientEvent) : Decidable (ReplaysFirst events) :=
  decidable_of_iff (∀ i, i < events.length → ((events[i]?.bind answerRef).all fun ref =>
    ref ∈ unanswered (events.take i) ∨ unanswered (events.take i) = []) = true) <| by
    constructor
    · rintro h past event rest rfl ref href
      simpa [href] using h past.length (by simp)
    · intro h i hi
      rw [List.getElem?_eq_getElem hi, Option.all_eq_true]
      intro ref href
      exact decide_eq_true (h (events.take i) events[i] (events.drop (i + 1)) (by simp) ref href)

/-! ## Responses -/

/-- What a client is told about an order. -/
inductive Reply
  | accepted
  | rejected
  | executed
  | canceled
  | replaced
  deriving DecidableEq

def Reply.of : OuchOutboundFrame → Option Reply
  | .orderAccepted _ => some .accepted
  | .orderRejected _ => some .rejected
  | .orderExecuted _ => some .executed
  | .orderCanceled _ => some .canceled
  | .orderReplaced _ => some .replaced
  | .none => none

/-- The message in a Sequenced Data packet that is handled. -/
def replyIn : ClientEvent → OuchOutboundFrame
  | .handed packet _ =>
    if packet.type = SoupPacketType.sequencedData.byte then decodeOutboundOuch packet.payload else .none
  | _ => .none

/-- The messages that are handled, by their kinds. -/
def replies (events : List ClientEvent) : List Reply := events.filterMap fun event => Reply.of (replyIn event)

/-- The UserRefNum of an order that a message says is there. -/
def reportedRef : OuchOutboundFrame → Option UInt32
  | .orderAccepted msg => some msg.userRefNum
  | .orderReplaced msg => some msg.userRefNum
  | _ => none

/-- The UserRefNums of the orders a client was told are there. -/
def reportedRefs (events : List ClientEvent) : List UInt32 := events.filterMap fun event => reportedRef (replyIn event)

/-- The UserRefNum of the order that a Cancel or a Replace is for. -/
def targetRef : OuchInboundFrame → Option UInt32
  | .cancelOrder msg => some msg.userRefNum
  | .replaceOrder msg => some msg.origUserRefNum
  | _ => none

/-! ## Failures to connect -/

/-- When an attempt failed, or a connection ended. -/
def failureTime : ClientEvent → Option ℕ
  | .attempt time false => some time
  | .closed time => some time
  | _ => none

/-- The time of the last failure. -/
def lastFailure (events : List ClientEvent) : Option ℕ := (events.filterMap failureTime).getLast?

def failuresAfter (n : ℕ) (event : ClientEvent) : ℕ :=
  if AcceptsLogin event then 0 else if (failureTime event).isSome then n + 1 else n

/-- The failures since the last Login Accepted. -/
def failures (events : List ClientEvent) : ℕ := events.foldl failuresAfter 0

/-- How long a client waits after so many failures: 50 ms for each, up to
`RECONNECT_DELAY_MS`. -/
def backoffNs (failures : ℕ) : ℕ := min (50 * failures) ClientState.reconnectDelayMs * 1000000

end Exchange.Spec
