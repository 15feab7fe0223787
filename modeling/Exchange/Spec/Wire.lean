import Exchange.Impl.ItchCodec
import Exchange.Impl.Soup
import Mathlib.Data.Nat.Digits.Defs

/-!
# What is on the wire

The grammar of OUCH messages: the core fields of a message, then nothing, or an Appendage
Length and as many bytes of elements, each a length, a tag and a value. `Grammar` says
which bytes are a message of a type and `Denotes` which message they are, without saying how
they are read. `Numeric` says what number a numeric field of SoupBinTCP has written in it.
-/

namespace Exchange.Spec

/-! ## OUCH -/

/-- An element of an appendage: its length counts the tag and the value. -/
structure Element where
  length : UInt8
  tag : UInt8
  value : List UInt8
  length_eq : length.toNat = 1 + value.length

def Element.bytes (e : Element) : List UInt8 := e.length :: e.tag :: e.value

def elementBytes (elements : List Element) : List UInt8 := elements.flatMap Element.bytes

/-- The core fields, an Appendage Length and the elements whose bytes it counts. -/
def Appended (core : List (List UInt8)) (elements : List Element) (bytes : List UInt8) : Prop :=
  ∃ length, length.length = 2 ∧ ofBigEndian length = (elementBytes elements).length ∧
    bytes = core.flatten ++ length ++ elementBytes elements

section Message

variable {M : Type} [OuchMessage M]

/-- A tag that the message supports has a value of the field's width. -/
def Fits (M : Type) [OuchMessage M] (e : Element) : Prop :=
  ∀ t ∈ OuchMessage.tags (M := M), t.1.value = e.tag → e.value.length = t.2.size

/-- The bytes of a message of this type: its core fields, and the elements after them. -/
structure Grammar (M : Type) [OuchMessage M] (type : Char) (bytes : List UInt8) (core : List (List UInt8))
    (elements : List Element) : Prop where
  type : core.head? = some [chr type]
  widths : core.map List.length = (OuchMessage.core (M := M)).map (·.size)
  bytes : bytes = core.flatten ∧ elements = [] ∨ Appended core elements bytes
  fits : ∀ e ∈ elements, Fits M e

/-- The value of the last element with this tag. -/
def lastValue (tag : UInt8) (elements : List Element) : Option (List UInt8) :=
  (elements.filter (·.tag = tag)).getLast?.map (·.value)

/-- The message with these core fields and elements: each field is the big-endian reading of
its bytes. -/
structure Denotes (core : List (List UInt8)) (elements : List Element) (msg : M) : Prop where
  core : (OuchMessage.core (M := M)).map (·.get msg) = core
  tags : ∀ t ∈ OuchMessage.tags (M := M),
    t.2.get msg = (lastValue t.1.value elements).getD (t.2.get OuchMessage.blank)
  appendage : ∀ i, (OuchMessage.appendage msg).bits.toNat.testBit i = true ↔
    ∃ t ∈ OuchMessage.tags (M := M), t.1.value.toNat = i ∧ ∃ e ∈ elements, e.tag = t.1.value

/-- The appendage has only tags that the message supports, and the fields of the others have
their defaults. -/
structure Regular (msg : M) : Prop where
  supported : ∀ i, (OuchMessage.appendage msg).bits.toNat.testBit i = true →
    ∃ t ∈ OuchMessage.tags (M := M), t.1.value.toNat = i
  default : ∀ t ∈ OuchMessage.tags (M := M), ¬ (OuchMessage.appendage msg).has t.1 →
    t.2.get msg = t.2.get OuchMessage.blank

/-- The same message but for what is not on the wire: the fields of tags that are absent. -/
def SameMessage (msg msg' : M) : Prop :=
  OuchDetail.coreBytes msg = OuchDetail.coreBytes msg' ∧ OuchDetail.present msg = OuchDetail.present msg'

/-- The message as it is written: the lengths are those of what follows them. -/
def Written (bytes : List UInt8) (msg : M) : Prop :=
  ∃ elements, Appended (OuchDetail.coreBytes msg) elements bytes ∧
    elements.map (fun e => (e.tag, e.value)) = (OuchDetail.present msg).map fun t => (t.1.value, t.2)

end Message

/-! ## Frames -/

/-- What is said of the message of an inbound frame. -/
def ofInbound (p : Char → (M : Type) → [OuchMessage M] → M → Prop) : OuchInboundFrame → Prop
  | .none => False
  | .enterOrder m => p 'O' _ m
  | .replaceOrder m => p 'U' _ m
  | .cancelOrder m => p 'X' _ m

/-- What is said of the message of an outbound frame. -/
def ofOutbound (p : Char → (M : Type) → [OuchMessage M] → M → Prop) : OuchOutboundFrame → Prop
  | .none => False
  | .orderAccepted m => p 'A' _ m
  | .orderReplaced m => p 'U' _ m
  | .orderCanceled m => p 'C' _ m
  | .orderExecuted m => p 'E' _ m
  | .orderRejected m => p 'J' _ m

/-- The same message in both frames, as far as it is on the wire. -/
def SameInbound : OuchInboundFrame → OuchInboundFrame → Prop
  | .enterOrder m, .enterOrder m' => SameMessage m m'
  | .replaceOrder m, .replaceOrder m' => SameMessage m m'
  | .cancelOrder m, .cancelOrder m' => SameMessage m m'
  | _, _ => False

def SameOutbound : OuchOutboundFrame → OuchOutboundFrame → Prop
  | .orderAccepted m, .orderAccepted m' => SameMessage m m'
  | .orderReplaced m, .orderReplaced m' => SameMessage m m'
  | .orderCanceled m, .orderCanceled m' => SameMessage m m'
  | .orderExecuted m, .orderExecuted m' => SameMessage m m'
  | .orderRejected m, .orderRejected m' => SameMessage m m'
  | _, _ => False

/-- The bytes are a message of this type. -/
def Accepts (M : Type) [OuchMessage M] (type : Char) (bytes : List UInt8) : Prop :=
  ∃ core elements, Grammar M type bytes core elements

/-- The bytes are this message. -/
def ReadAs (bytes : List UInt8) (type : Char) (M : Type) [OuchMessage M] (msg : M) : Prop :=
  ∃ core elements, Grammar M type bytes core elements ∧ Denotes core elements msg

def InboundGrammar (bytes : List UInt8) : Prop :=
  Accepts OuchEnterOrder 'O' bytes ∨ Accepts OuchReplaceOrder 'U' bytes ∨ Accepts OuchCancelOrder 'X' bytes

def OutboundGrammar (bytes : List UInt8) : Prop :=
  Accepts OuchOrderAccepted 'A' bytes ∨ Accepts OuchOrderReplaced 'U' bytes ∨ Accepts OuchOrderCanceled 'C' bytes ∨
    Accepts OuchOrderExecuted 'E' bytes ∨ Accepts OuchOrderRejected 'J' bytes

/-! ## ITCH -/

/-- Nanoseconds since midnight, 0 for NONE. -/
def timestamp (frame : ItchFrame) : ℕ := frame.visit (fun _ _ m => (ItchMessage.header m).timestamp.toNat) 0

/-- The message with the low 48 bits of its timestamp. -/
def low48 {M : Type} [ItchMessage M] (msg : M) : M :=
  ItchMessage.setHeader msg { ItchMessage.header msg with
    timestamp := UInt64.ofNat ((ItchMessage.header msg).timestamp.toNat % 2 ^ 48) }

def frameLow48 : ItchFrame → ItchFrame
  | .none => .none
  | .addOrder m => .addOrder (low48 m)
  | .orderExecuted m => .orderExecuted (low48 m)
  | .orderExecutedWithPrice m => .orderExecutedWithPrice (low48 m)
  | .orderCancel m => .orderCancel (low48 m)
  | .orderDelete m => .orderDelete (low48 m)
  | .orderReplace m => .orderReplace (low48 m)
  | .trade m => .trade (low48 m)

/-! ## SoupBinTCP -/

/-- The number written with these decimal digits, the first one the most significant. -/
def decimal (digits : List UInt8) : ℕ := Nat.ofDigits 10 (digits.reverse.map (·.toNat - (chr '0').toNat))

/-- `field` is the number `n`: digits, with only spaces around them. -/
def Numeric (field : List UInt8) (n : ℕ) : Prop :=
  ∃ before digits after, field = before ++ (digits ++ after) ∧ (∀ c ∈ before, c = chr ' ') ∧
    digits ≠ [] ∧ (∀ c ∈ digits, chr '0' ≤ c ∧ c ≤ chr '9') ∧ (∀ c ∈ after, c = chr ' ') ∧ decimal digits = n

/-- A call of one of the encoders. -/
inductive SoupCall
  | empty (type : SoupPacketType)
  | loginRequest (login : SoupLoginRequest)
  | loginAccepted (accepted : SoupLoginAccepted)
  | loginRejected (reason : UInt8)
  | unsequenced (msg : OuchInboundFrame)
  | sequenced (msg : OuchOutboundFrame)

namespace SoupCall

/-- What the call writes into a buffer of `room` bytes. -/
def encode (room : ℕ) : SoupCall → List UInt8
  | empty type => encodeSoupEmpty type room
  | loginRequest login => encodeSoupLoginRequest login room
  | loginAccepted accepted => encodeSoupLoginAccepted accepted room
  | loginRejected reason => encodeSoupLoginRejected reason room
  | unsequenced msg => encodeSoupUnsequenced msg room
  | sequenced msg => encodeSoupSequenced msg room

/-- Sequence numbers have 64 bits. -/
def Ok : SoupCall → Prop
  | loginRequest login => login.requestedSequenceNumber < 2 ^ 64
  | loginAccepted accepted => accepted.sequenceNumber < 2 ^ 64
  | _ => True

/-- The call wrote these bytes. -/
def Produces (call : SoupCall) (bytes : List UInt8) : Prop :=
  call.Ok ∧ bytes ≠ [] ∧ ∃ room, call.encode room = bytes

/-- The packet is the one of the call: its payload is decoded to the login, or to the message as far
as it is on the wire. -/
def Carried (packet : SoupPacket) : SoupCall → Prop
  | empty type => packet = ⟨type.byte, []⟩
  | loginRequest login =>
    packet.type = SoupPacketType.loginRequest.byte ∧ decodeSoupLoginRequest packet.payload = some login
  | loginAccepted accepted =>
    packet.type = SoupPacketType.loginAccepted.byte ∧ decodeSoupLoginAccepted packet.payload = some accepted
  | loginRejected reason => packet = ⟨SoupPacketType.loginRejected.byte, [reason]⟩
  | unsequenced msg =>
    packet.type = SoupPacketType.unsequencedData.byte ∧ SameInbound msg (decodeInboundOuch packet.payload) ∧
      (ofInbound (fun _ _ _ => Regular) msg → decodeInboundOuch packet.payload = msg)
  | sequenced msg =>
    packet.type = SoupPacketType.sequencedData.byte ∧ SameOutbound msg (decodeOutboundOuch packet.payload) ∧
      (ofOutbound (fun _ _ _ => Regular) msg → decodeOutboundOuch packet.payload = msg)

end SoupCall

end Exchange.Spec
