import Exchange.Spec.Session

/-!
# How long a connection lasts

When a connection was accepted and when it was last heard from, as TCP reported it, and what
there can be to drop a connection for.
-/

namespace Exchange.Spec

/-- When the connection is reported to be accepted. -/
def acceptedTsc (conn : ConnId) : InboundThread.Step → Option ℕ
  | .tcp _ recvTsc (.accepted conn') => if conn' = conn then some recvTsc else none
  | _ => none

/-- When the connection is heard from: its acceptance, or data. -/
def heardTsc (conn : ConnId) : InboundThread.Step → Option ℕ
  | .tcp _ recvTsc (.accepted conn') => if conn' = conn then some recvTsc else none
  | .tcp _ recvTsc (.data conn' _) => if conn' = conn then some recvTsc else none
  | _ => none

/-- The last time something was reported. -/
def lastTsc (tsc : InboundThread.Step → Option ℕ) (steps : List InboundThread.Step) : Option ℕ :=
  (steps.filterMap tsc).getLast?

/-- More than `limit` nanoseconds have passed since then. -/
def Passed (clock : Clock) (limit now : ℕ) (tsc : Option ℕ) : Prop :=
  ∃ t, tsc = some t ∧ limit < clock.ticksToNs (now - min now t)

/-- A scan finds a connection silent, or one that should have logged in. -/
def TimedOut (clock : Clock) (steps : List InboundThread.Step) (now : ℕ) (x : InboundConnection) : Prop :=
  if x.loggedIn then Passed clock InboundThread.idleTimeoutNs now (lastTsc (heardTsc x.conn) steps)
  else Passed clock InboundThread.loginTimeoutNs now (lastTsc (acceptedTsc x.conn) steps)

/-- The client logs out in the stream, or the stream is none of packets. -/
def Breaks (stream : List UInt8) : Prop :=
  parseSoupPacket (restOf stream) = .malformed ∨
    ∃ packet ∈ packetsIn stream, SoupPacketType.ofByte packet.type = some .logoutRequest

/-- What there is to drop a connection for, after `steps`. -/
def Cause (clock : Clock) (steps : List InboundThread.Step) (x : InboundConnection) : InboundThread.Step → Prop
  | .scan now => TimedOut clock steps now x
  | .tcp _ _ (.accepted _) => False
  | .tcp _ _ (.data conn bytes) =>
    conn = x.conn ∧ ¬ x.closing ∧ (¬ Short (x.partialBytes ++ bytes) ∨ Breaks (x.partialBytes ++ bytes))
  | .tcp _ _ (.peerClosed conn) => conn = x.conn
  | .tcp _ _ (.closed conn) => conn = x.conn
  | .tcp _ _ (.reset conn) => conn = x.conn

end Exchange.Spec
