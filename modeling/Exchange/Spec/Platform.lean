import Exchange.Impl.Platform
import Exchange.Spec.Interleaving

/-!
# What a session is sent

The responses that go to a client, in the order the responder gave them, and the packets its
session should have for them.
-/

namespace Exchange.Spec

/-- What the responder answered. -/
def responseOf : Said → Option OuchResponse
  | .note _ response => response
  | .event _ response => response

/-- The responses that go to client `c`. -/
def responsesTo (c : ℕ) (said : List Said) : List OuchResponse :=
  (said.filterMap responseOf).filter (·.clientId = c)

/-- Their packets. -/
def packetsTo (c : ℕ) (said : List Said) : List (List UInt8) :=
  (responsesTo c said).map fun r => encodeSoupSequenced r.ouch maxSoupPacket

end Exchange.Spec
