import Exchange.Impl.Server.Threads
import Exchange.Spec.Told

/-!
# What clients are told, timestamps aside

The messages of a run of the threads and of the run that handles one message after the
other, in the form in which the two are compared.
-/

namespace Exchange.Spec

/-- A message without its timestamp. -/
def untimed : OuchOutboundFrame → OuchOutboundFrame
  | .orderAccepted m => .orderAccepted { m with timestamp := 0 }
  | .orderReplaced m => .orderReplaced { m with timestamp := 0 }
  | .orderCanceled m => .orderCanceled { m with timestamp := 0 }
  | .orderExecuted m => .orderExecuted { m with timestamp := 0 }
  | .orderRejected m => .orderRejected { m with timestamp := 0 }
  | .none => .none

def timeless (r : OuchResponse) : OuchResponse := { r with ouch := untimed r.ouch }

/-- An event and what it was answered, without the timestamp. -/
def outcome (x : Event × Option OuchResponse) : Event × Option OuchResponse := (x.1, x.2.map timeless)

/-- The messages among `rs` that go to client `c`, without their timestamps. -/
def sentTo (c : ℕ) (rs : List OuchResponse) : List OuchResponse := (rs.map timeless).filter (·.clientId = c)

/-! ## One message after the other -/

/-- The events with their answers. -/
def deliveries (handled : List Handled) : List (Event × Option OuchResponse) :=
  handled.flatMap fun h => h.deliveries.map fun d => (d.event, d.response)

/-- The messages for gateway notes. -/
def rejections (handled : List Handled) : List OuchResponse := handled.filterMap (·.noteResponse)

/-! ## The threads -/

/-- The notes the responder has taken. -/
def applied (log : List Said) : List GatewayNote :=
  log.filterMap fun
    | .note note _ => some note
    | .event _ _ => none

/-- The events it has handled, with its answers. -/
def answered (log : List Said) : List (Event × Option OuchResponse) :=
  log.filterMap fun
    | .note _ _ => none
    | .event e r => some (e, r)

/-- Its messages for gateway notes. -/
def rejected (log : List Said) : List OuchResponse :=
  log.filterMap fun
    | .note _ r => r
    | .event _ _ => none

/-- The note for an order has been taken. -/
def Noted (log : List Said) (id : ℕ) : Prop := ∃ note ∈ applied log, noteId note = some id

end Exchange.Spec
