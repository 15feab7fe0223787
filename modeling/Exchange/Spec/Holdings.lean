import Exchange.Spec.Interleaving
import Exchange.Spec.Tape

/-!
# The orders a client knows of

A client that applies the messages it is sent, in order, knows of its open orders: Order
Accepted and Order Replaced open one, the latter in the place of another, Order Executed and
Order Canceled take shares of it, and an order without shares is gone. `restingOf` is what the
exchange has for the client.
-/

namespace Exchange.Spec

/-- An open order as its client knows it. -/
structure Held where
  orderReferenceNumber : UInt64
  side : UInt8
  price : UInt64
  shares : ℕ
  deriving DecidableEq

/-- The open orders of a client, by UserRefNum. -/
abbrev Holdings := UInt32 → Option Held

namespace Holdings

/-- `shares` are taken of the order with UserRefNum `u`. -/
def take (h : Holdings) (u : UInt32) (shares : ℕ) : Holdings :=
  Function.update h u ((h u).bind fun o =>
    if shares < o.shares then some { o with shares := o.shares - shares } else none)

def apply (h : Holdings) : OuchOutboundFrame → Holdings
  | .orderAccepted m =>
    Function.update h m.userRefNum (some ⟨m.orderReferenceNumber, m.side, m.price, m.quantity.toNat⟩)
  | .orderReplaced m =>
    Function.update (Function.update h m.origUserRefNum none) m.userRefNum
      (some ⟨m.orderReferenceNumber, m.side, m.price, m.quantity.toNat⟩)
  | .orderCanceled m => h.take m.userRefNum m.decrementShares.toNat
  | .orderExecuted m => h.take m.userRefNum m.executedShares.toNat
  | .orderRejected _ => h
  | .none => h

end Holdings

/-- What the messages say. -/
def holdings (messages : List OuchOutboundFrame) : Holdings := messages.foldl Holdings.apply fun _ => none

/-- The messages to client `c`. -/
def toldTo (c : ℕ) (handled : List Handled) : List OuchOutboundFrame :=
  ((handled.flatMap told).filter (·.clientId = c)).map (·.ouch)

/-- The order client `c` has in the book under UserRefNum `u`. -/
def restingOf (entry : OrderEntry) (book : Orderbook) (c : ℕ) (u : UInt32) : Option Held := do
  let entered ← entry.orders.lookup (OrderEntry.key c u)
  let x ← book.orders.lookup entered.orderId
  let order := book.order x
  some ⟨UInt64.ofNat order.id, toOuchSide order.side, Validation.toOuchPrice order.price, order.openQuantity⟩

end Exchange.Spec
