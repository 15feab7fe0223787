import Exchange.Impl.Itch

/-!
# A subscriber of the feed

The book a subscriber of the ITCH feed keeps, and what each message does to it.
`apply` has no result where a message does not apply: it names an order that is not
displayed, introduces one that is, or takes more shares than there are.
-/

namespace Exchange.Spec

/-- An order as the feed displays it. -/
structure Displayed where
  orderReferenceNumber : ℕ
  side : UInt8
  shares : ℕ
  price : ℕ
  deriving DecidableEq, Repr

/-- The displayed orders in the order they were added; the orders of one side and price
are a price level, front to back. -/
abbrev Feed := List Displayed

namespace Feed

def find (f : Feed) (ref : ℕ) : Option Displayed := f.find? (·.orderReferenceNumber == ref)

/-- `n` shares of `ref` taken off: it is removed at zero. -/
def subtract (f : Feed) (ref n : ℕ) : Feed :=
  f.filterMap fun d =>
    if d.orderReferenceNumber = ref then
      if d.shares - n = 0 then none else some { d with shares := d.shares - n }
    else some d

def delete (f : Feed) (ref : ℕ) : Feed := f.filter (·.orderReferenceNumber != ref)

/-- What a message does. The engine publishes no other kind. -/
def apply (f : Feed) : ItchBody → Option Feed
  | .addOrder ref side shares _ price =>
    if (f.find ref).isNone then some (f ++ [⟨ref, side, shares, price⟩]) else none
  | .orderExecuted ref n _ => do
    let d ← f.find ref
    if n ≤ d.shares then some (f.subtract ref n) else none
  | .orderCancel ref n => do
    let d ← f.find ref
    if n < d.shares then some (f.subtract ref n) else none
  | .orderDelete ref => do
    let _ ← f.find ref
    some (f.delete ref)
  | .orderReplace orig new shares price => do
    let d ← f.find orig
    if (f.find new).isNone then some (f.delete orig ++ [⟨new, d.side, shares, price⟩]) else none
  | .orderExecutedWithPrice .. | .trade .. => none

/-- The messages applied in order. -/
def replay (f : Feed) (messages : List ItchBody) : Option Feed := messages.foldlM apply f

/-- A price level: reference numbers and shares, front to back. -/
def level (f : Feed) (side : UInt8) (price : ℕ) : List (ℕ × ℕ) :=
  (f.filter fun d => d.side == side && d.price == price).map fun d => (d.orderReferenceNumber, d.shares)

end Feed

end Exchange.Spec
