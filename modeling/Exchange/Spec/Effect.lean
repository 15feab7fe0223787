import Exchange.Spec.Book

/-!
# What a request may change

An order trades as the events say: the EXECUTED events with liquidity flag `A` that name
it. Of the orders that rest, a request may change in another way only the one it names,
and that only for its owner.
-/

namespace Exchange.Spec

/-- The shares of order `id` that were executed as it rested. -/
def sharesAdded (id : ℕ) (events : List Event) : ℕ :=
  (events.map fun e =>
    if e.orderId = id ∧ e.type = .executed ∧ e.reason = .addedLiquidity then e.quantity else 0).sum

/-- The order after the events: gone if all its open shares were executed. -/
def settled (events : List Event) (r : Resting) : Option Resting :=
  if sharesAdded r.id events < r.openQuantity then some (r.trade (sharesAdded r.id events)) else none

/-- The order is the one its owner's request names. -/
def Named (req : EngineRequest) (r : Resting) : Prop := r.id = req.orderId ∧ r.clientId = req.clientId

instance (req : EngineRequest) (r : Resting) : Decidable (Named req r) := inferInstanceAs (Decidable (_ ∧ _))

end Exchange.Spec
