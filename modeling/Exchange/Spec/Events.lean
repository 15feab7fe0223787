import Exchange.Impl.Types
import Mathlib.Logic.Function.Basic

/-!
# What the events say of an order

The trace of an order id is the events that name it. An order is dead once it was
rejected or replaced, or once as many of its shares were executed or canceled as it was
opened with.
-/

namespace Exchange.Spec

/-- The order ids a request introduces. -/
def introduces (req : EngineRequest) : List ℕ :=
  match req.type with
  | .new => [req.orderId]
  | .cancel => []
  | .replace => [req.newOrderId]

/-- The events of order `id`. -/
def trace (id : ℕ) (events : List Event) : List Event := events.filter (·.orderId == id)

/-- An event that opens an order. -/
def Opens (e : Event) : Prop := e.type = .accepted ∨ e.type = .replaced

/-- An event that takes shares of an open order. -/
def TakesShares (e : Event) : Prop := (e.type = .executed ∨ e.type = .canceled) ∧ 0 < e.quantity

/-- The shares that events take. -/
def taken (events : List Event) : ℕ := (events.map (·.quantity)).sum

/-- Order `id` was replaced by another. -/
def ReplacedAway (id : ℕ) (events : List Event) : Prop := ∃ e ∈ events, e.type = .replaced ∧ e.origOrderId = id

/-- Order `id` has no shares left: it was rejected, replaced, or all its shares were
taken. -/
def Dead (id : ℕ) (events : List Event) : Prop :=
  (∃ e ∈ trace id events, e.type = .rejected) ∨ ReplacedAway id events ∨
    ∃ e rest, trace id events = e :: rest ∧ Opens e ∧ taken rest = e.quantity

end Exchange.Spec
