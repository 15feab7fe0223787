import Exchange.Spec.Book
import Exchange.Spec.Events

/-!
# Fills

What the EXECUTED events of a request say: they come two by two, one of the order that
came in and one of an order that rested.
-/

namespace Exchange.Spec

/-- The two events of a fill. -/
structure Fill where
  removed : Event
  added : Event

/-- The fills among the events, `none` if an EXECUTED event has no other next to it. -/
def fillsIn : List Event → Option (List Fill)
  | [] => some []
  | [e] => if e.type = .executed then none else some []
  | e :: e' :: es =>
    if e.type = .executed then
      if e'.type = .executed then (fillsIn es).map (⟨e, e'⟩ :: ·) else none
    else fillsIn (e' :: es)

/-- What is seen of one request: the orders that rested before it, and its events. -/
structure Seen where
  resting : ℕ → Option Resting
  req : EngineRequest
  events : List Event

/-- An order that comes in, as far as its fills are concerned; `none` is the limit of a
market order. -/
structure Aggressor where
  id : ℕ
  side : Side
  limit : Option ℕ

/-- The order a request brings: a replacement is on the side of the order it replaces. -/
def Seen.aggressor (s : Seen) : Option Aggressor :=
  match s.req.type with
  | .new => some ⟨s.req.orderId, s.req.side, if s.req.orderType = .limit then some s.req.price else none⟩
  | .replace => (s.resting s.req.orderId).map fun o => ⟨s.req.newOrderId, o.side, some s.req.price⟩
  | .cancel => none

/-- `p` is no better for an order on `side` than `p'`. -/
def NoBetter (side : Side) (p p' : ℕ) : Prop :=
  match side with
  | .bid => p' ≤ p
  | .ask => p ≤ p'

/-- A fill between the order that came in and one that rested on the other side, at the
price of the latter. -/
structure FairFill (s : Seen) (i : Aggressor) (f : Fill) : Prop where
  removed : f.removed.type = .executed ∧ f.removed.reason = .removedLiquidity ∧ f.removed.orderId = i.id
  added : f.added.type = .executed ∧ f.added.reason = .addedLiquidity
  matchNumber : f.removed.matchNumber = f.added.matchNumber
  price : f.removed.price = f.added.price
  quantity : f.removed.quantity = f.added.quantity ∧ 0 < f.removed.quantity
  resting : ∃ r, s.resting f.added.orderId = some r ∧ r.side = i.side.opposite ∧ r.price = f.added.price
  limit : ∀ l, i.limit = some l → NoBetter i.side l f.removed.price

/-- The fills of a request: each is fair, and their prices never improve. -/
def Fair (s : Seen) (fills : List Fill) : Prop :=
  fillsIn s.events = some fills ∧ (fills ≠ [] → ∃ i, s.aggressor = some i ∧ (∀ f ∈ fills, FairFill s i f) ∧
    fills.Pairwise fun f f' => NoBetter i.side f'.removed.price f.removed.price)

/-- The side of the order an EXECUTED event is for. -/
def Seen.sideOf (s : Seen) (e : Event) : Option Side :=
  if e.reason = .removedLiquidity then s.aggressor.map (·.side) else (s.resting e.orderId).map (·.side)

/-- The shares that orders on `side` trade in a request. -/
def Seen.shares (s : Seen) (side : Side) : ℕ :=
  ((s.events.filter fun e => e.type = .executed ∧ s.sideOf e = some side).map (·.quantity)).sum

/-- What is seen of a sequence of requests. -/
def seen (capacity : ℕ) : Book → List EngineRequest → List Seen
  | _, [] => []
  | b, req :: reqs =>
    ⟨b.find?, req, (process capacity b req).events⟩ :: seen capacity (process capacity b req).book reqs

end Exchange.Spec
