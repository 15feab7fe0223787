import Exchange.Framework.Table
import Exchange.Impl.Engine.OrderPool
import Exchange.Impl.Itch

/-!
# The order book

`orderbook.hpp` and `orderbook.cpp`.

A function that may run into undefined behaviour (a ladder index outside the
array, a null `Order*`) returns `none` there. The bid and the ask half of the book
are the same code with the comparisons turned around, so both are a `Ladder` and
its functions take the `Side`. The book's `while` loops are recursions: `match`
takes as many iterations as there are orders in the book, and has no result
(`none`) if they do not end it.
-/

namespace Exchange

/-! ## Output -/

/-- What the book takes from outside: the market data ring's answer to the `n`-th
`push` (a full ring drops), the clock's `ns_since_midnight`, and the time stamp
counter when the `n`-th event is pushed. -/
structure Env where
  marketDataRoom : ℕ → Bool
  nsSinceMidnight : ℕ → ℕ
  rdtsc : ℕ → ℕ

/-- The rings the book writes to: every event pushed to `out_ring_`, every message
`market_data_ring_` took, and `Context::answered` of the request being processed. -/
structure Output where
  env : Env
  outRing : List EngineEvent := []
  marketData : List ITCH := []
  marketDataDrops : ℕ := 0
  answered : Bool := false

/-- `Orderbook::Context`; `answered` is in `Output`. -/
structure Context where
  req : EngineRequest
  enginePopTsc : ℕ
  itchTimestamp : ℕ

namespace Output

/-- `Orderbook::emit`: a full ring is waited for, so every event is pushed. -/
def emit (o : Output) (ctx : Context) (event : Event) : Output :=
  { o with
    outRing := o.outRing ++ [{
      event with
      answersRequest := !o.answered
      readBeginTsc := ctx.req.readBeginTsc
      recvTsc := ctx.req.recvTsc
      serverPushTsc := ctx.req.serverPushTsc
      enginePopTsc := ctx.enginePopTsc
      enginePushTsc := o.env.rdtsc o.outRing.length }]
    answered := true }

/-- `Orderbook::itch_header`. -/
def itchHeader (ctx : Context) : ItchHeader :=
  { stockLocate := bookStockLocate, trackingNumber := 0, timestamp := ctx.itchTimestamp }

/-- `Orderbook::publish`, of a message with header `itch_header(ctx)`. -/
def publish (o : Output) (ctx : Context) (body : ItchBody) : Output :=
  if o.env.marketDataRoom (o.marketData.length + o.marketDataDrops) then
    { o with marketData := o.marketData ++ [{ header := itchHeader ctx, body := body }] }
  else { o with marketDataDrops := o.marketDataDrops + 1 }

end Output

/-! ## One side of the book -/

/-- One side's levels, its best price and the number of its non-empty levels. The
level at `price` is the array's element `price - MIN_PRICE`. -/
structure Ladder where
  levels : ℕ → PriceLevelQueue := fun _ => {}
  best : ℕ
  nonEmpty : ℕ := 0

/-- `MIN_PRICE` for an empty bid side, `MAX_PRICE` for an empty ask side. -/
def Side.worst : Side → ℕ
  | .bid => minPrice
  | .ask => maxPrice

/-- A price that improves on the best one: `price > best_bid_price_`, `price <
best_ask_price_`. -/
def Side.better : Side → ℕ → ℕ → Bool
  | .bid, price, best => price > best
  | .ask, price, best => price < best

/-- A limit that reaches the best price of the other side: `price >= best_ask_price_`,
`price <= best_bid_price_`. -/
def Side.reaches : Side → ℕ → ℕ → Bool
  | .bid, price, best => price ≥ best
  | .ask, price, best => price ≤ best

namespace Ladder

/-- The level at `price`, `none` outside the array. -/
def level? (l : Ladder) (price : ℕ) : Option PriceLevelQueue :=
  if InBand price then some (l.levels price) else none

def setLevel (l : Ladder) (price : ℕ) (q : PriceLevelQueue) : Ladder :=
  { l with levels := Function.update l.levels price q }

/-- The loop of `update_best_bid`, from `price` down. -/
def scanDown (levels : ℕ → PriceLevelQueue) : ℕ → ℕ
  | 0 => 0
  | price + 1 =>
    if minPrice < price + 1 ∧ (levels (price + 1)).empty then scanDown levels price else price + 1

/-- The loop of `update_best_ask`, from `price` up: `fuel` is at least
`MAX_PRICE - price`. -/
def scanUp (levels : ℕ → PriceLevelQueue) : ℕ → ℕ → ℕ
  | 0, price => price
  | fuel + 1, price =>
    if price < maxPrice ∧ (levels price).empty then scanUp levels fuel (price + 1) else price

/-- `Orderbook::update_best_bid`. -/
def updateBestBid (l : Ladder) : Ladder := { l with best := scanDown l.levels l.best }

/-- `Orderbook::update_best_ask`. -/
def updateBestAsk (l : Ladder) : Ladder := { l with best := scanUp l.levels (maxPrice - l.best) l.best }

def updateBest : Side → Ladder → Ladder
  | .bid => updateBestBid
  | .ask => updateBestAsk

/-- The side's part of `Orderbook::rest`. -/
def rest (side : Side) (l : Ladder) (m : Arena) (resting : ℕ) : Option (Ladder × Arena) := do
  let price := (m resting).price
  let level ← l.level? price
  let l := if level.empty then { l with nonEmpty := l.nonEmpty + 1 } else l
  let (level, m) := level.push m resting
  let l := l.setLevel price level
  let l := if side.better price l.best then { l with best := price } else l
  some (l, m)

/-- The side's part of `Orderbook::unlink`. -/
def unlink (side : Side) (l : Ladder) (m : Arena) (order : ℕ) : Option (Ladder × Arena) := do
  let price := (m order).price
  let level ← l.level? price
  let (level, m) := level.remove m order
  let l := l.setLevel price level
  if level.empty then
    let l := { l with nonEmpty := l.nonEmpty - 1 }
    if l.nonEmpty = 0 then some ({ l with best := side.worst }, m)
    else if price = l.best then some (l.updateBest side, m)
    else some (l, m)
  else some (l, m)

end Ladder

/-! ## The book -/

structure Orderbook where
  pool : OrderPool
  bids : Ladder
  asks : Ladder
  orders : AList (fun _ : ℕ => ℕ)
  nextMatchNumber : ℕ
  out : Output

namespace Orderbook

/-- The constructor, for a pool of `capacity` orders (`PREALLOCATION_COUNT` in the
source). -/
def new (capacity : ℕ) (env : Env) : Orderbook where
  pool := OrderPool.new capacity
  bids := { best := minPrice }
  asks := { best := maxPrice }
  orders := ∅
  nextMatchNumber := 1
  out := { env := env }

def ladder (b : Orderbook) : Side → Ladder
  | .bid => b.bids
  | .ask => b.asks

def setLadder (b : Orderbook) (l : Ladder) : Side → Orderbook
  | .bid => { b with bids := l }
  | .ask => { b with asks := l }

def order (b : Orderbook) (x : ℕ) : Order := b.pool.arena x

/-- `Orderbook::order_count`. -/
def orderCount (b : Orderbook) : ℕ := b.orders.size

def setArena (b : Orderbook) (m : Arena) : Orderbook := { b with pool := { b.pool with arena := m } }

def emit (b : Orderbook) (ctx : Context) (event : Event) : Orderbook :=
  { b with out := b.out.emit ctx event }

def publish (b : Orderbook) (ctx : Context) (body : ItchBody) : Orderbook :=
  { b with out := b.out.publish ctx body }

/-- `Orderbook::crosses`. -/
def crosses (b : Orderbook) (side : Side) (type : OrderType) (price : ℕ) : Bool :=
  let l := b.ladder side.opposite
  if l.nonEmpty = 0 then false
  else type == .market || side.reaches price l.best

/-- `Orderbook::unlink`. -/
def unlink (b : Orderbook) (order : ℕ) : Option Orderbook := do
  let side := (b.order order).side
  let (l, m) ← (b.ladder side).unlink side b.pool.arena order
  some ((b.setLadder l side).setArena m)

/-- `Orderbook::release`. -/
def release (b : Orderbook) (order : ℕ) : Orderbook :=
  { b with
    orders := b.orders.erase (b.order order).id
    pool := b.pool.deallocate order }

/-- `Orderbook::rest`; dereferencing a null `Order*` is `none`. -/
def rest (b : Orderbook) (ctx : Context) (order : Order) (publishAdd : Bool) : Option Orderbook := do
  let (resting, pool) ← b.pool.allocate order
  let b := { b with pool := pool, orders := b.orders.emplace (pool.arena resting).id resting }
  let side := (b.order resting).side
  let (l, m) ← (b.ladder side).rest side b.pool.arena resting
  let b := (b.setLadder l side).setArena m
  let r := b.order resting
  if publishAdd then
    some (b.publish ctx (.addOrder r.id (toOuchSide r.side) r.openQuantity bookSymbol (toItchPrice r.price)))
  else some b

/-- `open_after`: the shares left after a request that sets a chain's total
liability. -/
def openAfter (A : Arith) (totalLiability executed : ℕ) : Option ℕ :=
  if executed < totalLiability then A.sub totalLiability executed else some 0

/-- The loop of `Orderbook::match`, with `filled` shares filled so far. -/
def matchLoop (A : Arith) (ctx : Context) (id clientId : ℕ) (side : Side) (type : OrderType)
    (price quantity : ℕ) : ℕ → ℕ → Orderbook → Option (ℕ × Orderbook)
  | 0, filled, b => if filled < quantity ∧ b.crosses side type price then none else some (filled, b)
  | fuel + 1, filled, b =>
    if filled < quantity ∧ b.crosses side type price then do
      let levelPrice := (b.ladder side.opposite).best
      let level ← (b.ladder side.opposite).level? levelPrice
      let resting ← level.front
      let r := b.order resting
      let left ← A.sub quantity filled
      let fill := min left r.openQuantity
      let matchNumber := b.nextMatchNumber
      let filled ← A.add filled fill
      let openQuantity ← A.sub r.openQuantity fill
      let executedQuantity ← A.add r.executedQuantity fill
      let r := { r with openQuantity := openQuantity, executedQuantity := executedQuantity }
      let b := { b.setArena (Function.update b.pool.arena resting r) with nextMatchNumber := matchNumber + 1 }
      let b := b.emit ctx {
        orderId := id, matchNumber := matchNumber, clientId := clientId, price := levelPrice,
        quantity := fill, type := .executed, reason := .removedLiquidity }
      let b := b.emit ctx {
        orderId := r.id, matchNumber := matchNumber, clientId := r.clientId, price := levelPrice,
        quantity := fill, type := .executed, reason := .addedLiquidity }
      let b := b.publish ctx (.orderExecuted r.id fill matchNumber)
      if r.isFilled then
        let b ← b.unlink resting
        matchLoop A ctx id clientId side type price quantity fuel filled (b.release resting)
      else matchLoop A ctx id clientId side type price quantity fuel filled b
    else some (filled, b)

/-- `Orderbook::match`. -/
def «match» (A : Arith) (b : Orderbook) (ctx : Context) (id clientId : ℕ) (side : Side) (type : OrderType)
    (price quantity : ℕ) : Option (ℕ × Orderbook) :=
  matchLoop A ctx id clientId side type price quantity b.orders.size 0 b

/-- `Orderbook::enter`. -/
def enter (A : Arith) (b : Orderbook) (ctx : Context) : Option (Bool × Orderbook) := do
  let req := ctx.req
  if req.orderId ∈ b.orders then return (false, b)
  let mayRest := req.orderType == .limit && req.timeInForce == .day
  if mayRest && b.pool.available == 0 then
    return (true, b.emit ctx {
      orderId := req.orderId, clientId := req.clientId, type := .rejected, reason := .bookFull })
  let b := b.emit ctx {
    orderId := req.orderId, clientId := req.clientId, price := req.price, quantity := req.quantity,
    type := .accepted }
  let (filled, b) ← b.match A ctx req.orderId req.clientId req.side req.orderType req.price req.quantity
  let remaining ← A.sub req.quantity filled
  if remaining = 0 then return (true, b)
  if mayRest then
    let b ← b.rest ctx {
      id := req.orderId, clientId := req.clientId, side := req.side, price := req.price,
      openQuantity := remaining, executedQuantity := filled } true
    return (true, b)
  return (true, b.emit ctx {
    orderId := req.orderId, clientId := req.clientId, price := req.price, quantity := remaining,
    type := .canceled, reason := .immediateOrCancel })

/-- `Orderbook::cancel`. -/
def cancel (A : Arith) (b : Orderbook) (ctx : Context) : Option (Bool × Orderbook) := do
  let req := ctx.req
  match b.orders.lookup req.orderId with
  | none => return (false, b)
  | some order =>
    let o := b.order order
    if o.clientId ≠ req.clientId then return (false, b)
    let targetOpen ← openAfter A req.quantity o.executedQuantity
    if o.openQuantity ≤ targetOpen then return (false, b)
    let decrement ← A.sub o.openQuantity targetOpen
    let b := b.emit ctx {
      orderId := o.id, clientId := o.clientId, price := o.price, quantity := decrement,
      type := .canceled, reason := .userRequested }
    if targetOpen = 0 then
      let b ← b.unlink order
      return (true, (b.release order).publish ctx (.orderDelete o.id))
    let b := b.setArena (Function.update b.pool.arena order { o with openQuantity := targetOpen })
    return (true, b.publish ctx (.orderCancel o.id decrement))

/-- `Orderbook::replace`. -/
def replace (A : Arith) (b : Orderbook) (ctx : Context) : Option (Bool × Orderbook) := do
  let req := ctx.req
  match b.orders.lookup req.orderId with
  | none => return (false, b)
  | some orig =>
    let o := b.order orig
    if o.clientId ≠ req.clientId then return (false, b)
    if req.newOrderId ∈ b.orders then return (false, b)
    let openQuantity ← openAfter A req.quantity o.executedQuantity
    if openQuantity = 0 then
      let b := b.emit ctx {
        orderId := o.id, clientId := o.clientId, price := o.price, quantity := o.openQuantity,
        type := .canceled, reason := .userRequested }
      let b ← b.unlink orig
      return (true, (b.release orig).publish ctx (.orderDelete o.id))
    let b ← b.unlink orig
    let b := b.release orig
    let b := b.emit ctx {
      orderId := req.newOrderId, origOrderId := o.id, clientId := req.clientId, price := req.price,
      quantity := openQuantity, type := .replaced }
    let day := req.timeInForce == .day
    if day && !b.crosses o.side .limit req.price then
      let b ← b.rest ctx {
        id := req.newOrderId, clientId := req.clientId, side := o.side, price := req.price,
        openQuantity := openQuantity, executedQuantity := o.executedQuantity } false
      return (true, b.publish ctx
        (.orderReplace o.id req.newOrderId openQuantity (toItchPrice req.price)))
    let b := b.publish ctx (.orderDelete o.id)
    let (filled, b) ← b.match A ctx req.newOrderId req.clientId o.side .limit req.price openQuantity
    let remaining ← A.sub openQuantity filled
    if remaining = 0 then return (true, b)
    if day then
      let executedQuantity ← A.add o.executedQuantity filled
      let b ← b.rest ctx {
        id := req.newOrderId, clientId := req.clientId, side := o.side, price := req.price,
        openQuantity := remaining, executedQuantity := executedQuantity } true
      return (true, b)
    return (true, b.emit ctx {
      orderId := req.newOrderId, clientId := req.clientId, price := req.price, quantity := remaining,
      type := .canceled, reason := .immediateOrCancel })

/-- `Orderbook::process`. -/
def process (A : Arith) (b : Orderbook) (req : EngineRequest) (enginePopTsc : ℕ) :
    Option (Bool × Orderbook) :=
  let ctx : Context := {
    req := req, enginePopTsc := enginePopTsc, itchTimestamp := b.out.env.nsSinceMidnight enginePopTsc }
  let b := { b with out := { b.out with answered := false } }
  match req.type with
  | .new => b.enter A ctx
  | .cancel => b.cancel A ctx
  | .replace => b.replace A ctx

end Orderbook

end Exchange
