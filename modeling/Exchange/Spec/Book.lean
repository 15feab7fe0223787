import Exchange.Impl.Engine.Orderbook
import Mathlib.Data.List.MinMax

/-!
# The reference book

What the order book is for, without its data structures: two lists of resting
orders in arrival order. An incoming order repeatedly trades with the opposite
order of best price, the earliest among equals, at that order's price, while its
limit allows it (`fills`); what is left is appended at the back or canceled
(`incoming`). Quantities are unbounded here.

Each request has a `Step`: whether it was handled, the book it leaves, the events it
causes and the messages it publishes.
-/

namespace Exchange.Spec

/-- A resting order. -/
structure Resting where
  id : ℕ
  clientId : ℕ
  side : Side
  price : ℕ
  openQuantity : ℕ
  executedQuantity : ℕ
  deriving DecidableEq, Repr

/-- The order with `n` of its shares executed. -/
def Resting.trade (r : Resting) (n : ℕ) : Resting :=
  { r with openQuantity := r.openQuantity - n, executedQuantity := r.executedQuantity + n }

/-- The resting bids and asks in arrival order, and the number of the next trade. -/
structure Book where
  bids : List Resting := []
  asks : List Resting := []
  nextMatchNumber : ℕ := 1
  deriving DecidableEq, Repr

namespace Book

def side (b : Book) : Side → List Resting
  | .bid => b.bids
  | .ask => b.asks

def setSide (b : Book) (l : List Resting) : Side → Book
  | .bid => { b with bids := l }
  | .ask => { b with asks := l }

/-- The orders of both sides. -/
def orders (b : Book) : List Resting := b.bids ++ b.asks

def ids (b : Book) : List ℕ := b.orders.map (·.id)

def find? (b : Book) (id : ℕ) : Option Resting := b.orders.find? (·.id == id)

def remove (b : Book) (id : ℕ) : Book :=
  { b with bids := b.bids.filter (·.id != id), asks := b.asks.filter (·.id != id) }

/-- Order `id` lowered to `n` open shares, in place. -/
def reduce (b : Book) (id n : ℕ) : Book :=
  let f := fun r : Resting => if r.id = id then { r with openQuantity := n } else r
  { b with bids := b.bids.map f, asks := b.asks.map f }

end Book

/-! ## Trading -/

/-- The order an incoming order of the other side trades with: the best price, the
earliest arrival among equals. -/
def best : Side → List Resting → Option Resting
  | .bid, l => l.argmax (·.price)
  | .ask, l => l.argmin (·.price)

/-- Whether an order on `side` with this limit (`none` is a market order) may trade
at `price`. -/
def allows (side : Side) (limit : Option ℕ) (price : ℕ) : Bool :=
  match limit with
  | none => true
  | some l => side.reaches l price

/-- `n` shares of order `r` executed: it leaves the list once nothing is open. -/
def execute (l : List Resting) (r : Resting) (n : ℕ) : List Resting :=
  if n < r.openQuantity then l.map fun r' => if r'.id = r.id then r'.trade n else r'
  else l.filter (·.id != r.id)

/-- The trades of an incoming order for `quantity` shares against `l`, each the
resting order as it was and the shares traded, and what is left of `l`. At most
`fuel` trades are made; the length of `l` is enough. -/
def fills (side : Side) (limit : Option ℕ) :
    ℕ → ℕ → List Resting → List (Resting × ℕ) × List Resting
  | 0, _, l => ([], l)
  | fuel + 1, quantity, l =>
    match best side.opposite l with
    | none => ([], l)
    | some r =>
      if 0 < quantity ∧ allows side limit r.price then
        let n := min quantity r.openQuantity
        let (fs, l') := fills side limit fuel (quantity - n) (execute l r n)
        ((r, n) :: fs, l')
      else ([], l)

/-- The shares traded. -/
def filled (fs : List (Resting × ℕ)) : ℕ := (fs.map (·.2)).sum

/-- The two events of each trade, numbered from `k`. -/
def tradeEvents (id clientId : ℕ) : ℕ → List (Resting × ℕ) → List Event
  | _, [] => []
  | k, (r, n) :: fs =>
    { orderId := id, matchNumber := k, clientId := clientId, price := r.price, quantity := n,
      type := .executed, reason := .removedLiquidity } ::
    { orderId := r.id, matchNumber := k, clientId := r.clientId, price := r.price, quantity := n,
      type := .executed, reason := .addedLiquidity } :: tradeEvents id clientId (k + 1) fs

/-- The messages of the trades, numbered from `k`. -/
def tradeItch : ℕ → List (Resting × ℕ) → List ItchBody
  | _, [] => []
  | k, (r, n) :: fs => .orderExecuted r.id n k :: tradeItch (k + 1) fs

/-! ## Requests -/

/-- What a request does. -/
structure Step where
  handled : Bool
  book : Book
  events : List Event := []
  itch : List ItchBody := []

/-- The first event of a request answers it. -/
def flagFirst : List Event → List Event
  | [] => []
  | e :: es => { e with answersRequest := true } :: es

/-- An incoming order: a NEW, or the new half of a REPLACE. -/
structure Incoming where
  id : ℕ
  clientId : ℕ
  side : Side
  /-- `none` for a market order. -/
  limit : Option ℕ
  /-- Whether a remainder rests (a DAY limit order). -/
  rests : Bool
  price : ℕ
  quantity : ℕ
  /-- The shares its chain has executed before. -/
  executed : ℕ
  deriving DecidableEq, Repr

namespace Incoming

/-- The trades of an incoming order, and what is left of the other side. -/
def trades (i : Incoming) (b : Book) : List (Resting × ℕ) × List Resting :=
  fills i.side i.limit (b.side i.side.opposite).length i.quantity (b.side i.side.opposite)

/-- The shares left after its trades. -/
def remaining (i : Incoming) (b : Book) : ℕ := i.quantity - filled (i.trades b).1

/-- The book after its trades. -/
def traded (i : Incoming) (b : Book) : Book :=
  { b.setSide (i.trades b).2 i.side.opposite with
    nextMatchNumber := b.nextMatchNumber + (i.trades b).1.length }

/-- The order its remainder rests as. -/
def resting (i : Incoming) (b : Book) : Resting where
  id := i.id
  clientId := i.clientId
  side := i.side
  price := i.price
  openQuantity := i.remaining b
  executedQuantity := i.executed + filled (i.trades b).1

/-- Whether it has shares left that rest. -/
def comesToRest (i : Incoming) (b : Book) : Bool := i.rests && i.remaining b != 0

/-- The book an incoming order leaves. -/
def book (i : Incoming) (b : Book) : Book :=
  if i.comesToRest b then
    (i.traded b).setSide ((i.traded b).side i.side ++ [i.resting b]) i.side
  else i.traded b

/-- The trades, and the cancellation of a remainder that does not rest. -/
def events (i : Incoming) (b : Book) : List Event :=
  tradeEvents i.id i.clientId b.nextMatchNumber (i.trades b).1 ++
    if i.remaining b ≠ 0 ∧ ¬ i.rests then
      [{ orderId := i.id, clientId := i.clientId, price := i.price, quantity := i.remaining b,
         type := .canceled, reason := .immediateOrCancel }]
    else []

/-- The ITCH Add of a remainder that rests. -/
def add (i : Incoming) (b : Book) : List ItchBody :=
  if i.comesToRest b then
    [.addOrder i.id (toOuchSide i.side) (i.remaining b) bookSymbol (toItchPrice i.price)]
  else []

def itch (i : Incoming) (b : Book) : List ItchBody :=
  tradeItch b.nextMatchNumber (i.trades b).1 ++ i.add b

end Incoming

/-- The incoming order of a NEW request. -/
def newOrder (req : EngineRequest) : Incoming where
  id := req.orderId
  clientId := req.clientId
  side := req.side
  limit := if req.orderType = .limit then some req.price else none
  rests := req.orderType == .limit && req.timeInForce == .day
  price := req.price
  quantity := req.quantity
  executed := 0

/-- The incoming order of a REPLACE request for order `o`. -/
def replacement (req : EngineRequest) (o : Resting) : Incoming where
  id := req.newOrderId
  clientId := req.clientId
  side := o.side
  limit := some req.price
  rests := req.timeInForce == .day
  price := req.price
  quantity := req.quantity - o.executedQuantity
  executed := o.executedQuantity

/-- A request that is ignored. -/
def ignored (b : Book) : Step := { handled := false, book := b }

/-- NEW, with room for `capacity` resting orders. -/
def enter (capacity : ℕ) (b : Book) (req : EngineRequest) : Step :=
  let i := newOrder req
  if req.orderId ∈ b.ids then ignored b
  else if i.rests ∧ capacity ≤ b.orders.length then
    { handled := true, book := b,
      events := [{ orderId := req.orderId, clientId := req.clientId, type := .rejected, reason := .bookFull }] }
  else
    { handled := true
      book := i.book b
      events := { orderId := req.orderId, clientId := req.clientId, price := req.price,
                  quantity := req.quantity, type := .accepted } :: i.events b
      itch := i.itch b }

/-- The full cancellation of order `o`. -/
def cancelAll (b : Book) (o : Resting) : Step where
  handled := true
  book := b.remove o.id
  events := [{ orderId := o.id, clientId := o.clientId, price := o.price, quantity := o.openQuantity,
               type := .canceled, reason := .userRequested }]
  itch := [.orderDelete o.id]

/-- CANCEL. -/
def cancel (b : Book) (req : EngineRequest) : Step :=
  match b.find? req.orderId with
  | none => ignored b
  | some o =>
    let target := req.quantity - o.executedQuantity
    if o.clientId ≠ req.clientId ∨ o.openQuantity ≤ target then ignored b
    else if target = 0 then cancelAll b o
    else
      { handled := true
        book := b.reduce o.id target
        events := [{ orderId := o.id, clientId := o.clientId, price := o.price,
                     quantity := o.openQuantity - target, type := .canceled, reason := .userRequested }]
        itch := [.orderCancel o.id (o.openQuantity - target)] }

/-- REPLACE: a replacement that would rest without trading is one Order Replace. -/
def replace (b : Book) (req : EngineRequest) : Step :=
  match b.find? req.orderId with
  | none => ignored b
  | some o =>
    let i := replacement req o
    if o.clientId ≠ req.clientId ∨ req.newOrderId ∈ b.ids then ignored b
    else if i.quantity = 0 then cancelAll b o
    else
      let b := b.remove o.id
      { handled := true
        book := i.book b
        events := { orderId := i.id, origOrderId := o.id, clientId := i.clientId, price := i.price,
                    quantity := i.quantity, type := .replaced } :: i.events b
        itch := if i.rests ∧ (i.trades b).1 = [] then
            [.orderReplace o.id i.id i.quantity (toItchPrice i.price)]
          else .orderDelete o.id :: i.itch b }

/-- What a request does; which of its events answers it is left to `process`. -/
def handle (capacity : ℕ) (b : Book) (req : EngineRequest) : Step :=
  match req.type with
  | .new => enter capacity b req
  | .cancel => cancel b req
  | .replace => replace b req

def process (capacity : ℕ) (b : Book) (req : EngineRequest) : Step :=
  let s := handle capacity b req
  { s with events := flagFirst s.events }

/-! ## Runs -/

/-- The steps of a sequence of requests. -/
def steps (capacity : ℕ) : Book → List EngineRequest → List Step
  | _, [] => []
  | b, req :: reqs => process capacity b req :: steps capacity (process capacity b req).book reqs

/-- The book after a sequence of requests. -/
def after (capacity : ℕ) (b : Book) (reqs : List EngineRequest) : Book :=
  reqs.foldl (fun b req => (process capacity b req).book) b

end Exchange.Spec
