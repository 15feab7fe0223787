import Exchange.Spec.Book
import Exchange.Spec.Events
import Mathlib.Data.List.Sort

/-!
# The book as two queues

What a trader sees of the book: each side is one queue, the best price at the front and at one
price the earliest arrival first. An incoming order takes the other side's queue from the front
(`sweep`); what rests of it is queued behind every order that is not worse (`enqueue`). The
books of this account are those of `Spec.Book`, with the sides in this order, so cancelling is
the same. The two sides are treated alike: `mirrorRequest` and the others say what that means.
-/

namespace Exchange.Spec

namespace Queue

/-- The trades of an incoming order for `quantity` shares with the orders of a queue, and what
is left of the queue. -/
def sweep (side : Side) (limit : Option ℕ) : ℕ → List Resting → List (Resting × ℕ) × List Resting
  | _, [] => ([], [])
  | quantity, r :: queue =>
    if quantity = 0 ∨ allows side limit r.price = false then ([], r :: queue)
    else if quantity < r.openQuantity then ([(r, quantity)], r.trade quantity :: queue)
    else
      let (fs, left) := sweep side limit (quantity - r.openQuantity) queue
      ((r, r.openQuantity) :: fs, left)

/-- An order joins the queue of its side: it is before the orders it is better than. -/
def enqueue (s : Side) (r : Resting) (queue : List Resting) : List Resting :=
  queue.orderedInsert (fun r r' => s.better r.price r'.price = true) r

/-- The shares an incoming order may trade with. -/
def available (side : Side) (limit : Option ℕ) (queue : List Resting) : ℕ :=
  ((queue.filter fun r => allows side limit r.price).map (·.openQuantity)).sum

/-- The shares the incoming order of a request got, by its events. -/
def sharesTaken (es : List Event) : ℕ :=
  taken (es.filter fun e => e.type == .executed && e.reason == .removedLiquidity)

/-! ## Requests -/

def trades (i : Incoming) (b : Book) : List (Resting × ℕ) × List Resting :=
  sweep i.side i.limit i.quantity (b.side i.side.opposite)

def remaining (i : Incoming) (b : Book) : ℕ := i.quantity - filled (trades i b).1

/-- The book after its trades. -/
def traded (i : Incoming) (b : Book) : Book :=
  { b.setSide (trades i b).2 i.side.opposite with
    nextMatchNumber := b.nextMatchNumber + (trades i b).1.length }

/-- The order its remainder rests as. -/
def resting (i : Incoming) (b : Book) : Resting where
  id := i.id
  clientId := i.clientId
  side := i.side
  price := i.price
  openQuantity := remaining i b
  executedQuantity := i.executed + filled (trades i b).1

/-- The book an incoming order leaves. -/
def arrive (i : Incoming) (b : Book) : Book :=
  if i.rests && remaining i b != 0 then
    (traded i b).setSide (enqueue i.side (resting i b) (b.side i.side)) i.side
  else traded i b

def events (i : Incoming) (b : Book) : List Event :=
  tradeEvents i.id i.clientId b.nextMatchNumber (trades i b).1 ++
    if remaining i b ≠ 0 ∧ ¬ i.rests then
      [{ orderId := i.id, clientId := i.clientId, price := i.price, quantity := remaining i b,
         type := .canceled, reason := .immediateOrCancel }]
    else []

def itch (i : Incoming) (b : Book) : List ItchBody :=
  tradeItch b.nextMatchNumber (trades i b).1 ++
    if i.rests && remaining i b != 0 then
      [.addOrder i.id (toOuchSide i.side) (remaining i b) bookSymbol (toItchPrice i.price)]
    else []

/-- NEW, with room for `capacity` resting orders. -/
def enter (capacity : ℕ) (b : Book) (req : EngineRequest) : Step :=
  let i := newOrder req
  if req.orderId ∈ b.ids then ignored b
  else if i.rests ∧ capacity ≤ b.orders.length then
    { handled := true, book := b,
      events := [{ orderId := req.orderId, clientId := req.clientId, type := .rejected, reason := .bookFull }] }
  else
    { handled := true
      book := arrive i b
      events := { orderId := req.orderId, clientId := req.clientId, price := req.price,
                  quantity := req.quantity, type := .accepted } :: events i b
      itch := itch i b }

/-- REPLACE: the order leaves its place, and the replacement arrives like a new order. -/
def replace (b : Book) (req : EngineRequest) : Step :=
  match b.find? req.orderId with
  | none => ignored b
  | some o =>
    let i := replacement req o
    if o.clientId ≠ req.clientId ∨ req.newOrderId ∈ b.ids then ignored b
    else if i.quantity = 0 then cancelAll b o
    else
      let b := b.remove o.id
      { handled := true
        book := arrive i b
        events := { orderId := i.id, origOrderId := o.id, clientId := i.clientId, price := i.price,
                    quantity := i.quantity, type := .replaced } :: events i b
        itch := if i.rests ∧ (trades i b).1 = [] then
            [.orderReplace o.id i.id i.quantity (toItchPrice i.price)]
          else .orderDelete o.id :: itch i b }

def handle (capacity : ℕ) (b : Book) (req : EngineRequest) : Step :=
  match req.type with
  | .new => enter capacity b req
  | .cancel => cancel b req
  | .replace => replace b req

def process (capacity : ℕ) (b : Book) (req : EngineRequest) : Step :=
  let s := handle capacity b req
  { s with events := flagFirst s.events }

/-- The steps of a sequence of requests. -/
def steps (capacity : ℕ) : Book → List EngineRequest → List Step
  | _, [] => []
  | b, req :: reqs => process capacity b req :: steps capacity (process capacity b req).book reqs

/-- The book after a sequence of requests. -/
def after (capacity : ℕ) (b : Book) (reqs : List EngineRequest) : Book :=
  reqs.foldl (fun b req => (process capacity b req).book) b

end Queue

/-! ## The mirror

Buying at a price mirrors selling at the price as far from the other end of the band. -/

def mirrorPrice (p : ℕ) : ℕ := minPrice + maxPrice - p

def Resting.mirror (r : Resting) : Resting := { r with side := r.side.opposite, price := mirrorPrice r.price }

def Book.mirror (b : Book) : Book :=
  { b with bids := b.asks.map Resting.mirror, asks := b.bids.map Resting.mirror }

def mirrorRequest (req : EngineRequest) : EngineRequest :=
  { req with side := req.side.opposite, price := mirrorPrice req.price }

/-- A REJECTED event has no price. -/
def mirrorEvent (e : Event) : Event := if e.type = .rejected then e else { e with price := mirrorPrice e.price }

def mirrorItch : ItchBody → ItchBody
  | .addOrder id side shares stock price =>
    .addOrder id (if side = toOuchSide .bid then toOuchSide .ask else toOuchSide .bid) shares stock
      (toItchPrice (mirrorPrice (price / ouchTicksPerCent)))
  | .orderReplace orig id shares price =>
    .orderReplace orig id shares (toItchPrice (mirrorPrice (price / ouchTicksPerCent)))
  | m => m

end Exchange.Spec
