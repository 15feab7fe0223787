import Exchange.Framework.Table
import Exchange.Impl.Server.Validation

/-!
# Order entry

`order_entry.hpp` and `order_entry.cpp`: one OUCH message of a client becomes possibly a
note for the outbound thread and possibly a request for the engine. Dereferencing an
empty `std::optional` is `none`.
-/

namespace Exchange

open Validation

/-- `OrderRecord`: what acknowledgements echo and the engine never needs. -/
structure OrderRecord where
  clientId : ℕ
  userRefNum : UInt32
  quantity : UInt32
  price : UInt64
  symbol : Vector UInt8 8
  clOrdId : Vector UInt8 14
  side : UInt8
  timeInForce : UInt8
  display : UInt8
  capacity : UInt8
  intermarketSweepEligibility : UInt8
  crossType : UInt8
  deriving DecidableEq

/-- `GatewayNote`; the constructor is its kind. -/
inductive GatewayNote
  | orderEntered (orderId : ℕ) (record : OrderRecord)
  | orderReplacing (orderId : ℕ) (record : OrderRecord)
  | rejected (rejectReason : OuchReject) (record : OrderRecord)
  deriving DecidableEq

/-- `Translation`: the latency stamps of the request are left 0. -/
structure Translation where
  note : Option GatewayNote := none
  request : Option EngineRequest := none

/-- `OrderEntry::LiveOrder`. -/
structure EntryOrder where
  orderId : ℕ
  record : OrderRecord

/-- `OrderEntry`: `clients` has a client's `last_user_ref_num`. -/
structure OrderEntry where
  band : PriceBand
  nextOrderId : ℕ := 1
  clients : AList (fun _ : ℕ => UInt32) := ∅
  orders : AList (fun _ : ℕ => EntryOrder) := ∅

namespace OrderEntry

/-- `OrderEntry::key_`. -/
def key (clientId : ℕ) (userRefNum : UInt32) : ℕ := clientId <<< 32 ||| userRefNum.toNat

/-- `clients_[client_id].last_user_ref_num`: a client not seen before has 0. -/
def lastUserRefNum (s : OrderEntry) (clientId : ℕ) : UInt32 := (s.clients.lookup clientId).getD 0

/-- The record of an Enter Order. -/
def enterRecord (clientId : ℕ) (msg : OuchEnterOrder) : OrderRecord where
  clientId := clientId
  userRefNum := msg.userRefNum
  quantity := msg.quantity
  price := msg.price
  symbol := msg.symbol
  clOrdId := msg.clOrdId
  side := msg.side
  timeInForce := msg.timeInForce
  display := msg.display
  capacity := msg.capacity
  intermarketSweepEligibility := msg.intermarketSweepEligibility
  crossType := msg.crossType

/-- The record of a Replace Order, from that of the order it replaces. -/
def replaceRecord (orig : OrderRecord) (msg : OuchReplaceOrder) : OrderRecord :=
  { orig with
    userRefNum := msg.userRefNum
    quantity := msg.quantity
    price := msg.price
    clOrdId := msg.clOrdId
    timeInForce := msg.timeInForce
    display := msg.display
    intermarketSweepEligibility := msg.intermarketSweepEligibility }

/-- A new order: it takes the next id. -/
def assign (s : OrderEntry) (clientId : ℕ) (record : OrderRecord) : OrderEntry :=
  { s with
    nextOrderId := s.nextOrderId + 1
    orders := s.orders.emplace (key clientId record.userRefNum) ⟨s.nextOrderId, record⟩ }

/-- The client's `last_user_ref_num` set. -/
def consume (s : OrderEntry) (clientId : ℕ) (userRefNum : UInt32) : OrderEntry :=
  { s with clients := s.clients.insert clientId userRefNum }

/-- The request of an accepted Enter Order. -/
def enterRequest (orderId clientId : ℕ) (msg : OuchEnterOrder) (check : EnterCheck) : EngineRequest where
  orderId := orderId
  newOrderId := 0
  clientId := clientId
  price := check.price
  quantity := msg.quantity.toNat
  type := .new
  side := check.side
  orderType := check.orderType
  timeInForce := check.timeInForce
  quantity_lt := msg.quantity.toNat_lt

/-- The request of a valid Replace Order. -/
def replaceRequest (orderId newOrderId clientId : ℕ) (side : Side) (msg : OuchReplaceOrder) (check : ReplaceCheck) :
    EngineRequest where
  orderId := orderId
  newOrderId := newOrderId
  clientId := clientId
  price := check.price
  quantity := msg.quantity.toNat
  type := .replace
  side := side
  orderType := .limit
  timeInForce := check.timeInForce
  quantity_lt := msg.quantity.toNat_lt

/-- A request to cancel order `orderId`. -/
def cancelRequest (orderId clientId : ℕ) (side : Side) (quantity : UInt32) : EngineRequest where
  orderId := orderId
  newOrderId := 0
  clientId := clientId
  price := 0
  quantity := quantity.toNat
  type := .cancel
  side := side
  orderType := .limit
  timeInForce := .day
  quantity_lt := quantity.toNat_lt

/-- `OrderEntry::enter_`. -/
def enter (s : OrderEntry) (clientId : ℕ) (msg : OuchEnterOrder) : OrderEntry × Translation :=
  if msg.userRefNum ≤ s.lastUserRefNum clientId then (s, {})
  else
    let s := s.consume clientId msg.userRefNum
    let record := enterRecord clientId msg
    match checkEnter msg s.band with
    | .error reason => (s, { note := some (.rejected reason record) })
    | .ok check =>
      (s.assign clientId record, {
        note := some (.orderEntered s.nextOrderId record)
        request := some (enterRequest s.nextOrderId clientId msg check) })

/-- `OrderEntry::cancel_`. -/
def cancel (s : OrderEntry) (clientId : ℕ) (msg : OuchCancelOrder) : Option Translation :=
  match s.orders.lookup (key clientId msg.userRefNum) with
  | none => some {}
  | some order => do
    let side ← toEngineSide order.record.side
    some { request := some (cancelRequest order.orderId clientId side msg.quantity) }

/-- `OrderEntry::replace_`. -/
def replace (s : OrderEntry) (clientId : ℕ) (msg : OuchReplaceOrder) : Option (OrderEntry × Translation) :=
  match s.orders.lookup (key clientId msg.origUserRefNum) with
  | none => some (s, {})
  | some orig =>
    if msg.userRefNum ≤ s.lastUserRefNum clientId then some (s, {})
    else do
      let side ← toEngineSide orig.record.side
      match checkReplace msg orig.record.side s.band with
      | none => some (s, { request := some (cancelRequest orig.orderId clientId side 0) })
      | some check =>
        let s := s.consume clientId msg.userRefNum
        let record := replaceRecord orig.record msg
        some (s.assign clientId record, {
          note := some (.orderReplacing s.nextOrderId record)
          request := some (replaceRequest orig.orderId s.nextOrderId clientId side msg check) })

/-- `OrderEntry::translate`. -/
def translate (s : OrderEntry) (clientId : ℕ) (msg : OuchInboundFrame) : Option (OrderEntry × Translation) :=
  match msg with
  | .enterOrder m => some (s.enter clientId m)
  | .cancelOrder m => (s.cancel clientId m).map fun t => (s, t)
  | .replaceOrder m => s.replace clientId m
  | .none => some (s, {})

/-- Calls of `translate`, one after the other, with what each returned. -/
def translateAll : OrderEntry → List (ℕ × OuchInboundFrame) → Option (OrderEntry × List Translation)
  | s, [] => some (s, [])
  | s, (clientId, msg) :: calls => do
    let (s, translation) ← s.translate clientId msg
    let (s, translations) ← translateAll s calls
    some (s, translation :: translations)

end OrderEntry

end Exchange
