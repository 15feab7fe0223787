import Exchange.Impl.Server.OrderEntry

/-!
# The responder

`ouch_responder.hpp` and `ouch_responder.cpp`: the record of every live order, and the
OUCH message for each engine event.
-/

namespace Exchange

/-- `OuchResponse`: a message and the client it goes to. -/
structure OuchResponse where
  clientId : ℕ
  ouch : OuchOutboundFrame

/-- `OuchResponder::LiveOrder`: `open` counts the shares the events so far leave. -/
structure LiveOrder where
  record : OrderRecord
  openShares : ℕ := 0

/-- `OuchResponder`. -/
structure OuchResponder where
  orders : AList (fun _ : ℕ => LiveOrder) := ∅

/-- `EngineEvent::reason` as the character it is. -/
def EngineReason.byte : EngineReason → UInt8
  | .none => 0
  | .userRequested => chr 'U'
  | .immediateOrCancel => chr 'I'
  | .addedLiquidity => chr 'A'
  | .removedLiquidity => chr 'R'
  | .bookFull => chr 'F'

namespace OuchResponder

/-- `OuchResponder::live_orders`. -/
def liveOrders (s : OuchResponder) : ℕ := s.orders.size

/-- `OuchResponder::on_note`. -/
def onNote (s : OuchResponder) (note : GatewayNote) (timestamp : UInt64) : OuchResponder × Option OuchResponse :=
  match note with
  | .orderEntered orderId record => ({ orders := s.orders.insert orderId { record := record } }, none)
  | .orderReplacing orderId record => ({ orders := s.orders.insert orderId { record := record } }, none)
  | .rejected rejectReason record =>
    (s, some {
      clientId := record.clientId
      ouch := .orderRejected {
        timestamp := timestamp, userRefNum := record.userRefNum, reason := rejectReason.code,
        clOrdId := record.clOrdId } })

/-- `OuchResponder::reduce_`. -/
def reduce (s : OuchResponder) (orderId : ℕ) (live : LiveOrder) (shares : ℕ) : OuchResponder :=
  let openShares := if shares < live.openShares then live.openShares - shares else 0
  if openShares = 0 then { orders := s.orders.erase orderId }
  else { orders := s.orders.insert orderId { live with openShares := openShares } }

/-- `OuchResponder::on_event`. -/
def onEvent (s : OuchResponder) (event : Event) (timestamp : UInt64) : OuchResponder × Option OuchResponse :=
  match s.orders.lookup event.orderId with
  | none => (s, none)
  | some order =>
    let r := order.record
    let response (ouch : OuchOutboundFrame) : Option OuchResponse := some { clientId := r.clientId, ouch := ouch }
    match event.type with
    | .accepted =>
      ({ orders := s.orders.insert event.orderId { order with openShares := event.quantity } },
        response (.orderAccepted {
          timestamp := timestamp, userRefNum := r.userRefNum, side := r.side,
          quantity := UInt32.ofNat event.quantity, symbol := r.symbol, price := r.price,
          timeInForce := r.timeInForce, display := r.display,
          orderReferenceNumber := UInt64.ofNat event.orderId, capacity := r.capacity,
          intermarketSweepEligibility := r.intermarketSweepEligibility, crossType := r.crossType,
          orderState := chr 'L', clOrdId := r.clOrdId }))
    | .replaced =>
      match s.orders.lookup event.origOrderId with
      | none => (s, none)
      | some orig =>
        ({ orders := (s.orders.erase event.origOrderId).insert event.orderId
            { order with openShares := event.quantity } },
          response (.orderReplaced {
            timestamp := timestamp, origUserRefNum := orig.record.userRefNum, userRefNum := r.userRefNum,
            side := r.side, quantity := UInt32.ofNat event.quantity, symbol := r.symbol, price := r.price,
            timeInForce := r.timeInForce, display := r.display,
            orderReferenceNumber := UInt64.ofNat event.orderId, capacity := r.capacity,
            intermarketSweepEligibility := r.intermarketSweepEligibility, crossType := r.crossType,
            orderState := chr 'L', clOrdId := r.clOrdId }))
    | .canceled =>
      (s.reduce event.orderId order event.quantity,
        response (.orderCanceled {
          timestamp := timestamp, userRefNum := r.userRefNum, decrementShares := UInt32.ofNat event.quantity,
          reason := event.reason.byte }))
    | .executed =>
      (s.reduce event.orderId order event.quantity,
        response (.orderExecuted {
          timestamp := timestamp, userRefNum := r.userRefNum, executedShares := UInt32.ofNat event.quantity,
          executionPrice := Validation.toOuchPrice event.price, liquidityFlag := event.reason.byte,
          matchNumber := UInt64.ofNat event.matchNumber }))
    | .rejected =>
      ({ orders := s.orders.erase event.orderId },
        response (.orderRejected {
          timestamp := timestamp, userRefNum := r.userRefNum, reason := OuchReject.processingError.code,
          clOrdId := r.clOrdId }))

end OuchResponder

end Exchange
