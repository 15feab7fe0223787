import Exchange.Impl.Server.Gateway

/-!
# What clients are told

The messages a responder sends that has the record of every order for good: `answer` is
the message for an engine event, `rejection` the one for a gateway note. `toldUnder` is
what a client is told of one of its orders.
-/

namespace Exchange.Spec

/-- The records after a note. -/
def record (recs : ℕ → Option OrderRecord) : GatewayNote → ℕ → Option OrderRecord
  | .orderEntered id r => Function.update recs id (some r)
  | .orderReplacing id r => Function.update recs id (some r)
  | .rejected _ _ => recs

/-- The records that notes leave. -/
def recordsOf (notes : List GatewayNote) : ℕ → Option OrderRecord := notes.foldl record fun _ => none

/-- The order a note is for. -/
def noteId : GatewayNote → Option ℕ
  | .orderEntered id _ => some id
  | .orderReplacing id _ => some id
  | .rejected _ _ => none

/-- The message for a note: an order that was not let in is rejected. -/
def rejection (timestamp : UInt64) : GatewayNote → Option OuchResponse
  | .orderEntered _ _ => none
  | .orderReplacing _ _ => none
  | .rejected reason r => some {
      clientId := r.clientId
      ouch := .orderRejected {
        timestamp := timestamp, userRefNum := r.userRefNum, reason := reason.code, clOrdId := r.clOrdId } }

/-- The message for an event of an order with record `r`; `orig` is the record of the
order it replaces. -/
def report (r orig : OrderRecord) (e : Event) (timestamp : UInt64) : OuchOutboundFrame :=
  match e.type with
  | .accepted => .orderAccepted {
      timestamp := timestamp, userRefNum := r.userRefNum, side := r.side, quantity := UInt32.ofNat e.quantity,
      symbol := r.symbol, price := r.price, timeInForce := r.timeInForce, display := r.display,
      orderReferenceNumber := UInt64.ofNat e.orderId, capacity := r.capacity,
      intermarketSweepEligibility := r.intermarketSweepEligibility, crossType := r.crossType,
      orderState := chr 'L', clOrdId := r.clOrdId }
  | .replaced => .orderReplaced {
      timestamp := timestamp, origUserRefNum := orig.userRefNum, userRefNum := r.userRefNum, side := r.side,
      quantity := UInt32.ofNat e.quantity, symbol := r.symbol, price := r.price, timeInForce := r.timeInForce,
      display := r.display, orderReferenceNumber := UInt64.ofNat e.orderId, capacity := r.capacity,
      intermarketSweepEligibility := r.intermarketSweepEligibility, crossType := r.crossType,
      orderState := chr 'L', clOrdId := r.clOrdId }
  | .canceled => .orderCanceled {
      timestamp := timestamp, userRefNum := r.userRefNum, decrementShares := UInt32.ofNat e.quantity,
      reason := e.reason.byte }
  | .executed => .orderExecuted {
      timestamp := timestamp, userRefNum := r.userRefNum, executedShares := UInt32.ofNat e.quantity,
      executionPrice := Validation.toOuchPrice e.price, liquidityFlag := e.reason.byte,
      matchNumber := UInt64.ofNat e.matchNumber }
  | .rejected => .orderRejected {
      timestamp := timestamp, userRefNum := r.userRefNum, reason := OuchReject.processingError.code,
      clOrdId := r.clOrdId }

/-- The record of the order an event replaces; an event that replaces none has that of its
own order, `r`. -/
def original (recs : ℕ → Option OrderRecord) (e : Event) (r : OrderRecord) : Option OrderRecord :=
  if e.type = .replaced then recs e.origOrderId else some r

/-- The message for an event, given the records. -/
def answer (recs : ℕ → Option OrderRecord) (e : Event) (timestamp : UInt64) : Option OuchResponse := do
  let r ← recs e.orderId
  let orig ← original recs e r
  some { clientId := r.clientId, ouch := report r orig e timestamp }

/-- The messages to clients on account of a message. -/
def told (h : Handled) : List OuchResponse := h.noteResponse.toList ++ h.deliveries.filterMap (·.response)

/-- The message is about the order with UserRefNum `u`: an Order Replaced is about two. -/
def About (u : UInt32) : OuchOutboundFrame → Prop
  | .orderAccepted m => m.userRefNum = u
  | .orderReplaced m => m.userRefNum = u ∨ m.origUserRefNum = u
  | .orderCanceled m => m.userRefNum = u
  | .orderExecuted m => m.userRefNum = u
  | .orderRejected m => m.userRefNum = u
  | .none => False

instance (u : UInt32) : DecidablePred (About u)
  | .orderAccepted m => inferInstanceAs (Decidable (m.userRefNum = u))
  | .orderReplaced m => inferInstanceAs (Decidable (m.userRefNum = u ∨ m.origUserRefNum = u))
  | .orderCanceled m => inferInstanceAs (Decidable (m.userRefNum = u))
  | .orderExecuted m => inferInstanceAs (Decidable (m.userRefNum = u))
  | .orderRejected m => inferInstanceAs (Decidable (m.userRefNum = u))
  | .none => inferInstanceAs (Decidable False)

/-- What client `c` is told under UserRefNum `u`. -/
def toldUnder (c : ℕ) (u : UInt32) (handled : List Handled) : List OuchOutboundFrame :=
  ((handled.flatMap told).filter fun r => r.clientId = c ∧ About u r.ouch).map (·.ouch)

/-- An Order Accepted or an Order Rejected. -/
def AnswersEnter : OuchOutboundFrame → Prop
  | .orderAccepted _ => True
  | .orderRejected _ => True
  | _ => False

/-- The UserRefNum of a note's record. -/
def noteRefNum : GatewayNote → UInt32
  | .orderEntered _ r => r.userRefNum
  | .orderReplacing _ r => r.userRefNum
  | .rejected _ r => r.userRefNum

/-- The UserRefNums a client has consumed: those of the orders it entered, of the Enter
Orders that were rejected, and of the replacements. -/
def consumed (c : ℕ) (handled : List Handled) : List UInt32 :=
  (handled.filter (·.clientId = c)).filterMap fun h => h.translation.note.map noteRefNum

end Exchange.Spec
