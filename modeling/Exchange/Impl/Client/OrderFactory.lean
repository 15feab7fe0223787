import Exchange.Impl.Server.Validation

/-!
# The orders of the load generator

`order_factory.hpp`. The random numbers a call of `build_message` draws are given
(`Draw`): the roll, and what the distributions of sides, types, sizes and prices come to,
before they are clamped.
-/

namespace Exchange.OrderFactory

inductive FrameKind
  | enter
  | cancel
  | replace
  | invalid
  deriving DecidableEq

/-- `OrderFactory::Target`. -/
structure Target where
  userRefNum : UInt32
  side : Side

/-- What one call of `build_message` draws. -/
structure Draw where
  /-- From 0 to 99. -/
  roll : ℕ := 99
  side : Side := .bid
  market : Bool := false
  quantity : ℕ := 100
  /-- In cents. -/
  price : ℕ := 10000

/-- `kMarketPrice`. -/
def marketPrice : UInt64 := 0x7FFFFFFF

/-- `limit_price`. -/
def limitPrice (d : Draw) : ℕ := max minPrice (min d.price maxPrice)

/-- `order_qty`. -/
def orderQty (d : Draw) : UInt32 := UInt32.ofNat (max 1 (min d.quantity Validation.ouchMaxQuantity))

/-- `make_enter`. -/
def makeEnter (d : Draw) (userRefNum : UInt32) : OuchEnterOrder where
  userRefNum := userRefNum
  side := toOuchSide d.side
  quantity := orderQty d
  symbol := alpha 8 ['S', 'I', 'M']
  price := if d.market then marketPrice else Validation.toOuchPrice (limitPrice d)
  timeInForce := if d.market then chr '3' else chr '0'
  display := chr 'Y'
  capacity := chr 'A'
  intermarketSweepEligibility := chr 'N'
  crossType := chr 'N'
  clOrdId := alpha 14 ['L', 'O', 'A', 'D', 'G', 'E', 'N']

/-- `make_cancel`: everything still open. -/
def makeCancel (target : Target) : OuchCancelOrder where
  userRefNum := target.userRefNum
  quantity := 0

/-- `make_replace`. -/
def makeReplace (d : Draw) (userRefNum : UInt32) (target : Target) : OuchReplaceOrder where
  origUserRefNum := target.userRefNum
  userRefNum := userRefNum
  quantity := orderQty d
  price := Validation.toOuchPrice (limitPrice d)
  timeInForce := chr '0'
  display := chr 'Y'
  intermarketSweepEligibility := chr 'N'
  clOrdId := alpha 14 ['L', 'O', 'A', 'D', 'G', 'E', 'N']

/-- `OrderFactory::build_message`. It builds no `INVALID` message. -/
def buildMessage (d : Draw) (userRefNum : UInt32) (target : Option Target) : FrameKind × OuchInboundFrame :=
  match target with
  | none => (.enter, .enterOrder (makeEnter d userRefNum))
  | some target =>
    if d.roll > 20 then (.enter, .enterOrder (makeEnter d userRefNum))
    else if d.roll > 8 then (.cancel, .cancelOrder (makeCancel target))
    else (.replace, .replaceOrder (makeReplace d userRefNum target))

end Exchange.OrderFactory
