import Exchange.Impl.Itch
import Exchange.Impl.Wire

/-!
# OUCH messages

The message structs of `ouch_proto.hpp` and their encoding. The constructors of the
unions `OuchInboundFrame` and `OuchOutboundFrame` stand for `message_type`. A message
has core fields, and optional fields that are on the wire if their tag is in its
`appendage`; the two hooks `core` and `tags` of the source are the class `OuchMessage`.
-/

namespace Exchange

/-- `kOuchMaxLimitPrice`. -/
def ouchMaxLimitPrice : ℕ := 1999999900

/-- `kOuchMarketPriceFloor`: a price at or above it is a market order. -/
def ouchMarketPriceFloor : ℕ := 2000000000

/-- `ouch_reject`. -/
inductive OuchReject
  | invalidDisplay
  | invalidMaxFloor
  | invalidPegType
  | isoNotAllowed
  | invalidSide
  | processingError
  | invalidMinQuantity
  | other
  | invalidQuantity
  | invalidCrossOrder
  | invalidPrice
  deriving DecidableEq

def OuchReject.code : OuchReject → UInt16
  | .invalidDisplay => 0x0003
  | .invalidMaxFloor => 0x0004
  | .invalidPegType => 0x0005
  | .isoNotAllowed => 0x0008
  | .invalidSide => 0x0009
  | .processingError => 0x000A
  | .invalidMinQuantity => 0x000D
  | .other => 0x000F
  | .invalidQuantity => 0x0013
  | .invalidCrossOrder => 0x0014
  | .invalidPrice => 0x001D

inductive OuchTag
  | secondaryOrdRefNum
  | firm
  | minQty
  | customerType
  | maxFloor
  | priceType
  | pegOffset
  | discretionPrice
  | discretionPriceType
  | discretionPegOffset
  | postOnly
  | randomReserves
  | route
  | expireTime
  | tradeNow
  | handleInst
  | bboWeightIndicator
  | displayQuantity
  | displayPrice
  | groupId
  | sharesLocated
  | locateBroker
  | side
  | userRefIdx
  | aiqStrategy
  | aiqGroupId
  deriving DecidableEq

def OuchTag.value : OuchTag → UInt8
  | .secondaryOrdRefNum => 1
  | .firm => 2
  | .minQty => 3
  | .customerType => 4
  | .maxFloor => 5
  | .priceType => 6
  | .pegOffset => 7
  | .discretionPrice => 9
  | .discretionPriceType => 10
  | .discretionPegOffset => 11
  | .postOnly => 12
  | .randomReserves => 13
  | .route => 14
  | .expireTime => 15
  | .tradeNow => 16
  | .handleInst => 17
  | .bboWeightIndicator => 18
  | .displayQuantity => 22
  | .displayPrice => 23
  | .groupId => 24
  | .sharesLocated => 25
  | .locateBroker => 26
  | .side => 27
  | .userRefIdx => 28
  | .aiqStrategy => 29
  | .aiqGroupId => 30

/-- `OuchTagSet`: one bit per tag. -/
structure OuchTagSet where
  bits : UInt32 := 0
  deriving DecidableEq

def OuchTagSet.has (s : OuchTagSet) (tag : OuchTag) : Bool := s.bits &&& (1 <<< tag.value.toUInt32) != 0

def OuchTagSet.set (s : OuchTagSet) (tag : OuchTag) : OuchTagSet := ⟨s.bits ||| (1 <<< tag.value.toUInt32)⟩

@[simp] theorem OuchTagSet.has_empty (tag : OuchTag) : OuchTagSet.has {} tag = false := by
  simp [has]

/-! ## Inbound -/

structure OuchEnterOrder where
  userRefNum : UInt32
  side : UInt8
  quantity : UInt32
  symbol : Vector UInt8 8
  price : UInt64
  timeInForce : UInt8
  display : UInt8
  capacity : UInt8
  intermarketSweepEligibility : UInt8
  crossType : UInt8
  clOrdId : Vector UInt8 14
  firm : Vector UInt8 4 := alpha 4 []
  minQty : UInt32 := 0
  customerType : UInt8 := chr ' '
  maxFloor : UInt32 := 0
  priceType : UInt8 := chr 'L'
  pegOffset : Int32 := 0
  discretionPrice : UInt64 := 0
  discretionPriceType : UInt8 := chr 'L'
  discretionPegOffset : Int32 := 0
  postOnly : UInt8 := chr 'N'
  randomReserves : UInt32 := 0
  expireTime : UInt32 := 0
  tradeNow : UInt8 := chr 'N'
  handleInst : UInt8 := chr ' '
  groupId : UInt16 := 0
  sharesLocated : UInt8 := chr 'N'
  locateBroker : Vector UInt8 4 := Vector.replicate 4 0
  userRefIdx : UInt8 := 0
  aiqStrategy : UInt8 := chr '*'
  aiqGroupId : Vector UInt8 2 := alpha 2 ['*', '*']
  appendage : OuchTagSet := {}
  deriving DecidableEq

structure OuchReplaceOrder where
  origUserRefNum : UInt32
  userRefNum : UInt32
  quantity : UInt32
  price : UInt64
  timeInForce : UInt8
  display : UInt8
  intermarketSweepEligibility : UInt8
  clOrdId : Vector UInt8 14
  minQty : UInt32 := 0
  maxFloor : UInt32 := 0
  priceType : UInt8 := chr 'L'
  pegOffset : Int32 := 0
  discretionPrice : UInt64 := 0
  discretionPriceType : UInt8 := chr 'L'
  discretionPegOffset : Int32 := 0
  postOnly : UInt8 := chr 'N'
  randomReserves : UInt32 := 0
  expireTime : UInt32 := 0
  tradeNow : UInt8 := chr 'N'
  handleInst : UInt8 := chr ' '
  sharesLocated : UInt8 := chr 'N'
  locateBroker : Vector UInt8 4 := Vector.replicate 4 0
  side : UInt8 := chr ' '
  userRefIdx : UInt8 := 0
  aiqStrategy : UInt8 := chr '*'
  aiqGroupId : Vector UInt8 2 := alpha 2 ['*', '*']
  appendage : OuchTagSet := {}
  deriving DecidableEq

structure OuchCancelOrder where
  userRefNum : UInt32
  quantity : UInt32
  userRefIdx : UInt8 := 0
  appendage : OuchTagSet := {}
  deriving DecidableEq

inductive OuchInboundFrame
  | none
  | enterOrder (msg : OuchEnterOrder)
  | replaceOrder (msg : OuchReplaceOrder)
  | cancelOrder (msg : OuchCancelOrder)
  deriving DecidableEq

/-! ## Outbound -/

structure OuchOrderAccepted where
  timestamp : UInt64
  userRefNum : UInt32
  side : UInt8
  quantity : UInt32
  symbol : Vector UInt8 8
  price : UInt64
  timeInForce : UInt8
  display : UInt8
  orderReferenceNumber : UInt64
  capacity : UInt8
  intermarketSweepEligibility : UInt8
  crossType : UInt8
  orderState : UInt8
  clOrdId : Vector UInt8 14
  firm : Vector UInt8 4 := alpha 4 []
  minQty : UInt32 := 0
  customerType : UInt8 := chr ' '
  maxFloor : UInt32 := 0
  priceType : UInt8 := chr 'L'
  pegOffset : Int32 := 0
  discretionPrice : UInt64 := 0
  discretionPriceType : UInt8 := chr 'L'
  discretionPegOffset : Int32 := 0
  postOnly : UInt8 := chr 'N'
  randomReserves : UInt32 := 0
  route : Vector UInt8 4 := Vector.replicate 4 0
  expireTime : UInt32 := 0
  tradeNow : UInt8 := chr 'N'
  handleInst : UInt8 := chr ' '
  bboWeightIndicator : UInt8 := chr ' '
  groupId : UInt16 := 0
  sharesLocated : UInt8 := chr 'N'
  userRefIdx : UInt8 := 0
  aiqStrategy : UInt8 := chr '*'
  aiqGroupId : Vector UInt8 2 := alpha 2 ['*', '*']
  appendage : OuchTagSet := {}
  deriving DecidableEq

structure OuchOrderReplaced where
  timestamp : UInt64
  origUserRefNum : UInt32
  userRefNum : UInt32
  side : UInt8
  quantity : UInt32
  symbol : Vector UInt8 8
  price : UInt64
  timeInForce : UInt8
  display : UInt8
  orderReferenceNumber : UInt64
  capacity : UInt8
  intermarketSweepEligibility : UInt8
  crossType : UInt8
  orderState : UInt8
  clOrdId : Vector UInt8 14
  firm : Vector UInt8 4 := alpha 4 []
  minQty : UInt32 := 0
  maxFloor : UInt32 := 0
  priceType : UInt8 := chr 'L'
  postOnly : UInt8 := chr 'N'
  expireTime : UInt32 := 0
  tradeNow : UInt8 := chr 'N'
  handleInst : UInt8 := chr ' '
  bboWeightIndicator : UInt8 := chr ' '
  userRefIdx : UInt8 := 0
  aiqStrategy : UInt8 := chr '*'
  aiqGroupId : Vector UInt8 2 := alpha 2 ['*', '*']
  appendage : OuchTagSet := {}
  deriving DecidableEq

structure OuchOrderCanceled where
  timestamp : UInt64
  userRefNum : UInt32
  decrementShares : UInt32
  reason : UInt8
  userRefIdx : UInt8 := 0
  appendage : OuchTagSet := {}
  deriving DecidableEq

structure OuchOrderExecuted where
  timestamp : UInt64
  userRefNum : UInt32
  executedShares : UInt32
  executionPrice : UInt64
  liquidityFlag : UInt8
  matchNumber : UInt64
  userRefIdx : UInt8 := 0
  appendage : OuchTagSet := {}
  deriving DecidableEq

structure OuchOrderRejected where
  timestamp : UInt64
  userRefNum : UInt32
  reason : UInt16
  clOrdId : Vector UInt8 14
  userRefIdx : UInt8 := 0
  appendage : OuchTagSet := {}
  deriving DecidableEq

inductive OuchOutboundFrame
  | none
  | orderAccepted (msg : OuchOrderAccepted)
  | orderReplaced (msg : OuchOrderReplaced)
  | orderCanceled (msg : OuchOrderCanceled)
  | orderExecuted (msg : OuchOrderExecuted)
  | orderRejected (msg : OuchOrderRejected)
  deriving DecidableEq

end Exchange
