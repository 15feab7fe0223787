import Exchange.Impl.Ouch

/-!
# Validation

`validation.hpp`: what an OUCH message must be to become an engine request, and the
conversion of its fields.
-/

namespace Exchange.Validation

/-- `PriceBand`, in cents. -/
structure PriceBand where
  min : ℕ
  max : ℕ

/-- `kOuchMaxQuantity`. -/
def ouchMaxQuantity : ℕ := 999999

structure EnginePrice where
  type : OrderType
  price : ℕ
  deriving DecidableEq

/-- `to_engine_price`: a market order, or a whole number of cents inside the band. -/
def toEnginePrice (ouchPrice : UInt64) (band : PriceBand) : Option EnginePrice :=
  let ouchPrice := ouchPrice.toNat
  if ouchPrice ≥ ouchMarketPriceFloor then some ⟨.market, 0⟩
  else if ouchPrice > ouchMaxLimitPrice ∨ ouchPrice % ouchTicksPerCent ≠ 0 then none
  else
    let cents := ouchPrice / ouchTicksPerCent
    if cents < band.min ∨ cents > band.max then none else some ⟨.limit, cents⟩

/-- `to_ouch_price`. -/
def toOuchPrice (cents : ℕ) : UInt64 := UInt64.ofNat (cents * ouchTicksPerCent)

/-- `to_engine_side`. -/
def toEngineSide (side : UInt8) : Option Side :=
  if side = chr 'B' then some .bid else if side = chr 'S' then some .ask else none

/-- `to_engine_tif`. -/
def toEngineTif (tif : UInt8) : Option TimeInForce :=
  if tif = chr '0' then some .day else if tif = chr '3' then some .ioc else none

/-- `detail::valid_quantity`. -/
def validQuantity (quantity : UInt32) : Bool := 0 < quantity.toNat && quantity.toNat ≤ ouchMaxQuantity

/-- The optional fields Enter Order and Replace Order spell identically. -/
structure Options where
  minQty : UInt32
  maxFloor : UInt32
  priceType : UInt8
  pegOffset : Int32
  discretionPrice : UInt64
  discretionPriceType : UInt8
  discretionPegOffset : Int32
  postOnly : UInt8
  randomReserves : UInt32
  expireTime : UInt32
  tradeNow : UInt8
  handleInst : UInt8
  aiqStrategy : UInt8
  aiqGroupId : Vector UInt8 2
  appendage : OuchTagSet

def enterOptions (m : OuchEnterOrder) : Options where
  minQty := m.minQty
  maxFloor := m.maxFloor
  priceType := m.priceType
  pegOffset := m.pegOffset
  discretionPrice := m.discretionPrice
  discretionPriceType := m.discretionPriceType
  discretionPegOffset := m.discretionPegOffset
  postOnly := m.postOnly
  randomReserves := m.randomReserves
  expireTime := m.expireTime
  tradeNow := m.tradeNow
  handleInst := m.handleInst
  aiqStrategy := m.aiqStrategy
  aiqGroupId := m.aiqGroupId
  appendage := m.appendage

def replaceOptions (m : OuchReplaceOrder) : Options where
  minQty := m.minQty
  maxFloor := m.maxFloor
  priceType := m.priceType
  pegOffset := m.pegOffset
  discretionPrice := m.discretionPrice
  discretionPriceType := m.discretionPriceType
  discretionPegOffset := m.discretionPegOffset
  postOnly := m.postOnly
  randomReserves := m.randomReserves
  expireTime := m.expireTime
  tradeNow := m.tradeNow
  handleInst := m.handleInst
  aiqStrategy := m.aiqStrategy
  aiqGroupId := m.aiqGroupId
  appendage := m.appendage

/-- `detail::unsupported_option_reason`, `none` for 0. -/
def unsupportedOptionReason (m : Options) : Option OuchReject :=
  if m.minQty ≠ 0 then some .invalidMinQuantity
  else if m.maxFloor ≠ 0 then some .invalidMaxFloor
  else if m.priceType ≠ chr 'L' ∨ m.pegOffset ≠ 0 ∨ m.discretionPrice ≠ 0 ∨ m.discretionPriceType ≠ chr 'L' ∨
      m.discretionPegOffset ≠ 0 then some .invalidPegType
  else if m.postOnly ≠ chr 'N' ∨ m.randomReserves ≠ 0 ∨ m.expireTime ≠ 0 ∨ m.tradeNow ≠ chr 'N' ∨
      m.handleInst ≠ chr ' ' ∨ m.aiqStrategy ≠ chr '*' ∨ m.aiqGroupId ≠ alpha 2 ['*', '*'] ∨
      m.appendage.has .userRefIdx then some .other
  else none

/-- `EnterCheck` of an accepted Enter Order. -/
structure EnterCheck where
  side : Side
  orderType : OrderType
  price : ℕ
  timeInForce : TimeInForce

/-- `check_enter`: what the order becomes, or the `reject_reason`. -/
def checkEnter (m : OuchEnterOrder) (band : PriceBand) : Except OuchReject EnterCheck :=
  match toEngineSide m.side with
  | none => .error .invalidSide
  | some side =>
    if !validQuantity m.quantity then .error .invalidQuantity
    else
      match toEnginePrice m.price band with
      | none => .error .invalidPrice
      | some price =>
        match toEngineTif m.timeInForce with
        | none => .error .other
        | some tif =>
          if m.display ≠ chr 'Y' then .error .invalidDisplay
          else if m.capacity ≠ chr 'A' ∧ m.capacity ≠ chr 'P' ∧ m.capacity ≠ chr 'R' ∧ m.capacity ≠ chr 'O' then
            .error .other
          else if m.intermarketSweepEligibility ≠ chr 'N' then .error .isoNotAllowed
          else if m.crossType ≠ chr 'N' then .error .invalidCrossOrder
          else
            match unsupportedOptionReason (enterOptions m) with
            | some reason => .error reason
            | none => .ok { side := side, orderType := price.type, price := price.price, timeInForce := tif }

/-- `ReplaceCheck` of a valid Replace Order. -/
structure ReplaceCheck where
  price : ℕ
  timeInForce : TimeInForce

/-- `check_replace`: what the order becomes, `none` if it is not valid. -/
def checkReplace (m : OuchReplaceOrder) (origSide : UInt8) (band : PriceBand) : Option ReplaceCheck := do
  guard (validQuantity m.quantity)
  let price ← toEnginePrice m.price band
  guard (price.type = .limit)
  let tif ← toEngineTif m.timeInForce
  guard (m.display = chr 'Y' ∧ m.intermarketSweepEligibility = chr 'N')
  guard (¬ (m.appendage.has .side ∧ m.side ≠ origSide))
  guard (unsupportedOptionReason (replaceOptions m)).isNone
  return ⟨price.price, tif⟩

end Exchange.Validation
