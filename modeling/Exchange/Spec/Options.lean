import Exchange.Impl.OuchCodec
import Exchange.Impl.Server.Validation

/-!
# What order entry supports

Which Enter and Replace Orders ask for nothing that this book does not do: the core fields
one by one, and the optional fields by their tags, each at the default it has in the spec
(`OuchMessage.blank`).
-/

namespace Exchange.Spec

open Validation

/-- The optional fields have their defaults, but for those of the tags in `free`. -/
def AtDefault {M : Type} [OuchMessage M] (free : List OuchTag) (m : M) : Prop :=
  ∀ t ∈ OuchMessage.tags (M := M), t.1 ∉ free → t.2.get m = t.2.get OuchMessage.blank

/-- A whole number of cents, inside the band. -/
def CentsInBand (price : UInt64) (band : PriceBand) : Prop :=
  ∃ cents, price.toNat = cents * ouchTicksPerCent ∧ band.min ≤ cents ∧ cents ≤ band.max

def IsMarket (price : UInt64) : Prop := ouchMarketPriceFloor ≤ price.toNat

/-- An Enter Order that is supported, where the fields of the tags in `free` can have any
value. -/
structure SupportedEnter (free : List OuchTag) (m : OuchEnterOrder) (band : PriceBand) : Prop where
  side : m.side = chr 'B' ∨ m.side = chr 'S'
  quantity : 1 ≤ m.quantity.toNat ∧ m.quantity.toNat ≤ 999999
  price : CentsInBand m.price band ∨ IsMarket m.price
  timeInForce : m.timeInForce = chr '0' ∨ m.timeInForce = chr '3'
  display : m.display = chr 'Y'
  capacity : m.capacity ∈ [chr 'A', chr 'P', chr 'R', chr 'O']
  intermarketSweepEligibility : m.intermarketSweepEligibility = chr 'N'
  crossType : m.crossType = chr 'N'
  userRefIdx : m.appendage.has .userRefIdx = false
  options : AtDefault (.userRefIdx :: free) m

/-- A Replace Order of an order with side `origSide` that is supported. -/
structure SupportedReplace (free : List OuchTag) (m : OuchReplaceOrder) (origSide : UInt8) (band : PriceBand) :
    Prop where
  quantity : 1 ≤ m.quantity.toNat ∧ m.quantity.toNat ≤ 999999
  price : CentsInBand m.price band ∧ ¬ IsMarket m.price
  timeInForce : m.timeInForce = chr '0' ∨ m.timeInForce = chr '3'
  display : m.display = chr 'Y'
  intermarketSweepEligibility : m.intermarketSweepEligibility = chr 'N'
  side : m.appendage.has .side = false ∨ m.side = origSide
  userRefIdx : m.appendage.has .userRefIdx = false
  options : AtDefault (.userRefIdx :: .side :: free) m

/-- The optional fields of an Enter Order that do not affect matching. -/
def enterFree : List OuchTag := [.firm, .customerType, .groupId]

/-- Shares located for a short sale, and with whom. -/
def located : List OuchTag := [.sharesLocated, .locateBroker]

/-- No shares were located. -/
def Unlocated {M : Type} [OuchMessage M] (m : M) : Prop :=
  ∀ t ∈ OuchMessage.tags (M := M), t.1 ∈ located → t.2.get m = t.2.get OuchMessage.blank

end Exchange.Spec
