import Exchange.Impl.Types

/-!
# ITCH messages

The message structs of `itch_proto.hpp`. Every message leads with an `ItchHeader`;
the union `ITCH` is a header and one of the seven bodies, whose constructor stands
for `message_type`.
-/

namespace Exchange

/-- A character constant, as the byte it is stored in. -/
def chr (c : Char) : UInt8 := UInt8.ofNat c.toNat

/-- `wire::alpha<n>`: left-justified, padded on the right with spaces, truncated
if longer than `n`. -/
def alpha (n : ℕ) (s : List Char) : Vector UInt8 n :=
  Vector.ofFn fun i => (s.map chr).getD i (chr ' ')

/-- `ItchHeader`, without the message type. -/
structure ItchHeader where
  stockLocate : ℕ
  trackingNumber : ℕ
  timestamp : ℕ
  deriving DecidableEq, Repr

inductive ItchBody
  | addOrder (orderReferenceNumber : ℕ) (buySellIndicator : UInt8) (shares : ℕ)
      (stock : Vector UInt8 8) (price : ℕ)
  | orderExecuted (orderReferenceNumber executedShares matchNumber : ℕ)
  | orderExecutedWithPrice (orderReferenceNumber executedShares matchNumber : ℕ) (printable : UInt8)
      (executionPrice : ℕ)
  | orderCancel (orderReferenceNumber canceledShares : ℕ)
  | orderDelete (orderReferenceNumber : ℕ)
  | orderReplace (originalOrderReferenceNumber newOrderReferenceNumber shares price : ℕ)
  | trade (orderReferenceNumber : ℕ) (buySellIndicator : UInt8) (shares : ℕ) (stock : Vector UInt8 8)
      (price matchNumber : ℕ)
  deriving DecidableEq, Repr

structure ITCH where
  header : ItchHeader
  body : ItchBody
  deriving DecidableEq, Repr

/-- `validation::to_ouch_side`. -/
def toOuchSide : Side → UInt8
  | .bid => chr 'B'
  | .ask => chr 'S'

/-- `kOuchTicksPerCent`: OUCH and ITCH prices carry 4 implied decimals, engine
prices are cents. -/
def ouchTicksPerCent : ℕ := 100

/-- `validation::to_itch_price`: 32 bits on the wire. -/
def toItchPrice (cents : ℕ) : ℕ := cents * ouchTicksPerCent % 2 ^ 32

theorem toItchPrice_eq {p : ℕ} (h : InBand p) : toItchPrice p = p * 100 := by
  have h2 := h.2
  simp only [maxPrice] at h2
  simp only [toItchPrice, ouchTicksPerCent]
  omega

/-- `kBookSymbol`. -/
def bookSymbol : Vector UInt8 8 := alpha 8 ['S', 'I', 'M']

/-- `BOOK_STOCK_LOCATE`. -/
def bookStockLocate : ℕ := 1

end Exchange
