import Exchange.Impl.OuchCodec

/-!
# The ITCH codec

The message structs of `itch_proto.hpp` at their own widths, and `itch_detail`: a message
on the wire is its fields and nothing else. As in `OuchCodec`, the constructor of a frame
stands for `message_type`.
-/

namespace Exchange

/-! ## Messages -/

/-- `ItchHeader`: only the low 48 bits of `timestamp` go on the wire. -/
structure ItchWireHeader where
  stockLocate : UInt16 := 0
  trackingNumber : UInt16 := 0
  timestamp : UInt64 := 0
  deriving DecidableEq

structure ItchAddOrder where
  header : ItchWireHeader := {}
  orderReferenceNumber : UInt64
  buySellIndicator : UInt8
  shares : UInt32
  stock : Vector UInt8 8
  price : UInt32
  deriving DecidableEq

structure ItchOrderExecuted where
  header : ItchWireHeader := {}
  orderReferenceNumber : UInt64
  executedShares : UInt32
  matchNumber : UInt64
  deriving DecidableEq

structure ItchOrderExecutedWithPrice where
  header : ItchWireHeader := {}
  orderReferenceNumber : UInt64
  executedShares : UInt32
  matchNumber : UInt64
  /-- 'Y' or 'N'. -/
  printable : UInt8
  executionPrice : UInt32
  deriving DecidableEq

structure ItchOrderCancel where
  header : ItchWireHeader := {}
  orderReferenceNumber : UInt64
  canceledShares : UInt32
  deriving DecidableEq

structure ItchOrderDelete where
  header : ItchWireHeader := {}
  orderReferenceNumber : UInt64
  deriving DecidableEq

structure ItchOrderReplace where
  header : ItchWireHeader := {}
  originalOrderReferenceNumber : UInt64
  newOrderReferenceNumber : UInt64
  shares : UInt32
  price : UInt32
  deriving DecidableEq

structure ItchTrade where
  header : ItchWireHeader := {}
  orderReferenceNumber : UInt64
  buySellIndicator : UInt8
  shares : UInt32
  stock : Vector UInt8 8
  price : UInt32
  matchNumber : UInt64
  deriving DecidableEq

/-- The union `ITCH`. -/
inductive ItchFrame
  | none
  | addOrder (msg : ItchAddOrder)
  | orderExecuted (msg : ItchOrderExecuted)
  | orderExecutedWithPrice (msg : ItchOrderExecutedWithPrice)
  | orderCancel (msg : ItchOrderCancel)
  | orderDelete (msg : ItchOrderDelete)
  | orderReplace (msg : ItchOrderReplace)
  | trade (msg : ItchTrade)
  deriving DecidableEq

/-! ## Fields -/

/-- `u48`: the low 6 bytes of an integer. -/
def u48 {M : Type} (get : M → UInt64) (set : M → UInt64 → M) : Hook M where
  size := 6
  get m := bigEndian 6 (get m).toNat
  set m bytes := set m (UInt64.ofNat (ofBigEndian bytes))
  length_get _ := length_bigEndian _ _

/-- The fields of a message struct, in wire order after `ItchHeader::core`. -/
class ItchMessage (M : Type) where
  type : Char
  header : M → ItchWireHeader
  setHeader : M → ItchWireHeader → M
  body : List (Hook M)
  /-- `M{}`. -/
  blank : M

/-- `ItchHeader::core`, after `message_type`. -/
def ItchMessage.headerFields (M : Type) [ItchMessage M] : List (Hook M) :=
  [hook (fun m => (header m).stockLocate) fun m v => setHeader m { header m with stockLocate := v },
    hook (fun m => (header m).trackingNumber) fun m v => setHeader m { header m with trackingNumber := v },
    u48 (fun m => (header m).timestamp) fun m v => setHeader m { header m with timestamp := v }]

/-- `core`, after `message_type`. -/
def ItchMessage.fields (M : Type) [ItchMessage M] : List (Hook M) := headerFields M ++ body

/-- `core`. -/
def ItchMessage.core (M : Type) [ItchMessage M] : List (Hook M) := messageType (type M) :: fields M

instance : ItchMessage ItchAddOrder where
  type := 'A'
  header := (·.header)
  setHeader m header := { m with header := header }
  body := [hook (·.orderReferenceNumber) ({ · with orderReferenceNumber := · }),
    hook (·.buySellIndicator) ({ · with buySellIndicator := · }), hook (·.shares) ({ · with shares := · }),
    hook (·.stock) ({ · with stock := · }), hook (·.price) ({ · with price := · })]
  blank := {
    orderReferenceNumber := 0, buySellIndicator := 0, shares := 0, stock := Vector.replicate 8 0, price := 0 }

instance : ItchMessage ItchOrderExecuted where
  type := 'E'
  header := (·.header)
  setHeader m header := { m with header := header }
  body := [hook (·.orderReferenceNumber) ({ · with orderReferenceNumber := · }),
    hook (·.executedShares) ({ · with executedShares := · }), hook (·.matchNumber) ({ · with matchNumber := · })]
  blank := { orderReferenceNumber := 0, executedShares := 0, matchNumber := 0 }

instance : ItchMessage ItchOrderExecutedWithPrice where
  type := 'C'
  header := (·.header)
  setHeader m header := { m with header := header }
  body := [hook (·.orderReferenceNumber) ({ · with orderReferenceNumber := · }),
    hook (·.executedShares) ({ · with executedShares := · }), hook (·.matchNumber) ({ · with matchNumber := · }),
    hook (·.printable) ({ · with printable := · }), hook (·.executionPrice) ({ · with executionPrice := · })]
  blank := { orderReferenceNumber := 0, executedShares := 0, matchNumber := 0, printable := 0, executionPrice := 0 }

instance : ItchMessage ItchOrderCancel where
  type := 'X'
  header := (·.header)
  setHeader m header := { m with header := header }
  body := [hook (·.orderReferenceNumber) ({ · with orderReferenceNumber := · }),
    hook (·.canceledShares) ({ · with canceledShares := · })]
  blank := { orderReferenceNumber := 0, canceledShares := 0 }

instance : ItchMessage ItchOrderDelete where
  type := 'D'
  header := (·.header)
  setHeader m header := { m with header := header }
  body := [hook (·.orderReferenceNumber) ({ · with orderReferenceNumber := · })]
  blank := { orderReferenceNumber := 0 }

instance : ItchMessage ItchOrderReplace where
  type := 'U'
  header := (·.header)
  setHeader m header := { m with header := header }
  body := [hook (·.originalOrderReferenceNumber) ({ · with originalOrderReferenceNumber := · }),
    hook (·.newOrderReferenceNumber) ({ · with newOrderReferenceNumber := · }),
    hook (·.shares) ({ · with shares := · }), hook (·.price) ({ · with price := · })]
  blank := { originalOrderReferenceNumber := 0, newOrderReferenceNumber := 0, shares := 0, price := 0 }

instance : ItchMessage ItchTrade where
  type := 'P'
  header := (·.header)
  setHeader m header := { m with header := header }
  body := [hook (·.orderReferenceNumber) ({ · with orderReferenceNumber := · }),
    hook (·.buySellIndicator) ({ · with buySellIndicator := · }), hook (·.shares) ({ · with shares := · }),
    hook (·.stock) ({ · with stock := · }), hook (·.price) ({ · with price := · }),
    hook (·.matchNumber) ({ · with matchNumber := · })]
  blank := {
    orderReferenceNumber := 0, buySellIndicator := 0, shares := 0, stock := Vector.replicate 8 0, price := 0,
    matchNumber := 0 }

/-! ## Encoding and decoding -/

namespace ItchDetail

variable {M : Type} [ItchMessage M]

/-- The bytes of the fields. -/
def coreBytes (msg : M) : List (List UInt8) := (ItchMessage.core M).map (·.get msg)

/-- `itch_detail::encoded_size`. -/
def encodedSize (msg : M) : ℕ := wireSize (coreBytes msg)

/-- `itch_detail::encode` into a buffer of `room` bytes. -/
def encode (msg : M) (room : ℕ) : List UInt8 :=
  let w := WireWriter.puts { room := room } (coreBytes msg)
  if w.ok then w.written else []

/-- `itch_detail::decode` into `M{}`: anything but an exact fit is malformed. -/
def decode (M : Type) [ItchMessage M] (bytes : List UInt8) : Option M := do
  let (msg, rest) ← readFields (ItchMessage.core M) ItchMessage.blank bytes
  if rest = [] then some msg else none

end ItchDetail

open ItchDetail

/-- `itch_detail::visit`. -/
def ItchFrame.visit {α : Type} (frame : ItchFrame) (fn : (M : Type) → [ItchMessage M] → M → α) (fallback : α) : α :=
  match frame with
  | none => fallback
  | addOrder m => fn _ m
  | orderExecuted m => fn _ m
  | orderExecutedWithPrice m => fn _ m
  | orderCancel m => fn _ m
  | orderDelete m => fn _ m
  | orderReplace m => fn _ m
  | trade m => fn _ m

/-- `encoded_size`, 0 for NONE. -/
def ItchFrame.encodedSize (frame : ItchFrame) : ℕ := frame.visit (fun _ _ m => ItchDetail.encodedSize m) 0

/-- `encode_itch`. -/
def encodeItch (frame : ItchFrame) (room : ℕ) : List UInt8 := frame.visit (fun _ _ m => encode m room) []

/-- `decode_itch`. -/
def decodeItch (bytes : List UInt8) : ItchFrame :=
  match bytes with
  | [] => .none
  | type :: _ =>
    if type = chr 'A' then (decode ItchAddOrder bytes).elim .none .addOrder
    else if type = chr 'E' then (decode ItchOrderExecuted bytes).elim .none .orderExecuted
    else if type = chr 'C' then (decode ItchOrderExecutedWithPrice bytes).elim .none .orderExecutedWithPrice
    else if type = chr 'X' then (decode ItchOrderCancel bytes).elim .none .orderCancel
    else if type = chr 'D' then (decode ItchOrderDelete bytes).elim .none .orderDelete
    else if type = chr 'U' then (decode ItchOrderReplace bytes).elim .none .orderReplace
    else if type = chr 'P' then (decode ItchTrade bytes).elim .none .trade
    else .none

end Exchange
