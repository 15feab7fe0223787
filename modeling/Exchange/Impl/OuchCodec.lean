import Exchange.Impl.Ouch

/-!
# The OUCH codec

`ouch_detail`: a message on the wire is its core fields, the length of the appendage, and
the tags it has, each with its length. `encode_eq` says what is written into a buffer that
is large enough, and that it is `encoded_size` bytes.
-/

namespace Exchange

/-- The hooks of a message struct: its core fields in wire order, and its optional
fields in ascending tag order. -/
class OuchMessage (M : Type) where
  core : List (Hook M)
  tags : List (OuchTag × Hook M)
  appendage : M → OuchTagSet
  setAppendage : M → OuchTagSet → M
  /-- `M{}`. -/
  blank : M

/-- `message_type`, which leads the core fields: reading it back leaves it as it is. -/
def messageType {M : Type} (c : Char) : Hook M where
  size := 1
  get _ := [chr c]
  set m _ := m
  length_get _ := rfl

instance : OuchMessage OuchEnterOrder where
  core := [messageType 'O', hook (·.userRefNum) ({ · with userRefNum := · }), hook (·.side) ({ · with side := · }),
    hook (·.quantity) ({ · with quantity := · }), hook (·.symbol) ({ · with symbol := · }),
    hook (·.price) ({ · with price := · }), hook (·.timeInForce) ({ · with timeInForce := · }),
    hook (·.display) ({ · with display := · }), hook (·.capacity) ({ · with capacity := · }),
    hook (·.intermarketSweepEligibility) ({ · with intermarketSweepEligibility := · }),
    hook (·.crossType) ({ · with crossType := · }), hook (·.clOrdId) ({ · with clOrdId := · })]
  tags := [(.firm, hook (·.firm) ({ · with firm := · })), (.minQty, hook (·.minQty) ({ · with minQty := · })),
    (.customerType, hook (·.customerType) ({ · with customerType := · })),
    (.maxFloor, hook (·.maxFloor) ({ · with maxFloor := · })),
    (.priceType, hook (·.priceType) ({ · with priceType := · })),
    (.pegOffset, hook (·.pegOffset) ({ · with pegOffset := · })),
    (.discretionPrice, hook (·.discretionPrice) ({ · with discretionPrice := · })),
    (.discretionPriceType, hook (·.discretionPriceType) ({ · with discretionPriceType := · })),
    (.discretionPegOffset, hook (·.discretionPegOffset) ({ · with discretionPegOffset := · })),
    (.postOnly, hook (·.postOnly) ({ · with postOnly := · })),
    (.randomReserves, hook (·.randomReserves) ({ · with randomReserves := · })),
    (.expireTime, hook (·.expireTime) ({ · with expireTime := · })),
    (.tradeNow, hook (·.tradeNow) ({ · with tradeNow := · })),
    (.handleInst, hook (·.handleInst) ({ · with handleInst := · })),
    (.groupId, hook (·.groupId) ({ · with groupId := · })),
    (.sharesLocated, hook (·.sharesLocated) ({ · with sharesLocated := · })),
    (.locateBroker, hook (·.locateBroker) ({ · with locateBroker := · })),
    (.userRefIdx, hook (·.userRefIdx) ({ · with userRefIdx := · })),
    (.aiqStrategy, hook (·.aiqStrategy) ({ · with aiqStrategy := · })),
    (.aiqGroupId, hook (·.aiqGroupId) ({ · with aiqGroupId := · }))]
  appendage := (·.appendage)
  setAppendage m appendage := { m with appendage := appendage }
  blank := {
    userRefNum := 0, side := 0, quantity := 0, symbol := Vector.replicate 8 0, price := 0, timeInForce := 0,
    display := 0, capacity := 0, intermarketSweepEligibility := 0, crossType := 0,
    clOrdId := Vector.replicate 14 0 }

instance : OuchMessage OuchReplaceOrder where
  core := [messageType 'U', hook (·.origUserRefNum) ({ · with origUserRefNum := · }),
    hook (·.userRefNum) ({ · with userRefNum := · }), hook (·.quantity) ({ · with quantity := · }),
    hook (·.price) ({ · with price := · }), hook (·.timeInForce) ({ · with timeInForce := · }),
    hook (·.display) ({ · with display := · }),
    hook (·.intermarketSweepEligibility) ({ · with intermarketSweepEligibility := · }),
    hook (·.clOrdId) ({ · with clOrdId := · })]
  tags := [(.minQty, hook (·.minQty) ({ · with minQty := · })),
    (.maxFloor, hook (·.maxFloor) ({ · with maxFloor := · })),
    (.priceType, hook (·.priceType) ({ · with priceType := · })),
    (.pegOffset, hook (·.pegOffset) ({ · with pegOffset := · })),
    (.discretionPrice, hook (·.discretionPrice) ({ · with discretionPrice := · })),
    (.discretionPriceType, hook (·.discretionPriceType) ({ · with discretionPriceType := · })),
    (.discretionPegOffset, hook (·.discretionPegOffset) ({ · with discretionPegOffset := · })),
    (.postOnly, hook (·.postOnly) ({ · with postOnly := · })),
    (.randomReserves, hook (·.randomReserves) ({ · with randomReserves := · })),
    (.expireTime, hook (·.expireTime) ({ · with expireTime := · })),
    (.tradeNow, hook (·.tradeNow) ({ · with tradeNow := · })),
    (.handleInst, hook (·.handleInst) ({ · with handleInst := · })),
    (.sharesLocated, hook (·.sharesLocated) ({ · with sharesLocated := · })),
    (.locateBroker, hook (·.locateBroker) ({ · with locateBroker := · })),
    (.side, hook (·.side) ({ · with side := · })), (.userRefIdx, hook (·.userRefIdx) ({ · with userRefIdx := · })),
    (.aiqStrategy, hook (·.aiqStrategy) ({ · with aiqStrategy := · })),
    (.aiqGroupId, hook (·.aiqGroupId) ({ · with aiqGroupId := · }))]
  appendage := (·.appendage)
  setAppendage m appendage := { m with appendage := appendage }
  blank := {
    origUserRefNum := 0, userRefNum := 0, quantity := 0, price := 0, timeInForce := 0, display := 0,
    intermarketSweepEligibility := 0, clOrdId := Vector.replicate 14 0 }

instance : OuchMessage OuchCancelOrder where
  core := [messageType 'X', hook (·.userRefNum) ({ · with userRefNum := · }),
    hook (·.quantity) ({ · with quantity := · })]
  tags := [(.userRefIdx, hook (·.userRefIdx) ({ · with userRefIdx := · }))]
  appendage := (·.appendage)
  setAppendage m appendage := { m with appendage := appendage }
  blank := { userRefNum := 0, quantity := 0 }

instance : OuchMessage OuchOrderAccepted where
  core := [messageType 'A', hook (·.timestamp) ({ · with timestamp := · }),
    hook (·.userRefNum) ({ · with userRefNum := · }), hook (·.side) ({ · with side := · }),
    hook (·.quantity) ({ · with quantity := · }), hook (·.symbol) ({ · with symbol := · }),
    hook (·.price) ({ · with price := · }), hook (·.timeInForce) ({ · with timeInForce := · }),
    hook (·.display) ({ · with display := · }),
    hook (·.orderReferenceNumber) ({ · with orderReferenceNumber := · }),
    hook (·.capacity) ({ · with capacity := · }),
    hook (·.intermarketSweepEligibility) ({ · with intermarketSweepEligibility := · }),
    hook (·.crossType) ({ · with crossType := · }), hook (·.orderState) ({ · with orderState := · }),
    hook (·.clOrdId) ({ · with clOrdId := · })]
  tags := [(.firm, hook (·.firm) ({ · with firm := · })), (.minQty, hook (·.minQty) ({ · with minQty := · })),
    (.customerType, hook (·.customerType) ({ · with customerType := · })),
    (.maxFloor, hook (·.maxFloor) ({ · with maxFloor := · })),
    (.priceType, hook (·.priceType) ({ · with priceType := · })),
    (.pegOffset, hook (·.pegOffset) ({ · with pegOffset := · })),
    (.discretionPrice, hook (·.discretionPrice) ({ · with discretionPrice := · })),
    (.discretionPriceType, hook (·.discretionPriceType) ({ · with discretionPriceType := · })),
    (.discretionPegOffset, hook (·.discretionPegOffset) ({ · with discretionPegOffset := · })),
    (.postOnly, hook (·.postOnly) ({ · with postOnly := · })),
    (.randomReserves, hook (·.randomReserves) ({ · with randomReserves := · })),
    (.route, hook (·.route) ({ · with route := · })),
    (.expireTime, hook (·.expireTime) ({ · with expireTime := · })),
    (.tradeNow, hook (·.tradeNow) ({ · with tradeNow := · })),
    (.handleInst, hook (·.handleInst) ({ · with handleInst := · })),
    (.bboWeightIndicator, hook (·.bboWeightIndicator) ({ · with bboWeightIndicator := · })),
    (.groupId, hook (·.groupId) ({ · with groupId := · })),
    (.sharesLocated, hook (·.sharesLocated) ({ · with sharesLocated := · })),
    (.userRefIdx, hook (·.userRefIdx) ({ · with userRefIdx := · })),
    (.aiqStrategy, hook (·.aiqStrategy) ({ · with aiqStrategy := · })),
    (.aiqGroupId, hook (·.aiqGroupId) ({ · with aiqGroupId := · }))]
  appendage := (·.appendage)
  setAppendage m appendage := { m with appendage := appendage }
  blank := {
    timestamp := 0, userRefNum := 0, side := 0, quantity := 0, symbol := Vector.replicate 8 0, price := 0,
    timeInForce := 0, display := 0, orderReferenceNumber := 0, capacity := 0, intermarketSweepEligibility := 0,
    crossType := 0, orderState := 0, clOrdId := Vector.replicate 14 0 }

instance : OuchMessage OuchOrderReplaced where
  core := [messageType 'U', hook (·.timestamp) ({ · with timestamp := · }),
    hook (·.origUserRefNum) ({ · with origUserRefNum := · }), hook (·.userRefNum) ({ · with userRefNum := · }),
    hook (·.side) ({ · with side := · }), hook (·.quantity) ({ · with quantity := · }),
    hook (·.symbol) ({ · with symbol := · }), hook (·.price) ({ · with price := · }),
    hook (·.timeInForce) ({ · with timeInForce := · }), hook (·.display) ({ · with display := · }),
    hook (·.orderReferenceNumber) ({ · with orderReferenceNumber := · }),
    hook (·.capacity) ({ · with capacity := · }),
    hook (·.intermarketSweepEligibility) ({ · with intermarketSweepEligibility := · }),
    hook (·.crossType) ({ · with crossType := · }), hook (·.orderState) ({ · with orderState := · }),
    hook (·.clOrdId) ({ · with clOrdId := · })]
  tags := [(.firm, hook (·.firm) ({ · with firm := · })), (.minQty, hook (·.minQty) ({ · with minQty := · })),
    (.maxFloor, hook (·.maxFloor) ({ · with maxFloor := · })),
    (.priceType, hook (·.priceType) ({ · with priceType := · })),
    (.postOnly, hook (·.postOnly) ({ · with postOnly := · })),
    (.expireTime, hook (·.expireTime) ({ · with expireTime := · })),
    (.tradeNow, hook (·.tradeNow) ({ · with tradeNow := · })),
    (.handleInst, hook (·.handleInst) ({ · with handleInst := · })),
    (.bboWeightIndicator, hook (·.bboWeightIndicator) ({ · with bboWeightIndicator := · })),
    (.userRefIdx, hook (·.userRefIdx) ({ · with userRefIdx := · })),
    (.aiqStrategy, hook (·.aiqStrategy) ({ · with aiqStrategy := · })),
    (.aiqGroupId, hook (·.aiqGroupId) ({ · with aiqGroupId := · }))]
  appendage := (·.appendage)
  setAppendage m appendage := { m with appendage := appendage }
  blank := {
    timestamp := 0, origUserRefNum := 0, userRefNum := 0, side := 0, quantity := 0, symbol := Vector.replicate 8 0,
    price := 0, timeInForce := 0, display := 0, orderReferenceNumber := 0, capacity := 0,
    intermarketSweepEligibility := 0, crossType := 0, orderState := 0, clOrdId := Vector.replicate 14 0 }

instance : OuchMessage OuchOrderCanceled where
  core := [messageType 'C', hook (·.timestamp) ({ · with timestamp := · }),
    hook (·.userRefNum) ({ · with userRefNum := · }), hook (·.decrementShares) ({ · with decrementShares := · }),
    hook (·.reason) ({ · with reason := · })]
  tags := [(.userRefIdx, hook (·.userRefIdx) ({ · with userRefIdx := · }))]
  appendage := (·.appendage)
  setAppendage m appendage := { m with appendage := appendage }
  blank := { timestamp := 0, userRefNum := 0, decrementShares := 0, reason := 0 }

instance : OuchMessage OuchOrderExecuted where
  core := [messageType 'E', hook (·.timestamp) ({ · with timestamp := · }),
    hook (·.userRefNum) ({ · with userRefNum := · }), hook (·.executedShares) ({ · with executedShares := · }),
    hook (·.executionPrice) ({ · with executionPrice := · }),
    hook (·.liquidityFlag) ({ · with liquidityFlag := · }), hook (·.matchNumber) ({ · with matchNumber := · })]
  tags := [(.userRefIdx, hook (·.userRefIdx) ({ · with userRefIdx := · }))]
  appendage := (·.appendage)
  setAppendage m appendage := { m with appendage := appendage }
  blank := {
    timestamp := 0, userRefNum := 0, executedShares := 0, executionPrice := 0, liquidityFlag := 0,
    matchNumber := 0 }

instance : OuchMessage OuchOrderRejected where
  core := [messageType 'J', hook (·.timestamp) ({ · with timestamp := · }),
    hook (·.userRefNum) ({ · with userRefNum := · }), hook (·.reason) ({ · with reason := · }),
    hook (·.clOrdId) ({ · with clOrdId := · })]
  tags := [(.userRefIdx, hook (·.userRefIdx) ({ · with userRefIdx := · }))]
  appendage := (·.appendage)
  setAppendage m appendage := { m with appendage := appendage }
  blank := { timestamp := 0, userRefNum := 0, reason := 0, clOrdId := Vector.replicate 14 0 }

namespace OuchDetail

variable {M : Type} [OuchMessage M]

/-- The bytes of the core fields. -/
def coreBytes (msg : M) : List (List UInt8) := (OuchMessage.core (M := M)).map (·.get msg)

theorem wireSize_coreBytes (msg : M) : wireSize (coreBytes msg) = ((OuchMessage.core (M := M)).map (·.size)).sum := by
  rw [wireSize, coreBytes, List.map_map]
  exact congrArg List.sum (List.map_congr_left fun h _ => h.length_get msg)

/-- The bytes of the optional fields. -/
def tagBytes (msg : M) : List (OuchTag × List UInt8) := (OuchMessage.tags (M := M)).map fun t => (t.1, t.2.get msg)

/-- The optional fields that are on the wire. -/
def present (msg : M) : List (OuchTag × List UInt8) :=
  (tagBytes msg).filter fun t => (OuchMessage.appendage msg).has t.1

/-- A TagValue: its length counts the tag and the value. -/
def tagValue (t : OuchTag × List UInt8) : List (List UInt8) :=
  [[UInt8.ofNat (1 + t.2.length)], [t.1.value], t.2]

/-- `ouch_detail::encoded_size`. -/
def encodedSize (msg : M) : ℕ :=
  wireSize (coreBytes msg) + 2 + ((present msg).map fun t => 2 + t.2.length).sum

/-- `ouch_detail::encode` into a buffer of `room` bytes: what was written, nothing if it
did not fit. The two bytes reserved for the appendage's length are filled in last. -/
def encode (msg : M) (room : ℕ) : List UInt8 :=
  let w := WireWriter.puts { room := room } (coreBytes msg)
  let w := w.put (bigEndian 2 0)
  let appendageBegin := w.written.length
  let w := w.puts ((present msg).flatMap tagValue)
  if !w.ok then []
  else
    w.written.take (appendageBegin - 2) ++ bigEndian 2 (w.written.length - appendageBegin) ++
      w.written.drop appendageBegin

/-- What `decode` does with one TagValue, for one of the tags the message supports: the
answer is whether the value's width was wrong. -/
def storeTag (rawTag : UInt8) (value : List UInt8) (r : Bool × M) (t : OuchTag × Hook M) : Bool × M :=
  if t.1.value ≠ rawTag then r
  else if value.length ≠ t.2.size then (true, r.2)
  else
    let msg := t.2.set r.2 value
    (r.1, OuchMessage.setAppendage msg ((OuchMessage.appendage msg).set t.1))

/-- The loop of `ouch_detail::decode` over the TagValues; `fuel` is at least the number of
bytes left. -/
def decodeTags : ℕ → M → List UInt8 → Option M
  | _, msg, [] => some msg
  | 0, _, _ :: _ => none
  | fuel + 1, msg, length :: bytes =>
    if length = 0 ∨ length.toNat > bytes.length then none
    else
      let value := (bytes.drop 1).take (length.toNat - 1)
      let (malformed, msg) := (OuchMessage.tags (M := M)).foldl (storeTag (bytes.headD 0) value) (false, msg)
      if malformed then none else decodeTags fuel msg (bytes.drop length.toNat)

/-- `ouch_detail::decode` into `M{}`. -/
def decode (M : Type) [OuchMessage M] (bytes : List UInt8) : Option M := do
  let (msg, rest) ← readFields OuchMessage.core (OuchMessage.blank (M := M)) bytes
  if rest = [] then some msg
  else if rest.length < 2 ∨ rest.length - 2 ≠ ofBigEndian (rest.take 2) then none
  else decodeTags (rest.length - 2) msg (rest.drop 2)

theorem wireSize_tagValues (ts : List (OuchTag × List UInt8)) :
    wireSize (ts.flatMap tagValue) = (ts.map fun t => 2 + t.2.length).sum := by
  induction ts with
  | nil => rfl
  | cons t ts ih =>
    rw [List.flatMap_cons, wireSize, List.map_append, List.sum_append, List.map_cons, List.sum_cons, ← ih]
    simp only [tagValue, List.map_cons, List.map_nil, List.sum_cons, List.sum_nil, List.length_cons,
      List.length_nil, wireSize]
    omega

/-- What is written. -/
def wireBytes (msg : M) : List UInt8 :=
  (coreBytes msg).flatten ++ bigEndian 2 (wireSize ((present msg).flatMap tagValue)) ++
    ((present msg).flatMap tagValue).flatten

theorem length_wireBytes (msg : M) : (wireBytes msg).length = encodedSize msg := by
  rw [wireBytes, List.length_append, List.length_append, length_flatten_eq_wireSize, length_flatten_eq_wireSize,
    length_bigEndian, encodedSize, wireSize_tagValues]

theorem encode_eq (msg : M) {room : ℕ} (h : encodedSize msg ≤ room) : encode msg room = wireBytes msg := by
  rw [encodedSize, ← wireSize_tagValues] at h
  have hcore : WireWriter.puts { room := room } (coreBytes msg) =
      ⟨room, (coreBytes msg).flatten, true⟩ := by
    rw [WireWriter.puts_eq rfl (by simp only [List.length_nil]; omega), List.nil_append]
  have hskip : WireWriter.put ⟨room, (coreBytes msg).flatten, true⟩ (bigEndian 2 0) =
      ⟨room, (coreBytes msg).flatten ++ bigEndian 2 0, true⟩ :=
    WireWriter.put_eq rfl (by simp only [length_flatten_eq_wireSize, length_bigEndian]; omega)
  have hlen : ((coreBytes msg).flatten ++ bigEndian 2 0).length = wireSize (coreBytes msg) + 2 := by
    rw [List.length_append, length_flatten_eq_wireSize, length_bigEndian]
  have htags := @WireWriter.puts_eq ⟨room, (coreBytes msg).flatten ++ bigEndian 2 0, true⟩
    ((present msg).flatMap tagValue) rfl (by rw [hlen]; omega)
  have htake : ((coreBytes msg).flatten ++ bigEndian 2 0 ++ ((present msg).flatMap tagValue).flatten).take
      (wireSize (coreBytes msg)) = (coreBytes msg).flatten := by
    rw [List.append_assoc, ← length_flatten_eq_wireSize, List.take_left]
  have hdrop : ((coreBytes msg).flatten ++ bigEndian 2 0 ++ ((present msg).flatMap tagValue).flatten).drop
      (wireSize (coreBytes msg) + 2) = ((present msg).flatMap tagValue).flatten := by
    rw [← hlen, List.drop_left]
  simp only [encode, hcore, hskip, htags, Bool.not_true, hlen, List.length_append, Nat.add_sub_cancel,
    Bool.false_eq_true, if_false, length_flatten_eq_wireSize, Nat.add_sub_cancel_left]
  rw [htake, hdrop]
  rfl

end OuchDetail

open OuchDetail

/-- `encoded_size`, 0 for NONE. -/
def encodedSize : OuchOutboundFrame → ℕ
  | .none => 0
  | .orderAccepted m => OuchDetail.encodedSize m
  | .orderReplaced m => OuchDetail.encodedSize m
  | .orderCanceled m => OuchDetail.encodedSize m
  | .orderExecuted m => OuchDetail.encodedSize m
  | .orderRejected m => OuchDetail.encodedSize m

/-- `encoded_size` of an inbound frame. -/
def OuchInboundFrame.encodedSize : OuchInboundFrame → ℕ
  | .none => 0
  | .enterOrder m => OuchDetail.encodedSize m
  | .replaceOrder m => OuchDetail.encodedSize m
  | .cancelOrder m => OuchDetail.encodedSize m

/-- `encode_inbound_ouch`. -/
def encodeInboundOuch (msg : OuchInboundFrame) (room : ℕ) : List UInt8 :=
  match msg with
  | .none => []
  | .enterOrder m => encode m room
  | .replaceOrder m => encode m room
  | .cancelOrder m => encode m room

/-- `encode_outbound_ouch`. -/
def encodeOutboundOuch (msg : OuchOutboundFrame) (room : ℕ) : List UInt8 :=
  match msg with
  | .none => []
  | .orderAccepted m => encode m room
  | .orderReplaced m => encode m room
  | .orderCanceled m => encode m room
  | .orderExecuted m => encode m room
  | .orderRejected m => encode m room

/-- `decode_inbound_ouch`. -/
def decodeInboundOuch (bytes : List UInt8) : OuchInboundFrame :=
  match bytes with
  | [] => .none
  | type :: _ =>
    if type = chr 'O' then (decode OuchEnterOrder bytes).elim .none .enterOrder
    else if type = chr 'U' then (decode OuchReplaceOrder bytes).elim .none .replaceOrder
    else if type = chr 'X' then (decode OuchCancelOrder bytes).elim .none .cancelOrder
    else .none

/-- `decode_outbound_ouch`. -/
def decodeOutboundOuch (bytes : List UInt8) : OuchOutboundFrame :=
  match bytes with
  | [] => .none
  | type :: _ =>
    if type = chr 'A' then (decode OuchOrderAccepted bytes).elim .none .orderAccepted
    else if type = chr 'U' then (decode OuchOrderReplaced bytes).elim .none .orderReplaced
    else if type = chr 'C' then (decode OuchOrderCanceled bytes).elim .none .orderCanceled
    else if type = chr 'E' then (decode OuchOrderExecuted bytes).elim .none .orderExecuted
    else if type = chr 'J' then (decode OuchOrderRejected bytes).elim .none .orderRejected
    else .none

/-- A buffer of the right size is filled. -/
theorem length_encodeInboundOuch (msg : OuchInboundFrame) :
    (encodeInboundOuch msg msg.encodedSize).length = msg.encodedSize := by
  cases msg with
  | none => rfl
  | enterOrder m => exact (congrArg List.length (encode_eq m (Nat.le_refl _))).trans (length_wireBytes m)
  | replaceOrder m => exact (congrArg List.length (encode_eq m (Nat.le_refl _))).trans (length_wireBytes m)
  | cancelOrder m => exact (congrArg List.length (encode_eq m (Nat.le_refl _))).trans (length_wireBytes m)

theorem length_encodeOutboundOuch (msg : OuchOutboundFrame) :
    (encodeOutboundOuch msg (encodedSize msg)).length = encodedSize msg := by
  cases msg with
  | none => rfl
  | orderAccepted m => exact (congrArg List.length (encode_eq m (Nat.le_refl _))).trans (length_wireBytes m)
  | orderReplaced m => exact (congrArg List.length (encode_eq m (Nat.le_refl _))).trans (length_wireBytes m)
  | orderCanceled m => exact (congrArg List.length (encode_eq m (Nat.le_refl _))).trans (length_wireBytes m)
  | orderExecuted m => exact (congrArg List.length (encode_eq m (Nat.le_refl _))).trans (length_wireBytes m)
  | orderRejected m => exact (congrArg List.length (encode_eq m (Nat.le_refl _))).trans (length_wireBytes m)

end Exchange
