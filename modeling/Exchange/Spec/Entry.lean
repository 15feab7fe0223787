import Exchange.Impl.Server.OrderEntry

/-!
# Identities

What order entry hands out: ids of orders, each for a client and a UserRefNum.
-/

namespace Exchange.Spec

/-- The UserRefNum of a message; that of a Cancel is the order's. -/
def userRefNum : OuchInboundFrame → UInt32
  | .enterOrder msg => msg.userRefNum
  | .replaceOrder msg => msg.userRefNum
  | .cancelOrder msg => msg.userRefNum
  | .none => 0

/-- The id a translation hands out: that of a NEW request, or the new one of a REPLACE
request. -/
def newId (t : Translation) : Option ℕ :=
  t.request.bind fun request =>
    match request.type with
    | .new => some request.orderId
    | .replace => some request.newOrderId
    | .cancel => none

/-- The order `orderId` of a client is the one with its UserRefNum `userRefNum`. -/
structure Identity where
  clientId : ℕ
  userRefNum : UInt32
  orderId : ℕ

/-- The ids handed out by calls of `translate`, given what the calls returned. -/
def identities : List (ℕ × OuchInboundFrame) → List Translation → List Identity
  | (c, msg) :: calls, t :: ts => ((newId t).map fun id => ⟨c, userRefNum msg, id⟩).toList ++ identities calls ts
  | _, _ => []

/-- An Enter Order. -/
def IsEnter (msg : OuchInboundFrame) : Prop := ∃ m, msg = .enterOrder m

/-- The UserRefNum of a message that has one of its own, an Enter or a Replace. -/
def ownRefNum : OuchInboundFrame → Option UInt32
  | .enterOrder msg => some msg.userRefNum
  | .replaceOrder msg => some msg.userRefNum
  | _ => none

/-- What becomes of a message that is neither used up nor turned down, when these ids have been
handed out: an Enter is a NEW order with the next id, a Cancel or a Replace is for the order that
the client's UserRefNum stands for, and is dropped if it stands for none. -/
def Taken (band : Validation.PriceBand) (clientId : ℕ) (known : List Identity) : OuchInboundFrame → Translation → Prop
  | .enterOrder msg, t => ∃ check, Validation.checkEnter msg band = .ok check ∧ t = {
      note := some (.orderEntered (known.length + 1) (OrderEntry.enterRecord clientId msg))
      request := some (OrderEntry.enterRequest (known.length + 1) clientId msg check) }
  | .cancelOrder msg, t =>
    (∀ id, ⟨clientId, msg.userRefNum, id⟩ ∈ known → ∃ side,
      t = { request := some (OrderEntry.cancelRequest id clientId side msg.quantity) }) ∧
    ((∀ id, ⟨clientId, msg.userRefNum, id⟩ ∉ known) → t = {})
  | .replaceOrder msg, t =>
    (∀ id, ⟨clientId, msg.origUserRefNum, id⟩ ∈ known → ∃ side check record, t = {
      note := some (.orderReplacing (known.length + 1) record)
      request := some (OrderEntry.replaceRequest id (known.length + 1) clientId side msg check) }) ∧
    ((∀ id, ⟨clientId, msg.origUserRefNum, id⟩ ∉ known) → t = {})
  | .none, t => t = {}

/-! ## One client's view -/

/-- The messages of client `c`. -/
def own (c : ℕ) (calls : List (ℕ × OuchInboundFrame)) : List OuchInboundFrame :=
  (calls.filter (·.1 = c)).map (·.2)

/-- What calls of `translate` returned for the messages of client `c`. -/
def answers (c : ℕ) : List (ℕ × OuchInboundFrame) → List Translation → List Translation
  | (c', _) :: calls, t :: ts => if c' = c then t :: answers c calls ts else answers c calls ts
  | _, _ => []

def renameNote (f : ℕ → ℕ) : GatewayNote → GatewayNote
  | .orderEntered orderId record => .orderEntered (f orderId) record
  | .orderReplacing orderId record => .orderReplacing (f orderId) record
  | .rejected reason record => .rejected reason record

/-- Only a REPLACE request has a new id. -/
def renameRequest (f : ℕ → ℕ) (request : EngineRequest) : EngineRequest :=
  { request with
    orderId := f request.orderId
    newOrderId := if request.type = .replace then f request.newOrderId else request.newOrderId }

/-- A translation with its ids renamed. -/
def rename (f : ℕ → ℕ) (t : Translation) : Translation where
  note := t.note.map (renameNote f)
  request := t.request.map (renameRequest f)

end Exchange.Spec
