import Exchange.Spec.Told

/-!
# The feed and the clients' messages side by side

What a subscriber of the feed is shown of an order, what its owner is told of it, and when
the two agree.
-/

namespace Exchange.Spec

/-! ## The feed -/

/-- An order as a message displays it. -/
structure Showing where
  ref : ℕ
  shares : ℕ
  price : ℕ

/-- The order a message displays: Add Order and Order Replace do. -/
def showing : ItchBody → Option Showing
  | .addOrder ref _ shares _ price => some ⟨ref, shares, price⟩
  | .orderReplace _ ref shares price => some ⟨ref, shares, price⟩
  | _ => none

/-- The price each reference number was displayed at. -/
def prices (itch : List ItchBody) : ℕ → Option ℕ :=
  itch.foldl (fun shown m => match showing m with
    | some s => Function.update shown s.ref (some s.price)
    | none => shown) fun _ => none

/-- The side each reference number was displayed on: Order Replace has no side, the new
order is on that of the one it replaces. -/
def sides (itch : List ItchBody) : ℕ → Option UInt8 :=
  itch.foldl (fun shown m => match m with
    | .addOrder ref side _ _ _ => Function.update shown ref (some side)
    | .orderReplace orig ref _ _ => Function.update shown ref (shown orig)
    | _ => shown) fun _ => none

/-- An execution as a message reports it. -/
structure ItchFill where
  ref : ℕ
  shares : ℕ
  matchNumber : ℕ

def itchFill : ItchBody → Option ItchFill
  | .orderExecuted ref shares matchNumber => some ⟨ref, shares, matchNumber⟩
  | _ => none

/-! ## The clients' messages -/

/-- What an Order Accepted or an Order Replaced says of the order it opens. -/
structure Opening where
  clientId : ℕ
  userRefNum : UInt32
  orderReferenceNumber : UInt64
  side : UInt8
  price : UInt64
  quantity : UInt32

def opening (r : OuchResponse) : Option Opening :=
  match r.ouch with
  | .orderAccepted m => some ⟨r.clientId, m.userRefNum, m.orderReferenceNumber, m.side, m.price, m.quantity⟩
  | .orderReplaced m => some ⟨r.clientId, m.userRefNum, m.orderReferenceNumber, m.side, m.price, m.quantity⟩
  | _ => none

/-- The Order Executed for an order that rested, with its client. -/
def restingFill (r : OuchResponse) : Option (ℕ × OuchOrderExecuted) :=
  match r.ouch with
  | .orderExecuted m => if m.liquidityFlag = chr 'A' then some (r.clientId, m) else none
  | _ => none

def executedShares : OuchOutboundFrame → ℕ
  | .orderExecuted m => m.executedShares.toNat
  | _ => 0

/-- The shares reported executed to client `c` under UserRefNum `u`. -/
def executedUnder (c : ℕ) (u : UInt32) (handled : List Handled) : ℕ :=
  ((toldUnder c u handled).map executedShares).sum

end Exchange.Spec
