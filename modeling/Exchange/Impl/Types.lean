import Mathlib.Algebra.Ring.Nat

/-!
# Types shared by the gateway and the engine

`order_types.hpp`, `communication_proto.hpp` and the constants of the exchange's
`config.hpp`.

Quantities are 32-bit in the source. Here they are natural numbers, and every
addition and subtraction the engine makes on them goes through an `Arith`:
`wrapping` is what the machine computes, `checked` fails where the exact result
does not fit. Identifiers, match numbers and time stamps are 64-bit counters and
labels (`OrderId`, `ClientId`, `Timestamp`) that are only compared or incremented,
and a `Price` is only compared, incremented and decremented inside the price band;
these are plain natural numbers too.
-/

namespace Exchange

inductive Side
  | bid
  | ask
  deriving DecidableEq, Repr

inductive OrderType
  | market
  | limit
  deriving DecidableEq, Repr

inductive TimeInForce
  | day
  | ioc
  deriving DecidableEq, Repr

/-- The other side of the book. -/
def Side.opposite : Side → Side
  | .bid => .ask
  | .ask => .bid

theorem Side.opposite_ne (s : Side) : s.opposite ≠ s := by cases s <;> decide

/-- `MIN_PRICE`, in cents. -/
def minPrice : ℕ := 1

/-- `MAX_PRICE`, in cents. -/
def maxPrice : ℕ := 1000 * 100

/-- The prices the ladders have a level for. -/
def InBand (p : ℕ) : Prop := minPrice ≤ p ∧ p ≤ maxPrice

instance (p : ℕ) : Decidable (InBand p) := inferInstanceAs (Decidable (_ ∧ _))

/-! ## 32-bit arithmetic -/

/-- How an operation on 32-bit unsigned quantities treats a result that does
not fit: `wrapping` reduces it modulo `2 ^ 32`, as the machine does, and
`checked` has none. -/
inductive Arith
  | wrapping
  | checked
  deriving DecidableEq, Repr

/-- `a - b`. -/
def Arith.sub : Arith → ℕ → ℕ → Option ℕ
  | .wrapping, a, b => some ((a + (2 ^ 32 - b)) % 2 ^ 32)
  | .checked, a, b => if b ≤ a then some (a - b) else none

/-- `a + b`. -/
def Arith.add : Arith → ℕ → ℕ → Option ℕ
  | .wrapping, a, b => some ((a + b) % 2 ^ 32)
  | .checked, a, b => if a + b < 2 ^ 32 then some (a + b) else none

theorem Arith.sub_eq (A : Arith) {a b : ℕ} (ha : a < 2 ^ 32) (h : b ≤ a) :
    A.sub a b = some (a - b) := by
  cases A with
  | wrapping => simp only [Arith.sub, Option.some.injEq]; omega
  | checked => simp only [Arith.sub, h, ite_true]

theorem Arith.add_eq (A : Arith) {a b : ℕ} (h : a + b < 2 ^ 32) :
    A.add a b = some (a + b) := by
  cases A with
  | wrapping => simp only [Arith.add, Nat.mod_eq_of_lt h]
  | checked => simp only [Arith.add, h, ite_true]

/-! ## What the gateway and the engine pass each other -/

inductive EngineRequestType
  | new
  | cancel
  | replace
  deriving DecidableEq, Repr

/-- `EngineRequest`, gateway to engine. -/
structure EngineRequest where
  readBeginTsc : ℕ := 0
  recvTsc : ℕ := 0
  serverPushTsc : ℕ := 0
  /-- NEW: the id to assign; CANCEL and REPLACE: the existing order. -/
  orderId : ℕ
  /-- REPLACE only: the id of the replacement order. -/
  newOrderId : ℕ
  clientId : ℕ
  price : ℕ
  quantity : ℕ
  type : EngineRequestType
  side : Side
  orderType : OrderType
  timeInForce : TimeInForce
  quantity_lt : quantity < 2 ^ 32
  deriving DecidableEq

inductive EngineEventType
  | accepted
  | replaced
  | canceled
  | executed
  | rejected
  deriving DecidableEq, Repr

/-- `engine_reason`, and the zero of an event that gives none. -/
inductive EngineReason
  | none
  | userRequested
  | immediateOrCancel
  | addedLiquidity
  | removedLiquidity
  | bookFull
  deriving DecidableEq, Repr

/-- What an `EngineEvent` says, without its latency stamps. -/
structure Event where
  orderId : ℕ
  /-- REPLACED only: the order that was replaced. -/
  origOrderId : ℕ := 0
  /-- EXECUTED only, shared by both sides of a fill. -/
  matchNumber : ℕ := 0
  clientId : ℕ
  price : ℕ := 0
  quantity : ℕ := 0
  type : EngineEventType
  reason : EngineReason := .none
  answersRequest : Bool := false
  deriving DecidableEq, Repr

/-- `EngineEvent`, engine to gateway. -/
structure EngineEvent extends Event where
  readBeginTsc : ℕ
  recvTsc : ℕ
  serverPushTsc : ℕ
  enginePopTsc : ℕ
  enginePushTsc : ℕ
  deriving DecidableEq, Repr

end Exchange
