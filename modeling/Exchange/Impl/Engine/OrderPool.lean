import Exchange.Impl.Types
import Mathlib.Logic.Function.Basic

/-!
# Orders, the order pool and price level queues

`order.hpp`, `order_pool.hpp` and `price_level_queue.hpp`.

An `Order*` is the slot of the pool's arena it points into, and `none` is
`nullptr`. The links of an intrusive list live in the orders themselves, so the
operations of a `PriceLevelQueue` take the arena and return it.
-/

namespace Exchange

/-- `Order`: a resting order, and the links of the level it rests on. -/
structure Order where
  id : ℕ := 0
  prev : Option ℕ := none
  next : Option ℕ := none
  clientId : ℕ := 0
  price : ℕ := 0
  openQuantity : ℕ := 0
  executedQuantity : ℕ := 0
  side : Side := .bid
  deriving DecidableEq, Repr

/-- `Order::is_filled`. -/
def Order.isFilled (o : Order) : Bool := o.openQuantity == 0

/-- The orders of the pool, by slot. -/
abbrev Arena := ℕ → Order

def Arena.setNext (m : Arena) (x : ℕ) (next : Option ℕ) : Arena :=
  Function.update m x { m x with next := next }

def Arena.setPrev (m : Arena) (x : ℕ) (prev : Option ℕ) : Arena :=
  Function.update m x { m x with prev := prev }

/-! ## The pool -/

/-- `OrderPool`: the head of `freeList` is the back of the vector, the next slot
to be handed out. -/
structure OrderPool where
  capacity : ℕ
  arena : Arena
  freeList : List ℕ

/-- The constructor pushes the slots in reverse, so slot 0 is handed out first. -/
def OrderPool.new (capacity : ℕ) : OrderPool where
  capacity := capacity
  arena := fun _ => {}
  freeList := List.range capacity

def OrderPool.available (p : OrderPool) : ℕ := p.freeList.length

/-- `OrderPool::allocate`, `none` where it returns `nullptr`. -/
def OrderPool.allocate (p : OrderPool) (order : Order) : Option (ℕ × OrderPool) :=
  match p.freeList with
  | [] => none
  | slot :: rest => some (slot, { p with arena := Function.update p.arena slot order, freeList := rest })

/-- `OrderPool::deallocate`. -/
def OrderPool.deallocate (p : OrderPool) (slot : ℕ) : OrderPool :=
  { p with freeList := slot :: p.freeList }

/-! ## Price levels -/

/-- `PriceLevelQueue`: one price level's orders, in time priority. -/
structure PriceLevelQueue where
  head : Option ℕ := none
  tail : Option ℕ := none
  size : ℕ := 0
  deriving DecidableEq, Repr

namespace PriceLevelQueue

def empty (q : PriceLevelQueue) : Bool := q.head == none

def front (q : PriceLevelQueue) : Option ℕ := q.head

/-- `PriceLevelQueue::push`. -/
def push (q : PriceLevelQueue) (m : Arena) (newOrder : ℕ) : PriceLevelQueue × Arena :=
  let head := match q.head with
    | none => some newOrder
    | some h => some h
  let m := match q.tail with
    | none => m
    | some t => (m.setNext t (some newOrder)).setPrev newOrder (some t)
  ({ head := head, tail := some newOrder, size := q.size + 1 }, m)

/-- `PriceLevelQueue::remove`. -/
def remove (q : PriceLevelQueue) (m : Arena) (toRemove : ℕ) : PriceLevelQueue × Arena :=
  let prev := (m toRemove).prev
  let next := (m toRemove).next
  let (head, m) := match prev with
    | some p => (q.head, m.setNext p next)
    | none => (next, m)
  let (tail, m) := match next with
    | some n => (q.tail, m.setPrev n prev)
    | none => (prev, m)
  ({ head := head, tail := tail, size := q.size - 1 }, m)

end PriceLevelQueue

end Exchange
