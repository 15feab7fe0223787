import Exchange.Impl.Engine.Orderbook

/-!
# The matching thread

`engine.cpp`. `handleMatching` takes the requests off its ring in order and hands each
to the book (`executeRequest`), with the time stamp counter at which it took it; the
prefetch of the next request changes nothing.
-/

namespace Exchange.Engine

/-- `Engine::executeRequest`. -/
def executeRequest (a : Arith) (b : Orderbook) (req : EngineRequest × ℕ) : Option (Bool × Orderbook) :=
  b.process a req.1 req.2

/-- `Engine::handleMatching` on the requests of the ring: what `process` returned for
each, and the book after them. -/
def handleMatching (a : Arith) : Orderbook → List (EngineRequest × ℕ) → Option (List Bool × Orderbook)
  | b, [] => some ([], b)
  | b, req :: reqs => do
    let (handled, b) ← executeRequest a b req
    let (rest, b) ← handleMatching a b reqs
    some (handled :: rest, b)

end Exchange.Engine
