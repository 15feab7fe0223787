import Exchange.Impl.Engine.Engine

/-!
# The matching loop

`Engine::step` and the loop of `Engine::handleMatching`, which keeps one request ahead of
the one it executes. The loop is cut where it touches what it shares: at its pops, at
`executeRequest` and at the reading of `stop_`; in between, requests arrive on the ring
(`MatchingLoop.run`). An empty optional that is dereferenced is undefined (`none`).

`pushed`, `popped` and `executed` record what happened; the loop does not read them.
-/

namespace Exchange

/-- `Engine::step`, on a ring with these requests; each comes with the time stamp counter at
which it is executed. -/
def Engine.step (a : Arith) : Orderbook → List (EngineRequest × ℕ) → Option Orderbook
  | b, [] => some b
  | b, msg :: ring => do
    let (_, b) ← executeRequest a b msg
    step a b ring

/-- Where the thread is in `handleMatching`. -/
inductive MatchingPc
  /-- At the head of the loop. -/
  | head
  /-- About to pop into `cur`. -/
  | pollCur
  /-- About to pop into `nxt`, and to prefetch. -/
  | pollNxt
  /-- About to execute `*cur`. -/
  | execute
  /-- About to move `nxt` to `cur`. -/
  | shift
  /-- Behind the loop. -/
  | stopped

structure MatchingLoop where
  pc : MatchingPc := .head
  cur : Option EngineRequest := none
  nxt : Option EngineRequest := none
  /-- `in_ring_`. -/
  ring : List EngineRequest := []
  stop : Bool := false
  book : Orderbook
  pushed : List EngineRequest := []
  popped : List EngineRequest := []
  executed : List (EngineRequest × ℕ) := []

inductive MatchingAction
  /-- A request is pushed. -/
  | arrive (req : EngineRequest)
  /-- `stop_` is set. -/
  | stop
  /-- The loop goes on; `rdtsc` is the time stamp counter, if it is read. -/
  | loop (rdtsc : ℕ)

namespace MatchingLoop

/-- `in_ring_.pop()`. -/
def pop (s : MatchingLoop) : Option EngineRequest × MatchingLoop :=
  match s.ring with
  | [] => (none, s)
  | req :: ring => (some req, { s with ring := ring, popped := s.popped ++ [req] })

/-- `Engine::handleMatching`, to its next access. -/
def loopStep (a : Arith) (rdtsc : ℕ) (s : MatchingLoop) : Option MatchingLoop :=
  match s.pc with
  | .head =>
    if s.stop then some { s with pc := .stopped }
    else some { s with pc := if s.cur.isNone then .pollCur else .pollNxt }
  | .pollCur =>
    let (cur, s) := s.pop
    some { s with cur := cur, pc := if cur.isNone then .head else .pollNxt }
  | .pollNxt =>
    let (nxt, s) := s.pop
    some { s with nxt := nxt, pc := .execute }
  | .execute =>
    match s.cur with
    | none => none
    | some cur => do
      let (_, book) ← Engine.executeRequest a s.book (cur, rdtsc)
      some { s with book := book, executed := s.executed ++ [(cur, rdtsc)], pc := .shift }
  | .shift =>
    -- `nxt` is moved from, and keeps its value
    some { s with cur := s.nxt, pc := .head }
  | .stopped => some s

def step (a : Arith) (s : MatchingLoop) : MatchingAction → Option MatchingLoop
  | .arrive req => some { s with ring := s.ring ++ [req], pushed := s.pushed ++ [req] }
  | .stop => some { s with stop := true }
  | .loop rdtsc => s.loopStep a rdtsc

/-- Any interleaving of the loop with what arrives. -/
def run (a : Arith) (s : MatchingLoop) (actions : List MatchingAction) : Option MatchingLoop :=
  actions.foldlM (step a) s

end MatchingLoop

end Exchange
