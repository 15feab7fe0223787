import Exchange.Spec.Book
import Mathlib.Logic.Function.Basic

/-!
# The liability of a chain

A chain is an order and its successive replacements. The ledger says, from what is seen
of each request, to which chain an order belongs, how many shares of a chain were
executed, and for how many in total its client is liable.
-/

namespace Exchange.Spec

/-- What is seen of one request: whether it named a resting order of its client, and
the events it caused. -/
structure Entry where
  req : EngineRequest
  owned : Bool
  events : List Event

namespace Entry

/-- The kind of event that answers the request. -/
def answer (t : Entry) : Option EngineEventType := t.events.head?.map (·.type)

/-- Whether the request sets the liability of its chain to its quantity: an accepted
NEW, an effective CANCEL and an applied REPLACE. -/
def SetsLiability (t : Entry) : Prop :=
  t.req.type = .new ∧ t.answer = some .accepted ∨ t.req.type = .cancel ∧ t.answer = some .canceled ∨
    t.req.type = .replace ∧ t.answer = some .replaced

instance (t : Entry) : Decidable t.SetsLiability := inferInstanceAs (Decidable (_ ∨ _ ∨ _))

/-- Whether the request caps its chain: an owner's CANCEL or REPLACE of a resting order. -/
def Caps (t : Entry) : Prop := (t.req.type = .cancel ∨ t.req.type = .replace) ∧ t.owned = true

end Entry

/-- The accounts of the chains. A chain is named after its first order. -/
structure Ledger where
  /-- The chain of an order. -/
  chain : ℕ → ℕ := id
  /-- The shares of a chain executed so far. -/
  executed : ℕ → ℕ := fun _ => 0
  /-- The liability of a chain in force. -/
  liability : ℕ → ℕ := fun _ => 0

namespace Ledger

/-- A REPLACED event puts the new order on the chain of the old one, an EXECUTED event
counts for the chain of its order. -/
def event (l : Ledger) (e : Event) : Ledger :=
  match e.type with
  | .replaced => { l with chain := Function.update l.chain e.orderId (l.chain e.origOrderId) }
  | .executed =>
    let c := l.chain e.orderId
    { l with executed := Function.update l.executed c (l.executed c + e.quantity) }
  | _ => l

def events (l : Ledger) (es : List Event) : Ledger := es.foldl event l

/-- The liability a request sets. -/
def request (l : Ledger) (t : Entry) : Ledger :=
  if t.SetsLiability then
    { l with liability := Function.update l.liability (l.chain t.req.orderId) t.req.quantity }
  else l

def post (l : Ledger) (t : Entry) : Ledger := (l.request t).events t.events

/-- The accounts after a sequence of requests. -/
def posts (l : Ledger) (ts : List Entry) : Ledger := ts.foldl post l

/-- The request replaces the resting order of chain `c`. -/
def Replaces (l : Ledger) (c : ℕ) (t : Entry) : Prop :=
  t.req.type = .replace ∧ t.answer = some .replaced ∧ l.chain t.req.orderId = c

/-- No request replaces an order of chain `c`. -/
def Unreplaced (c : ℕ) : Ledger → List Entry → Prop
  | _, [] => True
  | l, t :: ts => ¬ l.Replaces c t ∧ Unreplaced c (l.post t) ts

end Ledger

/-- Whether the request names a resting order of its client. -/
def Book.owns (b : Book) (req : EngineRequest) : Bool :=
  match b.find? req.orderId with
  | some o => o.clientId == req.clientId
  | none => false

/-- What is seen of a request on `b`. -/
def entry (capacity : ℕ) (b : Book) (req : EngineRequest) : Entry where
  req := req
  owned := b.owns req
  events := (process capacity b req).events

/-- What is seen of a sequence of requests. -/
def transcript (capacity : ℕ) : Book → List EngineRequest → List Entry
  | _, [] => []
  | b, req :: reqs => entry capacity b req :: transcript capacity (process capacity b req).book reqs

end Exchange.Spec
