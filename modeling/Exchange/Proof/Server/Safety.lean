import Exchange.Impl.Server.Gateway
import Exchange.Proof.Engine.Reached
import Exchange.Proof.Server.Identity

/-!
# Requests of clients are safe

Whatever the clients send, order entry only hands the engine requests whose limit prices
have a level, so that nothing the order book does is undefined
(`no_undefined_behaviour`).
-/

namespace Exchange

open Spec (PriceOk)

namespace OrderEntry

variable {s s' : OrderEntry} {c : ℕ} {msg : OuchInboundFrame} {t : Translation}
  {calls : List (ℕ × OuchInboundFrame)} {ts : List Translation}

theorem Runs.priceOk (h : Runs s calls s' ts) (hband : s.band = Gateway.band) :
    ∀ t ∈ ts, ∀ req, t.request = some req → PriceOk req := by
  induction h with
  | nil => exact fun t ht => absurd ht List.not_mem_nil
  | cons _ _ hb _ ih =>
    intro t ht req hr
    rcases List.mem_cons.mp ht with rfl | ht
    · exact hb.priceOk hband hr
    · exact ih (hb.band_eq.trans hband) t ht req hr

end OrderEntry

/-- The requests that messages are translated to, with their stamps and the times the
engine takes them. -/
def requestsOf (ms : List Inbound) (ts : List Translation) : List (EngineRequest × ℕ) :=
  (ms.zip ts).filterMap fun p => p.2.request.map fun req => (Gateway.stamp p.1 req, p.1.enginePopTsc)

theorem priceOk_requestsOf (ms : List Inbound) {ts : List Translation}
    (h : ∀ t ∈ ts, ∀ req, t.request = some req → PriceOk req) : ∀ r ∈ requestsOf ms ts, PriceOk r.1 := by
  intro r hr
  obtain ⟨⟨m, t⟩, hm, hreq⟩ := List.mem_filterMap.mp hr
  obtain ⟨req, ht, rfl⟩ := Option.map_eq_some_iff.mp hreq
  exact h t (List.of_mem_zip hm).2 req ht

/-- No message of a client leads to undefined behaviour: every message can be translated,
and the engine handles the requests, with either arithmetic. No level outside the ladders
is touched, no empty level has its front taken, there always is a slot for an order that
rests, and `match` ends. What it fills is at the price of a level, and has shares, so that
the front order of the level had some open. -/
theorem no_undefined_behaviour (capacity : ℕ) (env : Env) (ms : List Inbound) :
    ∃ entry ts, OrderEntry.translateAll { band := Gateway.band } (ms.map fun m => (m.clientId, m.msg)) =
        some (entry, ts) ∧
      ∃ returned b,
        (∀ a, Engine.handleMatching a (Orderbook.new capacity env) (requestsOf ms ts) = some (returned, b)) ∧
        ∀ e ∈ b.out.outRing, e.type = .executed → InBand e.price ∧ 0 < e.quantity := by
  obtain ⟨entry, ts, hruns⟩ := (OrderEntry.Ok.new Gateway.band).runs (ms.map fun m => (m.clientId, m.msg))
  have hp := priceOk_requestsOf ms (hruns.priceOk rfl)
  obtain ⟨b, -, hres, -, -, hev, -⟩ := handleMatching_new capacity env hp
  refine ⟨entry, ts, hruns.eq, _, b, hres, fun e he ht => ?_⟩
  have hm : e.toEvent ∈ (Spec.steps capacity {} ((requestsOf ms ts).map Prod.fst)).flatMap (·.events) :=
    hev ▸ List.mem_map_of_mem he
  exact Spec.steps_executed capacity .new (List.forall_mem_map.mpr hp) _ hm ht

end Exchange
