import Exchange.Proof.Book.Effect
import Exchange.Proof.Engine.Reached

/-!
# What a request does to the order book

Of any book that is reached: a request that is not handled changes nothing, one that is
handled is answered once, first and to its client (`requests_answered_once`); and the
orders of other clients change only by trading, as the events say (`others_only_trade`).
-/

namespace Exchange

open Spec (Resting Book Named settled sharesAdded)

/-! ## Requests that are ignored -/

namespace Orderbook

variable {b : Orderbook}

/-- A result that is not `true` leaves the book as it was. -/
def Ignores (b : Orderbook) (res : Option (Bool × Orderbook)) : Prop := ∀ b', res = some (false, b') → b' = b

theorem ignores_self : Ignores b (some (false, b)) := fun _ e => (Prod.mk.inj (Option.some.inj e)).2.symm

theorem ignores_true (b' : Orderbook) : Ignores b (some (true, b')) := fun _ e => by cases e

theorem ignores_bind {α : Type} (x : Option α) {f : α → Option (Bool × Orderbook)} (h : ∀ y, Ignores b (f y)) :
    Ignores b (x >>= f) := fun b' e => by
  obtain ⟨y, -, hy⟩ := Option.bind_eq_some_iff.mp e
  exact h y b' hy

theorem ignores_ite {c : Prop} [Decidable c] {x y : Option (Bool × Orderbook)} (hx : Ignores b x) (hy : Ignores b y) :
    Ignores b (if c then x else y) := by
  split
  · exact hx
  · exact hy

theorem enter_ignores (a : Arith) (b : Orderbook) (ctx : Context) : Ignores b (b.enter a ctx) := by
  refine ignores_ite ignores_self (ignores_ite (ignores_true _) ?_)
  refine ignores_bind _ fun _ => ignores_bind _ fun _ => ignores_ite (ignores_true _) (ignores_ite ?_ (ignores_true _))
  exact ignores_bind _ fun _ => ignores_true _

theorem cancel_ignores (a : Arith) (b : Orderbook) (ctx : Context) : Ignores b (b.cancel a ctx) := by
  unfold Orderbook.cancel
  dsimp only
  split
  · exact ignores_self
  · refine ignores_ite ignores_self (ignores_bind _ fun _ => ignores_ite ignores_self (ignores_bind _ fun _ => ?_))
    exact ignores_ite (ignores_bind _ fun _ => ignores_true _) (ignores_true _)

theorem replace_ignores (a : Arith) (b : Orderbook) (ctx : Context) : Ignores b (b.replace a ctx) := by
  unfold Orderbook.replace
  dsimp only
  split
  · exact ignores_self
  · refine ignores_ite ignores_self (ignores_ite ignores_self (ignores_bind _ fun _ => ignores_ite ?_ ?_))
    · exact ignores_bind _ fun _ => ignores_true _
    refine ignores_bind _ fun _ => ignores_ite (ignores_bind _ fun _ => ignores_true _) ?_
    refine ignores_bind _ fun _ => ignores_bind _ fun _ => ignores_ite (ignores_true _) (ignores_ite ?_ (ignores_true _))
    exact ignores_bind _ fun _ => ignores_bind _ fun _ => ignores_true _

/-- A request that is not handled changes nothing. -/
theorem process_ignores {a : Arith} {b b' : Orderbook} {req : EngineRequest} {enginePopTsc : ℕ}
    (h : b.process a req enginePopTsc = some (false, b')) :
    b' = { b with out := { b.out with answered := false } } := by
  unfold Orderbook.process at h
  cases ht : req.type with
  | new => rw [ht] at h; exact enter_ignores a _ _ _ h
  | cancel => rw [ht] at h; exact cancel_ignores a _ _ _ h
  | replace => rw [ht] at h; exact replace_ignores a _ _ _ h

end Orderbook

/-- A NEW that would rest in a full book is rejected, and that is all. -/
theorem process_rejected {n : ℕ} {b : Orderbook} {q : Side → ℕ → List ℕ} {A : Book} (h : Rep n b q A) (hA : A.WF)
    {req : EngineRequest} (ht : req.type = .new) (hid : req.orderId ∉ A.ids)
    (hrests : (Spec.newOrder req).rests = true) (hfull : n ≤ A.orders.length) (a : Arith) (enginePopTsc : ℕ) :
    ∃ ctx e, b.process a req enginePopTsc =
      some (true, { b with out := { b.out with answered := false } }.emit ctx e) := by
  have hid' : req.orderId ∉ b.orders := fun hm => hid (h.mem_orders_iff.mp hm)
  have hroom : b.pool.available = 0 := (h.available_eq_zero hA).mpr hfull
  have hmay : (req.orderType == .limit && req.timeInForce == .day) = true := hrests
  simp only [Orderbook.process, ht, Orderbook.enter, if_neg hid', hmay, hroom, beq_self_eq_true, Bool.and_self, if_true]
  exact ⟨_, _, rfl⟩

/-! ## Books that are reached -/

/-- A request leaves the book untouched and says nothing, or it is answered by its first
event; one that is rejected leaves everything but the events as it was. -/
theorem requests_answered_once (capacity : ℕ) (env : Env) (reqs : List (EngineRequest × ℕ))
    (hp : ∀ r ∈ reqs, Spec.PriceOk r.1) (req : EngineRequest) (hreq : Spec.PriceOk req) (enginePopTsc : ℕ) :
    ∃ returned b handled b', Reaches capacity env reqs returned b ∧
      (∀ a, b.process a req enginePopTsc = some (handled, b')) ∧
      let events := b'.out.outRing.drop b.out.outRing.length
      (handled = false ↔ events = []) ∧
      (handled = false → b' = { b with out := { b.out with answered := false } }) ∧
      (handled = true → ∃ e es, events = e :: es ∧ e.answersRequest = true ∧ e.clientId = req.clientId ∧
        ∀ e' ∈ es, e'.answersRequest = false) ∧
      ((∃ e ∈ events, e.type = .rejected) →
        b' = { b with out := { b.out with outRing := b'.out.outRing, answered := true } }) := by
  obtain ⟨b, q, hres, hrep, hA, -⟩ := handleMatching_new capacity env hp
  obtain ⟨b', q', hres', -, hev, -⟩ := process_ok hrep hA hreq enginePopTsc
  set A := Spec.after capacity {} (reqs.map Prod.fst)
  have hevents : (b'.out.outRing.drop b.out.outRing.length).map (·.toEvent) =
      Spec.flagFirst (Spec.handle capacity A req).events := List.map_drop_left hev
  have hanswer := Spec.handle_answers capacity A req
  refine ⟨_, b, _, b', hres .wrapping, hres', ?_, fun hfalse => ?_, fun htrue => ?_, fun hrej => ?_⟩
  · show (Spec.handle capacity A req).handled = false ↔ _
    rw [← List.map_eq_nil_iff (f := (·.toEvent)), hevents]
    rcases hanswer with ⟨hfalse, hnil⟩ | ⟨htrue, e, es, hcons, -⟩
    · rw [hnil]
      exact iff_of_true hfalse rfl
    · rw [htrue, hcons]
      exact iff_of_false nofun nofun
  · rw [hfalse] at hres'
    exact Orderbook.process_ignores (hres' .wrapping)
  · rcases hanswer with ⟨hfalse, -⟩ | ⟨-, e, es, hcons, hclient⟩
    · cases hfalse.symm.trans htrue
    · -- the first event has the flag, the others are as the reference book has them
      have hflag := Spec.handle_answersRequest capacity A req
      rw [hcons] at hevents hflag
      obtain ⟨e', es', hring, he, hes⟩ := List.map_eq_cons_iff.mp hevents
      refine ⟨e', es', hring, congrArg (·.answersRequest) he, (congrArg (·.clientId) he).trans hclient, fun x hx => ?_⟩
      exact hflag x.toEvent (List.mem_cons_of_mem _ (hes ▸ List.mem_map_of_mem hx))
  · obtain ⟨e, he, ht⟩ := hrej
    obtain ⟨e₀, he₀, ht₀⟩ : ∃ e₀ ∈ (Spec.handle capacity A req).events, e₀.type = .rejected := by
      have hmem : e.toEvent ∈ Spec.flagFirst (Spec.handle capacity A req).events := hevents ▸ List.mem_map_of_mem he
      cases hes : (Spec.handle capacity A req).events with
      | nil =>
        rw [hes] at hmem
        cases hmem
      | cons e₀ es =>
        rw [hes] at hmem
        rcases List.mem_cons.mp hmem with h | h
        · exact ⟨e₀, List.mem_cons_self, (congrArg (·.type) h).symm.trans ht⟩
        · exact ⟨e.toEvent, List.mem_cons_of_mem _ h, ht⟩
    obtain ⟨hnew, hid, hrests, hfull⟩ := Spec.handle_rejected he₀ ht₀
    obtain ⟨ctx, e₁, hproc⟩ := process_rejected hrep hA hnew hid hrests hfull .wrapping enginePopTsc
    obtain ⟨-, rfl⟩ := Prod.mk.inj (Option.some.inj ((hres' .wrapping).symm.trans hproc))
    rfl

/-- A CANCEL by client 8 of the order of client 7. -/
def strayCancel : EngineRequest where
  orderId := 3
  newOrderId := 0
  clientId := 8
  price := 0
  quantity := 1
  type := .cancel
  side := .bid
  orderType := .limit
  timeInForce := .day
  quantity_lt := by decide

theorem requests_answered_once_sample : (∀ r ∈ sampleRequests, Spec.PriceOk r.1) ∧ Spec.PriceOk strayCancel ∧
    ∃ returned b handled b', Reaches 2 sampleEnv sampleRequests returned b ∧
      b.process .wrapping strayCancel 15 = some (handled, b') ∧
      (handled = false ↔ b'.out.outRing.drop b.out.outRing.length = []) := by
  have hp : ∀ r ∈ sampleRequests, Spec.PriceOk r.1 := by decide
  have hreq : Spec.PriceOk strayCancel := by decide
  obtain ⟨returned, b, handled, b', hres, hproc, hiff, -⟩ :=
    requests_answered_once 2 sampleEnv sampleRequests hp strayCancel hreq 15
  exact ⟨hp, hreq, returned, b, handled, b', hres, hproc .wrapping, hiff⟩

/-- The orders that rest before a request, other than the one it names for its owner, have
traded what its events say afterwards, and nothing else happened to them: they are where
they were on their level. -/
theorem others_only_trade (capacity : ℕ) (env : Env) (reqs : List (EngineRequest × ℕ))
    (hp : ∀ r ∈ reqs, Spec.PriceOk r.1) (req : EngineRequest) (hreq : Spec.PriceOk req) (enginePopTsc : ℕ) :
    ∃ returned b handled b', Reaches capacity env reqs returned b ∧
      (∀ a, b.process a req enginePopTsc = some (handled, b')) ∧
      let events := (b'.out.outRing.drop b.out.outRing.length).map (·.toEvent)
      (∀ id o, b.resting id = some o → ¬ Named req o →
        sharesAdded id events ≤ o.openQuantity ∧ b'.resting id = settled events o) ∧
      ∀ s p, InBand p →
        (b'.levelOrders s p).filter (fun o => decide (o.id ∈ b.orders ∧ ¬ Named req o)) =
          ((b.levelOrders s p).filter fun o => decide (¬ Named req o)).filterMap (settled events) := by
  obtain ⟨b, q, hres, hrep, hA, -⟩ := handleMatching_new capacity env hp
  obtain ⟨b', q', hres', hrep', hev, -⟩ := process_ok hrep hA hreq enginePopTsc
  set A := Spec.after capacity {} (reqs.map Prod.fst)
  have hA' := Spec.process_wf capacity hA hreq
  obtain ⟨f, fresh, heff⟩ := Spec.process_effect capacity hA req
  refine ⟨_, b, _, b', hres .wrapping, hres', ?_, fun s p hband => ?_⟩
  · intro id o ho hn
    rw [List.map_drop_left hev]
    rw [Orderbook.resting, hrep.lookup_view hA] at ho
    obtain ⟨hmem, rfl⟩ := Spec.find?_mem ho
    rw [Orderbook.resting, hrep'.lookup_view hA']
    exact ⟨(heff.others o hmem hn).1, heff.find?_eq hA hA' hmem hn⟩
  · rw [List.map_drop_left hev, hrep.levelOrders_eq s hband, hrep'.levelOrders_eq s hband]
    simp only [hrep.mem_orders_iff]
    exact heff.filter_level s p

/-- An ask of client 8 at the price of the order of client 7. -/
def crossingAsk : EngineRequest where
  orderId := 4
  newOrderId := 0
  clientId := 8
  price := 1
  quantity := 2
  type := .new
  side := .ask
  orderType := .limit
  timeInForce := .day
  quantity_lt := by decide

theorem others_only_trade_sample : (∀ r ∈ sampleRequests, Spec.PriceOk r.1) ∧ Spec.PriceOk crossingAsk ∧
    ∃ returned b handled b', Reaches 2 sampleEnv sampleRequests returned b ∧
      b.process .wrapping crossingAsk 15 = some (handled, b') ∧
      ∀ o, b.resting 3 = some o → o.clientId = 7 →
        b'.resting 3 = settled ((b'.out.outRing.drop b.out.outRing.length).map (·.toEvent)) o := by
  have hp : ∀ r ∈ sampleRequests, Spec.PriceOk r.1 := by decide
  have hreq : Spec.PriceOk crossingAsk := by decide
  obtain ⟨returned, b, handled, b', hres, hproc, hothers, -⟩ :=
    others_only_trade 2 sampleEnv sampleRequests hp crossingAsk hreq 15
  refine ⟨hp, hreq, returned, b, handled, b', hres, hproc .wrapping, fun o ho hc => (hothers 3 o ho fun hn => ?_).2⟩
  exact absurd (hc.symm.trans hn.2) (by decide)

end Exchange
