import Exchange.Proof.Book.Mirror
import Exchange.Proof.Engine.Effect

/-!
# The ladders as queues

Read level by level from the best price, a side of the order book is the queue of `Spec.Queue`
(`Rep.queue_eq`). So the order book is a pair of queues in every run (`ladders_are_queues`), a
new order gets the shares that are there for it (`new_order_takes_available`), and the code's two
branches, for bids and for asks, do the same (`sides_mirror`).
-/

namespace Exchange

open Spec (Resting Book Sorts Queued taken newOrder mirrorRequest mirrorEvent mirrorItch)
open Spec.Queue (available sharesTaken)

/-- The prices of a side, the best first. -/
def Side.prices : Side → List ℕ
  | .bid => (List.range' minPrice (maxPrice + 1 - minPrice)).reverse
  | .ask => List.range' minPrice (maxPrice + 1 - minPrice)

/-- The orders of a side, level by level from the best price. -/
def Orderbook.queue (b : Orderbook) (s : Side) : List Resting := s.prices.flatMap (b.levelOrders s)

theorem mem_prices {s : Side} {p : ℕ} : p ∈ s.prices ↔ InBand p := by
  have h : p ∈ List.range' minPrice (maxPrice + 1 - minPrice) ↔ InBand p := by
    rw [List.mem_range'_1, InBand]
    have : minPrice ≤ maxPrice := by decide
    omega
  cases s with
  | bid => exact List.mem_reverse.trans h
  | ask => exact h

theorem sorted_prices (s : Side) : s.prices.Pairwise fun p p' => s.better p p' = true := by
  have h : (List.range' minPrice (maxPrice + 1 - minPrice)).Pairwise (· < ·) := List.pairwise_lt_range'
  cases s with
  | bid => exact List.pairwise_reverse.mpr (h.imp fun hlt => by simpa [Side.better] using hlt)
  | ask => exact h.imp fun hlt => by simpa [Side.better] using hlt

variable {n : ℕ} {b : Orderbook} {q : Side → ℕ → List ℕ} {A : Book}

theorem Rep.queue_eq (h : Rep n b q A) (hA : A.WF) {s : Side} {Q : List Resting} (hQ : Sorts s (A.side s) Q) :
    b.queue s = Q := by
  have hlevel : ∀ p ∈ s.prices, b.levelOrders s p = Q.filter (·.price == p) := fun p hp => by
    rw [h.levelOrders_eq s (mem_prices.mp hp), hQ.level]
  rw [Orderbook.queue, List.flatMap_congr hlevel]
  refine List.flatMap_filter_of_sorted (fun p => by simp [Spec.better_irrefl]) (sorted_prices s)
    (hQ.sorted.imp fun e => by simp [e]) fun r hr => mem_prices.mpr ?_
  exact hA.inBand r (Book.mem_orders.mpr ⟨s, hQ.perm.mem_iff.mp hr⟩)

/-- The order book is two queues. On any requests with limit prices in the band, it returns and
emits what the book of queues does, and its levels, from the best price to the worst, are the
queues. The market data ring has the messages of the book of queues, in their order, without as
many as were dropped. -/
theorem ladders_are_queues (capacity : ℕ) (env : Env) (reqs : List (EngineRequest × ℕ))
    (hp : ∀ r ∈ reqs, Spec.PriceOk r.1) :
    let steps := Spec.Queue.steps capacity {} (reqs.map Prod.fst)
    ∃ b, Reaches capacity env reqs (steps.map (·.handled)) b ∧
      b.out.outRing.map (·.toEvent) = steps.flatMap (·.events) ∧
      (b.out.marketData.map (·.body)).Sublist (steps.flatMap (·.itch)) ∧
      b.out.marketData.length + b.out.marketDataDrops = (steps.flatMap (·.itch)).length ∧
      ∀ s, b.queue s = (Spec.Queue.after capacity {} (reqs.map Prod.fst)).side s := by
  intro steps
  obtain ⟨b, q, hres, hrep, hA, hev, hitch⟩ := handleMatching_new capacity env hp
  obtain ⟨hhandled, hevents, hmessages, hafter⟩ := Queued.new.steps .new capacity (List.forall_mem_map.mpr hp)
  rw [hmessages] at hitch
  refine ⟨b, ?_, hev.trans hevents, hitch.1, hitch.2, fun s => hrep.queue_eq hA (hafter.side s)⟩
  rw [← hhandled]
  exact hres .wrapping

theorem ladders_are_queues_sample : (∀ r ∈ sampleRequests, Spec.PriceOk r.1) ∧
    ∃ b, Reaches 2 sampleEnv sampleRequests [true, true, true, true] b ∧
      b.queue .bid =
        [{ id := 3, clientId := 7, side := .bid, price := 1, openQuantity := 3, executedQuantity := 4 }] := by
  have hp : ∀ r ∈ sampleRequests, Spec.PriceOk r.1 := by decide
  obtain ⟨b, hres, -, -, -, hqueue⟩ := ladders_are_queues 2 sampleEnv sampleRequests hp
  exact ⟨hp, b, hres, (hqueue .bid).trans (by decide)⟩

/-! ## What a new order gets -/

theorem Spec.enter_accepted {capacity : ℕ} {A : Book} {req : EngineRequest} (hnew : req.type = .new)
    (h : ∃ e ∈ (Spec.process capacity A req).events, e.type = .accepted) :
    req.orderId ∉ A.ids ∧ (Spec.process capacity A req).book = (newOrder req).book A ∧
      ∃ e, e.type = .accepted ∧ (Spec.process capacity A req).events = e :: (newOrder req).events A := by
  obtain ⟨e, he, ht⟩ := h
  simp only [Spec.process, Spec.handle, hnew, Spec.enter] at he ⊢
  split_ifs at he ⊢ with hid hfull
  · cases he
  · rw [List.mem_singleton.mp he] at ht
    cases ht
  · exact ⟨hid, rfl, _, rfl, rfl⟩

/-- A new order gets the shares that rest on the other side at prices it allows, up to its
quantity, and they are gone from there. What it did not get rests or is canceled. -/
theorem new_order_takes_available (capacity : ℕ) (env : Env) (reqs : List (EngineRequest × ℕ))
    (hp : ∀ r ∈ reqs, Spec.PriceOk r.1) (req : EngineRequest) (hreq : Spec.PriceOk req) (enginePopTsc : ℕ) :
    ∃ returned b handled b', Reaches capacity env reqs returned b ∧
      (∀ a, b.process a req enginePopTsc = some (handled, b')) ∧
      let events := (b'.out.outRing.drop b.out.outRing.length).map (·.toEvent)
      let i := newOrder req
      let before := available i.side i.limit (b.queue i.side.opposite)
      let shares := min req.quantity before
      req.type = .new → (∃ e ∈ events, e.type = .accepted) →
        sharesTaken events = shares ∧ available i.side i.limit (b'.queue i.side.opposite) = before - shares ∧
        (shares < req.quantity →
          if i.rests then ∃ o, b'.resting req.orderId = some o ∧ o.openQuantity = req.quantity - shares
          else ∃ e ∈ events, e.type = .canceled ∧ e.orderId = req.orderId ∧ e.quantity = req.quantity - shares) := by
  obtain ⟨b, q, hres, hrep, hA, -⟩ := handleMatching_new capacity env hp
  obtain ⟨b', q', hres', hrep', hev, -⟩ := process_ok hrep hA hreq enginePopTsc
  have hafter := (Queued.new.steps .new capacity (List.forall_mem_map.mpr hp)).2.2.2
  set A := Spec.after capacity {} (reqs.map Prod.fst)
  set Q := Spec.Queue.after capacity {} (reqs.map Prod.fst)
  have hA' := Spec.process_wf capacity hA hreq
  refine ⟨_, b, _, b', hres .wrapping, hres', ?_⟩
  intro events i before shares hnew hacc
  have hevents : events = (Spec.process capacity A req).events := List.map_drop_left hev
  rw [hevents] at hacc ⊢
  obtain ⟨hid, hbook, e, he, hes⟩ := Spec.enter_accepted hnew hacc
  have hqueue : b.queue i.side.opposite = Q.side i.side.opposite := hrep.queue_eq hA (hafter.side _)
  have hqueue' : b'.queue i.side.opposite = (Spec.Queue.trades i Q).2 := by
    rw [← Spec.side_arrive]
    refine hrep'.queue_eq hA' ?_
    rw [hbook]
    exact (hafter.arrive hA i).side _
  have hfilled : Spec.filled (i.trades A).1 = shares := by
    rw [hafter.filled_eq hA, ← hqueue]
    rfl
  have hremaining : i.remaining A = req.quantity - shares := by rw [Spec.Incoming.remaining, hfilled]; rfl
  refine ⟨?_, ?_, fun hlt => ?_⟩
  · rw [hes, ← List.singleton_append, Spec.sharesTaken_append, Spec.sharesTaken_events, hfilled]
    simp [sharesTaken, taken, he]
  · have hgone := Spec.available_sweep i.side i.limit i.quantity (Q.side i.side.opposite)
    have hfs : Spec.filled (Spec.Queue.trades i Q).1 = shares := by rw [← (hafter.trades_eq hA i).1, hfilled]
    change Spec.filled (Spec.Queue.trades i Q).1 + available i.side i.limit (Spec.Queue.trades i Q).2 = _ at hgone
    rw [hfs, ← hqueue, ← hqueue'] at hgone
    exact Nat.eq_sub_of_add_eq' hgone
  · have hrem : i.remaining A ≠ 0 := by omega
    split_ifs with hrests
    · have hrest : i.comesToRest A = true := by simp [Spec.Incoming.comesToRest, hrests, hrem]
      have hmem : i.resting A ∈ (Spec.process capacity A req).book.orders := by
        rw [hbook, Spec.Incoming.book, if_pos hrest]
        refine Book.mem_orders.mpr ⟨i.side, ?_⟩
        rw [Book.side_setSide_self]
        exact List.mem_append_right _ List.mem_cons_self
      refine ⟨i.resting A, ?_, hremaining⟩
      rw [Orderbook.resting, hrep'.lookup_view hA']
      exact hA'.find?_eq_some hmem
    · refine ⟨{
          orderId := i.id, clientId := i.clientId, price := i.price, quantity := i.remaining A
          type := .canceled, reason := .immediateOrCancel }, ?_, rfl, rfl, hremaining⟩
      rw [hes, Spec.Incoming.events, if_pos ⟨hrem, hrests⟩]
      exact List.mem_cons_of_mem _ (List.mem_append_right _ (List.mem_singleton_self _))

theorem new_order_takes_available_sample : (∀ r ∈ sampleRequests, Spec.PriceOk r.1) ∧ Spec.PriceOk crossingAsk ∧
    ∃ returned b handled b', Reaches 2 sampleEnv sampleRequests returned b ∧
      b.process .wrapping crossingAsk 15 = some (handled, b') ∧
      ((∃ e ∈ (b'.out.outRing.drop b.out.outRing.length).map (·.toEvent), e.type = .accepted) →
        sharesTaken ((b'.out.outRing.drop b.out.outRing.length).map (·.toEvent)) =
          min 2 (available .ask (some 1) (b.queue .bid))) := by
  have hp : ∀ r ∈ sampleRequests, Spec.PriceOk r.1 := by decide
  have hreq : Spec.PriceOk crossingAsk := by decide
  obtain ⟨returned, b, handled, b', hres, hproc, hnew⟩ :=
    new_order_takes_available 2 sampleEnv sampleRequests hp crossingAsk hreq 15
  exact ⟨hp, hreq, returned, b, handled, b', hres, hproc .wrapping, fun hacc => (hnew rfl hacc).1⟩

/-! ## Bids and asks -/

/-- Bids and asks are treated alike. The requests of a run with the sides exchanged and the prices
reflected in the band are answered alike, with the same events at the reflected prices, and leave
the reflected queues. The messages they publish are reflected too: each ring has those of its run,
in their order, without as many as were dropped there. -/
theorem sides_mirror (capacity : ℕ) (env env' : Env) (reqs : List (EngineRequest × ℕ))
    (hp : ∀ r ∈ reqs, Spec.PriceOk r.1) :
    let messages := (Spec.Queue.steps capacity {} (reqs.map Prod.fst)).flatMap (·.itch)
    ∃ returned b b', Reaches capacity env reqs returned b ∧
      Reaches capacity env' (reqs.map fun r => (mirrorRequest r.1, r.2)) returned b' ∧
      b'.out.outRing.map (·.toEvent) = (b.out.outRing.map (·.toEvent)).map mirrorEvent ∧
      ((b.out.marketData.map (·.body)).Sublist messages ∧
        b.out.marketData.length + b.out.marketDataDrops = messages.length) ∧
      ((b'.out.marketData.map (·.body)).Sublist (messages.map mirrorItch) ∧
        b'.out.marketData.length + b'.out.marketDataDrops = messages.length) ∧
      ∀ s, b'.queue s.opposite = (b.queue s).map Resting.mirror := by
  intro messages
  have hp' : ∀ r ∈ reqs.map fun r => (mirrorRequest r.1, r.2), Spec.PriceOk r.1 :=
    List.forall_mem_map.mpr fun r hr => Spec.priceOk_mirror (hp r hr)
  obtain ⟨b, q, hres, hrep, hA, hev, hitch⟩ := handleMatching_new capacity env hp
  obtain ⟨b', q', hres', hrep', hA', hev', hitch'⟩ := handleMatching_new capacity env' hp'
  obtain ⟨hhandled, hevents, hmessages, hafter⟩ := Queued.new.steps .new capacity (List.forall_mem_map.mpr hp)
  obtain ⟨hhandled', hevents', hmessages', hafter'⟩ := Queued.new.steps .new capacity (List.forall_mem_map.mpr hp')
  obtain ⟨hsteps, hbook⟩ := Queued.new.steps_mirror .new capacity (List.forall_mem_map.mpr hp)
  have hmap : (reqs.map fun r => (mirrorRequest r.1, r.2)).map Prod.fst = (reqs.map Prod.fst).map mirrorRequest := by
    rw [List.map_map, List.map_map]
    rfl
  have hempty : (({} : Book)).mirror = {} := rfl
  rw [hempty] at hsteps hbook
  rw [hmap, hsteps] at hhandled' hevents' hmessages'
  rw [hmap] at hafter' hev' hitch'
  have hmirrored : ((Spec.Queue.steps capacity {} (reqs.map Prod.fst)).map Spec.Step.mirror).flatMap (·.itch) =
      messages.map mirrorItch := by
    rw [List.flatMap_map, List.map_flatMap]
    rfl
  rw [hmessages] at hitch
  rw [hmessages', hmirrored, List.length_map] at hitch'
  refine ⟨_, b, b', hres .wrapping, ?_, ?_, hitch, hitch', fun s => ?_⟩
  · rw [hhandled, Reaches, hres', hmap, hhandled', List.map_map]
    rfl
  · rw [hev', hev, hevents', hevents, List.flatMap_map, List.map_flatMap]
    rfl
  · rw [hrep.queue_eq hA (hafter.side s), ← Book.side_mirror, ← hbook]
    rw [hmap] at hrep' hA'
    exact hrep'.queue_eq hA' (hafter'.side s.opposite)

theorem sides_mirror_sample : (∀ r ∈ sampleRequests, Spec.PriceOk r.1) ∧
    ∃ returned b b', Reaches 2 sampleEnv sampleRequests returned b ∧
      Reaches 2 sampleEnv (sampleRequests.map fun r => (mirrorRequest r.1, r.2)) returned b' ∧
      b'.queue .ask = (b.queue .bid).map Resting.mirror := by
  have hp : ∀ r ∈ sampleRequests, Spec.PriceOk r.1 := by decide
  obtain ⟨returned, b, b', hres, hres', -, -, -, hqueue⟩ := sides_mirror 2 sampleEnv sampleEnv sampleRequests hp
  exact ⟨hp, returned, b, b', hres, hres', hqueue .bid⟩

end Exchange
