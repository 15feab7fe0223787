import Exchange.Impl.Engine.Engine
import Exchange.Proof.Engine.Process

/-!
# Runs of the matching thread

`handleMatching_ok`: on any requests whose limit prices are in the band, the matching
thread does what the reference book does on them. The properties of every state it
reaches follow: the reference book's (`process_refines_reference`), the
representation's (`reachable_representation`), and that bids stay below asks
(`reachable_uncrossed`).
-/

namespace Exchange

open Spec (Resting Book)

variable {n : ℕ} {b : Orderbook} {q : Side → ℕ → List ℕ} {A : Book}

theorem handleMatching_ok (h : Rep n b q A) (hA : A.WF) {reqs : List (EngineRequest × ℕ)}
    (hp : ∀ r ∈ reqs, Spec.PriceOk r.1) :
    ∃ b' q', (∀ a, Engine.handleMatching a b reqs =
        some ((Spec.steps n A (reqs.map Prod.fst)).map (·.handled), b')) ∧
      Rep n b' q' (Spec.after n A (reqs.map Prod.fst)) ∧
      b'.out.outRing.map (·.toEvent) =
        b.out.outRing.map (·.toEvent) ++ (Spec.steps n A (reqs.map Prod.fst)).flatMap (·.events) ∧
      Output.Published b.out b'.out ((Spec.steps n A (reqs.map Prod.fst)).flatMap (·.itch)) := by
  induction reqs generalizing b q A with
  | nil => exact ⟨b, q, fun _ => rfl, h, by simp [Spec.steps], .nil b.out⟩
  | cons r reqs ih =>
    have hpr := hp r List.mem_cons_self
    obtain ⟨b₁, q₁, hres, hrep, hev, hitch⟩ := process_ok h hA hpr r.2
    obtain ⟨b', q', hres', hrep', hev', hitch'⟩ :=
      ih hrep (Spec.process_wf n hA hpr) fun r' hr' => hp r' (List.mem_cons_of_mem _ hr')
    refine ⟨b', q', fun a => ?_, hrep', ?_, hitch.trans hitch'⟩
    · simp only [Engine.handleMatching, Engine.executeRequest, hres, hres', Option.bind_eq_bind,
        Option.bind_some, List.map_cons, Spec.steps]
    · rw [hev', hev, List.map_cons, Spec.steps, List.flatMap_cons, List.append_assoc]

/-- From a new book. -/
theorem handleMatching_new (capacity : ℕ) (env : Env) {reqs : List (EngineRequest × ℕ)}
    (hp : ∀ r ∈ reqs, Spec.PriceOk r.1) :
    ∃ b q, (∀ a, Engine.handleMatching a (Orderbook.new capacity env) reqs =
        some ((Spec.steps capacity {} (reqs.map Prod.fst)).map (·.handled), b)) ∧
      Rep capacity b q (Spec.after capacity {} (reqs.map Prod.fst)) ∧
      (Spec.after capacity {} (reqs.map Prod.fst)).WF ∧
      b.out.outRing.map (·.toEvent) = (Spec.steps capacity {} (reqs.map Prod.fst)).flatMap (·.events) ∧
      (b.out.marketData.map (·.body)).Sublist ((Spec.steps capacity {} (reqs.map Prod.fst)).flatMap (·.itch)) ∧
      b.out.marketData.length + b.out.marketDataDrops =
        ((Spec.steps capacity {} (reqs.map Prod.fst)).flatMap (·.itch)).length := by
  obtain ⟨b, q, hres, hrep, hev, hitch⟩ := handleMatching_ok (.new capacity env) .new hp
  have hA := Spec.after_wf capacity .new (List.forall_mem_map.mpr hp)
  exact ⟨b, q, hres, hrep, hA, hev, hitch.of_empty rfl rfl⟩

/-- What `process` returned for the requests of a run from a new book, and the book it
reached. -/
def Reaches (capacity : ℕ) (env : Env) (reqs : List (EngineRequest × ℕ)) (returned : List Bool) (b : Orderbook) :
    Prop :=
  Engine.handleMatching .wrapping (Orderbook.new capacity env) reqs = some (returned, b)

/-! ## Refinement -/

/-- The orders of a level, front to back, by following its links. -/
def Orderbook.levelOrders (b : Orderbook) (s : Side) (p : ℕ) : List Resting :=
  (LinkedList.follow (fun x => (b.order x).next) ((b.ladder s).levels p).size
    ((b.ladder s).levels p).head).map fun x => (b.order x).view

theorem Rep.levelOrders_eq (h : Rep n b q A) (s : Side) {p : ℕ} (hp : InBand p) :
    b.levelOrders s p = (A.side s).filter (·.price == p) := by
  rw [Orderbook.levelOrders, h.level]
  exact congrArg _ ((h.shape.side s).level p hp).follow_eq

theorem Rep.lookup_view (h : Rep n b q A) (hA : A.WF) (id : ℕ) :
    (b.orders.lookup id).map (fun x => (b.order x).view) = A.find? id := by
  cases hx : b.orders.lookup id with
  | none => rw [h.find?_eq_none hx]; rfl
  | some x => rw [(h.lookup_eq_some hA hx).1]; rfl

/-- The order book refines the reference book: on any requests with limit prices in the
band it returns what the reference book returns, emits its events, and ends with its
orders, level by level in arrival order and by id. -/
theorem process_refines_reference (capacity : ℕ) (env : Env) (reqs : List (EngineRequest × ℕ))
    (hp : ∀ r ∈ reqs, Spec.PriceOk r.1) :
    let steps := Spec.steps capacity {} (reqs.map Prod.fst)
    let book := Spec.after capacity {} (reqs.map Prod.fst)
    ∃ b, Reaches capacity env reqs (steps.map (·.handled)) b ∧
      b.out.outRing.map (·.toEvent) = steps.flatMap (·.events) ∧
      (∀ s p, InBand p → b.levelOrders s p = (book.side s).filter (·.price == p)) ∧
      (∀ r ∈ book.orders, InBand r.price) ∧
      (∀ id, (b.orders.lookup id).map (fun x => (b.order x).view) = book.find? id) := by
  intro steps book
  obtain ⟨b, q, hres, hrep, hA, hev, -⟩ := handleMatching_new capacity env hp
  exact ⟨b, hres .wrapping, hev, fun s p hb => hrep.levelOrders_eq s hb, hA.inBand, hrep.lookup_view hA⟩

/-- A ring that takes every message, and clocks that count. -/
def sampleEnv : Env := { marketDataRoom := fun _ => true, nsSinceMidnight := id, rdtsc := id }

/-- A bid of client 7 for 10 shares; an ask of client 8 that takes 4 of them; a
replacement of the bid that rests at the edge of the band; and a partial cancel. -/
def sampleRequests : List (EngineRequest × ℕ) :=
  let bid : EngineRequest := {
    orderId := 1, newOrderId := 0, clientId := 7, price := 100, quantity := 10, type := .new, side := .bid,
    orderType := .limit, timeInForce := .day, quantity_lt := by decide }
  let ask : EngineRequest := {
    orderId := 2, newOrderId := 0, clientId := 8, price := 99, quantity := 4, type := .new, side := .ask,
    orderType := .limit, timeInForce := .day, quantity_lt := by decide }
  [(bid, 11), (ask, 12),
    ({ bid with type := .replace, newOrderId := 3, price := 1, quantity := 9, quantity_lt := by decide }, 13),
    ({ bid with type := .cancel, orderId := 3, quantity := 7, quantity_lt := by decide }, 14)]

theorem process_refines_reference_sample :
    (∀ r ∈ sampleRequests, Spec.PriceOk r.1) ∧
      ∃ b, Reaches 2 sampleEnv sampleRequests [true, true, true, true] b ∧
        b.levelOrders .bid 1 = [{
          id := 3, clientId := 7, side := .bid, price := 1, openQuantity := 3, executedQuantity := 4 }] := by
  have hp : ∀ r ∈ sampleRequests, Spec.PriceOk r.1 := by decide
  obtain ⟨b, hres, -, hlevel, -⟩ := process_refines_reference 2 sampleEnv sampleRequests hp
  exact ⟨hp, b, hres, (hlevel .bid 1 (by decide)).trans (by decide)⟩

/-! ## Representation -/

/-- The representation of every state reached: (a) each level is one doubly linked list
of its slots; (b) the slots of the levels are the values of `orders_`, each under its
own id, on the level of its side and price, and open; (c) the other slots are the free
list; (d) and (e) the counts of non-empty levels and the best prices are right. -/
theorem reachable_representation (capacity : ℕ) (env : Env) (reqs : List (EngineRequest × ℕ))
    (hp : ∀ r ∈ reqs, Spec.PriceOk r.1) :
    ∃ returned b, ∃ q : Side → ℕ → List ℕ, Reaches capacity env reqs returned b ∧
      (∀ s p, InBand p → LevelRep b.pool.arena ((b.ladder s).levels p) (q s p)) ∧
      (∀ s p, ¬ InBand p → q s p = []) ∧
      (∀ s p s' p', ∀ x ∈ q s p, x ∈ q s' p' → s = s' ∧ p = p') ∧
      (∀ x, (∃ s p, x ∈ q s p) ↔ ∃ id, b.orders.lookup id = some x) ∧
      (∀ id x, b.orders.lookup id = some x → (b.order x).id = id) ∧
      (∀ s p, ∀ x ∈ q s p, b.orders.lookup (b.order x).id = some x ∧ (b.order x).side = s ∧
        (b.order x).price = p ∧ 0 < (b.order x).openQuantity ∧ x < b.pool.capacity) ∧
      b.pool.freeList.Nodup ∧ (∀ x ∈ b.pool.freeList, x < b.pool.capacity ∧ ∀ id, b.orders.lookup id ≠ some x) ∧
      b.pool.available + b.orders.size = b.pool.capacity ∧ b.pool.capacity = capacity ∧
      (∀ s, (b.ladder s).nonEmpty = ({p ∈ Finset.Icc minPrice maxPrice | q s p ≠ []} : Finset ℕ).card) ∧
      (∀ s, IsBest s (q s) (b.ladder s).best) := by
  obtain ⟨b, q, hres, hrep, hA, -⟩ := handleMatching_new capacity env hp
  have hs := hrep.shape
  have hcap := hs.capacity
  have hslot : ∀ {id x}, b.orders.lookup id = some x → ∃ s p, x ∈ q s p :=
    fun hx => ⟨_, _, (hs.resting _ _ hx).2⟩
  refine ⟨_, b, q, hres .wrapping, fun s p hb => (hs.side s).level p hb, fun s p hb => (hs.side s).outside p hb,
    fun s p s' p' x hx hx' => ?_, fun x => ⟨?_, ?_⟩, fun id x hx => (hs.resting id x hx).1,
    fun s p x hx => ?_, hs.free_nodup, fun x hx => ⟨?_, ?_⟩,
    ?_, hcap, fun s => (hs.side s).nonEmpty, fun s => (hs.side s).best⟩
  · exact hs.unique hx' hx
  · rintro ⟨s, p, hx⟩
    exact ⟨_, hs.keyed s p x hx⟩
  · rintro ⟨id, hx⟩
    exact hslot hx
  · obtain ⟨h₁, h₂⟩ := hs.place hx
    have hopen := hA.open_pos _ (Spec.Book.mem_orders.mpr ⟨s, hrep.view_mem hx⟩)
    exact ⟨hs.keyed s p x hx, h₁, h₂, hopen, hcap ▸ hs.slot_lt s p x hx⟩
  · exact hcap ▸ hs.free_lt x hx
  · intro id hid
    obtain ⟨s, p, hx'⟩ := hslot hid
    exact hs.free_disjoint s p x hx' hx
  · rw [hcap]; exact hs.free_size

theorem reachable_representation_sample : (∀ r ∈ sampleRequests, Spec.PriceOk r.1) ∧
    ∃ returned b, Reaches 2 sampleEnv sampleRequests returned b ∧
      b.pool.available + b.orders.size = b.pool.capacity ∧ b.pool.capacity = 2 := by
  have hp : ∀ r ∈ sampleRequests, Spec.PriceOk r.1 := by decide
  obtain ⟨returned, b, q, hres, -, -, -, -, -, -, -, -, h, h', -⟩ :=
    reachable_representation 2 sampleEnv sampleRequests hp
  exact ⟨hp, returned, b, hres, h, h'⟩

/-! ## Bids below asks -/

/-- In every state reached every resting bid's price is below every resting ask's. -/
theorem reachable_uncrossed (capacity : ℕ) (env : Env) (reqs : List (EngineRequest × ℕ))
    (hp : ∀ r ∈ reqs, Spec.PriceOk r.1) :
    ∃ returned b, Reaches capacity env reqs returned b ∧
      ∀ id id' x y, b.orders.lookup id = some x → b.orders.lookup id' = some y →
        (b.order x).side = .bid → (b.order y).side = .ask → (b.order x).price < (b.order y).price := by
  obtain ⟨b, q, hres, hrep, hA, -⟩ := handleMatching_new capacity env hp
  refine ⟨_, b, hres .wrapping, fun id id' x y hx hy hsx hsy => ?_⟩
  have hx' := hrep.view_mem (hrep.shape.resting id x hx).2
  have hy' := hrep.view_mem (hrep.shape.resting id' y hy).2
  rw [hsx] at hx'
  rw [hsy] at hy'
  exact hA.uncrossed _ hx' _ hy'

theorem reachable_uncrossed_sample : (∀ r ∈ sampleRequests, Spec.PriceOk r.1) ∧
    ∃ returned b, Reaches 2 sampleEnv sampleRequests returned b ∧
      ∀ id id' x y, b.orders.lookup id = some x → b.orders.lookup id' = some y →
        (b.order x).side = .bid → (b.order y).side = .ask → (b.order x).price < (b.order y).price := by
  have hp : ∀ r ∈ sampleRequests, Spec.PriceOk r.1 := by decide
  exact ⟨hp, reachable_uncrossed 2 sampleEnv sampleRequests hp⟩

end Exchange
