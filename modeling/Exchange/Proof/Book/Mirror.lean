import Exchange.Proof.Book.Queue

/-!
# Bids and asks are treated alike

Mirrored requests (the other side, the price reflected in the band) do the mirrored thing to the
mirrored book. The comparisons of prices are mirrored first, then sweeping and joining a queue,
then each kind of request (`process_mirror`), then runs (`steps_mirror`).
-/

namespace Exchange.Spec

open Queue (sweep enqueue)

theorem inBand_mirror {p : ℕ} (h : InBand p) : InBand (mirrorPrice p) := by
  obtain ⟨h₁, h₂⟩ := h
  unfold InBand mirrorPrice
  omega

theorem priceOk_mirror {req : EngineRequest} (h : PriceOk req) : PriceOk (mirrorRequest req) :=
  fun hlimit => inBand_mirror (h hlimit)

theorem better_mirror (s : Side) {p p' : ℕ} (h : InBand p) (h' : InBand p') :
    s.opposite.better (mirrorPrice p) (mirrorPrice p') = s.better p p' := by
  obtain ⟨h₁, h₂⟩ := h
  obtain ⟨h₁', h₂'⟩ := h'
  cases s <;> simp only [Side.opposite, Side.better, mirrorPrice, decide_eq_decide] <;> omega

theorem allows_mirror {side : Side} {limit : Option ℕ} {p : ℕ} (hlimit : ∀ l ∈ limit, InBand l) (h : InBand p) :
    allows side.opposite (limit.map mirrorPrice) (mirrorPrice p) = allows side limit p := by
  cases limit with
  | none => rfl
  | some l =>
    obtain ⟨h₁, h₂⟩ := h
    obtain ⟨h₁', h₂'⟩ := hlimit l rfl
    cases side <;>
      simp only [allows, Option.map_some, Side.opposite, Side.reaches, mirrorPrice, decide_eq_decide] <;> omega

/-! ## Queues -/

/-- The trades of a mirrored queue. -/
def mirrorTrades (fs : List (Resting × ℕ)) : List (Resting × ℕ) := fs.map fun f => (f.1.mirror, f.2)

theorem filled_mirror (fs : List (Resting × ℕ)) : filled (mirrorTrades fs) = filled fs := by
  simp [filled, mirrorTrades, Function.comp_def]

theorem sweep_mirror {side : Side} {limit : Option ℕ} (hlimit : ∀ l ∈ limit, InBand l) {q : List Resting}
    (hq : ∀ r ∈ q, InBand r.price) (quantity : ℕ) :
    sweep side.opposite (limit.map mirrorPrice) quantity (q.map Resting.mirror) =
      (mirrorTrades (sweep side limit quantity q).1, (sweep side limit quantity q).2.map Resting.mirror) := by
  induction q generalizing quantity with
  | nil => rfl
  | cons r q ih =>
    have ha : allows side.opposite (limit.map mirrorPrice) r.mirror.price = allows side limit r.price :=
      allows_mirror hlimit (hq r List.mem_cons_self)
    have ho : r.mirror.openQuantity = r.openQuantity := rfl
    rw [List.map_cons, sweep, sweep, ha, ho, ih fun r' hr' => hq r' (List.mem_cons_of_mem _ hr')]
    split_ifs <;> rfl

theorem enqueue_mirror {s : Side} {r : Resting} (hr : InBand r.price) {q : List Resting}
    (hq : ∀ r ∈ q, InBand r.price) :
    enqueue s.opposite r.mirror (q.map Resting.mirror) = (enqueue s r q).map Resting.mirror := by
  induction q with
  | nil => rfl
  | cons r' q ih =>
    have hb : s.opposite.better r.mirror.price r'.mirror.price = s.better r.price r'.price :=
      better_mirror s hr (hq r' List.mem_cons_self)
    rw [List.map_cons, enqueue_cons, enqueue_cons, hb, ih fun r hr => hq r (List.mem_cons_of_mem _ hr)]
    split_ifs <;> rfl

theorem tradeEvents_mirror (id clientId k : ℕ) (fs : List (Resting × ℕ)) :
    tradeEvents id clientId k (mirrorTrades fs) = (tradeEvents id clientId k fs).map mirrorEvent := by
  induction fs generalizing k with
  | nil => rfl
  | cons f fs ih =>
    have hi := ih (k + 1)
    simp only [mirrorTrades] at hi ⊢
    simp only [List.map_cons, tradeEvents, hi]
    rfl

theorem tradeItch_mirror (k : ℕ) (fs : List (Resting × ℕ)) :
    tradeItch k (mirrorTrades fs) = (tradeItch k fs).map mirrorItch := by
  induction fs generalizing k with
  | nil => rfl
  | cons f fs ih =>
    have hi := ih (k + 1)
    simp only [mirrorTrades] at hi ⊢
    simp only [List.map_cons, tradeItch, hi]
    rfl

theorem toItchPrice_mirror {p : ℕ} (h : InBand p) :
    toItchPrice (mirrorPrice (toItchPrice p / ouchTicksPerCent)) = toItchPrice (mirrorPrice p) := by
  rw [toItchPrice_eq h, ouchTicksPerCent, Nat.mul_div_cancel _ (by decide)]

theorem toOuchSide_mirror (s : Side) :
    (if toOuchSide s = toOuchSide .bid then toOuchSide .ask else toOuchSide .bid) = toOuchSide s.opposite := by
  cases s <;> decide

/-! ## Books -/

namespace Book

variable {b : Book}

theorem side_mirror (b : Book) (s : Side) : b.mirror.side s.opposite = (b.side s).map Resting.mirror := by
  cases s <;> rfl

theorem setSide_mirror (b : Book) (l : List Resting) (s : Side) :
    b.mirror.setSide (l.map Resting.mirror) s.opposite = (b.setSide l s).mirror := by
  cases s <;> rfl

theorem orders_mirror (b : Book) : b.mirror.orders.Perm (b.orders.map Resting.mirror) := by
  rw [orders, orders, List.map_append]
  exact List.perm_append_comm

theorem ids_mirror (b : Book) : b.mirror.ids.Perm b.ids := by
  refine (b.orders_mirror.map (·.id)).trans ?_
  rw [List.map_map]
  exact .refl _

theorem find?_mirror (h : b.ids.Nodup) (id : ℕ) : b.mirror.find? id = (b.find? id).map Resting.mirror := by
  have hid : ((b.orders.map Resting.mirror).map (·.id)).Nodup := by rwa [List.map_map]
  rw [find?, find?, find?_perm b.orders_mirror hid, List.find?_map]
  rfl

theorem remove_mirror (b : Book) (id : ℕ) : b.mirror.remove id = (b.remove id).mirror := by
  simp only [remove, mirror, List.filter_map]
  rfl

theorem reduce_mirror (b : Book) (id n : ℕ) : b.mirror.reduce id n = (b.reduce id n).mirror := by
  have h : ∀ l : List Resting,
      (l.map Resting.mirror).map (fun r => if r.id = id then { r with openQuantity := n } else r) =
      (l.map fun r => if r.id = id then { r with openQuantity := n } else r).map Resting.mirror := fun l => by
    rw [List.map_map, List.map_map]
    refine List.map_congr_left fun r _ => ?_
    show (if r.id = id then _ else _) = Resting.mirror (if r.id = id then _ else _)
    split_ifs <;> rfl
  simp only [reduce, mirror, h]

end Book

/-! ## Requests -/

def Incoming.mirror (i : Incoming) : Incoming :=
  { i with side := i.side.opposite, limit := i.limit.map mirrorPrice, price := mirrorPrice i.price }

@[simp] theorem Incoming.mirror_rests (i : Incoming) : i.mirror.rests = i.rests := rfl
@[simp] theorem Incoming.mirror_quantity (i : Incoming) : i.mirror.quantity = i.quantity := rfl

def Step.mirror (s : Step) : Step where
  handled := s.handled
  book := s.book.mirror
  events := s.events.map mirrorEvent
  itch := s.itch.map mirrorItch

theorem newOrder_mirror (req : EngineRequest) : newOrder (mirrorRequest req) = (newOrder req).mirror := by
  unfold newOrder Incoming.mirror mirrorRequest
  dsimp only
  split_ifs <;> rfl

/-- What the mirror needs of a book. -/
structure Mirrors (b : Book) : Prop where
  nodup : b.ids.Nodup
  inBand : ∀ r ∈ b.orders, InBand r.price

theorem Queued.mirrors {A Q : Book} (h : Queued A Q) (hA : A.WF) : Mirrors Q where
  nodup := (h.orders_perm.map Resting.id).nodup_iff.mpr hA.nodup
  inBand r hr := hA.inBand r (h.orders_perm.mem_iff.mp hr)

/-- What it needs of an incoming order. -/
structure Incoming.Mirrors (i : Incoming) : Prop where
  limit : ∀ l ∈ i.limit, InBand l
  price : i.rests = true → InBand i.price

theorem newOrder_mirrors {req : EngineRequest} (hnew : req.type = .new) (hp : PriceOk req) :
    (newOrder req).Mirrors where
  limit l hl := by
    simp only [newOrder] at hl
    split_ifs at hl with ht
    · obtain rfl := Option.mem_some_iff.mp hl
      exact hp (.inl ⟨hnew, ht⟩)
    · cases hl
  price hr := by
    simp only [newOrder, Bool.and_eq_true, beq_iff_eq] at hr
    exact hp (.inl ⟨hnew, hr.1⟩)

theorem replacement_mirrors {req : EngineRequest} (hreplace : req.type = .replace) (hp : PriceOk req) (o : Resting) :
    (replacement req o).Mirrors where
  limit l hl := by
    obtain rfl := Option.mem_some_iff.mp hl
    exact hp (.inr hreplace)
  price _ := hp (.inr hreplace)

namespace Mirrors

variable {b : Book} {i : Incoming}

theorem side (h : Mirrors b) (s : Side) : ∀ r ∈ b.side s, InBand r.price := fun r hr =>
  h.inBand r (Book.mem_orders.mpr ⟨s, hr⟩)

theorem remove (h : Mirrors b) (id : ℕ) : Mirrors (b.remove id) where
  nodup := by
    rw [Book.ids, Book.orders_remove]
    exact h.nodup.sublist (List.filter_sublist.map _)
  inBand r hr := h.inBand r (Book.mem_orders_remove.mp hr).1

theorem trades (h : Mirrors b) (hi : i.Mirrors) :
    Queue.trades i.mirror b.mirror = (mirrorTrades (Queue.trades i b).1, (Queue.trades i b).2.map Resting.mirror) := by
  rw [Queue.trades, Queue.trades, ← sweep_mirror hi.limit (h.side _), ← Book.side_mirror]
  rfl

theorem remaining (h : Mirrors b) (hi : i.Mirrors) : Queue.remaining i.mirror b.mirror = Queue.remaining i b := by
  rw [Queue.remaining, h.trades hi, filled_mirror]
  rfl

theorem traded (h : Mirrors b) (hi : i.Mirrors) : Queue.traded i.mirror b.mirror = (Queue.traded i b).mirror := by
  have hlen : (mirrorTrades (Queue.trades i b).1).length = (Queue.trades i b).1.length := List.length_map _
  have hside := b.setSide_mirror (Queue.trades i b).2 i.side.opposite
  unfold Queue.traded
  rw [h.trades hi, hlen]
  exact congrArg (fun x : Book => x.numbered (b.nextMatchNumber + (Queue.trades i b).1.length)) hside

/-- The book an incoming order leaves. -/
theorem arrive (h : Mirrors b) (hi : i.Mirrors) : Queue.arrive i.mirror b.mirror = (Queue.arrive i b).mirror := by
  have hrest : Queue.resting i.mirror b.mirror = (Queue.resting i b).mirror := by
    unfold Queue.resting
    rw [h.remaining hi, h.trades hi, filled_mirror]
    rfl
  unfold Queue.arrive
  rw [h.remaining hi, h.traded hi, hrest, i.mirror_rests]
  split_ifs with hr
  · have hprice : InBand (Queue.resting i b).price := hi.price (Bool.and_eq_true_iff.mp hr).1
    rw [← Book.setSide_mirror, ← enqueue_mirror hprice (h.side _), ← Book.side_mirror]
    rfl
  · rfl

theorem events (h : Mirrors b) (hi : i.Mirrors) :
    Queue.events i.mirror b.mirror = (Queue.events i b).map mirrorEvent := by
  unfold Queue.events
  rw [h.remaining hi, h.trades hi, tradeEvents_mirror, List.map_append, i.mirror_rests]
  split_ifs <;> rfl

theorem itch (h : Mirrors b) (hi : i.Mirrors) :
    Queue.itch i.mirror b.mirror = (Queue.itch i b).map mirrorItch := by
  unfold Queue.itch
  rw [h.remaining hi, h.trades hi, tradeItch_mirror, List.map_append, i.mirror_rests]
  split_ifs with hr
  · have hprice := hi.price (Bool.and_eq_true_iff.mp hr).1
    rw [List.map_singleton, mirrorItch, toItchPrice_mirror hprice, toOuchSide_mirror]
    rfl
  · rfl

end Mirrors

/-! ## Runs -/

variable {b : Book} {req : EngineRequest}

theorem enter_mirror (capacity : ℕ) (h : Mirrors b) (hnew : req.type = .new) (hp : PriceOk req) :
    Queue.enter capacity b.mirror (mirrorRequest req) = (Queue.enter capacity b req).mirror := by
  have hi := newOrder_mirrors hnew hp
  have hmem : (mirrorRequest req).orderId ∈ b.mirror.ids ↔ req.orderId ∈ b.ids := b.ids_mirror.mem_iff
  have hlen : b.mirror.orders.length = b.orders.length := by
    rw [b.orders_mirror.length_eq, List.length_map]
  simp only [Queue.enter, newOrder_mirror, hmem, hlen, h.arrive hi, h.events hi, h.itch hi, Incoming.mirror_rests]
  split_ifs <;> rfl

theorem cancelAll_mirror (b : Book) (o : Resting) : cancelAll b.mirror o.mirror = (cancelAll b o).mirror := by
  have hremove : b.mirror.remove o.mirror.id = (b.remove o.id).mirror := b.remove_mirror o.id
  unfold cancelAll
  rw [hremove]
  rfl

theorem cancel_mirror (h : Mirrors b) (req : EngineRequest) :
    cancel b.mirror (mirrorRequest req) = (cancel b req).mirror := by
  have hfind : b.mirror.find? (mirrorRequest req).orderId = (b.find? req.orderId).map Resting.mirror :=
    Book.find?_mirror h.nodup req.orderId
  simp only [cancel, hfind]
  cases b.find? req.orderId with
  | none => rfl
  | some o =>
    have hreduce : ∀ n, b.mirror.reduce o.mirror.id n = (b.reduce o.id n).mirror := b.reduce_mirror o.id
    simp only [Option.map_some, cancelAll_mirror, hreduce, apply_ite Step.mirror]
    rfl

theorem replace_mirror (h : Mirrors b) (hreplace : req.type = .replace) (hp : PriceOk req) :
    Queue.replace b.mirror (mirrorRequest req) = (Queue.replace b req).mirror := by
  have hfind : b.mirror.find? (mirrorRequest req).orderId = (b.find? req.orderId).map Resting.mirror :=
    Book.find?_mirror h.nodup req.orderId
  simp only [Queue.replace, hfind, b.ids_mirror.mem_iff]
  cases b.find? req.orderId with
  | none => rfl
  | some o =>
    have hi := replacement_mirrors hreplace hp o
    have hr := h.remove o.id
    have hremove : b.mirror.remove o.mirror.id = (b.remove o.id).mirror := b.remove_mirror o.id
    have hinc : replacement (mirrorRequest req) o.mirror = (replacement req o).mirror := rfl
    have htrades : (Queue.trades (replacement req o).mirror (b.remove o.id).mirror).1 = [] ↔
        (Queue.trades (replacement req o) (b.remove o.id)).1 = [] := by
      rw [hr.trades hi]
      exact List.map_eq_nil_iff
    simp only [Option.map_some, cancelAll_mirror, hremove, hinc, htrades, hr.arrive hi, hr.events hi, hr.itch hi,
      Incoming.mirror_rests, Incoming.mirror_quantity, apply_ite Step.mirror]
    refine congrArg (ite _ _) (congrArg (ite _ _) ?_)
    split_ifs with hrest
    · have hprice := toItchPrice_mirror (hi.price hrest.1)
      simp only [Step.mirror, List.map_singleton, mirrorItch, hprice]
      rfl
    · rfl

theorem process_mirror (capacity : ℕ) (h : Mirrors b) (hp : PriceOk req) :
    Queue.process capacity b.mirror (mirrorRequest req) = (Queue.process capacity b req).mirror := by
  have hh : Queue.handle capacity b.mirror (mirrorRequest req) = (Queue.handle capacity b req).mirror := by
    have ht : (mirrorRequest req).type = req.type := rfl
    unfold Queue.handle
    rw [ht]
    cases htype : req.type with
    | new => exact enter_mirror capacity h htype hp
    | cancel => exact cancel_mirror h req
    | replace => exact replace_mirror h htype hp
  have hflag : ∀ es : List Event, flagFirst (es.map mirrorEvent) = (flagFirst es).map mirrorEvent := fun es => by
    cases es with
    | nil => rfl
    | cons e es =>
      simp only [List.map_cons, flagFirst, mirrorEvent]
      split_ifs <;> rfl
  unfold Queue.process
  rw [hh]
  exact congrArg (fun es => { (Queue.handle capacity b req).mirror with events := es }) (hflag _)

/-- A run of the mirrored requests is the mirrored run. -/
theorem Queued.steps_mirror {A Q : Book} (h : Queued A Q) (hA : A.WF) (capacity : ℕ) {reqs : List EngineRequest}
    (hp : ∀ req ∈ reqs, PriceOk req) :
    Queue.steps capacity Q.mirror (reqs.map mirrorRequest) = (Queue.steps capacity Q reqs).map Step.mirror ∧
      Queue.after capacity Q.mirror (reqs.map mirrorRequest) = (Queue.after capacity Q reqs).mirror := by
  induction reqs generalizing A Q with
  | nil => exact ⟨rfl, rfl⟩
  | cons req reqs ih =>
    have hreq := hp req List.mem_cons_self
    have hs := process_mirror capacity (h.mirrors hA) hreq
    obtain ⟨hsteps, hafter⟩ := ih (h.process hA capacity req).book (process_wf capacity hA hreq)
      fun req' hr => hp req' (List.mem_cons_of_mem _ hr)
    constructor
    · simp only [List.map_cons, Queue.steps, hs]
      exact congrArg _ hsteps
    · simp only [List.map_cons, Queue.after, List.foldl_cons, hs]
      exact hafter

end Exchange.Spec
