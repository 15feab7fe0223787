import Exchange.Proof.Engine.Reached

/-!
# A REPLACE is a CANCEL and a NEW

`replace` takes the original out and lets the replacement in under the shares its chain has
executed. `Incoming` trades without looking at them (`side_book_carry`), so a REPLACE leaves the
book of a CANCEL of the whole original followed by a NEW order for the open shares, but for the
executed shares that the replacement carries; and the events after the first ones are the same.
-/

namespace Exchange

open Spec (Resting Book)

namespace EngineRequest

/-- The CANCEL of the whole order that a REPLACE names. -/
def asCancel (req : EngineRequest) : EngineRequest :=
  { req with type := .cancel, quantity := 0, quantity_lt := by decide }

/-- The NEW order for the shares that a REPLACE of `o` leaves open. -/
def asNew (req : EngineRequest) (o : Resting) : EngineRequest :=
  { req with
    type := .new, orderId := req.newOrderId, side := o.side, orderType := .limit
    quantity := req.quantity - o.executedQuantity
    quantity_lt := Nat.lt_of_le_of_lt (Nat.sub_le _ _) req.quantity_lt }

end EngineRequest

/-- The first event of a CANCEL of the whole of `o`, of a REPLACE of it, and of the NEW order. -/
def canceledEvent (o : Resting) : Event where
  orderId := o.id
  clientId := o.clientId
  price := o.price
  quantity := o.openQuantity
  type := .canceled
  reason := .userRequested
  answersRequest := true

def replacedEvent (req : EngineRequest) (o : Resting) : Event where
  orderId := req.newOrderId
  origOrderId := o.id
  clientId := req.clientId
  price := req.price
  quantity := req.quantity - o.executedQuantity
  type := .replaced
  answersRequest := true

def acceptedEvent (req : EngineRequest) (o : Resting) : Event where
  orderId := req.newOrderId
  clientId := req.clientId
  price := req.price
  quantity := req.quantity - o.executedQuantity
  type := .accepted
  answersRequest := true

namespace Spec

variable {n : ℕ} {b : Book} {req : EngineRequest} {o : Resting}

/-- Order `id` with `k` more executed shares. -/
def carry (id k : ℕ) (r : Resting) : Resting :=
  if r.id = id then { r with executedQuantity := k + r.executedQuantity } else r

theorem newOrder_asNew (req : EngineRequest) (o : Resting) :
    newOrder (req.asNew o) = { replacement req o with executed := 0 } := by
  simp only [newOrder, replacement, EngineRequest.asNew, if_pos]
  rfl

theorem map_carry_of_notMem {id k : ℕ} {l : List Resting} (h : ∀ r ∈ l, r.id ≠ id) : l.map (carry id k) = l := by
  have heq : l.map (carry id k) = l.map fun r => r := List.map_congr_left fun r hr => if_neg (h r hr)
  rw [heq, List.map_id']

/-- The executed shares of its chain only come with the incoming order. -/
theorem side_book_carry (i : Incoming) (h : b.WF) (hid : i.id ∉ b.ids) (k : ℕ) (s : Side) :
    (({ i with executed := k } : Incoming).book b).side s =
      ((({ i with executed := 0 } : Incoming).book b).side s).map (carry i.id k) := by
  have hne : ∀ s, ∀ r ∈ (i.traded b).side s, r.id ≠ i.id := fun s r hr e =>
    hid (i.mem_ids_of_traded h (Book.mem_ids.mpr ⟨r, Book.mem_orders.mpr ⟨s, hr⟩, e⟩))
  have htraded : ∀ s, ((i.traded b).side s).map (carry i.id k) = (i.traded b).side s := fun s =>
    map_carry_of_notMem (hne s)
  rw [Incoming.book_eq, Incoming.book_eq]
  show (if i.comesToRest b then (i.traded b).append (({ i with executed := k } : Incoming).resting b)
      else i.traded b).side s =
    ((if i.comesToRest b then (i.traded b).append (({ i with executed := 0 } : Incoming).resting b)
      else i.traded b).side s).map (carry i.id k)
  split_ifs
  · by_cases hs : s = i.side
    · subst hs
      simp only [Book.append, Incoming.resting, Book.side_setSide_self, List.map_append, List.map_singleton, htraded,
        carry, if_true, Nat.zero_add]
      rfl
    · simp only [Book.append, Incoming.resting, Book.side_setSide_of_ne _ _ hs, htraded]
  · exact (htraded s).symm

theorem filter_map_carry (id k p : ℕ) (l : List Resting) :
    (l.map (carry id k)).filter (·.price == p) = (l.filter (·.price == p)).map (carry id k) := by
  have hprice : ∀ r, (carry id k r).price = r.price := fun r => by
    unfold carry
    split_ifs <;> rfl
  rw [List.filter_map]
  exact congrArg _ (List.filter_congr fun r _ => congrArg (· == p) (hprice r))

theorem nextMatchNumber_book_executed (i : Incoming) (b : Book) :
    (i.book b).nextMatchNumber = (({ i with executed := 0 } : Incoming).book b).nextMatchNumber := by
  rw [Incoming.book_eq, Incoming.book_eq]
  show (if i.comesToRest b then (i.traded b).append (i.resting b) else i.traded b).nextMatchNumber =
    (if i.comesToRest b then (i.traded b).append (({ i with executed := 0 } : Incoming).resting b)
      else i.traded b).nextMatchNumber
  split_ifs
  · simp only [Book.append, Book.setSide_nextMatchNumber]
  · rfl

theorem cancel_asCancel (h : b.WF) (hfind : b.find? req.orderId = some o) (hclient : o.clientId = req.clientId) :
    cancel b req.asCancel = cancelAll b o := by
  have hpos := h.open_pos o (find?_mem hfind).1
  have horder : req.asCancel.orderId = req.orderId := rfl
  have htarget : req.asCancel.quantity - o.executedQuantity = 0 := Nat.zero_sub _
  have hno : ¬ (o.clientId ≠ req.asCancel.clientId ∨ o.openQuantity ≤ 0) := by
    rintro (hc | hle)
    · exact hc hclient
    · omega
  simp only [cancel, horder, hfind, htarget, if_neg hno, if_true]

theorem enter_asNew (hid : req.newOrderId ∉ b.ids) (hroom : b.orders.length < n) : enter n b (req.asNew o) =
    { handled := true
      book := ({ replacement req o with executed := 0 } : Incoming).book b
      events := { orderId := req.newOrderId, clientId := req.clientId, price := req.price,
                  quantity := req.quantity - o.executedQuantity, type := .accepted } :: (replacement req o).events b
      itch := (replacement req o).itch b } := by
  have hfull : ¬ ((newOrder (req.asNew o)).rests ∧ n ≤ b.orders.length) := fun h => absurd h.2 (Nat.not_le.mpr hroom)
  simp only [enter]
  rw [if_neg hfull, if_neg (show (req.asNew o).orderId ∉ b.ids from hid), newOrder_asNew]
  rfl

theorem replace_eq (hfind : b.find? req.orderId = some o) (hclient : o.clientId = req.clientId)
    (hid : req.newOrderId ∉ b.ids) : replace b req =
      if req.quantity ≤ o.executedQuantity then cancelAll b o
      else
        { handled := true
          book := (replacement req o).book (b.remove o.id)
          events := { orderId := req.newOrderId, origOrderId := o.id, clientId := req.clientId, price := req.price,
                      quantity := req.quantity - o.executedQuantity, type := .replaced } ::
            (replacement req o).events (b.remove o.id)
          itch := if (replacement req o).rests ∧ ((replacement req o).trades (b.remove o.id)).1 = [] then
              [.orderReplace o.id req.newOrderId (req.quantity - o.executedQuantity) (toItchPrice req.price)]
            else .orderDelete o.id :: (replacement req o).itch (b.remove o.id) } := by
  have hno : ¬ (o.clientId ≠ req.clientId ∨ req.newOrderId ∈ b.ids) := not_or.mpr ⟨not_not.mpr hclient, hid⟩
  have hzero : (replacement req o).quantity = 0 ↔ req.quantity ≤ o.executedQuantity := Nat.sub_eq_zero_iff_le
  simp only [replace, hfind, if_neg hno, hzero]
  rfl

/-- A request that is handled, with the book it leaves and its events. -/
structure Step.Handles (s : Step) (b : Book) (events : List Event) : Prop where
  handled : s.handled = true
  book : s.book = b
  events : s.events = events

theorem process_asCancel (n : ℕ) (h : b.WF) (hfind : b.find? req.orderId = some o)
    (hclient : o.clientId = req.clientId) : (process n b req.asCancel).Handles (b.remove o.id) [canceledEvent o] := by
  have hcancel : handle n b req.asCancel = cancelAll b o := cancel_asCancel h hfind hclient
  simp only [process, hcancel]
  exact ⟨rfl, rfl, rfl⟩

theorem process_asNew (hid : req.newOrderId ∉ b.ids) (hroom : b.orders.length < n) :
    (process n b (req.asNew o)).Handles (({ replacement req o with executed := 0 } : Incoming).book b)
      (acceptedEvent req o :: (replacement req o).events b) := by
  have hnew : handle n b (req.asNew o) = enter n b (req.asNew o) := rfl
  simp only [process, hnew, enter_asNew hid hroom]
  exact ⟨rfl, rfl, rfl⟩

/-- A REPLACE whose chain has executed all of the new quantity. -/
theorem process_replace_all (n : ℕ) (ht : req.type = .replace) (hfind : b.find? req.orderId = some o)
    (hclient : o.clientId = req.clientId) (hid : req.newOrderId ∉ b.ids) (hle : req.quantity ≤ o.executedQuantity) :
    (process n b req).Handles (b.remove o.id) [canceledEvent o] := by
  simp only [process, handle, ht, replace_eq hfind hclient hid, if_pos hle]
  exact ⟨rfl, rfl, rfl⟩

theorem process_replace (n : ℕ) (ht : req.type = .replace) (hfind : b.find? req.orderId = some o)
    (hclient : o.clientId = req.clientId) (hid : req.newOrderId ∉ b.ids) (hlt : ¬ req.quantity ≤ o.executedQuantity) :
    (process n b req).Handles ((replacement req o).book (b.remove o.id))
      (replacedEvent req o :: (replacement req o).events (b.remove o.id)) := by
  simp only [process, handle, ht, replace_eq hfind hclient hid, if_neg hlt]
  exact ⟨rfl, rfl, rfl⟩

end Spec

/-- `process` on a request that the reference book handles. -/
theorem process_handles {n : ℕ} {b : Orderbook} {q : Side → ℕ → List ℕ} {A A' : Book} (h : Rep n b q A) (hA : A.WF)
    {req : EngineRequest} (hp : Spec.PriceOk req) {events : List Event}
    (hstep : (Spec.process n A req).Handles A' events) (tsc : ℕ) :
    ∃ b' q', (∀ a, b.process a req tsc = some (true, b')) ∧ Rep n b' q' A' ∧ A'.WF ∧
      b'.out.outRing.map (·.toEvent) = b.out.outRing.map (·.toEvent) ++ events := by
  obtain ⟨b', q', hres, hrep, hev, -⟩ := process_ok h hA hp tsc
  have hwf := Spec.process_wf n hA hp
  rw [hstep.handled] at hres
  rw [hstep.book] at hrep hwf
  rw [hstep.events] at hev
  exact ⟨b', q', hres, hrep, hwf, hev⟩

/-- A REPLACE of the client's own resting order `o` to an id that does not rest is a CANCEL of the
whole of `o`, and then, if its chain has executed less than the new quantity, a NEW order for the
difference: the levels are those of the two, but for the executed shares that the new order
carries, and after the first events the same ones follow. -/
theorem replace_is_cancel_and_new (capacity : ℕ) (env : Env) (reqs : List (EngineRequest × ℕ))
    (hp : ∀ r ∈ reqs, Spec.PriceOk r.1) (req : EngineRequest) (ht : req.type = .replace) (hreq : Spec.PriceOk req)
    (tsc tsc₁ tsc₂ : ℕ) :
    ∃ returned b, Reaches capacity env reqs returned b ∧
      ∀ o, b.resting req.orderId = some o → o.clientId = req.clientId → b.resting req.newOrderId = none →
      ∃ b' b₁, (∀ a, b.process a req tsc = some (true, b')) ∧
        (∀ a, b.process a req.asCancel tsc₁ = some (true, b₁)) ∧
        b₁.out.outRing.map (·.toEvent) = b.out.outRing.map (·.toEvent) ++ [canceledEvent o] ∧
        if req.quantity ≤ o.executedQuantity then
          b'.out.outRing.map (·.toEvent) = b.out.outRing.map (·.toEvent) ++ [canceledEvent o] ∧
          ∀ s p, InBand p → b'.levelOrders s p = b₁.levelOrders s p
        else
          ∃ b₂ events, (∀ a, b₁.process a (req.asNew o) tsc₂ = some (true, b₂)) ∧
            b'.out.outRing.map (·.toEvent) = b.out.outRing.map (·.toEvent) ++ replacedEvent req o :: events ∧
            b₂.out.outRing.map (·.toEvent) = b₁.out.outRing.map (·.toEvent) ++ acceptedEvent req o :: events ∧
            b'.nextMatchNumber = b₂.nextMatchNumber ∧
            ∀ s p, InBand p → b'.levelOrders s p =
              (b₂.levelOrders s p).map (Spec.carry req.newOrderId o.executedQuantity) := by
  obtain ⟨b, q, hres, hrep, hA, -⟩ := handleMatching_new capacity env hp
  set A := Spec.after capacity {} (reqs.map Prod.fst)
  refine ⟨_, b, hres .wrapping, fun o ho hclient hnew => ?_⟩
  rw [Orderbook.resting, hrep.lookup_view hA] at ho hnew
  have hid : req.newOrderId ∉ A.ids := fun hmem => by
    obtain ⟨r, hr, hrid⟩ := Spec.Book.mem_ids.mp hmem
    rw [← hrid, hA.find?_eq_some hr] at hnew
    cases hnew
  have hmem := (Spec.find?_mem ho).1
  have hcancelOk : Spec.PriceOk req.asCancel := by rintro (⟨h, -⟩ | h) <;> cases h
  obtain ⟨b₁, q₁, hres₁, hrep₁, hA₁, hev₁⟩ :=
    process_handles hrep hA hcancelOk (Spec.process_asCancel capacity hA ho hclient) tsc₁
  by_cases hle : req.quantity ≤ o.executedQuantity
  · obtain ⟨b', q', hres', hrep', -, hev'⟩ :=
      process_handles hrep hA hreq (Spec.process_replace_all capacity ht ho hclient hid hle) tsc
    refine ⟨b', b₁, hres', hres₁, hev₁, ?_⟩
    rw [if_pos hle]
    exact ⟨hev', fun s p hp => (hrep'.levelOrders_eq s hp).trans (hrep₁.levelOrders_eq s hp).symm⟩
  · obtain ⟨b', q', hres', hrep', -, hev'⟩ :=
      process_handles hrep hA hreq (Spec.process_replace capacity ht ho hclient hid hle) tsc
    have hid₁ : req.newOrderId ∉ (A.remove o.id).ids := fun h => hid (Spec.Book.mem_ids_remove.mp h).1
    have hroom : (A.remove o.id).orders.length < capacity := by
      have hlt := Spec.Book.length_orders_remove_lt hmem
      have hfree := hrep.shape.free_size
      rw [hrep.size_eq hA] at hfree
      omega
    have hnewOk : Spec.PriceOk (req.asNew o) := fun _ => hreq (.inr ht)
    obtain ⟨b₂, q₂, hres₂, hrep₂, -, hev₂⟩ :=
      process_handles hrep₁ hA₁ hnewOk (Spec.process_asNew (o := o) hid₁ hroom) tsc₂
    refine ⟨b', b₁, hres', hres₁, hev₁, ?_⟩
    rw [if_neg hle]
    refine ⟨b₂, _, hres₂, hev', hev₂, ?_, fun s p hp => ?_⟩
    · rw [← hrep'.num, ← hrep₂.num]
      exact Spec.nextMatchNumber_book_executed (Spec.replacement req o) (A.remove o.id)
    · rw [hrep'.levelOrders_eq s hp, hrep₂.levelOrders_eq s hp]
      have hside := Spec.side_book_carry (Spec.replacement req o) hA₁ hid₁ o.executedQuantity s
      exact (congrArg (List.filter _) hside).trans (Spec.filter_map_carry _ _ _ _)

/-- The replacement of order 1 by order 3. -/
def sampleReplacement : EngineRequest where
  orderId := 1
  newOrderId := 3
  clientId := 7
  price := 1
  quantity := 8
  type := .replace
  side := .bid
  orderType := .limit
  timeInForce := .day
  quantity_lt := by decide

theorem replace_is_cancel_and_new_sample : ∃ returned b o b', Reaches 2 sampleEnv (sampleRequests.take 2) returned b ∧
    b.resting 1 = some o ∧ o.executedQuantity = 4 ∧ b.process .wrapping sampleReplacement 13 = some (true, b') := by
  obtain ⟨returned, b, hres, hsame⟩ := replace_is_cancel_and_new 2 sampleEnv (sampleRequests.take 2) (by decide)
    sampleReplacement rfl (by decide) 13 13 14
  have hrun : (Engine.handleMatching .wrapping (Orderbook.new 2 sampleEnv) (sampleRequests.take 2)).map
      (fun r => (r.2.resting 1, r.2.resting 3)) = some (some ⟨1, 7, .bid, 100, 6, 4⟩, none) := by decide
  rw [show Engine.handleMatching .wrapping (Orderbook.new 2 sampleEnv) (sampleRequests.take 2) = some (returned, b)
    from hres] at hrun
  obtain ⟨hold, hnew⟩ := Prod.mk.inj (Option.some.inj hrun)
  obtain ⟨b', -, hproc, -⟩ := hsame ⟨1, 7, .bid, 100, 6, 4⟩ hold rfl hnew
  exact ⟨returned, b, _, b', hres, hold, rfl, hproc .wrapping⟩

end Exchange
