import Exchange.Proof.Engine.Refine

/-!
# Every request refines

`matchLoop_ok`: the matching loop makes the trades of `Spec.fills`. From it each request
of the order book does what the reference book says (`process_ok`): it returns the same
result, leaves a book that represents the reference's, and writes its events and
messages. All of it is for both kinds of arithmetic at once, so nothing wraps.
-/

namespace Exchange

open Spec (Resting Book)

variable {n : ℕ} {b : Orderbook} {q : Side → ℕ → List ℕ} {A : Book}

/-! ## Matching -/

/-- One iteration of the loop of `match`, with the order at slot `x`: nothing in it
wraps. -/
theorem matchLoop_succ (a : Arith) (ctx : Context) (id clientId : ℕ) (side : Side) (type : OrderType)
    (price : ℕ) {quantity : ℕ} (hquantity : quantity < 2 ^ 32) (fuel : ℕ) {filled : ℕ}
    (hc : filled < quantity ∧ b.crosses side type price = true) {level : PriceLevelQueue} {x : ℕ}
    (hlevel : (b.ladder side.opposite).level? (b.ladder side.opposite).best = some level)
    (hfront : level.front = some x) (hlt : (b.order x).executedQuantity + (b.order x).openQuantity < 2 ^ 32) :
    let k := min (quantity - filled) (b.order x).openQuantity
    let b₁ := Rep.afterTrade b x k (b.out.write ctx [
      { orderId := id, matchNumber := b.nextMatchNumber, clientId := clientId,
        price := (b.ladder side.opposite).best, quantity := k, type := .executed, reason := .removedLiquidity },
      { orderId := (b.order x).id, matchNumber := b.nextMatchNumber, clientId := (b.order x).clientId,
        price := (b.ladder side.opposite).best, quantity := k, type := .executed, reason := .addedLiquidity }]
      [.orderExecuted (b.order x).id k b.nextMatchNumber])
    Orderbook.matchLoop a ctx id clientId side type price quantity (fuel + 1) filled b =
      if k < (b.order x).openQuantity then
        Orderbook.matchLoop a ctx id clientId side type price quantity fuel (filled + k) b₁
      else (b₁.unlink x).bind fun b₂ =>
        Orderbook.matchLoop a ctx id clientId side type price quantity fuel (filled + k) (b₂.release x) := by
  intro k b₁
  have hk₁ : k ≤ quantity - filled := Nat.min_le_left _ _
  have hk₂ : k ≤ (b.order x).openQuantity := Nat.min_le_right _ _
  have hk : min (quantity - filled) (b.order x).openQuantity = k := rfl
  have hfill : ((b.order x).openQuantity - k == 0) = !decide (k < (b.order x).openQuantity) := by
    by_cases e : k < (b.order x).openQuantity
    · simp [e]; omega
    · simp [e]; omega
  rw [Orderbook.matchLoop, if_pos hc]
  simp only [hlevel, hfront, Option.bind_eq_bind, Option.bind_some,
    a.sub_eq hquantity (Nat.le_of_lt hc.1), hk, a.add_eq (show filled + k < 2 ^ 32 by omega),
    a.sub_eq (show (b.order x).openQuantity < 2 ^ 32 by omega) hk₂,
    a.add_eq (show (b.order x).executedQuantity + k < 2 ^ 32 by omega), Order.isFilled, hfill]
  by_cases e : k < (b.order x).openQuantity
  · simp only [e, decide_true, Bool.not_true, Bool.false_eq_true, ite_false, ite_true]
    rfl
  · simp only [e, decide_false, Bool.not_false, ite_true, ite_false]
    rfl

/-- One iteration of the loop of `match` is one trade with the best order. -/
theorem iteration_ok (ctx : Context) (id clientId : ℕ) {side : Side} {type : OrderType} {price quantity : ℕ}
    (hquantity : quantity < 2 ^ 32) (fuel : ℕ) {filled : ℕ} (h : Rep n b q A) (hA : A.WF) {r : Resting}
    (hr : Spec.best side.opposite (A.side side.opposite) = some r)
    (hc : filled < quantity ∧ b.crosses side type price = true) :
    let k := min (quantity - filled) r.openQuantity
    ∃ b₁ q₁, (∀ a, Orderbook.matchLoop a ctx id clientId side type price quantity (fuel + 1) filled b =
        Orderbook.matchLoop a ctx id clientId side type price quantity fuel (filled + k) b₁) ∧
      Rep n b₁ q₁ (A.trade r k) ∧
      b₁.out = b.out.write ctx (Spec.tradeEvents id clientId A.nextMatchNumber [(r, k)])
        (Spec.tradeItch A.nextMatchNumber [(r, k)]) := by
  have hne : (b.ladder side.opposite).nonEmpty ≠ 0 := fun hz => by
    rw [(h.nonEmpty_eq_zero _).mp hz, Spec.best_eq_none.mpr rfl] at hr
    cases hr
  obtain ⟨x, level, hlevel, hfront, hx, hbest⟩ := h.best_eq hne
  obtain rfl : (b.order x).view = r := Option.some.inj (hbest.symm.trans hr)
  have hp : (b.order x).price = (b.ladder side.opposite).best := (h.shape.place hx).2
  have hstep := fun a => matchLoop_succ a ctx id clientId side type price hquantity fuel hc hlevel hfront
    (hA.liability_lt _ (Spec.Book.mem_orders.mpr ⟨_, h.view_mem hx⟩))
  simp only [Spec.tradeEvents, Spec.tradeItch, Order.view_price, Order.view_id, Order.view_clientId,
    Order.view_openQuantity, hp, h.num]
  by_cases hfull : min (quantity - filled) (b.order x).openQuantity < (b.order x).openQuantity
  · exact ⟨_, q, fun a => (hstep a).trans (if_pos hfull), h.trade_partial_ok hA hx hfull _, rfl⟩
  · obtain ⟨b₂, q₂, hun, hrep, hout⟩ := h.trade_filled_ok hA hx hfull _
    refine ⟨b₂.release x, q₂, fun a => (hstep a).trans ((if_neg hfull).trans ?_), hrep, hout⟩
    rw [hun]; rfl

/-- The matching loop makes the trades of the reference book. -/
theorem matchLoop_ok (ctx : Context) (id clientId : ℕ) (side : Side) (type : OrderType) (price : ℕ)
    {quantity : ℕ} (hquantity : quantity < 2 ^ 32) {fuel filled : ℕ} (h : Rep n b q A) (hA : A.WF)
    (hfuel : filled < quantity → (A.side side.opposite).length ≤ fuel) (hfilled : filled ≤ quantity) :
    let T := Spec.fills side (limitOf type price) fuel (quantity - filled) (A.side side.opposite)
    ∃ b' q', (∀ a, Orderbook.matchLoop a ctx id clientId side type price quantity fuel filled b =
        some (filled + Spec.filled T.1, b')) ∧
      Rep n b' q' ((A.setSide T.2 side.opposite).numbered (A.nextMatchNumber + T.1.length)) ∧
      b'.out = b.out.write ctx (Spec.tradeEvents id clientId A.nextMatchNumber T.1)
        (Spec.tradeItch A.nextMatchNumber T.1) := by
  induction fuel generalizing filled b q A with
  | zero =>
    have hc : ¬ (filled < quantity ∧ b.crosses side type price = true) := fun hc => by
      obtain ⟨r, hr, -⟩ := h.crosses_iff.mp hc.2
      rw [List.length_eq_zero_iff.mp (Nat.le_zero.mp (hfuel hc.1)), Spec.best_eq_none.mpr rfl] at hr
      cases hr
    refine ⟨b, q, fun a => ?_, ?_, rfl⟩
    · rw [Orderbook.matchLoop, if_neg hc]; rfl
    · convert h
      exact Spec.Book.setSide_side_numbered A _
  | succ fuel ih =>
    by_cases hc : filled < quantity ∧ b.crosses side type price = true
    · obtain ⟨r, hr, hallows⟩ := h.crosses_iff.mp hc.2
      obtain ⟨b₁, q₁, hloop, hrep, hout⟩ := iteration_ok ctx id clientId hquantity fuel h hA hr hc
      have hmem : r ∈ A.side side.opposite := Spec.best_mem hr
      have hs : r.side = side.opposite := hA.side_eq _ r hmem
      set k := min (quantity - filled) r.openQuantity with hk
      have hside : (A.trade r k).side side.opposite = Spec.execute (A.side side.opposite) r k := by
        rw [Spec.Book.trade, hs, Spec.Book.side_numbered, Spec.Book.side_setSide_self]
      -- a trade that leaves something to fill takes an order off the book
      have hfuel' : filled + k < quantity → ((A.trade r k).side side.opposite).length ≤ fuel := fun hlt => by
        have := Spec.length_execute_lt hmem (n := k) (by omega)
        have := hfuel hc.1
        rw [hside]
        omega
      obtain ⟨b', q', hloop', hrep', hout'⟩ :=
        ih hrep (Spec.Book.trade_wf hA (Spec.Book.mem_orders.mpr ⟨_, hmem⟩) k) hfuel' (by omega)
      have hT : Spec.fills side (limitOf type price) (fuel + 1) (quantity - filled) (A.side side.opposite) =
          ((r, k) :: (Spec.fills side (limitOf type price) fuel (quantity - (filled + k))
              ((A.trade r k).side side.opposite)).1,
            (Spec.fills side (limitOf type price) fuel (quantity - (filled + k))
              ((A.trade r k).side side.opposite)).2) := by
        rw [Spec.fills, hr]
        simp only [show 0 < quantity - filled by omega, hallows, and_self, ite_true, ← hk, Nat.sub_sub, hside]
      refine ⟨b', q', fun a => ?_, ?_, ?_⟩
      · rw [hloop, hloop', hT]
        simp only [Spec.filled, List.map_cons, List.sum_cons, Nat.add_assoc]
      · rw [hT]
        convert hrep' using 1
        refine Spec.Book.ext_side (fun s => ?_) ?_
        · rw [Spec.Book.side_numbered, Spec.Book.side_numbered]
          by_cases e : s = side.opposite
          · subst e; simp
          · simp only [Spec.Book.side_setSide_of_ne _ _ e, Spec.Book.trade, hs, Spec.Book.side_numbered]
        · show A.nextMatchNumber + (_ + 1) = A.nextMatchNumber + 1 + _
          omega
      · rw [hout', hout, Output.write_write, hT]
        rfl
    · -- the loop ends, and so does the trading
      have hT : Spec.fills side (limitOf type price) (fuel + 1) (quantity - filled) (A.side side.opposite) =
          ([], A.side side.opposite) := by
        rw [Spec.fills]
        split
        · rfl
        · next r hr => exact if_neg fun hc' => hc ⟨by omega, h.crosses_iff.mpr ⟨r, hr, hc'.2⟩⟩
      refine ⟨b, q, fun a => ?_, ?_, ?_⟩
      · rw [Orderbook.matchLoop, if_neg hc, hT]; rfl
      · rw [hT]
        convert h
        exact Spec.Book.setSide_side_numbered A _
      · rw [hT]; rfl

theorem match_ok (ctx : Context) (h : Rep n b q A) (hA : A.WF) {i : Spec.Incoming}
    (hi : i.quantity < 2 ^ 32) {type : OrderType} {price : ℕ} (hl : i.limit = limitOf type price) :
    ∃ b' q', (∀ a, b.match a ctx i.id i.clientId i.side type price i.quantity =
        some (Spec.filled (i.trades A).1, b')) ∧ Rep n b' q' (i.traded A) ∧
      b'.out = b.out.write ctx (Spec.tradeEvents i.id i.clientId A.nextMatchNumber (i.trades A).1)
        (Spec.tradeItch A.nextMatchNumber (i.trades A).1) := by
  have hlen : (A.side i.side.opposite).length ≤ b.orders.size := by
    rw [h.size_eq hA, Spec.Book.orders, List.length_append]
    cases i.side
    · exact Nat.le_add_left _ _
    · exact Nat.le_add_right _ _
  have hm := matchLoop_ok ctx i.id i.clientId i.side type price hi h hA (fun _ => hlen) (Nat.zero_le _)
  rw [Nat.sub_zero, ← hl, Spec.fills_fuel hlen (Nat.le_refl _), ← Spec.Incoming.trades] at hm
  simp only [Nat.zero_add] at hm
  exact hm

/-! ## Requests -/

/-- The book does, on a request with context `ctx`, what the step of the reference book
says: `b` is the book the request finds, `res` what the order book computes with
either arithmetic. -/
def Does (n : ℕ) (ctx : Context) (b : Orderbook) (res : Arith → Option (Bool × Orderbook)) (step : Spec.Step) :
    Prop :=
  ∃ b' q', (∀ a, res a = some (step.handled, b')) ∧ Rep n b' q' step.book ∧
    b'.out = b.out.write ctx step.events step.itch

/-- `enter` and `replace` from the call of `match` on: `executed` is the chain's
executed shares as the caller computes them. -/
def finish (a : Arith) (ctx : Context) (i : Spec.Incoming) (type : OrderType) (executed : ℕ → Option ℕ)
    (b : Orderbook) : Option (Bool × Orderbook) := do
  let (filled, b) ← b.match a ctx i.id i.clientId i.side type i.price i.quantity
  let remaining ← a.sub i.quantity filled
  if remaining = 0 then return (true, b)
  if i.rests then
    let executedQuantity ← executed filled
    let b ← b.rest ctx {
      id := i.id, clientId := i.clientId, side := i.side, price := i.price, openQuantity := remaining,
      executedQuantity := executedQuantity } true
    return (true, b)
  return (true, b.emit ctx {
    orderId := i.id, clientId := i.clientId, price := i.price, quantity := remaining, type := .canceled,
    reason := .immediateOrCancel })

theorem length_orders_traded_le (hA : A.WF) (i : Spec.Incoming) : (i.traded A).orders.length ≤ A.orders.length := by
  rw [i.traded_eq_update hA, Spec.Book.orders_numbered, Spec.Book.orders_update]
  exact List.length_filterMap_le _ _

theorem finish_ok (ctx : Context) (h : Rep n b q A) (hA : A.WF) {i : Spec.Incoming} (hi : i.Ok A)
    (type : OrderType) (hl : i.limit = limitOf type i.price) (executed : Arith → ℕ → Option ℕ)
    (hex : ∀ a k, k ≤ i.quantity → executed a k = some (i.executed + k))
    (hroom : i.rests = true → A.orders.length < n) :
    Does n ctx b (fun a => finish a ctx i type (executed a) b)
      { handled := true, book := i.book A, events := i.events A, itch := i.itch A } := by
  have hlt : i.quantity < 2 ^ 32 := by have := hi.lt; omega
  obtain ⟨b₁, q₁, hmatch, hrep, hout⟩ := match_ok ctx h hA hlt hl
  have hfilled := (i.trades_ok hA).filled_le
  have hrem : i.quantity - Spec.filled (i.trades A).1 = i.remaining A := rfl
  have hexec := fun a => hex a _ hfilled
  have hsub := fun a : Arith => a.sub_eq hlt hfilled
  unfold Does finish
  simp only [hmatch, Option.bind_eq_bind, Option.bind_some, hsub, hrem, hexec]
  by_cases hz : i.remaining A = 0
  · refine ⟨b₁, q₁, fun _ => if_pos hz, ?_, ?_⟩
    · simpa [Spec.Incoming.book_eq, Spec.Incoming.comesToRest, hz] using hrep
    · simpa [Spec.Incoming.events, Spec.Incoming.itch, Spec.Incoming.add, Spec.Incoming.comesToRest, hz] using hout
  · cases hr : i.rests with
    | true =>
      obtain ⟨hlim, hp⟩ := hi.rest hr
      have hav : b₁.pool.available ≠ 0 := fun hz' => by
        have := (hrep.available_eq_zero (i.traded_wf hA)).mp hz'
        have := length_orders_traded_le hA i
        have := hroom hr
        omega
      obtain ⟨b₂, q₂, hrest, hrep₂, hout₂⟩ := hrep.rest_ok (o := {
          id := i.id, clientId := i.clientId, side := i.side, price := i.price, openQuantity := i.remaining A,
          executedQuantity := i.executed + Spec.filled (i.trades A).1 })
        hav hp (fun hid => hi.fresh (i.mem_ids_of_traded hA hid)) rfl rfl ctx true
      have hc : i.comesToRest A = true := by simp [Spec.Incoming.comesToRest, hr, hz]
      refine ⟨b₂, q₂, fun _ => ?_, ?_, ?_⟩
      · rw [if_neg hz, if_pos rfl, hrest]; rfl
      · simp only [Spec.Incoming.book_eq, hc, ite_true]
        exact hrep₂
      · rw [hout₂, hout, Output.write_write]
        simp [Spec.Incoming.events, Spec.Incoming.itch, Spec.Incoming.add, hc, hr]
    | false =>
      have hc : i.comesToRest A = false := by simp [Spec.Incoming.comesToRest, hr]
      refine ⟨_, q₁, fun _ => (if_neg hz).trans (if_neg Bool.false_ne_true), ?_, ?_⟩
      · simp only [Spec.Incoming.book_eq, hc, Bool.false_eq_true, ite_false]
        exact hrep.emit ctx _
      · show b₁.out.emit ctx _ = _
        rw [hout, Output.emit_eq_write, Output.write_write]
        simp [Spec.Incoming.events, Spec.Incoming.itch, Spec.Incoming.add, hc, hr, hz]

/-- What was written before. -/
theorem Does.write {ctx : Context} {res : Arith → Option (Bool × Orderbook)} {step : Spec.Step}
    (h : Does n ctx b res step) (b₀ : Orderbook) (events : List Event) (itch : List ItchBody)
    (hb : b.out = b₀.out.write ctx events itch) :
    Does n ctx b₀ res { step with events := events ++ step.events, itch := itch ++ step.itch } := by
  obtain ⟨b', q', h₁, h₂, h₃⟩ := h
  exact ⟨b', q', h₁, h₂, by rw [h₃, hb, Output.write_write]⟩

/-- A request that is ignored. -/
theorem ignored_ok {ctx : Context} (h : Rep n b q A) : Does n ctx b (fun _ => some (false, b)) (Spec.ignored A) :=
  ⟨b, q, fun _ => rfl, h, rfl⟩

theorem enter_ok (ctx : Context) (h : Rep n b q A) (hA : A.WF) (ht : ctx.req.type = .new)
    (hp : Spec.PriceOk ctx.req) : Does n ctx b (fun a => b.enter a ctx) (Spec.enter n A ctx.req) := by
  unfold Orderbook.enter Spec.enter
  by_cases hid : ctx.req.orderId ∈ A.ids
  · simp only [h.mem_orders_iff.mpr hid, hid, ite_true]
    exact ignored_ok h
  have hid' : ctx.req.orderId ∉ b.orders := fun hm => hid (h.mem_orders_iff.mp hm)
  have hrests : (ctx.req.orderType == .limit && ctx.req.timeInForce == .day) =
    (Spec.newOrder ctx.req).rests := rfl
  have hroom : b.pool.available = 0 ↔ n ≤ A.orders.length := h.available_eq_zero hA
  simp only [hid, hid', ite_false, hrests, Bool.and_eq_true, beq_iff_eq, hroom]
  by_cases hfull : (Spec.newOrder ctx.req).rests = true ∧ n ≤ A.orders.length
  · simp only [hfull, and_self, ite_true]
    exact ⟨_, q, fun _ => rfl, h.emit ctx _, rfl⟩
  simp only [hfull, ite_false]
  have hf := fun e => finish_ok ctx (h.emit ctx e) hA (Spec.newOrder_ok ht hp hid)
    ctx.req.orderType rfl (fun _ => some) (fun _ k _ => congrArg some (Nat.zero_add k).symm)
    fun hr => Nat.lt_of_not_le fun hn => hfull ⟨hr, hn⟩
  exact (hf _).write b _ _ (Output.emit_eq_write ..)

theorem openAfter_eq (a : Arith) {total executed : ℕ} (h : total < 2 ^ 32) :
    Orderbook.openAfter a total executed = some (total - executed) := by
  unfold Orderbook.openAfter
  split
  · next hlt => exact a.sub_eq h (Nat.le_of_lt hlt)
  · rw [Nat.sub_eq_zero_of_le (by omega)]

/-- The cancellation of all of a resting order. -/
theorem cancelAll_ok {ctx : Context} (h : Rep n b q A) {x : ℕ}
    (hx : x ∈ q (b.order x).side (b.order x).price) :
    Does n ctx b (fun _ => do
      let b₁ ← (b.emit ctx {
        orderId := (b.order x).id, clientId := (b.order x).clientId, price := (b.order x).price,
        quantity := (b.order x).openQuantity, type := .canceled, reason := .userRequested }).unlink x
      return (true, (b₁.release x).publish ctx (.orderDelete (b.order x).id)))
      (Spec.cancelAll A (b.order x).view) := by
  obtain ⟨b₁, q', hun, hrep, hout⟩ := (h.emit ctx {
    orderId := (b.order x).id, clientId := (b.order x).clientId, price := (b.order x).price,
    quantity := (b.order x).openQuantity, type := .canceled, reason := .userRequested }).unlink_release_ok hx
  refine ⟨_, q', fun _ => by rw [hun]; rfl, hrep.publish ctx (.orderDelete (b.order x).id), ?_⟩
  show b₁.out.publish ctx _ = _
  rw [hout]
  rfl

theorem cancel_ok (ctx : Context) (h : Rep n b q A) (hA : A.WF) :
    Does n ctx b (fun a => b.cancel a ctx) (Spec.cancel A ctx.req) := by
  cases hlook : b.orders.lookup ctx.req.orderId with
  | none =>
    simp only [Orderbook.cancel, hlook, Spec.cancel, h.find?_eq_none hlook]
    exact ignored_ok h
  | some x =>
    obtain ⟨hfind, hx, -⟩ := h.lookup_eq_some hA hlook
    have hlt := hA.liability_lt _ (Spec.find?_mem hfind).1
    rw [Order.view_executedQuantity, Order.view_openQuantity] at hlt
    have hreq := ctx.req.quantity_lt
    simp only [Orderbook.cancel, hlook, openAfter_eq _ hreq, Option.bind_eq_bind, Option.bind_some]
    rw [Spec.cancel, hfind]
    dsimp only
    by_cases hc : (b.order x).clientId ≠ ctx.req.clientId
    · simp only [if_pos hc]
      rw [if_pos (.inl hc)]
      exact ignored_ok h
    by_cases hopen : (b.order x).openQuantity ≤ ctx.req.quantity - (b.order x).executedQuantity
    · simp only [if_neg hc, if_pos hopen]
      rw [if_pos (.inr hopen)]
      exact ignored_ok h
    have hnot : ¬ ((b.order x).view.clientId ≠ ctx.req.clientId ∨
      (b.order x).view.openQuantity ≤ ctx.req.quantity - (b.order x).view.executedQuantity) :=
      not_or.mpr ⟨hc, hopen⟩
    have hsub := fun a : Arith => a.sub_eq
      (show (b.order x).openQuantity < 2 ^ 32 by omega) (Nat.le_of_lt (Nat.lt_of_not_le hopen))
    simp only [if_neg hc, if_neg hopen, hsub, Option.bind_some]
    rw [if_neg hnot]
    by_cases hz : ctx.req.quantity - (b.order x).executedQuantity = 0
    · rw [if_pos (show ctx.req.quantity - (b.order x).view.executedQuantity = 0 from hz)]
      simp only [hz, ite_true, Nat.sub_zero]
      exact cancelAll_ok h hx
    · simp only [if_neg hz]
      rw [if_neg (show ¬ ctx.req.quantity - (b.order x).view.executedQuantity = 0 from hz)]
      refine ⟨_, q, fun _ => rfl, ?_, rfl⟩
      rw [Spec.Book.reduce_eq_update]
      have hr := h.setOrder_ok hx (o := { b.order x with
          openQuantity := ctx.req.quantity - (b.order x).executedQuantity })
        (f := fun r => some (if r.id = (b.order x).id then
          { r with openQuantity := ctx.req.quantity - (b.order x).executedQuantity } else r))
        rfl rfl rfl rfl rfl (fun r _ r' e => ?_) ?_ fun r _ hne => ?_
      · exact hr.congr rfl rfl rfl rfl rfl
      · obtain rfl := Option.some.inj e
        split <;> rfl
      · simp [Order.view]
      · simp [hne]

/-- `replace` once the original `origId` has left the book: the replacement rests as
one Order Replace, or the original is deleted and the replacement enters. -/
theorem reenter_ok (ctx : Context) (h : Rep n b q A) (hA : A.WF) {i : Spec.Incoming} (hi : i.Ok A)
    (hl : i.limit = some i.price) (hz : i.quantity ≠ 0) (hroom : A.orders.length < n) (origId : ℕ) :
    Does n ctx b
      (fun a => if (i.rests && !b.crosses i.side .limit i.price) = true then do
        let b ← b.rest ctx {
          id := i.id, clientId := i.clientId, side := i.side, price := i.price,
          openQuantity := i.quantity, executedQuantity := i.executed } false
        return (true, b.publish ctx (.orderReplace origId i.id i.quantity (toItchPrice i.price)))
      else finish a ctx i .limit (a.add i.executed) (b.publish ctx (.orderDelete origId)))
      { handled := true, book := i.book A, events := i.events A,
        itch := if i.rests ∧ (i.trades A).1 = [] then
            [.orderReplace origId i.id i.quantity (toItchPrice i.price)]
          else .orderDelete origId :: i.itch A } := by
  have hcross : b.crosses i.side .limit i.price = true ↔ (i.trades A).1 ≠ [] := by
    rw [h.crosses_iff, Ne, i.trades_eq_nil_iff _ hz, not_not, hl]
    rfl
  by_cases hday : i.rests = true ∧ (i.trades A).1 = []
  · obtain ⟨hr, ht⟩ := hday
    have hc : b.crosses i.side .limit i.price = false := by
      rw [Bool.eq_false_iff, Ne, hcross, not_not]; exact ht
    -- it does not trade, so all of it rests
    have hrem : i.remaining A = i.quantity := by rw [Spec.Incoming.remaining, ht]; rfl
    have hrest : i.comesToRest A = true := by simp [Spec.Incoming.comesToRest, hr, hrem, hz]
    have htraded : i.traded A = A := i.traded_of_trades_eq_nil hA ht
    obtain ⟨b₁, q₁, hb₁, hrep, hout⟩ := h.rest_ok (o := {
        id := i.id, clientId := i.clientId, side := i.side, price := i.price, openQuantity := i.quantity,
        executedQuantity := i.executed })
      (fun hav => by have := (h.available_eq_zero hA).mp hav; omega) (hi.rest hr).2 hi.fresh rfl rfl ctx false
    rw [hr, hc]
    refine ⟨_, q₁, fun _ => (if_pos rfl).trans (by rw [hb₁]; rfl), ?_, ?_⟩
    · rw [Spec.Incoming.book_eq, if_pos hrest, htraded]
      convert hrep.publish ctx _ using 2
      simp [Spec.Incoming.resting, Order.view, hrem, ht, Spec.filled]
    · show b₁.out.publish ctx _ = _
      rw [hout]
      simp [ht, Spec.Incoming.events, hr, Spec.tradeEvents, Output.publish_eq_write, Output.write_write]
  · have hc : ¬ (i.rests && !b.crosses i.side .limit i.price) = true := fun hc => by
      simp only [Bool.and_eq_true, Bool.not_eq_true', ← Bool.not_eq_true, hcross, Ne, not_not] at hc
      exact hday hc
    simp only [if_neg hc]
    have hf := finish_ok ctx (h.publish ctx (.orderDelete origId)) hA hi .limit hl
      (fun a => a.add i.executed) (fun a k hk => a.add_eq (by have := hi.lt; omega)) fun _ => hroom
    have hw := hf.write b _ _ (Output.publish_eq_write ..)
    rw [if_neg hday]
    exact hw

theorem replace_ok (ctx : Context) (h : Rep n b q A) (hA : A.WF) (ht : ctx.req.type = .replace)
    (hp : Spec.PriceOk ctx.req) : Does n ctx b (fun a => b.replace a ctx) (Spec.replace A ctx.req) := by
  cases hlook : b.orders.lookup ctx.req.orderId with
  | none =>
    simp only [Orderbook.replace, hlook, Spec.replace, h.find?_eq_none hlook]
    exact ignored_ok h
  | some x =>
    obtain ⟨hfind, hx, -⟩ := h.lookup_eq_some hA hlook
    have hm := (Spec.find?_mem hfind).1
    have hlt := hA.liability_lt _ hm
    have hreq := ctx.req.quantity_lt
    simp only [Orderbook.replace, hlook, openAfter_eq _ hreq, Option.bind_eq_bind, Option.bind_some]
    rw [Spec.replace, hfind]
    dsimp only
    by_cases hc : (b.order x).clientId ≠ ctx.req.clientId
    · simp only [if_pos hc]
      rw [if_pos (.inl hc)]
      exact ignored_ok h
    by_cases hid : ctx.req.newOrderId ∈ A.ids
    · simp only [if_neg hc, if_pos (h.mem_orders_iff.mpr hid)]
      rw [if_pos (.inr hid)]
      exact ignored_ok h
    have hnot : ¬ ((b.order x).view.clientId ≠ ctx.req.clientId ∨ ctx.req.newOrderId ∈ A.ids) :=
      not_or.mpr ⟨hc, hid⟩
    have hid' : ctx.req.newOrderId ∉ b.orders := fun hm => hid (h.mem_orders_iff.mp hm)
    simp only [if_neg hc, if_neg hid']
    rw [if_neg hnot]
    by_cases hz : ctx.req.quantity - (b.order x).executedQuantity = 0
    · simp only [if_pos hz]
      rw [if_pos (show (Spec.replacement ctx.req (b.order x).view).quantity = 0 from hz)]
      exact cancelAll_ok h hx
    obtain ⟨b₁, q₁, hun, hrep, hout⟩ := h.unlink_release_ok hx
    simp only [if_neg hz, hun, Option.bind_some]
    rw [if_neg (show ¬ (Spec.replacement ctx.req (b.order x).view).quantity = 0 from hz)]
    have hA₁ := hA.remove (b.order x).id
    have hi := Spec.replacement_ok ht hp hid (o := (b.order x).view) hz
    have hroom : (A.remove (b.order x).id).orders.length < n := by
      have hlt := Spec.Book.length_orders_remove_lt hm
      have hfs := h.shape.free_size
      rw [h.size_eq hA] at hfs
      rw [Order.view_id] at hlt
      omega
    have hre := fun e => (reenter_ok ctx (hrep.emit ctx e) hA₁ hi rfl hz hroom (b.order x).id).write
      b [e] [] (congrArg (Output.emit · ctx e) hout)
    exact hre _

/-- `process` does, with either arithmetic, what the reference book says. -/
theorem process_ok (h : Rep n b q A) (hA : A.WF) {req : EngineRequest} (hp : Spec.PriceOk req)
    (enginePopTsc : ℕ) : ∃ b' q',
      (∀ a, b.process a req enginePopTsc = some ((Spec.process n A req).handled, b')) ∧
      Rep n b' q' (Spec.process n A req).book ∧
      b'.out.outRing.map (·.toEvent) = b.out.outRing.map (·.toEvent) ++ (Spec.process n A req).events ∧
      Output.Published b.out b'.out (Spec.process n A req).itch := by
  let b₀ : Orderbook := { b with out := { b.out with answered := false } }
  let ctx : Context := {
    req := req, enginePopTsc := enginePopTsc, itchTimestamp := b.out.env.nsSinceMidnight enginePopTsc }
  have h₀ : Rep n b₀ q A := h.congr rfl rfl rfl rfl rfl
  have hdoes : Does n ctx b₀ (fun a => b.process a req enginePopTsc) (Spec.handle n A req) := by
    unfold Orderbook.process Spec.handle
    cases ht : req.type with
    | new => exact enter_ok ctx h₀ hA ht hp
    | cancel => exact cancel_ok ctx h₀ hA
    | replace => exact replace_ok ctx h₀ hA ht hp
  obtain ⟨b', q', hres, hrep, hout⟩ := hdoes
  have hitch := b₀.out.published_write ctx (Spec.handle n A req).events (Spec.handle n A req).itch
  rw [← hout] at hitch
  refine ⟨b', q', hres, hrep, ?_, hitch⟩
  rw [hout]
  exact Output.write_events ctx (Spec.handle_answersRequest n A req) rfl _

end Exchange
