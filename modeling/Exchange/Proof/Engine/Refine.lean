import Exchange.Proof.Book.Invariant
import Exchange.Proof.Engine.Output
import Exchange.Proof.Engine.Shape

/-!
# The order book refines the reference book

`Rep n b q A`: the order book `b`, with the slots `q`, is the reference book `A`: each
level holds, in order, the orders of that side and price. Under it the two books agree
on what an id names, on whether an incoming order trades and with which order, and
each update of the one is an update of the other (`Rep.setOrder_ok`,
`Rep.unlink_release_ok`, `Rep.rest_ok`).
-/

namespace Exchange

open Spec (Resting Book)

/-- The order book `b` with the slots `q` is the reference book `A`. -/
structure Rep (n : ℕ) (b : Orderbook) (q : Side → ℕ → List ℕ) (A : Book) : Prop where
  shape : Shape n b q
  level : ∀ s p, (A.side s).filter (·.price == p) = (q s p).map fun x => (b.order x).view
  num : A.nextMatchNumber = b.nextMatchNumber

namespace Rep

variable {n : ℕ} {b b' : Orderbook} {q q' : Side → ℕ → List ℕ} {A : Book}

theorem new (capacity : ℕ) (env : Env) : Rep capacity (Orderbook.new capacity env) (fun _ _ => []) {} where
  shape := .new capacity env
  level s _ := by cases s <;> rfl
  num := rfl

/-- What is written to the rings does not matter. -/
theorem congr (h : Rep n b q A) (hp : b'.pool = b.pool) (hb : b'.bids = b.bids) (ha : b'.asks = b.asks)
    (ho : b'.orders = b.orders) (hn : b'.nextMatchNumber = b.nextMatchNumber) : Rep n b' q A where
  shape := h.shape.congr hp hb ha ho
  level s p := by
    have hor : ∀ x, b'.order x = b.order x := fun x => by simp only [Orderbook.order, hp]
    simp only [hor]
    exact h.level s p
  num := h.num.trans hn.symm

theorem emit (h : Rep n b q A) (ctx : Context) (e : Event) : Rep n (b.emit ctx e) q A :=
  h.congr rfl rfl rfl rfl rfl

theorem publish (h : Rep n b q A) (ctx : Context) (m : ItchBody) : Rep n (b.publish ctx m) q A :=
  h.congr rfl rfl rfl rfl rfl

/-! ## Reading the book -/

theorem mem_side (h : Rep n b q A) {s : Side} {r : Resting} :
    r ∈ A.side s ↔ ∃ x ∈ q s r.price, (b.order x).view = r := by
  have hm : r ∈ A.side s ↔ r ∈ (A.side s).filter (·.price == r.price) := by simp
  rw [hm, h.level, List.mem_map]

theorem view_mem (h : Rep n b q A) {s : Side} {p x : ℕ} (hx : x ∈ q s p) : (b.order x).view ∈ A.side s := by
  have hm : (b.order x).view ∈ (A.side s).filter (·.price == p) := by
    rw [h.level]; exact List.mem_map.mpr ⟨x, hx, rfl⟩
  exact (List.mem_filter.mp hm).1

theorem lookup_eq_some (h : Rep n b q A) (hA : A.WF) {id x : ℕ} (hx : b.orders.lookup id = some x) :
    A.find? id = some (b.order x).view ∧ x ∈ q (b.order x).side (b.order x).price ∧ (b.order x).id = id := by
  obtain ⟨hid, hq⟩ := h.shape.resting id x hx
  have hm : (b.order x).view ∈ A.orders := Spec.Book.mem_orders.mpr ⟨_, h.view_mem hq⟩
  refine ⟨?_, hq, hid⟩
  rw [← hid]
  exact hA.find?_eq_some hm

theorem mem_orders_iff (h : Rep n b q A) {id : ℕ} : id ∈ b.orders ↔ id ∈ A.ids := by
  rw [Spec.Book.mem_ids]
  constructor
  · intro hid
    obtain ⟨x, hx⟩ := AList.exists_lookup_of_mem hid
    obtain ⟨hid, hq⟩ := h.shape.resting id x hx
    exact ⟨_, Spec.Book.mem_orders.mpr ⟨_, h.view_mem hq⟩, hid⟩
  · rintro ⟨r, hr, rfl⟩
    obtain ⟨s, hs⟩ := Spec.Book.mem_orders.mp hr
    obtain ⟨x, hx, rfl⟩ := h.mem_side.mp hs
    exact h.shape.mem_orders hx

theorem find?_eq_none (h : Rep n b q A) {id : ℕ} (hx : b.orders.lookup id = none) : A.find? id = none := by
  refine List.find?_eq_none.mpr fun r hr e => ?_
  have hid : id ∈ A.ids := Spec.Book.mem_ids.mpr ⟨r, hr, by simpa using e⟩
  exact AList.lookup_eq_none.mp hx (h.mem_orders_iff.mpr hid)

theorem size_eq (h : Rep n b q A) (hA : A.WF) : b.orders.size = A.orders.length := by
  have hp : b.orders.keys.Perm A.ids := (List.perm_ext_iff_of_nodup b.orders.nodupKeys hA.nodup).mpr
    fun id => h.mem_orders_iff
  rw [AList.size_eq_length_keys, hp.length_eq, Spec.Book.ids, List.length_map]

/-- The pool is full when as many orders rest as it holds. -/
theorem available_eq_zero (h : Rep n b q A) (hA : A.WF) :
    b.pool.available = 0 ↔ n ≤ A.orders.length := by
  have hf := h.shape.free_size
  rw [h.size_eq hA] at hf
  omega

theorem nonEmpty_eq_zero (h : Rep n b q A) (s : Side) : (b.ladder s).nonEmpty = 0 ↔ A.side s = [] := by
  rw [(h.shape.side s).nonEmpty_eq_zero]
  constructor
  · intro hq
    refine List.eq_nil_iff_forall_not_mem.mpr fun r hr => ?_
    obtain ⟨x, hx, -⟩ := h.mem_side.mp hr
    rw [hq] at hx
    cases hx
  · intro hs p
    have hl := h.level s p
    rw [hs] at hl
    exact List.map_eq_nil_iff.mp hl.symm

/-- The front of the best level is the best order. -/
theorem best_eq (h : Rep n b q A) {s : Side} (hne : (b.ladder s).nonEmpty ≠ 0) :
    ∃ x level, (b.ladder s).level? (b.ladder s).best = some level ∧ level.front = some x ∧
      x ∈ q s (b.ladder s).best ∧ Spec.best s (A.side s) = some (b.order x).view := by
  obtain ⟨h₁, h₂⟩ := (h.shape.side s).best_of_ne hne
  obtain ⟨x, t, hq⟩ := List.exists_cons_of_ne_nil h₁
  have hfront : ((b.ladder s).levels (b.ladder s).best).front = some x := by
    rw [((h.shape.side s).level _ ((h.shape.side s).inBand h₁)).front_eq, hq]; rfl
  refine ⟨x, _, (h.shape.side s).level?_eq h₁, hfront, by rw [hq]; exact List.mem_cons_self, ?_⟩
  refine Spec.best_of_level (p := (b.ladder s).best) (fun r hr => h₂ _ fun e => ?_) ?_
  · obtain ⟨y, hy, -⟩ := h.mem_side.mp hr
    rw [e] at hy
    cases hy
  · rw [h.level, hq]; rfl

end Rep

/-- The limit of an order of this type. -/
def limitOf (type : OrderType) (price : ℕ) : Option ℕ := if type = .limit then some price else none

namespace Rep

variable {n : ℕ} {b b' : Orderbook} {q q' : Side → ℕ → List ℕ} {A : Book}

/-- `crosses` is whether the order would trade with the best order of the other side. -/
theorem crosses_iff (h : Rep n b q A) {side : Side} {type : OrderType} {price : ℕ} :
    b.crosses side type price = true ↔ ∃ r, Spec.best side.opposite (A.side side.opposite) = some r ∧
      Spec.allows side (limitOf type price) r.price = true := by
  unfold Orderbook.crosses
  dsimp only
  split
  · next hz =>
    rw [(h.nonEmpty_eq_zero _).mp hz]
    simp [Spec.best_eq_none.mpr]
  · next hne =>
    obtain ⟨x, -, -, -, hx, hbest⟩ := h.best_eq hne
    have hp : (b.order x).view.price = (b.ladder side.opposite).best := (h.shape.place hx).2
    simp only [hbest, Option.some.injEq, exists_eq_left', hp]
    cases type <;> simp [limitOf, Spec.allows]

/-! ## Changing the book -/

/-- Orders rewritten in place. -/
theorem update (h : Rep n b q A) (hs : Shape n b' q') (hn : b'.nextMatchNumber = b.nextMatchNumber)
    {f : Resting → Option Resting} (hf : ∀ r ∈ A.orders, ∀ r', f r = some r' → r'.price = r.price)
    (hq : ∀ s p, (q' s p).map (fun x => (b'.order x).view) =
      (q s p).filterMap fun x => f (b.order x).view) : Rep n b' q' (A.update f) where
  shape := hs
  level s p := by
    have hp : ∀ r ∈ A.side s, ∀ r', f r = some r' → (r'.price == p) = (r.price == p) := fun r hr r' e => by
      rw [hf r (Spec.Book.mem_orders.mpr ⟨s, hr⟩) r' e]
    rw [Spec.Book.side_update, List.filter_filterMap_comm hp, h.level, List.filterMap_map, hq]
    rfl
  num := h.num.trans hn.symm

/-- Rewriting the quantities of the order at slot `x`. -/
theorem setOrder_ok (h : Rep n b q A) {s : Side} {p x : ℕ} (hx : x ∈ q s p) {o : Order}
    (hid : o.id = (b.order x).id) (hprev : o.prev = (b.order x).prev) (hnext : o.next = (b.order x).next)
    (hside : o.side = (b.order x).side) (hprice : o.price = (b.order x).price)
    {f : Resting → Option Resting} (hf : ∀ r ∈ A.orders, ∀ r', f r = some r' → r'.price = r.price)
    (hfx : f (b.order x).view = some o.view)
    (hfy : ∀ r ∈ A.orders, r.id ≠ (b.order x).id → f r = some r) :
    Rep n (b.setArena (Function.update b.pool.arena x o)) q (A.update f) := by
  refine h.update (h.shape.setOrder_ok hid hprev hnext hside hprice) rfl hf fun s' p' => ?_
  rw [← List.filterMap_eq_map']
  refine List.filterMap_congr fun y hy => ?_
  rw [Orderbook.order_setArena]
  by_cases e : y = x
  · subst e
    rw [Function.update_self, hfx]
  · have hne : (b.order y).view.id ≠ (b.order x).id := fun e' => e (h.shape.id_inj hy hx e')
    rw [Function.update_of_ne e, hfy _ (Spec.Book.mem_orders.mpr ⟨s', h.view_mem hy⟩) hne]
    rfl

/-- `unlink` and `release` of a resting order remove it. -/
theorem unlink_release_ok (h : Rep n b q A) {s : Side} {p x : ℕ} (hx : x ∈ q s p) :
    ∃ b₁ q', b.unlink x = some b₁ ∧ Rep n (b₁.release x) q' (A.remove (b.order x).id) ∧ b₁.out = b.out := by
  obtain ⟨b₁, hun, hs, hv, hout, hnum⟩ := h.shape.unlink_release_ok hx
  refine ⟨b₁, setSlots q s p ((q s p).erase x), hun, ?_, hout⟩
  rw [Spec.Book.remove_eq_update]
  refine h.update hs hnum (fun r _ r' e => ?_) fun s' p' => ?_
  · split at e
    · cases e
    · rw [Option.some.inj e]
  simp only [hv]
  by_cases e : s' = s ∧ p' = p
  · obtain ⟨rfl, rfl⟩ := e
    rw [setSlots_self, (h.shape.nodup s' p').erase_eq_filter, ← List.filterMap_eq_map',
      ← List.filterMap_eq_filter, List.filterMap_filterMap]
    refine List.filterMap_congr fun y hy => ?_
    by_cases e : y = x
    · subst e; simp
    · have hne : (b.order y).id ≠ (b.order x).id := fun e' => e (h.shape.id_inj hy hx e')
      simp [e, hne, Option.guard]
  · rw [setSlots_of_ne _ _ e, ← List.filterMap_eq_map']
    refine List.filterMap_congr fun y hy => ?_
    have hne : (b.order y).id ≠ (b.order x).id := fun e' => by
      obtain rfl := h.shape.id_inj hy hx e'
      exact e (h.shape.unique hx hy)
    simp [hne]

/-- `rest` appends the order. -/
theorem rest_ok (h : Rep n b q A) {o : Order} (hfree : b.pool.available ≠ 0) (hp : InBand o.price)
    (hid : o.id ∉ A.ids) (hprev : o.prev = none) (hnext : o.next = none) (ctx : Context) (publishAdd : Bool) :
    ∃ b' q', b.rest ctx o publishAdd = some b' ∧ Rep n b' q' (A.append o.view) ∧
      b'.out = b.out.write ctx [] (if publishAdd then
        [.addOrder o.id (toOuchSide o.side) o.openQuantity bookSymbol (toItchPrice o.price)] else []) := by
  obtain ⟨x, b', hrest, hs, hvx, hvy, hout, hnum⟩ :=
    h.shape.rest_ok hfree hp (fun hm => hid (h.mem_orders_iff.mp hm)) hprev hnext ctx publishAdd
  refine ⟨b', setSlots q o.side o.price (q o.side o.price ++ [x]), hrest, ⟨hs, fun s p => ?_, ?_⟩, ?_⟩
  · have hold : (A.side s).filter (·.price == p) = (q s p).map fun y => (b'.order y).view := by
      rw [h.level]
      exact List.map_congr_left fun y hy => (hvy s p y hy).symm
    by_cases es : s = o.side
    · subst es
      rw [Spec.Book.append, Order.view_side, Spec.Book.side_setSide_self, List.filter_append, hold]
      by_cases ep : p = o.price
      · subst ep
        rw [setSlots_self, List.map_append, List.map_singleton, hvx]
        simp
      · have ep' : ¬ o.price = p := fun e => ep e.symm
        rw [setSlots_of_ne _ _ fun e => ep e.2]
        simp [ep']
    · rw [Spec.Book.append, Order.view_side, Spec.Book.side_setSide_of_ne _ _ es,
        setSlots_of_ne _ _ fun e => es e.1]
      exact hold
  · rw [hnum, ← h.num, Spec.Book.append, Spec.Book.setSide_nextMatchNumber]
  · rw [hout]
    cases publishAdd <;> rfl

/-! ## One trade -/

/-- The book of `match` after it has executed `k` shares of the order at slot `x`. -/
def afterTrade (b : Orderbook) (x k : ℕ) (out : Output) : Orderbook :=
  { b.setArena (Function.update b.pool.arena x { b.order x with
      openQuantity := (b.order x).openQuantity - k, executedQuantity := (b.order x).executedQuantity + k }) with
    nextMatchNumber := b.nextMatchNumber + 1
    out := out }

theorem afterTrade_ok (h : Rep n b q A) {s : Side} {p x : ℕ} (hx : x ∈ q s p) (k : ℕ) (out : Output) :
    Rep n (afterTrade b x k out) q
      ((A.update fun r => some (if r.id = (b.order x).id then r.trade k else r)).numbered
        (A.nextMatchNumber + 1)) := by
  have hr := h.setOrder_ok (o := { b.order x with
      openQuantity := (b.order x).openQuantity - k, executedQuantity := (b.order x).executedQuantity + k })
    (f := fun r => some (if r.id = (b.order x).id then r.trade k else r)) hx rfl rfl rfl rfl rfl
    (fun r _ r' e => ?_) ?_ fun r _ hne => ?_
  · exact ⟨hr.shape.congr rfl rfl rfl rfl, fun s p => by rw [Spec.Book.side_numbered]; exact hr.level s p,
      congrArg (· + 1) h.num⟩
  · obtain rfl := Option.some.inj e
    split <;> rfl
  · simp [Resting.trade, Order.view]
  · simp [hne]

theorem trade_partial_ok (h : Rep n b q A) (hA : A.WF) {s : Side} {p x : ℕ} (hx : x ∈ q s p) {k : ℕ}
    (hk : k < (b.order x).openQuantity) (out : Output) :
    Rep n (afterTrade b x k out) q (A.trade (b.order x).view k) := by
  have hr := h.afterTrade_ok hx k out
  rw [Spec.Book.trade_eq_update hA (Spec.Book.mem_orders.mpr ⟨s, h.view_mem hx⟩)]
  convert hr using 2
  refine Spec.Book.update_congr fun r _ => ?_
  by_cases e : r.id = (b.order x).id <;> simp [Spec.executeOne, e, hk]

theorem trade_filled_ok (h : Rep n b q A) (hA : A.WF) {s : Side} {p x : ℕ} (hx : x ∈ q s p) {k : ℕ}
    (hk : ¬ k < (b.order x).openQuantity) (out : Output) :
    ∃ b₁ q', (afterTrade b x k out).unlink x = some b₁ ∧
      Rep n (b₁.release x) q' (A.trade (b.order x).view k) ∧ b₁.out = out := by
  obtain ⟨b₁, q', hun, hr, hout⟩ := (h.afterTrade_ok hx k out).unlink_release_ok hx
  refine ⟨b₁, q', hun, ?_, hout⟩
  have hid : ((afterTrade b x k out).order x).id = (b.order x).id := by
    simp [afterTrade, Orderbook.order, Orderbook.setArena]
  rw [Spec.Book.trade_eq_update hA (Spec.Book.mem_orders.mpr ⟨s, h.view_mem hx⟩)]
  convert hr using 1
  rw [hid, Spec.Book.remove_eq_update, Spec.Book.update_numbered, Spec.Book.update_update]
  refine congrArg (Spec.Book.numbered · _) (Spec.Book.update_congr fun r _ => ?_)
  by_cases e : r.id = (b.order x).id <;> simp [Spec.executeOne, e, hk]

end Rep

end Exchange
