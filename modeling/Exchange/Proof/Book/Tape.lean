import Exchange.Proof.Book.Feed
import Exchange.Proof.Book.Trace
import Exchange.Spec.Tape
import Mathlib.Algebra.Order.BigOperators.Group.List
import Mathlib.Algebra.Order.Group.Nat

/-!
# What a request publishes, against its events

`process_cases` says once what a request can do: it brings an order to the book
(`Arrives`), or it does not (`Quiet`). From that: the executions that are published are
the EXECUTED events of the orders that rested (`Arrives.fills`), and an order is displayed
with the shares it came with less those it traded (`Arrives.showing`).
-/

namespace Exchange.Spec

variable {b b' : Book} {req : EngineRequest} {s : Step} {i : Incoming}

/-- The two are the same order, whatever is left of it. -/
structure Same (r r' : Resting) : Prop where
  id : r.id = r'.id
  side : r.side = r'.side
  price : r.price = r'.price

/-- A request that brings no order to the book. -/
structure Quiet (b : Book) (s : Step) : Prop where
  events : ∀ e ∈ s.events, e.type = .rejected ∨ e.type = .canceled
  itch : ∀ m ∈ s.itch, showing m = none ∧ itchFill m = none
  orders : ∀ r ∈ s.book.orders, ∃ r₀ ∈ b.orders, Same r₀ r

/-- The messages of an order that arrives on account of the request: a new order, or one
that replaces `o`. -/
inductive Publishes (b : Book) (req : EngineRequest) (i : Incoming) (b' : Book) : List ItchBody → Prop
  | new (ht : req.type = .new) (hi : i = newOrder req) : Publishes b req i b' (i.itch b')
  | deleted {o : Resting} (ht : req.type = .replace) (ho : o ∈ b.orders) (hid : o.id = req.orderId)
      (hi : i = replacement req o) : Publishes b req i b' (.orderDelete o.id :: i.itch b')
  | replaced {o : Resting} (ht : req.type = .replace) (ho : o ∈ b.orders) (hid : o.id = req.orderId)
      (hi : i = replacement req o) (hrest : i.comesToRest b' = true) (htrades : (i.trades b').1 = []) :
      Publishes b req i b' [.orderReplace o.id i.id i.quantity (toItchPrice i.price)]

/-- A request that brings order `i` to the book `b'`: `b` without an order it replaces. -/
structure Arrives (b : Book) (req : EngineRequest) (s : Step) (i : Incoming) (b' : Book) : Prop where
  wf : b'.WF
  orders : ∀ r ∈ b'.orders, r ∈ b.orders
  fresh : i.id ∉ b.ids
  ok : i.Ok b'
  id : introduces req = [i.id]
  events : ∃ first, s.events = first :: i.events b' ∧ Opens first ∧ first.orderId = i.id ∧
    first.quantity = i.quantity
  book : s.book = i.book b'
  itch : Publishes b req i b' s.itch

theorem same_refl (r : Resting) : Same r r := ⟨rfl, rfl, rfl⟩

theorem ignored_quiet : Quiet b { ignored b with events := flagFirst (ignored b).events } :=
  ⟨nofun, nofun, fun r hr => ⟨r, hr, same_refl r⟩⟩

theorem cancelAll_quiet (o : Resting) :
    Quiet b { cancelAll b o with events := flagFirst (cancelAll b o).events } where
  events e he := by
    rw [List.mem_singleton.mp he]
    exact .inr rfl
  itch m hm := by
    rw [List.mem_singleton.mp hm]
    exact ⟨rfl, rfl⟩
  orders r hr := ⟨r, (Book.mem_orders_remove.mp hr).1, same_refl r⟩

/-- What a request can do. -/
theorem process_cases (capacity : ℕ) (hb : b.WF) (hp : PriceOk req) :
    Quiet b (process capacity b req) ∨ ∃ i b', Arrives b req (process capacity b req) i b' := by
  unfold process handle
  cases ht : req.type with
  | new =>
    dsimp only [enter]
    split_ifs with hid hfull
    · exact .inl ignored_quiet
    · refine .inl ⟨fun e he => ?_, nofun, fun r hr => ⟨r, hr, same_refl r⟩⟩
      rw [List.mem_singleton.mp he]
      exact .inl rfl
    · refine .inr ⟨newOrder req, b, hb, fun _ hr => hr, hid, newOrder_ok ht hp hid, ?_,
        ⟨_, rfl, .inl rfl, rfl, rfl⟩, rfl, .new ht rfl⟩
      rw [introduces, ht]
      rfl
  | cancel =>
    dsimp only [cancel]
    cases hf : b.find? req.orderId with
    | none => exact .inl ignored_quiet
    | some o =>
      dsimp only
      split_ifs with hign hz
      · exact .inl ignored_quiet
      · exact .inl (cancelAll_quiet o)
      · refine .inl ⟨fun e he => ?_, fun m hm => ?_, fun r hr => ?_⟩
        · rw [List.mem_singleton.mp he]
          exact .inr rfl
        · rw [List.mem_singleton.mp hm]
          exact ⟨rfl, rfl⟩
        · rw [Book.reduce_eq_update, Book.orders_update] at hr
          obtain ⟨r₀, hr₀, e⟩ := List.mem_filterMap.mp hr
          obtain rfl := Option.some.inj e
          refine ⟨r₀, hr₀, ?_⟩
          split <;> exact ⟨rfl, rfl, rfl⟩
  | replace =>
    dsimp only [replace]
    cases hf : b.find? req.orderId with
    | none => exact .inl ignored_quiet
    | some o =>
      obtain ⟨ho, hoid⟩ := find?_mem hf
      dsimp only
      split
      · exact .inl ignored_quiet
      next hign =>
      split
      · exact .inl (cancelAll_quiet o)
      next hz =>
      have hid : req.newOrderId ∉ b.ids := fun hid => hign (.inr hid)
      refine .inr ⟨replacement req o, b.remove o.id, hb.remove o.id, fun r hr => (Book.mem_orders_remove.mp hr).1,
        hid, replacement_ok ht hp hid hz, ?_, ⟨_, rfl, .inr rfl, rfl, rfl⟩, rfl, ?_⟩
      · rw [introduces, ht]
        rfl
      · dsimp only
        split
        · next hc =>
          refine .replaced ht ho hoid rfl ?_ hc.2
          have hrem : (replacement req o).remaining (b.remove o.id) = (replacement req o).quantity := by
            rw [Incoming.remaining, hc.2]
            rfl
          simpa [Incoming.comesToRest, hc.1, hrem] using hz
        · exact .deleted ht ho hoid rfl

/-! ## Executions -/

/-- An EXECUTED event of an order that rested. -/
def OfResting (e : Event) : Prop := e.type = .executed ∧ e.reason = .addedLiquidity

instance : DecidablePred OfResting := fun e =>
  inferInstanceAs (Decidable (e.type = .executed ∧ e.reason = .addedLiquidity))

/-- The execution an event reports. -/
def fillOf (e : Event) : ItchFill := ⟨e.orderId, e.quantity, e.matchNumber⟩

/-- The shares of order `id` that events execute. -/
def executedOf (id : ℕ) (events : List Event) : ℕ :=
  (events.map fun e => if e.type = .executed ∧ e.orderId = id then e.quantity else 0).sum

theorem itchFill_tradeItch (id clientId k : ℕ) (fs : List (Resting × ℕ)) :
    (tradeItch k fs).filterMap itchFill = ((tradeEvents id clientId k fs).filter OfResting).map fillOf := by
  induction fs generalizing k with
  | nil => rfl
  | cons f fs ih =>
    obtain ⟨r, n⟩ := f
    rw [tradeItch, tradeEvents, List.filter_cons_of_neg (by simp [OfResting]),
      List.filter_cons_of_pos (by simp [OfResting]), List.map_cons, ← ih (k + 1)]
    rfl

theorem showing_tradeItch {k : ℕ} {fs : List (Resting × ℕ)} {m : ItchBody} (hm : m ∈ tradeItch k fs) :
    showing m = none := by
  induction fs generalizing k with
  | nil => cases hm
  | cons f fs ih =>
    rcases List.mem_cons.mp hm with rfl | hm
    · rfl
    · exact ih hm

theorem mem_tradeEvents {id clientId k : ℕ} {fs : List (Resting × ℕ)} {e : Event}
    (he : e ∈ tradeEvents id clientId k fs) : ∃ f ∈ fs, e.quantity = f.2 ∧ e.price = f.1.price ∧
      (e.orderId = id ∧ e.reason = .removedLiquidity ∨ e.orderId = f.1.id ∧ e.reason = .addedLiquidity) := by
  induction fs generalizing k with
  | nil => cases he
  | cons f fs ih =>
    rw [tradeEvents, List.mem_cons, List.mem_cons] at he
    rcases he with rfl | rfl | he
    · exact ⟨f, List.mem_cons_self, rfl, rfl, .inl ⟨rfl, rfl⟩⟩
    · exact ⟨f, List.mem_cons_self, rfl, rfl, .inr ⟨rfl, rfl⟩⟩
    · obtain ⟨f', hf', h⟩ := ih he
      exact ⟨f', List.mem_cons_of_mem _ hf', h⟩

theorem executedOf_tradeEvents {id clientId k : ℕ} {fs : List (Resting × ℕ)} (hid : ∀ f ∈ fs, f.1.id ≠ id) :
    executedOf id (tradeEvents id clientId k fs) = filled fs := by
  induction fs generalizing k with
  | nil => rfl
  | cons f fs ih =>
    have hne := hid f List.mem_cons_self
    have hrest := ih (k := k + 1) fun f' hf' => hid f' (List.mem_cons_of_mem _ hf')
    simp only [executedOf, filled] at hrest ⊢
    rw [tradeEvents, List.map_cons, List.map_cons, List.sum_cons, List.sum_cons, hrest, if_pos ⟨rfl, rfl⟩,
      if_neg fun h => hne h.2, Nat.zero_add, List.map_cons, List.sum_cons]

theorem executedOf_append (id : ℕ) (es es' : List Event) :
    executedOf id (es ++ es') = executedOf id es + executedOf id es' := by
  simp only [executedOf, List.map_append, List.sum_append]

theorem executedOf_eq_zero {id : ℕ} {es : List Event} (h : ∀ e ∈ es, e.type ≠ .executed) : executedOf id es = 0 := by
  rw [executedOf, List.sum_eq_zero_iff_forall_eq_nat]
  intro n hn
  obtain ⟨e, he, rfl⟩ := List.mem_map.mp hn
  exact if_neg fun h' => h e he h'.1

namespace Incoming

/-- The cancellation of what does not rest. -/
theorem events_eq (i : Incoming) (b : Book) : ∃ rest, i.events b =
    tradeEvents i.id i.clientId b.nextMatchNumber (i.trades b).1 ++ rest ∧ ∀ e ∈ rest, e.type = .canceled := by
  refine ⟨_, rfl, fun e he => ?_⟩
  split at he
  · rw [List.mem_singleton.mp he]
  · cases he

theorem itchFill_add (i : Incoming) (b : Book) : (i.add b).filterMap itchFill = [] := by
  unfold add
  split <;> rfl

end Incoming

theorem not_executed_of_opens {e : Event} (h : Opens e) : e.type ≠ .executed := by
  rcases h with h | h <;> rw [h] <;> decide

namespace Arrives

theorem itchFill_eq (h : Arrives b req s i b') :
    s.itch.filterMap itchFill = (tradeItch b'.nextMatchNumber (i.trades b').1).filterMap itchFill := by
  have hitch : (i.itch b').filterMap itchFill = (tradeItch b'.nextMatchNumber (i.trades b').1).filterMap itchFill := by
    rw [Incoming.itch, List.filterMap_append, i.itchFill_add, List.append_nil]
  have hp := h.itch
  generalize s.itch = itch at hp
  cases hp with
  | new => exact hitch
  | deleted => exact hitch
  | replaced _ _ _ _ _ ht =>
    rw [ht]
    rfl

/-- The executions published are the EXECUTED events of the orders that rested. -/
theorem fills (h : Arrives b req s i b') : s.itch.filterMap itchFill = (s.events.filter OfResting).map fillOf := by
  obtain ⟨first, he, ho, -⟩ := h.events
  obtain ⟨rest, hevents, hrest⟩ := i.events_eq b'
  have hnone : rest.filter OfResting = [] := by
    refine List.filter_eq_nil_iff.mpr fun e he => ?_
    simp [OfResting, hrest e he]
  rw [h.itchFill_eq, he, List.filter_cons_of_neg (by simp [OfResting, not_executed_of_opens ho]), hevents,
    List.filter_append, hnone, List.append_nil]
  exact itchFill_tradeItch ..

theorem mem_trades (h : Arrives b req s i b') {f : Resting × ℕ} (hf : f ∈ (i.trades b').1) :
    f.2 < 2 ^ 32 ∧ ∃ r ∈ b'.orders, r.id = f.1.id ∧ r.price = f.1.price := by
  have htr := i.trades_ok h.wf
  obtain ⟨-, -, r, hr, n, hrt, -⟩ := htr.trade f hf
  have hle : f.2 ≤ filled (i.trades b').1 := List.le_sum_of_mem (List.mem_map_of_mem hf)
  have hfilled := htr.filled_le
  have hlt := h.ok.lt
  refine ⟨by omega, r, Book.mem_orders.mpr ⟨_, hr⟩, ?_⟩
  rw [hrt]
  exact ⟨rfl, rfl⟩

/-- The EXECUTED events are those of the trades. -/
theorem executed_mem (h : Arrives b req s i b') {e : Event} (he : e ∈ s.events) (ht : e.type = .executed) :
    e ∈ tradeEvents i.id i.clientId b'.nextMatchNumber (i.trades b').1 := by
  obtain ⟨first, hs, ho, -⟩ := h.events
  obtain ⟨rest, hevents, hrest⟩ := i.events_eq b'
  rw [hs, hevents, List.mem_cons, List.mem_append] at he
  rcases he with rfl | he | he
  · exact absurd ht (not_executed_of_opens ho)
  · exact he
  · cases (hrest e he).symm.trans ht

theorem executed_lt (h : Arrives b req s i b') {e : Event} (he : e ∈ s.events) (ht : e.type = .executed) :
    e.quantity < 2 ^ 32 := by
  obtain ⟨f, hf, hq, -⟩ := mem_tradeEvents (h.executed_mem he ht)
  rw [hq]
  exact (h.mem_trades hf).1

/-- An execution of an order that rested is at its price. -/
theorem ofResting (h : Arrives b req s i b') {e : Event} (he : e ∈ s.events) (hr : OfResting e) :
    ∃ r ∈ b.orders, r.id = e.orderId ∧ r.price = e.price := by
  obtain ⟨f, hf, -, hp, hc⟩ := mem_tradeEvents (h.executed_mem he hr.1)
  obtain ⟨-, r, hr', hid, hprice⟩ := h.mem_trades hf
  rcases hc with ⟨-, hreason⟩ | ⟨hoid, -⟩
  · cases hreason.symm.trans hr.2
  · exact ⟨r, h.orders r hr', hid.trans hoid.symm, hprice.trans hp.symm⟩

/-- What the order itself executes. -/
theorem executedOf_eq (h : Arrives b req s i b') : executedOf i.id s.events = filled (i.trades b').1 := by
  obtain ⟨first, hs, ho, -⟩ := h.events
  obtain ⟨rest, hevents, hrest⟩ := i.events_eq b'
  have hne : ∀ f ∈ (i.trades b').1, f.1.id ≠ i.id := fun f hf e => by
    obtain ⟨-, r, hr, hid, -⟩ := h.mem_trades hf
    exact h.ok.fresh (Book.mem_ids.mpr ⟨r, hr, hid.trans e⟩)
  have hfirst : executedOf i.id [first] = 0 := executedOf_eq_zero fun e he => by
    rw [List.mem_singleton.mp he]
    exact not_executed_of_opens ho
  have hzero : executedOf i.id rest = 0 := executedOf_eq_zero fun e he => by
    rw [hrest e he]
    decide
  rw [hs, hevents, ← List.singleton_append, executedOf_append, executedOf_append, executedOf_tradeEvents hne, hfirst,
    hzero]
  omega

/-- The messages that display the order. -/
theorem display_cases (h : Arrives b req s i b') {m : ItchBody} (hm : m ∈ s.itch) {d : Showing}
    (hd : Spec.showing m = some d) : i.comesToRest b' = true ∧
      (m = .addOrder i.id (toOuchSide i.side) (i.remaining b') bookSymbol (toItchPrice i.price) ∨
        (i.trades b').1 = [] ∧ ∃ o ∈ b.orders, i.side = o.side ∧
          m = .orderReplace o.id i.id i.quantity (toItchPrice i.price)) := by
  have hadd : m ∈ i.itch b' → i.comesToRest b' = true ∧
      m = .addOrder i.id (toOuchSide i.side) (i.remaining b') bookSymbol (toItchPrice i.price) := by
    intro hm
    rcases List.mem_append.mp hm with hm | hm
    · rw [showing_tradeItch hm] at hd
      cases hd
    · unfold Incoming.add at hm
      split at hm
      · next hc => exact ⟨hc, List.mem_singleton.mp hm⟩
      · cases hm
  have hp := h.itch
  generalize s.itch = itch at hp hm
  cases hp with
  | new =>
    obtain ⟨hc, e⟩ := hadd hm
    exact ⟨hc, .inl e⟩
  | deleted =>
    rcases List.mem_cons.mp hm with rfl | hm
    · cases hd
    · obtain ⟨hc, e⟩ := hadd hm
      exact ⟨hc, .inl e⟩
  | @replaced o _ ho _ hi hc ht => exact ⟨hc, .inr ⟨ht, o, ho, by rw [hi]; rfl, List.mem_singleton.mp hm⟩⟩

/-- An order is displayed with what it did not trade. -/
theorem showing (h : Arrives b req s i b') {m : ItchBody} (hm : m ∈ s.itch) {d : Showing} (hd : Spec.showing m = some d) :
    d.ref = i.id ∧ d.price = toItchPrice i.price ∧ d.shares + executedOf i.id s.events = i.quantity := by
  rw [h.executedOf_eq]
  obtain ⟨-, rfl | ⟨ht, o, -, -, rfl⟩⟩ := h.display_cases hm hd
  · obtain rfl := Option.some.inj hd
    refine ⟨rfl, rfl, ?_⟩
    rw [Nat.add_comm]
    exact i.filled_add_remaining h.wf
  · obtain rfl := Option.some.inj hd
    exact ⟨rfl, rfl, by rw [ht]; rfl⟩

/-- The orders that rest afterwards: those that rested, and the one that arrived. -/
theorem orders_cases (h : Arrives b req s i b') {r : Resting} (hr : r ∈ s.book.orders) :
    (∃ r₀ ∈ b.orders, Same r₀ r) ∨
      i.comesToRest b' = true ∧ r.id = i.id ∧ r.side = i.side ∧ r.price = i.price := by
  have htraded : ∀ r ∈ (i.traded b').orders, ∃ r₀ ∈ b.orders, Same r₀ r := by
    refine (i.trades_induct (P := fun _ b'' => ∀ r ∈ b''.orders, ∃ r₀ ∈ b.orders, Same r₀ r) h.wf
      (fun r hr => ⟨r, h.orders r hr, same_refl r⟩) ?_).1
    intro fs b'' r n hP hb'' hr _ _ _ r' hr'
    rcases (Book.mem_orders_trade hb'' (Book.mem_orders.mpr ⟨_, hr⟩)).mp hr' with ⟨hr', -⟩ | ⟨-, rfl⟩
    · exact hP r' hr'
    · obtain ⟨r₀, hr₀, hs⟩ := hP r (Book.mem_orders.mpr ⟨_, hr⟩)
      exact ⟨r₀, hr₀, hs.id, hs.side, hs.price⟩
  rw [h.book, Incoming.book_eq] at hr
  split at hr
  · next hc =>
    rcases Book.mem_orders_append.mp hr with hr | rfl
    · exact .inl (htraded r hr)
    · exact .inr ⟨hc, rfl, rfl, rfl⟩
  · exact .inl (htraded r hr)

end Arrives

/-! ## What was displayed -/

theorem prices_concat (itch : List ItchBody) (m : ItchBody) :
    prices (itch ++ [m]) = match showing m with
      | some s => Function.update (prices itch) s.ref (some s.price)
      | none => prices itch := by
  rw [prices, List.foldl_append]
  rfl

theorem sides_concat (itch : List ItchBody) (m : ItchBody) :
    sides (itch ++ [m]) = match m with
      | .addOrder ref side _ _ _ => Function.update (sides itch) ref (some side)
      | .orderReplace orig ref _ _ => Function.update (sides itch) ref (sides itch orig)
      | _ => sides itch := by
  rw [sides, List.foldl_append]
  rfl

/-- Messages that display another order. -/
theorem shown_append_of_ne (id : ℕ) (itch : List ItchBody) {l : List ItchBody}
    (h : ∀ m ∈ l, ∀ d, showing m = some d → d.ref ≠ id) :
    prices (itch ++ l) id = prices itch id ∧ sides (itch ++ l) id = sides itch id := by
  induction l using List.reverseRecOn with
  | nil => rw [List.append_nil]; exact ⟨rfl, rfl⟩
  | append_singleton l m ih =>
    obtain ⟨hp, hs⟩ := ih fun m hm => h m (List.mem_append_left _ hm)
    have hm := h m (List.mem_append_right _ (List.mem_singleton_self m))
    rw [← List.append_assoc, prices_concat, sides_concat, ← hp, ← hs]
    cases m with
    | addOrder ref =>
      have hne : id ≠ ref := (hm _ rfl).symm
      exact ⟨Function.update_of_ne hne _ _, Function.update_of_ne hne _ _⟩
    | orderReplace _ ref =>
      have hne : id ≠ ref := (hm _ rfl).symm
      exact ⟨Function.update_of_ne hne _ _, Function.update_of_ne hne _ _⟩
    | _ => exact ⟨rfl, rfl⟩

/-- Every resting order was displayed. -/
def AllShown (b : Book) (itch : List ItchBody) : Prop :=
  ∀ r ∈ b.orders, (prices itch r.id).isSome ∧ (sides itch r.id).isSome

theorem Quiet.allShown (h : Quiet b s) {itch : List ItchBody} (ha : AllShown b itch) :
    AllShown s.book (itch ++ s.itch) := by
  intro r hr
  obtain ⟨r₀, hr₀, hs⟩ := h.orders r hr
  obtain ⟨hp, hsd⟩ := shown_append_of_ne r.id itch fun m hm d hd => by
    rw [(h.itch m hm).1] at hd
    cases hd
  rw [hp, hsd, ← hs.id]
  exact ha r₀ hr₀

/-- The order that arrived is displayed, and on a side. -/
theorem Arrives.shown (h : Arrives b req s i b') {itch : List ItchBody} (ha : AllShown b itch)
    (hc : i.comesToRest b' = true) :
    (prices (itch ++ s.itch) i.id).isSome ∧ (sides (itch ++ s.itch) i.id).isSome := by
  have hadd : ∀ l, (prices (itch ++ (l ++ i.add b')) i.id).isSome ∧ (sides (itch ++ (l ++ i.add b')) i.id).isSome := by
    intro l
    rw [Incoming.add, if_pos hc, ← List.append_assoc, prices_concat, sides_concat]
    simp [Spec.showing]
  have hp := h.itch
  generalize s.itch = itch' at hp
  cases hp with
  | new => exact hadd _
  | @deleted o => exact hadd (.orderDelete o.id :: tradeItch b'.nextMatchNumber (i.trades b').1)
  | replaced _ ho =>
    rw [prices_concat, sides_concat]
    simpa [Spec.showing] using (ha _ ho).2

theorem Arrives.allShown (h : Arrives b req s i b') {itch : List ItchBody} (ha : AllShown b itch) :
    AllShown s.book (itch ++ s.itch) := by
  intro r hr
  rcases h.orders_cases hr with ⟨r₀, hr₀, hs⟩ | ⟨hc, hid, -⟩
  · have hne : r.id ≠ i.id := fun e => h.fresh (Book.mem_ids.mpr ⟨r₀, hr₀, hs.id.trans e⟩)
    obtain ⟨hp, hsd⟩ := shown_append_of_ne r.id itch fun m hm d hd => by
      rw [(h.showing hm hd).1]
      exact hne.symm
    rw [hp, hsd, ← hs.id]
    exact ha r₀ hr₀
  · rw [hid]
    exact h.shown ha hc

theorem Quiet.not_ofResting (h : Quiet b s) : ∀ e ∈ s.events, ¬ OfResting e := by
  rintro e he ⟨ht, -⟩
  rcases h.events e he with h | h <;> cases h.symm.trans ht

theorem Quiet.fills (h : Quiet b s) : s.itch.filterMap itchFill = (s.events.filter OfResting).map fillOf := by
  have hitch : s.itch.filterMap itchFill = [] := List.filterMap_eq_nil_iff.mpr fun m hm => (h.itch m hm).2
  have hevents : s.events.filter OfResting = [] :=
    List.filter_eq_nil_iff.mpr fun e he => by simpa using h.not_ofResting e he
  rw [hitch, hevents]
  rfl

end Exchange.Spec
