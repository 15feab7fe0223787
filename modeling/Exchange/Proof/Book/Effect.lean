import Exchange.Proof.Book.Trace
import Exchange.Spec.Effect

/-!
# What a request changes

`process_effect`: the orders that rested before a request are still there, in their order,
except that they have traded what its events say; only the order that the request names
may be changed in another way, and only an order with a new id comes to it.
`handle_answers`: a request that is handled has events, the first of them its client's.
-/

namespace Exchange.Spec

variable {b : Book} {req : EngineRequest}

/-! ## Executed shares -/

theorem sharesAdded_cons (id : ℕ) (e : Event) (es : List Event) : sharesAdded id (e :: es) =
    (if e.orderId = id ∧ e.type = .executed ∧ e.reason = .addedLiquidity then e.quantity else 0) +
      sharesAdded id es := by
  rw [sharesAdded, List.map_cons, List.sum_cons]
  rfl

theorem sharesAdded_of_ne {e : Event} (h : e.type ≠ .executed) (id : ℕ) (es : List Event) :
    sharesAdded id (e :: es) = sharesAdded id es := by
  rw [sharesAdded_cons, if_neg (fun hc => h hc.2.1), Nat.zero_add]

/-- Which event answers a request does not matter. -/
theorem sharesAdded_flagFirst (id : ℕ) (es : List Event) : sharesAdded id (flagFirst es) = sharesAdded id es := by
  cases es with
  | nil => rfl
  | cons e es => rfl

theorem sharesAdded_tradeEvents (id clientId k : ℕ) (fs : List (Resting × ℕ)) (id' : ℕ) :
    sharesAdded id' (tradeEvents id clientId k fs) = sharesOf id' fs := by
  induction fs generalizing k with
  | nil => rfl
  | cons f fs ih =>
    rw [tradeEvents, sharesAdded_cons, if_neg (by simp), sharesAdded_cons, ih]
    simp [sharesOf]

/-- The events of an incoming order say what each order on the other side traded. -/
theorem Incoming.sharesAdded_events (i : Incoming) (b : Book) (id : ℕ) :
    sharesAdded id (i.events b) = sharesOf id (i.trades b).1 := by
  have happ : ∀ es es' : List Event, sharesAdded id (es ++ es') = sharesAdded id es + sharesAdded id es' :=
    fun es es' => by rw [sharesAdded, List.map_append, List.sum_append]; rfl
  rw [Incoming.events, happ, sharesAdded_tradeEvents]
  split
  · rw [sharesAdded_of_ne (by simp)]
    rfl
  · rfl

theorem settled_eq_settle {events : List Event} {fs : List (Resting × ℕ)}
    (h : ∀ id, sharesAdded id events = sharesOf id fs) (r : Resting) : settled events r = settle fs r := by
  rw [settled, settle, h]

theorem settled_of_eq_zero {events : List Event} {r : Resting} (h : sharesAdded r.id events = 0)
    (ho : 0 < r.openQuantity) : settled events r = some r := by
  rw [settled, h, if_pos ho, Resting.trade_zero]

theorem settled_eq_some {events : List Event} {r r' : Resting} (h : settled events r = some r') :
    r' = r.trade (sharesAdded r.id events) := by
  unfold settled at h
  split at h
  · exact (Option.some.inj h).symm
  · cases h

/-! ## One request -/

/-- The orders that rest are kept in their order, each as `f` leaves it, and `fresh` comes
after them. The orders that are not named have traded what the events say. -/
structure Effect (b : Book) (req : EngineRequest) (step : Step) (f : Resting → Option Resting)
    (fresh : Side → List Resting) : Prop where
  side : ∀ s, step.book.side s = (b.side s).filterMap f ++ fresh s
  fresh : ∀ s, ∀ r ∈ fresh s, r.id ∉ b.ids
  others : ∀ r ∈ b.orders, ¬ Named req r → sharesAdded r.id step.events ≤ r.openQuantity ∧
    f r = settled step.events r
  named : ∀ r ∈ b.orders, Named req r → ∀ r', f r = some r' → Named req r'

/-- The book is left as it was. -/
theorem effect_unchanged (h : b.WF) {step : Step} (hbook : step.book = b)
    (hshares : ∀ id, sharesAdded id step.events = 0) : Effect b req step some fun _ => [] where
  side s := by rw [hbook, List.filterMap_some, List.append_nil]
  fresh _ _ hr := by cases hr
  others r hr _ := by
    rw [settled_of_eq_zero (hshares r.id) (h.open_pos r hr), hshares]
    exact ⟨Nat.zero_le _, rfl⟩
  named _ _ hn _ e := Option.some.inj e ▸ hn

/-- Only the named order is changed. -/
theorem effect_named (h : b.WF) {step : Step} {o : Resting} (ho : o ∈ b.orders) (hn : Named req o)
    {g : Resting → Option Resting} (hbook : step.book = b.update g) (hg : ∀ r, r.id ≠ o.id → g r = some r)
    (hnamed : ∀ r', g o = some r' → Named req r') (hshares : ∀ id, sharesAdded id step.events = 0) :
    Effect b req step g fun _ => [] where
  side s := by rw [hbook, Book.side_update, List.append_nil]
  fresh _ _ hr := by cases hr
  others r hr hne := by
    have hid : r.id ≠ o.id := fun e => hne (h.eq_of_id hr ho e ▸ hn)
    rw [settled_of_eq_zero (hshares r.id) (h.open_pos r hr), hshares]
    exact ⟨Nat.zero_le _, hg r hid⟩
  named r hr hn' := by
    obtain rfl := h.eq_of_id hr ho (hn'.1.trans hn.1.symm)
    exact hnamed

/-- What an incoming order leaves of the book. -/
theorem Incoming.side_book (i : Incoming) (h : b.WF) : ∃ fresh : Side → List Resting,
    (∀ s, (i.book b).side s = (b.side s).filterMap (settle (i.trades b).1) ++ fresh s) ∧
      ∀ s, ∀ r ∈ fresh s, r.id = i.id := by
  have hside : ∀ s, (i.traded b).side s = (b.side s).filterMap (settle (i.trades b).1) := fun s => by
    rw [i.traded_eq_update h, Book.side_numbered, Book.side_update]
  rw [i.book_eq]
  split
  · refine ⟨fun s => if s = i.side then [i.resting b] else [], fun s => ?_, fun s r hr => ?_⟩
    · dsimp only
      rw [← hside]
      by_cases hs : s = i.side
      · rw [if_pos hs, hs]
        exact Book.side_setSide_self _ _ _
      · rw [if_neg hs, List.append_nil]
        exact Book.side_setSide_of_ne _ _ hs
    · dsimp only at hr
      split at hr
      · rw [List.mem_singleton.mp hr]
        rfl
      · cases hr
  · exact ⟨fun _ => [], fun s => by rw [hside, List.append_nil], fun _ _ hr => by cases hr⟩

theorem Incoming.shares_le (i : Incoming) (h : b.WF) {r : Resting} (hr : r ∈ b.orders) :
    sharesOf r.id (i.trades b).1 ≤ r.openQuantity := by
  by_cases hmem : r ∈ b.side i.side.opposite
  · exact (i.trades_ok h).shares_le r hmem
  · rw [i.sharesOf_trades h fun r' hr' e => hmem ?_]
    · exact Nat.zero_le _
    · rwa [h.eq_of_id hr (Book.mem_orders.mpr ⟨_, hr'⟩) e.symm]

theorem enter_effect (capacity : ℕ) (h : b.WF) : ∃ f fresh, Effect b req (enter capacity b req) f fresh := by
  unfold enter
  dsimp only
  split_ifs with hid hfull
  · exact ⟨_, _, effect_unchanged h rfl fun _ => rfl⟩
  · exact ⟨_, _, effect_unchanged h rfl fun id => sharesAdded_of_ne (by simp) id []⟩
  · obtain ⟨fresh, hside, hfresh⟩ := (newOrder req).side_book h
    have hshares : ∀ (e : Event), e.type = .accepted → ∀ id,
        sharesAdded id (e :: (newOrder req).events b) = sharesOf id ((newOrder req).trades b).1 := fun e he id => by
      rw [sharesAdded_of_ne (by simp [he]), Incoming.sharesAdded_events]
    have hnamed : ∀ r ∈ b.orders, ¬ Named req r := fun r hr hn => hid (Book.mem_ids.mpr ⟨r, hr, hn.1⟩)
    refine ⟨_, fresh, hside, fun s r hr hmem => hid ?_, fun r hr _ => ⟨?_, ?_⟩, fun r hr hn => absurd hn (hnamed r hr)⟩
    · rwa [hfresh s r hr] at hmem
    · rw [hshares _ rfl]
      exact (newOrder req).shares_le h hr
    · exact (settled_eq_settle (hshares _ rfl) r).symm

theorem cancelAll_effect (h : b.WF) {o : Resting} (ho : o ∈ b.orders) (hn : Named req o) :
    ∃ f fresh, Effect b req (cancelAll b o) f fresh := by
  refine ⟨_, _, effect_named h ho hn (b.remove_eq_update o.id) (fun r hr => if_neg hr) (fun r' e => ?_)
    fun id => sharesAdded_of_ne (by simp) id []⟩
  rw [if_pos rfl] at e
  cases e

theorem cancel_effect (h : b.WF) : ∃ f fresh, Effect b req (cancel b req) f fresh := by
  unfold cancel
  cases hf : b.find? req.orderId with
  | none => exact ⟨_, _, effect_unchanged h rfl fun _ => rfl⟩
  | some o =>
    obtain ⟨ho, hid⟩ := find?_mem hf
    dsimp only
    split_ifs with hign hz
    · exact ⟨_, _, effect_unchanged h rfl fun _ => rfl⟩
    · exact cancelAll_effect h ho ⟨hid, not_not.mp fun e => hign (.inl e)⟩
    · have hn : Named req o := ⟨hid, not_not.mp fun e => hign (.inl e)⟩
      refine ⟨_, _, effect_named h ho hn (b.reduce_eq_update o.id _) (fun r hr => by rw [if_neg hr]) (fun r' e => ?_)
        fun id => sharesAdded_of_ne (by simp) id []⟩
      rw [if_pos rfl] at e
      obtain rfl := Option.some.inj e
      exact hn

theorem replace_effect (h : b.WF) : ∃ f fresh, Effect b req (replace b req) f fresh := by
  unfold replace
  cases hf : b.find? req.orderId with
  | none => exact ⟨_, _, effect_unchanged h rfl fun _ => rfl⟩
  | some o =>
    obtain ⟨ho, hid⟩ := find?_mem hf
    dsimp only
    split
    · exact ⟨_, _, effect_unchanged h rfl fun _ => rfl⟩
    next hign =>
    have hn : Named req o := ⟨hid, not_not.mp fun e => hign (.inl e)⟩
    split
    · exact cancelAll_effect h ho hn
    -- the order is taken out, and its replacement trades with the others
    set i := replacement req o
    obtain ⟨fresh, hside, hfresh⟩ := i.side_book (h.remove o.id)
    have hshares : ∀ (e : Event), e.type = .replaced → ∀ id,
        sharesAdded id (e :: i.events (b.remove o.id)) = sharesOf id (i.trades (b.remove o.id)).1 := fun e he id => by
      rw [sharesAdded_of_ne (by simp [he]), Incoming.sharesAdded_events]
    have hother : ∀ r ∈ b.orders, ¬ Named req r → r.id ≠ o.id := fun r hr hne e => hne (h.eq_of_id hr ho e ▸ hn)
    refine ⟨fun r => (if r.id = o.id then none else some r).bind (settle (i.trades (b.remove o.id)).1), fresh,
      fun s => ?_, fun s r hr hmem => hign (.inr ?_), fun r hr hne => ⟨?_, ?_⟩, fun r hr hnr r' e => ?_⟩
    · rw [← List.filterMap_filterMap, ← Book.side_update, ← Book.remove_eq_update]
      exact hside s
    · rwa [hfresh s r hr] at hmem
    · rw [hshares _ rfl]
      exact i.shares_le (h.remove o.id) (Book.mem_orders_remove.mpr ⟨hr, hother r hr hne⟩)
    · rw [if_neg (hother r hr hne)]
      exact (settled_eq_settle (hshares _ rfl) r).symm
    · rw [if_pos (hnr.1.trans hn.1.symm)] at e
      cases e

/-- Every request changes only what it names and what it trades with. -/
theorem process_effect (capacity : ℕ) (h : b.WF) (req : EngineRequest) :
    ∃ f fresh, Effect b req (process capacity b req) f fresh := by
  have hhandle : ∃ f fresh, Effect b req (handle capacity b req) f fresh := by
    unfold handle
    cases req.type with
    | new => exact enter_effect capacity h
    | cancel => exact cancel_effect h
    | replace => exact replace_effect h
  obtain ⟨f, fresh, he⟩ := hhandle
  refine ⟨f, fresh, he.side, he.fresh, fun r hr hn => ?_, he.named⟩
  have hothers := he.others r hr hn
  rw [settled] at hothers
  show sharesAdded r.id (flagFirst _) ≤ _ ∧ f r = settled (flagFirst _) r
  rwa [settled, sharesAdded_flagFirst]

namespace Effect

variable {step : Step} {f : Resting → Option Resting} {fresh : Side → List Resting}

/-- An order that is left keeps its id and its owner. -/
theorem of_eq_some (he : Effect b req step f fresh) {r r' : Resting} (hr : r ∈ b.orders) (e : f r = some r') :
    r'.id = r.id ∧ (Named req r' ↔ Named req r) := by
  by_cases hn : Named req r
  · have hn' := he.named r hr hn r' e
    exact ⟨hn'.1.trans hn.1.symm, iff_of_true hn' hn⟩
  · rw [(he.others r hr hn).2] at e
    rw [settled_eq_some e]
    exact ⟨rfl, Iff.rfl⟩

/-- An order that is not named rests on as it has traded. -/
theorem find?_eq (he : Effect b req step f fresh) (h : b.WF) (h' : step.book.WF) {r : Resting} (hr : r ∈ b.orders)
    (hn : ¬ Named req r) : step.book.find? r.id = settled step.events r := by
  obtain ⟨s, hs⟩ := Book.mem_orders.mp hr
  have hf := (he.others r hr hn).2
  cases hsettled : settled step.events r with
  | some r' =>
    rw [hsettled] at hf
    have hr' : r' ∈ step.book.orders := by
      refine Book.mem_orders.mpr ⟨s, ?_⟩
      rw [he.side]
      exact List.mem_append_left _ (List.mem_filterMap.mpr ⟨r, hs, hf⟩)
    rw [← (he.of_eq_some hr hf).1]
    exact h'.find?_eq_some hr'
  | none =>
    rw [hsettled] at hf
    refine List.find?_eq_none.mpr fun r' hr' hid => ?_
    have hid : r'.id = r.id := by simpa using hid
    obtain ⟨s', hs'⟩ := Book.mem_orders.mp hr'
    rw [he.side] at hs'
    rcases List.mem_append.mp hs' with hs' | hs'
    · obtain ⟨r₀, hr₀, e⟩ := List.mem_filterMap.mp hs'
      have hr₀ := Book.mem_orders.mpr ⟨s', hr₀⟩
      obtain rfl := h.eq_of_id hr₀ hr ((he.of_eq_some hr₀ e).1.symm.trans hid)
      rw [hf] at e
      cases e
    · exact he.fresh s' r' hs' (hid ▸ Book.mem_ids.mpr ⟨r, hr, rfl⟩)

/-- The orders of a side that are not named keep their order. -/
theorem filter_side (he : Effect b req step f fresh) (s : Side) :
    (step.book.side s).filter (fun r => decide (r.id ∈ b.ids ∧ ¬ Named req r)) =
      ((b.side s).filter fun r => decide (¬ Named req r)).filterMap (settled step.events) := by
  have hfresh : (fresh s).filter (fun r => decide (r.id ∈ b.ids ∧ ¬ Named req r)) = [] :=
    List.filter_eq_nil_iff.mpr fun r hr => by simp [he.fresh s r hr]
  rw [he.side, List.filter_append, hfresh, List.append_nil, List.filter_filterMap, List.filterMap_filter]
  refine List.filterMap_congr fun r hr => ?_
  have hr := Book.mem_orders.mpr ⟨s, hr⟩
  have hid : r.id ∈ b.ids := Book.mem_ids.mpr ⟨r, hr, rfl⟩
  by_cases hn : Named req r
  · rw [if_neg (by simp [hn])]
    cases e : f r with
    | none => rfl
    | some r' => simp [(he.of_eq_some hr e).2.mpr hn]
  · rw [if_pos (by simp [hn]), ← (he.others r hr hn).2]
    cases e : f r with
    | none => rfl
    | some r' =>
      have hkeep := he.of_eq_some hr e
      simp [hkeep.1, hid, mt hkeep.2.mp hn]

/-- So do those of a level. -/
theorem filter_level (he : Effect b req step f fresh) (s : Side) (p : ℕ) :
    ((step.book.side s).filter (·.price == p)).filter (fun r => decide (r.id ∈ b.ids ∧ ¬ Named req r)) =
      (((b.side s).filter (·.price == p)).filter fun r => decide (¬ Named req r)).filterMap (settled step.events) := by
  rw [List.filter_comm, he.filter_side, List.filter_comm _ _ (b.side s)]
  refine List.filter_filterMap_comm fun r _ r' e => ?_
  rw [settled_eq_some e]
  rfl

end Effect

/-! ## The answer -/

/-- A request that is handled has events, and the first of them is its client's. -/
theorem handle_answers (capacity : ℕ) (b : Book) (req : EngineRequest) :
    (handle capacity b req).handled = false ∧ (handle capacity b req).events = [] ∨
      (handle capacity b req).handled = true ∧
        ∃ e es, (handle capacity b req).events = e :: es ∧ e.clientId = req.clientId := by
  unfold handle
  cases req.type with
  | new =>
    dsimp only [enter]
    split_ifs
    · exact .inl ⟨rfl, rfl⟩
    · exact .inr ⟨rfl, _, _, rfl, rfl⟩
    · exact .inr ⟨rfl, _, _, rfl, rfl⟩
  | cancel =>
    dsimp only [cancel]
    cases b.find? req.orderId with
    | none => exact .inl ⟨rfl, rfl⟩
    | some o =>
      dsimp only
      split_ifs with hign
      · exact .inl ⟨rfl, rfl⟩
      · exact .inr ⟨rfl, _, _, rfl, not_not.mp fun e => hign (.inl e)⟩
      · exact .inr ⟨rfl, _, _, rfl, not_not.mp fun e => hign (.inl e)⟩
  | replace =>
    dsimp only [replace]
    cases b.find? req.orderId with
    | none => exact .inl ⟨rfl, rfl⟩
    | some o =>
      dsimp only
      split
      · exact .inl ⟨rfl, rfl⟩
      next hign =>
      split
      · exact .inr ⟨rfl, _, _, rfl, not_not.mp fun e => hign (.inl e)⟩
      · exact .inr ⟨rfl, _, _, rfl, rfl⟩

/-- Only a NEW that would rest in a full book is rejected. -/
theorem handle_rejected {capacity : ℕ} {e : Event} (he : e ∈ (handle capacity b req).events)
    (ht : e.type = .rejected) : req.type = .new ∧ req.orderId ∉ b.ids ∧ (newOrder req).rests = true ∧
      capacity ≤ b.orders.length := by
  have hnew : req.type = .new := by
    rcases begins_cases capacity he (by simp [ht]) with ⟨hnew, -⟩ | ⟨-, -, hr, -⟩
    · exact hnew
    · cases ht.symm.trans hr
  simp only [handle, hnew, enter] at he
  split_ifs at he with hid hfull
  · cases he
  · exact ⟨hnew, hid, hfull⟩
  · rcases List.mem_cons.mp he with rfl | he
    · cases ht
    · rcases takes_of_mem_events he with h | h <;> cases ht.symm.trans h

end Exchange.Spec
