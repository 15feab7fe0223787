import Exchange.Proof.Book.Fills

/-!
# The invariant of the reference book

Every request changes the book in two ways only: it rewrites or removes orders in
place (`Book.update`), and it appends an order (`Book.append`). `WF` is what holds of
the book between requests: ids are unique, orders have open shares, no chain is over
32 bits and no bid reaches an ask. `process_wf` is that every request keeps it.
-/

namespace Exchange.Spec

namespace Book

/-- Every order replaced by what `f` makes of it. -/
def update (f : Resting → Option Resting) (b : Book) : Book :=
  { b with bids := b.bids.filterMap f, asks := b.asks.filterMap f }

/-- The book with `r` at the back of its side. -/
def append (b : Book) (r : Resting) : Book := b.setSide (b.side r.side ++ [r]) r.side

/-- The book with `k` the number of the next trade. -/
def numbered (b : Book) (k : ℕ) : Book := { b with nextMatchNumber := k }

@[simp] theorem side_numbered (b : Book) (k : ℕ) (s : Side) : (b.numbered k).side s = b.side s := by
  cases s <;> rfl

@[simp] theorem side_setSide_self (b : Book) (l : List Resting) (s : Side) : (b.setSide l s).side s = l := by
  cases s <;> rfl

theorem side_setSide_of_ne (b : Book) (l : List Resting) {s s' : Side} (h : s' ≠ s) :
    (b.setSide l s).side s' = b.side s' := by
  cases s <;> cases s' <;> first | rfl | exact absurd rfl h

@[simp] theorem setSide_nextMatchNumber (b : Book) (l : List Resting) (s : Side) :
    (b.setSide l s).nextMatchNumber = b.nextMatchNumber := by cases s <;> rfl

@[simp] theorem side_update (b : Book) (f : Resting → Option Resting) (s : Side) :
    (b.update f).side s = (b.side s).filterMap f := by cases s <;> rfl

/-- A book is its two sides and its match number. -/
theorem ext_side {b b' : Book} (h : ∀ s, b.side s = b'.side s) (hn : b.nextMatchNumber = b'.nextMatchNumber) :
    b = b' := by
  cases b; cases b'
  obtain ⟨rfl, rfl, rfl⟩ := And.intro (h .bid) (And.intro (h .ask) hn)
  rfl

theorem setSide_side_numbered (b : Book) (s : Side) : (b.setSide (b.side s) s).numbered b.nextMatchNumber = b := by
  cases s <;> rfl

theorem mem_orders {b : Book} {r : Resting} : r ∈ b.orders ↔ ∃ s, r ∈ b.side s := by
  rw [orders, List.mem_append]
  constructor
  · rintro (h | h)
    · exact ⟨.bid, h⟩
    · exact ⟨.ask, h⟩
  · rintro ⟨_ | _, h⟩
    · exact .inl h
    · exact .inr h

theorem mem_ids {b : Book} {id : ℕ} : id ∈ b.ids ↔ ∃ r ∈ b.orders, r.id = id := List.mem_map

@[simp] theorem orders_numbered (b : Book) (k : ℕ) : (b.numbered k).orders = b.orders := rfl

theorem orders_update (b : Book) (f : Resting → Option Resting) :
    (b.update f).orders = b.orders.filterMap f := (List.filterMap_append ..).symm

theorem mem_orders_append {b : Book} {r r' : Resting} : r' ∈ (b.append r).orders ↔ r' ∈ b.orders ∨ r' = r := by
  unfold append orders setSide
  cases hs : r.side <;> simp only [side, List.mem_append, List.mem_singleton] <;> tauto

theorem ids_append (b : Book) (r : Resting) : (b.append r).ids.Perm (r.id :: b.ids) := by
  unfold append ids orders setSide
  cases hs : r.side
  · simp only [side, List.append_assoc, List.map_append, List.map_cons, List.singleton_append]
    exact List.perm_middle
  · simp only [side, List.map_append, List.map_cons, List.map_nil, ← List.append_assoc]
    exact List.perm_append_singleton _ _

theorem update_update (b : Book) (f g : Resting → Option Resting) :
    (b.update f).update g = b.update fun r => (f r).bind g := by
  simp only [update, List.filterMap_filterMap]

theorem update_numbered (b : Book) (f : Resting → Option Resting) (k : ℕ) :
    (b.numbered k).update f = (b.update f).numbered k := rfl

theorem update_congr {b : Book} {f g : Resting → Option Resting} (h : ∀ r ∈ b.orders, f r = g r) :
    b.update f = b.update g :=
  ext_side (fun s => by
    rw [side_update, side_update]
    exact List.filterMap_congr fun r hr => h r (mem_orders.mpr ⟨s, hr⟩)) rfl

theorem remove_eq_update (b : Book) (id : ℕ) :
    b.remove id = b.update fun r => if r.id = id then none else some r := by
  have h : ∀ l : List Resting, l.filter (·.id != id) = l.filterMap fun r => if r.id = id then none else some r := by
    intro l
    rw [← List.filterMap_eq_filter]
    refine List.filterMap_congr fun r _ => ?_
    by_cases e : r.id = id <;> simp [Option.guard, e]
  simp only [remove, update, h]

theorem reduce_eq_update (b : Book) (id n : ℕ) :
    b.reduce id n = b.update fun r => some (if r.id = id then { r with openQuantity := n } else r) := by
  simp only [reduce, update, List.filterMap_eq_map']

theorem orders_remove (b : Book) (id : ℕ) : (b.remove id).orders = b.orders.filter (·.id != id) :=
  (List.filter_append ..).symm

theorem mem_orders_remove {b : Book} {id : ℕ} {r : Resting} : r ∈ (b.remove id).orders ↔ r ∈ b.orders ∧ r.id ≠ id := by
  rw [orders_remove, List.mem_filter, bne_iff_ne]

theorem mem_ids_remove {b : Book} {id id' : ℕ} : id' ∈ (b.remove id).ids ↔ id' ∈ b.ids ∧ id' ≠ id := by
  simp only [mem_ids, mem_orders_remove]
  constructor
  · rintro ⟨r, ⟨hr, hne⟩, rfl⟩
    exact ⟨⟨r, hr, rfl⟩, hne⟩
  · rintro ⟨⟨r, hr, rfl⟩, hne⟩
    exact ⟨r, ⟨hr, hne⟩, rfl⟩

theorem mem_orders_reduce {b : Book} {id n : ℕ} {r : Resting} :
    r ∈ (b.reduce id n).orders ↔ r ∈ b.orders ∧ r.id ≠ id ∨
      ∃ r' ∈ b.orders, r'.id = id ∧ r = { r' with openQuantity := n } := by
  rw [reduce_eq_update, orders_update, List.mem_filterMap]
  constructor
  · rintro ⟨r', hr', e⟩
    obtain rfl := Option.some.inj e
    by_cases hid : r'.id = id
    · exact .inr ⟨r', hr', hid, if_pos hid⟩
    · exact .inl (by rw [if_neg hid]; exact ⟨hr', hid⟩)
  · rintro (⟨hr, hne⟩ | ⟨r', hr', hid, rfl⟩)
    · exact ⟨r, hr, by rw [if_neg hne]⟩
    · exact ⟨r', hr', by rw [if_pos hid]⟩

theorem length_orders_remove_lt {b : Book} {r : Resting} (h : r ∈ b.orders) :
    (b.remove r.id).orders.length < b.orders.length := by
  rw [orders_remove]
  exact List.length_filter_lt_length_iff_exists.mpr ⟨r, h, by simp⟩

/-- What holds of the book between requests. -/
structure WF (b : Book) : Prop where
  side_eq : ∀ s, ∀ r ∈ b.side s, r.side = s
  nodup : b.ids.Nodup
  inBand : ∀ r ∈ b.orders, InBand r.price
  open_pos : ∀ r ∈ b.orders, 0 < r.openQuantity
  liability_lt : ∀ r ∈ b.orders, r.executedQuantity + r.openQuantity < 2 ^ 32
  uncrossed : ∀ r ∈ b.bids, ∀ r' ∈ b.asks, r.price < r'.price

namespace WF

variable {b : Book}

theorem new : WF {} where
  side_eq s _ hr := by cases s <;> cases hr
  nodup := List.nodup_nil
  inBand _ hr := by cases hr
  open_pos _ hr := by cases hr
  liability_lt _ hr := by cases hr
  uncrossed _ hr := by cases hr

/-- Orders with the same id are the same. -/
theorem eq_of_id (h : b.WF) {r r' : Resting} (hr : r ∈ b.orders) (hr' : r' ∈ b.orders) (e : r.id = r'.id) :
    r = r' := List.inj_on_of_nodup_map h.nodup hr hr' e

theorem side_nodup (h : b.WF) (s : Side) : ((b.side s).map (·.id)).Nodup := by
  have hn := h.nodup
  rw [ids, orders, List.map_append, List.nodup_append] at hn
  cases s
  · exact hn.1
  · exact hn.2.1

/-- The invariant does not depend on the match number. -/
theorem congr (h : b.WF) {b' : Book} (hs : ∀ s, b'.side s = b.side s) : b'.WF := by
  have hb : b'.bids = b.bids := hs .bid
  have ha : b'.asks = b.asks := hs .ask
  have ho : b'.orders = b.orders := by rw [orders, orders, hb, ha]
  constructor
  · intro s; rw [hs s]; exact h.side_eq s
  · rw [ids, ho]; exact h.nodup
  · rw [ho]; exact h.inBand
  · rw [ho]; exact h.open_pos
  · rw [ho]; exact h.liability_lt
  · rw [hb, ha]; exact h.uncrossed

/-- Orders rewritten in place: their identity, side and price stay. -/
theorem update (h : b.WF) {f : Resting → Option Resting}
    (hf : ∀ r ∈ b.orders, ∀ r', f r = some r' → r'.id = r.id ∧ r'.side = r.side ∧ r'.price = r.price ∧
      0 < r'.openQuantity ∧ r'.executedQuantity + r'.openQuantity < 2 ^ 32) : (b.update f).WF := by
  have hm : ∀ r' ∈ (b.update f).orders, ∃ r ∈ b.orders, f r = some r' := fun r' hr' => by
    rw [orders_update] at hr'; exact List.mem_filterMap.mp hr'
  constructor
  · intro s r' hr'
    rw [side_update] at hr'
    obtain ⟨r, hr, e⟩ := List.mem_filterMap.mp hr'
    rw [(hf r (mem_orders.mpr ⟨s, hr⟩) r' e).2.1]
    exact h.side_eq s r hr
  · rw [ids, orders_update]
    -- the ids that are left are a sublist of the ids there were
    refine List.Nodup.sublist ?_ h.nodup
    have hsub : ∀ l : List Resting, (∀ r ∈ l, r ∈ b.orders) →
        ((l.filterMap f).map (·.id)).Sublist (l.map (·.id)) := by
      intro l
      induction l with
      | nil => simp
      | cons r l ih =>
        intro hl
        have ih := ih fun r' hr' => hl r' (List.mem_cons_of_mem _ hr')
        cases e : f r with
        | none => simpa [e] using ih.cons _
        | some r' =>
          have hid := (hf r (hl r List.mem_cons_self) r' e).1
          simpa [e, hid] using ih
    exact hsub b.orders fun r hr => hr
  · intro r' hr'
    obtain ⟨r, hr, e⟩ := hm r' hr'
    rw [(hf r hr r' e).2.2.1]
    exact h.inBand r hr
  · intro r' hr'
    obtain ⟨r, hr, e⟩ := hm r' hr'
    exact (hf r hr r' e).2.2.2.1
  · intro r' hr'
    obtain ⟨r, hr, e⟩ := hm r' hr'
    exact (hf r hr r' e).2.2.2.2
  · intro r₁ h₁ r₂ h₂
    obtain ⟨r₁', h₁', e₁⟩ := List.mem_filterMap.mp h₁
    obtain ⟨r₂', h₂', e₂⟩ := List.mem_filterMap.mp h₂
    rw [(hf r₁' (mem_orders.mpr ⟨.bid, h₁'⟩) r₁ e₁).2.2.1, (hf r₂' (mem_orders.mpr ⟨.ask, h₂'⟩) r₂ e₂).2.2.1]
    exact h.uncrossed r₁' h₁' r₂' h₂'

theorem remove (h : b.WF) (id : ℕ) : (b.remove id).WF := by
  rw [remove_eq_update]
  refine h.update fun r hr r' e => ?_
  split at e
  · cases e
  · obtain rfl := Option.some.inj e
    exact ⟨rfl, rfl, rfl, h.open_pos _ hr, h.liability_lt _ hr⟩

/-- An order whose price reaches none of the other side's comes to rest. -/
theorem append (h : b.WF) {r : Resting} (hid : r.id ∉ b.ids) (hp : InBand r.price) (ho : 0 < r.openQuantity)
    (hl : r.executedQuantity + r.openQuantity < 2 ^ 32)
    (hx : ∀ r' ∈ b.side r.side.opposite, r.side.reaches r.price r'.price = false) : (b.append r).WF := by
  constructor
  · intro s r' hr'
    by_cases e : s = r.side
    · subst e
      rw [Book.append, side_setSide_self, List.mem_append, List.mem_singleton] at hr'
      rcases hr' with hr' | rfl
      · exact h.side_eq _ r' hr'
      · rfl
    · rw [Book.append, side_setSide_of_ne _ _ e] at hr'
      exact h.side_eq s r' hr'
  · exact (b.ids_append r).nodup_iff.mpr (List.nodup_cons.mpr ⟨hid, h.nodup⟩)
  · intro r' hr'
    rcases mem_orders_append.mp hr' with hr' | rfl
    · exact h.inBand r' hr'
    · exact hp
  · intro r' hr'
    rcases mem_orders_append.mp hr' with hr' | rfl
    · exact h.open_pos r' hr'
    · exact ho
  · intro r' hr'
    rcases mem_orders_append.mp hr' with hr' | rfl
    · exact h.liability_lt r' hr'
    · exact hl
  · intro r₁ h₁ r₂ h₂
    cases hs : r.side with
    | bid =>
      simp only [hs, Side.opposite, Book.side, Side.reaches, decide_eq_false_iff_not, not_le] at hx
      simp only [Book.append, hs, setSide, Book.side, List.mem_append, List.mem_singleton] at h₁ h₂
      rcases h₁ with h₁ | rfl
      · exact h.uncrossed r₁ h₁ r₂ h₂
      · exact hx r₂ h₂
    | ask =>
      simp only [hs, Side.opposite, Book.side, Side.reaches, decide_eq_false_iff_not, not_le] at hx
      simp only [Book.append, hs, setSide, Book.side, List.mem_append, List.mem_singleton] at h₁ h₂
      rcases h₂ with h₂ | rfl
      · exact h.uncrossed r₁ h₁ r₂ h₂
      · exact hx r₁ h₁

end WF

end Book

/-! ## One trade -/

/-- What `n` shares of order `r` executed make of the order `r'`. -/
def executeOne (r : Resting) (n : ℕ) (r' : Resting) : Option Resting :=
  if r'.id = r.id then if n < r.openQuantity then some (r'.trade n) else none else some r'

theorem execute_eq_filterMap (l : List Resting) (r : Resting) (n : ℕ) :
    execute l r n = l.filterMap (executeOne r n) := by
  unfold execute
  split
  · next hn =>
    rw [← List.filterMap_eq_map']
    refine List.filterMap_congr fun r' _ => ?_
    by_cases e : r'.id = r.id <;> simp [executeOne, hn, e]
  · next hn =>
    rw [← List.filterMap_eq_filter]
    refine List.filterMap_congr fun r' _ => ?_
    by_cases e : r'.id = r.id <;> simp [executeOne, hn, e, Option.guard]

/-- The book with `n` shares of its order `r` executed. -/
def Book.trade (b : Book) (r : Resting) (n : ℕ) : Book :=
  (b.setSide (execute (b.side r.side) r n) r.side).numbered (b.nextMatchNumber + 1)

theorem Book.trade_eq_update {b : Book} (h : b.WF) {r : Resting} (hr : r ∈ b.orders) (n : ℕ) :
    b.trade r n = (b.update (executeOne r n)).numbered (b.nextMatchNumber + 1) := by
  refine Book.ext_side (fun s => ?_) rfl
  rw [trade, side_numbered, side_numbered, side_update]
  by_cases e : s = r.side
  · subst e
    rw [side_setSide_self, execute_eq_filterMap]
  · have hs : ∀ r' ∈ b.side s, executeOne r n r' = some r' := fun r' hr' => if_neg fun hid => e <| by
      rw [← h.side_eq s r' hr', h.eq_of_id (mem_orders.mpr ⟨s, hr'⟩) hr hid]
    rw [side_setSide_of_ne _ _ e, List.filterMap_congr (g := some) hs, List.filterMap_some]

theorem Book.mem_orders_trade {b : Book} (h : b.WF) {r : Resting} (hr : r ∈ b.orders) {n : ℕ} {r' : Resting} :
    r' ∈ (b.trade r n).orders ↔ r' ∈ b.orders ∧ r'.id ≠ r.id ∨ n < r.openQuantity ∧ r' = r.trade n := by
  rw [trade_eq_update h hr, orders_numbered, orders_update, List.mem_filterMap]
  constructor
  · rintro ⟨r₀, hr₀, e⟩
    unfold executeOne at e
    split_ifs at e with hid hn
    · rw [h.eq_of_id hr₀ hr hid] at e
      exact .inr ⟨hn, (Option.some.inj e).symm⟩
    · obtain rfl := Option.some.inj e
      exact .inl ⟨hr₀, hid⟩
  · rintro (⟨hr', hid⟩ | ⟨hn, rfl⟩)
    · exact ⟨r', hr', if_neg hid⟩
    · exact ⟨r, hr, by simp [executeOne, hn]⟩

theorem Book.trade_wf {b : Book} (h : b.WF) {r : Resting} (hr : r ∈ b.orders) (n : ℕ) : (b.trade r n).WF := by
  rw [trade_eq_update h hr]
  refine (h.update (f := executeOne r n) fun r' hr' r'' e => ?_).congr fun s => side_numbered _ _ s
  have hlt := h.liability_lt r' hr'
  unfold executeOne at e
  split_ifs at e with hid hn
  · obtain rfl := h.eq_of_id hr' hr hid
    obtain rfl := Option.some.inj e
    exact ⟨rfl, rfl, rfl, by simp only [Resting.trade]; omega, by simp only [Resting.trade]; omega⟩
  · obtain rfl := Option.some.inj e
    exact ⟨rfl, rfl, rfl, h.open_pos _ hr', hlt⟩

/-! ## Incoming orders -/

namespace Incoming

variable {b : Book}

/-- What the book asks of an incoming order: its id is new, one that may rest has its
own price as its limit and a level at it, and its chain fits 32 bits. -/
structure Ok (i : Incoming) (b : Book) : Prop where
  fresh : i.id ∉ b.ids
  rest : i.rests = true → i.limit = some i.price ∧ InBand i.price
  lt : i.executed + i.quantity < 2 ^ 32

theorem trades_ok (i : Incoming) (h : b.WF) :
    Trading i.side i.limit i.quantity (b.side i.side.opposite) (i.trades b).1 (i.trades b).2 :=
  fills_ok (h.side_nodup _) (fun r hr => h.open_pos r (Book.mem_orders.mpr ⟨_, hr⟩)) _ _

/-- The shares an order that is not on the other side trades. -/
theorem sharesOf_trades (i : Incoming) (h : b.WF) {id : ℕ} (hid : ∀ r ∈ b.side i.side.opposite, r.id ≠ id) :
    sharesOf id (i.trades b).1 = 0 := by
  rw [sharesOf, List.sum_eq_zero_iff_forall_eq_nat]
  intro n hn
  obtain ⟨f, hf, rfl⟩ := List.mem_map.mp hn
  obtain ⟨-, -, r, hr, k, e, -⟩ := (i.trades_ok h).trade f hf
  rw [if_neg]
  rw [e]
  exact hid r hr

theorem traded_eq (i : Incoming) (b : Book) : i.traded b =
    (b.setSide (i.trades b).2 i.side.opposite).numbered (b.nextMatchNumber + (i.trades b).1.length) := rfl

/-- Trading rewrites the book in place. -/
theorem traded_eq_update (i : Incoming) (h : b.WF) :
    i.traded b = (b.update (settle (i.trades b).1)).numbered (b.nextMatchNumber + (i.trades b).1.length) := by
  refine Book.ext_side (fun s => ?_) rfl
  rw [traded_eq, Book.side_numbered, Book.side_numbered, Book.side_update]
  by_cases e : s = i.side.opposite
  · subst e
    rw [Book.side_setSide_self]
    exact (i.trades_ok h).left
  · rw [Book.side_setSide_of_ne _ _ e]
    have hs : ∀ r ∈ b.side s, settle (i.trades b).1 r = some r := fun r hr => by
      refine settle_of_sharesOf_eq_zero (i.sharesOf_trades h fun r' hr' e' => e ?_)
        (h.open_pos r (Book.mem_orders.mpr ⟨s, hr⟩))
      obtain rfl := h.eq_of_id (Book.mem_orders.mpr ⟨_, hr'⟩) (Book.mem_orders.mpr ⟨s, hr⟩) e'
      rw [← h.side_eq _ _ hr, ← h.side_eq _ _ hr']
    rw [List.filterMap_congr (g := some) hs, List.filterMap_some]

/-- Induction over the trades of an incoming order, book by book: what holds of the
trades made and of the book holds at the end if each trade preserves it. -/
theorem trades_induct {P : List (Resting × ℕ) → Book → Prop} (i : Incoming) (h : b.WF) (h₀ : P [] b)
    (step : ∀ fs b' r n, P fs b' → b'.WF → r ∈ b'.side i.side.opposite → 0 < n → n ≤ r.openQuantity →
      filled fs + n ≤ i.quantity → P (fs ++ [(r, n)]) (b'.trade r n)) :
    P (i.trades b).1 (i.traded b) ∧ (i.traded b).WF := by
  have hi := @fills_induct i.side i.limit
    (fun fs k l => P fs ((b.setSide l i.side.opposite).numbered (b.nextMatchNumber + fs.length)) ∧
      ((b.setSide l i.side.opposite).numbered (b.nextMatchNumber + fs.length)).WF ∧ k + filled fs = i.quantity)
    (b.side i.side.opposite).length i.quantity (b.side i.side.opposite) ?_ ?_
  · exact ⟨hi.1, hi.2.1⟩
  · have hb := Book.setSide_side_numbered b i.side.opposite
    rw [List.length_nil, Nat.add_zero, hb]
    exact ⟨h₀, h, rfl⟩
  · rintro fs k l r ⟨hP, hwf, hk'⟩ hr hk -
    set b' := (b.setSide l i.side.opposite).numbered (b.nextMatchNumber + fs.length) with hb'
    have hl : b'.side i.side.opposite = l := by rw [hb', Book.side_numbered, Book.side_setSide_self]
    have hmem : r ∈ b'.side i.side.opposite := by rw [hl]; exact best_mem hr
    have hs : r.side = i.side.opposite := hwf.side_eq _ r hmem
    have hmem' : r ∈ b'.orders := Book.mem_orders.mpr ⟨_, hmem⟩
    have hopen := hwf.open_pos r hmem'
    have htrade : b'.trade r (min k r.openQuantity) =
        (b.setSide (execute l r (min k r.openQuantity)) i.side.opposite).numbered
          (b.nextMatchNumber + (fs ++ [(r, min k r.openQuantity)]).length) := by
      refine Book.ext_side (fun s => ?_) (by simp [Book.trade, Book.numbered, b', Nat.add_assoc])
      rw [Book.trade, hs, hl, Book.side_numbered, Book.side_numbered]
      by_cases e : s = i.side.opposite
      · rw [e, Book.side_setSide_self, Book.side_setSide_self]
      · rw [Book.side_setSide_of_ne _ _ e, Book.side_setSide_of_ne _ _ e, hb', Book.side_numbered,
          Book.side_setSide_of_ne _ _ e]
    rw [← htrade]
    refine ⟨step fs b' r _ hP hwf hmem (by omega) (by omega) (by omega), Book.trade_wf hwf hmem' _, ?_⟩
    rw [filled_append]
    simp only [filled, List.map_cons, List.map_nil, List.sum_cons, List.sum_nil] at hk' ⊢
    omega

theorem traded_wf (i : Incoming) (h : b.WF) : (i.traded b).WF :=
  (i.trades_induct (P := fun _ _ => True) h trivial fun _ _ _ _ _ _ _ _ _ _ => trivial).2

theorem traded_of_trades_eq_nil (i : Incoming) (h : b.WF) (ht : (i.trades b).1 = []) : i.traded b = b := by
  rw [traded_eq_update i h, ht]
  refine Book.ext_side (fun s => ?_) rfl
  rw [Book.side_numbered, Book.side_update, List.filterMap_congr (g := some) fun r hr =>
    settle_of_sharesOf_eq_zero (sharesOf_nil _) (h.open_pos r (Book.mem_orders.mpr ⟨s, hr⟩)),
    List.filterMap_some]

/-- Trading introduces no id. -/
theorem mem_ids_of_traded (i : Incoming) (h : b.WF) {id : ℕ} (hid : id ∈ (i.traded b).ids) : id ∈ b.ids := by
  rw [traded_eq_update i h] at hid
  obtain ⟨r', hr', rfl⟩ := Book.mem_ids.mp hid
  rw [Book.orders_numbered, Book.orders_update] at hr'
  obtain ⟨r, hr, e⟩ := List.mem_filterMap.mp hr'
  rw [(settle_eq_some e).1]
  exact Book.mem_ids.mpr ⟨r, hr, rfl⟩

theorem filled_add_remaining (i : Incoming) (h : b.WF) : filled (i.trades b).1 + i.remaining b = i.quantity := by
  have := (i.trades_ok h).filled_le
  simp only [remaining]
  omega

/-- An order with shares left does not reach what is left of the other side. -/
theorem not_allows_of_remaining (i : Incoming) (h : i.remaining b ≠ 0) :
    ∀ r ∈ (i.trades b).2, allows i.side i.limit r.price = false := by
  rcases @fills_done i.side i.limit _ _ (Nat.le_refl (b.side i.side.opposite).length) i.quantity with hd | hd
  · exact absurd (Nat.sub_eq_zero_of_le hd) h
  · exact hd

/-- An order trades if it may trade with the best order of the other side. -/
theorem trades_eq_nil_iff (i : Incoming) (b : Book) (h : i.quantity ≠ 0) : (i.trades b).1 = [] ↔
    ¬ ∃ r, best i.side.opposite (b.side i.side.opposite) = some r ∧ allows i.side i.limit r.price = true := by
  unfold trades
  cases hl : (b.side i.side.opposite).length with
  | zero => simp [fills, List.length_eq_zero_iff.mp hl, best_eq_none.mpr]
  | succ fuel =>
    rw [fills]
    split
    · next hb => simp [hb]
    · next r hb => split <;> simp_all [Nat.pos_iff_ne_zero]

theorem book_eq (i : Incoming) (b : Book) :
    i.book b = if i.comesToRest b then (i.traded b).append (i.resting b) else i.traded b := rfl

theorem book_wf (i : Incoming) (h : b.WF) (hi : i.Ok b) : (i.book b).WF := by
  rw [book_eq]
  split
  · next hc =>
    simp only [comesToRest, Bool.and_eq_true, bne_iff_ne] at hc
    obtain ⟨hlim, hp⟩ := hi.rest hc.1
    have hq := i.filled_add_remaining h
    have hlt := hi.lt
    refine (i.traded_wf h).append (fun hid => hi.fresh (i.mem_ids_of_traded h hid)) hp
      (Nat.pos_of_ne_zero hc.2) (by simp only [resting]; omega) fun r hr => ?_
    have hr : r ∈ (i.traded b).side i.side.opposite := hr
    rw [traded_eq, Book.side_numbered, Book.side_setSide_self] at hr
    have hna := i.not_allows_of_remaining hc.2 r hr
    rw [hlim] at hna
    exact hna
  · exact i.traded_wf h

end Incoming

/-! ## Requests -/

/-- The prices of a LIMIT NEW and of a REPLACE have a level. -/
def PriceOk (req : EngineRequest) : Prop :=
  req.type = .new ∧ req.orderType = .limit ∨ req.type = .replace → InBand req.price

instance (req : EngineRequest) : Decidable (PriceOk req) := inferInstanceAs (Decidable (_ → _))

variable {b : Book} {req : EngineRequest}

theorem newOrder_ok (ht : req.type = .new) (hp : PriceOk req) (hid : req.orderId ∉ b.ids) :
    (newOrder req).Ok b where
  fresh := hid
  rest h := by
    simp only [newOrder, Bool.and_eq_true, beq_iff_eq] at h
    exact ⟨if_pos h.1, hp (.inl ⟨ht, h.1⟩)⟩
  lt := by rw [newOrder, Nat.zero_add]; exact req.quantity_lt

theorem replacement_ok (ht : req.type = .replace) (hp : PriceOk req) (hid : req.newOrderId ∉ b.ids) {o : Resting}
    (hq : (replacement req o).quantity ≠ 0) : (replacement req o).Ok (b.remove o.id) where
  fresh h := hid (Book.mem_ids_remove.mp h).1
  rest _ := ⟨rfl, hp (.inr ht)⟩
  lt := by
    have := req.quantity_lt
    simp only [replacement] at hq ⊢
    omega

theorem find?_mem {id : ℕ} {o : Resting} (h : b.find? id = some o) : o ∈ b.orders ∧ o.id = id :=
  ⟨List.mem_of_find?_eq_some h, by simpa using List.find?_some h⟩

theorem Book.WF.find?_eq_some (hb : b.WF) {o : Resting} (ho : o ∈ b.orders) : b.find? o.id = some o := by
  cases hf : b.find? o.id with
  | none => exact absurd BEq.rfl (List.find?_eq_none.mp hf o ho)
  | some r =>
    obtain ⟨hr, e⟩ := find?_mem hf
    rw [hb.eq_of_id hr ho e]

theorem enter_wf (capacity : ℕ) (h : b.WF) (ht : req.type = .new) (hp : PriceOk req) :
    (enter capacity b req).book.WF := by
  unfold enter
  dsimp only
  split_ifs with hid
  · exact h
  · exact h
  · exact (newOrder req).book_wf h (newOrder_ok ht hp hid)

theorem cancel_wf (h : b.WF) : (cancel b req).book.WF := by
  unfold cancel
  cases hf : b.find? req.orderId with
  | none => exact h
  | some o =>
    obtain ⟨ho, -⟩ := find?_mem hf
    dsimp only
    split_ifs with hign hz
    · exact h
    · exact h.remove o.id
    · rw [Book.reduce_eq_update]
      refine h.update fun r hr r' e => ?_
      obtain rfl := Option.some.inj e
      have hlt := h.liability_lt r hr
      split_ifs with hid
      · obtain rfl := h.eq_of_id hr ho hid
        refine ⟨rfl, rfl, rfl, ?_, ?_⟩ <;> dsimp only <;> omega
      · exact ⟨rfl, rfl, rfl, h.open_pos r hr, hlt⟩

theorem replace_wf (h : b.WF) (ht : req.type = .replace) (hp : PriceOk req) : (replace b req).book.WF := by
  unfold replace
  cases hf : b.find? req.orderId with
  | none => exact h
  | some o =>
    dsimp only
    split
    · exact h
    next hign =>
    split
    · exact h.remove o.id
    next hz =>
    exact (replacement req o).book_wf (h.remove o.id)
        (replacement_ok ht hp (fun hid => hign (.inr hid)) hz)

/-- Every request keeps the invariant. -/
theorem process_wf (capacity : ℕ) (h : b.WF) (hp : PriceOk req) : (process capacity b req).book.WF := by
  show (handle capacity b req).book.WF
  unfold handle
  cases ht : req.type with
  | new => exact enter_wf capacity h ht hp
  | cancel => exact cancel_wf h
  | replace => exact replace_wf h ht hp

/-- The invariant holds after every sequence of requests. -/
theorem after_wf (capacity : ℕ) (h : b.WF) {reqs : List EngineRequest} (hp : ∀ req ∈ reqs, PriceOk req) :
    (after capacity b reqs).WF := by
  induction reqs generalizing b with
  | nil => exact h
  | cons req reqs ih =>
    exact ih (process_wf capacity h (hp req List.mem_cons_self)) fun r hr => hp r (List.mem_cons_of_mem _ hr)

/-! ## The flag of the first event -/

theorem tradeEvents_answersRequest (id clientId k : ℕ) (fs : List (Resting × ℕ)) :
    ∀ e ∈ tradeEvents id clientId k fs, e.answersRequest = false := by
  induction fs generalizing k with
  | nil => intro e he; cases he
  | cons f fs ih =>
    intro e he
    rcases List.mem_cons.mp he with rfl | he
    · rfl
    rcases List.mem_cons.mp he with rfl | he
    · rfl
    exact ih (k + 1) e he

theorem Incoming.events_answersRequest (i : Incoming) (b : Book) :
    ∀ e ∈ i.events b, e.answersRequest = false := by
  intro e he
  rcases List.mem_append.mp he with he | he
  · exact tradeEvents_answersRequest _ _ _ _ e he
  · split at he
    · rw [List.mem_singleton.mp he]
    · cases he

/-- Only `process` says which event answers a request. -/
theorem handle_answersRequest (capacity : ℕ) (b : Book) (req : EngineRequest) :
    ∀ e ∈ (handle capacity b req).events, e.answersRequest = false := by
  have hcons : ∀ (i : Incoming) (b : Book) (e₀ : Event), e₀.answersRequest = false →
      ∀ e ∈ e₀ :: i.events b, e.answersRequest = false := fun i b e₀ h₀ e he => by
    rcases List.mem_cons.mp he with rfl | he
    · exact h₀
    · exact i.events_answersRequest b e he
  unfold handle
  cases req.type with
  | new =>
    dsimp only [enter]
    split_ifs
    · simp [ignored]
    · simp
    · exact hcons _ _ _ rfl
  | cancel =>
    dsimp only [cancel]
    cases b.find? req.orderId with
    | none => simp [ignored]
    | some o => dsimp only; split_ifs <;> simp [ignored, cancelAll]
  | replace =>
    dsimp only [replace]
    cases b.find? req.orderId with
    | none => simp [ignored]
    | some o =>
      dsimp only
      split
      · simp [ignored]
      split
      · simp [cancelAll]
      · exact hcons _ _ _ rfl

end Exchange.Spec
