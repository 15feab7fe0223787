import Exchange.Proof.Engine.Ladder

/-!
# The representation of the book

`Shape n b q`: the five data structures of the book (two ladders, the map, the pool and
the cached scalars) hold the slots `q s p`, of `n`, at each side and price. It says nothing of
open quantities, which the matching loop lets reach zero before it unlinks an order.

`unlink_release_ok`, `rest_ok` and `setOrder_ok` are the only ways the book changes;
each keeps the shape and says what becomes of the orders (`Order.view`).
-/

namespace Exchange

/-- The book's data structures hold the slots `q s p`, of `n`, at side `s` and price
`p`. -/
structure Shape (n : ℕ) (b : Orderbook) (q : Side → ℕ → List ℕ) : Prop where
  side : ∀ s, LadderRep s (b.ladder s) b.pool.arena (q s)
  keyed : ∀ s p, ∀ x ∈ q s p, b.orders.lookup (b.order x).id = some x
  resting : ∀ id x, b.orders.lookup id = some x →
    (b.order x).id = id ∧ x ∈ q (b.order x).side (b.order x).price
  free_nodup : b.pool.freeList.Nodup
  free_disjoint : ∀ s p, ∀ x ∈ q s p, x ∉ b.pool.freeList
  free_lt : ∀ x ∈ b.pool.freeList, x < n
  slot_lt : ∀ s p, ∀ x ∈ q s p, x < n
  capacity : b.pool.capacity = n
  free_size : b.pool.available + b.orders.size = n

/-- The slots with those at side `s` and price `p` replaced. -/
def setSlots (q : Side → ℕ → List ℕ) (s : Side) (p : ℕ) (l : List ℕ) : Side → ℕ → List ℕ :=
  Function.update q s (Function.update (q s) p l)

theorem setSlots_self (q : Side → ℕ → List ℕ) (s : Side) (p : ℕ) (l : List ℕ) : setSlots q s p l s p = l := by
  simp [setSlots]

theorem setSlots_of_ne (q : Side → ℕ → List ℕ) {s s' : Side} {p p' : ℕ} (l : List ℕ)
    (h : ¬ (s' = s ∧ p' = p)) : setSlots q s p l s' p' = q s' p' := by
  by_cases e : s' = s
  · subst e
    simp only [setSlots, Function.update_self]
    exact Function.update_of_ne (fun e => h ⟨rfl, e⟩) _ _
  · simp [setSlots, Function.update_of_ne e]

theorem mem_setSlots {q : Side → ℕ → List ℕ} {s s' : Side} {p p' x : ℕ} {l : List ℕ} :
    x ∈ setSlots q s p l s' p' ↔ s' = s ∧ p' = p ∧ x ∈ l ∨ ¬ (s' = s ∧ p' = p) ∧ x ∈ q s' p' := by
  by_cases e : s' = s ∧ p' = p
  · obtain ⟨rfl, rfl⟩ := e
    simp [setSlots_self]
  · rw [setSlots_of_ne q l e]
    constructor
    · exact fun h => .inr ⟨e, h⟩
    · rintro (⟨h₁, h₂, -⟩ | ⟨-, h⟩)
      · exact absurd ⟨h₁, h₂⟩ e
      · exact h

theorem mem_setSlots_append {q : Side → ℕ → List ℕ} {s s' : Side} {p p' x y : ℕ} :
    y ∈ setSlots q s p (q s p ++ [x]) s' p' ↔ y ∈ q s' p' ∨ s' = s ∧ p' = p ∧ y = x := by
  rw [mem_setSlots]
  by_cases e : s' = s ∧ p' = p
  · obtain ⟨rfl, rfl⟩ := e
    simp
  · simp only [e, not_false_eq_true, true_and]
    grind

namespace Orderbook

@[simp] theorem ladder_setLadder_self (b : Orderbook) (l : Ladder) (s : Side) : (b.setLadder l s).ladder s = l := by
  cases s <;> rfl

theorem ladder_setLadder_of_ne (b : Orderbook) (l : Ladder) {s s' : Side} (h : s' ≠ s) :
    (b.setLadder l s).ladder s' = b.ladder s' := by
  cases s <;> cases s' <;> first | rfl | exact absurd rfl h

@[simp] theorem setLadder_pool (b : Orderbook) (l : Ladder) (s : Side) : (b.setLadder l s).pool = b.pool := by
  cases s <;> rfl
@[simp] theorem setLadder_orders (b : Orderbook) (l : Ladder) (s : Side) :
    (b.setLadder l s).orders = b.orders := by cases s <;> rfl
@[simp] theorem setLadder_out (b : Orderbook) (l : Ladder) (s : Side) : (b.setLadder l s).out = b.out := by
  cases s <;> rfl
@[simp] theorem setLadder_nextMatchNumber (b : Orderbook) (l : Ladder) (s : Side) :
    (b.setLadder l s).nextMatchNumber = b.nextMatchNumber := by cases s <;> rfl

@[simp] theorem ladder_setArena (b : Orderbook) (m : Arena) (s : Side) : (b.setArena m).ladder s = b.ladder s := by
  cases s <;> rfl

@[simp] theorem order_setArena (b : Orderbook) (m : Arena) (x : ℕ) : (b.setArena m).order x = m x := rfl

end Orderbook

namespace Shape

variable {n : ℕ} {b b' : Orderbook} {q : Side → ℕ → List ℕ}

theorem new (capacity : ℕ) (env : Env) : Shape capacity (Orderbook.new capacity env) fun _ _ => [] where
  side s := by cases s <;> exact LadderRep.new _ _
  keyed _ _ _ hx := absurd hx List.not_mem_nil
  resting id x h := by simp [Orderbook.new] at h
  free_nodup := List.nodup_range
  free_disjoint _ _ _ hx := absurd hx List.not_mem_nil
  free_lt x hx := List.mem_range.mp hx
  slot_lt _ _ _ hx := absurd hx List.not_mem_nil
  capacity := rfl
  free_size := by simp [Orderbook.new, OrderPool.new, OrderPool.available]

/-- The shape does not depend on the output and the match number. -/
theorem congr (h : Shape n b q) (hp : b'.pool = b.pool) (hb : b'.bids = b.bids) (ha : b'.asks = b.asks)
    (ho : b'.orders = b.orders) : Shape n b' q := by
  have hl : ∀ s, b'.ladder s = b.ladder s := fun s => by cases s <;> assumption
  have hor : ∀ x, b'.order x = b.order x := fun x => by simp only [Orderbook.order, hp]
  constructor
  · intro s; rw [hl, hp]; exact h.side s
  · intro s p x hx; rw [hor, ho]; exact h.keyed s p x hx
  · intro id x hx; rw [hor]; exact h.resting id x (ho ▸ hx)
  · rw [hp]; exact h.free_nodup
  · rw [hp]; exact h.free_disjoint
  · rw [hp]; exact h.free_lt
  · exact h.slot_lt
  · rw [hp]; exact h.capacity
  · rw [hp, ho]; exact h.free_size

theorem place (h : Shape n b q) {s : Side} {p x : ℕ} (hx : x ∈ q s p) :
    (b.order x).side = s ∧ (b.order x).price = p := (h.side s).place p x hx

/-- A slot is at one place of the book. -/
theorem unique (h : Shape n b q) {s s' : Side} {p p' x : ℕ} (hx : x ∈ q s p) (hx' : x ∈ q s' p') :
    s' = s ∧ p' = p :=
  ⟨(h.place hx').1.symm.trans (h.place hx).1, (h.place hx').2.symm.trans (h.place hx).2⟩

/-- Orders at different slots have different ids. -/
theorem id_inj (h : Shape n b q) {s s' : Side} {p p' x y : ℕ} (hx : x ∈ q s p) (hy : y ∈ q s' p')
    (e : (b.order x).id = (b.order y).id) : x = y := by
  have h₁ := h.keyed s p x hx
  rw [e, h.keyed s' p' y hy] at h₁
  exact (Option.some.inj h₁).symm

theorem mem_orders (h : Shape n b q) {s : Side} {p x : ℕ} (hx : x ∈ q s p) : (b.order x).id ∈ b.orders :=
  AList.mem_of_lookup (h.keyed s p x hx)

theorem nodup (h : Shape n b q) (s : Side) (p : ℕ) : (q s p).Nodup := by
  by_cases hp : InBand p
  · exact ((h.side s).level p hp).linked.nodup
  · rw [(h.side s).outside p hp]; exact List.nodup_nil

/-! ## The updates -/

/-- Rewriting the quantities of an order in place. -/
theorem setOrder_ok (h : Shape n b q) {x : ℕ} {o : Order} (hid : o.id = (b.order x).id)
    (hprev : o.prev = (b.order x).prev) (hnext : o.next = (b.order x).next)
    (hside : o.side = (b.order x).side) (hprice : o.price = (b.order x).price) :
    Shape n (b.setArena (Function.update b.pool.arena x o)) q := by
  have hm : ∀ y, (Function.update b.pool.arena x o y).id = (b.order y).id ∧
      (Function.update b.pool.arena x o y).prev = (b.order y).prev ∧
      (Function.update b.pool.arena x o y).next = (b.order y).next ∧
      (Function.update b.pool.arena x o y).side = (b.order y).side ∧
      (Function.update b.pool.arena x o y).price = (b.order y).price := by
    intro y
    by_cases e : y = x
    · subst e; simp [hid, hprev, hnext, hside, hprice]
    · rw [Function.update_of_ne e]; exact ⟨rfl, rfl, rfl, rfl, rfl⟩
  constructor
  · intro s
    rw [Orderbook.ladder_setArena]
    exact (h.side s).congr fun p y _ => ⟨(hm y).2.1, (hm y).2.2.1, (hm y).2.2.2.1, (hm y).2.2.2.2⟩
  · intro s p y hy
    show b.orders.lookup (Function.update b.pool.arena x o y).id = some y
    rw [(hm y).1]; exact h.keyed s p y hy
  · intro id y hy
    show (Function.update b.pool.arena x o y).id = id ∧ y ∈ q (Function.update b.pool.arena x o y).side
      (Function.update b.pool.arena x o y).price
    rw [(hm y).1, (hm y).2.2.2.1, (hm y).2.2.2.2]; exact h.resting id y hy
  · exact h.free_nodup
  · exact h.free_disjoint
  · exact h.free_lt
  · exact h.slot_lt
  · exact h.capacity
  · exact h.free_size

/-- A slot of a level, removed. -/
theorem mem_setSlots_erase (h : Shape n b q) {s s' : Side} {p p' x y : ℕ} (hx : x ∈ q s p) :
    y ∈ setSlots q s p ((q s p).erase x) s' p' ↔ y ∈ q s' p' ∧ y ≠ x := by
  rw [mem_setSlots]
  constructor
  · rintro (⟨rfl, rfl, hy⟩ | ⟨hne, hy⟩)
    · exact ⟨List.mem_of_mem_erase hy, fun e => (h.nodup s' p').not_mem_erase (e ▸ hy)⟩
    · exact ⟨hy, fun e => hne (h.unique hx (e ▸ hy))⟩
  · rintro ⟨hy, hne⟩
    by_cases e : s' = s ∧ p' = p
    · obtain ⟨rfl, rfl⟩ := e
      exact .inl ⟨rfl, rfl, (List.mem_erase_of_ne hne).mpr hy⟩
    · exact .inr ⟨e, hy⟩

/-- The book with a slot taken out of its level, the map and put on the free list. -/
theorem of_remove (h : Shape n b q) {s : Side} {p x : ℕ} (hx : x ∈ q s p) {m' : Arena}
    (hlad : LadderRep s (b'.ladder s) m' (Function.update (q s) p ((q s p).erase x)))
    (hrel : Relinked ((q s p).erase x) b.pool.arena m') (hother : ∀ s', s' ≠ s → b'.ladder s' = b.ladder s')
    (hpool : b'.pool = ⟨b.pool.capacity, m', x :: b.pool.freeList⟩)
    (horders : b'.orders = b.orders.erase (b.order x).id) :
    Shape n b' (setSlots q s p ((q s p).erase x)) := by
  have hord : ∀ y, b'.order y = m' y := fun y => by rw [Orderbook.order, hpool]
  have hv : ∀ y, (m' y).id = (b.order y).id ∧ (m' y).side = (b.order y).side ∧
      (m' y).price = (b.order y).price := fun y => by
    obtain ⟨e₁, -, e₃, e₄, -⟩ := Order.view_eq (hrel.view y)
    exact ⟨e₁, e₃, e₄⟩
  constructor
  · intro s'
    rw [hpool]
    by_cases e : s' = s
    · subst e
      simpa [setSlots] using hlad
    · rw [hother s' e, setSlots, Function.update_of_ne e]
      refine (h.side s').congr fun p' y hy => ?_
      have hy' : m' y = b.pool.arena y := hrel.other y fun hmem =>
        e (h.unique (List.mem_of_mem_erase hmem) hy).1
      exact ⟨congrArg Order.prev hy', congrArg Order.next hy', congrArg Order.side hy',
        congrArg Order.price hy'⟩
  · intro s' p' y hy
    obtain ⟨hy, hne⟩ := (h.mem_setSlots_erase hx).mp hy
    rw [hord, horders, (hv y).1, AList.lookup_erase_ne fun e => hne (h.id_inj hy hx e)]
    exact h.keyed s' p' y hy
  · intro id y hy
    have hne : id ≠ (b.order x).id := fun e => by rw [e, horders, AList.lookup_erase] at hy; cases hy
    rw [horders, AList.lookup_erase_ne hne] at hy
    obtain ⟨h₁, h₂⟩ := h.resting id y hy
    rw [hord, (hv y).1, (hv y).2.1, (hv y).2.2]
    exact ⟨h₁, (h.mem_setSlots_erase hx).mpr ⟨h₂, fun e => hne (by rw [← e, h₁])⟩⟩
  · rw [hpool]
    exact List.nodup_cons.mpr ⟨h.free_disjoint s p x hx, h.free_nodup⟩
  · intro s' p' y hy
    obtain ⟨hy, hne⟩ := (h.mem_setSlots_erase hx).mp hy
    simp [hpool, hne, h.free_disjoint s' p' y hy]
  · intro y hy
    rw [hpool] at hy
    rcases List.mem_cons.mp hy with rfl | hy
    · exact h.slot_lt s p y hx
    · exact h.free_lt y hy
  · intro s' p' y hy
    exact h.slot_lt s' p' y ((h.mem_setSlots_erase hx).mp hy).1
  · rw [hpool]; exact h.capacity
  · have hsz := AList.size_erase_of_mem (h.mem_orders hx)
    have hfs := h.free_size
    rw [hpool, horders, OrderPool.available, List.length_cons]
    rw [OrderPool.available] at hfs
    omega

/-- `unlink` and `release` of a resting order: its slot leaves its level, the map and
goes back to the pool. -/
theorem unlink_release_ok (h : Shape n b q) {s : Side} {p x : ℕ} (hx : x ∈ q s p) :
    ∃ b₁, b.unlink x = some b₁ ∧ Shape n (b₁.release x) (setSlots q s p ((q s p).erase x)) ∧
      (∀ y, ((b₁.release x).order y).view = (b.order y).view) ∧ b₁.out = b.out ∧
      b₁.nextMatchNumber = b.nextMatchNumber := by
  obtain ⟨hs, hp⟩ := h.place hx
  obtain ⟨l', m', hun, hlad, hrel⟩ := (h.side s).unlink_ok hx
  refine ⟨(b.setLadder l' s).setArena m', ?_, h.of_remove hx ?_ hrel ?_ ?_ ?_, hrel.view, ?_, ?_⟩
  · simp only [Orderbook.unlink, hs, hun, Option.bind_eq_bind, Option.bind_some]
  · cases s <;> exact hlad
  · intro s' e
    rw [← Orderbook.ladder_setLadder_of_ne b l' e]
    cases s' <;> rfl
  · cases s <;> rfl
  · have hid : (m' x).id = (b.order x).id := (Order.view_eq (hrel.view x)).1
    rw [← hid]
    cases s <;> rfl
  · cases s <;> rfl
  · cases s <;> rfl

/-- The book with a new order at the back of its level, in the map and off the free
list. -/
theorem of_add (h : Shape n b q) {x : ℕ} {free : List ℕ} (hf : b.pool.freeList = x :: free) {o : Order}
    (hid : o.id ∉ b.orders) {m' : Arena}
    (hlad : LadderRep o.side (b'.ladder o.side) m'
      (Function.update (q o.side) o.price (q o.side o.price ++ [x])))
    (hrel : Relinked (q o.side o.price ++ [x]) (Function.update b.pool.arena x o) m')
    (hother : ∀ s, s ≠ o.side → b'.ladder s = b.ladder s)
    (hpool : b'.pool = ⟨b.pool.capacity, m', free⟩)
    (horders : b'.orders = b.orders.insert o.id x) :
    Shape n b' (setSlots q o.side o.price (q o.side o.price ++ [x])) := by
  obtain ⟨hxf, hfnd⟩ := List.nodup_cons.mp (hf ▸ h.free_nodup)
  have hxq : ∀ s p, x ∉ q s p := fun s p hx => h.free_disjoint s p x hx (by simp [hf])
  have hmq : ∀ {s p y}, y ∈ q s p → Function.update b.pool.arena x o y = b.order y := fun {s p y} hy =>
    Function.update_of_ne (fun e : y = x => hxq s p (e ▸ hy)) _ _
  have hord : ∀ y, b'.order y = m' y := fun y => by rw [Orderbook.order, hpool]
  obtain ⟨ex₁, -, ex₃, ex₄, -⟩ := Order.view_eq (hrel.view x)
  rw [Function.update_self] at ex₁ ex₃ ex₄
  have hv : ∀ {s p y}, y ∈ q s p → (m' y).id = (b.order y).id ∧ (m' y).side = (b.order y).side ∧
      (m' y).price = (b.order y).price := fun {s p y} hy => by
    obtain ⟨e₁, -, e₃, e₄, -⟩ := Order.view_eq (hrel.view y)
    rw [hmq hy] at e₁ e₃ e₄
    exact ⟨e₁, e₃, e₄⟩
  constructor
  · intro s
    rw [hpool]
    by_cases e : s = o.side
    · subst e
      simpa [setSlots] using hlad
    · rw [hother s e, setSlots, Function.update_of_ne e]
      refine (h.side s).congr fun p y hy => ?_
      have hy' : m' y = b.pool.arena y := by
        rw [hrel.other y fun hmem => ?_, hmq hy]; rfl
        rcases List.mem_append.mp hmem with hy' | hy'
        · exact e (h.unique hy' hy).1
        · exact hxq s p (List.mem_singleton.mp hy' ▸ hy)
      exact ⟨congrArg Order.prev hy', congrArg Order.next hy', congrArg Order.side hy',
        congrArg Order.price hy'⟩
  · intro s p y hy
    rw [horders, hord]
    rcases mem_setSlots_append.mp hy with hy | ⟨rfl, rfl, rfl⟩
    · rw [(hv hy).1, AList.lookup_insert_ne fun e : (b.order y).id = o.id => hid (e ▸ h.mem_orders hy)]
      exact h.keyed s p y hy
    · rw [ex₁, AList.lookup_insert]
  · intro id y hy
    rw [horders] at hy
    rw [hord]
    by_cases e : id = o.id
    · subst e
      rw [AList.lookup_insert] at hy
      obtain rfl := Option.some.inj hy
      rw [ex₁, ex₃, ex₄]
      exact ⟨rfl, mem_setSlots_append.mpr (.inr ⟨rfl, rfl, rfl⟩)⟩
    · rw [AList.lookup_insert_ne e] at hy
      obtain ⟨h₁, h₂⟩ := h.resting id y hy
      rw [(hv h₂).1, (hv h₂).2.1, (hv h₂).2.2]
      exact ⟨h₁, mem_setSlots_append.mpr (.inl h₂)⟩
  · rw [hpool]; exact hfnd
  · intro s p y hy
    rw [hpool]
    rcases mem_setSlots_append.mp hy with hy | ⟨-, -, rfl⟩
    · exact fun hyf => h.free_disjoint s p y hy (by rw [hf]; exact List.mem_cons_of_mem _ hyf)
    · exact hxf
  · rw [hpool]
    exact fun y hy => h.free_lt y (by rw [hf]; exact List.mem_cons_of_mem _ hy)
  · intro s p y hy
    rcases mem_setSlots_append.mp hy with hy | ⟨-, -, rfl⟩
    · exact h.slot_lt s p y hy
    · exact h.free_lt y (by rw [hf]; exact List.mem_cons_self)
  · rw [hpool]; exact h.capacity
  · have hfs := h.free_size
    rw [OrderPool.available, hf, List.length_cons] at hfs
    rw [hpool, horders, AList.size_insert_of_notMem hid, OrderPool.available]
    show free.length + _ = n
    omega

/-- `rest` of a new order: it takes a free slot, the map's entry for its id and the
back of its level. -/
theorem rest_ok (h : Shape n b q) {o : Order} (hfree : b.pool.available ≠ 0) (hp : InBand o.price)
    (hid : o.id ∉ b.orders) (hprev : o.prev = none) (hnext : o.next = none) (ctx : Context) (publishAdd : Bool) :
    ∃ x b', b.rest ctx o publishAdd = some b' ∧
      Shape n b' (setSlots q o.side o.price (q o.side o.price ++ [x])) ∧ (b'.order x).view = o.view ∧
      (∀ s p, ∀ y ∈ q s p, (b'.order y).view = (b.order y).view) ∧
      b'.out = (if publishAdd then b.out.publish ctx
        (.addOrder o.id (toOuchSide o.side) o.openQuantity bookSymbol (toItchPrice o.price)) else b.out) ∧
      b'.nextMatchNumber = b.nextMatchNumber := by
  obtain ⟨x, free, hf⟩ : ∃ x free, b.pool.freeList = x :: free :=
    List.exists_cons_of_length_pos (Nat.pos_of_ne_zero hfree)
  have hxq : ∀ s p, x ∉ q s p := fun s p hx => h.free_disjoint s p x hx (by simp [hf])
  -- the book once the order is copied into its slot
  let b₀ : Orderbook := { b with
    pool := { b.pool with arena := Function.update b.pool.arena x o, freeList := free }
    orders := b.orders.insert o.id x }
  have hmx : b₀.order x = o := Function.update_self ..
  have hmq : ∀ {s p y}, y ∈ q s p → b₀.order y = b.order y := fun {s p y} hy =>
    Function.update_of_ne (fun e : y = x => hxq s p (e ▸ hy)) _ _
  have hl₀ : ∀ s, b₀.ladder s = b.ladder s := fun s => by cases s <;> rfl
  have hlad₀ : LadderRep o.side (b₀.ladder o.side) b₀.pool.arena (q o.side) := by
    rw [hl₀]
    exact (h.side o.side).congr fun p y hy => by
      show (b₀.order y).prev = _ ∧ (b₀.order y).next = _ ∧ (b₀.order y).side = _ ∧ (b₀.order y).price = _
      rw [hmq hy]; exact ⟨rfl, rfl, rfl, rfl⟩
  obtain ⟨l', m', hrest, hlad, hrel⟩ := hlad₀.rest_ok (x := x) (by rw [← Orderbook.order, hmx]; exact hp)
    (by rw [← Orderbook.order, hmx]) (hxq _ _) (by rw [← Orderbook.order, hmx]; exact hprev)
    (by rw [← Orderbook.order, hmx]; exact hnext)
  rw [← Orderbook.order, hmx] at hlad hrel
  have hvx : (m' x).view = o.view := (hrel.view x).trans (congrArg Order.view hmx)
  obtain ⟨ex₁, -, ex₃, ex₄, ex₅, -⟩ := Order.view_eq hvx
  have hshape : Shape n ((b₀.setLadder l' o.side).setArena m')
      (setSlots q o.side o.price (q o.side o.price ++ [x])) := by
    refine h.of_add hf hid ?_ hrel ?_ ?_ ?_
    · rw [Orderbook.ladder_setArena, Orderbook.ladder_setLadder_self]; exact hlad
    · intro s e
      rw [Orderbook.ladder_setArena, Orderbook.ladder_setLadder_of_ne _ _ e, hl₀]
    · simp [Orderbook.setArena, b₀]
    · simp [Orderbook.setArena, b₀]
  have heval : b.rest ctx o publishAdd = (if publishAdd then
      some (((b₀.setLadder l' o.side).setArena m').publish ctx
        (.addOrder o.id (toOuchSide o.side) o.openQuantity bookSymbol (toItchPrice o.price)))
      else some ((b₀.setLadder l' o.side).setArena m')) := by
    have hm : (Function.update b.pool.arena x o x).id = o.id := by rw [Function.update_self]
    simp only [Orderbook.rest, OrderPool.allocate, hf, Option.bind_eq_bind, Option.bind_some, hm,
      AList.emplace_of_notMem hid]
    show (((b₀.ladder (b₀.order x).side).rest (b₀.order x).side b₀.pool.arena x).bind fun a =>
      if publishAdd = true then _ else _) = _
    simp only [hmx, hrest, Option.bind_some]
    show (if publishAdd = true then some (((b₀.setLadder l' (b₀.order x).side).setArena m').publish ctx _)
      else some ((b₀.setLadder l' (b₀.order x).side).setArena m')) = _
    simp only [hmx, Orderbook.order_setArena, ex₁, ex₃, ex₄, ex₅]
  have hview : ∀ s p, ∀ y ∈ q s p, (m' y).view = (b.order y).view := fun s p y hy =>
    (hrel.view y).trans (congrArg Order.view (hmq hy))
  have hout : ((b₀.setLadder l' o.side).setArena m').out = b.out := by simp [Orderbook.setArena, b₀]
  have hnum : ((b₀.setLadder l' o.side).setArena m').nextMatchNumber = b.nextMatchNumber := by
    simp [Orderbook.setArena, b₀]
  cases publishAdd
  · exact ⟨x, _, heval, hshape, hvx, hview, hout, hnum⟩
  · exact ⟨x, _, heval, hshape.congr rfl rfl rfl rfl, hvx, hview,
      congrArg (Output.publish · ctx _) hout, hnum⟩

end Shape

end Exchange
