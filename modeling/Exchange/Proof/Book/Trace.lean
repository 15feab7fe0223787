import Exchange.Proof.Book.Invariant
import Exchange.Spec.Events

/-!
# The life of an order

`Life.step id` follows one order id through the events, and has no result on an event
the order cannot have: a second opening, more shares than are left, anything after its
end. `Life.follow_steps` says that every run's events can be followed, and that what is left of
the order is what the book has of it; `Life.follow_spec` and `Life.isOver_of_dead` read
the trace of the order off that.
-/

namespace Exchange.Spec

/-- Where an order is in its life. `opened q d` was opened with `q` shares, of which `d`
were executed or canceled; `replaced q d` was replaced at that point. -/
inductive Life
  | unborn
  | rejected
  | opened (quantity done : ℕ)
  | replaced (quantity done : ℕ)
  deriving DecidableEq, Repr

namespace Life

/-- What an event does to the life of order `id`. -/
def step (id : ℕ) (l : Life) (e : Event) : Option Life :=
  if e.orderId = id then
    match l, e.type with
    | .unborn, .accepted => some (.opened e.quantity 0)
    | .unborn, .replaced => if e.origOrderId = id then none else some (.opened e.quantity 0)
    | .unborn, .rejected => some .rejected
    | .opened q d, .executed => if 0 < e.quantity ∧ d + e.quantity ≤ q then some (.opened q (d + e.quantity)) else none
    | .opened q d, .canceled => if 0 < e.quantity ∧ d + e.quantity ≤ q then some (.opened q (d + e.quantity)) else none
    | _, _ => none
  else if e.type = .replaced ∧ e.origOrderId = id then
    match l with
    | .opened q d => if d < q then some (.replaced q d) else none
    | _ => none
  else some l

/-- The life of order `id` through a list of events. -/
def follow (id : ℕ) (l : Life) (events : List Event) : Option Life := events.foldlM (step id) l

theorem follow_append (id : ℕ) (l : Life) (es es' : List Event) :
    follow id l (es ++ es') = (follow id l es).bind fun l' => follow id l' es' := by
  simp only [follow, List.foldlM_append, Option.bind_eq_bind]

theorem follow_cons (id : ℕ) (l : Life) (e : Event) (es : List Event) :
    follow id l (e :: es) = (step id l e).bind fun l' => follow id l' es := by
  simp only [follow, List.foldlM_cons, Option.bind_eq_bind]

theorem follow_singleton (id : ℕ) (l : Life) (e : Event) : follow id l [e] = step id l e := by
  rw [follow_cons]
  cases step id l e <;> rfl

/-- Which event answers a request does not matter. -/
theorem follow_flagFirst (id : ℕ) (l : Life) (es : List Event) : follow id l (flagFirst es) = follow id l es := by
  cases es with
  | nil => rfl
  | cons e es => rfl

/-- What a step can be. -/
theorem step_cases {id : ℕ} {l l' : Life} {e : Event} (h : step id l e = some l') :
    (e.orderId = id ∧ ¬ (e.type = .replaced ∧ e.origOrderId = id) ∧
      (l = .unborn ∧ Opens e ∧ l' = .opened e.quantity 0 ∨ l = .unborn ∧ e.type = .rejected ∧ l' = .rejected ∨
        ∃ q d, l = .opened q d ∧ TakesShares e ∧ d + e.quantity ≤ q ∧ l' = .opened q (d + e.quantity))) ∨
    (e.orderId ≠ id ∧ e.type = .replaced ∧ e.origOrderId = id ∧
      ∃ q d, l = .opened q d ∧ d < q ∧ l' = .replaced q d) ∨
    (e.orderId ≠ id ∧ ¬ (e.type = .replaced ∧ e.origOrderId = id) ∧ l' = l) := by
  unfold step at h
  split at h
  · next hid =>
    refine .inl ⟨hid, ?_⟩
    cases l <;> cases ht : e.type <;> simp only [ht, reduceCtorEq, Option.some.injEq, Option.ite_none_right_eq_some,
      Option.ite_none_left_eq_some] at h <;> simp_all [Opens, TakesShares]
  · next hid =>
    split at h
    · next hr =>
      refine .inr (.inl ⟨hid, hr.1, hr.2, ?_⟩)
      cases l <;> simp_all
    · next hr => exact .inr (.inr ⟨hid, hr, (Option.some.inj h).symm⟩)

/-! ## Reading the trace -/

/-- What the life says of the events up to it. -/
def Describes (id : ℕ) (events : List Event) : Life → Prop
  | .unborn => trace id events = [] ∧ ¬ ReplacedAway id events
  | .rejected => (∃ e, trace id events = [e] ∧ e.type = .rejected) ∧ ¬ ReplacedAway id events
  | .opened q d => (∃ e rest, trace id events = e :: rest ∧ Opens e ∧ (∀ e' ∈ rest, TakesShares e') ∧
      e.quantity = q ∧ taken rest = d) ∧ ¬ ReplacedAway id events
  | .replaced q d => (∃ e rest, trace id events = e :: rest ∧ Opens e ∧ (∀ e' ∈ rest, TakesShares e') ∧
      e.quantity = q ∧ taken rest = d) ∧ d < q ∧ ReplacedAway id events

theorem trace_concat (id : ℕ) (es : List Event) (e : Event) :
    trace id (es ++ [e]) = trace id es ++ if e.orderId = id then [e] else [] := by
  rw [trace, List.filter_append]
  by_cases h : e.orderId = id <;> simp [trace, h]

theorem replacedAway_concat {id : ℕ} {es : List Event} {e : Event} :
    ReplacedAway id (es ++ [e]) ↔ ReplacedAway id es ∨ e.type = .replaced ∧ e.origOrderId = id := by
  simp only [ReplacedAway, List.mem_append, List.mem_singleton, or_and_right, exists_or, exists_eq_left]

theorem Describes.step {id : ℕ} {es : List Event} {l l' : Life} {e : Event} (h : Describes id es l)
    (hs : Life.step id l e = some l') : Describes id (es ++ [e]) l' := by
  rcases step_cases hs with ⟨hid, hr, hc⟩ | ⟨hid, ht, ho, q, d, rfl, hlt, rfl⟩ | ⟨hid, hr, rfl⟩
  · have htr : trace id (es ++ [e]) = trace id es ++ [e] := by rw [trace_concat, if_pos hid]
    have hra : ReplacedAway id (es ++ [e]) ↔ ReplacedAway id es := by rw [replacedAway_concat]; tauto
    rcases hc with ⟨rfl, hop, rfl⟩ | ⟨rfl, ht, rfl⟩ | ⟨q, d, rfl, htk, -, rfl⟩
    · refine ⟨⟨e, [], by rw [htr, h.1]; rfl, hop, by simp, rfl, rfl⟩, ?_⟩
      rw [hra]; exact h.2
    · refine ⟨⟨e, by rw [htr, h.1]; rfl, ht⟩, ?_⟩
      rw [hra]; exact h.2
    · obtain ⟨⟨e₀, rest, he, hop, htk', hq, hd⟩, hnr⟩ := h
      refine ⟨⟨e₀, rest ++ [e], by rw [htr, he]; rfl, hop, ?_, hq, ?_⟩, ?_⟩
      · intro e' he'
        rcases List.mem_append.mp he' with he' | he'
        · exact htk' e' he'
        · rw [List.mem_singleton.mp he']; exact htk
      · rw [← hd]; simp [taken]
      · rw [hra]; exact hnr
  · have htr : trace id (es ++ [e]) = trace id es := by rw [trace_concat, if_neg hid, List.append_nil]
    obtain ⟨hopen, -⟩ := h
    refine ⟨by rw [htr]; exact hopen, hlt, ?_⟩
    rw [replacedAway_concat]
    exact .inr ⟨ht, ho⟩
  · have htr : trace id (es ++ [e]) = trace id es := by rw [trace_concat, if_neg hid, List.append_nil]
    have hra : ReplacedAway id (es ++ [e]) ↔ ReplacedAway id es := by rw [replacedAway_concat]; tauto
    cases l' <;> simpa only [Describes, htr, hra] using h

/-- The life followed through the events describes them. -/
theorem follow_spec {id : ℕ} {es₀ es : List Event} {l l' : Life} (h : Describes id es₀ l)
    (hf : follow id l es = some l') : Describes id (es₀ ++ es) l' := by
  induction es generalizing es₀ l with
  | nil =>
    obtain rfl : l = l' := Option.some.inj hf
    rw [List.append_nil]; exact h
  | cons e es ih =>
    rw [follow_cons] at hf
    obtain ⟨l₁, hs, hf⟩ := Option.bind_eq_some_iff.mp hf
    have := ih (h.step hs) hf
    rwa [List.append_assoc] at this

theorem describes_nil (id : ℕ) : Describes id [] .unborn := ⟨rfl, fun ⟨_, he, _⟩ => by cases he⟩

/-- An order with no shares left. -/
def IsOver : Life → Prop
  | .unborn => False
  | .rejected => True
  | .opened q d => d = q
  | .replaced _ _ => True

theorem isOver_of_dead {id : ℕ} {es : List Event} {l : Life} (h : Describes id es l) (hd : Dead id es) :
    l.IsOver := by
  cases l with
  | unborn =>
    obtain ⟨ht, hr⟩ := h
    rcases hd with ⟨e, he, -⟩ | hra | ⟨e, rest, he, -⟩
    · rw [ht] at he; cases he
    · exact hr hra
    · rw [ht] at he; cases he
  | rejected => trivial
  | opened q d =>
    obtain ⟨⟨e, rest, he, hop, htk, hq, hd'⟩, hnr⟩ := h
    rcases hd with ⟨e', he', hrej⟩ | hra | ⟨e', rest', he', -, htaken⟩
    · -- an opened order has no rejection in its trace
      rw [he] at he'
      rcases List.mem_cons.mp he' with rfl | he'
      · rcases hop with h | h <;> rw [h] at hrej <;> cases hrej
      · rcases (htk e' he').1 with h | h <;> rw [h] at hrej <;> cases hrej
    · exact absurd hra hnr
    · rw [he] at he'
      obtain ⟨rfl, rfl⟩ := List.cons.inj he'
      exact hd'.symm.trans (htaken.trans hq)
  | replaced q d => trivial

/-- Nothing follows the end of an order. -/
theorem follow_isOver {id : ℕ} {l l' : Life} {es : List Event} (h : l.IsOver) (hf : follow id l es = some l') :
    ∀ e ∈ es, e.orderId ≠ id := by
  induction es generalizing l with
  | nil => intro e he; cases he
  | cons e es ih =>
    rw [follow_cons] at hf
    obtain ⟨l₁, hs, hf'⟩ := Option.bind_eq_some_iff.mp hf
    rcases step_cases hs with ⟨-, -, hc⟩ | ⟨-, -, -, q, d, rfl, hlt, -⟩ | ⟨hid, -, rfl⟩
    · rcases hc with ⟨rfl, -⟩ | ⟨rfl, -⟩ | ⟨q, d, rfl, htk, hle, -⟩
      · cases h
      · cases h
      · have hdq : d = q := h
        have := htk.2
        omega
    · have hdq : d = q := h
      omega
    · intro e' he'
      rcases List.mem_cons.mp he' with rfl | he'
      · exact hid
      · exact ih h hf' e' he'

/-! ## The book -/

/-- What is left of an order is what the book has of it. -/
def Agrees (b : Book) (id : ℕ) : Life → Prop
  | .opened q d => (∀ r ∈ b.orders, r.id = id → d + r.openQuantity = q) ∧ (id ∉ b.ids → d = q)
  | _ => id ∉ b.ids

variable {b b' : Book} {id : ℕ} {l : Life}

/-- Only the order itself matters. -/
theorem Agrees.congr (h : l.Agrees b id) (hb : ∀ r, r.id = id → (r ∈ b'.orders ↔ r ∈ b.orders)) :
    l.Agrees b' id := by
  have hids : id ∈ b'.ids ↔ id ∈ b.ids := by
    simp only [Book.mem_ids]
    constructor
    · rintro ⟨r, hr, rfl⟩
      exact ⟨r, (hb r rfl).mp hr, rfl⟩
    · rintro ⟨r, hr, rfl⟩
      exact ⟨r, (hb r rfl).mpr hr, rfl⟩
  cases l with
  | opened q d => exact ⟨fun r hr e => h.1 r ((hb r e).mp hr) e, fun hn => h.2 fun hm => hn (hids.mpr hm)⟩
  | unborn => exact fun hm => h (hids.mp hm)
  | rejected => exact fun hm => h (hids.mp hm)
  | replaced q d => exact fun hm => h (hids.mp hm)

/-- The life of an order that rests. -/
theorem Agrees.opened_of_mem (h : l.Agrees b id) {r : Resting} (hr : r ∈ b.orders) (e : r.id = id) :
    ∃ q d, l = .opened q d ∧ d + r.openQuantity = q := by
  have hm : id ∈ b.ids := Book.mem_ids.mpr ⟨r, hr, e⟩
  cases l with
  | opened q d => exact ⟨q, d, rfl, h.1 r hr e⟩
  | unborn => exact absurd hm h
  | rejected => exact absurd hm h
  | replaced q d => exact absurd hm h

/-- An event that does not name the order. -/
theorem step_of_ne {e : Event} (h : e.orderId ≠ id) (h' : e.type ≠ .replaced ∨ e.origOrderId ≠ id) :
    step id l e = some l := by
  unfold step
  rw [if_neg h, if_neg]
  rintro ⟨h₁, h₂⟩
  exact h'.elim (fun h => h h₁) fun h => h h₂

/-- An event that takes shares of the order. -/
theorem step_takes {e : Event} {q d : ℕ} (h : e.orderId = id) (ht : e.type = .executed ∨ e.type = .canceled)
    (hpos : 0 < e.quantity) (hle : d + e.quantity ≤ q) :
    step id (.opened q d) e = some (.opened q (d + e.quantity)) := by
  unfold step
  rw [if_pos h]
  rcases ht with ht | ht <;> simp [ht, hpos, hle]

/-- `n` shares of the resting order `r` executed. -/
theorem Agrees.trade (h : l.Agrees b id) (hb : b.WF) {r : Resting} (hr : r ∈ b.orders) {n : ℕ} (hpos : 0 < n)
    (hn : n ≤ r.openQuantity) {e : Event} (hid : e.orderId = r.id) (ht : e.type = .executed)
    (hq : e.quantity = n) : ∃ l', step id l e = some l' ∧ l'.Agrees (b.trade r n) id := by
  by_cases hri : r.id = id
  · obtain ⟨q, d, rfl, hd⟩ := h.opened_of_mem hr hri
    refine ⟨.opened q (d + n), hq ▸ step_takes (hid.trans hri) (.inl ht) (by omega) (by omega), ?_, fun hm => ?_⟩
    · intro r' hr' hri'
      rcases (Book.mem_orders_trade hb hr).mp hr' with ⟨-, hne⟩ | ⟨hlt, rfl⟩
      · exact absurd (hri'.trans hri.symm) hne
      · show d + n + (r.openQuantity - n) = q
        omega
    · -- a filled order is gone
      by_contra hne
      exact hm (Book.mem_ids.mpr ⟨_, (Book.mem_orders_trade hb hr).mpr (.inr ⟨by omega, rfl⟩), hri⟩)
  · refine ⟨l, step_of_ne (by rw [hid]; exact hri) (.inl (by rw [ht]; decide)), h.congr fun r' hr' => ?_⟩
    rw [Book.mem_orders_trade hb hr]
    constructor
    · rintro (⟨h₁, -⟩ | ⟨-, rfl⟩)
      · exact h₁
      · exact absurd hr' hri
    · exact fun h₁ => .inl ⟨h₁, fun e => hri (e ▸ hr')⟩

end Life

/-! ## Incoming orders -/

open Life

variable {b : Book} {id : ℕ} {l : Life}

theorem tradeEvents_append (id clientId k : ℕ) (fs : List (Resting × ℕ)) (r : Resting) (n : ℕ) :
    tradeEvents id clientId k (fs ++ [(r, n)]) =
      tradeEvents id clientId k fs ++ tradeEvents id clientId (k + fs.length) [(r, n)] := by
  induction fs generalizing k with
  | nil => rfl
  | cons f fs ih =>
    obtain ⟨r', n'⟩ := f
    simp only [List.cons_append, tradeEvents, ih, List.length_cons, Nat.add_assoc, Nat.add_comm 1]

/-- The trades of an incoming order, for the orders it trades with. -/
theorem follow_trades (i : Incoming) (hb : b.WF) (hid : id ≠ i.id) (h : l.Agrees b id) :
    ∃ l', follow id l (tradeEvents i.id i.clientId b.nextMatchNumber (i.trades b).1) = some l' ∧
      l'.Agrees (i.traded b) id := by
  refine (i.trades_induct (P := fun fs b' => ∃ l', follow id l
    (tradeEvents i.id i.clientId b.nextMatchNumber fs) = some l' ∧ l'.Agrees b' id) hb ⟨l, rfl, h⟩ ?_).1
  rintro fs b' r n ⟨l₁, hf, ha⟩ hb' hr hpos hn -
  obtain ⟨l₂, hs, ha₂⟩ := ha.trade hb' (Book.mem_orders.mpr ⟨_, hr⟩) hpos hn (e := {
    orderId := r.id, matchNumber := b.nextMatchNumber + fs.length, clientId := r.clientId, price := r.price,
    quantity := n, type := .executed, reason := .addedLiquidity }) rfl rfl rfl
  refine ⟨l₂, ?_, ha₂⟩
  rw [tradeEvents_append, follow_append, hf, Option.bind_some, tradeEvents, follow_cons,
    step_of_ne (by exact hid.symm) (.inl (by simp)), Option.bind_some]
  exact (follow_singleton _ _ _).trans hs

/-- The trades of an incoming order, for itself. -/
theorem follow_trades_self (i : Incoming) (hb : b.WF) (hid : i.id ∉ b.ids) :
    follow i.id (.opened i.quantity 0) (tradeEvents i.id i.clientId b.nextMatchNumber (i.trades b).1) =
      some (.opened i.quantity (filled (i.trades b).1)) := by
  refine (i.trades_induct (P := fun fs b' => i.id ∉ b'.ids ∧ follow i.id (.opened i.quantity 0)
    (tradeEvents i.id i.clientId b.nextMatchNumber fs) = some (.opened i.quantity (filled fs))) hb ⟨hid, rfl⟩
    ?_).1.2
  rintro fs b' r n ⟨hid', hf⟩ hb' hr hpos hn hle
  have hmem : r ∈ b'.orders := Book.mem_orders.mpr ⟨_, hr⟩
  have hne : r.id ≠ i.id := fun e => hid' (Book.mem_ids.mpr ⟨r, hmem, e⟩)
  refine ⟨fun hm => ?_, ?_⟩
  · obtain ⟨r', hr', e⟩ := Book.mem_ids.mp hm
    rcases (Book.mem_orders_trade hb' hmem).mp hr' with ⟨h₁, -⟩ | ⟨-, rfl⟩
    · exact hid' (Book.mem_ids.mpr ⟨r', h₁, e⟩)
    · exact hne e
  · have htaker : step i.id (.opened i.quantity (filled fs)) {
        orderId := i.id, matchNumber := b.nextMatchNumber + fs.length, clientId := i.clientId, price := r.price,
        quantity := n, type := .executed, reason := .removedLiquidity } =
        some (.opened i.quantity (filled fs + n)) := step_takes rfl (.inl rfl) hpos hle
    rw [tradeEvents_append, follow_append, hf, Option.bind_some, tradeEvents, follow_cons, htaker,
      Option.bind_some, filled_append]
    exact (follow_singleton _ _ _).trans (step_of_ne hne (.inl (by simp)))

/-- What an order that comes in does to the others. -/
theorem follow_incoming (i : Incoming) (hb : b.WF) (hid : id ≠ i.id) (h : l.Agrees b id) :
    ∃ l', follow id l (i.events b) = some l' ∧ l'.Agrees (i.book b) id := by
  obtain ⟨l', hf, ha⟩ := follow_trades i hb hid h
  refine ⟨l', ?_, ?_⟩
  · rw [Incoming.events, follow_append, hf, Option.bind_some]
    split
    · exact (follow_singleton _ _ _).trans (step_of_ne (by exact hid.symm) (.inl (by simp)))
    · rfl
  · rw [Incoming.book_eq]
    split
    · refine ha.congr fun r hr => ?_
      rw [Book.mem_orders_append]
      refine or_iff_left fun e => hid ?_
      rw [← hr, e]; rfl
    · exact ha

/-- What becomes of an order that comes in. -/
theorem follow_incoming_self (i : Incoming) (hb : b.WF) (hid : i.id ∉ b.ids) :
    ∃ l', follow i.id (.opened i.quantity 0) (i.events b) = some l' ∧ l'.Agrees (i.book b) i.id := by
  have hf := follow_trades_self i hb hid
  have hq := i.filled_add_remaining hb
  have hnot : ∀ r ∈ (i.traded b).orders, r.id ≠ i.id := fun r hr e =>
    hid (i.mem_ids_of_traded hb (Book.mem_ids.mpr ⟨r, hr, e⟩))
  rw [Incoming.events, follow_append, hf, Option.bind_some, Incoming.book_eq]
  by_cases hz : i.remaining b = 0
  · -- filled
    refine ⟨_, by rw [if_neg fun hc => hc.1 hz]; rfl, ?_⟩
    rw [if_neg (by simp [Incoming.comesToRest, hz])]
    exact ⟨fun r hr e => absurd e (hnot r hr), fun _ => by omega⟩
  cases hr : i.rests with
  | true =>
    -- the remainder rests
    refine ⟨_, by rw [if_neg (by simp)]; rfl, ?_⟩
    rw [if_pos (by simp [Incoming.comesToRest, hz, hr])]
    refine ⟨fun r hr' e => ?_, fun hm => absurd ?_ hm⟩
    · rcases Book.mem_orders_append.mp hr' with hr' | rfl
      · exact absurd e (hnot r hr')
      · exact hq
    · exact Book.mem_ids.mpr ⟨_, Book.mem_orders_append.mpr (.inr rfl), rfl⟩
  | false =>
    -- the remainder is canceled
    have hstep : step i.id (.opened i.quantity (filled (i.trades b).1)) {
        orderId := i.id, clientId := i.clientId, price := i.price, quantity := i.remaining b,
        type := .canceled, reason := .immediateOrCancel } =
        some (.opened i.quantity (filled (i.trades b).1 + i.remaining b)) :=
      step_takes rfl (.inr rfl) (Nat.pos_of_ne_zero hz) (by show _ + i.remaining b ≤ _; omega)
    refine ⟨_, by rw [if_pos ⟨hz, by simp⟩, follow_singleton, hstep], ?_⟩
    rw [if_neg (by simp [Incoming.comesToRest, hr])]
    exact ⟨fun r hr e => absurd e (hnot r hr), fun _ => hq⟩

/-! ## Requests -/

variable {req : EngineRequest}

theorem follow_cancelAll (h : l.Agrees b id) (hb : b.WF) {o : Resting} (ho : o ∈ b.orders) :
    ∃ l', follow id l (cancelAll b o).events = some l' ∧ l'.Agrees (cancelAll b o).book id := by
  have hpos := hb.open_pos o ho
  by_cases hid : o.id = id
  · obtain ⟨q, d, rfl, hd⟩ := h.opened_of_mem ho hid
    refine ⟨.opened q (d + o.openQuantity), ?_, fun r hr e => ?_, fun _ => hd⟩
    · exact (follow_singleton _ _ _).trans (step_takes hid (.inr rfl) hpos (Nat.le_of_eq hd))
    · exact absurd (e.trans hid.symm) (Book.mem_orders_remove.mp hr).2
  · refine ⟨l, (follow_singleton _ _ _).trans (step_of_ne hid (.inl (by simp))), h.congr fun r hr => ?_⟩
    exact Book.mem_orders_remove.trans (and_iff_left fun e => hid (e.symm.trans hr))

theorem follow_enter (capacity : ℕ) (h : l.Agrees b id) (hb : b.WF) (hnew : id = req.orderId → l = .unborn) :
    ∃ l', follow id l (enter capacity b req).events = some l' ∧ l'.Agrees (enter capacity b req).book id := by
  unfold enter
  dsimp only
  split_ifs with hmem
  · exact ⟨l, rfl, h⟩
  · by_cases hid : id = req.orderId
    · obtain rfl := hnew hid
      refine ⟨.rejected, (follow_singleton _ _ _).trans ?_, by rw [hid]; exact hmem⟩
      unfold step
      rw [if_pos hid.symm]
    · exact ⟨l, (follow_singleton _ _ _).trans (step_of_ne (by exact Ne.symm hid) (.inl (by simp))), h⟩
  · by_cases hid : id = req.orderId
    · obtain rfl := hnew hid
      subst hid
      have hstep : step req.orderId .unborn {
          orderId := req.orderId, clientId := req.clientId, price := req.price, quantity := req.quantity,
          type := .accepted } = some (.opened req.quantity 0) := if_pos rfl
      obtain ⟨l', hf, ha⟩ := follow_incoming_self (newOrder req) hb hmem
      exact ⟨l', by rw [follow_cons, hstep]; exact hf, ha⟩
    · obtain ⟨l', hf, ha⟩ := follow_incoming (newOrder req) hb hid h
      refine ⟨l', ?_, ha⟩
      rw [follow_cons, step_of_ne (by exact Ne.symm hid) (.inl (by simp)), Option.bind_some, hf]

theorem follow_cancel (h : l.Agrees b id) (hb : b.WF) :
    ∃ l', follow id l (cancel b req).events = some l' ∧ l'.Agrees (cancel b req).book id := by
  unfold cancel
  cases hf : b.find? req.orderId with
  | none => exact ⟨l, rfl, h⟩
  | some o =>
    obtain ⟨ho, -⟩ := find?_mem hf
    dsimp only
    split_ifs with hign hz
    · exact ⟨l, rfl, h⟩
    · exact follow_cancelAll h hb ho
    · by_cases hid : o.id = id
      · obtain ⟨q, d, rfl, hd⟩ := h.opened_of_mem ho hid
        refine ⟨.opened q (d + (o.openQuantity - (req.quantity - o.executedQuantity))),
          (follow_singleton _ _ _).trans (step_takes hid (.inr rfl) ?_ ?_), fun r hr e => ?_, fun hm => ?_⟩
        · dsimp only; omega
        · dsimp only; omega
        · rcases Book.mem_orders_reduce.mp hr with ⟨-, hne⟩ | ⟨r', hr', e', rfl⟩
          · exact absurd (e.trans hid.symm) hne
          · dsimp only; omega
        · refine absurd ?_ hm
          exact Book.mem_ids.mpr ⟨_, Book.mem_orders_reduce.mpr (.inr ⟨o, ho, rfl, rfl⟩), hid⟩
      · refine ⟨l, (follow_singleton _ _ _).trans (step_of_ne hid (.inl (by simp))), h.congr fun r hr => ?_⟩
        rw [Book.mem_orders_reduce]
        constructor
        · rintro (⟨h₁, -⟩ | ⟨r', hr', e, rfl⟩)
          · exact h₁
          · exact absurd (e.symm.trans hr) hid
        · exact fun h₁ => .inl ⟨h₁, fun e => hid (e.symm.trans hr)⟩

theorem follow_replace (h : l.Agrees b id) (hb : b.WF) (hnew : id = req.newOrderId → l = .unborn) :
    ∃ l', follow id l (replace b req).events = some l' ∧ l'.Agrees (replace b req).book id := by
  unfold replace
  cases hf : b.find? req.orderId with
  | none => exact ⟨l, rfl, h⟩
  | some o =>
    obtain ⟨ho, -⟩ := find?_mem hf
    dsimp only
    split
    · exact ⟨l, rfl, h⟩
    next hign =>
    split
    · exact follow_cancelAll h hb ho
    next hz =>
    have hfresh : req.newOrderId ∉ b.ids := fun hm => hign (.inr hm)
    have hne : o.id ≠ req.newOrderId := fun e => hfresh (Book.mem_ids.mpr ⟨o, ho, e⟩)
    have hb' := hb.remove o.id
    dsimp only
    by_cases hid : id = req.newOrderId
    · obtain rfl := hnew hid
      subst hid
      have hstep : step req.newOrderId .unborn {
          orderId := req.newOrderId, origOrderId := o.id, clientId := req.clientId, price := req.price,
          quantity := (replacement req o).quantity, type := .replaced } =
          some (.opened (replacement req o).quantity 0) := (if_pos rfl).trans (if_neg hne)
      obtain ⟨l', hf', ha⟩ := follow_incoming_self (replacement req o) hb'
        fun hm => hfresh (Book.mem_ids_remove.mp hm).1
      exact ⟨l', by rw [follow_cons]; exact (congrArg (Option.bind · _) hstep).trans hf', ha⟩
    -- the original ends, every other order goes on
    obtain ⟨l₁, hs, ha⟩ : ∃ l₁, step id l {
        orderId := req.newOrderId, origOrderId := o.id, clientId := req.clientId, price := req.price,
        quantity := (replacement req o).quantity, type := .replaced } = some l₁ ∧
        l₁.Agrees (b.remove o.id) id := by
      by_cases ho' : o.id = id
      · obtain ⟨q, d, rfl, hd⟩ := h.opened_of_mem ho ho'
        have hpos := hb.open_pos o ho
        refine ⟨.replaced q d, ?_, fun hm => (Book.mem_ids_remove.mp hm).2 ho'.symm⟩
        unfold step
        rw [if_neg (Ne.symm hid), if_pos ⟨rfl, ho'⟩]
        exact if_pos (by omega)
      · refine ⟨l, step_of_ne (Ne.symm hid) (.inr ho'), h.congr fun r hr => ?_⟩
        exact Book.mem_orders_remove.trans (and_iff_left fun e => ho' (e.symm.trans hr))
    obtain ⟨l', hf', ha'⟩ := follow_incoming (replacement req o) hb' hid ha
    exact ⟨l', by rw [follow_cons]; exact (congrArg (Option.bind · _) hs).trans hf', ha'⟩

/-- Every request can be followed, for every order. -/
theorem follow_process (capacity : ℕ) (h : l.Agrees b id) (hb : b.WF) (hnew : id ∈ introduces req → l = .unborn) :
    ∃ l', follow id l (process capacity b req).events = some l' ∧ l'.Agrees (process capacity b req).book id := by
  show ∃ l', follow id l (flagFirst (handle capacity b req).events) = some l' ∧
    l'.Agrees (handle capacity b req).book id
  rw [follow_flagFirst]
  unfold handle
  cases ht : req.type with
  | new => exact follow_enter capacity h hb fun e => hnew (by simp [introduces, ht, e])
  | cancel => exact follow_cancel h hb
  | replace => exact follow_replace h hb fun e => hnew (by simp [introduces, ht, e])

/-! ## Runs -/

/-- The kinds of event a trade and a remainder cause. -/
theorem takes_of_mem_events {i : Incoming} {e : Event} (he : e ∈ i.events b) :
    e.type = .executed ∨ e.type = .canceled := by
  have htrades : ∀ (k : ℕ) (fs : List (Resting × ℕ)), ∀ e ∈ tradeEvents i.id i.clientId k fs,
      e.type = .executed := by
    intro k fs
    induction fs generalizing k with
    | nil => intro e he; cases he
    | cons f fs ih =>
      intro e he
      rcases List.mem_cons.mp he with rfl | he
      · rfl
      rcases List.mem_cons.mp he with rfl | he
      · rfl
      exact ih (k + 1) e he
  rcases List.mem_append.mp he with he | he
  · exact .inl (htrades _ _ e he)
  · split at he
    · rw [List.mem_singleton.mp he]; exact .inr rfl
    · cases he

/-- The events that begin an order's life: the answers to a NEW and to a REPLACE. -/
theorem begins_cases (capacity : ℕ) {e : Event} (he : e ∈ (handle capacity b req).events)
    (ht : e.type ≠ .executed ∧ e.type ≠ .canceled) :
    req.type = .new ∧ e.orderId = req.orderId ∧
      (e.type = .accepted ∧ e.quantity = req.quantity ∨ e.type = .rejected) ∨
    req.type = .replace ∧ e.orderId = req.newOrderId ∧ e.type = .replaced ∧ 0 < e.quantity := by
  have hcons : ∀ (i : Incoming) (b : Book) (e₀ : Event), e ∈ e₀ :: i.events b → e = e₀ := fun i b e₀ he => by
    rcases List.mem_cons.mp he with h | he
    · exact h
    · exact ((takes_of_mem_events he).elim ht.1 ht.2).elim
  have hall : ∀ o, e ∉ (cancelAll b o).events := fun o he => by
    rw [List.mem_singleton.mp he] at ht
    exact ht.2 rfl
  unfold handle at he
  cases hreq : req.type with
  | new =>
    rw [hreq] at he
    dsimp only [enter] at he
    refine .inl ⟨rfl, ?_⟩
    split_ifs at he
    · cases he
    · rw [List.mem_singleton.mp he]; exact ⟨rfl, .inr rfl⟩
    · rw [hcons _ _ _ he]; exact ⟨rfl, .inl ⟨rfl, rfl⟩⟩
  | cancel =>
    rw [hreq] at he
    dsimp only [cancel] at he
    cases hf : b.find? req.orderId with
    | none => rw [hf] at he; cases he
    | some o =>
      rw [hf] at he
      dsimp only at he
      split_ifs at he
      · cases he
      · exact absurd he (hall o)
      · rw [List.mem_singleton.mp he] at ht
        exact (ht.2 rfl).elim
  | replace =>
    rw [hreq] at he
    dsimp only [replace] at he
    refine .inr ⟨rfl, ?_⟩
    cases hf : b.find? req.orderId with
    | none => rw [hf] at he; cases he
    | some o =>
      rw [hf] at he
      dsimp only at he
      split at he
      · cases he
      split at he
      · exact absurd he (hall o)
      next hq =>
      rw [hcons _ _ _ he]
      exact ⟨rfl, rfl, Nat.pos_of_ne_zero hq⟩

theorem mem_introduces (capacity : ℕ) {e : Event} (he : e ∈ (handle capacity b req).events)
    (ht : e.type ≠ .executed ∧ e.type ≠ .canceled) : e.orderId ∈ introduces req := by
  rcases begins_cases capacity he ht with ⟨hreq, hid, -⟩ | ⟨hreq, hid, -⟩
  · simp [introduces, hreq, hid]
  · simp [introduces, hreq, hid]

theorem follow_unborn {es : List Event} {l' : Life} (hf : follow id .unborn es = some l')
    (hes : ∀ e ∈ es, e.orderId = id → e.type = .executed ∨ e.type = .canceled) : l' = .unborn := by
  induction es with
  | nil => exact (Option.some.inj hf).symm
  | cons e es ih =>
    rw [follow_cons] at hf
    obtain ⟨l₁, hs, hf'⟩ := Option.bind_eq_some_iff.mp hf
    rcases step_cases hs with ⟨hid, -, hc⟩ | ⟨-, -, -, q, d, h, -⟩ | ⟨-, -, rfl⟩
    · have ht := hes e List.mem_cons_self hid
      rcases hc with ⟨-, hop, -⟩ | ⟨-, hrej, -⟩ | ⟨q, d, h, -⟩
      · rcases ht with ht | ht <;> rcases hop with h | h <;> rw [h] at ht <;> cases ht
      · rcases ht with ht | ht <;> rw [hrej] at ht <;> cases ht
      · cases h
    · cases h
    · exact ih hf' fun e' he' => hes e' (List.mem_cons_of_mem _ he')

/-- An order that a request does not introduce stays unborn. -/
theorem follow_process_unborn (capacity : ℕ) (hb : b.WF) (hid : id ∉ b.ids) (hnew : id ∉ introduces req) :
    follow id .unborn (process capacity b req).events = some .unborn ∧ id ∉ (process capacity b req).book.ids := by
  have hunborn : Life.unborn.Agrees b id := hid
  obtain ⟨l, hf, ha⟩ := follow_process capacity hunborn hb fun hm => absurd hm hnew
  have hf₀ : follow id .unborn (handle capacity b req).events = some l := by
    rw [← follow_flagFirst]; exact hf
  obtain rfl : l = .unborn := follow_unborn hf₀ fun e he hid => by
    by_contra hne
    exact hnew (hid ▸ mem_introduces capacity he (not_or.mp hne))
  exact ⟨hf, ha⟩

/-- Every run can be followed, for every order, if no id is introduced twice. -/
theorem follow_steps (capacity : ℕ) (h : l.Agrees b id) (hb : b.WF) {reqs : List EngineRequest}
    (hp : ∀ req ∈ reqs, PriceOk req) (hnd : (reqs.flatMap introduces).Nodup)
    (hnew : id ∈ reqs.flatMap introduces → l = .unborn) :
    ∃ l', follow id l ((steps capacity b reqs).flatMap (·.events)) = some l' ∧
      l'.Agrees (after capacity b reqs) id := by
  induction reqs generalizing b l with
  | nil => exact ⟨l, rfl, h⟩
  | cons req reqs ih =>
    rw [List.flatMap_cons] at hnd hnew
    obtain ⟨-, hnd', hdisj⟩ := List.nodup_append.mp hnd
    obtain ⟨l₁, hf, ha⟩ := follow_process capacity h hb fun hm => hnew (List.mem_append_left _ hm)
    -- an order that is introduced later is not born yet
    have hnew' : id ∈ reqs.flatMap introduces → l₁ = .unborn := fun hm => by
      obtain rfl := hnew (List.mem_append_right _ hm)
      have hf' := (follow_process_unborn capacity hb h fun hm' => hdisj id hm' id hm rfl).1
      exact Option.some.inj (hf.symm.trans hf')
    obtain ⟨l₂, hf', ha'⟩ := ih ha (process_wf capacity hb (hp req List.mem_cons_self))
      (fun r hr => hp r (List.mem_cons_of_mem _ hr)) hnd' hnew'
    exact ⟨l₂, by rw [steps, List.flatMap_cons, follow_append, hf]; exact hf', ha'⟩

/-! ## Owners -/

variable {P : ℕ → ℕ → Prop}

/-- The events of an order that comes in name orders with their clients. -/
theorem incoming_owned (i : Incoming) (hb : b.WF) (hP : ∀ r ∈ b.orders, P r.id r.clientId) (hi : P i.id i.clientId) :
    (∀ e ∈ i.events b, P e.orderId e.clientId) ∧ ∀ r ∈ (i.book b).orders, P r.id r.clientId := by
  obtain ⟨htrades, htraded⟩ := (i.trades_induct (P := fun fs b' =>
    (∀ e ∈ tradeEvents i.id i.clientId b.nextMatchNumber fs, P e.orderId e.clientId) ∧
      ∀ r ∈ b'.orders, P r.id r.clientId) hb ⟨fun _ he => absurd he List.not_mem_nil, hP⟩ (by
    rintro fs b' r n ⟨hev, hrest⟩ hb' hr - - -
    have hmem : r ∈ b'.orders := Book.mem_orders.mpr ⟨_, hr⟩
    refine ⟨fun e he => ?_, fun r' hr' => ?_⟩
    · rw [tradeEvents_append] at he
      rcases List.mem_append.mp he with he | he
      · exact hev e he
      rcases List.mem_cons.mp he with rfl | he
      · exact hi
      rw [List.mem_singleton.mp he]
      exact hrest r hmem
    · rcases (Book.mem_orders_trade hb' hmem).mp hr' with ⟨h', -⟩ | ⟨-, rfl⟩
      · exact hrest r' h'
      · exact hrest r hmem)).1
  constructor
  · intro e he
    rcases List.mem_append.mp he with he | he
    · exact htrades e he
    split at he
    · rw [List.mem_singleton.mp he]; exact hi
    · cases he
  · intro r hr
    rw [Incoming.book_eq] at hr
    split at hr
    · rcases Book.mem_orders_append.mp hr with hr | rfl
      · exact htraded r hr
      · exact hi
    · exact htraded r hr

/-- Every event goes to the client of its order, a REPLACED event also to that of the
order that was replaced. -/
theorem handle_owned (capacity : ℕ) (hb : b.WF) (hP : ∀ r ∈ b.orders, P r.id r.clientId)
    (hnew : ∀ id ∈ introduces req, P id req.clientId) :
    (∀ e ∈ (handle capacity b req).events, P e.orderId e.clientId ∧
      (e.type = .replaced → P e.origOrderId e.clientId)) ∧
    ∀ r ∈ (handle capacity b req).book.orders, P r.id r.clientId := by
  have hcancelAll : ∀ o ∈ b.orders, (∀ e ∈ (cancelAll b o).events, P e.orderId e.clientId ∧
      (e.type = .replaced → P e.origOrderId e.clientId)) ∧ ∀ r ∈ (cancelAll b o).book.orders, P r.id r.clientId := by
    intro o ho
    refine ⟨fun e he => ?_, fun r hr => hP r (Book.mem_orders_remove.mp hr).1⟩
    rw [List.mem_singleton.mp he]
    exact ⟨hP o ho, fun h => by cases h⟩
  have htakes : ∀ (i : Incoming) (b' : Book), (∀ e ∈ i.events b', P e.orderId e.clientId) → ∀ e ∈ i.events b',
      P e.orderId e.clientId ∧ (e.type = .replaced → P e.origOrderId e.clientId) := by
    intro i b' h e he
    refine ⟨h e he, fun ht => ?_⟩
    rcases takes_of_mem_events he with h' | h' <;> rw [ht] at h' <;> cases h'
  unfold handle
  cases hreq : req.type with
  | new =>
    have hid := hnew req.orderId (by simp [introduces, hreq])
    dsimp only [enter]
    split_ifs
    · exact ⟨fun _ he => absurd he List.not_mem_nil, hP⟩
    · refine ⟨fun e he => ?_, hP⟩
      rw [List.mem_singleton.mp he]
      exact ⟨hid, fun h => by cases h⟩
    · obtain ⟨hev, hbook⟩ := incoming_owned (newOrder req) hb hP hid
      refine ⟨fun e he => ?_, hbook⟩
      rcases List.mem_cons.mp he with rfl | he
      · exact ⟨hid, fun h => by cases h⟩
      · exact htakes _ _ hev e he
  | cancel =>
    dsimp only [cancel]
    cases hf : b.find? req.orderId with
    | none => exact ⟨fun _ he => absurd he List.not_mem_nil, hP⟩
    | some o =>
      obtain ⟨ho, -⟩ := find?_mem hf
      dsimp only
      split_ifs
      · exact ⟨fun _ he => absurd he List.not_mem_nil, hP⟩
      · exact hcancelAll o ho
      · refine ⟨fun e he => ?_, fun r hr => ?_⟩
        · rw [List.mem_singleton.mp he]
          exact ⟨hP o ho, fun h => by cases h⟩
        · rcases Book.mem_orders_reduce.mp hr with ⟨hr, -⟩ | ⟨r', hr', -, rfl⟩
          · exact hP r hr
          · exact hP r' hr'
  | replace =>
    have hid := hnew req.newOrderId (by simp [introduces, hreq])
    dsimp only [replace]
    cases hf : b.find? req.orderId with
    | none => exact ⟨fun _ he => absurd he List.not_mem_nil, hP⟩
    | some o =>
      obtain ⟨ho, -⟩ := find?_mem hf
      dsimp only
      split
      · exact ⟨fun _ he => absurd he List.not_mem_nil, hP⟩
      next hig =>
      split
      · exact hcancelAll o ho
      have hown : o.clientId = req.clientId := by
        by_contra hne
        exact hig (.inl hne)
      obtain ⟨hev, hbook⟩ := incoming_owned (replacement req o) (hb.remove o.id)
        (fun r hr => hP r (Book.mem_orders_remove.mp hr).1) hid
      refine ⟨fun e he => ?_, hbook⟩
      rcases List.mem_cons.mp he with rfl | he
      · exact ⟨hid, fun _ => show P o.id req.clientId from hown ▸ hP o ho⟩
      · exact htakes _ _ hev e he

/-- An order that was born, or that an event names, has a life after the events. -/
theorem follow_ne_unborn {es : List Event} {l' : Life} (hf : follow id l es = some l')
    (h : l ≠ .unborn ∨ ∃ e ∈ es, e.orderId = id) : l' ≠ .unborn := by
  induction es generalizing l with
  | nil =>
    obtain rfl : l = l' := Option.some.inj hf
    exact h.resolve_right fun ⟨_, he, _⟩ => by cases he
  | cons e es ih =>
    rw [follow_cons] at hf
    obtain ⟨l₁, hs, hf'⟩ := Option.bind_eq_some_iff.mp hf
    rcases step_cases hs with ⟨-, -, hc⟩ | ⟨-, -, -, q, d, -, -, rfl⟩ | ⟨hne, -, rfl⟩
    · refine ih hf' (.inl ?_)
      rcases hc with ⟨-, -, rfl⟩ | ⟨-, -, rfl⟩ | ⟨q, d, -, -, -, rfl⟩ <;> simp
    · exact ih hf' (.inl (by simp))
    · refine ih hf' (h.imp_right fun ⟨e', he', hid⟩ => ?_)
      rcases List.mem_cons.mp he' with rfl | he'
      · exact absurd hid hne
      · exact ⟨e', he', hid⟩

/-- What holds of events whether or not they answer the request. -/
theorem forall_flagFirst {p : Event → Prop} (hp : ∀ e, p e → p { e with answersRequest := true }) {es : List Event}
    (h : ∀ e ∈ es, p e) : ∀ e ∈ flagFirst es, p e := by
  cases es with
  | nil => exact h
  | cons e es =>
    intro e' he'
    rcases List.mem_cons.mp he' with rfl | he'
    · exact hp e (h e List.mem_cons_self)
    · exact h e' (List.mem_cons_of_mem _ he')

theorem exists_flagFirst {es : List Event} : (∃ e ∈ flagFirst es, e.orderId = id) ↔ ∃ e ∈ es, e.orderId = id := by
  cases es with
  | nil => rfl
  | cons e es => simp only [flagFirst, List.mem_cons, exists_eq_or_imp]

/-- The events of a NEW of an id that does not rest: it is accepted or rejected, and then
only trades and is canceled. -/
theorem process_new (capacity : ℕ) (ht : req.type = .new) (hid : req.orderId ∉ b.ids) :
    ∃ e es, (process capacity b req).events = e :: es ∧ e.orderId = req.orderId ∧
      (e.type = .accepted ∨ e.type = .rejected) ∧ ∀ e' ∈ es, e'.type = .executed ∨ e'.type = .canceled := by
  simp only [process, handle, ht, enter, if_neg hid]
  split_ifs
  · exact ⟨_, [], rfl, rfl, .inr rfl, nofun⟩
  · exact ⟨_, _, rfl, rfl, .inl rfl, fun e' he' => takes_of_mem_events he'⟩

/-- A NEW of an id that does not rest is answered under that id. -/
theorem named_of_new (capacity : ℕ) (ht : req.type = .new) (hid : req.orderId ∉ b.ids) :
    ∃ e ∈ (process capacity b req).events, e.orderId = req.orderId := by
  obtain ⟨e, es, he, hid', -⟩ := process_new capacity ht hid
  exact ⟨e, he ▸ List.mem_cons_self, hid'⟩

/-- So is a REPLACE under the new id, if the client's order rests and has executed less
than the replacement asks for. -/
theorem named_of_replace (capacity : ℕ) (ht : req.type = .replace) (hid : req.newOrderId ∉ b.ids) {o : Resting}
    (hf : b.find? req.orderId = some o) (hc : o.clientId = req.clientId) (hq : o.executedQuantity < req.quantity) :
    ∃ e ∈ (process capacity b req).events, e.orderId = req.newOrderId := by
  refine exists_flagFirst.mpr ?_
  have hpos : (replacement req o).quantity ≠ 0 := by
    show req.quantity - o.executedQuantity ≠ 0
    omega
  simp only [handle, ht, replace, hf]
  rw [if_neg (not_or.mpr ⟨fun h => h hc, hid⟩), if_neg hpos]
  exact ⟨_, List.mem_cons_self, rfl⟩

/-- An order is opened with shares, if NEW requests have some. -/
theorem opens_pos (capacity : ℕ) {e : Event} (he : e ∈ (handle capacity b req).events) (ho : Opens e)
    (hq : req.type = .new → 0 < req.quantity) : 0 < e.quantity := by
  have ht : e.type ≠ .executed ∧ e.type ≠ .canceled := by
    rcases ho with h | h <;> rw [h] <;> decide
  rcases begins_cases capacity he ht with ⟨hreq, -, ⟨-, e'⟩ | hrej⟩ | ⟨-, -, -, hpos⟩
  · rw [e']; exact hq hreq
  · rcases ho with h | h <;> rw [hrej] at h <;> cases h
  · exact hpos

end Exchange.Spec
