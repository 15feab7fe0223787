import Exchange.Proof.Book.Fair
import Exchange.Proof.Book.Feed
import Exchange.Proof.Book.Ledger
import Exchange.Proof.Engine.Run

/-!
# What the rings say of the book

Properties of every run of the matching thread that relate what it wrote to the book it
reached. They are properties of the reference book, carried over by
`handleMatching_new`.

`feed_reconstructs_book`: a subscriber that gets every market data message has the
resting orders. `order_trace_conserves`: the events of an order open it, then take its
shares, and account for every share it does not have open. `chain_liability_kept`: a
chain of replacements never executes more than its client is liable for. `fills_fair`:
fills come two by two, at the price of the order that rested, numbered without gap.
-/

namespace Exchange

open Spec (Resting Book)

variable {n : ℕ} {b : Orderbook} {q : Side → ℕ → List ℕ} {A : Book}

/-! ## Market data -/

/-- A displayed level is the level of the order book. -/
theorem Rep.level_eq (h : Rep n b q A) (hA : A.WF) {f : Spec.Feed} (hf : Spec.Shows f A) (s : Side) {p : ℕ}
    (hp : InBand p) :
    f.level (toOuchSide s) (p * 100) = (b.levelOrders s p).map fun r => (r.id, r.openQuantity) := by
  have hprice : ∀ r ∈ A.side s, (toItchPrice r.price == p * 100) = (r.price == p) := fun r hr => by
    rw [toItchPrice_eq (hA.inBand r (Spec.Book.mem_orders.mpr ⟨s, hr⟩)), Bool.eq_iff_iff, beq_iff_eq, beq_iff_eq]
    omega
  have hfilter : f.filter (fun d => d.side == toOuchSide s && d.price == p * 100) =
      ((A.side s).filter (·.price == p)).map Spec.display := by
    have hand : f.filter (fun d => d.side == toOuchSide s && d.price == p * 100) =
        (f.filter (·.side == toOuchSide s)).filter (·.price == p * 100) := by
      rw [List.filter_filter]
      exact List.filter_congr fun d _ => Bool.and_comm _ _
    rw [hand, hf.side, List.filter_map]
    exact congrArg _ (List.filter_congr hprice)
  rw [Spec.Feed.level, hfilter, h.levelOrders_eq s hp, List.map_map]
  rfl

/-- The feed reconstructs the book: if no message was dropped, each one applies when it
arrives, and the book a subscriber then has is the order book's, level by level, and
nothing else. -/
theorem feed_reconstructs_book (capacity : ℕ) (env : Env) (reqs : List (EngineRequest × ℕ))
    (hp : ∀ r ∈ reqs, Spec.PriceOk r.1) :
    ∃ returned b, Reaches capacity env reqs returned b ∧
      (b.out.marketDataDrops = 0 →
        ∃ f, Spec.Feed.replay [] (b.out.marketData.map (·.body)) = some f ∧
          (∀ s p, InBand p →
            f.level (toOuchSide s) (p * 100) = (b.levelOrders s p).map fun r => (r.id, r.openQuantity)) ∧
          ∀ d ∈ f, ∃ s p, InBand p ∧ d.side = toOuchSide s ∧ d.price = p * 100) := by
  obtain ⟨b, q, hres, hrep, hA, -, hsub, hcount⟩ := handleMatching_new capacity env hp
  refine ⟨_, b, hres .wrapping, fun hdrops => ?_⟩
  have hitch := hsub.eq_of_length (by rw [List.length_map]; omega)
  have hp' : ∀ req ∈ reqs.map Prod.fst, Spec.PriceOk req := List.forall_mem_map.mpr hp
  obtain ⟨f, hreplay, hshows⟩ := Spec.steps_brings capacity .new .new hp'
  refine ⟨f, by rw [hitch]; exact hreplay, fun s p hb => hrep.level_eq hA hshows s hb, fun d hd => ?_⟩
  obtain ⟨r, hr, rfl⟩ := hshows.mem_iff.mp hd
  exact ⟨r.side, r.price, hA.inBand r hr, rfl, toItchPrice_eq (hA.inBand r hr)⟩

theorem feed_reconstructs_book_sample : (∀ r ∈ sampleRequests, Spec.PriceOk r.1) ∧
    ∃ returned b, Reaches 2 sampleEnv sampleRequests returned b ∧ b.out.marketDataDrops = 0 ∧
      ∃ f, Spec.Feed.replay [] (b.out.marketData.map (·.body)) = some f ∧
        f.level (chr 'B') 100 = (b.levelOrders .bid 1).map fun r => (r.id, r.openQuantity) := by
  have hp : ∀ r ∈ sampleRequests, Spec.PriceOk r.1 := by decide
  obtain ⟨returned, b, hres, hfeed⟩ := feed_reconstructs_book 2 sampleEnv sampleRequests hp
  have hrun : (Engine.handleMatching .wrapping (Orderbook.new 2 sampleEnv) sampleRequests).map
      (fun r => r.2.out.marketDataDrops) = some 0 := by decide
  have hdrops : b.out.marketDataDrops = 0 := by
    rw [show Engine.handleMatching .wrapping (Orderbook.new 2 sampleEnv) sampleRequests = some (returned, b)
      from hres] at hrun
    exact Option.some.inj hrun
  obtain ⟨f, hreplay, hlevel, -⟩ := hfeed hdrops
  exact ⟨hp, returned, b, hres, hdrops, f, hreplay, hlevel .bid 1 (by decide)⟩

/-! ## The events of an order -/

/-- The open shares of order `id`, 0 if it does not rest. -/
def Orderbook.openOf (b : Orderbook) (id : ℕ) : ℕ :=
  ((b.orders.lookup id).map fun x => (b.order x).openQuantity).getD 0

theorem Rep.openOf_eq (h : Rep n b q A) (hA : A.WF) {r : Resting} (hr : r ∈ A.orders) :
    b.openOf r.id = r.openQuantity := by
  have hview := h.lookup_view hA r.id
  rw [hA.find?_eq_some hr] at hview
  obtain ⟨x, hx, rfl⟩ := Option.map_eq_some_iff.mp hview
  rw [Orderbook.openOf, hx]
  rfl

theorem Rep.openOf_eq_zero (h : Rep n b q A) {id : ℕ} (hid : id ∉ A.ids) : b.openOf id = 0 := by
  rw [Orderbook.openOf, AList.lookup_eq_none.mpr fun hm => hid (h.mem_orders_iff.mp hm)]
  rfl

/-- The events that name an order, if no id is introduced twice: nothing, one rejection,
or one opening and then events that take shares, which with what the book has open are
the shares it was opened with as long as it is not replaced. Once the order is dead
nothing names it any more. -/
theorem order_trace_conserves (capacity : ℕ) (env : Env) (reqs : List (EngineRequest × ℕ))
    (hp : ∀ r ∈ reqs, Spec.PriceOk r.1) (hids : (reqs.flatMap fun r => Spec.introduces r.1).Nodup) :
    ∃ returned b, Reaches capacity env reqs returned b ∧ ∀ id,
      let events := b.out.outRing.map (·.toEvent)
      (Spec.trace id events = [] ∧ id ∉ b.orders ∨
        (∃ e, Spec.trace id events = [e] ∧ e.type = .rejected) ∧ id ∉ b.orders ∨
        ∃ e rest, Spec.trace id events = e :: rest ∧ Spec.Opens e ∧ (∀ e' ∈ rest, Spec.TakesShares e') ∧
          (¬ Spec.ReplacedAway id events → Spec.taken rest + b.openOf id = e.quantity)) ∧
      ∀ es es', events = es ++ es' → Spec.Dead id es → ∀ e ∈ es', e.orderId ≠ id := by
  obtain ⟨b, q, hres, hrep, hA, hev, -⟩ := handleMatching_new capacity env hp
  refine ⟨_, b, hres .wrapping, fun id => ?_⟩
  intro events
  have hp' : ∀ req ∈ reqs.map Prod.fst, Spec.PriceOk req := List.forall_mem_map.mpr hp
  have hids' : ((reqs.map Prod.fst).flatMap Spec.introduces).Nodup := by rw [List.flatMap_map]; exact hids
  have hunborn : Spec.Life.unborn.Agrees {} id := fun hm => by cases hm
  obtain ⟨l, hf, hl⟩ := Spec.follow_steps capacity hunborn .new hp' hids' fun _ => rfl
  rw [← hev] at hf
  have hdesc := Spec.Life.follow_spec (Spec.Life.describes_nil id) hf
  rw [List.nil_append] at hdesc
  have habsent : id ∉ (Spec.after capacity {} (reqs.map Prod.fst)).ids → id ∉ b.orders :=
    fun hn hm => hn (hrep.mem_orders_iff.mp hm)
  constructor
  · cases l with
    | unborn => exact .inl ⟨hdesc.1, habsent hl⟩
    | rejected => exact .inr (.inl ⟨hdesc.1, habsent hl⟩)
    | opened q d =>
      obtain ⟨⟨e, rest, htr, hop, htk, rfl, rfl⟩, -⟩ := hdesc
      refine .inr (.inr ⟨e, rest, htr, hop, htk, fun _ => ?_⟩)
      by_cases hid : id ∈ (Spec.after capacity {} (reqs.map Prod.fst)).ids
      · obtain ⟨r, hr, rfl⟩ := Spec.Book.mem_ids.mp hid
        rw [hrep.openOf_eq hA hr]
        exact hl.1 r hr rfl
      · rw [hrep.openOf_eq_zero hid]
        exact hl.2 hid
    | replaced q d =>
      obtain ⟨⟨e, rest, htr, hop, htk, -, -⟩, -, hra⟩ := hdesc
      exact .inr (.inr ⟨e, rest, htr, hop, htk, fun hn => absurd hra hn⟩)
  · intro es es' hsplit hdead
    rw [show b.out.outRing.map (·.toEvent) = es ++ es' from hsplit, Spec.Life.follow_append] at hf
    obtain ⟨l₁, hf₁, hf₂⟩ := Option.bind_eq_some_iff.mp hf
    have hdesc₁ := Spec.Life.follow_spec (Spec.Life.describes_nil id) hf₁
    rw [List.nil_append] at hdesc₁
    exact Spec.Life.follow_isOver (Spec.Life.isOver_of_dead hdesc₁ hdead) hf₂

theorem order_trace_conserves_sample : (∀ r ∈ sampleRequests, Spec.PriceOk r.1) ∧
    (sampleRequests.flatMap fun r => Spec.introduces r.1).Nodup ∧
    ∃ returned b, Reaches 2 sampleEnv sampleRequests returned b ∧
      ∀ es es', b.out.outRing.map (·.toEvent) = es ++ es' → Spec.Dead 2 es → ∀ e ∈ es', e.orderId ≠ 2 := by
  have hp : ∀ r ∈ sampleRequests, Spec.PriceOk r.1 := by decide
  have hids : (sampleRequests.flatMap fun r => Spec.introduces r.1).Nodup := by decide
  obtain ⟨returned, b, hres, h⟩ := order_trace_conserves 2 sampleEnv sampleRequests hp hids
  exact ⟨hp, hids, returned, b, hres, (h 2).2⟩

/-! ## Chains -/

/-- Whether the request names a resting order of its client. -/
def Orderbook.owns (b : Orderbook) (req : EngineRequest) : Bool :=
  match b.orders.lookup req.orderId with
  | some x => (b.order x).clientId == req.clientId
  | none => false

/-- `Engine::handleMatching`, with what is seen of each request: the events it pushed to
`out_ring_`, and whether it named a resting order of its client. -/
def Engine.transcript (a : Arith) :
    Orderbook → List (EngineRequest × ℕ) → Option (List Spec.Entry × Orderbook)
  | b, [] => some ([], b)
  | b, req :: reqs => do
    let (_, b') ← executeRequest a b req
    let pushed := b'.out.outRing.drop b.out.outRing.length
    let (rest, last) ← transcript a b' reqs
    some ({ req := req.1, owned := b.owns req.1, events := pushed.map (·.toEvent) } :: rest, last)

theorem Rep.owns_eq (h : Rep n b q A) (hA : A.WF) (req : EngineRequest) : b.owns req = A.owns req := by
  have hview := h.lookup_view hA req.orderId
  rw [Orderbook.owns, Spec.Book.owns, ← hview]
  cases b.orders.lookup req.orderId <;> rfl

theorem transcript_ok (h : Rep n b q A) (hA : A.WF) {reqs : List (EngineRequest × ℕ)}
    (hp : ∀ r ∈ reqs, Spec.PriceOk r.1) :
    ∃ b' q', (∀ a, Engine.transcript a b reqs = some (Spec.transcript n A (reqs.map Prod.fst), b')) ∧
      Rep n b' q' (Spec.after n A (reqs.map Prod.fst)) := by
  induction reqs generalizing b q A with
  | nil => exact ⟨b, q, fun _ => rfl, h⟩
  | cons r reqs ih =>
    have hpr := hp r List.mem_cons_self
    obtain ⟨b₁, q₁, hres, hrep, hev, -⟩ := process_ok h hA hpr r.2
    obtain ⟨b', q', hres', hrep'⟩ :=
      ih hrep (Spec.process_wf n hA hpr) fun r' hr' => hp r' (List.mem_cons_of_mem _ hr')
    refine ⟨b', q', fun a => ?_, hrep'⟩
    have hpushed : (b₁.out.outRing.drop b.out.outRing.length).map (·.toEvent) = (Spec.process n A r.1).events :=
      List.map_drop_left hev
    simp only [Engine.transcript, Engine.executeRequest, hres, hres', Option.bind_eq_bind, Option.bind_some,
      hpushed, h.owns_eq hA]
    rfl

/-- Chains of replacements, if no id is introduced twice. A run is the same with and
without wrapping arithmetic: nothing in it underflows or passes 32 bits. A resting order
has the executed shares of its chain, which with the open ones are the chain's
liability, and is the only one of its chain. After an owner's CANCEL or REPLACE of it
the chain executes at most the request's quantity, or what it had executed, until it is
replaced. -/
theorem chain_liability_kept (capacity : ℕ) (env : Env) (reqs : List (EngineRequest × ℕ))
    (hp : ∀ r ∈ reqs, Spec.PriceOk r.1) (hids : (reqs.flatMap fun r => Spec.introduces r.1).Nodup) :
    ∃ t b, (∀ a, Engine.transcript a (Orderbook.new capacity env) reqs = some (t, b)) ∧
      (let l := Spec.Ledger.posts {} t
      (∀ id x, b.orders.lookup id = some x →
        (b.order x).executedQuantity = l.executed (l.chain id) ∧
        (b.order x).executedQuantity + (b.order x).openQuantity = l.liability (l.chain id) ∧
        l.liability (l.chain id) < 2 ^ 32) ∧
      ∀ id ∈ b.orders, ∀ id' ∈ b.orders, l.chain id = l.chain id' → id = id') ∧
      ∀ t₁ s t₂, t = t₁ ++ s :: t₂ → s.Caps →
        let l := Spec.Ledger.posts {} t₁
        Spec.Ledger.Unreplaced (l.chain s.req.orderId) (l.post s) t₂ →
        (Spec.Ledger.posts {} t).executed (l.chain s.req.orderId) ≤
          max s.req.quantity (l.executed (l.chain s.req.orderId)) := by
  obtain ⟨b, q, hres, hrep⟩ := transcript_ok (.new capacity env) .new hp
  have hp' : ∀ req ∈ reqs.map Prod.fst, Spec.PriceOk req := List.forall_mem_map.mpr hp
  have hready : Spec.Ledger.Ready {} {} (reqs.map Prod.fst) :=
    .new hp' (by rw [List.flatMap_map]; exact hids)
  have hkeeps := hready.keeps_after capacity
  have hA := Spec.after_wf capacity .new hp'
  refine ⟨_, b, hres, ⟨fun id x hx => ?_, fun id hid id' hid' e => ?_⟩,
    fun t₁ s t₂ ht hs hu => hready.capped capacity ht hs hu⟩
  · obtain ⟨hfind, -, hid⟩ := hrep.lookup_eq_some hA hx
    have hm := (Spec.find?_mem hfind).1
    have hexec := hkeeps.executed _ hm
    have hliab := hkeeps.liability _ hm
    have hlt := hA.liability_lt _ hm
    rw [show (b.order x).view.id = id from hid] at hexec hliab
    exact ⟨hexec.symm, hliab, by rw [← hliab]; exact hlt⟩
  · obtain ⟨r, hr, rfl⟩ := Spec.Book.mem_ids.mp (hrep.mem_orders_iff.mp hid)
    obtain ⟨r', hr', rfl⟩ := Spec.Book.mem_ids.mp (hrep.mem_orders_iff.mp hid')
    exact hkeeps.unique r hr r' hr' e

theorem chain_liability_kept_sample : (∀ r ∈ sampleRequests, Spec.PriceOk r.1) ∧
    (sampleRequests.flatMap fun r => Spec.introduces r.1).Nodup ∧
    ∃ t b, (∀ a, Engine.transcript a (Orderbook.new 2 sampleEnv) sampleRequests = some (t, b)) ∧
      ∀ id x, b.orders.lookup id = some x →
        (b.order x).executedQuantity = (Spec.Ledger.posts {} t).executed ((Spec.Ledger.posts {} t).chain id) := by
  have hp : ∀ r ∈ sampleRequests, Spec.PriceOk r.1 := by decide
  have hids : (sampleRequests.flatMap fun r => Spec.introduces r.1).Nodup := by decide
  obtain ⟨t, b, hres, ⟨h, -⟩, -⟩ := chain_liability_kept 2 sampleEnv sampleRequests hp hids
  exact ⟨hp, hids, t, b, hres, fun id x hx => (h id x hx).1⟩

/-! ## Fills -/

/-- The resting order with an id. -/
def Orderbook.resting (b : Orderbook) (id : ℕ) : Option Resting := (b.orders.lookup id).map fun x => (b.order x).view

/-- `Engine::handleMatching`, with what is seen of each request: the orders that rested
before it and the events it pushed to `out_ring_`. -/
def Engine.seen (a : Arith) : Orderbook → List (EngineRequest × ℕ) → Option (List Spec.Seen × Orderbook)
  | b, [] => some ([], b)
  | b, req :: reqs => do
    let (_, b') ← executeRequest a b req
    let pushed := b'.out.outRing.drop b.out.outRing.length
    let (rest, last) ← seen a b' reqs
    some ({ resting := b.resting, req := req.1, events := pushed.map (·.toEvent) } :: rest, last)

theorem seen_ok (h : Rep n b q A) (hA : A.WF) {reqs : List (EngineRequest × ℕ)}
    (hp : ∀ r ∈ reqs, Spec.PriceOk r.1) :
    ∃ b', (∀ a, Engine.seen a b reqs = some (Spec.seen n A (reqs.map Prod.fst), b')) ∧
      b'.out.outRing.map (·.toEvent) =
        b.out.outRing.map (·.toEvent) ++ (Spec.seen n A (reqs.map Prod.fst)).flatMap (·.events) := by
  induction reqs generalizing b q A with
  | nil => exact ⟨b, fun _ => rfl, (List.append_nil _).symm⟩
  | cons r reqs ih =>
    have hpr := hp r List.mem_cons_self
    obtain ⟨b₁, q₁, hres, hrep, hev, -⟩ := process_ok h hA hpr r.2
    obtain ⟨b', hres', hev'⟩ := ih hrep (Spec.process_wf n hA hpr) fun r' hr' => hp r' (List.mem_cons_of_mem _ hr')
    have hresting : b.resting = A.find? := funext (h.lookup_view hA)
    have hpushed : (b₁.out.outRing.drop b.out.outRing.length).map (·.toEvent) = (Spec.process n A r.1).events :=
      List.map_drop_left hev
    refine ⟨b', fun a => ?_, ?_⟩
    · simp only [Engine.seen, Engine.executeRequest, hres, hres', Option.bind_eq_bind, Option.bind_some, hpushed,
        hresting]
      rfl
    · rw [hev', hev, List.map_cons, Spec.seen, List.flatMap_cons, List.append_assoc]

/-- Fills are two-sided and fairly priced. The EXECUTED events of a run come in pairs next
to each other, numbered from 1 without gap. Each pair is one fill of the order that came in
with an order that rested on the other side, at the price of the latter and within the limit
of the former, and the prices of one request never improve. So as many shares are bought as
are sold. -/
theorem fills_fair (capacity : ℕ) (env : Env) (reqs : List (EngineRequest × ℕ))
    (hp : ∀ r ∈ reqs, Spec.PriceOk r.1) :
    ∃ log b, (∀ a, Engine.seen a (Orderbook.new capacity env) reqs = some (log, b)) ∧
      b.out.outRing.map (·.toEvent) = log.flatMap (·.events) ∧
      ∃ fills : List (List Spec.Fill), List.Forall₂ Spec.Fair log fills ∧
        Spec.fillsIn (b.out.outRing.map (·.toEvent)) = some fills.flatten ∧
        fills.flatten.map (·.removed.matchNumber) = List.range' 1 fills.flatten.length ∧
        (log.map (·.shares .bid)).sum = (log.map (·.shares .ask)).sum := by
  obtain ⟨b, hres, hev⟩ := seen_ok (.new capacity env) .new hp
  obtain ⟨fills, hfair, hin, hnumber, hshares⟩ :=
    Spec.seen_fair capacity .new (reqs.map Prod.fst) (List.forall_mem_map.mpr hp)
  have hev : b.out.outRing.map (·.toEvent) = (Spec.seen capacity {} (reqs.map Prod.fst)).flatMap (·.events) := hev
  exact ⟨_, b, hres, hev, fills, hfair, hev ▸ hin, hnumber, (hshares .bid).trans (hshares .ask).symm⟩

theorem fills_fair_sample : (∀ r ∈ sampleRequests, Spec.PriceOk r.1) ∧
    ∃ log b, (∀ a, Engine.seen a (Orderbook.new 2 sampleEnv) sampleRequests = some (log, b)) ∧
      ∃ fills : List (List Spec.Fill), List.Forall₂ Spec.Fair log fills := by
  have hp : ∀ r ∈ sampleRequests, Spec.PriceOk r.1 := by decide
  obtain ⟨log, b, hres, -, fills, hfair, -⟩ := fills_fair 2 sampleEnv sampleRequests hp
  exact ⟨hp, log, b, hres, fills, hfair⟩

end Exchange
