import Exchange.Proof.Server.Story
import Exchange.Spec.Holdings

/-!
# A client's messages say which orders it has

`Knows` compares what a client has made of its messages with the lives of its orders;
`Knows.event` is one event and the message for it. The messages of a whole run then leave the
client with the orders it has in the book.
-/

namespace Exchange

open Spec (Life Opens TakesShares About Held Holdings holdings toldTo restingOf answer report told deliveries outcome
  timeless recordsOf)
open Validation
open Gateway (Trail)

/-! ## Messages -/

theorem about_report {record orig : OrderRecord} {e : Event} {timestamp : UInt64} {u : UInt32} :
    About u (report record orig e timestamp) ↔
      record.userRefNum = u ∨ e.type = .replaced ∧ orig.userRefNum = u := by
  unfold report
  cases e.type <;> simp [About]

namespace Holdings

/-- A message changes what is known of the orders it is about only. -/
theorem apply_of_not_about (h : Holdings) {msg : OuchOutboundFrame} {u : UInt32} (hu : ¬ About u msg) :
    h.apply msg u = h u := by
  cases msg with
  | none => rfl
  | orderRejected => rfl
  | orderReplaced m =>
    obtain ⟨hne, hne'⟩ := not_or.mp hu
    exact (Function.update_of_ne (Ne.symm hne) _ _).trans (Function.update_of_ne (Ne.symm hne') _ _)
  | _ => exact Function.update_of_ne (Ne.symm hu) _ _

theorem apply_untimed (h : Holdings) (msg : OuchOutboundFrame) : h.apply (Spec.untimed msg) = h.apply msg := by
  cases msg <;> rfl

/-- What client `c` makes of its messages among the responses. -/
def applyTo (c : ℕ) (h : Holdings) (rs : List OuchResponse) : Holdings :=
  (rs.filter (·.clientId = c)).foldl (fun h r => h.apply r.ouch) h

theorem applyTo_append (c : ℕ) (h : Holdings) (rs rs' : List OuchResponse) :
    applyTo c h (rs ++ rs') = applyTo c (applyTo c h rs) rs' := by
  rw [applyTo, List.filter_append, List.foldl_append]
  rfl

theorem applyTo_cons (c : ℕ) (h : Holdings) (r : OuchResponse) (rs : List OuchResponse) :
    applyTo c h (r :: rs) = applyTo c (if r.clientId = c then h.apply r.ouch else h) rs := by
  unfold applyTo
  by_cases hc : r.clientId = c <;> simp [hc]

theorem applyTo_timeless (c : ℕ) (h : Holdings) (rs : List OuchResponse) :
    applyTo c h (rs.map timeless) = applyTo c h rs := by
  induction rs generalizing h with
  | nil => rfl
  | cons r rs ih =>
    rw [List.map_cons, applyTo_cons, applyTo_cons, ih]
    exact congrArg (fun h' => applyTo c (if r.clientId = c then h' else h) rs) (apply_untimed h r.ouch)

end Holdings

/-! ## Events -/

/-- An order as its client knows it, from its life. -/
def heldAs (record : OrderRecord) (id : ℕ) : Life → Option Held
  | .opened q d => if d < q then some ⟨UInt64.ofNat id, record.side, record.price, q - d⟩ else none
  | _ => none

/-- A client has one order under a UserRefNum. -/
def Unambiguous (recs : ℕ → Option OrderRecord) : Prop :=
  ∀ id id' record record', recs id = some record → recs id' = some record' → record'.clientId = record.clientId →
    record'.userRefNum = record.userRefNum → id' = id

/-- Client `c` knows its orders as their lives have them, and no others. -/
structure Knows (recs : ℕ → Option OrderRecord) (L : ℕ → Life) (c : ℕ) (h : Holdings) : Prop where
  order : ∀ id record, recs id = some record → record.clientId = c → h record.userRefNum = heldAs record id (L id)
  other : ∀ u, (∀ id record, recs id = some record → record.clientId = c → record.userRefNum ≠ u) → h u = none

/-- Quantities have 32 bits. -/
def SharesLt (L : ℕ → Life) : Prop := ∀ id q d, L id = .opened q d → q < 2 ^ 32

variable {recs : ℕ → Option OrderRecord} {L L' : ℕ → Life} {c : ℕ} {h : Holdings} {e : Event}

theorem SharesLt.step (hs : SharesLt L) (hstep : ∀ id, Life.step id (L id) e = some (L' id))
    (hlt : Opens e → e.quantity < 2 ^ 32) : SharesLt L' := by
  intro id q d hq
  rcases Life.step_cases (hstep id) with ⟨-, -, ⟨-, ho, e'⟩ | ⟨-, -, e'⟩ | ⟨q', d', hl, -, -, e'⟩⟩ |
    ⟨-, -, -, q', d', -, -, e'⟩ | ⟨-, -, e'⟩ <;> rw [hq] at e'
  · cases e'
    exact hlt ho
  · cases e'
  · cases e'
    exact hs id _ _ hl
  · cases e'
  · exact hs id q d e'.symm

/-- What the client knows of the order of an event. -/
theorem Knows.named (hk : Knows recs L c h) (hs : SharesLt L) (hstep : ∀ id, Life.step id (L id) e = some (L' id))
    (hknown : Known recs e) (hlt : Opens e → e.quantity < 2 ^ 32) {record : OrderRecord}
    (hrec : recs e.orderId = some record) (hc : record.clientId = c) (orig : OrderRecord) (timestamp : UInt64) :
    h.apply (report record orig e timestamp) record.userRefNum = heldAs record e.orderId (L' e.orderId) := by
  have hold := hk.order _ record hrec hc
  rcases Life.step_cases (hstep e.orderId) with ⟨-, -, hcases⟩ | ⟨hne, -⟩ | ⟨hne, -⟩
  · rcases hcases with ⟨-, hopen, hl'⟩ | ⟨hl, ht, hl'⟩ | ⟨q, d, hl, ⟨ht, hpos⟩, hle, hl'⟩
    · have hq : (UInt32.ofNat e.quantity).toNat = e.quantity := UInt32.toNat_ofNat_of_lt' (hlt hopen)
      rw [hl', heldAs, if_pos (hknown.pos hopen), Nat.sub_zero]
      rcases hopen with ht | ht <;> simp [report, ht, Spec.Holdings.apply, hq]
    · rw [hl', report, ht]
      exact hold.trans (by rw [hl]; rfl)
    · have hq : (UInt32.ofNat e.quantity).toNat = e.quantity :=
        UInt32.toNat_ofNat_of_lt' (Nat.lt_of_le_of_lt (Nat.le_trans (Nat.le_add_left _ d) hle) (hs _ q d hl))
      rw [hl, heldAs, if_pos (by omega)] at hold
      have htake : h.take record.userRefNum e.quantity record.userRefNum = heldAs record e.orderId (L' e.orderId) := by
        rw [Spec.Holdings.take, Function.update_self, hold, hl', heldAs]
        by_cases hlt' : d + e.quantity < q
        · rw [if_pos hlt', Option.bind_some, if_pos (by dsimp only; omega)]
          congr 2
          dsimp only
          omega
        · rw [if_neg hlt', Option.bind_some, if_neg (by dsimp only; omega)]
      rcases ht with ht | ht <;> simpa [report, ht, Spec.Holdings.apply, hq] using htake
  · exact absurd rfl hne
  · exact absurd rfl hne

/-- An event of another client's order changes nothing. -/
theorem Knows.foreign (hk : Knows recs L c h) (hstep : ∀ id, Life.step id (L id) e = some (L' id))
    (hknown : Known recs e) {record : OrderRecord} (hrec : recs e.orderId = some record) (hc : record.clientId ≠ c) :
    Knows recs L' c h where
  order id record' hrec' hc' := by
    obtain ⟨r, hr, hclient⟩ := hknown.record
    obtain rfl := Option.some.inj (hrec.symm.trans hr)
    have hid : e.orderId ≠ id := fun e' => by
      rw [e', hrec'] at hrec
      exact hc (Option.some.inj hrec ▸ hc')
    have horig : e.type ≠ .replaced ∨ e.origOrderId ≠ id := by
      by_contra hboth
      push Not at hboth
      obtain ⟨orig, ho, hoc⟩ := hknown.orig hboth.1
      rw [hboth.2, hrec'] at ho
      exact hc (hclient.trans (hoc.symm.trans (Option.some.inj ho ▸ hc')))
    rw [life_eq_of_ne hstep hid horig]
    exact hk.order id record' hrec' hc'
  other := hk.other

/-- An event of an order of the client, and the message for it. -/
theorem Knows.own (hk : Knows recs L c h) (hu : Unambiguous recs) (hs : SharesLt L)
    (hstep : ∀ id, Life.step id (L id) e = some (L' id)) (hknown : Known recs e) (hlt : Opens e → e.quantity < 2 ^ 32)
    {record orig : OrderRecord} (hrec : recs e.orderId = some record) (hc : record.clientId = c)
    (horig : Spec.original recs e record = some orig) (timestamp : UInt64) :
    Knows recs L' c (h.apply (report record orig e timestamp)) := by
  -- the order that is replaced is the client's, too
  have horig' : e.type = .replaced → recs e.origOrderId = some orig ∧ orig.clientId = c := fun ht => by
    rw [Spec.original, if_pos ht] at horig
    obtain ⟨r, hr, hclient⟩ := hknown.record
    obtain ⟨o, ho, hoc⟩ := hknown.orig ht
    obtain rfl := Option.some.inj (hrec.symm.trans hr)
    obtain rfl := Option.some.inj (horig.symm.trans ho)
    exact ⟨horig, hoc.trans (hclient.symm.trans hc)⟩
  constructor
  · intro id record' hrec' hc'
    by_cases hid : id = e.orderId
    · subst hid
      obtain rfl := Option.some.inj (hrec.symm.trans hrec')
      exact hk.named hs hstep hknown hlt hrec hc orig timestamp
    have hne : record.userRefNum ≠ record'.userRefNum := fun e' =>
      hid (hu _ _ record record' hrec hrec' (hc'.trans hc.symm) e'.symm)
    by_cases hrep : e.type = .replaced ∧ e.origOrderId = id
    · obtain ⟨ht, rfl⟩ := hrep
      obtain rfl := Option.some.inj ((horig' ht).1.symm.trans hrec')
      rcases Life.step_cases (hstep e.origOrderId) with ⟨e', -⟩ | ⟨-, -, -, q, d, -, -, hl'⟩ | ⟨-, hno, -⟩
      · exact absurd e'.symm hid
      · rw [hl', report, ht]
        exact (Function.update_of_ne hne.symm _ _).trans (Function.update_self ..)
      · exact absurd ⟨ht, rfl⟩ hno
    · rw [life_eq_of_ne hstep (Ne.symm hid) (not_and_or.mp hrep), Holdings.apply_of_not_about]
      · exact hk.order id record' hrec' hc'
      · rw [about_report]
        rintro (e' | ⟨ht, e'⟩)
        · exact hne e'
        · obtain ⟨ho, hoc⟩ := horig' ht
          exact hrep ⟨ht, hu _ _ record' orig hrec' ho (hoc.trans hc'.symm) e'⟩
  · intro u hfree
    rw [Holdings.apply_of_not_about, hk.other u hfree]
    rw [about_report]
    rintro (e' | ⟨ht, e'⟩)
    · exact hfree _ record hrec hc e'
    · exact hfree _ orig (horig' ht).1 (horig' ht).2 e'

theorem Knows.events (hu : Unambiguous recs) {es : List Event} (hk : Knows recs L c h) (hs : SharesLt L)
    (hfollow : ∀ id, Life.follow id (L id) es = some (L' id)) (hknown : ∀ e ∈ es, Known recs e)
    (hlt : ∀ e ∈ es, Opens e → e.quantity < 2 ^ 32) (timestamp : UInt64) :
    Knows recs L' c (Holdings.applyTo c h (es.filterMap fun e => answer recs e timestamp)) := by
  induction es generalizing L h with
  | nil =>
    obtain rfl : L = L' := funext fun id => Option.some.inj (hfollow id)
    exact hk
  | cons e es ih =>
    have hfirst : ∀ id, ∃ l, Life.step id (L id) e = some l ∧ Life.follow id l es = some (L' id) := fun id => by
      have := hfollow id
      rw [Life.follow_cons] at this
      exact Option.bind_eq_some_iff.mp this
    choose L₁ hstep hrest using hfirst
    have hke := hknown e List.mem_cons_self
    have hle := hlt e List.mem_cons_self
    obtain ⟨r, hr, -⟩ := hke.answer_ok timestamp
    obtain ⟨record, hrec, hr'⟩ := Option.bind_eq_some_iff.mp hr
    obtain ⟨orig, horig, hr'⟩ := Option.bind_eq_some_iff.mp hr'
    obtain rfl := Option.some.inj hr'
    rw [List.filterMap_cons_some (f := fun e => answer recs e timestamp) hr, Holdings.applyTo_cons]
    refine ih ?_ (hs.step hstep hle) hrest (fun e' he => hknown e' (List.mem_cons_of_mem _ he))
      fun e' he => hlt e' (List.mem_cons_of_mem _ he)
    split
    · next hc => exact hk.own hu hs hstep hke hle hrec hc horig timestamp
    · next hc => exact hk.foreign hstep hke hrec hc

/-! ## Runs -/

variable {n : ℕ} {g g' : Gateway} {v v' : GatewayView} {m : Inbound} {ms : List Inbound} {hd : Handled}
  {handled : List Handled}

/-- An order is opened with a quantity of 32 bits. -/
theorem Outcome.opens_lt (ho : Outcome n g v m g' v' hd) (hok : g.Ok n v) :
    ∀ e ∈ (hd.step n v.resting).events, Opens e → e.quantity < 2 ^ 32 := by
  intro e he hopen
  rcases ho.step_cases hok with hq | ⟨req, i, b', -, ha⟩
  · rcases hq.events e he with ht | ht <;> rcases hopen with ht' | ht' <;> rw [ht] at ht' <;> cases ht'
  · obtain ⟨first, hevents, -, -, hquantity⟩ := ha.events
    rw [hevents] at he
    rcases List.mem_cons.mp he with rfl | he
    · have := ha.ok.lt
      omega
    · obtain ⟨rest, hi, hrest⟩ := i.events_eq b'
      rw [hi] at he
      rcases List.mem_append.mp he with he | he
      · obtain ⟨f, hf, hq, -⟩ := Spec.mem_tradeEvents he
        rw [hq]
        exact (ha.mem_trades hf).1
      · rcases hopen with ht | ht <;> rw [hrest e he] at ht <;> cases ht

namespace Gateway

theorem Trail.opens_lt (h : Trail n g v ms g' v' handled) : ∀ e ∈ eventsOf handled, Opens e → e.quantity < 2 ^ 32 := by
  induction h with
  | nil => nofun
  | @cons g g₁ g' v v₁ v' m ms hd handled hok ho _ ih =>
    intro e he
    rw [← List.singleton_append, eventsOf_append] at he
    rcases List.mem_append.mp he with he | he
    · refine ho.opens_lt hok e ?_
      rw [← ho.events]
      simpa [eventsOf] using he
    · exact ih e he

/-- What client `c` makes of the answers to the events of a run. -/
theorem Trail.knows (h : Trail n g v ms g' v' handled) (hrecs : v.recs = fun _ => none)
    (hlives : ∀ id, v.lives id = .unborn) (c : ℕ) :
    Knows v'.recs v'.lives c (Holdings.applyTo c (fun _ => none)
      ((eventsOf handled).filterMap fun e => answer (recordsOf (notesOf handled)) e 0)) := by
  have hv : v'.recs = recordsOf (notesOf handled) := by
    rw [h.recs, hrecs]
    rfl
  have hnone : Knows v'.recs v.lives c (fun _ => none) :=
    ⟨fun id record _ _ => by rw [hlives id]; rfl, fun _ _ => rfl⟩
  rw [← hv]
  refine hnone.events (fun id id' record record' hr hr' => h.ok.2.id_eq hr hr') ?_ h.lives (fun e he => ?_) h.opens_lt 0
  · intro id q d hl
    rw [hlives id] at hl
    cases hl
  · rw [hv]
    rw [← List.append_nil handled] at h
    exact h.known hrecs (List.prefix_rfl) (by rw [List.append_nil]) he

end Gateway

/-- What the client knows is what the book has. -/
theorem Knows.resting {book : Orderbook} {slots : Side → ℕ → List ℕ} (hk : Knows v.recs v.lives c h) (hok : g.Ok n v)
    (hF : Faithful v) (hrep : Rep n book slots v.resting) : h = restingOf g.entry book c := by
  funext u
  unfold restingOf
  cases hlook : g.entry.orders.lookup (OrderEntry.key c u) with
  | none =>
    refine hk.other u fun id record hrec hc hu => ?_
    have ha := (hok.recs_iff id record).mp hrec
    rw [OrderEntry.Assigned, hc, hu, hlook] at ha
    cases ha
  | some entered =>
    have hrec := hok.recs_of_lookup hlook
    obtain ⟨hc, rfl⟩ := OrderEntry.key_inj (hok.entry.keyed _ entered hlook)
    rw [hk.order _ _ hrec hc]
    have hagrees := hok.linked.agrees entered.orderId
    simp only [Option.bind_eq_bind, Option.bind_some]
    cases hx : book.orders.lookup entered.orderId with
    | none =>
      have hnot : entered.orderId ∉ v.resting.ids := fun hm => by
        rw [← hrep.mem_orders_iff, ← AList.lookup_isSome, hx] at hm
        cases hm
      cases hl : v.lives entered.orderId with
      | opened q d =>
        rw [hl] at hagrees
        rw [heldAs, hagrees.2 hnot, if_neg (Nat.lt_irrefl q)]
        rfl
      | _ => rfl
    | some x =>
      obtain ⟨hf, -, hid⟩ := hrep.lookup_eq_some hok.linked.wf hx
      obtain ⟨hr, -⟩ := Spec.find?_mem hf
      obtain ⟨q, d, hl, hopen⟩ := hagrees.opened_of_mem hr hid
      have hpos := hok.linked.wf.open_pos _ hr
      obtain ⟨record, hrec', hfits⟩ := hF _ hr
      rw [show (book.order x).view.id = entered.orderId from hid] at hrec'
      obtain rfl := Option.some.inj (hrec.symm.trans hrec')
      have hprice : entered.record.price = toOuchPrice (book.order x).price :=
        UInt64.toNat_inj.mp hfits.ouchPrice.symm
      have hshares : q - d = (book.order x).openQuantity := by
        show q - d = (book.order x).view.openQuantity
        omega
      have hside : entered.record.side = toOuchSide (book.order x).side := hfits.side
      rw [hl, heldAs, if_pos (by omega), hshares, hprice, hside, Option.bind_some, hid]

/-! ## What the messages come to -/

namespace Holdings

theorem applyTo_rejected (c : ℕ) (h : Holdings) {r : OuchResponse} {m : OuchOrderRejected}
    (hr : r.ouch = .orderRejected m) (rs : List OuchResponse) : applyTo c h (r :: rs) = applyTo c h rs := by
  rw [applyTo_cons, hr]
  exact congrArg (applyTo c · rs) (ite_self h)

/-- Answers that agree but for their timestamps. -/
theorem applyTo_outcome (c : ℕ) (h : Holdings) {xs : List (Event × Option OuchResponse)} {es : List Event}
    (hx : xs.map outcome = es.map fun e => (e, (answer recs e 0).map timeless)) :
    applyTo c h (xs.filterMap Prod.snd) = applyTo c h (es.filterMap fun e => answer recs e 0) := by
  have hsnd := congrArg (List.filterMap Prod.snd) hx
  rw [List.filterMap_map, List.filterMap_map] at hsnd
  rw [← applyTo_timeless, ← applyTo_timeless c h (es.filterMap _), List.map_filterMap, List.map_filterMap]
  exact congrArg (applyTo c h) hsnd

end Holdings

theorem Outcome.noteResponse_rejected (ho : Outcome n g v m g' v' hd) {r : OuchResponse}
    (hr : hd.noteResponse = some r) : ∃ m, r.ouch = .orderRejected m := by
  obtain ⟨e, reason, -, -, hrej, -⟩ := ho.rejected hr
  cases hrej
  exact ⟨_, rfl⟩

/-- Rejects of the gateway say nothing of open orders. -/
theorem Gateway.Trail.applyTo_told (ht : Trail n g v ms g' v' handled) (c : ℕ) (h : Holdings) :
    Holdings.applyTo c h (handled.flatMap told) =
      Holdings.applyTo c h ((deliveries handled).filterMap Prod.snd) := by
  induction ht generalizing h with
  | nil => rfl
  | @cons g g₁ g' v v₁ v' m ms hd handled _ ho _ ih =>
    have hdel : (deliveries (hd :: handled)).filterMap Prod.snd =
        hd.deliveries.filterMap (·.response) ++ (deliveries handled).filterMap Prod.snd := by
      rw [deliveries, List.flatMap_cons, List.filterMap_append, List.filterMap_map]
      rfl
    have htold : Holdings.applyTo c h (told hd) = Holdings.applyTo c h (hd.deliveries.filterMap (·.response)) := by
      unfold told
      cases hr : hd.noteResponse with
      | none => rfl
      | some r =>
        obtain ⟨m, hm⟩ := ho.noteResponse_rejected hr
        exact Holdings.applyTo_rejected c h hm _
    rw [List.flatMap_cons, hdel, Holdings.applyTo_append, Holdings.applyTo_append, htold, ih]

theorem holdings_eq (c : ℕ) (rs : List OuchResponse) :
    holdings ((rs.filter (·.clientId = c)).map (·.ouch)) = Holdings.applyTo c (fun _ => none) rs := by
  rw [holdings, List.foldl_map]
  rfl

/-- A client's messages say which orders it has: in every run, what client `c` has been told,
applied in order, is what the book has of its orders, by UserRefNum: the order reference
number, the side, the price and the open shares of each, and no others. -/
theorem messages_tell_orders (capacity soupReplayBytes : ℕ) (env : Env) (clock : ℕ → UInt64) (ms : List Inbound) :
    ∃ g handled, (∀ a, Gateway.run a clock (Gateway.new capacity soupReplayBytes env) ms = some (g, handled)) ∧
      ∀ c, holdings (toldTo c handled) = restingOf g.entry g.book c := by
  obtain ⟨g, v, handled, hrun, ht⟩ := (Gateway.Ok.new capacity soupReplayBytes env).trail clock ms
  refine ⟨g, handled, hrun, fun c => ?_⟩
  have hk := ht.knows rfl (fun _ => rfl) c
  rw [← Holdings.applyTo_outcome c _ (ht.deliveries_eq rfl), ← ht.applyTo_told] at hk
  rw [toldTo, holdings_eq]
  exact hk.resting ht.ok.2 (ht.faithful nofun) ht.ok.2.linked.rep

end Exchange
