import Exchange.Proof.Book.Tape
import Exchange.Proof.Server.Answered
import Exchange.Proof.Server.Sequence

/-!
# The feed and the clients' messages tell the same story

`ouch_itch_agree`: when the feed displays an order, its owner has been told that it was
opened, on that side, at that price, and with the shares displayed and those reported
executed; and each execution on the feed is an Order Executed to the owner of the order
that rested, at the price the order was displayed at.

The two views are joined by the records of the orders, which never change: a resting order
has the side and the price of its record (`Faithful`), and so has what the feed displayed
(`Sound`).
-/

namespace Exchange

open Spec (Resting Book Quiet Arrives Publishes Same OfResting fillOf executedOf Opens answer report told toldUnder About
  showing prices sides Showing itchFill ItchFill opening Opening restingFill executedShares executedUnder)
open Validation

/-! ## Records -/

/-- The record of an order on side `s` at price `p`. -/
structure FitsOrder (record : OrderRecord) (s : Side) (p : ℕ) : Prop where
  side : record.side = toOuchSide s
  price : record.price.toNat = p * 100
  inBand : InBand p

namespace FitsOrder

variable {record : OrderRecord} {side : Side} {price : ℕ}

theorem itchPrice (h : FitsOrder record side price) : toItchPrice price = record.price.toNat :=
  (toItchPrice_eq h.inBand).trans h.price.symm

theorem ouchPrice (h : FitsOrder record side price) : (toOuchPrice price).toNat = record.price.toNat := by
  have hlt := record.price.toNat_lt
  rw [toOuchPrice, UInt64.toNat_ofNat', Nat.mod_eq_of_lt, h.price]
  · rfl
  · show price * 100 < 2 ^ 64
    rw [← h.price]
    exact hlt

end FitsOrder

/-! ## One message -/

/-- A resting order has the side and the price of its record. -/
def Faithful (v : GatewayView) : Prop :=
  ∀ r ∈ v.resting.orders, ∃ record, v.recs r.id = some record ∧ FitsOrder record r.side r.price

variable {n : ℕ} {g g' : Gateway} {v v' : GatewayView} {m : Inbound} {hd : Handled}

/-- Records stay. -/
theorem Outcome.recs_mono (ho : Outcome n g v m g' v' hd) (hok : g.Ok n v) {id : ℕ} {record : OrderRecord}
    (h : v.recs id = some record) : v'.recs id = some record := by
  have hlt : id < g.entry.nextOrderId := hok.entry.id_lt _ _ ((hok.recs_iff id record).mp h)
  rw [ho.recs_eq, foldl_record_of_notMem fun hm => Nat.not_lt.mpr (ho.noteId_new hm).1 hlt]
  exact h

/-- What the message does to the book. -/
theorem Outcome.step_cases (ho : Outcome n g v m g' v' hd) (hok : g.Ok n v) :
    Quiet v.resting (hd.step n v.resting) ∨ ∃ req i b', hd.translation.request = some req ∧
      Arrives v.resting req (hd.step n v.resting) i b' := by
  unfold Handled.step
  cases hreq : hd.translation.request with
  | none => exact .inl ⟨nofun, nofun, fun r hr => ⟨r, hr, Spec.same_refl r⟩⟩
  | some req =>
    rcases Spec.process_cases n hok.linked.wf (ho.becomes.priceOk hok.band hreq) with h | ⟨i, b', h⟩
    · exact .inl h
    · exact .inr ⟨req, i, b', rfl, h⟩

/-- The order that a message brings to the book is its client's, under a new UserRefNum, and
if it may rest it has the side and the price of its record. -/
theorem Outcome.record_arrives (ho : Outcome n g v m g' v' hd) (hok : g.Ok n v) (hF : Faithful v)
    {req : EngineRequest} (hreq : hd.translation.request = some req) {s : Spec.Step} {i : Spec.Incoming} {b' : Book}
    (ha : Arrives v.resting req s i b') :
    ∃ record, v'.recs i.id = some record ∧ record.clientId = hd.clientId ∧
      ¬ record.userRefNum ≤ g.entry.lastUserRefNum hd.clientId ∧
      (i.rests = true → FitsOrder record i.side i.price) := by
  have hid := ha.id
  have hitch := ha.itch
  have hrecs := ho.recs
  have hb := ho.becomes
  have hprice := hb.priceOk hok.band hreq
  generalize hd.translation = t at hb hreq hrecs
  generalize hd.msg = msg at hb
  generalize g'.entry = entry at hb
  generalize s.itch = itch at hitch
  cases hb with
  | ignored => cases hreq
  | rejected => cases hreq
  | canceling =>
    cases hreq
    cases hid
  | @entered msg check hu hcheck =>
    cases hreq
    obtain ⟨hside, -, hp⟩ := OrderEntry.checkEnter_ok hcheck
    have hid : g.entry.nextOrderId = i.id := List.singleton_inj.mp hid
    refine ⟨OrderEntry.enterRecord hd.clientId msg, ?_, rfl, hu, fun hrests => ?_⟩
    · rw [hrecs, ← hid]
      exact Function.update_self ..
    · cases hitch with
      | new ht hi =>
        rw [hi] at hrests ⊢
        simp only [Spec.newOrder, Bool.and_eq_true, beq_iff_eq] at hrests
        obtain ⟨hl, -⟩ := hrests
        have hl : check.orderType = .limit := hl
        rw [hl] at hp
        exact ⟨OrderEntry.toEngineSide_eq hside, OrderEntry.toEnginePrice_eq hp, hprice (.inl ⟨rfl, hl⟩)⟩
      | deleted ht => cases ht
      | replaced ht => cases ht
  | @replacing msg orig check horig hu side hcheck =>
    cases hreq
    obtain ⟨-, hp⟩ := OrderEntry.checkReplace_some hcheck
    have hid : g.entry.nextOrderId = i.id := List.singleton_inj.mp hid
    have hc : orig.record.clientId = hd.clientId := (OrderEntry.key_inj (hok.entry.keyed _ orig horig)).1
    have hfits : ∀ o ∈ v.resting.orders, o.id = orig.orderId → orig.record.side = toOuchSide o.side := by
      intro o ho' hoid
      obtain ⟨record, hrec, hf⟩ := hF o ho'
      rw [hoid, hok.recs_of_lookup horig] at hrec
      obtain rfl := Option.some.inj hrec
      exact hf.side
    refine ⟨OrderEntry.replaceRecord orig.record msg, ?_, hc, hu, fun _ => ?_⟩
    · rw [hrecs, ← hid]
      exact Function.update_self ..
    · have hpr := hprice (.inr rfl)
      cases hitch with
      | new ht => cases ht
      | deleted ht ho' hoid hi =>
        rw [hi]
        exact ⟨hfits _ ho' hoid, OrderEntry.toEnginePrice_eq hp, hpr⟩
      | replaced ht ho' hoid hi =>
        rw [hi]
        exact ⟨hfits _ ho' hoid, OrderEntry.toEnginePrice_eq hp, hpr⟩

theorem rests_of_comesToRest {i : Spec.Incoming} {b : Book} (h : i.comesToRest b = true) : i.rests = true :=
  (Bool.and_eq_true_iff.mp h).1

theorem Outcome.faithful (ho : Outcome n g v m g' v' hd) (hok : g.Ok n v) (hF : Faithful v) : Faithful v' := by
  have hold : ∀ r₀ ∈ v.resting.orders, ∀ r, Same r₀ r →
      ∃ record, v'.recs r.id = some record ∧ FitsOrder record r.side r.price := fun r₀ hr₀ r hs => by
    obtain ⟨record, hrec, hf⟩ := hF r₀ hr₀
    rw [← hs.id, ← hs.side, ← hs.price]
    exact ⟨record, ho.recs_mono hok hrec, hf⟩
  intro r hr
  rw [ho.resting] at hr
  rcases ho.step_cases hok with hq | ⟨req, i, b', hreq, ha⟩
  · obtain ⟨r₀, hr₀, hs⟩ := hq.orders r hr
    exact hold r₀ hr₀ r hs
  · rcases ha.orders_cases hr with ⟨r₀, hr₀, hs⟩ | ⟨hc, hid, hside, hprice⟩
    · exact hold r₀ hr₀ r hs
    · obtain ⟨record, hrec, -, -, hf⟩ := ho.record_arrives hok hF hreq ha
      rw [hid, hside, hprice]
      exact ⟨record, hrec, hf (rests_of_comesToRest hc)⟩

/-! ## What the feed displayed -/

/-- What the feed displayed of an order is in its record. -/
structure Sound (recs : ℕ → Option OrderRecord) (itch : List ItchBody) : Prop where
  price : ∀ id p, prices itch id = some p → ∃ record, recs id = some record ∧ record.price.toNat = p
  side : ∀ id x, sides itch id = some x → ∃ record, recs id = some record ∧ record.side = x

/-- What a message displays is in the order's record. -/
def FitsRecords (recs : ℕ → Option OrderRecord) : ItchBody → Prop
  | .addOrder ref side _ _ price => ∃ record, recs ref = some record ∧ record.price.toNat = price ∧ record.side = side
  | .orderReplace orig ref _ price => ∃ record, recs ref = some record ∧ record.price.toNat = price ∧
      ∀ r, recs orig = some r → record.side = r.side
  | _ => True

namespace Sound

variable {recs recs' : ℕ → Option OrderRecord} {itch l : List ItchBody}

theorem nil (recs : ℕ → Option OrderRecord) : Sound recs [] := ⟨nofun, nofun⟩

theorem mono (h : Sound recs itch) (hr : ∀ id record, recs id = some record → recs' id = some record) :
    Sound recs' itch := by
  constructor
  · intro id p hp
    obtain ⟨record, hrec, e⟩ := h.price id p hp
    exact ⟨record, hr id record hrec, e⟩
  · intro id x hx
    obtain ⟨record, hrec, e⟩ := h.side id x hx
    exact ⟨record, hr id record hrec, e⟩

theorem concat (h : Sound recs itch) {m : ItchBody} (hm : FitsRecords recs m) : Sound recs (itch ++ [m]) := by
  constructor
  · intro id p hp
    rw [Spec.prices_concat] at hp
    split at hp
    · next d hd =>
      by_cases hid : id = d.ref
      · subst hid
        rw [Function.update_self] at hp
        obtain rfl := Option.some.inj hp
        cases m with
        | addOrder =>
          cases hd
          obtain ⟨record, hrec, e, -⟩ := hm
          exact ⟨record, hrec, e⟩
        | orderReplace =>
          cases hd
          obtain ⟨record, hrec, e, -⟩ := hm
          exact ⟨record, hrec, e⟩
        | _ => cases hd
      · rw [Function.update_of_ne hid] at hp
        exact h.price id p hp
    · exact h.price id p hp
  · intro id x hx
    rw [Spec.sides_concat] at hx
    cases m with
    | addOrder ref side =>
      dsimp only at hx
      by_cases hid : id = ref
      · subst hid
        rw [Function.update_self] at hx
        obtain rfl := Option.some.inj hx
        obtain ⟨record, hrec, -, e⟩ := hm
        exact ⟨record, hrec, e⟩
      · rw [Function.update_of_ne hid] at hx
        exact h.side id x hx
    | orderReplace orig ref =>
      dsimp only at hx
      by_cases hid : id = ref
      · subst hid
        rw [Function.update_self] at hx
        obtain ⟨record, hrec, -, hsame⟩ := hm
        obtain ⟨r, hr, e⟩ := h.side orig x hx
        exact ⟨record, hrec, (hsame r hr).trans e⟩
      · rw [Function.update_of_ne hid] at hx
        exact h.side id x hx
    | _ => exact h.side id x hx

theorem append (h : Sound recs itch) (hl : ∀ m ∈ l, FitsRecords recs m) : Sound recs (itch ++ l) := by
  induction l generalizing itch with
  | nil => rwa [List.append_nil]
  | cons m l ih =>
    rw [List.append_cons]
    exact ih (h.concat (hl m List.mem_cons_self)) fun m' hm' => hl m' (List.mem_cons_of_mem _ hm')

end Sound

theorem fitsRecords_of_showing {recs : ℕ → Option OrderRecord} {msg : ItchBody} (h : showing msg = none) :
    FitsRecords recs msg := by
  cases msg with
  | addOrder => cases h
  | orderReplace => cases h
  | _ => trivial

/-- What a message makes the feed display is in the records. -/
theorem Outcome.fitsRecords (ho : Outcome n g v m g' v' hd) (hok : g.Ok n v) (hF : Faithful v) :
    ∀ msg ∈ (hd.step n v.resting).itch, FitsRecords v'.recs msg := by
  intro msg hmsg
  rcases ho.step_cases hok with hq | ⟨req, i, b', hreq, ha⟩
  · exact fitsRecords_of_showing (hq.itch msg hmsg).1
  · obtain ⟨record, hrec, -, -, hf⟩ := ho.record_arrives hok hF hreq ha
    cases hshow : showing msg with
    | none => exact fitsRecords_of_showing hshow
    | some d =>
      obtain ⟨hc, rfl | ⟨-, o, ho', hside, rfl⟩⟩ := ha.display_cases hmsg hshow
      · have hfits := hf (rests_of_comesToRest hc)
        exact ⟨record, hrec, hfits.itchPrice.symm, hfits.side⟩
      · have hfits := hf (rests_of_comesToRest hc)
        refine ⟨record, hrec, hfits.itchPrice.symm, fun r hr => ?_⟩
        obtain ⟨r', hr', hfits'⟩ := hF o ho'
        obtain rfl := Option.some.inj ((ho.recs_mono hok hr').symm.trans hr)
        rw [hfits.side, hfits'.side, hside]

/-! ## What the clients are told -/

theorem answer_eq_some {recs : ℕ → Option OrderRecord} {e : Event} {timestamp : UInt64} {r : OuchResponse}
    (h : answer recs e timestamp = some r) : ∃ record orig, recs e.orderId = some record ∧
      r = ⟨record.clientId, report record orig e timestamp⟩ := by
  obtain ⟨record, hrec, h⟩ := Option.bind_eq_some_iff.mp h
  obtain ⟨orig, -, h⟩ := Option.bind_eq_some_iff.mp h
  exact ⟨record, orig, hrec, (Option.some.inj h).symm⟩

/-- The message a delivery sends. -/
theorem Outcome.response (ho : Outcome n g v m g' v' hd) {d : Delivery} (hd' : d ∈ hd.deliveries) :
    ∃ record orig timestamp, v'.recs d.event.orderId = some record ∧
      d.response = some ⟨record.clientId, report record orig d.event timestamp⟩ := by
  obtain ⟨r, hr, -, -, -, timestamp, hans⟩ := ho.delivered d hd'
  obtain ⟨record, orig, hrec, rfl⟩ := answer_eq_some hans
  exact ⟨record, orig, timestamp, hrec, hr⟩

/-- A client has one order under a UserRefNum. -/
theorem Gateway.Ok.id_eq (hok : g.Ok n v) {id id' : ℕ} {record record' : OrderRecord} (h : v.recs id = some record)
    (h' : v.recs id' = some record') (hc : record'.clientId = record.clientId)
    (hu : record'.userRefNum = record.userRefNum) : id' = id := by
  have ha := (hok.recs_iff id record).mp h
  have ha' := (hok.recs_iff id' record').mp h'
  rw [OrderEntry.Assigned, hc, hu] at ha'
  exact congrArg EntryOrder.orderId (Option.some.inj (ha'.symm.trans ha))

/-- The response to a note reports no execution. -/
theorem Outcome.noteResponse (ho : Outcome n g v m g' v' hd) {r : OuchResponse} (hr : hd.noteResponse = some r) :
    executedShares r.ouch = 0 ∧ restingFill r = none := by
  obtain ⟨e, reason, -, -, hrej, -⟩ := ho.rejected hr
  cases hrej
  exact ⟨rfl, rfl⟩

/-- The shares that responses report executed to client `c` under UserRefNum `u`. -/
def reported (c : ℕ) (u : UInt32) (r : OuchResponse) : ℕ :=
  if r.clientId = c ∧ About u r.ouch then executedShares r.ouch else 0

theorem executedUnder_eq (c : ℕ) (u : UInt32) (handled : List Handled) :
    executedUnder c u handled = ((handled.flatMap told).map (reported c u)).sum := by
  rw [executedUnder, toldUnder]
  induction handled.flatMap told with
  | nil => rfl
  | cons r l ih =>
    rw [List.map_cons, List.sum_cons, ← ih, reported]
    by_cases h : r.clientId = c ∧ About u r.ouch
    · rw [List.filter_cons_of_pos (by simpa using h), if_pos h]
      rfl
    · rw [List.filter_cons_of_neg (by simpa using h), if_neg h, Nat.zero_add]

/-- What a delivery reports executed is what its event says of the order. -/
theorem Outcome.reported_eq (ho : Outcome n g v m g' v' hd) (hok' : g'.Ok n v') {id : ℕ} {record : OrderRecord}
    (hrec : v'.recs id = some record) {d : Delivery} (hd' : d ∈ hd.deliveries)
    (hlt : d.event.type = .executed → d.event.quantity < 2 ^ 32) :
    ∃ r, d.response = some r ∧ reported record.clientId record.userRefNum r =
      if d.event.type = .executed ∧ d.event.orderId = id then d.event.quantity else 0 := by
  obtain ⟨record', orig, timestamp, hrec', hr⟩ := ho.response hd'
  refine ⟨_, hr, ?_⟩
  unfold reported report
  cases ht : d.event.type with
  | executed =>
    have hiff : (record'.clientId = record.clientId ∧ record'.userRefNum = record.userRefNum) ↔
        d.event.orderId = id := by
      constructor
      · rintro ⟨hc, hu⟩
        exact hok'.id_eq hrec hrec' hc hu
      · rintro rfl
        obtain rfl := Option.some.inj (hrec.symm.trans hrec')
        exact ⟨rfl, rfl⟩
    have hq : (UInt32.ofNat d.event.quantity).toNat = d.event.quantity := UInt32.toNat_ofNat_of_lt' (hlt ht)
    simp only [About, hiff, executedShares, hq, true_and]
  | _ => simp [executedShares]

/-- The shares reported executed of an order on account of a message. -/
theorem Outcome.executedUnder_eq (ho : Outcome n g v m g' v' hd) (hok' : g'.Ok n v') {id : ℕ} {record : OrderRecord}
    (hrec : v'.recs id = some record)
    (hlt : ∀ e ∈ (hd.step n v.resting).events, e.type = .executed → e.quantity < 2 ^ 32) :
    executedUnder record.clientId record.userRefNum [hd] = executedOf id (hd.step n v.resting).events := by
  have hnote : (hd.noteResponse.toList.map (reported record.clientId record.userRefNum)).sum = 0 := by
    cases hr : hd.noteResponse with
    | none => rfl
    | some r => simp [reported, (ho.noteResponse hr).1]
  rw [Exchange.executedUnder_eq, List.flatMap_singleton, told, List.map_append, List.sum_append, hnote, Nat.zero_add,
    ← ho.events, executedOf, List.map_map]
  have hall : ∀ d ∈ hd.deliveries, ∃ r, d.response = some r ∧ reported record.clientId record.userRefNum r =
      if d.event.type = .executed ∧ d.event.orderId = id then d.event.quantity else 0 := fun d hd' =>
    ho.reported_eq hok' hrec hd' (hlt _ (ho.events ▸ List.mem_map_of_mem hd'))
  generalize hd.deliveries = ds at hall
  induction ds with
  | nil => rfl
  | cons d ds ih =>
    obtain ⟨r, hr, he⟩ := hall d List.mem_cons_self
    rw [List.filterMap_cons_some hr, List.map_cons, List.sum_cons, he, List.map_cons, List.sum_cons,
      ih fun d' hd' => hall d' (List.mem_cons_of_mem _ hd')]
    rfl

/-- The message that opened an order of the record. -/
theorem opening_report {record orig : OrderRecord} {e : Event} (h : Opens e) (timestamp : UInt64) :
    opening ⟨record.clientId, report record orig e timestamp⟩ = some ⟨record.clientId, record.userRefNum,
      UInt64.ofNat e.orderId, record.side, record.price, UInt32.ofNat e.quantity⟩ := by
  rcases h with h | h <;> simp [report, h, opening]

/-- When the feed displays an order, its owner is told that it was opened. -/
theorem Outcome.opened (ho : Outcome n g v m g' v' hd) (hok : g.Ok n v) (hok' : g'.Ok n v') (hF : Faithful v)
    {msg : ItchBody} (hmsg : msg ∈ hd.itch) {d : Showing} (hshow : showing msg = some d) :
    ∃ record, v'.recs d.ref = some record ∧ ¬ record.userRefNum ≤ g.entry.lastUserRefNum record.clientId ∧
      record.price.toNat = d.price ∧ ∃ r ∈ told hd, ∃ quantity : UInt32,
        opening r = some ⟨record.clientId, record.userRefNum, UInt64.ofNat d.ref, record.side, record.price,
          quantity⟩ ∧ quantity.toNat = d.shares + executedUnder record.clientId record.userRefNum [hd] := by
  have hmsg := ho.published.1.subset hmsg
  rcases ho.step_cases hok with hq | ⟨req, i, b', hreq, ha⟩
  · cases (hq.itch msg hmsg).1.symm.trans hshow
  obtain ⟨record, hrec, hc, hu, hf⟩ := ho.record_arrives hok hF hreq ha
  obtain ⟨href, hprice, hshares⟩ := ha.showing hmsg hshow
  have hfits := hf (rests_of_comesToRest (ha.display_cases hmsg hshow).1)
  obtain ⟨first, hevents, hopens, hid, hquantity⟩ := ha.events
  obtain ⟨first, ds, hds, rfl, -⟩ := List.map_eq_cons_iff.mp (ho.events.trans hevents)
  have hmem : first ∈ hd.deliveries := hds ▸ List.mem_cons_self
  obtain ⟨record', orig, timestamp, hrec', hr⟩ := ho.response hmem
  obtain rfl : record = record' := Option.some.inj (hrec.symm.trans (hid ▸ hrec'))
  have hlt : first.event.quantity < 2 ^ 32 := by
    have := ha.ok.lt
    omega
  refine ⟨record, href ▸ hrec, hc ▸ hu, by rw [hprice, hfits.itchPrice], _, mem_told.mpr (.inr ⟨first, hmem, hr⟩),
    UInt32.ofNat first.event.quantity, ?_, ?_⟩
  · rw [opening_report hopens, hid, href]
  · rw [ho.executedUnder_eq hok' hrec fun e he => ha.executed_lt he, UInt32.toNat_ofNat_of_lt' hlt, hquantity,
      hshares]

/-- An execution on the feed and an Order Executed to client `x.1` report the same: `entered`
says which client entered an order under which UserRefNum, `shown` at which price the feed
displayed it. -/
structure SameFill (entered : ℕ → ℕ → UInt32 → Prop) (shown : ℕ → Option ℕ) (f : ItchFill)
    (x : ℕ × OuchOrderExecuted) : Prop where
  owner : entered x.1 f.ref x.2.userRefNum
  shares : x.2.executedShares.toNat = f.shares
  matchNumber : x.2.matchNumber = UInt64.ofNat f.matchNumber
  price : ∀ p, shown f.ref = some p → x.2.executionPrice.toNat = p

theorem byte_eq_A {reason : EngineReason} : reason.byte = chr 'A' ↔ reason = .addedLiquidity := by
  cases reason <;> decide

theorem restingFill_report_of_not {record orig : OrderRecord} {e : Event} (h : ¬ OfResting e) (timestamp : UInt64) :
    restingFill ⟨record.clientId, report record orig e timestamp⟩ = none := by
  unfold report
  cases ht : e.type with
  | executed => exact if_neg fun ha => h ⟨ht, byte_eq_A.mp ha⟩
  | _ => rfl

/-- What the owner of an order that rested is told of an execution. -/
theorem Outcome.sameFill (ho : Outcome n g v m g' v' hd) (hok : g.Ok n v) (hF : Faithful v) {itch : List ItchBody}
    (hS : Sound v.recs itch) {d : Delivery} (hd' : d ∈ hd.deliveries) (hr : OfResting d.event) :
    ∃ r x, d.response = some r ∧ restingFill r = some x ∧
      SameFill (Recorded v'.recs) (prices itch) (fillOf d.event) x := by
  have hmem : d.event ∈ (hd.step n v.resting).events := ho.events ▸ List.mem_map_of_mem hd'
  rcases ho.step_cases hok with hq | ⟨req, i, b', -, ha⟩
  · exact absurd hr (hq.not_ofResting _ hmem)
  obtain ⟨record, orig, timestamp, hrec, hresp⟩ := ho.response hd'
  obtain ⟨o, hor, hid, hprice⟩ := ha.ofResting hmem hr
  obtain ⟨record', hrec', hf⟩ := hF o hor
  obtain rfl : record' = record := by
    have h := ho.recs_mono hok hrec'
    rw [hid] at h
    exact Option.some.inj (h.symm.trans hrec)
  have hfill : restingFill ⟨record'.clientId, report record' orig d.event timestamp⟩ = some (record'.clientId, {
      timestamp := timestamp, userRefNum := record'.userRefNum, executedShares := UInt32.ofNat d.event.quantity,
      executionPrice := toOuchPrice d.event.price, liquidityFlag := d.event.reason.byte,
      matchNumber := UInt64.ofNat d.event.matchNumber }) := by
    unfold report restingFill
    rw [hr.1]
    exact if_pos (byte_eq_A.mpr hr.2)
  refine ⟨_, _, hresp, hfill, ⟨record', hrec, rfl, rfl⟩, UInt32.toNat_ofNat_of_lt' (ha.executed_lt hmem hr.1), rfl,
    fun p hp => ?_⟩
  obtain ⟨record₀, hrec₀, hp₀⟩ := hS.price _ p hp
  rw [show (fillOf d.event).ref = o.id from hid.symm] at hrec₀
  obtain rfl := Option.some.inj (hrec'.symm.trans hrec₀)
  rw [← hp₀, ← hf.ouchPrice, hprice]

/-- The executions that are published, and what the owners of the orders that rested are
told, one for one. -/
theorem Outcome.fills (ho : Outcome n g v m g' v' hd) (hok : g.Ok n v) (hF : Faithful v) {itch : List ItchBody}
    (hS : Sound v.recs itch) :
    List.Forall₂ (SameFill (Recorded v'.recs) (prices itch)) ((hd.step n v.resting).itch.filterMap itchFill)
      ((told hd).filterMap restingFill) := by
  have hfills : (hd.step n v.resting).itch.filterMap itchFill =
      ((hd.step n v.resting).events.filter OfResting).map fillOf := by
    rcases ho.step_cases hok with hq | ⟨req, i, b', -, ha⟩
    · exact hq.fills
    · exact ha.fills
  have hnote : hd.noteResponse.toList.filterMap restingFill = [] := by
    cases hr : hd.noteResponse with
    | none => rfl
    | some r => simp [(ho.noteResponse hr).2]
  rw [hfills, ← ho.events, told, List.filterMap_append, hnote, List.nil_append]
  have hall : ∀ d ∈ hd.deliveries, ∃ r, d.response = some r ∧ (OfResting d.event →
      ∃ x, restingFill r = some x ∧ SameFill (Recorded v'.recs) (prices itch) (fillOf d.event) x) ∧
      (¬ OfResting d.event → restingFill r = none) := fun d hd' => by
    by_cases hr : OfResting d.event
    · obtain ⟨r, x, hresp, hx⟩ := ho.sameFill hok hF hS hd' hr
      exact ⟨r, hresp, fun _ => ⟨x, hx⟩, fun h => absurd hr h⟩
    · obtain ⟨record, orig, timestamp, -, hresp⟩ := ho.response hd'
      exact ⟨_, hresp, fun h => absurd h hr, fun _ => restingFill_report_of_not hr timestamp⟩
  generalize hd.deliveries = ds at hall
  induction ds with
  | nil => exact .nil
  | cons d ds ih =>
    obtain ⟨r, hresp, hyes, hno⟩ := hall d List.mem_cons_self
    have hrest := ih fun d' hd' => hall d' (List.mem_cons_of_mem _ hd')
    rw [List.filterMap_cons_some hresp, List.map_cons]
    by_cases hr : OfResting d.event
    · obtain ⟨x, hx, hsame⟩ := hyes hr
      rw [List.filter_cons_of_pos (by simpa using hr), List.map_cons, List.filterMap_cons_some hx]
      exact .cons hsame hrest
    · rw [List.filter_cons_of_neg (by simpa using hr), List.filterMap_cons_none (hno hr)]
      exact hrest

/-! ## Runs -/

namespace Gateway

variable {ms : List Inbound} {handled : List Handled}

theorem Trail.faithful (h : Trail n g v ms g' v' handled) (hF : Faithful v) : Faithful v' := by
  induction h with
  | nil => exact hF
  | cons hok ho _ ih => exact ih (ho.faithful hok hF)

theorem Trail.sound (h : Trail n g v ms g' v' handled) (hF : Faithful v) {itch : List ItchBody}
    (hS : Sound v.recs itch) : Sound v'.recs (itch ++ handled.flatMap (·.itch)) := by
  induction h generalizing itch with
  | nil => simpa using hS
  | cons hok ho _ ih =>
    rw [List.flatMap_cons, ← List.append_assoc]
    refine ih (ho.faithful hok hF) ((hS.mono fun _ _ => ho.recs_mono hok).append fun msg hm => ?_)
    exact ho.fitsRecords hok hF msg (ho.published.1.subset hm)

theorem Trail.marketData (h : Trail n g v ms g' v' handled) :
    g'.book.out.marketData.map (·.body) = g.book.out.marketData.map (·.body) ++ handled.flatMap (·.itch) := by
  induction h with
  | nil => simp
  | cons _ ho _ ih => rw [ih, ho.published.2.1, List.flatMap_cons, List.append_assoc]

theorem Trail.drops_le (h : Trail n g v ms g' v' handled) :
    g.book.out.marketDataDrops ≤ g'.book.out.marketDataDrops := by
  induction h with
  | nil => exact Nat.le_refl _
  | cons _ ho _ ih => exact Nat.le_trans ho.published.drops_le ih

/-- Nothing dropped, every resting order was displayed. -/
theorem Trail.allShown (h : Trail n g v ms g' v' handled)
    (hdrops : g'.book.out.marketDataDrops = g.book.out.marketDataDrops) {itch : List ItchBody}
    (ha : Spec.AllShown v.resting itch) : Spec.AllShown v'.resting (itch ++ handled.flatMap (·.itch)) := by
  induction h generalizing itch with
  | nil => simpa using ha
  | @cons g g₁ g' v v₁ v' m ms hd handled hok ho ht ih =>
    have hle := ht.drops_le
    have hle' := ho.published.drops_le
    have hitch := ho.published.eq_of_drops (by omega)
    rw [List.flatMap_cons, ← List.append_assoc]
    refine ih (by omega) ?_
    rw [ho.resting, hitch]
    rcases ho.step_cases hok with hq | ⟨req, i, b', -, hi⟩
    · exact hq.allShown ha
    · exact hi.allShown ha

end Gateway

open Gateway (Entered)

/-- The owner of an order the feed displays was told that it was opened: on the side and at
the price displayed, with the shares displayed and those reported executed so far. -/
structure OpenedAs (past : List Handled) (d : Showing) (o : Opening) : Prop where
  owner : Entered past o.clientId d.ref o.userRefNum
  ref : o.orderReferenceNumber = UInt64.ofNat d.ref
  side : ∀ x, sides (past.flatMap (·.itch)) d.ref = some x → o.side = x
  price : o.price.toNat = d.price
  quantity : o.quantity.toNat = d.shares + executedUnder o.clientId o.userRefNum past

theorem SameFill.imp {P Q : ℕ → ℕ → UInt32 → Prop} (hPQ : ∀ c id u, P c id u → Q c id u) {shown : ℕ → Option ℕ}
    (f : ItchFill) (x : ℕ × OuchOrderExecuted) (h : SameFill P shown f x) : SameFill Q shown f x :=
  ⟨hPQ _ _ _ h.owner, h.shares, h.matchNumber, h.price⟩

/-- The order a message makes the feed display, after the messages `pre`. -/
theorem Outcome.openedAs (ho : Outcome n g v m g' v' hd) (hok : g.Ok n v) (hok' : g'.Ok n v') (hF : Faithful v)
    {pre : List Handled} (hS : Sound v'.recs ((pre ++ [hd]).flatMap (·.itch)))
    (hentered : ∀ c id u, Recorded v'.recs c id u → Entered (pre ++ [hd]) c id u)
    (hnil : ∀ c u, ¬ u ≤ g.entry.lastUserRefNum c → toldUnder c u pre = []) {msg : ItchBody} (hmsg : msg ∈ hd.itch)
    {d : Showing} (hshow : showing msg = some d) :
    ∃ r ∈ (pre ++ [hd]).flatMap told, ∃ o, opening r = some o ∧ OpenedAs (pre ++ [hd]) d o := by
  obtain ⟨record, hrec, hu, hprice, r, hr, quantity, hopen, hq⟩ := ho.opened hok hok' hF hmsg hshow
  have hmem : r ∈ (pre ++ [hd]).flatMap told :=
    List.mem_flatMap.mpr ⟨hd, List.mem_append_right _ (List.mem_singleton_self _), hr⟩
  refine ⟨r, hmem, _, hopen, hentered _ _ _ ⟨record, hrec, rfl, rfl⟩, rfl, fun x hx => ?_, hprice, ?_⟩
  · obtain ⟨record', hrec', rfl⟩ := hS.side _ x hx
    exact congrArg OrderRecord.side (Option.some.inj (hrec.symm.trans hrec'))
  · rw [hq, executedUnder, executedUnder, Gateway.toldUnder_append, hnil _ _ hu]
    rfl

/-- If nothing is dropped, an order that trades or is displayed has been displayed with a
price and a side. -/
theorem Outcome.shown (ho : Outcome n g v m g' v' hd) (hok : g.Ok n v) (hitch : hd.itch = (hd.step n v.resting).itch)
    {itch : List ItchBody} (ha : Spec.AllShown v.resting itch) :
    (∀ f ∈ hd.itch.filterMap itchFill, (prices itch f.ref).isSome) ∧
      ∀ msg ∈ hd.itch, ∀ d, showing msg = some d → (sides (itch ++ hd.itch) d.ref).isSome := by
  rw [hitch]
  rcases ho.step_cases hok with hq | ⟨req, i, b', -, hi⟩
  · refine ⟨fun f hf => ?_, fun msg hmsg d hd' => ?_⟩
    · obtain ⟨msg, hmsg, hf⟩ := List.mem_filterMap.mp hf
      cases (hq.itch msg hmsg).2.symm.trans hf
    · cases (hq.itch msg hmsg).1.symm.trans hd'
  · refine ⟨fun f hf => ?_, fun msg hmsg d hd' => ?_⟩
    · rw [hi.fills] at hf
      obtain ⟨e, he, rfl⟩ := List.mem_map.mp hf
      obtain ⟨he, hr⟩ := List.mem_filter.mp he
      obtain ⟨o, ho', hid, -⟩ := hi.ofResting he (by simpa using hr)
      rw [show (fillOf e).ref = o.id from hid.symm]
      exact (ha o ho').1
    · rw [(hi.showing hmsg hd').1]
      exact (hi.shown ha (hi.display_cases hmsg hd').1).2

/-- The feed and the clients' messages tell the same story, in every run. When the feed
displays an order, its owner was told so (`OpenedAs`). The executions on the feed are, in
their order, Order Executed messages to the owners of the orders that rested (`SameFill`),
and as long as the feed's ring drops nothing each such message has its execution on the
feed, of an order whose price was displayed. -/
theorem ouch_itch_agree (capacity soupReplayBytes : ℕ) (env : Env) (clock : ℕ → UInt64) (ms : List Inbound) :
    ∃ g handled, (∀ a, Gateway.run a clock (Gateway.new capacity soupReplayBytes env) ms = some (g, handled)) ∧
      handled.flatMap (·.itch) = g.book.out.marketData.map (·.body) ∧
      ∀ pre h post, handled = pre ++ h :: post →
        let past := pre ++ [h]
        let same := SameFill (Entered past) (prices (pre.flatMap (·.itch)))
        (∀ msg ∈ h.itch, ∀ d, showing msg = some d →
          ∃ r ∈ past.flatMap told, ∃ o, opening r = some o ∧ OpenedAs past d o) ∧
        List.SublistForall₂ same (h.itch.filterMap itchFill) ((told h).filterMap restingFill) ∧
        (g.book.out.marketDataDrops = 0 →
          List.Forall₂ same (h.itch.filterMap itchFill) ((told h).filterMap restingFill) ∧
          (∀ f ∈ h.itch.filterMap itchFill, (prices (pre.flatMap (·.itch)) f.ref).isSome) ∧
          ∀ msg ∈ h.itch, ∀ d, showing msg = some d → (sides (past.flatMap (·.itch)) d.ref).isSome) := by
  obtain ⟨g, v, handled, hrun, ht⟩ := (Gateway.Ok.new capacity soupReplayBytes env).trail clock ms
  refine ⟨g, handled, hrun, ht.marketData.symm, ?_⟩
  rintro pre h post rfl past same
  obtain ⟨ms₁, g₁, v₁, m, g₂, v₂, ms₂, -, hpre, ho, hpost⟩ := ht.split
  have hok₁ := hpre.ok.2
  have hok₂ := hpost.ok.1
  have hF : Faithful v₁ := hpre.faithful nofun
  have hS : Sound v₁.recs (pre.flatMap (·.itch)) := hpre.sound nofun (.nil _)
  have hitch : past.flatMap (·.itch) = pre.flatMap (·.itch) ++ h.itch := by
    rw [List.flatMap_append, List.flatMap_singleton]
  have hS' : Sound v₂.recs (past.flatMap (·.itch)) := by
    rw [hitch]
    refine (hS.mono fun _ _ => ho.recs_mono hok₁).append fun msg hm => ?_
    exact ho.fitsRecords hok₁ hF msg (ho.published.1.subset hm)
  have hentered := (((Gateway.After.new capacity soupReplayBytes env).trail hpre).step ho hok₂).entered
  have hfills := (ho.fills hok₁ hF hS).imp (SameFill.imp hentered)
  refine ⟨fun msg hmsg d hd => ?_, hfills.sublist_left (ho.published.1.filterMap _), fun hdrops => ?_⟩
  · exact ho.openedAs hok₁ hok₂ hF hS' hentered (fun c u hu => hpre.toldUnder_eq_nil hu) hmsg hd
  · have hzero : (Gateway.new capacity soupReplayBytes env).book.out.marketDataDrops = 0 := rfl
    have hle := ho.published.drops_le
    have hle' := hpost.drops_le
    have hle'' := hpre.drops_le
    have hkept := ho.published.eq_of_drops (by omega)
    have hall : Spec.AllShown v₁.resting ([] ++ pre.flatMap (·.itch)) := hpre.allShown (by omega) nofun
    obtain ⟨hprices, hsides⟩ := ho.shown hok₁ hkept hall
    rw [hitch]
    exact ⟨hkept ▸ hfills, hprices, hsides⟩

end Exchange
