import Exchange.Proof.Engine.Run
import Exchange.Proof.Server.Entry
import Exchange.Proof.Server.Responder
import Exchange.Proof.Server.SessionLog

/-!
# From a client's message to the clients' logs

`Gateway.Ok` ties order entry, the responder and the book together: a `GatewayView`
gives the record every order was entered with, how its life stands and the reference
book, and the responder has of every order what its life leaves. `handleOuch_ok` is one
message.

`no_event_lost`: every event of the engine is answered to its client, under the
UserRefNum the order was entered with, and appended to the client's log.
`no_dead_records`: the responder has a record of exactly the resting orders, as long as
every Replace finds its order resting with fewer shares executed than it asks for;
`dead_record_kept` is a run with a Replace that comes too late.
-/

namespace Exchange

open Spec (Life Book Opens)

/-- What is known of a gateway besides its state. -/
structure GatewayView where
  /-- The record each order was entered with. -/
  recs : ℕ → Option OrderRecord
  lives : ℕ → Life
  resting : Book
  slots : Side → ℕ → List ℕ

/-- The responder and the book of a gateway go together. -/
structure Linked (n : ℕ) (v : GatewayView) (book : Orderbook) (responder : OuchResponder) : Prop where
  rep : Rep n book v.slots v.resting
  wf : v.resting.WF
  tracks : responder.Tracks v.recs v.lives
  agrees : ∀ id, (v.lives id).Agrees v.resting id
  owned : ∀ r ∈ v.resting.orders, ∃ record, v.recs r.id = some record ∧ record.clientId = r.clientId

namespace Linked

variable {n : ℕ} {v : GatewayView} {book : Orderbook} {responder : OuchResponder}

/-- A resting order has its record, with as many shares as it has open. -/
theorem lookup_of_resting (h : Linked n v book responder) {id x : ℕ} (hx : book.orders.lookup id = some x) :
    ∃ live, responder.orders.lookup id = some live ∧ live.openShares = (book.order x).openQuantity := by
  obtain ⟨hf, -, hid⟩ := h.rep.lookup_eq_some h.wf hx
  obtain ⟨hr, -⟩ := Spec.find?_mem hf
  obtain ⟨q, d, hl, hopen⟩ := (h.agrees id).opened_of_mem hr hid
  have hpos := h.wf.open_pos _ hr
  obtain ⟨record, hrec, -⟩ := h.owned _ hr
  rw [show (book.order x).view.id = id from hid] at hrec
  refine ⟨⟨record, q - d⟩, ?_, ?_⟩
  · rw [h.tracks id, hl, liveRecord, if_pos (by omega), hrec]
    rfl
  · show q - d = (book.order x).view.openQuantity
    omega

/-- The records: those of the resting orders, and of orders no event has named. -/
theorem mem_orders_iff (h : Linked n v book responder) (id : ℕ) :
    id ∈ responder.orders ↔ id ∈ book.orders ∨ v.lives id = .unborn ∧ (v.recs id).isSome := by
  have hag := h.agrees id
  rw [← AList.lookup_isSome, h.tracks id, h.rep.mem_orders_iff]
  cases hl : v.lives id with
  | unborn =>
    rw [hl] at hag
    simp only [liveRecord, Option.isSome_map, true_and]
    exact ⟨.inr, fun h => h.resolve_left hag⟩
  | rejected =>
    rw [hl] at hag
    simpa [liveRecord] using show id ∉ v.resting.ids from hag
  | replaced q d =>
    rw [hl] at hag
    simpa [liveRecord] using show id ∉ v.resting.ids from hag
  | opened q d =>
    rw [hl] at hag
    by_cases hm : id ∈ v.resting.ids
    · obtain ⟨r, hr, rfl⟩ := Spec.Book.mem_ids.mp hm
      have hopen := hag.1 r hr rfl
      have hpos := h.wf.open_pos r hr
      obtain ⟨record, hrec, -⟩ := h.owned r hr
      simp [liveRecord, hrec, hm, show d < q by omega]
    · simp [liveRecord, hag.2 hm, hm]

/-- A request: whatever the engine's events are, each is answered, and the gateway's
parts still go together. -/
theorem execute {g : Gateway} (h : Linked n v g.book g.responder) (clock : ℕ → UInt64) {req : EngineRequest}
    (hp : Spec.PriceOk req) (hq : req.type = .new → 0 < req.quantity)
    (hnew : ∀ id ∈ Spec.introduces req, v.lives id = .unborn ∧
      ∃ record, v.recs id = some record ∧ record.clientId = req.clientId) (enginePopTsc : ℕ) :
    ∃ book' responder' v' ds,
      (∀ a, g.execute a clock (req, enginePopTsc) = some ({ g with
        book := book'
        responder := responder'
        logs := (ds.map (·.sent)).foldl Gateway.appendLog g.logs }, ds)) ∧
      Linked n v' book' responder' ∧ v'.recs = v.recs ∧ v'.resting = (Spec.process n v.resting req).book ∧
      (∀ id, Spec.Life.follow id (v.lives id) (Spec.process n v.resting req).events = some (v'.lives id)) ∧
      ds.map (·.event) = (Spec.process n v.resting req).events ∧
      book'.out.outRing.map (·.toEvent) = g.book.out.outRing.map (·.toEvent) ++ ds.map (·.event) ∧
      Output.Published g.book.out book'.out (Spec.process n v.resting req).itch ∧
      ∀ d ∈ ds, Known v.recs d.event ∧ Delivered v.recs d := by
  obtain ⟨book', slots', hproc, hrep, hring, hitch⟩ := process_ok h.rep h.wf hp enginePopTsc
  have hpushed : (book'.out.outRing.drop g.book.out.outRing.length).map (·.toEvent) =
      (Spec.process n v.resting req).events := List.map_drop_left hring
  have hfollow : ∀ id, ∃ l', Spec.Life.follow id (v.lives id) (Spec.process n v.resting req).events = some l' ∧
      l'.Agrees (Spec.process n v.resting req).book id := fun id =>
    Spec.follow_process n (h.agrees id) h.wf fun hm => (hnew id hm).1
  choose lives' hf hagrees using hfollow
  obtain ⟨hevents, howned⟩ := Spec.handle_owned (P := fun id c => ∃ record, v.recs id = some record ∧
    record.clientId = c) n h.wf h.owned fun id hm => (hnew id hm).2
  have hknown : ∀ e ∈ (Spec.process n v.resting req).events, Known v.recs e :=
    Spec.forall_flagFirst (fun _ h => ⟨h.record, h.orig, h.pos⟩) fun e he =>
      ⟨(hevents e he).1, (hevents e he).2, fun ho => Spec.opens_pos n he ho hq⟩
  have hmem : ∀ e ∈ book'.out.outRing.drop g.book.out.outRing.length,
      e.toEvent ∈ (Spec.process n v.resting req).events := fun e he => hpushed ▸ List.mem_map_of_mem he
  obtain ⟨responder', ds, hon, hds, htracks, hdel⟩ := onEvents_ok clock { g with book := book' } h.tracks
    (fun id => by rw [hpushed]; exact hf id) fun e he => hknown _ (hmem e he)
  refine ⟨book', responder', ⟨v.recs, lives', (Spec.process n v.resting req).book, slots'⟩, ds, fun a => ?_,
    ⟨hrep, Spec.process_wf n h.wf hp, htracks, hagrees, howned⟩, rfl, rfl, hf, hds.trans hpushed, ?_, hitch,
    fun d hd => ⟨hknown _ ?_, hdel d hd⟩⟩
  · simp only [Gateway.execute, Engine.executeRequest, hproc a, Option.bind_eq_bind, Option.bind_some, hon]
  · rw [hring, hds, hpushed]
  · rw [← hpushed, ← hds]
    exact List.mem_map_of_mem hd

end Linked

/-! ## One message -/

namespace Gateway

/-- A REPLACE request a message turns into finds its order resting, with fewer shares
executed than it asks for. -/
def replaceLands (g : Gateway) (m : Inbound) : Bool :=
  match (g.entry.translate m.clientId m.msg).bind (·.2.request) with
  | none => true
  | some request => request.type != .replace ||
    (g.book.orders.lookup request.orderId).any fun x => (g.book.order x).executedQuantity < request.quantity

/-- The gateway is as its view has it. -/
structure Ok (n : ℕ) (v : GatewayView) (g : Gateway) : Prop where
  linked : Linked n v g.book g.responder
  entry : g.entry.Ok
  band : g.entry.band = band
  recs_iff : ∀ id record, v.recs id = some record ↔ g.entry.Assigned id record
  unborn : ∀ id, g.entry.nextOrderId ≤ id → v.lives id = .unborn

end Gateway

/-- Every order that was entered has been named by an event. -/
def GatewayView.Settled (v : GatewayView) : Prop := ∀ id, (v.recs id).isSome → v.lives id ≠ .unborn

def GatewayView.entering (v : GatewayView) (id : ℕ) (record : OrderRecord) : GatewayView :=
  { v with recs := Function.update v.recs id (some record) }

/-- The id and the UserRefNum of the order a message entered. -/
def Handled.assigned (h : Handled) : Option (ℕ × UInt32) :=
  match h.msg, h.translation.request with
  | .enterOrder m, some request => some (request.orderId, m.userRefNum)
  | .replaceOrder m, some request => if request.type = .replace then some (request.newOrderId, m.userRefNum) else none
  | _, _ => none

/-- What the reference book does on the request of a message. -/
def Handled.step (h : Handled) (n : ℕ) (b : Book) : Spec.Step :=
  match h.translation.request with
  | none => Spec.ignored b
  | some req => Spec.process n b req

/-- Handling a message is translating it, taking its note, and what the reference book does
on its request. -/
structure Ran (n : ℕ) (g : Gateway) (v : GatewayView) (m : Inbound) (g' : Gateway) (v' : GatewayView)
    (h : Handled) : Prop where
  call : h.clientId = m.clientId ∧ h.msg = m.msg
  translated : g.entry.translate h.clientId h.msg = some (g'.entry, h.translation)
  becomes : OrderEntry.Becomes g.entry h.clientId h.msg g'.entry h.translation
  noted : h.noteResponse = h.translation.note.bind (Spec.rejection m.noteTimestamp)
  recs : v'.recs = h.translation.note.elim v.recs (Spec.record v.recs)
  resting : v'.resting = (h.step n v.resting).book
  events : h.deliveries.map (·.event) = (h.step n v.resting).events
  lives : ∀ id, Life.follow id (v.lives id) (h.step n v.resting).events = some (v'.lives id)
  published : Output.Kept g.book.out g'.book.out (h.step n v.resting).itch h.itch
  known : ∀ d ∈ h.deliveries, Known v'.recs d.event
  delivered : ∀ d ∈ h.deliveries, Delivered v'.recs d

/-- What handling a message comes to. -/
structure Outcome (n : ℕ) (g : Gateway) (v : GatewayView) (m : Inbound) (g' : Gateway) (v' : GatewayView)
    (h : Handled) : Prop extends Ran n g v m g' v' h where
  ring : g'.book.out.outRing.map (·.toEvent) = g.book.out.outRing.map (·.toEvent) ++ h.deliveries.map (·.event)
  rejects : h.rejects = h.noteResponse.toList.map fun r => (r.clientId, encodeSoupSequenced r.ouch maxSoupPacket)
  logs : g'.logs = (h.rejects ++ h.deliveries.map (·.sent)).foldl Gateway.appendLog g.logs
  entered : ∀ id record, v'.recs id = some record →
    v.recs id = some record ∨ h.clientId = record.clientId ∧ h.assigned = some (id, record.userRefNum)
  next : g.entry.nextOrderId ≤ g'.entry.nextOrderId
  assigned : ∀ p ∈ h.assigned, g.entry.nextOrderId ≤ p.1 ∧ p.1 < g'.entry.nextOrderId
  settled : v.Settled → g.replaceLands m → v'.Settled

namespace Gateway

variable {n : ℕ} {v v' : GatewayView} {g g' : Gateway} {m : Inbound} {t : Translation} {req : EngineRequest}
  {rejects : List (ℕ × List UInt8)} {ds : List Delivery} {past : List Handled}

theorem Ok.new (capacity soupReplayBytes : ℕ) (env : Env) :
    (Gateway.new capacity soupReplayBytes env).Ok capacity ⟨fun _ => none, fun _ => .unborn, {}, fun _ _ => []⟩ where
  linked := {
    rep := .new capacity env
    wf := .new
    tracks := fun _ => rfl
    agrees := fun _ hm => by cases hm
    owned := fun r hr => by cases hr }
  entry := .new _
  band := rfl
  recs_iff _ _ := by constructor <;> intro h <;> cases h
  unborn _ _ := rfl

theorem Ok.next_notMem (h : g.Ok n v) : g.entry.nextOrderId ∉ v.resting.ids := by
  have hag := h.linked.agrees g.entry.nextOrderId
  rw [h.unborn _ (le_refl _)] at hag
  exact hag

/-- Order entry and the view have the same records. -/
theorem Ok.recs_of_lookup (h : g.Ok n v) {k : ℕ} {o : EntryOrder} (ho : g.entry.orders.lookup k = some o) :
    v.recs o.orderId = some o.record := by
  rw [h.recs_iff, OrderEntry.Assigned, h.entry.keyed k o ho]
  exact ho

/-- The gateway with the note of a new order: the responder has its record before any
event names it. -/
def noted (g : Gateway) (c : ℕ) (record : OrderRecord) : Gateway :=
  { g with
    entry := (g.entry.consume c record.userRefNum).assign c record
    responder := ⟨g.responder.orders.insert g.entry.nextOrderId ⟨record, 0⟩⟩ }

theorem Ok.noted (h : g.Ok n v) {c : ℕ} {record : OrderRecord} (hc : record.clientId = c)
    (hu : ¬ record.userRefNum ≤ g.entry.lastUserRefNum c)
    (hok : ((g.entry.consume c record.userRefNum).assign c record).Ok) :
    (g.noted c record).Ok n (v.entering g.entry.nextOrderId record) := by
  have htracks := h.linked.tracks.insert (h.unborn _ (le_refl g.entry.nextOrderId)) record
  refine ⟨⟨h.linked.rep, h.linked.wf, htracks, h.linked.agrees, fun r hr => ?_⟩, hok, h.band,
    fun id r => ?_, fun id hid => h.unborn id (Nat.le_of_succ_le hid)⟩
  · have hne : r.id ≠ g.entry.nextOrderId := fun e => h.next_notMem (e ▸ Spec.Book.mem_ids.mpr ⟨r, hr, rfl⟩)
    simp only [GatewayView.entering, Function.update_of_ne hne]
    exact h.linked.owned r hr
  · refine Iff.trans ?_ (OrderEntry.assigned_assign hc (h.entry.free hu)).symm
    refine Iff.trans ?_ (or_congr_right (h.recs_iff id r))
    by_cases hid : id = g.entry.nextOrderId
    · subst hid
      have hnone : ∀ r, v.recs g.entry.nextOrderId ≠ some r := fun r hr =>
        Nat.lt_irrefl _ (h.entry.id_lt _ _ ((h.recs_iff _ r).mp hr))
      simp [GatewayView.entering, hnone, eq_comm]
    · simp [GatewayView.entering, hid]

/-- What executing a request comes to. -/
structure Executed (n : ℕ) (g : Gateway) (v : GatewayView) (req : EngineRequest) (g' : Gateway) (v' : GatewayView)
    (ds : List Delivery) : Prop where
  ok : g'.Ok n v'
  entry : g'.entry = g.entry
  recs : v'.recs = v.recs
  resting : v'.resting = (Spec.process n v.resting req).book
  lives : ∀ id, Spec.Life.follow id (v.lives id) (Spec.process n v.resting req).events = some (v'.lives id)
  events : ds.map (·.event) = (Spec.process n v.resting req).events
  ring : g'.book.out.outRing.map (·.toEvent) = g.book.out.outRing.map (·.toEvent) ++ ds.map (·.event)
  logs : g'.logs = (ds.map (·.sent)).foldl appendLog g.logs
  published : Output.Published g.book.out g'.book.out (Spec.process n v.resting req).itch
  delivered : ∀ d ∈ ds, Known v'.recs d.event ∧ Delivered v'.recs d

theorem Executed.settled (h : Executed n g v req g' v' ds) (hv : ∀ id, (v.recs id).isSome →
      v.lives id ≠ .unborn ∨ ∃ e ∈ (Spec.process n v.resting req).events, e.orderId = id) : v'.Settled := by
  intro id hid
  rw [h.recs] at hid
  exact Spec.follow_ne_unborn (h.lives id) (hv id hid)

theorem Ok.execute (h : g.Ok n v) (clock : ℕ → UInt64) (hp : Spec.PriceOk req) (hq : req.type = .new → 0 < req.quantity)
    (hnew : ∀ id ∈ Spec.introduces req, id < g.entry.nextOrderId ∧ v.lives id = .unborn ∧
      ∃ record, v.recs id = some record ∧ record.clientId = req.clientId) (enginePopTsc : ℕ) :
    ∃ g' v' ds, (∀ a, g.execute a clock (req, enginePopTsc) = some (g', ds)) ∧ Executed n g v req g' v' ds := by
  obtain ⟨book', responder', v', ds, hex, hlinked, hrecs, hresting, hlives, hevents, hring, hitch, hdel⟩ :=
    h.linked.execute clock hp hq (fun id hid => (hnew id hid).2) enginePopTsc
  refine ⟨_, v', ds, hex, ⟨hlinked, h.entry, h.band, fun id r => ?_, fun id hid => ?_⟩, rfl, hrecs, hresting, hlives,
    hevents, hring, rfl, hitch, hrecs.symm ▸ hdel⟩
  · rw [hrecs]
    exact h.recs_iff id r
  · -- an id that is not handed out yet is in no request
    have hunborn := h.unborn id hid
    have hag := h.linked.agrees id
    have hl := hlives id
    rw [hunborn] at hag hl
    have hstay := (Spec.follow_process_unborn n h.linked.wf hag fun hm => Nat.not_lt.mpr hid (hnew id hm).1).1
    exact Option.some.inj (hl.symm.trans hstay)

/-- A new order: its note, then its request. -/
theorem Ok.introduce (h : g.Ok n v) (clock : ℕ → UInt64) {c : ℕ} (record : OrderRecord) (hc : record.clientId = c)
    (hu : ¬ record.userRefNum ≤ g.entry.lastUserRefNum c)
    (hok : ((g.entry.consume c record.userRefNum).assign c record).Ok)
    (hp : Spec.PriceOk req) (hq : req.type = .new → 0 < req.quantity)
    (hintro : Spec.introduces req = [g.entry.nextOrderId]) (hclient : req.clientId = c) (enginePopTsc : ℕ) :
    ∃ g' v' ds, (∀ a, (g.noted c record).execute a clock (req, enginePopTsc) = some (g', ds)) ∧
      Executed n (g.noted c record) (v.entering g.entry.nextOrderId record) req g' v' ds := by
  refine (h.noted hc hu hok).execute clock hp hq (fun id hid => ?_) enginePopTsc
  rw [hintro, List.mem_singleton] at hid
  subst hid
  exact ⟨Nat.lt_succ_self _, h.unborn _ (le_refl _), record, Function.update_self .., hc.trans hclient.symm⟩

/-- The stamps of a request do not matter to the book. -/
theorem process_stamp (n : ℕ) (b : Book) (m : Inbound) (req : EngineRequest) :
    Spec.process n b (stamp m req) = Spec.process n b req := rfl

/-- The request of a message, stamped, has a price in the band if it needs one. -/
theorem Ok.priceOk (h : g.Ok n v) {c : ℕ} {msg : OuchInboundFrame} {entry : OrderEntry}
    (hb : OrderEntry.Becomes g.entry c msg entry t) (hr : t.request = some req) (m : Inbound) :
    Spec.PriceOk (stamp m req) := by
  have hp : Spec.PriceOk req := hb.priceOk h.band hr
  exact hp

theorem Executed.ran {g₁ g' : Gateway} {v₁ v' : GatewayView} (h : Executed n g₁ v₁ (stamp m req) g' v' ds)
    (htr : g.entry.translate m.clientId m.msg = some (g₁.entry, t))
    (hb : OrderEntry.Becomes g.entry m.clientId m.msg g₁.entry t) (hreq : t.request = some req)
    (hrecs : v₁.recs = t.note.elim v.recs (Spec.record v.recs)) (hbook : g₁.book = g.book)
    (hresting : v₁.resting = v.resting) (hlives : v₁.lives = v.lives) :
    Ran n g v m g' v'
      ⟨m.clientId, m.msg, t, t.note.bind (Spec.rejection m.noteTimestamp), rejects, ds,
        g'.published g₁.book.out.marketData.length⟩ := by
  have hstep : Handled.step ⟨m.clientId, m.msg, t, t.note.bind (Spec.rejection m.noteTimestamp), rejects, ds,
        g'.published g₁.book.out.marketData.length⟩ n
      v.resting = Spec.process n v.resting req := by
    rw [Handled.step, hreq]
  have hevents := h.events
  have hl := h.lives
  have hpub := h.published.kept
  rw [process_stamp, hresting] at hevents hl hpub
  rw [hlives] at hl
  refine ⟨⟨rfl, rfl⟩, ?_, ?_, rfl, h.recs.trans hrecs, ?_, ?_, ?_, ?_, fun d hd => (h.delivered d hd).1,
    fun d hd => (h.delivered d hd).2⟩
  · rw [h.entry]
    exact htr
  · rw [h.entry]
    exact hb
  · rw [hstep, h.resting, process_stamp, hresting]
  · rw [hstep]
    exact hevents
  · rw [hstep]
    exact hl
  · rw [hstep, ← hbook]
    exact hpub

/-- A message without a request. -/
theorem ran_none (n : ℕ) (htr : g.entry.translate m.clientId m.msg = some (g'.entry, t))
    (hb : OrderEntry.Becomes g.entry m.clientId m.msg g'.entry t) (hreq : t.request = none)
    (hrecs : v.recs = t.note.elim v.recs (Spec.record v.recs)) (hbook : g'.book = g.book) :
    Ran n g v m g' v ⟨m.clientId, m.msg, t, t.note.bind (Spec.rejection m.noteTimestamp), rejects, [], []⟩ := by
  have hstep : Handled.step ⟨m.clientId, m.msg, t, t.note.bind (Spec.rejection m.noteTimestamp), rejects, [], []⟩ n
      v.resting = Spec.ignored v.resting := by
    rw [Handled.step, hreq]
  refine ⟨⟨rfl, rfl⟩, htr, hb, rfl, hrecs, ?_, ?_, ?_, ?_, fun d hd => ?_, fun d hd => ?_⟩
  · rw [hstep]
    rfl
  · rw [hstep]
    rfl
  · rw [hstep]
    exact fun _ => rfl
  · rw [hstep, hbook]
    exact ⟨.slnil, (List.append_nil _).symm, rfl⟩
  · cases hd
  · cases hd

theorem Executed.outcome {c : ℕ} {record : OrderRecord}
    (h : Executed n (g.noted c record) (v.entering g.entry.nextOrderId record) req g' v' ds) {hd : Handled}
    (hran : Ran n g v m g' v' hd) (hrejects : hd.rejects = []) (hnone : hd.noteResponse = none)
    (hds : hd.deliveries = ds) (hc : hd.clientId = record.clientId)
    (hass : hd.assigned = some (g.entry.nextOrderId, record.userRefNum))
    (hnamed : g.replaceLands m →
      ∃ e ∈ (Spec.process n v.resting req).events, e.orderId = g.entry.nextOrderId) : Outcome n g v m g' v' hd where
  toRan := hran
  ring := hds ▸ h.ring
  rejects := by
    rw [hrejects, hnone]
    rfl
  logs := by
    rw [hrejects, hds]
    exact h.logs
  entered id r hr := by
    rw [h.recs] at hr
    by_cases hid : id = g.entry.nextOrderId
    · subst hid
      obtain rfl : record = r := by simpa [GatewayView.entering] using hr
      exact .inr ⟨hc, hass⟩
    · exact .inl (by simpa [GatewayView.entering, Function.update_of_ne hid] using hr)
  next := by
    rw [h.entry]
    exact Nat.le_succ _
  assigned p hp := by
    rw [hass] at hp
    obtain rfl : _ = p := Option.some.inj hp
    rw [h.entry]
    exact ⟨le_refl _, Nat.lt_succ_self _⟩
  settled hv hlands := by
    refine h.settled fun id hid => ?_
    by_cases hid' : id = g.entry.nextOrderId
    · exact .inr (hid' ▸ hnamed hlands)
    · refine .inl (hv id ?_)
      simpa [GatewayView.entering, Function.update_of_ne hid'] using hid

theorem onNote_rejected (g : Gateway) (reason : OuchReject) (record : OrderRecord) (timestamp : UInt64) :
    ∃ r, Spec.rejection timestamp (.rejected reason record) = some r ∧ g.onNote (.rejected reason record) timestamp =
      ({ g with logs := appendLog g.logs (r.clientId, encodeSoupSequenced r.ouch maxSoupPacket) },
        [(r.clientId, encodeSoupSequenced r.ouch maxSoupPacket)]) := by
  refine ⟨_, rfl, ?_⟩
  unfold onNote OuchResponder.onNote
  dsimp only
  rw [(sendOuch_eq g (fitsScratch_of_appendage rfl)).1]

theorem handleOuch_request {a : Arith} {clock : ℕ → UInt64} {entry : OrderEntry} {g₁ g' : Gateway}
    (htr : g.entry.translate m.clientId m.msg = some (entry, t))
    (hnote : takeNote { g with entry := entry } t.note m.noteTimestamp = (g₁, rejects)) (hreq : t.request = some req)
    (hex : g₁.execute a clock (stamp m req, m.enginePopTsc) = some (g', ds)) :
    g.handleOuch a clock m =
      some (g', ⟨m.clientId, m.msg, t, t.note.bind (Spec.rejection m.noteTimestamp), rejects, ds,
        g'.published g₁.book.out.marketData.length⟩) := by
  simp only [handleOuch, htr, Option.bind_eq_bind, Option.bind_some, hnote, hreq, hex, OuchResponder.onNote_snd]

theorem handleOuch_note {a : Arith} {clock : ℕ → UInt64} {entry : OrderEntry}
    (htr : g.entry.translate m.clientId m.msg = some (entry, t))
    (hnote : takeNote { g with entry := entry } t.note m.noteTimestamp = (g', rejects)) (hreq : t.request = none) :
    g.handleOuch a clock m =
      some (g', ⟨m.clientId, m.msg, t, t.note.bind (Spec.rejection m.noteTimestamp), rejects, [], []⟩) := by
  simp only [handleOuch, htr, Option.bind_eq_bind, Option.bind_some, hnote, hreq, OuchResponder.onNote_snd]

theorem handleOuch_ok (h : g.Ok n v) (clock : ℕ → UInt64) (m : Inbound) :
    ∃ g' v' hd, (∀ a, g.handleOuch a clock m = some (g', hd)) ∧ g'.Ok n v' ∧ Outcome n g v m g' v' hd := by
  obtain ⟨entry, t, htr, hb⟩ := OrderEntry.translate_becomes h.entry m.clientId m.msg
  have hok := hb.ok h.entry
  have hbecomes := hb
  generalize hmsg : m.msg = msg at hb
  cases hb with
  | ignored =>
    refine ⟨g, v, _, fun a => handleOuch_note htr rfl rfl, h, ?_⟩
    exact {
      toRan := ran_none n htr hbecomes rfl rfl rfl
      ring := (List.append_nil _).symm
      rejects := rfl
      logs := rfl
      entered := fun id r hr => .inl hr
      next := le_refl _
      assigned := fun p hp => by cases h : m.msg <;> simp [Handled.assigned, h] at hp
      settled := fun hv _ => hv }
  | @rejected msg reason hu =>
    obtain ⟨r, hr, hnote⟩ := onNote_rejected { g with entry := g.entry.consume m.clientId msg.userRefNum } reason
      (OrderEntry.enterRecord m.clientId msg) m.noteTimestamp
    refine ⟨_, v, _, fun a => handleOuch_note htr hnote rfl, ⟨h.linked, hok, h.band, h.recs_iff, h.unborn⟩, ?_⟩
    exact {
      toRan := ran_none n htr hbecomes rfl rfl rfl
      ring := (List.append_nil _).symm
      rejects := by
        rw [Option.bind_some, hr]
        rfl
      logs := rfl
      entered := fun id r hr => .inl hr
      next := le_refl _
      assigned := fun p hp => by simp [Handled.assigned, hmsg] at hp
      settled := fun hv _ => hv }
  | @entered msg check hu hcheck =>
    obtain ⟨-, hq, -⟩ := OrderEntry.checkEnter_ok hcheck
    obtain ⟨g', v', ds, hex, hexec⟩ := h.introduce clock (OrderEntry.enterRecord m.clientId msg) rfl hu hok
      (h.priceOk hbecomes rfl m) (fun _ => hq) rfl rfl m.enginePopTsc
    exact ⟨g', v', _, fun a => handleOuch_request htr rfl rfl (hex a), hexec.ok,
      hexec.outcome (hexec.ran htr hbecomes rfl rfl rfl rfl rfl) rfl rfl rfl rfl (by rw [Handled.assigned, hmsg]; rfl)
        fun _ => Spec.named_of_new n rfl h.next_notMem⟩
  | @canceling msg hne o u ho side quantity =>
    obtain ⟨g', v', ds, hex, hexec⟩ := h.execute clock (h.priceOk hbecomes rfl m) (fun ht => by cases ht)
      (fun id hid => by cases hid) m.enginePopTsc
    refine ⟨g', v', _, fun a => handleOuch_request htr rfl rfl (hex a), hexec.ok, ?_⟩
    exact {
      toRan := hexec.ran htr hbecomes rfl rfl rfl rfl rfl
      ring := hexec.ring
      rejects := rfl
      logs := hexec.logs
      entered := fun id r hr => .inl (hexec.recs ▸ hr)
      next := (congrArg _ hexec.entry).ge
      assigned := fun p hp => by
        rw [Handled.assigned, hmsg] at hp
        cases msg with
        | enterOrder m => exact absurd rfl (hne m)
        | _ => cases hp
      settled := fun hv _ => hexec.settled fun id hid => .inl (hv id hid) }
  | @replacing msg orig check ho hu side hcheck =>
    have hc : orig.record.clientId = m.clientId := (OrderEntry.key_inj (h.entry.keyed _ orig ho)).1
    obtain ⟨g', v', ds, hex, hexec⟩ := h.introduce clock (OrderEntry.replaceRecord orig.record msg) hc hu hok
      (h.priceOk hbecomes rfl m) (fun ht => by cases ht) rfl rfl m.enginePopTsc
    refine ⟨g', v', _, fun a => handleOuch_request htr rfl rfl (hex a), hexec.ok,
      hexec.outcome (hexec.ran htr hbecomes rfl rfl rfl rfl rfl) rfl rfl rfl hc.symm
        (by rw [Handled.assigned, hmsg]; rfl) fun hlands => ?_⟩
    -- the original rests, and is the client's
    simp only [replaceLands, htr, Option.bind_some, OrderEntry.replaceRequest, bne_self_eq_false, Bool.false_or,
      Option.any_eq_true, decide_eq_true_eq] at hlands
    obtain ⟨x, hx, hlt⟩ := hlands
    obtain ⟨hf, -, hid⟩ := h.linked.rep.lookup_eq_some h.linked.wf hx
    obtain ⟨record, hrec, hclient⟩ := h.linked.owned _ (Spec.find?_mem hf).1
    rw [show (g.book.order x).view.id = orig.orderId from hid, h.recs_of_lookup ho] at hrec
    obtain rfl : orig.record = record := Option.some.inj hrec
    exact Spec.named_of_replace n rfl h.next_notMem hf (hclient.symm.trans hc) hlt

/-! ## Runs -/

/-- Messages handled one after the other. -/
inductive Trail (n : ℕ) : Gateway → GatewayView → List Inbound → Gateway → GatewayView → List Handled → Prop
  | nil {g : Gateway} {v : GatewayView} (h : g.Ok n v) : Trail n g v [] g v []
  | cons {g g₁ g' : Gateway} {v v₁ v' : GatewayView} {m : Inbound} {ms : List Inbound} {hd : Handled}
      {handled : List Handled} (h : g.Ok n v) (ho : Outcome n g v m g₁ v₁ hd)
      (ht : Trail n g₁ v₁ ms g' v' handled) : Trail n g v (m :: ms) g' v' (hd :: handled)

/-- Whatever the messages are, they are handled. -/
theorem Ok.trail (h : g.Ok n v) (clock : ℕ → UInt64) (ms : List Inbound) :
    ∃ g' v' handled, (∀ a, run a clock g ms = some (g', handled)) ∧ Trail n g v ms g' v' handled := by
  induction ms generalizing g v with
  | nil => exact ⟨g, v, [], fun _ => rfl, .nil h⟩
  | cons m ms ih =>
    obtain ⟨g₁, v₁, hd, hstep, hok, ho⟩ := handleOuch_ok h clock m
    obtain ⟨g', v', handled, hrun, ht⟩ := ih hok
    refine ⟨g', v', hd :: handled, fun a => ?_, .cons h ho ht⟩
    simp only [run, hstep a, hrun a, Option.bind_eq_bind, Option.bind_some]

theorem Trail.ok {ms : List Inbound} {handled : List Handled} (h : Trail n g v ms g' v' handled) :
    g.Ok n v ∧ g'.Ok n v' := by
  induction h with
  | nil h => exact ⟨h, h⟩
  | cons h _ _ ih => exact ⟨h, ih.2⟩

/-- A run up to one of its messages, the message, and the rest of the run. -/
theorem Trail.split {ms : List Inbound} {pre post : List Handled} {hd : Handled}
    (h : Trail n g v ms g' v' (pre ++ hd :: post)) :
    ∃ ms₁ g₁ v₁ m g₂ v₂ ms₂, ms = ms₁ ++ m :: ms₂ ∧ Trail n g v ms₁ g₁ v₁ pre ∧ Outcome n g₁ v₁ m g₂ v₂ hd ∧
      Trail n g₂ v₂ ms₂ g' v' post := by
  induction pre generalizing g v ms with
  | nil =>
    cases h with
    | cons h ho ht => exact ⟨[], g, v, _, _, _, _, rfl, .nil h, ho, ht⟩
  | cons hd' pre ih =>
    cases h with
    | cons h ho ht =>
      obtain ⟨ms₁, g₁, v₁, m, g₂, v₂, ms₂, rfl, hpre, hrest⟩ := ih ht
      exact ⟨_ :: ms₁, g₁, v₁, m, g₂, v₂, ms₂, rfl, .cons h ho hpre, hrest⟩

/-- A client entered an order under a UserRefNum, with one of the messages. -/
def Entered (handled : List Handled) (c id : ℕ) (u : UInt32) : Prop :=
  ∃ h ∈ handled, h.clientId = c ∧ h.assigned = some (id, u)

/-- The packets that were sent, each with the client it is for. -/
def packets (handled : List Handled) : List (ℕ × List UInt8) :=
  handled.flatMap fun h => h.rejects ++ h.deliveries.map (·.sent)

/-- The packets that were sent to a client. -/
def packetsFor (c : ℕ) (handled : List Handled) : List (List UInt8) :=
  ((packets handled).filter (·.1 = c)).map (·.2)

/-- What is known after the messages `past` have been handled. -/
structure After (n : ℕ) (v : GatewayView) (g : Gateway) (logs₀ : ℕ → SessionLog) (past : List Handled) : Prop where
  ok : g.Ok n v
  ring : past.flatMap (fun h => h.deliveries.map (·.event)) = g.book.out.outRing.map (·.toEvent)
  logs : g.logs = (packets past).foldl appendLog logs₀
  entered : ∀ c id u, Recorded v.recs c id u → Entered past c id u
  ids : ((past.filterMap (·.assigned)).map Prod.fst).Nodup
  ids_lt : ∀ h ∈ past, ∀ p ∈ h.assigned, p.1 < g.entry.nextOrderId
  rejects : ∀ h ∈ past, h.rejects = h.noteResponse.toList.map fun r =>
    (r.clientId, encodeSoupSequenced r.ouch maxSoupPacket)
  delivered : ∀ pre h post, past = pre ++ h :: post → ∀ d ∈ h.deliveries, ∃ r, d.response = some r ∧
    r.clientId = d.event.clientId ∧ Names (Entered (pre ++ [h])) d.event r.ouch ∧
    d.packet = encodeSoupSequenced r.ouch maxSoupPacket ∧ d.packet ≠ []

theorem Entered.mono {h : Handled} {c id : ℕ} {u : UInt32} (he : Entered past c id u) :
    Entered (past ++ [h]) c id u := by
  obtain ⟨h', hm, hc⟩ := he
  exact ⟨h', List.mem_append_left _ hm, hc⟩

theorem After.step {logs₀ : ℕ → SessionLog} {hd : Handled} (h : After n v g logs₀ past) (ho : Outcome n g v m g' v' hd)
    (hok : g'.Ok n v') :
    After n v' g' logs₀ (past ++ [hd]) := by
  have hentered : ∀ c id u, Recorded v'.recs c id u → Entered (past ++ [hd]) c id u := by
    rintro c id u ⟨record, hrec, rfl, rfl⟩
    rcases ho.entered id record hrec with hold | ⟨hc, hass⟩
    · exact (h.entered _ _ _ ⟨record, hold, rfl, rfl⟩).mono
    · exact ⟨hd, List.mem_append_right _ (List.mem_singleton_self _), hc, hass⟩
  refine ⟨hok, ?_, ?_, hentered, ?_, ?_, ?_, ?_⟩
  · rw [List.flatMap_append, h.ring, ho.ring]
    simp
  · rw [packets, List.flatMap_append, List.foldl_append]
    simpa only [List.flatMap_singleton, ← packets.eq_def, ← h.logs] using ho.logs
  · -- ids are handed out in order
    rw [List.filterMap_append, List.map_append, List.nodup_append]
    refine ⟨h.ids, by cases hass : hd.assigned <;> simp [hass], fun id hid id' hid' e => ?_⟩
    obtain ⟨p, hp, rfl⟩ := List.mem_map.mp hid
    obtain ⟨h', hm, hass⟩ := List.mem_filterMap.mp hp
    obtain ⟨p', hp', rfl⟩ := List.mem_map.mp hid'
    obtain ⟨h'', hm', hass'⟩ := List.mem_filterMap.mp hp'
    rw [List.mem_singleton.mp hm'] at hass'
    have hlt := h.ids_lt h' hm p hass
    have hge := (ho.assigned p' hass').1
    omega
  · intro h' hm p hp
    rcases List.mem_append.mp hm with hm | hm
    · exact Nat.lt_of_lt_of_le (h.ids_lt h' hm p hp) ho.next
    · rw [List.mem_singleton.mp hm] at hp
      exact (ho.assigned p hp).2
  · exact List.forall_mem_append.mpr ⟨h.rejects, List.forall_mem_singleton.mpr ho.rejects⟩
  · refine List.forall_split_concat h.delivered fun d hd' => ?_
    obtain ⟨r, hr, hans, hpacket, hne, -⟩ := ho.delivered d hd'
    exact ⟨r, hr, hans.1, hans.2.imp hentered, hpacket, hne⟩

theorem After.trail {logs₀ : ℕ → SessionLog} {ms : List Inbound} {handled : List Handled} (h : After n v g logs₀ past)
    (ht : Trail n g v ms g' v' handled) :
    After n v' g' logs₀ (past ++ handled) := by
  induction ht generalizing past with
  | nil => rwa [List.append_nil]
  | cons _ ho ht ih =>
    rw [List.append_cons]
    exact ih (h.step ho ht.ok.1)

theorem After.new (capacity soupReplayBytes : ℕ) (env : Env) :
    After capacity ⟨fun _ => none, fun _ => .unborn, {}, fun _ _ => []⟩ (Gateway.new capacity soupReplayBytes env)
      (fun _ => SessionLog.new soupReplayBytes) [] where
  ok := .new capacity soupReplayBytes env
  ring := rfl
  logs := rfl
  entered := by rintro c id u ⟨record, hrec, -⟩; cases hrec
  ids := List.nodup_nil
  ids_lt h hm := by cases hm
  rejects h hm := by cases hm
  delivered pre h post he := by simp at he

/-- A packet is appended to the log of its client alone. -/
theorem foldl_appendLog (sent : List (ℕ × List UInt8)) (logs : ℕ → SessionLog) (c : ℕ) :
    sent.foldl appendLog logs c = ((sent.filter (·.1 = c)).map (·.2)).foldl SessionLog.append (logs c) := by
  induction sent generalizing logs with
  | nil => rfl
  | cons p sent ih =>
    rw [List.foldl_cons, ih, appendLog]
    by_cases hp : p.1 = c
    · subst hp
      rw [Function.update_self, List.filter_cons_of_pos (by simp), List.map_cons, List.foldl_cons]
    · rw [Function.update_of_ne (Ne.symm hp), List.filter_cons_of_neg (by simpa using hp)]

/-- Every packet that was sent fits `scratch_`. -/
theorem After.packet_le {logs₀ : ℕ → SessionLog} (h : After n v g logs₀ past) :
    ∀ p ∈ packets past, p.2.length ≤ maxSoupPacket := by
  intro p hp
  obtain ⟨hd, hmem, hp⟩ := List.mem_flatMap.mp hp
  rcases List.mem_append.mp hp with hp | hp
  · rw [h.rejects hd hmem] at hp
    obtain ⟨r, -, rfl⟩ := List.mem_map.mp hp
    exact length_encodeSoupSequenced_le r.ouch maxSoupPacket
  · obtain ⟨d, hdel, rfl⟩ := List.mem_map.mp hp
    obtain ⟨pre, post, hsplit⟩ := List.append_of_mem hmem
    obtain ⟨r, -, -, -, hpacket, -⟩ := h.delivered pre hd post hsplit d hdel
    rw [Delivery.sent, hpacket]
    exact length_encodeSoupSequenced_le r.ouch maxSoupPacket

/-- The log of a client has the packets that were sent to it, the last ones of them in full. -/
theorem After.log_ok {k : ℕ} (h : After n v g (fun _ => SessionLog.new (2 ^ (k + 9))) past) (c : ℕ) :
    (g.logs c).Ok (packetsFor c past) := by
  have hsmall : ∀ p ∈ packetsFor c past, p.length < 2 ^ (k + 9) := by
    intro p hp
    obtain ⟨q, hq, rfl⟩ := List.mem_map.mp hp
    have hle := h.packet_le q (List.mem_of_mem_filter hq)
    have hpow : 2 ^ 9 ≤ 2 ^ (k + 9) := Nat.pow_le_pow_right (by decide) (Nat.le_add_left _ _)
    simp only [maxSoupPacket] at hle
    omega
  have hok := (SessionLog.foldl_append_ok (packetsFor c past) (SessionLog.Ok.new (k := k + 4) rfl)
    (SessionLog.Longest.new _) hsmall).1
  rw [h.logs, foldl_appendLog]
  exact hok

/-- Every REPLACE request of a run finds its order as `replaceLands` asks. -/
def allReplacesLand (a : Arith) (clock : ℕ → UInt64) : Gateway → List Inbound → Bool
  | _, [] => true
  | g, m :: ms => g.replaceLands m &&
    match g.handleOuch a clock m with
    | none => true
    | some (g, _) => allReplacesLand a clock g ms

theorem allReplacesLand_append {a : Arith} {clock : ℕ → UInt64} {ms ms' : List Inbound}
    (h : allReplacesLand a clock g (ms ++ ms')) : allReplacesLand a clock g ms := by
  induction ms generalizing g with
  | nil => rfl
  | cons m ms ih =>
    simp only [List.cons_append, allReplacesLand, Bool.and_eq_true] at h ⊢
    refine ⟨h.1, ?_⟩
    cases hs : g.handleOuch a clock m with
    | none => rfl
    | some r => exact ih (by simpa only [hs] using h.2)

theorem run_settled {a : Arith} (clock : ℕ → UInt64) (h : g.Ok n v) (hv : v.Settled) {ms : List Inbound}
    (hland : allReplacesLand a clock g ms) :
    ∃ g' v' handled, run a clock g ms = some (g', handled) ∧ g'.Ok n v' ∧ v'.Settled := by
  induction ms generalizing g v with
  | nil => exact ⟨g, v, [], rfl, h, hv⟩
  | cons m ms ih =>
    obtain ⟨g₁, v₁, hd, hstep, hok, ho⟩ := handleOuch_ok h clock m
    simp only [allReplacesLand, hstep a, Bool.and_eq_true] at hland
    obtain ⟨g', v', handled, hrun, hok', hv'⟩ := ih hok (ho.settled hv hland.1) hland.2
    exact ⟨g', v', hd :: handled, by simp only [run, hstep a, hrun, Option.bind_eq_bind, Option.bind_some], hok', hv'⟩

end Gateway

open Gateway (Entered packetsFor)

/-- No event is lost: whatever messages the clients send, every event of the engine is
answered to its client, by one packet with a message that names the order by the UserRefNum
the client entered it with. A client's log was appended its packets, those of the gateway's
rejects and those of the events, one by one in their order: it numbers them from 1, and holds the
last of them if its room is a power of two, from 512 bytes on. Every resting order has its record,
with the shares it has open. -/
theorem no_event_lost (capacity soupReplayBytes : ℕ) (env : Env) (clock : ℕ → UInt64) (ms : List Inbound) :
    ∃ g handled, (∀ a, Gateway.run a clock (Gateway.new capacity soupReplayBytes env) ms = some (g, handled)) ∧
      handled.flatMap (fun h => h.deliveries.map (·.event)) = g.book.out.outRing.map (·.toEvent) ∧
      (∀ pre h post, handled = pre ++ h :: post → ∀ d ∈ h.deliveries, ∃ r, d.response = some r ∧
        r.clientId = d.event.clientId ∧ Names (Entered (pre ++ [h])) d.event r.ouch ∧
        d.packet = encodeSoupSequenced r.ouch maxSoupPacket ∧ d.packet ≠ []) ∧
      (∀ h ∈ handled, h.rejects = h.noteResponse.toList.map fun r =>
        (r.clientId, encodeSoupSequenced r.ouch maxSoupPacket)) ∧
      ((handled.filterMap (·.assigned)).map Prod.fst).Nodup ∧
      (∀ c, g.logs c = (packetsFor c handled).foldl SessionLog.append (.new soupReplayBytes) ∧
        (g.logs c).nextSeq = (packetsFor c handled).length + 1 ∧
        ∀ k, soupReplayBytes = 2 ^ (k + 9) → (g.logs c).Ok (packetsFor c handled)) ∧
      ∀ id x, g.book.orders.lookup id = some x →
        ∃ live, g.responder.orders.lookup id = some live ∧ live.openShares = (g.book.order x).openQuantity := by
  obtain ⟨g, v, handled, hrun, ht⟩ := (Gateway.Ok.new capacity soupReplayBytes env).trail clock ms
  have h := (Gateway.After.new capacity soupReplayBytes env).trail ht
  have hlog : ∀ c, g.logs c = (packetsFor c handled).foldl SessionLog.append (.new soupReplayBytes) := fun c => by
    rw [h.logs, Gateway.foldl_appendLog]
    rfl
  refine ⟨g, handled, hrun, h.ring, h.delivered, h.rejects, h.ids, fun c => ⟨hlog c, ?_, fun k hk => ?_⟩,
    fun _ _ hx => h.ok.linked.lookup_of_resting hx⟩
  · rw [hlog c, SessionLog.foldl_append_nextSeq]
    exact Nat.add_comm _ _
  · subst hk
    exact h.log_ok c

/-- The responder keeps no dead records, in every state of a run whose Replaces all find
their order resting with fewer shares executed than they ask for. -/
theorem no_dead_records (capacity soupReplayBytes : ℕ) (env : Env) (a : Arith) (clock : ℕ → UInt64)
    (ms : List Inbound)
    (hland : Gateway.allReplacesLand a clock (Gateway.new capacity soupReplayBytes env) ms = true) :
    ∀ past future, ms = past ++ future →
      ∃ g handled, Gateway.run a clock (Gateway.new capacity soupReplayBytes env) past = some (g, handled) ∧
        (∀ id, id ∈ g.responder.orders ↔ id ∈ g.book.orders) ∧ g.responder.liveOrders = g.book.orderCount := by
  rintro past future rfl
  obtain ⟨g, v, handled, hrun, hok, hv⟩ := Gateway.run_settled clock (.new capacity soupReplayBytes env)
    (fun _ h => by cases h) (Gateway.allReplacesLand_append hland)
  have hmem : ∀ id, id ∈ g.responder.orders ↔ id ∈ g.book.orders := fun id =>
    (hok.linked.mem_orders_iff id).trans (or_iff_left fun h => hv id h.2 h.1)
  exact ⟨g, handled, hrun, hmem, AList.size_eq_of_mem_iff hmem⟩

/-- Client 1 buys 100 shares at 1.00 dollar, under UserRefNum 1. -/
def sampleEnter : Inbound where
  clientId := 1
  msg := .enterOrder {
    userRefNum := 1, side := chr 'B', quantity := 100, symbol := bookSymbol, price := 10000, timeInForce := chr '0',
    display := chr 'Y', capacity := chr 'A', intermarketSweepEligibility := chr 'N', crossType := chr 'N',
    clOrdId := alpha 14 [] }

/-- The same client replaces that order by one for 80 shares, under UserRefNum 2. -/
def sampleReplace : Inbound where
  clientId := 1
  msg := .replaceOrder {
    origUserRefNum := 1, userRefNum := 2, quantity := 80, price := 10000, timeInForce := chr '0', display := chr 'Y',
    intermarketSweepEligibility := chr 'N', clOrdId := alpha 14 [] }

/-- The same client cancels the order. -/
def sampleCancel : Inbound where
  clientId := 1
  msg := .cancelOrder { userRefNum := 1, quantity := 0 }

theorem no_dead_records_sample :
    Gateway.allReplacesLand .wrapping (fun _ => 0) (Gateway.new 1 32 sampleEnv) [sampleEnter, sampleReplace] = true ∧
    ∃ g handled, Gateway.run .wrapping (fun _ => 0) (Gateway.new 1 32 sampleEnv) [sampleEnter, sampleReplace] =
        some (g, handled) ∧
      (∀ id, id ∈ g.responder.orders ↔ id ∈ g.book.orders) ∧ g.responder.liveOrders = g.book.orderCount := by
  have hland : Gateway.allReplacesLand .wrapping (fun _ => 0) (Gateway.new 1 32 sampleEnv)
      [sampleEnter, sampleReplace] = true := by decide +kernel
  exact ⟨hland, no_dead_records 1 32 sampleEnv .wrapping (fun _ => 0) _ hland _ [] rfl⟩

/-- A Replace that reaches the engine after the order was canceled is ignored, and the
record its note made stays: the responder has one order, the book none. -/
theorem dead_record_kept :
    (Gateway.run .wrapping (fun _ => 0) (Gateway.new 1 32 sampleEnv) [sampleEnter, sampleCancel, sampleReplace]).map
      (fun r => (r.1.responder.orders.keys, r.1.responder.liveOrders, r.1.book.orders.keys, r.1.book.orderCount)) =
    some ([2], 1, [], 0) := by
  decide +kernel

end Exchange
