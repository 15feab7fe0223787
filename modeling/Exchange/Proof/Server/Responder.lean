import Exchange.Proof.Book.Trace
import Exchange.Spec.Told

/-!
# The responder

The responder follows the life of every order: `OuchResponder.Tracks` says that it has
the record of an order exactly as long as the order has shares left, with as many as
its life leaves. `onEvent_ok` is one event, `onEvents_ok` those of a request: each gets the
answer of a responder that has every record for good (`Spec.answer`), which goes to the
client of its order, under the UserRefNum of its record.
-/

namespace Exchange

open Spec (Life Opens TakesShares answer report original)

/-- What the responder has of an order, given the record it was entered with. -/
def liveRecord (recs : ℕ → Option OrderRecord) (id : ℕ) : Life → Option LiveOrder
  | .unborn => (recs id).map fun record => ⟨record, 0⟩
  | .opened q d => if d < q then (recs id).map fun record => ⟨record, q - d⟩ else none
  | .rejected => none
  | .replaced _ _ => none

/-- The responder has every order as its life has it. -/
def OuchResponder.Tracks (s : OuchResponder) (recs : ℕ → Option OrderRecord) (L : ℕ → Life) : Prop :=
  ∀ id, s.orders.lookup id = liveRecord recs id (L id)

/-- The message reports the event, and names its order, and an order it replaced, by
UserRefNums that are in relation `P` with the client and the order. -/
def Names (P : ℕ → ℕ → UInt32 → Prop) (e : Event) : OuchOutboundFrame → Prop
  | .orderAccepted m => e.type = .accepted ∧ P e.clientId e.orderId m.userRefNum
  | .orderReplaced m => e.type = .replaced ∧ P e.clientId e.orderId m.userRefNum ∧
      P e.clientId e.origOrderId m.origUserRefNum
  | .orderCanceled m => e.type = .canceled ∧ P e.clientId e.orderId m.userRefNum
  | .orderExecuted m => e.type = .executed ∧ P e.clientId e.orderId m.userRefNum
  | .orderRejected m => e.type = .rejected ∧ P e.clientId e.orderId m.userRefNum
  | .none => False

theorem Names.imp {P Q : ℕ → ℕ → UInt32 → Prop} {e : Event} {ouch : OuchOutboundFrame} (h : Names P e ouch)
    (hPQ : ∀ c id u, P c id u → Q c id u) : Names Q e ouch := by
  cases ouch with
  | none => exact h
  | orderReplaced m => exact ⟨h.1, hPQ _ _ _ h.2.1, hPQ _ _ _ h.2.2⟩
  | _ m => exact ⟨h.1, hPQ _ _ _ h.2⟩

/-- The order was entered by client `c` under UserRefNum `u`. -/
def Recorded (recs : ℕ → Option OrderRecord) (c id : ℕ) (u : UInt32) : Prop :=
  ∃ record, recs id = some record ∧ record.clientId = c ∧ record.userRefNum = u

/-- The response is for the event's client, and names the orders by their records. -/
def Answers (recs : ℕ → Option OrderRecord) (e : Event) (r : OuchResponse) : Prop :=
  r.clientId = e.clientId ∧ Names (Recorded recs) e r.ouch

/-- The message fits `scratch_` as a packet. -/
def FitsScratch (ouch : OuchOutboundFrame) : Prop :=
  encodedSize ouch ≠ 0 ∧ soupHeaderLen + encodedSize ouch ≤ maxSoupPacket

/-- A message without optional fields fits if its core does. -/
theorem fits_of_core {M : Type} [OuchMessage M] {m : M} (h : OuchMessage.appendage m = {})
    (hcore : wireSize (OuchDetail.coreBytes m) ≤ 251) : OuchDetail.encodedSize m ≠ 0 ∧
      soupHeaderLen + OuchDetail.encodedSize m ≤ maxSoupPacket := by
  have hnil : OuchDetail.present m = [] := by simp [OuchDetail.present, h]
  simp only [OuchDetail.encodedSize, hnil, List.map_nil, List.sum_nil, soupHeaderLen, maxSoupPacket]
  omega

/-- Whatever the responder sends fits. -/
theorem fitsScratch_of_appendage {ouch : OuchOutboundFrame} (h : match ouch with
      | .none => False
      | .orderAccepted m => m.appendage = {}
      | .orderReplaced m => m.appendage = {}
      | .orderCanceled m => m.appendage = {}
      | .orderExecuted m => m.appendage = {}
      | .orderRejected m => m.appendage = {}) : FitsScratch ouch := by
  cases ouch with
  | none => exact h.elim
  | _ m =>
    refine fits_of_core h ?_
    rw [OuchDetail.wireSize_coreBytes]
    decide

variable {s : OuchResponder} {recs : ℕ → Option OrderRecord} {L L' : ℕ → Life} {e : Event}

/-- An event changes no other order's life. -/
theorem life_eq_of_ne (hstep : ∀ id, Life.step id (L id) e = some (L' id)) {id : ℕ} (h : e.orderId ≠ id)
    (h' : e.type ≠ .replaced ∨ e.origOrderId ≠ id) : L' id = L id :=
  Option.some.inj ((hstep id).symm.trans (Life.step_of_ne h h'))

/-- What taking shares leaves of a record. -/
theorem lookup_reduce (s : OuchResponder) (id : ℕ) (live : LiveOrder) (shares : ℕ) (id' : ℕ) :
    (s.reduce id live shares).orders.lookup id' = if id' = id then
      (if shares < live.openShares then some ⟨live.record, live.openShares - shares⟩ else none)
      else s.orders.lookup id' := by
  unfold OuchResponder.reduce
  dsimp only
  by_cases hlt : shares < live.openShares
  · have hne : live.openShares - shares ≠ 0 := by omega
    rw [if_pos hlt, if_neg hne]
    by_cases e : id' = id
    · subst e
      rw [if_pos rfl, if_pos hlt]
      exact AList.lookup_insert _
    · rw [if_neg e]
      exact AList.lookup_insert_ne e
  · rw [if_neg hlt, if_pos rfl]
    by_cases e : id' = id
    · subst e
      rw [if_pos rfl, if_neg hlt]
      exact AList.lookup_erase _ _
    · rw [if_neg e]
      exact AList.lookup_erase_ne e

/-! ## Answers -/

/-- The records the responder has. -/
def OuchResponder.records (s : OuchResponder) (id : ℕ) : Option OrderRecord :=
  (s.orders.lookup id).map (·.record)

theorem OuchResponder.onNote_snd (s : OuchResponder) (note : GatewayNote) (timestamp : UInt64) :
    (s.onNote note timestamp).2 = Spec.rejection timestamp note := by
  cases note <;> rfl

/-- An event is answered from the records alone. -/
theorem onEvent_snd (s : OuchResponder) (e : Event) (timestamp : UInt64) :
    (s.onEvent e timestamp).2 = answer s.records e timestamp := by
  unfold OuchResponder.onEvent answer original OuchResponder.records
  cases hlook : s.orders.lookup e.orderId with
  | none => rfl
  | some order =>
    cases ht : e.type with
    | replaced =>
      cases horig : s.orders.lookup e.origOrderId <;> simp [report, ht]
    | _ => simp [report, ht]

theorem answer_congr {recs recs' : ℕ → Option OrderRecord} (h : recs e.orderId = recs' e.orderId)
    (h' : e.type = .replaced → recs e.origOrderId = recs' e.origOrderId) (timestamp : UInt64) :
    answer recs e timestamp = answer recs' e timestamp := by
  have horig : original recs e = original recs' e := funext fun r => by
    unfold original
    split
    · next ht => exact h' ht
    · rfl
  rw [answer, answer, h, horig]

/-- The orders of the event have records of its client, and an order it opens has
shares. -/
structure Known (recs : ℕ → Option OrderRecord) (e : Event) : Prop where
  record : ∃ r, recs e.orderId = some r ∧ r.clientId = e.clientId
  orig : e.type = .replaced → ∃ r, recs e.origOrderId = some r ∧ r.clientId = e.clientId
  pos : Opens e → 0 < e.quantity

/-- The event is answered to its client. -/
theorem Known.answer_ok (h : Known recs e) (timestamp : UInt64) :
    ∃ r, answer recs e timestamp = some r ∧ Answers recs e r ∧ FitsScratch r.ouch := by
  obtain ⟨record, hrec, hclient⟩ := h.record
  have hnamed : Recorded recs e.clientId e.orderId record.userRefNum := ⟨record, hrec, hclient, rfl⟩
  obtain ⟨orig, horig, hnamed'⟩ : ∃ orig, original recs e record = some orig ∧
      (e.type = .replaced → Recorded recs e.clientId e.origOrderId orig.userRefNum) := by
    by_cases ht : e.type = .replaced
    · obtain ⟨orig, horig, hoc⟩ := h.orig ht
      exact ⟨orig, (if_pos ht).trans horig, fun _ => ⟨orig, horig, hoc, rfl⟩⟩
    · exact ⟨record, if_neg ht, fun h => absurd h ht⟩
  refine ⟨⟨record.clientId, report record orig e timestamp⟩, ?_, ⟨hclient, ?_⟩, ?_⟩
  · rw [answer, hrec, Option.bind_eq_bind, Option.bind_some, horig]
    rfl
  · unfold report
    cases ht : e.type with
    | replaced => exact ⟨ht, hnamed, hnamed' ht⟩
    | _ => exact ⟨ht, hnamed⟩
  · unfold report
    cases e.type <;> exact fitsScratch_of_appendage rfl

/-- The responder has the records of the orders of an event that follows their lives. -/
theorem OuchResponder.Tracks.records_eq (hT : s.Tracks recs L) (hstep : ∀ id, Life.step id (L id) e = some (L' id)) :
    s.records e.orderId = recs e.orderId ∧ (e.type = .replaced → s.records e.origOrderId = recs e.origOrderId) := by
  have hmap : ∀ (id shares : ℕ), ((recs id).map fun record => (⟨record, shares⟩ : LiveOrder)).map (·.record) = recs id :=
    fun id _ => by cases recs id <;> rfl
  unfold records
  constructor
  · rw [hT e.orderId]
    rcases Life.step_cases (hstep e.orderId) with ⟨-, -, hc⟩ | ⟨h, -⟩ | ⟨h, -⟩
    · rcases hc with ⟨hl, -⟩ | ⟨hl, -⟩ | ⟨q, d, hl, htk, hle, -⟩
      · rw [hl]
        exact hmap ..
      · rw [hl]
        exact hmap ..
      · have := htk.2
        rw [hl, liveRecord, if_pos (by omega)]
        exact hmap ..
    · exact absurd rfl h
    · exact absurd rfl h
  · intro ht
    rw [hT e.origOrderId]
    rcases Life.step_cases (hstep e.origOrderId) with ⟨h, hself, -⟩ | ⟨-, -, -, q, d, hl, hlt, -⟩ | ⟨-, h, -⟩
    · exact absurd ⟨ht, rfl⟩ hself
    · rw [hl, liveRecord, if_pos hlt]
      exact hmap ..
    · exact absurd ⟨ht, rfl⟩ h

/-- An event concerns its order and the one it replaces; the others stay. -/
theorem OuchResponder.Tracks.of_event (hT : s.Tracks recs L) (hstep : ∀ id, Life.step id (L id) e = some (L' id))
    {s' : OuchResponder} (hself : s'.orders.lookup e.orderId = liveRecord recs e.orderId (L' e.orderId))
    (horig : e.type = .replaced → s'.orders.lookup e.origOrderId = liveRecord recs e.origOrderId (L' e.origOrderId))
    (hother : ∀ id, id ≠ e.orderId → (e.type = .replaced → id ≠ e.origOrderId) →
      s'.orders.lookup id = s.orders.lookup id) : s'.Tracks recs L' := fun id => by
  by_cases hid : id = e.orderId
  · rw [hid]
    exact hself
  · by_cases hid' : e.type = .replaced ∧ id = e.origOrderId
    · rw [hid'.2]
      exact horig hid'.1
    · have hne : e.type ≠ .replaced ∨ e.origOrderId ≠ id :=
        (not_and_or.mp hid').imp_right fun h e' => h e'.symm
      rw [hother id hid fun ht e' => hid' ⟨ht, e'⟩, life_eq_of_ne hstep (Ne.symm hid) hne]
      exact hT id

/-- The responder keeps track of the lives. -/
theorem OuchResponder.Tracks.onEvent (hT : s.Tracks recs L) (hstep : ∀ id, Life.step id (L id) e = some (L' id))
    (hk : Known recs e) (timestamp : UInt64) : (s.onEvent e timestamp).1.Tracks recs L' := by
  obtain ⟨record, hrec, -⟩ := hk.record
  have hlook := hT e.orderId
  unfold OuchResponder.onEvent
  rcases Life.step_cases (hstep e.orderId) with ⟨-, hself, hc⟩ | ⟨h, -⟩ | ⟨h, -⟩
  · rcases hc with ⟨hl, hop, hl'⟩ | ⟨hl, hrej, hl'⟩ | ⟨q, d, hl, htk, hle, hl'⟩
    · -- the order is opened
      have hq := hk.pos hop
      simp only [hl, liveRecord, hrec, Option.map_some] at hlook
      have hnew : liveRecord recs e.orderId (L' e.orderId) = some ⟨record, e.quantity⟩ := by
        simp only [hl', liveRecord, if_pos hq, hrec, Option.map_some, Nat.sub_zero]
      rcases hop with ht | ht
      · simp only [hlook, ht]
        refine hT.of_event hstep ?_ (fun h => absurd (ht.symm.trans h) (by decide)) fun id hid _ => ?_
        · rw [hnew]
          exact AList.lookup_insert _
        · exact AList.lookup_insert_ne hid
      · -- the order it replaces was open
        obtain ⟨orig, horig, -⟩ := hk.orig ht
        have hne : e.origOrderId ≠ e.orderId := fun h => hself ⟨ht, h⟩
        have hlook' := hT e.origOrderId
        rcases Life.step_cases (hstep e.origOrderId) with ⟨h, -⟩ | ⟨-, -, -, q, d, hlo, hlt, hlo'⟩ | ⟨-, h, -⟩
        · exact absurd h.symm hne
        · simp only [hlo, liveRecord, if_pos hlt, horig, Option.map_some] at hlook'
          simp only [hlook, ht, hlook']
          refine hT.of_event hstep ?_ (fun _ => ?_) fun id hid hid' => ?_
          · rw [hnew]
            exact AList.lookup_insert _
          · rw [hlo']
            exact (AList.lookup_insert_ne hne).trans (AList.lookup_erase _ _)
          · exact (AList.lookup_insert_ne hid).trans (AList.lookup_erase_ne (hid' ht))
        · exact absurd ⟨ht, rfl⟩ h
    · -- the order is rejected
      simp only [hl, liveRecord, hrec, Option.map_some] at hlook
      simp only [hlook, hrej]
      refine hT.of_event hstep ?_ (fun h => absurd (hrej.symm.trans h) (by decide)) fun id hid _ => ?_
      · rw [hl']
        exact AList.lookup_erase _ _
      · exact AList.lookup_erase_ne hid
    · -- shares of the order are taken
      have hpos' := htk.2
      have hlt : d < q := by omega
      simp only [hl, liveRecord, if_pos hlt, hrec, Option.map_some] at hlook
      have ht : e.type ≠ .replaced := by
        rcases htk.1 with h | h <;> rw [h] <;> decide
      have htracks : (s.reduce e.orderId ⟨record, q - d⟩ e.quantity).Tracks recs L' := by
        refine hT.of_event hstep ?_ (fun h => absurd h ht) fun id hid _ => ?_
        · simp only [lookup_reduce, if_pos, hl', liveRecord, hrec, Option.map_some]
          by_cases hrest : e.quantity < q - d
          · rw [if_pos hrest, if_pos (by omega), Nat.sub_sub]
          · rw [if_neg hrest, if_neg (by omega)]
        · rw [lookup_reduce, if_neg hid]
      rcases htk.1 with ht | ht <;> simpa only [hlook, ht] using htracks
  · exact absurd rfl h
  · exact absurd rfl h

/-- The record of an order that no event has named yet. -/
theorem OuchResponder.Tracks.insert (hT : s.Tracks recs L) {id : ℕ} (hL : L id = .unborn) (record : OrderRecord) :
    (⟨s.orders.insert id ⟨record, 0⟩⟩ : OuchResponder).Tracks (Function.update recs id (some record)) L := fun id' => by
  by_cases hid : id' = id
  · subst hid
    simp only [hL, liveRecord, Function.update_self, Option.map_some]
    exact AList.lookup_insert _
  · refine (AList.lookup_insert_ne hid).trans ((hT id').trans ?_)
    cases L id' <;> simp [liveRecord, Function.update_of_ne hid]

theorem OuchResponder.Tracks.onNote (hT : s.Tracks recs L) {note : GatewayNote}
    (hL : ∀ id, Spec.noteId note = some id → L id = .unborn) (timestamp : UInt64) :
    (s.onNote note timestamp).1.Tracks (Spec.record recs note) L := by
  cases note with
  | orderEntered id record => exact hT.insert (hL id rfl) record
  | orderReplacing id record => exact hT.insert (hL id rfl) record
  | rejected _ _ => exact hT

/-- One event: it is answered, and the responder keeps track. -/
theorem onEvent_ok (hT : s.Tracks recs L) (hstep : ∀ id, Life.step id (L id) e = some (L' id)) (hk : Known recs e)
    (timestamp : UInt64) : ∃ s', s.onEvent e timestamp = (s', answer recs e timestamp) ∧ s'.Tracks recs L' := by
  obtain ⟨h, h'⟩ := hT.records_eq hstep
  exact ⟨_, Prod.ext rfl ((onEvent_snd s e timestamp).trans (answer_congr h h' timestamp)), hT.onEvent hstep hk timestamp⟩

/-! ## The outbound loop -/

/-- The event was answered to its client, with one packet. -/
def Delivered (recs : ℕ → Option OrderRecord) (d : Delivery) : Prop :=
  ∃ r, d.response = some r ∧ Answers recs d.event r ∧
    d.packet = encodeSoupSequenced r.ouch maxSoupPacket ∧ d.packet ≠ [] ∧
    ∃ timestamp, answer recs d.event timestamp = some r

/-- The client and the packet of a delivery. -/
def Delivery.sent (d : Delivery) : ℕ × List UInt8 := (d.event.clientId, d.packet)

theorem sendOuch_eq (g : Gateway) {r : OuchResponse} (h : FitsScratch r.ouch) :
    g.sendOuch r = ({ g with logs := Gateway.appendLog g.logs (r.clientId, encodeSoupSequenced r.ouch maxSoupPacket) },
      encodeSoupSequenced r.ouch maxSoupPacket) ∧ encodeSoupSequenced r.ouch maxSoupPacket ≠ [] := by
  have hmax : encodedSize r.ouch + 1 ≤ 65535 := by
    have := h.2
    simp only [soupHeaderLen, maxSoupPacket] at this
    omega
  have hne : encodeSoupSequenced r.ouch maxSoupPacket ≠ [] := by
    rw [encodeSoupSequenced_eq h.1 h.2 hmax]
    simp [bigEndian]
  refine ⟨?_, hne⟩
  unfold Gateway.sendOuch
  dsimp only
  rw [if_neg fun h => hne (List.length_eq_zero_iff.mp h)]

theorem gateway_onEvent_ok (clock : ℕ → UInt64) (g : Gateway) {event : EngineEvent} (hT : g.responder.Tracks recs L)
    (hstep : ∀ id, Life.step id (L id) event.toEvent = some (L' id)) (hk : Known recs event.toEvent) :
    ∃ responder d, g.onEvent clock event = ({ g with
        responder := responder
        logs := Gateway.appendLog g.logs d.sent }, d) ∧
      d.event = event.toEvent ∧ responder.Tracks recs L' ∧ Delivered recs d := by
  obtain ⟨s', hon, hT'⟩ := onEvent_ok hT hstep hk (clock event.enginePushTsc)
  obtain ⟨r, hr, hans, hfits⟩ := hk.answer_ok (clock event.enginePushTsc)
  obtain ⟨hsend, hne⟩ := sendOuch_eq { g with responder := s' } hfits
  refine ⟨s', ⟨event.toEvent, some r, encodeSoupSequenced r.ouch maxSoupPacket⟩, ?_, rfl, hT', r, rfl, hans, rfl, hne,
    _, hr⟩
  unfold Gateway.onEvent
  simp only [hon, hr, hsend]
  rw [hans.1]
  rfl

/-- The events of a request: each is answered to its client with one packet, and the
responder ends with the lives of the orders after them. -/
theorem onEvents_ok (clock : ℕ → UInt64) (g : Gateway) {events : List EngineEvent} (hT : g.responder.Tracks recs L)
    (hf : ∀ id, Life.follow id (L id) (events.map (·.toEvent)) = some (L' id))
    (hk : ∀ e ∈ events, Known recs e.toEvent) :
    ∃ responder ds, g.onEvents clock events = ({ g with
        responder := responder
        logs := (ds.map (·.sent)).foldl Gateway.appendLog g.logs }, ds) ∧
      ds.map (·.event) = events.map (·.toEvent) ∧ responder.Tracks recs L' ∧ ∀ d ∈ ds, Delivered recs d := by
  induction events generalizing g L with
  | nil =>
    have hL : L = L' := funext fun id => Option.some.inj (hf id)
    exact ⟨g.responder, [], rfl, rfl, hL ▸ hT, fun d hd => by cases hd⟩
  | cons e es ih =>
    have hsteps : ∀ id, ∃ l, Life.step id (L id) e.toEvent = some l ∧
        Life.follow id l (es.map (·.toEvent)) = some (L' id) := fun id => by
      have h := hf id
      rw [List.map_cons, Life.follow_cons] at h
      exact Option.bind_eq_some_iff.mp h
    choose L₁ hstep hf₁ using hsteps
    obtain ⟨s₁, d, hon, hd, hT₁, hdel⟩ := gateway_onEvent_ok clock g hT hstep (hk e List.mem_cons_self)
    obtain ⟨s₂, ds, hons, hds, hT₂, hdels⟩ := ih
      { g with responder := s₁, logs := Gateway.appendLog g.logs d.sent } hT₁ hf₁
      fun e' he' => hk e' (List.mem_cons_of_mem _ he')
    refine ⟨s₂, d :: ds, ?_, by rw [List.map_cons, hd, hds, List.map_cons], hT₂, fun d' hd' => ?_⟩
    · simp only [Gateway.onEvents, hon, hons, List.map_cons, List.foldl_cons]
    · rcases List.mem_cons.mp hd' with rfl | hd'
      · exact hdel
      · exact hdels d' hd'

end Exchange
