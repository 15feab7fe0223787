import Exchange.Proof.Client.Pipeline
import Mathlib.Algebra.BigOperators.Ring.Finset

/-!
# The books of a client

A client counts what it sends and what it is told, and keeps a ring of orders to aim its Cancels
and Replaces at. A message of the exchange changes these only as it should (`Books`), every other
act leaves them, so over all its connections a client has them right (`Reached.kept`).

* `stats_exact`: the statistics of the load generator are what the clients did;
* `targets_were_reported`: a Cancel or a Replace is for an order the client was told of. The ring
  is read at its own pace and not emptied when a connection ends, so the order may be one of an
  earlier connection, and a slot that was never written has UserRefNum 0.
-/

namespace Exchange

open Spec (eventsLogged messagesQueued Reply replyIn replies reportedRef reportedRefs targetRef unanswered ReplaysFirst)

/-! ## Packets -/

namespace ClientState

variable {cs cs' : ClientState} {packet : SoupPacket}

/-- The counter of a kind of response. -/
def responses (cs : ClientState) : Reply → ℕ
  | .accepted => cs.responsesAck
  | .rejected => cs.responsesErr
  | .executed => cs.responsesMatch
  | .canceled => cs.responsesCanceled
  | .replaced => cs.responsesReplaced

/-- What a message of the exchange changes: the counter of its kind, and perhaps one slot of the
ring, which gets the order it is about. -/
structure Books (reply : OuchOutboundFrame) (cs cs' : ClientState) : Prop where
  responses : ∀ r, cs'.responses r = cs.responses r + if Reply.of reply = some r then 1 else 0
  active : ∀ i, cs'.activeOrders i = cs.activeOrders i ∨ reportedRef reply = some (cs'.activeOrders i).userRefNum

theorem Books.of_eq (hr : ∀ r, cs'.responses r = cs.responses r) (ha : cs'.activeOrders = cs.activeOrders) :
    Books .none cs cs' :=
  ⟨hr, fun i => .inl (congrFun ha i)⟩

theorem answerEnter_responses (cs : ClientState) (r : Reply) : cs.answerEnter.responses r = cs.responses r := by
  unfold answerEnter
  split <;> cases r <;> rfl

theorem answerEnter_activeOrders (cs : ClientState) : cs.answerEnter.activeOrders = cs.activeOrders := by
  unfold answerEnter
  split <;> rfl

theorem rememberSide_responses (cs : ClientState) (userRefNum : UInt32) (side : UInt8) (r : Reply) :
    (cs.rememberSide userRefNum side).responses r = cs.responses r := by
  unfold rememberSide
  cases Validation.toEngineSide side with
  | none => rfl
  | some side => cases r <;> rfl

theorem rememberSide_activeOrders (cs : ClientState) (userRefNum : UInt32) (side : UInt8) (i : ℕ) :
    (cs.rememberSide userRefNum side).activeOrders i = cs.activeOrders i ∨
      some userRefNum = some ((cs.rememberSide userRefNum side).activeOrders i).userRefNum := by
  unfold rememberSide
  cases Validation.toEngineSide side with
  | none => exact .inl rfl
  | some side =>
    show Function.update cs.activeOrders (cs.activeWrite % maxActiveOrders) ⟨userRefNum, side⟩ i = _ ∨
      some userRefNum = some (Function.update cs.activeOrders (cs.activeWrite % maxActiveOrders) ⟨userRefNum, side⟩ i).1
    by_cases hi : i = cs.activeWrite % maxActiveOrders
    · rw [hi, Function.update_self]
      exact .inr rfl
    · exact .inl (Function.update_of_ne hi ..)

theorem handleOuch_books (cs : ClientState) (msg : OuchOutboundFrame) : Books msg cs (cs.handleOuch msg).2 := by
  cases msg with
  | orderAccepted a =>
    refine ⟨fun r => ?_, fun i => ?_⟩
    · refine (rememberSide_responses _ a.userRefNum a.side r).trans ?_
      rw [← answerEnter_responses cs r]
      cases r <;> rfl
    · refine (rememberSide_activeOrders _ a.userRefNum a.side i).imp_left fun h => h.trans ?_
      exact congrFun (answerEnter_activeOrders cs) i
  | orderRejected r =>
    refine ⟨fun r => ?_, fun i => .inl (congrFun (answerEnter_activeOrders cs) i)⟩
    rw [← answerEnter_responses cs r]
    cases r <;> rfl
  | orderExecuted e => exact ⟨fun r => by cases r <;> rfl, fun i => .inl rfl⟩
  | orderCanceled e => exact ⟨fun r => by cases r <;> rfl, fun i => .inl rfl⟩
  | orderReplaced m =>
    refine ⟨fun r => ?_, fun i => rememberSide_activeOrders _ m.userRefNum m.side i⟩
    refine (rememberSide_responses _ m.userRefNum m.side r).trans ?_
    cases r <;> rfl
  | none => exact .of_eq (fun _ => rfl) rfl

theorem handleSequenced_books (cs : ClientState) (payload : List UInt8) :
    Books (decodeOutboundOuch payload) cs (cs.handleSequenced payload).2 := by
  unfold handleSequenced
  dsimp only
  split
  · next h =>
    rw [h]
    exact .of_eq (fun r => by cases r <;> rfl) rfl
  · have h := handleOuch_books
      { cs with nextSequence := (cs.nextSequence + 1) % 2 ^ 64, handled := cs.handled ++ [payload] }
      (decodeOutboundOuch payload)
    refine ⟨fun r => (h.responses r).trans ?_, h.active⟩
    cases r <;> rfl

/-- A packet that is taken, or not: only Sequenced Data has a message for the books. -/
theorem handleSoupPacket_books (cs : ClientState) (packet : SoupPacket) :
    Books (if (cs.handleSoupPacket packet).1 then replyIn (.handed packet 0) else .none) cs
      (cs.handleSoupPacket packet).2 := by
  have hother : SoupPacketType.ofByte packet.type ≠ some .sequencedData → replyIn (.handed packet 0) = .none :=
    fun h => if_neg (mt SoupPacketType.ofByte_eq_some.mpr h)
  unfold handleSoupPacket
  split
  · next h =>
    rw [hother (by rw [h]; decide), ite_self]
    split
    · exact .of_eq (fun _ => rfl) rfl
    · exact .of_eq (fun r => by cases r <;> rfl) rfl
  · exact .of_eq (fun _ => rfl) rfl
  · next h =>
    have hreply : replyIn (.handed packet 0) = decodeOutboundOuch packet.payload :=
      if_pos (SoupPacketType.ofByte_eq_some.mp h)
    rw [hreply]
    split
    · have hb := handleSequenced_books cs packet.payload
      split
      · exact hb
      · next hno =>
        have hnone : decodeOutboundOuch packet.payload = .none := by
          by_contra hd
          exact hno (handleSequenced_fst hd)
        rwa [hnone] at hb
    · exact .of_eq (fun _ => rfl) rfl
  · next h =>
    rw [hother (by rw [h]; decide), ite_self]
    exact .of_eq (fun _ => rfl) rfl
  · next h =>
    rw [hother (by rw [h]; decide), ite_self]
    exact .of_eq (fun _ => rfl) rfl
  · exact .of_eq (fun _ => rfl) rfl

theorem reconnect_books (cs : ClientState) (now : ℕ) : Books .none cs (cs.reconnect now) := by
  unfold reconnect
  split
  · exact .of_eq (fun _ => rfl) rfl
  · exact .of_eq (fun r => by cases r <;> rfl) rfl

end ClientState

/-! ## Acts -/

namespace LoadClient

open ClientState (Books)
open OrderFactory (FrameKind Target buildMessage)

variable {c c' : LoadClient} {t t' : ℕ}

/-- What a client has counted and remembered is what has happened. -/
structure Kept (c : LoadClient) : Prop where
  sent : c.requestsSent = (messagesQueued c.events).length
  responses : ∀ r, c.responses r = (replies c.events).count r
  active : ∀ i, (c.activeOrders i).userRefNum = 0 ∨ (c.activeOrders i).userRefNum ∈ reportedRefs c.events

theorem Kept.event {e : ClientEvent} (h : c.Kept) (he : c'.events = c.events ++ [e])
    (hsent : c'.requestsSent = c.requestsSent + (messagesQueued [e]).length)
    (hb : Books (replyIn e) c.toClientState c'.toClientState) : c'.Kept where
  sent := by
    rw [hsent, h.sent, he, messagesQueued, messagesQueued, messagesQueued, List.filterMap_append, List.length_append]
  responses r := by
    rw [hb.responses, h.responses, he, replies, replies, List.filterMap_append, List.count_append]
    congr 1
    cases hr : Reply.of (replyIn e) with
    | none => simp [hr]
    | some r' => simp [hr, List.count_singleton]
  active i := by
    rw [he, reportedRefs, List.filterMap_append, List.mem_append]
    rcases hb.active i with e' | hr
    · rw [e']
      exact (h.active i).imp_right .inl
    · exact .inr (.inr (List.mem_filterMap.mpr ⟨e, List.mem_singleton.mpr rfl, hr⟩))

/-- A packet without a message is queued, or has no room. -/
theorem Kept.queue {x : LoadClient} {item : Queued} {packet : List UInt8} (h : c.Kept) (he : x.events = c.events)
    (hitem : ∀ packet, messagesQueued [.queued item packet] = []) (hsent : x.requestsSent = c.requestsSent)
    (hb : Books .none c.toClientState x.toClientState) : (x.queue item packet).Kept := by
  rcases queue_events he item packet with he' | he'
  · refine h.event he' ?_ hb
    rw [hitem]
    exact hsent
  · exact h.event he' hsent hb

theorem count_books (c : LoadClient) (kind : FrameKind) :
    (c.count kind).requestsSent = c.requestsSent + 1 ∧ Books .none c.toClientState (c.count kind).toClientState := by
  cases kind <;> exact ⟨rfl, .of_eq (fun r => by cases r <;> rfl) rfl⟩

theorem Kept.act (h : c.Kept) (ha : Act (c, t) (c', t')) : c'.Kept := by
  have hrefl : Books .none c.toClientState c.toClientState := .of_eq (fun _ => rfl) rfl
  cases ha with
  | wait => exact h
  | slot => exact ⟨h.sent, h.responses, h.active⟩
  | reset => exact ⟨h.sent, h.responses, h.active⟩
  | noSocket => exact h.event (record_events _ _) rfl hrefl
  | noConnection => exact h.event (record_events _ _) rfl (.of_eq (fun r => by cases r <;> rfl) rfl)
  | connect => exact h.event (record_events _ _) rfl (.of_eq (fun r => by cases r <;> rfl) rfl)
  | close => exact h.event (record_events _ _) rfl (ClientState.reconnect_books _ _)
  | logIn => exact h.queue rfl (fun _ => rfl) rfl (.of_eq (fun r => by cases r <;> rfl) rfl)
  | written => exact h.event (record_events _ _) rfl hrefl
  | blocked => exact h.event (record_events _ _) rfl hrefl
  | clear => exact h.event (record_events _ _) rfl hrefl
  | @enqueue _ _ draw kind msg _ _ _ _ _ hroom =>
    obtain ⟨hsent, hb⟩ := count_books c kind
    have hroom' : (c.count kind).writeBuf.hasRoom (encodeSoupUnsequenced msg 128).length = true :=
      (congrArg (WriteBuffer.hasRoom · _) (count_writeBuf c kind)).trans hroom
    have hlog : (c.count kind).events = c.events := congrArg eventsLogged (count_log c kind)
    rw [enqueue, queue_of_hasRoom hroom']
    refine h.event (e := .queued (.message msg) (encodeSoupUnsequenced msg 128)) ?_ hsent hb
    exact (record_events _ _).trans (congrArg (· ++ _) hlog)
  | heartbeat => exact h.queue rfl (fun _ => rfl) rfl hrefl
  | receive => exact h.event (record_events _ _) rfl (.of_eq (fun r => by cases r <;> rfl) rfl)
  | @take _ _ n packet _ _ _ _ hok =>
    have hb := c.toClientState.handleSoupPacket_books packet
    rw [if_pos hok] at hb
    refine h.event (record_events _ _) rfl ⟨fun r => (?_ : _ = _).trans (hb.responses r), hb.active⟩
    cases r <;> rfl
  | @reject _ _ n packet _ _ _ _ hno =>
    have hb := c.toClientState.handleSoupPacket_books packet
    rw [hno] at hb
    exact h.event (record_events _ _) rfl hb

theorem Reached.kept (h : Reached c t) : c.Kept :=
  h.keeps (P := fun c _ => c.Kept)
    (fun _ => ⟨rfl, fun r => by cases r <;> rfl, fun _ => .inl rfl⟩)
    fun _ _ _ _ _ hk ha => hk.act ha

/-! ## Targets -/

/-- A message is queued by `buildBatch`, for what the client would aim at. -/
theorem Act.message {p q : LoadClient × ℕ} {m : Moment} {msg : OuchInboundFrame} {packet : List UInt8} (h : Act p q)
    (he : q.1.log = p.1.log ++ [m]) (hm : m.event = .queued (.message msg) packet) :
    ∃ draw kind, buildMessage draw p.1.nextUserRefNum p.1.target = (kind, msg) := by
  have hrecord : ∀ {x : LoadClient} {e : ClientEvent}, (x.record e).log = p.1.log ++ [m] → x.log = p.1.log →
      e = .queued (.message msg) packet := fun hlog hx => (event_of_record hx hlog).symm.trans hm
  have hqueue : ∀ {x : LoadClient} {item : Queued} {bytes : List UInt8},
      (x.queue item bytes).log = p.1.log ++ [m] → x.log = p.1.log → item = .message msg := fun hlog hx => by
    rcases event_of_queue hx hlog with e | ⟨e, -⟩
    · exact (ClientEvent.queued.inj (e.symm.trans hm)).1
    · cases e.symm.trans hm
  cases h with
  | wait => exact absurd he (by simp)
  | reset => exact absurd he (by simp)
  | slot => exact absurd he (by simp)
  | noSocket => cases hrecord he rfl
  | noConnection => cases hrecord he rfl
  | connect => cases hrecord he rfl
  | close => cases hrecord he rfl
  | logIn => cases hqueue he rfl
  | written => cases hrecord he rfl
  | blocked => cases hrecord he rfl
  | clear => cases hrecord he rfl
  | @enqueue _ _ draw kind _ _ _ _ hmsg =>
    cases hqueue he (count_log _ _)
    exact ⟨draw, kind, hmsg⟩
  | heartbeat => cases hqueue he rfl
  | receive => cases hrecord he rfl
  | take => cases hrecord he rfl
  | reject => cases hrecord he rfl

/-- A Cancel or a Replace of the order factory is for the target it was given. -/
theorem target_of_buildMessage {d : OrderFactory.Draw} {u ref : UInt32} {target : Option Target} {kind : FrameKind}
    {msg : OuchInboundFrame} (h : buildMessage d u target = (kind, msg)) (href : targetRef msg = some ref) :
    ∃ side, target = some ⟨ref, side⟩ := by
  unfold buildMessage at h
  split at h
  · cases h
    cases href
  · next target =>
    split_ifs at h <;> cases h <;> cases href
    · exact ⟨target.side, rfl⟩
    · exact ⟨target.side, rfl⟩

theorem Kept.target {ref : UInt32} {side : Side} (h : c.Kept) (ht : c.target = some ⟨ref, side⟩) :
    ref = 0 ∨ ref ∈ reportedRefs c.events := by
  unfold LoadClient.target at ht
  split at ht
  · cases ht
    exact h.active _
  · cases ht

end LoadClient

/-! ## Runs -/

namespace LoadGenerator

/-- In every run: a Cancel or a Replace that a client queues is for the UserRefNum of an order
that an Accepted or a Replaced it has handled before, on this connection or an earlier one, said
is there; or for UserRefNum 0, which no order has. -/
theorem targets_were_reported (n numClients interArrivalNs : ℕ) (k : Kernel) :
    ∀ c ∈ ((new numClients interArrivalNs).run n k).1.clients, ∀ past m rest, c.log = past ++ m :: rest →
      ∀ msg packet ref, m.event = .queued (.message msg) packet → targetRef msg = some ref →
        ref = 0 ∨ ref ∈ reportedRefs (eventsLogged past) := by
  intro c hc past m rest hlog msg packet ref hm href
  obtain ⟨t, hr, -⟩ := run_reached n numClients interArrivalNs k c hc
  obtain ⟨c₀, t₀, c₁, t₁, hr₀, ha, rfl, hlog₁, -, -⟩ := hr.moment hlog
  obtain ⟨draw, kind, hbuild⟩ := ha.message hlog₁ hm
  obtain ⟨side, htarget⟩ := LoadClient.target_of_buildMessage hbuild href
  exact hr₀.kept.target htarget

/-- The Accepted of the first Enter, in a Sequenced Data packet. -/
def firstAccepted : List UInt8 :=
  encodeSoupSequenced (.orderAccepted {
    timestamp := 0, userRefNum := 1, side := chr 'B', quantity := 100, symbol := alpha 8 [], price := 1000000
    timeInForce := chr '0', display := chr 'Y', orderReferenceNumber := 1, capacity := chr 'A'
    intermarketSweepEligibility := chr 'N', crossType := chr 'N', orderState := chr 'L', clOrdId := alpha 14 [] }) 128

/-- A client logs in and sends an Enter, which is accepted, and then a Cancel. -/
def canceling : Kernel where
  clock := id
  clock_mono := monotone_id
  epollWait
    | 0 => .ready [(0, { output := true })]
    | _ => .ready [(0, { input := true })]
  send _ := .sent WriteBuffer.writeBufBytes
  recv
    | 0 => .bytes (Outbound.loginAcceptedPacket 1)
    | _ => .bytes firstAccepted
  draw
    | 0 => {}
    | _ => { roll := 15 }

theorem targets_were_reported_canceling : ∃ c ∈ ((new 1 4).run 3 canceling).1.clients, ∃ past m rest packet,
    c.log = past ++ m :: rest ∧ m.event = .queued (.message (.cancelOrder { userRefNum := 1, quantity := 0 })) packet ∧
      ((1 : UInt32) = 0 ∨ 1 ∈ reportedRefs (eventsLogged past)) := by
  have hrun : ∃ c ∈ ((new 1 4).run 3 canceling).1.clients, (eventsLogged c.log)[11]? = some
      (.queued (.message (.cancelOrder { userRefNum := 1, quantity := 0 }))
        (encodeSoupUnsequenced (.cancelOrder { userRefNum := 1, quantity := 0 }) 128)) := by
    decide +kernel
  obtain ⟨c, hc, h⟩ := hrun
  rw [eventsLogged, List.getElem?_map, Option.map_eq_some_iff] at h
  obtain ⟨m, hm, he⟩ := h
  obtain ⟨hlt, rfl⟩ := List.getElem?_eq_some_iff.mp hm
  have hlog : c.log = c.log.take 11 ++ c.log[11] :: c.log.drop 12 := by
    rw [List.getElem_cons_drop, List.take_append_drop]
  exact ⟨c, hc, _, _, _, _, hlog, he, targets_were_reported 3 1 4 canceling c hc _ _ _ hlog _ _ 1 he rfl⟩

/-! ## Statistics -/

/-- The sum of a kind of response. -/
def Stats.responses (s : Stats) : Reply → ℕ
  | .accepted => s.responsesAck
  | .rejected => s.responsesErr
  | .executed => s.responsesMatch
  | .canceled => s.responsesCanceled
  | .replaced => s.responsesReplaced

theorem Stats.add_responses (s : Stats) (c : LoadClient) (r : Reply) :
    (s.add c).responses r = s.responses r + c.responses r := by
  cases r <;> rfl

theorem foldl_add (clients : List LoadClient) (s : Stats) :
    (clients.foldl Stats.add s).requestsSent = s.requestsSent + (clients.map (·.requestsSent)).sum ∧
    (∀ r, (clients.foldl Stats.add s).responses r = s.responses r + (clients.map (·.responses r)).sum) ∧
    (clients.foldl Stats.add s).ordersInFlight = s.ordersInFlight + (clients.map (·.ordersInFlight)).sum := by
  induction clients generalizing s with
  | nil => simp
  | cons c clients ih =>
    obtain ⟨hsent, hresponses, hflight⟩ := ih (s.add c)
    refine ⟨?_, fun r => ?_, ?_⟩
    · rw [List.foldl_cons, hsent, List.map_cons, List.sum_cons, ← Nat.add_assoc]
      rfl
    · rw [List.foldl_cons, hresponses, List.map_cons, List.sum_cons, ← Nat.add_assoc, Stats.add_responses]
    · rw [List.foldl_cons, hflight, List.map_cons, List.sum_cons, ← Int.add_assoc]
      rfl

/-- In every run, the statistics are what the clients did over all their connections: the
messages they queued, and the responses they handled, by kind, each counted once. The orders in
flight are the sum of what the clients have in `acks_pending`; and if answers to Enters of earlier
connections come only while a client has no other, they are the unanswered Enters of the
connections there are. -/
theorem stats_exact (n numClients interArrivalNs : ℕ) (k : Kernel) :
    let g := ((new numClients interArrivalNs).run n k).1
    g.stats.requestsSent = (g.clients.map fun c => (messagesQueued (eventsLogged c.log)).length).sum ∧
    (∀ r, g.stats.responses r = (g.clients.map fun c => (replies (eventsLogged c.log)).count r).sum) ∧
    g.stats.ordersInFlight = ((g.clients.map (·.acksPending)).sum : ℕ) ∧
    ((∀ c ∈ g.clients, ReplaysFirst (eventsLogged c.log)) →
      g.stats.ordersInFlight = ((g.clients.map fun c => (unanswered (eventsLogged c.log)).length).sum : ℕ)) := by
  intro g
  have hkept : ∀ c ∈ g.clients, c.Kept ∧ c.Pipeline := fun c hc => by
    obtain ⟨t, hr, -⟩ := run_reached n numClients interArrivalNs k c hc
    exact ⟨hr.kept, hr.pipeline⟩
  obtain ⟨hsent, hresponses, hflight⟩ := foldl_add g.clients {}
  have hpending : g.stats.ordersInFlight = ((g.clients.map (·.acksPending)).sum : ℕ) := by
    rw [stats, hflight, Int.zero_add, List.map_congr_left fun c hc => (hkept c hc).2.inFlight]
    rw [Nat.cast_list_sum, List.map_map]
    rfl
  refine ⟨?_, fun r => ?_, hpending, fun hfirst => ?_⟩
  · rw [stats, hsent, Nat.zero_add]
    exact congrArg List.sum (List.map_congr_left fun c hc => (hkept c hc).1.sent)
  · rw [stats, hresponses]
    refine (congrArg₂ _ (?_ : _ = 0) ?_).trans (Nat.zero_add _)
    · cases r <;> rfl
    · exact congrArg List.sum (List.map_congr_left fun c hc => (hkept c hc).1.responses r)
  · rw [hpending, List.map_congr_left fun c hc => (hkept c hc).2.exact (hfirst c hc)]
    rfl

/-- The client of `rejecting` has sent six Enters on two connections, and two were rejected. It has
two orders in flight, those of the second connection. -/
theorem stats_exact_rejecting : ((new 1 4).run 6 rejecting).1.stats.requestsSent = 6 ∧
    ((new 1 4).run 6 rejecting).1.stats.responses .rejected = 2 ∧
    ((new 1 4).run 6 rejecting).1.stats.ordersInFlight = 2 ∧
    (((new 1 4).run 6 rejecting).1.clients.map fun c => unanswered (eventsLogged c.log)) = [[5, 6]] := by
  have hrun : (∀ c ∈ ((new 1 4).run 6 rejecting).1.clients, ReplaysFirst (eventsLogged c.log)) ∧
      (((new 1 4).run 6 rejecting).1.clients.map fun c => ((messagesQueued (eventsLogged c.log)).length,
        (replies (eventsLogged c.log)).count .rejected, unanswered (eventsLogged c.log))) = [(6, 2, [5, 6])] := by
    decide +kernel
  obtain ⟨hfirst, hclients⟩ := hrun
  obtain ⟨hsent, hresponses, -, hflight⟩ := stats_exact 6 1 4 rejecting
  obtain ⟨c, hc, e⟩ := List.map_eq_singleton_iff.mp hclients
  simp only [Prod.mk.injEq] at e
  obtain ⟨hmessages, hrejected, hunanswered⟩ := e
  have hresponses := hresponses .rejected
  have hflight := hflight hfirst
  rw [hc, List.map_singleton, List.sum_singleton] at hsent hresponses hflight
  rw [hc, List.map_singleton, hunanswered]
  exact ⟨hsent.trans hmessages, hresponses.trans hrejected, by rw [hflight, hunanswered]; rfl, rfl⟩

end LoadGenerator

end Exchange
