import Exchange.Framework.Filter
import Exchange.Proof.Client.EventLoop

/-!
# The pipeline counter

Enters are counted up as they are written, and down by any Accepted or Rejected. The count
is that of the unanswered Enters of the connection as long as an answer to an Enter of an
earlier connection comes only when there are none (`ReplaysFirst`).
-/

namespace Exchange

open Spec (eventsLogged answerRef enterRef unanswered unansweredAfter ReplaysFirst AnswersOnce)

namespace LoadClient

open OrderFactory (buildMessage_cases)

variable {c : LoadClient} {t : ℕ}

theorem unanswered_concat (events : List ClientEvent) (e : ClientEvent) :
    unanswered (events ++ [e]) = unansweredAfter (unanswered events) e := List.foldl_append

theorem replaysFirst_of_append {events rest : List ClientEvent} (h : ReplaysFirst (events ++ rest)) :
    ReplaysFirst events := by
  intro past e more he
  exact h past e (more ++ rest) (by rw [he, List.append_assoc, List.cons_append])

/-- The counter of a client, and the Enters that are unanswered. -/
structure Pipeline (c : LoadClient) : Prop where
  inFlight : c.ordersInFlight = c.acksPending
  le : c.acksPending ≤ pipelineDepth
  idle : c.fd = none ∨ c.loggedIn = false → c.acksPending = 0
  exact : ReplaysFirst c.events → c.acksPending = (unanswered c.events).length

/-- An event that neither writes nor answers an Enter. -/
theorem Pipeline.of_eq {c' : LoadClient} {e : ClientEvent} (h : c.Pipeline) (he : c'.events = c.events ++ [e])
    (hun : unansweredAfter (unanswered c.events) e = unanswered c.events) (hfd : c'.fd = c.fd)
    (hl : c'.loggedIn = c.loggedIn) (hacks : c'.acksPending = c.acksPending)
    (hfl : c'.ordersInFlight = c.ordersInFlight) : c'.Pipeline where
  inFlight := by rw [hfl, hacks, h.inFlight]
  le := hacks ▸ h.le
  idle := by
    rw [hfd, hl, hacks]
    exact h.idle
  exact hr := by
    rw [he] at hr ⊢
    rw [unanswered_concat, hun, hacks]
    exact h.exact (replaysFirst_of_append hr)

/-- An event that ends a connection, or begins one. -/
theorem Pipeline.of_zero {c' : LoadClient} {events : List ClientEvent} {e : ClientEvent}
    (he : c'.events = events ++ [e]) (hun : unansweredAfter (unanswered events) e = []) (hacks : c'.acksPending = 0)
    (hfl : c'.ordersInFlight = 0) : c'.Pipeline where
  inFlight := by rw [hfl, hacks]; rfl
  le := by rw [hacks]; exact Nat.zero_le _
  idle _ := hacks
  exact _ := by rw [he, unanswered_concat, hun, hacks]; rfl

/-- An event of the connection that is neither an answer nor an Enter. -/
theorem unansweredAfter_eq {refs : List UInt32} {e : ClientEvent}
    (hconn : unansweredAfter refs e = refs.diff (answerRef e).toList ++ (enterRef e).toList)
    (h : answerRef e = none) (h' : enterRef e = none) : unansweredAfter refs e = refs := by
  rw [hconn, h, h', Option.toList_none, List.diff_nil, List.append_nil]

/-- A packet that is queued and is no Enter. -/
theorem Pipeline.queue {x : LoadClient} {item : Queued} {packet : List UInt8} (h : c.Pipeline)
    (he : x.events = c.events) (hitem : enterRef (.queued item packet) = none) (hfd : x.fd = c.fd)
    (hl : x.loggedIn = c.loggedIn) (hacks : x.acksPending = c.acksPending)
    (hfl : x.ordersInFlight = c.ordersInFlight) : (x.queue item packet).Pipeline := by
  obtain hq | hq := queue_events he item packet
  · exact h.of_eq hq (unansweredAfter_eq rfl rfl hitem) hfd hl hacks hfl
  · exact h.of_eq hq (unansweredAfter_eq rfl rfl rfl) hfd hl hacks hfl

/-- An Enter is written. -/
theorem Pipeline.enter {msg : OuchEnterOrder} {packet : List UInt8} (h : c.Pipeline) (hfd : c.fd ≠ none)
    (hl : c.loggedIn = true) (hacks : c.acksPending < pipelineDepth)
    (hroom : c.writeBuf.hasRoom packet.length = true) : (c.enqueue .enter (.enterOrder msg) packet).Pipeline := by
  have he : (c.enqueue .enter (.enterOrder msg) packet).events =
      c.events ++ [.queued (.message (.enterOrder msg)) packet] := by
    rw [enqueue, queue_of_hasRoom (by exact hroom)]
    exact record_events _ _
  refine ⟨?_, hacks, ?_, fun hr => ?_⟩
  · show c.ordersInFlight + 1 = (c.acksPending + 1 : ℕ)
    rw [h.inFlight]
    rfl
  · rintro (hnone | hout)
    · exact absurd hnone hfd
    · exact absurd (hl.symm.trans hout) (by decide)
  · rw [he] at hr ⊢
    rw [unanswered_concat]
    show c.acksPending + 1 = ((unanswered c.events).diff [] ++ [msg.userRefNum]).length
    rw [List.diff_nil, List.length_append, ← h.exact (replaysFirst_of_append hr)]
    rfl

theorem unansweredAfter_handed (refs : List UInt32) (packet : SoupPacket) (n : ℕ) :
    unansweredAfter refs (.handed packet n) = refs.diff (answerRef (.handed packet n)).toList := List.append_nil _

/-- The counter after an answer: one less, unless it is 0. -/
theorem length_unansweredAfter_handed {refs : List UInt32} {packet : SoupPacket} {n : ℕ}
    (h : ∀ ref, answerRef (.handed packet n) = some ref → ref ∈ refs ∨ refs = []) :
    (unansweredAfter refs (.handed packet n)).length =
      if (answerRef (.handed packet n)).isSome then refs.length - 1 else refs.length := by
  rw [unansweredAfter_handed]
  cases ha : answerRef (.handed packet n) with
  | none => rfl
  | some ref =>
    show (refs.diff [ref]).length = refs.length - 1
    rw [List.diff_cons, List.diff_nil]
    rcases h ref ha with hmem | rfl
    · exact List.length_erase_of_mem hmem
    · rfl

/-- An answer to an Enter that is not waited for. -/
theorem unansweredAfter_of_not_mem {refs : List UInt32} {e : ClientEvent} {ref : UInt32} (h : answerRef e = some ref)
    (hnot : ref ∉ refs) : unansweredAfter refs e = refs := by
  cases e with
  | handed packet n =>
    rw [unansweredAfter_handed, h, Option.toList_some, List.diff_cons, List.diff_nil, List.erase_of_not_mem hnot]
  | _ => cases h

/-- A packet is taken. -/
theorem Pipeline.take {packet : SoupPacket} (h : c.Pipeline) (hfd : c.fd ≠ none) (n : ℕ)
    (hok : (c.toClientState.handleSoupPacket packet).1 = true) : (c.take packet n).Pipeline := by
  have hh := c.toClientState.handleSoupPacket_handles n hok
  have he : (c.take packet n).events = c.events ++ [.handed packet n] := record_events _ _
  have hacks : (c.take packet n).acksPending =
      if (answerRef (.handed packet n)).isSome then c.acksPending - 1 else c.acksPending := hh.acksPending
  refine ⟨?_, ?_, ?_, fun hr => ?_⟩
  · have h₁ : (c.take packet n).ordersInFlight - (c.take packet n).acksPending = c.ordersInFlight - c.acksPending :=
      hh.ordersInFlight
    have h₂ := h.inFlight
    omega
  · rw [hacks]
    have hle := h.le
    split <;> omega
  · rintro (hnone | hout)
    · exact absurd (hh.fd.symm.trans hnone) hfd
    · have hl : c.loggedIn = false := eq_false_of_ne_true fun hl => by
        have hin : (c.take packet n).loggedIn = true := hh.loggedIn.mpr (.inl hl)
        exact absurd (hin.symm.trans hout) (by decide)
      rw [hacks, h.idle (.inr hl)]
      split <;> rfl
  · rw [he] at hr ⊢
    have hfirst := hr c.events (.handed packet n) [] rfl
    rw [unanswered_concat, length_unansweredAfter_handed hfirst, hacks, h.exact (replaysFirst_of_append hr)]

theorem Pipeline.act {c' : LoadClient} {t' : ℕ} (h : c.Pipeline) (ha : Act (c, t) (c', t')) : c'.Pipeline := by
  cases ha with
  | wait => exact h
  | reset => exact ⟨h.inFlight, h.le, h.idle, h.exact⟩
  | slot => exact ⟨h.inFlight, h.le, h.idle, h.exact⟩
  | noSocket hfd =>
    have hzero := h.idle (.inl hfd)
    exact .of_zero (record_events _ _) rfl hzero (by rw [record_toClientState, h.inFlight, hzero]; rfl)
  | noConnection fd hfd =>
    have hzero := h.idle (.inl hfd)
    exact .of_zero (record_events _ _) rfl rfl (h.inFlight.trans (congrArg _ hzero))
  | connect fd hfd =>
    have hzero := h.idle (.inl hfd)
    exact .of_zero (record_events _ _) rfl rfl (h.inFlight.trans (congrArg _ hzero))
  | close hfd =>
    have hrec : (c.toClientState.reconnect t').acksPending = 0 ∧ (c.toClientState.reconnect t').ordersInFlight = 0 := by
      rw [ClientState.reconnect, if_neg hfd]
      exact ⟨rfl, Int.sub_eq_zero.mpr h.inFlight⟩
    exact .of_zero (record_events _ _) rfl hrec.1 hrec.2
  | logIn => exact h.queue rfl rfl rfl rfl rfl rfl
  | written => exact h.of_eq (record_events _ _) (unansweredAfter_eq rfl rfl rfl) rfl rfl rfl rfl
  | blocked => exact h.of_eq (record_events _ _) (unansweredAfter_eq rfl rfl rfl) rfl rfl rfl rfl
  | clear => exact h.of_eq (record_events _ _) (unansweredAfter_eq rfl rfl rfl) rfl rfl rfl rfl
  | enqueue hfd hl hacks hmsg hne hroom =>
    obtain ⟨rfl, rfl⟩ | ⟨target, rfl, rfl⟩ | ⟨target, rfl, rfl⟩ := buildMessage_cases hmsg
    · exact h.enter hfd hl hacks hroom
    · exact h.queue rfl rfl rfl rfl rfl rfl
    · exact h.queue rfl rfl rfl rfl rfl rfl
  | heartbeat => exact h.queue rfl rfl rfl rfl rfl rfl
  | receive => exact h.of_eq (record_events _ _) (unansweredAfter_eq rfl rfl rfl) rfl rfl rfl rfl
  | take hfd _ _ _ hok => exact h.take hfd _ hok
  | reject _ _ _ _ hno =>
    obtain ⟨hfd, -, hl, -, -, -, hacks, hfl⟩ := c.toClientState.handleSoupPacket_rejects hno
    replace hacks : (c.toClientState.handleSoupPacket _).2.acksPending = c.acksPending := hacks
    exact h.of_eq (record_events _ _) (unansweredAfter_eq rfl rfl rfl) hfd hl hacks (sub_left_injective (hacks ▸ hfl))

theorem Reached.pipeline (h : Reached c t) : c.Pipeline :=
  h.keeps (P := fun c _ => c.Pipeline) (fun _ => ⟨rfl, Nat.zero_le _, fun _ => rfl, fun _ => rfl⟩)
    fun _ _ _ _ _ hp ha => hp.act ha

end LoadClient

namespace LoadGenerator

open LoadClient (pipelineDepth eventsLogged_append unanswered_concat replaysFirst_of_append unansweredAfter_of_not_mem)

/-- At every moment of a run the orders in flight of a client are the Enters it counts, and
these are no more than `PIPELINE_DEPTH`. If an answer to an Enter of an earlier connection
comes only while no Enter of the current one is unanswered, the count is that of the
unanswered Enters of the connection, and such an answer leaves it as it was. -/
theorem pipeline_counter (n numClients interArrivalNs : ℕ) (k : Kernel) :
    ∀ c ∈ ((new numClients interArrivalNs).run n k).1.clients,
      (∀ m ∈ c.log, m.state.ordersInFlight = m.state.acksPending ∧ m.state.acksPending ≤ pipelineDepth) ∧
      (ReplaysFirst (eventsLogged c.log) → ∀ past m rest, c.log = past ++ m :: rest →
        m.state.acksPending = (unanswered (eventsLogged (past ++ [m]))).length ∧
        (unanswered (eventsLogged (past ++ [m]))).length ≤ pipelineDepth ∧
        ∀ ref, answerRef m.event = some ref → ref ∉ unanswered (eventsLogged past) →
          m.state.acksPending = (unanswered (eventsLogged past)).length) := by
  intro c hc
  obtain ⟨t, hr, -⟩ := run_reached n numClients interArrivalNs k c hc
  have halways : ∀ {past rest : List Moment} {m : Moment}, c.log = past ++ m :: rest →
      (m.state.ordersInFlight = m.state.acksPending ∧ m.state.acksPending ≤ pipelineDepth) ∧
      (ReplaysFirst (eventsLogged (past ++ [m])) →
        m.state.acksPending = (unanswered (eventsLogged (past ++ [m]))).length) := fun hlog =>
    hr.always (P := fun log state _ => (state.ordersInFlight = state.acksPending ∧ state.acksPending ≤ pipelineDepth) ∧
      (ReplaysFirst (eventsLogged log) → state.acksPending = (unanswered (eventsLogged log)).length))
      (fun c t h => ⟨⟨h.pipeline.inFlight, h.pipeline.le⟩, h.pipeline.exact⟩) hlog
  refine ⟨fun m hm => ?_, fun hfirst past m rest hlog => ?_⟩
  · obtain ⟨past, rest, hlog⟩ := List.append_of_mem hm
    exact (halways hlog).1
  · have hevents : eventsLogged c.log = eventsLogged (past ++ [m]) ++ eventsLogged rest := by
      rw [hlog, List.append_cons, eventsLogged_append]
    obtain ⟨⟨-, hle⟩, hexact⟩ := halways hlog
    have heq := hexact (replaysFirst_of_append (hevents ▸ hfirst))
    refine ⟨heq, heq ▸ hle, fun ref href hnot => ?_⟩
    rw [heq, eventsLogged_append, ← unansweredAfter_of_not_mem href hnot]
    exact congrArg List.length (unanswered_concat _ _)

/-- The Rejected of an Enter, in a Sequenced Data packet. -/
def rejectedPacket (userRefNum : UInt32) : List UInt8 :=
  encodeSoupSequenced (.orderRejected { timestamp := 0, userRefNum, reason := 1, clOrdId := alpha 14 [] }) 128

/-- A client logs in and sends Enters. The first is rejected, and the connection ends before the
second is. The client logs in again, the Rejected of the second is replayed with the Login Accepted,
and it sends the next Enters. -/
def rejecting : Kernel where
  clock i := i * 1000000000
  clock_mono := monotone_seconds
  epollWait
    | 0 | 4 => .ready [(0, { output := true })]
    | _ => .ready [(0, { input := true })]
  send _ := .sent WriteBuffer.writeBufBytes
  recv
    | 0 => .bytes (Outbound.loginAcceptedPacket 1)
    | 1 => .bytes (rejectedPacket 1)
    | 2 => .bytes []
    | _ => .bytes (Outbound.loginAcceptedPacket 2 ++ rejectedPacket 2)

theorem pipeline_counter_rejecting : ∃ c ∈ ((new 1 4).run 6 rejecting).1.clients,
    (eventsLogged c.log).filterMap enterRef = [1, 2, 3, 4, 5, 6] ∧ (eventsLogged c.log).filterMap answerRef = [1, 2] ∧
      (∃ past m rest, c.log = past ++ m :: rest ∧ answerRef m.event = some 2 ∧ 2 ∉ unanswered (eventsLogged past) ∧
        m.state.acksPending = 0) ∧
      ∀ past m rest, c.log = past ++ m :: rest →
        m.state.acksPending = (unanswered (eventsLogged (past ++ [m]))).length := by
  have hrun : ∃ c ∈ ((new 1 4).run 6 rejecting).1.clients,
      (eventsLogged c.log).filterMap enterRef = [1, 2, 3, 4, 5, 6] ∧ (eventsLogged c.log).filterMap answerRef = [1, 2] ∧
      (c.log[26]?.bind fun m => answerRef m.event) = some 2 ∧ unanswered (eventsLogged (c.log.take 26)) = [] ∧
      ReplaysFirst (eventsLogged c.log) := by
    decide +kernel
  obtain ⟨c, hc, hentered, hanswered, hreplayed, hnone, hfirst⟩ := hrun
  have hcounter := (pipeline_counter 6 1 4 rejecting c hc).2 hfirst
  refine ⟨c, hc, hentered, hanswered, ?_, fun past m rest hlog => (hcounter past m rest hlog).1⟩
  obtain ⟨m, hm, href⟩ := Option.bind_eq_some_iff.mp hreplayed
  obtain ⟨hlt, rfl⟩ := List.getElem?_eq_some_iff.mp hm
  have hlog : c.log = c.log.take 26 ++ c.log[26] :: c.log.drop 27 := by
    rw [List.getElem_cons_drop, List.take_append_drop]
  have hnot : 2 ∉ unanswered (eventsLogged (c.log.take 26)) := hnone ▸ List.not_mem_nil
  refine ⟨_, _, _, hlog, href, hnot, ?_⟩
  rw [(hcounter _ _ _ hlog).2.2 2 href hnot, hnone, List.length_nil]

/-- A client logs in and fills its pipeline; the connection ends; and when it has logged in
again and filled its pipeline again, the answer to its first Enter is replayed. -/
def replaying : Kernel where
  clock i := i * 1000000000
  clock_mono := monotone_seconds
  epollWait
    | 0 | 3 => .ready [(0, { output := true })]
    | _ => .ready [(0, { input := true })]
  send _ := .sent WriteBuffer.writeBufBytes
  recv
    | 0 | 2 => .bytes (Outbound.loginAcceptedPacket 1)
    | 1 => .bytes []
    | _ => .bytes (rejectedPacket 1)

/-- The replayed answer frees a slot, and 33 Enters of the connection are unanswered. -/
theorem replayed_answer_frees_slot : ∃ c ∈ ((new 1 0).run 6 replaying).1.clients,
    AnswersOnce (eventsLogged c.log) ∧ c.acksPending = pipelineDepth ∧
      (unanswered (eventsLogged c.log)).length = pipelineDepth + 1 := by
  decide +kernel

end LoadGenerator

end Exchange
