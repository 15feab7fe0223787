import Exchange.Proof.Server.Threads
import Mathlib.Data.Prod.Lex

/-!
# Interleavings do not change what clients are told

`interleaving_invisible`: whatever the order in which the threads take their steps, an event
comes to the responder after the notes for its orders, and the events with their answers
and the rejects of the gateway are, timestamps aside, the first of those of the run that
handles one message after the other, and all of them once nothing is on its way. Every run
of the threads can be brought to that end (`Threads.Inv.finish`): the outbound thread never
waits, the matching thread waits for the outbound thread only, and the inbound thread for
these two.
-/

namespace Exchange

open Spec (Life recordsOf noteId rejection answer timeless outcome sentTo deliveries rejections applied answered
  rejected Noted)
open Gateway (Trail)

variable {n : ℕ} {g g' : Gateway} {v v' : GatewayView} {ms : List Inbound} {handled : List Handled} {s : Threads}

/-! ## Runs -/

namespace Threads

theorem Inv.new (capacity : ℕ) (env : Env) (hall : Trail capacity g v ms g' v' handled)
    (hentry : g.entry = { band := Gateway.band }) (hresting : v.resting = {}) :
    (Threads.new capacity env ms).Inv capacity g' v' handled := by
  refine ⟨[], [], [], handled, fun _ => .unborn, rfl, ⟨⟨g, v, hall, hentry.symm⟩, rfl, .inl rfl, rfl⟩,
    ⟨⟨g, v, ms, fun _ _ => [], hall, ?_⟩, rfl, rfl⟩,
    ⟨fun _ => rfl, fun _ => rfl, fun _ h => absurd rfl h, nofun, fun pre x post h => by simp [Threads.new] at h⟩⟩
  rw [hresting]
  exact .new capacity env

theorem run_cons (a : Arith) (clock noteClock : ℕ → UInt64) (s : Threads) (t : Thread) (schedule : List Thread) :
    s.run a clock noteClock (t :: schedule) =
      (s.step a clock noteClock t).bind fun s => s.run a clock noteClock schedule :=
  List.foldlM_cons

theorem run_append (a : Arith) (clock noteClock : ℕ → UInt64) (s : Threads) (schedule schedule' : List Thread) :
    s.run a clock noteClock (schedule ++ schedule') =
      (s.run a clock noteClock schedule).bind fun s => s.run a clock noteClock schedule' :=
  List.foldlM_append

section

variable (hall : Trail n g v ms g' v' handled) (hrecs : v.recs = fun _ => none) (hlives : ∀ id, v.lives id = .unborn)
  (clock noteClock : ℕ → UInt64)

include hall hrecs hlives

theorem Inv.step (h : s.Inv n g' v' handled) (t : Thread) :
    ∃ s', (∀ a, s.step a clock noteClock t = some s') ∧ s'.Inv n g' v' handled := by
  cases t with
  | inbound =>
    obtain ⟨s', hs, h'⟩ := h.inbound
    exact ⟨s', fun _ => hs, h'⟩
  | engine => exact h.engine
  | outbound => exact ⟨_, fun _ => rfl, h.outbound hall hrecs hlives clock noteClock⟩

theorem Inv.run (h : s.Inv n g' v' handled) (schedule : List Thread) :
    ∃ s', (∀ a, s.run a clock noteClock schedule = some s') ∧ s'.Inv n g' v' handled := by
  induction schedule generalizing s with
  | nil => exact ⟨s, fun _ => rfl, h⟩
  | cons t schedule ih =>
    obtain ⟨s₁, hs, h₁⟩ := h.step hall hrecs hlives clock noteClock t
    obtain ⟨s', hrun, h'⟩ := ih h₁
    exact ⟨s', fun a => by rw [run_cons, hs a, Option.bind_some, hrun a], h'⟩

end

/-! ## What has been said -/

theorem Inv.right (h : s.Inv n g' v' handled) {pre post : List Said} {x : Said} (hlog : s.log = pre ++ x :: post) :
    Right (notesOf handled) pre x := by
  obtain ⟨_, _, _, _, _, hat⟩ := h
  exact hat.responds.said pre x post hlog

/-- The notes of an event's orders come before it. -/
theorem Inv.noted (h : s.Inv n g' v' handled) {pre post : List Said} {e : Event} {r : Option OuchResponse}
    (hlog : s.log = pre ++ .event e r :: post) :
    Noted pre e.orderId ∧ (e.type = .replaced → Noted pre e.origOrderId) := by
  have hnoted : ∀ {id record}, recordsOf (applied pre) id = some record → Noted pre id := fun hr =>
    List.mem_filterMap.mp (recordsOf_isSome.mp (Option.isSome_iff_exists.mpr ⟨_, hr⟩))
  obtain ⟨hk, -⟩ := h.right hlog
  refine ⟨?_, fun ht => ?_⟩
  · obtain ⟨record, hr, -⟩ := hk.record
    exact hnoted hr
  · obtain ⟨record, hr, -⟩ := hk.orig ht
    exact hnoted hr

/-- The answers, timestamps aside. -/
theorem Inv.answered_eq (h : s.Inv n g' v' handled) :
    (answered s.log).map outcome =
      (eventsIn s.log).map fun e => (e, (answer (recordsOf (notesOf handled)) e 0).map timeless) := by
  rw [eventsIn, List.map_map]
  refine List.map_congr_left fun x hx => ?_
  obtain ⟨y, hy, hyx⟩ := List.mem_filterMap.mp hx
  obtain ⟨pre, post, hlog⟩ := List.append_of_mem hy
  cases y with
  | note => cases hyx
  | event e r =>
    cases hyx
    obtain ⟨-, timestamp, rfl⟩ := h.right hlog
    simp only [Function.comp_apply, outcome, timeless_answer _ _ timestamp 0]

theorem Inv.rejected_eq (h : s.Inv n g' v' handled) :
    (rejected s.log).map timeless = (applied s.log).filterMap fun note => (rejection 0 note).map timeless := by
  unfold rejected applied
  rw [List.map_filterMap, List.filterMap_filterMap]
  refine List.filterMap_congr fun y hy => ?_
  obtain ⟨pre, post, hlog⟩ := List.append_of_mem hy
  cases y with
  | event => rfl
  | note note r =>
    obtain ⟨timestamp, rfl⟩ := h.right hlog
    exact timeless_rejection note timestamp 0

theorem Inv.applied_isPrefix (h : s.Inv n g' v' handled) : applied s.log <+: notesOf handled := by
  obtain ⟨_, _, _, _, _, hat⟩ := h
  exact (List.prefix_append _ _).trans hat.applied_isPrefix

theorem Inv.events_isPrefix (h : s.Inv n g' v' handled) : eventsIn s.log <+: eventsOf handled := by
  obtain ⟨done, undone, current, rest, _, hcut, -, hm, -⟩ := h
  rw [hcut, eventsOf_append, eventsOf_append, eventsOf_append, ← hm.events]
  simp only [List.append_assoc]
  exact List.prefix_append _ _

/-- In the end all has been said. -/
theorem Inv.done (h : s.Inv n g' v' handled) (hd : s.Done) :
    applied s.log = notesOf handled ∧ eventsIn s.log = eventsOf handled := by
  obtain ⟨done, undone, current, rest, _, hcut, hr, hm, -⟩ := h
  obtain ⟨hleft, hnote, hrequest, hnotes, hrequests, hengine, hevents, hout⟩ := hd
  have hheld : s.outbound.held = [] := by
    rcases hout with h | ⟨k, h⟩ <;> rw [h] <;> rfl
  -- nothing is left to read, so nothing is left of the run
  obtain ⟨g₁, v₁, ht, -⟩ := hr.trail
  rw [hleft] at ht
  cases ht
  rw [List.append_nil] at hcut
  have happ := hr.notes
  rw [hnotes, hnote, Option.toList_none, List.append_nil, List.append_nil, ← hcut] at happ
  have hreq := hr.request
  rw [hrequest] at hreq
  have hreq' := hm.requests
  rw [hengine, hrequests] at hreq'
  obtain ⟨g₂, v₂, ms₂, _, ht₂, -⟩ := hm.trail
  rw [List.append_nil] at ht₂
  have hquiet : plainRequests (undone ++ current) = [] := by
    rw [plainRequests_append, ← hreq', hreq]
    rfl
  have hev := hm.events
  rw [hheld, hevents, hengine] at hev
  refine ⟨happ, ?_⟩
  rw [hcut, List.append_assoc, eventsOf_append, (ht₂.quiet hquiet).2, ← hev]
  simp [EnginePc.unsent]

/-! ## Completing a run -/

/-- What the inbound thread has still to read and to push. -/
def inboundWork (s : Threads) : ℕ := 3 * s.left.length + s.note.toList.length + s.request.toList.length

/-- The requests still to execute, and how far the matching thread is with one. -/
def engineWork (s : Threads) : ℕ :=
  4 * (s.engine.held.length + s.requests.length) + match s.engine with
    | .emit _ _ => 3
    | .poll => 2
    | .peek _ => 1
    | .execute _ _ => 0

/-- The events and notes still to handle, and how far the outbound thread is with one. -/
def outboundWork (s : Threads) : ℕ :=
  5 * (s.outbound.held.length + s.events.length) + s.notes.length + match s.outbound with
    | .poll k => if s.events.isEmpty ∨ outboundBatch ≤ k then 4 else 2
    | .drain => 3
    | .catchUp _ _ => 1
    | .answer _ _ => 0

/-- A thread's step makes work for the threads after it only. -/
def work (s : Threads) : ℕ ×ₗ ℕ ×ₗ ℕ ×ₗ ℕ :=
  toLex (s.inboundWork, toLex (s.engineWork, toLex (s.engine.unsent.length, s.outboundWork)))

theorem push_nil {α : Type} (item : α) : RingBuffer.push [] item = some [item] :=
  if_pos (by simp [communicationRingCount])

theorem inboundStep_work {s s' : Threads} (hnotes : s.notes = []) (hrequests : s.requests = [])
    (hbusy : s.note ≠ none ∨ s.request ≠ none ∨ s.left ≠ []) (h : s.inboundStep = some s') :
    s'.inboundWork < s.inboundWork := by
  unfold inboundStep at h
  cases hnote : s.note with
  | some note =>
    simp only [hnote, hnotes, push_nil] at h
    obtain rfl := Option.some.inj h
    simp [inboundWork, hnote]
  | none =>
    cases hrequest : s.request with
    | some request =>
      simp only [hnote, hrequest, hrequests, push_nil] at h
      obtain rfl := Option.some.inj h
      simp [inboundWork, hnote, hrequest]
    | none =>
      cases hleft : s.left with
      | nil => simp [hnote, hrequest, hleft] at hbusy
      | cons m left =>
        simp only [hnote, hrequest, hleft] at h
        obtain ⟨⟨entry, t⟩, -, hs⟩ := Option.bind_eq_some_iff.mp h
        obtain rfl := Option.some.inj hs
        have hn : t.note.toList.length ≤ 1 := by cases t.note <;> simp
        have hr : ∀ f : EngineRequest → TimedRequest, (t.request.map f).toList.length ≤ 1 := fun f => by
          cases t.request <;> simp
        have := hr fun request => (Gateway.stamp m request, m.enginePopTsc)
        simp only [inboundWork, hnote, hrequest, hleft, List.length_cons, Option.toList_none, List.length_nil]
        omega

theorem engineStep_work {s s' : Threads} {a : Arith} (hevents : s.events = [])
    (hbusy : s.engine ≠ .poll ∨ s.requests ≠ []) (h : s.engineStep a = some s') :
    s'.inboundWork = s.inboundWork ∧ (s'.engineWork < s.engineWork ∨
      s'.engineWork = s.engineWork ∧ s'.engine.unsent.length < s.engine.unsent.length) := by
  unfold engineStep at h
  cases hpc : s.engine with
  | poll =>
    cases hring : s.requests with
    | nil => simp [hpc, hring] at hbusy
    | cons cur requests =>
      simp only [hpc, hring] at h
      obtain rfl := Option.some.inj h
      refine ⟨rfl, .inl ?_⟩
      simp [engineWork, hpc, hring, EnginePc.held]
      omega
  | peek cur =>
    simp only [hpc] at h
    obtain rfl := Option.some.inj h
    refine ⟨rfl, .inl ?_⟩
    cases hring : s.requests with
    | nil => simp [engineWork, hpc, hring, EnginePc.held]
    | cons nxt requests =>
      simp [engineWork, hpc, hring, EnginePc.held]
      omega
  | execute cur nxt =>
    simp only [hpc] at h
    obtain ⟨⟨_, book⟩, -, hs⟩ := Option.bind_eq_some_iff.mp h
    obtain rfl := Option.some.inj hs
    refine ⟨rfl, .inl ?_⟩
    simp [engineWork, hpc, EnginePc.held]
    omega
  | emit events nxt =>
    cases events with
    | nil =>
      simp only [hpc] at h
      obtain rfl := Option.some.inj h
      refine ⟨rfl, .inl ?_⟩
      cases nxt <;> simp [engineWork, hpc, EnginePc.held, EnginePc.next]
    | cons event events =>
      simp only [hpc, hevents, push_nil] at h
      obtain rfl := Option.some.inj h
      exact ⟨rfl, .inr ⟨by simp [engineWork, hpc, EnginePc.held], by simp [EnginePc.unsent]⟩⟩

theorem OutboundMoves.frame {s s' : Threads} {clock noteClock : ℕ → UInt64} (h : s.OutboundMoves clock noteClock s') :
    s'.inboundWork = s.inboundWork ∧ s'.engineWork = s.engineWork ∧ s'.engine = s.engine := by
  cases h <;> exact ⟨rfl, rfl, rfl⟩

theorem OutboundMoves.work {s s' : Threads} {clock noteClock : ℕ → UInt64} (h : s.OutboundMoves clock noteClock s')
    (hbusy : s.outbound.held ≠ [] ∨ s.events ≠ [] ∨ s.notes ≠ []) : s'.outboundWork < s.outboundWork := by
  unfold outboundWork
  cases h with
  | note hpc hring => simp [onNote, hring]
  | drained hpc hring =>
    cases hev : s.events with
    | nil => simp [hpc, hring, hev, OutboundPc.held] at hbusy
    | cons event events => simp [hpc, hring, OutboundPc.held, outboundBatch]
  | again hpc hring =>
    simp [hpc, OutboundPc.held, if_pos hring]
  | take hpc hk hring =>
    simp [hpc, hring, OutboundPc.held, Nat.not_le.mpr hk]
    omega
  | caughtUp hpc hring => simp [hpc, hring, OutboundPc.held]
  | answer hpc =>
    simp [hpc, onEvent, OutboundPc.held]
    split <;> omega

/-- While something is on its way, some thread can get on with it. -/
theorem Inv.progress (hall : Trail n g v ms g' v' handled) (hrecs : v.recs = fun _ => none)
    (hlives : ∀ id, v.lives id = .unborn) (clock noteClock : ℕ → UInt64) (h : s.Inv n g' v' handled) (hd : ¬ s.Done) :
    ∃ t s', (∀ a, s.step a clock noteClock t = some s') ∧ s'.Inv n g' v' handled ∧ s'.work < s.work := by
  by_cases hout : s.outbound.held ≠ [] ∨ s.events ≠ [] ∨ s.notes ≠ []
  · have hmoves := s.outboundStep_moves clock noteClock
    obtain ⟨hin, heng, hpc⟩ := hmoves.frame
    refine ⟨.outbound, _, fun _ => rfl, h.outbound hall hrecs hlives clock noteClock, ?_⟩
    unfold work
    rw [hin, heng, hpc]
    exact .right _ (.right _ (.right _ (hmoves.work hout)))
  · push Not at hout
    obtain ⟨hheld, hevents, hnotes⟩ := hout
    by_cases heng : s.engine ≠ .poll ∨ s.requests ≠ []
    · obtain ⟨s', hs, h'⟩ := h.engine
      refine ⟨.engine, s', hs, h', ?_⟩
      obtain ⟨hin, hlt | ⟨heq, hlt⟩⟩ := engineStep_work hevents heng (hs .wrapping)
      · unfold work
        rw [hin]
        exact .right _ (.left _ _ hlt)
      · unfold work
        rw [hin, heq]
        exact .right _ (.right _ (.left _ _ hlt))
    · push Not at heng
      obtain ⟨s', hs, h'⟩ := h.inbound
      refine ⟨.inbound, s', fun _ => hs, h', .left _ _ (inboundStep_work hnotes heng.2 ?_ hs)⟩
      by_contra hidle
      push Not at hidle
      refine hd ⟨hidle.2.2, hidle.1, hidle.2.1, hnotes, heng.2, heng.1, hevents, ?_⟩
      cases hpc : s.outbound with
      | drain => exact .inl rfl
      | poll k => exact .inr ⟨k, rfl⟩
      | catchUp k event => simp [hpc, OutboundPc.held] at hheld
      | answer k event => simp [hpc, OutboundPc.held] at hheld

theorem Inv.finish (hall : Trail n g v ms g' v' handled) (hrecs : v.recs = fun _ => none)
    (hlives : ∀ id, v.lives id = .unborn) (clock noteClock : ℕ → UInt64) (h : s.Inv n g' v' handled) :
    ∃ more s', (∀ a, s.run a clock noteClock more = some s') ∧ s'.Done := by
  induction hw : s.work using WellFoundedLT.induction generalizing s with
  | ind w ih =>
    subst hw
    by_cases hd : s.Done
    · exact ⟨[], s, fun _ => rfl, hd⟩
    · obtain ⟨t, s₁, hs, h₁, hlt⟩ := h.progress hall hrecs hlives clock noteClock hd
      obtain ⟨more, s', hrun, hd'⟩ := ih _ hlt h₁ rfl
      exact ⟨t :: more, s', fun a => by rw [run_cons, hs a, Option.bind_some, hrun a], hd'⟩

end Threads

/-- The messages to a client, from the answers without their timestamps. -/
theorem sentTo_answers (c : ℕ) (xs : List (Event × Option OuchResponse)) :
    sentTo c (xs.filterMap Prod.snd) = ((xs.map outcome).filterMap Prod.snd).filter (·.clientId = c) := by
  rw [sentTo, List.map_filterMap, List.filterMap_map]
  rfl

/-- Thread interleaving does not change what clients are told. For every order of the
threads' steps: when the responder handles an event, it has taken the notes for the event's
order and for the order it replaces; its answers are those of the run that completes each
message before the next, event by event, no matter which notes came early; and so is what
each client is sent for events and for gateway rejects, as far as the threads have come, and
entirely once they are done, which they can always get to be. -/
theorem interleaving_invisible (capacity soupReplayBytes : ℕ) (env env' : Env) (clock clock' noteClock : ℕ → UInt64)
    (ms : List Inbound) :
    ∃ g handled, (∀ a, Gateway.run a clock (Gateway.new capacity soupReplayBytes env) ms = some (g, handled)) ∧
      ∀ schedule, ∃ s, (∀ a, (Threads.new capacity env' ms).run a clock' noteClock schedule = some s) ∧
        (∀ pre e r post, s.log = pre ++ .event e r :: post →
          Noted pre e.orderId ∧ (e.type = .replaced → Noted pre e.origOrderId)) ∧
        (answered s.log).map outcome <+: (deliveries handled).map outcome ∧
        (∀ c, sentTo c ((answered s.log).filterMap Prod.snd) <+: sentTo c ((deliveries handled).filterMap Prod.snd) ∧
          sentTo c (rejected s.log) <+: sentTo c (rejections handled)) ∧
        (s.Done → ∀ c,
          sentTo c ((answered s.log).filterMap Prod.snd) = sentTo c ((deliveries handled).filterMap Prod.snd) ∧
          sentTo c (rejected s.log) = sentTo c (rejections handled)) ∧
        ∃ more s', (∀ a, (Threads.new capacity env' ms).run a clock' noteClock (schedule ++ more) = some s') ∧
          s'.Done := by
  obtain ⟨g, v, handled, hrun, ht⟩ := (Gateway.Ok.new capacity soupReplayBytes env).trail clock ms
  refine ⟨g, handled, hrun, fun schedule => ?_⟩
  have hnew := Threads.Inv.new capacity env' ht rfl rfl
  obtain ⟨s, hs, h⟩ := hnew.run ht rfl (fun _ => rfl) clock' noteClock schedule
  obtain ⟨more, s', hmore, hdone⟩ := h.finish ht rfl (fun _ => rfl) clock' noteClock
  have hanswers : (answered s.log).map outcome <+: (deliveries handled).map outcome := by
    rw [h.answered_eq, ht.deliveries_eq rfl]
    exact h.events_isPrefix.map _
  have hrejects : (rejected s.log).map timeless <+: (rejections handled).map timeless := by
    rw [h.rejected_eq, ht.rejections_eq]
    exact h.applied_isPrefix.filterMap _
  refine ⟨s, hs, fun pre e r post hlog => h.noted hlog, hanswers, fun c => ⟨?_, hrejects.filter _⟩,
    fun hd c => ⟨?_, ?_⟩, more, s', fun a => ?_, hdone⟩
  · rw [sentTo_answers, sentTo_answers]
    exact (hanswers.filterMap _).filter _
  · rw [sentTo_answers, sentTo_answers, h.answered_eq, ht.deliveries_eq rfl, (h.done hd).2]
  · rw [sentTo, sentTo, h.rejected_eq, ht.rejections_eq, (h.done hd).1]
  · rw [Threads.run_append, hs a, Option.bind_some, hmore a]

end Exchange
