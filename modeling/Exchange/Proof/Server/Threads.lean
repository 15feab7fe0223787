import Exchange.Framework.Filter
import Exchange.Proof.Server.Sequence

/-!
# Interleavings of the three threads

Each thread is somewhere in the run that handles one message after the other, and the rings
hold what lies between the threads: the inbound thread has read the messages
`done ++ undone ++ current` and is pushing `current` (`Reads`), the matching thread has
executed the requests of `done` (`Matches`), and the outbound thread has taken the first of
the notes and handled the first of the events (`Responds`). `Threads.Inv` says so of a state,
and every step of a thread keeps it.

When the responder gets an event, the notes ring was seen empty after the event was taken,
so the notes of `done` have been taken (`Reads.notes_isPrefix`).
-/

namespace Exchange

open Spec (Life record recordsOf noteId rejection answer timeless outcome sentTo deliveries rejections applied answered
  rejected Noted)
open Gateway (Trail)

/-! ## What a thread holds -/

/-- The requests taken and not executed. -/
def EnginePc.held : EnginePc → List TimedRequest
  | .poll => []
  | .peek cur => [cur]
  | .execute cur nxt => cur :: nxt.toList
  | .emit _ nxt => nxt.toList

/-- The events not pushed yet. -/
def EnginePc.unsent : EnginePc → List EngineEvent
  | .emit events _ => events
  | _ => []

theorem EnginePc.held_next (nxt : Option TimedRequest) : (EnginePc.next nxt).held = nxt.toList := by
  cases nxt <;> rfl

theorem EnginePc.unsent_next (nxt : Option TimedRequest) : (EnginePc.next nxt).unsent = [] := by
  cases nxt <;> rfl

/-- The event taken and not handled. -/
def OutboundPc.held : OutboundPc → List EngineEvent
  | .catchUp _ event => [event]
  | .answer _ event => [event]
  | _ => []

/-- The requests without their times. -/
def plains (requests : List TimedRequest) : List EngineRequest := requests.map fun r => plain r.1

theorem plains_append (rs rs' : List TimedRequest) : plains (rs ++ rs') = plains rs ++ plains rs' := List.map_append

/-- The times of a request do not matter to the book. -/
theorem process_congr {n : ℕ} {b : Spec.Book} {req req' : EngineRequest} (h : plain req = plain req') :
    Spec.process n b req = Spec.process n b req' := by
  show Spec.process n b (plain req) = Spec.process n b (plain req')
  rw [h]

theorem priceOk_congr {req req' : EngineRequest} (h : plain req = plain req') (hp : Spec.PriceOk req) :
    Spec.PriceOk req' := by
  have hp : Spec.PriceOk (plain req) := hp
  rw [h] at hp
  exact hp

theorem RingBuffer.push_eq {α : Type} {ring ring' : List α} {item : α} (h : RingBuffer.push ring item = some ring') :
    ring' = ring ++ [item] := by
  unfold RingBuffer.push at h
  split at h
  · exact (Option.some.inj h).symm
  · cases h

/-! ## The invariant -/

/-- The events the responder has handled. -/
def eventsIn (log : List Said) : List Event := (answered log).map Prod.fst

/-- The inbound thread has pushed what `sent` became, is pushing what `current` became, and
will read what became `rest`. -/
structure Reads (n : ℕ) (g' : Gateway) (v' : GatewayView) (s : Threads) (sent current rest : List Handled) : Prop where
  trail : ∃ g v, Trail n g v s.left g' v' rest ∧ s.entry = g.entry
  notes : applied s.log ++ s.notes ++ s.note.toList = notesOf (sent ++ current)
  note : s.note = none ∨ notesOf current = s.note.toList
  request : plainRequests current = plains s.request.toList

/-- The matching thread has executed the requests of `done`, those of `undone` are with it or
in its ring. -/
structure Matches (n : ℕ) (g' : Gateway) (v' : GatewayView) (s : Threads) (done undone rest : List Handled) :
    Prop where
  trail : ∃ g v ms slots, Trail n g v ms g' v' (undone ++ rest) ∧ Rep n s.book slots v.resting
  requests : plains (s.engine.held ++ s.requests) = plainRequests undone
  events : eventsIn s.log ++ (s.outbound.held ++ s.events ++ s.engine.unsent).map (·.toEvent) = eventsOf done

/-- What the outbound thread did after `pre` was right: an event came after the notes for its
orders, and was answered as the records of all notes have it. -/
def Right (all : List GatewayNote) (pre : List Said) : Said → Prop
  | .note note r => ∃ timestamp, r = rejection timestamp note
  | .event e r => Known (recordsOf (applied pre)) e ∧ ∃ timestamp, r = answer (recordsOf all) e timestamp

/-- The responder follows the lives of the orders, as far as the events it has handled. -/
structure Responds (all : List GatewayNote) (s : Threads) (L : ℕ → Life) : Prop where
  tracks : s.responder.Tracks (recordsOf (applied s.log)) L
  lives : ∀ id, Life.follow id .unborn (eventsIn s.log) = some (L id)
  born : ∀ id, L id ≠ .unborn → (recordsOf (applied s.log) id).isSome
  ready : ∀ k event, s.outbound = .answer k event → Known (recordsOf (applied s.log)) event.toEvent
  said : ∀ pre x post, s.log = pre ++ x :: post → Right all pre x

/-- The threads are on their way through the run that becomes `handled`. -/
structure Threads.At (n : ℕ) (g' : Gateway) (v' : GatewayView) (handled : List Handled) (s : Threads)
    (done undone current rest : List Handled) (L : ℕ → Life) : Prop where
  cut : handled = done ++ undone ++ current ++ rest
  reads : Reads n g' v' s (done ++ undone) current rest
  matched : Matches n g' v' s done undone (current ++ rest)
  responds : Responds (notesOf handled) s L

def Threads.Inv (n : ℕ) (g' : Gateway) (v' : GatewayView) (handled : List Handled) (s : Threads) : Prop :=
  ∃ done undone current rest L, s.At n g' v' handled done undone current rest L

section

variable {n : ℕ} {g g' : Gateway} {v v' : GatewayView} {ms : List Inbound} {handled : List Handled} {s : Threads}
  {done undone current rest : List Handled} {L : ℕ → Life}

/-- If the notes ring is empty, the notes of the messages that were pushed whole have been
taken. -/
theorem Reads.notes_isPrefix {sent : List Handled} (h : Reads n g' v' s sent current rest) (hnil : s.notes = []) :
    notesOf sent <+: applied s.log := by
  have hnotes := h.notes
  rw [hnil, List.append_nil, notesOf_append] at hnotes
  rcases h.note with hn | hn
  · rw [hn, Option.toList_none, List.append_nil] at hnotes
    exact ⟨_, hnotes.symm⟩
  · rw [hn] at hnotes
    rw [List.append_cancel_right hnotes]

/-- The notes taken are the first of the run. -/
theorem Threads.At.applied_isPrefix (h : s.At n g' v' handled done undone current rest L) :
    applied s.log ++ s.notes <+: notesOf handled := by
  refine ⟨s.note.toList ++ notesOf rest, ?_⟩
  rw [← List.append_assoc, h.reads.notes, ← notesOf_append, h.cut]

/-! ## The inbound thread -/

theorem Threads.At.pushNote (h : s.At n g' v' handled done undone current rest L) {note : GatewayNote}
    (hnote : s.note = some note) : { s with notes := s.notes ++ [note], note := none }.Inv n g' v' handled := by
  obtain ⟨hcut, hr, hm, ha⟩ := h
  have hnotes := hr.notes
  rw [hnote] at hnotes
  refine ⟨done, undone, current, rest, L, hcut, ⟨hr.trail, ?_, .inl rfl, hr.request⟩,
    ⟨hm.trail, hm.requests, hm.events⟩, ⟨ha.tracks, ha.lives, ha.born, ha.ready, ha.said⟩⟩
  simpa using hnotes

/-- Without a note to push, `current` has nothing more for the outbound thread. -/
theorem Threads.At.noted (h : s.At n g' v' handled done undone current rest L) (hnote : s.note = none) :
    applied s.log ++ s.notes = notesOf (done ++ (undone ++ current)) := by
  rw [← List.append_assoc, ← h.reads.notes, hnote, Option.toList_none, List.append_nil]

theorem Threads.At.pushRequest (h : s.At n g' v' handled done undone current rest L) (hnote : s.note = none)
    {request : TimedRequest} (hrequest : s.request = some request) :
    { s with requests := s.requests ++ [request], request := none }.Inv n g' v' handled := by
  have hnotes := h.noted hnote
  obtain ⟨hcut, hr, ⟨⟨g, v, ms, slots, ht, hrep⟩, hrequests, hevents⟩, ha⟩ := h
  have hreq := hr.request
  rw [hrequest] at hreq
  refine ⟨done, undone ++ current, [], rest, L, by simp [hcut], ⟨hr.trail, ?_, .inl hnote, rfl⟩,
    ⟨⟨g, v, ms, slots, by simpa using ht, hrep⟩, ?_, hevents⟩, ⟨ha.tracks, ha.lives, ha.born, ha.ready, ha.said⟩⟩
  · simpa [hnote] using hnotes
  · rw [plainRequests_append, ← hrequests, hreq, ← plains_append, List.append_assoc]
    rfl

/-- The next message is translated as it is in the run. -/
theorem Threads.At.read (h : s.At n g' v' handled done undone current rest L) (hnote : s.note = none)
    (hrequest : s.request = none) {m : Inbound} {left : List Inbound} (hleft : s.left = m :: left) :
    ∃ s', s.inboundStep = some s' ∧ s'.Inv n g' v' handled := by
  have hnotes := h.noted hnote
  obtain ⟨hcut, ⟨⟨g₁, v₁, htr, hentry⟩, -, -, hreq⟩, ⟨⟨g, v, ms, slots, ht, hrep⟩, hrequests, hevents⟩, ha⟩ := h
  rw [hrequest] at hreq
  rw [hleft] at htr
  cases htr with
  | @cons _ g₂ _ _ v₂ _ _ _ hd rest' hok ho htr =>
    have htrans := ho.translated
    rw [ho.call.1, ho.call.2, ← hentry] at htrans
    refine ⟨{ s with
      left := left
      entry := g₂.entry
      note := hd.translation.note
      request := hd.translation.request.map fun request => (Gateway.stamp m request, m.enginePopTsc) }, ?_,
      done, undone ++ current, [hd], rest', L, by simp [hcut], ⟨⟨g₂, v₂, htr, rfl⟩, ?_, ?_, ?_⟩,
      ⟨⟨g, v, ms, slots, by simpa using ht, hrep⟩, ?_, hevents⟩, ⟨ha.tracks, ha.lives, ha.born, ha.ready, ha.said⟩⟩
    · simp only [Threads.inboundStep, hnote, hrequest, hleft, htrans, Option.bind_eq_bind, Option.bind_some]
    · rw [notesOf_append _ [hd], notesOf_singleton, ← hnotes]
    · exact .inr (notesOf_singleton hd)
    · cases h : hd.translation.request <;> simp [plainRequests, plains, h]
      rfl
    · rw [plainRequests_append, hreq, ← hrequests]
      exact (List.append_nil _).symm

theorem Threads.Inv.inbound (h : s.Inv n g' v' handled) : ∃ s', s.inboundStep = some s' ∧ s'.Inv n g' v' handled := by
  have hsame := h
  obtain ⟨done, undone, current, rest, L, hat⟩ := h
  cases hnote : s.note with
  | some note =>
    cases hpush : RingBuffer.push s.notes note with
    | none => exact ⟨s, by simp only [Threads.inboundStep, hnote, hpush], hsame⟩
    | some notes =>
      obtain rfl := RingBuffer.push_eq hpush
      exact ⟨_, by simp only [Threads.inboundStep, hnote, hpush], hat.pushNote hnote⟩
  | none =>
    cases hrequest : s.request with
    | some request =>
      cases hpush : RingBuffer.push s.requests request with
      | none => exact ⟨s, by simp only [Threads.inboundStep, hnote, hrequest, hpush], hsame⟩
      | some requests =>
        obtain rfl := RingBuffer.push_eq hpush
        exact ⟨_, by simp only [Threads.inboundStep, hnote, hrequest, hpush], hat.pushRequest hnote hrequest⟩
    | none =>
      cases hleft : s.left with
      | nil => exact ⟨s, by simp only [Threads.inboundStep, hnote, hrequest, hleft], hsame⟩
      | cons m left => exact hat.read hnote hrequest hleft

/-! ## The matching thread -/

/-- The next request is that of the first message of `undone` that has one; what comes of it
are the message's events. -/
theorem Matches.execute (h : Matches n g' v' s done undone rest) {cur : TimedRequest} {nxt : Option TimedRequest}
    (hpc : s.engine = .execute cur nxt) :
    ∃ s' past undone', (∀ a, s.engineStep a = some s') ∧ undone = past ++ undone' ∧
      Matches n g' v' s' (done ++ past) undone' rest ∧
      ∃ book engine, s' = { s with book := book, engine := engine } := by
  have hrequests := h.requests
  rw [hpc] at hrequests
  obtain ⟨skip, hd, undone', rfl, hskip, hreq, htail⟩ := List.filterMap_eq_cons_iff.mp hrequests.symm
  obtain ⟨g, v, ms, slots, ht, hrep⟩ := h.trail
  rw [List.append_assoc, List.cons_append] at ht
  obtain ⟨ms₁, g₁, v₁, m, g₂, v₂, ms₂, -, hpre, ho, hpost⟩ := ht.split
  obtain ⟨hrest, hnil⟩ := hpre.quiet (List.filterMap_eq_nil_iff.mpr hskip)
  have hok := hpre.ok.2
  obtain ⟨req, hreq, hplain⟩ := Option.map_eq_some_iff.mp hreq
  have hprice : Spec.PriceOk cur.1 := priceOk_congr hplain (ho.becomes.priceOk hok.band hreq)
  have hstep : hd.step n v₁.resting = Spec.process n v₁.resting cur.1 := by
    rw [Handled.step, hreq]
    exact process_congr hplain
  rw [← hrest] at hrep
  obtain ⟨book', slots', hproc, hrep', hring, -⟩ := process_ok hrep hok.linked.wf hprice cur.2
  have hevents := h.events
  rw [hpc] at hevents
  refine ⟨{ s with book := book', engine := .emit (book'.out.outRing.drop s.book.out.outRing.length) nxt },
    skip ++ [hd], undone', fun a => ?_, List.append_cons .., ⟨⟨g₂, v₂, ms₂, slots', hpost, ?_⟩, htail.symm, ?_⟩,
    _, _, rfl⟩
  · simp only [Threads.engineStep, hpc, Engine.executeRequest, hproc a, Option.bind_eq_bind, Option.bind_some]
  · rw [ho.resting, hstep]
    exact hrep'
  · have hpushed : (book'.out.outRing.drop s.book.out.outRing.length).map (·.toEvent) = eventsOf [hd] := by
      rw [List.map_drop_left hring, ← hstep, ← ho.events, eventsOf, List.flatMap_singleton]
    rw [← List.append_assoc, eventsOf_append, eventsOf_append, hnil, List.append_nil, ← hevents]
    simp [EnginePc.unsent, hpushed]

theorem Threads.Inv.engine (h : s.Inv n g' v' handled) :
    ∃ s', (∀ a, s.engineStep a = some s') ∧ s'.Inv n g' v' handled := by
  obtain ⟨done, undone, current, rest, L, hcut, hr, hm, ha⟩ := h
  have hsame : s.Inv n g' v' handled := ⟨done, undone, current, rest, L, hcut, hr, hm, ha⟩
  have hrequests := hm.requests
  have hevents := hm.events
  -- a step that leaves the book alone
  have hkeep : ∀ requests engine events, plains (engine.held ++ requests) = plains (s.engine.held ++ s.requests) →
      events ++ engine.unsent = s.events ++ s.engine.unsent →
      { s with requests := requests, engine := engine, events := events }.Inv n g' v' handled := by
    intro requests engine events hreq hev
    refine ⟨done, undone, current, rest, L, hcut, ⟨hr.trail, hr.notes, hr.note, hr.request⟩,
      ⟨hm.trail, hreq.trans hrequests, ?_⟩, ⟨ha.tracks, ha.lives, ha.born, ha.ready, ha.said⟩⟩
    rw [← hevents, List.append_assoc, hev, List.append_assoc]
  cases hpc : s.engine with
  | poll =>
    rw [hpc] at hkeep
    cases hring : s.requests with
    | nil => exact ⟨s, fun a => by simp only [Threads.engineStep, hpc, hring], hsame⟩
    | cons cur requests =>
      exact ⟨_, fun a => by simp only [Threads.engineStep, hpc, hring],
        hkeep requests (.peek cur) s.events (by rw [hring]; rfl) rfl⟩
  | peek cur =>
    rw [hpc] at hkeep
    refine ⟨_, fun a => by simp only [Threads.engineStep, hpc],
      hkeep s.requests.tail (.execute cur s.requests.head?) s.events ?_ rfl⟩
    cases s.requests <;> rfl
  | execute cur nxt =>
    obtain ⟨s', past, undone', hstep, rfl, hm', book, engine, rfl⟩ := hm.execute hpc
    exact ⟨_, hstep, done ++ past, undone', current, rest, L, by simp [hcut],
      ⟨hr.trail, by simpa using hr.notes, hr.note, hr.request⟩, hm',
      ⟨ha.tracks, ha.lives, ha.born, ha.ready, ha.said⟩⟩
  | emit events nxt =>
    rw [hpc] at hkeep
    cases events with
    | nil =>
      refine ⟨_, fun a => by simp only [Threads.engineStep, hpc], hkeep s.requests (EnginePc.next nxt) s.events ?_ ?_⟩
      · rw [EnginePc.held_next]
        rfl
      · rw [EnginePc.unsent_next]
        rfl
    | cons event events =>
      cases hpush : RingBuffer.push s.events event with
      | none => exact ⟨s, fun a => by simp only [Threads.engineStep, hpc, hpush], hsame⟩
      | some ring =>
        obtain rfl := RingBuffer.push_eq hpush
        refine ⟨_, fun a => by simp only [Threads.engineStep, hpc, hpush],
          hkeep s.requests (.emit events nxt) (s.events ++ [event]) rfl ?_⟩
        exact (List.append_cons ..).symm

/-! ## The outbound thread -/

theorem applied_concat_note (log : List Said) (note : GatewayNote) (r : Option OuchResponse) :
    applied (log ++ [.note note r]) = applied log ++ [note] := List.filterMap_append

theorem applied_concat_event (log : List Said) (e : Event) (r : Option OuchResponse) :
    applied (log ++ [.event e r]) = applied log := List.filterMap_append.trans (List.append_nil _)

theorem eventsIn_concat_note (log : List Said) (note : GatewayNote) (r : Option OuchResponse) :
    eventsIn (log ++ [.note note r]) = eventsIn log := by
  simp [eventsIn, answered]

theorem eventsIn_concat_event (log : List Said) (e : Event) (r : Option OuchResponse) :
    eventsIn (log ++ [.event e r]) = eventsIn log ++ [e] := by
  simp [eventsIn, answered]

/-- No event has named the order of a note that has not been taken. -/
theorem Threads.At.unborn (hall : Trail n g v ms g' v' handled) (h : s.At n g' v' handled done undone current rest L)
    {note : GatewayNote} {notes : List GatewayNote} (hring : s.notes = note :: notes) {id : ℕ}
    (hid : noteId note = some id) : L id = .unborn := by
  by_contra hL
  have hborn := recordsOf_isSome.mp (h.responds.born id hL)
  have hpre := h.applied_isPrefix
  rw [hring, List.append_cons] at hpre
  have hnodup := hall.noteIds.2.sublist (((List.prefix_append _ _).trans hpre).sublist.filterMap noteId)
  rw [List.filterMap_append, List.nodup_append] at hnodup
  exact hnodup.2.2 id hborn id (by simp [hid]) rfl

theorem Threads.At.onNote (hall : Trail n g v ms g' v' handled)
    (h : s.At n g' v' handled done undone current rest L) {note : GatewayNote} {notes : List GatewayNote}
    (hring : s.notes = note :: notes) (hpc : ∀ k event, s.outbound ≠ .answer k event) (noteClock : ℕ → UInt64) :
    (s.onNote noteClock note notes).At n g' v' handled done undone current rest L := by
  obtain ⟨hcut, hr, hm, ha⟩ := h
  have hL : ∀ id, noteId note = some id → L id = .unborn := fun id hid =>
    Threads.At.unborn hall ⟨hcut, hr, hm, ha⟩ hring hid
  have hnotes := hr.notes
  rw [hring, List.append_cons] at hnotes
  refine ⟨hcut, ⟨hr.trail, ?_, hr.note, hr.request⟩, ⟨hm.trail, hm.requests, ?_⟩, ?_, fun id => ?_, fun id hid => ?_,
    fun k event he => absurd he (hpc k event), ?_⟩
  · exact (congrArg (· ++ notes ++ s.note.toList) (applied_concat_note ..)).trans hnotes
  · exact (congrArg (· ++ _) (eventsIn_concat_note ..)).trans hm.events
  · show OuchResponder.Tracks _ (recordsOf (applied (_ ++ [_]))) L
    rw [applied_concat_note, recordsOf_concat]
    exact ha.tracks.onNote hL _
  · exact (congrArg _ (eventsIn_concat_note ..)).trans (ha.lives id)
  · show (recordsOf (applied (_ ++ [_])) id).isSome
    rw [applied_concat_note, recordsOf_isSome, List.filterMap_append]
    exact List.mem_append_left _ (recordsOf_isSome.mp (ha.born id hid))
  · exact List.forall_split_concat ha.said ⟨_, OuchResponder.onNote_snd ..⟩

/-- The event that is about to be handled is the next in the orders' lives. -/
theorem Threads.At.step (hall : Trail n g v ms g' v' handled) (hlives : ∀ id, v.lives id = .unborn)
    (h : s.At n g' v' handled done undone current rest L) {k : ℕ} {event : EngineEvent}
    (hpc : s.outbound = .answer k event) (id : ℕ) : ∃ l, Life.step id (L id) event.toEvent = some l := by
  have hevents := h.matched.events
  rw [hpc] at hevents
  have hfollow := hall.lives id
  rw [hlives, h.cut, eventsOf_append, eventsOf_append, eventsOf_append, ← hevents, List.append_assoc, List.append_assoc,
    List.append_assoc, Life.follow_append, h.responds.lives id, Option.bind_some] at hfollow
  rw [OutboundPc.held, List.append_assoc, List.singleton_append, List.map_cons, List.cons_append,
    Life.follow_cons] at hfollow
  obtain ⟨l, hl, -⟩ := Option.bind_eq_some_iff.mp hfollow
  exact ⟨l, hl⟩

theorem Threads.At.onEvent (hall : Trail n g v ms g' v' handled) (hlives : ∀ id, v.lives id = .unborn)
    (h : s.At n g' v' handled done undone current rest L) {k : ℕ} {event : EngineEvent}
    (hpc : s.outbound = .answer k event) (clock : ℕ → UInt64) :
    { s.onEvent clock event with outbound := .poll (k + 1) }.Inv n g' v' handled := by
  choose L' hstep using h.step hall hlives hpc
  have hpre : applied s.log <+: notesOf handled := (List.prefix_append _ _).trans h.applied_isPrefix
  obtain ⟨hcut, hr, hm, ha⟩ := h
  have hk := ha.ready k event hpc
  obtain ⟨responder, hon, hT⟩ := onEvent_ok ha.tracks hstep hk (clock event.enginePushTsc)
  have hans := hk.answer_eq (fun id r => recordsOf_mono hall.noteIds.2 hpre List.prefix_rfl)
    (clock event.enginePushTsc)
  have hevents := hm.events
  rw [hpc] at hevents
  simp only [Threads.onEvent, hon]
  refine ⟨done, undone, current, rest, L', hcut, ⟨hr.trail, ?_, hr.note, hr.request⟩, ⟨hm.trail, hm.requests, ?_⟩,
    ?_, fun id => ?_, fun id hid => ?_, fun _ _ he => (by cases he), ?_⟩
  · rw [applied_concat_event]
    exact hr.notes
  · rw [eventsIn_concat_event, ← hevents]
    simp [OutboundPc.held]
  · rw [applied_concat_event]
    exact hT
  · rw [eventsIn_concat_event, Life.follow_append, ha.lives id, Option.bind_some, Life.follow_singleton]
    exact hstep id
  · rw [applied_concat_event]
    by_cases hid₁ : event.orderId = id
    · obtain ⟨r, hr, -⟩ := hk.record
      exact hid₁ ▸ Option.isSome_iff_exists.mpr ⟨r, hr⟩
    · by_cases hid₂ : event.type = .replaced ∧ event.origOrderId = id
      · obtain ⟨r, hr, -⟩ := hk.orig hid₂.1
        exact hid₂.2 ▸ Option.isSome_iff_exists.mpr ⟨r, hr⟩
      · refine ha.born id fun hL => hid ((life_eq_of_ne hstep hid₁ ?_).trans hL)
        exact not_and_or.mp hid₂
  · exact List.forall_split_concat ha.said ⟨hk, _, hans.symm⟩

/-- What the outbound thread can do in a step. -/
inductive Threads.OutboundMoves (clock noteClock : ℕ → UInt64) (s : Threads) : Threads → Prop
  | note {note : GatewayNote} {notes : List GatewayNote} (hpc : ∀ k event, s.outbound ≠ .answer k event)
      (hring : s.notes = note :: notes) : OutboundMoves clock noteClock s (s.onNote noteClock note notes)
  | drained (hpc : s.outbound = .drain) (hring : s.notes = []) :
      OutboundMoves clock noteClock s { s with outbound := .poll 0 }
  | again {k : ℕ} (hpc : s.outbound = .poll k) (hring : s.events = [] ∨ outboundBatch ≤ k) :
      OutboundMoves clock noteClock s { s with outbound := .drain }
  | take {k : ℕ} {event : EngineEvent} {events : List EngineEvent} (hpc : s.outbound = .poll k) (hk : k < outboundBatch)
      (hring : s.events = event :: events) :
      OutboundMoves clock noteClock s { s with events := events, outbound := .catchUp k event }
  | caughtUp {k : ℕ} {event : EngineEvent} (hpc : s.outbound = .catchUp k event) (hring : s.notes = []) :
      OutboundMoves clock noteClock s { s with outbound := .answer k event }
  | answer {k : ℕ} {event : EngineEvent} (hpc : s.outbound = .answer k event) :
      OutboundMoves clock noteClock s { s.onEvent clock event with outbound := .poll (k + 1) }

theorem Threads.outboundStep_moves (clock noteClock : ℕ → UInt64) (s : Threads) :
    s.OutboundMoves clock noteClock (s.outboundStep clock noteClock) := by
  cases hpc : s.outbound with
  | drain =>
    cases hring : s.notes with
    | nil =>
      rw [show s.outboundStep clock noteClock = { s with outbound := .poll 0 } by
        simp only [outboundStep, hpc, hring]]
      exact .drained hpc hring
    | cons note notes =>
      rw [show s.outboundStep clock noteClock = s.onNote noteClock note notes by
        simp only [outboundStep, hpc, hring]]
      exact .note (by simp [hpc]) hring
  | poll k =>
    by_cases hk : k < outboundBatch
    · cases hring : s.events with
      | nil =>
        rw [show s.outboundStep clock noteClock = { s with outbound := .drain } by
          simp only [outboundStep, hpc, if_pos hk, hring]]
        exact .again hpc (.inl hring)
      | cons event events =>
        rw [show s.outboundStep clock noteClock = { s with events := events, outbound := .catchUp k event } by
          simp only [outboundStep, hpc, if_pos hk, hring]]
        exact .take hpc hk hring
    · rw [show s.outboundStep clock noteClock = { s with outbound := .drain } by
        simp only [outboundStep, hpc, if_neg hk]]
      exact .again hpc (.inr (Nat.not_lt.mp hk))
  | catchUp k event =>
    cases hring : s.notes with
    | nil =>
      rw [show s.outboundStep clock noteClock = { s with outbound := .answer k event } by
        simp only [outboundStep, hpc, hring]]
      exact .caughtUp hpc hring
    | cons note notes =>
      rw [show s.outboundStep clock noteClock = s.onNote noteClock note notes by
        simp only [outboundStep, hpc, hring]]
      exact .note (by simp [hpc]) hring
  | answer k event =>
    rw [show s.outboundStep clock noteClock = { s.onEvent clock event with outbound := .poll (k + 1) } by
      simp only [outboundStep, hpc]]
    exact .answer hpc

theorem Threads.Inv.outbound (hall : Trail n g v ms g' v' handled) (hrecs : v.recs = fun _ => none)
    (hlives : ∀ id, v.lives id = .unborn) (h : s.Inv n g' v' handled) (clock noteClock : ℕ → UInt64) :
    (s.outboundStep clock noteClock).Inv n g' v' handled := by
  obtain ⟨done, undone, current, rest, L, hcut, hr, hm, ha⟩ := h
  have hat : s.At n g' v' handled done undone current rest L := ⟨hcut, hr, hm, ha⟩
  have hevents := hm.events
  -- a step that takes an event at most
  have hmove : ∀ events pc, pc.held ++ events = s.outbound.held ++ s.events →
      (∀ k event, pc = .answer k event → Known (recordsOf (applied s.log)) event.toEvent) →
      { s with events := events, outbound := pc }.Inv n g' v' handled := by
    intro events pc hev hready
    refine ⟨done, undone, current, rest, L, hcut, ⟨hr.trail, hr.notes, hr.note, hr.request⟩,
      ⟨hm.trail, hm.requests, ?_⟩, ⟨ha.tracks, ha.lives, ha.born, hready, ha.said⟩⟩
    rw [hev]
    exact hevents
  have hmoves := s.outboundStep_moves clock noteClock
  generalize s.outboundStep clock noteClock = s' at hmoves
  cases hmoves with
  | note hpc hring => exact ⟨done, undone, current, rest, L, hat.onNote hall hring hpc noteClock⟩
  | drained hpc => exact hmove s.events (.poll 0) (by rw [hpc]; rfl) nofun
  | again hpc => exact hmove s.events .drain (by rw [hpc]; rfl) nofun
  | take hpc hk hring => exact hmove _ (.catchUp _ _) (by rw [hpc, hring]; rfl) nofun
  | @caughtUp k event hpc hring =>
    -- the event is one of `done`, whose notes have all been taken
    rw [hpc] at hevents
    have hmem : event.toEvent ∈ eventsOf done := by
      rw [← hevents]
      simp [OutboundPc.held]
    have hsent := hr.notes_isPrefix hring
    rw [notesOf_append] at hsent
    have hpre : applied s.log <+: notesOf handled := (List.prefix_append _ _).trans hat.applied_isPrefix
    rw [hcut, List.append_assoc, List.append_assoc] at hall hpre
    refine hmove s.events (.answer k event) (by rw [hpc]; rfl) fun k' event' he => ?_
    cases he
    exact hall.known hrecs ((List.prefix_append _ _).trans hsent) hpre hmem
  | answer hpc => exact hat.onEvent hall hlives hpc clock

end

end Exchange
