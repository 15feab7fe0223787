import Exchange.Framework.Filter
import Exchange.Proof.Client.Acts

/-!
# A client and the clock

`Beat` says what the acts of a client have to do with the calls of the clock: the end of a
connection is timed by two of them, and so is a message, if there is a time between two messages.
Nothing else ends a connection, queues a message or sets the time of the next one (`Quiet`). While
a client acts, the clock goes on for the others (`Beats.others`), so clients that take their turns
come to beats one by one (`AllBeats`).
-/

namespace Exchange

open Spec (eventsLogged messagesQueued)

/-- The clock does not go back. -/
theorem Kernel.time_le {k k' : Kernel} {n : ℕ} (hk : k'.clock = fun i => k.clock (i + n)) : k.time ≤ k'.time := by
  rw [Kernel.time, Kernel.time, hk]
  exact k.clock_mono (Nat.zero_le _)

namespace LoadClient

variable {c c' c'' : LoadClient} {interArrivalNs : ℕ}

/-- The connection has not ended meanwhile. -/
def GoesOn (c c' : LoadClient) : Prop :=
  ∃ more, c'.log = c.log ++ more ∧ ∀ m ∈ more, ∀ time, m.event ≠ .closed time

/-- No connection has ended, no message is queued, and the time of the next one is the same. -/
structure Quiet (c c' : LoadClient) : Prop where
  goesOn : GoesOn c c'
  messages : messagesQueued c'.events = messagesQueued c.events
  slot : c'.nextSendNs = c.nextSendNs

/-- What happens to a client, and the calls of the clock that it takes. -/
inductive Beat (interArrivalNs : ℕ) : LoadClient × Kernel → LoadClient × Kernel → Prop
  | wait {c : LoadClient} {k k' : Kernel} (n : ℕ) (hk : k'.clock = fun i => k.clock (i + n)) :
      Beat interArrivalNs (c, k) (c, k')
  | act {c c' : LoadClient} {k : Kernel} (ha : Act (c, k.time) (c', k.time)) (hq : Quiet c c') :
      Beat interArrivalNs (c, k) (c', k)
  | close {c : LoadClient} {k : Kernel} (hfd : c.fd ≠ none) (hs : c.Stopped) : Beat interArrivalNs (c, k)
      ({ c with toClientState := c.toClientState.reconnect (k.clock 1), interest := none }.record (.closed k.time),
        k.tick.2.tick.2)
  /-- One message at most, when the time of the last one is over. -/
  | message {c c' : LoadClient} {k k' : Kernel} (hk : k'.clock = fun i => k.clock (i + 2))
      (ha : Acts (c, k.time) (c', k.time)) (hdue : c.nextSendNs ≤ k.time) (hon : GoesOn c c')
      (hone : (messagesQueued c'.events).length ≤ (messagesQueued c.events).length + 1)
      (hslot : c'.nextSendNs = k.clock 1 + interArrivalNs) : Beat interArrivalNs (c, k) (c', k')
  /-- Messages without a time between them. -/
  | burst {c c' : LoadClient} {k k' : Kernel} (hk : k'.clock = fun i => k.clock (i + 0))
      (ha : Acts (c, k.time) (c', k.time)) (hrate : interArrivalNs = 0) (hon : GoesOn c c') :
      Beat interArrivalNs (c, k) (c', k')

abbrev Beats (interArrivalNs : ℕ) : LoadClient × Kernel → LoadClient × Kernel → Prop :=
  Relation.ReflTransGen (Beat interArrivalNs)

theorem GoesOn.of_log (h : c'.log = c.log) : GoesOn c c' := ⟨[], by rw [h, List.append_nil], nofun⟩

theorem GoesOn.trans (h : GoesOn c c') (h' : GoesOn c' c'') : GoesOn c c'' := by
  obtain ⟨more, e, hmore⟩ := h
  obtain ⟨more', e', hmore'⟩ := h'
  refine ⟨more ++ more', by rw [e', e, List.append_assoc], fun m hm => ?_⟩
  exact (List.mem_append.mp hm).elim (hmore m) (hmore' m)

theorem GoesOn.record {x : LoadClient} {e : ClientEvent} (hx : x.log = c.log) (he : ∀ time, e ≠ .closed time) :
    GoesOn c (x.record e) := by
  refine ⟨[⟨e, x.toClientState, x.writeBuf⟩], by rw [record_log, hx], fun m hm => ?_⟩
  rw [List.mem_singleton.mp hm]
  exact he

theorem GoesOn.queue {x : LoadClient} (hx : x.log = c.log) (item : Queued) (packet : List UInt8) :
    GoesOn c (x.queue item packet) := by
  unfold LoadClient.queue
  exact .record hx fun time => by split <;> nofun

theorem messagesQueued_concat (events : List ClientEvent) (e : ClientEvent) :
    messagesQueued (events ++ [e]) = messagesQueued events ++ messagesQueued [e] := List.filterMap_append

theorem Quiet.trans (h : Quiet c c') (h' : Quiet c' c'') : Quiet c c'' :=
  ⟨h.goesOn.trans h'.goesOn, h'.messages.trans h.messages, h'.slot.trans h.slot⟩

theorem Quiet.record {x : LoadClient} {e : ClientEvent} (hx : x.log = c.log) (hn : x.nextSendNs = c.nextSendNs)
    (he : ∀ time, e ≠ .closed time) (hmsg : messagesQueued [e] = []) : Quiet c (x.record e) := by
  refine ⟨.record hx he, ?_, hn⟩
  rw [record_events, messagesQueued_concat, hmsg, List.append_nil, events, hx]
  rfl

theorem Quiet.queue {x : LoadClient} {item : Queued} (hx : x.log = c.log) (hn : x.nextSendNs = c.nextSendNs)
    (hitem : ∀ packet, messagesQueued [.queued item packet] = []) (packet : List UInt8) :
    Quiet c (x.queue item packet) := by
  unfold LoadClient.queue
  refine .record hx hn (fun time => by split <;> nofun) ?_
  split
  · exact hitem packet
  · rfl

variable {p q : LoadClient × Kernel}

theorem Beat.calls (h : Beat interArrivalNs p q) : ∃ n, q.2.clock = fun i => p.2.clock (i + n) := by
  cases h with
  | wait n hk => exact ⟨n, hk⟩
  | act _ _ => exact ⟨0, rfl⟩
  | close _ _ => exact ⟨2, rfl⟩
  | message hk _ _ _ _ _ => exact ⟨2, hk⟩
  | burst hk _ _ _ => exact ⟨0, hk⟩

theorem Beat.le (h : Beat interArrivalNs p q) : p.2.time ≤ q.2.time := Kernel.time_le h.calls.choose_spec

theorem Beat.acts (h : Beat interArrivalNs p q) : Acts (p.1, p.2.time) (q.1, q.2.time) := by
  have hle := h.le
  cases h with
  | wait n hk => exact .single (.wait hle)
  | act ha _ => exact .single ha
  | @close _ k hfd hs =>
    exact .tail (.single (.close hfd hs (k.clock_mono (Nat.zero_le 1)))) (.wait (k.clock_mono (Nat.le_succ 1)))
  | message _ ha _ _ _ _ => exact ha.tail (.wait hle)
  | burst _ ha _ _ => exact ha.tail (.wait hle)

theorem Beats.acts (h : Beats interArrivalNs p q) : Acts (p.1, p.2.time) (q.1, q.2.time) := by
  induction h with
  | refl => exact .refl
  | tail _ hb ih => exact ih.trans hb.acts

/-- While something happens to a client, the clock goes on for the others. -/
theorem Beats.others (h : Beats interArrivalNs p q) (d : LoadClient) : Beats interArrivalNs (d, p.2) (d, q.2) := by
  induction h with
  | refl => exact .refl
  | tail _ hb ih => exact ih.tail (.wait _ hb.calls.choose_spec)

end LoadClient

namespace LoadGenerator

open LoadClient (Beats)

variable {interArrivalNs : ℕ} {p q r : List LoadClient × Kernel}

/-- The clients come to beats one by one, with the same calls of the clock. -/
structure AllBeats (interArrivalNs : ℕ) (p q : List LoadClient × Kernel) : Prop where
  clock : ∀ d, Beats interArrivalNs (d, p.2) (d, q.2)
  clients : List.Forall₂ (fun c c' => Beats interArrivalNs (c, p.2) (c', q.2)) p.1 q.1

theorem AllBeats.wait {k k' : Kernel} (n : ℕ) (hk : k'.clock = fun i => k.clock (i + n)) (clients : List LoadClient) :
    AllBeats interArrivalNs (clients, k) (clients, k') :=
  ⟨fun _ => .single (.wait n hk), List.forall₂_same.mpr fun _ _ => .single (.wait n hk)⟩

theorem AllBeats.refl (p : List LoadClient × Kernel) : AllBeats interArrivalNs p p := .wait 0 rfl p.1

theorem AllBeats.trans (h : AllBeats interArrivalNs p q) (h' : AllBeats interArrivalNs q r) :
    AllBeats interArrivalNs p r :=
  ⟨fun d => (h.clock d).trans (h'.clock d), h.clients.comp (fun _ _ _ hc hc' => hc.trans hc') h'.clients⟩

theorem AllBeats.le (h : AllBeats interArrivalNs p q) : p.2.time ≤ q.2.time := (h.clock { clientId := 0 }).acts.le

theorem AllBeats.of_mem (h : AllBeats interArrivalNs p q) {c' : LoadClient} (hc' : c' ∈ q.1) :
    ∃ c ∈ p.1, Beats interArrivalNs (c, p.2) (c', q.2) := by
  obtain ⟨i, hi, rfl⟩ := List.getElem_of_mem hc'
  have hi' : i < p.1.length := h.clients.length_eq ▸ hi
  exact ⟨p.1[i], List.getElem_mem hi', h.clients.get hi' hi⟩

end LoadGenerator

end Exchange
