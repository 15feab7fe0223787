import Exchange.Spec.Client
import Mathlib.Logic.Relation

/-!
# What a client does

`Act` says once what a client of the load generator can do, and when; every function of
the event loop comes to some acts, one after the other, so a client of a run is `Reached`
by acts. What holds of the reached clients holds at every moment of a log, since a moment
is the end of an act (`Reached.moment`).

Between the functions a client is `Idle`: it has handled the packets it has, and its
socket is polled for what it waits for.
-/

namespace Exchange

open Spec (eventsLogged connectionOf connectionAfter)

/-! ## Messages of the order factory -/

namespace OrderFactory

/-- What the order factory builds. -/
theorem buildMessage_cases {d : Draw} {ref : UInt32} {target : Option Target} {kind : FrameKind}
    {msg : OuchInboundFrame} (h : buildMessage d ref target = (kind, msg)) :
    (kind = .enter ∧ msg = .enterOrder (makeEnter d ref)) ∨ (∃ t, kind = .cancel ∧ msg = .cancelOrder (makeCancel t)) ∨
      ∃ t, kind = .replace ∧ msg = .replaceOrder (makeReplace d ref t) := by
  unfold buildMessage at h
  split at h
  · cases h
    exact .inl ⟨rfl, rfl⟩
  · next t =>
    split at h
    · cases h
      exact .inl ⟨rfl, rfl⟩
    · split at h <;> cases h
      · exact .inr (.inl ⟨t, rfl, rfl⟩)
      · exact .inr (.inr ⟨t, rfl, rfl⟩)

end OrderFactory

namespace LoadClient

open OrderFactory (FrameKind buildMessage)

variable {c : LoadClient} {t : ℕ}

/-! ## Records -/

@[simp] theorem record_toClientState (c : LoadClient) (e : ClientEvent) :
    (c.record e).toClientState = c.toClientState := rfl
@[simp] theorem record_writeBuf (c : LoadClient) (e : ClientEvent) : (c.record e).writeBuf = c.writeBuf := rfl
theorem record_log (c : LoadClient) (e : ClientEvent) :
    (c.record e).log = c.log ++ [⟨e, c.toClientState, c.writeBuf⟩] := rfl

/-- The log of `c'` is that of `c` and one moment, which has the state of `c'`. -/
def Recorded (c c' : LoadClient) : Prop :=
  ∃ event, c'.log = c.log ++ [⟨event, c'.toClientState, c'.writeBuf⟩]

theorem Recorded.of_log {c₀ c c' : LoadClient} (h : Recorded c c') (e : c.log = c₀.log) : Recorded c₀ c' := by
  rwa [Recorded, ← e]

theorem recorded_record {c c' : LoadClient} (h : c'.log = c.log) (e : ClientEvent) : Recorded c (c'.record e) :=
  ⟨e, by rw [record_log, h, record_toClientState, record_writeBuf]⟩

/-! A packet that is queued changes the write buffer and the log. -/

theorem queue_recorded (c : LoadClient) (item : Queued) (packet : List UInt8) : Recorded c (c.queue item packet) :=
  ⟨_, rfl⟩

theorem queue_of_hasRoom {packet : List UInt8} (h : c.writeBuf.hasRoom packet.length = true) (item : Queued) :
    c.queue item packet = { c with writeBuf := { c.writeBuf with data := c.writeBuf.data ++ packet } }.record
      (.queued item packet) := by
  rw [queue, WriteBuffer.append, if_pos h]
  rfl

theorem queue_of_not_hasRoom {packet : List UInt8} (h : c.writeBuf.hasRoom packet.length = false) (item : Queued) :
    c.queue item packet = c.record .refused := by
  rw [queue, WriteBuffer.append, if_neg (ne_true_of_eq_false h)]
  rfl

/-- What counting a message changes. -/
theorem count_eq (c : LoadClient) (kind : FrameKind) : ∃ ref acks flight read, c.count kind = { c with
    nextUserRefNum := ref, acksPending := acks, ordersInFlight := flight, activeRead := read,
    requestsSent := c.requestsSent + 1 } := by
  cases kind <;> exact ⟨_, _, _, _, rfl⟩

theorem count_log (c : LoadClient) (kind : FrameKind) : (c.count kind).log = c.log := by
  cases kind <;> rfl

theorem count_writeBuf (c : LoadClient) (kind : FrameKind) : (c.count kind).writeBuf = c.writeBuf := by
  cases kind <;> rfl

theorem eventsLogged_append (log log' : List Moment) :
    eventsLogged (log ++ log') = eventsLogged log ++ eventsLogged log' :=
  List.map_append

/-- What has happened. -/
def events (c : LoadClient) : List ClientEvent := eventsLogged c.log

/-- What has happened on the current connection. -/
def conn (c : LoadClient) : List ClientEvent := connectionOf c.events

@[simp] theorem record_events (c : LoadClient) (e : ClientEvent) : (c.record e).events = c.events ++ [e] :=
  eventsLogged_append _ _

/-- A packet that is queued is recorded, or that there was no room. -/
theorem queue_events {events : List ClientEvent} (he : c.events = events) (item : Queued) (packet : List UInt8) :
    (c.queue item packet).events = events ++ [.queued item packet] ∨
      (c.queue item packet).events = events ++ [.refused] := by
  subst he
  cases hroom : c.writeBuf.hasRoom packet.length with
  | true => exact .inl (queue_of_hasRoom hroom item ▸ record_events _ _)
  | false => exact .inr (queue_of_not_hasRoom hroom item ▸ record_events _ _)

theorem conn_concat {c' : LoadClient} {e : ClientEvent} (h : c'.events = c.events ++ [e]) :
    c'.conn = connectionAfter c.conn e := by
  rw [conn, h, connectionOf, List.foldl_append]
  rfl

theorem record_conn (c : LoadClient) (e : ClientEvent) : (c.record e).conn = connectionAfter c.conn e :=
  conn_concat (record_events c e)

/-- Nothing more is passed on: the read buffer has no whole packet, or one was not taken. -/
def Stopped (c : LoadClient) : Prop :=
  (∀ packet n, parseSoupPacket c.readBuf.view ≠ .packet packet n) ∨ ∃ packet, .rejected packet ∈ c.conn

/-! ## Acts -/

/-- What happens to a client, and the time from then on. -/
inductive Act : LoadClient × ℕ → LoadClient × ℕ → Prop
  | wait {c : LoadClient} {t t' : ℕ} (h : t ≤ t') : Act (c, t) (c, t')
  | noSocket {c : LoadClient} {t : ℕ} (hfd : c.fd = none) (hdue : c.reconnectAtNs ≤ t) :
      Act (c, t) (c.record (.attempt t false), t)
  | noConnection {c : LoadClient} {t : ℕ} (fd : ℕ) (hfd : c.fd = none) (hdue : c.reconnectAtNs ≤ t) :
      Act (c, t) ({ c.opened fd with fd := none }.record (.attempt t false), t)
  | connect {c : LoadClient} {t : ℕ} (fd : ℕ) (hfd : c.fd = none) (hdue : c.reconnectAtNs ≤ t) :
      Act (c, t) ({ c.opened fd with interest := some ⟨false, true⟩ }.record (.attempt t true), t)
  | close {c : LoadClient} {t now : ℕ} (hfd : c.fd ≠ none) (hs : c.Stopped) (h : t ≤ now) :
      Act (c, t) ({ c with toClientState := c.toClientState.reconnect now, interest := none }.record (.closed t), now)
  | logIn {c : LoadClient} {t : ℕ} (hfd : c.fd ≠ none) (hc : c.connecting = true) : Act (c, t) (c.logIn, t)
  | written {c : LoadClient} {t n : ℕ} (hfd : c.fd ≠ none) (hpos : 0 < n) (hn : n ≤ c.writeBuf.remainingToSend)
      (now : ℕ) : Act (c, t) (c.written n now, t)
  | blocked {c : LoadClient} {t : ℕ} (hfd : c.fd ≠ none) : Act (c, t) (c.blocked, t)
  | reset {c : LoadClient} {t : ℕ} (hfd : c.fd ≠ none) : Act (c, t) ({ c with writeBuf := c.writeBuf.tryReset }, t)
  | clear {c : LoadClient} {t : ℕ} (hfd : c.fd ≠ none) (hl : c.loggedIn = true) (hlen : c.writeBuf.length = 0) :
      Act (c, t) (c.clear, t)
  | enqueue {c : LoadClient} {t : ℕ} {draw : OrderFactory.Draw} {kind : FrameKind} {msg : OuchInboundFrame}
      (hfd : c.fd ≠ none) (hl : c.loggedIn = true) (hacks : c.acksPending < pipelineDepth)
      (hmsg : buildMessage draw c.nextUserRefNum c.target = (kind, msg))
      (hne : (encodeSoupUnsequenced msg 128).length ≠ 0)
      (hroom : c.writeBuf.hasRoom (encodeSoupUnsequenced msg 128).length = true) :
      Act (c, t) (c.enqueue kind msg (encodeSoupUnsequenced msg 128), t)
  | slot {c : LoadClient} {t : ℕ} (next : ℕ) : Act (c, t) ({ c with nextSendNs := next }, t)
  | heartbeat {c : LoadClient} {t : ℕ} (hfd : c.fd ≠ none) (hl : c.loggedIn = true) (hlen : c.writeBuf.length = 0) :
      Act (c, t) (c.heartbeat, t)
  | receive {c : LoadClient} {t : ℕ} (hfd : c.fd ≠ none) (hc : c.connecting = false)
      (hidle : parseSoupPacket c.readBuf.view = .incomplete) (bytes : List UInt8) : Act (c, t) (c.receive bytes, t)
  | take {c : LoadClient} {t n : ℕ} {packet : SoupPacket} (hfd : c.fd ≠ none) (hc : c.connecting = false)
      (hopen : ∀ p, .rejected p ∉ c.conn) (hparse : parseSoupPacket c.readBuf.view = .packet packet n)
      (hok : (c.toClientState.handleSoupPacket packet).1 = true) : Act (c, t) (c.take packet n, t)
  | reject {c : LoadClient} {t n : ℕ} {packet : SoupPacket} (hfd : c.fd ≠ none) (hc : c.connecting = false)
      (hopen : ∀ p, .rejected p ∉ c.conn) (hparse : parseSoupPacket c.readBuf.view = .packet packet n)
      (hno : (c.toClientState.handleSoupPacket packet).1 = false) : Act (c, t) (c.reject packet, t)

abbrev Acts : LoadClient × ℕ → LoadClient × ℕ → Prop := Relation.ReflTransGen Act

theorem Act.le {p q : LoadClient × ℕ} (h : Act p q) : p.2 ≤ q.2 := by
  cases h with
  | wait h => exact h
  | close _ _ h => exact h
  | _ => exact Nat.le_refl _

/-- An act leaves the log, or ends with a record of itself. -/
theorem Act.log {p q : LoadClient × ℕ} (h : Act p q) : q.1.log = p.1.log ∨ Recorded p.1 q.1 := by
  cases h with
  | wait h => exact .inl rfl
  | reset => exact .inl rfl
  | slot => exact .inl rfl
  | noSocket => exact .inr (recorded_record rfl _)
  | noConnection => exact .inr (recorded_record rfl _)
  | connect => exact .inr (recorded_record rfl _)
  | close => exact .inr (recorded_record rfl _)
  | logIn => exact .inr ((queue_recorded _ _ _).of_log rfl)
  | written => exact .inr (recorded_record rfl _)
  | blocked => exact .inr (recorded_record rfl _)
  | clear => exact .inr (recorded_record rfl _)
  | enqueue => exact .inr ((queue_recorded _ _ _).of_log (count_log _ _))
  | heartbeat => exact .inr (queue_recorded _ _ _)
  | receive => exact .inr (recorded_record rfl _)
  | take => exact .inr (recorded_record rfl _)
  | reject => exact .inr (recorded_record rfl _)

theorem Act.events_subset {p q : LoadClient × ℕ} (h : Act p q) : p.1.events ⊆ q.1.events := by
  obtain e | ⟨event, e⟩ := h.log <;> rw [events, events, e]
  · exact List.Subset.refl _
  · rw [eventsLogged_append]
    exact List.subset_append_left _ _

/-- When a client does something. -/
def Guard (c : LoadClient) (t : ℕ) : ClientEvent → Prop
  | .attempt time _ => c.fd = none ∧ c.reconnectAtNs ≤ time ∧ time = t
  | .closed _ => c.fd ≠ none ∧ c.Stopped
  | .cleared => c.fd ≠ none ∧ c.loggedIn = true ∧ c.writeBuf.length = 0
  | .queued .heartbeat _ => c.fd ≠ none ∧ c.loggedIn = true ∧ c.writeBuf.length = 0
  | .queued (.message _) _ => c.fd ≠ none ∧ c.loggedIn = true
  | .refused => c.fd ≠ none ∧ ((c.connecting = true ∧ c.writeBuf.hasRoom c.loginPacket.length = false) ∨
      c.loggedIn = true ∧ c.writeBuf.length = 0 ∧ c.writeBuf.hasRoom soupHeaderLen = false)
  | .recv room _ => c.fd ≠ none ∧ parseSoupPacket c.readBuf.view = .incomplete ∧ room = c.room
  | _ => True

theorem event_of_record {x : LoadClient} {e : ClientEvent} {m : Moment} (hx : x.log = c.log)
    (h : (x.record e).log = c.log ++ [m]) : m.event = e := by
  rw [record_log, hx, List.append_cancel_left_eq, List.singleton_inj] at h
  exact congrArg Moment.event h.symm

theorem event_of_queue {x : LoadClient} {item : Queued} {packet : List UInt8} {m : Moment} (hx : x.log = c.log)
    (h : (x.queue item packet).log = c.log ++ [m]) :
    m.event = .queued item packet ∨ m.event = .refused ∧ x.writeBuf.hasRoom packet.length = false := by
  cases hroom : x.writeBuf.hasRoom packet.length with
  | true =>
    rw [queue_of_hasRoom hroom] at h
    exact .inl (event_of_record (by exact hx) h)
  | false =>
    rw [queue_of_not_hasRoom hroom] at h
    exact .inr ⟨event_of_record hx h, rfl⟩

theorem Act.guard {p q : LoadClient × ℕ} {m : Moment} (h : Act p q) (he : q.1.log = p.1.log ++ [m]) :
    Guard p.1 p.2 m.event := by
  cases h with
  | wait h => exact absurd he (by simp)
  | reset => exact absurd he (by simp)
  | slot => exact absurd he (by simp)
  | noSocket hfd hdue => exact event_of_record rfl he ▸ ⟨hfd, hdue, rfl⟩
  | noConnection _ hfd hdue => exact event_of_record rfl he ▸ ⟨hfd, hdue, rfl⟩
  | connect _ hfd hdue => exact event_of_record rfl he ▸ ⟨hfd, hdue, rfl⟩
  | close hfd hs => exact event_of_record rfl he ▸ ⟨hfd, hs⟩
  | logIn hfd hc =>
    obtain h | ⟨h, hroom⟩ := event_of_queue rfl he <;> rw [h]
    · trivial
    · exact ⟨hfd, .inl ⟨hc, hroom⟩⟩
  | written => exact event_of_record rfl he ▸ trivial
  | blocked => exact event_of_record rfl he ▸ trivial
  | clear hfd hl hlen => exact event_of_record rfl he ▸ ⟨hfd, hl, hlen⟩
  | enqueue hfd hl _ _ _ hroom =>
    obtain h | ⟨-, hno⟩ := event_of_queue (count_log _ _) he
    · exact h ▸ ⟨hfd, hl⟩
    · rw [count_writeBuf] at hno
      exact absurd (hroom.symm.trans hno) (by decide)
  | heartbeat hfd hl hlen =>
    obtain h | ⟨h, hroom⟩ := event_of_queue rfl he <;> rw [h]
    · exact ⟨hfd, hl, hlen⟩
    · exact ⟨hfd, .inr ⟨hl, hlen, hroom⟩⟩
  | receive hfd _ hidle => exact event_of_record rfl he ▸ ⟨hfd, hidle, rfl⟩
  | take => exact event_of_record rfl he ▸ trivial
  | reject => exact event_of_record rfl he ▸ trivial

theorem Acts.le {p q : LoadClient × ℕ} (h : Acts p q) : p.2 ≤ q.2 := by
  induction h with
  | refl => exact Nat.le_refl _
  | tail _ h ih => exact Nat.le_trans ih h.le

/-! ## Reached clients -/

/-- A client of a run, at a time of it. -/
def Reached (c : LoadClient) (t : ℕ) : Prop := ∃ clientId, Acts ({ clientId := clientId }, 0) (c, t)

theorem Reached.acts {c' : LoadClient} {t' : ℕ} (h : Reached c t) (ha : Acts (c, t) (c', t')) : Reached c' t' := by
  obtain ⟨clientId, h⟩ := h
  exact ⟨clientId, h.trans ha⟩

theorem Reached.mono {t' : ℕ} (h : Reached c t) (ht : t ≤ t') : Reached c t' := h.acts (.single (.wait ht))

/-- What holds of a new client and is kept by the acts of reached clients. -/
theorem Reached.keeps {P : LoadClient → ℕ → Prop} (new : ∀ clientId, P { clientId := clientId } 0)
    (act : ∀ c t c' t', Reached c t → P c t → Act (c, t) (c', t') → P c' t') (h : Reached c t) : P c t := by
  obtain ⟨clientId, h⟩ := h
  suffices hp : ∀ p, Acts ({ clientId := clientId }, 0) p → P p.1 p.2 from hp _ h
  intro p h
  induction h with
  | refl => exact new clientId
  | tail h ha ih => exact act _ _ _ _ ⟨clientId, h⟩ ih ha

/-- A moment of a log is the end of an act of a reached client. -/
theorem Reached.moment {past rest : List Moment} {m : Moment} (h : Reached c t) (e : c.log = past ++ m :: rest) :
    ∃ c₀ t₀ c₁ t₁, Reached c₀ t₀ ∧ Act (c₀, t₀) (c₁, t₁) ∧ c₀.log = past ∧ c₁.log = past ++ [m] ∧
      c₁.toClientState = m.state ∧ c₁.writeBuf = m.writeBuf := by
  revert past rest m
  refine h.keeps (P := fun c _ => ∀ {past rest : List Moment} {m : Moment}, c.log = past ++ m :: rest → ∃ c₀ t₀ c₁ t₁,
    Reached c₀ t₀ ∧ Act (c₀, t₀) (c₁, t₁) ∧ c₀.log = past ∧ c₁.log = past ++ [m] ∧
      c₁.toClientState = m.state ∧ c₁.writeBuf = m.writeBuf) ?_ ?_
  · intro clientId past rest m e
    exact absurd e (by simp)
  · intro c t c' t' hr ih ha past rest m e
    rcases ha.log with hlog | ⟨event, hlog⟩
    · exact ih (hlog ▸ e)
    · rcases List.eq_nil_or_concat rest with rfl | ⟨rest, last, rfl⟩
      -- the act's own moment
      · obtain ⟨rfl, hm⟩ := List.append_inj' (hlog.symm.trans e) rfl
        obtain rfl := List.singleton_inj.1 hm
        exact ⟨c, t, c', t', hr, ha, rfl, hlog, rfl, rfl⟩
      · rw [hlog, List.concat_eq_append, ← List.cons_append, ← List.append_assoc] at e
        exact ih (List.append_inj' e rfl).1

/-- Before a moment of a log, the client could do what it did. -/
theorem Reached.before {past rest : List Moment} {m : Moment} (h : Reached c t) (e : c.log = past ++ m :: rest) :
    ∃ c₀ t₀, Reached c₀ t₀ ∧ c₀.log = past ∧ Guard c₀ t₀ m.event := by
  obtain ⟨c₀, t₀, c₁, t₁, hr, ha, hpast, hlog, -, -⟩ := h.moment e
  exact ⟨c₀, t₀, hr, hpast, ha.guard (hpast ▸ hlog)⟩

/-- What holds of reached clients holds at every moment of a log. -/
theorem Reached.always {P : List Moment → ClientState → WriteBuffer → Prop}
    (hP : ∀ c t, Reached c t → P c.log c.toClientState c.writeBuf) {past rest : List Moment} {m : Moment}
    (h : Reached c t) (e : c.log = past ++ m :: rest) : P (past ++ [m]) m.state m.writeBuf := by
  obtain ⟨c₀, t₀, c₁, t₁, hr, ha, -, hlog, hs, hw⟩ := h.moment e
  rw [← hlog, ← hs, ← hw]
  exact hP c₁ t₁ (hr.acts (.single ha))

end LoadClient

end Exchange
