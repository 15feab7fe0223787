import Exchange.Proof.Client
import Exchange.Proof.Client.Beats
import Exchange.Proof.Client.Packet

/-!
# The event loop comes to acts

Each function of the event loop comes to acts of its client, with the calls of the clock that
they take, and leaves it `Idle` if it finds it so. So a run, and the part of it between two
iterations, comes to beats of each client (`LoadGenerator.run_spec`, `run_add_beats`), and the
clients of a run are reached and idle (`LoadGenerator.run_reached`).
-/

namespace Exchange

open Spec (connectionAfter connectionOf eventsLogged messagesQueued)

namespace LoadClient

variable {c : LoadClient} {k : Kernel} {interArrivalNs : ℕ}

/-! ## Idle clients -/

/-- The events of a connection that say how it stands: a `send()` that blocked, and a packet
that was not taken. -/
inductive Mark : ClientEvent → Prop
  | blocked : Mark .blocked
  | rejected (packet : SoupPacket) : Mark (.rejected packet)

/-- Connected, and polled for input; for output too if a `send()` has blocked. -/
structure Polled (c : LoadClient) : Prop where
  fd : c.fd ≠ none
  connected : c.connecting = false
  unrejected : ∀ packet, .rejected packet ∉ c.conn
  interest : ∃ out, c.interest = some ⟨true, out⟩ ∧ (out = true ↔ .blocked ∈ c.conn)

/-- What is unsent is waiting for the socket. -/
def Armed (c : LoadClient) : Prop := 0 < c.writeBuf.remainingToSend → c.interest = some ⟨true, true⟩

/-- The read buffer has no whole packet. -/
def Drained (c : LoadClient) : Prop := parseSoupPacket c.readBuf.view = .incomplete

theorem Drained.stopped (h : c.Drained) : c.Stopped := .inl fun packet n hparse => by
  rw [Drained, hparse] at h
  cases h

/-- How a client is between the functions of the event loop. -/
inductive Idle (c : LoadClient) : Prop
  | closed (hfd : c.fd = none) (hi : c.interest = none)
  | connecting (hfd : c.fd ≠ none) (hc : c.connecting = true) (hl : c.loggedIn = false)
      (hi : c.interest = some ⟨false, true⟩) (hm : ∀ e, Mark e → e ∉ c.conn) (hd : c.Drained)
  | connected (hp : c.Polled) (ha : c.Armed) (hd : c.Drained)

/-- A client is polled as long as its socket, its interest and the marks of its connection
stay. -/
theorem Polled.of_eq {c' : LoadClient} (h : c.Polled) (hfd : c'.fd = c.fd) (hc : c'.connecting = c.connecting)
    (hi : c'.interest = c.interest) (hm : ∀ e, Mark e → (e ∈ c'.conn ↔ e ∈ c.conn)) : c'.Polled where
  fd := hfd ▸ h.fd
  connected := hc.trans h.connected
  unrejected packet := mt (hm _ (.rejected packet)).mp (h.unrejected packet)
  interest := by
    obtain ⟨out, hout, hiff⟩ := h.interest
    exact ⟨out, hi.trans hout, hiff.trans (hm _ .blocked).symm⟩

/-- An event on the connection that is no mark. -/
theorem mark_mem_conn {c' : LoadClient} {e : ClientEvent} (h : c'.events = c.events ++ [e])
    (he : connectionAfter c.conn e = c.conn ++ [e]) (hno : ¬ Mark e) :
    ∀ e', Mark e' → (e' ∈ c'.conn ↔ e' ∈ c.conn) := by
  intro e' hm
  rw [conn_concat h, he, List.mem_append, List.mem_singleton]
  exact ⟨fun h => h.resolve_right fun heq => hno (heq ▸ hm), .inl⟩

/-! ## Connecting -/

theorem reconnect_beats (hs : c.Stopped) (k : Kernel) : Beats interArrivalNs (c, k) (c.reconnect k) := by
  unfold reconnect
  split
  · exact .refl
  · next hfd => exact .single (.close hfd hs)

theorem reconnect_idle (hfd : c.fd ≠ none) (k : Kernel) : (c.reconnect k).1.Idle := by
  rw [reconnect, if_neg hfd]
  refine .closed ?_ rfl
  simp only [record_toClientState, ClientState.reconnect, if_neg hfd]

theorem reconnect_connecting (c : LoadClient) (k : Kernel) : (c.reconnect k).1.connecting = c.connecting := by
  unfold reconnect
  split
  · rfl
  · next hfd => simp only [record_toClientState, ClientState.reconnect, if_neg hfd]

/-- The three ways an attempt to connect can end. -/
theorem connectClient_cases (c : LoadClient) (k : Kernel) :
    (c.connectClient k).2.clock = k.tick.2.clock ∧
      ((c.connectClient k).1 = c.record (.attempt k.time false) ∨
        (∃ fd, (c.connectClient k).1 = { c.opened fd with fd := none }.record (.attempt k.time false)) ∨
        ∃ fd, (c.connectClient k).1 =
          { c.opened fd with interest := some ⟨false, true⟩ }.record (.attempt k.time true)) := by
  unfold connectClient Kernel.nextSocket Kernel.nextConnect
  cases hs : k.socket 0 with
  | false =>
    simp only [Kernel.tick, hs]
    exact ⟨rfl, .inl rfl⟩
  | true =>
    cases hc : k.connect 0 with
    | failed =>
      simp only [Kernel.tick, hs, if_true, hc]
      exact ⟨trivial, .inr (.inl ⟨_, rfl⟩)⟩
    | connected =>
      simp only [Kernel.tick, hs, if_true, hc]
      exact ⟨trivial, .inr (.inr ⟨_, rfl⟩)⟩
    | inProgress =>
      simp only [Kernel.tick, hs, if_true, hc]
      exact ⟨trivial, .inr (.inr ⟨_, rfl⟩)⟩

theorem connectClient_beats (hfd : c.fd = none) (hdue : c.reconnectAtNs ≤ k.time) :
    Beats interArrivalNs (c, k) (c.connectClient k) := by
  obtain ⟨hk, h⟩ := c.connectClient_cases k
  have hact : Act (c, k.time) ((c.connectClient k).1, k.time) ∧ Quiet c (c.connectClient k).1 := by
    obtain h | ⟨fd, h⟩ | ⟨fd, h⟩ := h <;> rw [h]
    · exact ⟨.noSocket hfd hdue, .record rfl rfl nofun rfl⟩
    · exact ⟨.noConnection fd hfd hdue, .record rfl rfl nofun rfl⟩
    · exact ⟨.connect fd hfd hdue, .record rfl rfl nofun rfl⟩
  exact .tail (.single (.act hact.1 hact.2)) (.wait 1 hk)

theorem connectClient_idle (hfd : c.fd = none) (hi : c.interest = none) (k : Kernel) : (c.connectClient k).1.Idle := by
  obtain ⟨-, h | ⟨fd, h⟩ | ⟨fd, h⟩⟩ := c.connectClient_cases k <;> rw [h]
  · exact .closed hfd hi
  · exact .closed rfl hi
  · refine .connecting (Option.some_ne_none fd) rfl rfl rfl (fun e _ => ?_) rfl
    rw [record_conn]
    exact List.not_mem_nil

/-! ## Writing -/

theorem remainingToSend_written (c : LoadClient) (n now : ℕ) :
    (c.written n now).writeBuf.remainingToSend = c.writeBuf.remainingToSend - n := Nat.sub_add_eq _ _ _

theorem Polled.written (h : c.Polled) (n now : ℕ) : (c.written n now).Polled :=
  h.of_eq rfl rfl rfl (mark_mem_conn (record_events _ _) rfl nofun)

theorem Polled.blocked (h : c.Polled) : c.blocked.Polled where
  fd := h.fd
  connected := h.connected
  unrejected packet hmem := by
    rw [LoadClient.blocked, record_conn] at hmem
    exact h.unrejected packet ((List.mem_append.mp hmem).resolve_right (by simp))
  interest := by
    refine ⟨true, rfl, fun _ => ?_, fun _ => rfl⟩
    rw [LoadClient.blocked, record_conn]
    exact List.mem_append_right _ (List.mem_singleton.2 rfl)

theorem remainingToSend_tryReset {b : WriteBuffer} (h : b.remainingToSend = 0) : b.tryReset.remainingToSend = 0 := by
  unfold WriteBuffer.tryReset
  split
  · rfl
  · exact h

/-- `flushWrite` sends until all is sent, the socket blocks, or the connection is over. -/
theorem flush_spec (fuel : ℕ) (hp : c.Polled) (hd : c.Drained) (hf : c.writeBuf.remainingToSend < fuel) :
    Beats interArrivalNs (c, k) (flush fuel c k) ∧ (flush fuel c k).1.Idle ∧
      (flush fuel c k).1.connecting = false := by
  induction fuel generalizing c k with
  | zero => exact absurd hf (Nat.not_lt_zero _)
  | succ fuel ih =>
    unfold flush
    split
    · next hpos =>
      have hsend : Beat interArrivalNs (c, k) (c, k.nextSend.2) := .wait 0 rfl
      refine And.imp_left (.head hsend) ?_
      obtain ⟨answer, k⟩ := k.nextSend
      cases answer with
      | sent n =>
        dsimp only
        split
        · next hn =>
          have hw := hp.written (min n c.writeBuf.remainingToSend) k.time
          obtain ⟨ha, hidle⟩ := ih (k := k.nowNs.2) hw hd
            (by rw [remainingToSend_written]; omega)
          have hact : Beat interArrivalNs (c, k) (c.written (min n c.writeBuf.remainingToSend) k.time, k) :=
            .act (.written hp.fd hn (Nat.min_le_right _ _) k.time) (.record rfl rfl nofun rfl)
          exact ⟨.head hact (.head (.wait 1 rfl) ha), hidle⟩
        · exact ⟨reconnect_beats hd.stopped _, reconnect_idle hp.fd _, (reconnect_connecting c _).trans hp.connected⟩
      | again =>
        exact ⟨.single (.act (.blocked hp.fd) (.record rfl rfl nofun rfl)), .connected hp.blocked (fun _ => rfl) hd,
          hp.connected⟩
      | failed =>
        exact ⟨reconnect_beats hd.stopped _, reconnect_idle hp.fd _, (reconnect_connecting c _).trans hp.connected⟩
    · next hpos =>
      have hzero : c.writeBuf.tryReset.remainingToSend = 0 :=
        remainingToSend_tryReset (Nat.eq_zero_of_not_pos hpos)
      refine ⟨.single (.act (.reset hp.fd) ⟨.of_log rfl, rfl, rfl⟩),
        .connected (hp.of_eq rfl rfl rfl fun _ _ => .rfl) ?_ hd, hp.connected⟩
      exact fun h => absurd hzero (Nat.ne_of_gt h)

theorem flushWrite_spec (hp : c.Polled) (hd : c.Drained) (k : Kernel) :
    Beats interArrivalNs (c, k) (c.flushWrite k) ∧ (c.flushWrite k).1.Idle ∧
      (c.flushWrite k).1.connecting = false := flush_spec _ hp hd (Nat.lt_succ_self _)

theorem mark_mem_queue {x : LoadClient} (he : x.events = c.events) (item : Queued) (packet : List UInt8) :
    ∀ e, Mark e → (e ∈ (x.queue item packet).conn ↔ e ∈ c.conn) := by
  obtain hq | hq := queue_events he item packet <;>
    exact mark_mem_conn hq rfl nofun

theorem handleConnect_spec (hfd : c.fd ≠ none) (hc : c.connecting = true) (hm : ∀ e, Mark e → e ∉ c.conn)
    (hd : c.Drained) (k : Kernel) :
    Beats interArrivalNs (c, k) (c.handleConnect k) ∧ (c.handleConnect k).1.Idle := by
  have herror : Beat interArrivalNs (c, k) (c, k.nextSoError.2) := .wait 0 rfl
  refine And.imp_left (.head herror) ?_
  unfold handleConnect
  obtain ⟨error, k⟩ := k.nextSoError
  cases error with
  | true => exact ⟨reconnect_beats hd.stopped k, reconnect_idle hfd k⟩
  | false =>
    have hm' : ∀ e, Mark e → e ∉ c.logIn.conn := fun e h => mt (mark_mem_queue rfl _ _ e h).mp (hm e h)
    have hp : c.logIn.Polled :=
      ⟨hfd, rfl, fun packet => hm' _ (.rejected packet), false, rfl, nofun, fun h => absurd h (hm' _ .blocked)⟩
    have hquiet : Quiet c c.logIn := by
      refine .queue ?_ ?_ (fun _ => rfl) _ <;> rfl
    obtain ⟨ha, hidle, -⟩ := flushWrite_spec hp hd k
    exact ⟨.head (.act (.logIn hfd hc) hquiet) ha, hidle⟩

/-! ## Batches -/

theorem Polled.enqueue (h : c.Polled) (kind : OrderFactory.FrameKind) (msg : OuchInboundFrame)
    (packet : List UInt8) : (c.enqueue kind msg packet).Polled := by
  obtain ⟨_, _, _, _, e⟩ := c.count_eq kind
  rw [LoadClient.enqueue, e]
  exact h.of_eq rfl rfl rfl (mark_mem_queue rfl _ _)

theorem Drained.enqueue (h : c.Drained) (kind : OrderFactory.FrameKind) (msg : OuchInboundFrame)
    (packet : List UInt8) : (c.enqueue kind msg packet).Drained := by
  cases kind <;> exact h

theorem enqueue_loggedIn (c : LoadClient) (kind : OrderFactory.FrameKind) (msg : OuchInboundFrame)
    (packet : List UInt8) : (c.enqueue kind msg packet).loggedIn = c.loggedIn := by
  cases kind <;> rfl

/-- At most `n` messages are queued. -/
theorem fill_spec (t n : ℕ) (hp : c.Polled) (hl : c.loggedIn = true) (hd : c.Drained) :
    (fill n c k).2.clock = k.clock ∧ Acts (c, t) ((fill n c k).1, t) ∧ GoesOn c (fill n c k).1 ∧
      (messagesQueued (fill n c k).1.events).length ≤ (messagesQueued c.events).length + n ∧
      (fill n c k).1.Polled ∧ (fill n c k).1.Drained := by
  induction n generalizing c k with
  | zero => exact ⟨rfl, .refl, .of_log rfl, Nat.le_refl _, hp, hd⟩
  | succ n ih =>
    unfold fill
    split
    · next hacks =>
      have hk : k.clock = k.nextDraw.2.clock := rfl
      rw [hk]
      obtain ⟨draw, k⟩ := k.nextDraw
      dsimp only
      rcases hmsg : OrderFactory.buildMessage draw c.nextUserRefNum c.target with ⟨kind, msg⟩
      dsimp only
      split
      · exact ⟨rfl, .refl, .of_log rfl, Nat.le_add_right _ _, hp, hd⟩
      · next hpacket =>
        rw [not_or] at hpacket
        have hroom : c.writeBuf.hasRoom (encodeSoupUnsequenced msg 128).length = true := by simpa using hpacket.2
        obtain ⟨hclock, ha, hon, hle, hr⟩ := ih (k := k) (hp.enqueue kind msg (encodeSoupUnsequenced msg 128))
          ((enqueue_loggedIn _ _ _ _).trans hl) (hd.enqueue kind msg (encodeSoupUnsequenced msg 128))
        have hqueue : GoesOn c (c.enqueue kind msg (encodeSoupUnsequenced msg 128)) := .queue (count_log c kind) _ _
        have hone : (messagesQueued (c.enqueue kind msg (encodeSoupUnsequenced msg 128)).events).length ≤
            (messagesQueued c.events).length + 1 := by
          have hlog : (c.count kind).events = c.events := congrArg eventsLogged (count_log c kind)
          rcases queue_events hlog (.message msg) (encodeSoupUnsequenced msg 128) with he | he <;>
            rw [enqueue, he, messagesQueued_concat, List.length_append]
          · exact Nat.le_refl _
          · exact Nat.le_succ _
        exact ⟨hclock, .head (.enqueue hp.fd hl hacks hmsg hpacket.1 hroom) ha, hqueue.trans hon, by omega, hr⟩
    · exact ⟨rfl, .refl, .of_log rfl, Nat.le_add_right _ _, hp, hd⟩

theorem buildBatch_spec (interArrivalNs : ℕ) (hp : c.Polled) (ha : c.Armed) (hd : c.Drained) (k : Kernel) :
    Beats interArrivalNs (c, k) (c.buildBatch interArrivalNs k) ∧ (c.buildBatch interArrivalNs k).1.Idle := by
  unfold buildBatch
  split
  · exact ⟨.refl, .connected hp ha hd⟩
  · next hguard =>
    obtain ⟨hl, hlen, -⟩ : c.loggedIn = true ∧ c.writeBuf.length = 0 ∧ ¬ c.acksPending ≥ pipelineDepth := by
      simpa using hguard
    have hclear : Act (c, k.time) (c.clear, k.time) := .clear hp.fd hl hlen
    have hquiet : Quiet c c.clear := .record rfl rfl nofun rfl
    have hp' : c.clear.Polled := hp.of_eq rfl rfl rfl (mark_mem_conn (record_events _ _) rfl nofun)
    rcases Nat.eq_zero_or_pos interArrivalNs with hrate | hrate
    · simp only [slotElapsed, nextSlot, if_neg (Nat.not_lt.mpr (Nat.le_of_eq hrate))]
      obtain ⟨hk, hacts, hon, -, hp₁, hd₁⟩ := fill_spec (k := k) k.time maxBatchMessages hp' hl hd
      have hburst : Beat interArrivalNs (c, k) (fill maxBatchMessages c.clear k) :=
        .burst hk (.head hclear hacts) hrate (hquiet.goesOn.trans hon)
      obtain ⟨hflush, hidle, -⟩ := flushWrite_spec hp₁ hd₁ (fill maxBatchMessages c.clear k).2
      exact ⟨.head hburst hflush, hidle⟩
    · simp only [slotElapsed, nextSlot, if_pos hrate]
      split
      · next helapsed =>
        have hfill := fill_spec (k := k.nowNs.2) k.time 1 hp' hl hd
        rw [hquiet.messages] at hfill
        generalize fill 1 c.clear k.nowNs.2 = r at hfill ⊢
        obtain ⟨c₁, k₁⟩ := r
        obtain ⟨hk, hacts, hon, hone, hp₁, hd₁⟩ := hfill
        dsimp only at hk hacts hon hone hp₁ hd₁ ⊢
        have hp₂ : { c₁ with nextSendNs := k₁.nowNs.1 + interArrivalNs }.Polled :=
          hp₁.of_eq rfl rfl rfl fun _ _ => .rfl
        have hmessage : Beat interArrivalNs (c, k)
            ({ c₁ with nextSendNs := k₁.nowNs.1 + interArrivalNs }, k₁.nowNs.2) := by
          refine .message (funext fun i => congrFun hk (i + 1)) ?_ (of_decide_eq_true helapsed)
            (hquiet.goesOn.trans hon) hone (congrArg (· + interArrivalNs) (congrFun hk 0))
          exact .head hclear (.tail hacts (.slot _))
        obtain ⟨hflush, hidle, -⟩ := flushWrite_spec hp₂ hd₁ k₁.nowNs.2
        exact ⟨.head hmessage hflush, hidle⟩
      · exact ⟨.single (.wait 1 rfl), .connected hp ha hd⟩

theorem sendHeartbeat_spec (hp : c.Polled) (hl : c.loggedIn = true) (hlen : c.writeBuf.length = 0) (hd : c.Drained)
    (k : Kernel) : Beats interArrivalNs (c, k) (c.sendHeartbeat k) ∧ (c.sendHeartbeat k).1.Idle := by
  have hp' : c.heartbeat.Polled :=
    hp.of_eq rfl rfl rfl (mark_mem_queue rfl _ _)
  obtain ⟨ha, hidle, -⟩ := flushWrite_spec hp' hd k
  exact ⟨.head (.act (.heartbeat hp.fd hl hlen) (.queue rfl rfl (fun _ => rfl) _)) ha, hidle⟩

/-! ## Reading -/

theorem Polled.take {packet : SoupPacket} (h : c.Polled) (hok : (c.toClientState.handleSoupPacket packet).1 = true)
    (n : ℕ) : (c.take packet n).Polled := by
  have hh := c.toClientState.handleSoupPacket_handles n hok
  exact h.of_eq hh.fd hh.connecting rfl (mark_mem_conn (record_events _ _) rfl nofun)

theorem length_view (b : Buffer) : b.view.length = b.length := List.length_drop

theorem drained_of_length (h : c.readBuf.length = 0) : c.Drained := by
  have hnil : c.readBuf.view = [] := List.eq_nil_of_length_eq_zero ((length_view _).trans h)
  rw [Drained, hnil]
  rfl

/-- The loop of `handleReadable` stops when there is no whole packet, or something is
wrong. -/
theorem handlePackets_spec (interArrivalNs : ℕ) (k : Kernel) (fuel : ℕ) (hp : c.Polled) (ha : c.Armed)
    (hf : c.readBuf.length ≤ fuel) :
    Beats interArrivalNs (c, k) ((handlePackets fuel c).2, k) ∧ (handlePackets fuel c).2.fd ≠ none ∧
      ((handlePackets fuel c).1 = false → (handlePackets fuel c).2.Stopped) ∧
      ((handlePackets fuel c).1 = true →
        (handlePackets fuel c).2.Polled ∧ (handlePackets fuel c).2.Armed ∧ (handlePackets fuel c).2.Drained) := by
  induction fuel generalizing c with
  | zero =>
    exact ⟨.refl, hp.fd, fun e => absurd e.symm Bool.false_ne_true,
      fun _ => ⟨hp, ha, drained_of_length (Nat.le_zero.mp hf)⟩⟩
  | succ fuel ih =>
    unfold handlePackets
    split
    · next h =>
      exact ⟨.refl, hp.fd, fun e => absurd e.symm Bool.false_ne_true, fun _ => ⟨hp, ha, drained_of_length h⟩⟩
    · split
      · next h => exact ⟨.refl, hp.fd, fun e => absurd e.symm Bool.false_ne_true, fun _ => ⟨hp, ha, h⟩⟩
      · next hbad =>
        have hstop : c.Stopped := .inl fun _ _ h => by
          rw [h] at hbad
          cases hbad
        exact ⟨.refl, hp.fd, fun _ => hstop, fun e => absurd e Bool.false_ne_true⟩
      · next packet n hparse =>
        split
        · next hok =>
          have hread := (c.toClientState.handleSoupPacket_handles n hok).readBuf
          have hlen : (c.take packet n).readBuf.length ≤ fuel := by
            have hn := parseSoupPacket_take hparse
            have e : (c.take packet n).readBuf = c.readBuf.advance n := congrArg (·.advance n) hread
            rw [e, ← length_view, (Buffer.advance_view c.readBuf n).2, List.length_drop, length_view]
            rw [length_view] at hn
            omega
          obtain ⟨has, hr⟩ := ih (hp.take hok n) ha hlen
          have htake : Beat interArrivalNs (c, k) (c.take packet n, k) :=
            .act (.take hp.fd hp.connected hp.unrejected hparse hok) (.record rfl rfl nofun rfl)
          exact ⟨.head htake has, hr⟩
        · next hno =>
          have hno := eq_false_of_ne_true hno
          have hfd := (c.toClientState.handleSoupPacket_rejects hno).fd
          have hmem : .rejected packet ∈ (c.reject packet).conn := by
            rw [LoadClient.reject, record_conn]
            exact List.mem_append_right _ (List.mem_singleton.mpr rfl)
          have hreject : Beat interArrivalNs (c, k) (c.reject packet, k) :=
            .act (.reject hp.fd hp.connected hp.unrejected hparse hno) (.record rfl rfl nofun rfl)
          exact ⟨.single hreject, fun h => hp.fd (hfd.symm.trans h),
            fun _ => .inr ⟨packet, hmem⟩, fun e => absurd e Bool.false_ne_true⟩

/-- Without bytes, the view stays, also if the buffer is compacted. -/
theorem receive_view {bytes : List UInt8} (h : bytes.take c.room = []) :
    (c.receive bytes).readBuf.view = c.readBuf.view := by
  show Buffer.view { c.readBuf.compact ClientState.readBufBytes with
    data := (c.readBuf.compact ClientState.readBufBytes).data ++ bytes.take c.room } = _
  rw [h, List.append_nil]
  unfold Buffer.compact
  split <;> rfl

theorem handleReadable_spec (interArrivalNs : ℕ) (hp : c.Polled) (ha : c.Armed) (hd : c.Drained) (k : Kernel) :
    Beats interArrivalNs (c, k) (c.handleReadable interArrivalNs k) ∧ (c.handleReadable interArrivalNs k).1.Idle := by
  have hact : ∀ bytes k, Beat interArrivalNs (c, k) (c.receive bytes, k) := fun bytes k =>
    .act (.receive hp.fd hp.connected hd bytes) (.record rfl rfl nofun rfl)
  have hrec : ∀ bytes, (c.receive bytes).Polled := fun bytes =>
    hp.of_eq rfl rfl rfl (mark_mem_conn (record_events _ _) rfl nofun)
  have hdrained : ∀ {bytes : List UInt8}, bytes.take c.room = [] → (c.receive bytes).Drained := fun h =>
    (congrArg parseSoupPacket (receive_view h)).trans hd
  have hrecv : Beat interArrivalNs (c, k) (c, k.nextRecv.2) := .wait 0 rfl
  refine And.imp_left (.head hrecv) ?_
  unfold handleReadable
  obtain ⟨answer, k⟩ := k.nextRecv
  cases answer with
  | bytes bytes =>
    dsimp only
    split
    · next hnil =>
      exact ⟨.head (hact bytes _) (reconnect_beats (hdrained (List.eq_nil_of_length_eq_zero hnil)).stopped k),
        reconnect_idle (hrec bytes).fd k⟩
    · have hpackets := handlePackets_spec interArrivalNs k _ (hrec bytes) ha (Nat.le_refl _)
      generalize handlePackets (c.receive bytes).readBuf.length (c.receive bytes) = r at hpackets ⊢
      obtain ⟨ok, c'⟩ := r
      obtain ⟨has, hfd, hstop, hgo⟩ := hpackets
      cases ok with
      | true =>
        obtain ⟨hp', ha', hd'⟩ := hgo rfl
        obtain ⟨has', hidle⟩ := buildBatch_spec interArrivalNs hp' ha' hd' k
        exact ⟨.head (hact bytes _) (has.trans has'), hidle⟩
      | false => exact ⟨.head (hact bytes _) (has.trans (reconnect_beats (hstop rfl) k)), reconnect_idle hfd k⟩
  | again => exact ⟨.single (hact [] _), .connected (hrec []) ha (hdrained List.take_nil)⟩
  | failed =>
    exact ⟨.head (hact [] _) (reconnect_beats (hdrained List.take_nil).stopped k), reconnect_idle (hrec []).fd k⟩

/-! ## Events -/

theorem Idle.drained (h : c.Idle) (hfd : c.fd ≠ none) : c.Drained := by
  cases h with
  | closed h => exact absurd h hfd
  | connecting _ _ _ _ _ hd => exact hd
  | connected _ _ hd => exact hd

/-- An idle client that is connected. -/
theorem Idle.polled (h : c.Idle) (hfd : c.fd ≠ none) (hc : c.connecting = false) : c.Polled ∧ c.Armed ∧ c.Drained := by
  cases h with
  | closed h => exact absurd h hfd
  | connecting _ h => exact absurd (h.symm.trans hc) (by decide)
  | connected hp ha hd => exact ⟨hp, ha, hd⟩

end LoadClient

namespace LoadGenerator

open LoadClient (Beats Idle Reached reconnect_beats reconnect_idle handleConnect_spec flushWrite_spec
  handleReadable_spec)

variable {c : LoadClient} {k : Kernel} {interArrivalNs : ℕ}

/-- A client that is polled for input is not connecting. -/
theorem connecting_of_input {i : Interest} (h : c.Idle) (hi : c.interest = some i) (hin : i.input = true) :
    c.connecting = false := by
  cases h with
  | closed _ h => exact absurd (h.symm.trans hi) (by simp)
  | connecting _ _ _ h =>
    obtain rfl := Option.some.inj (h.symm.trans hi)
    exact absurd hin (by decide)
  | connected hp => exact hp.connected

theorem fd_of_interest {i : Interest} (h : c.Idle) (hi : c.interest = some i) : c.fd ≠ none := by
  cases h with
  | closed _ h => exact absurd (h.symm.trans hi) (by simp)
  | connecting h => exact h
  | connected hp => exact hp.fd

theorem handleOutput_spec (interArrivalNs : ℕ) (ready : Ready) (h : c.Idle) (hfd : c.fd ≠ none) (k : Kernel) :
    Beats interArrivalNs (c, k) (handleOutput ready c k) ∧ (handleOutput ready c k).1.Idle ∧
      (c.connecting = false → (handleOutput ready c k).1.connecting = false) := by
  unfold handleOutput
  split
  · cases hc : c.connecting with
    | true =>
      obtain ⟨hm, hd⟩ : (∀ e, LoadClient.Mark e → e ∉ c.conn) ∧ c.Drained := by
        cases h with
        | closed h => exact absurd h hfd
        | connecting _ _ _ _ hm hd => exact ⟨hm, hd⟩
        | connected hp => exact absurd (hc.symm.trans hp.connected) (by decide)
      obtain ⟨ha, hidle⟩ := handleConnect_spec hfd hc hm hd k
      exact ⟨ha, hidle, nofun⟩
    | false =>
      obtain ⟨hp, -, hd⟩ := h.polled hfd hc
      obtain ⟨ha, hidle, hc'⟩ := flushWrite_spec hp hd k
      exact ⟨ha, hidle, fun _ => hc'⟩
  · exact ⟨.refl, h, id⟩

theorem handleEvent_spec (interArrivalNs : ℕ) (ready : Ready) {i : Interest} (h : c.Idle) (hi : c.interest = some i)
    (k : Kernel) :
    Beats interArrivalNs (c, k) (handleEvent interArrivalNs (reported i ready) c k) ∧
      (handleEvent interArrivalNs (reported i ready) c k).1.Idle := by
  have hfd := fd_of_interest h hi
  unfold handleEvent
  split
  · exact ⟨reconnect_beats (h.drained hfd).stopped k, reconnect_idle hfd k⟩
  · have hout := handleOutput_spec interArrivalNs (reported i ready) h hfd k
    have hclosed : (reported i ready).output = false → (handleOutput (reported i ready) c k).1 = c := fun e => by
      rw [handleOutput, if_neg (by simp [e])]
    generalize handleOutput (reported i ready) c k = r at hout hclosed ⊢
    obtain ⟨c', k'⟩ := r
    obtain ⟨ha, hidle, hc⟩ := hout
    dsimp only at ha hidle hc hclosed ⊢
    split
    · exact ⟨ha, hidle⟩
    · next hstop =>
      split
      · next hin =>
        rw [reported, Bool.and_eq_true] at hin
        have hfd' : c'.fd ≠ none := fun e => hstop ⟨by
          by_contra hno
          exact hfd (hclosed (Bool.eq_false_of_not_eq_true hno) ▸ e), e⟩
        obtain ⟨hp, harmed, hd⟩ := hidle.polled hfd' (hc (connecting_of_input h hi hin.2))
        obtain ⟨ha', hidle'⟩ := handleReadable_spec interArrivalNs hp harmed hd k'
        exact ⟨ha.trans ha', hidle'⟩
      · exact ⟨ha, hidle⟩

/-! ## Whole runs -/

def AllIdle (clients : List LoadClient) : Prop := ∀ c ∈ clients, c.Idle

/-- A pass over clients that are `P`, with a function that comes to beats and leaves its
client idle. -/
theorem forClients_spec {f : LoadClient → Kernel → LoadClient × Kernel} {P : LoadClient → Prop} {s : ℕ}
    (hf : ∀ c k, s ≤ k.time → P c → Beats interArrivalNs (c, k) (f c k) ∧ (f c k).1.Idle)
    (clients : List LoadClient) (ht : s ≤ k.time) (h : ∀ c ∈ clients, P c) :
    AllBeats interArrivalNs (clients, k) (forClients f clients k) ∧ AllIdle (forClients f clients k).1 := by
  induction clients generalizing k with
  | nil => exact ⟨.refl _, nofun⟩
  | cons c clients ih =>
    obtain ⟨hp, h⟩ := List.forall_mem_cons.mp h
    obtain ⟨hc, hidle⟩ := hf c k ht hp
    obtain ⟨hrest, hall⟩ := ih (Nat.le_trans ht hc.acts.le) h
    refine ⟨⟨fun d => (hc.others d).trans (hrest.clock d), .cons (hc.trans (hrest.clock _)) ?_⟩,
      List.forall_mem_cons.mpr ⟨hidle, hall⟩⟩
    exact hrest.clients.imp fun d _ h => (hc.others d).trans h

theorem handleEvents_spec (interArrivalNs : ℕ) (events : List (ℕ × Ready)) {clients : List LoadClient}
    (h : AllIdle clients) : AllBeats interArrivalNs (clients, k) (handleEvents interArrivalNs events clients k) ∧
      AllIdle (handleEvents interArrivalNs events clients k).1 := by
  induction events generalizing clients k with
  | nil => exact ⟨.refl _, h⟩
  | cons event events ih =>
    obtain ⟨i, ready⟩ := event
    unfold handleEvents
    split
    · exact ih h
    · next c hc =>
      split
      · exact ih h
      · next interest hi =>
        have hevent := handleEvent_spec interArrivalNs ready (h c (List.mem_of_getElem? hc)) hi k
        generalize handleEvent interArrivalNs (reported interest ready) c k = r at hevent ⊢
        obtain ⟨c', k'⟩ := r
        obtain ⟨hbeats, hidle⟩ := hevent
        have hset : AllBeats interArrivalNs (clients, k) (clients.set i c', k') :=
          ⟨hbeats.others, List.forall₂_set hbeats.others hc hbeats⟩
        have hall : AllIdle (clients.set i c') := fun d hd => by
          rcases List.mem_or_eq_of_mem_set hd with hd | rfl
          · exact h d hd
          · exact hidle
        exact (ih hall).imp_left hset.trans

theorem retry_spec (interArrivalNs : ℕ) {after : ℕ} (ht : after ≤ k.time) (h : c.Idle) :
    Beats interArrivalNs (c, k) (retry after c k) ∧ (retry after c k).1.Idle := by
  unfold retry
  split
  · next hguard =>
    have hi : c.interest = none := by
      cases h with
      | closed _ hi => exact hi
      | connecting hfd => exact absurd hguard.1 hfd
      | connected hp => exact absurd hguard.1 hp.fd
    exact ⟨LoadClient.connectClient_beats hguard.1 (Nat.le_trans hguard.2 ht),
      LoadClient.connectClient_idle hguard.1 hi k⟩
  · exact ⟨.refl, h⟩

/-- A client that is logged in is polled. -/
theorem polled_of_loggedIn (h : c.Idle) (hfd : c.fd ≠ none) (hl : c.loggedIn = true) :
    c.Polled ∧ c.Armed ∧ c.Drained := by
  cases h with
  | closed h => exact absurd h hfd
  | connecting _ _ h => exact absurd (h.symm.trans hl) (by decide)
  | connected hp ha hd => exact ⟨hp, ha, hd⟩

theorem unblock_spec (interArrivalNs : ℕ) (h : c.Idle) (k : Kernel) :
    Beats interArrivalNs (c, k) (unblock interArrivalNs c k) ∧ (unblock interArrivalNs c k).1.Idle := by
  unfold unblock
  split
  · next hguard =>
    obtain ⟨hp, ha, hd⟩ := polled_of_loggedIn h hguard.1 hguard.2.1
    exact LoadClient.buildBatch_spec interArrivalNs hp ha hd k
  · exact ⟨.refl, h⟩

theorem keepAlive_spec (after : ℕ) (h : c.Idle) (k : Kernel) :
    Beats interArrivalNs (c, k) (keepAlive after c k) ∧ (keepAlive after c k).1.Idle := by
  unfold keepAlive
  split
  · next hguard =>
    obtain ⟨hp, -, hd⟩ := polled_of_loggedIn h hguard.1 hguard.2.1
    exact LoadClient.sendHeartbeat_spec hp hguard.2.1 hguard.2.2.1 hd k
  · exact ⟨.refl, h⟩

theorem passes_spec (interArrivalNs : ℕ) {after : ℕ} {clients : List LoadClient} (ht : after ≤ k.time)
    (h : AllIdle clients) : AllBeats interArrivalNs (clients, k) (passes interArrivalNs after clients k) ∧
      AllIdle (passes interArrivalNs after clients k).1 := by
  unfold passes
  obtain ⟨hb₁, h₁⟩ := forClients_spec (fun _ _ ht h => retry_spec interArrivalNs ht h) clients ht h
  generalize forClients (retry after) clients k = r at hb₁ h₁ ⊢
  obtain ⟨clients₁, k₁⟩ := r
  dsimp only at h₁ ⊢
  split
  · obtain ⟨hb₂, h₂⟩ := forClients_spec (fun _ k _ h => unblock_spec interArrivalNs h k) clients₁ (Nat.le_refl _) h₁
    generalize forClients (unblock interArrivalNs) clients₁ k₁ = r at hb₂ h₂ ⊢
    exact (forClients_spec (fun _ k _ h => keepAlive_spec after h k) r.1 (Nat.le_refl _) h₂).imp_left
      (hb₁.trans hb₂).trans
  · exact (forClients_spec (fun _ k _ h => keepAlive_spec after h k) clients₁ (Nat.le_refl _) h₁).imp_left hb₁.trans

theorem iteration_spec {g g' : LoadGenerator} {k' : Kernel} (h : AllIdle g.clients)
    (hi : g.iteration k = some (g', k')) : g'.interArrivalNs = g.interArrivalNs ∧
      AllBeats g.interArrivalNs (g.clients, k) (g'.clients, k') ∧ AllIdle g'.clients := by
  unfold iteration at hi
  dsimp only at hi
  have hwait : AllBeats g.interArrivalNs (g.clients, k) (g.clients, k.nowNs.2.nextEpollWait.2) := .wait 1 rfl _
  generalize k.nowNs.2.nextEpollWait = r at hwait hi
  obtain ⟨answer, k⟩ := r
  cases answer with
  | failed => cases hi
  | interrupted =>
    cases hi
    exact ⟨rfl, hwait, h⟩
  | ready events =>
    obtain ⟨hb₁, h₁⟩ := handleEvents_spec (k := k) g.interArrivalNs events h
    cases hi
    refine ⟨rfl, (passes_spec g.interArrivalNs ?_ h₁).imp_left fun hb => ?_⟩
    · exact Kernel.time_le (n := 1) rfl
    · exact (hwait.trans hb₁).trans (.trans (.wait 1 rfl _) hb)

theorem loop_spec (n : ℕ) {g : LoadGenerator} (h : AllIdle g.clients) :
    (loop n g k).1.interArrivalNs = g.interArrivalNs ∧
      AllBeats g.interArrivalNs (g.clients, k) ((loop n g k).1.clients, (loop n g k).2) ∧
      AllIdle (loop n g k).1.clients := by
  induction n generalizing g k with
  | zero => exact ⟨rfl, .refl _, h⟩
  | succ n ih =>
    unfold loop
    split
    · exact ⟨rfl, .refl _, h⟩
    · next g' k' hi =>
      obtain ⟨hrate, hfirst, h'⟩ := iteration_spec h hi
      obtain ⟨hrate', hrest, hall⟩ := ih (k := k') h'
      rw [hrate] at hrate' hrest
      exact ⟨hrate', hfirst.trans hrest, hall⟩

theorem loop_add (m n : ℕ) (g : LoadGenerator) (k : Kernel) :
    loop (m + n) g k = loop n (loop m g k).1 (loop m g k).2 := by
  induction m generalizing g k with
  | zero => rw [Nat.zero_add, loop]
  | succ m ih =>
    rw [Nat.add_right_comm, loop, loop]
    cases hi : g.iteration k with
    | none =>
      -- the loop has ended, and goes no further
      cases n with
      | zero => rfl
      | succ n =>
        dsimp only
        rw [loop, hi]
    | some r => exact ih r.1 r.2

theorem loop_add_beats (m n : ℕ) {g : LoadGenerator} (h : AllIdle g.clients) :
    AllBeats g.interArrivalNs ((loop m g k).1.clients, (loop m g k).2)
      ((loop (m + n) g k).1.clients, (loop (m + n) g k).2) := by
  obtain ⟨hrate, -, hall⟩ := loop_spec (k := k) m h
  rw [loop_add, ← hrate]
  exact (loop_spec n hall).2.1

/-- The first attempts to connect. -/
theorem connect_spec (numClients interArrivalNs : ℕ) (k : Kernel) :
    AllBeats interArrivalNs ((new numClients interArrivalNs).clients, k)
        (forClients LoadClient.connectClient (new numClients interArrivalNs).clients k) ∧
      AllIdle (forClients LoadClient.connectClient (new numClients interArrivalNs).clients k).1 := by
  refine forClients_spec (s := 0) (P := fun c => c.fd = none ∧ c.interest = none ∧ c.reconnectAtNs = 0)
    (fun c k _ ⟨hfd, hi, hat⟩ => ⟨LoadClient.connectClient_beats hfd (hat ▸ Nat.zero_le _),
      LoadClient.connectClient_idle hfd hi k⟩) _ (Nat.zero_le _) fun c hc => ?_
  obtain ⟨i, -, rfl⟩ := List.mem_map.mp hc
  exact ⟨rfl, rfl, rfl⟩

theorem run_spec (n numClients interArrivalNs : ℕ) (k : Kernel) :
    AllBeats interArrivalNs ((new numClients interArrivalNs).clients, k)
        (((new numClients interArrivalNs).run n k).1.clients, ((new numClients interArrivalNs).run n k).2) ∧
      AllIdle ((new numClients interArrivalNs).run n k).1.clients := by
  obtain ⟨hconnect, hidle⟩ := connect_spec numClients interArrivalNs k
  obtain ⟨-, hbeats, hall⟩ := loop_spec n (g := { new numClients interArrivalNs with clients := _ }) hidle
  exact ⟨hconnect.trans hbeats, hall⟩

/-- From one iteration of a run to a later one. -/
theorem run_add_beats (m n numClients interArrivalNs : ℕ) (k : Kernel) :
    AllBeats interArrivalNs
      (((new numClients interArrivalNs).run m k).1.clients, ((new numClients interArrivalNs).run m k).2)
      (((new numClients interArrivalNs).run (m + n) k).1.clients, ((new numClients interArrivalNs).run (m + n) k).2) :=
  loop_add_beats m n (g := { new numClients interArrivalNs with clients := _ })
    (connect_spec numClients interArrivalNs k).2

/-- Every client of a run is reached by acts, and idle. -/
theorem run_reached (n numClients interArrivalNs : ℕ) (k : Kernel) :
    ∀ c ∈ ((new numClients interArrivalNs).run n k).1.clients, ∃ t, Reached c t ∧ c.Idle := by
  intro c hc
  obtain ⟨hbeats, hidle⟩ := run_spec n numClients interArrivalNs k
  obtain ⟨c₀, hc₀, hb⟩ := hbeats.of_mem hc
  obtain ⟨i, -, rfl⟩ := List.mem_map.mp hc₀
  exact ⟨_, ⟨_, .head (.wait (Nat.zero_le _)) hb.acts⟩, hidle c hc⟩

/-! ## What sockets are polled for -/

theorem remainingToSend_pos_iff {b : WriteBuffer} : 0 < b.remainingToSend ↔ b.unsent ≠ [] := by
  rw [← List.length_pos_iff, WriteBuffer.unsent, List.length_drop]
  rfl

/-- Between iterations the socket of a connected client is polled for output if and only if
it is connecting or a `send()` on the connection has returned `EAGAIN`. So it is if there
are unsent bytes; and only then, if no `send()` has. -/
theorem output_polled (n numClients interArrivalNs : ℕ) (k : Kernel) :
    ∀ c ∈ ((new numClients interArrivalNs).run n k).1.clients, c.fd ≠ none → ∃ i, c.interest = some i ∧
      (i.output = true ↔ c.connecting = true ∨ .blocked ∈ connectionOf (eventsLogged c.log)) ∧
      (c.connecting = true ∨ c.writeBuf.unsent ≠ [] → i.output = true) ∧
      (.blocked ∉ connectionOf (eventsLogged c.log) →
        (i.output = true ↔ c.connecting = true ∨ c.writeBuf.unsent ≠ [])) := by
  intro c hc hfd
  obtain ⟨-, -, hidle⟩ := run_reached n numClients interArrivalNs k c hc
  cases hidle with
  | closed h => exact absurd h hfd
  | connecting _ hcon _ hi hb =>
    exact ⟨_, hi, ⟨fun _ => .inl hcon, fun _ => rfl⟩, fun _ => rfl, fun _ => ⟨fun _ => .inl hcon, fun _ => rfl⟩⟩
  | connected hp harmed =>
    obtain ⟨out, hi, hiff⟩ := hp.interest
    have hnot : ¬ c.connecting = true := by rw [hp.connected]; decide
    have hout : c.connecting = true ∨ c.writeBuf.unsent ≠ [] → out = true := by
      rintro (h | h)
      · exact absurd h hnot
      · have hboth := hi.symm.trans (harmed (remainingToSend_pos_iff.mpr h))
        exact congrArg Interest.output (Option.some.inj hboth)
    refine ⟨⟨true, out⟩, hi, ⟨fun h => .inr (hiff.mp h), fun h => hiff.mpr (h.resolve_left hnot)⟩, hout, fun hb => ?_⟩
    exact ⟨fun h => absurd (hiff.mp h) hb, hout⟩

/-- A clock on which a second passes with each call. -/
theorem monotone_seconds : Monotone fun i => i * 1000000000 := fun _ _ h => Nat.mul_le_mul_right _ h

/-- A client connects and sends its Login Request at once. -/
def unhindered : Kernel where
  clock := id
  clock_mono := monotone_id
  epollWait _ := .ready [(0, { output := true })]
  send _ := .sent 49

theorem output_polled_unhindered : ∃ c ∈ ((new 1 0).run 1 unhindered).1.clients,
    c.fd = some 0 ∧ ∃ i, c.interest = some i ∧ (i.output = true ↔ c.connecting = true ∨ c.writeBuf.unsent ≠ []) := by
  have hrun : ∃ c ∈ ((new 1 0).run 1 unhindered).1.clients,
      c.fd = some 0 ∧ .blocked ∉ connectionOf (eventsLogged c.log) := by
    decide +kernel
  obtain ⟨c, hc, hfd, hb⟩ := hrun
  obtain ⟨i, hi, -, -, h⟩ := output_polled 1 1 0 unhindered c hc (by rw [hfd]; exact Option.some_ne_none 0)
  exact ⟨c, hc, hfd, i, hi, h hb⟩

/-- The socket has no room for the Login Request at first, and takes it then. -/
def hindered : Kernel where
  clock := id
  clock_mono := monotone_id
  epollWait _ := .ready [(0, { output := true })]
  send
    | 0 => .again
    | _ => .sent 49

/-- A drained socket is still polled for output. -/
theorem drained_output_polled : ∃ c ∈ ((new 1 0).run 2 hindered).1.clients,
    c.fd = some 0 ∧ c.connecting = false ∧ c.writeBuf.unsent = [] ∧ c.interest = some ⟨true, true⟩ := by
  refine ⟨_, List.mem_singleton.mpr rfl, rfl, rfl, rfl, rfl⟩

end LoadGenerator

end Exchange
