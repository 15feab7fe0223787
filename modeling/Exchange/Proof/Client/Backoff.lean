import Exchange.Proof.Client.EventLoop

/-!
# How long a client waits

A connection that ends sets the time of the next attempt; a Login Accepted resets the
backoff. So, as long as no attempt fails at once, a client waits 50 ms for each failure
since the last Login Accepted, up to `RECONNECT_DELAY_MS`. An attempt that fails at once
sets no time: the client tries again in the next iteration.
-/

namespace Exchange

open Spec (eventsLogged AcceptsLogin failureTime lastFailure failures failuresAfter backoffNs)

theorem ClientState.reconnect_reconnectAtNs {cs : ClientState} (hfd : cs.fd ≠ none) (now : ℕ) :
    (cs.reconnect now).reconnectAtNs = now + (cs.reconnect now).reconnectBackoffMs * 1000000 := by
  rw [ClientState.reconnect, if_neg hfd]

namespace LoadClient

variable {c : LoadClient} {t : ℕ}

theorem failures_concat (events : List ClientEvent) (e : ClientEvent) :
    failures (events ++ [e]) = failuresAfter (failures events) e := List.foldl_append

theorem lastFailure_concat (events : List ClientEvent) (e : ClientEvent) :
    lastFailure (events ++ [e]) = (failureTime e).or (lastFailure events) := by
  rw [lastFailure, List.filterMap_append, List.getLast?_append]
  cases h : failureTime e <;> simp [h, lastFailure]

/-- No attempt to connect has failed at once. -/
def Prompt (events : List ClientEvent) : Prop := ∀ time, .attempt time false ∉ events

/-- The backoff of a client, and the time a client without a connection waits for. -/
structure Waits (c : LoadClient) : Prop where
  backoff : c.reconnectBackoffMs = min (50 * failures c.events) ClientState.reconnectDelayMs
  waits : c.fd = none → ∀ time, lastFailure c.events = some time →
    1 ≤ failures c.events ∧ time + backoffNs (failures c.events) ≤ c.reconnectAtNs

/-- An event that is neither a failure nor a login changes nothing. -/
theorem Waits.of_eq {c' : LoadClient} {e : ClientEvent} (h : c.Waits) (he : c'.events = c.events ++ [e])
    (hlogin : ¬ AcceptsLogin e) (hfail : failureTime e = none) (hfd : c'.fd = none → c.fd = none)
    (hb : c'.reconnectBackoffMs = c.reconnectBackoffMs) (hat : c'.reconnectAtNs = c.reconnectAtNs) : c'.Waits := by
  have hf : failures c'.events = failures c.events := by
    rw [he, failures_concat, failuresAfter, if_neg hlogin, hfail]
    rfl
  have hl : lastFailure c'.events = lastFailure c.events := by rw [he, lastFailure_concat, hfail, Option.none_or]
  refine ⟨by rw [hb, hf, h.backoff], fun hnone time hlast => ?_⟩
  rw [hf, hat]
  exact h.waits (hfd hnone) time (hl ▸ hlast)

/-- A packet that is queued changes nothing. -/
theorem Waits.queue {x : LoadClient} {item : Queued} {packet : List UInt8} (h : c.Waits) (he : x.events = c.events)
    (hfd : x.fd = c.fd) (hb : x.reconnectBackoffMs = c.reconnectBackoffMs) (hat : x.reconnectAtNs = c.reconnectAtNs) :
    (x.queue item packet).Waits := by
  obtain hq | hq := queue_events he item packet <;>
    exact h.of_eq hq id rfl (fun e => hfd ▸ e) hb hat

/-- The end of a connection. -/
theorem Waits.close {now : ℕ} (h : c.Waits) (hfd : c.fd ≠ none) (hle : t ≤ now) :
    ({ c with toClientState := c.toClientState.reconnect now, interest := none }.record (.closed t)).Waits := by
  have hf : failures (c.events ++ [.closed t]) = failures c.events + 1 := by
    rw [failures_concat]
    rfl
  have hb : (c.toClientState.reconnect now).reconnectBackoffMs =
      min (50 * (failures c.events + 1)) ClientState.reconnectDelayMs := by
    have hdelay : ClientState.reconnectDelayMs = 1000 := rfl
    rw [ClientState.reconnect, if_neg hfd, h.backoff, hdelay]
    dsimp only
    split <;> omega
  have he : ({ c with toClientState := c.toClientState.reconnect now, interest := none }.record (.closed t)).events =
      c.events ++ [.closed t] := record_events _ _
  refine ⟨by rw [he, hf]; exact hb, fun _ time hlast => ?_⟩
  rw [he, lastFailure_concat] at hlast
  obtain rfl : t = time := Option.some.inj hlast
  rw [he, hf]
  refine ⟨Nat.le_add_left _ _, ?_⟩
  rw [record_toClientState, ClientState.reconnect_reconnectAtNs hfd, hb]
  exact Nat.add_le_add_right hle _

/-- A packet that is taken: a Login Accepted resets the backoff. -/
theorem Waits.take {packet : SoupPacket} (h : c.Waits) (hfd : c.fd ≠ none) (n : ℕ)
    (hok : (c.toClientState.handleSoupPacket packet).1 = true) : (c.take packet n).Waits := by
  have hh := c.toClientState.handleSoupPacket_handles n hok
  have hf : failures (c.take packet n).events =
      if AcceptsLogin (.handed packet n) then 0 else failures c.events := by
    have he : (c.take packet n).events = c.events ++ [.handed packet n] := record_events _ _
    rw [he, failures_concat]
    rfl
  refine ⟨?_, fun hnone => absurd (hh.fd.symm.trans hnone) hfd⟩
  rw [hf]
  refine hh.reconnectBackoffMs.trans ?_
  rw [h.backoff]
  split <;> rfl

theorem Waits.act {c' : LoadClient} {t' : ℕ} (h : Prompt c.events → c.Waits) (ha : Act (c, t) (c', t'))
    (hp : Prompt c'.events) : c'.Waits := by
  have hfail : ∀ {x : LoadClient}, Prompt (x.record (.attempt t false)).events → False := fun hp =>
    hp t (by rw [record_events]; exact List.mem_append_right _ (List.mem_singleton.mpr rfl))
  have hw := h fun time hmem => hp time (ha.events_subset hmem)
  cases ha with
  | wait => exact hw
  | reset => exact ⟨hw.backoff, hw.waits⟩
  | slot => exact ⟨hw.backoff, hw.waits⟩
  | noSocket => exact (hfail hp).elim
  | noConnection => exact (hfail hp).elim
  | connect => exact hw.of_eq (record_events _ _) id rfl (fun e => absurd e (Option.some_ne_none _)) rfl rfl
  | close hfd _ hle => exact hw.close hfd hle
  | logIn => exact hw.queue rfl rfl rfl rfl
  | written => exact hw.of_eq (record_events _ _) id rfl id rfl rfl
  | blocked => exact hw.of_eq (record_events _ _) id rfl id rfl rfl
  | clear => exact hw.of_eq (record_events _ _) id rfl id rfl rfl
  | @enqueue _ _ _ kind =>
    obtain ⟨_, _, _, _, e⟩ := c.count_eq kind
    rw [enqueue, e]
    exact hw.queue rfl rfl rfl rfl
  | heartbeat => exact hw.queue rfl rfl rfl rfl
  | receive => exact hw.of_eq (record_events _ _) id rfl id rfl rfl
  | take hfd _ _ _ hok => exact hw.take hfd _ hok
  | reject _ _ _ _ hno =>
    have hr := c.toClientState.handleSoupPacket_rejects hno
    exact hw.of_eq (record_events _ _) id rfl (fun e => hr.fd ▸ e) hr.reconnectBackoffMs hr.reconnectAtNs

theorem Reached.waits (h : Reached c t) (hp : Prompt c.events) : c.Waits := by
  refine h.keeps (P := fun c _ => Prompt c.events → c.Waits) (fun _ _ => ⟨rfl, nofun⟩) ?_ hp
  exact fun c t c' t' _ hw ha => Waits.act hw ha

/-! ## The end of a connection and the clock -/

variable {k₀ k : Kernel}

/-- The clock is that of `k₀`, some calls later, and whenever a connection ended the time of the
next attempt was counted from the next call. -/
structure Timed (k₀ : Kernel) (p : LoadClient × Kernel) : Prop where
  clock : ∃ n, p.2.clock = fun i => k₀.clock (i + n)
  closed : ∀ m ∈ p.1.log, ∀ time, m.event = .closed time → ∃ i, k₀.clock i = time ∧
    m.state.reconnectAtNs = k₀.clock (i + 1) + m.state.reconnectBackoffMs * 1000000

theorem Timed.of_goesOn {c' : LoadClient} {k' : Kernel} {d : ℕ} (h : Timed k₀ (c, k)) (hon : GoesOn c c')
    (hk : k'.clock = fun i => k.clock (i + d)) : Timed k₀ (c', k') := by
  obtain ⟨n, hn⟩ := h.clock
  obtain ⟨more, hlog, hmore⟩ := hon
  refine ⟨⟨d + n, by rw [hk, hn]; simp only [Nat.add_assoc]⟩, fun m hm time he => ?_⟩
  rw [hlog, List.mem_append] at hm
  exact hm.elim (fun hm => h.closed m hm time he) fun hm => absurd he (hmore m hm time)

theorem Timed.close {k' : Kernel} (h : Timed k₀ (c, k)) (hfd : c.fd ≠ none)
    (hk : k'.clock = fun i => k.clock (i + 2)) :
    Timed k₀ ({ c with toClientState := c.toClientState.reconnect (k.clock 1), interest := none }.record
      (.closed k.time), k') := by
  obtain ⟨n, hn⟩ := h.clock
  have hzero : k₀.clock n = k.time := (congrArg k₀.clock (Nat.zero_add n).symm).trans (congrFun hn 0).symm
  have hone : k₀.clock (n + 1) = k.clock 1 := (congrArg k₀.clock (Nat.add_comm n 1)).trans (congrFun hn 1).symm
  refine ⟨⟨2 + n, by rw [hk, hn]; simp only [Nat.add_assoc]⟩, fun m hm time he => ?_⟩
  rw [record_log, List.mem_append, List.mem_singleton] at hm
  rcases hm with hm | rfl
  · exact h.closed m hm time he
  · cases he
    refine ⟨n, hzero, ?_⟩
    rw [hone]
    exact ClientState.reconnect_reconnectAtNs hfd _

theorem Timed.beat {p q : LoadClient × Kernel} {interArrivalNs : ℕ} (h : Timed k₀ p) (hb : Beat interArrivalNs p q) :
    Timed k₀ q := by
  cases hb with
  | wait n hk => exact h.of_goesOn (.of_log rfl) hk
  | act _ hq => exact h.of_goesOn (d := 0) hq.goesOn rfl
  | close hfd _ => exact h.close hfd rfl
  | message hk _ _ hon _ _ => exact h.of_goesOn hon hk
  | burst hk _ _ hon => exact h.of_goesOn hon hk

theorem Timed.beats {p q : LoadClient × Kernel} {interArrivalNs : ℕ} (h : Timed k₀ p) (hb : Beats interArrivalNs p q) :
    Timed k₀ q := by
  induction hb with
  | refl => exact h
  | tail _ hb ih => exact ih.beat hb

end LoadClient

namespace LoadGenerator

open LoadClient (Timed)

theorem run_timed (n numClients interArrivalNs : ℕ) (k : Kernel) :
    ∀ c ∈ ((new numClients interArrivalNs).run n k).1.clients,
      Timed k (c, ((new numClients interArrivalNs).run n k).2) := fun c hc => by
  obtain ⟨c₀, hc₀, hbeats⟩ := (run_spec n numClients interArrivalNs k).1.of_mem hc
  obtain ⟨i, -, rfl⟩ := List.mem_map.mp hc₀
  have hnew : Timed k ({ clientId := i + 1 }, k) := ⟨⟨0, rfl⟩, fun m hm => absurd hm List.not_mem_nil⟩
  exact hnew.beats hbeats

/-- As long as none of a client's attempts to connect has failed at once:
it attempts to connect again after a failure only when it has waited 50 ms for each failure since
the last Login Accepted, of which there is at least one, up to `RECONNECT_DELAY_MS`;
its backoff is that wait after anything that happens, so it grows by 50 ms with a failure, up to
that, and is 0 after a Login Accepted;
and when a connection ends, the time of the next attempt is exactly that wait after the next call
of the clock. -/
theorem attempts_back_off (n numClients interArrivalNs : ℕ) (k : Kernel) :
    ∀ c ∈ ((new numClients interArrivalNs).run n k).1.clients, ∀ past m rest, c.log = past ++ m :: rest →
      (∀ s, .attempt s false ∉ eventsLogged past) →
      (∀ time started, m.event = .attempt time started → ∀ failed, lastFailure (eventsLogged past) = some failed →
        1 ≤ failures (eventsLogged past) ∧ failed + backoffNs (failures (eventsLogged past)) ≤ time) ∧
      ((∀ s, m.event ≠ .attempt s false) →
        m.state.reconnectBackoffMs = min (50 * failures (eventsLogged (past ++ [m]))) ClientState.reconnectDelayMs) ∧
      ∀ time, m.event = .closed time → failures (eventsLogged (past ++ [m])) = failures (eventsLogged past) + 1 ∧
        ∃ i, k.clock i = time ∧
          m.state.reconnectAtNs = k.clock (i + 1) + backoffNs (failures (eventsLogged (past ++ [m]))) := by
  intro c hc past m rest hlog hprompt
  obtain ⟨t, hr, -⟩ := run_reached n numClients interArrivalNs k c hc
  have hbackoff : (∀ s, m.event ≠ .attempt s false) → m.state.reconnectBackoffMs =
      min (50 * failures (eventsLogged (past ++ [m]))) ClientState.reconnectDelayMs := fun hm => by
    refine hr.always (P := fun log state _ => LoadClient.Prompt (eventsLogged log) →
      state.reconnectBackoffMs = min (50 * failures (eventsLogged log)) ClientState.reconnectDelayMs)
      (fun c t h hp => (h.waits hp).backoff) hlog fun s hs => ?_
    rw [LoadClient.eventsLogged_append, List.mem_append] at hs
    exact hs.elim (hprompt s) fun hs => hm s (List.mem_singleton.mp hs).symm
  refine ⟨fun time started hm failed hfailed => ?_, hbackoff, fun time hm => ?_⟩
  · obtain ⟨c₀, t₀, hr₀, rfl, hguard⟩ := hr.before hlog
    rw [hm] at hguard
    obtain ⟨hpos, hle⟩ := (hr₀.waits hprompt).waits hguard.1 failed hfailed
    exact ⟨hpos, Nat.le_trans hle hguard.2.1⟩
  · have hmem : m ∈ c.log := hlog ▸ List.mem_append_right _ List.mem_cons_self
    obtain ⟨i, hi, hat⟩ := (run_timed n numClients interArrivalNs k c hc).closed m hmem time hm
    refine ⟨?_, i, hi, ?_⟩
    · rw [LoadClient.eventsLogged_append, show eventsLogged [m] = [.closed time] from congrArg (fun e => [e]) hm,
        LoadClient.failures_concat]
      rfl
    · rw [hat, hbackoff fun s e => by rw [hm] at e; cases e]
      rfl

/-- The connection has an error. A second passes with each call. -/
def resetting : Kernel where
  clock i := i * 1000000000
  clock_mono := monotone_seconds
  epollWait _ := .ready [(0, { error := true })]

theorem attempts_back_off_resetting : ∃ c ∈ ((new 1 0).run 2 resetting).1.clients, ∃ past closed attempt,
    c.log = past ++ [closed, attempt] ∧
      eventsLogged past = [.attempt 0 true, .closed 2000000000, .attempt 5000000000 true] ∧
      closed.event = .closed 7000000000 ∧ attempt.event = .attempt 10000000000 true ∧
      closed.state.reconnectBackoffMs = 100 ∧
      (∃ i, resetting.clock i = 7000000000 ∧ closed.state.reconnectAtNs = resetting.clock (i + 1) + backoffNs 2) ∧
      7000000000 + backoffNs 2 ≤ 10000000000 := by
  have hmem : _ ∈ ((new 1 0).run 2 resetting).1.clients := List.mem_singleton.mpr rfl
  obtain ⟨-, hbackoff, hclosed⟩ := attempts_back_off 2 1 0 resetting _ hmem [_, _, _] _ [_] rfl
    (show ∀ s, .attempt s false ∉ [ClientEvent.attempt 0 true, .closed 2000000000, .attempt 5000000000 true] by simp)
  obtain ⟨hattempt, -⟩ := attempts_back_off 2 1 0 resetting _ hmem [_, _, _, _] _ [] rfl
    (show ∀ s, .attempt s false ∉ [ClientEvent.attempt 0 true, .closed 2000000000, .attempt 5000000000 true,
      .closed 7000000000] by simp)
  exact ⟨_, hmem, [_, _, _], _, _, rfl, rfl, rfl, rfl, hbackoff nofun, (hclosed _ rfl).2, (hattempt _ _ rfl _ rfl).2⟩

/-- Every attempt to connect fails at once. -/
def refusing : Kernel where
  clock := id
  clock_mono := monotone_id
  connect _ := .failed

/-- An attempt that fails at once is repeated three calls of the clock later. -/
theorem refused_attempt_repeated : ∃ c ∈ ((new 1 0).run 1 refusing).1.clients,
    eventsLogged c.log = [.attempt 0 false, .attempt 3 false] ∧ 3 < 0 + backoffNs 1 :=
  ⟨_, List.mem_singleton.mpr rfl, rfl, by decide⟩

end LoadGenerator

end Exchange
