import Exchange.Framework.Fairness
import Exchange.Proof.Server.Interleaving

/-!
# Every fair schedule completes the messages

The rings are bounded, a push to a full ring spins, and the outbound thread goes round its
loop when there is nothing to do. Still no order of the threads' steps in which each of them
runs again and again can keep a message from being completed: a thread that is `Enabled`
brings down `rank`, and a step that does not is a spin, which leaves the others as they are.
-/

namespace Exchange

open Spec (answered rejected sentTo deliveries rejections)
open Fairness (Fair Ranked)

namespace Threads

variable {s s' : Threads}

/-- There is nothing for the outbound thread to do. -/
def idle (s : Threads) : Bool := s.outbound.held.isEmpty && s.events.isEmpty && s.notes.isEmpty

/-- `work`, without the rounds of the outbound thread when there is nothing to do. -/
def rank (s : Threads) : ℕ ×ₗ ℕ ×ₗ ℕ ×ₗ ℕ :=
  toLex (s.inboundWork, toLex (s.engineWork, toLex (s.engine.unsent.length, if s.idle then 0 else s.outboundWork)))

/-- The thread's next step is no spin. -/
def Enabled : Thread → Threads → Prop
  | .inbound, s =>
    match s.note, s.request with
    | some _, _ => s.notes.length + 1 < communicationRingCount
    | none, some _ => s.requests.length + 1 < communicationRingCount
    | none, none => s.left ≠ []
  | .engine, s =>
    match s.engine with
    | .poll => s.requests ≠ []
    | .emit (_ :: _) _ => s.events.length + 1 < communicationRingCount
    | _ => True
  | .outbound, s => s.idle = false

theorem rank_lt_of_inbound (h : s'.inboundWork < s.inboundWork) : s'.rank < s.rank := .left _ _ h

theorem rank_lt_of_engine (hin : s'.inboundWork = s.inboundWork) (h : s'.engineWork < s.engineWork) :
    s'.rank < s.rank := by
  unfold rank
  rw [hin]
  exact .right _ (.left _ _ h)

/-- A push succeeds, or the ring is full. -/
theorem push_cases {α : Type} (ring : List α) (item : α) :
    RingBuffer.push ring item = some (ring ++ [item]) ∨
      RingBuffer.push ring item = none ∧ ¬ ring.length + 1 < communicationRingCount := by
  unfold RingBuffer.push
  split
  · exact .inl rfl
  · next hfull => exact .inr ⟨rfl, hfull⟩

theorem inboundStep_rank (h : s.inboundStep = some s') : s'.rank < s.rank ∨ ¬ Enabled .inbound s ∧ s' = s := by
  unfold inboundStep at h
  cases hnote : s.note with
  | some note =>
    simp only [hnote] at h
    rcases push_cases s.notes note with hp | ⟨hp, hfull⟩ <;> rw [hp] at h <;> obtain rfl := Option.some.inj h
    · exact .inl (rank_lt_of_inbound (by simp [inboundWork, hnote]))
    · exact .inr ⟨by simpa only [Enabled, hnote] using hfull, rfl⟩
  | none =>
    cases hrequest : s.request with
    | some request =>
      simp only [hnote, hrequest] at h
      rcases push_cases s.requests request with hp | ⟨hp, hfull⟩ <;> rw [hp] at h <;> obtain rfl := Option.some.inj h
      · exact .inl (rank_lt_of_inbound (by simp [inboundWork, hnote, hrequest]))
      · exact .inr ⟨by simpa only [Enabled, hnote, hrequest] using hfull, rfl⟩
    | none =>
      cases hleft : s.left with
      | nil =>
        simp only [hnote, hrequest, hleft] at h
        exact .inr ⟨by simp [Enabled, hnote, hrequest, hleft], (Option.some.inj h).symm⟩
      | cons m left =>
        simp only [hnote, hrequest, hleft] at h
        obtain ⟨⟨entry, t⟩, -, hs⟩ := Option.bind_eq_some_iff.mp h
        obtain rfl := Option.some.inj hs
        have hn : ∀ {α : Type} (x : Option α), x.toList.length ≤ 1 := fun x => by cases x <;> simp
        have hnote' := hn t.note
        have hrequest' := hn (t.request.map fun request => (Gateway.stamp m request, m.enginePopTsc))
        refine .inl (rank_lt_of_inbound ?_)
        simp only [inboundWork, hnote, hrequest, hleft, List.length_cons, Option.toList_none, List.length_nil]
        omega

theorem engineStep_rank {a : Arith} (h : s.engineStep a = some s') :
    s'.rank < s.rank ∨ ¬ Enabled .engine s ∧ s' = s := by
  unfold engineStep at h
  cases hpc : s.engine with
  | poll =>
    cases hring : s.requests with
    | nil =>
      simp only [hpc, hring] at h
      exact .inr ⟨by simp [Enabled, hpc, hring], (Option.some.inj h).symm⟩
    | cons cur requests =>
      simp only [hpc, hring] at h
      obtain rfl := Option.some.inj h
      refine .inl (rank_lt_of_engine rfl ?_)
      simp only [engineWork, hpc, hring, EnginePc.held, List.length_cons, List.length_nil]
      omega
  | peek cur =>
    simp only [hpc] at h
    obtain rfl := Option.some.inj h
    refine .inl (rank_lt_of_engine rfl ?_)
    cases hring : s.requests <;> simp [engineWork, hpc, hring, EnginePc.held]
    omega
  | execute cur nxt =>
    simp only [hpc] at h
    obtain ⟨⟨_, book⟩, -, hs⟩ := Option.bind_eq_some_iff.mp h
    obtain rfl := Option.some.inj hs
    refine .inl (rank_lt_of_engine rfl ?_)
    simp only [engineWork, hpc, EnginePc.held, List.length_cons]
    omega
  | emit unsent nxt =>
    cases unsent with
    | nil =>
      simp only [hpc] at h
      obtain rfl := Option.some.inj h
      refine .inl (rank_lt_of_engine rfl ?_)
      cases nxt <;> simp [engineWork, hpc, EnginePc.held, EnginePc.next]
    | cons event unsent =>
      simp only [hpc] at h
      rcases push_cases s.events event with hp | ⟨hp, hfull⟩ <;> rw [hp] at h <;> obtain rfl := Option.some.inj h
      · refine .inl ?_
        have hwork :
            engineWork { s with events := s.events ++ [event], engine := .emit unsent nxt } = s.engineWork := by
          simp only [engineWork, hpc, EnginePc.held]
        unfold rank
        rw [hwork, hpc]
        exact .right _ (.right _ (.left _ _ (Nat.lt_succ_self _)))
      · exact .inr ⟨by simpa only [Enabled, hpc] using hfull, rfl⟩

theorem idle_iff : s.idle = true ↔ s.outbound.held = [] ∧ s.events = [] ∧ s.notes = [] := by
  simp [idle, and_assoc]

theorem outboundStep_rank (clock noteClock : ℕ → UInt64) (s : Threads) :
    (s.outboundStep clock noteClock).rank < s.rank ∨ ¬ Enabled .outbound s ∧
      ∃ pc, pc.held = s.outbound.held ∧ s.outboundStep clock noteClock = { s with outbound := pc } := by
  have hmoves := s.outboundStep_moves clock noteClock
  generalize s.outboundStep clock noteClock = s' at hmoves
  cases hidle : s.idle with
  | false =>
    have hlt : s'.outboundWork < s.outboundWork := hmoves.work (by
      by_contra hall
      push Not at hall
      rw [idle_iff.mpr hall] at hidle
      cases hidle)
    obtain ⟨hin, heng, hpc⟩ := hmoves.frame
    refine .inl ?_
    unfold rank
    rw [hin, heng, hpc, hidle, if_neg Bool.false_ne_true]
    refine .right _ (.right _ (.right _ ?_))
    split
    · exact Nat.zero_lt_of_lt hlt
    · exact hlt
  | true =>
    obtain ⟨hheld, hevents, hnotes⟩ := idle_iff.mp hidle
    refine .inr ⟨fun he => ?_, ?_⟩
    · rw [show s.idle = false from he] at hidle
      cases hidle
    · cases hmoves with
      | note _ hring => rw [hnotes] at hring; cases hring
      | drained hpc => exact ⟨_, by rw [hpc]; rfl, rfl⟩
      | again hpc => exact ⟨_, by rw [hpc]; rfl, rfl⟩
      | take _ _ hring => rw [hevents] at hring; cases hring
      | caughtUp hpc => rw [hpc] at hheld; cases hheld
      | answer hpc => rw [hpc] at hheld; cases hheld

/-- When all threads spin, all is done. -/
theorem done_of_not_enabled (h : ∀ t, ¬ Enabled t s) : s.Done := by
  obtain ⟨hheld, hevents, hnotes⟩ := idle_iff.mp (Bool.of_not_eq_false (h .outbound))
  have hroom : (0 : ℕ) + 1 < communicationRingCount := by decide
  have hengine := h .engine
  have hinbound := h .inbound
  have hpc : s.engine = .poll ∧ s.requests = [] := by
    dsimp only [Enabled] at hengine
    cases hpc : s.engine with
    | poll => exact ⟨rfl, by simpa [hpc] using hengine⟩
    | emit unsent nxt =>
      rw [hpc, hevents] at hengine
      cases unsent with
      | nil => exact absurd trivial hengine
      | cons => exact absurd hroom hengine
    | _ =>
      rw [hpc] at hengine
      exact absurd trivial hengine
  have hread : s.left = [] ∧ s.note = none ∧ s.request = none := by
    dsimp only [Enabled] at hinbound
    rw [hnotes, hpc.2] at hinbound
    cases hnote : s.note with
    | some note => exact absurd hroom (by simpa [hnote] using hinbound)
    | none =>
      cases hrequest : s.request with
      | some request => exact absurd hroom (by simpa [hnote, hrequest] using hinbound)
      | none => exact ⟨by simpa [hnote, hrequest] using hinbound, rfl, rfl⟩
  refine ⟨hread.1, hread.2.1, hread.2.2, hnotes, hpc.2, hpc.1, hevents, ?_⟩
  cases hout : s.outbound with
  | drain => exact .inl rfl
  | poll n => exact .inr ⟨n, rfl⟩
  | _ =>
    rw [hout] at hheld
    cases hheld

theorem ranked (a : Arith) (clock noteClock : ℕ → UInt64) :
    Ranked (fun t s => step a clock noteClock s t) (fun _ => True) rank Enabled where
  moves {t s s'} _ h := by
    have hstay : s'.rank < s.rank ∨ ¬ Enabled t s ∧ s' = s →
        s'.rank < s.rank ∨ ¬ Enabled t s ∧ s'.rank = s.rank ∧ ∀ u, Enabled u s → Enabled u s' := by
      rintro (hlt | ⟨hne, rfl⟩)
      · exact .inl hlt
      · exact .inr ⟨hne, rfl, fun _ he => he⟩
    cases t with
    | inbound => exact hstay (inboundStep_rank h)
    | engine => exact hstay (engineStep_rank h)
    | outbound =>
      obtain rfl := Option.some.inj h
      rcases outboundStep_rank clock noteClock s with hlt | ⟨hne, pc, hheld, e⟩
      · exact .inl hlt
      · have hidle : idle { s with outbound := pc } = s.idle := by simp only [idle, hheld]
        have htrue : s.idle = true := Bool.of_not_eq_false hne
        rw [e]
        refine .inr ⟨hne, ?_, fun u he => ?_⟩
        · unfold rank
          rw [hidle, htrue, if_pos rfl, if_pos rfl]
          rfl
        · cases u with
          | outbound => exact hidle.trans he
          | _ => exact he

/-- Once all is done, it stays so. -/
theorem Done.step {a : Arith} {clock noteClock : ℕ → UInt64} {t : Thread} (h : s.Done)
    (hs : s.step a clock noteClock t = some s') : s'.Done := by
  have hdone := h
  obtain ⟨hleft, hnote, hrequest, hnotes, hrequests, hengine, hevents, hout⟩ := h
  cases t with
  | inbound =>
    have hs : s.inboundStep = some s' := hs
    simp only [inboundStep, hnote, hrequest, hleft] at hs
    exact Option.some.inj hs ▸ hdone
  | engine =>
    have hs : s.engineStep a = some s' := hs
    simp only [engineStep, hengine, hrequests] at hs
    exact Option.some.inj hs ▸ hdone
  | outbound =>
    have hmoves := s.outboundStep_moves clock noteClock
    rw [show s.outboundStep clock noteClock = s' from Option.some.inj hs] at hmoves
    cases hmoves with
    | note _ hring => rw [hnotes] at hring; cases hring
    | drained => exact ⟨hleft, hnote, hrequest, hnotes, hrequests, hengine, hevents, .inr ⟨0, rfl⟩⟩
    | again => exact ⟨hleft, hnote, hrequest, hnotes, hrequests, hengine, hevents, .inl rfl⟩
    | take _ _ hring => rw [hevents] at hring; cases hring
    | caughtUp hpc => simp [hpc] at hout
    | answer hpc => simp [hpc] at hout

/-- The schedule's first `n` steps. -/
def runFor (a : Arith) (clock noteClock : ℕ → UInt64) (s : Threads) (schedule : ℕ → Thread) (n : ℕ) : Option Threads :=
  s.run a clock noteClock ((List.range n).map schedule)

theorem runFor_succ (a : Arith) (clock noteClock : ℕ → UInt64) (s : Threads) (schedule : ℕ → Thread) (n : ℕ) :
    s.runFor a clock noteClock schedule (n + 1) =
      (s.runFor a clock noteClock schedule n).bind fun s => s.step a clock noteClock (schedule n) := by
  unfold runFor
  rw [List.range_succ, List.map_append, run_append]
  congr 1
  funext s
  rw [List.map_singleton, run_cons]
  cases s.step a clock noteClock (schedule n) <;> rfl

end Threads

/-- However the threads take turns, if each of them runs again and again, all messages are
completed: after finitely many steps every message has been read, nothing is in a ring or
with a thread, and each client has been sent exactly what the run that completes each message
before the next sends it, timestamps aside. -/
theorem fair_schedule_completes (capacity soupReplayBytes : ℕ) (env env' : Env) (clock clock' noteClock : ℕ → UInt64)
    (ms : List Inbound) (schedule : ℕ → Thread) (hfair : ∀ t n, ∃ m, n ≤ m ∧ schedule m = t) :
    ∃ g handled, (∀ a, Gateway.run a clock (Gateway.new capacity soupReplayBytes env) ms = some (g, handled)) ∧
      ∃ n, ∀ m, n ≤ m → ∃ s, (∀ a, (Threads.new capacity env' ms).runFor a clock' noteClock schedule m = some s) ∧
        s.Done ∧ ∀ c,
          sentTo c ((answered s.log).filterMap Prod.snd) = sentTo c ((deliveries handled).filterMap Prod.snd) ∧
          sentTo c (rejected s.log) = sentTo c (rejections handled) := by
  obtain ⟨g, v, handled, hrun, ht⟩ := (Gateway.Ok.new capacity soupReplayBytes env).trail clock ms
  have hnew := Threads.Inv.new capacity env' ht rfl rfl
  choose run hrun' hinv using fun n =>
    hnew.run ht rfl (fun _ => rfl) clock' noteClock ((List.range n).map schedule)
  have hstep : ∀ n, (run n).step .wrapping clock' noteClock (schedule n) = some (run (n + 1)) := fun n => by
    have hn := Threads.runFor_succ .wrapping clock' noteClock (Threads.new capacity env' ms) schedule n
    unfold Threads.runFor at hn
    rw [hrun' (n + 1), hrun' n, Option.bind_some] at hn
    exact hn.symm
  obtain ⟨n, hn⟩ := (Threads.ranked .wrapping clock' noteClock).ends hfair (fun _ => trivial) hstep
  have hdone : ∀ m, n ≤ m → (run m).Done := fun m hm => by
    induction m, hm using Nat.le_induction with
    | base => exact Threads.done_of_not_enabled hn
    | succ m _ ih => exact ih.step (hstep m)
  refine ⟨g, handled, hrun, n, fun m hm => ⟨run m, hrun' m, hdone m hm, fun c => ?_⟩⟩
  obtain ⟨happ, hev⟩ := (hinv m).done (hdone m hm)
  constructor
  · rw [sentTo_answers, sentTo_answers, (hinv m).answered_eq, ht.deliveries_eq rfl, hev]
  · rw [sentTo, sentTo, (hinv m).rejected_eq, ht.rejections_eq, happ]

/-- The threads run one after the other. -/
def roundRobin (n : ℕ) : Thread :=
  match n % 3 with
  | 0 => .inbound
  | 1 => .engine
  | _ => .outbound

theorem roundRobin_fair (t : Thread) (n : ℕ) : ∃ m, n ≤ m ∧ roundRobin m = t := by
  cases t with
  | inbound => exact ⟨3 * n, by omega, by simp [roundRobin]⟩
  | engine => exact ⟨3 * n + 1, by omega, by simp [roundRobin, Nat.add_mod]⟩
  | outbound => exact ⟨3 * n + 2, by omega, by simp [roundRobin, Nat.add_mod]⟩

/-- An order is entered and canceled, in threads that run one after the other. -/
theorem roundRobin_completes : ∃ n s, (∀ a, (Threads.new 4 sampleEnv [sampleEnter, sampleCancel]).runFor a (fun _ => 0)
    (fun _ => 0) roundRobin n = some s) ∧ s.Done := by
  obtain ⟨_, _, -, n, h⟩ := fair_schedule_completes 4 32 sampleEnv sampleEnv (fun _ => 0) (fun _ => 0) (fun _ => 0)
    [sampleEnter, sampleCancel] roundRobin roundRobin_fair
  obtain ⟨s, hs, hd, -⟩ := h n (Nat.le_refl n)
  exact ⟨n, s, hs, hd⟩

end Exchange
