import Exchange.Proof.Client.EventLoop

/-!
# The pace of a client

With a time between two messages, `buildBatch` queues one message at most, and only when the time
of the last one is over; the time is counted from when a message is queued (`Beat.message`). So a
client never catches up: from any point of a run on it queues no more messages than intervals have
begun since then (`messages_paced`).
-/

namespace Exchange

open Spec (eventsLogged messagesQueued)

namespace LoadClient

variable {c c' : LoadClient} {k k' : Kernel} {t t' base start interArrivalNs : ℕ}

/-- At time `t`: the messages after the first `base`, since `start`, have used up the time to the
next slot, and that is not more than one interval ahead. -/
structure Paced (base start interArrivalNs : ℕ) (c : LoadClient) (t : ℕ) : Prop where
  started : start ≤ t
  slot : c.nextSendNs ≤ t + interArrivalNs
  spent : ∃ n, (messagesQueued c.events).length ≤ base + n ∧ (n = 0 ∨ start + n * interArrivalNs ≤ c.nextSendNs)

theorem Paced.quiet (h : Paced base start interArrivalNs c t) (hq : Quiet c c') (ht : t ≤ t') :
    Paced base start interArrivalNs c' t' := by
  refine ⟨Nat.le_trans h.started ht, ?_, ?_⟩
  · rw [hq.slot]
    exact Nat.le_trans h.slot (Nat.add_le_add_right ht _)
  · rw [hq.messages, hq.slot]
    exact h.spent

theorem Paced.message {now : ℕ} (h : Paced base start interArrivalNs c t) (hdue : c.nextSendNs ≤ t)
    (hone : (messagesQueued c'.events).length ≤ (messagesQueued c.events).length + 1) (ht : t ≤ now)
    (hslot : c'.nextSendNs = now + interArrivalNs) (ht' : now ≤ t') : Paced base start interArrivalNs c' t' := by
  obtain ⟨hstarted, -, n, hn, hspent⟩ := h
  refine ⟨by omega, by omega, n + 1, by omega, .inr ?_⟩
  rw [hslot, Nat.add_mul, Nat.one_mul]
  rcases hspent with rfl | hspent
  · omega
  · omega

theorem Paced.beat (hrate : 0 < interArrivalNs) (h : Paced base start interArrivalNs c k.time)
    (hb : Beat interArrivalNs (c, k) (c', k')) : Paced base start interArrivalNs c' k'.time := by
  have hle : k.time ≤ k'.time := hb.le
  cases hb with
  | wait _ _ => exact h.quiet ⟨.of_log rfl, rfl, rfl⟩ hle
  | act _ hq => exact h.quiet hq hle
  | close _ _ => exact ⟨Nat.le_trans h.started hle, Nat.le_trans h.slot (Nat.add_le_add_right hle _), by
      rw [record_events, messagesQueued_concat]
      exact (List.append_nil (messagesQueued c.events)).symm ▸ h.spent⟩
  | message hk _ hdue _ hone hslot =>
    refine h.message hdue hone (k.clock_mono (Nat.zero_le 1)) hslot ?_
    rw [Kernel.time, hk]
    exact k.clock_mono (Nat.le_succ 1)
  | burst _ _ hzero _ => exact absurd hzero (Nat.ne_of_gt hrate)

theorem Paced.beats {p q : LoadClient × Kernel} (hrate : 0 < interArrivalNs)
    (h : Paced base start interArrivalNs p.1 p.2.time) (hb : Beats interArrivalNs p q) :
    Paced base start interArrivalNs q.1 q.2.time := by
  induction hb with
  | refl => exact h
  | tail _ hb ih => exact ih.beat hrate hb

/-- The messages after the first `base` are no more than intervals have begun. -/
theorem Paced.length_le (hrate : 0 < interArrivalNs) (h : Paced base start interArrivalNs c t) :
    (messagesQueued c.events).length ≤ base + (t - start) / interArrivalNs + 1 := by
  obtain ⟨hstarted, hslot, n, hn, rfl | hspent⟩ := h
  · exact Nat.le_succ_of_le (Nat.le_trans hn (Nat.le_add_right _ _))
  · have hdiv := (Nat.le_div_iff_mul_le hrate).mpr
      (show n * interArrivalNs ≤ t - start + interArrivalNs by omega)
    rw [Nat.add_div_right _ hrate] at hdiv
    omega

end LoadClient

namespace LoadGenerator

open LoadClient (Paced)

/-- With a time between two messages, and whatever the sockets do: between any two iterations of a
run, a client queues at most one message, and one more for each interval that is over meanwhile; and
so it does from the start. It never catches up on intervals that it missed. -/
theorem messages_paced (n numClients interArrivalNs : ℕ) (hrate : 0 < interArrivalNs) (k : Kernel) :
    (∀ c ∈ ((new numClients interArrivalNs).run n k).1.clients,
      (messagesQueued (eventsLogged c.log)).length ≤
        (((new numClients interArrivalNs).run n k).2.time - k.time) / interArrivalNs + 1) ∧
    ∀ more, List.Forall₂ (fun c c' => (messagesQueued (eventsLogged c'.log)).length ≤
        (messagesQueued (eventsLogged c.log)).length + (((new numClients interArrivalNs).run (n + more) k).2.time -
          ((new numClients interArrivalNs).run n k).2.time) / interArrivalNs + 1)
      ((new numClients interArrivalNs).run n k).1.clients
      ((new numClients interArrivalNs).run (n + more) k).1.clients := by
  have hpaced : ∀ c ∈ ((new numClients interArrivalNs).run n k).1.clients,
      Paced 0 k.time interArrivalNs c ((new numClients interArrivalNs).run n k).2.time := fun c hc => by
    obtain ⟨c₀, hc₀, hbeats⟩ := (run_spec n numClients interArrivalNs k).1.of_mem hc
    obtain ⟨i, -, rfl⟩ := List.mem_map.mp hc₀
    have hnew : Paced 0 k.time interArrivalNs { clientId := i + 1 } k.time :=
      ⟨Nat.le_refl _, Nat.zero_le _, 0, Nat.le_refl _, .inl rfl⟩
    exact hnew.beats hrate hbeats
  refine ⟨fun c hc => ?_, fun more => ?_⟩
  · have hle := (hpaced c hc).length_le hrate
    rwa [Nat.zero_add] at hle
  · refine ((List.forall₂_and_left _ _).mpr ⟨hpaced, (run_add_beats n more numClients interArrivalNs k).clients⟩).imp ?_
    rintro c c' ⟨hc, hbeats⟩
    have hnow : Paced (messagesQueued c.events).length ((new numClients interArrivalNs).run n k).2.time interArrivalNs c
        ((new numClients interArrivalNs).run n k).2.time := ⟨Nat.le_refl _, hc.slot, 0, Nat.le_refl _, .inl rfl⟩
    exact (hnow.beats hrate hbeats).length_le hrate

theorem monotone_pause : Monotone fun i : ℕ => if i < 9 then i else i + 100 := fun i j h => by
  dsimp only
  split <;> split <;> omega

/-- A client logs in, and a call of the clock takes long. -/
def sleeping : Kernel where
  clock i := if i < 9 then i else i + 100
  clock_mono := monotone_pause
  epollWait
    | 0 => .ready [(0, { output := true })]
    | 1 => .ready [(0, { input := true })]
    | _ => .ready []
  send _ := .sent WriteBuffer.writeBufBytes
  recv _ := .bytes (Outbound.loginAcceptedPacket 1)

/-- The call takes 25 intervals, and the two iterations after it have room for three messages. -/
theorem messages_paced_sleeping : ∃ c c', ((new 1 4).run 2 sleeping).1.clients = [c] ∧
    ((new 1 4).run 4 sleeping).1.clients = [c'] ∧ (messagesQueued (eventsLogged c.log)).length = 2 ∧
    (messagesQueued (eventsLogged c'.log)).length = 4 ∧ ((new 1 4).run 2 sleeping).2.time = 112 ∧
    ((new 1 4).run 4 sleeping).2.time = 122 ∧ 4 ≤ 2 + (122 - 112) / 4 + 1 := by
  have hrun : (((new 1 4).run 2 sleeping).1.clients.map fun c => (messagesQueued (eventsLogged c.log)).length) = [2] ∧
      (((new 1 4).run 4 sleeping).1.clients.map fun c => (messagesQueued (eventsLogged c.log)).length) = [4] ∧
      ((new 1 4).run 2 sleeping).2.time = 112 ∧ ((new 1 4).run 4 sleeping).2.time = 122 := by
    decide +kernel
  simp only [List.map_eq_singleton_iff] at hrun
  obtain ⟨⟨c, hc, hmessages⟩, ⟨c', hc', hmessages'⟩, htime, htime'⟩ := hrun
  have hpaced := (messages_paced 2 1 4 (by decide) sleeping).2 2
  rw [hc, hc', htime, htime', List.forall₂_cons, hmessages, hmessages'] at hpaced
  exact ⟨c, c', hc, hc', hmessages, hmessages', htime, htime', hpaced.1⟩

end LoadGenerator

end Exchange
