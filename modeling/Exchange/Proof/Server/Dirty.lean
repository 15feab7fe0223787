import Exchange.Proof.Server.Acts

/-!
# No send is forgotten

A connection's flag says whether its slot is among those that will be flushed, and an open
connection with something to send is one of them, unless the stack cannot send on it
(`Tracked`). Every act of the outbound thread keeps that.
-/

namespace Exchange

open Spec (LoggedIn Pushed Unsent notesOf)

namespace Outbound

/-- The connection in a slot will be flushed if it has something to send, unless it cannot. -/
def Waits (s : Outbound) (slot : ℕ) : Prop :=
  (s.connections slot).isOpen → Unsent s slot →
    (s.connections slot).dirty ∨ s.history.unsendable (s.connections slot).conn

/-- The slots that will be flushed. -/
structure Tracked (p : Point) : Prop where
  flag : ∀ slot, (p.state.connections slot).dirty ↔ slot ∈ p.todo
  nodup : p.todo.Nodup
  known : ∀ slot ∈ p.todo, ∃ conn, LoggedIn p.past conn ∧ conn.slot = slot
  waits : ∀ slot, p.state.Waits slot

variable {past past' : List ServerNote} {s s' : Outbound} {slot : ℕ} {todo : List ℕ} {x : OutboundConnection}

theorem waits_of_dirty (h : (s.connections slot).dirty) : s.Waits slot := fun _ _ => .inl h

theorem Waits.congr (h : s.Waits slot) (hview : view (s'.connections slot) = view (s.connections slot))
    (hsess : (s.connections slot).isOpen → (s.connections slot).clientId ≠ 0 →
      s'.sessions (s.connections slot).clientId = s.sessions (s.connections slot).clientId)
    (hun : (s.connections slot).isOpen → s'.history.unsendable (s.connections slot).conn =
      s.history.unsendable (s.connections slot).conn) : s'.Waits slot := by
  obtain ⟨hconn, hopen, hdirty, -⟩ := view_eq hview
  intro ho hunsent
  rw [hopen] at ho
  rw [hconn, hdirty, hun ho]
  exact h ho ((unsent_congr hview (hsess ho)).mp hunsent)

/-- A connection's flag is set, and its slot is among those to flush. -/
theorem flag_marked (hflag : ∀ j, (s.connections j).dirty ↔ j ∈ todo)
    (hconns : s'.connections = Function.update s.connections slot x) (hdirty : x.dirty) (j : ℕ) :
    (s'.connections j).dirty ↔ j ∈ marked todo s slot := by
  have hmem : j ∈ marked todo s slot ↔ j ∈ todo ∨ j = slot := by
    unfold marked
    split
    · next hd => exact (or_iff_left_of_imp fun e => e ▸ (hflag slot).mp hd).symm
    · rw [List.mem_append, List.mem_singleton]
  rw [hmem, hconns]
  by_cases hj : j = slot
  · rw [hj, Function.update_self]
    exact iff_of_true hdirty (.inr rfl)
  · rw [Function.update_of_ne hj, hflag]
    exact (or_iff_left hj).symm

theorem nodup_marked (hflag : ∀ j, (s.connections j).dirty ↔ j ∈ todo) (hnodup : todo.Nodup) (slot : ℕ) :
    (marked todo s slot).Nodup := by
  unfold marked
  split
  · exact hnodup
  · next hd => exact List.nodup_append.mpr ⟨hnodup, List.nodup_singleton _, fun a ha b hb e =>
      hd ((hflag slot).mpr (List.mem_singleton.mp hb ▸ e ▸ ha))⟩

theorem mem_of_mem_marked {j : ℕ} (h : j ∈ marked todo s slot) : j ∈ todo ∨ j = slot := by
  unfold marked at h
  split at h
  · exact .inl h
  · exact (List.mem_append.mp h).imp_right List.mem_singleton.mp

/-- A connection is marked, and the others are left alone. -/
theorem Tracked.mark (h : Tracked ⟨past, todo, s⟩) (hsub : past ⊆ past')
    (hconns : s'.connections = Function.update s.connections slot x) (hdirty : x.dirty)
    (hknown : ∃ conn, LoggedIn past' conn ∧ conn.slot = slot)
    (hsess : ∀ j, j ≠ slot → (s.connections j).isOpen → (s.connections j).clientId ≠ 0 →
      s'.sessions (s.connections j).clientId = s.sessions (s.connections j).clientId)
    (hun : s'.history.unsendable = s.history.unsendable) : Tracked ⟨past', marked todo s slot, s'⟩ where
  flag := flag_marked h.flag hconns hdirty
  nodup := nodup_marked h.flag h.nodup slot
  known j hj := by
    rcases mem_of_mem_marked hj with hj | rfl
    · obtain ⟨conn, hin, hs⟩ := h.known j hj
      exact ⟨conn, loggedIn_mono hsub hin, hs⟩
    · exact hknown
  waits j := by
    by_cases hj : j = slot
    · subst hj
      exact waits_of_dirty (by rw [hconns, Function.update_self]; exact hdirty)
    · exact (h.waits j).congr (by rw [hconns, Function.update_of_ne hj]) (hsess j hj) fun _ => congrFun hun _

theorem connections_close (s : Outbound) (conn : ConnId) (j : ℕ) :
    (s.close conn).connections j = s.connections j ∨
      (s.close conn).connections j = withClosed (s.connections j) conn.generation ∨
      (s.close conn).connections j = ended (s.connections j) conn.generation := by
  rcases close_cases s conn with ⟨-, e⟩ | ⟨-, e⟩ | ⟨-, -, e⟩ <;> rw [e]
  · exact .inl rfl
  all_goals
    by_cases hj : j = conn.slot
    · subst hj
      simp only [Function.update_self, true_or, or_true]
    · simp only [Function.update_of_ne hj, true_or]

/-- What closing a connection leaves of those that are open. -/
theorem close_frame (s : Outbound) (conn : ConnId) (j : ℕ) :
    ((s.close conn).connections j).dirty = (s.connections j).dirty ∧
      (((s.close conn).connections j).isOpen → (s.connections j).isOpen ∧
        ((s.close conn).connections j).conn = (s.connections j).conn ∧
        ((s.close conn).connections j).clientId = (s.connections j).clientId ∧
        ((s.close conn).connections j).control = (s.connections j).control ∧
        ((s.close conn).connections j).controlSent = (s.connections j).controlSent) := by
  rcases connections_close s conn j with e | e | e <;> rw [e]
  · exact ⟨rfl, fun ho => ⟨ho, rfl, rfl, rfl, rfl⟩⟩
  · exact ⟨rfl, fun ho => ⟨ho, rfl, rfl, rfl, rfl⟩⟩
  · exact ⟨rfl, fun ho => absurd ho Bool.false_ne_true⟩

theorem cursor_close (s : Outbound) (conn : ConnId) (c : ℕ) :
    ((s.close conn).sessions c).cursor = (s.sessions c).cursor := by
  rcases close_cases s conn with ⟨-, e⟩ | ⟨-, e⟩ | ⟨-, -, e⟩ <;> rw [e]
  show (released s.sessions (s.connections conn.slot).clientId conn.slot c).cursor = _
  unfold released
  split
  · by_cases hc : c = (s.connections conn.slot).clientId
    · subst hc
      rw [Function.update_self]
    · rw [Function.update_of_ne hc]
  · rfl

theorem unsendable_close (s : Outbound) (conn : ConnId) :
    (s.close conn).history.unsendable = s.history.unsendable := by
  rcases close_cases s conn with ⟨-, e⟩ | ⟨-, e⟩ | ⟨-, -, e⟩ <;> rw [e]

theorem Waits.close (h : s.Waits slot) (conn : ConnId) : (s.close conn).Waits slot := by
  obtain ⟨hdirty, hrest⟩ := close_frame s conn slot
  intro ho hunsent
  obtain ⟨ho, hconn, hclient, hcontrol, hsent⟩ := hrest ho
  rw [hdirty, hconn, unsendable_close]
  refine h ho ?_
  unfold Unsent at hunsent ⊢
  dsimp only at hunsent ⊢
  rwa [hcontrol, hsent, hclient, log_close, cursor_close] at hunsent

theorem Tracked.close (h : Tracked ⟨past, todo, s⟩) (hsub : past ⊆ past') (conn : ConnId) :
    Tracked ⟨past', todo, s.close conn⟩ where
  flag j := by
    rw [(close_frame s conn j).1]
    exact h.flag j
  nodup := h.nodup
  known j hj := by
    obtain ⟨k, hin, hs⟩ := h.known j hj
    exact ⟨k, loggedIn_mono hsub hin, hs⟩
  waits j := (h.waits j).close conn

/-- A connection that is being flushed changes, but is not taken off the list. -/
theorem Tracked.touch (h : Tracked ⟨past, todo, s⟩) (hlive : s.Live past slot) (hmem : slot ∈ todo)
    (ht : Touches s s' slot x) (hdirty : x.dirty = (s.connections slot).dirty) : Tracked ⟨past, todo, s'⟩ := by
  have hself : s'.connections slot = x := by rw [ht.conns, Function.update_self]
  have hother : ∀ j, j ≠ slot → s'.connections j = s.connections j := fun j hj => by
    rw [ht.conns, Function.update_of_ne hj]
  refine ⟨fun j => ?_, h.nodup, h.known, fun j => ?_⟩
  · by_cases hj : j = slot
    · subst hj
      show (s'.connections j).dirty ↔ _
      rw [hself, hdirty]
      exact h.flag j
    · show (s'.connections j).dirty ↔ _
      rw [hother j hj]
      exact h.flag j
  · by_cases hj : j = slot
    · subst hj
      exact waits_of_dirty (by rw [hself, hdirty]; exact (h.flag j).mpr hmem)
    · exact (h.waits j).congr (by rw [hother j hj]) (fun ho h0 => ht.sessions _ (hlive.alone j hj ho h0))
        fun _ => congrFun ht.unsendable _

theorem Tracked.flushed (h : Tracked ⟨past, todo, s⟩) (hlive : s.Live past slot) (hmem : slot ∈ todo) (b : Bool) :
    Tracked ⟨past, todo, s.recordUnsendable (s.connections slot).conn b⟩ := by
  refine ⟨h.flag, h.nodup, h.known, fun j => ?_⟩
  by_cases hj : j = slot
  · subst hj
    exact waits_of_dirty ((h.flag j).mpr hmem)
  · exact (h.waits j).congr rfl (fun _ _ => rfl) fun ho => Function.update_of_ne (hlive.distinct j hj ho) ..

/-- A connection is taken off the list. -/
theorem Tracked.settle {kept slots : List ℕ} (h : Tracked ⟨past, kept ++ slot :: slots, s⟩)
    (hdone : (s.connections slot).isOpen → Unsent s slot → s.history.unsendable (s.connections slot).conn) :
    Tracked ⟨past, kept ++ slots, s.setConnection slot { s.connections slot with dirty := false }⟩ := by
  have hnodup : (slot :: (kept ++ slots)).Nodup := (List.perm_middle.nodup_iff).mp h.nodup
  obtain ⟨hnot, hrest⟩ := List.nodup_cons.mp hnodup
  have hmem : ∀ j, j ∈ kept ++ slot :: slots ↔ j = slot ∨ j ∈ kept ++ slots := fun j => by
    rw [List.perm_middle.mem_iff, List.mem_cons]
  refine ⟨fun j => ?_, hrest, fun j hj => h.known j ((hmem j).mpr (.inr hj)), fun j => ?_⟩
  · show (Function.update s.connections slot _ j).dirty ↔ _
    by_cases hj : j = slot
    · subst hj
      rw [Function.update_self]
      exact iff_of_false Bool.false_ne_true hnot
    · rw [Function.update_of_ne hj, h.flag, hmem]
      exact or_iff_right hj
  · by_cases hj : j = slot
    · subst hj
      intro ho hunsent
      rw [connections_setConnection] at ho ⊢
      refine .inr (hdone ho ?_)
      unfold Unsent at hunsent ⊢
      rwa [connections_setConnection] at hunsent
    · refine (h.waits j).congr ?_ (fun _ _ => rfl) fun _ => rfl
      show view (Function.update s.connections slot _ j) = _
      rw [Function.update_of_ne hj]

theorem tracked_act {p p' : Point} (ha : Act p p') (h : Tracked p) : Tracked p' := by
  cases ha with
  | still hconns hsess htcp hun =>
    refine ⟨fun j => ?_, h.nodup, h.known, fun j => ?_⟩
    · obtain ⟨-, -, hdirty, -⟩ := view_eq (hconns j)
      rw [hdirty]
      exact h.flag j
    · exact (h.waits j).congr (hconns j) (fun _ _ => congrFun hsess _) fun _ => congrFun hun _
  | gateway note =>
    refine ⟨h.flag, h.nodup, fun j hj => ?_, h.waits⟩
    obtain ⟨conn, hin, hs⟩ := h.known j hj
    exact ⟨conn, loggedIn_mono (List.subset_append_left ..) hin, hs⟩
  | offline hc hconns hsess htcp hun =>
    refine ⟨fun j => ?_, h.nodup, h.known, fun j => ?_⟩
    · rw [hconns]
      exact h.flag j
    · exact (h.waits j).congr (by rw [hconns]) (fun ho h0 => hsess _ (hc j ho h0)) fun _ => congrFun hun _
  | login hmay hin hover hfree hconns hconn hgen hdirty hsess htcp hun =>
    exact h.mark (List.subset_append_left ..) hconns hdirty ⟨_, loggedIn_append.mpr (.inr hin), rfl⟩
      (fun j _ ho h0 => hsess _ (hfree j ho h0)) hun
  | queue hlive ht hdirty htcp =>
    exact h.mark (List.Subset.refl _) ht.conns hdirty ⟨_, hlive.loggedIn, hlive.slot_eq⟩
      (fun j hj ho h0 => ht.sessions _ (hlive.alone j hj ho h0)) ht.unsendable
  | close hlive => exact h.close (List.Subset.refl _) _
  | disconnect c conn => exact h.close (List.subset_append_left ..) conn
  | send hlive hmem ht hdirty hmade => exact h.touch hlive hmem ht hdirty
  | flushed hlive hmem b => exact h.flushed hlive hmem b
  | settle hdone => exact h.settle hdone

/-- The thread when it starts. -/
theorem Tracked.new (h : s.connections = fun _ => {}) : Tracked ⟨[], [], s⟩ where
  flag j := by
    show (s.connections j).dirty ↔ _
    rw [h]
    exact iff_of_false Bool.false_ne_true List.not_mem_nil
  nodup := .nil
  known _ hm := absurd hm List.not_mem_nil
  waits j := fun ho => by
    rw [h] at ho
    exact absurd ho Bool.false_ne_true

end Outbound

/-- After every run of the outbound thread on notes the inbound thread can push, a
connection's flag is set if and only if its slot is in the list, which has every slot once,
and every open connection with bytes left to send is marked, unless the last flush of it saw
that it cannot be sent to. -/
theorem no_send_forgotten (k : ℕ) (clock : Clock) (takes : ℕ → ℕ) (sendableAt : ℕ → Bool)
    (steps : List Outbound.Step) (hpushed : Pushed (notesOf steps)) :
    ∃ s, Outbound.run { soupReplayBytes := 2 ^ (k + 9), clock := clock, tcp := ⟨takes, sendableAt, 0, fun _ => [], []⟩ }
        steps = some s ∧
      (∀ slot, (s.connections slot).dirty ↔ slot ∈ s.dirty) ∧
      s.dirty.Nodup ∧
      ((∀ conn, LoggedIn (notesOf steps) conn → conn.slot < Outbound.maxConnections) →
        s.dirty.length ≤ Outbound.maxConnections) ∧
      ∀ slot, (s.connections slot).isOpen → Unsent s slot →
        (s.connections slot).dirty ∨ s.history.unsendable (s.connections slot).conn := by
  obtain ⟨s, hrun, hok, hacts⟩ := Outbound.run_acts steps
    (Outbound.Ok.new k clock ⟨takes, sendableAt, 0, fun _ => [], []⟩ rfl) hpushed
  obtain ⟨hflag, hnodup, hknown, hwaits⟩ := Outbound.keeps_run (fun _ _ => Outbound.tracked_act) hacts (.new rfl)
  refine ⟨s, hrun, hflag, hnodup, fun hslots => ?_, hwaits⟩
  have hsub : s.dirty ⊆ List.range Outbound.maxConnections := fun slot hm => by
    obtain ⟨conn, hin, rfl⟩ := hknown slot hm
    exact List.mem_range.mpr (hslots conn hin)
  have hle := (List.subperm_of_subset hnodup hsub).length_le
  rwa [List.length_range] at hle

theorem no_send_forgotten_sample : Pushed (notesOf sampleSteps) ∧
    ∃ s, Outbound.run { soupReplayBytes := 2 ^ (0 + 9), clock := ⟨id, id, UInt64.ofNat⟩, tcp := sampleTcp }
        sampleSteps = some s ∧
      (∀ slot, (s.connections slot).dirty ↔ slot ∈ s.dirty) ∧ s.dirty.Nodup := by
  obtain ⟨s, hrun, hflag, hnodup, -⟩ := no_send_forgotten 0 _ _ _ sampleSteps pushed_sampleSteps
  exact ⟨pushed_sampleSteps, s, hrun, hflag, hnodup⟩

end Exchange
