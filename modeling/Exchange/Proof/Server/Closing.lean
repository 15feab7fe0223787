import Exchange.Proof.Server.Acts

/-!
# Every connection is closed once

The notes of a connection are over before those of the next one in its slot, so one closed
generation for each slot is enough for `close_` to know what it has closed (`Closing`), and
nothing is sent on a connection after that.
-/

namespace Exchange

open Spec (LoggedIn Disconnected MayLogin Pushed Endable EndedOnce Sent notesOf)

/-- The connection a call is about. -/
def TcpCall.conn : TcpCall → ConnId
  | .send conn => conn
  | .close conn => conn

namespace Outbound

/-- Call `b` may follow `a`: after the end of a connection there is no call about it. -/
def MayFollow (a b : TcpCall) : Prop := ∀ conn, a = .close conn → b.conn ≠ conn

/-- What was closed, after the notes of the past. -/
structure Closing (past : List ServerNote) (s : Outbound) : Prop where
  known : ∀ conn, .close conn ∈ s.tcp.made → LoggedIn past conn ∨ Disconnected past conn
  /-- What was closed is the last that was closed in its slot, or over. -/
  last : ∀ conn, .close conn ∈ s.tcp.made →
    (s.connections conn.slot).closedGeneration = conn.generation ∨ Disconnected past conn
  recorded : ∀ slot, (s.connections slot).closedGeneration ≠ 0 →
    .close ⟨slot, (s.connections slot).closedGeneration⟩ ∈ s.tcp.made
  ended : ∀ conn, Disconnected past conn → .close conn ∈ s.tcp.made
  /-- Of two connections that logged in on a slot one is over. -/
  turns : ∀ k k', LoggedIn past k → LoggedIn past k' → k.slot = k'.slot → k ≠ k' →
    Disconnected past k ∨ Disconnected past k'
  order : s.tcp.made.Pairwise MayFollow

variable {past past' : List ServerNote} {s s' : Outbound} {slot : ℕ} {conn : ConnId}

theorem Closing.congr (h : s.Closing past)
    (hgen : ∀ j, (s'.connections j).closedGeneration = (s.connections j).closedGeneration)
    (hmade : s'.tcp.made = s.tcp.made) : s'.Closing past where
  known := hmade ▸ h.known
  last k hk := by
    rw [hgen]
    exact h.last k (hmade ▸ hk)
  recorded j hj := by
    rw [hgen] at hj ⊢
    exact hmade ▸ h.recorded j hj
  ended := hmade ▸ h.ended
  turns := h.turns
  order := hmade ▸ h.order

/-- An open connection has not been closed. -/
theorem Closing.not_closed (h : s.Closing past) (hlive : s.Live past slot) :
    TcpCall.close (s.connections slot).conn ∉ s.tcp.made := fun hm => by
  rcases h.last _ hm with hgen | hd
  · rw [hlive.slot_eq] at hgen
    exact hlive.generation hgen
  · exact hlive.alive hd

theorem Closing.send (h : s.Closing past) (hlive : s.Live past slot)
    (hgen : ∀ j, (s'.connections j).closedGeneration = (s.connections j).closedGeneration)
    (hmade : s'.tcp.made = s.tcp.made ++ [.send (s.connections slot).conn]) : s'.Closing past := by
  have hmem : ∀ k, .close k ∈ s'.tcp.made ↔ .close k ∈ s.tcp.made := fun k => by
    rw [hmade, List.mem_append, List.mem_singleton]
    exact or_iff_left TcpCall.noConfusion
  refine ⟨fun k hk => h.known k ((hmem k).mp hk), fun k hk => ?_, fun j hj => ?_,
    fun k hk => (hmem k).mpr (h.ended k hk), h.turns, ?_⟩
  · rw [hgen]
    exact h.last k ((hmem k).mp hk)
  · rw [hgen] at hj ⊢
    exact (hmem _).mpr (h.recorded j hj)
  · rw [hmade]
    refine List.pairwise_append.mpr ⟨h.order, List.pairwise_singleton .., fun a ha b hb k hk hconn => ?_⟩
    rw [List.mem_singleton.mp hb] at hconn
    exact h.not_closed hlive ((show (s.connections slot).conn = k from hconn) ▸ hk ▸ ha)

/-- A connection changes, but what was last closed in its slot does not. -/
theorem closedGeneration_update {x : OutboundConnection} (hconns : s'.connections = Function.update s.connections slot x)
    (hgen : x.closedGeneration = (s.connections slot).closedGeneration) (j : ℕ) :
    (s'.connections j).closedGeneration = (s.connections j).closedGeneration := by
  rw [hconns]
  by_cases hj : j = slot
  · rw [hj, Function.update_self, hgen]
  · rw [Function.update_of_ne hj]

/-- The call of `close`, when the connections that were closed in the slot are over. -/
theorem Closing.close (h : s.Closing past) (he : Ends past past' conn) (hlog : ∀ k, LoggedIn past' k → LoggedIn past k)
    (hnew : TcpCall.close conn ∉ s.tcp.made)
    (hover : ∀ k, .close k ∈ s.tcp.made → k.slot = conn.slot → Disconnected past' k)
    (hmade : s'.tcp.made = s.tcp.made ++ [.close conn])
    (hself : (s'.connections conn.slot).closedGeneration = conn.generation)
    (hother : ∀ j, j ≠ conn.slot → (s'.connections j).closedGeneration = (s.connections j).closedGeneration) :
    s'.Closing past' := by
  have hmem : ∀ k, .close k ∈ s'.tcp.made ↔ .close k ∈ s.tcp.made ∨ k = conn := fun k => by
    rw [hmade, List.mem_append, List.mem_singleton, TcpCall.close.injEq]
  refine ⟨fun k hk => ?_, fun k hk => ?_, fun j hj => ?_, fun k hk => ?_, fun k k' hk hk' hs hne => ?_, ?_⟩
  · rcases (hmem k).mp hk with hk | rfl
    · exact (h.known k hk).imp (loggedIn_mono he.subset) (disconnected_mono he.subset)
    · exact he.known
  · rcases (hmem k).mp hk with hk | rfl
    · by_cases hs : k.slot = conn.slot
      · exact .inr (hover k hk hs)
      · rw [hother _ hs]
        exact (h.last k hk).imp_right (disconnected_mono he.subset)
    · exact .inl hself
  · rw [hmem]
    by_cases hs : j = conn.slot
    · subst hs
      exact .inr (by rw [hself])
    · rw [hother j hs] at hj ⊢
      exact .inl (h.recorded j hj)
  · exact (hmem k).mpr ((he.gone k hk).imp_left (h.ended k))
  · exact (h.turns k k' (hlog k hk) (hlog k' hk') hs hne).imp (disconnected_mono he.subset)
      (disconnected_mono he.subset)
  · rw [hmade]
    refine List.pairwise_append.mpr ⟨h.order, List.pairwise_singleton .., fun a ha b hb k hk hconn => ?_⟩
    rw [List.mem_singleton.mp hb] at hconn
    exact hnew ((show conn = k from hconn) ▸ hk ▸ ha)

theorem close_of_eq (hgen : (s.connections conn.slot).closedGeneration = conn.generation) : s.close conn = s :=
  if_pos hgen

theorem close_of_ne (hgen : (s.connections conn.slot).closedGeneration ≠ conn.generation) :
    (s.close conn).tcp.made = s.tcp.made ++ [.close conn] ∧
      ((s.close conn).connections conn.slot).closedGeneration = conn.generation ∧
      ∀ j, j ≠ conn.slot → ((s.close conn).connections j).closedGeneration = (s.connections j).closedGeneration := by
  rcases close_cases s conn with ⟨heq, -⟩ | ⟨-, e⟩ | ⟨-, -, e⟩
  · exact absurd heq hgen
  all_goals
    rw [e]
    refine ⟨rfl, ?_, fun j hj => ?_⟩
    · show (Function.update s.connections conn.slot _ conn.slot).closedGeneration = _
      rw [Function.update_self]
      rfl
    · show (Function.update s.connections conn.slot _ j).closedGeneration = _
      rw [Function.update_of_ne hj]

/-- An open connection is closed, whatever the reason. -/
theorem Closing.close_live (h : s.Closing past) (hlive : s.Live past slot) :
    (s.close (s.connections slot).conn).Closing past := by
  have hnew := h.not_closed hlive
  have hgen := hlive.generation
  rw [← hlive.slot_eq] at hgen
  nth_rewrite 2 [hlive.slot_eq] at hgen
  obtain ⟨hmade, hself, hother⟩ := close_of_ne hgen
  refine h.close (.refl hlive.loggedIn) (fun _ hk => hk) hnew (fun k hk hs => ?_) hmade hself hother
  have hne : k ≠ (s.connections slot).conn := fun e => hnew (e ▸ hk)
  exact (h.known k hk).elim
    (fun hin => (h.turns k _ hin hlive.loggedIn hs hne).resolve_right hlive.alive) id

theorem loggedIn_of_disconnected {c : ℕ} {k : ConnId} (h : LoggedIn (past ++ [.disconnected c conn]) k) :
    LoggedIn past k := by
  rcases h with ⟨c', sequence, hm⟩ | ⟨reason, hm⟩
  · exact .inl ⟨c', sequence, (List.mem_append.mp hm).resolve_right fun hm => by cases List.mem_singleton.mp hm⟩
  · exact .inr ⟨reason, (List.mem_append.mp hm).resolve_right fun hm => by cases List.mem_singleton.mp hm⟩

/-- The end of a connection is noted. -/
theorem Closing.disconnect (h : s.Closing past) {c : ℕ} (hend : EndedOnce (past ++ [.disconnected c conn])) :
    (s.close conn).Closing (past ++ [.disconnected c conn]) := by
  obtain ⟨h0, hnot, hslot⟩ := hend past (.disconnected c conn) [] rfl
  have he := Ends.disconnected past c conn
  have hlog : ∀ k, LoggedIn (past ++ [.disconnected c conn]) k → LoggedIn past k := fun _ => loggedIn_of_disconnected
  by_cases hgen : (s.connections conn.slot).closedGeneration = conn.generation
  · -- it was closed before
    have hmem : TcpCall.close conn ∈ s.tcp.made := by
      have hr := h.recorded conn.slot (hgen ▸ h0)
      rwa [hgen] at hr
    rw [close_of_eq hgen]
    exact { h with
      known := fun k hk => (h.known k hk).imp (loggedIn_mono he.subset) (disconnected_mono he.subset)
      last := fun k hk => (h.last k hk).imp_right (disconnected_mono he.subset)
      ended := fun k hk => (he.gone k hk).elim (h.ended k) (· ▸ hmem)
      turns := fun k k' hk hk' hs hne => (h.turns k k' (hlog k hk) (hlog k' hk') hs hne).imp
        (disconnected_mono he.subset) (disconnected_mono he.subset) }
  · have hnew : TcpCall.close conn ∉ s.tcp.made := fun hm => (h.last conn hm).elim hgen hnot
    obtain ⟨hmade, hself, hother⟩ := close_of_ne hgen
    refine h.close he hlog hnew (fun k hk hs => ?_) hmade hself hother
    have hne : k ≠ conn := fun e => hnew (e ▸ hk)
    exact disconnected_mono he.subset ((h.known k hk).elim (hslot k hs hne) id)

/-- A note that ends no connection. -/
theorem Closing.concat (h : s.Closing past) {note : ServerNote} (hmay : ∀ k, LoggedIn [note] k → MayLogin past k)
    (hover : ∀ k, ¬ Disconnected [note] k) : s.Closing (past ++ [note]) := by
  have hsub : past ⊆ past ++ [note] := List.subset_append_left ..
  refine { h with
    known := fun k hk => (h.known k hk).imp (loggedIn_mono hsub) (disconnected_mono hsub)
    last := fun k hk => (h.last k hk).imp_right (disconnected_mono hsub)
    ended := fun k hk => h.ended k ((disconnected_append.mp hk).resolve_right (hover k))
    turns := fun k k' hk hk' hs hne => ?_ }
  rcases loggedIn_append.mp hk with hk | hk
  · rcases loggedIn_append.mp hk' with hk' | hk'
    · exact (h.turns k k' hk hk' hs hne).imp (disconnected_mono hsub) (disconnected_mono hsub)
    · exact .inl (disconnected_mono hsub ((hmay k' hk').2.2.2 k hs hk))
  · have hold := (loggedIn_append.mp hk').resolve_right fun hk' => hne (loggedIn_singleton hk hk').symm
    exact .inr (disconnected_mono hsub ((hmay k hk).2.2.2 k' hs.symm hold))

theorem closing_act {p p' : Point} (ha : Act p p') (h : EndedOnce p.past → p.state.Closing p.past)
    (hend : EndedOnce p'.past) : p'.state.Closing p'.past := by
  cases ha with
  | still hconns _ htcp _ =>
    refine (h hend).congr (fun j => ?_) (by rw [htcp])
    obtain ⟨-, -, -, -, -, -, hgen⟩ := view_eq (hconns j)
    exact hgen
  | gateway note =>
    refine (h (endedOnce_of_append hend)).concat ?_ ?_
    · rintro k (⟨_, _, hm⟩ | ⟨_, hm⟩) <;> cases List.mem_singleton.mp hm
    · rintro k ⟨_, hm⟩
      cases List.mem_singleton.mp hm
  | offline _ hconns _ htcp _ => exact (h hend).congr (fun j => by rw [hconns]) (by rw [htcp])
  | login hmay hin hover _ hconns _ hgen _ _ htcp _ =>
    refine ((h (endedOnce_of_append hend)).concat (fun k hk => loggedIn_singleton hin hk ▸ hmay) hover).congr
      (fun j => ?_) (by rw [htcp])
    exact closedGeneration_update hconns hgen j
  | queue _ ht _ htcp =>
    exact (h hend).congr (closedGeneration_update ht.conns ht.generation) (by rw [htcp])
  | close hlive => exact (h hend).close_live hlive
  | disconnect c conn => exact (h (endedOnce_of_append hend)).disconnect hend
  | send hlive _ ht _ hmade => exact (h hend).send hlive (closedGeneration_update ht.conns ht.generation) hmade
  | flushed _ _ _ => exact (h hend).congr (fun _ => rfl) rfl
  | settle _ => exact (h hend).congr (closedGeneration_update rfl rfl) rfl

/-- The thread when it starts. -/
theorem Closing.new (h : s.tcp.made = []) (hgen : ∀ j, (s.connections j).closedGeneration = 0) : s.Closing [] where
  known _ hm := absurd (h ▸ hm) List.not_mem_nil
  last _ hm := absurd (h ▸ hm) List.not_mem_nil
  recorded j hj := absurd (hgen j) hj
  ended _ := fun ⟨_, hm⟩ => absurd hm List.not_mem_nil
  turns k _ hk := by rcases hk with ⟨_, _, hm⟩ | ⟨_, hm⟩ <;> cases hm
  order := h ▸ .nil

theorem count_close_le_one {made : List TcpCall} (h : made.Pairwise MayFollow) (conn : ConnId) :
    made.count (.close conn) ≤ 1 := by
  induction made with
  | nil => exact Nat.zero_le _
  | cons call made ih =>
    obtain ⟨hcall, hmade⟩ := List.pairwise_cons.mp h
    rw [List.count_cons]
    split
    · next heq =>
      have hnot : TcpCall.close conn ∉ made := fun hm => hcall _ hm conn (eq_of_beq heq) rfl
      rw [List.count_eq_zero.mpr hnot]
    · exact ih hmade

/-- A session and the connection it feeds know each other. -/
theorem Ok.slot_eq_some_iff (h : s.Ok past) {c : ℕ} (h0 : c ≠ 0) : (s.sessions c).slot = some slot ↔
    (s.connections slot).isOpen ∧ (s.connections slot).clientId = c := by
  constructor
  · intro hs
    obtain ⟨ho, hc, -⟩ := h.slots c slot hs
    exact ⟨ho, hc⟩
  · rintro ⟨ho, rfl⟩
    obtain ⟨_, -, hf⟩ := (h.conns slot ho).feeds h0
    exact hf.slot_eq

end Outbound

/-- After every run of the outbound thread on notes the inbound thread can push, `close` was
called at most once for a connection and once if its end was noted, `send` was never called
on it after that, a session has a slot if and only if the connection there is open and the
session's, and what was sent on a connection is the stream of the session it logged into. -/
theorem connections_closed_once (k : ℕ) (clock : Clock) (takes : ℕ → ℕ) (sendableAt : ℕ → Bool)
    (steps : List Outbound.Step) (hpushed : Pushed (notesOf steps)) (hended : EndedOnce (notesOf steps)) :
    ∃ s, Outbound.run { soupReplayBytes := 2 ^ (k + 9), clock := clock, tcp := ⟨takes, sendableAt, 0, fun _ => [], []⟩ }
        steps = some s ∧
      (∀ conn, s.tcp.made.count (.close conn) ≤ 1) ∧
      (∀ conn, Disconnected (notesOf steps) conn → s.tcp.made.count (.close conn) = 1) ∧
      (∀ conn before after, s.tcp.made = before ++ .close conn :: after → .send conn ∉ after) ∧
      (∀ c slot, c ≠ 0 → ((s.sessions c).slot = some slot ↔
        (s.connections slot).isOpen ∧ (s.connections slot).clientId = c)) ∧
      (∀ conn c start, s.history.logins conn = some (.accepted c start) →
        ∃ sequence, .loginAccepted c conn sequence ∈ notesOf steps) ∧
      ∀ conn, Sent s.history.appended (s.history.logins conn) (s.tcp.accepted conn) := by
  obtain ⟨s, hrun, hok, hacts⟩ := Outbound.run_acts steps
    (Outbound.Ok.new k clock ⟨takes, sendableAt, 0, fun _ => [], []⟩ rfl) hpushed
  have hclosing : s.Closing (notesOf steps) :=
    Outbound.keeps_run (fun _ _ => Outbound.closing_act) hacts (fun _ => .new rfl fun _ => rfl) hended
  have hcount := Outbound.count_close_le_one hclosing.order
  refine ⟨s, hrun, hcount, fun conn hd => ?_, fun conn before after hmade hm => ?_, fun c slot h0 =>
    hok.slot_eq_some_iff h0, hok.accepted, hok.sent⟩
  · have hpos := List.count_pos_iff.mpr (hclosing.ended conn hd)
    have hle := hcount conn
    omega
  · have horder := hclosing.order
    rw [hmade] at horder
    exact (List.pairwise_cons.mp (List.pairwise_append.mp horder).2.1).1 _ hm conn rfl rfl

theorem connections_closed_once_sample : EndedOnce (notesOf sampleSteps) ∧
    ∃ s, Outbound.run { soupReplayBytes := 2 ^ (0 + 9), clock := ⟨id, id, UInt64.ofNat⟩, tcp := sampleTcp }
        sampleSteps = some s ∧
      s.tcp.made.count (.close ⟨0, 1⟩) = 1 ∧
      ∀ before after, s.tcp.made = before ++ .close ⟨0, 1⟩ :: after → .send ⟨0, 1⟩ ∉ after := by
  have hended : EndedOnce (notesOf sampleSteps) := by
    refine endedOnce_concat (endedOnce_concat (endedOnce_concat (endedOnce_concat endedOnce_nil ?_) ?_) ?_) ?_
    · trivial
    · trivial
    · simp [Endable, LoggedIn, Disconnected]
    · trivial
  obtain ⟨s, hrun, -, honce, hquiet, -⟩ := connections_closed_once 0 _ _ _ sampleSteps pushed_sampleSteps hended
  exact ⟨hended, s, hrun, honce ⟨0, 1⟩ ⟨1, by simp [sampleSteps, notesOf]⟩, hquiet ⟨0, 1⟩⟩

end Exchange
