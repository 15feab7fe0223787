import Exchange.Proof.Server.Outbound

/-!
# What steps of the outbound thread leave alone

Most of what the outbound thread does appends no packet and answers no login, and keeps the
logs of the sessions and the bytes that were accepted (`Leaves`). A login note answers its
login, with the answer `answer` of `accept_login_` (`Answers`), and a response is one packet
more for its session, if the session has a log (`Appends`). So bytes and packets are only
added, and only a login note answers a login (`Grows`, `step_grows`).
-/

namespace Exchange

namespace Outbound

/-- From `s` to `s'` nothing is appended, sessions keep their logs, bytes are only added, and
the responder has nothing to do. -/
structure Keeps (s s' : Outbound) : Prop where
  responder : s'.responder = s.responder
  appended : s'.history.appended = s.history.appended
  logs : ∀ c, (s.sessions c).log.isSome → (s'.sessions c).log.isSome
  accepted : ∀ conn, s.tcp.accepted conn <+: s'.tcp.accepted conn

/-- From `s` to `s'` no login is answered either. -/
structure Leaves (s s' : Outbound) : Prop extends Keeps s s' where
  logins : s'.history.logins = s.history.logins

/-- From `s` to `s'` the login of `conn` is answered. -/
structure Answers (s s' : Outbound) (conn : ConnId) (login : Login) : Prop extends Keeps s s' where
  logins : s'.history.logins = Function.update s.history.logins conn (some login)

/-- From `s` to `s'` a packet is appended to the session of client `c`. -/
structure Appends (s s' : Outbound) (c : ℕ) (packet : List UInt8) : Prop where
  responder : s'.responder = s.responder
  appended : s'.history.appended = Function.update s.history.appended c (s.history.appended c ++ [packet])
  logs : ∀ c, (s.sessions c).log.isSome → (s'.sessions c).log.isSome
  accepted : ∀ conn, s.tcp.accepted conn <+: s'.tcp.accepted conn
  logins : s'.history.logins = s.history.logins

/-- From `s` to `s'` no login is answered, and bytes and packets are only added. -/
structure Grows (s s' : Outbound) : Prop where
  logins : s'.history.logins = s.history.logins
  appended : ∀ c, s.history.appended c <+: s'.history.appended c
  accepted : ∀ conn, s.tcp.accepted conn <+: s'.tcp.accepted conn

variable {s s' s'' s₃ : Outbound} {conn : ConnId} {login : Login} {c : ℕ} {packet : List UInt8}

theorem Leaves.of_eq
    (h : (s'.responder, s'.sessions, s'.tcp.accepted, s'.history.logins, s'.history.appended) =
      (s.responder, s.sessions, s.tcp.accepted, s.history.logins, s.history.appended)) : Leaves s s' := by
  simp only [Prod.mk.injEq] at h
  obtain ⟨hresponder, hsessions, haccepted, hlogins, happended⟩ := h
  exact ⟨⟨hresponder, happended, fun c hc => hsessions ▸ hc, fun _ => haccepted ▸ List.prefix_rfl⟩, hlogins⟩

theorem Leaves.refl (s : Outbound) : Leaves s s := .of_eq rfl

theorem Keeps.trans (h : Keeps s s') (h' : Keeps s' s'') : Keeps s s'' :=
  ⟨h'.responder.trans h.responder, h'.appended.trans h.appended, fun c hc => h'.logs c (h.logs c hc),
    fun conn => (h.accepted conn).trans (h'.accepted conn)⟩

theorem Leaves.trans (h : Leaves s s') (h' : Leaves s' s'') : Leaves s s'' :=
  ⟨h.toKeeps.trans h'.toKeeps, h'.logins.trans h.logins⟩

/-- An answer among other things. -/
theorem Answers.among (h : Leaves s s') (ha : Answers s' s'' conn login) (h' : Leaves s'' s₃) :
    Answers s s₃ conn login :=
  ⟨(h.toKeeps.trans ha.toKeeps).trans h'.toKeeps, by rw [h'.logins, ha.logins, h.logins]⟩

/-- A packet among other things. -/
theorem Appends.among (h : Leaves s s') (ha : Appends s' s'' c packet) (h' : Leaves s'' s₃) : Appends s s₃ c packet :=
  ⟨by rw [h'.responder, ha.responder, h.responder], by rw [h'.appended, ha.appended, h.appended],
    fun c hc => h'.logs c (ha.logs c (h.logs c hc)),
    fun k => ((h.accepted k).trans (ha.accepted k)).trans (h'.accepted k), by rw [h'.logins, ha.logins, h.logins]⟩

theorem Leaves.grows (h : Leaves s s') : Grows s s' := ⟨h.logins, fun _ => by rw [h.appended], h.accepted⟩

theorem Appends.grows (h : Appends s s' c packet) : Grows s s' := by
  refine ⟨h.logins, fun c' => ?_, h.accepted⟩
  rw [h.appended]
  by_cases e : c' = c
  · subst e
    rw [Function.update_self]
    exact List.prefix_append _ _
  · rw [Function.update_of_ne e]

theorem Grows.trans (h : Grows s s') (h' : Grows s' s'') : Grows s s'' :=
  ⟨h'.logins.trans h.logins, fun c => (h.appended c).trans (h'.appended c),
    fun conn => (h.accepted conn).trans (h'.accepted conn)⟩

theorem setConnection_leaves (s : Outbound) (slot : ℕ) (x : OutboundConnection) : Leaves s (s.setConnection slot x) :=
  .of_eq rfl

theorem setSession_leaves {session : OutboundSession} (h : (s.sessions c).log.isSome → session.log.isSome) :
    Leaves s (s.setSession c session) := by
  refine ⟨⟨rfl, rfl, fun c' hc => ?_, fun _ => List.prefix_rfl⟩, rfl⟩
  show (Function.update s.sessions c session c').log.isSome
  by_cases e : c' = c
  · subst e
    rw [Function.update_self]
    exact h hc
  · rw [Function.update_of_ne e]
    exact hc

theorem markDirty_leaves (s : Outbound) (slot : ℕ) : Leaves s (s.markDirty slot) := by
  unfold markDirty
  dsimp only
  split
  · exact .refl s
  · exact .of_eq rfl

theorem recordOverwritten_leaves (s : Outbound) (x : OutboundConnection) : Leaves s (s.recordOverwritten x) := by
  unfold recordOverwritten
  split
  · exact .refl s
  · exact .of_eq rfl

theorem sendControl_leaves (s : Outbound) (slot : ℕ) (packet : List UInt8) : Leaves s (s.sendControl slot packet) :=
  ((recordOverwritten_leaves s _).trans (setConnection_leaves _ _ _)).trans (markDirty_leaves _ _)

theorem close_leaves (s : Outbound) (conn : ConnId) : Leaves s (s.close conn) := by
  have hlogs : ∀ c, (s.sessions c).log.isSome → ((s.close conn).sessions c).log.isSome := fun c h => by
    rw [log_close]
    exact h
  rcases close_cases s conn with ⟨-, e⟩ | ⟨-, e⟩ | ⟨-, -, e⟩ <;> rw [e] at hlogs ⊢
  · exact .refl s
  · exact .of_eq rfl
  · exact ⟨⟨rfl, rfl, hlogs, fun _ => List.prefix_rfl⟩, rfl⟩

/-! ## Responses -/

theorem dropSlow_leaves (s : Outbound) (c : ℕ) (log : SessionLog) (len : ℕ) : Leaves s (s.dropSlow c log len) := by
  unfold dropSlow
  split
  · exact .refl s
  · split
    · exact close_leaves s _
    · exact .refl s

theorem recordAppended_appends (s : Outbound) (c : ℕ) (packet : List UInt8) :
    Appends s (s.recordAppended c packet) c packet := ⟨rfl, rfl, fun _ h => h, fun _ => List.prefix_rfl, rfl⟩

theorem storeRetained_leaves (s : Outbound) (c firstBefore first : ℕ) :
    Leaves s (s.storeRetained c firstBefore first) := by
  unfold storeRetained
  split
  · exact .of_eq rfl
  · exact .refl s

theorem sendSequenced_appends (hlog : (s.sessions c).log.isSome) (packet : List UInt8) :
    Appends s (s.sendSequenced c packet) c packet := by
  unfold sendSequenced
  split
  · next hnone =>
    rw [hnone] at hlog
    cases hlog
  · next log _ =>
    dsimp only
    have h := (dropSlow_leaves s c log packet.length).trans (setSession_leaves (c := c) fun _ =>
      (rfl : (OutboundSession.log { (s.dropSlow c log packet.length).sessions c with
        log := some (log.append packet) }).isSome = true))
    refine .among h (recordAppended_appends _ c packet)
      (.trans (storeRetained_leaves _ c log.firstSeq (log.append packet).firstSeq) ?_)
    split
    · exact .refl _
    · exact markDirty_leaves _ _

theorem sendOuch_grows (s : Outbound) (response : OuchResponse) : Grows s (s.sendOuch response) := by
  unfold sendOuch
  dsimp only
  split
  · exact (Leaves.refl s).grows
  · cases hlog : (s.sessions response.clientId).log with
    | none =>
      rw [sendSequenced, hlog]
      exact (Leaves.refl s).grows
    | some log => exact (sendSequenced_appends (hlog ▸ rfl) _).grows

/-- The responder's answer, if there is one, is sent. -/
theorem respond_grows (s : Outbound) (responder : OuchResponder) (reads : ℕ) (response : Option OuchResponse) :
    Grows s (match response with
      | none => { s with responder := responder, reads := reads }
      | some response => Outbound.sendOuch { s with responder := responder, reads := reads } response) := by
  cases response with
  | none => exact ⟨rfl, fun _ => List.prefix_rfl, fun _ => List.prefix_rfl⟩
  | some response =>
    obtain ⟨hlogins, happended, haccepted⟩ := sendOuch_grows { s with responder := responder, reads := reads } response
    exact ⟨hlogins, happended, haccepted⟩

/-! ## Sending -/

theorem send_leaves (s : Outbound) (conn : ConnId) (bytes : List UInt8) :
    Leaves s { s with tcp := (s.tcp.send conn bytes).2 } := by
  refine ⟨⟨rfl, rfl, fun _ h => h, fun conn' => ?_⟩, rfl⟩
  show s.tcp.accepted conn' <+: Function.update s.tcp.accepted conn _ conn'
  by_cases h : conn' = conn
  · subst h
    rw [Function.update_self]
    exact List.prefix_append _ _
  · rw [Function.update_of_ne h]

theorem flushControl_leaves (s : Outbound) (slot : ℕ) : Leaves s (s.flushControl slot).2.2 := by
  unfold flushControl
  dsimp only
  split
  · exact (send_leaves s _ _).trans (setConnection_leaves _ _ _)
  · exact .refl s

theorem flushLog_leaves (conn : ConnId) (c : ℕ) (log : SessionLog) (fuel : ℕ) (sentAny : Bool) (s : Outbound) :
    Leaves s (flushLog conn c log fuel sentAny s).2 := by
  induction fuel generalizing sentAny s with
  | zero => exact .refl s
  | succ fuel ih =>
    unfold flushLog
    dsimp only
    split
    · split
      · exact send_leaves s _ _
      · refine .trans ?_ (ih _ _)
        exact (send_leaves s _ _).trans (setSession_leaves fun h => h)
    · exact .refl s

theorem flushSession_leaves {sentAny : Bool} {r : Bool × Bool × Outbound}
    (h : s.flushSession conn c sentAny = some r) : Leaves s r.2.2 := by
  unfold flushSession at h
  obtain ⟨log, -, h⟩ := Option.bind_eq_some_iff.mp h
  cases h
  exact flushLog_leaves ..

theorem endFlush_leaves (s : Outbound) (slot : ℕ) (conn : ConnId) (done sentAny : Bool) :
    Leaves s (s.endFlush slot conn done sentAny).2 := by
  have h : Leaves s (if sentAny then s.stampSent slot else s) := by
    split
    · exact .of_eq rfl
    · exact .refl s
  unfold endFlush
  dsimp only
  generalize (if sentAny then s.stampSent slot else s) = s₁ at h ⊢
  have h' : Leaves s (s₁.recordUnsendable conn (!done && !s₁.tcp.sendable)) := h.trans (.of_eq rfl)
  split
  · exact h'
  · dsimp only
    split
    · exact h'.trans (close_leaves _ _)
    · exact h'

theorem flushConnection_leaves {slot : ℕ} {r : Bool × Outbound} (h : s.flushConnection slot = some r) :
    Leaves s r.2 := by
  unfold flushConnection at h
  dsimp only at h
  obtain ⟨r₁, h₁, rfl⟩ := Option.map_eq_some_iff.mp h
  refine .trans ?_ (endFlush_leaves _ _ _ _ _)
  split at h₁
  · exact (flushControl_leaves s slot).trans (flushSession_leaves h₁)
  · cases h₁
    exact flushControl_leaves s slot

theorem flushDirty_leaves {slots kept : List ℕ} (h : flushDirty slots kept s = some s') : Leaves s s' := by
  induction slots generalizing kept s with
  | nil =>
    cases h
    exact .of_eq rfl
  | cons slot slots ih =>
    unfold flushDirty at h
    split at h
    · obtain ⟨r, hr, h⟩ := Option.bind_eq_some_iff.mp h
      have hl := flushConnection_leaves hr
      dsimp only at h
      split at h
      · exact (hl.trans (setConnection_leaves _ _ _)).trans (ih h)
      · exact hl.trans (ih h)
    · exact (setConnection_leaves s _ _).trans (ih h)

theorem heartbeatOne_leaves {now slot : ℕ} (h : s.heartbeatOne now slot = some s') : Leaves s s' := by
  unfold heartbeatOne at h
  dsimp only at h
  split at h
  · cases h
    exact .refl s
  · split at h
    · cases h
      exact .refl s
    · obtain ⟨log, -, h⟩ := Option.bind_eq_some_iff.mp h
      split at h
      · cases h
        exact .refl s
      · cases h
        exact sendControl_leaves s _ _

theorem heartbeat_leaves {now : ℕ} (h : s.heartbeat now = some s') : Leaves s s' := by
  unfold heartbeat at h
  generalize List.range maxConnections = slots at h
  induction slots generalizing s with
  | nil =>
    cases h
    exact .refl _
  | cons slot slots ih =>
    obtain ⟨s₁, h₁, h⟩ := Option.bind_eq_some_iff.mp h
    exact (heartbeatOne_leaves h₁).trans (ih h)

theorem closeAll_leaves (s : Outbound) : Leaves s s.closeAll := by
  unfold closeAll
  generalize List.range maxConnections = slots
  induction slots generalizing s with
  | nil => exact .refl _
  | cons slot slots ih =>
    rw [List.foldl_cons]
    refine .trans ?_ (ih _)
    split
    · exact close_leaves _ _
    · exact .refl _

/-! ## Logins -/

/-- The answer of `accept_login_` to a login for message `sequence`. -/
def answer (log : SessionLog) (c sequence : ℕ) : Login :=
  let start := if sequence = 0 ∨ sequence > log.nextSeq then log.nextSeq else sequence
  match log.offsetOf start with
  | none => .rejected .sessionNotAvailable
  | some _ => .accepted c start

theorem openConnection_leaves (s : Outbound) (conn : ConnId) : Leaves s (s.openConnection conn) := by
  refine .trans (recordOverwritten_leaves s (s.connections conn.slot)) ?_
  exact .of_eq rfl

theorem recordLogin_answers (s : Outbound) (conn : ConnId) (login : Login) :
    Answers s (s.recordLogin conn login) conn login :=
  ⟨⟨rfl, rfl, fun _ h => h, fun _ => List.prefix_rfl⟩, rfl⟩

theorem rejectLogin_answers (s : Outbound) (conn : ConnId) (reason : SoupReject) :
    Answers s (s.rejectLogin conn reason) conn (.rejected reason) :=
  .among (.refl s) (recordLogin_answers s conn _) ((sendControl_leaves _ _ _).trans (setConnection_leaves _ _ _))

theorem ensureLog_leaves (s : Outbound) (c : ℕ) :
    Leaves s (s.ensureLog c).2 ∧ ((s.ensureLog c).2.sessions c).log.isSome := by
  unfold ensureLog
  dsimp only
  split
  · next log hlog => exact ⟨.refl s, hlog ▸ rfl⟩
  · refine ⟨(setSession_leaves fun _ => rfl).trans (.of_eq rfl), ?_⟩
    show (Function.update s.sessions c _ c).log.isSome
    rw [Function.update_self]
    rfl

/-- A login leaves its session with a log. -/
theorem acceptLogin_answers (s : Outbound) (c : ℕ) (conn : ConnId) (sequence : ℕ) :
    Answers s (s.acceptLogin c conn sequence) conn (answer (s.ensureLog c).1 c sequence) ∧
      ((s.acceptLogin c conn sequence).sessions c).log.isSome := by
  obtain ⟨hens, hlog⟩ := ensureLog_leaves s c
  have hopen := openConnection_leaves (s.ensureLog c).2 conn
  suffices h : Answers ((s.ensureLog c).2.openConnection conn) (s.acceptLogin c conn sequence) conn
      (answer (s.ensureLog c).1 c sequence) from
    ⟨.among (hens.trans hopen) h (.refl _), h.logs c (hopen.logs c hlog)⟩
  unfold acceptLogin answer
  dsimp only
  cases (s.ensureLog c).1.offsetOf (if sequence = 0 ∨ sequence > (s.ensureLog c).1.nextSeq then
    (s.ensureLog c).1.nextSeq else sequence) with
  | none => exact rejectLogin_answers _ _ _
  | some offset =>
    refine .among ?_ (recordLogin_answers _ _ _) (sendControl_leaves _ _ _)
    exact (setConnection_leaves _ _ _).trans (setSession_leaves fun h => h)

/-- A login is accepted from the message that was asked for, or from the next one. -/
theorem answer_accepted {log : SessionLog} {c c' sequence start : ℕ} (h : answer log c sequence = .accepted c' start) :
    c' = c ∧ start = if sequence = 0 ∨ sequence > log.nextSeq then log.nextSeq else sequence := by
  unfold answer at h
  dsimp only at h
  split at h
  · cases h
  · injection h with h₁ h₂
    exact ⟨h₁.symm, h₂.symm⟩

/-- A login for messages the log no longer holds is rejected. -/
theorem answer_dropped {log : SessionLog} (hle : log.firstSeq ≤ log.nextSeq) (c : ℕ) {sequence : ℕ} (h0 : sequence ≠ 0)
    (h : sequence < log.firstSeq) : answer log c sequence = .rejected .sessionNotAvailable := by
  unfold answer
  dsimp only
  rw [if_neg (by omega), SessionLog.offsetOf, if_pos (.inl h)]

/-- The answer to the login of a note. -/
theorem onNote_answers (s : Outbound) {note : ServerNote} (h : Spec.LoggedIn [note] conn) :
    ∃ login, Answers s (s.onNote note) conn login ∧ ∀ c start, login = .accepted c start →
      ∃ sequence, note = .loginAccepted c conn sequence ∧ start =
        if sequence = 0 ∨ sequence > (s.ensureLog c).1.nextSeq then (s.ensureLog c).1.nextSeq else sequence := by
  rcases h with ⟨c, sequence, hm⟩ | ⟨reason, hm⟩
  · obtain rfl := List.mem_singleton.mp hm
    refine ⟨_, (acceptLogin_answers s c conn sequence).1, fun c' start e => ?_⟩
    obtain ⟨rfl, hstart⟩ := answer_accepted e
    exact ⟨sequence, rfl, hstart⟩
  · obtain rfl := List.mem_singleton.mp hm
    exact ⟨_, .among (openConnection_leaves s conn) (rejectLogin_answers _ conn reason) (.refl _), nofun⟩

/-! ## Steps -/

theorem onNote_keeps (s : Outbound) {note : ServerNote} (h : ∀ gateway, note ≠ .gateway gateway) :
    Keeps s (s.onNote note) := by
  cases note with
  | gateway gateway => exact absurd rfl (h gateway)
  | loginAccepted c conn sequence => exact (acceptLogin_answers s c conn sequence).1.toKeeps
  | loginRejected conn reason =>
    exact (openConnection_leaves s conn).toKeeps.trans (rejectLogin_answers _ conn reason).toKeeps
  | disconnected c conn => exact (close_leaves s conn).toKeeps

theorem onNote_grows (s : Outbound) {note : ServerNote} (hlogin : ∀ conn, ¬ Spec.LoggedIn [note] conn) :
    Grows s (s.onNote note) := by
  cases note with
  | gateway note => exact respond_grows s _ (s.reads + 1) _
  | loginAccepted c conn sequence => exact absurd (.inl ⟨c, sequence, List.mem_singleton_self _⟩) (hlogin conn)
  | loginRejected conn reason => exact absurd (.inr ⟨reason, List.mem_singleton_self _⟩) (hlogin conn)
  | disconnected c conn => exact (close_leaves s conn).grows

/-- What one step of the outbound thread leaves alone. -/
theorem step_grows {step : Step} (hlogin : ∀ conn, ¬ Spec.LoggedIn (Spec.notesOf [step]) conn)
    (h : s.step step = some s') : Grows s s' := by
  cases step with
  | note note =>
    cases h
    exact onNote_grows s hlogin
  | event event =>
    cases h
    exact respond_grows s _ s.reads _
  | flush => exact (flushDirty_leaves h).grows
  | heartbeat =>
    have h₁ : Leaves s s.rdtsc.2 := .of_eq rfl
    exact (h₁.trans (heartbeat_leaves h)).grows
  | closeAll => exact Option.some.inj h ▸ (closeAll_leaves s).grows

end Outbound

end Exchange
