import Mathlib.Logic.Relation
import Exchange.Proof.Server.Outbound

/-!
# What the outbound thread can do

`Act` says once what the outbound thread can do to its connections and sessions, to the
slots it will flush and with the stack, and every step of it comes to some acts, one after
the other (`run_acts`). A property of all runs is one that each act keeps.
-/

namespace Exchange

open Spec (LoggedIn Disconnected MayLogin Pushable Pushed Unsent notesOf)

namespace Outbound

/-! ## Acts -/

/-- A connection without what only decides when something is sent. -/
def view (x : OutboundConnection) : OutboundConnection := { x with lastSentTsc := 0, closeWhenFlushed := false }

/-- The connection in a slot is open. -/
structure Live (past : List ServerNote) (s : Outbound) (slot : ℕ) : Prop where
  isOpen : (s.connections slot).isOpen
  slot_eq : (s.connections slot).conn.slot = slot
  generation : (s.connections slot).closedGeneration ≠ (s.connections slot).conn.generation
  loggedIn : LoggedIn past (s.connections slot).conn
  alive : ¬ Disconnected past (s.connections slot).conn
  /-- No other open connection is the same one. -/
  distinct : ∀ j, j ≠ slot → (s.connections j).isOpen → (s.connections j).conn ≠ (s.connections slot).conn
  /-- No other open connection is of its session. -/
  alone : ∀ j, j ≠ slot → (s.connections j).isOpen → (s.connections j).clientId ≠ 0 →
    (s.connections j).clientId ≠ (s.connections slot).clientId

/-- No open connection is of session `c`. -/
def Unattended (s : Outbound) (c : ℕ) : Prop :=
  ∀ slot, (s.connections slot).isOpen → (s.connections slot).clientId ≠ 0 → (s.connections slot).clientId ≠ c

/-- A point of a run: the notes that were taken, the slots that will be flushed, the state. -/
structure Point where
  past : List ServerNote
  todo : List ℕ
  state : Outbound

/-- The slots that will be flushed when the one of a connection is marked. -/
def marked (todo : List ℕ) (s : Outbound) (slot : ℕ) : List ℕ :=
  if (s.connections slot).dirty then todo else todo ++ [slot]

/-- From `s` to `s'` connection `slot` becomes `x`, which is the same one, and of the
sessions only its own changes. -/
structure Touches (s s' : Outbound) (slot : ℕ) (x : OutboundConnection) : Prop where
  conns : s'.connections = Function.update s.connections slot x
  sessions : ∀ c, c ≠ (s.connections slot).clientId → s'.sessions c = s.sessions c
  unsendable : s'.history.unsendable = s.history.unsendable
  conn : x.conn = (s.connections slot).conn
  isOpen : x.isOpen
  clientId : x.clientId = (s.connections slot).clientId
  generation : x.closedGeneration = (s.connections slot).closedGeneration

inductive Act : Point → Point → Prop
  | still {past : List ServerNote} {todo : List ℕ} {s s' : Outbound}
      (hconns : ∀ slot, view (s'.connections slot) = view (s.connections slot)) (hsess : s'.sessions = s.sessions)
      (htcp : s'.tcp = s.tcp) (hun : s'.history.unsendable = s.history.unsendable) :
      Act ⟨past, todo, s⟩ ⟨past, todo, s'⟩
  | gateway {past : List ServerNote} {todo : List ℕ} {s : Outbound} (note : GatewayNote) :
      Act ⟨past, todo, s⟩ ⟨past ++ [.gateway note], todo, s⟩
  /-- A session without a connection changes. -/
  | offline {past : List ServerNote} {todo : List ℕ} {s s' : Outbound} {c : ℕ} (hc : s.Unattended c)
      (hconns : s'.connections = s.connections) (hsess : ∀ c', c' ≠ c → s'.sessions c' = s.sessions c')
      (htcp : s'.tcp = s.tcp) (hun : s'.history.unsendable = s.history.unsendable) :
      Act ⟨past, todo, s⟩ ⟨past, todo, s'⟩
  /-- A connection is opened and answered. -/
  | login {past : List ServerNote} {todo : List ℕ} {s s' : Outbound} {c : ℕ} {note : ServerNote} {conn : ConnId}
      {x : OutboundConnection} (hmay : MayLogin past conn) (hin : LoggedIn [note] conn)
      (hover : ∀ k, ¬ Disconnected [note] k) (hfree : s.Unattended c)
      (hconns : s'.connections = Function.update s.connections conn.slot x)
      (hconn : x.conn = conn) (hgen : x.closedGeneration = (s.connections conn.slot).closedGeneration)
      (hdirty : x.dirty) (hsess : ∀ c', c' ≠ c → s'.sessions c' = s.sessions c')
      (htcp : s'.tcp = s.tcp) (hun : s'.history.unsendable = s.history.unsendable) :
      Act ⟨past, todo, s⟩ ⟨past ++ [note], marked todo s conn.slot, s'⟩
  /-- There is more to send on a connection, and it is marked. -/
  | queue {past : List ServerNote} {todo : List ℕ} {s s' : Outbound} {slot : ℕ} {x : OutboundConnection}
      (hlive : s.Live past slot) (ht : Touches s s' slot x) (hdirty : x.dirty) (htcp : s'.tcp = s.tcp) :
      Act ⟨past, todo, s⟩ ⟨past, marked todo s slot, s'⟩
  | close {past : List ServerNote} {todo : List ℕ} {s : Outbound} {slot : ℕ} (hlive : s.Live past slot) :
      Act ⟨past, todo, s⟩ ⟨past, todo, s.close (s.connections slot).conn⟩
  | disconnect {past : List ServerNote} {todo : List ℕ} {s : Outbound} (c : ℕ) (conn : ConnId) :
      Act ⟨past, todo, s⟩ ⟨past ++ [.disconnected c conn], todo, s.close conn⟩
  /-- `send` is called on a connection that is being flushed. -/
  | send {past : List ServerNote} {todo : List ℕ} {s s' : Outbound} {slot : ℕ} {x : OutboundConnection}
      (hlive : s.Live past slot) (hmem : slot ∈ todo) (ht : Touches s s' slot x)
      (hdirty : x.dirty = (s.connections slot).dirty)
      (hmade : s'.tcp.made = s.tcp.made ++ [.send (s.connections slot).conn]) :
      Act ⟨past, todo, s⟩ ⟨past, todo, s'⟩
  | flushed {past : List ServerNote} {todo : List ℕ} {s : Outbound} {slot : ℕ} (hlive : s.Live past slot)
      (hmem : slot ∈ todo) (unsendable : Bool) :
      Act ⟨past, todo, s⟩ ⟨past, todo, s.recordUnsendable (s.connections slot).conn unsendable⟩
  /-- A connection that has nothing to send, or cannot send it, is not marked any more. -/
  | settle {past : List ServerNote} {kept slots : List ℕ} {s : Outbound} {slot : ℕ}
      (hdone : (s.connections slot).isOpen → Unsent s slot → s.history.unsendable (s.connections slot).conn) :
      Act ⟨past, kept ++ slot :: slots, s⟩
        ⟨past, kept ++ slots, s.setConnection slot { s.connections slot with dirty := false }⟩

abbrev Acts : Point → Point → Prop := Relation.ReflTransGen Act

variable {past : List ServerNote} {s s' : Outbound} {slot : ℕ} {todo : List ℕ}

theorem Ok.live (h : s.Ok past) (ho : (s.connections slot).isOpen) : s.Live past slot where
  isOpen := ho
  slot_eq := (h.conns slot ho).slot_eq
  generation := (h.conns slot ho).generation
  loggedIn := h.loggedIn ho
  alive := (h.conns slot ho).alive
  distinct := fun _ hne hj => h.conn_ne ho hj hne
  alone := fun _ hne hj h0 => h.client_ne ho hj hne h0

theorem Ok.unattended (h : s.Ok past) {c : ℕ} (hslot : (s.sessions c).slot = none) : s.Unattended c := by
  rintro j hj h0 rfl
  obtain ⟨_, -, hf⟩ := (h.conns j hj).feeds h0
  exact Option.some_ne_none _ (hf.slot_eq.symm.trans hslot)

theorem view_eq {x y : OutboundConnection} (h : view x = view y) :
    x.conn = y.conn ∧ x.isOpen = y.isOpen ∧ x.dirty = y.dirty ∧ x.clientId = y.clientId ∧ x.control = y.control ∧
      x.controlSent = y.controlSent ∧ x.closedGeneration = y.closedGeneration := by
  simpa only [view, OutboundConnection.mk.injEq, true_and] using h

/-- Only the connections matter to whether one is open. -/
theorem Live.congr (h : s.Live past slot) (hview : ∀ j, view (s'.connections j) = view (s.connections j)) :
    s'.Live past slot := by
  obtain ⟨hconn, hopen, -, hclient, -, -, hgen⟩ := view_eq (hview slot)
  refine ⟨hopen ▸ h.isOpen, hconn ▸ h.slot_eq, ?_, hconn ▸ h.loggedIn, hconn ▸ h.alive, fun j hj => ?_, fun j hj => ?_⟩
  · rw [hconn, hgen]
    exact h.generation
  · obtain ⟨hconn', hopen', -⟩ := view_eq (hview j)
    rw [hconn, hconn', hopen']
    exact h.distinct j hj
  · obtain ⟨-, hopen', -, hclient', -⟩ := view_eq (hview j)
    rw [hclient, hclient', hopen']
    exact h.alone j hj

/-! ## What changes in a slot -/

/-- From `s` to `s'` the connection in `slot` becomes `x`, the slots to flush become
`dirty`, and of the sessions only `c` changes. -/
structure Becomes (s s' : Outbound) (slot : ℕ) (x : OutboundConnection) (dirty : List ℕ) (c : ℕ) : Prop where
  conns : s'.connections = Function.update s.connections slot x
  dirty_eq : s'.dirty = dirty
  sessions : ∀ c', c' ≠ c → s'.sessions c' = s.sessions c'
  tcp : s'.tcp = s.tcp
  unsendable : s'.history.unsendable = s.history.unsendable

section Becomes

variable {s₁ s₂ : Outbound} {x y : OutboundConnection} {d d' : List ℕ} {c : ℕ}

theorem Becomes.self (h : Becomes s s₁ slot x d c) : s₁.connections slot = x := by rw [h.conns, Function.update_self]

theorem Becomes.trans (h : Becomes s s₁ slot x d c) (h' : Becomes s₁ s₂ slot y d' c) : Becomes s s₂ slot y d' c :=
  ⟨by rw [h'.conns, h.conns, Function.update_idem], h'.dirty_eq, fun c' hc => (h'.sessions c' hc).trans (h.sessions c' hc),
    h'.tcp.trans h.tcp, h'.unsendable.trans h.unsendable⟩

theorem setConnection_becomes (hd : s.dirty = d) (slot : ℕ) (x : OutboundConnection) (c : ℕ) :
    Becomes s (s.setConnection slot x) slot x d c :=
  ⟨rfl, hd, fun _ _ => rfl, rfl, rfl⟩

theorem setSession_becomes (hx : s.connections slot = x) (hd : s.dirty = d) (c : ℕ) (session : OutboundSession) :
    Becomes s (s.setSession c session) slot x d c :=
  ⟨hx ▸ (Function.update_eq_self ..).symm, hd, fun _ hc => Function.update_of_ne hc .., rfl, rfl⟩

theorem recordLogin_becomes (hx : s.connections slot = x) (hd : s.dirty = d) (conn : ConnId) (login : Login) (c : ℕ) :
    Becomes s (s.recordLogin conn login) slot x d c :=
  ⟨hx ▸ (Function.update_eq_self ..).symm, hd, fun _ _ => rfl, rfl, rfl⟩

theorem recordOverwritten_eq (s : Outbound) (x : OutboundConnection) :
    ∃ overwritten, s.recordOverwritten x = { s with history := { s.history with overwritten := overwritten } } := by
  unfold recordOverwritten
  split
  · exact ⟨_, rfl⟩
  · exact ⟨_, rfl⟩

theorem markDirty_eq (s : Outbound) (h : (s.connections slot).conn.slot = slot) :
    s.markDirty slot = { s with
      connections := Function.update s.connections slot { s.connections slot with dirty := true }
      dirty := marked s.dirty s slot } := by
  unfold markDirty marked
  dsimp only
  split
  · next hd =>
    have hself : { s.connections slot with dirty := true } = s.connections slot := by rw [← hd]
    rw [hself, Function.update_eq_self]
  · rw [h]
    rfl

theorem sendControl_becomes (s : Outbound) (h : (s.connections slot).conn.slot = slot) (packet : List UInt8) (c : ℕ) :
    Becomes s (s.sendControl slot packet) slot
      { s.connections slot with control := packet, controlSent := 0, dirty := true } (marked s.dirty s slot) c := by
  obtain ⟨overwritten, ho⟩ := recordOverwritten_eq s (s.connections slot)
  unfold sendControl
  dsimp only
  rw [ho, markDirty_eq _ (by rw [connections_setConnection]; exact h)]
  refine ⟨?_, ?_, fun _ _ => rfl, rfl, rfl⟩
  · rw [connections_setConnection]
    exact Function.update_idem ..
  · unfold marked
    rw [connections_setConnection]
    rfl

theorem openConnection_becomes (s : Outbound) (conn : ConnId) (c : ℕ) :
    ∃ x, Becomes s (s.openConnection conn) conn.slot x s.dirty c ∧ x.conn = conn ∧
      x.dirty = (s.connections conn.slot).dirty ∧
      x.closedGeneration = (s.connections conn.slot).closedGeneration := by
  obtain ⟨overwritten, ho⟩ := recordOverwritten_eq s (s.connections conn.slot)
  unfold openConnection rdtsc
  dsimp only
  rw [ho]
  exact ⟨_, ⟨rfl, rfl, fun _ _ => rfl, rfl, rfl⟩, rfl, rfl, rfl⟩

/-- What a login comes to: the connection is marked, whatever it is answered. -/
theorem answer_becomes {conn : ConnId} (h : Becomes s s₁ conn.slot x s.dirty c) (hconn : x.conn = conn)
    (hdirty : x.dirty = (s.connections conn.slot).dirty) (login : Login) (packet : List UInt8) :
    Becomes s ((s₁.recordLogin conn login).sendControl conn.slot packet) conn.slot
      { x with control := packet, controlSent := 0, dirty := true } (marked s.dirty s conn.slot) c := by
  have hlogin := h.trans (recordLogin_becomes h.self h.dirty_eq conn login c)
  have hslot : ((s₁.recordLogin conn login).connections conn.slot).conn.slot = conn.slot := by
    rw [hlogin.self, hconn]
  have hsent := hlogin.trans (sendControl_becomes _ hslot packet c)
  have hmarked : marked (s₁.recordLogin conn login).dirty (s₁.recordLogin conn login) conn.slot =
      marked s.dirty s conn.slot := by
    rw [marked, marked, hlogin.self, hdirty, hlogin.dirty_eq]
  rwa [hmarked, hlogin.self] at hsent

end Becomes

/-! ## Notes and events -/

theorem Becomes.login {conn : ConnId} {x : OutboundConnection} {c : ℕ} {note : ServerNote}
    (h : Becomes s s' conn.slot x (marked s.dirty s conn.slot) c) (hmay : MayLogin past conn)
    (hin : LoggedIn [note] conn) (hover : ∀ k, ¬ Disconnected [note] k) (hfree : s.Unattended c) (hconn : x.conn = conn)
    (hgen : x.closedGeneration = (s.connections conn.slot).closedGeneration) (hdirty : x.dirty) :
    Act ⟨past, s.dirty, s⟩ ⟨past ++ [note], s'.dirty, s'⟩ := by
  rw [h.dirty_eq]
  exact .login hmay hin hover hfree h.conns hconn hgen hdirty h.sessions h.tcp h.unsendable

theorem reject_act {conn : ConnId} (hmay : MayLogin past conn) {note : ServerNote} (hin : LoggedIn [note] conn)
    (hover : ∀ k, ¬ Disconnected [note] k) (reason : SoupReject) :
    Act ⟨past, s.dirty, s⟩ ⟨past ++ [note], ((s.openConnection conn).rejectLogin conn reason).dirty,
      (s.openConnection conn).rejectLogin conn reason⟩ := by
  obtain ⟨x, hopen, hconn, hdirty, hgen⟩ := openConnection_becomes s conn 0
  have hsent := answer_becomes hopen hconn hdirty (.rejected reason) (loginRejectedPacket reason)
  unfold rejectLogin
  dsimp only
  rw [hsent.self]
  exact (hsent.trans (setConnection_becomes hsent.dirty_eq conn.slot _ 0)).login hmay hin hover (fun _ _ h0 => h0)
    hconn hgen rfl

/-- A login to a session that has its log. -/
theorem acceptLogin_act_of_log (h : s.Ok past) {c : ℕ} {conn : ConnId} {sequence : ℕ}
    (hp : Pushable past (.loginAccepted c conn sequence)) {log : SessionLog} (hlog : (s.sessions c).log = some log) :
    Act ⟨past, s.dirty, s⟩ ⟨past ++ [.loginAccepted c conn sequence], (s.acceptLogin c conn sequence).dirty,
      s.acceptLogin c conn sequence⟩ := by
  obtain ⟨h0, hmay, hfree⟩ := hp
  have hin : LoggedIn [.loginAccepted c conn sequence] conn := .inl ⟨c, sequence, List.mem_singleton_self _⟩
  have hover : ∀ k, ¬ Disconnected [.loginAccepted c conn sequence] k := by
    rintro k ⟨c', hm⟩
    cases List.mem_singleton.mp hm
  unfold acceptLogin
  rw [ensureLog_of_some hlog]
  dsimp only
  split
  · exact reject_act hmay hin hover .sessionNotAvailable
  · obtain ⟨x, hopen, hconn, hdirty, hgen⟩ := openConnection_becomes s conn c
    have hset := hopen.trans (setConnection_becomes hopen.dirty_eq conn.slot { x with clientId := c } c)
    have hsess := fun session => hset.trans (setSession_becomes hset.self hset.dirty_eq c session)
    rw [hopen.self]
    exact (answer_becomes (hsess _) hconn hdirty _ _).login hmay hin hover (h.unattended (h.slot_eq_none hfree)) hconn hgen rfl

theorem acceptLogin_acts (h : s.Ok past) {c : ℕ} {conn : ConnId} {sequence : ℕ}
    (hp : Pushable past (.loginAccepted c conn sequence)) :
    Acts ⟨past, s.dirty, s⟩ ⟨past ++ [.loginAccepted c conn sequence], (s.acceptLogin c conn sequence).dirty,
      s.acceptLogin c conn sequence⟩ := by
  cases hlog : (s.sessions c).log with
  | some log => exact .single (acceptLogin_act_of_log h hp hlog)
  | none =>
    have hlog' : ((s.withLog c).sessions c).log = some (SessionLog.new s.soupReplayBytes) := by rw [sessions_withLog]
    have e : s.acceptLogin c conn sequence = (s.withLog c).acceptLogin c conn sequence := by
      rw [acceptLogin, acceptLogin, ensureLog_of_none hlog, ensureLog_of_some hlog']
    have hmade : Act ⟨past, s.dirty, s⟩ ⟨past, (s.withLog c).dirty, s.withLog c⟩ :=
      .offline (h.unattended (h.slot_eq_none hp.2.2)) rfl (fun _ hc => sessions_withLog_of_ne s hc) rfl rfl
    rw [e]
    exact .head hmade (.single (acceptLogin_act_of_log (h.withLog hlog) hp hlog'))

theorem dirty_close (s : Outbound) (conn : ConnId) : (s.close conn).dirty = s.dirty := by
  rcases close_cases s conn with ⟨-, e⟩ | ⟨-, e⟩ | ⟨-, -, e⟩ <;> rw [e]

theorem dropSlow_acts (h : s.Ok past) (c : ℕ) (log : SessionLog) (len : ℕ) :
    Acts ⟨past, s.dirty, s⟩ ⟨past, (s.dropSlow c log len).dirty, s.dropSlow c log len⟩ := by
  unfold dropSlow
  split
  · exact .refl
  · next slot hs =>
    split
    · rw [dirty_close]
      exact .single (.close (h.live (h.slots c slot hs).1))
    · exact .refl

/-- A session's log changes, and its connection is marked if it has one. -/
theorem append_act (h : s.Ok past) {c : ℕ} (hconns : s'.connections = s.connections) (hdirty : s'.dirty = s.dirty)
    (hslot : (s'.sessions c).slot = (s.sessions c).slot) (hsess : ∀ c', c' ≠ c → s'.sessions c' = s.sessions c')
    (htcp : s'.tcp = s.tcp) (hun : s'.history.unsendable = s.history.unsendable) :
    Act ⟨past, s.dirty, s⟩
      ⟨past, (match (s'.sessions c).slot with | none => s' | some slot => s'.markDirty slot).dirty,
        match (s'.sessions c).slot with | none => s' | some slot => s'.markDirty slot⟩ := by
  rw [hslot]
  split
  · next hnone =>
    rw [hdirty]
    exact .offline (h.unattended hnone) hconns hsess htcp hun
  · next slot hs =>
    obtain ⟨ho, hc, -⟩ := h.slots c slot hs
    have hlive := h.live ho
    have hmarked : marked s'.dirty s' slot = marked s.dirty s slot := by rw [marked, marked, hconns, hdirty]
    rw [markDirty_eq _ (hconns ▸ hlive.slot_eq), hmarked, hconns]
    exact .queue hlive ⟨rfl, hc ▸ hsess, hun, rfl, ho, rfl, rfl⟩ rfl htcp

theorem storeRetained_frame (s : Outbound) (c firstBefore first : ℕ) :
    (s.storeRetained c firstBefore first).connections = s.connections ∧
      (s.storeRetained c firstBefore first).sessions = s.sessions ∧
      (s.storeRetained c firstBefore first).tcp = s.tcp ∧
      (s.storeRetained c firstBefore first).history = s.history ∧
      (s.storeRetained c firstBefore first).dirty = s.dirty := by
  unfold storeRetained
  split <;> exact ⟨rfl, rfl, rfl, rfl, rfl⟩

theorem sendSequenced_acts (h : s.Ok past) (c : ℕ) (packet : List UInt8) :
    Acts ⟨past, s.dirty, s⟩ ⟨past, (s.sendSequenced c packet).dirty, s.sendSequenced c packet⟩ := by
  unfold sendSequenced
  split
  · exact .refl
  · next log hlog =>
    obtain ⟨h₁, -⟩ := dropSlow_ok h hlog packet.length
    refine (dropSlow_acts h c log packet.length).tail ?_
    generalize s.dropSlow c log packet.length = s₁ at h₁ ⊢
    dsimp only
    obtain ⟨hconns, hsess, htcp, hhist, hdirty⟩ := storeRetained_frame
      ((s₁.setSession c { s₁.sessions c with log := some (log.append packet) }).recordAppended c packet) c log.firstSeq
      (log.append packet).firstSeq
    generalize Outbound.storeRetained _ c log.firstSeq (log.append packet).firstSeq = s₂ at *
    refine append_act h₁ hconns hdirty ?_ (fun c' hc => ?_) htcp (by rw [hhist]; rfl)
    · rw [hsess]
      show (Function.update s₁.sessions c _ c).slot = _
      rw [Function.update_self]
    · rw [hsess]
      exact Function.update_of_ne hc ..

theorem sendOuch_acts (h : s.Ok past) (response : OuchResponse) :
    Acts ⟨past, s.dirty, s⟩ ⟨past, (s.sendOuch response).dirty, s.sendOuch response⟩ := by
  unfold sendOuch
  dsimp only
  split
  · exact .refl
  · exact sendSequenced_acts h _ _

/-- The responder's answer, if there is one, is sent. -/
theorem respond_acts (h : s.Ok past) (responder : OuchResponder) (reads : ℕ) (response : Option OuchResponse) :
    Acts ⟨past, s.dirty, s⟩
      ⟨past, (match response with
          | none => { s with responder := responder, reads := reads }
          | some response => Outbound.sendOuch { s with responder := responder, reads := reads } response).dirty,
        match response with
        | none => { s with responder := responder, reads := reads }
        | some response => Outbound.sendOuch { s with responder := responder, reads := reads } response⟩ := by
  have h' : Ok past { s with responder := responder, reads := reads } := h.congr rfl
  have hstill : Act ⟨past, s.dirty, s⟩ ⟨past, s.dirty, { s with responder := responder, reads := reads }⟩ :=
    .still (fun _ => rfl) rfl rfl rfl
  refine .head hstill ?_
  cases response with
  | none => exact .refl
  | some response => exact sendOuch_acts h' response

theorem onEvent_acts (h : s.Ok past) (event : EngineEvent) :
    Acts ⟨past, s.dirty, s⟩ ⟨past, (s.onEvent event).dirty, s.onEvent event⟩ :=
  respond_acts h _ s.reads _

theorem onNote_acts (h : s.Ok past) {note : ServerNote} (hp : Pushable past note) :
    Acts ⟨past, s.dirty, s⟩ ⟨past ++ [note], (s.onNote note).dirty, s.onNote note⟩ := by
  cases note with
  | gateway note =>
    refine .head (.gateway note) ?_
    have h := h.concat_gateway note
    exact respond_acts h _ (s.reads + 1) _
  | loginAccepted c conn sequence => exact acceptLogin_acts h hp
  | loginRejected conn reason =>
    refine .single (reject_act hp (.inr ⟨reason, List.mem_singleton_self _⟩) ?_ reason)
    rintro k ⟨c, hm⟩
    cases List.mem_singleton.mp hm
  | disconnected c conn =>
    unfold onNote
    dsimp only
    rw [dirty_close]
    exact .single (.disconnect c conn)

/-! ## Heartbeats and shutting down -/

theorem heartbeatOne_acts (h : s.Ok past) {now : ℕ} (hs : s.heartbeatOne now slot = some s') :
    Acts ⟨past, s.dirty, s⟩ ⟨past, s'.dirty, s'⟩ := by
  unfold heartbeatOne at hs
  dsimp only at hs
  split at hs
  · obtain rfl := Option.some.inj hs
    exact .refl
  · next hx =>
    simp only [not_or, Bool.not_eq_true', Bool.not_eq_false] at hx
    split at hs
    · obtain rfl := Option.some.inj hs
      exact .refl
    · obtain ⟨log, -, hs⟩ := Option.bind_eq_some_iff.mp hs
      split at hs
      · obtain rfl := Option.some.inj hs
        exact .refl
      · obtain rfl := Option.some.inj hs
        have hlive := h.live hx.1
        have hb := sendControl_becomes s hlive.slot_eq heartbeatPacket (s.connections slot).clientId
        rw [hb.dirty_eq]
        exact .single (.queue hlive ⟨hb.conns, hb.sessions, hb.unsendable, rfl, hx.1, rfl, rfl⟩ rfl hb.tcp)

theorem heartbeat_acts (h : s.Ok past) (now : ℕ) :
    ∃ s', s.heartbeat now = some s' ∧ Acts ⟨past, s.dirty, s⟩ ⟨past, s'.dirty, s'⟩ := by
  unfold heartbeat
  induction List.range maxConnections generalizing s with
  | nil => exact ⟨s, rfl, .refl⟩
  | cons slot slots ih =>
    obtain ⟨s₁, hone, h₁⟩ := heartbeatOne_ok h now slot
    obtain ⟨s', hrest, ha⟩ := ih h₁
    exact ⟨s', by rw [List.foldlM_cons, hone]; exact hrest, (heartbeatOne_acts h hone).trans ha⟩

theorem closeAll_acts (h : s.Ok past) : Acts ⟨past, s.dirty, s⟩ ⟨past, s.closeAll.dirty, s.closeAll⟩ := by
  unfold closeAll
  induction List.range maxConnections generalizing s with
  | nil => exact .refl
  | cons slot slots ih =>
    rw [List.foldl_cons]
    split
    · next ho =>
      refine .head (.close (h.live ho)) ?_
      rw [← dirty_close s (s.connections slot).conn]
      exact ih (close_ok h (.refl (h.loggedIn ho)))
    · exact ih h

/-! ## Flushing -/

variable {c : ℕ}

/-- The pending control packet. -/
theorem flushControl_acts (hlive : s.Live past slot) (hmem : slot ∈ todo) :
    Acts ⟨past, todo, s⟩ ⟨past, todo, (s.flushControl slot).2.2⟩ := by
  unfold flushControl
  dsimp only
  split
  · refine .single (.send hlive hmem ⟨rfl, fun _ _ => rfl, rfl, ?_, ?_, ?_, ?_⟩ ?_ rfl) <;> split
    case refine_2.isTrue | refine_2.isFalse => exact hlive.isOpen
    all_goals rfl
  · exact .refl

/-- The loop over the log: each turn is a call of `send`, and the log stays as it is. -/
theorem flushLog_acts (hlive : s.Live past slot) (hmem : slot ∈ todo) (hc : (s.connections slot).clientId = c)
    (log : SessionLog) (fuel : ℕ) (sentAny : Bool) :
    Acts ⟨past, todo, s⟩ ⟨past, todo, (flushLog (s.connections slot).conn c log fuel sentAny s).2⟩ ∧
      (flushLog (s.connections slot).conn c log fuel sentAny s).2.connections = s.connections ∧
      ((flushLog (s.connections slot).conn c log fuel sentAny s).2.sessions c).log = (s.sessions c).log := by
  induction fuel generalizing s sentAny with
  | zero => exact ⟨.refl, rfl, rfl⟩
  | succ fuel ih =>
    unfold flushLog
    dsimp only
    split
    · have hsend : ∀ s' : Outbound, s'.connections = s.connections → (∀ c', c' ≠ c → s'.sessions c' = s.sessions c') →
          s'.history = s.history → s'.tcp.made = s.tcp.made ++ [.send (s.connections slot).conn] →
          Act ⟨past, todo, s⟩ ⟨past, todo, s'⟩ := fun s' hconns hsess hhist hmade =>
        .send (x := s.connections slot) hlive hmem ⟨hconns.trans (Function.update_eq_self ..).symm, hc ▸ hsess,
          by rw [hhist], rfl, hlive.isOpen, rfl, rfl⟩ rfl hmade
      split
      · exact ⟨.single (hsend _ rfl (fun _ _ => rfl) rfl rfl), rfl, rfl⟩
      · generalize hs₁ : Outbound.setSession _ c _ = s₁
        have hconns : s₁.connections = s.connections := by rw [← hs₁]; rfl
        have hself : (s₁.sessions c).log = (s.sessions c).log := by
          rw [← hs₁]
          show (Function.update s.sessions c _ c).log = _
          rw [Function.update_self]
        have hother : ∀ c', c' ≠ c → s₁.sessions c' = s.sessions c' := fun c' hne => by
          rw [← hs₁]
          exact Function.update_of_ne hne ..
        obtain ⟨hacts, hsame, hlog⟩ := ih (hlive.congr fun _ => by rw [hconns]) (hconns ▸ hc) true
        rw [hconns] at hacts hsame hlog
        exact ⟨.head (hsend s₁ hconns hother (by rw [← hs₁]; rfl) (by rw [← hs₁]; rfl)) hacts, hsame, hlog.trans hself⟩
    · exact ⟨.refl, rfl, rfl⟩

theorem unsent_congr (hview : view (s'.connections slot) = view (s.connections slot))
    (hsess : (s.connections slot).clientId ≠ 0 →
      s'.sessions (s.connections slot).clientId = s.sessions (s.connections slot).clientId) :
    Unsent s' slot ↔ Unsent s slot := by
  obtain ⟨-, -, -, hclient, hcontrol, hsent, -⟩ := view_eq hview
  unfold Unsent
  dsimp only
  rw [hcontrol, hsent, hclient]
  exact or_congr_right (and_congr_right fun h0 => by rw [hsess h0])

/-- What is sent once there is nothing pending is the log. -/
theorem unsent_iff (hp : pending (s.connections slot) = []) : Unsent s slot ↔ (s.connections slot).clientId ≠ 0 ∧
    ∃ log, (s.sessions (s.connections slot).clientId).log = some log ∧
      (s.sessions (s.connections slot).clientId).cursor < log.endOffset := by
  have hle : (s.connections slot).control.length ≤ (s.connections slot).controlSent := List.drop_eq_nil_iff.mp hp
  exact or_iff_right (Nat.not_lt.mpr hle)

/-- The session of a connection: if all is sent, nothing is left. -/
theorem flushSession_acts (hlive : s.Live past slot) (hmem : slot ∈ todo) (hp : pending (s.connections slot) = [])
    {sentAny done sentAny' : Bool} (hs : s.flushSession (s.connections slot).conn (s.connections slot).clientId sentAny =
      some (done, sentAny', s')) :
    Acts ⟨past, todo, s⟩ ⟨past, todo, s'⟩ ∧ s'.connections = s.connections ∧ (done → ¬ Unsent s' slot) := by
  obtain ⟨log, hlog, hs⟩ := Option.bind_eq_some_iff.mp hs
  obtain ⟨hacts, hconns, hlog'⟩ := flushLog_acts hlive hmem rfl log
    (log.endOffset - (s.sessions (s.connections slot).clientId).cursor) sentAny
  simp only [Option.some.injEq, Prod.mk.injEq] at hs
  obtain ⟨hd, -, rfl⟩ := hs
  refine ⟨hacts, hconns, fun hdone hun => ?_⟩
  rw [unsent_iff (by rw [hconns]; exact hp), hconns] at hun
  obtain ⟨-, log', hl, hlt⟩ := hun
  rw [hlog', hlog] at hl
  obtain rfl := Option.some.inj hl
  have := of_decide_eq_true (hd.trans hdone)
  omega

theorem isOpen_close (hlive : s.Live past slot) :
    ¬ ((s.close (s.connections slot).conn).connections slot).isOpen := by
  have hslot := hlive.slot_eq
  rcases close_cases s (s.connections slot).conn with ⟨hgen, -⟩ | ⟨hne, -⟩ | ⟨-, -, e⟩
  · rw [hslot] at hgen
    exact absurd hgen hlive.generation
  · rw [hslot] at hne
    exact absurd hlive.isOpen (hne.resolve_left fun hne => hne rfl)
  · rw [e, hslot]
    show ¬ (Function.update s.connections slot _ slot).isOpen = true
    rw [Function.update_self]
    exact Bool.false_ne_true

/-- The end of a flush: what is left is left because the connection is dead. -/
theorem endFlush_acts (hlive : s.Live past slot) (hmem : slot ∈ todo) {done sentAny : Bool}
    (hdone : done → ¬ Unsent s slot) {r : Bool} (hs : s.endFlush slot (s.connections slot).conn done sentAny = (r, s')) :
    Acts ⟨past, todo, s⟩ ⟨past, todo, s'⟩ ∧
      (r → (s'.connections slot).isOpen → Unsent s' slot → s'.history.unsendable (s'.connections slot).conn) := by
  -- the time stamp says nothing
  obtain ⟨s₁, hs₁, hview, hsess, htcp, hhist⟩ : ∃ s₁, (if sentAny then s.stampSent slot else s) = s₁ ∧
      (∀ j, view (s₁.connections j) = view (s.connections j)) ∧ s₁.sessions = s.sessions ∧ s₁.tcp = s.tcp ∧
      s₁.history = s.history := by
    refine ⟨_, rfl, fun j => ?_, ?_, ?_, ?_⟩ <;> cases sentAny <;> try rfl
    show view (Function.update s.connections slot _ j) = _
    by_cases hj : j = slot
    · rw [hj, Function.update_self]
      rfl
    · rw [Function.update_of_ne hj]
  have hlive₁ := hlive.congr hview
  obtain ⟨hconn, -⟩ := view_eq (hview slot)
  unfold endFlush at hs
  dsimp only at hs
  rw [hs₁, ← hconn] at hs
  have hacts : Acts ⟨past, todo, s⟩ ⟨past, todo, s₁.recordUnsendable (s₁.connections slot).conn
      (!done && !s₁.tcp.sendable)⟩ :=
    .head (.still hview hsess htcp (by rw [hhist])) (.single (.flushed hlive₁ hmem _))
  cases done with
  | false =>
    simp only [Bool.not_false, if_true, Prod.mk.injEq] at hs
    obtain ⟨hr, rfl⟩ := hs
    refine ⟨hacts, fun hr' _ _ => ?_⟩
    show Function.update s₁.history.unsendable (s₁.connections slot).conn _ (s₁.connections slot).conn = true
    rw [Function.update_self]
    exact hr.trans hr'
  | true =>
    simp only [Bool.not_true, Bool.false_eq_true, if_false, Prod.mk.injEq] at hs
    obtain ⟨-, hs⟩ := hs
    split at hs
    · subst hs
      have hlive₂ : (s₁.recordUnsendable (s₁.connections slot).conn (!true && !s₁.tcp.sendable)).Live past slot :=
        hlive₁.congr fun _ => rfl
      exact ⟨hacts.tail (.close hlive₂), fun _ ho => absurd ho (isOpen_close hlive₂)⟩
    · subst hs
      refine ⟨hacts, fun _ _ hun => absurd ?_ (hdone rfl)⟩
      exact (unsent_congr (hview slot) fun _ => congrFun hsess _).mp hun

theorem flushConnection_acts (h : s.Ok past) (ho : (s.connections slot).isOpen) (hmem : slot ∈ todo) {done : Bool}
    (hs : s.flushConnection slot = some (done, s')) : Acts ⟨past, todo, s⟩ ⟨past, todo, s'⟩ ∧
      (done → (s'.connections slot).isOpen → Unsent s' slot → s'.history.unsendable (s'.connections slot).conn) := by
  obtain ⟨done₁, sentAny₁, s₁, hcontrol, h₁, hconn, ho₁, hclient, hp⟩ := flushControl_ok h ho
  have hacts₁ := flushControl_acts (h.live ho) hmem
  have hlive₁ := h₁.live ho₁
  unfold flushConnection at hs
  dsimp only at hs
  rw [hcontrol] at hs hacts₁
  obtain ⟨⟨done₂, sentAny₂, s₂⟩, hs₂, hend⟩ := Option.map_eq_some_iff.mp hs
  rw [← hconn, ← hclient] at hs₂
  obtain ⟨hacts₂, hconns₂, hdone₂⟩ : Acts ⟨past, todo, s₁⟩ ⟨past, todo, s₂⟩ ∧ s₂.connections = s₁.connections ∧
      (done₂ → ¬ Unsent s₂ slot) := by
    split at hs₂
    · next hd => exact flushSession_acts hlive₁ hmem (hp hd.1) hs₂
    · next hd =>
      obtain ⟨rfl, rfl, rfl⟩ : done₁ = done₂ ∧ sentAny₁ = sentAny₂ ∧ s₁ = s₂ := by simpa using hs₂
      exact ⟨.refl, rfl, fun hdone hun => hd ⟨hdone, ((unsent_iff (hp hdone)).mp hun).1⟩⟩
  rw [← hconn, ← hconns₂] at hend
  obtain ⟨hacts₃, hleft⟩ := endFlush_acts (hlive₁.congr fun _ => by rw [hconns₂]) hmem hdone₂ hend
  exact ⟨(hacts₁.trans hacts₂).trans hacts₃, hleft⟩

theorem flushDirty_acts (h : s.Ok past) (slots kept : List ℕ) :
    ∃ s', flushDirty slots kept s = some s' ∧ Acts ⟨past, kept ++ slots, s⟩ ⟨past, s'.dirty, s'⟩ := by
  induction slots generalizing s kept with
  | nil =>
    rw [List.append_nil]
    exact ⟨_, rfl, .single (.still (fun _ => rfl) rfl rfl rfl)⟩
  | cons slot slots ih =>
    unfold flushDirty
    split
    · next ho =>
      obtain ⟨done, s₁, hf, h₁⟩ := flushConnection_ok h ho
      obtain ⟨hacts, hdone⟩ := flushConnection_acts h ho (List.mem_append_right kept (List.mem_cons_self ..)) hf
      simp only [hf, Option.bind_eq_bind, Option.bind_some]
      split
      · next hd =>
        obtain ⟨s', hs', hrest⟩ :=
          ih (h₁.congr (@erase_setConnection s₁ slot { s₁.connections slot with dirty := false } rfl)) kept
        exact ⟨s', hs', (hacts.tail (.settle (hdone hd))).trans hrest⟩
      · obtain ⟨s', hs', hrest⟩ := ih h₁ (kept ++ [slot])
        rw [List.append_assoc] at hrest
        exact ⟨s', hs', hacts.trans hrest⟩
    · next ho =>
      obtain ⟨s', hs', hrest⟩ :=
        ih (h.congr (@erase_setConnection s slot { s.connections slot with dirty := false } rfl)) kept
      exact ⟨s', hs', .head (.settle fun ho' => absurd ho' ho) hrest⟩

/-! ## Steps and runs -/

theorem step_acts (h : s.Ok past) (step : Step) (hp : ∀ note, step = .note note → Pushable past note) :
    ∃ s', s.step step = some s' ∧ Acts ⟨past, s.dirty, s⟩ ⟨past ++ notesOf [step], s'.dirty, s'⟩ := by
  cases step with
  | note note => exact ⟨_, rfl, onNote_acts h (hp note rfl)⟩
  | event event => exact ⟨_, rfl, (List.append_nil past).symm ▸ onEvent_acts h event⟩
  | flush =>
    obtain ⟨s', hs', hacts⟩ := flushDirty_acts h s.dirty []
    exact ⟨s', hs', (List.append_nil past).symm ▸ hacts⟩
  | heartbeat =>
    have h' : Ok past { s with reads := s.reads + 1 } := h.congr rfl
    have hread : Act ⟨past, s.dirty, s⟩ ⟨past, s.dirty, { s with reads := s.reads + 1 }⟩ :=
      .still (fun _ => rfl) rfl rfl rfl
    obtain ⟨s', hs', hacts⟩ := heartbeat_acts h' (s.clock.rdtsc s.reads)
    exact ⟨s', hs', (List.append_nil past).symm ▸ .head hread hacts⟩
  | closeAll => exact ⟨_, rfl, (List.append_nil past).symm ▸ closeAll_acts h⟩

/-- A run is some acts, from the start on. -/
theorem run_acts (steps : List Step) (h : s.Ok past) (hp : ∀ before note after, notesOf steps = before ++ note :: after →
    Pushable (past ++ before) note) :
    ∃ s', s.run steps = some s' ∧ s'.Ok (past ++ notesOf steps) ∧
      Acts ⟨past, s.dirty, s⟩ ⟨past ++ notesOf steps, s'.dirty, s'⟩ := by
  induction steps generalizing s past with
  | nil => exact ⟨s, rfl, (List.append_nil past).symm ▸ ⟨h, .refl⟩⟩
  | cons step steps ih =>
    have hcons := notesOf_cons step steps
    have hfirst : ∀ note, step = .note note → Pushable past note := by
      rintro note rfl
      have := hp [] note (notesOf steps) hcons
      rwa [List.append_nil] at this
    obtain ⟨s₁, hs₁, h₁⟩ := step_ok h step hfirst
    obtain ⟨_, hs₁', hacts₁⟩ := step_acts h step hfirst
    obtain rfl := Option.some.inj (hs₁.symm.trans hs₁')
    obtain ⟨s', hs', h', hacts⟩ := ih h₁ fun before note after e => by
      rw [List.append_assoc]
      exact hp _ note after (by rw [hcons, e, List.append_assoc])
    rw [List.append_assoc, ← hcons] at h' hacts
    refine ⟨s', ?_, h', hacts₁.trans hacts⟩
    rw [run, hs₁]
    exact hs'

/-- What each act keeps, a run keeps. -/
theorem keeps_run {P : Point → Prop} (hact : ∀ p p', Act p p' → P p → P p') {p p' : Point} (hacts : Acts p p') (h : P p) :
    P p' := by
  induction hacts with
  | refl => exact h
  | tail _ ha ih => exact hact _ _ ha ih

end Outbound

end Exchange
