import Exchange.Proof.Server.Outbound
import Exchange.Proof.Server.Sessions
import Exchange.Proof.Wire.Soup

/-!
# The notes of the inbound thread

`InboundThread.Ok`: what the connections and the sessions of the inbound thread have to
do with the notes it has pushed. Every act keeps it (`Ok.act`), and so does one event
(`onEvent_ok`), as long as the TCP stack reports every connection id once and a slot's next
connection after the end of the last one. So the notes are ones the outbound thread can
rely on: `Ok.pushed` and `Ok.ended`.

`Admits` says which logins an event lets in: those of the Login Request it brings.
-/

namespace Exchange

open Spec (LoggedIn Disconnected MayLogin Pushable Pushed Endable EndedOnce)
open Outbound (disconnected_mono)

namespace InboundThread

/-- A connection that is open. -/
structure ConnOk (seen : List ConnId) (t : InboundThread) (slot : ℕ) : Prop where
  generation : (t.connections slot).conn.generation ≠ 0
  mem : (t.connections slot).conn ∈ seen
  alive : ¬ Disconnected t.notes (t.connections slot).conn
  answered : LoggedIn t.notes (t.connections slot).conn → (t.connections slot).loggedIn ∨ (t.connections slot).closing

/-- The state, when the stack has reported the connections `seen`. -/
structure Ok (seen : List ConnId) (t : InboundThread) : Prop extends Sessions t where
  pushed : Pushed t.notes
  ended : EndedOnce t.notes
  mem : ∀ conn, LoggedIn t.notes conn ∨ Disconnected t.notes conn → conn ∈ seen
  conns : ∀ slot, (t.connections slot).isOpen → t.ConnOk seen slot
  live : ∀ conn, LoggedIn t.notes conn → ¬ Disconnected t.notes conn →
    (t.connections conn.slot).isOpen ∧ (t.connections conn.slot).conn = conn
  sessions : ∀ c conn sequence, .loginAccepted c conn sequence ∈ t.notes → ¬ Disconnected t.notes conn →
    (t.connections conn.slot).loggedIn ∧ (t.connections conn.slot).clientId = c

variable {seen : List ConnId} {t t' : InboundThread} {retainedFrom : ℕ → ℕ}

theorem Ok.new : Ok [] {} where
  toSessions := Sessions.new
  pushed := pushed_nil
  ended := endedOnce_nil
  mem conn h := by
    rcases h with (⟨_, _, h⟩ | ⟨_, h⟩) | ⟨_, h⟩ <;> cases h
  conns _ h := nomatch h
  live conn h := by
    rcases h with ⟨_, _, h⟩ | ⟨_, h⟩ <;> cases h
  sessions _ _ _ h := nomatch h

/-- A connection that is open and has not been answered may log in. -/
theorem Ok.mayLogin (h : t.Ok seen) {slot : ℕ} (ho : (t.connections slot).isOpen)
    (hl : ¬ (t.connections slot).loggedIn) (hc : ¬ (t.connections slot).closing) :
    MayLogin t.notes (t.connections slot).conn := by
  have hx := h.conns slot ho
  have hnot : ¬ LoggedIn t.notes (t.connections slot).conn := fun hin => (hx.answered hin).elim hl hc
  refine ⟨hx.generation, hnot, hx.alive, fun conn' hs hin => ?_⟩
  by_contra hd
  obtain ⟨-, e⟩ := h.live conn' hin hd
  rw [hs, h.slot_eq slot ho] at e
  exact hnot (e ▸ hin)

/-! ## One note is pushed -/

/-- A note about the connection in `slot` is pushed, and the connection changes to `y`. -/
theorem Ok.update (h : t.Ok seen) {slot : ℕ} (ho : (t.connections slot).isOpen) {note : ServerNote}
    {y : InboundConnection} (hs : t'.Sessions) (hy : y.conn = (t.connections slot).conn)
    (hnotes : t'.notes = t.notes ++ [note]) (hconns : t'.connections = Function.update t.connections slot y)
    (hpush : Pushable t.notes note) (hend : Endable t.notes note) (hin : ∀ k, LoggedIn [note] k → k = y.conn)
    (hover : ∀ k, Disconnected [note] k ↔ k = y.conn ∧ ¬ y.isOpen)
    (hanswered : y.isOpen → LoggedIn t'.notes y.conn → y.loggedIn ∨ y.closing)
    (hsession : y.isOpen → ∀ c sequence, .loginAccepted c y.conn sequence ∈ t'.notes → y.loggedIn ∧ y.clientId = c) :
    t'.Ok seen := by
  have hx := h.conns slot ho
  have hslot : y.conn.slot = slot := hy ▸ h.slot_eq slot ho
  have hsame : t'.connections slot = y := by rw [hconns, Function.update_self]
  have hother : ∀ j, j ≠ slot → t'.connections j = t.connections j := fun j hj => by
    rw [hconns, Function.update_of_ne hj]
  have hconn : ∀ j, j ≠ slot → (t.connections j).isOpen → (t.connections j).conn ≠ y.conn := fun j hj hoj e =>
    hj (by rw [← h.slot_eq j hoj, e, hslot])
  have hlog : ∀ k, LoggedIn t'.notes k → k = y.conn ∨ LoggedIn t.notes k := fun k hk => by
    rw [hnotes, loggedIn_append] at hk
    exact hk.symm.imp_left (hin k)
  have hdisc : ∀ k, Disconnected t'.notes k ↔ Disconnected t.notes k ∨ k = y.conn ∧ ¬ y.isOpen := fun k => by
    rw [hnotes, disconnected_append, hover]
  -- a live connection other than the one in the slot is in another slot
  have hlive : ∀ k, k ≠ y.conn → LoggedIn t.notes k → ¬ Disconnected t.notes k →
      k.slot ≠ slot ∧ (t.connections k.slot).isOpen ∧ (t.connections k.slot).conn = k := fun k hk hki hkd => by
    obtain ⟨hko, hkc⟩ := h.live k hki hkd
    exact ⟨fun e => hk (by rw [← hkc, e, hy]), hko, hkc⟩
  refine ⟨hs, hnotes ▸ pushed_concat h.pushed hpush, hnotes ▸ endedOnce_concat h.ended hend, fun k hk => ?_, fun j hj => ?_, fun k hk hkd => ?_,
    fun c k sequence hm hkd => ?_⟩
  · rcases hk with hk | hk
    · rcases hlog k hk with rfl | hk
      · exact hy ▸ hx.mem
      · exact h.mem k (.inl hk)
    · rcases (hdisc k).mp hk with hk | ⟨rfl, -⟩
      · exact h.mem k (.inr hk)
      · exact hy ▸ hx.mem
  · by_cases hjs : j = slot
    · subst hjs
      rw [hsame] at hj
      refine ⟨?_, ?_, ?_, ?_⟩ <;> rw [hsame]
      · exact hy ▸ hx.generation
      · exact hy ▸ hx.mem
      · exact fun hd => ((hdisc _).mp hd).elim (hy ▸ hx.alive) fun hd => hd.2 hj
      · exact hanswered hj
    · rw [hother j hjs] at hj
      have hxj := h.conns j hj
      refine ⟨?_, ?_, ?_, ?_⟩ <;> rw [hother j hjs]
      · exact hxj.generation
      · exact hxj.mem
      · exact fun hd => ((hdisc _).mp hd).elim hxj.alive fun hd => hconn j hjs hj hd.1
      · exact fun hk => hxj.answered ((hlog _ hk).resolve_left (hconn j hjs hj))
  · rw [hdisc, not_or] at hkd
    by_cases hky : k = y.conn
    · subst hky
      rw [hslot, hsame]
      exact ⟨not_not.mp fun hno => hkd.2 ⟨rfl, hno⟩, rfl⟩
    · obtain ⟨hks, hko⟩ := hlive k hky ((hlog k hk).resolve_left hky) hkd.1
      rw [hother _ hks]
      exact hko
  · rw [hdisc, not_or] at hkd
    by_cases hky : k = y.conn
    · subst hky
      rw [hslot, hsame]
      exact hsession (not_not.mp fun hno => hkd.2 ⟨rfl, hno⟩) c sequence hm
    · rw [hnotes, List.mem_append] at hm
      have hm := hm.resolve_right fun hm => hky (hin k (.inl ⟨c, sequence, hm⟩))
      obtain ⟨hks, -⟩ := hlive k hky (.inl ⟨c, sequence, hm⟩) hkd.1
      rw [hother _ hks]
      exact h.sessions c k sequence hm hkd.1

/-- A login is turned away. -/
theorem Ok.reject (h : t.Ok seen) {slot : ℕ} (ho : (t.connections slot).isOpen)
    (hl : ¬ (t.connections slot).loggedIn) (hc : ¬ (t.connections slot).closing) (reason : SoupReject) :
    (t.rejectLogin slot reason).Ok seen := by
  have hmay := h.mayLogin ho hl hc
  refine h.update ho (y := { t.connections slot with closing := true }) (h.toSessions.reject ho hl hc reason) rfl rfl rfl
    hmay trivial ?_ ?_ (fun _ _ => .inr rfl) (fun _ c sequence hm => ?_)
  · rintro k (⟨c, sequence, hm⟩ | ⟨reason', hm⟩)
    · cases List.mem_singleton.mp hm
    · cases List.mem_singleton.mp hm
      rfl
  · refine fun k => ⟨fun ⟨c, hm⟩ => ?_, fun hk => absurd ho hk.2⟩
    cases List.mem_singleton.mp hm
  · rcases List.mem_append.mp hm with hm | hm
    · exact absurd (.inl ⟨c, sequence, hm⟩) hmay.2.1
    · cases List.mem_singleton.mp hm

/-- A login to a session that is free. -/
theorem Ok.letIn (h : t.Ok seen) {slot c : ℕ} {u : UInt64} (ho : (t.connections slot).isOpen)
    (hl : ¬ (t.connections slot).loggedIn) (hc : ¬ (t.connections slot).closing) (hu : t.usernames.lookup u = some c)
    (hfree : ¬ t.connected c) (sequence : ℕ) : (t.letIn slot c sequence).Ok seen := by
  have hmay := h.mayLogin ho hl hc
  have hpush : Pushable t.notes (.loginAccepted c (t.connections slot).conn sequence) := by
    refine ⟨Nat.one_le_iff_ne_zero.mp (h.ids u c hu).1, hmay, fun conn' sequence' hm => ?_⟩
    by_contra hd
    exact hfree ((h.connected c).mpr ⟨_, h.sessions c conn' sequence' hm hd⟩)
  refine h.update ho (y := { t.connections slot with loggedIn := true, clientId := c })
    (h.toSessions.letIn ho hl hc hu hfree sequence) rfl rfl rfl hpush trivial ?_ ?_ (fun _ _ => .inl rfl)
    (fun _ c' sequence' hm => ⟨rfl, ?_⟩)
  · rintro k (⟨c', sequence', hm⟩ | ⟨reason', hm⟩)
    · cases List.mem_singleton.mp hm
      rfl
    · cases List.mem_singleton.mp hm
  · refine fun k => ⟨fun ⟨c', hm⟩ => ?_, fun hk => absurd ho hk.2⟩
    cases List.mem_singleton.mp hm
  · rcases List.mem_append.mp hm with hm | hm
    · exact absurd (.inl ⟨c', sequence', hm⟩) hmay.2.1
    · cases List.mem_singleton.mp hm
      rfl

/-- A connection ends. -/
theorem Ok.disconnect (h : t.Ok seen) {slot : ℕ} (ho : (t.connections slot).isOpen) : (t.disconnect slot).Ok seen := by
  have hin : ∀ c k, ¬ LoggedIn [.disconnected c (t.connections slot).conn] k := by
    rintro c k (⟨_, _, hm⟩ | ⟨_, hm⟩) <;> cases List.mem_singleton.mp hm
  have hover : ∀ c k, Disconnected [.disconnected c (t.connections slot).conn] k ↔
      k = (t.connections slot).conn ∧ ¬ false = true := by
    refine fun c k => ⟨fun ⟨c', hm⟩ => ⟨?_, nofun⟩, fun hk => ⟨c, List.mem_singleton.mpr (hk.1 ▸ rfl)⟩⟩
    injection List.mem_singleton.mp hm
  have hpush : ∀ c, Pushable t.notes (.disconnected c (t.connections slot).conn) := fun _ => trivial
  have hend : ∀ c, Endable t.notes (.disconnected c (t.connections slot).conn) := fun _ => by
    refine ⟨(h.conns slot ho).generation, (h.conns slot ho).alive, fun conn' hs hne hin => ?_⟩
    by_contra hd
    obtain ⟨-, e⟩ := h.live conn' hin hd
    rw [hs, h.slot_eq slot ho] at e
    exact hne e.symm
  exact h.update ho
    (y := { t.connections slot with isOpen := false, loggedIn := false, closing := true, partialBytes := [] })
    (h.toSessions.disconnect ho) rfl (disconnect_notes ho) (disconnect_connections ho) (hpush _)
    (hend _) (fun k hk => absurd hk (hin _ k)) (hover _) nofun nofun

/-- A connection is accepted in a free slot. -/
theorem accepted_ok (h : t.Ok seen) {conn : ConnId} (h0 : conn.generation ≠ 0) (hnew : conn ∉ seen)
    (hfree : ¬ (t.connections conn.slot).isOpen) (recvTsc : ℕ) : (t.accept conn recvTsc).Ok (conn :: seen) := by
  have hsame : (t.accept conn recvTsc).connections conn.slot =
      { conn := conn, isOpen := true, openedTsc := recvTsc, lastRecvTsc := recvTsc, acceptedAt := t.notes.length } :=
    connections_setConnection ..
  have hother : ∀ j, j ≠ conn.slot → (t.accept conn recvTsc).connections j = t.connections j := fun j hj =>
    Function.update_of_ne hj ..
  have hslot : ∀ k : ConnId, (t.connections k.slot).isOpen → k.slot ≠ conn.slot := fun k hk e => hfree (e ▸ hk)
  refine ⟨h.toSessions.accept conn hfree recvTsc, h.pushed, h.ended, fun k hk => List.mem_cons_of_mem conn (h.mem k hk),
    fun j hj => ?_, fun k hk hkd => ?_, fun c k sequence hm hkd => ?_⟩
  · by_cases hjs : j = conn.slot
    · subst hjs
      refine ⟨?_, ?_, ?_, ?_⟩ <;> rw [hsame]
      · exact h0
      · exact List.mem_cons_self
      · exact fun hd => hnew (h.mem conn (.inr hd))
      · exact fun hk => absurd (h.mem conn (.inl hk)) hnew
    · rw [hother j hjs] at hj
      have hx := h.conns j hj
      refine ⟨?_, ?_, ?_, ?_⟩ <;> rw [hother j hjs]
      · exact hx.generation
      · exact List.mem_cons_of_mem conn hx.mem
      · exact hx.alive
      · exact hx.answered
  · obtain ⟨hko, hkc⟩ := h.live k hk hkd
    rw [hother _ (hslot k hko)]
    exact ⟨hko, hkc⟩
  · obtain ⟨hko, -⟩ := h.live k (.inl ⟨c, sequence, hm⟩) hkd
    rw [hother _ (hslot k hko)]
    exact h.sessions c k sequence hm hkd

/-! ## Acts -/

/-- What is said of each note and those before it, if it is said of gateway notes. -/
theorem forall_split_gateway {P : List ServerNote → ServerNote → Prop} (hP : ∀ past note, P past (.gateway note))
    {notes more : List ServerNote} (h : ∀ past note rest, notes = past ++ note :: rest → P past note)
    (hg : ∀ note ∈ more, ∃ gateway, note = .gateway gateway) :
    ∀ past note rest, notes ++ more = past ++ note :: rest → P past note := by
  induction more using List.reverseRecOn with
  | nil => rwa [List.append_nil]
  | append_singleton more note ih =>
    rw [← List.append_assoc]
    obtain ⟨gateway, rfl⟩ := hg note (List.mem_append_right _ (List.mem_singleton_self _))
    exact List.forall_split_concat (ih fun note hm => hg note (List.mem_append_left _ hm)) (hP _ gateway)

/-- Gateway notes are pushed. -/
theorem Ok.gateway (h : t.Ok seen) (hs : t'.Sessions) (hconns : t'.connections = t.connections)
    {more : List ServerNote} (hnotes : t'.notes = t.notes ++ more)
    (hg : ∀ note ∈ more, ∃ gateway, note = .gateway gateway) : t'.Ok seen := by
  have hlogin : ∀ c k sequence, .loginAccepted c k sequence ∉ more := fun c k sequence hm => by
    obtain ⟨_, e⟩ := hg _ hm
    cases e
  have hlog : ∀ k, LoggedIn t'.notes k → LoggedIn t.notes k := fun k hk => by
    rw [hnotes, loggedIn_append] at hk
    rcases hk with hk | ⟨c, sequence, hm⟩ | ⟨_, hm⟩
    · exact hk
    · exact absurd hm (hlogin c k sequence)
    · obtain ⟨_, e⟩ := hg _ hm
      cases e
  have hdisc : ∀ k, Disconnected t'.notes k ↔ Disconnected t.notes k := fun k => by
    rw [hnotes, disconnected_append]
    refine or_iff_left fun ⟨c, hm⟩ => ?_
    obtain ⟨_, e⟩ := hg _ hm
    cases e
  have hpushed : Pushed (t.notes ++ more) := forall_split_gateway (fun _ _ => trivial) h.pushed hg
  have hended : EndedOnce (t.notes ++ more) := forall_split_gateway (fun _ _ => trivial) h.ended hg
  refine ⟨hs, hnotes ▸ hpushed, hnotes ▸ hended, fun k hk => h.mem k (hk.imp (hlog k) (hdisc k).mp), fun j hj => ?_,
    fun k hk hkd => ?_, fun c k sequence hm hkd => ?_⟩
  · rw [hconns] at hj
    have hx := h.conns j hj
    refine ⟨?_, ?_, ?_, ?_⟩ <;> rw [hconns]
    · exact hx.generation
    · exact hx.mem
    · exact fun hd => hx.alive ((hdisc _).mp hd)
    · exact fun hk => hx.answered (hlog _ hk)
  · rw [hconns]
    exact h.live k (hlog k hk) fun hd => hkd ((hdisc k).mpr hd)
  · rw [hconns]
    rw [hnotes, List.mem_append] at hm
    exact h.sessions c k sequence (hm.resolve_right (hlogin c k sequence)) fun hd => hkd ((hdisc k).mpr hd)

theorem ok_erase : t.erase.Ok seen ↔ t.Ok seen :=
  ⟨fun h => ⟨sessions_erase.mp h.toSessions, h.pushed, h.ended, h.mem,
      fun j hj => ⟨(h.conns j hj).generation, (h.conns j hj).mem, (h.conns j hj).alive, (h.conns j hj).answered⟩,
      h.live, h.sessions⟩,
    fun h => ⟨sessions_erase.mpr h.toSessions, h.pushed, h.ended, h.mem,
      fun j hj => ⟨(h.conns j hj).generation, (h.conns j hj).mem, (h.conns j hj).alive, (h.conns j hj).answered⟩,
      h.live, h.sessions⟩⟩

/-- What one act preserves. -/
theorem Ok.act (h : t.Ok seen) (ha : Act t t') : t'.Ok seen := by
  have hs := h.toSessions.act ha
  cases ha with
  | still e _ => exact ok_erase.mp (e ▸ ok_erase.mpr h)
  | client hf =>
    obtain ⟨-, hconns, hnotes, -, -⟩ := h.toSessions.client hf
    have hnotes : t'.notes = t.notes ++ [] := hnotes.trans (List.append_nil _).symm
    exact h.gateway hs hconns hnotes nofun
  | ouch _ _ hh =>
    have hx := Translates.of_eq hh h.entry
    obtain ⟨more, hmore, hg⟩ := hx.notes
    exact h.gateway hs hx.connections hmore hg
  | reject ho hl hc reason => exact h.reject ho hl hc reason
  | letIn ho hl hc hu hfree sequence => exact h.letIn ho hl hc hu hfree sequence
  | disconnect ho => exact h.disconnect ho

theorem Ok.acts (h : t.Ok seen) (ha : Acts t t') : t'.Ok seen := by
  induction ha with
  | refl => exact h
  | tail _ ha ih => exact ih.act ha

/-! ## Who is let in -/

/-- From `t` to `t'` usernames keep their sessions, and the logins let in are those of `P`. -/
structure Admits (t t' : InboundThread) (P : ℕ → ConnId → ℕ → Prop) : Prop where
  usernames : ∀ u c, t.usernames.lookup u = some c → t'.usernames.lookup u = some c
  notes : ∃ new, t'.notes = t.notes ++ new ∧ ∀ c conn sequence, .loginAccepted c conn sequence ∈ new → P c conn sequence

variable {P : ℕ → ConnId → ℕ → Prop}

/-- Nothing is pushed. -/
theorem Admits.same (husers : t'.usernames = t.usernames) (hnotes : t'.notes = t.notes) : Admits t t' P :=
  ⟨fun _ _ h => husers ▸ h, [], by rw [hnotes, List.append_nil], nofun⟩

/-- One note is pushed, which is not an accepted login. -/
theorem Admits.push {note : ServerNote} (husers : t'.usernames = t.usernames) (hnotes : t'.notes = t.notes ++ [note])
    (h : ∀ c conn sequence, note ≠ .loginAccepted c conn sequence) : Admits t t' P where
  usernames _ _ h := husers ▸ h
  notes := ⟨[note], hnotes, fun c conn sequence hm => absurd (List.mem_singleton.mp hm).symm (h c conn sequence)⟩

/-- A Login Request that is let in is for the session of its username, from the message it
asks for. -/
def RequestOf (t : InboundThread) (payload : List UInt8) (c sequence : ℕ) : Prop :=
  ∃ login, decodeSoupLoginRequest payload = some login ∧ login.requestedSequenceNumber = sequence ∧
    t.usernames.lookup (pack (normalize login.username)) = some c

theorem LogsIn.admits {slot : ℕ} {payload : List UInt8} (hlog : LogsIn t slot payload t') (h : t.Sessions) :
    Admits t t' fun c conn sequence => conn = (t.connections slot).conn ∧ t'.RequestOf payload c sequence := by
  cases hlog with
  | rejected reason => exact .push rfl rfl nofun
  | refused hf reason =>
    refine ⟨(h.client hf).2.2.2.2, [_], rfl, fun c conn sequence hm => ?_⟩
    cases List.mem_singleton.mp hm
  | letIn hd hf _ =>
    obtain ⟨-, -, -, hu, husers⟩ := h.client hf
    refine ⟨husers, [_], rfl, fun c conn sequence hm => ?_⟩
    cases List.mem_singleton.mp hm
    exact ⟨rfl, _, hd, rfl, hu⟩

theorem disconnect_admits (slot : ℕ) : Admits t (t.disconnect slot) P := by
  unfold disconnect
  dsimp only
  split
  · exact .same rfl rfl
  · split
    · exact .push rfl rfl (by rintro _ _ _ ⟨⟩)
    · exact .push rfl rfl (by rintro _ _ _ ⟨⟩)

theorem Translates.admits (h : Translates t t') : Admits t t' P := by
  obtain ⟨more, hmore, hg⟩ := h.notes
  refine ⟨fun _ _ hu => h.usernames ▸ hu, more, hmore, fun c conn sequence hm => ?_⟩
  obtain ⟨_, e⟩ := hg _ hm
  cases e

/-! ## Events -/

/-- The logins an event lets in: those of a Login Request on the same connection. -/
def LoginOf (t : InboundThread) (event : Event) (c : ℕ) (conn : ConnId) (sequence : ℕ) : Prop :=
  ∃ packet, event = .packet conn packet ∧ packet.type = SoupPacketType.loginRequest.byte ∧
    t.RequestOf packet.payload c sequence

/-- The stack can report the event. -/
def Possible (seen : List ConnId) (t : InboundThread) : Event → Prop
  | .accepted conn => conn.generation ≠ 0 ∧ conn ∉ seen ∧ ¬ (t.connections conn.slot).isOpen
  | _ => True

/-- The connections reported after an event. -/
def seenAfter (seen : List ConnId) : Event → List ConnId
  | .accepted conn => conn :: seen
  | _ => seen

theorem handleSoupPacket_admits (h : t.Sessions) {conn : ConnId} (hconn : (t.connections conn.slot).conn = conn)
    {packet : SoupPacket} (ht' : t.handleSoupPacket retainedFrom conn.slot packet = some t') :
    Admits t t' (t'.LoginOf (.packet conn packet)) := by
  have hrecord : (t.recordPacket conn.slot packet).Sessions := h.congr rfl
  cases handleSoupPacket_handles ht' with
  | ignored => exact .same rfl rfl
  | login htype _ hlog =>
    obtain ⟨hu, new, hnew, hP⟩ := hlog.admits hrecord
    refine ⟨hu, new, hnew, fun c conn' sequence hm => ?_⟩
    obtain ⟨rfl, hr⟩ := hP c conn' sequence hm
    exact ⟨packet, congrArg (Event.packet · packet) hconn.symm, SoupPacketType.ofByte_eq_some.mp htype, hr⟩
  | ouch _ _ ho =>
    have ha := (Translates.of_eq ho h.entry).admits (P := t'.LoginOf (.packet conn packet))
    exact ⟨ha.usernames, ha.notes⟩
  | logout =>
    have ha := disconnect_admits (t := t.recordPacket conn.slot packet) (P := fun _ _ _ => False) conn.slot
    exact ⟨ha.usernames, ha.notes.imp fun new hnew => ⟨hnew.1, fun c conn sequence hm => (hnew.2 c conn sequence hm).elim⟩⟩

/-- What one event preserves. -/
theorem onEvent_ok (h : t.Ok seen) (event : Event) (hp : Possible seen t event) :
    ∃ t', t.onEvent retainedFrom event = some t' ∧ t'.Ok (seenAfter seen event) ∧ Admits t t' (t'.LoginOf event) := by
  cases event with
  | accepted conn => exact ⟨_, rfl, accepted_ok h hp.1 hp.2.1 hp.2.2 0, .same rfl rfl⟩
  | packet conn packet =>
    unfold onEvent
    dsimp only
    split
    · exact ⟨t, rfl, h, .same rfl rfl⟩
    · next hx =>
      rw [not_or, not_not, Bool.not_eq_true', Bool.not_eq_false] at hx
      obtain ⟨t', ht', ha⟩ := handleSoupPacket_acts retainedFrom h.toSessions hx.2 packet
      exact ⟨t', ht', h.acts ha, handleSoupPacket_admits h.toSessions hx.1 ht'⟩
  | ended conn =>
    refine ⟨_, rfl, h.acts (ended_acts t conn), ?_⟩
    unfold connEnded
    split
    · exact .same rfl rfl
    · exact disconnect_admits _

end InboundThread

end Exchange
