import Exchange.Impl.Server.Inbound
import Exchange.Proof.Server.Entry
import Exchange.Spec.Session
import Mathlib.Logic.Relation

/-!
# The sessions of the inbound thread

`Act` says once what the inbound thread can do to its connections and sessions, and every
function of it comes to some acts, one after the other. `Sessions` is kept by each: a
session is connected if and only if one connection is logged into it, usernames have
sessions of their own, and of each connection one login and then its end are noted.
-/

namespace Exchange

open Spec (about notesAbout LoginThenEnd LoggedIn acceptOf liveAfter Reported)

namespace InboundThread

/-! ## What can be done -/

/-- A connection without what is only read when data arrives or time passes. -/
def core (x : InboundConnection) : InboundConnection where
  conn := x.conn
  isOpen := x.isOpen
  loggedIn := x.loggedIn
  closing := x.closing
  clientId := x.clientId
  acceptedAt := x.acceptedAt

/-- The state without what is only read when data arrives or time passes. -/
def erase (t : InboundThread) : InboundThread where
  entry := t.entry
  connections := fun slot => core (t.connections slot)
  connected := t.connected
  usernames := t.usernames
  nextClientId := t.nextClientId
  notes := t.notes
  history := { calls := t.history.calls }

/-- The beginning of a packet, as `partial` can have it. -/
def Pending (bytes : List UInt8) : Prop :=
  bytes.length < 2 ∨ bytes.length < packetLen bytes ∧ packetLen bytes ≤ maxInboundSoupPacket

def Buffered (t : InboundThread) : Prop := ∀ slot, Pending (t.connections slot).partialBytes

/-- One thing that is done to the connections, the sessions or the notes. -/
inductive Act : InboundThread → InboundThread → Prop
  | still {t t' : InboundThread} (e : t'.erase = t.erase) (hb : t.Buffered → t'.Buffered) : Act t t'
  | client {t t' : InboundThread} {u : UInt64} {c : ℕ} (h : t.findClient u = some (c, t')) : Act t t'
  | ouch {t t' : InboundThread} {slot : ℕ} {msg : OuchInboundFrame} (ho : (t.connections slot).isOpen)
      (hl : (t.connections slot).loggedIn)
      (h : (t.recordCall slot).handleOuch (t.connections slot).clientId msg = some t') : Act t t'
  | reject {t : InboundThread} {slot : ℕ} (ho : (t.connections slot).isOpen) (hl : ¬ (t.connections slot).loggedIn)
      (hc : ¬ (t.connections slot).closing) (reason : SoupReject) : Act t (t.rejectLogin slot reason)
  | letIn {t : InboundThread} {slot c : ℕ} {u : UInt64} (ho : (t.connections slot).isOpen)
      (hl : ¬ (t.connections slot).loggedIn) (hc : ¬ (t.connections slot).closing)
      (hu : t.usernames.lookup u = some c) (hfree : ¬ t.connected c) (sequence : ℕ) :
      Act t (t.letIn slot c sequence)
  | disconnect {t : InboundThread} {slot : ℕ} (ho : (t.connections slot).isOpen) : Act t (t.disconnect slot)

abbrev Acts : InboundThread → InboundThread → Prop := Relation.ReflTransGen Act

/-! ## The invariant -/

/-- What has been noted of the connection in a slot since it was accepted. -/
def since (t : InboundThread) (slot : ℕ) : List ServerNote :=
  notesAbout (t.connections slot).conn (t.notes.drop (t.connections slot).acceptedAt)

/-- The notes about a connection, given how it stands. -/
def Told (x : InboundConnection) (notes : List ServerNote) : Prop :=
  match x.isOpen, x.loggedIn, x.closing with
  | true, true, _ => ∃ sequence, notes = [.loginAccepted x.clientId x.conn sequence]
  | true, false, true => ∃ reason, notes = [.loginRejected x.conn reason]
  | true, false, false => notes = []
  | false, _, _ => LoginThenEnd x.conn notes

structure Sessions (t : InboundThread) : Prop where
  entry : t.entry.Ok
  slot_eq : ∀ slot, (t.connections slot).isOpen → (t.connections slot).conn.slot = slot
  accepted_le : ∀ slot, (t.connections slot).acceptedAt ≤ t.notes.length
  told : ∀ slot, (t.connections slot).conn.slot = slot → Told (t.connections slot) (t.since slot)
  loggedIn : ∀ slot, (t.connections slot).loggedIn → (t.connections slot).isOpen ∧ ¬ (t.connections slot).closing
  connected : ∀ c, t.connected c = true ↔ ∃ slot, (t.connections slot).loggedIn ∧ (t.connections slot).clientId = c
  unique : ∀ i j, (t.connections i).loggedIn → (t.connections j).loggedIn →
    (t.connections i).clientId = (t.connections j).clientId → i = j
  known : ∀ slot, (t.connections slot).loggedIn → ∃ u, t.usernames.lookup u = some (t.connections slot).clientId
  next : 1 ≤ t.nextClientId ∧ t.nextClientId ≤ maxClients + 1
  ids : ∀ u c, t.usernames.lookup u = some c → 1 ≤ c ∧ c < t.nextClientId
  ids_inj : ∀ u u' c, t.usernames.lookup u = some c → t.usernames.lookup u' = some c → u = u'
  calls : ∀ call ∈ t.history.calls, call.calledAt ≤ t.notes.length ∧
    ∃ sequence, notesAbout call.conn ((t.notes.take call.calledAt).drop call.acceptedAt) =
      [.loginAccepted call.clientId call.conn sequence]

variable {t t' : InboundThread} {slot : ℕ}

theorem Sessions.new : Sessions {} where
  entry := OrderEntry.Ok.new _
  slot_eq _ h := nomatch h
  accepted_le _ := Nat.le_refl 0
  told _ _ := ⟨[], [], rfl, .inl rfl, .inl rfl⟩
  loggedIn _ h := nomatch h
  connected c := ⟨nofun, fun ⟨_, h, _⟩ => nomatch h⟩
  unique _ _ h := nomatch h
  known _ h := nomatch h
  next := ⟨Nat.le_refl 1, by decide⟩
  ids _ _ h := nomatch h
  ids_inj _ _ _ h := nomatch h
  calls _ h := nomatch h

theorem sessions_erase : t.erase.Sessions ↔ t.Sessions :=
  ⟨fun h => ⟨h.entry, h.slot_eq, h.accepted_le, h.told, h.loggedIn, h.connected, h.unique, h.known, h.next, h.ids,
      h.ids_inj, h.calls⟩,
    fun h => ⟨h.entry, h.slot_eq, h.accepted_le, h.told, h.loggedIn, h.connected, h.unique, h.known, h.next, h.ids,
      h.ids_inj, h.calls⟩⟩

theorem Sessions.congr (h : t.Sessions) (e : t'.erase = t.erase) : t'.Sessions :=
  sessions_erase.mp (e ▸ sessions_erase.mpr h)

/-! ## Notes -/

theorem notesAbout_append (conn : ConnId) (notes more : List ServerNote) :
    notesAbout conn (notes ++ more) = notesAbout conn notes ++ notesAbout conn more := List.filter_append ..

/-- Notes that are pushed are noted of the connections they are about. -/
theorem notesAbout_drop_append (conn : ConnId) {notes : List ServerNote} {n : ℕ} (h : n ≤ notes.length)
    (more : List ServerNote) :
    notesAbout conn ((notes ++ more).drop n) = notesAbout conn (notes.drop n) ++ notesAbout conn more := by
  rw [List.drop_append_of_le_length h, notesAbout_append]

theorem notesAbout_of_about {conn : ConnId} {note : ServerNote} (h : about conn note = true) :
    notesAbout conn [note] = [note] := List.filter_cons_of_pos h

theorem notesAbout_of_not_about {conn : ConnId} {note : ServerNote} (h : ¬ about conn note = true) :
    notesAbout conn [note] = [] := List.filter_cons_of_neg h

/-- A note is about one connection. -/
theorem about_unique {conn conn' : ConnId} {note : ServerNote} (h : about conn note = true)
    (h' : about conn' note = true) : conn = conn' := by
  cases note <;> simp only [about, decide_eq_true_eq, Bool.false_eq_true] at h h' <;> exact h.symm.trans h'

/-- The calls that were made stay as they are when notes are pushed. -/
theorem Sessions.calls_append (h : t.Sessions) (more : List ServerNote) : ∀ call ∈ t.history.calls,
    call.calledAt ≤ (t.notes ++ more).length ∧
      ∃ sequence, notesAbout call.conn (((t.notes ++ more).take call.calledAt).drop call.acceptedAt) =
        [.loginAccepted call.clientId call.conn sequence] := by
  intro call hcall
  obtain ⟨hle, hseq⟩ := h.calls call hcall
  rw [List.length_append, List.take_append_of_le_length hle]
  exact ⟨Nat.le_add_right_of_le hle, hseq⟩

/-! ## Acts -/

/-- The connection in `slot` changes to `y`, and the notes `more` are pushed, which are not
about other connections. -/
theorem Sessions.update (h : t.Sessions) {y : InboundConnection} {more : List ServerNote}
    (hnotes : t'.notes = t.notes ++ more) (hconns : t'.connections = Function.update t.connections slot y)
    (hentry : t'.entry = t.entry) (husers : t'.usernames = t.usernames) (hnext : t'.nextClientId = t.nextClientId)
    (hcalls : t'.history.calls = t.history.calls) (hslot : y.isOpen → y.conn.slot = slot)
    (hat : y.acceptedAt ≤ t.notes.length)
    (habout : ∀ j, j ≠ slot → (t.connections j).conn.slot = j → notesAbout (t.connections j).conn more = [])
    (htold : Told y (notesAbout y.conn (t.notes.drop y.acceptedAt) ++ notesAbout y.conn more))
    (hlogged : y.loggedIn → y.isOpen ∧ ¬ y.closing)
    (hconnected : ∀ c, t'.connected c = true ↔ (y.loggedIn ∧ y.clientId = c) ∨
      ∃ j, j ≠ slot ∧ (t.connections j).loggedIn ∧ (t.connections j).clientId = c)
    (hunique : y.loggedIn → ∀ j, j ≠ slot → (t.connections j).loggedIn → (t.connections j).clientId ≠ y.clientId)
    (hknown : y.loggedIn → ∃ u, t.usernames.lookup u = some y.clientId) : t'.Sessions := by
  have hall : ∀ p : ℕ → InboundConnection → Prop, p slot y → (∀ j, j ≠ slot → p j (t.connections j)) →
      ∀ j, p j (t'.connections j) := fun p hy hp => by
    rw [hconns]
    exact (Function.forall_update_iff t.connections p).mpr ⟨hy, hp⟩
  have hle := hall (fun _ x => x.acceptedAt ≤ t.notes.length) hat fun j _ => h.accepted_le j
  have hsince := hall (fun j x => x.conn.slot = j →
    Told x (notesAbout x.conn (t.notes.drop x.acceptedAt) ++ notesAbout x.conn more)) (fun _ => htold)
    fun j hj hs => by
      rw [habout j hj hs, List.append_nil]
      exact h.told j hs
  refine {
    entry := hentry ▸ h.entry
    slot_eq := hall (fun j x => x.isOpen → x.conn.slot = j) hslot fun j _ => h.slot_eq j
    accepted_le := fun j => by
      rw [hnotes, List.length_append]
      exact Nat.le_add_right_of_le (hle j)
    told := fun j hj => by
      rw [since, hnotes, notesAbout_drop_append _ (hle j)]
      exact hsince j hj
    loggedIn := hall (fun _ x => x.loggedIn → x.isOpen ∧ ¬ x.closing) hlogged fun j _ => h.loggedIn j
    connected := fun c => by
      rw [hconnected c, hconns]
      exact (Function.exists_update_iff t.connections fun _ x => x.loggedIn ∧ x.clientId = c).symm
    unique := ?_
    known := ?_
    next := hnext ▸ h.next
    ids := hnext ▸ husers ▸ h.ids
    ids_inj := husers ▸ h.ids_inj
    calls := by
      rw [hcalls, hnotes]
      exact h.calls_append more }
  · refine hall (fun i x => ∀ j, x.loggedIn → (t'.connections j).loggedIn →
      x.clientId = (t'.connections j).clientId → i = j) ?_ fun i hi => ?_
    · exact hall (fun j x => y.loggedIn → x.loggedIn → y.clientId = x.clientId → slot = j) (fun _ _ _ => rfl)
        fun j hj hy hl e => absurd e.symm (hunique hy j hj hl)
    · exact hall (fun j x => (t.connections i).loggedIn → x.loggedIn → (t.connections i).clientId = x.clientId → i = j)
        (fun hl hy e => absurd e (hunique hy i hi hl)) fun j _ => h.unique i j
  · rw [husers]
    exact hall (fun _ x => x.loggedIn → ∃ u, t.usernames.lookup u = some x.clientId) hknown fun j _ => h.known j

/-- A note about the connection in `slot` is pushed, and the connection changes to `y`. -/
theorem Sessions.push (h : t.Sessions) (ho : (t.connections slot).isOpen) {note : ServerNote} {y : InboundConnection}
    (hconn : y.conn = (t.connections slot).conn) (hat : y.acceptedAt = (t.connections slot).acceptedAt)
    (habout : about y.conn note = true) (hnotes : t'.notes = t.notes ++ [note])
    (hconns : t'.connections = Function.update t.connections slot y) (hentry : t'.entry = t.entry)
    (husers : t'.usernames = t.usernames) (hnext : t'.nextClientId = t.nextClientId)
    (hcalls : t'.history.calls = t.history.calls) (hlogged : y.loggedIn → y.isOpen ∧ ¬ y.closing)
    (htold : Told y (t.since slot ++ [note]))
    (hconnected : ∀ c, t'.connected c = true ↔ (y.loggedIn ∧ y.clientId = c) ∨
      ∃ j, j ≠ slot ∧ (t.connections j).loggedIn ∧ (t.connections j).clientId = c)
    (hunique : y.loggedIn → ∀ j, j ≠ slot → (t.connections j).loggedIn → (t.connections j).clientId ≠ y.clientId)
    (hknown : y.loggedIn → ∃ u, t.usernames.lookup u = some y.clientId) : t'.Sessions := by
  have hslot : y.conn.slot = slot := hconn ▸ h.slot_eq slot ho
  refine h.update hnotes hconns hentry husers hnext hcalls (fun _ => hslot) (hat ▸ h.accepted_le slot)
    (fun j hj hs => notesAbout_of_not_about fun ha => ?_) ?_ hlogged hconnected hunique hknown
  · -- the connection of another slot is another connection
    rw [about_unique ha habout, hslot] at hs
    exact hj hs.symm
  · rw [notesAbout_of_about habout, hconn, hat]
    exact htold

/-- Nothing has been noted of a connection that has not been answered. -/
theorem Sessions.since_eq_nil (h : t.Sessions) (ho : (t.connections slot).isOpen)
    (hl : ¬ (t.connections slot).loggedIn) (hc : ¬ (t.connections slot).closing) : t.since slot = [] := by
  have htold := h.told slot (h.slot_eq slot ho)
  rw [Bool.not_eq_true] at hl hc
  rw [Told, ho, hl, hc] at htold
  exact htold

/-- What has been noted of an open connection: a login, or nothing. -/
theorem Sessions.since_login (h : t.Sessions) (ho : (t.connections slot).isOpen) :
    t.since slot = [] ∨ ∃ note, t.since slot = [note] ∧ LoggedIn [note] (t.connections slot).conn := by
  have htold := h.told slot (h.slot_eq slot ho)
  rw [Told, ho] at htold
  cases hl : (t.connections slot).loggedIn <;> cases hc : (t.connections slot).closing <;> rw [hl, hc] at htold
  · exact .inl htold
  · obtain ⟨reason, e⟩ := htold
    exact .inr ⟨_, e, .inr ⟨reason, List.mem_singleton_self _⟩⟩
  · obtain ⟨sequence, e⟩ := htold
    exact .inr ⟨_, e, .inl ⟨_, sequence, List.mem_singleton_self _⟩⟩
  · obtain ⟨sequence, e⟩ := htold
    exact .inr ⟨_, e, .inl ⟨_, sequence, List.mem_singleton_self _⟩⟩

/-- The sessions of the connections besides one. -/
theorem Sessions.connected_of_not (h : t.Sessions) (hl : ¬ (t.connections slot).loggedIn) (c : ℕ) :
    t.connected c = true ↔ ∃ j, j ≠ slot ∧ (t.connections j).loggedIn ∧ (t.connections j).clientId = c :=
  (h.connected c).trans ⟨fun ⟨j, hj, e⟩ => ⟨j, fun hjs => hl (hjs ▸ hj), hj, e⟩, fun ⟨j, _, hj, e⟩ => ⟨j, hj, e⟩⟩

theorem Sessions.reject (h : t.Sessions) (ho : (t.connections slot).isOpen) (hl : ¬ (t.connections slot).loggedIn)
    (hc : ¬ (t.connections slot).closing) (reason : SoupReject) :
    (t.rejectLogin slot reason).Sessions := by
  refine h.push ho (y := { t.connections slot with closing := true }) rfl rfl (by simp [about]) rfl rfl rfl rfl rfl rfl
    (fun hy => absurd hy hl) ?_ (fun c => ?_) (fun hy => absurd hy hl) (fun hy => absurd hy hl)
  · rw [h.since_eq_nil ho hl hc]
    simp only [Told, ho, Bool.not_eq_true _ ▸ hl]
    exact ⟨reason, rfl⟩
  · exact (h.connected_of_not hl c).trans (or_iff_right fun hy => hl hy.1).symm

theorem Sessions.letIn (h : t.Sessions) {slot c : ℕ} {u : UInt64} (ho : (t.connections slot).isOpen)
    (hl : ¬ (t.connections slot).loggedIn) (hc : ¬ (t.connections slot).closing) (hu : t.usernames.lookup u = some c)
    (hfree : ¬ t.connected c) (sequence : ℕ) : (t.letIn slot c sequence).Sessions := by
  refine h.push ho (y := { t.connections slot with loggedIn := true, clientId := c }) rfl rfl (by simp [about]) rfl rfl
    rfl rfl rfl rfl (fun _ => ⟨ho, hc⟩) ?_ (fun c' => ?_) (fun _ j _ hj e => ?_) (fun _ => ⟨u, hu⟩)
  · rw [h.since_eq_nil ho hl hc]
    simp only [Told, ho]
    exact ⟨sequence, rfl⟩
  · show Function.update t.connected c true c' = true ↔ _
    by_cases e : c' = c
    · subst e
      rw [Function.update_self]
      exact ⟨fun _ => .inl ⟨rfl, rfl⟩, fun _ => rfl⟩
    · rw [Function.update_of_ne e, h.connected_of_not hl c']
      exact (or_iff_right fun hy => e hy.2.symm).symm
  · exact hfree ((h.connected c).mpr ⟨j, hj, e⟩)

theorem Sessions.disconnect (h : t.Sessions) (ho : (t.connections slot).isOpen) : (t.disconnect slot).Sessions := by
  have htold : ∀ c, LoginThenEnd (t.connections slot).conn
      (t.since slot ++ [.disconnected c (t.connections slot).conn]) := fun c =>
    ⟨t.since slot, _, rfl, h.since_login ho, .inr ⟨c, rfl⟩⟩
  unfold InboundThread.disconnect
  dsimp only
  rw [if_neg (by simp [ho])]
  split
  · next hl =>
    refine h.push ho (y := { t.connections slot with isOpen := false, loggedIn := false, closing := true, partialBytes := [] })
      rfl rfl (by simp [about]) rfl rfl rfl rfl rfl rfl nofun (htold _) (fun c => ?_) nofun nofun
    show Function.update t.connected (t.connections slot).clientId false c = true ↔ _
    by_cases e : c = (t.connections slot).clientId
    · subst e
      rw [Function.update_self]
      refine ⟨nofun, ?_⟩
      rintro (⟨hy, -⟩ | ⟨j, hj, hlj, e⟩)
      · cases hy
      · exact absurd (h.unique j slot hlj hl e) hj
    · rw [Function.update_of_ne e, h.connected c]
      constructor
      · rintro ⟨j, hj, rfl⟩
        exact .inr ⟨j, fun hjs => e (by rw [hjs]), hj, rfl⟩
      · rintro (⟨hy, -⟩ | ⟨j, -, hj, e⟩)
        · cases hy
        · exact ⟨j, hj, e⟩
  · next hl =>
    refine h.push ho (y := { t.connections slot with isOpen := false, loggedIn := false, closing := true, partialBytes := [] })
      rfl rfl (by simp [about]) rfl rfl rfl rfl rfl rfl nofun (htold _) (fun c => ?_) nofun nofun
    exact (h.connected_of_not hl c).trans (or_iff_right (by rintro ⟨⟨⟩, -⟩)).symm

/-- The session of a username stays, or is made. -/
theorem Sessions.client (h : t.Sessions) {u : UInt64} {c : ℕ} (hf : t.findClient u = some (c, t')) :
    t'.Sessions ∧ t'.connections = t.connections ∧ t'.notes = t.notes ∧ t'.usernames.lookup u = some c ∧
      ∀ u' c', t.usernames.lookup u' = some c' → t'.usernames.lookup u' = some c' := by
  unfold findClient at hf
  split at hf
  · next hc₀ =>
    cases hf
    exact ⟨h, rfl, rfl, hc₀, fun _ _ h => h⟩
  · next hnone =>
    split at hf
    · next hroom =>
      cases hf
      have hkeep : ∀ u' c', t.usernames.lookup u' = some c' →
          (t.usernames.insert u t.nextClientId).lookup u' = some c' := fun u' c' hu' => by
        rw [AList.lookup_insert_ne fun e => by rw [e, hnone] at hu'; cases hu']
        exact hu'
      have hcases : ∀ u' c', (t.usernames.insert u t.nextClientId).lookup u' = some c' →
          u' = u ∧ c' = t.nextClientId ∨ t.usernames.lookup u' = some c' := fun u' c' hu' => by
        by_cases e : u' = u
        · subst e
          rw [AList.lookup_insert] at hu'
          exact .inl ⟨rfl, (Option.some.inj hu').symm⟩
        · rw [AList.lookup_insert_ne e] at hu'
          exact .inr hu'
      have hnext := h.next
      refine ⟨{ h with
        known := fun slot hl => (h.known slot hl).imp fun u' hu' => hkeep u' _ hu'
        next := ⟨Nat.le_add_left 1 _, Nat.succ_le_succ hroom⟩
        ids := fun u' c' hu' => ?_
        ids_inj := fun u₁ u₂ c' h₁ h₂ => ?_ }, rfl, rfl, AList.lookup_insert _, hkeep⟩
      · rcases hcases u' c' hu' with ⟨-, rfl⟩ | hu'
        · exact ⟨hnext.1, Nat.lt_succ_self _⟩
        · exact (h.ids u' c' hu').imp_right Nat.lt_succ_of_lt
      · rcases hcases u₁ c' h₁ with ⟨rfl, rfl⟩ | h₁'
        · rcases hcases u₂ _ h₂ with ⟨rfl, -⟩ | h₂'
          · rfl
          · exact absurd (h.ids u₂ _ h₂').2 (Nat.lt_irrefl _)
        · rcases hcases u₂ c' h₂ with ⟨rfl, rfl⟩ | h₂'
          · exact absurd (h.ids u₁ _ h₁').2 (Nat.lt_irrefl _)
          · exact h.ids_inj u₁ u₂ c' h₁' h₂'
    · cases hf

/-- What `handle_ouch_` does. -/
structure Translates (t t' : InboundThread) : Prop where
  entry : t'.entry.Ok
  connections : t'.connections = t.connections
  connected : t'.connected = t.connected
  usernames : t'.usernames = t.usernames
  nextClientId : t'.nextClientId = t.nextClientId
  history : t'.history = t.history
  notes : ∃ more, t'.notes = t.notes ++ more ∧ ∀ note ∈ more, ∃ gateway, note = .gateway gateway

theorem handleOuch_translates (h : t.entry.Ok) (c : ℕ) (msg : OuchInboundFrame) :
    ∃ t', t.handleOuch c msg = some t' ∧ Translates t t' := by
  unfold handleOuch
  split
  · exact ⟨t, rfl, h, rfl, rfl, rfl, rfl, rfl, [], (List.append_nil _).symm, nofun⟩
  · obtain ⟨entry, translation, ht, hb⟩ := OrderEntry.translate_becomes h c msg
    rw [ht]
    cases hn : translation.note with
    | none =>
      refine ⟨{ t with entry := entry, requests := t.requests ++ translation.request.toList }, ?_,
        hb.ok h, rfl, rfl, rfl, rfl, rfl, [], (List.append_nil _).symm, nofun⟩
      simp only [Option.bind_eq_bind, Option.bind_some, hn, Option.elim]
    | some note =>
      refine ⟨{ t with entry := entry, requests := t.requests ++ translation.request.toList }.pushNote (.gateway note),
        ?_, hb.ok h, rfl, rfl, rfl, rfl, rfl, [.gateway note], rfl, fun _ hm => ⟨note, List.mem_singleton.mp hm⟩⟩
      simp only [Option.bind_eq_bind, Option.bind_some, hn, Option.elim]

theorem Translates.of_eq {c : ℕ} {msg : OuchInboundFrame} (hh : t.handleOuch c msg = some t') (h : t.entry.Ok) :
    Translates t t' := by
  obtain ⟨t'', ht'', hx⟩ := handleOuch_translates h c msg
  cases hh.symm.trans ht''
  exact hx

theorem notesAbout_gateway {conn : ConnId} {more : List ServerNote}
    (h : ∀ note ∈ more, ∃ gateway, note = .gateway gateway) : notesAbout conn more = [] := by
  refine List.filter_eq_nil_iff.mpr fun note hm => ?_
  obtain ⟨gateway, rfl⟩ := h note hm
  exact Bool.false_ne_true

/-- A message of a logged-in client. -/
theorem Sessions.ouch (h : t.Sessions) {msg : OuchInboundFrame} (ho : (t.connections slot).isOpen)
    (hl : (t.connections slot).loggedIn)
    (hh : (t.recordCall slot).handleOuch (t.connections slot).clientId msg = some t') : t'.Sessions := by
  have hx := Translates.of_eq hh h.entry
  obtain ⟨more, hmore, hgateway⟩ := hx.notes
  have hmore : t'.notes = t.notes ++ more := hmore
  have hconns : t'.connections = t.connections := hx.connections
  have hsince : ∀ j, t'.since j = t.since j := fun j => by
    rw [since, hmore, hconns, notesAbout_drop_append _ (h.accepted_le j), notesAbout_gateway hgateway, List.append_nil]
    rfl
  have htold := h.told slot (h.slot_eq slot ho)
  rw [Told, ho, hl] at htold
  refine ⟨hx.entry, hconns ▸ h.slot_eq, fun j => ?_, fun j hj => ?_, hconns ▸ h.loggedIn, fun c => ?_, hconns ▸ h.unique,
    fun j hj => ?_, hx.nextClientId ▸ h.next, ?_, hx.usernames ▸ h.ids_inj, fun call hcall => ?_⟩
  · rw [hconns, hmore, List.length_append]
    exact Nat.le_add_right_of_le (h.accepted_le j)
  · rw [hsince]
    rw [hconns] at hj ⊢
    exact h.told j hj
  · rw [hx.connected, hconns]
    exact h.connected c
  · rw [hx.usernames]
    rw [hconns] at hj ⊢
    exact h.known j hj
  · rw [hx.nextClientId, hx.usernames]
    exact h.ids
  · rw [hmore]
    rw [hx.history] at hcall
    rcases List.mem_append.mp hcall with hcall | hcall
    · exact h.calls_append more call hcall
    · obtain rfl := List.mem_singleton.mp hcall
      refine ⟨by rw [List.length_append]; exact Nat.le_add_right _ _, ?_⟩
      dsimp only
      rw [List.take_left]
      exact htold

/-- What one act preserves. -/
theorem Sessions.act (h : t.Sessions) (ha : Act t t') : t'.Sessions := by
  cases ha with
  | still e _ => exact h.congr e
  | client hf => exact (h.client hf).1
  | ouch ho hl hh => exact h.ouch ho hl hh
  | reject ho hl hc reason => exact h.reject ho hl hc reason
  | letIn ho hl hc hu hfree sequence => exact h.letIn ho hl hc hu hfree sequence
  | disconnect ho => exact h.disconnect ho

theorem Sessions.acts (h : t.Sessions) (ha : Acts t t') : t'.Sessions := by
  induction ha with
  | refl => exact h
  | tail _ ha ih => exact ih.act ha

/-! ## What is held of a packet -/

theorem pending_nil : Pending [] := .inl (by decide)

/-- A connection changed in other ways. -/
theorem Buffered.setConnection (h : t.Buffered) {y : InboundConnection} (hy : Pending y.partialBytes) :
    Buffered (t.setConnection slot y) := fun j => by
  unfold InboundThread.setConnection
  dsimp only
  by_cases e : j = slot
  · rw [e, Function.update_self]
    exact hy
  · rw [Function.update_of_ne e]
    exact h j

theorem Buffered.disconnect (h : t.Buffered) (slot : ℕ) : Buffered (t.disconnect slot) := by
  unfold InboundThread.disconnect
  dsimp only
  split
  · exact h
  · refine Buffered.setConnection (fun j => ?_) pending_nil
    split <;> exact h j

theorem Buffered.act (h : t.Buffered) (hs : t.Sessions) (ha : Act t t') : t'.Buffered := by
  cases ha with
  | still _ hb => exact hb h
  | client hf =>
    intro j
    rw [(hs.client hf).2.1]
    exact h j
  | ouch _ _ hh =>
    intro j
    rw [(Translates.of_eq hh hs.entry).connections]
    exact h j
  | @reject slot => exact h.setConnection (h slot)
  | @letIn slot => exact h.setConnection (h slot)
  | disconnect => exact h.disconnect _

/-- The state of the thread between two events. -/
structure Steady (t : InboundThread) : Prop where
  sessions : t.Sessions
  buffered : t.Buffered

theorem Steady.new : Steady {} := ⟨Sessions.new, fun _ => pending_nil⟩

theorem Steady.acts (h : t.Steady) (ha : Acts t t') : t'.Steady := by
  induction ha with
  | refl => exact h
  | tail _ ha ih => exact ⟨ih.sessions.act ha, ih.buffered.act ih.sessions ha⟩

/-! ## Packets -/

theorem Acts.of_erase (e : t'.erase = t.erase) (hb : t.Buffered → t'.Buffered) : Acts t t' := .single (.still e hb)

theorem findClient_eq {u : UInt64} {c : ℕ} (h : t.findClient u = some (c, t')) :
    ∃ usernames next, t' = { t with usernames := usernames, nextClientId := next } := by
  unfold findClient at h
  split at h
  · cases h
    exact ⟨_, _, rfl⟩
  · split_ifs at h
    cases h
    exact ⟨_, _, rfl⟩

/-- What a login comes to: it is rejected, also for the session of its username, or let in. -/
inductive LogsIn (t : InboundThread) (slot : ℕ) (payload : List UInt8) : InboundThread → Prop
  | rejected (reason : SoupReject) : LogsIn t slot payload (t.rejectLogin slot reason)
  | refused {u : UInt64} {c : ℕ} {usernames : AList fun _ : UInt64 => ℕ} {next : ℕ}
      (hf : t.findClient u = some (c, { t with usernames := usernames, nextClientId := next })) (reason : SoupReject) :
      LogsIn t slot payload (rejectLogin { t with usernames := usernames, nextClientId := next } slot reason)
  | letIn {login : SoupLoginRequest} {c : ℕ} {usernames : AList fun _ : UInt64 => ℕ} {next : ℕ}
      (hd : decodeSoupLoginRequest payload = some login)
      (hf : t.findClient (pack (normalize login.username)) =
        some (c, { t with usernames := usernames, nextClientId := next })) (hfree : ¬ t.connected c) :
      LogsIn t slot payload (letIn { t with usernames := usernames, nextClientId := next } slot c
        login.requestedSequenceNumber)

theorem login_logsIn (retainedFrom : ℕ → ℕ) (t : InboundThread) (slot : ℕ) (payload : List UInt8) :
    LogsIn t slot payload (t.login retainedFrom slot payload) := by
  unfold login
  split
  · exact .rejected _
  · next hd =>
    dsimp only
    split
    · exact .rejected _
    · split
      · exact .rejected _
      · split
        · exact .rejected _
        · next hf =>
          obtain ⟨_, _, rfl⟩ := findClient_eq hf
          unfold loginTo
          split_ifs with hconnected
          · exact .refused hf _
          · exact .refused hf _
          · exact .letIn hd hf hconnected

section LogsIn

variable {payload : List UInt8}

theorem LogsIn.acts (hlog : LogsIn t slot payload t') (h : t.Sessions) (ho : (t.connections slot).isOpen)
    (hl : ¬ (t.connections slot).loggedIn) (hc : ¬ (t.connections slot).closing) : Acts t t' := by
  cases hlog with
  | rejected reason => exact .single (.reject ho hl hc reason)
  | refused hf reason => refine .head (.client hf) (.single (.reject ?_ ?_ ?_ reason)) <;> assumption
  | letIn _ hf _ =>
    have hu := (h.client hf).2.2.2.1
    refine .head (.client hf) (.single (.letIn ?_ ?_ ?_ hu ?_ _)) <;> assumption

/-- A login is about whether its connection is logged in, and as whom, and whether it is closing. -/
theorem LogsIn.connections (h : LogsIn t slot payload t') : ∃ loggedIn closing clientId,
    t'.connections = Function.update t.connections slot
      { t.connections slot with loggedIn := loggedIn, closing := closing, clientId := clientId } := by
  cases h <;> exact ⟨_, _, _, rfl⟩

end LogsIn

theorem takesInput_iff : t.takesInput slot ↔ (t.connections slot).isOpen ∧ ¬ (t.connections slot).closing := by
  rw [takesInput, Bool.and_eq_true, Bool.not_eq_true', Bool.not_eq_true]

theorem disconnect_of_closed (ho : ¬ (t.connections slot).isOpen) : t.disconnect slot = t :=
  if_pos (by simpa using ho)

theorem disconnect_acts (t : InboundThread) (slot : ℕ) : Acts t (t.disconnect slot) := by
  by_cases ho : (t.connections slot).isOpen
  · exact .single (.disconnect ho)
  · rw [disconnect_of_closed ho]

/-- What a packet comes to: it is recorded, and then ignored, or it is a login, a message or a logout. -/
inductive Handles (t : InboundThread) (slot : ℕ) (packet : SoupPacket) : InboundThread → Prop
  | ignored (hlogout : SoupPacketType.ofByte packet.type ≠ some .logoutRequest)
      (hdata : SoupPacketType.ofByte packet.type = some .unsequencedData → ¬ (t.connections slot).loggedIn) :
      Handles t slot packet (t.recordPacket slot packet)
  | login {t' : InboundThread} (htype : SoupPacketType.ofByte packet.type = some .loginRequest)
      (hl : ¬ (t.connections slot).loggedIn) (h : LogsIn (t.recordPacket slot packet) slot packet.payload t') :
      Handles t slot packet t'
  | ouch {t' : InboundThread} (htype : SoupPacketType.ofByte packet.type = some .unsequencedData)
      (hl : (t.connections slot).loggedIn)
      (h : ((t.recordPacket slot packet).recordCall slot).handleOuch (t.connections slot).clientId
        (decodeInboundOuch packet.payload) = some t') : Handles t slot packet t'
  | logout (htype : SoupPacketType.ofByte packet.type = some .logoutRequest) :
      Handles t slot packet ((t.recordPacket slot packet).disconnect slot)

theorem handleSoupPacket_handles {retainedFrom : ℕ → ℕ} {packet : SoupPacket}
    (h : t.handleSoupPacket retainedFrom slot packet = some t') : Handles t slot packet t' := by
  unfold handleSoupPacket at h
  dsimp only at h
  split at h
  · next htype =>
    cases h
    split
    · exact .ignored (by simp [htype]) (by simp [htype])
    · next hl => exact .login htype hl (login_logsIn ..)
  · next htype =>
    split at h
    · next hl => exact .ouch htype hl h
    · next hl =>
      cases h
      exact .ignored (by simp [htype]) fun _ => hl
  · next htype =>
    cases h
    exact .logout htype
  · next hdata hlogout =>
    cases h
    exact .ignored hlogout fun e => absurd e hdata

theorem handleSoupPacket_acts (retainedFrom : ℕ → ℕ) (h : t.Sessions) (ht : t.takesInput slot) (packet : SoupPacket) :
    ∃ t', t.handleSoupPacket retainedFrom slot packet = some t' ∧ Acts t t' := by
  obtain ⟨ho, hc⟩ := takesInput_iff.mp ht
  have hrecord : Acts t (t.recordPacket slot packet) := .of_erase rfl fun hb => hb
  unfold handleSoupPacket
  dsimp only
  split
  · split
    · exact ⟨_, rfl, hrecord⟩
    · next hl => exact ⟨_, rfl, hrecord.trans ((login_logsIn ..).acts (h.acts hrecord) ho hl hc)⟩
  · split
    · next hl =>
      obtain ⟨t', ht', -⟩ := handleOuch_translates (t := (t.recordPacket slot packet).recordCall slot) h.entry
        (t.connections slot).clientId (decodeInboundOuch packet.payload)
      exact ⟨t', ht', hrecord.tail (.ouch ho hl ht')⟩
    · exact ⟨_, rfl, hrecord⟩
  · exact ⟨_, rfl, hrecord.trans (disconnect_acts _ slot)⟩
  · exact ⟨_, rfl, hrecord⟩

/-! ## Segments -/

/-- The state with another beginning of a packet in `partial`. -/
def setPartial (t : InboundThread) (slot : ℕ) (bytes : List UInt8) : InboundThread :=
  t.setConnection slot { t.connections slot with partialBytes := bytes }

theorem setPartial_acts (t : InboundThread) (slot : ℕ) {bytes : List UInt8} (hp : Pending bytes) :
    Acts t (t.setPartial slot bytes) := by
  refine .of_erase ?_ fun hb => hb.setConnection hp
  unfold erase setPartial InboundThread.setConnection
  dsimp only
  congr 1
  funext j
  by_cases e : j = slot
  · rw [e, Function.update_self]
    rfl
  · rw [Function.update_of_ne e]

theorem hold_eq {kept bytes : List UInt8} (h : kept.length + bytes.length ≤ maxInboundSoupPacket) :
    t.hold slot kept bytes = some (t.setPartial slot (kept ++ bytes)) := if_pos h

theorem incomplete_lt {bytes : List UInt8} (h : parseSoupPacket bytes = .incomplete) :
    bytes.length < 2 ∨ bytes.length < packetLen bytes := by
  unfold parseSoupPacket at h
  split at h
  · next hlt => exact .inl hlt
  · dsimp only at h
    split at h
    · cases h
    · split at h
      · next hlt => exact .inr hlt
      · cases h

theorem takePackets_acts (retainedFrom : ℕ → ℕ) (fuel : ℕ) (h : t.Sessions) (ht : t.takesInput slot)
    (bytes : List UInt8) : ∃ t', takePackets retainedFrom slot fuel t bytes = some t' ∧ Acts t t' := by
  induction fuel generalizing t bytes with
  | zero => exact ⟨t, rfl, .refl⟩
  | succ fuel ih =>
    unfold takePackets
    split
    · exact ⟨t, rfl, .refl⟩
    · split
      · next packet consumed hp =>
        obtain ⟨t₁, ht₁, ha⟩ := handleSoupPacket_acts retainedFrom h ht packet
        rw [ht₁, Option.bind_eq_bind, Option.bind_some]
        split
        · next ht' =>
          obtain ⟨t', ht', ha'⟩ := ih (h.acts ha) ht' (bytes.drop consumed)
          exact ⟨t', ht', ha.trans ha'⟩
        · exact ⟨t₁, rfl, ha⟩
      · exact ⟨_, rfl, disconnect_acts t slot⟩
      · next hp =>
        split
        · exact ⟨_, rfl, disconnect_acts t slot⟩
        · next hshort =>
          have hpending : Pending bytes := by
            rcases incomplete_lt hp with hlt | hlt
            · exact .inl hlt
            · by_cases h2 : bytes.length < 2
              · exact .inl h2
              · refine .inr ⟨hlt, ?_⟩
                simp only [tooLong, gt_iff_lt, decide_eq_true_eq, not_and, not_lt] at hshort
                exact hshort (by omega)
          have hfit : ([] : List UInt8).length + bytes.length ≤ maxInboundSoupPacket := by
            rcases hpending with hlt | hlt
            · exact Nat.le_trans (by simp; omega) (by decide : 2 ≤ maxInboundSoupPacket)
            · simp only [List.length_nil]
              omega
          exact ⟨_, hold_eq hfit, setPartial_acts t slot hpending⟩

theorem connections_setConnection (t : InboundThread) (slot : ℕ) (x : InboundConnection) :
    (t.setConnection slot x).connections slot = x := Function.update_self ..

theorem setConnection_setConnection (t : InboundThread) (slot : ℕ) (x y : InboundConnection) :
    (t.setConnection slot x).setConnection slot y = t.setConnection slot y := by
  unfold setConnection
  dsimp only
  rw [Function.update_idem]

theorem packetLen_append {held : List UInt8} (h : 2 ≤ held.length) (bytes : List UInt8) :
    packetLen (held ++ bytes) = packetLen held := by
  rw [packetLen, packetLen, List.take_append_of_le_length h]

theorem partialBytes_setPartial (t : InboundThread) (slot : ℕ) (bytes : List UInt8) :
    ((t.setPartial slot bytes).connections slot).partialBytes = bytes := by
  rw [setPartial, connections_setConnection]

theorem setPartial_setPartial (t : InboundThread) (slot : ℕ) (bytes bytes' : List UInt8) :
    (t.setPartial slot bytes).setPartial slot bytes' = t.setPartial slot bytes' := by
  rw [setPartial, setPartial, connections_setConnection, setConnection_setConnection]
  rfl

theorem takesInput_setPartial (t : InboundThread) (slot : ℕ) (bytes : List UInt8) :
    (t.setPartial slot bytes).takesInput slot = t.takesInput slot := by
  rw [takesInput, setPartial, connections_setConnection]
  rfl

/-- `finishPacket`, when the length field announces a packet that is not finished and not
too long. -/
theorem finishPacket_eq (retainedFrom : ℕ → ℕ) {held : List UInt8} (hheld : (t.connections slot).partialBytes = held)
    (hle : held.length ≤ packetLen held) (hmax : packetLen held ≤ maxInboundSoupPacket) (bytes : List UInt8) :
    t.finishPacket retainedFrom slot bytes =
      if bytes.length < packetLen held - held.length then some (t.setPartial slot (held ++ bytes))
      else
        match parseSoupPacket (held ++ bytes.take (packetLen held - held.length)) with
        | .packet packet _ =>
          ((t.setPartial slot []).handleSoupPacket retainedFrom slot packet).bind fun t' =>
            if t'.takesInput slot then
              takePackets retainedFrom slot (bytes.drop (packetLen held - held.length)).length t'
                (bytes.drop (packetLen held - held.length))
            else some t'
        | _ => some ((t.setPartial slot []).disconnect slot) := by
  unfold finishPacket
  rw [hheld]
  dsimp only
  rw [if_pos hle]
  have hfit : held.length + (bytes.take (min (packetLen held - held.length) bytes.length)).length ≤
      maxInboundSoupPacket := by
    rw [List.length_take]
    omega
  rw [hold_eq hfit, Option.bind_eq_bind, Option.bind_some]
  by_cases hlt : bytes.length < packetLen held - held.length
  · rw [if_pos hlt, if_pos (by omega), Nat.min_eq_right (by omega), List.take_length]
  · rw [if_neg hlt, if_neg (by omega), Nat.min_eq_left (by omega), partialBytes_setPartial,
      List.take_of_length_le (by rw [List.length_append, List.length_take]; omega),
      ← setPartial_setPartial t slot (held ++ bytes.take (packetLen held - held.length)) []]
    rfl

theorem setPartial_self {held : List UInt8} (h : (t.connections slot).partialBytes = held) :
    t.setPartial slot held = t := by
  unfold setPartial setConnection
  rw [← h, Function.update_eq_self]

theorem finishPacket_acts (retainedFrom : ℕ → ℕ) (h : t.Sessions) (ht : t.takesInput slot) {held : List UInt8}
    (h2 : 2 ≤ held.length) (hle : held.length ≤ packetLen held) (hmax : packetLen held ≤ maxInboundSoupPacket)
    (bytes : List UInt8) :
    ∃ t', (t.setPartial slot held).finishPacket retainedFrom slot bytes = some t' ∧ Acts t t' := by
  rw [finishPacket_eq retainedFrom (partialBytes_setPartial t slot held) hle hmax]
  simp only [setPartial_setPartial]
  have hempty : Acts t (t.setPartial slot []) := setPartial_acts t slot pending_nil
  split
  · next hlt =>
    refine ⟨_, rfl, setPartial_acts t slot (.inr ⟨?_, ?_⟩)⟩
    · rw [packetLen_append h2, List.length_append]
      omega
    · rw [packetLen_append h2]
      exact hmax
  · split
    · next packet _ _ =>
      obtain ⟨t₁, ht₁, ha⟩ := handleSoupPacket_acts retainedFrom (h.acts hempty)
        (by rw [takesInput_setPartial]; exact ht) packet
      rw [ht₁, Option.bind_some]
      split
      · next ht' =>
        obtain ⟨t', ht', ha'⟩ := takePackets_acts retainedFrom
          (bytes.drop (packetLen held - held.length)).length ((h.acts hempty).acts ha) ht'
          (bytes.drop (packetLen held - held.length))
        exact ⟨t', ht', (hempty.trans ha).trans ha'⟩
      · exact ⟨t₁, rfl, hempty.trans ha⟩
    · exact ⟨_, rfl, hempty.trans (disconnect_acts _ slot)⟩

theorem onData_eq_of_nil (retainedFrom : ℕ → ℕ) (hheld : (t.connections slot).partialBytes = []) (bytes : List UInt8) :
    t.onData retainedFrom slot bytes = takePackets retainedFrom slot bytes.length t bytes := by
  unfold onData
  rw [hheld]
  rfl

/-- `on_data_`, with a length field in `partial`. -/
theorem onData_eq_of_two (retainedFrom : ℕ → ℕ) {first second : UInt8} {held : List UInt8}
    (hheld : (t.connections slot).partialBytes = first :: second :: held) (bytes : List UInt8) :
    t.onData retainedFrom slot bytes = t.finishPacket retainedFrom slot bytes := by
  unfold onData
  rw [hheld]
  exact (if_neg (List.cons_ne_nil _ _)).trans (if_neg (by simp))

/-- `on_data_`, with the first byte of a length field in `partial`. -/
theorem onData_eq_of_one (retainedFrom : ℕ → ℕ) {first : UInt8} (hheld : (t.connections slot).partialBytes = [first])
    (bytes : List UInt8) :
    t.onData retainedFrom slot bytes =
      match bytes with
      | [] => some t
      | second :: bytes =>
        if tooLong [first, second] then some ((t.setPartial slot [first, second]).disconnect slot)
        else (t.setPartial slot [first, second]).finishPacket retainedFrom slot bytes := by
  unfold onData
  rw [hheld]
  cases bytes with
  | nil =>
    show t.hold slot [first] [] >>= _ = _
    rw [hold_eq (by show 1 + 0 ≤ 512; decide), Option.bind_eq_bind, Option.bind_some]
    show some (t.setPartial slot [first]) = some t
    rw [setPartial_self hheld]
  | cons second bytes =>
    have hmin : min (2 - 1) (second :: bytes).length = 1 := Nat.min_eq_left (Nat.le_add_left 1 _)
    simp only [List.length_singleton, hmin]
    show t.hold slot [first] [second] >>= _ = _
    rw [hold_eq (by show 1 + 1 ≤ 512; decide), Option.bind_eq_bind, Option.bind_some, if_neg (by decide),
      partialBytes_setPartial]
    rfl

theorem disconnect_eq (ho : (t.connections slot).isOpen) : t.disconnect slot =
      ((if (t.connections slot).loggedIn then
            { t with connected := Function.update t.connected (t.connections slot).clientId false } else t).pushNote
          (.disconnected (if (t.connections slot).loggedIn then (t.connections slot).clientId else 0)
            (t.connections slot).conn)).setConnection slot
        { t.connections slot with isOpen := false, loggedIn := false, closing := true, partialBytes := [] } :=
  if_neg (by simp [ho])

theorem disconnect_notes (ho : (t.connections slot).isOpen) : (t.disconnect slot).notes = t.notes ++ [.disconnected
      (if (t.connections slot).loggedIn then (t.connections slot).clientId else 0) (t.connections slot).conn] := by
  rw [disconnect_eq ho]
  split <;> rfl

theorem disconnect_connections (ho : (t.connections slot).isOpen) :
    (t.disconnect slot).connections = Function.update t.connections slot
      { t.connections slot with isOpen := false, loggedIn := false, closing := true, partialBytes := [] } := by
  rw [disconnect_eq ho]
  split <;> rfl

theorem disconnect_usernames (t : InboundThread) (slot : ℕ) : (t.disconnect slot).usernames = t.usernames := by
  unfold disconnect
  dsimp only
  split
  · rfl
  · split <;> rfl

/-- What a packet began with is gone with the connection. -/
theorem disconnect_setPartial (ho : (t.connections slot).isOpen) (bytes : List UInt8) :
    (t.setPartial slot bytes).disconnect slot = t.disconnect slot := by
  have hconn : (t.setPartial slot bytes).connections slot = { t.connections slot with partialBytes := bytes } :=
    connections_setConnection ..
  rw [disconnect_eq ho, disconnect_eq (by rw [hconn]; exact ho), hconn]
  unfold setPartial setConnection pushNote
  split <;> dsimp only <;> rw [Function.update_idem]

theorem onData_acts (retainedFrom : ℕ → ℕ) (h : t.Steady) (ht : t.takesInput slot) (bytes : List UInt8) :
    ∃ t', t.onData retainedFrom slot bytes = some t' ∧ Acts t t' := by
  obtain ⟨ho, -⟩ := takesInput_iff.mp ht
  have hpending := h.buffered slot
  match hheld : (t.connections slot).partialBytes, hpending with
  | [], _ =>
    rw [onData_eq_of_nil retainedFrom hheld]
    exact takePackets_acts retainedFrom bytes.length h.sessions ht bytes
  | [first], _ =>
    rw [onData_eq_of_one retainedFrom hheld]
    cases bytes with
    | nil => exact ⟨t, rfl, .refl⟩
    | cons second bytes =>
      dsimp only
      split
      · rw [disconnect_setPartial ho]
        exact ⟨_, rfl, disconnect_acts t slot⟩
      · next hshort =>
        rw [tooLong, decide_eq_true_eq, not_lt] at hshort
        have h2 : 2 ≤ [first, second].length := Nat.le_refl 2
        exact finishPacket_acts retainedFrom h.sessions ht h2 (Nat.le_add_right 2 _) hshort bytes
  | first :: second :: held, hpending =>
    obtain ⟨hlt, hmax⟩ := hpending.resolve_left (by simp)
    rw [onData_eq_of_two retainedFrom hheld, ← setPartial_self hheld]
    obtain ⟨t', ht', ha⟩ := finishPacket_acts retainedFrom h.sessions ht (Nat.le_add_left 2 _) (Nat.le_of_lt hlt) hmax bytes
    exact ⟨t', ht', (setPartial_self hheld).symm ▸ ha⟩

/-! ## Events -/

theorem ended_acts (t : InboundThread) (conn : ConnId) : Acts t (t.connEnded conn) := by
  unfold connEnded
  split
  · exact .refl
  · exact disconnect_acts t conn.slot

theorem checkTimeouts_acts (clock : Clock) (now : ℕ) (t : InboundThread) : Acts t (t.checkTimeouts clock now) := by
  unfold checkTimeouts
  induction List.range Outbound.maxConnections generalizing t with
  | nil => exact .refl
  | cons slot slots ih =>
    rw [List.foldl_cons]
    refine .trans ?_ (ih _)
    split
    · exact disconnect_acts t slot
    · exact .refl

/-- The state with another time at which the connection was last heard. -/
def touch (t : InboundThread) (slot recvTsc : ℕ) : InboundThread :=
  t.setConnection slot { t.connections slot with lastRecvTsc := recvTsc }

theorem erase_touch (t : InboundThread) (slot recvTsc : ℕ) : (t.touch slot recvTsc).erase = t.erase := by
  unfold erase touch InboundThread.setConnection
  dsimp only
  congr 1
  funext j
  by_cases e : j = slot
  · rw [e, Function.update_self]
    rfl
  · rw [Function.update_of_ne e]

theorem touch_acts (t : InboundThread) (slot recvTsc : ℕ) : Acts t (t.touch slot recvTsc) :=
  .of_erase (erase_touch t slot recvTsc) fun hb => hb.setConnection (hb slot)

/-- A connection is accepted in a slot that has none. -/
theorem Sessions.accept (h : t.Sessions) (conn : ConnId) (ho : ¬ (t.connections conn.slot).isOpen) (recvTsc : ℕ) :
    (t.accept conn recvTsc).Sessions := by
  have hnot : ¬ (t.connections conn.slot).loggedIn := fun hl => ho (h.loggedIn _ hl).1
  refine h.update (List.append_nil _).symm rfl rfl rfl rfl rfl (fun _ => rfl) (Nat.le_refl _) (fun _ _ _ => rfl) ?_
    (fun hl => by cases hl) (fun c => ?_) (fun hl => by cases hl) fun hl => by cases hl
  · show Told _ (notesAbout conn (t.notes.drop t.notes.length) ++ [])
    rw [List.drop_length]
    rfl
  · exact (h.connected_of_not hnot c).trans (or_iff_right (by rintro ⟨⟨⟩, -⟩)).symm

theorem Steady.accept (h : t.Steady) (conn : ConnId) (ho : ¬ (t.connections conn.slot).isOpen) (recvTsc : ℕ) :
    (t.accept conn recvTsc).Steady := ⟨h.sessions.accept conn ho recvTsc, h.buffered.setConnection pending_nil⟩

/-- A connection is accepted, in a slot that has none; whatever else happens comes to acts. -/
theorem step_cases (clock : Clock) (h : t.Steady) (step : Step) :
    (∃ retainedFrom recvTsc conn, step = .tcp retainedFrom recvTsc (.accepted conn)) ∨
      acceptOf step = none ∧ ∃ t', t.step clock step = some t' ∧ Acts t t' := by
  cases step with
  | scan now => exact .inr ⟨rfl, _, rfl, checkTimeouts_acts clock now t⟩
  | tcp retainedFrom recvTsc event =>
    cases event with
    | accepted conn => exact .inl ⟨retainedFrom, recvTsc, conn, rfl⟩
    | peerClosed conn => exact .inr ⟨rfl, _, rfl, ended_acts t conn⟩
    | closed conn => exact .inr ⟨rfl, _, rfl, ended_acts t conn⟩
    | reset conn => exact .inr ⟨rfl, _, rfl, ended_acts t conn⟩
    | data conn bytes =>
      refine .inr ⟨rfl, ?_⟩
      dsimp only [InboundThread.step, onTcpEvent]
      split
      · exact ⟨t, rfl, .refl⟩
      · next hno =>
        rw [not_or, Bool.not_eq_true', Bool.not_eq_false] at hno
        have ha := touch_acts t conn.slot recvTsc
        have ht : (t.touch conn.slot recvTsc).takesInput conn.slot := by
          rw [takesInput, touch, connections_setConnection]
          exact hno.2
        obtain ⟨t', ht', ha'⟩ := onData_acts retainedFrom (h.acts ha) ht bytes
        exact ⟨t', ht', ha.trans ha'⟩

/-! ## Runs -/

/-- What stays as it was while no connection is accepted, and what the notes are about. -/
structure Keeps (t t' : InboundThread) : Prop where
  conn : ∀ slot, (t'.connections slot).conn = (t.connections slot).conn
  acceptedAt : ∀ slot, (t'.connections slot).acceptedAt = (t.connections slot).acceptedAt
  isOpen : ∀ slot, (t'.connections slot).isOpen → (t.connections slot).isOpen
  /-- A connection that is logged in stays so as long as it is open. -/
  stays : ∀ slot, (t.connections slot).loggedIn → (t'.connections slot).isOpen →
    (t'.connections slot).loggedIn ∧ (t'.connections slot).clientId = (t.connections slot).clientId
  usernames : ∀ u c, t.usernames.lookup u = some c → t'.usernames.lookup u = some c
  /-- Only open connections are noted anything about. -/
  notes : ∃ more, t'.notes = t.notes ++ more ∧
    ∀ conn, ¬ ((t.connections conn.slot).conn = conn ∧ (t.connections conn.slot).isOpen) → notesAbout conn more = []

theorem Keeps.refl (t : InboundThread) : Keeps t t :=
  ⟨fun _ => rfl, fun _ => rfl, fun _ h => h, fun _ h _ => ⟨h, rfl⟩, fun _ _ h => h, [], (List.append_nil _).symm,
    fun _ _ => rfl⟩

theorem Keeps.trans {t'' : InboundThread} (h : Keeps t t') (h' : Keeps t' t'') : Keeps t t'' := by
  obtain ⟨more, hmore, habout⟩ := h.notes
  obtain ⟨more', hmore', habout'⟩ := h'.notes
  refine ⟨fun slot => (h'.conn slot).trans (h.conn slot), fun slot => (h'.acceptedAt slot).trans (h.acceptedAt slot),
    fun slot ho => h.isOpen slot (h'.isOpen slot ho), fun slot hl ho => ?_,
    fun u c hu => h'.usernames u c (h.usernames u c hu),
    more ++ more', by rw [hmore', hmore, List.append_assoc], fun conn hne => ?_⟩
  · obtain ⟨hl₁, hclient⟩ := h.stays slot hl (h'.isOpen slot ho)
    exact (h'.stays slot hl₁ ho).imp_right (·.trans hclient)
  · rw [notesAbout_append, habout conn hne, List.nil_append]
    exact habout' conn fun hx => hne ⟨(h.conn _).symm.trans hx.1, h.isOpen _ hx.2⟩

/-- A note about the connection in a slot is pushed. -/
theorem Keeps.push (h : t.Sessions) (ho : (t.connections slot).isOpen) {note : ServerNote} {y : InboundConnection}
    (hconn : y.conn = (t.connections slot).conn) (hat : y.acceptedAt = (t.connections slot).acceptedAt)
    (habout : about y.conn note = true) (hstays : ¬ ((t.connections slot).loggedIn ∧ y.isOpen))
    (hnotes : t'.notes = t.notes ++ [note]) (hconns : t'.connections = Function.update t.connections slot y)
    (husers : t'.usernames = t.usernames) :
    Keeps t t' := by
  have hsame : t'.connections slot = y := by rw [hconns, Function.update_self]
  have hother : ∀ j, j ≠ slot → t'.connections j = t.connections j := fun j hj => by
    rw [hconns, Function.update_of_ne hj]
  refine ⟨fun j => ?_, fun j => ?_, fun j hj => ?_, fun j hl hj => ?_, fun u c hu => husers ▸ hu, [note], hnotes,
    fun conn hne => ?_⟩
  · by_cases e : j = slot
    · rw [e, hsame, hconn]
    · rw [hother j e]
  · by_cases e : j = slot
    · rw [e, hsame, hat]
    · rw [hother j e]
  · by_cases e : j = slot
    · rw [e]
      exact ho
    · rw [hother j e] at hj
      exact hj
  · by_cases e : j = slot
    · rw [e, hsame] at hj
      exact absurd ⟨e ▸ hl, hj⟩ hstays
    · rw [hother j e]
      exact ⟨hl, rfl⟩
  · refine notesAbout_of_not_about fun ha => hne ?_
    have e : conn = (t.connections slot).conn := (about_unique ha habout).trans hconn
    rw [e, h.slot_eq slot ho]
    exact ⟨rfl, ho⟩

/-- The connections stay as they are, and the notes are not about them. -/
theorem Keeps.of_core (hcore : ∀ slot, core (t'.connections slot) = core (t.connections slot))
    (husers : ∀ u c, t.usernames.lookup u = some c → t'.usernames.lookup u = some c) {more : List ServerNote}
    (hmore : t'.notes = t.notes ++ more) (habout : ∀ conn, notesAbout conn more = []) : Keeps t t' where
  conn slot := congrArg (·.conn) (hcore slot)
  acceptedAt slot := congrArg (·.acceptedAt) (hcore slot)
  isOpen slot ho := (congrArg (·.isOpen) (hcore slot)).symm.trans ho
  stays slot hl _ := ⟨(congrArg (·.loggedIn) (hcore slot)).trans hl, congrArg (·.clientId) (hcore slot)⟩
  usernames := husers
  notes := ⟨more, hmore, fun conn _ => habout conn⟩

theorem Keeps.of_act (h : t.Sessions) (ha : Act t t') : Keeps t t' := by
  cases ha with
  | still e _ =>
    have husers : t'.usernames = t.usernames := congrArg (·.usernames) e
    have hnotes : t'.notes = t.notes := congrArg (·.notes) e
    exact .of_core (fun slot => congrArg (·.connections slot) e) (fun u c hu => husers ▸ hu)
      (hnotes.trans (List.append_nil _).symm) fun _ => rfl
  | client hf =>
    obtain ⟨-, hconns, hnotes, -, hkeep⟩ := h.client hf
    exact .of_core (fun _ => by rw [hconns]) hkeep (hnotes.trans (List.append_nil _).symm) fun _ => rfl
  | ouch _ _ hh =>
    have hx := Translates.of_eq hh h.entry
    obtain ⟨more, hmore, hgateway⟩ := hx.notes
    have hconns : t'.connections = t.connections := hx.connections
    exact .of_core (fun _ => by rw [hconns]) (fun u c hu => by rw [hx.usernames]; exact hu) hmore
      fun _ => notesAbout_gateway hgateway
  | @reject slot ho hl _ _ =>
    exact .push h ho (y := { t.connections slot with closing := true }) rfl rfl (by simp [about])
      (fun hin => hl hin.1) rfl rfl rfl
  | @letIn slot c _ ho hl _ _ _ _ =>
    exact .push h ho (y := { t.connections slot with loggedIn := true, clientId := c }) rfl rfl (by simp [about])
      (fun hin => hl hin.1) rfl rfl rfl
  | @disconnect slot ho =>
    exact .push h ho
      (y := { t.connections slot with isOpen := false, loggedIn := false, closing := true, partialBytes := [] })
      rfl rfl (by simp [about]) (fun hin => Bool.false_ne_true hin.2) (disconnect_notes ho) (disconnect_connections ho)
      (disconnect_usernames t slot)

theorem Keeps.of_acts (h : t.Sessions) (ha : Acts t t') : Keeps t t' := by
  induction ha with
  | refl => exact .refl t
  | tail ha hact ih => exact ih.trans (.of_act (h.acts ha) hact)

/-- The connections that are open have been accepted and not been reported as over. -/
def Follows (live : ℕ → Option ConnId) (t : InboundThread) : Prop :=
  ∀ slot, (t.connections slot).isOpen → live slot = some (t.connections slot).conn

theorem Follows.keeps {live : ℕ → Option ConnId} (h : Follows live t) (hk : Keeps t t') : Follows live t' :=
  fun slot ho => by
    rw [hk.conn]
    exact h slot (hk.isOpen slot ho)

theorem disconnect_not_open (t : InboundThread) (slot : ℕ) : ¬ ((t.disconnect slot).connections slot).isOpen := by
  by_cases ho : (t.connections slot).isOpen
  · rw [disconnect_eq ho, connections_setConnection]
    exact Bool.false_ne_true
  · rwa [disconnect_of_closed ho]

/-- The end of a connection is reported. -/
theorem Follows.connEnded {live : ℕ → Option ConnId} (hs : t.Sessions) (h : Follows live t) (conn : ConnId) :
    Follows (if live conn.slot = some conn then Function.update live conn.slot none else live) (t.connEnded conn) := by
  have hk := h.keeps (.of_acts hs (ended_acts t conn))
  split
  · next hlive =>
    intro slot ho
    by_cases e : slot = conn.slot
    · refine absurd ho ?_
      rw [e]
      unfold InboundThread.connEnded
      split
      · next hne => exact fun ho => hne (Option.some.inj ((h conn.slot ho).symm.trans hlive))
      · exact disconnect_not_open t conn.slot
    · rw [Function.update_of_ne e]
      exact hk slot ho
  · exact hk

/-- Since note number `n` the connection has been told of as it should, and if it is still
there, it was accepted then. -/
structure Kept (conn : ConnId) (n : ℕ) (t : InboundThread) : Prop where
  le : n ≤ t.notes.length
  notes : LoginThenEnd conn (notesAbout conn (t.notes.drop n))
  acceptedAt : (t.connections conn.slot).conn = conn → (t.connections conn.slot).acceptedAt = n

theorem Sessions.loginThenEnd (h : t.Sessions) (hslot : (t.connections slot).conn.slot = slot) :
    LoginThenEnd (t.connections slot).conn (t.since slot) := by
  by_cases ho : (t.connections slot).isOpen
  · exact ⟨t.since slot, [], (List.append_nil _).symm, h.since_login ho, .inl rfl⟩
  · have htold := h.told slot hslot
    rw [Bool.not_eq_true] at ho
    rw [Told, ho] at htold
    exact htold

theorem Kept.keeps {conn : ConnId} {n : ℕ} (h : Kept conn n t) (hk : Keeps t t') (hs : t'.Sessions) : Kept conn n t' := by
  obtain ⟨more, hmore, habout⟩ := hk.notes
  have hle : n ≤ t'.notes.length := by
    rw [hmore, List.length_append]
    exact Nat.le_add_right_of_le h.le
  by_cases e : (t.connections conn.slot).conn = conn
  · have e' : (t'.connections conn.slot).conn = conn := (hk.conn _).trans e
    have hat : (t'.connections conn.slot).acceptedAt = n := (hk.acceptedAt _).trans (h.acceptedAt e)
    refine ⟨hle, ?_, fun _ => hat⟩
    have hnotes := hs.loginThenEnd (by rw [e'] : (t'.connections conn.slot).conn.slot = conn.slot)
    rwa [since, e', hat] at hnotes
  · refine ⟨hle, ?_, fun e' => absurd ((hk.conn _).symm.trans e') e⟩
    rw [hmore, notesAbout_drop_append _ h.le, habout conn fun hx => e hx.1, List.append_nil]
    exact h.notes

theorem Kept.accept {conn conn' : ConnId} {n : ℕ} (h : Kept conn n t) (hne : conn' ≠ conn) (recvTsc : ℕ) :
    Kept conn n (t.accept conn' recvTsc) := by
  refine ⟨h.le, h.notes, fun e => ?_⟩
  by_cases hslot : conn.slot = conn'.slot
  · rw [hslot, InboundThread.accept, connections_setConnection] at e
    exact absurd e hne
  · have hsame : (t.accept conn' recvTsc).connections conn.slot = t.connections conn.slot := Function.update_of_ne hslot ..
    rw [hsame] at e ⊢
    exact h.acceptedAt e

theorem Kept.new (t : InboundThread) (conn : ConnId) (recvTsc : ℕ) : Kept conn t.notes.length (t.accept conn recvTsc) := by
  have hdrop : (t.accept conn recvTsc).notes.drop t.notes.length = [] := List.drop_length
  refine ⟨Nat.le_refl _, ?_, fun _ => ?_⟩
  · rw [hdrop]
    exact ⟨[], [], rfl, .inl rfl, .inl rfl⟩
  · rw [InboundThread.accept, connections_setConnection]

/-- What one step preserves. -/
theorem step_ok (clock : Clock) {live : ℕ → Option ConnId} (h : t.Steady) (hf : Follows live t) {step : Step}
    (hr : ∀ conn, acceptOf step = some conn → live conn.slot = none) :
    ∃ t', t.step clock step = some t' ∧ t'.Steady ∧ Follows (liveAfter live step) t' ∧
      (∀ u c, t.usernames.lookup u = some c → t'.usernames.lookup u = some c) ∧
      ∀ conn n, Kept conn n t → acceptOf step ≠ some conn → Kept conn n t' := by
  rcases step_cases clock h step with ⟨retainedFrom, recvTsc, conn, rfl⟩ | ⟨hnone, t', ht', ha⟩
  · have ho : ¬ (t.connections conn.slot).isOpen := fun ho => by
      have := (hf _ ho).symm.trans (hr conn rfl)
      cases this
    refine ⟨_, rfl, h.accept conn ho recvTsc, fun slot hopen => ?_, fun _ _ hu => hu, fun conn' n hk hne =>
      hk.accept (fun e => hne (congrArg some e)) recvTsc⟩
    by_cases e : slot = conn.slot
    · rw [e, InboundThread.accept, connections_setConnection]
      exact Function.update_self ..
    · have hsame : (t.accept conn recvTsc).connections slot = t.connections slot := Function.update_of_ne e ..
      rw [hsame] at hopen ⊢
      exact (Function.update_of_ne e ..).trans (hf slot hopen)
  · have hk := Keeps.of_acts h.sessions ha
    refine ⟨t', ht', h.acts ha, ?_, hk.usernames, fun conn n hkept _ => hkept.keeps hk (h.sessions.acts ha)⟩
    match step, hnone, ht' with
    | .scan _, _, _ => exact hf.keeps hk
    | .tcp _ _ (.data _ _), _, _ => exact hf.keeps hk
    | .tcp _ _ (.peerClosed conn), _, rfl => exact hf.connEnded h.sessions conn
    | .tcp _ _ (.closed conn), _, rfl => exact hf.connEnded h.sessions conn
    | .tcp _ _ (.reset conn), _, rfl => exact hf.connEnded h.sessions conn

/-- What a run preserves. -/
theorem run_ok (clock : Clock) {live : ℕ → Option ConnId} (h : t.Steady) (hf : Follows live t) {steps : List Step}
    (hr : Reported live steps) :
    ∃ t', run clock t steps = some t' ∧ t'.Steady ∧ Follows (steps.foldl liveAfter live) t' ∧
      (∀ u c, t.usernames.lookup u = some c → t'.usernames.lookup u = some c) ∧
      ∀ conn n, Kept conn n t → (∀ step ∈ steps, acceptOf step ≠ some conn) → Kept conn n t' := by
  induction steps generalizing t live with
  | nil => exact ⟨t, rfl, h, hf, fun _ _ hu => hu, fun _ _ hk _ => hk⟩
  | cons step steps ih =>
    obtain ⟨t₁, ht₁, hs₁, hf₁, hu₁, hk₁⟩ := step_ok clock h hf hr.1
    obtain ⟨t', ht', hs, hf', hu, hk⟩ := ih hs₁ hf₁ hr.2
    refine ⟨t', ?_, hs, hf', fun u c huc => hu u c (hu₁ u c huc), fun conn n hkept hne => ?_⟩
    · rw [run, ht₁, Option.bind_eq_bind, Option.bind_some, ht']
    · exact hk conn n (hk₁ conn n hkept (hne step List.mem_cons_self)) fun s hs => hne s (List.mem_cons_of_mem _ hs)

/-- The notes about a connection that is accepted and, under its name, not again. -/
theorem run_accepted (clock : Clock) {live : ℕ → Option ConnId} (h : t.Steady) (hf : Follows live t) {step : Step}
    {conn : ConnId} {steps : List Step} (hr : Reported live (step :: steps)) (hacc : acceptOf step = some conn)
    (hne : ∀ step ∈ steps, acceptOf step ≠ some conn) (ht : run clock t (step :: steps) = some t') :
    LoginThenEnd conn (notesAbout conn (t'.notes.drop t.notes.length)) := by
  obtain ⟨t₁, ht₁, hs₁, hf₁, -, -⟩ := step_ok clock h hf hr.1
  obtain ⟨t₂, ht₂, -, -, -, hk⟩ := run_ok clock hs₁ hf₁ hr.2
  rw [run, ht₁, Option.bind_eq_bind, Option.bind_some, ht₂] at ht
  cases ht
  match step, hacc with
  | .tcp _ recvTsc (.accepted _), rfl =>
    cases ht₁
    exact (hk conn _ (Kept.new t conn recvTsc) hne).notes

theorem run_append (clock : Clock) (t : InboundThread) (pre post : List Step) :
    run clock t (pre ++ post) = (run clock t pre).bind fun t => run clock t post := by
  induction pre generalizing t with
  | nil => rfl
  | cons step steps ih =>
    rw [List.cons_append, run, run, Option.bind_eq_bind, Option.bind_assoc]
    exact congrArg _ (funext fun t => ih t)

theorem reported_append {live : ℕ → Option ConnId} {pre post : List Step} (h : Reported live (pre ++ post)) :
    Reported live pre ∧ Reported (pre.foldl liveAfter live) post := by
  induction pre generalizing live with
  | nil => exact ⟨trivial, h⟩
  | cons step steps ih => exact ⟨⟨h.1, (ih h.2).1⟩, (ih h.2).2⟩

/-! ## Usernames -/

/-- A username's key, with one more byte. -/
def packStep (key : UInt64) (ch : UInt8) : UInt64 := key <<< 8 ||| ch.toUInt64

theorem toNat_packStep {key : UInt64} (hk : key.toNat < 256 ^ 7) (ch : UInt8) :
    (packStep key ch).toNat = key.toNat * 256 + ch.toNat := by
  have hch : ch.toNat < 2 ^ 8 := ch.toNat_lt
  rw [packStep, UInt64.toNat_or, UInt64.toNat_shiftLeft, UInt8.toNat_toUInt64]
  show key.toNat <<< 8 % 2 ^ 64 ||| ch.toNat = _
  rw [Nat.mod_eq_of_lt (by rw [Nat.shiftLeft_eq]; omega), ← Nat.shiftLeft_add_eq_or_of_lt hch, Nat.shiftLeft_eq]

/-- Bytes packed behind a key can be told apart while they all fit. -/
theorem foldl_packStep_inj {l l' : List UInt8} (hlen : l.length = l'.length) {key key' : UInt64} {n : ℕ}
    (hn : l.length + n ≤ 8) (hk : key.toNat < 256 ^ n) (hk' : key'.toNat < 256 ^ n)
    (h : l.foldl packStep key = l'.foldl packStep key') : key = key' ∧ l = l' := by
  induction l generalizing l' key key' n with
  | nil =>
    obtain rfl := List.length_eq_zero_iff.mp hlen.symm
    exact ⟨h, rfl⟩
  | cons ch l ih =>
    match l', hlen with
    | ch' :: l', hlen =>
      rw [List.length_cons] at hn
      have hpow : 256 ^ n ≤ 256 ^ 7 := Nat.pow_le_pow_right (by decide) (by omega)
      have hstep := toNat_packStep (Nat.lt_of_lt_of_le hk hpow) ch
      have hstep' := toNat_packStep (Nat.lt_of_lt_of_le hk' hpow) ch'
      have hch := ch.toNat_lt
      have hch' := ch'.toNat_lt
      obtain ⟨hkey, hl⟩ := ih (n := n + 1) (Nat.succ.inj hlen) (by omega) (by rw [hstep, Nat.pow_succ]; omega)
        (by rw [hstep', Nat.pow_succ]; omega) h
      have hnat := congrArg UInt64.toNat hkey
      rw [hstep, hstep'] at hnat
      exact ⟨UInt64.toNat_inj.mp (by omega), List.cons_eq_cons.mpr ⟨UInt8.toNat_inj.mp (by omega), hl⟩⟩

/-- Usernames that are not the same have keys that are not. -/
theorem pack_inj {a b : Vector UInt8 6} (h : pack (normalize a) = pack (normalize b)) : normalize a = normalize b := by
  have hlen : ∀ u : Vector UInt8 6, (normalize u).length = 6 := fun u => by
    rw [normalize, List.length_map, Vector.length_toList]
  have hzero : (0 : UInt64).toNat < 256 ^ 0 := by decide
  exact (foldl_packStep_inj ((hlen a).trans (hlen b).symm) (by rw [hlen]; decide) hzero hzero h).2

/-! ## One connection per session -/

/-- The connection in the slot is open and logged in as the client. -/
def LoggedInAs (t : InboundThread) (slot clientId : ℕ) : Prop :=
  (t.connections slot).isOpen ∧ (t.connections slot).loggedIn ∧ (t.connections slot).clientId = clientId

theorem Sessions.loggedInAs (h : t.Sessions) {i j c : ℕ} (hi : LoggedInAs t i c) (hj : LoggedInAs t j c) : i = j :=
  h.unique i j hi.2.1 hj.2.1 (hi.2.2.trans hj.2.2.symm)

theorem Sessions.connected_iff (h : t.Sessions) (c : ℕ) : t.connected c = true ↔ ∃! slot, LoggedInAs t slot c := by
  rw [h.connected]
  constructor
  · rintro ⟨slot, hl, hc⟩
    have hslot : LoggedInAs t slot c := ⟨(h.loggedIn slot hl).1, hl, hc⟩
    exact ⟨slot, hslot, fun j hj => h.loggedInAs hj hslot⟩
  · rintro ⟨slot, ⟨-, hl, hc⟩, -⟩
    exact ⟨slot, hl, hc⟩

theorem Sessions.id_le (h : t.Sessions) {u : UInt64} {c : ℕ} (hu : t.usernames.lookup u = some c) :
    1 ≤ c ∧ c ≤ maxClients := by
  obtain ⟨h1, hlt⟩ := h.ids u c hu
  exact ⟨h1, Nat.le_of_lt_succ (Nat.lt_of_lt_of_le hlt h.next.2)⟩

/-- Whatever happens on the connections, a session is connected if and only if exactly one
connection is logged into it, and there never are two. Usernames keep the sessions they
have, each its own, with numbers for which there is room; a message is translated only for
a connection that is open and for the client it has been let in as; and of a connection at
most one login and then at most one end are noted. -/
theorem one_connection_per_session (clock : Clock) (steps : List Step) (h : Reported (fun _ => none) steps) :
    ∃ t : InboundThread, run clock {} steps = some t ∧
      (∀ c, (t.connected c = true ↔ ∃! slot, LoggedInAs t slot c) ∧
        ∀ i j, LoggedInAs t i c → LoggedInAs t j c → i = j) ∧
      (∀ u c, t.usernames.lookup u = some c → 1 ≤ c ∧ c ≤ maxClients) ∧
      (∀ slot c, LoggedInAs t slot c → 1 ≤ c ∧ c ≤ maxClients) ∧
      (∀ u u' c c', t.usernames.lookup (pack (normalize u)) = some c → t.usernames.lookup (pack (normalize u')) = some c' →
        normalize u ≠ normalize u' → c ≠ c') ∧
      (∀ call ∈ t.history.calls, ∃ sequence,
        notesAbout call.conn ((t.notes.take call.calledAt).drop call.acceptedAt) =
          [.loginAccepted call.clientId call.conn sequence]) ∧
      ∀ pre post, steps = pre ++ post → ∃ t₁ : InboundThread, run clock {} pre = some t₁ ∧ run clock t₁ post = some t ∧
        (∀ u c, t₁.usernames.lookup u = some c → t.usernames.lookup u = some c) ∧
        ∀ conn step rest, post = step :: rest → acceptOf step = some conn →
          (∀ step ∈ rest, acceptOf step ≠ some conn) →
          LoginThenEnd conn (notesAbout conn (t.notes.drop t₁.notes.length)) := by
  have hnone : Follows (fun _ => none) {} := fun _ ho => nomatch ho
  obtain ⟨t, ht, hs, -, -, -⟩ := run_ok clock .new hnone h
  refine ⟨t, ht, fun c => ⟨hs.sessions.connected_iff c, fun _ _ => hs.sessions.loggedInAs⟩,
    fun _ _ => hs.sessions.id_le, fun slot c hl => ?_, fun u u' c c' hu hu' hne e => ?_,
    fun call hcall => (hs.sessions.calls call hcall).2, fun pre post e => ?_⟩
  · obtain ⟨-, hl, rfl⟩ := hl
    obtain ⟨u, hu⟩ := hs.sessions.known slot hl
    exact hs.sessions.id_le hu
  · subst e
    exact hne (pack_inj (hs.sessions.ids_inj _ _ c hu hu'))
  · subst e
    obtain ⟨hpre, hpost⟩ := reported_append h
    obtain ⟨t₁, ht₁, hs₁, hf₁, -, -⟩ := run_ok clock .new hnone hpre
    obtain ⟨t', ht', -, -, hu, -⟩ := run_ok clock hs₁ hf₁ hpost
    rw [run_append, ht₁, Option.bind_some, ht'] at ht
    cases ht
    refine ⟨t₁, ht₁, ht', hu, ?_⟩
    rintro conn step rest rfl hacc hne
    exact run_accepted clock hs₁ hf₁ hpost hacc hne ht'

/-- The Login Request of the client `AB` for what is sent from now on. -/
def sampleLogin : List UInt8 :=
  encodeSoupLoginRequest ⟨⟨#[65, 66, 32, 32, 32, 32], rfl⟩, .replicate 10 32, .replicate 10 32, 0⟩ 64

/-- A connection logs in, with a request that comes in two pieces, and another asks for the same
session and is closed. Then the first sends a packet it should not and is over as well, its slot is
taken by the next, and that one logs into the session. -/
def sampleEvents : List Step :=
  [.tcp (fun _ => 1) 0 (.accepted ⟨3, 1⟩), .tcp (fun _ => 1) 1 (.accepted ⟨4, 1⟩),
    .tcp (fun _ => 1) 5 (.data ⟨3, 1⟩ (sampleLogin.take 1)), .tcp (fun _ => 1) 6 (.data ⟨3, 1⟩ (sampleLogin.drop 1)),
    .tcp (fun _ => 1) 7 (.data ⟨4, 1⟩ sampleLogin), .scan 8, .tcp (fun _ => 1) 9 (.closed ⟨4, 1⟩),
    .tcp (fun _ => 1) 10 (.data ⟨3, 1⟩ [0, 1, chr 'O']), .tcp (fun _ => 1) 11 (.closed ⟨3, 1⟩),
    .tcp (fun _ => 1) 12 (.accepted ⟨3, 2⟩), .tcp (fun _ => 1) 13 (.data ⟨3, 2⟩ sampleLogin)]

theorem one_connection_per_session_sample :
    Reported (fun _ => none) sampleEvents ∧
    ∃ t : InboundThread, run ⟨id, id, UInt64.ofNat⟩ {} sampleEvents = some t ∧
      t.notes = [.loginAccepted 1 ⟨3, 1⟩ 0, .loginRejected ⟨4, 1⟩ .notAuthorized, .disconnected 0 ⟨4, 1⟩,
        .disconnected 1 ⟨3, 1⟩, .loginAccepted 1 ⟨3, 2⟩ 0] ∧
      LoggedInAs t 3 1 ∧ ∃! slot, LoggedInAs t slot 1 := by
  have hreported : Reported (fun _ => none) sampleEvents := by
    simp [sampleEvents, Reported, acceptOf, liveAfter, Spec.endOf]
  obtain ⟨t, ht, hconnected, -⟩ := one_connection_per_session ⟨id, id, UInt64.ofNat⟩ sampleEvents hreported
  have hin : (run ⟨id, id, UInt64.ofNat⟩ {} sampleEvents).map (fun t =>
      (t.notes, t.connected 1, (t.connections 3).isOpen, (t.connections 3).loggedIn, (t.connections 3).clientId)) =
        some ([.loginAccepted 1 ⟨3, 1⟩ 0, .loginRejected ⟨4, 1⟩ .notAuthorized, .disconnected 0 ⟨4, 1⟩,
          .disconnected 1 ⟨3, 1⟩, .loginAccepted 1 ⟨3, 2⟩ 0], true, true, true, 1) := by
    decide +kernel
  rw [ht, Option.map_some, Option.some_inj] at hin
  simp only [Prod.mk.injEq] at hin
  obtain ⟨hnotes, hone, hopen, hlogged, hclient⟩ := hin
  exact ⟨hreported, t, ht, hnotes, ⟨hopen, hlogged, hclient⟩, (hconnected 1).1.mp hone⟩

end InboundThread

end Exchange
