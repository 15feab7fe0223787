import Exchange.Impl.Platform
import Exchange.Proof.Server.Sessions

/-!
# What a packet comes to

A packet is either the OUCH message of a logged-in client, which is translated, or it leaves
order entry alone and has at most one note, of a login or of the end of a connection
(`onEvent_packet`). So a client's gateway notes come after the note of a login of that client
(`LoginsFirst`).
-/

namespace Exchange

open Spec (notesAbout)

/-- The client a gateway note is for. -/
def GatewayNote.client : GatewayNote → ℕ
  | .orderEntered _ record => record.clientId
  | .orderReplacing _ record => record.clientId
  | .rejected _ record => record.clientId

/-- Every gateway note comes after a login of its client. -/
def LoginsFirst (notes : List ServerNote) : Prop :=
  ∀ past note rest, notes = past ++ .gateway note :: rest →
    ∃ conn sequence, .loginAccepted note.client conn sequence ∈ past

theorem loginsFirst_concat {notes : List ServerNote} {note : ServerNote} (h : LoginsFirst notes)
    (hnote : ∀ gateway, note = .gateway gateway →
      ∃ conn sequence, .loginAccepted gateway.client conn sequence ∈ notes) :
    LoginsFirst (notes ++ [note]) := by
  have hall := List.forall_split_concat (P := fun past note => ∀ gateway, note = .gateway gateway →
    ∃ conn sequence, .loginAccepted gateway.client conn sequence ∈ past)
    (fun past note rest e gateway hg => h past gateway rest (hg ▸ e)) hnote
  exact fun past gateway rest e => hall past _ rest e gateway rfl

/-- A gateway note among the first has its login there, too. -/
theorem LoginsFirst.login_of_mem {notes : List ServerNote} (h : LoginsFirst notes) {k : ℕ} {note : GatewayNote}
    (hm : .gateway note ∈ notes.take k) : ∃ conn sequence, .loginAccepted note.client conn sequence ∈ notes.take k := by
  obtain ⟨past, rest, e⟩ := List.append_of_mem hm
  obtain ⟨conn, sequence, hl⟩ := h past note (rest ++ notes.drop k) (by
    rw [← List.cons_append, ← List.append_assoc, ← e, List.take_append_drop])
  exact ⟨conn, sequence, e ▸ List.mem_append_left _ hl⟩

namespace OrderEntry

/-- The note of a message is for the client that sent it. -/
theorem Becomes.note_client {s s' : OrderEntry} {c : ℕ} {msg : OuchInboundFrame} {t : Translation} (h : s.Ok)
    (hb : Becomes s c msg s' t) {note : GatewayNote} (hn : t.note = some note) : note.client = c := by
  cases hb with
  | ignored => cases hn
  | canceling => cases hn
  | rejected =>
    cases hn
    rfl
  | entered =>
    cases hn
    rfl
  | replacing ho =>
    cases hn
    exact (key_inj (h.keyed _ _ ho)).1

end OrderEntry

namespace InboundThread

variable {t t' : InboundThread} {retainedFrom : ℕ → ℕ}

/-- From `t` to `t'` nothing is translated, and there is at most one note. -/
structure Aside (t t' : InboundThread) : Prop where
  entry : t'.entry = t.entry
  requests : t'.requests = t.requests
  notes : t'.notes = t.notes ∨ ∃ note, t'.notes = t.notes ++ [note] ∧ note.gateway? = none

theorem Aside.refl (t : InboundThread) : Aside t t := ⟨rfl, rfl, .inl rfl⟩

theorem disconnect_aside (t : InboundThread) (slot : ℕ) : Aside t (t.disconnect slot) := by
  unfold disconnect
  dsimp only
  split
  · exact .refl t
  · split <;> exact ⟨rfl, rfl, .inr ⟨_, rfl, rfl⟩⟩

theorem connEnded_aside (t : InboundThread) (conn : ConnId) : Aside t (t.connEnded conn) := by
  unfold connEnded
  split
  · exact .refl t
  · exact disconnect_aside t _

theorem LogsIn.aside {slot : ℕ} {payload : List UInt8} (h : LogsIn t slot payload t') : Aside t t' := by
  cases h <;> exact ⟨rfl, rfl, .inr ⟨_, rfl, rfl⟩⟩

/-- A message of client `c` is translated. -/
structure Translated (t : InboundThread) (c : ℕ) (msg : OuchInboundFrame) (translation : Translation)
    (t' : InboundThread) : Prop where
  entry : t.entry.translate c msg = some (t'.entry, translation)
  requests : t'.requests = t.requests ++ translation.request.toList
  notes : t'.notes = t.notes ++ translation.note.toList.map .gateway

theorem handleOuch_translated {c : ℕ} {msg : OuchInboundFrame} (hmsg : msg ≠ .none)
    (h : t.handleOuch c msg = some t') : ∃ translation, t.Translated c msg translation t' := by
  unfold handleOuch at h
  rw [if_neg hmsg] at h
  obtain ⟨⟨entry, translation⟩, htr, h⟩ := Option.bind_eq_some_iff.mp h
  obtain rfl := Option.some.inj h
  refine ⟨translation, ?_⟩
  cases hn : translation.note with
  | none => exact ⟨htr, rfl, by rw [hn]; exact (List.append_nil _).symm⟩
  | some note => exact ⟨htr, rfl, by rw [hn]; rfl⟩

/-- What a packet comes to. -/
theorem onEvent_packet {conn : ConnId} {packet : SoupPacket}
    (h : t.onEvent retainedFrom (.packet conn packet) = some t') :
    t.called conn packet = none ∧ Aside t t' ∨
      ∃ c msg translation, t.called conn packet = some (c, msg) ∧ t.Translated c msg translation t' := by
  unfold onEvent at h
  dsimp only at h
  split at h
  · next hx =>
    cases h
    refine .inl ⟨if_neg fun hc => ?_, .refl _⟩
    rcases hx with hx | hx
    · exact hx hc.1
    · rw [hc.2.1] at hx
      cases hx
  · next hx =>
    rw [not_or, not_not, Bool.not_eq_true', Bool.not_eq_false] at hx
    cases handleSoupPacket_handles h with
    | ignored _ hdata => exact .inl ⟨if_neg fun hc => hdata hc.2.2.2.1 hc.2.2.1, rfl, rfl, .inl rfl⟩
    | login _ hl hlog =>
      have ha := hlog.aside
      exact .inl ⟨if_neg fun hc => hl hc.2.2.1, ha.entry, ha.requests, ha.notes⟩
    | ouch htype hl ho =>
      by_cases hmsg : decodeInboundOuch packet.payload = .none
      · refine .inl ⟨if_neg fun hc => hc.2.2.2.2 hmsg, ?_⟩
        unfold handleOuch at ho
        rw [if_pos hmsg] at ho
        cases ho
        exact ⟨rfl, rfl, .inl rfl⟩
      · obtain ⟨translation, htr⟩ := handleOuch_translated hmsg ho
        exact .inr ⟨_, _, translation, if_pos ⟨hx.1, hx.2, hl, htype, hmsg⟩, htr.entry, htr.requests, htr.notes⟩
    | logout htype =>
      have ha := disconnect_aside (t.recordPacket conn.slot packet) conn.slot
      refine .inl ⟨if_neg fun hc => ?_, ha.entry, ha.requests, ha.notes⟩
      rw [htype] at hc
      cases hc.2.2.2.1

/-- A client whose message is translated has logged in. -/
theorem Sessions.login_of_called (h : t.Sessions) {conn : ConnId} {packet : SoupPacket} {c : ℕ} {msg : OuchInboundFrame}
    (hc : t.called conn packet = some (c, msg)) : ∃ conn sequence, .loginAccepted c conn sequence ∈ t.notes := by
  unfold called at hc
  dsimp only at hc
  split at hc
  · next hx =>
    obtain ⟨-, -, hl, -⟩ := hx
    cases hc
    have ho := (h.loggedIn conn.slot hl).1
    have htold := h.told conn.slot (h.slot_eq conn.slot ho)
    rw [Told, ho, hl] at htold
    obtain ⟨sequence, e⟩ := htold
    have hm : ServerNote.loginAccepted (t.connections conn.slot).clientId (t.connections conn.slot).conn sequence ∈
        t.since conn.slot := e ▸ List.mem_singleton_self _
    exact ⟨_, sequence, List.mem_of_mem_drop (List.mem_of_mem_filter hm)⟩
  · cases hc

/-- What a translated message becomes goes to its client. -/
theorem Translated.loginsFirst (h : t.Sessions) {conn : ConnId} {packet : SoupPacket} {c : ℕ} {msg : OuchInboundFrame}
    {translation : Translation} (hc : t.called conn packet = some (c, msg)) (htr : t.Translated c msg translation t')
    (hl : LoginsFirst t.notes) : LoginsFirst t'.notes := by
  rw [htr.notes]
  cases hn : translation.note with
  | none => simpa using hl
  | some note =>
    refine loginsFirst_concat hl fun gateway e => ?_
    cases e
    obtain ⟨entry, translation', htr', hb⟩ := OrderEntry.translate_becomes h.entry c msg
    cases htr.entry.symm.trans htr'
    rw [hb.note_client h.entry hn]
    exact h.login_of_called hc

theorem Aside.loginsFirst (h : Aside t t') (hl : LoginsFirst t.notes) : LoginsFirst t'.notes := by
  rcases h.notes with e | ⟨note, e, hn⟩
  · exact e ▸ hl
  · rw [e]
    refine loginsFirst_concat hl fun gateway hg => ?_
    subst hg
    cases hn

end InboundThread

end Exchange
