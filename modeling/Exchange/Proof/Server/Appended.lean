import Exchange.Proof.Server.History
import Exchange.Proof.Server.Responder

/-!
# What is appended to the sessions

What the responder answers to a note or an event is one packet more for its client, if the
client's session has a log and the answer fits (`Delivers`).
-/

namespace Exchange

namespace Outbound

variable {s : Outbound}

theorem encodeSoupSequenced_ne_nil {ouch : OuchOutboundFrame} (h : FitsScratch ouch) :
    encodeSoupSequenced ouch maxSoupPacket ≠ [] := by
  have hmax : encodedSize ouch + 1 ≤ 65535 := by
    have := h.2
    simp only [soupHeaderLen, maxSoupPacket] at this
    omega
  rw [encodeSoupSequenced_eq h.1 h.2 hmax]
  simp [bigEndian]

theorem sendOuch_appends {r : OuchResponse} (hlog : (s.sessions r.clientId).log.isSome) (hfits : FitsScratch r.ouch) :
    Appends s (s.sendOuch r) r.clientId (encodeSoupSequenced r.ouch maxSoupPacket) := by
  unfold sendOuch
  dsimp only
  rw [if_neg fun h => encodeSoupSequenced_ne_nil hfits (List.length_eq_zero_iff.mp h)]
  exact sendSequenced_appends hlog _

/-- From `s` to `s'` the outbound thread has the responder it has now, and the response, if there
is one, is the last packet of its client. -/
structure Delivers (s s' : Outbound) (responder : OuchResponder) (response : Option OuchResponse) : Prop where
  responder : s'.responder = responder
  appended : ∀ c, s'.history.appended c = s.history.appended c ++
    (response.toList.filter (·.clientId = c)).map fun r => encodeSoupSequenced r.ouch maxSoupPacket
  logs : ∀ c, (s.sessions c).log.isSome → (s'.sessions c).log.isSome

/-- The response can be sent: its client has a log, and it fits. -/
def Sendable (s : Outbound) (r : OuchResponse) : Prop := (s.sessions r.clientId).log.isSome ∧ FitsScratch r.ouch

/-- `s` is `s₀` with a responder and a count of clock reads of its own. -/
theorem respond_delivers (s₀ : Outbound) {s : Outbound} (hhistory : s.history = s₀.history)
    (hsessions : s.sessions = s₀.sessions) (response : Option OuchResponse) :
    (∀ r, response = some r → s₀.Sendable r) → Delivers s₀ (match response with
      | none => s
      | some r => s.sendOuch r) s.responder response := by
  intro h
  cases response with
  | none => exact ⟨rfl, fun c => by rw [hhistory]; exact (List.append_nil _).symm, fun c hc => hsessions ▸ hc⟩
  | some r =>
    obtain ⟨hlog, hfits⟩ := h r rfl
    have ha := sendOuch_appends (hsessions ▸ hlog) hfits
    refine ⟨ha.responder, fun c => ?_, fun c hc => ha.logs c (hsessions ▸ hc)⟩
    dsimp only
    rw [ha.appended, hhistory]
    by_cases hc : c = r.clientId
    · subst hc
      rw [Function.update_self]
      simp
    · rw [Function.update_of_ne hc]
      simp [Ne.symm hc]

theorem onNote_delivers (s : Outbound) (note : GatewayNote)
    (h : ∀ r, (s.responder.onNote note (s.clock.nsSinceMidnight s.rdtsc.1)).2 = some r → s.Sendable r) :
    Delivers s (s.onNote (.gateway note)) (s.responder.onNote note (s.clock.nsSinceMidnight s.rdtsc.1)).1
      (s.responder.onNote note (s.clock.nsSinceMidnight s.rdtsc.1)).2 :=
  respond_delivers s (s := { s.rdtsc.2 with
    responder := (s.responder.onNote note (s.clock.nsSinceMidnight s.rdtsc.1)).1 }) rfl rfl _ h

theorem onEvent_delivers (s : Outbound) (event : EngineEvent)
    (h : ∀ r, (s.responder.onEvent event.toEvent (s.clock.nsSinceMidnight event.enginePushTsc)).2 = some r →
      s.Sendable r) :
    Delivers s (s.onEvent event) (s.responder.onEvent event.toEvent (s.clock.nsSinceMidnight event.enginePushTsc)).1
      (s.responder.onEvent event.toEvent (s.clock.nsSinceMidnight event.enginePushTsc)).2 :=
  respond_delivers s (s := { s with
    responder := (s.responder.onEvent event.toEvent (s.clock.nsSinceMidnight event.enginePushTsc)).1 }) rfl rfl _ h

end Outbound

end Exchange
