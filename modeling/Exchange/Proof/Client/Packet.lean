import Exchange.Proof.Wire.Soup
import Exchange.Spec.Client

/-!
# What a packet does to a client

Of what the event loop uses, `handleSoupPacket` changes whether the client is logged in,
its backoff, and its pipeline counter. The client of the event loop receives as
`ClientState` does (`handleReadable_toClientState`).
-/

namespace Exchange

open Spec (AcceptsLogin answerRef)

namespace ClientState

/-- A message that answers an Enter. -/
def answers : OuchOutboundFrame → Bool
  | .orderAccepted _ => true
  | .orderRejected _ => true
  | _ => false

/-- What a message changes, if it answers an Enter and if it does not: nothing but the
pipeline counter and the number of orders in flight. -/
structure Answered (answer : Bool) (cs cs' : ClientState) : Prop where
  fd : cs'.fd = cs.fd
  connecting : cs'.connecting = cs.connecting
  loggedIn : cs'.loggedIn = cs.loggedIn
  readBuf : cs'.readBuf = cs.readBuf
  reconnectAtNs : cs'.reconnectAtNs = cs.reconnectAtNs
  reconnectBackoffMs : cs'.reconnectBackoffMs = cs.reconnectBackoffMs
  acksPending : cs'.acksPending = if answer then cs.acksPending - 1 else cs.acksPending
  ordersInFlight : cs'.ordersInFlight - cs'.acksPending = cs.ordersInFlight - cs.acksPending

variable {cs cs' cs'' : ClientState} {answer : Bool}

theorem Answered.refl (cs : ClientState) : Answered false cs cs := ⟨rfl, rfl, rfl, rfl, rfl, rfl, rfl, rfl⟩

theorem Answered.trans (h : Answered answer cs cs') (h' : Answered false cs' cs'') : Answered answer cs cs'' where
  fd := h'.fd.trans h.fd
  connecting := h'.connecting.trans h.connecting
  loggedIn := h'.loggedIn.trans h.loggedIn
  readBuf := h'.readBuf.trans h.readBuf
  reconnectAtNs := h'.reconnectAtNs.trans h.reconnectAtNs
  reconnectBackoffMs := h'.reconnectBackoffMs.trans h.reconnectBackoffMs
  acksPending := h'.acksPending.trans h.acksPending
  ordersInFlight := h'.ordersInFlight.trans h.ordersInFlight

theorem answerEnter_answered (cs : ClientState) : Answered true cs cs.answerEnter := by
  unfold answerEnter
  split
  · next h => exact ⟨rfl, rfl, rfl, rfl, rfl, rfl, rfl, by dsimp only; omega⟩
  · next h => exact ⟨rfl, rfl, rfl, rfl, rfl, rfl, by rw [if_pos rfl]; omega, rfl⟩

theorem rememberSide_answered (cs : ClientState) (userRefNum : UInt32) (side : UInt8) :
    Answered false cs (cs.rememberSide userRefNum side) := by
  unfold rememberSide
  cases Validation.toEngineSide side with
  | none => exact .refl cs
  | some side => exact ⟨rfl, rfl, rfl, rfl, rfl, rfl, rfl, rfl⟩

theorem handleOuch_answered (cs : ClientState) (msg : OuchOutboundFrame) :
    Answered (answers msg) cs (cs.handleOuch msg).2 := by
  cases msg with
  | orderAccepted a =>
    refine (answerEnter_answered cs).trans (.trans ?_ (rememberSide_answered _ a.userRefNum a.side))
    exact ⟨rfl, rfl, rfl, rfl, rfl, rfl, rfl, rfl⟩
  | orderRejected r => exact (answerEnter_answered cs).trans ⟨rfl, rfl, rfl, rfl, rfl, rfl, rfl, rfl⟩
  | orderExecuted e => exact ⟨rfl, rfl, rfl, rfl, rfl, rfl, rfl, rfl⟩
  | orderCanceled e => exact ⟨rfl, rfl, rfl, rfl, rfl, rfl, rfl, rfl⟩
  | orderReplaced r =>
    refine .trans ?_ (rememberSide_answered _ r.userRefNum r.side)
    exact ⟨rfl, rfl, rfl, rfl, rfl, rfl, rfl, rfl⟩
  | none => exact .refl cs

theorem handleSequenced_fst {payload : List UInt8} (h : decodeOutboundOuch payload ≠ .none) :
    (cs.handleSequenced payload).1 = true := by
  unfold handleSequenced
  dsimp only
  split
  · next hd => exact absurd hd h
  · cases hd : decodeOutboundOuch payload with
    | none => exact absurd hd h
    | _ => rfl

theorem handleSequenced_answered (cs : ClientState) (payload : List UInt8) :
    Answered (answers (decodeOutboundOuch payload)) cs (cs.handleSequenced payload).2 := by
  unfold handleSequenced
  dsimp only
  split
  · next h =>
    rw [h]
    exact ⟨rfl, rfl, rfl, rfl, rfl, rfl, rfl, rfl⟩
  · have h := handleOuch_answered
      { cs with nextSequence := (cs.nextSequence + 1) % 2 ^ 64, handled := cs.handled ++ [payload] }
      (decodeOutboundOuch payload)
    exact ⟨h.fd, h.connecting, h.loggedIn, h.readBuf, h.reconnectAtNs, h.reconnectBackoffMs, h.acksPending,
      h.ordersInFlight⟩

/-- What `handleSoupPacket` changes when it takes a packet, of what the event loop uses. -/
structure Handles (packet : SoupPacket) (n : ℕ) (cs cs' : ClientState) : Prop where
  fd : cs'.fd = cs.fd
  connecting : cs'.connecting = cs.connecting
  readBuf : cs'.readBuf = cs.readBuf
  reconnectAtNs : cs'.reconnectAtNs = cs.reconnectAtNs
  loggedIn : cs'.loggedIn = true ↔ cs.loggedIn = true ∨ AcceptsLogin (.handed packet n)
  reconnectBackoffMs : cs'.reconnectBackoffMs = if AcceptsLogin (.handed packet n) then 0 else cs.reconnectBackoffMs
  acksPending : cs'.acksPending =
    if (answerRef (.handed packet n)).isSome then cs.acksPending - 1 else cs.acksPending
  ordersInFlight : cs'.ordersInFlight - cs'.acksPending = cs.ordersInFlight - cs.acksPending

variable {packet : SoupPacket}

theorem answerRef_isSome (h : packet.type = SoupPacketType.sequencedData.byte) (n : ℕ) :
    (answerRef (.handed packet n)).isSome = answers (decodeOutboundOuch packet.payload) := by
  unfold answerRef
  dsimp only
  rw [if_pos h]
  cases decodeOutboundOuch packet.payload <;> rfl

theorem answerRef_eq_none (h : SoupPacketType.ofByte packet.type ≠ some .sequencedData) (n : ℕ) :
    ¬ (answerRef (.handed packet n)).isSome := by
  rw [answerRef, if_neg (mt SoupPacketType.ofByte_eq_some.mpr h)]
  decide

/-- A packet that has nothing to say. -/
theorem Handles.refl (cs : ClientState) (n : ℕ) (hlogin : SoupPacketType.ofByte packet.type ≠ some .loginAccepted)
    (hdata : SoupPacketType.ofByte packet.type ≠ some .sequencedData) : Handles packet n cs cs := by
  have hno : ¬ AcceptsLogin (.handed packet n) := mt SoupPacketType.ofByte_eq_some.mpr hlogin
  exact ⟨rfl, rfl, rfl, rfl, ⟨.inl, fun h => h.resolve_right hno⟩, (if_neg hno).symm,
    (if_neg (answerRef_eq_none hdata n)).symm, rfl⟩

theorem handleSoupPacket_handles (n : ℕ) (hok : (cs.handleSoupPacket packet).1 = true) :
    Handles packet n cs (cs.handleSoupPacket packet).2 := by
  unfold handleSoupPacket at hok ⊢
  split at hok
  · next h =>
    split at hok
    · cases hok
    · have ha : AcceptsLogin (.handed packet n) := SoupPacketType.ofByte_eq_some.mp h
      exact ⟨rfl, rfl, rfl, rfl, ⟨fun _ => .inr ha, fun _ => rfl⟩, (if_pos ha).symm,
        (if_neg (answerRef_eq_none (by rw [h]; decide) n)).symm, rfl⟩
  · cases hok
  · next h =>
    have htype := SoupPacketType.ofByte_eq_some.mp h
    have hno : ¬ AcceptsLogin (.handed packet n) := fun ha => absurd (htype.symm.trans ha) (by decide)
    split at hok
    · next hl =>
      rw [if_pos hl]
      obtain ⟨hfd, hc, hlog, hr, hat, hb, hacks, hfl⟩ := handleSequenced_answered cs packet.payload
      refine ⟨hfd, hc, hr, hat, ?_, hb.trans (if_neg hno).symm, ?_, hfl⟩
      · rw [hlog]
        exact ⟨.inl, fun h => h.resolve_right hno⟩
      · rw [hacks, answerRef_isSome htype]
    · cases hok
  · next h => exact .refl cs n (by rw [h]; decide) (by rw [h]; decide)
  · next h => exact .refl cs n (by rw [h]; decide) (by rw [h]; decide)
  · cases hok

/-- A packet that `handleSoupPacket` does not take changes nothing of that. -/
theorem handleSoupPacket_rejects (hno : (cs.handleSoupPacket packet).1 = false) :
    Answered false cs (cs.handleSoupPacket packet).2 := by
  unfold handleSoupPacket at hno ⊢
  split at hno
  · split at hno
    · exact .refl cs
    · cases hno
  · exact .refl cs
  · split at hno
    · next hl =>
      rw [if_pos hl]
      have h := handleSequenced_answered cs packet.payload
      have hnone : decodeOutboundOuch packet.payload = .none := by
        by_contra hd
        exact absurd hno (by rw [handleSequenced_fst hd]; decide)
      rwa [hnone] at h
    · next hl =>
      rw [if_neg hl]
      exact .refl cs
  · cases hno
  · cases hno
  · exact .refl cs

end ClientState

/-! ## The event loop -/

namespace LoadClient

/-- The loop over packets does what it does to a client that sends nothing; where it ends
the connection, `handleReadable` closes it. -/
theorem handlePackets_toClientState (now fuel : ℕ) (c : LoadClient) :
    c.toClientState.handlePackets now fuel =
      if (handlePackets fuel c).1 then (handlePackets fuel c).2.toClientState
      else (handlePackets fuel c).2.toClientState.reconnect now := by
  induction fuel generalizing c with
  | zero => rfl
  | succ fuel ih =>
    unfold handlePackets ClientState.handlePackets
    split
    · rfl
    · cases parseSoupPacket c.readBuf.view with
      | incomplete => rfl
      | malformed => rfl
      | packet packet n =>
        dsimp only
        by_cases hok : (c.toClientState.handleSoupPacket packet).1 = true
        · simp only [if_pos hok]
          exact ih (c.take packet n)
        · simp only [if_neg hok]
          rfl

/-- What the event loop receives changes a client as `ClientState.handleReadable` says. It
goes on to send a batch, or has closed the connection. -/
theorem handleReadable_toClientState (interArrivalNs : ℕ) (c : LoadClient) {k k' : Kernel} {bytes : List UInt8}
    (hrecv : k.nextRecv = (.bytes bytes, k')) :
    ∃ c' : LoadClient, c'.toClientState = c.toClientState.handleReadable k'.tick.2.nowNs.1 bytes ∧
      (c.handleReadable interArrivalNs k = c'.buildBatch interArrivalNs k' ∨
        (c.handleReadable interArrivalNs k).1 = c') := by
  have hclose : ∀ c : LoadClient, (c.reconnect k').1.toClientState = c.toClientState.reconnect k'.tick.2.nowNs.1 := by
    intro c
    unfold reconnect ClientState.reconnect
    split <;> rfl
  unfold handleReadable
  rw [hrecv]
  dsimp only
  split
  · next hnil =>
    refine ⟨_, ?_, .inr rfl⟩
    rw [hclose]
    exact (if_pos hnil).symm
  · next hne =>
    have hloop := handlePackets_toClientState k'.tick.2.nowNs.1 (c.receive bytes).readBuf.length (c.receive bytes)
    have hread : c.toClientState.handleReadable k'.tick.2.nowNs.1 bytes =
      (c.receive bytes).toClientState.handlePackets k'.tick.2.nowNs.1 (c.receive bytes).readBuf.length := if_neg hne
    rw [hread, hloop]
    generalize handlePackets (c.receive bytes).readBuf.length (c.receive bytes) = r
    obtain ⟨ok, c'⟩ := r
    cases ok with
    | true => exact ⟨c', rfl, .inl rfl⟩
    | false => exact ⟨_, hclose c', .inr rfl⟩

end LoadClient

end Exchange
