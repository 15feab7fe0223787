import Exchange.Impl.Client.LoadGenerator
import Exchange.Proof.Server.Outbound
import Exchange.Proof.Wire.Stream

/-!
# What the client makes of a stream

The bytes the client has read on its connection decide what it has handled: `Reads`. As
long as they begin a stream the server sends, the client handles its Sequenced Data
packets one by one (`handlePackets_ok`), however the bytes were cut.
-/

namespace Exchange

open Spec (SoupItem packetsOf bytesOf Stream Sent)

/-! ## Buffers -/

namespace Buffer

variable {b : Buffer}

/-- The read position is within the data. -/
def Ok (b : Buffer) : Prop := b.readOff ≤ b.data.length

theorem Ok.compact (h : b.Ok) (capacity : ℕ) : (b.compact capacity).Ok ∧ (b.compact capacity).view = b.view := by
  unfold Buffer.compact
  split
  · exact ⟨Nat.zero_le _, rfl⟩
  · exact ⟨h, rfl⟩

/-- What is read is appended to the view. -/
theorem Ok.readFrom (h : b.Ok) (capacity : ℕ) (bytes : List UInt8) :
    (b.readFrom capacity bytes).2.Ok ∧
      (b.readFrom capacity bytes).2.view = b.view ++ bytes.take (b.readFrom capacity bytes).1 := by
  obtain ⟨hok, hview⟩ := h.compact capacity
  unfold Buffer.readFrom
  dsimp only
  refine ⟨Nat.le_trans hok (by rw [List.length_append]; omega), ?_⟩
  rw [view, List.drop_append_of_le_length hok, ← hview, List.length_take, ← List.take_eq_take_min]
  rfl

theorem advance_view (b : Buffer) (n : ℕ) : (b.advance n).Ok ∧ (b.advance n).view = b.view.drop n := by
  unfold Buffer.advance
  split
  · next hn => exact ⟨Nat.zero_le _, by rw [view, view, List.drop_drop, List.drop_of_length_le hn]; rfl⟩
  · next hn => exact ⟨Nat.le_of_not_le hn, by rw [view, view, List.drop_drop]⟩

end Buffer

/-! ## The server's packets -/

/-- The bytes of a Sequenced Data packet the client can decode. -/
def IsData (packet : List UInt8) : Prop :=
  ∃ payload, packet = bigEndian 2 (payload.length + 1) ++ [SoupPacketType.sequencedData.byte] ++ payload ∧
    payload.length + 1 ≤ 65535 ∧ decodeOutboundOuch payload ≠ .none

/-- The payload of a packet. -/
def payloadOf (packet : List UInt8) : List UInt8 := packet.drop soupHeaderLen

theorem isData_encodeSoupSequenced {msg : OuchOutboundFrame} {room : ℕ} (h : encodeSoupSequenced msg room ≠ []) :
    IsData (encodeSoupSequenced msg room) := by
  obtain ⟨hnone, heq⟩ := encodeSoupSequenced_eq_elim h
  have hfull := length_encodeOutboundOuch msg
  cases hw : writeHeader .sequencedData (encodedSize msg) room with
  | none =>
    rw [hw] at heq
    exact absurd heq h
  | some header =>
    obtain ⟨hle, rfl⟩ := writeHeader_eq_some hw
    rw [hw] at heq
    exact ⟨encodeOutboundOuch msg (encodedSize msg), by rw [heq, hfull]; rfl, hfull.symm ▸ hle,
      decodeOutboundOuch_ne_none hnone⟩

theorem IsData.parse {packet : List UInt8} (h : IsData packet) :
    parseSoupPacket packet = .packet ⟨SoupPacketType.sequencedData.byte, payloadOf packet⟩ packet.length ∧
      decodeOutboundOuch (payloadOf packet) ≠ .none := by
  obtain ⟨payload, rfl, hlen, hd⟩ := h
  have e : payloadOf (bigEndian 2 (payload.length + 1) ++ [SoupPacketType.sequencedData.byte] ++ payload) = payload :=
    rfl
  rw [e]
  exact ⟨parseSoupPacket_encoded _ hlen, hd⟩

theorem parse_heartbeat : parseSoupPacket Outbound.heartbeatPacket =
    .packet ⟨SoupPacketType.serverHeartbeat.byte, []⟩ Outbound.heartbeatPacket.length := by
  decide

theorem parse_loginRejected (reason : SoupReject) : parseSoupPacket (Outbound.loginRejectedPacket reason) =
    .packet ⟨SoupPacketType.loginRejected.byte, [reason.byte]⟩ (Outbound.loginRejectedPacket reason).length := by
  cases reason <;> decide

theorem parse_loginAccepted (n : ℕ) : parseSoupPacket (Outbound.loginAcceptedPacket n) =
    .packet ⟨SoupPacketType.loginAccepted.byte, loginAcceptedPayload ⟨Outbound.soupSession, n⟩⟩
      (Outbound.loginAcceptedPacket n).length := by
  have e : Outbound.loginAcceptedPacket n = bigEndian 2 ((loginAcceptedPayload ⟨Outbound.soupSession, n⟩).length + 1) ++
      [SoupPacketType.loginAccepted.byte] ++ loginAcceptedPayload ⟨Outbound.soupSession, n⟩ := by
    rw [length_loginAcceptedPayload, loginAcceptedPayload, ← List.append_assoc]
    rfl
  rw [e]
  exact parseSoupPacket_encoded _ (by rw [length_loginAcceptedPayload]; decide)

theorem IsData.ne_heartbeat {packet : List UInt8} (h : IsData packet) : packet ≠ Outbound.heartbeatPacket := by
  rintro rfl
  have e := h.parse.1.symm.trans parse_heartbeat
  injection e with e _
  injection e with e _
  exact absurd e (by decide)

theorem framed_of_parse {bytes : List UInt8} {packet : SoupPacket}
    (h : parseSoupPacket bytes = .packet packet bytes.length) : Framed bytes ∧ bytes ≠ [] := by
  have h3 := (parseSoupPacket_take h).1
  exact ⟨⟨packet, h⟩, fun e => by rw [e] at h3; exact absurd h3 (by decide)⟩

/-! ## Streams, packet by packet -/

/-- The Sequenced Data packets among the packets that follow Login Accepted. -/
def data? (frame : List UInt8) : Option (List UInt8) := if frame = Outbound.heartbeatPacket then none else some frame

theorem data?_heartbeat : data? Outbound.heartbeatPacket = none := if_pos rfl

theorem IsData.data? {packet : List UInt8} (h : IsData packet) : data? packet = some packet := if_neg h.ne_heartbeat

theorem filterMap_data {items : List SoupItem} (h : ∀ p ∈ packetsOf items, IsData p) :
    (items.map (·.bytes)).filterMap data? = packetsOf items := by
  rw [packetsOf, List.filterMap_map]
  refine List.filterMap_congr fun item hitem => ?_
  cases item with
  | heartbeat => exact data?_heartbeat
  | data packet => exact (h packet (List.mem_filterMap.mpr ⟨_, hitem, rfl⟩)).data?

theorem framed_items {items : List SoupItem} (h : ∀ p ∈ packetsOf items, IsData p) :
    ∀ f ∈ items.map (·.bytes), f = Outbound.heartbeatPacket ∨ IsData f := by
  intro f hf
  obtain ⟨item, hitem, rfl⟩ := List.mem_map.mp hf
  cases item with
  | heartbeat => exact .inl rfl
  | data packet => exact .inr (h packet (List.mem_filterMap.mpr ⟨_, hitem, rfl⟩))

/-- What the server can send a client that asks for message `n`. -/
def FromServer (packets : List (List UInt8)) (n : ℕ) (bytes : List UInt8) : Prop :=
  (∃ reason, bytes <+: Outbound.loginRejectedPacket reason) ∨ Stream packets n bytes

theorem FromServer.of_isPrefix {packets : List (List UInt8)} {n : ℕ} {bytes bytes' : List UInt8}
    (h : FromServer packets n bytes) (hp : bytes' <+: bytes) : FromServer packets n bytes' := by
  rcases h with ⟨reason, h⟩ | ⟨h1, h2, items, hi, h⟩
  · exact .inl ⟨reason, hp.trans h⟩
  · exact .inr ⟨h1, h2, items, hi, hp.trans h⟩

/-- Whole packets at the beginning of what the server sent: Login Rejected alone, or Login
Accepted, heartbeats, and the packets from number `n` on. -/
theorem FromServer.frames {packets : List (List UInt8)} (hdata : ∀ p ∈ packets, IsData p) {n : ℕ}
    {frames : List (List UInt8)} {rest : List UInt8} (h : FromServer packets n (frames.flatten ++ rest))
    (hf : ∀ f ∈ frames, Framed f ∧ f ≠ []) :
    (∃ reason, frames <+: [Outbound.loginRejectedPacket reason]) ∨
    ∃ gs, frames <+: Outbound.loginAcceptedPacket n :: gs ∧ (∀ g ∈ gs, g = Outbound.heartbeatPacket ∨ IsData g) ∧
      gs.filterMap data? <+: packets.drop (n - 1) := by
  rcases h with ⟨reason, h⟩ | ⟨-, -, items, hi, h⟩
  · refine .inl ⟨reason, prefixFree_framed.isPrefix_of_flatten hf ?_ ?_⟩
    · intro g hg
      obtain rfl := List.mem_singleton.mp hg
      exact ⟨_, parse_loginRejected reason⟩
    · rw [List.flatten_singleton]
      exact (List.prefix_append _ _).trans h
  · have hitems : ∀ p ∈ packetsOf items, IsData p := fun p hp => hdata p (List.mem_of_mem_drop (hi.subset hp))
    refine .inr ⟨items.map (·.bytes), prefixFree_framed.isPrefix_of_flatten hf ?_ ?_, framed_items hitems, ?_⟩
    · intro g hg
      rcases List.mem_cons.mp hg with rfl | hg
      · exact ⟨_, parse_loginAccepted n⟩
      · rcases framed_items hitems g hg with rfl | hg
        · exact ⟨_, parse_heartbeat⟩
        · exact ⟨_, hg.parse.1⟩
    · rw [List.flatten_cons, ← List.flatMap_def]
      exact (List.prefix_append _ _).trans h
    · rwa [filterMap_data hitems]

/-! ## The client on a packet -/

namespace ClientState

/-- What a message or a packet changes nothing of. -/
structure Frame (cs cs' : ClientState) : Prop where
  clientId : cs'.clientId = cs.clientId
  fd : cs'.fd = cs.fd
  connecting : cs'.connecting = cs.connecting
  readBuf : cs'.readBuf = cs.readBuf

/-- What an OUCH message changes nothing of. -/
structure Quiet (cs cs' : ClientState) : Prop extends Frame cs cs' where
  loggedIn : cs'.loggedIn = cs.loggedIn
  nextSequence : cs'.nextSequence = cs.nextSequence
  handled : cs'.handled = cs.handled

variable {cs cs' cs'' : ClientState} {packets : List (List UInt8)} {before : List (List UInt8)} {n : ℕ}
  {bytes : List UInt8}

theorem Quiet.refl (cs : ClientState) : Quiet cs cs := ⟨⟨rfl, rfl, rfl, rfl⟩, rfl, rfl, rfl⟩

theorem Quiet.trans (h : Quiet cs cs') (h' : Quiet cs' cs'') : Quiet cs cs'' :=
  ⟨⟨h'.clientId.trans h.clientId, h'.fd.trans h.fd, h'.connecting.trans h.connecting, h'.readBuf.trans h.readBuf⟩,
    h'.loggedIn.trans h.loggedIn, h'.nextSequence.trans h.nextSequence, h'.handled.trans h.handled⟩

theorem answerEnter_quiet (cs : ClientState) : Quiet cs cs.answerEnter := by
  unfold answerEnter
  split
  · exact ⟨⟨rfl, rfl, rfl, rfl⟩, rfl, rfl, rfl⟩
  · exact .refl cs

theorem rememberSide_quiet (cs : ClientState) (userRefNum : UInt32) (side : UInt8) :
    Quiet cs (cs.rememberSide userRefNum side) := by
  unfold rememberSide
  cases Validation.toEngineSide side with
  | none => exact .refl cs
  | some side => exact ⟨⟨rfl, rfl, rfl, rfl⟩, rfl, rfl, rfl⟩

/-- An OUCH message changes no more than the statistics and the orders. -/
theorem handleOuch_ok (cs : ClientState) {msg : OuchOutboundFrame} (h : msg ≠ .none) :
    (cs.handleOuch msg).1 = true ∧ Quiet cs (cs.handleOuch msg).2 := by
  cases msg with
  | orderAccepted a =>
    refine ⟨rfl, (answerEnter_quiet cs).trans (.trans ?_ (rememberSide_quiet _ a.userRefNum a.side))⟩
    exact ⟨⟨rfl, rfl, rfl, rfl⟩, rfl, rfl, rfl⟩
  | orderRejected r => exact ⟨rfl, (answerEnter_quiet cs).trans ⟨⟨rfl, rfl, rfl, rfl⟩, rfl, rfl, rfl⟩⟩
  | orderExecuted e => exact ⟨rfl, ⟨rfl, rfl, rfl, rfl⟩, rfl, rfl, rfl⟩
  | orderCanceled e => exact ⟨rfl, ⟨rfl, rfl, rfl, rfl⟩, rfl, rfl, rfl⟩
  | orderReplaced r =>
    refine ⟨rfl, .trans ?_ (rememberSide_quiet _ r.userRefNum r.side)⟩
    exact ⟨⟨rfl, rfl, rfl, rfl⟩, rfl, rfl, rfl⟩
  | none => exact absurd rfl h

/-- The client when it has read the packets `frames` of a connection it asked for message
`n` on, with `before` handled earlier. -/
def After (cs : ClientState) (before : List (List UInt8)) (n : ℕ) : List (List UInt8) → Prop
  | [] => cs.loggedIn = false ∧ cs.handled = before ∧ cs.nextSequence = n
  | first :: frames => first = Outbound.loginAcceptedPacket n ∧ cs.loggedIn = true ∧
      cs.handled = before ++ (frames.filterMap data?).map payloadOf ∧
      cs.nextSequence = n + (frames.filterMap data?).length

theorem handleSequenced_ok {frames : List (List UInt8)} {first packet : List UInt8}
    (h : cs.After before n (first :: frames)) (hp : IsData packet) (hn : cs.nextSequence + 1 < 2 ^ 64) :
    (cs.handleSequenced (payloadOf packet)).1 = true ∧ Frame cs (cs.handleSequenced (payloadOf packet)).2 ∧
      (cs.handleSequenced (payloadOf packet)).2.After before n (first :: frames ++ [packet]) := by
  obtain ⟨hfirst, hl, hh, hs⟩ := h
  have hd := hp.parse.2
  have e : cs.handleSequenced (payloadOf packet) =
      { cs with
        nextSequence := (cs.nextSequence + 1) % 2 ^ 64
        handled := cs.handled ++ [payloadOf packet] }.handleOuch (decodeOutboundOuch (payloadOf packet)) := by
    unfold handleSequenced
    dsimp only
    split
    · next h => exact absurd h hd
    · rfl
  have hdata : (frames ++ [packet]).filterMap data? = frames.filterMap data? ++ [packet] := by
    rw [List.filterMap_append, List.filterMap_cons, hp.data?]
    rfl
  obtain ⟨hok, hq⟩ := handleOuch_ok
    { cs with nextSequence := (cs.nextSequence + 1) % 2 ^ 64, handled := cs.handled ++ [payloadOf packet] } hd
  rw [e]
  refine ⟨hok, ⟨hq.clientId, hq.fd, hq.connecting, hq.readBuf⟩, hfirst, hq.loggedIn.trans hl, ?_, ?_⟩
  · show _ = before ++ ((frames ++ [packet]).filterMap data?).map payloadOf
    rw [hq.handled, hdata, List.map_append, ← List.append_assoc, ← hh]
    rfl
  · show _ = n + ((frames ++ [packet]).filterMap data?).length
    rw [hq.nextSequence, hdata, List.length_append, ← Nat.add_assoc, ← hs]
    exact Nat.mod_eq_of_lt hn

/-- A client that has handled `before` asks for message `n` of a session that has `packets`. -/
structure Resumes (packets before : List (List UInt8)) (n : ℕ) : Prop where
  data : ∀ p ∈ packets, IsData p
  bound : packets.length + 1 < 2 ^ 64
  handled : before <+: packets.map payloadOf
  next : n = before.length + 1

theorem Resumes.le (h : Resumes packets before n) : n ≤ packets.length + 1 := by
  have := h.handled.length_le
  rw [List.length_map] at this
  rw [h.next]
  omega

theorem Resumes.mono {packets' : List (List UInt8)} (h : Resumes packets before n) (hp : packets <+: packets')
    (hdata : ∀ p ∈ packets', IsData p) (hb : packets'.length + 1 < 2 ^ 64) : Resumes packets' before n :=
  ⟨hdata, hb, h.handled.trans (hp.map payloadOf), h.next⟩

theorem framed_concat {frames : List (List UInt8)} (hf : ∀ f ∈ frames, Framed f ∧ f ≠ []) {frame : List UInt8}
    {packet : SoupPacket} (hp : parseSoupPacket frame = .packet packet frame.length) :
    ∀ f ∈ frames ++ [frame], Framed f ∧ f ≠ [] := by
  intro f hfm
  rcases List.mem_append.mp hfm with hfm | hfm
  · exact hf f hfm
  · obtain rfl := List.mem_singleton.mp hfm
    exact framed_of_parse hp

theorem handleSoupPacket_loginAccepted (cs : ClientState) {payload : List UInt8} {accepted : SoupLoginAccepted}
    (h : decodeSoupLoginAccepted payload = some accepted) :
    cs.handleSoupPacket ⟨SoupPacketType.loginAccepted.byte, payload⟩ =
      (true, { cs with nextSequence := accepted.sequenceNumber, loggedIn := true, reconnectBackoffMs := 0 }) := by
  have htype : SoupPacketType.ofByte SoupPacketType.loginAccepted.byte = some .loginAccepted := rfl
  simp only [handleSoupPacket, htype, h]

theorem handleSoupPacket_loginRejected (cs : ClientState) (payload : List UInt8) :
    cs.handleSoupPacket ⟨SoupPacketType.loginRejected.byte, payload⟩ = (false, cs) := rfl

theorem handleSoupPacket_heartbeat (cs : ClientState) (payload : List UInt8) :
    cs.handleSoupPacket ⟨SoupPacketType.serverHeartbeat.byte, payload⟩ = (true, cs) := rfl

theorem handleSoupPacket_sequenced (h : cs.loggedIn = true) (payload : List UInt8) :
    cs.handleSoupPacket ⟨SoupPacketType.sequencedData.byte, payload⟩ = cs.handleSequenced payload := if_pos h

/-- A packet the server sends is handled, except for Login Rejected. -/
theorem handleSoupPacket_ok (hr : Resumes packets before n) {frames : List (List UInt8)} (h : cs.After before n frames)
    (hf : ∀ f ∈ frames, Framed f ∧ f ≠ []) {frame rest : List UInt8} {packet : SoupPacket}
    (hp : parseSoupPacket frame = .packet packet frame.length)
    (hs : FromServer packets n ((frames ++ [frame]).flatten ++ rest)) :
    (cs.handleSoupPacket packet = (false, cs)) ∨
    (cs.handleSoupPacket packet).1 = true ∧ Frame cs (cs.handleSoupPacket packet).2 ∧
      (cs.handleSoupPacket packet).2.After before n (frames ++ [frame]) := by
  have hlen := hr.bound
  have hle := hr.le
  rcases hs.frames hr.data (framed_concat hf hp) with ⟨reason, hpre⟩ | ⟨gs, hpre, hgs, hdrop⟩
  · -- a rejected login has this one packet
    have h0 : frames = [] := by
      have := hpre.length_le
      simp only [List.length_append, List.length_singleton] at this
      exact List.length_eq_zero_iff.mp (by omega)
    subst h0
    obtain rfl : frame = Outbound.loginRejectedPacket reason := (List.cons_prefix_cons.mp hpre).1
    obtain ⟨rfl, -⟩ := SoupParse.packet.inj (hp.symm.trans (parse_loginRejected reason))
    exact .inl (handleSoupPacket_loginRejected cs _)
  · refine .inr ?_
    cases frames with
    | nil =>
      obtain rfl : frame = Outbound.loginAcceptedPacket n := (List.cons_prefix_cons.mp hpre).1
      obtain ⟨rfl, -⟩ := SoupParse.packet.inj (hp.symm.trans (parse_loginAccepted n))
      have hd : decodeSoupLoginAccepted (loginAcceptedPayload ⟨Outbound.soupSession, n⟩) =
          some ⟨Outbound.soupSession, n⟩ := decodeSoupLoginAccepted_payload (by show n < 2 ^ 64; omega)
      rw [handleSoupPacket_loginAccepted cs hd]
      exact ⟨rfl, ⟨rfl, rfl, rfl, rfl⟩, rfl, rfl, h.2.1.trans (List.append_nil before).symm, rfl⟩
    | cons first frames =>
      obtain ⟨hfirst, hl, hh, hn⟩ := h
      rw [List.cons_append] at hpre
      have hpre := (List.cons_prefix_cons.mp hpre).2
      rcases hgs frame (hpre.subset (List.mem_append_right _ (List.mem_singleton_self _))) with rfl | hd
      · obtain ⟨rfl, -⟩ := SoupParse.packet.inj (hp.symm.trans parse_heartbeat)
        have e : (frames ++ [Outbound.heartbeatPacket]).filterMap data? = frames.filterMap data? := by
          rw [List.filterMap_append, List.filterMap_cons, data?_heartbeat]
          exact List.append_nil _
        rw [handleSoupPacket_heartbeat]
        refine ⟨rfl, ⟨rfl, rfl, rfl, rfl⟩, hfirst, hl, ?_, ?_⟩
        · exact hh.trans (by rw [← e]; rfl)
        · exact hn.trans (by rw [← e]; rfl)
      · obtain ⟨rfl, -⟩ := SoupParse.packet.inj (hp.symm.trans hd.parse.1)
        have hcount := ((hpre.filterMap data?).trans hdrop).length_le
        rw [List.filterMap_append, List.length_append, List.filterMap_cons, hd.data?, List.length_drop] at hcount
        rw [handleSoupPacket_sequenced hl]
        exact handleSequenced_ok ⟨hfirst, hl, hh, hn⟩ hd (by
          rw [hn]
          simp only [List.filterMap_nil, List.length_singleton] at hcount
          omega)

/-! ## The client on the bytes of a connection -/

/-- The client when it has read `bytes` of a connection: some packets of it, and the rest
is in its buffer. -/
def Reads (cs : ClientState) (before : List (List UInt8)) (n : ℕ) (bytes : List UInt8) : Prop :=
  cs.readBuf.Ok ∧ ∃ frames, bytes = frames.flatten ++ cs.readBuf.view ∧ (∀ f ∈ frames, Framed f ∧ f ≠ []) ∧
    cs.After before n frames

/-- The client has handled the first messages of the session, each once, and will ask for
the next. -/
def Delivered (cs : ClientState) (packets : List (List UInt8)) : Prop :=
  cs.handled <+: packets.map payloadOf ∧ cs.nextSequence = cs.handled.length + 1

theorem Delivered.mono {packets' : List (List UInt8)} (h : cs.Delivered packets) (hp : packets <+: packets') :
    cs.Delivered packets' :=
  ⟨h.1.trans (hp.map payloadOf), h.2⟩

theorem Reads.delivered (h : cs.Reads before n bytes) (hr : Resumes packets before n)
    (hs : FromServer packets n bytes) : cs.Delivered packets := by
  obtain ⟨-, frames, rfl, hf, ha⟩ := h
  cases frames with
  | nil => exact ⟨ha.2.1 ▸ hr.handled, by rw [ha.2.2, ha.2.1, hr.next]⟩
  | cons first frames =>
    obtain ⟨rfl, -, hh, hn⟩ := ha
    rcases hs.frames hr.data hf with ⟨reason, hpre⟩ | ⟨gs, hpre, -, hdrop⟩
    · -- Login Accepted does not begin the stream of a rejected login
      have e := (parse_loginAccepted n).symm.trans
        ((List.cons_prefix_cons.mp hpre).1 ▸ parse_loginRejected reason)
      injection e with e _
      injection e with e _
      exact absurd e (by decide)
    · have hd := (((List.cons_prefix_cons.mp hpre).2.filterMap data?).trans hdrop).map payloadOf
      refine ⟨?_, by rw [hn, hh, hr.next, List.length_append, List.length_map]; omega⟩
      have e : packets.map payloadOf = before ++ (packets.map payloadOf).drop (n - 1) := by
        conv_lhs => rw [← List.take_append_drop (n - 1) (packets.map payloadOf)]
        rw [hr.next, Nat.add_sub_cancel, ← List.prefix_iff_eq_take.mp hr.handled]
      rw [hh, e, List.prefix_append_right_inj, ← List.map_drop]
      exact hd

/-- What becomes of a client whose connection has given it `bytes`: it is still on it, or
it has left it. -/
def Outcome (packets before : List (List UInt8)) (n : ℕ) (bytes : List UInt8) (cs cs' : ClientState) : Prop :=
  cs'.clientId = cs.clientId ∧ ((cs'.fd = cs.fd ∧ cs'.connecting = cs.connecting ∧ cs'.Reads before n bytes) ∨
    cs'.fd = none ∧ cs'.Delivered packets)

theorem reconnect_eq (h : cs.fd ≠ none) (now : ℕ) : (cs.reconnect now).fd = none ∧
    (cs.reconnect now).clientId = cs.clientId ∧ (cs.reconnect now).handled = cs.handled ∧
    (cs.reconnect now).nextSequence = cs.nextSequence := by
  unfold reconnect
  rw [if_neg h]
  exact ⟨rfl, rfl, rfl, rfl⟩

theorem reconnect_outcome (hfd : cs.fd ≠ none) (h : cs.Delivered packets) (now : ℕ) :
    Outcome packets before n bytes cs (cs.reconnect now) := by
  obtain ⟨hf, hc, hh, hn⟩ := reconnect_eq hfd now
  refine ⟨hc, .inr ⟨hf, ?_⟩⟩
  unfold Delivered
  rw [hh, hn]
  exact h

theorem handlePackets_ok (hr : Resumes packets before n) (hs : FromServer packets n bytes) (now fuel : ℕ)
    (hfd : cs.fd ≠ none) (h : cs.Reads before n bytes) :
    Outcome packets before n bytes cs (handlePackets now fuel cs) := by
  induction fuel generalizing cs with
  | zero => exact ⟨rfl, .inl ⟨rfl, rfl, h⟩⟩
  | succ fuel ih =>
    unfold handlePackets
    split
    · exact ⟨rfl, .inl ⟨rfl, rfl, h⟩⟩
    · split
      · exact ⟨rfl, .inl ⟨rfl, rfl, h⟩⟩
      · exact reconnect_outcome hfd (h.delivered hr hs) now
      · next packet k hp =>
        have hdel := h.delivered hr hs
        obtain ⟨-, frames, hbytes, hf, ha⟩ := h
        obtain ⟨-, hk, hframe⟩ := parseSoupPacket_take hp
        -- the bytes the packet is made of
        obtain ⟨frame, hframe'⟩ : ∃ frame, frame = cs.readBuf.view.take k := ⟨_, rfl⟩
        have hlen : frame.length = k := by rw [hframe', List.length_take, Nat.min_eq_left hk]
        rw [← hframe', ← hlen] at hframe
        have hbytes' : bytes = (frames ++ [frame]).flatten ++ cs.readBuf.view.drop k := by
          rw [hbytes, List.flatten_append, List.flatten_singleton, List.append_assoc, hframe', List.take_append_drop]
        rcases handleSoupPacket_ok hr ha hf hframe (hbytes' ▸ hs) with e | ⟨htrue, hq, ha'⟩
        · rw [e]
          exact reconnect_outcome hfd hdel now
        · generalize cs.handleSoupPacket packet = r at htrue hq ha'
          obtain ⟨ok, cs'⟩ := r
          subst htrue
          obtain ⟨hadv, hview⟩ := cs'.readBuf.advance_view k
          have hreads : { cs' with readBuf := cs'.readBuf.advance k }.Reads before n bytes := by
            refine ⟨hadv, frames ++ [frame], ?_, framed_concat hf hframe, ?_⟩
            · rw [hbytes']
              exact congrArg _ (by rw [hview, hq.readBuf])
            · exact ha'
          have hfd' : { cs' with readBuf := cs'.readBuf.advance k }.fd ≠ none := fun e => hfd (hq.fd.symm.trans e)
          obtain ⟨hc, hout⟩ := ih hfd' hreads
          refine ⟨hc.trans hq.clientId, hout.imp_left ?_⟩
          rintro ⟨hfd', hcon', hreads'⟩
          exact ⟨hfd'.trans hq.fd, hcon'.trans hq.connecting, hreads'⟩

/-- The client reads from its connection. -/
theorem handleReadable_ok (hr : Resumes packets before n) (now : ℕ) (hfd : cs.fd ≠ none) {arrived : List UInt8}
    (h : cs.Reads before n bytes)
    (hs : FromServer packets n (bytes ++ arrived.take (cs.readBuf.readFrom readBufBytes arrived).1)) :
    Outcome packets before n (bytes ++ arrived.take (cs.readBuf.readFrom readBufBytes arrived).1) cs
      (cs.handleReadable now arrived) := by
  obtain ⟨hok, frames, hbytes, hf, ha⟩ := h
  obtain ⟨hok', hview⟩ := hok.readFrom readBufBytes arrived
  have h' : { cs with readBuf := (cs.readBuf.readFrom readBufBytes arrived).2 }.Reads before n
      (bytes ++ arrived.take (cs.readBuf.readFrom readBufBytes arrived).1) := by
    refine ⟨hok', frames, ?_, hf, ?_⟩
    · rw [hbytes, List.append_assoc]
      exact congrArg _ hview.symm
    · cases frames <;> exact ha
  have hfd' : { cs with readBuf := (cs.readBuf.readFrom readBufBytes arrived).2 }.fd ≠ none := hfd
  unfold handleReadable
  dsimp only
  split
  · exact reconnect_outcome hfd' (h'.delivered hr hs) now
  · exact handlePackets_ok hr hs now _ hfd' h'

/-! ## Who the client is -/

theorem handleSoupPacket_clientId (cs : ClientState) (packet : SoupPacket) :
    (cs.handleSoupPacket packet).2.clientId = cs.clientId := by
  unfold handleSoupPacket
  split
  · split <;> rfl
  · rfl
  · split
    · unfold handleSequenced
      dsimp only
      split
      · rfl
      · next h => exact (handleOuch_ok _ h).2.clientId
    · rfl
  · rfl
  · rfl
  · rfl

theorem reconnect_clientId (cs : ClientState) (now : ℕ) : (cs.reconnect now).clientId = cs.clientId := by
  unfold reconnect
  split <;> rfl

theorem handlePackets_clientId (now fuel : ℕ) (cs : ClientState) :
    (handlePackets now fuel cs).clientId = cs.clientId := by
  induction fuel generalizing cs with
  | zero => rfl
  | succ fuel ih =>
    unfold handlePackets
    split
    · rfl
    · split
      · rfl
      · exact reconnect_clientId cs now
      · next packet k _ =>
        have h := handleSoupPacket_clientId cs packet
        dsimp only
        split
        · exact (ih _).trans h
        · exact (reconnect_clientId _ now).trans h

theorem handleReadable_clientId (cs : ClientState) (now : ℕ) (arrived : List UInt8) :
    (cs.handleReadable now arrived).clientId = cs.clientId := by
  unfold handleReadable
  dsimp only
  split
  · exact reconnect_clientId _ now
  · exact handlePackets_clientId ..

end ClientState

end Exchange
