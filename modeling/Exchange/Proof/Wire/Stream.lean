import Exchange.Proof.Wire.OuchFrames

/-!
# A stream of packets

What the encoders write, one after the other, is taken apart again by `parse_soup_packet`
(`parseSoupStream_frames`), also as far as it has arrived, and each payload is decoded to
what the encoder was given, as far as that is on the wire (`frames_of_produces`): a field
whose tag is absent is not (`untagged_field_lost`).
-/

namespace Exchange

open Spec

/-! ## Repeated parsing -/

/-- `parse_soup_packet` applied to what the packet before has left, until it returns no
packet: the packets, and the bytes that are left. -/
def parseSoupStream (stream : List UInt8) : List SoupPacket × List UInt8 :=
  match _h : parseSoupPacket stream with
  | .packet packet consumed =>
    let (packets, rest) := parseSoupStream (stream.drop consumed)
    (packet :: packets, rest)
  | .incomplete => ([], stream)
  | .malformed => ([], stream)
termination_by stream.length
decreasing_by
  obtain ⟨h3, hle, -⟩ := parseSoupPacket_take _h
  rw [List.length_drop]
  omega

theorem parseSoupStream_packet {stream : List UInt8} {packet : SoupPacket} {n : ℕ}
    (h : parseSoupPacket stream = .packet packet n) : parseSoupStream stream =
      (packet :: (parseSoupStream (stream.drop n)).1, (parseSoupStream (stream.drop n)).2) := by
  rw [parseSoupStream]
  split
  · next packet' n' h' =>
    obtain ⟨rfl, rfl⟩ := SoupParse.packet.inj (h.symm.trans h')
    rfl
  · next h' => cases h.symm.trans h'
  · next h' => cases h.symm.trans h'

theorem parseSoupStream_incomplete {stream : List UInt8} (h : parseSoupPacket stream = .incomplete) :
    parseSoupStream stream = ([], stream) := by
  rw [parseSoupStream]
  split
  · next h' => cases h.symm.trans h'
  · rfl
  · rfl

/-- The bytes of a packet. -/
def frame (packet : SoupPacket) : List UInt8 :=
  bigEndian 2 (packet.payload.length + 1) ++ [packet.type] ++ packet.payload

theorem length_frame (packet : SoupPacket) : (frame packet).length = 2 + (packet.payload.length + 1) := by
  simp only [frame, List.length_append, length_bigEndian, List.length_singleton]
  omega

/-- Whole packets are taken off a stream one by one. -/
theorem parseSoupStream_frames {packets : List SoupPacket} (h : ∀ p ∈ packets, p.payload.length + 1 ≤ 65535)
    (rest : List UInt8) : parseSoupStream ((packets.map frame).flatten ++ rest) =
      (packets ++ (parseSoupStream rest).1, (parseSoupStream rest).2) := by
  induction packets with
  | nil => rfl
  | cons p packets ih =>
    obtain ⟨hp, hps⟩ := List.forall_mem_cons.mp h
    have hparse : parseSoupPacket (frame p ++ ((packets.map frame).flatten ++ rest)) = .packet p (frame p).length :=
      parseSoupPacket_append (parseSoupPacket_encoded p.type hp) _
    have hsplit : ((p :: packets).map frame).flatten ++ rest = frame p ++ ((packets.map frame).flatten ++ rest) := by
      rw [List.map_cons, List.flatten_cons, List.append_assoc]
    rw [hsplit, parseSoupStream_packet hparse, List.drop_left, ih hps]
    rfl

/-- Of a packet that has not arrived in full nothing is known. -/
theorem parseSoupPacket_cut {packet : SoupPacket} (hlen : packet.payload.length + 1 ≤ 65535) {cut : List UInt8}
    (hcut : cut <+: frame packet) (hne : cut ≠ frame packet) : parseSoupPacket cut = .incomplete := by
  have hlt : cut.length < (frame packet).length :=
    Nat.lt_of_le_of_ne hcut.length_le fun e => hne (hcut.eq_of_length e)
  rw [length_frame] at hlt
  refine parseSoupPacket_eq_incomplete.mpr ((Nat.lt_or_ge cut.length 2).imp_right fun h2 => ?_)
  have htake : cut.take 2 = bigEndian 2 (packet.payload.length + 1) := by
    obtain ⟨rest, hrest⟩ := hcut
    have hwhole : (cut ++ rest).take 2 = cut.take 2 := List.take_append_of_le_length h2
    rw [← hwhole, hrest, frame, List.append_assoc, List.take_left' (length_bigEndian 2 _)]
  have hcount : ofBigEndian (cut.take 2) = packet.payload.length + 1 := by
    rw [htake, ofBigEndian_bigEndian]
    omega
  rw [hcount]
  exact ⟨by omega, hlt⟩

/-- A packet that was returned, and a length that no packet has, stay as they are. -/
theorem parseSoupPacket_append_of_ne {stream : List UInt8} (h : parseSoupPacket stream ≠ .incomplete)
    (more : List UInt8) : parseSoupPacket (stream ++ more) = parseSoupPacket stream := by
  cases hp : parseSoupPacket stream with
  | packet packet n => exact parseSoupPacket_append hp more
  | incomplete => exact absurd hp h
  | malformed => exact parseSoupPacket_malformed_append hp more

/-! ## What the encoders write -/

theorem writeHeader_eq_some {type : SoupPacketType} {n room : ℕ} {header : List UInt8}
    (h : writeHeader type n room = some header) :
    n + 1 ≤ 65535 ∧ header = bigEndian 2 (n + 1) ++ [type.byte] := by
  unfold writeHeader at h
  split at h
  · cases h
  · next hroom =>
    cases h
    exact ⟨by omega, rfl⟩

/-- The bytes are one packet, that of the call. -/
def Frames (call : SoupCall) (bytes : List UInt8) : Prop :=
  ∃ packet, bytes = frame packet ∧ packet.payload.length + 1 ≤ 65535 ∧ call.Carried packet

/-- An encoder that writes a header writes the payload after it. -/
theorem frame_of_writeHeader (type : SoupPacketType) {n : ℕ} (room : ℕ) (payload : List UInt8) {bytes : List UInt8}
    (hbytes : bytes = (writeHeader type n room).elim [] (· ++ payload)) (hne : bytes ≠ [])
    (hn : payload.length = n) : bytes = frame ⟨type.byte, payload⟩ ∧ payload.length + 1 ≤ 65535 := by
  cases hw : writeHeader type n room with
  | none =>
    rw [hw] at hbytes
    exact absurd hbytes hne
  | some header =>
    obtain ⟨hle, rfl⟩ := writeHeader_eq_some hw
    rw [hw] at hbytes
    exact ⟨by rw [hbytes, frame, hn]; rfl, hn ▸ hle⟩

theorem frames_of_writeHeader {call : SoupCall} (type : SoupPacketType) {n : ℕ} (room : ℕ) (payload : List UInt8)
    {bytes : List UInt8} (hbytes : bytes = (writeHeader type n room).elim [] (· ++ payload)) (hne : bytes ≠ [])
    (hn : payload.length = n) (hcarried : call.Carried ⟨type.byte, payload⟩) : Frames call bytes := by
  obtain ⟨hframe, hle⟩ := frame_of_writeHeader type room payload hbytes hne hn
  exact ⟨⟨type.byte, payload⟩, hframe, hle, hcarried⟩

theorem encodeSoupLoginRequest_eq_elim (login : SoupLoginRequest) (room : ℕ) : encodeSoupLoginRequest login room =
    (writeHeader .loginRequest soupLoginRequestLen room).elim [] (· ++ loginRequestPayload login) := by
  rw [encodeSoupLoginRequest]
  cases writeHeader .loginRequest soupLoginRequestLen room with
  | none => rfl
  | some header => simp [loginRequestPayload]

theorem encodeSoupUnsequenced_eq_elim {msg : OuchInboundFrame} {room : ℕ} (h : encodeSoupUnsequenced msg room ≠ []) :
    msg ≠ .none ∧ encodeSoupUnsequenced msg room =
      (writeHeader .unsequencedData msg.encodedSize room).elim [] (· ++ encodeInboundOuch msg msg.encodedSize) := by
  refine ⟨fun e => h (by rw [e]; rfl), ?_⟩
  rw [encodeSoupUnsequenced] at h ⊢
  dsimp only at h ⊢
  split at h
  · exact absurd rfl h
  · next h0 =>
    rw [if_neg h0]
    cases writeHeader .unsequencedData msg.encodedSize room with
    | none => rfl
    | some header => exact if_pos (length_encodeInboundOuch msg)

theorem encodeSoupSequenced_eq_elim {msg : OuchOutboundFrame} {room : ℕ} (h : encodeSoupSequenced msg room ≠ []) :
    msg ≠ .none ∧ encodeSoupSequenced msg room =
      (writeHeader .sequencedData (encodedSize msg) room).elim [] (· ++ encodeOutboundOuch msg (encodedSize msg)) := by
  refine ⟨fun e => h (by rw [e]; rfl), ?_⟩
  rw [encodeSoupSequenced] at h ⊢
  dsimp only at h ⊢
  split at h
  · exact absurd rfl h
  · next h0 =>
    rw [if_neg h0]
    cases writeHeader .sequencedData (encodedSize msg) room with
    | none => rfl
    | some header => exact if_pos (length_encodeOutboundOuch msg)

/-- What a call writes is the packet of the call. -/
theorem frames_of_produces {call : SoupCall} {bytes : List UInt8} (h : call.Produces bytes) : Frames call bytes := by
  obtain ⟨hok, hne, room, rfl⟩ := h
  cases call with
  | empty type =>
    refine frames_of_writeHeader type room [] ?_ hne rfl rfl
    show encodeSoupEmpty type room = (writeHeader type 0 room).elim [] (· ++ [])
    rw [encodeSoupEmpty]
    cases writeHeader type 0 room with
    | none => rfl
    | some header => exact (List.append_nil header).symm
  | loginRequest login =>
    exact frames_of_writeHeader .loginRequest room (loginRequestPayload login)
      (encodeSoupLoginRequest_eq_elim login room) hne (length_loginRequestPayload login)
      ⟨rfl, decodeSoupLoginRequest_payload hok⟩
  | loginAccepted accepted =>
    refine frames_of_writeHeader .loginAccepted room (loginAcceptedPayload accepted) ?_ hne
      (length_loginAcceptedPayload accepted) ⟨rfl, decodeSoupLoginAccepted_payload hok⟩
    show encodeSoupLoginAccepted accepted room = _
    rw [encodeSoupLoginAccepted]
    cases writeHeader .loginAccepted soupLoginAcceptedLen room with
    | none => rfl
    | some header => simp [loginAcceptedPayload]
  | loginRejected reason =>
    refine frames_of_writeHeader .loginRejected room [reason] ?_ hne rfl rfl
    show encodeSoupLoginRejected reason room = (writeHeader .loginRejected 1 room).elim [] (· ++ [reason])
    rw [encodeSoupLoginRejected]
    cases writeHeader .loginRejected 1 room <;> rfl
  | unsequenced msg =>
    obtain ⟨hnone, heq⟩ := encodeSoupUnsequenced_eq_elim hne
    refine frames_of_writeHeader .unsequencedData room _ heq hne (length_encodeInboundOuch msg)
      ⟨rfl, sameInbound_decode hnone (Nat.le_refl _), fun hr => ?_⟩
    exact (decodeInboundOuch_eq_iff.mpr (encodeInboundOuch_spec hr (Nat.le_refl _)).2.1).1
  | sequenced msg =>
    obtain ⟨hnone, heq⟩ := encodeSoupSequenced_eq_elim hne
    refine frames_of_writeHeader .sequencedData room _ heq hne (length_encodeOutboundOuch msg)
      ⟨rfl, sameOutbound_decode hnone (Nat.le_refl _), fun hr => ?_⟩
    exact (decodeOutboundOuch_eq_iff.mpr (encodeOutboundOuch_spec hr (Nat.le_refl _)).2.1).1

/-- The packets of some calls. -/
theorem exists_packets {calls : List (SoupCall × List UInt8)} (h : ∀ c ∈ calls, c.1.Produces c.2) :
    ∃ packets : List SoupPacket, List.Forall₂ (fun c packet => c.1.Carried packet) calls packets ∧
      calls.map (·.2) = packets.map frame ∧ ∀ packet ∈ packets, packet.payload.length + 1 ≤ 65535 := by
  induction calls with
  | nil => exact ⟨[], .nil, rfl, nofun⟩
  | cons c calls ih =>
    obtain ⟨hc, hcs⟩ := List.forall_mem_cons.mp h
    obtain ⟨packet, hbytes, hlen, hcarried⟩ := frames_of_produces hc
    obtain ⟨packets, hall, hmap, hlens⟩ := ih hcs
    refine ⟨packet :: packets, .cons hcarried hall, ?_, List.forall_mem_cons.mpr ⟨hlen, hlens⟩⟩
    rw [List.map_cons, List.map_cons, hbytes, hmap]

/-! ## Round trip -/

/-- The packets that were written one after the other are parsed again, from any part of
the stream those that are whole; and what was parsed does not depend on what follows. -/
theorem soup_stream_round_trip (calls : List (SoupCall × List UInt8)) (h : ∀ c ∈ calls, c.1.Produces c.2) :
    ∃ packets, List.Forall₂ (fun c packet => c.1.Carried packet) calls packets ∧
      parseSoupStream (calls.map (·.2)).flatten = (packets, []) ∧
      (∀ k call, calls[k]? = some call → ∀ cut, cut <+: call.2 → cut ≠ call.2 →
        parseSoupStream (((calls.take k).map (·.2)).flatten ++ cut) = (packets.take k, cut) ∧
          parseSoupPacket cut = .incomplete) ∧
      ∀ stream more, parseSoupPacket stream ≠ .incomplete →
        parseSoupPacket (stream ++ more) = parseSoupPacket stream := by
  obtain ⟨packets, hcarried, hmap, hlen⟩ := exists_packets h
  refine ⟨packets, hcarried, ?_, fun k call hk cut hcut hne => ?_, fun _ more hp => parseSoupPacket_append_of_ne hp more⟩
  · have hnil : parseSoupStream [] = ([], []) := parseSoupStream_incomplete rfl
    have hall := parseSoupStream_frames hlen []
    rw [hnil, List.append_nil, List.append_nil] at hall
    rw [hmap, hall]
  · -- the cut is in the packet after the first `k`
    obtain ⟨packet, hpacket, hframe⟩ : ∃ packet, packets[k]? = some packet ∧ frame packet = call.2 := by
      have hget : (packets.map frame)[k]? = some call.2 := by rw [← hmap, List.getElem?_map, hk]; rfl
      rwa [List.getElem?_map, Option.map_eq_some_iff] at hget
    rw [← hframe] at hcut hne
    have hcut := parseSoupPacket_cut (hlen packet (List.mem_of_getElem? hpacket)) hcut hne
    refine ⟨?_, hcut⟩
    rw [List.map_take, hmap, ← List.map_take, parseSoupStream_frames (fun p hp => hlen p (List.mem_of_mem_take hp)),
      parseSoupStream_incomplete hcut, List.append_nil]

/-- An Enter Order without optional fields. -/
def plainEnter : OuchEnterOrder where
  userRefNum := 1
  side := chr 'B'
  quantity := 100
  symbol := alpha 8 ['S', 'I', 'M']
  price := 10000
  timeInForce := chr '0'
  display := chr 'Y'
  capacity := chr 'A'
  intermarketSweepEligibility := chr 'N'
  crossType := chr 'N'
  clOrdId := alpha 14 []

/-- A heartbeat, a login and an order. -/
def sampleCalls : List (SoupCall × List UInt8) :=
  [(.empty .clientHeartbeat, encodeSoupEmpty .clientHeartbeat 3),
    (.loginAccepted ⟨Vector.replicate 10 0, 7⟩, encodeSoupLoginAccepted ⟨Vector.replicate 10 0, 7⟩ 64),
    (.unsequenced (.enterOrder plainEnter), encodeSoupUnsequenced (.enterOrder plainEnter) 64)]

theorem soup_stream_round_trip_sample : (∀ c ∈ sampleCalls, c.1.Produces c.2) ∧
    ∃ heartbeat login order, parseSoupStream (sampleCalls.map (·.2)).flatten = ([heartbeat, login, order], []) ∧
      decodeSoupLoginAccepted login.payload = some ⟨Vector.replicate 10 0, 7⟩ ∧
      decodeInboundOuch order.payload = .enterOrder plainEnter := by
  have hok : ∀ c ∈ sampleCalls, c.1.Produces c.2 := by
    refine List.forall_mem_cons.mpr ⟨⟨trivial, by decide, 3, rfl⟩, List.forall_mem_cons.mpr ⟨?_, ?_⟩⟩
    · exact ⟨by show 7 < 2 ^ 64; decide, by decide, 64, rfl⟩
    · exact List.forall_mem_singleton.mpr ⟨trivial, by decide, 64, rfl⟩
  have hregular : Regular plainEnter := regular_of_blank rfl (List.map_inj_left.mp rfl)
  obtain ⟨packets, hall, hparse, -⟩ := soup_stream_round_trip sampleCalls hok
  obtain _ | ⟨-, _ | ⟨hlogin, _ | ⟨horder, _ | _⟩⟩⟩ := hall
  exact ⟨hok, _, _, _, hparse, hlogin.2, horder.2.2 hregular⟩

/-- The same with a MinQty, but without its tag. -/
def untaggedEnter : OuchEnterOrder := { plainEnter with minQty := 5 }

/-- A MinQty without its tag is not on the wire: the order that is read back has none. -/
theorem untagged_field_lost :
    SoupCall.Produces (.unsequenced (.enterOrder untaggedEnter))
      (encodeSoupUnsequenced (.enterOrder untaggedEnter) 64) ∧
    ∃ packet, parseSoupStream (encodeSoupUnsequenced (.enterOrder untaggedEnter) 64) = ([packet], []) ∧
      decodeInboundOuch packet.payload = .enterOrder plainEnter ∧
      decodeInboundOuch packet.payload ≠ .enterOrder untaggedEnter := by
  have hparse : parseSoupPacket (encodeSoupUnsequenced (.enterOrder untaggedEnter) 64) =
      .packet ⟨SoupPacketType.unsequencedData.byte, encodeInboundOuch (.enterOrder plainEnter) 47⟩ 50 := by
    decide +kernel
  have hdecode : decodeInboundOuch (encodeInboundOuch (.enterOrder plainEnter) 47) = .enterOrder plainEnter := by
    decide +kernel
  refine ⟨⟨trivial, by decide, 64, rfl⟩, ⟨SoupPacketType.unsequencedData.byte, _⟩, ?_, hdecode,
    fun e => absurd (hdecode.symm.trans e) (by decide)⟩
  rw [parseSoupStream_packet hparse, parseSoupStream_incomplete (by decide +kernel)]
  rfl

end Exchange
