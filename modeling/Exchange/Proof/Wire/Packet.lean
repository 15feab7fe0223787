import Exchange.Proof.Wire.Itch
import Exchange.Proof.Wire.OuchFrames
import Exchange.Spec.Packet

/-!
# Packets are read as they are laid out

A header of the right length is the bytes of its fields, in one way (`exists_field`), and is read
as these fields (`readFields_append`). So `deserialize_packet` takes exactly the frames that are
laid out as `IsFrame` says (`deserializePacket_frame`, `deserializePacket_other`), and what
`build_packet` makes is among them.
-/

namespace Exchange

open Spec (ethernetBytes ipv4Bytes tcpBytes udpBytes IPv4Skipped TCPSkipped UDPSkipped Layout IsHeaders IsFrame LaysOut
  Carries)

/-! ## Fields -/

section Fields

variable {M : Type} {h : Hook M} {hooks : List (Hook M)} {m : M}

theorem readFields_append {b rest : List UInt8} (hb : b.length = h.size) :
    readFields (h :: hooks) m (b ++ rest) = readFields hooks (h.set m b) rest := by
  rw [readFields, if_neg (by rw [List.length_append, hb]; omega), List.take_left' hb, List.drop_left' hb]

variable {α : Type} [WireField α]

theorem readFields_skipped {n : ℕ} (h : WireField.size α = n) (v : α) (rest : List UInt8) :
    readFields (skipped M n :: hooks) m (field v ++ rest) = readFields hooks m rest :=
  readFields_append ((length_field v).trans h)

theorem readFields_field [LawfulWireField α] {get : M → α} {set : M → α → M} (v : α) (rest : List UInt8) :
    readFields (hook get set :: hooks) m (field v ++ rest) = readFields hooks (set m v) rest := by
  rw [readFields_append (length_field v)]
  exact congrArg (fun v => readFields hooks (set m v) rest) (LawfulWireField.ofBytes_bytes v)

/-- The first bytes are a value. -/
theorem exists_field (α : Type) [WireField α] [LawfulWireField α] {bytes : List UInt8} (n : ℕ)
    (h : bytes.length = WireField.size α + n) :
    ∃ (v : α) (rest : List UInt8), bytes = field v ++ rest ∧ rest.length = n := by
  refine ⟨WireField.ofBytes (bytes.take (WireField.size α)), bytes.drop (WireField.size α), ?_, ?_⟩
  · rw [field, LawfulWireField.bytes_ofBytes _ (by rw [List.length_take]; omega), List.take_append_drop]
  · rw [List.length_drop]
    omega

/-- And all of them, if there are no more. -/
theorem exists_last_field (α : Type) [WireField α] [LawfulWireField α] {bytes : List UInt8}
    (h : bytes.length = WireField.size α) : ∃ v : α, bytes = field v :=
  ⟨WireField.ofBytes bytes, (LawfulWireField.bytes_ofBytes bytes h).symm⟩

end Fields

/-! ## Headers -/

theorem deserializeHeader_eq {H : Type} {len : ℕ} {hooks : List (Hook H)} {blank h : H} {bytes r : List UInt8}
    (hlen : len ≤ bytes.length) (hread : readFields hooks blank bytes = some (h, r)) :
    deserializeHeader len hooks blank bytes = h := by
  rw [deserializeHeader, if_neg (by omega), hread]
  rfl

theorem length_ethernetBytes (h : EthernetHeader) : (ethernetBytes h).length = ethernetHeaderLen := by
  simp only [ethernetBytes, List.length_append, length_field]
  rfl

theorem deserializeEthernet_bytes (h : EthernetHeader) : deserializeEthernet (ethernetBytes h) = h := by
  refine deserializeHeader_eq (r := []) (length_ethernetBytes h).ge ?_
  rw [ethernetBytes, readFields_field, readFields_field, ← List.append_nil (field h.etherType), readFields_field]
  rfl

theorem exists_ethernetBytes (bytes : List UInt8) (h : bytes.length = ethernetHeaderLen) :
    ∃ eth, bytes = ethernetBytes eth := by
  obtain ⟨dst, bytes, rfl, h1⟩ := exists_field MacAddress 8 h
  obtain ⟨src, bytes, rfl, h2⟩ := exists_field MacAddress 2 h1
  obtain ⟨etherType, rfl⟩ := exists_last_field UInt16 h2
  exact ⟨⟨dst, src, etherType⟩, rfl⟩

theorem length_ipv4Bytes (h : IPv4Header) (s : IPv4Skipped) : (ipv4Bytes h s).length = ipv4HeaderLen := by
  simp only [ipv4Bytes, List.length_append, length_field]
  rfl

theorem deserializeIPv4_bytes (h : IPv4Header) (s : IPv4Skipped) : deserializeIPv4 (ipv4Bytes h s) = h := by
  refine deserializeHeader_eq (r := []) (length_ipv4Bytes h s).ge ?_
  rw [ipv4Bytes, readFields_field, readFields_skipped (n := 1) rfl, readFields_field,
    readFields_skipped (n := 4) rfl, readFields_field, readFields_field, readFields_skipped (n := 2) rfl,
    readFields_field, ← List.append_nil (field h.dstIp), readFields_field]
  rfl

theorem exists_ipv4Bytes (bytes : List UInt8) (h : bytes.length = ipv4HeaderLen) :
    ∃ ip skipped, bytes = ipv4Bytes ip skipped := by
  obtain ⟨versionIhl, bytes, rfl, h1⟩ := exists_field UInt8 19 h
  obtain ⟨typeOfService, bytes, rfl, h2⟩ := exists_field UInt8 18 h1
  obtain ⟨totalLength, bytes, rfl, h3⟩ := exists_field UInt16 16 h2
  obtain ⟨fragment, bytes, rfl, h4⟩ := exists_field (Vector UInt8 4) 12 h3
  obtain ⟨ttl, bytes, rfl, h5⟩ := exists_field UInt8 11 h4
  obtain ⟨protocol, bytes, rfl, h6⟩ := exists_field UInt8 10 h5
  obtain ⟨checksum, bytes, rfl, h7⟩ := exists_field UInt16 8 h6
  obtain ⟨srcIp, bytes, rfl, h8⟩ := exists_field UInt32 4 h7
  obtain ⟨dstIp, rfl⟩ := exists_last_field UInt32 h8
  exact ⟨⟨versionIhl, ttl, protocol, totalLength, srcIp, dstIp⟩, ⟨typeOfService, fragment, checksum⟩, rfl⟩

theorem length_tcpBytes (h : TCPHeader) (s : TCPSkipped) : (tcpBytes h s).length = tcpWireHeaderLen := by
  simp only [tcpBytes, List.length_append, length_field]
  rfl

theorem deserializeTCP_bytes (h : TCPHeader) (s : TCPSkipped) : deserializeTCP (tcpBytes h s) = h := by
  refine deserializeHeader_eq (r := field s.checksum ++ field s.urgent) (length_tcpBytes h s).ge ?_
  rw [tcpBytes, readFields_field, readFields_field, readFields_field, readFields_field,
    readFields_skipped (n := 1) rfl, readFields_field, readFields_field]
  rfl

theorem exists_tcpBytes (bytes : List UInt8) (h : bytes.length = tcpWireHeaderLen) :
    ∃ header skipped, bytes = tcpBytes header skipped := by
  obtain ⟨srcPort, bytes, rfl, h1⟩ := exists_field UInt16 18 h
  obtain ⟨dstPort, bytes, rfl, h2⟩ := exists_field UInt16 16 h1
  obtain ⟨seq, bytes, rfl, h3⟩ := exists_field UInt32 12 h2
  obtain ⟨ack, bytes, rfl, h4⟩ := exists_field UInt32 8 h3
  obtain ⟨dataOff, bytes, rfl, h5⟩ := exists_field UInt8 7 h4
  obtain ⟨flags, bytes, rfl, h6⟩ := exists_field UInt8 6 h5
  obtain ⟨window, bytes, rfl, h7⟩ := exists_field UInt16 4 h6
  obtain ⟨checksum, bytes, rfl, h8⟩ := exists_field UInt16 2 h7
  obtain ⟨urgent, rfl⟩ := exists_last_field UInt16 h8
  exact ⟨⟨srcPort, dstPort, seq, ack, flags, window⟩, ⟨dataOff, checksum, urgent⟩, rfl⟩

theorem length_udpBytes (h : UDPHeader) (s : UDPSkipped) : (udpBytes h s).length = udpWireHeaderLen := by
  simp only [udpBytes, List.length_append, length_field]
  rfl

theorem deserializeUDP_bytes (h : UDPHeader) (s : UDPSkipped) : deserializeUDP (udpBytes h s) = h := by
  refine deserializeHeader_eq (r := field s.length ++ field s.checksum) (length_udpBytes h s).ge ?_
  rw [udpBytes, readFields_field, readFields_field]
  rfl

theorem exists_udpBytes (bytes : List UInt8) (h : bytes.length = udpWireHeaderLen) :
    ∃ header skipped, bytes = udpBytes header skipped := by
  obtain ⟨srcPort, bytes, rfl, h1⟩ := exists_field UInt16 6 h
  obtain ⟨dstPort, bytes, rfl, h2⟩ := exists_field UInt16 4 h1
  obtain ⟨length, bytes, rfl, h3⟩ := exists_field UInt16 2 h2
  obtain ⟨checksum, rfl⟩ := exists_last_field UInt16 h3
  exact ⟨⟨srcPort, dstPort⟩, ⟨length, checksum⟩, rfl⟩

/-- The headers of a transport are the byte strings of their length, and are read as what they
are the bytes of. -/
class LawfulLayout (T : Type) [Transport T] [Layout T] : Prop where
  length_bytes : ∀ (t : T) s, (Layout.bytes t s).length = Transport.headerLen T
  deserialize_bytes : ∀ (t : T) s, Transport.deserialize (Layout.bytes t s) = t
  exists_bytes : ∀ bytes : List UInt8, bytes.length = Transport.headerLen T →
    ∃ (t : T) (s : Layout.Skipped T), bytes = Layout.bytes t s

instance : LawfulLayout TCPHeader := ⟨length_tcpBytes, deserializeTCP_bytes, exists_tcpBytes⟩

instance : LawfulLayout UDPHeader := ⟨length_udpBytes, deserializeUDP_bytes, exists_udpBytes⟩

/-! ## Frames -/

namespace PacketFactory

variable {T P : Type} [Transport T] [Payload P]

theorem deserializePacket_short {bytes : List UInt8} (h : bytes.length < headerLen T) :
    deserializePacket T P bytes = blank T P := by
  unfold deserializePacket
  dsimp only
  split_ifs with _ _ _ _ _ hend
  · rfl
  · rfl
  · rfl
  · rfl
  · rfl
  · rfl
  · -- the payload would begin behind the end
    omega

variable [Layout T] [LawfulLayout T]

/-- The three headers of a frame that is long enough. -/
theorem exists_headers {bytes : List UInt8} (h : headerLen T ≤ bytes.length) :
    ∃ eth ip skippedIp, ∃ (transport : T) (skipped : Layout.Skipped T) (rest : List UInt8),
      bytes = ethernetBytes eth ++ (ipv4Bytes ip skippedIp ++ (Layout.bytes transport skipped ++ rest)) := by
  unfold headerLen at h
  obtain ⟨eth, heth⟩ := exists_ethernetBytes (bytes.take ethernetHeaderLen) (by rw [List.length_take]; omega)
  obtain ⟨ip, skippedIp, hip⟩ := exists_ipv4Bytes ((bytes.drop ethernetHeaderLen).take ipv4HeaderLen)
    (by rw [List.length_take, List.length_drop]; omega)
  obtain ⟨transport, skipped, htransport⟩ := LawfulLayout.exists_bytes (T := T)
    (((bytes.drop ethernetHeaderLen).drop ipv4HeaderLen).take (Transport.headerLen T))
    (by rw [List.length_take, List.length_drop, List.length_drop]; omega)
  refine ⟨eth, ip, skippedIp, transport, skipped,
    ((bytes.drop ethernetHeaderLen).drop ipv4HeaderLen).drop (Transport.headerLen T), ?_⟩
  rw [← heth, ← hip, ← htransport, List.take_append_drop, List.take_append_drop, List.take_append_drop]

/-- What is read of them. -/
theorem deserializePacket_headers (eth : EthernetHeader) (ip : IPv4Header) (skippedIp : IPv4Skipped) (transport : T)
    (skipped : Layout.Skipped T) (rest : List UInt8) :
    deserializePacket T P (ethernetBytes eth ++ (ipv4Bytes ip skippedIp ++ (Layout.bytes transport skipped ++ rest))) =
      if eth.etherType = etherTypeIPv4 ∧ ip.versionIhl &&& 0x0F = 5 ∧ ip.protocol = Transport.protocol T ∧
          ipv4HeaderLen + Transport.headerLen T ≤ ip.totalLength.toNat ∧
          ip.totalLength.toNat ≤ ipv4HeaderLen + Transport.headerLen T + rest.length then
        ⟨⟨eth.srcMac, ip.srcIp⟩, ⟨eth.dstMac, ip.dstIp⟩, transport,
          Payload.decode (rest.take (ip.totalLength.toNat - (ipv4HeaderLen + Transport.headerLen T)))⟩
      else blank T P := by
  have he := length_ethernetBytes eth
  have hi := length_ipv4Bytes ip skippedIp
  have ht := LawfulLayout.length_bytes transport skipped
  generalize hbytes : ethernetBytes eth ++ (ipv4Bytes ip skippedIp ++ (Layout.bytes transport skipped ++ rest)) = bytes
  have hlen : bytes.length = headerLen T + rest.length := by
    rw [← hbytes, List.length_append, List.length_append, List.length_append, he, hi, ht, headerLen]
    omega
  have heth : deserializeEthernet (bytes.take ethernetHeaderLen) = eth := by
    rw [← hbytes, List.take_left' he, deserializeEthernet_bytes]
  have hdrop : bytes.drop ethernetHeaderLen = ipv4Bytes ip skippedIp ++ (Layout.bytes transport skipped ++ rest) := by
    rw [← hbytes, List.drop_left' he]
  have hip : deserializeIPv4 ((bytes.drop ethernetHeaderLen).take ipv4HeaderLen) = ip := by
    rw [hdrop, List.take_left' hi, deserializeIPv4_bytes]
  have hdrop' : bytes.drop (ethernetHeaderLen + ipv4HeaderLen) = Layout.bytes transport skipped ++ rest := by
    rw [← List.drop_drop, hdrop, List.drop_left' hi]
  have htransport : Transport.deserialize
      ((bytes.drop (ethernetHeaderLen + ipv4HeaderLen)).take (Transport.headerLen T)) = transport := by
    rw [hdrop', List.take_left' ht, LawfulLayout.deserialize_bytes]
  have hrest : bytes.drop (headerLen T) = rest := by
    rw [headerLen, ← List.drop_drop, hdrop', List.drop_left' ht]
  unfold deserializePacket
  dsimp only
  rw [heth, hip, htransport, hrest, hlen]
  have hfirst : ¬ headerLen T + rest.length < ethernetHeaderLen + ipv4HeaderLen := by
    unfold headerLen
    omega
  have hends : ethernetHeaderLen + ip.totalLength.toNat < headerLen T ∨
      ethernetHeaderLen + ip.totalLength.toNat > headerLen T + rest.length ↔
      ¬ (ipv4HeaderLen + Transport.headerLen T ≤ ip.totalLength.toNat ∧
        ip.totalLength.toNat ≤ ipv4HeaderLen + Transport.headerLen T + rest.length) := by
    unfold headerLen
    omega
  have htake : ethernetHeaderLen + ip.totalLength.toNat - headerLen T =
      ip.totalLength.toNat - (ipv4HeaderLen + Transport.headerLen T) := by
    unfold headerLen
    omega
  rw [if_neg (by omega), if_neg hfirst, htake]
  simp only [hends, ne_eq, ite_not, ite_and]

theorem deserializePacket_frame {src dst : PacketEndpoint} {transport : T} {payload bytes : List UInt8}
    (h : IsFrame src dst transport payload bytes) :
    deserializePacket T P bytes = ⟨src, dst, transport, Payload.decode payload⟩ := by
  obtain ⟨_, padding, ⟨ip, skippedIp, skipped, rfl, hihl, hproto, hsrc, hdst, hlen⟩, rfl⟩ := h
  rw [List.append_assoc, List.append_assoc, deserializePacket_headers, if_pos, hsrc, hdst, hlen, Nat.add_sub_cancel_left,
    List.take_left]
  refine ⟨rfl, hihl, hproto, ?_, ?_⟩
  · omega
  · rw [List.length_append]
    omega

/-- A frame that is not laid out as it should be leaves the result as it was made. -/
theorem deserializePacket_other {bytes : List UInt8}
    (hframe : ∀ src dst (transport : T) payload, ¬ IsFrame src dst transport payload bytes) :
    deserializePacket T P bytes = blank T P := by
  by_cases hlen : bytes.length < headerLen T
  · exact deserializePacket_short hlen
  · obtain ⟨eth, ip, skippedIp, transport, skipped, rest, rfl⟩ := exists_headers (T := T) (Nat.le_of_not_lt hlen)
    rw [deserializePacket_headers]
    refine if_neg fun hok => ?_
    obtain ⟨htype, hihl, hproto, hle, hend⟩ := hok
    obtain ⟨dstMac, srcMac, etherType⟩ := eth
    obtain rfl : etherType = etherTypeIPv4 := htype
    refine hframe ⟨srcMac, ip.srcIp⟩ ⟨dstMac, ip.dstIp⟩ transport
      (rest.take (ip.totalLength.toNat - (ipv4HeaderLen + Transport.headerLen T))) ⟨_,
      rest.drop (ip.totalLength.toNat - (ipv4HeaderLen + Transport.headerLen T)),
      ⟨ip, skippedIp, skipped, rfl, hihl, hproto, rfl, rfl, ?_⟩, ?_⟩
    · rw [List.length_take]
      omega
    · rw [List.take_append_drop, List.append_assoc, List.append_assoc]

end PacketFactory

/-! ## Building -/

/-- A payload fills a buffer of its size, and is read back from it. -/
class LawfulPayload (P : Type) [Payload P] [Carries P] : Prop where
  length_encode : ∀ p : P, (Payload.encode p (Payload.encodedSize p)).length = Payload.encodedSize p
  decode_encode : ∀ p : P, Carries.Carried p → Payload.decode (Payload.encode p (Payload.encodedSize p)) = p

instance : LawfulPayload RawPayload where
  length_encode p := congrArg List.length (List.take_length (l := p.bytes))
  decode_encode p _ := congrArg RawPayload.mk (List.take_length (l := p.bytes))

instance : LawfulPayload OuchInboundFrame where
  length_encode := length_encodeInboundOuch
  decode_encode p hp := by
    rcases hp with rfl | hr
    · rfl
    · exact (decodeInboundOuch_eq_iff.mpr (encodeInboundOuch_spec hr (Nat.le_refl _)).2.1).1

instance : LawfulPayload OuchOutboundFrame where
  length_encode := length_encodeOutboundOuch
  decode_encode p hp := by
    rcases hp with rfl | hr
    · rfl
    · exact (decodeOutboundOuch_eq_iff.mpr (encodeOutboundOuch_spec hr (Nat.le_refl _)).2.1).1

instance : LawfulPayload ItchFrame where
  length_encode _ := length_encodeItch (Nat.le_refl _)
  decode_encode p hp := (decodeItch_encodeItch p (Nat.le_refl _)).trans (frameLow48_eq hp)

namespace PacketFactory

variable {T P : Type} [Transport T] [Payload P] [Carries P] [LawfulPayload P]

/-- A payload that a `uint16_t` can count is appended if there is room for it. -/
theorem appendPayload_eq {room : ℕ} {payload : P} (h : Payload.encodedSize payload < 2 ^ 16) :
    appendPayload room payload = some (if Payload.encodedSize payload ≤ room then
      some (Payload.encode payload (Payload.encodedSize payload)) else none) := by
  have hlen := LawfulPayload.length_encode payload
  unfold appendPayload
  dsimp only
  rw [Nat.mod_eq_of_lt h, if_neg (Nat.lt_irrefl _), if_pos hlen]
  by_cases hzero : Payload.encodedSize payload = 0
  · rw [if_pos hzero, if_pos (by omega), List.eq_nil_of_length_eq_zero (hlen.trans hzero)]
  · rw [if_neg hzero]
    by_cases hroom : Payload.encodedSize payload ≤ room
    · rw [if_neg (by omega), if_pos hroom]
    · rw [if_pos (by omega), if_neg hroom]

theorem length_of_isHeaders [Layout T] [LawfulLayout T] {src dst : PacketEndpoint} {transport : T} {n : ℕ}
    {bytes : List UInt8} (h : IsHeaders src dst transport n bytes) : bytes.length = headerLen T := by
  obtain ⟨ip, skippedIp, skipped, rfl, -⟩ := h
  rw [List.length_append, List.length_append, length_ethernetBytes, length_ipv4Bytes, LawfulLayout.length_bytes, headerLen,
    Nat.add_assoc]

variable {dpdk : Dpdk T} {size : UInt16} {src dst : PacketEndpoint} {transport : T} {payload : P}

theorem buildPacket_eq (h : Payload.encodedSize payload < 2 ^ 16) :
    buildPacket dpdk (some size) src dst transport payload =
      some (if Payload.encodedSize payload ≤ size.toNat - headerLen T then
        some (dpdk.headers src dst transport (Payload.encode payload (Payload.encodedSize payload)) ++
          Payload.encode payload (Payload.encodedSize payload)) else none) := by
  have hbuild : buildPacket dpdk (some size) src dst transport payload =
      (appendPayload (size.toNat - headerLen T) payload).bind fun written =>
        some (written.map fun bytes => dpdk.headers src dst transport bytes ++ bytes) := rfl
  rw [hbuild, appendPayload_eq h, Option.bind_some]
  split_ifs <;> rfl

/-- With room for it, a packet is built, and padded it is a frame. -/
theorem buildPacket_frame [Layout T] [LawfulLayout T] (hdpdk : LaysOut dpdk)
    (hroom : headerLen T + Payload.encodedSize payload ≤ size.toNat) :
    ∃ packet, buildPacket dpdk (some size) src dst transport payload = some (some packet) ∧
      packet.length = headerLen T + Payload.encodedSize payload ∧
      ∀ padding, IsFrame src dst transport (Payload.encode payload (Payload.encodedSize payload)) (packet ++ padding) := by
  have hlen := LawfulPayload.length_encode payload
  have hlt : ipv4HeaderLen + Transport.headerLen T + Payload.encodedSize payload < 2 ^ 16 := by
    have := size.toNat_lt
    unfold headerLen at hroom
    omega
  have hlaid := hdpdk src dst transport (Payload.encode payload (Payload.encodedSize payload)) (by rwa [hlen])
  rw [buildPacket_eq (by omega), if_pos (by omega)]
  refine ⟨_, rfl, by rw [List.length_append, length_of_isHeaders hlaid, hlen], fun padding => ?_⟩
  exact ⟨_, padding, hlaid, List.append_assoc ..⟩

end PacketFactory

open PacketFactory

/-- `deserialize_packet` takes exactly the frames that are laid out as they should be, over TCP and
over UDP, and of those the payload up to the end that IPv4 gives. Any other leaves the result as it
was made. -/
theorem packets_read_as_frames (P : Type) [Payload P] (bytes : List UInt8) :
    (∀ src dst (tcp : TCPHeader) payload, IsFrame src dst tcp payload bytes →
      deserializePacket TCPHeader P bytes = ⟨src, dst, tcp, Payload.decode payload⟩) ∧
    ((∀ src dst (tcp : TCPHeader) payload, ¬ IsFrame src dst tcp payload bytes) →
      deserializePacket TCPHeader P bytes = blank TCPHeader P) ∧
    (∀ src dst (udp : UDPHeader) payload, IsFrame src dst udp payload bytes →
      deserializePacket UDPHeader P bytes = ⟨src, dst, udp, Payload.decode payload⟩) ∧
    ((∀ src dst (udp : UDPHeader) payload, ¬ IsFrame src dst udp payload bytes) →
      deserializePacket UDPHeader P bytes = blank UDPHeader P) :=
  ⟨fun _ _ _ _ => deserializePacket_frame, deserializePacket_other, fun _ _ _ _ => deserializePacket_frame,
    deserializePacket_other⟩

/-- For a payload whose size has 16 bits and a pool whose buffers have room for the headers: a packet
is built when the buffer has room for the headers and the payload, and what is read of it, whatever
the frame was padded with, is who sent it to whom, the transport header and the payload, if that is
all on the wire (`Carried`). Without room there is no packet. -/
theorem packet_round_trip {T P : Type} [Transport T] [Layout T] [LawfulLayout T] [Payload P] [Carries P]
    [LawfulPayload P] (dpdk : Dpdk T) (hdpdk : LaysOut dpdk) (size : UInt16) (src dst : PacketEndpoint) (transport : T)
    (payload : P) (hsize : Payload.encodedSize payload < 2 ^ 16) (hheaders : headerLen T ≤ size.toNat) :
    (headerLen T + Payload.encodedSize payload ≤ size.toNat → ∃ packet,
      buildPacket dpdk (some size) src dst transport payload = some (some packet) ∧
      packet.length = headerLen T + Payload.encodedSize payload ∧
      ∀ padding, (deserializePacket T P (packet ++ padding)).src = src ∧
        (deserializePacket T P (packet ++ padding)).dst = dst ∧
        (deserializePacket T P (packet ++ padding)).transport = transport ∧
        (Carries.Carried payload → (deserializePacket T P (packet ++ padding)).payload = payload)) ∧
    (¬ headerLen T + Payload.encodedSize payload ≤ size.toNat →
      buildPacket dpdk (some size) src dst transport payload = some none) := by
  refine ⟨fun hroom => ?_, fun hroom => by rw [buildPacket_eq hsize, if_neg (by omega)]⟩
  obtain ⟨packet, hbuild, hlen, hframe⟩ := buildPacket_frame hdpdk hroom
  refine ⟨packet, hbuild, hlen, fun padding => ?_⟩
  rw [deserializePacket_frame (hframe padding)]
  exact ⟨rfl, rfl, rfl, LawfulPayload.decode_encode payload⟩

/-- UDP headers without checksums. -/
def plainUdp : Dpdk UDPHeader where
  headers src dst udp payload :=
    ethernetBytes ⟨dst.mac, src.mac, etherTypeIPv4⟩ ++
      (ipv4Bytes ⟨0x45, 64, Transport.protocol UDPHeader,
          UInt16.ofNat (ipv4HeaderLen + udpWireHeaderLen + payload.length), src.ip, dst.ip⟩
        ⟨0, Vector.replicate 4 0, 0⟩ ++ udpBytes udp ⟨UInt16.ofNat (udpWireHeaderLen + payload.length), 0⟩)

theorem laysOut_plainUdp : LaysOut plainUdp := fun _ _ _ _ hlt =>
  ⟨_, _, _, rfl, (by decide : (0x45 : UInt8) &&& 0x0F = 5), rfl, rfl, rfl, UInt16.toNat_ofNat_of_lt' hlt⟩

/-- The deletion of order 5 at one second past midnight. -/
def sampleDelete : ItchFrame := .orderDelete ⟨⟨1, 0, 1000000000⟩, 5⟩

theorem packet_round_trip_udp : LaysOut plainUdp ∧ ∃ packet,
    buildPacket plainUdp (some 64) ⟨Vector.replicate 6 1, 2⟩ ⟨Vector.replicate 6 3, 4⟩ ⟨5, 6⟩ sampleDelete =
      some (some packet) ∧ packet.length = 61 ∧
    (deserializePacket UDPHeader ItchFrame (packet ++ [0, 0, 0])).payload = sampleDelete := by
  obtain ⟨packet, hbuild, hlen, hread⟩ := (packet_round_trip plainUdp laysOut_plainUdp 64 ⟨Vector.replicate 6 1, 2⟩
    ⟨Vector.replicate 6 3, 4⟩ ⟨5, 6⟩ sampleDelete (by decide) (by decide)).1 (by decide)
  exact ⟨laysOut_plainUdp, packet, hbuild, hlen, (hread [0, 0, 0]).2.2.2 (by decide : Spec.timestamp sampleDelete < 2 ^ 48)⟩

end Exchange
