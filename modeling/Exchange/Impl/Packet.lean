import Exchange.Impl.ItchCodec

/-!
# Packets

`network_proto.hpp` and `packet_factory.hpp`: the Ethernet, IPv4, TCP and UDP headers of a
frame, and the OUCH or ITCH message, or the piece of a stream, behind them.

A `dpdk::packet` is its bytes. The headers are written by `dpdk_lib`, which is not part of the
repository, so `build_packet` has it as a parameter. A copy that goes past the end of what was
appended is `none`.
-/

namespace Exchange

/-! ## Headers -/

abbrev MacAddress := Vector UInt8 6

structure EthernetHeader where
  dstMac : MacAddress := Vector.replicate 6 0
  srcMac : MacAddress := Vector.replicate 6 0
  etherType : UInt16 := 0

structure IPv4Header where
  versionIhl : UInt8 := 0
  ttl : UInt8 := 0
  protocol : UInt8 := 0
  totalLength : UInt16 := 0
  srcIp : UInt32 := 0
  dstIp : UInt32 := 0

structure TCPHeader where
  srcPort : UInt16 := 0
  dstPort : UInt16 := 0
  seq : UInt32 := 0
  ack : UInt32 := 0
  flags : UInt8 := 0
  window : UInt16 := 65535
  deriving DecidableEq

structure UDPHeader where
  srcPort : UInt16 := 0
  dstPort : UInt16 := 0
  deriving DecidableEq

/-- `WireReader::take`: `n` bytes that are not looked at. -/
def skipped (M : Type) (n : ℕ) : Hook M where
  size := n
  get _ := List.replicate n 0
  set m _ := m
  length_get _ := List.length_replicate

/-- A header of `len` bytes; `blank` if there are fewer. -/
def deserializeHeader {H : Type} (len : ℕ) (hooks : List (Hook H)) (blank : H) (bytes : List UInt8) : H :=
  if bytes.length < len then blank else (readFields hooks blank bytes).elim blank Prod.fst

/-- `kEthernetHeaderLen`. -/
def ethernetHeaderLen : ℕ := 14

/-- `deserialize_ethernet`. -/
def deserializeEthernet : List UInt8 → EthernetHeader :=
  deserializeHeader ethernetHeaderLen
    [hook (·.dstMac) ({ · with dstMac := · }), hook (·.srcMac) ({ · with srcMac := · }),
      hook (·.etherType) ({ · with etherType := · })] {}

/-- `kIPv4HeaderLen`. -/
def ipv4HeaderLen : ℕ := 20

/-- `deserialize_ipv4`. -/
def deserializeIPv4 : List UInt8 → IPv4Header :=
  deserializeHeader ipv4HeaderLen
    [hook (·.versionIhl) ({ · with versionIhl := · }), skipped _ 1, hook (·.totalLength) ({ · with totalLength := · }),
      skipped _ 4, hook (·.ttl) ({ · with ttl := · }), hook (·.protocol) ({ · with protocol := · }), skipped _ 2,
      hook (·.srcIp) ({ · with srcIp := · }), hook (·.dstIp) ({ · with dstIp := · })] {}

/-- `kTcpWireHeaderLen`. -/
def tcpWireHeaderLen : ℕ := 20

/-- `deserialize_tcp`. -/
def deserializeTCP : List UInt8 → TCPHeader :=
  deserializeHeader tcpWireHeaderLen
    [hook (·.srcPort) ({ · with srcPort := · }), hook (·.dstPort) ({ · with dstPort := · }),
      hook (·.seq) ({ · with seq := · }), hook (·.ack) ({ · with ack := · }), skipped _ 1,
      hook (·.flags) ({ · with flags := · }), hook (·.window) ({ · with window := · })] {}

/-- `kUdpWireHeaderLen`. -/
def udpWireHeaderLen : ℕ := 8

/-- `deserialize_udp`. -/
def deserializeUDP : List UInt8 → UDPHeader :=
  deserializeHeader udpWireHeaderLen
    [hook (·.srcPort) ({ · with srcPort := · }), hook (·.dstPort) ({ · with dstPort := · })] {}

/-! ## Transports and payloads -/

/-- What `packet_factory` asks of its `transport_type`. -/
class Transport (T : Type) where
  /-- `next_proto` and `expected_proto`. -/
  protocol : UInt8
  /-- `transport_hdr_len`. -/
  headerLen : ℕ
  deserialize : List UInt8 → T
  /-- `transport_type{}`. -/
  blank : T

/-- `IPPROTO_TCP`, and the size of `rte_tcp_hdr`. -/
instance : Transport TCPHeader := ⟨6, 20, deserializeTCP, {}⟩

/-- `IPPROTO_UDP`, and the size of `rte_udp_hdr`. -/
instance : Transport UDPHeader := ⟨17, 8, deserializeUDP, {}⟩

structure RawPayload where
  bytes : List UInt8
  deriving DecidableEq

/-- What `packet_factory` asks of its `payload_type`: `encode` has the bytes that go into a
buffer of the given size. -/
class Payload (P : Type) where
  encodedSize : P → ℕ
  encode : P → ℕ → List UInt8
  decode : List UInt8 → P
  /-- `payload_type{}`. -/
  blank : P

instance : Payload RawPayload := ⟨fun p => p.bytes.length, fun p room => p.bytes.take room, RawPayload.mk, ⟨[]⟩⟩

instance : Payload OuchInboundFrame :=
  ⟨OuchInboundFrame.encodedSize, encodeInboundOuch, decodeInboundOuch, .none⟩

instance : Payload OuchOutboundFrame := ⟨encodedSize, encodeOutboundOuch, decodeOutboundOuch, .none⟩

instance : Payload ItchFrame := ⟨ItchFrame.encodedSize, encodeItch, decodeItch, .none⟩

structure PacketEndpoint where
  mac : MacAddress := Vector.replicate 6 0
  ip : UInt32 := 0
  deriving DecidableEq

/-- `dpdk_lib`: the headers that `build_ethernet_header`, `build_ipv4_header`, `build_tcp_header` or
`build_udp_header` and the functions that finalize them leave in front of a payload. -/
structure Dpdk (T : Type) where
  headers : PacketEndpoint → PacketEndpoint → T → List UInt8 → List UInt8

structure DeserializedPacket (T P : Type) where
  src : PacketEndpoint := {}
  dst : PacketEndpoint := {}
  transport : T
  payload : P

namespace PacketFactory

variable {T P : Type} [Transport T] [Payload P]

/-- `DeserializedPacket{}`. -/
def blank (T P : Type) [Transport T] [Payload P] : DeserializedPacket T P where
  transport := Transport.blank
  payload := Payload.blank

/-- `RTE_ETHER_TYPE_IPV4`. -/
def etherTypeIPv4 : UInt16 := 0x0800

/-- `header_len`. -/
def headerLen (T : Type) [Transport T] : ℕ := ethernetHeaderLen + ipv4HeaderLen + Transport.headerLen T

/-- `packet_factory::deserialize_packet`. -/
def deserializePacket (T P : Type) [Transport T] [Payload P] (packet : List UInt8) : DeserializedPacket T P :=
  let result := blank T P
  if packet.length < ethernetHeaderLen then result
  else
    let eth := deserializeEthernet (packet.take ethernetHeaderLen)
    if eth.etherType ≠ etherTypeIPv4 then result
    else if packet.length < ethernetHeaderLen + ipv4HeaderLen then result
    else
      let ip := deserializeIPv4 ((packet.drop ethernetHeaderLen).take ipv4HeaderLen)
      if ip.versionIhl &&& 0x0F ≠ 5 then result
      else if ip.protocol ≠ Transport.protocol T then result
      else
        let ipEnd := ethernetHeaderLen + ip.totalLength.toNat
        if ipEnd < headerLen T ∨ ipEnd > packet.length then result
        else
          { src := ⟨eth.srcMac, ip.srcIp⟩
            dst := ⟨eth.dstMac, ip.dstIp⟩
            transport := Transport.deserialize
              ((packet.drop (ethernetHeaderLen + ipv4HeaderLen)).take (Transport.headerLen T))
            payload := Payload.decode ((packet.drop (headerLen T)).take (ipEnd - headerLen T)) }

/-- `packet_factory::append_payload`: what is appended, with `room` bytes left in the packet's
buffer. The inner `none` is false. -/
def appendPayload (room : ℕ) (payload : P) : Option (Option (List UInt8)) :=
  let len := Payload.encodedSize payload
  if len = 0 then some (some [])
  -- `append` takes a `uint16_t`
  else if room < len % 2 ^ 16 then some none
  else if len % 2 ^ 16 < len then none
  else
    let written := Payload.encode payload len
    some (if written.length = len then some written else none)

/-- `packet_factory::build_packet`, with a buffer of `pool` bytes if the pool has one; the inner
`none` is a packet that is not there. -/
def buildPacket (dpdk : Dpdk T) (pool : Option UInt16) (src dst : PacketEndpoint) (transport : T) (payload : P) :
    Option (Option (List UInt8)) :=
  match pool with
  | none => some none
  | some size => do
    let written ← appendPayload (size.toNat - headerLen T) payload
    some (written.map fun bytes => dpdk.headers src dst transport bytes ++ bytes)

end PacketFactory

end Exchange
