import Exchange.Impl.Packet
import Exchange.Spec.Wire

/-!
# Frames

The layout of a frame: the headers with every field they have on the wire, those that the
exchange skips included, then the payload as far as IPv4's `total_length` goes, and then
whatever Ethernet pads the frame with.
-/

namespace Exchange.Spec

/-- `rte_ether_hdr`. -/
def ethernetBytes (h : EthernetHeader) : List UInt8 := field h.dstMac ++ (field h.srcMac ++ field h.etherType)

/-- The fields of `rte_ipv4_hdr` that are skipped. -/
structure IPv4Skipped where
  typeOfService : UInt8
  /-- Identification, flags and fragment offset. -/
  fragment : Vector UInt8 4
  checksum : UInt16

/-- `rte_ipv4_hdr`, without options. -/
def ipv4Bytes (h : IPv4Header) (s : IPv4Skipped) : List UInt8 :=
  field h.versionIhl ++ (field s.typeOfService ++ (field h.totalLength ++ (field s.fragment ++ (field h.ttl ++
    (field h.protocol ++ (field s.checksum ++ (field h.srcIp ++ field h.dstIp)))))))

/-- The layout of a transport header, with the fields that are skipped. -/
class Layout (T : Type) [Transport T] where
  Skipped : Type
  bytes : T → Skipped → List UInt8

/-- The fields of `rte_tcp_hdr` that are skipped. -/
structure TCPSkipped where
  dataOff : UInt8
  checksum : UInt16
  urgent : UInt16

/-- `rte_tcp_hdr`. -/
def tcpBytes (h : TCPHeader) (s : TCPSkipped) : List UInt8 :=
  field h.srcPort ++ (field h.dstPort ++ (field h.seq ++ (field h.ack ++ (field s.dataOff ++ (field h.flags ++
    (field h.window ++ (field s.checksum ++ field s.urgent)))))))

/-- The fields of `rte_udp_hdr` that are skipped. -/
structure UDPSkipped where
  length : UInt16
  checksum : UInt16

/-- `rte_udp_hdr`. -/
def udpBytes (h : UDPHeader) (s : UDPSkipped) : List UInt8 :=
  field h.srcPort ++ (field h.dstPort ++ (field s.length ++ field s.checksum))

instance : Layout TCPHeader := ⟨TCPSkipped, tcpBytes⟩

instance : Layout UDPHeader := ⟨UDPSkipped, udpBytes⟩

variable {T : Type} [Transport T] [Layout T]

/-- The headers of a packet with `n` bytes of payload, from `src` to `dst`. -/
def IsHeaders (src dst : PacketEndpoint) (transport : T) (n : ℕ) (bytes : List UInt8) : Prop :=
  ∃ (ip : IPv4Header) (skippedIp : IPv4Skipped) (skipped : Layout.Skipped T),
    bytes = ethernetBytes ⟨dst.mac, src.mac, PacketFactory.etherTypeIPv4⟩ ++
      (ipv4Bytes ip skippedIp ++ Layout.bytes transport skipped) ∧
    -- no options
    ip.versionIhl &&& 0x0F = 5 ∧ ip.protocol = Transport.protocol T ∧ ip.srcIp = src.ip ∧ ip.dstIp = dst.ip ∧
    ip.totalLength.toNat = ipv4HeaderLen + Transport.headerLen T + n

/-- A frame with this payload, and padding. -/
def IsFrame (src dst : PacketEndpoint) (transport : T) (payload bytes : List UInt8) : Prop :=
  ∃ headers padding, IsHeaders src dst transport payload.length headers ∧ bytes = headers ++ (payload ++ padding)

/-- What `network_proto.hpp` says of the headers that `dpdk_lib` writes, as long as the length of the
packet is a `uint16_t`. -/
def LaysOut (dpdk : Dpdk T) : Prop :=
  ∀ src dst transport (payload : List UInt8), ipv4HeaderLen + Transport.headerLen T + payload.length < 2 ^ 16 →
    IsHeaders src dst transport payload.length (dpdk.headers src dst transport payload)

/-- The payloads that a packet carries whole: NONE, and messages whose fields are all on the wire. -/
class Carries (P : Type) where
  Carried : P → Prop

instance : Carries RawPayload := ⟨fun _ => True⟩

instance : Carries OuchInboundFrame := ⟨fun frame => frame = .none ∨ ofInbound (fun _ _ _ => Regular) frame⟩

instance : Carries OuchOutboundFrame := ⟨fun frame => frame = .none ∨ ofOutbound (fun _ _ _ => Regular) frame⟩

instance : Carries ItchFrame := ⟨fun frame => timestamp frame < 2 ^ 48⟩

/-! ## Market data -/

/-- The fields of a message are within their widths. -/
def FitsWire : ItchBody → Prop
  | .addOrder ref _ shares _ price => ref < 2 ^ 64 ∧ shares < 2 ^ 32 ∧ price < 2 ^ 32
  | .orderExecuted ref shares matchNumber => ref < 2 ^ 64 ∧ shares < 2 ^ 32 ∧ matchNumber < 2 ^ 64
  | .orderExecutedWithPrice ref shares matchNumber _ price =>
    ref < 2 ^ 64 ∧ shares < 2 ^ 32 ∧ matchNumber < 2 ^ 64 ∧ price < 2 ^ 32
  | .orderCancel ref shares => ref < 2 ^ 64 ∧ shares < 2 ^ 32
  | .orderDelete ref => ref < 2 ^ 64
  | .orderReplace original new shares price => original < 2 ^ 64 ∧ new < 2 ^ 64 ∧ shares < 2 ^ 32 ∧ price < 2 ^ 32
  | .trade ref _ shares _ price matchNumber =>
    ref < 2 ^ 64 ∧ shares < 2 ^ 32 ∧ price < 2 ^ 32 ∧ matchNumber < 2 ^ 64

end Exchange.Spec
