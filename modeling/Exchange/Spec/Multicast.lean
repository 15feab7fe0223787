import Exchange.Spec.Feed
import Exchange.Spec.Packet

/-!
# The feed in packets

Market data as `packet_factory<UDPHeader, ITCH>` carries it: a message of the book at the widths of
its fields, in a packet that Ethernet may have padded, and what a subscriber makes of the packets.
The thread that is to take the messages off `market_data_ring_` is not written yet, so nothing is
said of when they are sent.
-/

namespace Exchange

/-- `ItchHeader` at its widths. -/
def ItchHeader.wire (h : ItchHeader) : ItchWireHeader where
  stockLocate := UInt16.ofNat h.stockLocate
  trackingNumber := UInt16.ofNat h.trackingNumber
  timestamp := UInt64.ofNat h.timestamp

/-- The message at the widths of its fields. -/
def ITCH.frame (m : ITCH) : ItchFrame :=
  match m.body with
  | .addOrder ref side shares stock price =>
    .addOrder ⟨m.header.wire, UInt64.ofNat ref, side, UInt32.ofNat shares, stock, UInt32.ofNat price⟩
  | .orderExecuted ref shares matchNumber =>
    .orderExecuted ⟨m.header.wire, UInt64.ofNat ref, UInt32.ofNat shares, UInt64.ofNat matchNumber⟩
  | .orderExecutedWithPrice ref shares matchNumber printable price =>
    .orderExecutedWithPrice
      ⟨m.header.wire, UInt64.ofNat ref, UInt32.ofNat shares, UInt64.ofNat matchNumber, printable, UInt32.ofNat price⟩
  | .orderCancel ref shares => .orderCancel ⟨m.header.wire, UInt64.ofNat ref, UInt32.ofNat shares⟩
  | .orderDelete ref => .orderDelete ⟨m.header.wire, UInt64.ofNat ref⟩
  | .orderReplace original new shares price =>
    .orderReplace
      ⟨m.header.wire, UInt64.ofNat original, UInt64.ofNat new, UInt32.ofNat shares, UInt32.ofNat price⟩
  | .trade ref side shares stock price matchNumber =>
    .trade ⟨m.header.wire, UInt64.ofNat ref, side, UInt32.ofNat shares, stock, UInt32.ofNat price,
      UInt64.ofNat matchNumber⟩

def ItchWireHeader.header (h : ItchWireHeader) : ItchHeader where
  stockLocate := h.stockLocate.toNat
  trackingNumber := h.trackingNumber.toNat
  timestamp := h.timestamp.toNat

/-- The message that a frame is. -/
def ItchFrame.itch : ItchFrame → Option ITCH
  | .none => Option.none
  | .addOrder m => some ⟨m.header.header,
      .addOrder m.orderReferenceNumber.toNat m.buySellIndicator m.shares.toNat m.stock m.price.toNat⟩
  | .orderExecuted m => some ⟨m.header.header,
      .orderExecuted m.orderReferenceNumber.toNat m.executedShares.toNat m.matchNumber.toNat⟩
  | .orderExecutedWithPrice m => some ⟨m.header.header,
      .orderExecutedWithPrice m.orderReferenceNumber.toNat m.executedShares.toNat m.matchNumber.toNat m.printable
        m.executionPrice.toNat⟩
  | .orderCancel m => some ⟨m.header.header, .orderCancel m.orderReferenceNumber.toNat m.canceledShares.toNat⟩
  | .orderDelete m => some ⟨m.header.header, .orderDelete m.orderReferenceNumber.toNat⟩
  | .orderReplace m => some ⟨m.header.header,
      .orderReplace m.originalOrderReferenceNumber.toNat m.newOrderReferenceNumber.toNat m.shares.toNat m.price.toNat⟩
  | .trade m => some ⟨m.header.header,
      .trade m.orderReferenceNumber.toNat m.buySellIndicator m.shares.toNat m.stock m.price.toNat m.matchNumber.toNat⟩

namespace Spec

/-- How the feed is sent: by which library, from buffers of which size, from where to where. -/
structure Multicast where
  dpdk : Dpdk UDPHeader
  size : UInt16
  src : PacketEndpoint
  dst : PacketEndpoint
  ports : UDPHeader

namespace Multicast

/-- The packet of a message. -/
def packet (mc : Multicast) (m : ITCH) : Option (Option (List UInt8)) :=
  PacketFactory.buildPacket mc.dpdk (some mc.size) mc.src mc.dst mc.ports m.frame

/-- A frame with the packet of the message, and padding. -/
def Sends (mc : Multicast) (m : ITCH) (frame : List UInt8) : Prop :=
  ∃ packet padding, mc.packet m = some (some packet) ∧ frame = packet ++ padding

end Multicast

/-- The message in a frame that arrives. -/
def received (frame : List UInt8) : Option ITCH :=
  (PacketFactory.deserializePacket UDPHeader ItchFrame frame).payload.itch

end Spec

end Exchange
