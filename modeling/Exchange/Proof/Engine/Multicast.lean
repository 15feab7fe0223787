import Exchange.Proof.Book.Width
import Exchange.Proof.Engine.Reached
import Exchange.Proof.Engine.Written
import Exchange.Proof.TscClock
import Exchange.Proof.Wire.Packet
import Exchange.Spec.Multicast

/-!
# The feed on the wire

Every field of what the book publishes is within its width (`steps_fit`) and a time of day is
below 2⁴⁸, so `build_packet` and `deserialize_packet` give back each message (`packet_received`),
and a subscriber that is sent all of them has the order book (`feed_survives_wire`).
-/

namespace Exchange

open Spec (FitsWire received Multicast)

namespace ITCH

variable {m : ITCH}

/-- A message whose fields are within their widths is the frame's. -/
theorem itch_frame (hbody : FitsWire m.body) (hlocate : m.header.stockLocate < 2 ^ 16)
    (htracking : m.header.trackingNumber < 2 ^ 16) (htime : m.header.timestamp < 2 ^ 64) : m.frame.itch = some m := by
  obtain ⟨header, body⟩ := m
  have hheader : header.wire.header = header := by
    simp only [ItchHeader.wire, ItchWireHeader.header, UInt16.toNat_ofNat', UInt64.toNat_ofNat',
      Nat.mod_eq_of_lt hlocate, Nat.mod_eq_of_lt htracking, Nat.mod_eq_of_lt htime]
  cases body <;>
    simp_all [ITCH.frame, ItchFrame.itch, FitsWire, Nat.mod_eq_of_lt]

theorem timestamp_frame (htime : m.header.timestamp < 2 ^ 64) : Spec.timestamp m.frame = m.header.timestamp := by
  obtain ⟨header, body⟩ := m
  cases body <;> exact UInt64.toNat_ofNat_of_lt' htime

theorem encodedSize_frame (m : ITCH) : m.frame.encodedSize ≤ 44 := by
  have hsize : ∀ {M : Type} [ItchMessage M] (msg : M), ((ItchMessage.core M).map (·.size)).sum ≤ 44 →
      ItchDetail.encodedSize msg ≤ 44 := fun msg h => by
    rwa [ItchDetail.encodedSize, wireSize, ItchDetail.coreBytes, map_length_get]
  obtain ⟨header, body⟩ := m
  cases body <;> exact hsize _ (by decide)

end ITCH

namespace Spec.Multicast

/-- The library lays out headers as it says, and a buffer has room for the headers and a message. -/
structure Ready (mc : Multicast) : Prop where
  laysOut : Spec.LaysOut mc.dpdk
  room : PacketFactory.headerLen UDPHeader + 44 ≤ mc.size.toNat

variable {mc : Multicast} {m : ITCH}

/-- The packet of a message is built, and gives it back. -/
theorem Ready.packet_received (h : mc.Ready) (hbody : FitsWire m.body) (hlocate : m.header.stockLocate < 2 ^ 16)
    (htracking : m.header.trackingNumber < 2 ^ 16) (htime : m.header.timestamp < 2 ^ 48) :
    ∃ packet, mc.packet m = some (some packet) ∧ ∀ padding, received (packet ++ padding) = some m := by
  have htime' : m.header.timestamp < 2 ^ 64 := by omega
  have hroom : PacketFactory.headerLen UDPHeader + Payload.encodedSize m.frame ≤ mc.size.toNat :=
    Nat.le_trans (Nat.add_le_add_left m.encodedSize_frame _) h.room
  have hcarried : Spec.Carries.Carried m.frame := (ITCH.timestamp_frame htime').trans_lt htime
  obtain ⟨packet, hbuild, -, hframe⟩ := PacketFactory.buildPacket_frame h.laysOut hroom
  refine ⟨packet, hbuild, fun padding => ?_⟩
  rw [received, PacketFactory.deserializePacket_frame (hframe padding), LawfulPayload.decode_encode m.frame hcarried]
  exact ITCH.itch_frame hbody hlocate htracking htime'

/-- What is received of the packets of messages that each give theirs back. -/
theorem filterMap_received {messages : List ITCH} {frames : List (List UInt8)}
    (hall : ∀ m ∈ messages, ∃ packet, mc.packet m = some (some packet) ∧
      ∀ padding, received (packet ++ padding) = some m)
    (hsends : List.Forall₂ mc.Sends messages frames) : frames.filterMap received = messages := by
  induction hsends with
  | nil => rfl
  | @cons m frame messages frames hsent _ ih =>
    obtain ⟨⟨packet, hpacket, hreceived⟩, hall⟩ := List.forall_mem_cons.mp hall
    obtain ⟨packet', padding, hpacket', rfl⟩ := hsent
    rw [hpacket] at hpacket'
    cases hpacket'
    rw [List.filterMap_cons_some (hreceived padding), ih hall]

end Spec.Multicast

/-- The environment of a book whose `clock_` is this one. -/
def Env.withClock (env : Env) (clock : TscClock) : Env :=
  { env with nsSinceMidnight := fun tsc => (clock.nsSinceMidnight (UInt64.ofNat tsc)).toNat }

/-- The feed on the wire: every message that the book publishes has a packet, and whatever the packets
are padded with, a subscriber reads off them what was published, in its order. If nothing was
dropped the messages apply one after the other and give the levels of the order book, and until
midnight their times do not go back. -/
theorem feed_survives_wire (capacity : ℕ) (clock : TscClock) (env : Env) (mc : Multicast) (hmc : mc.Ready)
    (reqs : List (EngineRequest × ℕ)) (hp : ∀ r ∈ reqs, Spec.PriceOk r.1)
    (hids : ∀ r ∈ reqs, r.1.orderId < 2 ^ 64 ∧ r.1.newOrderId < 2 ^ 64) :
    ∃ returned b, Reaches capacity (env.withClock clock) reqs returned b ∧ (b.nextMatchNumber ≤ 2 ^ 64 →
      (∀ m ∈ b.out.marketData, ∃ packet, mc.packet m = some (some packet)) ∧
      ∀ frames, List.Forall₂ mc.Sends b.out.marketData frames →
        frames.filterMap received = b.out.marketData ∧
        (b.out.marketDataDrops = 0 → ∃ f, Spec.Feed.replay [] ((frames.filterMap received).map (·.body)) = some f ∧
          ∀ s p, InBand p →
            f.level (toOuchSide s) (p * 100) = (b.levelOrders s p).map fun r => (r.id, r.openQuantity)) ∧
        ((∀ r ∈ reqs, clock.SameDay (UInt64.ofNat r.2)) →
          (reqs.Pairwise fun r r' => UInt64.ofNat r.2 ≤ UInt64.ofNat r'.2) →
          (frames.filterMap received).Pairwise fun m m' => m.header.timestamp ≤ m'.header.timestamp)) := by
  obtain ⟨b, q, hres, hrep, -, hpub⟩ := handleMatching_ok (.new capacity (env.withClock clock)) .new hp
  have hA := Spec.after_wf capacity .new (List.forall_mem_map.mpr hp)
  obtain ⟨groups, hgroups, hstamps⟩ := handleMatching_stamps (.new capacity (env.withClock clock)) .new hp (hres .wrapping)
  obtain ⟨kept, hsub, hkept, -⟩ := id hpub
  replace hkept : b.out.marketData.map (·.body) = kept := hkept
  replace hgroups : b.out.marketData = groups.flatten := hgroups
  refine ⟨_, b, hres .wrapping, fun hk => ?_⟩
  have hfits : ∀ m ∈ b.out.marketData, FitsWire m.body := fun m hm => by
    refine Spec.steps_fit capacity .new (fun r hr => absurd hr List.not_mem_nil) (List.forall_mem_map.mpr hp)
      (List.forall_mem_map.mpr hids) (hrep.num.trans_le hk) m.body (hsub.subset ?_)
    have hbody := List.mem_map_of_mem (f := (·.body)) hm
    rwa [hkept] at hbody
  have hsent : ∀ m ∈ b.out.marketData, ∃ packet, mc.packet m = some (some packet) ∧
      ∀ padding, received (packet ++ padding) = some m := fun m hm => by
    obtain ⟨r, -, hheader⟩ := exists_stamped hstamps m (hgroups ▸ hm)
    have htime : m.header.timestamp < 2 ^ 48 := by
      rw [hheader]
      exact (clock.nsSinceMidnight_lt _).trans (by decide)
    have hlocate : m.header.stockLocate = bookStockLocate := congrArg ItchHeader.stockLocate hheader
    have htracking : m.header.trackingNumber = 0 := congrArg ItchHeader.trackingNumber hheader
    exact hmc.packet_received (hfits m hm) (by rw [hlocate]; decide) (by rw [htracking]; decide) htime
  refine ⟨fun m hm => ?_, fun frames hframes => ?_⟩
  · obtain ⟨packet, hpacket, -⟩ := hsent m hm
    exact ⟨packet, hpacket⟩
  · rw [Spec.Multicast.filterMap_received hsent hframes]
    refine ⟨rfl, fun hdrops => ?_, fun hday hsorted => ?_⟩
    · obtain ⟨f, hreplay, hshows⟩ := Spec.steps_brings capacity .new .new (List.forall_mem_map.mpr hp)
      exact ⟨f, by rw [hpub.eq_of_drops hdrops]; exact hreplay, fun s p hb => hrep.level_eq hA hshows s hb⟩
    · rw [hgroups]
      refine pairwise_stamped hstamps ?_
      refine hsorted.imp_of_mem fun {r r'} hr hr' hle => ?_
      show (clock.nsSinceMidnight (UInt64.ofNat r.2)).toNat ≤ (clock.nsSinceMidnight (UInt64.ofNat r'.2)).toNat
      rw [TscClock.toNat_nsSinceMidnight (hday r hr), TscClock.toNat_nsSinceMidnight (hday r' hr')]
      exact Nat.add_le_add_left (TscClock.elapsed_mono hle) _

/-- Packets without checksums, in buffers of 128 bytes. -/
def sampleMulticast : Multicast where
  dpdk := plainUdp
  size := 128
  src := ⟨Vector.replicate 6 1, 2⟩
  dst := ⟨Vector.replicate 6 3, 4⟩
  ports := ⟨5, 6⟩

/-- A tick a nanosecond, from midnight on. -/
def sampleClock : TscClock where
  anchorTsc := 0
  anchorNsSinceMidnight := 0
  nsPerTickQ32 := UInt64.ofNat (2 ^ 32)

theorem feed_survives_wire_sample : sampleMulticast.Ready ∧ ∃ returned b,
    Reaches 2 (sampleEnv.withClock sampleClock) sampleRequests returned b ∧ b.nextMatchNumber ≤ 2 ^ 64 ∧
      ∃ m ∈ b.out.marketData, ∃ packet, sampleMulticast.packet m = some (some packet) := by
  have hready : sampleMulticast.Ready := ⟨laysOut_plainUdp, by decide⟩
  obtain ⟨returned, b, hres, hfeed⟩ := feed_survives_wire 2 sampleClock sampleEnv sampleMulticast hready sampleRequests
    (by decide) (by decide)
  have hrun : (Engine.handleMatching .wrapping (Orderbook.new 2 (sampleEnv.withClock sampleClock)) sampleRequests).map
      (fun r => (r.2.nextMatchNumber, r.2.out.marketData.length)) = some (2, 4) := by decide
  rw [show Engine.handleMatching .wrapping (Orderbook.new 2 (sampleEnv.withClock sampleClock)) sampleRequests =
    some (returned, b) from hres] at hrun
  obtain ⟨hnum, hlen⟩ := Prod.mk.inj (Option.some.inj hrun)
  have hk : b.nextMatchNumber ≤ 2 ^ 64 := by
    rw [show b.nextMatchNumber = 2 from hnum]
    decide
  obtain ⟨m, hm⟩ := List.exists_mem_of_length_pos (show 0 < b.out.marketData.length by
    rw [show b.out.marketData.length = 4 from hlen]
    decide)
  exact ⟨hready, returned, b, hres, hk, m, hm, (hfeed hk).1 m hm⟩

end Exchange
