import Exchange.Proof.Client.Outgoing
import Exchange.Proof.Server.Calls
import Exchange.Proof.Server.Options
import Exchange.Proof.Server.Segments

/-!
# The exchange reads its clients

What a client of the load generator sends is what the server takes: its messages pass the checks
(`checkEnter_makeEnter`), its packets fit and are read back (`queuedPackets`), and of any first
part of its stream (`packetsIn_of_isPrefix`), in whatever segments it arrives, the server reads
the packets that are whole and holds the rest. No packet makes it end the connection, and no
message is rejected on the way to the book (`server_reads_client`).
-/

namespace Exchange

open Spec (bytesSent packetsQueued messagesQueued messageIn packetsIn restOf cut Short Segment Reported CentsInBand
  IsMarket AtDefault Passes Regular ofInbound connectionOf connectionAfter eventsLogged handleStream handleAll)

/-! ## The messages -/

namespace OrderFactory

/-- A message of the order factory. -/
def Built (msg : OuchInboundFrame) : Prop := ∃ d ref target, (buildMessage d ref target).2 = msg

theorem built_cases {msg : OuchInboundFrame} (h : Built msg) :
    (∃ d ref, msg = .enterOrder (makeEnter d ref)) ∨ (∃ t, msg = .cancelOrder (makeCancel t)) ∨
      ∃ d ref t, msg = .replaceOrder (makeReplace d ref t) := by
  obtain ⟨d, ref, target, rfl⟩ := h
  obtain ⟨-, e⟩ | ⟨t, -, e⟩ | ⟨t, -, e⟩ := buildMessage_cases (Prod.mk.eta (p := buildMessage d ref target)).symm
  · exact .inl ⟨d, ref, e⟩
  · exact .inr (.inl ⟨t, e⟩)
  · exact .inr (.inr ⟨d, ref, t, e⟩)

/-- The optional fields are left as they are in a new message. -/
theorem atDefault_makeEnter (d : Draw) (ref : UInt32) : AtDefault [] (makeEnter d ref) := fun t ht _ => by
  have h : (OuchMessage.tags (M := OuchEnterOrder)).map (fun t => t.2.get (makeEnter d ref)) =
      (OuchMessage.tags (M := OuchEnterOrder)).map fun t => t.2.get OuchMessage.blank := rfl
  exact List.map_inj_left.mp h t ht

theorem atDefault_makeReplace (d : Draw) (ref : UInt32) (target : Target) :
    AtDefault [] (makeReplace d ref target) := fun t ht _ => by
  have h : (OuchMessage.tags (M := OuchReplaceOrder)).map (fun t => t.2.get (makeReplace d ref target)) =
      (OuchMessage.tags (M := OuchReplaceOrder)).map fun t => t.2.get OuchMessage.blank := rfl
  exact List.map_inj_left.mp h t ht

theorem regular_of_empty {M : Type} [OuchMessage M] {msg : M} (h : (OuchMessage.appendage msg).bits = 0)
    (hd : AtDefault [] msg) : Regular msg where
  supported i hi := by
    rw [h] at hi
    simp at hi
  default t ht _ := hd t ht List.not_mem_nil

/-- So they are read back as they were written. -/
theorem regular_of_built {msg : OuchInboundFrame} (h : Built msg) : ofInbound (fun _ _ _ => Regular) msg := by
  obtain ⟨d, ref, rfl⟩ | ⟨t', rfl⟩ | ⟨d, ref, t, rfl⟩ := built_cases h
  · exact regular_of_empty rfl (atDefault_makeEnter d ref)
  · refine regular_of_empty rfl fun t ht _ => ?_
    have h : (OuchMessage.tags (M := OuchCancelOrder)).map (fun x => x.2.get (makeCancel t')) =
      (OuchMessage.tags (M := OuchCancelOrder)).map fun t => t.2.get OuchMessage.blank := rfl
    exact List.map_inj_left.mp h t ht
  · exact regular_of_empty rfl (atDefault_makeReplace d ref t)

theorem limitPrice_inBand (d : Draw) : minPrice ≤ limitPrice d ∧ limitPrice d ≤ maxPrice := by
  unfold limitPrice minPrice maxPrice
  omega

theorem toNat_toOuchPrice (d : Draw) :
    (Validation.toOuchPrice (limitPrice d)).toNat = limitPrice d * ouchTicksPerCent := by
  have h := (limitPrice_inBand d).2
  rw [Validation.toOuchPrice, UInt64.toNat_ofNat']
  refine Nat.mod_eq_of_lt ?_
  unfold ouchTicksPerCent maxPrice at *
  omega

theorem toNat_orderQty (d : Draw) : 1 ≤ (orderQty d).toNat ∧ (orderQty d).toNat ≤ 999999 := by
  rw [orderQty, UInt32.toNat_ofNat', Validation.ouchMaxQuantity]
  omega

/-- The server takes the Enters. -/
theorem checkEnter_makeEnter (d : Draw) (ref : UInt32) :
    ∃ check, Validation.checkEnter (makeEnter d ref) Gateway.band = .ok check := by
  refine checkEnter_of_supported ⟨?_, toNat_orderQty d, ?_, ?_, rfl, List.mem_cons_self, rfl, rfl, ?_, fun t ht _ =>
    atDefault_makeEnter d ref t ht List.not_mem_nil⟩
  · show toOuchSide d.side = _ ∨ toOuchSide d.side = _
    cases d.side with
    | bid => exact .inl rfl
    | ask => exact .inr rfl
  · show CentsInBand (if d.market then _ else _) _ ∨ IsMarket (if d.market then _ else _)
    split_ifs
    · exact .inr (show ouchMarketPriceFloor ≤ marketPrice.toNat by decide)
    · exact .inl ⟨limitPrice d, toNat_toOuchPrice d, limitPrice_inBand d⟩
  · show (if d.market then _ else _) = _ ∨ (if d.market then _ else _) = _
    split_ifs
    · exact .inr rfl
    · exact .inl rfl
  · show OuchTagSet.has {} .userRefIdx = false
    decide

/-- And the Replaces, whatever the order they are for. -/
theorem checkReplace_makeReplace (d : Draw) (ref : UInt32) (target : Target) (origSide : UInt8) :
    (Validation.checkReplace (makeReplace d ref target) origSide Gateway.band).isSome := by
  have hmarket : ¬ IsMarket (makeReplace d ref target).price := by
    show ¬ ouchMarketPriceFloor ≤ (Validation.toOuchPrice (limitPrice d)).toNat
    rw [toNat_toOuchPrice, ouchMarketPriceFloor, ouchTicksPerCent]
    have h := (limitPrice_inBand d).2
    unfold maxPrice at h
    omega
  refine checkReplace_isSome_iff.mpr ⟨toNat_orderQty d,
    ⟨⟨limitPrice d, toNat_toOuchPrice d, limitPrice_inBand d⟩, hmarket⟩, .inl rfl, rfl, rfl, .inl ?_, ?_, fun t ht _ =>
    atDefault_makeReplace d ref target t ht List.not_mem_nil⟩
  · show OuchTagSet.has {} .side = false
    decide
  · show OuchTagSet.has {} .userRefIdx = false
    decide

theorem passes_of_built {msg : OuchInboundFrame} (h : Built msg) : Passes msg := by
  obtain ⟨d, ref, rfl⟩ | ⟨t, rfl⟩ | ⟨d, ref, t, rfl⟩ := built_cases h
  · exact checkEnter_makeEnter d ref
  · trivial
  · exact checkReplace_makeReplace d ref t

end OrderFactory

/-! ## The packets -/

namespace LoadClient

open OrderFactory (Built)

variable {c : LoadClient} {t : ℕ}

/-- A packet the server knows, not too long for it, with a message of the order factory if it has
one. -/
structure Welcome (packet : SoupPacket) : Prop where
  length : packet.payload.length + 3 ≤ InboundThread.maxInboundSoupPacket
  type : SoupPacketType.ofByte packet.type ∈
    [some SoupPacketType.loginRequest, some .unsequencedData, some .clientHeartbeat]
  built : ∀ msg, messageIn packet = some msg → Built msg

/-- What is appended to the write buffer is a packet for the server, with the message it is for. -/
def Genuine : ClientEvent → Prop
  | .queued item bytes => ∃ packet, bytes = frame packet ∧ Welcome packet ∧
      messageIn packet = match item with | .message msg => some msg | _ => none
  | _ => True

theorem genuine_login (c : LoadClient) : Genuine (.queued .login c.loginPacket) := by
  refine ⟨_, loginPacket_eq c, ⟨?_, ?_, nofun⟩, rfl⟩
  · rw [length_loginRequestPayload]
    decide
  · exact List.mem_cons_self

theorem genuine_heartbeat :
    Genuine (.queued .heartbeat (encodeSoupEmpty .clientHeartbeat soupHeaderLen)) :=
  ⟨⟨SoupPacketType.clientHeartbeat.byte, []⟩, by decide, ⟨by decide, by decide, nofun⟩, rfl⟩

/-- A packet that is written fits the buffer. -/
theorem room_of_writeHeader {type : SoupPacketType} {n room : ℕ} {payload : List UInt8}
    (h : (writeHeader type n room).elim [] (· ++ payload) ≠ []) : soupHeaderLen + n ≤ room := by
  unfold writeHeader at h
  split at h
  · exact absurd rfl h
  · omega

theorem genuine_message {msg : OuchInboundFrame} (hb : Built msg) (h : (encodeSoupUnsequenced msg 128).length ≠ 0) :
    Genuine (.queued (.message msg) (encodeSoupUnsequenced msg 128)) := by
  have hne := List.ne_nil_of_length_pos (Nat.pos_of_ne_zero h)
  have heq := (encodeSoupUnsequenced_eq_elim hne).2
  obtain ⟨hframe, -⟩ := frame_of_writeHeader .unsequencedData _ _ heq hne (length_encodeInboundOuch msg)
  have hroom : soupHeaderLen + msg.encodedSize ≤ 128 := room_of_writeHeader (heq ▸ hne)
  have hread : decodeInboundOuch (encodeInboundOuch msg msg.encodedSize) = msg :=
    (decodeInboundOuch_eq_iff.mpr (encodeInboundOuch_spec (OrderFactory.regular_of_built hb) (Nat.le_refl _)).2.1).1
  have hmsg : messageIn ⟨SoupPacketType.unsequencedData.byte, encodeInboundOuch msg msg.encodedSize⟩ = some msg := by
    rw [messageIn, if_pos rfl, hread]
  refine ⟨_, hframe, ⟨?_, List.mem_cons_of_mem _ List.mem_cons_self, fun msg' e => ?_⟩, hmsg⟩
  · rw [length_encodeInboundOuch]
    unfold soupHeaderLen at hroom
    unfold InboundThread.maxInboundSoupPacket
    omega
  · rw [hmsg] at e
    exact Option.some.inj e ▸ hb

theorem genuine_concat {c' : LoadClient} {e : ClientEvent} (h : ∀ e ∈ c.events, Genuine e)
    (he : c'.events = c.events ++ [e]) (hg : Genuine e) : ∀ e ∈ c'.events, Genuine e := by
  rw [he]
  intro e' hmem
  rcases List.mem_append.mp hmem with hmem | hmem
  · exact h e' hmem
  · exact List.mem_singleton.mp hmem ▸ hg

theorem genuine_queue {x : LoadClient} {item : Queued} {packet : List UInt8} (h : ∀ e ∈ c.events, Genuine e)
    (he : x.events = c.events) (hg : Genuine (.queued item packet)) :
    ∀ e ∈ (x.queue item packet).events, Genuine e := by
  rcases queue_events he item packet with he' | he'
  · exact genuine_concat h he' hg
  · exact genuine_concat h he' trivial

theorem Reached.genuine (h : Reached c t) : ∀ e ∈ c.events, Genuine e := by
  refine h.keeps (P := fun c _ => ∀ e ∈ c.events, Genuine e) (fun _ => nofun) fun c t c' t' _ h ha => ?_
  cases ha with
  | wait => exact h
  | slot => exact h
  | reset => exact h
  | noSocket => exact genuine_concat h (record_events _ _) trivial
  | noConnection => exact genuine_concat h (record_events _ _) trivial
  | connect => exact genuine_concat h (record_events _ _) trivial
  | close => exact genuine_concat h (record_events _ _) trivial
  | logIn => exact genuine_queue h rfl (genuine_login c)
  | written => exact genuine_concat h (record_events _ _) trivial
  | blocked => exact genuine_concat h (record_events _ _) trivial
  | clear => exact genuine_concat h (record_events _ _) trivial
  | @enqueue _ _ draw kind msg _ _ _ hmsg hne _ =>
    have he : (c.count kind).events = c.events := congrArg eventsLogged (count_log c kind)
    exact genuine_queue h he (genuine_message ⟨draw, c.nextUserRefNum, c.target, congrArg Prod.snd hmsg⟩ hne)
  | heartbeat => exact genuine_queue h rfl genuine_heartbeat
  | receive => exact genuine_concat h (record_events _ _) trivial
  | take => exact genuine_concat h (record_events _ _) trivial
  | reject => exact genuine_concat h (record_events _ _) trivial

theorem connectionOf_subset (events : List ClientEvent) : connectionOf events ⊆ events := by
  induction events using List.reverseRecOn with
  | nil => exact List.Subset.refl _
  | append_singleton events e ih =>
    have hstep : connectionOf (events ++ [e]) = connectionAfter (connectionOf events) e := by
      rw [connectionOf, List.foldl_append]
      rfl
    have happend : connectionOf events ++ [e] ⊆ events ++ [e] :=
      List.append_subset.mpr ⟨List.Subset.trans ih (List.subset_append_left _ _), List.subset_append_right _ _⟩
    rw [hstep]
    cases e with
    | attempt => exact List.nil_subset _
    | _ => exact happend

/-- The packets that are appended, as the server sees them. -/
theorem queuedPackets {events : List ClientEvent} (h : ∀ e ∈ events, Genuine e) :
    ∃ packets : List SoupPacket, packetsQueued events = packets.map frame ∧ (∀ packet ∈ packets, Welcome packet) ∧
      packets.filterMap messageIn = messagesQueued events := by
  induction events with
  | nil => exact ⟨[], rfl, nofun, rfl⟩
  | cons e events ih =>
    obtain ⟨packets, hq, hw, hm⟩ := ih fun e he => h e (List.mem_cons_of_mem _ he)
    have hg := h e List.mem_cons_self
    cases e with
    | queued item bytes =>
      obtain ⟨packet, rfl, hwelcome, hmsg⟩ := hg
      refine ⟨packet :: packets, congrArg (frame packet :: ·) hq, fun p hp => ?_, ?_⟩
      · rcases List.mem_cons.mp hp with rfl | hp
        · exact hwelcome
        · exact hw p hp
      · cases item with
        | message msg => exact (List.filterMap_cons_some hmsg).trans (congrArg (msg :: ·) hm)
        | _ => exact (List.filterMap_cons_none hmsg).trans hm
    | _ => exact ⟨packets, hq, hw, hm⟩

/-- The messages that are appended pass the checks. -/
theorem passes_of_genuine {events : List ClientEvent} (h : ∀ e ∈ events, Genuine e) :
    ∀ msg ∈ messagesQueued events, Passes msg := by
  obtain ⟨packets, -, hwelcome, hmessages⟩ := queuedPackets h
  intro msg hmsg
  rw [← hmessages] at hmsg
  obtain ⟨packet, hp, hm⟩ := List.mem_filterMap.mp hmsg
  exact OrderFactory.passes_of_built ((hwelcome packet hp).built msg hm)

theorem Welcome.payload_le {packet : SoupPacket} (h : Welcome packet) : packet.payload.length + 1 ≤ 65535 := by
  have hlen := h.length
  unfold InboundThread.maxInboundSoupPacket at hlen
  omega

theorem Welcome.parse_append {packet : SoupPacket} (h : Welcome packet) (rest : List UInt8) :
    parseSoupPacket (frame packet ++ rest) = .packet packet (frame packet).length :=
  parseSoupPacket_append (parseSoupPacket_encoded packet.type h.payload_le) rest

/-- The length in the first two bytes of a packet. -/
theorem Welcome.packetLen_le {packet : SoupPacket} (h : Welcome packet) {bytes : List UInt8}
    (hb : bytes <+: frame packet) (h2 : 2 ≤ bytes.length) :
    InboundThread.packetLen bytes ≤ InboundThread.maxInboundSoupPacket := by
  have htake : bytes.take 2 = bigEndian 2 (packet.payload.length + 1) := by
    obtain ⟨rest, hrest⟩ := hb
    have hwhole : (bytes ++ rest).take 2 = bytes.take 2 := List.take_append_of_le_length h2
    rw [← hwhole, hrest, frame, List.append_assoc, List.take_left' (length_bigEndian 2 _)]
  have hpayload := h.payload_le
  have hlen := h.length
  rw [InboundThread.packetLen, htake, ofBigEndian_bigEndian]
  omega

end LoadClient

/-! ## The stream -/

open LoadClient (Welcome)
open InboundThread (cut_of_not_packet cut_length_packet restOf_packet)

/-- Of a first part of some packets, those that are whole are found, and what is left can go on to
be the next one. -/
theorem packetsIn_of_isPrefix {packets : List SoupPacket} (h : ∀ packet ∈ packets, Welcome packet)
    {bytes : List UInt8} (hb : bytes <+: (packets.map frame).flatten) :
    packetsIn bytes <+: packets ∧ ((packetsIn bytes).map frame).flatten ++ restOf bytes = bytes ∧ Short bytes ∧
      parseSoupPacket (restOf bytes) = .incomplete := by
  induction packets generalizing bytes with
  | nil =>
    obtain rfl := List.prefix_nil.mp hb
    exact ⟨List.prefix_refl _, rfl, ⟨fun _ hp => absurd hp List.not_mem_nil, fun h2 => absurd h2 (by decide)⟩, rfl⟩
  | cons packet packets ih =>
    have hw := h packet List.mem_cons_self
    rw [List.map_cons, List.flatten_cons] at hb
    by_cases hlen : bytes.length < (frame packet).length
    · -- the first packet is cut off
      have hfirst : bytes <+: frame packet := List.prefix_of_prefix_length_le hb (List.prefix_append _ _) hlen.le
      have hpart := parseSoupPacket_cut hw.payload_le hfirst fun e => (e ▸ hlen).ne rfl
      have hcut : cut bytes.length bytes = ([], bytes) :=
        cut_of_not_packet (fun p n e => by rw [hpart] at e; cases e) _
      refine ⟨?_, ?_, ⟨?_, fun h2 => ?_⟩, ?_⟩
      · rw [packetsIn, hcut]
        exact List.nil_prefix
      · rw [packetsIn, restOf, hcut]
        rfl
      · rw [hcut]
        exact fun _ hp => absurd hp List.not_mem_nil
      · rw [restOf, hcut] at h2 ⊢
        exact hw.packetLen_le hfirst h2
      · rw [restOf, hcut]
        exact hpart
    · obtain ⟨rest, rfl⟩ : frame packet <+: bytes :=
        List.prefix_of_prefix_length_le (List.prefix_append _ _) hb (Nat.le_of_not_lt hlen)
      have hparse := hw.parse_append rest
      have hdrop : (frame packet ++ rest).drop (frame packet).length = rest := List.drop_left
      obtain ⟨hpackets, hwhole, ⟨hshort, hend⟩, hrest⟩ := ih (fun p hp => h p (List.mem_cons_of_mem _ hp))
        ((List.prefix_append_right_inj _).mp hb)
      have hcut := cut_length_packet hparse
      rw [hdrop] at hcut
      refine ⟨?_, ?_, ⟨?_, ?_⟩, ?_⟩
      · rw [packetsIn, hcut]
        exact List.cons_prefix_cons.mpr ⟨rfl, hpackets⟩
      · rw [packetsIn, restOf, hcut]
        exact (List.append_assoc ..).trans (congrArg (frame packet ++ ·) hwhole)
      · rw [hcut]
        intro p hp
        rcases List.mem_cons.mp hp with rfl | hp
        · show (frame packet).length ≤ _
          rw [length_frame]
          have := hw.length
          omega
        · exact hshort p hp
      · rw [restOf_packet hparse, hdrop]
        exact hend
      · rw [restOf_packet hparse, hdrop]
        exact hrest

/-! ## The server -/

namespace InboundThread

variable {t t' : InboundThread} {slot : ℕ}

/-- A note that neither ends a connection nor rejects a message. -/
def Friendly : ServerNote → Prop
  | .disconnected _ _ => False
  | .gateway (.rejected _ _) => False
  | _ => True

/-- A connection has gone on, without harm. It is closing only if a login was rejected. -/
structure Reads (slot : ℕ) (t t' : InboundThread) : Prop where
  isOpen : (t.connections slot).isOpen → (t'.connections slot).isOpen
  conn : (t'.connections slot).conn = (t.connections slot).conn
  band : t'.entry.band = t.entry.band
  notes : ∃ new, t'.notes = t.notes ++ new ∧ (∀ note ∈ new, Friendly note) ∧
    ((t'.connections slot).closing → (t.connections slot).closing ∨
      ∃ reason, .loginRejected (t.connections slot).conn reason ∈ new)

/-- The connection stays as it is, and nothing is noted. -/
theorem Reads.of_eq (hconn : t'.connections slot = t.connections slot) (hband : t'.entry.band = t.entry.band)
    (hnotes : t'.notes = t.notes) : Reads slot t t' := by
  refine ⟨?_, by rw [hconn], hband, [], by rw [hnotes, List.append_nil], nofun, ?_⟩ <;> rw [hconn]
  · exact id
  · exact .inl

theorem Reads.refl (slot : ℕ) (t : InboundThread) : Reads slot t t := .of_eq rfl rfl rfl

theorem Reads.trans {t'' : InboundThread} (h : Reads slot t t') (h' : Reads slot t' t'') : Reads slot t t'' := by
  obtain ⟨new, hnew, hf, hc⟩ := h.notes
  obtain ⟨new', hnew', hf', hc'⟩ := h'.notes
  refine ⟨h'.isOpen ∘ h.isOpen, h'.conn.trans h.conn, h'.band.trans h.band, new ++ new', ?_, ?_, fun hclosing => ?_⟩
  · rw [hnew', hnew, List.append_assoc]
  · exact List.forall_mem_append.mpr ⟨hf, hf'⟩
  · rcases hc' hclosing with hclosing | ⟨reason, hn⟩
    · exact (hc hclosing).imp_right fun ⟨reason, hn⟩ => ⟨reason, List.mem_append_left _ hn⟩
    · exact .inr ⟨reason, List.mem_append_right _ (h.conn ▸ hn)⟩

/-- One note about the connection. -/
theorem Reads.of_note {x : InboundConnection} {note : ServerNote}
    (hx : (t.connections slot).isOpen → x.isOpen) (hc : x.conn = (t.connections slot).conn)
    (hconns : t'.connections = Function.update t.connections slot x) (hband : t'.entry.band = t.entry.band)
    (hnotes : t'.notes = t.notes ++ [note]) (hf : Friendly note)
    (hclosing : x.closing → (t.connections slot).closing ∨
      ∃ reason, note = .loginRejected (t.connections slot).conn reason) : Reads slot t t' := by
  refine ⟨?_, ?_, hband, [note], hnotes, List.forall_mem_singleton.mpr hf, fun h => ?_⟩
  · rw [hconns, Function.update_self]
    exact hx
  · rw [hconns, Function.update_self, hc]
  · rw [hconns, Function.update_self] at h
    exact (hclosing h).imp_right fun ⟨reason, e⟩ => ⟨reason, e ▸ List.mem_singleton_self _⟩

theorem LogsIn.reads {payload : List UInt8} (h : LogsIn t slot payload t') : Reads slot t t' := by
  cases h with
  | rejected | refused =>
    exact .of_note (x := { t.connections slot with closing := true }) id rfl rfl rfl rfl trivial
      fun _ => .inr ⟨_, rfl⟩
  | @letIn _ c _ _ _ _ _ =>
    exact .of_note (x := { t.connections slot with loggedIn := true, clientId := c }) id rfl rfl rfl rfl trivial .inl

/-- A message that passes the checks is not rejected. -/
theorem friendly_of_passes {entry entry' : OrderEntry} {c : ℕ} {msg : OuchInboundFrame} {translation : Translation}
    (h : entry.Ok) (hband : entry.band = Gateway.band) (hp : Passes msg)
    (ht : entry.translate c msg = some (entry', translation)) {note : GatewayNote} (hn : translation.note = some note) :
    Friendly (.gateway note) := by
  obtain ⟨s', t', ht', hb⟩ := OrderEntry.translate_becomes h c msg
  cases ht.symm.trans ht'
  cases hb with
  | ignored => cases hn
  | canceling => cases hn
  | rejected reason hu =>
    obtain ⟨check, hcheck⟩ := hp
    rw [OrderEntry.translate_entered hu (hband ▸ hcheck)] at ht
    exact nomatch congrArg (·.2.note) (Option.some.inj ht)
  | entered =>
    cases hn
    trivial
  | replacing =>
    cases hn
    trivial

theorem handleOuch_none (t : InboundThread) (c : ℕ) : t.handleOuch c .none = some t := if_pos rfl

theorem handleOuch_band {c : ℕ} {msg : OuchInboundFrame} (h : t.entry.Ok) (ht : t.handleOuch c msg = some t') :
    t'.entry.band = t.entry.band := by
  by_cases hmsg : msg = .none
  · rw [hmsg, handleOuch_none] at ht
    cases ht
    rfl
  · obtain ⟨translation, htr⟩ := handleOuch_translated hmsg ht
    obtain ⟨s', t', ht', hb⟩ := OrderEntry.translate_becomes h c msg
    cases htr.entry.symm.trans ht'
    exact hb.band_eq

theorem handleOuch_reads {c : ℕ} {msg : OuchInboundFrame} (h : t.entry.Ok) (hband : t.entry.band = Gateway.band)
    (hp : Passes msg) (ht : t.handleOuch c msg = some t') : Reads slot t t' := by
  by_cases hmsg : msg = .none
  · rw [hmsg, handleOuch_none] at ht
    cases ht
    exact .refl slot t
  · have hconns := (Translates.of_eq ht h).connections
    obtain ⟨translation, htr⟩ := handleOuch_translated hmsg ht
    refine ⟨by rw [hconns]; exact id, by rw [hconns], handleOuch_band h ht, _, htr.notes, fun note hn => ?_,
      by rw [hconns]; exact .inl⟩
    obtain ⟨gateway, hg, rfl⟩ := List.mem_map.mp hn
    exact friendly_of_passes h hband hp htr.entry (Option.mem_toList.mp hg)

/-- A packet of a client does no harm. -/
theorem handleSoupPacket_reads {retainedFrom : ℕ → ℕ} {packet : SoupPacket} (h : t.entry.Ok)
    (hband : t.entry.band = Gateway.band) (hw : Welcome packet)
    (ht : t.handleSoupPacket retainedFrom slot packet = some t') : Reads slot t t' := by
  have hrecord : Reads slot t (t.recordPacket slot packet) := .of_eq rfl rfl rfl
  cases handleSoupPacket_handles ht with
  | ignored => exact hrecord
  | login _ _ hlog => exact hrecord.trans hlog.reads
  | ouch htype _ ho =>
    have hmsg : messageIn packet = some (decodeInboundOuch packet.payload) :=
      if_pos (SoupPacketType.ofByte_eq_some.mp htype)
    have hcall : Reads slot (t.recordPacket slot packet) ((t.recordPacket slot packet).recordCall slot) :=
      .of_eq rfl rfl rfl
    exact hrecord.trans (hcall.trans (handleOuch_reads h hband (OrderFactory.passes_of_built (hw.built _ hmsg)) ho))
  | logout htype =>
    have := hw.type
    rw [htype] at this
    exact absurd this (by decide)

/-- Nor do any number of them, with the beginning of another one behind. -/
theorem handleAll_reads {rest : List UInt8} {packets : List SoupPacket} {retained : ℕ → ℕ → ℕ} (h : t.Sessions)
    (ht : t.takesInput slot) (hband : t.entry.band = Gateway.band) (hw : ∀ packet ∈ packets, Welcome packet)
    (hrest : parseSoupPacket rest = .incomplete) (ht' : handleAll slot rest retained t packets = some t') :
    Reads slot t t' := by
  induction packets generalizing t retained with
  | nil =>
    rw [handleAll, hrest, if_neg (by simp)] at ht'
    cases ht'
    refine ⟨?_, ?_, rfl, [], (List.append_nil _).symm, nofun, ?_⟩ <;> rw [connections_setConnection]
    · exact id
    · exact .inl
  | cons packet packets ih =>
    obtain ⟨t₁, ht₁, ha⟩ := handleSoupPacket_acts (retained 0) h ht packet
    have hreads := handleSoupPacket_reads h.entry hband (hw packet List.mem_cons_self) ht₁
    rw [handleAll, ht₁, Option.bind_eq_bind, Option.bind_some] at ht'
    split at ht'
    · next htakes =>
      exact hreads.trans (ih (h.acts ha) htakes (hreads.band.trans hband)
        (fun p hp => hw p (List.mem_cons_of_mem _ hp)) ht')
    · cases ht'
      exact hreads

theorem Act.band_eq (h : t.Sessions) (ha : Act t t') : t'.entry.band = t.entry.band := by
  cases ha with
  | still e => exact congrArg (·.entry.band) e
  | client hfind =>
    obtain ⟨_, _, rfl⟩ := findClient_eq hfind
    rfl
  | ouch ho hl hh => exact handleOuch_band (t := t.recordCall _) h.entry hh
  | reject => rfl
  | letIn => rfl
  | disconnect => exact congrArg OrderEntry.band (disconnect_aside t _).entry

theorem Acts.band_eq (h : t.Sessions) (ha : Acts t t') : t'.entry.band = t.entry.band := by
  induction ha with
  | refl => rfl
  | tail hacts ha ih => exact (Act.band_eq (h.acts hacts) ha).trans ih

/-- The band never changes. -/
theorem run_band (clock : Clock) {live : ℕ → Option ConnId} (h : t.Steady) (hf : Follows live t) {steps : List Step}
    (hr : Reported live steps) (ht : run clock t steps = some t') : t'.entry.band = t.entry.band := by
  induction steps generalizing t live with
  | nil =>
    cases ht
    rfl
  | cons step steps ih =>
    obtain ⟨t₁, ht₁, hs₁, hf₁, -⟩ := step_ok clock h hf hr.1
    rw [run, ht₁, Option.bind_eq_bind, Option.bind_some] at ht
    refine (ih hs₁ hf₁ hr.2 ht).trans ?_
    rcases step_cases clock h step with ⟨retainedFrom, recvTsc, conn, rfl⟩ | ⟨-, t₂, ht₂, ha⟩
    · cases ht₁
      rfl
    · cases ht₁.symm.trans ht₂
      exact Acts.band_eq h.sessions ha

/-- When a connection has just been accepted, it is read from and nothing of a packet is held. -/
theorem run_of_accepted (clock : Clock) {before : List Step} {retainedFrom : ℕ → ℕ} {recvTsc : ℕ} {conn : ConnId}
    (hreported : Reported (fun _ => none) (before ++ [.tcp retainedFrom recvTsc (.accepted conn)])) :
    ∃ t : InboundThread, run clock {} (before ++ [.tcp retainedFrom recvTsc (.accepted conn)]) = some t ∧ t.Steady ∧
      t.entry.band = Gateway.band ∧ (t.connections conn.slot).conn = conn ∧ t.takesInput conn.slot ∧
      (t.connections conn.slot).partialBytes = [] := by
  have hnone : Follows (fun _ => none) {} := fun _ ho => nomatch ho
  obtain ⟨t, ht, hsteady, -⟩ := run_ok clock .new hnone hreported
  have hband := run_band clock .new hnone hreported ht
  obtain ⟨t₀, -, haccept⟩ := Option.bind_eq_some_iff.mp ((run_append ..).symm.trans ht)
  obtain rfl : t₀.accept conn recvTsc = t := Option.some.inj haccept
  have hconn : (t₀.accept conn recvTsc).connections conn.slot = _ := connections_setConnection ..
  refine ⟨_, ht, hsteady, hband, ?_, ?_, ?_⟩
  · rw [hconn]
  · rw [takesInput, hconn]
    rfl
  · rw [hconn]

end InboundThread

/-! ## A client and the server -/

open InboundThread (bytesOf Friendly LoggedInAs run)

/-- However far a client of the load generator has got, and however what has arrived of its
connection was cut into segments: the server handles the packets the client put together, in
their order, and finds the client's messages in them. It keeps the connection open, and none of
the messages is rejected. Unless it has rejected the login, it has handled every whole packet that
has arrived, and holds the rest. -/
theorem server_reads_client (clock : Clock) (before : List InboundThread.Step) (conn : ConnId) (retainedFrom : ℕ → ℕ)
    (recvTsc : ℕ) (hreported : Reported (fun _ => none) (before ++ [.tcp retainedFrom recvTsc (.accepted conn)]))
    (numClients interArrivalNs n : ℕ) (k : Kernel) (c : LoadClient)
    (hc : c ∈ ((LoadGenerator.new numClients interArrivalNs).run n k).1.clients) (segments : List Segment)
    (hbytes : bytesOf segments <+: bytesSent (connectionOf (eventsLogged c.log))) :
    ∃ (t t' : InboundThread) (packets : List SoupPacket) (notes : List ServerNote),
      run clock {} (before ++ [.tcp retainedFrom recvTsc (.accepted conn)]) = some t ∧
      t.run clock (segments.map (·.step conn)) = some t' ∧
      (t'.connections conn.slot).isOpen ∧ (t'.connections conn.slot).conn = conn ∧
      t'.notes = t.notes ++ notes ∧ (∀ note ∈ notes, Friendly note) ∧
      t'.history.packets = t.history.packets ++ packets.map (fun packet => (conn, packet)) ∧
      packets.map frame <+: packetsQueued (connectionOf (eventsLogged c.log)) ∧
      packets.filterMap messageIn <+: messagesQueued (connectionOf (eventsLogged c.log)) ∧
      (∀ msg ∈ messagesQueued (connectionOf (eventsLogged c.log)), Passes msg) ∧
      packets <+: packetsIn (bytesOf segments) ∧
      ((∀ reason, .loginRejected conn reason ∉ notes) → t'.takesInput conn.slot) ∧
      (t'.takesInput conn.slot → packets = packetsIn (bytesOf segments) ∧
        (t'.connections conn.slot).partialBytes = restOf (bytesOf segments) ∧
        (packets.map frame).flatten ++ (t'.connections conn.slot).partialBytes = bytesOf segments) := by
  obtain ⟨time, hr, -⟩ := LoadGenerator.run_reached n numClients interArrivalNs k c hc
  have hgenuine : ∀ e ∈ connectionOf (eventsLogged c.log), LoadClient.Genuine e := fun e he =>
    hr.genuine e (LoadClient.connectionOf_subset _ he)
  obtain ⟨queued, hqueued, hwelcome, hmessages⟩ := LoadClient.queuedPackets hgenuine
  have hstream : bytesOf segments <+: (queued.map frame).flatten := hqueued ▸ hbytes.trans hr.outgoing.isPrefix
  obtain ⟨hpackets, hwhole, hshort, hrest⟩ := packetsIn_of_isPrefix hwelcome hstream
  obtain ⟨t, ht, hsteady, hband, hconn, htakes, hheld⟩ := InboundThread.run_of_accepted clock hreported
  obtain ⟨hopen, hclosed⟩ := InboundThread.takesInput_iff.mp htakes
  obtain ⟨retained, t₁, recvTsc', -, hhandled, hsegments⟩ := InboundThread.run_segments clock hsteady hconn htakes
    segments (by rwa [hheld]) retainedFrom
  rw [hheld, List.nil_append, InboundThread.setPartial_self hheld] at hhandled
  obtain ⟨m, -, hpassed, hall⟩ := InboundThread.handleStream_packets hsteady.sessions htakes hhandled
  have hreads := InboundThread.handleAll_reads hsteady.sessions htakes hband
    (fun packet hp => hwelcome packet (hpackets.subset hp)) hrest hhandled
  obtain ⟨notes, hnotes, hfriendly, hclosing⟩ := hreads.notes
  have htaken : (packetsIn (bytesOf segments)).take m <+: queued := (List.take_prefix m _).trans hpackets
  have htouch : ((t₁.touch conn.slot recvTsc').connections conn.slot) = _ := InboundThread.connections_touch ..
  refine ⟨t, _, (packetsIn (bytesOf segments)).take m, notes, ht, hsegments, ?_, ?_, hnotes, hfriendly, ?_, ?_, ?_,
    fun msg hmsg => ?_, List.take_prefix m _, fun haccepted => ?_, fun htakes' => ?_⟩
  · rw [htouch]
    exact hreads.isOpen hopen
  · rw [htouch]
    exact hreads.conn.trans hconn
  · rw [hconn] at hpassed
    exact hpassed
  · rw [hqueued]
    exact htaken.map frame
  · rw [← hmessages]
    exact htaken.filterMap messageIn
  · exact LoadClient.passes_of_genuine hgenuine msg hmsg
  · rw [InboundThread.takesInput_touch, InboundThread.takesInput_iff]
    refine ⟨hreads.isOpen hopen, fun hc => ?_⟩
    obtain ⟨reason, hn⟩ := (hclosing hc).resolve_left hclosed
    exact haccepted reason (hconn ▸ hn)
  · rw [InboundThread.takesInput_touch] at htakes'
    obtain ⟨rfl, hheld⟩ := hall htakes'
    rw [htouch, hheld, List.take_length]
    exact ⟨rfl, rfl, hwhole⟩

/-- The client of `dribbling`, whose Login Request arrives with the beginning of its first Enter:
it is let in, and what has arrived of the Enter is held. -/
theorem server_reads_client_dribbling : ∃ c ∈ ((LoadGenerator.new 1 4).run 2 LoadGenerator.dribbling).1.clients,
    (bytesSent (connectionOf (eventsLogged c.log))).length = 59 ∧
    ∃ (t' : InboundThread) (login : SoupPacket), run ⟨id, id, UInt64.ofNat⟩ (({} : InboundThread).accept ⟨3, 1⟩ 7)
        [Segment.step ⟨3, 1⟩ ⟨fun _ => 1, 8, bytesSent (connectionOf (eventsLogged c.log))⟩] = some t' ∧
      (t'.connections 3).isOpen ∧ LoggedInAs t' 3 1 ∧ t'.history.packets = [(⟨3, 1⟩, login)] ∧
      (t'.connections 3).partialBytes.length = 10 := by
  have hrun : ∃ c ∈ ((LoadGenerator.new 1 4).run 2 LoadGenerator.dribbling).1.clients,
      (bytesSent (connectionOf (eventsLogged c.log))).length = 59 ∧
      (packetsIn (bytesSent (connectionOf (eventsLogged c.log)))).length = 1 ∧
      (restOf (bytesSent (connectionOf (eventsLogged c.log)))).length = 10 ∧
      (run ⟨id, id, UInt64.ofNat⟩ (({} : InboundThread).accept ⟨3, 1⟩ 7)
        [Segment.step ⟨3, 1⟩ ⟨fun _ => 1, 8, bytesSent (connectionOf (eventsLogged c.log))⟩]).map
        (fun t' => (t'.takesInput 3, (t'.connections 3).loggedIn, (t'.connections 3).clientId)) =
          some (true, true, 1) := by
    decide +kernel
  obtain ⟨c, hc, hlength, hone, hten, hin⟩ := hrun
  obtain ⟨t, t', packets, notes, ht, ht', hopen, -, -, -, hpackets, -, -, -, -, -, hall⟩ :=
    server_reads_client ⟨id, id, UInt64.ofNat⟩ [] ⟨3, 1⟩ (fun _ => 1) 7 (by simp [Reported, Spec.acceptOf]) 1 4 2
      LoadGenerator.dribbling c hc [⟨fun _ => 1, 8, bytesSent (connectionOf (eventsLogged c.log))⟩] (by simp [bytesOf])
  cases ht
  rw [show run ⟨id, id, UInt64.ofNat⟩ (({} : InboundThread).accept ⟨3, 1⟩ 7) [Segment.step ⟨3, 1⟩
    ⟨fun _ => 1, 8, bytesSent (connectionOf (eventsLogged c.log))⟩] = some t' from ht'] at hin
  obtain ⟨htakes, hlogged, hclient⟩ : t'.takesInput 3 = true ∧ (t'.connections 3).loggedIn = true ∧
      (t'.connections 3).clientId = 1 := by simpa using hin
  obtain ⟨rfl, hheld, -⟩ := hall htakes
  rw [show bytesOf _ = bytesSent _ from List.append_nil _] at hpackets hheld
  obtain ⟨login, hlogin⟩ := List.length_eq_one_iff.mp hone
  rw [hlogin] at hpackets
  exact ⟨c, hc, hlength, t', login, ht', hopen, ⟨hopen, hlogged, hclient⟩, hpackets, by rw [hheld]; exact hten⟩

end Exchange
