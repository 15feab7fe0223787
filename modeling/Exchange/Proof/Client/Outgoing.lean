import Exchange.Proof.Client.EventLoop

/-!
# What the client sends

The bytes that `send()` took and those that are left in the write buffer are the packets
that were queued on the connection, one after the other: a Login Request, and then messages
and heartbeats. A new packet finds all before it sent, or follows what is left in the
buffer.
-/

namespace Exchange

open Spec (eventsLogged connectionOf connectionAfter AcceptsLogin bytesSent packetsQueued IsPacket ClientPackets
  newUserRefNum newUserRefNums)

namespace LoadClient

open OrderFactory (buildMessage_cases)

variable {c : LoadClient} {t : ℕ}

/-! ## Packets -/

theorem loginPacket_eq (c : LoadClient) : c.loginPacket =
    frame ⟨SoupPacketType.loginRequest.byte, loginRequestPayload c.toClientState.loginRequest⟩ := by
  rw [loginPacket, ClientState.handleConnect, encodeSoupLoginRequest_eq_elim, frame, length_loginRequestPayload]
  rfl

theorem length_loginPacket (c : LoadClient) : c.loginPacket.length = soupHeaderLen + soupLoginRequestLen := by
  rw [loginPacket_eq, length_frame, length_loginRequestPayload]
  rfl

theorem isPacket_login (c : LoadClient) : IsPacket .loginRequest c.loginPacket := by
  rw [loginPacket_eq]
  exact ⟨_, parseSoupPacket_encoded _ (by rw [length_loginRequestPayload]; decide)⟩

theorem isPacket_message {msg : OuchInboundFrame} (h : (encodeSoupUnsequenced msg 128).length ≠ 0) :
    IsPacket .unsequencedData (encodeSoupUnsequenced msg 128) := by
  have hne := List.ne_nil_of_length_pos (Nat.pos_of_ne_zero h)
  obtain ⟨hframe, hle⟩ := frame_of_writeHeader .unsequencedData _ _ (encodeSoupUnsequenced_eq_elim hne).2 hne
    (length_encodeInboundOuch msg)
  rw [hframe]
  exact ⟨_, parseSoupPacket_encoded _ hle⟩

theorem isPacket_heartbeat : IsPacket .clientHeartbeat (encodeSoupEmpty .clientHeartbeat soupHeaderLen) :=
  ⟨[], by decide⟩

/-- A packet that follows the Login Request. -/
theorem clientPackets_concat {packets : List (List UInt8)} {packet : List UInt8} (h : ClientPackets packets)
    (hne : packets ≠ []) (hpacket : IsPacket .unsequencedData packet ∨ IsPacket .clientHeartbeat packet) :
    ClientPackets (packets ++ [packet]) := by
  obtain ⟨login, rest, rfl, hlogin, hrest⟩ := h.resolve_left hne
  refine .inr ⟨login, rest ++ [packet], rfl, hlogin, fun p hp => ?_⟩
  rcases List.mem_append.mp hp with hp | hp
  · exact hrest p hp
  · exact List.mem_singleton.mp hp ▸ hpacket

/-! ## The invariant -/

/-- The UserRefNums of Enters and Replaces are those from 1 on, and `next` is the next one. -/
def Numbered (refs : List UInt32) (next : UInt32) : Prop :=
  ∃ n, refs = (List.range n).map (fun i => UInt32.ofNat (i + 1)) ∧ next = UInt32.ofNat (n + 1)

/-- A connection: what was queued, sent and is left. -/
structure Sends (c : LoadClient) : Prop where
  readOff : c.writeBuf.readOff = 0
  written_le : c.writeBuf.bytesWritten ≤ c.writeBuf.data.length
  stream : bytesSent c.conn ++ c.writeBuf.unsent = (packetsQueued c.conn).flatten
  connecting : c.connecting = true → c.writeBuf = {} ∧ packetsQueued c.conn = [] ∧ c.loggedIn = false
  connected : c.connecting = false → packetsQueued c.conn ≠ []
  loggedIn : c.loggedIn = true → ∃ e ∈ c.conn, AcceptsLogin e

/-- A reached client: its connection, if it has one, what the last one sent, and its
UserRefNums. -/
structure Outgoing (c : LoadClient) : Prop where
  sends : c.fd ≠ none → c.Sends
  isPrefix : bytesSent c.conn <+: (packetsQueued c.conn).flatten
  packets : ClientPackets (packetsQueued c.conn)
  login : 2 ≤ (packetsQueued c.conn).length → ∃ e ∈ c.conn, AcceptsLogin e
  numbered : Numbered (newUserRefNums c.events) c.nextUserRefNum

theorem Sends.outgoing (h : c.Sends) (hp : ClientPackets (packetsQueued c.conn))
    (hlogin : 2 ≤ (packetsQueued c.conn).length → ∃ e ∈ c.conn, AcceptsLogin e)
    (hn : Numbered (newUserRefNums c.events) c.nextUserRefNum) : c.Outgoing :=
  ⟨fun _ => h, ⟨_, h.stream⟩, hp, hlogin, hn⟩

/-- An event of the connection keeps a Login Accepted. -/
theorem acceptsLogin_concat {conn : List ClientEvent} (h : ∃ e ∈ conn, AcceptsLogin e) (event : ClientEvent) :
    ∃ e ∈ conn ++ [event], AcceptsLogin e := by
  obtain ⟨e, hmem, hlogin⟩ := h
  exact ⟨e, List.mem_append_left _ hmem, hlogin⟩

theorem bytesSent_concat (events : List ClientEvent) (e : ClientEvent) :
    bytesSent (events ++ [e]) = bytesSent events ++ bytesSent [e] := List.flatMap_append

theorem packetsQueued_concat (events : List ClientEvent) (e : ClientEvent) :
    packetsQueued (events ++ [e]) = packetsQueued events ++ packetsQueued [e] := List.filterMap_append

theorem newUserRefNums_concat (events : List ClientEvent) (e : ClientEvent) :
    newUserRefNums (events ++ [e]) = newUserRefNums events ++ (newUserRefNum e).toList := by
  rw [newUserRefNums, List.filterMap_append]
  cases h : newUserRefNum e <;> simp [h, newUserRefNums]

/-- An event of the connection: what it sends comes from the front of what is left, and
what it queues goes behind it. -/
theorem Sends.event {c' : LoadClient} {e : ClientEvent} (h : c.Sends) (he : c'.conn = c.conn ++ [e])
    (hoff : c'.writeBuf.readOff = 0) (hle : c'.writeBuf.bytesWritten ≤ c'.writeBuf.data.length)
    (hunsent : bytesSent [e] ++ c'.writeBuf.unsent = c.writeBuf.unsent ++ (packetsQueued [e]).flatten)
    (hcon : c'.connecting = true → c.connecting = true ∧ c'.writeBuf = {} ∧ packetsQueued [e] = [])
    (hdone : c'.connecting = false → c.connecting = false ∨ packetsQueued [e] ≠ [])
    (hl : c'.loggedIn = true → c.loggedIn = true ∨ c.connecting = false ∧ AcceptsLogin e) : c'.Sends := by
  have hq : packetsQueued c'.conn = packetsQueued c.conn ++ packetsQueued [e] := by rw [he, packetsQueued_concat]
  refine ⟨hoff, hle, ?_, fun hc => ?_, fun hc => ?_, fun hin => ?_⟩
  · rw [hq, he, bytesSent_concat, List.append_assoc, hunsent, ← List.append_assoc, h.stream, List.flatten_append]
  · obtain ⟨hc, hw, hnone⟩ := hcon hc
    obtain ⟨-, hempty, hout⟩ := h.connecting hc
    refine ⟨hw, by rw [hq, hempty, hnone, List.append_nil], eq_false_of_ne_true fun hin => ?_⟩
    rcases hl hin with hin | ⟨hno, -⟩
    · exact absurd (hout.symm.trans hin) (by decide)
    · exact absurd (hno.symm.trans hc) (by decide)
  · rw [hq]
    rcases hdone hc with hc | hne
    · exact List.append_ne_nil_of_left_ne_nil (h.connected hc) _
    · exact List.append_ne_nil_of_right_ne_nil _ hne
  · rw [he]
    rcases hl hin with hin | ⟨-, hlogin⟩
    · exact acceptsLogin_concat (h.loggedIn hin) e
    · exact ⟨e, List.mem_append_right _ (List.mem_singleton.mpr rfl), hlogin⟩

/-- An event of the connection that queues nothing. -/
theorem Outgoing.of_sends {c' : LoadClient} {e : ClientEvent} (h : c.Outgoing) (hs : c'.Sends)
    (he : c'.events = c.events ++ [e]) (hconn : c'.conn = c.conn ++ [e]) (hqueued : packetsQueued [e] = [])
    (hnew : newUserRefNum e = none) (hn : c'.nextUserRefNum = c.nextUserRefNum) : c'.Outgoing := by
  have hq : packetsQueued c'.conn = packetsQueued c.conn := by
    rw [hconn, packetsQueued_concat, hqueued, List.append_nil]
  refine hs.outgoing (hq ▸ h.packets) (fun hlen => ?_) ?_
  · rw [hconn]
    exact acceptsLogin_concat (h.login (hq ▸ hlen)) e
  · rw [he, newUserRefNums_concat, hnew, Option.toList_none, List.append_nil, hn]
    exact h.numbered

/-- An event of the connection that neither sends nor queues. -/
theorem Outgoing.of_eq {c' : LoadClient} {e : ClientEvent} (h : c.Outgoing) (hfd : c.fd ≠ none)
    (he : c'.events = c.events ++ [e]) (hconn : connectionAfter c.conn e = c.conn ++ [e]) (hsent : bytesSent [e] = [])
    (hqueued : packetsQueued [e] = []) (hnew : newUserRefNum e = none) (hw : c'.writeBuf = c.writeBuf)
    (hc : c'.connecting = c.connecting)
    (hl : c'.loggedIn = true → c.loggedIn = true ∨ c.connecting = false ∧ AcceptsLogin e)
    (hn : c'.nextUserRefNum = c.nextUserRefNum) : c'.Outgoing := by
  have hsends := h.sends hfd
  have hconn' : c'.conn = c.conn ++ [e] := (conn_concat he).trans hconn
  refine h.of_sends (hsends.event hconn' (hw ▸ hsends.readOff) (hw ▸ hsends.written_le) ?_ (fun hcon => ?_)
    (fun hno => .inl (hc ▸ hno)) hl) he hconn' hqueued hnew hn
  · rw [hsent, hqueued, hw, List.flatten_nil, List.append_nil, List.nil_append]
  · exact ⟨hc ▸ hcon, hw.trans (hsends.connecting (hc ▸ hcon)).1, hqueued⟩

/-- A packet is queued, on a connection that is there. -/
theorem Outgoing.queue {x : LoadClient} {item : Queued} {packet : List UInt8} (h : c.Outgoing) (hfd : c.fd ≠ none)
    (he : x.events = c.events) (hw : x.writeBuf = c.writeBuf) (hc : x.connecting = false)
    (hl : x.loggedIn = c.loggedIn) (hfirst : packetsQueued c.conn = [] ∨ c.loggedIn = true)
    (hroom : c.writeBuf.hasRoom packet.length = true)
    (hpackets : ClientPackets (packetsQueued c.conn ++ [packet]))
    (hn : Numbered (newUserRefNums c.events ++ (newUserRefNum (.queued item packet)).toList) x.nextUserRefNum) :
    (x.queue item packet).Outgoing := by
  have hsends := h.sends hfd
  rw [queue_of_hasRoom (hw ▸ hroom)]
  have he' : ({ x with writeBuf := { x.writeBuf with data := x.writeBuf.data ++ packet } }.record
      (.queued item packet)).events = c.events ++ [.queued item packet] :=
    (record_events _ _).trans (congrArg (· ++ _) he)
  have hconn := conn_concat he'
  have hq : packetsQueued (connectionAfter c.conn (.queued item packet)) = packetsQueued c.conn ++ [packet] :=
    packetsQueued_concat _ _
  refine (hsends.event hconn ((congrArg (·.readOff) hw).trans hsends.readOff) ?_ ?_ (fun hcon => ?_)
    (fun _ => .inr (List.cons_ne_nil _ _)) fun hin => .inl (hl ▸ hin)).outgoing ?_ (fun hlen => ?_) ?_
  · show x.writeBuf.bytesWritten ≤ (x.writeBuf.data ++ packet).length
    rw [hw, List.length_append]
    exact Nat.le_add_right_of_le hsends.written_le
  · show (x.writeBuf.data ++ packet).drop x.writeBuf.bytesWritten = c.writeBuf.unsent ++ [packet].flatten
    rw [hw, List.drop_append_of_le_length hsends.written_le, List.flatten_singleton]
    rfl
  · exact absurd (hcon.symm.trans hc) (by decide)
  · rw [hconn, hq]
    exact hpackets
  · rw [hconn] at hlen ⊢
    refine acceptsLogin_concat (hsends.loggedIn (hfirst.resolve_left fun hnil => ?_)) _
    rw [hq, hnil] at hlen
    exact absurd hlen (Nat.not_succ_le_self 1)
  · rw [he', newUserRefNums_concat]
    exact hn

/-! ## Acts -/

/-- A new connection, or none. -/
theorem Outgoing.of_attempt {c' : LoadClient} {time : ℕ} {started : Bool} (h : c.Outgoing)
    (he : c'.events = c.events ++ [.attempt time started]) (hn : c'.nextUserRefNum = c.nextUserRefNum)
    (hnew : c'.fd ≠ none → c'.writeBuf = {} ∧ c'.connecting = true ∧ c'.loggedIn = false) : c'.Outgoing := by
  have hconn : c'.conn = [] := conn_concat he
  refine ⟨fun hopen => ?_, hconn ▸ List.nil_prefix, hconn ▸ .inl rfl, fun hlen => ?_, ?_⟩
  · obtain ⟨hw, hc, hl⟩ := hnew hopen
    refine ⟨hw ▸ rfl, hw ▸ Nat.le_refl _, ?_, fun _ => ⟨hw, hconn ▸ rfl, hl⟩, ?_, ?_⟩
    · rw [hconn, hw]
      rfl
    · exact fun hno => absurd (hc.symm.trans hno) (by decide)
    · exact fun hin => absurd (hl.symm.trans hin) (by decide)
  · rw [hconn] at hlen
    exact absurd hlen (by decide)
  · rw [he, newUserRefNums_concat, hn]
    simpa [newUserRefNum] using h.numbered

/-- An empty write buffer: all that was queued is sent. -/
theorem Sends.of_empty (h : c.Sends) (hlen : c.writeBuf.length = 0) :
    c.writeBuf.data = [] ∧ bytesSent c.conn = (packetsQueued c.conn).flatten := by
  have hdata : c.writeBuf.data = [] := by
    rw [Buffer.length, h.readOff, Nat.sub_zero] at hlen
    exact List.eq_nil_of_length_eq_zero hlen
  refine ⟨hdata, ?_⟩
  rw [← h.stream, WriteBuffer.unsent, hdata, List.drop_nil, List.append_nil]

/-- A logged-in client is connected. -/
theorem Sends.connected_of_loggedIn (h : c.Sends) (hl : c.loggedIn = true) : c.connecting = false := by
  refine eq_false_of_ne_true fun hc => ?_
  exact absurd ((h.connecting hc).2.2.symm.trans hl) (by decide)

/-- The write buffer is moved, with what is left in it. -/
theorem Outgoing.move (h : c.Outgoing) (hfd : c.fd ≠ none) {b : WriteBuffer} (hoff : b.readOff = 0)
    (hle : b.bytesWritten ≤ b.data.length) (hunsent : b.unsent = c.writeBuf.unsent)
    (hempty : c.writeBuf = {} → b = {}) : { c with writeBuf := b }.Outgoing := by
  have hsends := h.sends hfd
  refine Sends.outgoing ⟨hoff, hle, ?_, fun hc => ?_, hsends.connected, hsends.loggedIn⟩ h.packets h.login
    h.numbered
  · exact (congrArg (bytesSent c.conn ++ ·) hunsent).trans hsends.stream
  · obtain ⟨hw, hrest⟩ := hsends.connecting hc
    exact ⟨hempty hw, hrest⟩

theorem Outgoing.reset (h : c.Outgoing) (hfd : c.fd ≠ none) :
    { c with writeBuf := c.writeBuf.tryReset }.Outgoing := by
  have hsends := h.sends hfd
  unfold WriteBuffer.tryReset
  split
  · next hall =>
    refine h.move hfd hsends.readOff (Nat.le_refl 0) ?_ fun hw => by rw [hw]
    exact (List.drop_eq_nil_of_le hall.ge).symm
  · exact h

theorem Outgoing.clear (h : c.Outgoing) (hfd : c.fd ≠ none) (hlen : c.writeBuf.length = 0) : c.clear.Outgoing := by
  have hempty : WriteBuffer.unsent {} = c.writeBuf.unsent := by
    rw [WriteBuffer.unsent, WriteBuffer.unsent, ((h.sends hfd).of_empty hlen).1, List.drop_nil, List.drop_nil]
  exact (h.move hfd rfl (Nat.le_refl 0) hempty fun _ => rfl).of_eq hfd (record_events _ _) rfl rfl rfl rfl rfl rfl .inl
    rfl

theorem Outgoing.written {n : ℕ} (h : c.Outgoing) (hfd : c.fd ≠ none) (hpos : 0 < n)
    (hn : n ≤ c.writeBuf.remainingToSend) (now : ℕ) : (c.written n now).Outgoing := by
  have hsends := h.sends hfd
  have hconn : (c.written n now).conn = c.conn ++ [.sent (c.writeBuf.unsent.take n)] :=
    conn_concat (record_events _ _)
  refine h.of_sends (hsends.event hconn hsends.readOff ?_ ?_ (fun hc => ?_) .inl .inl) (record_events _ _) hconn rfl rfl
    rfl
  · have hle := hsends.written_le
    have hremaining : c.writeBuf.remainingToSend = c.writeBuf.data.length - c.writeBuf.bytesWritten := rfl
    show c.writeBuf.bytesWritten + n ≤ c.writeBuf.data.length
    omega
  · have hunsent : (c.written n now).writeBuf.unsent = c.writeBuf.unsent.drop n := (List.drop_drop ..).symm
    have hsent : bytesSent [.sent (c.writeBuf.unsent.take n)] = c.writeBuf.unsent.take n := List.append_nil _
    rw [hunsent, hsent, List.take_append_drop]
    exact (List.append_nil _).symm
  -- while it connects there is nothing to send
  · rw [(hsends.connecting hc).1] at hn
    exact absurd hn (Nat.not_le.mpr hpos)

theorem Outgoing.logIn (h : c.Outgoing) (hfd : c.fd ≠ none) (hc : c.connecting = true) : c.logIn.Outgoing := by
  obtain ⟨hw, hq, -⟩ := (h.sends hfd).connecting hc
  refine h.queue hfd rfl rfl rfl rfl (.inl hq) ?_ ?_ ?_
  · rw [hw, length_loginPacket]
    decide
  · rw [hq]
    exact .inr ⟨_, [], rfl, isPacket_login c, nofun⟩
  · exact (List.append_nil _).symm ▸ h.numbered

theorem Outgoing.heartbeat (h : c.Outgoing) (hfd : c.fd ≠ none) (hl : c.loggedIn = true)
    (hlen : c.writeBuf.length = 0) : c.heartbeat.Outgoing := by
  have hsends := h.sends hfd
  have hc := hsends.connected_of_loggedIn hl
  refine h.queue hfd rfl rfl hc rfl (.inr hl) ?_ ?_ ?_
  · rw [WriteBuffer.hasRoom, (hsends.of_empty hlen).1]
    decide
  · exact clientPackets_concat h.packets (hsends.connected hc) (.inr isPacket_heartbeat)
  · exact (List.append_nil _).symm ▸ h.numbered

/-- A message with a UserRefNum of its own has the next one. -/
theorem Numbered.concat {refs : List UInt32} {next : UInt32} (h : Numbered refs next) :
    Numbered (refs ++ [next]) (next + 1) := by
  obtain ⟨n, rfl, rfl⟩ := h
  refine ⟨n + 1, ?_, ?_⟩
  · rw [List.range_succ, List.map_append, List.map_singleton]
  · rw [UInt32.ofNat_add (n + 1) 1]
    rfl

theorem Outgoing.enqueue {draw : OrderFactory.Draw} {kind : OrderFactory.FrameKind} {msg : OuchInboundFrame}
    (h : c.Outgoing) (hfd : c.fd ≠ none) (hl : c.loggedIn = true)
    (hmsg : OrderFactory.buildMessage draw c.nextUserRefNum c.target = (kind, msg))
    (hne : (encodeSoupUnsequenced msg 128).length ≠ 0)
    (hroom : c.writeBuf.hasRoom (encodeSoupUnsequenced msg 128).length = true) :
    (c.enqueue kind msg (encodeSoupUnsequenced msg 128)).Outgoing := by
  have hsends := h.sends hfd
  have hc := hsends.connected_of_loggedIn hl
  have hpackets := clientPackets_concat h.packets (hsends.connected hc) (.inl (isPacket_message hne))
  obtain ⟨rfl, rfl⟩ | ⟨t, rfl, rfl⟩ | ⟨t, rfl, rfl⟩ := buildMessage_cases hmsg
  · exact h.queue hfd rfl rfl hc rfl (.inr hl) hroom hpackets h.numbered.concat
  · exact h.queue hfd rfl rfl hc rfl (.inr hl) hroom hpackets ((List.append_nil _).symm ▸ h.numbered)
  · exact h.queue hfd rfl rfl hc rfl (.inr hl) hroom hpackets h.numbered.concat

/-- What a client has sent, after each thing it does. -/
theorem Outgoing.act {c' : LoadClient} {t' : ℕ} (h : c.Outgoing) (ha : Act (c, t) (c', t')) : c'.Outgoing := by
  cases ha with
  | wait => exact h
  | slot =>
    refine ⟨fun hopen => ?_, h.isPrefix, h.packets, h.login, h.numbered⟩
    obtain ⟨hoff, hle, hstream, hconnecting, hconnected, hlogged⟩ := h.sends hopen
    exact ⟨hoff, hle, hstream, hconnecting, hconnected, hlogged⟩
  | noSocket hfd => exact h.of_attempt (record_events _ _) rfl fun hopen => absurd hfd hopen
  | noConnection fd => exact h.of_attempt (record_events _ _) rfl fun hopen => absurd rfl hopen
  | connect fd => exact h.of_attempt (record_events _ _) rfl fun _ => ⟨rfl, rfl, rfl⟩
  | close hfd =>
    have hc : (c.toClientState.reconnect t').connecting = c.connecting := by rw [ClientState.reconnect, if_neg hfd]
    have hl : (c.toClientState.reconnect t').loggedIn = false := by rw [ClientState.reconnect, if_neg hfd]
    refine h.of_eq hfd (record_events _ _) rfl rfl rfl rfl rfl hc (fun hin => ?_) rfl
    exact absurd (hl.symm.trans hin) (by decide)
  | logIn hfd hc => exact h.logIn hfd hc
  | written hfd hpos hn now => exact h.written hfd hpos hn now
  | blocked hfd => exact h.of_eq hfd (record_events _ _) rfl rfl rfl rfl rfl rfl .inl rfl
  | reset hfd => exact h.reset hfd
  | clear hfd _ hlen => exact h.clear hfd hlen
  | enqueue hfd hl _ hmsg hne hroom => exact h.enqueue hfd hl hmsg hne hroom
  | heartbeat hfd hl hlen => exact h.heartbeat hfd hl hlen
  | receive hfd => exact h.of_eq hfd (record_events _ _) rfl rfl rfl rfl rfl rfl .inl rfl
  | @take _ _ n _ hfd hc _ _ hok =>
    have hh := c.toClientState.handleSoupPacket_handles n hok
    refine h.of_eq hfd (record_events _ _) rfl rfl rfl rfl rfl hh.connecting (fun hin => ?_) rfl
    exact (hh.loggedIn.mp hin).imp_right fun hlogin => ⟨hc, hlogin⟩
  | reject hfd _ _ _ hno =>
    have hh := c.toClientState.handleSoupPacket_rejects hno
    exact h.of_eq hfd (record_events _ _) rfl rfl rfl rfl rfl hh.connecting
      (fun hin => .inl (hh.loggedIn ▸ hin)) rfl

theorem Reached.outgoing (h : Reached c t) : c.Outgoing :=
  h.keeps (P := fun c _ => c.Outgoing)
    (fun _ => ⟨fun hopen => absurd rfl hopen, List.nil_prefix, .inl rfl, nofun, 0, rfl, rfl⟩)
    fun _ _ _ _ _ hp ha => hp.act ha

/-! ## Runs -/

/-- The type of a packet is that of its bytes. -/
theorem byte_eq_of_isPacket {type type' : SoupPacketType} {packet : List UInt8} (h : IsPacket type packet)
    (h' : IsPacket type' packet) : type.byte = type'.byte := by
  obtain ⟨payload, h⟩ := h
  obtain ⟨payload', h'⟩ := h'
  injection h.symm.trans h' with e
  exact congrArg SoupPacket.type e

/-- Unsequenced Data is queued after a Login Accepted. -/
theorem Outgoing.accepted (h : c.Outgoing) {packet : List UInt8} (hmem : packet ∈ packetsQueued c.conn)
    (hp : IsPacket .unsequencedData packet) : ∃ e ∈ c.conn, AcceptsLogin e := by
  obtain ⟨login, rest, hq, hlogin, -⟩ := h.packets.resolve_left (List.ne_nil_of_mem hmem)
  refine h.login ?_
  rw [hq] at hmem ⊢
  cases rest with
  | nil =>
    obtain rfl := List.mem_singleton.mp hmem
    exact absurd (byte_eq_of_isPacket hp hlogin) (by decide)
  | cons next rest => exact Nat.le_add_left 2 rest.length

theorem Numbered.increasing {refs : List UInt32} {next : UInt32} (h : Numbered refs next)
    (hlen : refs.length < 2 ^ 32) : refs.Pairwise (· < ·) := by
  obtain ⟨n, rfl, -⟩ := h
  rw [List.length_map, List.length_range] at hlen
  refine List.pairwise_map.mpr (List.pairwise_lt_range.imp_of_mem fun hi hj hlt => ?_)
  have hj := List.mem_range.mp hj
  have hsize : UInt32.size = 2 ^ 32 := rfl
  rw [UInt32.lt_iff_toNat_lt, UInt32.toNat_ofNat_of_lt' (by omega), UInt32.toNat_ofNat_of_lt' (by omega)]
  exact Nat.succ_lt_succ hlt

/-- There is room for what is queued. -/
theorem Reached.not_refused (h : Reached c t) : ¬ Guard c t .refused := by
  rintro ⟨hfd, ⟨hc, hroom⟩ | ⟨-, hlen, hroom⟩⟩
  · rw [((h.outgoing.sends hfd).connecting hc).1, length_loginPacket] at hroom
    exact absurd hroom (by decide)
  · rw [WriteBuffer.hasRoom, ((h.outgoing.sends hfd).of_empty hlen).1] at hroom
    exact absurd hroom (by decide)

end LoadClient

namespace LoadGenerator

/-- In every run of a client:
at every moment, the bytes sent on the connection are the first of a Login Request and
then whole Unsequenced Data and Client Heartbeats, those that have been queued, with no
Unsequenced Data until a Login Accepted was handled on it; while the connection is there,
the rest of them is in the write buffer;
the write buffer is cleared, and a heartbeat queued, only when all has been sent, and no
packet is refused;
and the UserRefNums of its Enters and Replaces increase, as long as there are fewer than
2³². -/
theorem stream_well_formed (n numClients interArrivalNs : ℕ) (k : Kernel) :
    ∀ c ∈ ((new numClients interArrivalNs).run n k).1.clients,
      (∀ past m rest, c.log = past ++ m :: rest → ∀ conn, conn = connectionOf (eventsLogged (past ++ [m])) →
        bytesSent conn <+: (packetsQueued conn).flatten ∧
        ClientPackets (packetsQueued conn) ∧
        (∀ packet ∈ packetsQueued conn, IsPacket .unsequencedData packet → ∃ e ∈ conn, AcceptsLogin e) ∧
        (m.state.fd ≠ none → bytesSent conn ++ m.writeBuf.unsent = (packetsQueued conn).flatten)) ∧
      (∀ past m rest, c.log = past ++ m :: rest → ∀ conn, conn = connectionOf (eventsLogged past) →
        (m.event = .cleared ∨ (∃ packet, m.event = .queued .heartbeat packet) →
          bytesSent conn = (packetsQueued conn).flatten) ∧
        m.event ≠ .refused) ∧
      ((newUserRefNums (eventsLogged c.log)).length < 2 ^ 32 →
        (newUserRefNums (eventsLogged c.log)).Pairwise (· < ·)) := by
  intro c hc
  obtain ⟨t, hr, -⟩ := run_reached n numClients interArrivalNs k c hc
  refine ⟨?_, ?_, hr.outgoing.numbered.increasing⟩
  · rintro past m rest hlog _ rfl
    refine hr.always (P := fun log state writeBuf => ∀ conn, conn = connectionOf (eventsLogged log) →
      bytesSent conn <+: (packetsQueued conn).flatten ∧ ClientPackets (packetsQueued conn) ∧
      (∀ packet ∈ packetsQueued conn, IsPacket .unsequencedData packet → ∃ e ∈ conn, AcceptsLogin e) ∧
      (state.fd ≠ none → bytesSent conn ++ writeBuf.unsent = (packetsQueued conn).flatten)) ?_ hlog _ rfl
    rintro c t h _ rfl
    have ho := h.outgoing
    exact ⟨ho.isPrefix, ho.packets, fun packet hmem hp => ho.accepted hmem hp, fun hfd => (ho.sends hfd).stream⟩
  · rintro past m rest hlog _ rfl
    obtain ⟨c₀, t₀, hr₀, rfl, hguard⟩ := hr.before hlog
    refine ⟨?_, fun hm => hr₀.not_refused (hm ▸ hguard)⟩
    rintro (hm | ⟨packet, hm⟩) <;> rw [hm] at hguard <;> obtain ⟨hfd, -, hlen⟩ := hguard
    · exact ((hr₀.outgoing.sends hfd).of_empty hlen).2
    · exact ((hr₀.outgoing.sends hfd).of_empty hlen).2

/-- A client logs in, and can send the beginning of its first Enter. -/
def dribbling : Kernel where
  clock := id
  clock_mono := monotone_id
  epollWait
    | 0 => .ready [(0, { output := true })]
    | _ => .ready [(0, { input := true })]
  send
    | 0 => .sent 10
    | 1 => .sent WriteBuffer.writeBufBytes
    | 2 => .sent 10
    | _ => .again
  recv _ := .bytes (Outbound.loginAcceptedPacket 1)

theorem stream_well_formed_dribbling : ∃ c ∈ ((new 1 4).run 2 dribbling).1.clients,
    newUserRefNums (eventsLogged c.log) = [1] ∧ (newUserRefNums (eventsLogged c.log)).Pairwise (· < ·) ∧
      (bytesSent (connectionOf (eventsLogged c.log))).length = 59 ∧
      bytesSent (connectionOf (eventsLogged c.log)) <+:
        (packetsQueued (connectionOf (eventsLogged c.log))).flatten := by
  have hrun : ∃ c ∈ ((new 1 4).run 2 dribbling).1.clients, newUserRefNums (eventsLogged c.log) = [1] ∧
      (bytesSent (connectionOf (eventsLogged c.log))).length = 59 ∧ c.log.length ≠ 0 := by
    decide +kernel
  obtain ⟨c, hc, hrefs, hsent, hlog⟩ := hrun
  obtain ⟨hnow, -, hincreasing⟩ := stream_well_formed 2 1 4 dribbling c hc
  have hlog := List.dropLast_append_getLast (List.ne_nil_of_length_pos (Nat.pos_of_ne_zero hlog))
  refine ⟨c, hc, hrefs, hincreasing (hrefs ▸ by decide), hsent, ?_⟩
  exact (hnow _ _ [] hlog.symm _ (congrArg (connectionOf ∘ eventsLogged) hlog.symm)).1

end LoadGenerator

end Exchange
