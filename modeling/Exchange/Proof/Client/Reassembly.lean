import Exchange.Proof.Client.EventLoop
import Exchange.Proof.Server.Segments

/-!
# What the client reads

However `recv()` cuts the stream of a connection, the packets that the client passes to
`handleSoupPacket` are those `parse_soup_packet` finds in it one after the other. What has
been taken and what the read buffer has come to the whole of the stream, whatever follows
(`Cuts`); `recv()` is called only when no whole packet is left, so there is room unless a
packet is longer than the buffer.
-/

namespace Exchange

open Spec (eventsLogged connectionOf connectionAfter bytesReceived packetsHanded bytesConsumed packetsIn cut UpTo)
open InboundThread (cut_length_packet cut_of_not_packet upTo_drop packetLen packetLen_append packetLen_le_of_upTo)

namespace LoadClient

variable {c : LoadClient} {t : ℕ}

/-! ## Streams -/

theorem packetsIn_packet {stream : List UInt8} {packet : SoupPacket} {n : ℕ}
    (hp : parseSoupPacket stream = .packet packet n) : packetsIn stream = packet :: packetsIn (stream.drop n) := by
  rw [packetsIn, cut_length_packet hp]
  rfl

theorem packetsIn_of_not_packet {stream : List UInt8} (h : ∀ packet n, parseSoupPacket stream ≠ .packet packet n) :
    packetsIn stream = [] := by
  rw [packetsIn, cut_of_not_packet h]
  rfl

/-- Of the bytes received, packets have been taken, and `view` is left. -/
structure Cuts (received : List UInt8) (taken : List SoupPacket) (view : List UInt8) : Prop where
  packets : ∀ more, packetsIn (received ++ more) = taken ++ packetsIn (view ++ more)
  upTo : ∀ max more, UpTo max (received ++ more) → UpTo max (view ++ more)

variable {received view : List UInt8} {taken : List SoupPacket}

theorem Cuts.nil : Cuts [] [] [] := ⟨fun _ => rfl, fun _ _ h => h⟩

theorem Cuts.append (h : Cuts received taken view) (bytes : List UInt8) :
    Cuts (received ++ bytes) taken (view ++ bytes) where
  packets more := by
    rw [List.append_assoc, List.append_assoc]
    exact h.packets (bytes ++ more)
  upTo max more := by
    rw [List.append_assoc, List.append_assoc]
    exact h.upTo max (bytes ++ more)

theorem Cuts.take {packet : SoupPacket} {n : ℕ} (h : Cuts received taken view)
    (hp : parseSoupPacket view = .packet packet n) : Cuts received (taken ++ [packet]) (view.drop n) := by
  have hn := (parseSoupPacket_take hp).2.1
  refine ⟨fun more => ?_, fun max more hup => ?_⟩
  · rw [h.packets, packetsIn_packet (parseSoupPacket_append hp more), List.drop_append_of_le_length hn]
    exact List.append_cons _ _ _
  · have hdrop := upTo_drop (h.upTo max more hup) (parseSoupPacket_append hp more)
    rwa [List.drop_append_of_le_length hn] at hdrop

/-! ## The invariant -/

/-- The packets that were taken. -/
def packetsTaken (events : List ClientEvent) : List SoupPacket :=
  events.filterMap fun
    | .handed packet _ => some packet
    | _ => none

/-- A connection: what it has received, what of that is in the read buffer, and what has
been taken. -/
structure Reads (c : LoadClient) : Prop where
  ok : c.readBuf.Ok
  length_le : c.readBuf.data.length ≤ ClientState.readBufBytes
  consumed_le : bytesConsumed c.conn ≤ (bytesReceived c.conn).length
  view : c.readBuf.view = (bytesReceived c.conn).drop (bytesConsumed c.conn)
  cuts : Cuts (bytesReceived c.conn) (packetsTaken c.conn) c.readBuf.view
  rejected : ∀ packet, .rejected packet ∈ c.conn →
    (∃ n, parseSoupPacket c.readBuf.view = .packet packet n) ∧ packetsHanded c.conn = packetsTaken c.conn ++ [packet]
  unrejected : (∀ packet, .rejected packet ∉ c.conn) → packetsHanded c.conn = packetsTaken c.conn

/-- What has been passed on is the beginning of what there is. -/
theorem Reads.isPrefix (h : c.Reads) : packetsHanded c.conn <+: packetsIn (bytesReceived c.conn) := by
  have hpackets := h.cuts.packets []
  rw [List.append_nil, List.append_nil] at hpackets
  rw [hpackets]
  by_cases hr : ∃ packet, .rejected packet ∈ c.conn
  · obtain ⟨packet, hr⟩ := hr
    obtain ⟨⟨n, hparse⟩, hhanded⟩ := h.rejected packet hr
    rw [hhanded, packetsIn_packet hparse]
    exact ⟨_, (List.append_cons _ _ _).symm⟩
  · rw [h.unrejected fun packet hmem => hr ⟨packet, hmem⟩]
    exact List.prefix_append _ _

/-- Where the client stops, it has passed on all packets, unless one was not taken. -/
theorem Reads.of_stopped (h : c.Reads) (hs : c.Stopped) :
    packetsHanded c.conn = packetsIn (bytesReceived c.conn) ∨ ∃ packet, .rejected packet ∈ c.conn := by
  by_cases hr : ∃ packet, .rejected packet ∈ c.conn
  · exact .inr hr
  · have hpackets := h.cuts.packets []
    rw [List.append_nil, List.append_nil, packetsIn_of_not_packet (hs.resolve_right hr), List.append_nil] at hpackets
    exact .inl ((h.unrejected fun packet hmem => hr ⟨packet, hmem⟩).trans hpackets.symm)

/-- Where there is no whole packet, all have been passed on. -/
theorem Reads.of_drained (h : c.Reads) (hd : c.Drained) :
    packetsHanded c.conn = packetsIn (bytesReceived c.conn) := by
  refine (h.of_stopped hd.stopped).resolve_right fun ⟨packet, hr⟩ => ?_
  obtain ⟨⟨n, hparse⟩, -⟩ := h.rejected packet hr
  rw [Drained, hparse] at hd
  cases hd

/-- There is room for the rest of a packet that fits into the buffer. -/
theorem Reads.room_pos (h : c.Reads) (hd : c.Drained) {more : List UInt8}
    (hup : UpTo ClientState.readBufBytes (bytesReceived c.conn ++ more)) : 0 < c.room := by
  have hcap : 2 ≤ ClientState.readBufBytes := by decide
  have hle := h.length_le
  have hv : c.readBuf.view.length = c.readBuf.data.length - c.readBuf.readOff := List.length_drop
  unfold room Buffer.compact
  split
  · next hfull =>
    show 0 < _ - c.readBuf.view.length
    omega
  · next hfull =>
    -- a full buffer of which nothing was taken has a whole packet
    by_contra hroom
    have hlen : c.readBuf.view.length = ClientState.readBufBytes := by omega
    have hpacket := packetLen_le_of_upTo (h.cuts.upTo _ more hup) (by rw [List.length_append]; omega)
    rw [packetLen_append (by omega), packetLen] at hpacket
    rcases parseSoupPacket_eq_incomplete.mp hd with h2 | ⟨-, h2⟩ <;> omega

/-! ## Acts -/

/-- A reached client: its connection, if it has one, and what the last one passed on. -/
structure Reassembles (c : LoadClient) : Prop where
  reads : c.fd ≠ none → c.Reads
  isPrefix : packetsHanded c.conn <+: packetsIn (bytesReceived c.conn)

/-- An event that has nothing to do with reading. -/
def Silent : ClientEvent → Prop
  | .attempt _ _ => False
  | .recv _ _ => False
  | .handed _ _ => False
  | .rejected _ => False
  | _ => True

/-- What an event that is silent leaves as it was. -/
structure SameReading (conn conn' : List ClientEvent) : Prop where
  received : bytesReceived conn' = bytesReceived conn
  consumed : bytesConsumed conn' = bytesConsumed conn
  handed : packetsHanded conn' = packetsHanded conn
  taken : packetsTaken conn' = packetsTaken conn
  rejected : ∀ packet, .rejected packet ∈ conn' ↔ .rejected packet ∈ conn

theorem Silent.sameReading {e : ClientEvent} (h : Silent e) (conn : List ClientEvent) :
    SameReading conn (connectionAfter conn e) := by
  cases e with
  | attempt => exact h.elim
  | recv => exact h.elim
  | handed => exact h.elim
  | rejected => exact h.elim
  | _ => constructor <;> simp [connectionAfter, bytesReceived, bytesConsumed, packetsHanded, packetsTaken]

/-- The connection of a client whose read buffer and what it has read are the same. -/
theorem Reads.of_same {c' : LoadClient} (h : c.Reads) (hs : SameReading c.conn c'.conn)
    (hread : c'.readBuf = c.readBuf) : c'.Reads := by
  obtain ⟨hreceived, hconsumed, hhanded, htaken, hrejected⟩ := hs
  refine ⟨hread ▸ h.ok, hread ▸ h.length_le, ?_, ?_, ?_, fun packet hmem => ?_, fun hno => ?_⟩
  · rw [hconsumed, hreceived]
    exact h.consumed_le
  · rw [hread, hconsumed, hreceived]
    exact h.view
  · rw [hread, hreceived, htaken]
    exact h.cuts
  · rw [hread, hhanded, htaken]
    exact h.rejected packet ((hrejected packet).mp hmem)
  · rw [hhanded, htaken]
    exact h.unrejected fun packet hmem => hno packet ((hrejected packet).mpr hmem)

theorem Reassembles.of_silent {c' : LoadClient} {e : ClientEvent} (h : c.Reassembles)
    (he : c'.events = c.events ++ [e]) (hs : Silent e) (hfd : c'.fd ≠ none → c.fd ≠ none)
    (hread : c'.readBuf = c.readBuf) : c'.Reassembles := by
  have hsame : SameReading c.conn c'.conn := conn_concat he ▸ hs.sameReading c.conn
  refine ⟨fun hopen => (h.reads (hfd hopen)).of_same hsame hread, ?_⟩
  rw [hsame.handed, hsame.received]
  exact h.isPrefix

theorem Reassembles.queue {x : LoadClient} {item : Queued} {packet : List UInt8} (h : c.Reassembles)
    (he : x.events = c.events) (hfd : x.fd = c.fd) (hread : x.readBuf = c.readBuf) :
    (x.queue item packet).Reassembles := by
  obtain hq | hq := queue_events he item packet <;>
    exact h.of_silent hq trivial (fun h => hfd ▸ h) hread

/-- A new connection, or none. -/
theorem Reassembles.of_attempt {c' : LoadClient} {events : List ClientEvent} {time : ℕ} {started : Bool}
    (he : c'.events = events ++ [.attempt time started]) (hread : c'.fd ≠ none → c'.readBuf = {}) :
    c'.Reassembles := by
  have hconn : c'.conn = [] := by
    rw [conn, he, connectionOf, List.foldl_append]
    rfl
  refine ⟨fun hfd => ?_, hconn ▸ List.nil_prefix⟩
  have hbuf := hread hfd
  refine ⟨hbuf ▸ Nat.zero_le _, hbuf ▸ Nat.zero_le _, ?_, ?_, ?_, ?_, ?_⟩ <;> rw [hconn]
  · exact Nat.zero_le _
  · rw [hbuf]
    rfl
  · rw [hbuf]
    exact .nil
  · exact fun _ h => absurd h List.not_mem_nil
  · exact fun _ => rfl

/-- `read_from` appends what there is room for. -/
theorem receive_readBuf (h : c.Reads) (bytes : List UInt8) :
    (c.receive bytes).readBuf.Ok ∧ (c.receive bytes).readBuf.view = c.readBuf.view ++ bytes.take c.room ∧
      (c.receive bytes).readBuf.data.length ≤ ClientState.readBufBytes := by
  obtain ⟨hok, hview⟩ := h.ok.readFrom ClientState.readBufBytes bytes
  have htake : bytes.take (c.readBuf.readFrom ClientState.readBufBytes bytes).1 = bytes.take c.room := by
    show bytes.take (bytes.take c.room).length = _
    rw [List.length_take, ← List.take_eq_take_min]
  have hcompact : (c.readBuf.compact ClientState.readBufBytes).data.length ≤ ClientState.readBufBytes := by
    have hle := h.length_le
    unfold Buffer.compact
    split
    · rw [Buffer.view, List.length_drop]
      omega
    · exact hle
  refine ⟨hok, hview.trans (congrArg _ htake), ?_⟩
  show (_ ++ bytes.take c.room).length ≤ _
  have hroom : c.room = ClientState.readBufBytes - (c.readBuf.compact ClientState.readBufBytes).data.length := rfl
  rw [List.length_append, List.length_take]
  omega

theorem Reads.of_receive (h : c.Reads) (hd : c.Drained) (bytes : List UInt8) : (c.receive bytes).Reads := by
  obtain ⟨hok, hview, hle⟩ := receive_readBuf h bytes
  have hconn : (c.receive bytes).conn = c.conn ++ [.recv c.room (bytes.take c.room)] := record_conn _ _
  have hreceived : bytesReceived (c.receive bytes).conn = bytesReceived c.conn ++ bytes.take c.room := by
    simp [hconn, bytesReceived]
  have hconsumed : bytesConsumed (c.receive bytes).conn = bytesConsumed c.conn := by simp [hconn, bytesConsumed]
  have hhanded : packetsHanded (c.receive bytes).conn = packetsHanded c.conn := by simp [hconn, packetsHanded]
  have htaken : packetsTaken (c.receive bytes).conn = packetsTaken c.conn := by simp [hconn, packetsTaken]
  have hrejected : ∀ packet, .rejected packet ∉ c.conn := fun packet hr => by
    obtain ⟨⟨n, hparse⟩, -⟩ := h.rejected packet hr
    rw [Drained, hparse] at hd
    cases hd
  refine ⟨hok, hle, ?_, ?_, ?_, fun packet hr => ?_, fun _ => ?_⟩
  · rw [hconsumed, hreceived, List.length_append]
    exact Nat.le_add_right_of_le h.consumed_le
  · rw [hview, hconsumed, hreceived, List.drop_append_of_le_length h.consumed_le, h.view]
  · rw [hview, hreceived, htaken]
    exact h.cuts.append _
  · rw [hconn] at hr
    exact absurd ((List.mem_append.mp hr).resolve_right (by simp)) (hrejected packet)
  · rw [hhanded, htaken]
    exact h.unrejected hrejected

theorem Reads.of_take {packet : SoupPacket} {n : ℕ} (h : c.Reads) (hopen : ∀ p, .rejected p ∉ c.conn)
    (hparse : parseSoupPacket c.readBuf.view = .packet packet n)
    (hok : (c.toClientState.handleSoupPacket packet).1 = true) : (c.take packet n).Reads := by
  have hread : (c.take packet n).readBuf = c.readBuf.advance n :=
    congrArg (·.advance n) (c.toClientState.handleSoupPacket_handles n hok).readBuf
  obtain ⟨hbuf, hview⟩ := Buffer.advance_view c.readBuf n
  have hn := (parseSoupPacket_take hparse).2.1
  rw [h.view, List.length_drop] at hn
  have hconn : (c.take packet n).conn = c.conn ++ [.handed packet n] := record_conn _ _
  have hreceived : bytesReceived (c.take packet n).conn = bytesReceived c.conn := by simp [hconn, bytesReceived]
  have hconsumed : bytesConsumed (c.take packet n).conn = bytesConsumed c.conn + n := by simp [hconn, bytesConsumed]
  have hhanded : packetsHanded (c.take packet n).conn = packetsHanded c.conn ++ [packet] := by
    simp [hconn, packetsHanded]
  have htaken : packetsTaken (c.take packet n).conn = packetsTaken c.conn ++ [packet] := by
    simp [hconn, packetsTaken]
  refine ⟨hread ▸ hbuf, ?_, ?_, ?_, ?_, fun p hr => ?_, fun _ => ?_⟩
  · have hle := h.length_le
    rw [hread, Buffer.advance]
    split
    · exact Nat.zero_le _
    · exact hle
  · have hle := h.consumed_le
    rw [hconsumed, hreceived]
    omega
  · rw [hread, hview, h.view, List.drop_drop, hconsumed, hreceived]
  · rw [hread, hview, hreceived, htaken]
    exact h.cuts.take hparse
  · rw [hconn] at hr
    exact absurd ((List.mem_append.mp hr).resolve_right (by simp)) (hopen p)
  · rw [hhanded, htaken, h.unrejected hopen]

theorem Reads.of_reject {packet : SoupPacket} {n : ℕ} (h : c.Reads) (hopen : ∀ p, .rejected p ∉ c.conn)
    (hparse : parseSoupPacket c.readBuf.view = .packet packet n)
    (hno : (c.toClientState.handleSoupPacket packet).1 = false) : (c.reject packet).Reads := by
  have hread : (c.reject packet).readBuf = c.readBuf := (c.toClientState.handleSoupPacket_rejects hno).readBuf
  have hconn : (c.reject packet).conn = c.conn ++ [.rejected packet] := record_conn _ _
  have hreceived : bytesReceived (c.reject packet).conn = bytesReceived c.conn := by simp [hconn, bytesReceived]
  have hconsumed : bytesConsumed (c.reject packet).conn = bytesConsumed c.conn := by simp [hconn, bytesConsumed]
  have hhanded : packetsHanded (c.reject packet).conn = packetsHanded c.conn ++ [packet] := by
    simp [hconn, packetsHanded]
  have htaken : packetsTaken (c.reject packet).conn = packetsTaken c.conn := by simp [hconn, packetsTaken]
  refine ⟨hread ▸ h.ok, hread ▸ h.length_le, ?_, ?_, ?_, fun p hr => ?_, fun hnone => ?_⟩
  · rw [hconsumed, hreceived]
    exact h.consumed_le
  · rw [hread, hconsumed, hreceived]
    exact h.view
  · rw [hread, hreceived, htaken]
    exact h.cuts
  · rw [hconn] at hr
    obtain rfl : p = packet := by
      have he := List.mem_singleton.mp ((List.mem_append.mp hr).resolve_left (hopen p))
      injection he
    rw [hread, hhanded, htaken, h.unrejected hopen]
    exact ⟨⟨n, hparse⟩, rfl⟩
  · exact absurd (by rw [hconn]; exact List.mem_append_right _ (List.mem_singleton.mpr rfl)) (hnone packet)

theorem Reads.reassembles (h : c.Reads) : c.Reassembles := ⟨fun _ => h, h.isPrefix⟩

theorem Reassembles.act {c' : LoadClient} {t' : ℕ} (h : c.Reassembles) (ha : Act (c, t) (c', t')) :
    c'.Reassembles := by
  cases ha with
  | wait => exact h
  | reset => exact ⟨fun hfd => (h.reads hfd).of_same ⟨rfl, rfl, rfl, rfl, fun _ => .rfl⟩ rfl, h.isPrefix⟩
  | slot => exact ⟨fun hfd => (h.reads hfd).of_same ⟨rfl, rfl, rfl, rfl, fun _ => .rfl⟩ rfl, h.isPrefix⟩
  | noSocket hfd => exact .of_attempt (record_events _ _) fun hno => absurd hfd hno
  | noConnection => exact .of_attempt (record_events _ _) fun _ => rfl
  | connect => exact .of_attempt (record_events _ _) fun _ => rfl
  | close hfd =>
    have hread : (c.toClientState.reconnect t').readBuf = c.readBuf := by rw [ClientState.reconnect, if_neg hfd]
    exact h.of_silent (record_events _ _) trivial (fun _ => hfd) hread
  | logIn => exact h.queue rfl rfl rfl
  | written => exact h.of_silent (record_events _ _) trivial id rfl
  | blocked => exact h.of_silent (record_events _ _) trivial id rfl
  | clear => exact h.of_silent (record_events _ _) trivial id rfl
  | @enqueue _ _ _ kind =>
    obtain ⟨_, _, _, _, e⟩ := c.count_eq kind
    rw [enqueue, e]
    exact h.queue rfl rfl rfl
  | heartbeat => exact h.queue rfl rfl rfl
  | receive hfd _ hidle bytes => exact ((h.reads hfd).of_receive hidle bytes).reassembles
  | take hfd _ hopen hparse hok => exact ((h.reads hfd).of_take hopen hparse hok).reassembles
  | reject hfd _ hopen hparse hno => exact ((h.reads hfd).of_reject hopen hparse hno).reassembles

theorem Reached.reassembles (h : Reached c t) : c.Reassembles :=
  h.keeps (P := fun c _ => c.Reassembles) (fun _ => ⟨nofun, List.nil_prefix⟩) fun _ _ _ _ _ hp ha => hp.act ha

end LoadClient

namespace LoadGenerator

/-- In every run of a client:
at every moment, the view of the read buffer of a connection is what it has received and
not consumed, and the packets passed to `handleSoupPacket` are the first of those in the
bytes received; when a connection ends, they are all of them, unless one was not taken;
whenever `recv()` is called they are all of them, and there is room, if no packet of the
stream is longer than the read buffer;
and between iterations they are all of them. -/
theorem packets_reassembled (n numClients interArrivalNs : ℕ) (k : Kernel) :
    ∀ c ∈ ((new numClients interArrivalNs).run n k).1.clients,
      (∀ past m rest, c.log = past ++ m :: rest → ∀ conn, conn = connectionOf (eventsLogged (past ++ [m])) →
        (m.state.fd ≠ none → m.state.readBuf.view = (bytesReceived conn).drop (bytesConsumed conn)) ∧
        packetsHanded conn <+: packetsIn (bytesReceived conn)) ∧
      (∀ past m rest, c.log = past ++ m :: rest → ∀ conn, conn = connectionOf (eventsLogged past) →
        (∀ time, m.event = .closed time →
          packetsHanded conn = packetsIn (bytesReceived conn) ∨ ∃ packet, .rejected packet ∈ conn) ∧
        (∀ room bytes, m.event = .recv room bytes → packetsHanded conn = packetsIn (bytesReceived conn) ∧
          ∀ more, UpTo ClientState.readBufBytes (bytesReceived conn ++ more) → 0 < room)) ∧
      (c.fd ≠ none → ∀ conn, conn = connectionOf (eventsLogged c.log) →
        c.readBuf.view = (bytesReceived conn).drop (bytesConsumed conn) ∧
        packetsHanded conn = packetsIn (bytesReceived conn)) := by
  intro c hc
  obtain ⟨t, hr, hidle⟩ := run_reached n numClients interArrivalNs k c hc
  refine ⟨?_, ?_, ?_⟩
  · rintro past m rest hlog _ rfl
    exact hr.always (P := fun log state _ =>
      (state.fd ≠ none → state.readBuf.view =
        (bytesReceived (connectionOf (eventsLogged log))).drop (bytesConsumed (connectionOf (eventsLogged log)))) ∧
      packetsHanded (connectionOf (eventsLogged log)) <+: packetsIn (bytesReceived (connectionOf (eventsLogged log))))
      (fun c t h => ⟨fun hfd => (h.reassembles.reads hfd).view, h.reassembles.isPrefix⟩) hlog
  · rintro past m rest hlog _ rfl
    obtain ⟨c₀, t₀, hr₀, rfl, hguard⟩ := hr.before hlog
    refine ⟨fun time hm => ?_, fun room bytes hm => ?_⟩ <;> rw [hm] at hguard
    · obtain ⟨hfd, hstopped⟩ := hguard
      exact (hr₀.reassembles.reads hfd).of_stopped hstopped
    · obtain ⟨hfd, hdrained, rfl⟩ := hguard
      have hreads := hr₀.reassembles.reads hfd
      exact ⟨hreads.of_drained hdrained, fun more hup => hreads.room_pos hdrained hup⟩
  · rintro hfd _ rfl
    have hreads := hr.reassembles.reads hfd
    exact ⟨hreads.view, hreads.of_drained (hidle.drained hfd)⟩

/-- A Server Heartbeat comes in two parts. -/
def splitting : Kernel where
  clock := id
  clock_mono := monotone_id
  epollWait
    | 0 => .ready [(0, { output := true })]
    | _ => .ready [(0, { input := true })]
  send _ := .sent WriteBuffer.writeBufBytes
  recv
    | 0 => .bytes (Outbound.heartbeatPacket.take 1)
    | _ => .bytes (Outbound.heartbeatPacket.drop 1)

theorem packets_reassembled_splitting : ∃ c ∈ ((new 1 0).run 3 splitting).1.clients, c.fd = some 0 ∧
    bytesReceived (connectionOf (eventsLogged c.log)) = Outbound.heartbeatPacket ∧
    packetsHanded (connectionOf (eventsLogged c.log)) = packetsIn Outbound.heartbeatPacket ∧
    0 < ClientState.readBufBytes := by
  have hmem : _ ∈ ((new 1 0).run 3 splitting).1.clients := List.mem_singleton.mpr rfl
  obtain ⟨-, hbefore, hnow⟩ := packets_reassembled 3 1 0 splitting _ hmem
  have hup : UpTo ClientState.readBufBytes ([] ++ Outbound.heartbeatPacket) := by
    unfold UpTo
    decide
  obtain ⟨-, hrecv⟩ := hbefore [_, _, _] _ [_, _] rfl _ rfl
  refine ⟨_, hmem, rfl, rfl, (hnow (Option.some_ne_none 0) _ rfl).2, ?_⟩
  exact (hrecv ClientState.readBufBytes _ rfl).2 _ hup

end LoadGenerator

end Exchange
