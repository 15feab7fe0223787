import Exchange.Impl.System
import Exchange.Proof.Client
import Exchange.Proof.Server.History
import Exchange.Proof.Server.Inbound

/-!
# Delivery across reconnects

However the steps of the server, the client and the network are interleaved, the client
has handled the first messages of its session, each once and in order, and asks for the
next one: `delivered_exactly_once`.

`ServerOk` puts together the invariants of the two threads. `ClientOk` says what the
client's connections have to do with them: what was written on a socket is what the login
of its connection asks for, the login is answered from there, and the client reads the
bytes the connection was sent.
-/

namespace Exchange

open Spec (LoggedIn Disconnected Pushable Pushed Stream Sent)
open InboundThread (pack normalize)

/-! ## Login Requests -/

/-- The Login Request a client writes for message `n`. -/
def loginBytes (clientId n : ℕ) : List UInt8 := ({ clientId := clientId, nextSequence := n } : ClientState).handleConnect.2

theorem parse_loginBytes (clientId n : ℕ) : parseSoupPacket (loginBytes clientId n) =
    .packet ⟨SoupPacketType.loginRequest.byte,
      loginRequestPayload ({ clientId := clientId, nextSequence := n } : ClientState).loginRequest⟩
      (loginBytes clientId n).length := by
  let login := ({ clientId := clientId, nextSequence := n } : ClientState).loginRequest
  have e : loginBytes clientId n = bigEndian 2 ((loginRequestPayload login).length + 1) ++
      [SoupPacketType.loginRequest.byte] ++ loginRequestPayload login := by
    rw [length_loginRequestPayload, loginRequestPayload, ← List.append_assoc, ← List.append_assoc, ← List.append_assoc]
    rfl
  rw [e]
  exact parseSoupPacket_encoded _ (by rw [length_loginRequestPayload]; decide)

theorem decode_loginBytes (clientId : ℕ) {n : ℕ} (h : n < 2 ^ 64) :
    decodeSoupLoginRequest (loginRequestPayload ({ clientId := clientId, nextSequence := n } : ClientState).loginRequest) =
      some ({ clientId := clientId, nextSequence := n } : ClientState).loginRequest :=
  decodeSoupLoginRequest_payload h

theorem loginBytes_inj {clientId n n' : ℕ} (hn : n < 2 ^ 64) (hn' : n' < 2 ^ 64)
    (e : loginBytes clientId n = loginBytes clientId n') : n = n' := by
  have hp := parse_loginBytes clientId n'
  rw [← e, parse_loginBytes] at hp
  injection hp with hp _
  injection hp with _ hp
  have hd := decode_loginBytes clientId hn'
  rw [← hp, decode_loginBytes clientId hn] at hd
  exact congrArg SoupLoginRequest.requestedSequenceNumber (Option.some.inj hd)

namespace System

/-! ## The invariant -/

/-- The session of the client. -/
def session (s : System) : Option ℕ :=
  s.inbound.usernames.lookup (pack (normalize (ClientState.username s.client.clientId)))

/-- The packets appended to the client's session. -/
def packets (s : System) : List (List UInt8) := s.session.elim [] s.outbound.history.appended

/-- The two threads, with the notes between them. -/
structure ServerOk (s : System) : Prop where
  inbound : s.inbound.Ok s.seen
  taken_le : s.taken ≤ s.inbound.notes.length
  outbound : s.outbound.Ok (s.inbound.notes.take s.taken)
  socket : ∀ conn i, s.socketOf conn = some i → conn ∈ s.seen ∧ i < s.sockets
  unique : ∀ conn conn' i, s.socketOf conn = some i → s.socketOf conn' = some i → conn = conn'

/-- The client reads from socket `i`: it asked for message `n` when it had handled
`before`, and it has read `bytes`. -/
structure Reading (s : System) (i n : ℕ) (before : List (List UInt8)) (bytes : List UInt8) : Prop where
  written : s.written i = some (loginBytes s.client.clientId n)
  resumes : ClientState.Resumes s.packets before n
  reads : s.client.Reads before n bytes
  length : bytes.length = s.received
  sent : ∀ conn, s.socketOf conn = some i → bytes <+: s.outbound.tcp.accepted conn
  exists_conn : bytes = [] ∨ ∃ conn, s.socketOf conn = some i

/-- The client asked for message `n` on socket `i`. -/
def Asked (s : System) (i n : ℕ) : Prop :=
  s.written i = some (loginBytes s.client.clientId n) ∧ 1 ≤ n ∧ n ≤ s.packets.length + 1

/-- The client's connections, and what the server knows of them. -/
structure ClientOk (s : System) : Prop where
  fd_lt : ∀ i, s.client.fd = some i → i < s.sockets
  fresh : ∀ i, s.sockets ≤ i → s.written i = none
  written : ∀ i, s.written i ≠ none → ∃ n, s.Asked i n
  notes : ∀ c conn n i, .loginAccepted c conn n ∈ s.inbound.notes → s.socketOf conn = some i →
    s.session = some c ∧ s.Asked i n
  logins : ∀ c conn n i, s.outbound.history.logins conn = some (.accepted c n) → s.socketOf conn = some i →
    s.session = some c ∧ s.Asked i n
  idle : s.client.fd = none → s.client.Delivered s.packets
  connecting : ∀ i, s.client.fd = some i → s.client.connecting → s.client.Delivered s.packets ∧
    s.written i = none ∧ s.client.readBuf = {} ∧ s.client.loggedIn = false ∧ s.received = 0
  reading : ∀ i, s.client.fd = some i → ¬ s.client.connecting → ∃ n before bytes, s.Reading i n before bytes

/-- Sequence numbers are of 64 bits. -/
def Bounded (s : System) : Prop := s.packets.length + 1 < 2 ^ 64

variable {s s' : System}

theorem packets_of_session {c : ℕ} (h : s.session = some c) : s.packets = s.outbound.history.appended c := by
  rw [packets, h]
  rfl

theorem ServerOk.isData (h : s.ServerOk) : ∀ p ∈ s.packets, IsData p := by
  intro p hp
  cases hs : s.session with
  | none =>
    rw [packets, hs] at hp
    cases hp
  | some c =>
    rw [packets_of_session hs] at hp
    obtain ⟨hne, msg, rfl⟩ := h.outbound.packets c p hp
    exact isData_encodeSoupSequenced hne

/-- What a connection of the client was sent is what the server can send it. -/
theorem ClientOk.fromServer (hc : s.ClientOk) (hs : s.ServerOk) (hb : s.Bounded) {conn : ConnId} {i n : ℕ}
    (hconn : s.socketOf conn = some i) (hw : s.written i = some (loginBytes s.client.clientId n)) (hn : n < 2 ^ 64) :
    FromServer s.packets n (s.outbound.tcp.accepted conn) := by
  have hsent := hs.outbound.sent conn
  cases hl : s.outbound.history.logins conn with
  | none =>
    rw [hl] at hsent
    have e : s.outbound.tcp.accepted conn = [] := hsent
    exact e ▸ .inl ⟨.notAuthorized, List.nil_prefix⟩
  | some login =>
    rw [hl] at hsent
    cases login with
    | rejected reason => exact .inl ⟨reason, hsent⟩
    | accepted c start =>
      obtain ⟨hsession, hasked⟩ := hc.logins c conn start i hl hconn
      have hstream : Stream (s.outbound.history.appended c) start (s.outbound.tcp.accepted conn) := hsent
      rw [← packets_of_session hsession] at hstream
      obtain rfl : start = n := loginBytes_inj (Nat.lt_of_le_of_lt hasked.2.2 hb) hn
        (Option.some.inj (hasked.1.symm.trans hw))
      exact .inr hstream

theorem Reading.fromServer {i n : ℕ} {before : List (List UInt8)} {bytes : List UInt8} (hs : s.ServerOk)
    (hc : s.ClientOk) (h : s.Reading i n before bytes) : FromServer s.packets n bytes := by
  rcases h.exists_conn with rfl | ⟨conn, hconn⟩
  · exact .inl ⟨.notAuthorized, List.nil_prefix⟩
  · have hn : n < 2 ^ 64 := Nat.lt_of_le_of_lt h.resumes.le h.resumes.bound
    exact (hc.fromServer hs h.resumes.bound hconn h.written hn).of_isPrefix (h.sent conn hconn)

theorem ClientOk.delivered (hs : s.ServerOk) (hc : s.ClientOk) : s.client.Delivered s.packets := by
  cases hfd : s.client.fd with
  | none => exact hc.idle hfd
  | some i =>
    by_cases hcon : s.client.connecting
    · exact (hc.connecting i hfd hcon).1
    · obtain ⟨n, before, bytes, h⟩ := hc.reading i hfd hcon
      exact h.reads.delivered h.resumes (h.fromServer hs hc)

/-! ## Steps of the server -/

/-- What a step of the server does, as far as the client is concerned. -/
structure Advances (s s' : System) : Prop where
  client : s'.client = s.client
  sockets : s'.sockets = s.sockets
  written : s'.written = s.written
  received : s'.received = s.received
  session : ∀ c, s.session = some c → s'.session = some c
  appended : ∀ c, s.outbound.history.appended c <+: s'.outbound.history.appended c
  accepted : ∀ conn, s.outbound.tcp.accepted conn <+: s'.outbound.tcp.accepted conn

theorem Advances.packets (h : Advances s s') : s.packets <+: s'.packets := by
  cases hs : s.session with
  | none =>
    rw [System.packets, hs]
    exact List.nil_prefix
  | some c =>
    rw [packets_of_session hs, packets_of_session (h.session c hs)]
    exact h.appended c

theorem Advances.asked (h : Advances s s') {i n : ℕ} (ha : s.Asked i n) : s'.Asked i n := by
  unfold Asked
  rw [h.written, h.client]
  exact ⟨ha.1, ha.2.1, ha.2.2.trans (Nat.succ_le_succ h.packets.length_le)⟩

theorem Advances.bounded (h : Advances s s') (hb : s'.Bounded) : s.Bounded :=
  Nat.lt_of_le_of_lt (Nat.succ_le_succ h.packets.length_le) hb

/-- A step of the server; the login of one of the client's connections is the one that
the client wrote. -/
theorem ClientOk.advance (h : s.ClientOk) (ha : Advances s s') (hs' : s'.ServerOk) (hb : s'.Bounded)
    (hold : ∀ conn i, s.socketOf conn = some i → s'.socketOf conn = some i)
    (hnew : ∀ conn i, s'.socketOf conn = some i → s.socketOf conn = some i ∨ ∀ conn', s.socketOf conn' ≠ some i)
    (hnotes : ∀ c conn n i, .loginAccepted c conn n ∈ s'.inbound.notes → s'.socketOf conn = some i →
      s'.session = some c ∧ s.Asked i n)
    (hlogins : ∀ c conn n i, s'.outbound.history.logins conn = some (.accepted c n) → s'.socketOf conn = some i →
      s'.session = some c ∧ s.Asked i n) : s'.ClientOk where
  fd_lt := by
    rw [ha.client, ha.sockets]
    exact h.fd_lt
  fresh := by
    rw [ha.sockets, ha.written]
    exact h.fresh
  written i hw := by
    rw [ha.written] at hw
    obtain ⟨n, hn⟩ := h.written i hw
    exact ⟨n, ha.asked hn⟩
  notes c conn n i hm hi := (hnotes c conn n i hm hi).imp_right ha.asked
  logins c conn n i hl hi := (hlogins c conn n i hl hi).imp_right ha.asked
  idle hfd := by
    rw [ha.client] at hfd ⊢
    exact (h.idle hfd).mono ha.packets
  connecting i hfd hcon := by
    rw [ha.client] at hfd hcon
    obtain ⟨hd, hw⟩ := h.connecting i hfd hcon
    rw [ha.client, ha.written, ha.received]
    exact ⟨hd.mono ha.packets, hw⟩
  reading i hfd hcon := by
    rw [ha.client] at hfd hcon
    obtain ⟨n, before, bytes, hr⟩ := h.reading i hfd hcon
    refine ⟨n, before, bytes, ?_, hr.resumes.mono ha.packets hs'.isData hb, ?_, ?_, fun conn hconn => ?_, ?_⟩
    · rw [ha.client, ha.written]
      exact hr.written
    · rw [ha.client]
      exact hr.reads
    · rw [ha.received]
      exact hr.length
    · rcases hnew conn i hconn with hconn | hnone
      · exact (hr.sent conn hconn).trans (ha.accepted conn)
      · -- nothing was read before the connection was there
        rcases hr.exists_conn with rfl | ⟨conn', hconn'⟩
        · exact List.nil_prefix
        · exact absurd hconn' (hnone conn')
    · exact hr.exists_conn.imp_right fun ⟨conn, hconn⟩ => ⟨conn, hold conn i hconn⟩

/-- The invariant: the server's, and the client's as long as sequence numbers do not wrap. -/
def Ok (s : System) : Prop := s.ServerOk ∧ (s.Bounded → s.ClientOk)

/-- A step of the server that keeps its invariant, in which the logins of the client's
connections are those the client wrote. -/
theorem Ok.advance (h : s.Ok) (ha : Advances s s') (hs' : s'.ServerOk)
    (hc : s'.Bounded → s.ClientOk → s'.ClientOk) : s'.Ok :=
  ⟨hs', fun hb => hc hb (h.2 (ha.bounded hb))⟩

/-- The inbound thread does something, and the logins it lets in are those of `P`. -/
theorem Ok.inbound (h : s.Ok) {t : InboundThread} {P : ℕ → ConnId → ℕ → Prop} (hok : t.Ok s.seen)
    (hadmits : InboundThread.Admits s.inbound t P)
    (hP : s.Bounded → s.ClientOk → ∀ c conn n i, P c conn n → s.socketOf conn = some i →
      { s with inbound := t }.session = some c ∧ s.Asked i n) :
    { s with inbound := t }.Ok := by
  obtain ⟨new, hnew, hnewP⟩ := hadmits.notes
  have ha : Advances s { s with inbound := t } :=
    ⟨rfl, rfl, rfl, rfl, fun c hc => hadmits.usernames _ c hc, fun _ => List.prefix_rfl, fun _ => List.prefix_rfl⟩
  have hs' : { s with inbound := t }.ServerOk := { h.1 with
    inbound := hok
    taken_le := by
      show s.taken ≤ t.notes.length
      rw [hnew, List.length_append]
      exact Nat.le_add_right_of_le h.1.taken_le
    outbound := by
      show s.outbound.Ok (t.notes.take s.taken)
      rw [hnew, List.take_append_of_le_length h.1.taken_le]
      exact h.1.outbound }
  refine h.advance ha hs' fun hb hc => ?_
  refine hc.advance ha hs' hb (fun _ _ e => e) (fun _ _ e => .inl e) (fun c conn n i hm hi => ?_) fun c conn n i hl hi => ?_
  · rcases List.mem_append.mp (hnew ▸ hm : .loginAccepted c conn n ∈ s.inbound.notes ++ new) with hm | hm
    · exact (hc.notes c conn n i hm hi).imp_left (ha.session c)
    · exact hP (ha.bounded hb) hc c conn n i (hnewP c conn n hm) hi
  · exact (hc.logins c conn n i hl hi).imp_left (ha.session c)

theorem packet_ok (h : s.Ok) {conn : ConnId} {packet : SoupPacket} (harrive : s.canArrive conn packet) :
    ∃ s', s.onInbound (.packet conn packet) = some s' ∧ s'.Ok := by
  obtain ⟨t, ht, hok, hadmits⟩ := InboundThread.onEvent_ok h.1.inbound (.packet conn packet) trivial
  refine ⟨{ s with inbound := t }, by rw [onInbound, ht]; rfl, h.inbound hok hadmits fun hb hc c conn' n i hP hi => ?_⟩
  obtain ⟨packet', e, htype, login, hd, rfl, hu⟩ := hP
  cases e
  -- the packet is the Login Request that was written on the socket
  simp only [canArrive, hi, htype, ne_eq, not_true_eq_false, decide_false, Bool.false_or] at harrive
  cases hw : s.written i with
  | none =>
    rw [hw] at harrive
    cases harrive
  | some bytes =>
    rw [hw] at harrive
    obtain ⟨m, hm⟩ := hc.written i (by rw [hw]; nofun)
    obtain rfl : bytes = loginBytes s.client.clientId m := Option.some.inj (hw.symm.trans hm.1)
    have hlt : m < 2 ^ 64 := Nat.lt_of_le_of_lt hm.2.2 hb
    have hp := of_decide_eq_true harrive
    rw [parse_loginBytes] at hp
    injection hp with hp _
    rw [← hp, decode_loginBytes _ hlt] at hd
    cases hd
    exact ⟨hu, hm⟩

theorem ended_ok (h : s.Ok) (conn : ConnId) : ∃ s', s.onInbound (.ended conn) = some s' ∧ s'.Ok := by
  obtain ⟨t, ht, hok, hadmits⟩ := InboundThread.onEvent_ok h.1.inbound (.ended conn) trivial
  refine ⟨{ s with inbound := t }, by rw [onInbound, ht]; rfl, h.inbound hok hadmits fun _ _ c conn' n i hP _ => ?_⟩
  obtain ⟨packet, e, -⟩ := hP
  cases e

/-- The notes the outbound thread has taken are among those pushed. -/
theorem ServerOk.accepted_mem (h : s.ServerOk) {c n : ℕ} {conn : ConnId}
    (hl : s.outbound.history.logins conn = some (.accepted c n)) : conn ∈ s.seen := by
  obtain ⟨sequence, hm⟩ := h.outbound.accepted conn c n hl
  exact h.inbound.mem conn (.inl (.inl ⟨c, sequence, List.mem_of_mem_take hm⟩))

theorem accepted_ok (h : s.Ok) {conn : ConnId} {socket : Option ℕ} (haccept : s.canAccept conn socket) :
    ∃ s', { s with seen := conn :: s.seen, socketOf := Function.update s.socketOf conn socket }.onInbound
      (.accepted conn) = some s' ∧ s'.Ok := by
  simp only [canAccept, Bool.and_eq_true, decide_eq_true_eq, ne_eq, Bool.not_eq_true'] at haccept
  obtain ⟨⟨⟨h0, hnew⟩, hfree⟩, hsocket⟩ := haccept
  have hsocket : ∀ i, socket = some i → i < s.sockets ∧ ∀ conn', s.socketOf conn' ≠ some i := by
    rintro i rfl
    simp only [Bool.and_eq_true, decide_eq_true_eq, List.all_eq_true] at hsocket
    exact ⟨hsocket.1, fun conn' e => hsocket.2 conn' (h.1.socket conn' i e).1 e⟩
  have hself : Function.update s.socketOf conn socket conn = socket := Function.update_self ..
  have hother : ∀ conn', conn' ∈ s.seen → Function.update s.socketOf conn socket conn' = s.socketOf conn' :=
    fun conn' hm => Function.update_of_ne (fun e : conn' = conn => hnew (e ▸ hm)) ..
  have hcases : ∀ conn' i, Function.update s.socketOf conn socket conn' = some i →
      s.socketOf conn' = some i ∨ conn' = conn ∧ socket = some i := fun conn' i hi => by
    by_cases e : conn' = conn
    · subst e
      exact .inr ⟨rfl, hself ▸ hi⟩
    · exact .inl (by rwa [Function.update_of_ne e] at hi)
  have hok := InboundThread.accepted_ok h.1.inbound h0 hnew (by simp [hfree]) 0
  refine ⟨_, rfl, ?_⟩
  have ha : Advances s { s with
      inbound := s.inbound.accept conn 0
      seen := conn :: s.seen
      socketOf := Function.update s.socketOf conn socket } :=
    ⟨rfl, rfl, rfl, rfl, fun _ hc => hc, fun _ => List.prefix_rfl, fun _ => List.prefix_rfl⟩
  refine h.advance ha ?hs fun hb hc => hc.advance ha ?hs hb (fun conn' i hi => ?_) (fun conn' i hi => ?_)
    (fun c conn' n i hm hi => ?_) fun c conn' n i hl hi => ?_
  case hs =>
    refine ⟨hok, h.1.taken_le, h.1.outbound, fun conn' i hi => ?_, fun conn' conn'' i hi hi' => ?_⟩
    · rcases hcases conn' i hi with hi | ⟨rfl, e⟩
      · exact (h.1.socket conn' i hi).imp_left (List.mem_cons_of_mem conn)
      · exact ⟨List.mem_cons_self, (hsocket i e).1⟩
    · rcases hcases conn' i hi with hk | ⟨rfl, e⟩
      · rcases hcases conn'' i hi' with hk' | ⟨rfl, e'⟩
        · exact h.1.unique conn' conn'' i hk hk'
        · exact absurd hk ((hsocket i e').2 conn')
      · rcases hcases conn'' i hi' with hk' | ⟨rfl, -⟩
        · exact absurd hk' ((hsocket i e).2 conn'')
        · rfl
  · exact (hother conn' (h.1.socket conn' i hi).1).trans hi
  · exact (hcases conn' i hi).imp_right fun ⟨_, e⟩ => (hsocket i e).2
  · exact hc.notes c conn' n i hm ((hother conn' (h.1.inbound.mem conn' (.inl (.inl ⟨c, n, hm⟩)))).symm.trans hi)
  · exact hc.logins c conn' n i hl ((hother conn' (h.1.accepted_mem hl)).symm.trans hi)

/-! ## Steps of the outbound thread -/

/-- The outbound thread does something, and the client asked for what it has accepted. -/
theorem Ok.withOutbound (h : s.Ok) {taken : ℕ} {outbound : Outbound}
    (hs' : { s with taken := taken, outbound := outbound }.ServerOk)
    (happended : ∀ c, s.outbound.history.appended c <+: outbound.history.appended c)
    (haccepted : ∀ conn, s.outbound.tcp.accepted conn <+: outbound.tcp.accepted conn)
    (hlogins : s.ClientOk → ∀ c conn n i, outbound.history.logins conn = some (.accepted c n) →
      s.socketOf conn = some i → s.session = some c ∧ s.Asked i n) :
    Ok { s with taken := taken, outbound := outbound } := by
  have ha : Advances s { s with taken := taken, outbound := outbound } :=
    ⟨rfl, rfl, rfl, rfl, fun _ hc => hc, happended, haccepted⟩
  exact h.advance ha hs' fun hb hc =>
    hc.advance ha hs' hb (fun _ _ e => e) (fun _ _ e => .inl e) hc.notes (hlogins hc)

/-- A step of the outbound thread that takes no note. -/
theorem quiet_ok (h : s.Ok) {step : Outbound.Step} (hq : Spec.notesOf [step] = []) :
    ∃ s', s.onOutbound step = some s' ∧ s'.Ok := by
  obtain ⟨outbound, ho, hok⟩ := Outbound.quiet_ok h.1.outbound hq
  have hg : Outbound.Grows s.outbound outbound := by
    refine Outbound.step_grows (fun conn hl => ?_) ho
    rw [hq] at hl
    rcases hl with ⟨_, _, hm⟩ | ⟨_, hm⟩ <;> cases hm
  have hs' : { s with outbound := outbound }.ServerOk := { h.1 with outbound := hok }
  refine ⟨{ s with outbound := outbound }, by rw [onOutbound, ho]; rfl,
    h.withOutbound hs' hg.appended hg.accepted fun hc c conn n i hl hi => ?_⟩
  exact hc.logins c conn n i (by rwa [← hg.logins]) hi

/-- The client asks for a message the session has or the next one, so that is where its
login is answered from. -/
theorem ServerOk.start (hs : s.ServerOk) {c n i : ℕ} (hsession : s.session = some c) (hasked : s.Asked i n) :
    (if n = 0 ∨ n > (s.outbound.ensureLog c).1.nextSeq then (s.outbound.ensureLog c).1.nextSeq else n) = n := by
  obtain ⟨-, h1, hle⟩ := hasked
  rw [packets_of_session hsession] at hle
  have hnext : (s.outbound.ensureLog c).1.nextSeq = (s.outbound.history.appended c).length + 1 := by
    cases hl : (s.outbound.sessions c).log with
    | none =>
      have hlog := hs.outbound.logs c
      rw [Outbound.LogOk, hl] at hlog
      rw [Outbound.ensureLog_of_none hl, hlog.1]
      rfl
    | some log =>
      have hlog := hs.outbound.logs c
      rw [Outbound.LogOk, hl] at hlog
      rw [Outbound.ensureLog_of_some hl]
      exact hlog.1.next
  exact if_neg (by omega)

theorem takeNote_ok (h : s.Ok) {note : ServerNote} (hnote : s.inbound.notes[s.taken]? = some note) :
    ∃ s', { s with taken := s.taken + 1 }.onOutbound (.note note) = some s' ∧ s'.Ok := by
  obtain ⟨hlt, hget⟩ := List.getElem?_eq_some_iff.mp hnote
  have htake : s.inbound.notes.take (s.taken + 1) = s.inbound.notes.take s.taken ++ [note] := by
    rw [List.take_succ_eq_append_getElem hlt, hget]
  have hpush : Pushable (s.inbound.notes.take s.taken) note :=
    h.1.inbound.pushed _ note (s.inbound.notes.drop (s.taken + 1)) (by
      rw [← hget, List.getElem_cons_drop, List.take_append_drop])
  refine ⟨_, rfl, ?_⟩
  have hs' : { s with taken := s.taken + 1, outbound := s.outbound.onNote note }.ServerOk := { h.1 with
    taken_le := hlt
    outbound := by
      show (s.outbound.onNote note).Ok (s.inbound.notes.take (s.taken + 1))
      rw [htake]
      exact Outbound.onNote_ok h.1.outbound hpush }
  by_cases hl : ∃ conn, LoggedIn [note] conn
  · obtain ⟨conn, hl⟩ := hl
    obtain ⟨login, hans, hstart⟩ := Outbound.onNote_answers s.outbound hl
    refine h.withOutbound hs' (fun _ => by rw [hans.appended]) hans.accepted fun hc c conn' n i hlog hi => ?_
    rw [hans.logins] at hlog
    by_cases e : conn' = conn
    · subst e
      rw [Function.update_self] at hlog
      obtain ⟨m, rfl, hn⟩ := hstart c n (Option.some.inj hlog)
      obtain ⟨hsession, hasked⟩ := hc.notes c conn' m i (List.mem_of_getElem? hnote) hi
      rw [h.1.start hsession hasked] at hn
      exact ⟨hsession, hn ▸ hasked⟩
    · rw [Function.update_of_ne e] at hlog
      exact hc.logins c conn' n i hlog hi
  · have hg := Outbound.onNote_grows s.outbound (fun conn hc => hl ⟨conn, hc⟩)
    refine h.withOutbound hs' hg.appended hg.accepted fun hc c conn n i hlog hi => ?_
    exact hc.logins c conn n i (by rwa [← hg.logins]) hi

/-! ## Steps of the client -/

section

variable {client : ClientState} (received : ℕ)

theorem session_setClient (hid : client.clientId = s.client.clientId) :
    { s with client := client, received := received }.session = s.session := by
  unfold session
  rw [hid]

theorem packets_setClient (hid : client.clientId = s.client.clientId) :
    { s with client := client, received := received }.packets = s.packets := by
  unfold packets
  rw [session_setClient received hid]

/-- The client changes, and how much it has read. -/
theorem Ok.setClient (h : s.Ok) (hid : client.clientId = s.client.clientId)
    (hclient : s.Bounded → s.ClientOk → (client.fd = none ∧ client.Delivered s.packets) ∨
      ∃ i n before bytes, client.fd = some i ∧ s.client.fd = some i ∧ ¬ client.connecting ∧
        { s with client := client, received := received }.Reading i n before bytes) :
    Ok { s with client := client, received := received } := by
  have hp := packets_setClient (s := s) received hid
  have hsession := session_setClient (s := s) received hid
  refine ⟨{ h.1 with }, fun hb => ?_⟩
  have hb : s.Bounded := by rwa [Bounded, hp] at hb
  have hc := h.2 hb
  have hasked : ∀ i n, s.Asked i n → { s with client := client, received := received }.Asked i n := fun i n ha => by
    unfold Asked
    rw [hp, hid]
    exact ha
  have hwritten : ∀ i, s.written i ≠ none → ∃ n, { s with client := client, received := received }.Asked i n :=
    fun i hw => (hc.written i hw).imp (hasked i)
  have hnotes : ∀ c conn n i, .loginAccepted c conn n ∈ s.inbound.notes → s.socketOf conn = some i →
      { s with client := client, received := received }.session = some c ∧
        { s with client := client, received := received }.Asked i n := fun c conn n i hm hi => by
    rw [hsession]
    exact (hc.notes c conn n i hm hi).imp_right (hasked i n)
  have hlogins : ∀ c conn n i, s.outbound.history.logins conn = some (.accepted c n) → s.socketOf conn = some i →
      { s with client := client, received := received }.session = some c ∧
        { s with client := client, received := received }.Asked i n := fun c conn n i hl hi => by
    rw [hsession]
    exact (hc.logins c conn n i hl hi).imp_right (hasked i n)
  rcases hclient hb hc with ⟨hfd, hd⟩ | ⟨i, n, before, bytes, hfd, hfd', hcon, hreading⟩
  · have hno : ∀ i, client.fd ≠ some i := fun i hi => absurd (hi.symm.trans hfd) nofun
    exact {
      fd_lt := fun i hi => absurd hi (hno i)
      fresh := hc.fresh
      written := hwritten
      notes := hnotes
      logins := hlogins
      idle := fun _ => by rw [hp]; exact hd
      connecting := fun i hi => absurd hi (hno i)
      reading := fun i hi => absurd hi (hno i) }
  · exact {
      fd_lt := fun j hj => hc.fd_lt j (hfd'.trans (hfd.symm.trans hj))
      fresh := hc.fresh
      written := hwritten
      notes := hnotes
      logins := hlogins
      idle := fun hno => absurd (hno.symm.trans hfd) nofun
      connecting := fun _ _ hi => absurd hi hcon
      reading := fun j hj _ => by
        obtain rfl : i = j := Option.some.inj (hfd.symm.trans hj)
        exact ⟨n, before, bytes, hreading⟩ }

end

theorem connect_ok (h : s.Ok) :
    Ok { s with client := s.client.connectClient s.sockets, sockets := s.sockets + 1, received := 0 } := by
  refine ⟨{ h.1 with socket := fun conn i hi => (h.1.socket conn i hi).imp_right Nat.lt_succ_of_lt }, fun hb => ?_⟩
  have hc := h.2 hb
  have hdelivered := hc.delivered h.1
  exact {
    fd_lt := fun i hi => Option.some.inj hi ▸ Nat.lt_succ_self _
    fresh := fun i hi => hc.fresh i (Nat.le_of_succ_le hi)
    written := hc.written
    notes := hc.notes
    logins := hc.logins
    idle := nofun
    connecting := fun i hi _ =>
      ⟨hdelivered, hc.fresh i (Nat.le_of_eq (Option.some.inj hi)), rfl, rfl, rfl⟩
    reading := fun _ _ hcon => absurd rfl hcon }

theorem connected_ok (h : s.Ok) {i : ℕ} (hfd : s.client.fd = some i) (hcon : s.client.connecting) :
    Ok { s with
      client := s.client.handleConnect.1, written := Function.update s.written i (some s.client.handleConnect.2) } := by
  refine ⟨{ h.1 with }, fun hb => ?_⟩
  have hc := h.2 hb
  obtain ⟨⟨hh, hn⟩, hw, hbuf, hl, hr⟩ := hc.connecting i hfd hcon
  have hle := hh.length_le
  rw [List.length_map] at hle
  have hself : Function.update s.written i (some s.client.handleConnect.2) i =
      some (loginBytes s.client.clientId s.client.nextSequence) := Function.update_self ..
  -- nothing was asked for on the socket before
  have hother : ∀ j, s.written j ≠ none →
      Function.update s.written i (some s.client.handleConnect.2) j = s.written j := fun j hj =>
    Function.update_of_ne (fun e : j = i => hj (e ▸ hw)) ..
  have hasked : ∀ j n, s.Asked j n → System.Asked { s with
      client := s.client.handleConnect.1
      written := Function.update s.written i (some s.client.handleConnect.2) } j n := fun j n ha =>
    ⟨(hother j (by rw [ha.1]; nofun)).trans ha.1, ha.2⟩
  exact {
    fd_lt := hc.fd_lt
    fresh := fun j hj => by
      show Function.update s.written i (some s.client.handleConnect.2) j = none
      rw [Function.update_of_ne (fun e : j = i => absurd (hc.fd_lt i hfd) (Nat.not_lt.mpr (e ▸ hj)))]
      exact hc.fresh j hj
    written := fun j hj => by
      by_cases e : j = i
      · subst e
        exact ⟨_, hself, by rw [hn]; omega, by rw [hn]; exact Nat.succ_le_succ hle⟩
      · have hj : Function.update s.written i (some s.client.handleConnect.2) j ≠ none := hj
        rw [Function.update_of_ne e] at hj
        obtain ⟨n, hn⟩ := hc.written j hj
        exact ⟨n, hasked j n hn⟩
    notes := fun c conn n j hm hj => (hc.notes c conn n j hm hj).imp_right (hasked j n)
    logins := fun c conn n j hlog hj => (hc.logins c conn n j hlog hj).imp_right (hasked j n)
    idle := fun hno => absurd (hno.symm.trans hfd) nofun
    connecting := nofun
    reading := fun j hj _ => by
      obtain rfl : i = j := Option.some.inj (hfd.symm.trans hj)
      refine ⟨s.client.nextSequence, s.client.handled, [], hself, ⟨h.1.isData, hb, hh, hn⟩, ⟨?_, [], ?_, nofun, hl, rfl, rfl⟩,
        hr.symm, fun _ _ => List.nil_prefix, .inl rfl⟩
      · show s.client.readBuf.Ok
        rw [hbuf]
        exact Nat.zero_le _
      · show [] = s.client.readBuf.view
        rw [hbuf]
        rfl }

theorem lost_ok (h : s.Ok) (now : ℕ) : Ok { s with client := s.client.reconnect now } := by
  by_cases hfd : s.client.fd = none
  · have e : s.client.reconnect now = s.client := if_pos hfd
    rw [e]
    exact h
  · obtain ⟨hnone, hid, hh, hn⟩ := ClientState.reconnect_eq hfd now
    refine h.setClient s.received hid fun _ hc => .inl ⟨hnone, ?_⟩
    unfold ClientState.Delivered
    rw [hh, hn]
    exact hc.delivered h.1

/-- The client reads what has arrived. -/
theorem receive_ok (h : s.Ok) (now n : ℕ) {conn : ConnId} {i : ℕ} (hfd : s.client.fd = some i)
    (hconn : s.socketOf conn = some i) (hcon : ¬ s.client.connecting) {arrived : List UInt8}
    (harrived : arrived = ((s.outbound.tcp.accepted conn).drop s.received).take n) :
    Ok { s with
      client := s.client.handleReadable now arrived
      received := s.received + (s.client.readBuf.readFrom ClientState.readBufBytes arrived).1 } := by
  refine h.setClient _ (ClientState.handleReadable_clientId ..) fun hb hc => ?_
  obtain ⟨m, before, bytes, hr⟩ := hc.reading i hfd hcon
  obtain ⟨room, hroom⟩ : ∃ room, room = (s.client.readBuf.readFrom ClientState.readBufBytes arrived).1 := ⟨_, rfl⟩
  have hlen : (arrived.take room).length = room := by
    rw [hroom, List.length_take]
    exact Nat.min_eq_left (List.length_take_le' _ _)
  -- what has been read in all is the beginning of what was sent
  have hsent : bytes ++ arrived.take room <+: s.outbound.tcp.accepted conn := by
    have e : s.outbound.tcp.accepted conn = bytes ++ (s.outbound.tcp.accepted conn).drop s.received := by
      conv_lhs => rw [← List.take_append_drop s.received (s.outbound.tcp.accepted conn)]
      rw [← hr.length, ← List.prefix_iff_eq_take.mp (hr.sent conn hconn)]
    rw [e, List.prefix_append_right_inj, harrived]
    exact (List.take_prefix _ _).trans (List.take_prefix _ _)
  have hm : m < 2 ^ 64 := Nat.lt_of_le_of_lt hr.resumes.le hb
  have hfrom := (hc.fromServer h.1 hb hconn hr.written hm).of_isPrefix hsent
  obtain ⟨hid, hout⟩ := ClientState.handleReadable_ok hr.resumes now (hfd ▸ nofun) hr.reads (hroom ▸ hfrom)
  rcases hout with ⟨hfd', hcon', hreads⟩ | hout
  · refine .inr ⟨i, m, before, bytes ++ arrived.take room, hfd'.trans hfd, hfd, hcon' ▸ hcon, ?_⟩
    rw [← hroom] at hreads ⊢
    refine ⟨?_, ?_, hreads, ?_, fun conn' hconn' => ?_, .inr ⟨conn, hconn⟩⟩
    · exact hid.symm ▸ hr.written
    · rw [packets_setClient (s := s) _ hid]
      exact hr.resumes
    · show (bytes ++ arrived.take room).length = s.received + room
      rw [List.length_append, hr.length, hlen]
    · exact h.1.unique conn conn' i hconn hconn' ▸ hsent
  · exact .inl hout

/-! ## Runs -/

/-- What one step preserves. -/
theorem step_ok (h : s.Ok) (step : Step) : ∃ s', s.step step = some s' ∧ s'.Ok := by
  cases step with
  | accepted conn socket =>
    dsimp only [System.step]
    split
    · next ha => exact accepted_ok h ha
    · exact ⟨s, rfl, h⟩
  | packet conn packet =>
    dsimp only [System.step]
    split
    · next ha => exact packet_ok h ha
    · exact ⟨s, rfl, h⟩
  | ended conn => exact ended_ok h conn
  | takeNote =>
    dsimp only [System.step]
    cases hn : s.inbound.notes[s.taken]? with
    | none => exact ⟨s, rfl, h⟩
    | some note => exact takeNote_ok h hn
  | event event => exact quiet_ok h rfl
  | flush => exact quiet_ok h rfl
  | heartbeat => exact quiet_ok h rfl
  | closeAll => exact quiet_ok h rfl
  | connect =>
    dsimp only [System.step]
    split
    · exact ⟨_, rfl, connect_ok h⟩
    · exact ⟨s, rfl, h⟩
  | connected =>
    dsimp only [System.step]
    cases hfd : s.client.fd with
    | none => exact ⟨s, rfl, h⟩
    | some i =>
      dsimp only
      split
      · next hcon => exact ⟨_, rfl, connected_ok h hfd hcon⟩
      · exact ⟨s, rfl, h⟩
  | lost now => exact ⟨_, rfl, lost_ok h now⟩
  | receive now n conn =>
    dsimp only [System.step]
    split
    · next hx =>
      split
      · exact ⟨s, rfl, h⟩
      · obtain ⟨i, hfd⟩ := Option.ne_none_iff_exists'.mp hx.1
        exact ⟨_, rfl, receive_ok h now n hfd (hx.2.1.trans hfd) (by simpa using hx.2.2) rfl⟩
    · exact ⟨s, rfl, h⟩

/-- What a run preserves. -/
theorem run_ok (steps : List Step) (h : s.Ok) : ∃ s', s.run steps = some s' ∧ s'.Ok := by
  induction steps generalizing s with
  | nil => exact ⟨s, rfl, h⟩
  | cons step steps ih =>
    obtain ⟨s₁, hs₁, h₁⟩ := step_ok h step
    obtain ⟨s', hs', h'⟩ := ih h₁
    refine ⟨s', ?_, h'⟩
    rw [run, hs₁]
    exact hs'

/-- Nothing has happened. -/
def init (k : ℕ) (clock : Clock) (takes : ℕ → ℕ) (sendableAt : ℕ → Bool) (clientId : ℕ) : System where
  outbound := { soupReplayBytes := 2 ^ (k + 9), clock := clock, tcp := ⟨takes, sendableAt, 0, fun _ => [], []⟩ }
  client := { clientId := clientId }

theorem Ok.init (k : ℕ) (clock : Clock) (takes : ℕ → ℕ) (sendableAt : ℕ → Bool) (clientId : ℕ) :
    (init k clock takes sendableAt clientId).Ok := by
  refine ⟨⟨InboundThread.Ok.new, Nat.le_refl 0, Outbound.Ok.new k clock _ rfl, nofun, nofun⟩, fun _ => ?_⟩
  exact {
    fd_lt := nofun
    fresh := fun _ _ => rfl
    written := fun _ h => absurd rfl h
    notes := nofun
    logins := nofun
    idle := fun _ => ⟨List.nil_prefix, rfl⟩
    connecting := nofun
    reading := nofun }

/-- A login for messages the log no longer holds is rejected when its note is taken. -/
theorem takeNote_dropped (h : s.Ok) {c n : ℕ} {conn : ConnId} {log : SessionLog}
    (hnote : s.inbound.notes[s.taken]? = some (.loginAccepted c conn n))
    (hlog : (s.outbound.sessions c).log = some log) (h0 : n ≠ 0) (hn : n < log.firstSeq) :
    ∃ s', s.step .takeNote = some s' ∧
      s'.outbound.history.logins conn = some (.rejected .sessionNotAvailable) := by
  refine ⟨{ s with taken := s.taken + 1, outbound := s.outbound.acceptLogin c conn n }, ?_, ?_⟩
  · unfold System.step
    rw [hnote]
    rfl
  · have hok := (h.1.outbound.logOk hlog).1
    rw [show ({ s with taken := s.taken + 1, outbound := s.outbound.acceptLogin c conn n } : System).outbound =
      s.outbound.acceptLogin c conn n from rfl, (Outbound.acceptLogin_answers s.outbound c conn n).1.logins,
      Function.update_self, Outbound.ensureLog_of_some hlog, Outbound.answer_dropped hok.first_le c h0 hn]

end System

/-- However the steps of the server, the client and the network are interleaved, nothing
undefined happens; as long as the session has fewer than 2^64 - 1 messages, the client
has handled the first of them, each once and in order, it will ask for the next, and the
logins of its connections were accepted from the message it asked for. A login for
messages the log no longer holds is rejected. -/
theorem delivered_exactly_once (k : ℕ) (clock : Clock) (takes : ℕ → ℕ) (sendableAt : ℕ → Bool) (clientId : ℕ)
    (steps : List System.Step) :
    ∃ s, (System.init k clock takes sendableAt clientId).run steps = some s ∧
      (s.packets.length + 1 < 2 ^ 64 → s.client.handled <+: s.packets.map payloadOf ∧
        s.client.nextSequence = s.client.handled.length + 1 ∧
        ∀ conn i c n, s.socketOf conn = some i → s.outbound.history.logins conn = some (.accepted c n) →
          s.session = some c ∧ s.written i = some (loginBytes s.client.clientId n)) ∧
      ∀ c conn n log, s.inbound.notes[s.taken]? = some (.loginAccepted c conn n) →
        (s.outbound.sessions c).log = some log → n ≠ 0 → n < log.firstSeq →
        ∃ s', s.step .takeNote = some s' ∧
          s'.outbound.history.logins conn = some (.rejected .sessionNotAvailable) := by
  obtain ⟨s, hs, hok⟩ := System.run_ok steps (System.Ok.init k clock takes sendableAt clientId)
  refine ⟨s, hs, fun hb => ?_, fun c conn n log hnote hlog h0 hn => System.takeNote_dropped hok hnote hlog h0 hn⟩
  have hc := hok.2 hb
  obtain ⟨hh, hn⟩ := hc.delivered hok.1
  refine ⟨hh, hn, fun conn i c n hi hl => ?_⟩
  obtain ⟨hsession, hasked⟩ := hc.logins c conn n i hl hi
  exact ⟨hsession, hasked.1⟩

end Exchange
