import Exchange.Framework.Filter
import Exchange.Proof.Server.SessionLog
import Exchange.Spec.Session
import Mathlib.Data.List.Infix

/-!
# The outbound thread

`Outbound.Ok`: what every connection has been sent and what is still pending for it are
together a Login Rejected, or Login Accepted, heartbeats and the packets of its session
to the last one (`ConnOk`). There is one lemma for each thing the thread can do.

`outbound_stream_ok`: whatever the stack accepts, the bytes of every connection are the
beginning of such a stream, and no pending control packet is overwritten.
-/

namespace Exchange

open Spec (SoupItem packetsOf bytesOf Stream Sent LoggedIn Disconnected MayLogin Pushable Pushed Endable EndedOnce
  notesOf)

/-! ## Streams -/

theorem packetsOf_append (items items' : List SoupItem) :
    packetsOf (items ++ items') = packetsOf items ++ packetsOf items' := List.filterMap_append

theorem bytesOf_append (items items' : List SoupItem) :
    bytesOf (items ++ items') = bytesOf items ++ bytesOf items' := List.flatMap_append

theorem packetsOf_data (packets : List (List UInt8)) : packetsOf (packets.map .data) = packets := by
  rw [packetsOf, List.filterMap_map]
  exact List.filterMap_some

theorem bytesOf_data (packets : List (List UInt8)) : bytesOf (packets.map .data) = packets.flatten := by
  rw [bytesOf, List.flatMap_map]
  exact List.flatMap_id'

/-- More packets leave what was sent as it is. -/
theorem sent_mono {appended appended' : ℕ → List (List UInt8)} {login : Option Login} {bytes : List UInt8}
    (h : Sent appended login bytes) (hle : ∀ c, appended c <+: appended' c) : Sent appended' login bytes := by
  match login with
  | none => exact h
  | some (.rejected reason) => exact h
  | some (.accepted c start) =>
    obtain ⟨h₁, h₂, items, hi, hb⟩ := h
    have hlen := (hle c).length_le
    exact ⟨h₁, by omega, items, hi.trans ((hle c).drop _), hb⟩

/-! ## Notes -/

/-- There is no note to say something of. -/
theorem forall_split_nil {P : List ServerNote → ServerNote → Prop} :
    ∀ past note rest, ([] : List ServerNote) = past ++ note :: rest → P past note :=
  fun _ _ _ e => absurd e.symm (List.append_ne_nil_of_right_ne_nil _ (List.cons_ne_nil _ _))

theorem pushed_nil : Pushed [] := forall_split_nil

theorem pushed_concat {notes : List ServerNote} {note : ServerNote} (h : Pushed notes) (hn : Pushable notes note) :
    Pushed (notes ++ [note]) := List.forall_split_concat h hn

theorem endedOnce_nil : EndedOnce [] := forall_split_nil

theorem endedOnce_concat {notes : List ServerNote} {note : ServerNote} (h : EndedOnce notes) (hn : Endable notes note) :
    EndedOnce (notes ++ [note]) := List.forall_split_concat h hn

theorem endedOnce_of_append {notes more : List ServerNote} (h : EndedOnce (notes ++ more)) : EndedOnce notes :=
  fun past note rest e => h past note (rest ++ more) (by rw [e, List.append_assoc, List.cons_append])

theorem loggedIn_append {notes more : List ServerNote} {conn : ConnId} :
    LoggedIn (notes ++ more) conn ↔ LoggedIn notes conn ∨ LoggedIn more conn := by
  simp only [LoggedIn, List.mem_append, exists_or]
  exact or_or_or_comm

theorem disconnected_append {notes more : List ServerNote} {conn : ConnId} :
    Disconnected (notes ++ more) conn ↔ Disconnected notes conn ∨ Disconnected more conn := by
  simp only [Disconnected, List.mem_append, exists_or]

/-- A note is of one login. -/
theorem loggedIn_singleton {note : ServerNote} {conn conn' : ConnId} (h : LoggedIn [note] conn)
    (h' : LoggedIn [note] conn') : conn' = conn := by
  rcases h with ⟨_, _, h⟩ | ⟨_, h⟩ <;> rcases h' with ⟨_, _, h'⟩ | ⟨_, h'⟩ <;>
    cases (List.mem_singleton.mp h).trans (List.mem_singleton.mp h').symm <;> rfl

namespace Outbound

/-- The bytes a connection has yet to be sent of its control packet. -/
def pending (x : OutboundConnection) : List UInt8 := x.control.drop x.controlSent

/-- What a connection has been sent and will be sent before its session's log. -/
def out (s : Outbound) (slot : ℕ) : List UInt8 :=
  s.tcp.accepted (s.connections slot).conn ++ pending (s.connections slot)

/-- The session feeds the connection in `slot`, from message `start` on: `bytes` followed
by the rest of the log are Login Accepted, heartbeats and all packets from `start` on. -/
structure Feeds (session : OutboundSession) (packets : List (List UInt8)) (slot start : ℕ) (bytes : List UInt8) :
    Prop where
  slot_eq : session.slot = some slot
  log : ∃ log, session.log = some log ∧ session.cursor ≤ log.endOffset ∧
    log.endOffset ≤ session.cursor + log.capacity
  start_pos : 1 ≤ start
  start_le : start ≤ packets.length + 1
  stream : ∃ items, packetsOf items = packets.drop (start - 1) ∧
    bytes ++ packets.flatten.drop session.cursor = loginAcceptedPacket start ++ bytesOf items

/-- What an open connection sends, given how its login was answered. -/
def Sends (s : Outbound) (slot : ℕ) : Option Login → Prop
  | none => False
  | some (.rejected reason) => (s.connections slot).clientId = 0 ∧ s.out slot = loginRejectedPacket reason
  | some (.accepted c start) => (s.connections slot).clientId = c ∧ c ≠ 0 ∧
      Feeds (s.sessions c) (s.history.appended c) slot start (s.out slot)

/-- An open connection. -/
structure ConnOk (past : List ServerNote) (s : Outbound) (slot : ℕ) : Prop where
  slot_eq : (s.connections slot).conn.slot = slot
  generation : (s.connections slot).closedGeneration ≠ (s.connections slot).conn.generation
  alive : ¬ Disconnected past (s.connections slot).conn
  sends : s.Sends slot (s.history.logins (s.connections slot).conn)

/-- A session's log has the packets that were appended, and a session without a log has
no connection. -/
def LogOk (s : Outbound) (c : ℕ) : Prop :=
  match (s.sessions c).log with
  | none => s.history.appended c = [] ∧ (s.sessions c).slot = none
  | some log => log.Ok (s.history.appended c) ∧ log.capacity = s.soupReplayBytes

/-- The state after the notes of the past. -/
structure Ok (past : List ServerNote) (s : Outbound) : Prop where
  size : ∃ k, s.soupReplayBytes = 2 ^ (k + 9)
  logs : ∀ c, s.LogOk c
  conns : ∀ slot, (s.connections slot).isOpen → s.ConnOk past slot
  idle : ∀ slot, ¬ (s.connections slot).isOpen → (s.connections slot).control = []
  slots : ∀ c slot, (s.sessions c).slot = some slot →
    (s.connections slot).isOpen ∧ (s.connections slot).clientId = c ∧ c ≠ 0
  sent : ∀ conn, Sent s.history.appended (s.history.logins conn) (s.tcp.accepted conn)
  packets : ∀ c, ∀ p ∈ s.history.appended c, p ≠ [] ∧ ∃ msg, p = encodeSoupSequenced msg maxSoupPacket
  overwritten : s.history.overwritten = []
  rejected : ∀ conn reason, s.history.logins conn = some (.rejected reason) → LoggedIn past conn
  accepted : ∀ conn c start, s.history.logins conn = some (.accepted c start) →
    ∃ sequence, .loginAccepted c conn sequence ∈ past
  closed : ∀ slot, (s.connections slot).closedGeneration = 0 ∨
    LoggedIn past ⟨slot, (s.connections slot).closedGeneration⟩ ∨
    Disconnected past ⟨slot, (s.connections slot).closedGeneration⟩

/-! ## What the invariant does not depend on -/

/-- A connection without what only decides when something is sent. -/
def core (x : OutboundConnection) : OutboundConnection where
  conn := x.conn
  isOpen := x.isOpen
  clientId := x.clientId
  control := x.control
  controlSent := x.controlSent
  closedGeneration := x.closedGeneration

/-- The state without what only decides when something is sent. -/
def erase (s : Outbound) : Outbound where
  soupReplayBytes := s.soupReplayBytes
  clock := s.clock
  tcp := ⟨s.tcp.takes, s.tcp.sendableAt, 0, s.tcp.accepted, []⟩
  connections := fun slot => core (s.connections slot)
  sessions := s.sessions
  history := { s.history with unsendable := fun _ => false }

variable {past past' : List ServerNote} {s s' : Outbound} {conn : ConnId} {note : ServerNote} {log : SessionLog}
  {slot : ℕ}

theorem ok_erase : s.erase.Ok past ↔ s.Ok past :=
  ⟨fun h => ⟨h.size, h.logs, fun slot ho => ⟨(h.conns slot ho).slot_eq, (h.conns slot ho).generation,
      (h.conns slot ho).alive, (h.conns slot ho).sends⟩, h.idle, h.slots, h.sent, h.packets, h.overwritten, h.rejected,
      h.accepted, h.closed⟩,
    fun h => ⟨h.size, h.logs, fun slot ho => ⟨(h.conns slot ho).slot_eq, (h.conns slot ho).generation,
      (h.conns slot ho).alive, (h.conns slot ho).sends⟩, h.idle, h.slots, h.sent, h.packets, h.overwritten, h.rejected,
      h.accepted, h.closed⟩⟩

theorem Ok.congr (h : s.Ok past) (e : s'.erase = s.erase) : s'.Ok past := ok_erase.mp (e ▸ ok_erase.mpr h)

/-- A connection changed only in what does not matter. -/
theorem erase_setConnection {x : OutboundConnection} (h : core x = core (s.connections slot)) :
    (s.setConnection slot x).erase = s.erase := by
  unfold erase setConnection
  congr 1
  funext j
  show core (Function.update s.connections slot x j) = core (s.connections j)
  by_cases hj : j = slot
  · subst hj
    rw [Function.update_self, h]
  · rw [Function.update_of_ne hj]

theorem erase_markDirty (s : Outbound) (slot : ℕ) : (s.markDirty slot).erase = s.erase := by
  unfold markDirty
  dsimp only
  split
  · rfl
  · exact @erase_setConnection s slot { s.connections slot with dirty := true } rfl

/-! ## Connections that are left alone -/

/-- A connection keeps what it sends if it, the bytes accepted on it and its session stay. -/
theorem Sends.frame {login : Option Login} (h : s.Sends slot login)
    (hclient : (s'.connections slot).clientId = (s.connections slot).clientId) (hout : s'.out slot = s.out slot)
    (hsess : ∀ c, c ≠ 0 → (s.connections slot).clientId = c →
      s'.sessions c = s.sessions c ∧ s'.history.appended c = s.history.appended c) : s'.Sends slot login := by
  match login with
  | none => exact h
  | some (.rejected reason) => exact ⟨hclient.trans h.1, hout.trans h.2⟩
  | some (.accepted c start) =>
    obtain ⟨hc, h0, hf⟩ := h
    obtain ⟨hs, ha⟩ := hsess c h0 hc
    exact ⟨hclient.trans hc, h0, by rw [hs, ha, hout]; exact hf⟩

theorem ConnOk.frame (h : s.ConnOk past slot) (hx : s'.connections slot = s.connections slot)
    (hacc : s'.tcp.accepted (s.connections slot).conn = s.tcp.accepted (s.connections slot).conn)
    (hsess : ∀ c, c ≠ 0 → (s.connections slot).clientId = c →
      s'.sessions c = s.sessions c ∧ s'.history.appended c = s.history.appended c)
    (hlogin : s'.history.logins (s.connections slot).conn = s.history.logins (s.connections slot).conn)
    (halive : ¬ Disconnected past' (s.connections slot).conn) : s'.ConnOk past' slot := by
  refine ⟨hx ▸ h.slot_eq, hx ▸ h.generation, hx ▸ halive, ?_⟩
  rw [hx, hlogin]
  exact h.sends.frame (by rw [hx]) (by rw [out, out, hx, hacc]) hsess

/-- What an open connection has been sent is a stream. -/
theorem Sends.sent {login : Option Login} (h : s.Sends slot login) :
    Sent s.history.appended login (s.tcp.accepted (s.connections slot).conn) := by
  match login with
  | none => exact h.elim
  | some (.rejected reason) => exact ⟨_, h.2⟩
  | some (.accepted c start) =>
    obtain ⟨-, -, hf⟩ := h
    obtain ⟨items, hitems, hbytes⟩ := hf.stream
    refine ⟨hf.start_pos, hf.start_le, items, hitems ▸ List.prefix_rfl, ?_⟩
    rw [← hbytes, out, List.append_assoc]
    exact List.prefix_append _ _

/-- A connection with a session is fed by it. -/
theorem ConnOk.feeds (h : s.ConnOk past slot) (h0 : (s.connections slot).clientId ≠ 0) :
    ∃ start, s.history.logins (s.connections slot).conn = some (.accepted (s.connections slot).clientId start) ∧
      Feeds (s.sessions (s.connections slot).clientId) (s.history.appended (s.connections slot).clientId) slot start
        (s.out slot) := by
  have hs := h.sends
  cases hl : s.history.logins (s.connections slot).conn with
  | none =>
    rw [hl] at hs
    exact hs.elim
  | some login =>
    rw [hl] at hs
    cases login with
    | rejected reason => exact absurd hs.1 h0
    | accepted c start =>
      obtain ⟨rfl, -, hf⟩ := hs
      exact ⟨start, rfl, hf⟩

/-- Two open connections have different sessions. -/
theorem Ok.client_ne (h : s.Ok past) {i j : ℕ} (hi : (s.connections i).isOpen) (hj : (s.connections j).isOpen)
    (hne : j ≠ i) (h0 : (s.connections j).clientId ≠ 0) : (s.connections j).clientId ≠ (s.connections i).clientId :=
  fun e => by
    obtain ⟨_, -, hf⟩ := (h.conns j hj).feeds h0
    obtain ⟨_, -, hf'⟩ := (h.conns i hi).feeds (e ▸ h0)
    rw [← e] at hf'
    exact hne (Option.some.inj (hf.slot_eq.symm.trans hf'.slot_eq))

/-- An open connection's id is that of no other slot. -/
theorem Ok.conn_ne (h : s.Ok past) {i j : ℕ} (hi : (s.connections i).isOpen) (hj : (s.connections j).isOpen)
    (hne : j ≠ i) : (s.connections j).conn ≠ (s.connections i).conn := fun e =>
  hne (by rw [← (h.conns j hj).slot_eq, e, (h.conns i hi).slot_eq])

theorem loggedIn_mono (h : past ⊆ past') (hl : LoggedIn past conn) : LoggedIn past' conn :=
  hl.imp (fun ⟨c, sequence, hm⟩ => ⟨c, sequence, h hm⟩) fun ⟨reason, hm⟩ => ⟨reason, h hm⟩

theorem disconnected_mono (h : past ⊆ past') (hd : Disconnected past conn) : Disconnected past' conn :=
  hd.imp fun _ hm => h hm

/-- What is left alone when something happens to the connection in slot `i`. -/
structure Besides (past' : List ServerNote) (s s' : Outbound) (i : ℕ) : Prop where
  size : s'.soupReplayBytes = s.soupReplayBytes
  conns : ∀ j, j ≠ i → s'.connections j = s.connections j
  accepted : ∀ j, j ≠ i → (s.connections j).isOpen →
    s'.tcp.accepted (s.connections j).conn = s.tcp.accepted (s.connections j).conn
  logins : ∀ j, j ≠ i → (s.connections j).isOpen →
    s'.history.logins (s.connections j).conn = s.history.logins (s.connections j).conn
  sessions : ∀ j, j ≠ i → (s.connections j).isOpen → ∀ c, c ≠ 0 → (s.connections j).clientId = c →
    s'.sessions c = s.sessions c ∧ s'.history.appended c = s.history.appended c
  alive : ∀ j, j ≠ i → (s.connections j).isOpen → ¬ Disconnected past' (s.connections j).conn
  packets : ∀ c, ∀ p ∈ s'.history.appended c, p ≠ [] ∧ ∃ msg, p = encodeSoupSequenced msg maxSoupPacket
  overwritten : s'.history.overwritten = []

/-- The invariant, from what happens to the connection in slot `i`. -/
theorem Ok.rebuild (h : s.Ok past) {i : ℕ} (hsub : past ⊆ past') (hb : Besides past' s s' i)
    (hlogs : ∀ c, s'.LogOk c) (hconn : (s'.connections i).isOpen → s'.ConnOk past' i)
    (hidle : ¬ (s'.connections i).isOpen → (s'.connections i).control = [])
    (hslots : ∀ c j, (s'.sessions c).slot = some j → j ≠ i ∧ (s.sessions c).slot = some j ∨
      j = i ∧ (s'.connections i).isOpen ∧ (s'.connections i).clientId = c ∧ c ≠ 0)
    (hsent : ∀ k, Sent s'.history.appended (s'.history.logins k) (s'.tcp.accepted k))
    (hrejected : ∀ k reason, s'.history.logins k = some (.rejected reason) → LoggedIn past' k)
    (haccepted : ∀ k c start, s'.history.logins k = some (.accepted c start) →
      ∃ sequence, .loginAccepted c k sequence ∈ past')
    (hclosed : (s'.connections i).closedGeneration = (s.connections i).closedGeneration ∨
      LoggedIn past' ⟨i, (s'.connections i).closedGeneration⟩ ∨
      Disconnected past' ⟨i, (s'.connections i).closedGeneration⟩) : s'.Ok past' := by
  have hclosed' : ∀ j g, g = 0 ∨ LoggedIn past ⟨j, g⟩ ∨ Disconnected past ⟨j, g⟩ →
      g = 0 ∨ LoggedIn past' ⟨j, g⟩ ∨ Disconnected past' ⟨j, g⟩ := fun _ _ =>
    Or.imp_right (Or.imp (loggedIn_mono hsub) (disconnected_mono hsub))
  refine ⟨hb.size ▸ h.size, hlogs, fun j hj => ?_, fun j hj => ?_, fun c j hc => ?_, hsent, hb.packets, hb.overwritten,
    hrejected, haccepted, fun j => ?_⟩
  · by_cases hji : j = i
    · exact hji ▸ hconn (hji ▸ hj)
    · rw [hb.conns j hji] at hj
      exact (h.conns j hj).frame (hb.conns j hji) (hb.accepted j hji hj) (hb.sessions j hji hj) (hb.logins j hji hj)
        (hb.alive j hji hj)
  · by_cases hji : j = i
    · exact hji ▸ hidle (hji ▸ hj)
    · rw [hb.conns j hji] at hj ⊢
      exact h.idle j hj
  · rcases hslots c j hc with ⟨hji, hc'⟩ | ⟨rfl, ho⟩
    · rw [hb.conns j hji]
      exact h.slots c j hc'
    · exact ho
  · by_cases hji : j = i
    · subst hji
      rcases hclosed with e | hk
      · exact e ▸ hclosed' j _ (h.closed j)
      · exact .inr hk
    · rw [hb.conns j hji]
      exact hclosed' j _ (h.closed j)

/-- One open connection is sent something, or has something queued: the rest is left
alone. -/
theorem Ok.update (h : s.Ok past) {i : ℕ} (hi : (s.connections i).isOpen) (x : OutboundConnection)
    (hconns : s'.connections = Function.update s.connections i x)
    (hsize : s'.soupReplayBytes = s.soupReplayBytes) (hhist : s'.history = s.history)
    (hconn : x.conn = (s.connections i).conn) (hopen : x.isOpen) (hclient : x.clientId = (s.connections i).clientId)
    (hgen : x.closedGeneration = (s.connections i).closedGeneration)
    (hacc : ∀ k, k ≠ (s.connections i).conn → s'.tcp.accepted k = s.tcp.accepted k)
    (hsess : ∀ c, c ≠ (s.connections i).clientId → s'.sessions c = s.sessions c)
    (hlog : ∀ c, (s'.sessions c).log = (s.sessions c).log) (hslot : ∀ c, (s'.sessions c).slot = (s.sessions c).slot)
    (hsends : s'.Sends i (s.history.logins (s.connections i).conn)) : s'.Ok past := by
  have hx := h.conns i hi
  have hself : s'.connections i = x := by rw [hconns, Function.update_self]
  refine h.rebuild (i := i) (fun _ h => h) {
    size := hsize
    conns := fun j hj => by rw [hconns, Function.update_of_ne hj]
    accepted := fun j hji hj => hacc _ (h.conn_ne hi hj hji)
    logins := fun j _ _ => by rw [hhist]
    sessions := fun j hji hj c h0 hc => ⟨hsess c (hc ▸ h.client_ne hi hj hji (hc ▸ h0)), by rw [hhist]⟩
    alive := fun j _ hj => (h.conns j hj).alive
    packets := hhist ▸ h.packets
    overwritten := hhist ▸ h.overwritten } (fun c => ?_) (fun _ => ?_) (fun hno => absurd (hself ▸ hopen) hno)
    (fun c j hc => ?_) (fun k => ?_) (hhist ▸ h.rejected) (hhist ▸ h.accepted) (.inl (hself ▸ hgen))
  · have hc := h.logs c
    unfold LogOk at hc ⊢
    rw [hlog, hslot, hhist, hsize]
    exact hc
  · refine ⟨?_, ?_, ?_, ?_⟩ <;> rw [hself, hconn]
    · exact hx.slot_eq
    · rw [hgen]
      exact hx.generation
    · exact hx.alive
    · rw [hhist]
      exact hsends
  · rw [hslot] at hc
    by_cases hji : j = i
    · subst hji
      obtain ⟨-, hcl, h0⟩ := h.slots c j hc
      rw [hself]
      exact .inr ⟨rfl, hopen, hclient.trans hcl, h0⟩
    · exact .inl ⟨hji, hc⟩
  · rw [hhist]
    by_cases hk : k = (s.connections i).conn
    · subst hk
      have hs := hsends.sent
      rw [hself, hconn, hhist] at hs
      exact hs
    · rw [hacc k hk]
      exact h.sent k

/-! ## Closing -/

/-- A slot whose last closed generation changes. -/
def withClosed (x : OutboundConnection) (generation : ℕ) : OutboundConnection :=
  { x with closedGeneration := generation }

/-- A slot whose connection is closed. -/
def ended (x : OutboundConnection) (generation : ℕ) : OutboundConnection :=
  { x with
    isOpen := false, clientId := 0, control := [], controlSent := 0, closeWhenFlushed := false,
    closedGeneration := generation }

/-- The sessions when the connection in `slot` of client `c` is closed. -/
def released (sessions : ℕ → OutboundSession) (c slot : ℕ) : ℕ → OutboundSession :=
  if c ≠ 0 ∧ (sessions c).slot = some slot then Function.update sessions c { sessions c with slot := none }
  else sessions

/-- What closing a connection comes to. -/
theorem close_cases (s : Outbound) (conn : ConnId) :
    (s.connections conn.slot).closedGeneration = conn.generation ∧ s.close conn = s ∨
    ((s.connections conn.slot).conn ≠ conn ∨ ¬ (s.connections conn.slot).isOpen) ∧
      s.close conn = { s with
        tcp := s.tcp.close conn
        connections := Function.update s.connections conn.slot
          (withClosed (s.connections conn.slot) conn.generation) } ∨
    (s.connections conn.slot).conn = conn ∧ (s.connections conn.slot).isOpen ∧
      s.close conn = { s with
        tcp := s.tcp.close conn
        connections := Function.update s.connections conn.slot (ended (s.connections conn.slot) conn.generation)
        sessions := released s.sessions (s.connections conn.slot).clientId conn.slot } := by
  unfold close
  dsimp only
  split
  · next h => exact .inl ⟨h, rfl⟩
  · split
    · next h => exact .inr (.inl ⟨by simpa using h, rfl⟩)
    · next h =>
      simp only [not_or, ne_eq, not_not, Bool.not_eq_true', Bool.not_eq_false] at h
      refine .inr (.inr ⟨h.1, h.2, ?_⟩)
      unfold released setConnection setSession
      dsimp only
      split <;> simp only [Function.update_idem] <;> rfl

/-- What the notes say, if they only add the end of connection `conn`. -/
structure Ends (past past' : List ServerNote) (conn : ConnId) : Prop where
  subset : past ⊆ past'
  gone : ∀ k, Disconnected past' k → Disconnected past k ∨ k = conn
  known : LoggedIn past' conn ∨ Disconnected past' conn

theorem Ends.refl (h : LoggedIn past conn) : Ends past past conn :=
  ⟨fun _ h => h, fun _ h => .inl h, .inl h⟩

theorem Ends.disconnected (past : List ServerNote) (c : ℕ) (conn : ConnId) :
    Ends past (past ++ [.disconnected c conn]) conn where
  subset := List.subset_append_left _ _
  gone k := by
    rintro ⟨c', hm⟩
    rcases List.mem_append.mp hm with hm | hm
    · exact .inl ⟨c', hm⟩
    · exact .inr (by injection List.mem_singleton.mp hm)
  known := .inr ⟨c, List.mem_append_right _ (List.mem_singleton_self _)⟩

/-- The notes an invariant refers to may grow by the end of a connection that is not open. -/
theorem Ok.ends (h : s.Ok past) (he : Ends past past' conn)
    (hne : ∀ slot, (s.connections slot).isOpen → (s.connections slot).conn ≠ conn) : s.Ok past' :=
  { h with
    conns := fun slot ho => { h.conns slot ho with
      alive := fun hd => (he.gone _ hd).elim (h.conns slot ho).alive (hne slot ho) }
    rejected := fun k reason hk => loggedIn_mono he.subset (h.rejected k reason hk)
    accepted := fun k c start hk => (h.accepted k c start hk).imp fun _ hm => he.subset hm
    closed := fun slot => (h.closed slot).imp_right
      (Or.imp (loggedIn_mono he.subset) (disconnected_mono he.subset)) }

/-- An open connection has logged in. -/
theorem Ok.loggedIn (h : s.Ok past) (ho : (s.connections slot).isOpen) : LoggedIn past (s.connections slot).conn := by
  have hs := (h.conns slot ho).sends
  cases hl : s.history.logins (s.connections slot).conn with
  | none =>
    rw [hl] at hs
    exact hs.elim
  | some login =>
    cases login with
    | rejected reason => exact h.rejected _ reason hl
    | accepted c start =>
      obtain ⟨sequence, hm⟩ := h.accepted _ c start hl
      exact .inl ⟨c, sequence, hm⟩

/-- Only the closed generation of a slot changes, to that of another connection. -/
theorem Ok.setClosed (h : s.Ok past) (hm : LoggedIn past conn ∨ Disconnected past conn)
    (hne : (s.connections conn.slot).conn ≠ conn ∨ ¬ (s.connections conn.slot).isOpen)
    (hsize : s'.soupReplayBytes = s.soupReplayBytes) (hhist : s'.history = s.history)
    (hacc : s'.tcp.accepted = s.tcp.accepted) (hsess : s'.sessions = s.sessions)
    (hconns : s'.connections = Function.update s.connections conn.slot
      (withClosed (s.connections conn.slot) conn.generation)) : s'.Ok past := by
  have hself : s'.connections conn.slot = withClosed (s.connections conn.slot) conn.generation := by
    rw [hconns, Function.update_self]
  refine h.rebuild (i := conn.slot) (fun _ h => h) {
    size := hsize
    conns := fun j hj => by rw [hconns, Function.update_of_ne hj]
    accepted := fun j _ _ => by rw [hacc]
    logins := fun j _ _ => by rw [hhist]
    sessions := fun j _ _ c _ _ => ⟨by rw [hsess], by rw [hhist]⟩
    alive := fun j _ hj => (h.conns j hj).alive
    packets := hhist ▸ h.packets
    overwritten := hhist ▸ h.overwritten } (fun c => ?_) (fun ho => ?_) (fun hno => ?_) (fun c j hc => ?_)
    (fun k => ?_) (hhist ▸ h.rejected) (hhist ▸ h.accepted) (.inr ?_)
  · have hc := h.logs c
    unfold LogOk at hc ⊢
    rw [hsess, hhist, hsize]
    exact hc
  · rw [hself] at ho
    have hx := h.conns conn.slot ho
    refine ⟨hself ▸ hx.slot_eq, ?_, hself ▸ hx.alive, ?_⟩
    · rw [hself]
      intro e
      refine hne.elim (fun hne => hne ?_) fun hno => hno ho
      have e₁ := hx.slot_eq
      have e₂ : conn.generation = (s.connections conn.slot).conn.generation := e
      cases hk : (s.connections conn.slot).conn with
      | mk slot generation =>
        rw [hk] at e₁ e₂
        cases conn
        congr 1
        exact e₂.symm
    · rw [hhist, hself]
      exact hx.sends.frame (by rw [hself]; rfl) (by rw [out, out, hself, hacc]; rfl)
        fun c _ _ => ⟨by rw [hsess], by rw [hhist]⟩
  · rw [hself] at hno ⊢
    exact h.idle conn.slot hno
  · rw [hsess] at hc
    by_cases hji : j = conn.slot
    · subst hji
      rw [hself]
      exact .inr ⟨rfl, h.slots c conn.slot hc⟩
    · exact .inl ⟨hji, hc⟩
  · rw [hhist, hacc]
    exact h.sent k
  · rw [hself]
    exact hm

/-- An open connection is closed. -/
theorem Ok.closing (h : s.Ok past) (hconn : (s.connections conn.slot).conn = conn)
    (hopen : (s.connections conn.slot).isOpen) (hsize : s'.soupReplayBytes = s.soupReplayBytes)
    (hhist : s'.history = s.history) (hacc : s'.tcp.accepted = s.tcp.accepted)
    (hsess : s'.sessions = released s.sessions (s.connections conn.slot).clientId conn.slot)
    (hconns : s'.connections = Function.update s.connections conn.slot
      (ended (s.connections conn.slot) conn.generation)) : s'.Ok past := by
  have hself : s'.connections conn.slot = ended (s.connections conn.slot) conn.generation := by
    rw [hconns, Function.update_self]
  have hx := h.conns conn.slot hopen
  -- the session of the connection has none now, the others are as they were
  have hreleased : ∀ c, c ≠ (s.connections conn.slot).clientId → s'.sessions c = s.sessions c := fun c hc => by
    rw [hsess, released]
    split
    · exact Function.update_of_ne hc ..
    · rfl
  have hlog : ∀ c, (s'.sessions c).log = (s.sessions c).log := fun c => by
    by_cases hc : c = (s.connections conn.slot).clientId
    · subst hc
      rw [hsess, released]
      split
      · rw [Function.update_self]
      · rfl
    · rw [hreleased c hc]
  have hslot : ∀ c j, (s'.sessions c).slot = some j → j ≠ conn.slot ∧ (s.sessions c).slot = some j := fun c j hj => by
    by_cases hc : c = (s.connections conn.slot).clientId
    · subst hc
      rw [hsess, released] at hj
      split at hj
      · rw [Function.update_self] at hj
        cases hj
      · next hno =>
        obtain ⟨-, -, h0⟩ := h.slots _ j hj
        obtain ⟨_, -, hf⟩ := hx.feeds h0
        exact absurd ⟨h0, hf.slot_eq⟩ hno
    · rw [hreleased c hc] at hj
      refine ⟨?_, hj⟩
      rintro rfl
      exact hc (h.slots c conn.slot hj).2.1.symm
  refine h.rebuild (i := conn.slot) (fun _ h => h) {
    size := hsize
    conns := fun j hj => by rw [hconns, Function.update_of_ne hj]
    accepted := fun j _ _ => by rw [hacc]
    logins := fun j _ _ => by rw [hhist]
    sessions := fun j hji hj c h0 hc =>
      ⟨hreleased c (hc ▸ h.client_ne hopen hj hji (hc ▸ h0)), by rw [hhist]⟩
    alive := fun j _ hj => (h.conns j hj).alive
    packets := hhist ▸ h.packets
    overwritten := hhist ▸ h.overwritten } (fun c => ?_) (fun ho => ?_) (fun _ => ?_)
    (fun c j hc => .inl (hslot c j hc)) (fun k => ?_) (hhist ▸ h.rejected) (hhist ▸ h.accepted) (.inr (.inl ?_))
  · have hc := h.logs c
    unfold LogOk at hc ⊢
    rw [hlog, hhist, hsize]
    split at hc
    · next hl =>
      refine ⟨hc.1, Option.eq_none_iff_forall_ne_some.mpr fun j hj => ?_⟩
      rw [(hslot c j hj).2] at hc
      cases hc.2
    · exact hc
  · rw [hself] at ho
    cases ho
  · rw [hself]
    rfl
  · rw [hhist, hacc]
    exact h.sent k
  · rw [hself]
    have hl := h.loggedIn hopen
    rwa [hconn] at hl

theorem close_ok (h : s.Ok past) (he : Ends past past' conn) : (s.close conn).Ok past' := by
  rcases close_cases s conn with ⟨hgen, e⟩ | ⟨hne, e⟩ | ⟨hconn, hopen, e⟩
  · rw [e]
    refine h.ends he fun slot ho hc => ?_
    have hx := h.conns slot ho
    have hs : conn.slot = slot := hc ▸ hx.slot_eq
    rw [hs] at hgen
    exact hx.generation (hgen.trans (congrArg _ hc.symm))
  · rw [e]
    refine (h.ends he fun slot ho hc => ?_).setClosed he.known hne rfl rfl rfl rfl rfl
    have hs : conn.slot = slot := hc ▸ (h.conns slot ho).slot_eq
    subst hs
    exact hne.elim (fun hne => hne hc) fun hno => hno ho
  · rw [e]
    refine Ok.ends (h.closing hconn hopen rfl rfl rfl rfl rfl) he fun slot ho hc => ?_
    by_cases hs : slot = conn.slot
    · subst hs
      simp [ended] at ho
    · simp only [Function.update_of_ne hs] at ho hc
      exact hs (hc ▸ (h.conns slot ho).slot_eq).symm

/-! ## Sending -/

section Feeds

variable {session : OutboundSession} {packets : List (List UInt8)} {slot start : ℕ} {bytes : List UInt8}

/-- A heartbeat after the last packet. -/
theorem Feeds.heartbeat (h : Feeds session packets slot start bytes)
    (hend : packets.flatten.length ≤ session.cursor) :
    Feeds session packets slot start (bytes ++ heartbeatPacket) := by
  obtain ⟨items, hitems, hbytes⟩ := h.stream
  rw [List.drop_eq_nil_of_le hend, List.append_nil] at hbytes
  refine { h with stream := ⟨items ++ [.heartbeat], ?_, ?_⟩ }
  · rw [packetsOf_append, hitems]
    exact List.append_nil _
  · rw [List.drop_eq_nil_of_le hend, List.append_nil, hbytes, bytesOf_append, List.append_assoc]
    congr 2

/-- The next bytes of the log. -/
theorem Feeds.advance (h : Feeds session packets slot start bytes) (hlog : session.log = some log) {n : ℕ}
    (hn : session.cursor + n ≤ log.endOffset) :
    Feeds { session with cursor := session.cursor + n } packets slot start
      (bytes ++ (packets.flatten.drop session.cursor).take n) := by
  obtain ⟨log', hlog', -, hcap⟩ := h.log
  obtain rfl : log = log' := Option.some.inj (hlog.symm.trans hlog')
  obtain ⟨items, hitems, hbytes⟩ := h.stream
  refine ⟨h.slot_eq, ⟨log, hlog, hn, show _ ≤ session.cursor + n + _ by omega⟩, h.start_pos, h.start_le, items, hitems, ?_⟩
  show _ ++ packets.flatten.drop (session.cursor + n) = _
  rw [← hbytes, List.append_assoc, ← List.drop_drop, List.take_append_drop]

/-- One more packet. -/
theorem Feeds.append (h : Feeds session packets slot start bytes) {log log' : SessionLog}
    (hlog : session.log = some log) (hpackets : log.Ok packets) {packet : List UInt8}
    (hend : log'.endOffset = log.endOffset + packet.length) (hcap : log'.endOffset ≤ session.cursor + log'.capacity) :
    Feeds { session with log := some log' } (packets ++ [packet]) slot start bytes := by
  obtain ⟨log₁, hlog₁, hcur, -⟩ := h.log
  obtain rfl : log = log₁ := Option.some.inj (hlog.symm.trans hlog₁)
  obtain ⟨items, hitems, hbytes⟩ := h.stream
  have hle := h.start_le
  have hpos := h.start_pos
  refine ⟨h.slot_eq, ⟨log', rfl, show session.cursor ≤ _ by omega, hcap⟩, hpos,
    by rw [List.length_append]; omega, items ++ [.data packet], ?_, ?_⟩
  · rw [packetsOf_append, hitems, List.drop_append_of_le_length (by omega)]
    rfl
  · show bytes ++ (packets ++ [packet]).flatten.drop session.cursor = _
    rw [List.flatten_append, List.flatten_singleton, List.drop_append_of_le_length (hpackets.length ▸ hcur),
      ← List.append_assoc, hbytes, bytesOf_append, List.append_assoc]
    congr 2
    exact (List.append_nil _).symm

/-- A login accepted from message `start` on. -/
theorem Feeds.login (hlog : log.Ok packets) {offset : ℕ} (ho : log.offsetOf start = some offset) (slot : ℕ) :
    Feeds ⟨some log, some slot, offset⟩ packets slot start (loginAcceptedPacket start) := by
  obtain ⟨h₁, h₂, rfl, hle, hcap⟩ := hlog.offsetOf_some ho
  have hpos := hlog.first_pos
  have hnext := hlog.next
  refine ⟨rfl, ⟨log, rfl, hle, hcap⟩, by omega, by omega, (packets.drop (start - 1)).map .data, packetsOf_data _, ?_⟩
  rw [bytesOf_data, SessionLog.drop_startOf]

end Feeds

/-- A control packet queued where none is pending. -/
theorem erase_sendControl (s : Outbound) (h : (s.connections slot).control = []) (packet : List UInt8) :
    (s.sendControl slot packet).erase =
      (s.setConnection slot { s.connections slot with control := packet, controlSent := 0 }).erase := by
  unfold sendControl recordOverwritten
  dsimp only
  rw [if_pos h]
  exact erase_markDirty _ _

@[simp] theorem connections_setConnection (s : Outbound) (slot : ℕ) (x : OutboundConnection) :
    (s.setConnection slot x).connections slot = x := Function.update_self ..

@[simp] theorem connections_recordLogin (s : Outbound) (conn : ConnId) (login : Login) :
    (s.recordLogin conn login).connections = s.connections := rfl

@[simp] theorem connections_setSession (s : Outbound) (c : ℕ) (session : OutboundSession) :
    (s.setSession c session).connections = s.connections := rfl

/-- Nothing is pending where there is no control packet. -/
theorem out_of_control_nil (h : (s.connections slot).control = []) :
    s.out slot = s.tcp.accepted (s.connections slot).conn := by
  rw [out, pending, h, List.drop_nil, List.append_nil]

theorem heartbeatOne_ok (h : s.Ok past) (now slot : ℕ) : ∃ s', s.heartbeatOne now slot = some s' ∧ s'.Ok past := by
  unfold heartbeatOne
  dsimp only
  split
  · exact ⟨s, rfl, h⟩
  · next hx =>
    simp only [not_or, Bool.not_eq_true', Bool.not_eq_false, ne_eq, not_not] at hx
    obtain ⟨hopen, h0, hcontrol⟩ := hx
    split
    · exact ⟨s, rfl, h⟩
    · obtain ⟨start, hlogin, hf⟩ := (h.conns slot hopen).feeds h0
      obtain ⟨log, hlog, -⟩ := hf.log
      simp only [hlog, Option.bind_eq_bind, Option.bind_some]
      split
      · exact ⟨s, rfl, h⟩
      · next hend =>
        refine ⟨_, rfl, Ok.congr ?_ (erase_sendControl s hcontrol _)⟩
        have hlogs := h.logs (s.connections slot).clientId
        rw [LogOk, hlog] at hlogs
        refine h.update hopen { s.connections slot with control := heartbeatPacket, controlSent := 0 } rfl rfl rfl rfl
          hopen rfl rfl (fun _ _ => rfl) (fun _ _ => rfl) (fun _ => rfl) (fun _ => rfl) ?_
        rw [hlogin]
        have hout : Outbound.out (s.setConnection slot
            { s.connections slot with control := heartbeatPacket, controlSent := 0 }) slot =
            s.out slot ++ heartbeatPacket := by
          rw [out_of_control_nil hcontrol, out, connections_setConnection]
          rfl
        refine ⟨by rw [connections_setConnection], h0, ?_⟩
        rw [hout]
        exact hf.heartbeat (by rw [← hlogs.1.length]; exact (not_not.mp hend).ge)

theorem heartbeat_ok (h : s.Ok past) (now : ℕ) : ∃ s', s.heartbeat now = some s' ∧ s'.Ok past := by
  unfold heartbeat
  induction List.range maxConnections generalizing s with
  | nil => exact ⟨s, rfl, h⟩
  | cons slot slots ih =>
    obtain ⟨s₁, hone, h₁⟩ := heartbeatOne_ok h now slot
    obtain ⟨s', hrest, h'⟩ := ih h₁
    exact ⟨s', by rw [List.foldlM_cons, hone]; exact hrest, h'⟩

theorem closeAll_ok (h : s.Ok past) : s.closeAll.Ok past := by
  unfold closeAll
  induction List.range maxConnections generalizing s with
  | nil => exact h
  | cons slot slots ih =>
    rw [List.foldl_cons]
    refine ih ?_
    split
    · next ho => exact close_ok h (.refl (h.loggedIn ho))
    · exact h

/-- The control packet: what is accepted of it is not pending any more. -/
theorem flushControl_ok (h : s.Ok past) (ho : (s.connections slot).isOpen) :
    ∃ done sentAny s', s.flushControl slot = (done, sentAny, s') ∧ s'.Ok past ∧
      (s'.connections slot).conn = (s.connections slot).conn ∧ (s'.connections slot).isOpen ∧
      (s'.connections slot).clientId = (s.connections slot).clientId ∧
      (done → pending (s'.connections slot) = []) := by
  unfold flushControl
  dsimp only
  split
  · let n := min (s.tcp.takes s.tcp.calls) (pending (s.connections slot)).length
    let x : OutboundConnection := if (s.connections slot).controlSent + n = (s.connections slot).control.length then
        { s.connections slot with control := [], controlSent := 0 }
      else { s.connections slot with controlSent := (s.connections slot).controlSent + n }
    have hpending : pending x = (pending (s.connections slot)).drop n := by
      rw [pending, pending, List.drop_drop]
      by_cases e : (s.connections slot).controlSent + n = (s.connections slot).control.length
      · rw [show x = _ from if_pos e, e, List.drop_length]
        rfl
      · rw [show x = _ from if_neg e]
    have hx : x.conn = (s.connections slot).conn ∧ x.isOpen = (s.connections slot).isOpen ∧
        x.clientId = (s.connections slot).clientId ∧
        x.closedGeneration = (s.connections slot).closedGeneration := by
      by_cases e : (s.connections slot).controlSent + n = (s.connections slot).control.length
      · rw [show x = _ from if_pos e]
        exact ⟨rfl, rfl, rfl, rfl⟩
      · rw [show x = _ from if_neg e]
        exact ⟨rfl, rfl, rfl, rfl⟩
    obtain ⟨hconn, hopen, hclient, hgen⟩ := hx
    have hopen' : x.isOpen := by rw [hopen]; exact ho
    refine ⟨_, _, _, rfl, ?_, ?_⟩
    · refine h.update ho x rfl rfl rfl hconn hopen' hclient hgen (fun k hk => Function.update_of_ne hk ..)
        (fun _ _ => rfl) (fun _ => rfl) (fun _ => rfl) ((h.conns slot ho).sends.frame ?_ ?_ fun _ _ _ => ⟨rfl, rfl⟩)
      · rw [connections_setConnection]
        exact hclient
      · rw [out, out, connections_setConnection]
        show Function.update s.tcp.accepted (s.connections slot).conn
          (s.tcp.accepted (s.connections slot).conn ++ (pending (s.connections slot)).take n) x.conn ++ pending x = _
        rw [hconn, Function.update_self, hpending, List.append_assoc, List.take_append_drop]
    · rw [connections_setConnection]
      refine ⟨hconn, hopen', hclient, fun hdone => ?_⟩
      have e : (s.connections slot).controlSent + n = (s.connections slot).control.length := of_decide_eq_true hdone
      show pending x = []
      rw [show x = _ from if_pos e]
      rfl
  · next hlt => exact ⟨true, false, s, rfl, h, rfl, ho, rfl, fun _ => List.drop_eq_nil_of_le (Nat.le_of_not_lt hlt)⟩

theorem Ok.logOk (h : s.Ok past) {c : ℕ} (hlog : (s.sessions c).log = some log) :
    log.Ok (s.history.appended c) ∧ log.capacity = s.soupReplayBytes := by
  have hc := h.logs c
  rw [LogOk, hlog] at hc
  exact hc

/-- What a call of `send` does. -/
def sentTcp (t : Tcp) (conn : ConnId) (bytes : List UInt8) : Tcp :=
  { t with
    calls := t.calls + 1
    accepted := Function.update t.accepted conn (t.accepted conn ++ bytes)
    made := t.made ++ [.send conn] }

theorem send_spec (t : Tcp) (conn : ConnId) (bytes : List UInt8) :
    ∃ n, t.send conn bytes = (n, sentTcp t conn (bytes.take n)) ∧ n ≤ bytes.length :=
  ⟨_, rfl, Nat.min_le_right _ _⟩

/-- The next `n` bytes of the log are accepted on the connection in `slot`, which is client
`c`'s. -/
def advanced (s : Outbound) (slot c n : ℕ) : Outbound :=
  { s with
    tcp := sentTcp s.tcp (s.connections slot).conn
      (((s.history.appended c).flatten.drop (s.sessions c).cursor).take n)
    sessions := Function.update s.sessions c { s.sessions c with cursor := (s.sessions c).cursor + n } }

theorem Ok.advanced (h : s.Ok past) {slot c : ℕ} (ho : (s.connections slot).isOpen)
    (hc : (s.connections slot).clientId = c) (h0 : c ≠ 0) (hp : pending (s.connections slot) = [])
    (hlog : (s.sessions c).log = some log) {n : ℕ} (hn : (s.sessions c).cursor + n ≤ log.endOffset) :
    (s.advanced slot c n).Ok past := by
  subst hc
  obtain ⟨start, hlogin, hf⟩ := (h.conns slot ho).feeds h0
  have hself : (s.advanced slot (s.connections slot).clientId n).sessions (s.connections slot).clientId =
      { s.sessions (s.connections slot).clientId with
        cursor := (s.sessions (s.connections slot).clientId).cursor + n } := Function.update_self ..
  have hother : ∀ c, c ≠ (s.connections slot).clientId →
      (s.advanced slot (s.connections slot).clientId n).sessions c = s.sessions c :=
    fun c hc => Function.update_of_ne hc ..
  refine h.update ho (s.connections slot) (Function.update_eq_self ..).symm rfl rfl rfl ho rfl rfl
    (fun k hk => Function.update_of_ne hk ..) hother (fun c => ?_) (fun c => ?_) ?_
  · by_cases hc : c = (s.connections slot).clientId
    · rw [hc, hself]
    · rw [hother c hc]
  · by_cases hc : c = (s.connections slot).clientId
    · rw [hc, hself]
    · rw [hother c hc]
  · rw [hlogin]
    refine ⟨rfl, h0, ?_⟩
    rw [hself]
    have hout : (s.advanced slot (s.connections slot).clientId n).out slot = s.out slot ++
        ((s.history.appended (s.connections slot).clientId).flatten.drop
          (s.sessions (s.connections slot).clientId).cursor).take n := by
      rw [out, out, hp, List.append_nil]
      show Function.update s.tcp.accepted _ _ (s.connections slot).conn ++ pending (s.connections slot) = _
      rw [hp, List.append_nil, Function.update_self]
      rfl
    rw [hout]
    exact hf.advance hlog hn

/-- The loop over the log. -/
theorem flushLog_ok (h : s.Ok past) {slot c : ℕ} (ho : (s.connections slot).isOpen)
    (hc : (s.connections slot).clientId = c) (h0 : c ≠ 0) (hp : pending (s.connections slot) = [])
    (hlog : (s.sessions c).log = some log) (fuel : ℕ) (sentAny : Bool) :
    (flushLog (s.connections slot).conn c log fuel sentAny s).2.Ok past ∧
      (flushLog (s.connections slot).conn c log fuel sentAny s).2.connections = s.connections := by
  induction fuel generalizing s sentAny with
  | zero => exact ⟨h, rfl⟩
  | succ fuel ih =>
    unfold flushLog
    dsimp only
    split
    · obtain ⟨start, -, hf⟩ := (h.conns slot ho).feeds (hc ▸ h0)
      rw [hc] at hf
      obtain ⟨log', hlog', hcur, hcap⟩ := hf.log
      obtain rfl : log = log' := Option.some.inj (hlog.symm.trans hlog')
      obtain ⟨len, hbytes, hlen, -⟩ := (h.logOk hlog).1.contiguousFrom_eq hcur hcap
      obtain ⟨n, hsend, hn⟩ := send_spec s.tcp (s.connections slot).conn (log.contiguousFrom (s.sessions c).cursor)
      -- a prefix of the contiguous bytes is one of what is left of the stream
      have hle : n ≤ len := by
        rw [hbytes, List.length_take] at hn
        omega
      have htake : (log.contiguousFrom (s.sessions c).cursor).take n =
          ((s.history.appended c).flatten.drop (s.sessions c).cursor).take n := by
        rw [hbytes, List.take_take, Nat.min_eq_left hle]
      have hadv := h.advanced ho hc h0 hp hlog (show (s.sessions c).cursor + n ≤ log.endOffset by omega)
      rw [hsend, htake]
      dsimp only
      split
      · next hn0 =>
        subst hn0
        have hself : Function.update s.sessions c { s.sessions c with cursor := (s.sessions c).cursor + 0 } =
          s.sessions := Function.update_eq_self c s.sessions
        unfold Outbound.advanced at hadv
        rw [hself] at hadv
        exact ⟨hadv, rfl⟩
      · have hlog' : ((s.advanced slot c n).sessions c).log = some log := by
          rw [show (s.advanced slot c n).sessions c = _ from Function.update_self ..]
          exact hlog
        exact ih hadv ho hc hp hlog' true
    · exact ⟨h, rfl⟩

theorem flushSession_ok (h : s.Ok past) {slot c : ℕ} (ho : (s.connections slot).isOpen)
    (hc : (s.connections slot).clientId = c) (h0 : c ≠ 0) (hp : pending (s.connections slot) = []) (sentAny : Bool) :
    ∃ done sentAny' s', s.flushSession (s.connections slot).conn c sentAny = some (done, sentAny', s') ∧ s'.Ok past ∧
      s'.connections = s.connections := by
  obtain ⟨start, -, hf⟩ := (h.conns slot ho).feeds (hc ▸ h0)
  rw [hc] at hf
  obtain ⟨log, hlog, -⟩ := hf.log
  simp only [flushSession, hlog, Option.bind_eq_bind, Option.bind_some]
  exact ⟨_, _, _, rfl, flushLog_ok h ho hc h0 hp hlog _ sentAny⟩

theorem flushConnection_ok (h : s.Ok past) (ho : (s.connections slot).isOpen) :
    ∃ done s', s.flushConnection slot = some (done, s') ∧ s'.Ok past := by
  obtain ⟨done, sentAny, s₁, hcontrol, h₁, hconn, ho₁, hclient, hdone⟩ := flushControl_ok h ho
  -- the log, if the control packet is gone
  have hlog : ∃ done' sentAny' s₂, (if done = true ∧ (s.connections slot).clientId ≠ 0 then
        s₁.flushSession (s.connections slot).conn (s.connections slot).clientId sentAny
      else some (done, sentAny, s₁)) = some (done', sentAny', s₂) ∧ s₂.Ok past ∧
      s₂.connections = s₁.connections := by
    split
    · next hd =>
      rw [← hconn]
      exact flushSession_ok h₁ ho₁ hclient hd.2 (hdone hd.1) sentAny
    · exact ⟨_, _, _, rfl, h₁, rfl⟩
  obtain ⟨done', sentAny', s₂, hsession, h₂, hconns⟩ := hlog
  refine ⟨(s₂.endFlush slot (s.connections slot).conn done' sentAny').1,
    (s₂.endFlush slot (s.connections slot).conn done' sentAny').2,
    by simp only [flushConnection, hcontrol, hsession, Option.map_some], ?_⟩
  have h₃ : (if sentAny' then s₂.stampSent slot else s₂).Ok past := by
    split
    · exact h₂.congr (erase_setConnection (s := s₂) rfl)
    · exact h₂
  unfold endFlush
  dsimp only
  generalize (if sentAny' then s₂.stampSent slot else s₂) = s₃ at h₃ ⊢
  have h₄ : (s₃.recordUnsendable (s.connections slot).conn (!done' && !s₃.tcp.sendable)).Ok past := h₃.congr rfl
  generalize s₃.recordUnsendable (s.connections slot).conn (!done' && !s₃.tcp.sendable) = s₄ at h₄ ⊢
  split
  · exact h₄
  · show Ok past (if (s₄.connections slot).closeWhenFlushed then s₄.close (s.connections slot).conn else s₄)
    split
    · exact close_ok h₄ (.refl (h.loggedIn ho))
    · exact h₄

theorem flushDirty_ok (h : s.Ok past) (slots kept : List ℕ) : ∃ s', flushDirty slots kept s = some s' ∧ s'.Ok past := by
  induction slots generalizing s kept with
  | nil => exact ⟨_, rfl, h.congr rfl⟩
  | cons slot slots ih =>
    unfold flushDirty
    split
    · next ho =>
      obtain ⟨done, s₁, hf, h₁⟩ := flushConnection_ok h ho
      simp only [hf, Option.bind_eq_bind, Option.bind_some]
      split
      · exact ih (h₁.congr (@erase_setConnection s₁ slot { s₁.connections slot with dirty := false } rfl)) kept
      · exact ih h₁ _
    · exact ih (h.congr (@erase_setConnection s slot { s.connections slot with dirty := false } rfl)) kept

/-! ## Appending -/

/-- The session's log with one more packet. -/
def appending (s : Outbound) (c : ℕ) (log : SessionLog) (packet : List UInt8) : Outbound :=
  { s with
    sessions := Function.update s.sessions c { s.sessions c with log := some (log.append packet) }
    history := { s.history with
      appended := Function.update s.history.appended c (s.history.appended c ++ [packet]) } }

/-- A packet is appended, and no bytes are lost that a connection is waiting for. -/
theorem Ok.appending (h : s.Ok past) {c : ℕ} (hlog : (s.sessions c).log = some log) {packet : List UInt8}
    (hne : packet ≠ []) (hmsg : ∃ msg, packet = encodeSoupSequenced msg maxSoupPacket) (hlen : packet.length ≤ 256)
    (hroom : ∀ slot, (s.sessions c).slot = some slot → ¬ log.wouldOverwrite (s.sessions c).cursor packet.length) :
    (s.appending c log packet).Ok past := by
  obtain ⟨hok, hcap⟩ := h.logOk hlog
  have hlt : packet.length < log.capacity := by
    obtain ⟨k, hk⟩ := h.size
    have hpow : 2 ^ 9 ≤ 2 ^ (k + 9) := Nat.pow_le_pow_right (by decide) (Nat.le_add_left _ _)
    omega
  have hself : (s.appending c log packet).sessions c = { s.sessions c with log := some (log.append packet) } :=
    Function.update_self ..
  have hother : ∀ c', c' ≠ c → (s.appending c log packet).sessions c' = s.sessions c' := fun c' hc' =>
    Function.update_of_ne hc' ..
  have happ : (s.appending c log packet).history.appended c = s.history.appended c ++ [packet] :=
    Function.update_self ..
  have happ' : ∀ c', c' ≠ c → (s.appending c log packet).history.appended c' = s.history.appended c' := fun c' hc' =>
    Function.update_of_ne hc' ..
  have hslot : ∀ c', ((s.appending c log packet).sessions c').slot = (s.sessions c').slot := fun c' => by
    by_cases hc' : c' = c
    · rw [hc', hself]
    · rw [hother c' hc']
  refine ⟨h.size, fun c' => ?_, fun slot ho => ⟨(h.conns slot ho).slot_eq, (h.conns slot ho).generation,
    (h.conns slot ho).alive, ?_⟩, h.idle, fun c' slot hc' => h.slots c' slot (hslot c' ▸ hc'), fun conn => ?_,
    fun c' p hp => ?_, h.overwritten, h.rejected, h.accepted, h.closed⟩
  · by_cases hc' : c' = c
    · subst hc'
      rw [LogOk, hself, happ]
      exact ⟨hok.append hlt, hcap⟩
    · have hl := h.logs c'
      rw [LogOk] at hl ⊢
      rw [hother c' hc', happ' c' hc']
      exact hl
  · by_cases hc : (s.connections slot).clientId = c ∧ c ≠ 0
    · obtain ⟨rfl, h0⟩ := hc
      obtain ⟨start, hlogin, hf⟩ := (h.conns slot ho).feeds h0
      have hfit : log.endOffset + packet.length - (s.sessions (s.connections slot).clientId).cursor ≤ log.capacity := by
        simpa [SessionLog.wouldOverwrite] using hroom slot hf.slot_eq
      show Sends _ slot (s.history.logins (s.connections slot).conn)
      rw [hlogin]
      refine ⟨rfl, h0, ?_⟩
      rw [hself, happ]
      refine hf.append hlog hok rfl ?_
      show log.endOffset + packet.length ≤ _ + log.capacity
      omega
    · refine (h.conns slot ho).sends.frame rfl rfl fun c' h0 hc' => ?_
      have hne' : c' ≠ c := fun e => hc ⟨hc'.trans e, e ▸ h0⟩
      exact ⟨hother c' hne', happ' c' hne'⟩
  · refine sent_mono (h.sent conn) fun c' => ?_
    by_cases hc' : c' = c
    · subst hc'
      exact happ ▸ List.prefix_append _ _
    · exact happ' c' hc' ▸ List.prefix_rfl
  · by_cases hc' : c' = c
    · subst hc'
      rw [happ] at hp
      rcases List.mem_append.mp hp with hp | hp
      · exact h.packets c' p hp
      · rw [List.mem_singleton.mp hp]
        exact ⟨hne, hmsg⟩
    · rw [happ' c' hc'] at hp
      exact h.packets c' p hp

/-- Closing a connection keeps every log. -/
theorem log_close (s : Outbound) (conn : ConnId) (c : ℕ) : ((s.close conn).sessions c).log = (s.sessions c).log := by
  rcases close_cases s conn with ⟨-, e⟩ | ⟨-, e⟩ | ⟨-, -, e⟩
  · rw [e]
  · rw [e]
  · rw [e]
    show (released s.sessions (s.connections conn.slot).clientId conn.slot c).log = _
    unfold released
    split
    · by_cases hc : c = (s.connections conn.slot).clientId
      · subst hc
        rw [Function.update_self]
      · rw [Function.update_of_ne hc]
    · rfl

/-- The session of an open connection that is closed has none. -/
theorem slot_close (h : s.Ok past) {slot c : ℕ} (hs : (s.sessions c).slot = some slot) :
    ((s.close (s.connections slot).conn).sessions c).slot = none := by
  obtain ⟨ho, hc, h0⟩ := h.slots c slot hs
  have hx := h.conns slot ho
  rcases close_cases s (s.connections slot).conn with ⟨hgen, -⟩ | ⟨hne, -⟩ | ⟨-, -, e⟩
  · rw [hx.slot_eq] at hgen
    exact absurd hgen hx.generation
  · rw [hx.slot_eq] at hne
    exact absurd (hne.resolve_left fun hne => hne rfl) (not_not.mpr ho)
  · rw [e]
    show (released s.sessions (s.connections (s.connections slot).conn.slot).clientId _ c).slot = none
    rw [hx.slot_eq, hc, released, if_pos ⟨h0, hs⟩, Function.update_self]

/-- A slow consumer is dropped, any other has room. -/
theorem dropSlow_ok (h : s.Ok past) {c : ℕ} (hlog : (s.sessions c).log = some log) (len : ℕ) :
    (s.dropSlow c log len).Ok past ∧ ((s.dropSlow c log len).sessions c).log = some log ∧
      ∀ slot, ((s.dropSlow c log len).sessions c).slot = some slot →
        ¬ log.wouldOverwrite ((s.dropSlow c log len).sessions c).cursor len := by
  unfold dropSlow
  split
  · next hnone => exact ⟨h, hlog, fun slot hs => by rw [hnone] at hs; cases hs⟩
  · next slot hs =>
    split
    · refine ⟨close_ok h (.refl (h.loggedIn (h.slots c slot hs).1)), (log_close s _ c).trans hlog, fun slot' hs' => ?_⟩
      rw [slot_close h hs] at hs'
      cases hs'
    · next hroom => exact ⟨h, hlog, fun _ _ => hroom⟩

theorem erase_storeRetained (s : Outbound) (c firstBefore first : ℕ) :
    (s.storeRetained c firstBefore first).erase = s.erase := by
  unfold storeRetained
  split <;> rfl

theorem sendSequenced_ok (h : s.Ok past) (c : ℕ) {packet : List UInt8} (hne : packet ≠ [])
    (hmsg : ∃ msg, packet = encodeSoupSequenced msg maxSoupPacket) (hlen : packet.length ≤ 256) :
    (s.sendSequenced c packet).Ok past := by
  unfold sendSequenced
  split
  · exact h
  · next log hlog =>
    obtain ⟨h₁, hlog₁, hroom⟩ := dropSlow_ok h hlog packet.length
    have h₂ : (((s.dropSlow c log packet.length).appending c log packet).storeRetained c log.firstSeq
        (log.append packet).firstSeq).Ok past :=
      (h₁.appending hlog₁ hne hmsg hlen hroom).congr (erase_storeRetained ..)
    dsimp only
    split
    · exact h₂
    · exact h₂.congr (erase_markDirty _ _)

theorem sendOuch_ok (h : s.Ok past) (response : OuchResponse) : (s.sendOuch response).Ok past := by
  unfold sendOuch
  dsimp only
  split
  · exact h
  · next hlen =>
    exact sendSequenced_ok h _ (fun e => hlen (by rw [e]; rfl)) ⟨_, rfl⟩ (length_encodeSoupSequenced_le _ maxSoupPacket)

theorem onEvent_ok (h : s.Ok past) (event : EngineEvent) : (s.onEvent event).Ok past := by
  unfold onEvent
  dsimp only
  split
  · exact h.congr rfl
  · refine sendOuch_ok ?_ _
    exact h.congr rfl

/-! ## Logging in -/

/-- What is known of the slot of a connection that may log in. -/
theorem Ok.mayLogin (h : s.Ok past) (hmay : MayLogin past conn) :
    ¬ (s.connections conn.slot).isOpen ∧ (s.connections conn.slot).control = [] ∧
      (s.connections conn.slot).closedGeneration ≠ conn.generation ∧ s.history.logins conn = none ∧
      s.tcp.accepted conn = [] := by
  obtain ⟨hgen, hnew, hover, hslot⟩ := hmay
  have hopen : ¬ (s.connections conn.slot).isOpen := fun ho =>
    (h.conns conn.slot ho).alive (hslot _ (h.conns conn.slot ho).slot_eq (h.loggedIn ho))
  have hlogin : s.history.logins conn = none := by
    cases hl : s.history.logins conn with
    | none => rfl
    | some login =>
      cases login with
      | rejected reason => exact absurd (h.rejected conn reason hl) hnew
      | accepted c start =>
        obtain ⟨sequence, hm⟩ := h.accepted conn c start hl
        exact absurd (.inl ⟨c, sequence, hm⟩) hnew
  have hsent := h.sent conn
  rw [hlogin] at hsent
  refine ⟨hopen, h.idle conn.slot hopen, fun e => ?_, hlogin, hsent⟩
  rcases h.closed conn.slot with h0 | hl | hd
  · exact hgen (e ▸ h0)
  · rw [e] at hl
    exact hnew hl
  · rw [e] at hd
    exact hover hd

/-- A note that is not the end of a connection ends none. -/
theorem disconnected_concat (hnote : ∀ c k, note ≠ .disconnected c k) (h : Disconnected (past ++ [note]) conn) :
    Disconnected past conn := by
  obtain ⟨c, hm⟩ := h
  rcases List.mem_append.mp hm with hm | hm
  · exact ⟨c, hm⟩
  · exact absurd (List.mem_singleton.mp hm).symm (hnote c conn)

/-- A connection logs in: it is opened in its slot, with its session or with none. -/
theorem Ok.login (h : s.Ok past) (hmay : MayLogin past conn) {login : Login} (x : OutboundConnection)
    (hx : x.conn = conn ∧ x.isOpen ∧
      x.closedGeneration = (s.connections conn.slot).closedGeneration)
    (hconns : s'.connections = Function.update s.connections conn.slot x)
    (hsize : s'.soupReplayBytes = s.soupReplayBytes) (hacc : s'.tcp.accepted = s.tcp.accepted)
    (hlogins : s'.history.logins = Function.update s.history.logins conn (some login))
    (happ : s'.history.appended = s.history.appended) (hover : s'.history.overwritten = s.history.overwritten)
    (hfree : x.clientId ≠ 0 → (s.sessions x.clientId).slot = none)
    (hsess : ∀ c, c ≠ x.clientId → s'.sessions c = s.sessions c)
    (hlog : ∀ c, (s'.sessions c).log = (s.sessions c).log)
    (hslots : ∀ j, (s'.sessions x.clientId).slot = some j →
      j = conn.slot ∧ x.clientId ≠ 0 ∧ (s.sessions x.clientId).log ≠ none)
    (hnote : ∀ c k, note ≠ .disconnected c k) (hin : LoggedIn (past ++ [note]) conn)
    (haccepted : ∀ c start, login = .accepted c start → ∃ sequence, .loginAccepted c conn sequence ∈ past ++ [note])
    (hsends : s'.Sends conn.slot (some login)) : s'.Ok (past ++ [note]) := by
  obtain ⟨hconn, hopen, hgen⟩ := hx
  obtain ⟨hclosed, -, hne, -, -⟩ := h.mayLogin hmay
  have hself : s'.connections conn.slot = x := by rw [hconns, Function.update_self]
  have hlogins' : s'.history.logins conn = some login := by rw [hlogins, Function.update_self]
  have hother : ∀ j, j ≠ conn.slot → (s.connections j).isOpen → (s.connections j).conn ≠ conn := fun j hj ho e =>
    hj (by rw [← (h.conns j ho).slot_eq, e])
  refine h.rebuild (i := conn.slot) (List.subset_append_left _ _) {
    size := hsize
    conns := fun j hj => by rw [hconns, Function.update_of_ne hj]
    accepted := fun j _ _ => by rw [hacc]
    logins := fun j hj ho => by rw [hlogins, Function.update_of_ne (hother j hj ho)]
    sessions := fun j hj ho c h0 hc => ⟨hsess c fun e => ?_, by rw [happ]⟩
    alive := fun j _ ho hd => (h.conns j ho).alive (disconnected_concat hnote hd)
    packets := happ ▸ h.packets
    overwritten := hover ▸ h.overwritten } (fun c => ?_) (fun _ => ?_) (fun hno => absurd (hself ▸ hopen) hno)
    (fun c j hc => ?_) (fun k => ?_) (fun k reason hk => ?_) (fun k c start hk => ?_) (.inl (hself ▸ hgen))
  · subst hc
    obtain ⟨_, -, hf⟩ := (h.conns j ho).feeds h0
    rw [e] at hf
    exact Option.some_ne_none _ (hf.slot_eq.symm.trans (hfree (e ▸ h0)))
  · have hc := h.logs c
    unfold LogOk at hc ⊢
    rw [hlog, happ, hsize]
    split at hc
    · next hl =>
      refine ⟨hc.1, ?_⟩
      by_cases hcx : c = x.clientId
      · subst hcx
        cases hs : (s'.sessions x.clientId).slot with
        | none => rfl
        | some j => exact absurd hl (hslots j hs).2.2
      · rw [hsess c hcx]
        exact hc.2
    · exact hc
  · refine ⟨?_, ?_, ?_, ?_⟩ <;> rw [hself, hconn]
    · rw [hgen]
      exact hne
    · exact fun hd => hmay.2.2.1 (disconnected_concat hnote hd)
    · rw [hlogins']
      exact hsends
  · by_cases hcx : c = x.clientId
    · subst hcx
      obtain ⟨rfl, h0, -⟩ := hslots j hc
      rw [hself]
      exact .inr ⟨rfl, hopen, rfl, h0⟩
    · rw [hsess c hcx] at hc
      exact .inl ⟨fun e => hclosed (e ▸ (h.slots c j hc).1), hc⟩
  · by_cases hk : k = conn
    · subst hk
      have hs := hsends.sent
      rw [hself, hconn] at hs
      rw [hlogins']
      exact hs
    · rw [hlogins, Function.update_of_ne hk, happ, hacc]
      exact h.sent k
  · by_cases hkc : k = conn
    · exact hkc ▸ hin
    · rw [hlogins, Function.update_of_ne hkc] at hk
      exact loggedIn_mono (List.subset_append_left _ _) (h.rejected k reason hk)
  · by_cases hkc : k = conn
    · subst hkc
      exact haccepted c start (Option.some.inj (hlogins'.symm.trans hk))
    · rw [hlogins, Function.update_of_ne hkc] at hk
      exact (h.accepted k c start hk).imp fun _ hm => List.mem_append_left _ hm

/-- The connection a login leaves in its slot. -/
def opened (s : Outbound) (conn : ConnId) (c : ℕ) (control : List UInt8) : OutboundConnection where
  conn := conn
  isOpen := true
  clientId := c
  control := control
  closedGeneration := (s.connections conn.slot).closedGeneration

/-- The state a login leaves. -/
def answered (s : Outbound) (conn : ConnId) (c : ℕ) (control : List UInt8) (login : Login) : Outbound :=
  (s.setConnection conn.slot (s.opened conn c control)).recordLogin conn login

/-- States that agree besides their connections, whose cores are the same. -/
theorem erase_update {connections connections' : ℕ → OutboundConnection} {x x' : OutboundConnection}
    (hx : core x = core x') (he : ∀ j, j ≠ slot → connections j = connections' j) :
    (fun j => core (Function.update connections slot x j)) = fun j => core (Function.update connections' slot x' j) := by
  funext j
  by_cases hj : j = slot
  · rw [hj, Function.update_self, Function.update_self, hx]
  · rw [Function.update_of_ne hj, Function.update_of_ne hj, he j hj]

theorem erase_reject (hctl : (s.connections conn.slot).control = []) (reason : SoupReject) :
    ((s.openConnection conn).rejectLogin conn reason).erase =
      (s.answered conn 0 (loginRejectedPacket reason) (.rejected reason)).erase := by
  unfold openConnection rejectLogin rdtsc recordOverwritten
  dsimp only
  rw [if_pos hctl]
  refine (erase_setConnection ?_).trans ((erase_sendControl _ ?_ _).trans ?_)
  · rfl
  · simp only [connections_recordLogin, connections_setConnection]
  · simp only [connections_recordLogin, connections_setConnection]
    unfold answered erase
    congr 1
    exact erase_update rfl fun j hj => Function.update_of_ne hj _ _

theorem erase_accept (hctl : (s.connections conn.slot).control = []) {c start : ℕ}
    (hlog : (s.sessions c).log = some log) {offset sequence : ℕ}
    (hstart : start = if sequence = 0 ∨ sequence > log.nextSeq then log.nextSeq else sequence)
    (ho : log.offsetOf start = some offset) :
    (s.acceptLogin c conn sequence).erase = ((s.setSession c ⟨some log, some conn.slot, offset⟩).answered conn c
      (loginAcceptedPacket start) (.accepted c start)).erase := by
  unfold acceptLogin ensureLog openConnection rdtsc recordOverwritten
  dsimp only
  rw [hlog]
  dsimp only
  rw [← hstart, ho, if_pos hctl]
  dsimp only
  refine (erase_sendControl _ ?_ _).trans ?_
  · simp only [connections_recordLogin, connections_setConnection, connections_setSession]
  · simp only [connections_recordLogin, connections_setConnection, connections_setSession]
    unfold answered erase
    congr 1
    · refine erase_update rfl fun j hj => ?_
      exact (Function.update_of_ne hj _ _).trans (Function.update_of_ne hj _ _)
    · show Function.update s.sessions c { s.sessions c with slot := some conn.slot, cursor := offset } = _
      rw [← hlog]
      rfl

theorem connections_answered (s : Outbound) (conn : ConnId) (c : ℕ) (control : List UInt8) (login : Login) :
    (s.answered conn c control login).connections conn.slot = s.opened conn c control := Function.update_self ..

theorem out_answered (hnil : s.tcp.accepted conn = []) (c : ℕ) (control : List UInt8) (login : Login) :
    (s.answered conn c control login).out conn.slot = control := by
  rw [out, connections_answered]
  show s.tcp.accepted conn ++ control.drop 0 = control
  rw [hnil, List.nil_append, List.drop_zero]

theorem reject_ok (h : s.Ok past) (hmay : MayLogin past conn) (hnote : ∀ c k, note ≠ .disconnected c k)
    (hin : LoggedIn (past ++ [note]) conn) (reason : SoupReject) :
    ((s.openConnection conn).rejectLogin conn reason).Ok (past ++ [note]) := by
  obtain ⟨-, hctl, -, -, hnil⟩ := h.mayLogin hmay
  refine Ok.congr ?_ (erase_reject hctl reason)
  exact h.login hmay (s.opened conn 0 (loginRejectedPacket reason)) ⟨rfl, rfl, rfl⟩ rfl rfl rfl rfl rfl rfl
    (fun h0 => absurd rfl h0) (fun _ _ => rfl) (fun _ => rfl) (fun j hj => absurd rfl (h.slots 0 j hj).2.2) hnote hin
    (fun _ _ e => nomatch e)
    ⟨congrArg OutboundConnection.clientId (connections_answered ..), out_answered hnil 0 _ _⟩

/-- The state in which a session has a new log. -/
def withLog (s : Outbound) (c : ℕ) : Outbound :=
  { s.setSession c { s.sessions c with log := some (SessionLog.new s.soupReplayBytes) } with
    retainedFrom := Function.update s.retainedFrom c (SessionLog.new s.soupReplayBytes).firstSeq }

theorem ensureLog_of_none {c : ℕ} (h : (s.sessions c).log = none) :
    s.ensureLog c = (SessionLog.new s.soupReplayBytes, s.withLog c) := by
  rw [ensureLog, h]
  rfl

theorem ensureLog_of_some {c : ℕ} (h : (s.sessions c).log = some log) : s.ensureLog c = (log, s) := by
  rw [ensureLog, h]

theorem sessions_withLog (s : Outbound) (c : ℕ) : (s.withLog c).sessions c =
    { s.sessions c with log := some (SessionLog.new s.soupReplayBytes) } := Function.update_self ..

theorem sessions_withLog_of_ne (s : Outbound) {c c' : ℕ} (h : c' ≠ c) :
    (s.withLog c).sessions c' = s.sessions c' := Function.update_of_ne h ..

/-- A session gets its log on its first login. -/
theorem Ok.withLog (h : s.Ok past) {c : ℕ} (hlog : (s.sessions c).log = none) : (s.withLog c).Ok past := by
  have hc := h.logs c
  unfold LogOk at hc
  rw [hlog] at hc
  obtain ⟨happ, hslot⟩ := hc
  refine { h with
    logs := fun c' => ?_
    conns := fun slot ho => (h.conns slot ho).frame rfl rfl (fun c' h0 hc' => ⟨sessions_withLog_of_ne s ?_, rfl⟩) rfl
      (h.conns slot ho).alive
    slots := fun c' slot hs => h.slots c' slot ?_ }
  · by_cases hc : c' = c
    · subst hc
      obtain ⟨k, hk⟩ := h.size
      unfold LogOk
      rw [sessions_withLog]
      show (SessionLog.new s.soupReplayBytes).Ok (s.history.appended c') ∧ _
      rw [happ]
      exact ⟨SessionLog.Ok.new (k := k + 4) hk, rfl⟩
    · have hl := h.logs c'
      unfold LogOk at hl ⊢
      rw [sessions_withLog_of_ne s hc]
      exact hl
  · rintro rfl
    subst hc'
    obtain ⟨_, -, hf⟩ := (h.conns slot ho).feeds h0
    exact Option.some_ne_none _ (hf.slot_eq.symm.trans hslot)
  · by_cases hc : c' = c
    · rw [hc, sessions_withLog] at hs
      rw [hc]
      exact hs
    · rwa [sessions_withLog_of_ne s hc] at hs

/-- The session of an accepted login has no connection. -/
theorem Ok.slot_eq_none (h : s.Ok past) {c : ℕ}
    (hfree : ∀ conn sequence, .loginAccepted c conn sequence ∈ past → Disconnected past conn) :
    (s.sessions c).slot = none := by
  cases hs : (s.sessions c).slot with
  | none => rfl
  | some j =>
    obtain ⟨ho, rfl, h0⟩ := h.slots c j hs
    obtain ⟨start, hl, -⟩ := (h.conns j ho).feeds h0
    obtain ⟨sequence, hm⟩ := h.accepted _ _ start hl
    exact absurd (hfree _ sequence hm) (h.conns j ho).alive

/-- A login to a session that has its log. -/
theorem acceptLogin_ok_of_log (h : s.Ok past) {c : ℕ} {sequence : ℕ}
    (hp : Pushable past (.loginAccepted c conn sequence)) (hlog : (s.sessions c).log = some log) :
    (s.acceptLogin c conn sequence).Ok (past ++ [.loginAccepted c conn sequence]) := by
  obtain ⟨h0, hmay, hfree⟩ := hp
  obtain ⟨-, hctl, -, -, hnil⟩ := h.mayLogin hmay
  have hmem : ServerNote.loginAccepted c conn sequence ∈ past ++ [.loginAccepted c conn sequence] :=
    List.mem_append_right _ (List.mem_singleton_self _)
  have hin : LoggedIn (past ++ [.loginAccepted c conn sequence]) conn := .inl ⟨c, sequence, hmem⟩
  cases ho : log.offsetOf (if sequence = 0 ∨ sequence > log.nextSeq then log.nextSeq else sequence) with
  | none =>
    have e : s.acceptLogin c conn sequence = (s.openConnection conn).rejectLogin conn .sessionNotAvailable := by
      rw [acceptLogin, ensureLog_of_some hlog]
      dsimp only
      rw [ho]
    rw [e]
    exact reject_ok h hmay (by rintro _ _ ⟨⟩) hin _
  | some offset =>
    refine Ok.congr ?_ (erase_accept hctl hlog rfl ho)
    have hself : ∀ session, (s.setSession c session).sessions c = session := fun _ => Function.update_self ..
    have hother : ∀ c' session, c' ≠ c → (s.setSession c session).sessions c' = s.sessions c' := fun _ _ hc =>
      Function.update_of_ne hc ..
    refine h.login hmay (s.opened conn c _) ⟨rfl, rfl, rfl⟩ rfl rfl rfl rfl rfl rfl
      (fun _ => h.slot_eq_none hfree) (fun c' hc => hother c' _ hc) (fun c' => ?_) (fun j hj => ?_)
      (by rintro _ _ ⟨⟩) hin (fun c' start' e => ?_) ?_
    · by_cases hc : c' = c
      · subst hc
        exact (congrArg OutboundSession.log (hself _)).trans hlog.symm
      · exact congrArg OutboundSession.log (hother c' _ hc)
    · have e : some conn.slot = some j := (congrArg OutboundSession.slot (hself _)).symm.trans hj
      exact ⟨(Option.some.inj e).symm, h0, fun e => Option.some_ne_none _ (hlog.symm.trans e)⟩
    · injection e with e₁ e₂
      exact e₁ ▸ ⟨sequence, hmem⟩
    · refine ⟨congrArg OutboundConnection.clientId (connections_answered ..), h0, ?_⟩
      rw [out_answered (s := s.setSession c _) hnil]
      show Feeds ((s.setSession c _).sessions c) (s.history.appended c) conn.slot _ _
      rw [hself]
      exact Feeds.login (h.logOk hlog).1 ho conn.slot

theorem acceptLogin_ok (h : s.Ok past) {c : ℕ} {sequence : ℕ} (hp : Pushable past (.loginAccepted c conn sequence)) :
    (s.acceptLogin c conn sequence).Ok (past ++ [.loginAccepted c conn sequence]) := by
  cases hlog : (s.sessions c).log with
  | some log => exact acceptLogin_ok_of_log h hp hlog
  | none =>
    have hlog' : ((s.withLog c).sessions c).log = some (SessionLog.new s.soupReplayBytes) := by rw [sessions_withLog]
    have e : s.acceptLogin c conn sequence = (s.withLog c).acceptLogin c conn sequence := by
      rw [acceptLogin, acceptLogin, ensureLog_of_none hlog, ensureLog_of_some hlog']
    rw [e]
    exact acceptLogin_ok_of_log (h.withLog hlog) hp hlog'

/-! ## Steps and runs -/

/-- A note that says nothing about connections. -/
theorem Ok.concat_gateway (h : s.Ok past) (note : GatewayNote) : s.Ok (past ++ [.gateway note]) :=
  { h with
    conns := fun slot ho => { h.conns slot ho with
      alive := fun hd => (h.conns slot ho).alive (disconnected_concat (by rintro _ _ ⟨⟩) hd) }
    rejected := fun k reason hk => loggedIn_mono (List.subset_append_left _ _) (h.rejected k reason hk)
    accepted := fun k c start hk => (h.accepted k c start hk).imp fun _ hm => List.mem_append_left _ hm
    closed := fun slot => (h.closed slot).imp_right (Or.imp (loggedIn_mono (List.subset_append_left _ _))
      (disconnected_mono (List.subset_append_left _ _))) }

theorem onNote_ok (h : s.Ok past) (hp : Pushable past note) : (s.onNote note).Ok (past ++ [note]) := by
  cases note with
  | gateway note =>
    have h := h.concat_gateway note
    unfold onNote rdtsc
    dsimp only
    split
    · exact h.congr rfl
    · refine sendOuch_ok ?_ _
      exact h.congr rfl
  | loginAccepted c conn sequence => exact acceptLogin_ok h hp
  | loginRejected conn reason =>
    exact reject_ok h hp (by rintro _ _ ⟨⟩)
      (.inr ⟨reason, List.mem_append_right _ (List.mem_singleton_self _)⟩) reason
  | disconnected c conn => exact close_ok h (.disconnected past c conn)

/-- A step that takes no note. -/
theorem quiet_ok (h : s.Ok past) {step : Step} (hq : notesOf [step] = []) : ∃ s', s.step step = some s' ∧ s'.Ok past := by
  cases step with
  | note note => exact absurd hq (List.cons_ne_nil _ _)
  | event event => exact ⟨_, rfl, onEvent_ok h event⟩
  | flush => exact flushDirty_ok h s.dirty []
  | heartbeat =>
    have h' : Ok past { s with reads := s.reads + 1 } := h.congr rfl
    exact heartbeat_ok h' _
  | closeAll => exact ⟨_, rfl, closeAll_ok h⟩

/-- What one step preserves. -/
theorem step_ok (h : s.Ok past) (step : Step) (hp : ∀ note, step = .note note → Pushable past note) :
    ∃ s', s.step step = some s' ∧ s'.Ok (past ++ notesOf [step]) := by
  by_cases hq : notesOf [step] = []
  · obtain ⟨s', hs, h'⟩ := quiet_ok h hq
    exact ⟨s', hs, by rwa [hq, List.append_nil]⟩
  · cases step with
    | note note => exact ⟨_, rfl, onNote_ok h (hp note rfl)⟩
    | _ => exact absurd rfl hq

theorem notesOf_cons (step : Step) (steps : List Step) : notesOf (step :: steps) = notesOf [step] ++ notesOf steps := by
  cases step <;> rfl

/-- What a run preserves. -/
theorem run_ok (steps : List Step) (h : s.Ok past) (hp : ∀ before note after, notesOf steps = before ++ note :: after →
    Pushable (past ++ before) note) : ∃ s', s.run steps = some s' ∧ s'.Ok (past ++ notesOf steps) := by
  induction steps generalizing s past with
  | nil => exact ⟨s, rfl, (List.append_nil past).symm ▸ h⟩
  | cons step steps ih =>
    have hcons := notesOf_cons step steps
    have hfirst : ∀ note, step = .note note → Pushable past note := by
      rintro note rfl
      have := hp [] note (notesOf steps) hcons
      rwa [List.append_nil] at this
    obtain ⟨s₁, hs₁, h₁⟩ := step_ok h step hfirst
    obtain ⟨s', hs', h'⟩ := ih h₁ fun before note after e => by
      rw [List.append_assoc]
      exact hp _ note after (by rw [hcons, e, List.append_assoc])
    refine ⟨s', ?_, ?_⟩
    · rw [run, hs₁]
      exact hs'
    · rwa [hcons, ← List.append_assoc]

/-- The thread when it starts. -/
theorem Ok.new (k : ℕ) (clock : Clock) (tcp : Tcp) (h : tcp.accepted = fun _ => []) :
    Ok [] { soupReplayBytes := 2 ^ (k + 9), clock := clock, tcp := tcp } where
  size := ⟨k, rfl⟩
  logs _ := ⟨rfl, rfl⟩
  conns _ ho := nomatch ho
  idle _ _ := rfl
  slots _ _ hs := nomatch hs
  sent conn := by rw [h]; rfl
  packets _ _ hp := nomatch hp
  overwritten := rfl
  rejected _ _ hl := nomatch hl
  accepted _ _ _ hl := nomatch hl
  closed _ := .inl rfl

end Outbound

/-- Whatever the stack accepts, every run of the outbound thread on notes the inbound
thread can push never dereferences a null log nor replaces a pending control packet, and
each connection has been sent a prefix of Login Rejected, or of Login Accepted, whole
heartbeats and the session's packets from the agreed one on. -/
theorem outbound_stream_ok (k : ℕ) (clock : Clock) (takes : ℕ → ℕ) (sendableAt : ℕ → Bool) (steps : List Outbound.Step)
    (h : Pushed (notesOf steps)) :
    ∃ s, Outbound.run { soupReplayBytes := 2 ^ (k + 9), clock := clock, tcp := ⟨takes, sendableAt, 0, fun _ => [], []⟩ }
        steps = some s ∧
      s.history.overwritten = [] ∧
      (∀ c, ∀ p ∈ s.history.appended c, p ≠ [] ∧ ∃ msg, p = encodeSoupSequenced msg maxSoupPacket) ∧
      ∀ conn, Sent s.history.appended (s.history.logins conn) (s.tcp.accepted conn) := by
  obtain ⟨s, hs, hok⟩ := Outbound.run_ok steps (Outbound.Ok.new k clock ⟨takes, sendableAt, 0, fun _ => [], []⟩ rfl)
    fun before note after e => h before note after e
  exact ⟨s, hs, hok.overwritten, hok.packets, hok.sent⟩

/-- The record of an order of client 1. -/
def sampleRecord : OrderRecord where
  clientId := 1
  userRefNum := 1
  quantity := 100
  price := 10001
  symbol := bookSymbol
  clOrdId := alpha 14 []
  side := chr 'B'
  timeInForce := chr '0'
  display := chr 'Y'
  capacity := chr 'A'
  intermarketSweepEligibility := chr 'N'
  crossType := chr 'N'

/-- The client logs in, is rejected the order, loses the connection, and logs in again
for what it missed. -/
def sampleSteps : List Outbound.Step :=
  [.note (.loginAccepted 1 ⟨0, 1⟩ 0), .flush, .note (.gateway (.rejected .invalidPrice sampleRecord)), .flush,
    .note (.disconnected 1 ⟨0, 1⟩), .note (.loginAccepted 1 ⟨0, 2⟩ 1), .flush, .heartbeat, .flush, .closeAll]

/-- A stack that takes 20 bytes at a time. -/
def sampleTcp : Tcp := ⟨fun _ => 20, fun _ => true, 0, fun _ => [], []⟩

theorem pushed_sampleSteps : Pushed (notesOf sampleSteps) := by
  refine pushed_concat (pushed_concat (pushed_concat (pushed_concat pushed_nil ?_) ?_) ?_) ?_
  · simp [Pushable, MayLogin, LoggedIn, Disconnected]
  · trivial
  · trivial
  · simp [Pushable, MayLogin, LoggedIn, Disconnected]

theorem outbound_stream_ok_sample :
    Pushed (notesOf sampleSteps) ∧
    ∃ s, Outbound.run { soupReplayBytes := 2 ^ (0 + 9), clock := ⟨id, id, UInt64.ofNat⟩, tcp := sampleTcp }
        sampleSteps = some s ∧
      s.history.overwritten = [] ∧
      (∀ c, ∀ p ∈ s.history.appended c, p ≠ [] ∧ ∃ msg, p = encodeSoupSequenced msg maxSoupPacket) ∧
      ∀ conn, Sent s.history.appended (s.history.logins conn) (s.tcp.accepted conn) := by
  exact ⟨pushed_sampleSteps, outbound_stream_ok 0 _ _ _ sampleSteps pushed_sampleSteps⟩

end Exchange
