import Exchange.Proof.Server.Segments
import Exchange.Spec.Lifetime

/-!
# How long a connection lasts

The times the inbound thread keeps of a connection are those that TCP reported (`Clocked`, which
every step preserves), so a scan drops exactly the connections that have been silent, or have not
logged in, for too long. With what a packet (`handleSoupPacket_ends`) and a stream of them
(`onData_ends`) can end, `connections_dropped_for_cause` says what a connection is dropped for.
-/

namespace Exchange.InboundThread

open Spec

variable {t t' t'' : InboundThread} {slot : ℕ} {retainedFrom : ℕ → ℕ} {packet : SoupPacket} {bytes : List UInt8}
  {clock : Clock} {steps : List Step}

/-! ## Times -/

/-- Only the connection in the slot is changed, and it keeps its id and its times. -/
structure Timed (slot : ℕ) (t t' : InboundThread) : Prop where
  others : ∀ j, j ≠ slot → t'.connections j = t.connections j
  conn : (t'.connections slot).conn = (t.connections slot).conn
  opened : (t'.connections slot).openedTsc = (t.connections slot).openedTsc
  heard : (t'.connections slot).lastRecvTsc = (t.connections slot).lastRecvTsc

theorem Timed.of_eq (h : t'.connections = t.connections) : Timed slot t t' := by
  refine ⟨fun j _ => ?_, ?_, ?_, ?_⟩ <;> rw [h]

theorem Timed.trans (h : Timed slot t t') (h' : Timed slot t' t'') : Timed slot t t'' :=
  ⟨fun j hj => (h'.others j hj).trans (h.others j hj), h'.conn.trans h.conn, h'.opened.trans h.opened,
    h'.heard.trans h.heard⟩

theorem Timed.update {x : InboundConnection} (h : t'.connections = Function.update t.connections slot x)
    (hc : x.conn = (t.connections slot).conn) (ho : x.openedTsc = (t.connections slot).openedTsc)
    (hr : x.lastRecvTsc = (t.connections slot).lastRecvTsc) : Timed slot t t' := by
  refine ⟨fun j hj => ?_, ?_, ?_, ?_⟩
  · rw [h, Function.update_of_ne hj]
  · rw [h, Function.update_self, hc]
  · rw [h, Function.update_self, ho]
  · rw [h, Function.update_self, hr]

theorem disconnect_timed (t : InboundThread) (slot : ℕ) : Timed slot t (t.disconnect slot) := by
  by_cases ho : (t.connections slot).isOpen
  · exact .update (disconnect_connections ho) rfl rfl rfl
  · rw [disconnect_of_closed ho]
    exact .of_eq rfl

theorem handleOuch_connections {c : ℕ} {msg : OuchInboundFrame} (h : t.handleOuch c msg = some t') :
    t'.connections = t.connections := by
  unfold handleOuch at h
  split_ifs at h
  · cases h
    rfl
  · obtain ⟨⟨entry, translation⟩, -, h⟩ := Option.bind_eq_some_iff.mp h
    cases h
    cases translation.note <;> rfl

theorem handleSoupPacket_timed (h : t.handleSoupPacket retainedFrom slot packet = some t') : Timed slot t t' := by
  have hrecord : Timed slot t (t.recordPacket slot packet) := .of_eq rfl
  cases handleSoupPacket_handles h with
  | ignored => exact hrecord
  | login _ _ hlog =>
    obtain ⟨_, _, _, e⟩ := hlog.connections
    exact .update e rfl rfl rfl
  | ouch _ _ ho => exact .of_eq ((handleOuch_connections ho).trans rfl)
  | logout => exact hrecord.trans (disconnect_timed _ _)

theorem hold_timed {kept bytes : List UInt8} (h : t.hold slot kept bytes = some t') : Timed slot t t' := by
  unfold hold at h
  split_ifs at h
  cases h
  exact .update rfl rfl rfl rfl

theorem takePackets_timed {fuel : ℕ} (h : takePackets retainedFrom slot fuel t bytes = some t') : Timed slot t t' := by
  induction fuel generalizing t bytes with
  | zero =>
    cases h
    exact .of_eq rfl
  | succ fuel ih =>
    unfold takePackets at h
    split at h
    · cases h
      exact .of_eq rfl
    · split at h
      · obtain ⟨t₁, h₁, h⟩ := Option.bind_eq_some_iff.mp h
        split_ifs at h
        · exact (handleSoupPacket_timed h₁).trans (ih h)
        · cases h
          exact handleSoupPacket_timed h₁
      · cases h
        exact disconnect_timed t slot
      · split at h
        · cases h
          exact disconnect_timed t slot
        · exact hold_timed h

theorem finishPacket_timed (h : t.finishPacket retainedFrom slot bytes = some t') : Timed slot t t' := by
  unfold finishPacket at h
  dsimp only at h
  generalize (if (t.connections slot).partialBytes.length ≤ packetLen (t.connections slot).partialBytes then
    min (packetLen (t.connections slot).partialBytes - (t.connections slot).partialBytes.length) bytes.length
    else bytes.length) = take at h
  obtain ⟨t₁, h₁, h⟩ := Option.bind_eq_some_iff.mp h
  refine (hold_timed h₁).trans ?_
  split at h
  · cases h
    exact .of_eq rfl
  · have hempty : Timed slot t₁ (t₁.setConnection slot { t₁.connections slot with partialBytes := [] }) :=
      .update rfl rfl rfl rfl
    refine hempty.trans ?_
    split at h
    · obtain ⟨t₂, h₂, h⟩ := Option.bind_eq_some_iff.mp h
      refine (handleSoupPacket_timed h₂).trans ?_
      split_ifs at h
      · exact takePackets_timed h
      · cases h
        exact .of_eq rfl
    · cases h
      exact disconnect_timed _ _

theorem onData_timed (h : t.onData retainedFrom slot bytes = some t') : Timed slot t t' := by
  unfold onData at h
  dsimp only at h
  split at h
  · exact takePackets_timed h
  · split at h
    · obtain ⟨t₁, h₁, h⟩ := Option.bind_eq_some_iff.mp h
      refine (hold_timed h₁).trans ?_
      split at h
      · cases h
        exact .of_eq rfl
      · split at h
        · cases h
          exact disconnect_timed _ _
        · exact finishPacket_timed h
    · exact finishPacket_timed h

/-! ## Scans -/

/-- A connection that is over. -/
def ended (x : InboundConnection) : InboundConnection :=
  { x with isOpen := false, loggedIn := false, closing := true, partialBytes := [] }

/-- What a scan makes of a connection. -/
def scanned (clock : Clock) (now : ℕ) (x : InboundConnection) : InboundConnection :=
  if x.isOpen && expired clock now x then ended x else x

/-- The body of the loop of `checkTimeouts`. -/
def scanOne (clock : Clock) (now : ℕ) (t : InboundThread) (slot : ℕ) : InboundThread :=
  if (t.connections slot).isOpen && expired clock now (t.connections slot) then t.disconnect slot else t

theorem checkTimeouts_eq (clock : Clock) (now : ℕ) (t : InboundThread) :
    t.checkTimeouts clock now = (List.range Outbound.maxConnections).foldl (scanOne clock now) t := rfl

theorem scanOne_connections (clock : Clock) (now : ℕ) (t : InboundThread) (slot : ℕ) :
    (scanOne clock now t slot).connections =
      Function.update t.connections slot (scanned clock now (t.connections slot)) := by
  unfold scanOne scanned
  split_ifs with hx
  · exact disconnect_connections (Bool.and_eq_true_iff.mp hx).1
  · exact (Function.update_eq_self slot t.connections).symm

/-- Each connection is looked at once. -/
theorem foldl_scanOne (clock : Clock) (now : ℕ) {slots : List ℕ} (hnodup : slots.Nodup) (t : InboundThread) (j : ℕ) :
    (slots.foldl (scanOne clock now) t).connections j =
      if j ∈ slots then scanned clock now (t.connections j) else t.connections j := by
  induction slots generalizing t with
  | nil => rfl
  | cons slot slots ih =>
    obtain ⟨hnot, hnodup⟩ := List.nodup_cons.mp hnodup
    have hconns := scanOne_connections clock now t slot
    rw [List.foldl_cons, ih hnodup (scanOne clock now t slot)]
    by_cases e : j = slot
    · rw [e, if_neg hnot, if_pos List.mem_cons_self, hconns, Function.update_self]
    · have hsame : (scanOne clock now t slot).connections j = t.connections j := by
        rw [hconns, Function.update_of_ne e]
      rw [hsame]
      simp only [List.mem_cons, e, false_or]

theorem checkTimeouts_connections (clock : Clock) (now : ℕ) (t : InboundThread) (slot : ℕ) :
    (t.checkTimeouts clock now).connections slot =
      if slot < Outbound.maxConnections then scanned clock now (t.connections slot) else t.connections slot := by
  rw [checkTimeouts_eq, foldl_scanOne clock now List.nodup_range t slot]
  simp only [List.mem_range]

/-- A connection that is open after a scan is as it was. -/
theorem checkTimeouts_of_open {now : ℕ} (ho : ((t.checkTimeouts clock now).connections slot).isOpen) :
    (t.checkTimeouts clock now).connections slot = t.connections slot := by
  rw [checkTimeouts_connections] at ho ⊢
  unfold scanned at ho ⊢
  split_ifs at ho ⊢
  · exact absurd ho Bool.false_ne_true
  · rfl
  · rfl

/-! ## What a packet can end -/

/-- A packet ends a connection if it is a Logout Request; any other leaves it open, and as it was if
it is logged in. -/
theorem handleSoupPacket_ends (hr : t.handleSoupPacket retainedFrom slot packet = some t') :
    if SoupPacketType.ofByte packet.type = some .logoutRequest then ¬ (t'.connections slot).isOpen
    else (t'.connections slot).isOpen = (t.connections slot).isOpen ∧
      ((t.connections slot).loggedIn → t'.connections = t.connections) := by
  cases handleSoupPacket_handles hr with
  | ignored hlogout _ =>
    rw [if_neg hlogout]
    exact ⟨rfl, fun _ => rfl⟩
  | login htype hl hlog =>
    obtain ⟨_, _, _, e⟩ := hlog.connections
    rw [htype, if_neg (by decide), e, Function.update_self]
    exact ⟨rfl, fun hin => absurd hin hl⟩
  | ouch htype _ ho =>
    rw [htype, if_neg (by decide), handleOuch_connections ho]
    exact ⟨rfl, fun _ => rfl⟩
  | logout htype =>
    rw [htype, if_pos rfl]
    exact disconnect_not_open _ _

/-- Packets and a rest after them end a connection only by a Logout Request or if the rest cannot
begin a packet, and then if it is logged in. -/
theorem handleAll_ends {rest : List UInt8} {retained : ℕ → ℕ → ℕ} {packets : List SoupPacket} (h : t.Sessions)
    (ht : t.takesInput slot) (hr : handleAll slot rest retained t packets = some t') :
    (¬ (t'.connections slot).isOpen → parseSoupPacket rest = .malformed ∨
      ∃ packet ∈ packets, SoupPacketType.ofByte packet.type = some .logoutRequest) ∧
    ((t.connections slot).loggedIn →
      (parseSoupPacket rest = .malformed ∨
        ∃ packet ∈ packets, SoupPacketType.ofByte packet.type = some .logoutRequest) →
      ¬ (t'.connections slot).isOpen) := by
  induction packets generalizing t retained with
  | nil =>
    unfold handleAll at hr
    split_ifs at hr with hbad
    · cases hr
      exact ⟨fun _ => .inl hbad, fun _ _ => disconnect_not_open t slot⟩
    · cases hr
      rw [connections_setConnection]
      refine ⟨fun hclosed => absurd (takesInput_iff.mp ht).1 hclosed, fun _ hb => ?_⟩
      rcases hb with hb | ⟨packet, hmem, -⟩
      · exact absurd hb hbad
      · exact absurd hmem List.not_mem_nil
  | cons packet packets ih =>
    obtain ⟨t₁, ht₁, hr⟩ := Option.bind_eq_some_iff.mp hr
    have hends := handleSoupPacket_ends ht₁
    obtain ⟨t₂, ht₂, ha⟩ := handleSoupPacket_acts (retained 0) h ht packet
    cases ht₁.symm.trans ht₂
    by_cases hlogout : SoupPacketType.ofByte packet.type = some .logoutRequest
    · rw [if_pos hlogout] at hends
      rw [if_neg fun hin => hends (takesInput_iff.mp hin).1] at hr
      cases hr
      exact ⟨fun _ => .inr ⟨packet, List.mem_cons_self, hlogout⟩, fun _ _ => hends⟩
    · rw [if_neg hlogout] at hends
      have hopen : (t₁.connections slot).isOpen := hends.1.trans (takesInput_iff.mp ht).1
      by_cases hin : t₁.takesInput slot
      · rw [if_pos hin] at hr
        obtain ⟨hdrop, hkeep⟩ := ih (h.acts ha) hin hr
        refine ⟨fun hclosed => ?_, fun hl hb => hkeep ?_ ?_⟩
        · rcases hdrop hclosed with hb | ⟨p, hp, hb⟩
          · exact .inl hb
          · exact .inr ⟨p, List.mem_cons_of_mem _ hp, hb⟩
        · rw [hends.2 hl]
          exact hl
        · rcases hb with hb | ⟨p, hp, hb⟩
          · exact .inl hb
          · rcases List.mem_cons.mp hp with rfl | hp
            · exact absurd hb hlogout
            · exact .inr ⟨p, hp, hb⟩
      · rw [if_neg hin] at hr
        cases hr
        refine ⟨fun hclosed => absurd hopen hclosed, fun hl _ => absurd ?_ hin⟩
        rw [takesInput, hends.2 hl]
        exact ht

theorem onData_ends (h : t.Steady) (ht : t.takesInput slot) (hs : Short ((t.connections slot).partialBytes ++ bytes))
    (hr : t.onData retainedFrom slot bytes = some t') :
    (¬ (t'.connections slot).isOpen → Breaks ((t.connections slot).partialBytes ++ bytes)) ∧
    ((t.connections slot).loggedIn → Breaks ((t.connections slot).partialBytes ++ bytes) →
      ¬ (t'.connections slot).isOpen) := by
  have hempty : t.Acts (t.setPartial slot []) := setPartial_acts t slot pending_nil
  have hin : ((t.setPartial slot []).connections slot).loggedIn = (t.connections slot).loggedIn := by
    rw [setPartial, connections_setConnection]
  rw [onData_eq retainedFrom h ht hs] at hr
  obtain ⟨hdrop, hkeep⟩ := handleAll_ends (h.sessions.acts hempty) (by rwa [takesInput_setPartial]) hr
  rw [hin] at hkeep
  exact ⟨hdrop, hkeep⟩

/-! ## One step -/

/-- The end of a connection is reported. -/
theorem connEnded_connections (t : InboundThread) (conn : ConnId) (slot : ℕ) : (t.connEnded conn).connections slot =
    if (t.connections slot).isOpen ∧ slot = conn.slot ∧ (t.connections slot).conn = conn then ended (t.connections slot)
    else t.connections slot := by
  unfold connEnded
  by_cases hconn : (t.connections conn.slot).conn = conn
  · rw [if_neg (not_not.mpr hconn)]
    by_cases ho : (t.connections conn.slot).isOpen
    · rw [disconnect_connections ho]
      by_cases e : slot = conn.slot
      · rw [e, Function.update_self, if_pos ⟨ho, rfl, hconn⟩, ended]
      · rw [Function.update_of_ne e, if_neg fun h => e h.2.1]
    · have hno : ¬ ((t.connections slot).isOpen ∧ slot = conn.slot ∧ (t.connections slot).conn = conn) := by
        rintro ⟨hopen, rfl, -⟩
        exact ho hopen
      rw [disconnect_of_closed ho, if_neg hno]
  · have hno : ¬ ((t.connections slot).isOpen ∧ slot = conn.slot ∧ (t.connections slot).conn = conn) := by
      rintro ⟨-, rfl, e⟩
      exact hconn e
    rw [if_pos hconn, if_neg hno]

theorem connEnded_of_open {conn : ConnId} (ho : ((t.connEnded conn).connections slot).isOpen) :
    (t.connEnded conn).connections slot = t.connections slot := by
  rw [connEnded_connections] at ho ⊢
  split_ifs at ho ⊢
  · exact absurd ho Bool.false_ne_true
  · rfl

/-- Data is dropped, or handed on with its time. -/
theorem onTcpEvent_data {recvTsc : ℕ} {conn : ConnId}
    (h : t.onTcpEvent retainedFrom recvTsc (.data conn bytes) = some t') :
    (t' = t ∧ ((t.connections conn.slot).conn ≠ conn ∨ ¬ t.takesInput conn.slot)) ∨
    ((t.connections conn.slot).conn = conn ∧ t.takesInput conn.slot ∧
      (t.touch conn.slot recvTsc).onData retainedFrom conn.slot bytes = some t') := by
  unfold onTcpEvent at h
  dsimp only at h
  split at h
  · next hno =>
    cases h
    exact .inl ⟨rfl, by simpa using hno⟩
  · next hno =>
    rw [not_or, not_not, Bool.not_eq_true', Bool.not_eq_false] at hno
    exact .inr ⟨hno.1, hno.2, h⟩

/-! ## Runs -/

theorem lastTsc_concat (tsc : Step → Option ℕ) (steps : List Step) (step : Step) :
    lastTsc tsc (steps ++ [step]) = (tsc step).or (lastTsc tsc steps) := by
  rw [lastTsc, List.filterMap_append, List.getLast?_append]
  cases h : tsc step with
  | none => rw [List.filterMap_cons_none h]; rfl
  | some n => rw [List.filterMap_cons_some h]; rfl

/-- The times of the open connections are those that TCP reported. -/
structure Clocked (steps : List Step) (t : InboundThread) : Prop where
  opened : ∀ slot, (t.connections slot).isOpen →
    lastTsc (acceptedTsc (t.connections slot).conn) steps = some (t.connections slot).openedTsc
  heard : ∀ slot, (t.connections slot).isOpen → ¬ (t.connections slot).closing →
    lastTsc (heardTsc (t.connections slot).conn) steps = some (t.connections slot).lastRecvTsc

/-- A connection that is open after a step was so before and has not been heard from, or its times
are those of the step. -/
theorem Clocked.concat {step : Step} (h : Clocked steps t) (hstep : ∀ slot, (t'.connections slot).isOpen →
      (t'.connections slot = t.connections slot ∧ acceptedTsc (t.connections slot).conn step = none ∧
        (¬ (t.connections slot).closing → heardTsc (t.connections slot).conn step = none)) ∨
      ((acceptedTsc (t'.connections slot).conn step).or (lastTsc (acceptedTsc (t'.connections slot).conn) steps) =
          some (t'.connections slot).openedTsc ∧
        heardTsc (t'.connections slot).conn step = some (t'.connections slot).lastRecvTsc)) :
    Clocked (steps ++ [step]) t' := by
  refine ⟨fun slot ho => ?_, fun slot ho hc => ?_⟩ <;> rw [lastTsc_concat]
  · rcases hstep slot ho with ⟨hsame, hnone, -⟩ | ⟨hopened, -⟩
    · rw [hsame] at ho ⊢
      rw [hnone, Option.none_or]
      exact h.opened slot ho
    · exact hopened
  · rcases hstep slot ho with ⟨hsame, -, hnone⟩ | ⟨-, hheard⟩
    · rw [hsame] at ho hc ⊢
      rw [hnone hc, Option.none_or]
      exact h.heard slot ho hc
    · rw [hheard, Option.some_or]

theorem Clocked.new : Clocked [] {} :=
  ⟨fun _ ho => absurd ho Bool.false_ne_true, fun _ ho => absurd ho Bool.false_ne_true⟩

theorem Clocked.step {step : Step} (h : Clocked steps t) (hs : t.Sessions) (ht : t.step clock step = some t') :
    Clocked (steps ++ [step]) t' := by
  refine h.concat fun slot ho => ?_
  cases step with
  | scan now =>
    obtain rfl : t.checkTimeouts clock now = t' := Option.some.inj ht
    exact .inl ⟨checkTimeouts_of_open ho, rfl, fun _ => rfl⟩
  | tcp retainedFrom recvTsc event =>
    cases event with
    | accepted conn =>
      have e : t' = t.accept conn recvTsc := (Option.some.inj ht).symm
      rw [e, accept, setConnection] at ho ⊢
      dsimp only at ho ⊢
      by_cases hslot : slot = conn.slot
      · subst hslot
        rw [Function.update_self] at ho ⊢
        simp [acceptedTsc, heardTsc]
      · rw [Function.update_of_ne hslot] at ho ⊢
        have hne : conn ≠ (t.connections slot).conn := fun e => hslot (by rw [e, hs.slot_eq slot ho])
        exact .inl ⟨rfl, if_neg hne, fun _ => if_neg hne⟩
    | data conn bytes =>
      rcases onTcpEvent_data ht with ⟨rfl, hno⟩ | ⟨hconn, htakes, hdata⟩
      · refine .inl ⟨rfl, rfl, fun hc => if_neg fun e => ?_⟩
        have hslot : conn.slot = slot := by rw [e, hs.slot_eq slot ho]
        rw [hslot] at hno
        rcases hno with hno | hno
        · exact hno e.symm
        · exact hno (takesInput_iff.mpr ⟨ho, hc⟩)
      · have htimed := onData_timed hdata
        by_cases hslot : slot = conn.slot
        · subst hslot
          have hopened := h.opened conn.slot (takesInput_iff.mp htakes).1
          rw [htimed.conn, htimed.opened, htimed.heard, connections_touch, hconn]
          rw [hconn] at hopened
          exact .inr ⟨hopened, if_pos rfl⟩
        · have hsame : t'.connections slot = t.connections slot :=
            (htimed.others slot hslot).trans (Function.update_of_ne hslot ..)
          rw [hsame] at ho
          have hne : conn ≠ (t.connections slot).conn := fun e => hslot (by rw [e, hs.slot_eq slot ho])
          exact .inl ⟨hsame, rfl, fun _ => if_neg hne⟩
    | peerClosed conn | closed conn | reset conn =>
      cases ht
      exact .inl ⟨connEnded_of_open ho, rfl, fun _ => rfl⟩

theorem expired_iff (clock : Clock) (now : ℕ) (h : Clocked steps t) (hs : t.Sessions)
    (ho : (t.connections slot).isOpen) :
    expired clock now (t.connections slot) ↔ TimedOut clock steps now (t.connections slot) := by
  unfold expired TimedOut Passed
  by_cases hl : (t.connections slot).loggedIn
  · rw [if_pos hl, if_pos hl, h.heard slot ho (hs.loggedIn slot hl).2]
    simp
  · rw [if_neg hl, if_neg hl, h.opened slot ho]
    simp

/-- An act that ends a connection notes it, with the client that was logged in, and nobody is
logged in as that client any more. -/
theorem Act.ended (h : t.Sessions) (ha : Act t t') (ho : (t.connections slot).isOpen)
    (hclosed : ¬ (t'.connections slot).isOpen) :
    ∃ c, t'.notes = t.notes ++ [.disconnected c (t.connections slot).conn] ∧
      ((t.connections slot).loggedIn → c = (t.connections slot).clientId) ∧
      ∀ j, (t'.connections j).loggedIn → (t'.connections j).clientId ≠ c := by
  have hupdate : ∀ {i : ℕ} {x : InboundConnection}, t'.connections = Function.update t.connections i x →
      x.isOpen = (t.connections i).isOpen → False := fun {i x} hconns hx => by
    refine hclosed ?_
    by_cases e : slot = i
    · rw [hconns, e, Function.update_self, hx, ← e]
      exact ho
    · rw [hconns, Function.update_of_ne e]
      exact ho
  cases ha with
  | still e _ =>
    have hopen : (t'.connections slot).isOpen = (t.connections slot).isOpen :=
      congrArg (fun s => (s.connections slot).isOpen) e
    exact absurd (hopen.trans ho) hclosed
  | client hf => exact absurd ((congrFun (h.client hf).2.1 slot) ▸ ho) hclosed
  | ouch _ _ hh =>
    have hconns : t'.connections = t.connections := (handleOuch_connections hh).trans rfl
    exact absurd (hconns ▸ ho) hclosed
  | reject _ _ _ _ => exact (hupdate rfl rfl).elim
  | letIn _ _ _ _ _ _ => exact (hupdate rfl rfl).elim
  | @disconnect i hi =>
    by_cases e : slot = i
    · subst e
      refine ⟨_, disconnect_notes hi, fun hl => if_pos hl, fun j hj hclient => ?_⟩
      rw [disconnect_connections hi] at hj hclient
      by_cases hji : j = slot
      · rw [hji, Function.update_self] at hj
        exact Bool.false_ne_true hj
      · rw [Function.update_of_ne hji] at hj hclient
        split at hclient
        · next hl => exact hji (h.unique j slot hj hl hclient)
        · obtain ⟨u, hu⟩ := h.known j hj
          have hpos := (h.ids u _ hu).1
          omega
    · refine absurd ?_ hclosed
      rw [disconnect_connections hi, Function.update_of_ne e]
      exact ho

/-- A login that was noted of an open connection is the one it has. -/
theorem Sessions.loggedIn_of_noted (h : t.Sessions) (ho : (t.connections slot).isOpen) {c sequence : ℕ}
    (hm : .loginAccepted c (t.connections slot).conn sequence ∈ t.since slot) :
    (t.connections slot).loggedIn ∧ (t.connections slot).clientId = c := by
  have htold := h.told slot (h.slot_eq slot ho)
  rw [Told, ho] at htold
  cases hl : (t.connections slot).loggedIn <;> rw [hl] at htold
  · cases hc : (t.connections slot).closing <;> rw [hc] at htold
    · exact absurd (htold ▸ hm) List.not_mem_nil
    · obtain ⟨_, e⟩ := htold
      cases List.mem_singleton.mp (e ▸ hm)
  · obtain ⟨_, e⟩ := htold
    cases List.mem_singleton.mp (e ▸ hm)
    exact ⟨rfl, rfl⟩

/-- A connection that is over has been noted as over, with its client, also one that it was logged in
as meanwhile, and of those who were logged in before nobody is logged in as that client. -/
theorem Acts.ended (h : t.Sessions) (ha : Acts t t') (ho : (t.connections slot).isOpen)
    (hclosed : ¬ (t'.connections slot).isOpen) :
    ∃ c, .disconnected c (t.connections slot).conn ∈ t'.notes.drop t.notes.length ∧
      ((t.connections slot).loggedIn → c = (t.connections slot).clientId) ∧
      (∀ c' sequence, .loginAccepted c' (t.connections slot).conn sequence ∈ t'.notes.drop t.notes.length → c' = c) ∧
      ∀ j, (t.connections j).loggedIn → (t'.connections j).loggedIn → (t'.connections j).clientId ≠ c := by
  induction ha with
  | refl => exact absurd ho hclosed
  | @tail t₁ t' ha hact ih =>
    have hkeeps := Keeps.of_acts h ha
    have hkeeps₁ := Keeps.of_act (h.acts ha) hact
    obtain ⟨more, hmore, -⟩ := hkeeps.notes
    obtain ⟨more', hmore', habout⟩ := hkeeps₁.notes
    by_cases hopen : (t₁.connections slot).isOpen
    · -- this act ends it
      obtain ⟨c, hc, hclient, hfree⟩ := hact.ended (h.acts ha) hopen hclosed
      rw [hkeeps.conn] at hc
      refine ⟨c, ?_, fun hl => ?_, fun c' sequence hm => ?_, fun j _ => hfree j⟩
      · rw [hc, hmore, List.append_assoc, List.drop_left]
        exact List.mem_append_right _ (List.mem_singleton.mpr rfl)
      · obtain ⟨hl₁, hsame⟩ := hkeeps.stays slot hl hopen
        exact (hclient hl₁).trans hsame
      · have hm : .loginAccepted c' (t₁.connections slot).conn sequence ∈ t₁.since slot := by
          rw [hc, hmore, List.append_assoc, List.drop_left, List.mem_append] at hm
          rw [since, hkeeps.conn, hkeeps.acceptedAt, hmore, List.drop_append_of_le_length (h.accepted_le slot)]
          exact List.mem_filter.mpr ⟨List.mem_append_right _ (hm.resolve_right (by simp)), by simp [about]⟩
        obtain ⟨hl₁, hsame⟩ := (h.acts ha).loggedIn_of_noted hopen hm
        exact hsame.symm.trans (hclient hl₁).symm
    · obtain ⟨c, hc, hclient, hlogin, hfree⟩ := ih hopen
      refine ⟨c, ?_, hclient, fun c' sequence hm => ?_, fun j hj hj' => ?_⟩
      · rw [hmore, List.drop_left] at hc
        rw [hmore', hmore, List.append_assoc, List.drop_left]
        exact List.mem_append_left _ hc
      · rw [hmore', hmore, List.append_assoc, List.drop_left, List.mem_append] at hm
        refine hlogin c' sequence ?_
        rw [hmore, List.drop_left]
        have hnone := habout (t.connections slot).conn fun hx => hopen (h.slot_eq slot ho ▸ hx.2)
        exact hm.resolve_right fun hm => List.filter_eq_nil_iff.mp hnone _ hm (by simp [about])
      · have hopen' := ((h.acts (ha.tail hact)).loggedIn j hj').1
        obtain ⟨hj₁, -⟩ := hkeeps.stays j hj (hkeeps₁.isOpen j hopen')
        rw [(hkeeps₁.stays j hj₁ hopen').2]
        exact hfree j hj hj₁

/-- What data ends: its connection, if the stream it belongs to is none of short packets. -/
theorem data_ends {recvTsc : ℕ} {conn : ConnId} (hs : t.Steady)
    (ht : t.onTcpEvent retainedFrom recvTsc (.data conn bytes) = some t') (ho : (t.connections slot).isOpen) :
    (¬ (t'.connections slot).isOpen →
      Cause clock steps (t.connections slot) (.tcp retainedFrom recvTsc (.data conn bytes))) ∧
    (Cause clock steps (t.connections slot) (.tcp retainedFrom recvTsc (.data conn bytes)) →
      (t.connections slot).loggedIn → Short ((t.connections slot).partialBytes ++ bytes) →
      ¬ (t'.connections slot).isOpen) := by
  rcases onTcpEvent_data ht with ⟨rfl, hno⟩ | ⟨hconn, htakes, hdata⟩
  · refine ⟨fun hclosed => absurd ho hclosed, fun hcause _ _ => ?_⟩
    obtain ⟨rfl, hc, -⟩ := hcause
    rw [hs.sessions.slot_eq slot ho] at hno
    exact absurd (hno.resolve_left (not_not.mpr rfl)) (not_not.mpr (takesInput_iff.mpr ⟨ho, hc⟩))
  · by_cases hslot : slot = conn.slot
    · subst hslot
      have hbytes : ((t.touch conn.slot recvTsc).connections conn.slot).partialBytes =
          (t.connections conn.slot).partialBytes := by rw [connections_touch]
      have hin : ((t.touch conn.slot recvTsc).connections conn.slot).loggedIn =
          (t.connections conn.slot).loggedIn := by rw [connections_touch]
      have hends : Short ((t.connections conn.slot).partialBytes ++ bytes) → _ := fun hshort =>
        onData_ends (hs.acts (touch_acts t conn.slot recvTsc)) (by rwa [takesInput_touch]) (by rwa [hbytes]) hdata
      rw [hbytes, hin] at hends
      refine ⟨fun hclosed => ⟨hconn.symm, (takesInput_iff.mp htakes).2, ?_⟩, fun hcause hl hshort => ?_⟩
      · by_cases hshort : Short ((t.connections conn.slot).partialBytes ++ bytes)
        · exact .inr ((hends hshort).1 hclosed)
        · exact .inl hshort
      · exact (hends hshort).2 hl (hcause.2.2.resolve_left (not_not.mpr hshort))
    · have hsame : t'.connections slot = t.connections slot :=
        ((onData_timed hdata).others slot hslot).trans (Function.update_of_ne hslot ..)
      refine ⟨fun hclosed => absurd (hsame ▸ ho) hclosed, fun hcause _ _ => absurd ?_ hslot⟩
      rw [hcause.1, hs.sessions.slot_eq slot ho]

/-- What a step ends. -/
theorem step_ends {step : Step} (h : Clocked steps t) (hs : t.Steady) (ht : t.step clock step = some t')
    (ho : (t.connections slot).isOpen) :
    (¬ (t'.connections slot).isOpen → Cause clock steps (t.connections slot) step) ∧
    (Cause clock steps (t.connections slot) step → slot < Outbound.maxConnections →
      (∀ retainedFrom recvTsc conn bytes, step = .tcp retainedFrom recvTsc (.data conn bytes) →
        (t.connections slot).loggedIn ∧ Short ((t.connections slot).partialBytes ++ bytes)) →
      ¬ (t'.connections slot).isOpen) := by
  cases step with
  | scan now =>
    have e : t' = t.checkTimeouts clock now := (Option.some.inj ht).symm
    have hiff := expired_iff clock now h hs.sessions ho
    rw [e, checkTimeouts_connections]
    unfold scanned
    rw [ho, Bool.true_and]
    refine ⟨fun hclosed => ?_, fun hcause hslot _ => ?_⟩
    · split_ifs at hclosed with hslot hexp
      · exact hiff.mp hexp
      · exact absurd ho hclosed
      · exact absurd ho hclosed
    · rw [if_pos hslot, if_pos (hiff.mpr hcause)]
      exact Bool.false_ne_true
  | tcp retainedFrom recvTsc event =>
    have hended : ∀ conn, t' = t.connEnded conn →
        (¬ (t'.connections slot).isOpen ↔ conn = (t.connections slot).conn) := fun conn e => by
      rw [e, connEnded_connections]
      split_ifs with hc
      · exact ⟨fun _ => hc.2.2.symm, fun _ => Bool.false_ne_true⟩
      · refine ⟨fun hclosed => absurd ho hclosed, fun hconn => absurd ⟨ho, ?_, hconn.symm⟩ hc⟩
        rw [hconn, hs.sessions.slot_eq slot ho]
    cases event with
    | accepted conn =>
      have e : t' = t.accept conn recvTsc := (Option.some.inj ht).symm
      refine ⟨fun hclosed => absurd ?_ hclosed, fun hcause => hcause.elim⟩
      rw [e, accept, setConnection]
      dsimp only
      by_cases hslot : slot = conn.slot
      · rw [hslot, Function.update_self]
      · rw [Function.update_of_ne hslot]
        exact ho
    | data conn bytes =>
      obtain ⟨hdrop, hkeep⟩ := data_ends hs ht ho
      refine ⟨hdrop, fun hcause _ hside => ?_⟩
      obtain ⟨hl, hshort⟩ := hside retainedFrom recvTsc conn bytes rfl
      exact hkeep hcause hl hshort
    | peerClosed conn | closed conn | reset conn =>
      have hiff := hended conn (Option.some.inj ht).symm
      exact ⟨hiff.mp, fun hcause _ _ => hiff.mpr hcause⟩

/-- Who is logged in after a step in which a connection ended was so before it. -/
theorem step_others {step : Step} (hs' : t'.Sessions) (ht : t.step clock step = some t')
    (ho : (t.connections slot).isOpen) (hclosed : ¬ (t'.connections slot).isOpen) {j : ℕ}
    (hl : (t'.connections j).loggedIn) : t'.connections j = t.connections j := by
  have ho' := (hs'.loggedIn j hl).1
  cases step with
  | scan now =>
    obtain rfl : t.checkTimeouts clock now = t' := Option.some.inj ht
    exact checkTimeouts_of_open ho'
  | tcp retainedFrom recvTsc event =>
    cases event with
    | accepted conn =>
      have e : t' = t.accept conn recvTsc := (Option.some.inj ht).symm
      rw [e, accept, setConnection] at hl ⊢
      dsimp only at hl ⊢
      by_cases hj : j = conn.slot
      · rw [hj, Function.update_self] at hl
        exact absurd hl Bool.false_ne_true
      · rw [Function.update_of_ne hj]
    | data conn bytes =>
      rcases onTcpEvent_data ht with ⟨rfl, -⟩ | ⟨-, -, hdata⟩
      · rfl
      · have hsame : ∀ i, i ≠ conn.slot → t'.connections i = t.connections i := fun i hi =>
          ((onData_timed hdata).others i hi).trans (Function.update_of_ne hi ..)
        have hslot : slot = conn.slot := by
          by_contra hne
          exact hclosed (hsame slot hne ▸ ho)
        refine hsame j fun hj => hclosed ?_
        rw [hslot, ← hj]
        exact ho'
    | peerClosed conn | closed conn | reset conn =>
      cases ht
      exact connEnded_of_open ho'

/-- What a run from the start comes to. -/
theorem run_clocked (clock : Clock) (hreported : Reported (fun _ => none) steps) :
    ∃ t : InboundThread, run clock {} steps = some t ∧ t.Steady ∧ Follows (steps.foldl liveAfter fun _ => none) t ∧
      Clocked steps t := by
  induction steps using List.reverseRecOn with
  | nil => exact ⟨{}, rfl, .new, fun _ ho => absurd ho Bool.false_ne_true, .new⟩
  | append_singleton steps step ih =>
    obtain ⟨hbefore, hstep⟩ := reported_append hreported
    obtain ⟨t, ht, hs, hf, hc⟩ := ih hbefore
    obtain ⟨t', ht', hs', hf', -, -⟩ := step_ok clock hs hf hstep.1
    refine ⟨t', ?_, hs', ?_, hc.step hs.sessions ht'⟩
    · rw [run_append, ht, Option.bind_some, run, ht']
      rfl
    · rw [List.foldl_append]
      exact hf'

/-- Whatever TCP reports and whenever the connections are scanned, a connection is dropped only for a
cause: its end is reported, it has been silent or has not logged in for too long, its client logs
out, or its stream is none of short packets. It is noted then, with the client that was logged in,
also if that was only in the same segment, and the client's session is free. A connection that has a
cause is dropped; for data this is so if it is logged in and the packets are short. -/
theorem connections_dropped_for_cause (clock : Clock) (steps : List Step) (step : Step)
    (hreported : Reported (fun _ => none) (steps ++ [step])) :
    ∃ t t' : InboundThread, run clock {} steps = some t ∧ t.step clock step = some t' ∧
      ∀ slot < Outbound.maxConnections, (t.connections slot).isOpen →
        (¬ (t'.connections slot).isOpen → Cause clock steps (t.connections slot) step ∧
          ∃ c, .disconnected c (t.connections slot).conn ∈ t'.notes.drop t.notes.length ∧ t'.connected c = false ∧
            ((t.connections slot).loggedIn → c = (t.connections slot).clientId) ∧
            ∀ c' sequence, .loginAccepted c' (t.connections slot).conn sequence ∈ t'.notes.drop t.notes.length →
              c' = c) ∧
        (Cause clock steps (t.connections slot) step →
          (∀ retainedFrom recvTsc conn bytes, step = .tcp retainedFrom recvTsc (.data conn bytes) →
            (t.connections slot).loggedIn ∧ Short ((t.connections slot).partialBytes ++ bytes)) →
          ¬ (t'.connections slot).isOpen) := by
  obtain ⟨hbefore, hstep⟩ := reported_append hreported
  obtain ⟨t, ht, hs, hf, hc⟩ := run_clocked clock hbefore
  obtain ⟨t', ht', hs', -, -, -⟩ := step_ok clock hs hf hstep.1
  refine ⟨t, t', ht, ht', fun slot hslot ho => ?_⟩
  obtain ⟨hdrop, hkeep⟩ := step_ends hc hs ht' ho
  refine ⟨fun hclosed => ⟨hdrop hclosed, ?_⟩, fun hcause hside => hkeep hcause hslot hside⟩
  rcases step_cases clock hs step with ⟨retainedFrom, recvTsc, conn, rfl⟩ | ⟨-, t₁, ht₁, ha⟩
  · exact (hdrop hclosed).elim
  · cases ht'.symm.trans ht₁
    obtain ⟨c, hnoted, hclient, hlogin, hfree⟩ := ha.ended hs.sessions ho hclosed
    refine ⟨c, hnoted, Bool.eq_false_iff.mpr fun hconnected => ?_, hclient, hlogin⟩
    obtain ⟨j, hj, hjc⟩ := (hs'.sessions.connected c).mp hconnected
    exact hfree j (step_others hs'.sessions ht' ho hclosed hj ▸ hj) hj hjc

/-- A connection that never logs in is dropped by the first scan after thirty seconds. -/
theorem connections_dropped_for_cause_login : ∃ t t' : InboundThread,
    run ⟨id, id, UInt64.ofNat⟩ {} [.tcp (fun _ => 0) 7 (.accepted ⟨3, 1⟩)] = some t ∧
      t.step ⟨id, id, UInt64.ofNat⟩ (.scan 30000000008) = some t' ∧
      (t.connections 3).isOpen ∧ ¬ (t'.connections 3).isOpen := by
  obtain ⟨t, t', ht, ht', hends⟩ := connections_dropped_for_cause ⟨id, id, UInt64.ofNat⟩
    [.tcp (fun _ => 0) 7 (.accepted ⟨3, 1⟩)] (.scan 30000000008) (by simp [Reported, acceptOf])
  cases ht
  have hcause : TimedOut ⟨id, id, UInt64.ofNat⟩ [.tcp (fun _ => 0) 7 (.accepted ⟨3, 1⟩)] 30000000008
      ((({} : InboundThread).accept ⟨3, 1⟩ 7).connections 3) := ⟨7, rfl, by decide⟩
  exact ⟨_, t', rfl, ht', rfl, (hends 3 (by decide) rfl).2 hcause fun _ _ _ _ e => by cases e⟩

end Exchange.InboundThread
