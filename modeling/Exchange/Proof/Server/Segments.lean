import Exchange.Proof.Server.Sessions
import Exchange.Proof.Wire.Soup

/-!
# Packets from segments

However TCP cuts a stream into segments, `on_data_` passes on the packets that
`parse_soup_packet` finds in the whole of it, stops where it stops, and is left with the
same beginning of a packet. The stream is parsed one packet at a time (`handleStream_packet`);
one segment behind what `partial` has comes to the two together (`onData_eq`), and what
two parts of a stream come to, one after the other, is what the whole does
(`handleStream_append`).
-/

namespace Exchange

open Spec (cut packetsIn restOf UpTo Short handleAll handleStream Segment acceptOf Reported)

namespace InboundThread

variable {t t' : InboundThread} {slot : ℕ} {stream : List UInt8} {packet : SoupPacket} {n : ℕ}

/-! ## Cutting a stream -/

theorem cut_packet (hp : parseSoupPacket stream = .packet packet n) (fuel : ℕ) :
    cut (fuel + 1) stream = ((packet, n) :: (cut fuel (stream.drop n)).1, (cut fuel (stream.drop n)).2) := by
  rw [cut, hp]

theorem cut_of_not_packet (h : ∀ packet n, parseSoupPacket stream ≠ .packet packet n) (fuel : ℕ) :
    cut fuel stream = ([], stream) := by
  cases fuel with
  | zero => rfl
  | succ fuel =>
    unfold cut
    split
    · next packet n hp => exact absurd hp (h packet n)
    · rfl

/-- More fuel than bytes changes nothing. -/
theorem cut_of_le {fuel : ℕ} (h : stream.length ≤ fuel) : cut fuel stream = cut stream.length stream := by
  induction fuel using Nat.strong_induction_on generalizing stream with
  | _ fuel ih =>
    by_cases hp : ∃ packet n, parseSoupPacket stream = .packet packet n
    · obtain ⟨packet, n, hp⟩ := hp
      obtain ⟨h3, hn, -⟩ := parseSoupPacket_take hp
      obtain ⟨len, hlen⟩ : ∃ len, stream.length = len + 1 := ⟨stream.length - 1, by omega⟩
      obtain ⟨fuel, rfl⟩ : ∃ f, fuel = f + 1 := ⟨fuel - 1, by omega⟩
      have hdrop : (stream.drop n).length ≤ len := by
        rw [List.length_drop]
        omega
      rw [hlen, cut_packet hp, cut_packet hp, ih fuel (by omega) (by omega), ih len (by omega) hdrop]
    · rw [cut_of_not_packet fun packet n he => hp ⟨packet, n, he⟩,
        cut_of_not_packet fun packet n he => hp ⟨packet, n, he⟩]

theorem cut_length_packet (hp : parseSoupPacket stream = .packet packet n) :
    cut stream.length stream = ((packet, n) :: (cut (stream.drop n).length (stream.drop n)).1, restOf (stream.drop n)) := by
  obtain ⟨h3, hn, -⟩ := parseSoupPacket_take hp
  obtain ⟨len, hlen⟩ : ∃ len, stream.length = len + 1 := ⟨stream.length - 1, by omega⟩
  rw [hlen, cut_packet hp, cut_of_le (by rw [List.length_drop]; omega)]
  rfl

theorem restOf_packet (hp : parseSoupPacket stream = .packet packet n) : restOf stream = restOf (stream.drop n) := by
  rw [restOf, cut_length_packet hp]

theorem upTo_drop {max : ℕ} (h : UpTo max stream) (hp : parseSoupPacket stream = .packet packet n) :
    UpTo max (stream.drop n) := by
  rw [UpTo, cut_length_packet hp, restOf_packet hp] at h
  exact ⟨fun p hm => h.1 p (List.mem_cons_of_mem _ hm), h.2⟩

theorem packetLen_le_of_upTo {max : ℕ} (h : UpTo max stream) (h2 : 2 ≤ stream.length) : packetLen stream ≤ max := by
  by_cases hp : ∃ packet n, parseSoupPacket stream = .packet packet n
  · obtain ⟨packet, n, hp⟩ := hp
    obtain ⟨length, -, -, hl, -, -, rfl⟩ := parseSoupPacket_eq_packet.mp hp
    rw [UpTo, cut_length_packet hp] at h
    have hmax := h.1 _ List.mem_cons_self
    rwa [packetLen, hl]
  · have hrest : restOf stream = stream := by
      rw [restOf, cut_of_not_packet fun packet n he => hp ⟨packet, n, he⟩]
    rw [UpTo, hrest] at h
    exact h.2 h2

/-- The beginning of a stream of packets that are not too long. -/
theorem upTo_of_append {max : ℕ} {rest : List UInt8} (h : UpTo max (stream ++ rest)) : UpTo max stream := by
  induction hlen : stream.length using Nat.strong_induction_on generalizing stream with
  | _ len ih =>
    by_cases hp : ∃ packet n, parseSoupPacket stream = .packet packet n
    · obtain ⟨packet, n, hp⟩ := hp
      obtain ⟨h3, hn, -⟩ := parseSoupPacket_take hp
      have hp' := parseSoupPacket_append hp rest
      have hmax := packetLen_le_of_upTo h (by rw [List.length_append]; omega)
      have hdrop := upTo_drop h hp'
      rw [List.drop_append_of_le_length hn] at hdrop
      have hs := ih _ (by rw [List.length_drop]; omega) hdrop rfl
      obtain ⟨length, -, -, hl, -, -, hlength⟩ := parseSoupPacket_eq_packet.mp hp'
      rw [UpTo, cut_length_packet hp, restOf_packet hp]
      refine ⟨fun p hm => ?_, hs.2⟩
      rcases List.mem_cons.mp hm with rfl | hm
      · rw [packetLen, hl, hlength] at hmax
        exact hmax
      · exact hs.1 p hm
    · have hnone := cut_of_not_packet (fun packet n he => hp ⟨packet, n, he⟩) stream.length
      rw [UpTo, restOf, hnone]
      refine ⟨fun p hm => absurd hm List.not_mem_nil, fun h2 => ?_⟩
      have h2 : 2 ≤ stream.length := h2
      have hmax := packetLen_le_of_upTo h (by rw [List.length_append]; omega)
      rwa [packetLen_append h2] at hmax

/-! ## One packet at a time -/

variable {retained : ℕ → ℕ → ℕ}

theorem handleStream_packet (hp : parseSoupPacket stream = .packet packet n) :
    handleStream slot retained t stream =
      (t.handleSoupPacket (retained 0) slot packet).bind fun t' =>
        if t'.takesInput slot then handleStream slot (fun i => retained (i + 1)) t' (stream.drop n) else some t' := by
  rw [handleStream, packetsIn, cut_length_packet hp, restOf_packet hp]
  rfl

theorem handleStream_malformed (hp : parseSoupPacket stream = .malformed) :
    handleStream slot retained t stream = some (t.disconnect slot) := by
  have hnone := cut_of_not_packet (fun packet n he => by rw [hp] at he; cases he) stream.length
  rw [handleStream, packetsIn, restOf, hnone]
  exact if_pos hp

theorem handleStream_incomplete (hp : parseSoupPacket stream = .incomplete) :
    handleStream slot retained t stream = some (t.setPartial slot stream) := by
  have hnone := cut_of_not_packet (fun packet n he => by rw [hp] at he; cases he) stream.length
  rw [handleStream, packetsIn, restOf, hnone]
  exact if_neg (by rw [hp]; nofun)

/-! ## One segment -/

theorem disconnect_partialBytes (t : InboundThread) (slot : ℕ) (h : (t.connections slot).partialBytes = []) :
    ((t.disconnect slot).connections slot).partialBytes = [] := by
  by_cases ho : (t.connections slot).isOpen
  · rw [disconnect_connections ho, Function.update_self]
  · rw [disconnect_of_closed ho, h]

/-- No packet is begun by handling one. -/
theorem handleSoupPacket_partialBytes {retainedFrom : ℕ → ℕ} (h : t.Sessions)
    (hp : (t.connections slot).partialBytes = []) (ht' : t.handleSoupPacket retainedFrom slot packet = some t') :
    (t'.connections slot).partialBytes = [] := by
  cases handleSoupPacket_handles ht' with
  | ignored => exact hp
  | login _ _ hlog =>
    obtain ⟨_, _, _, e⟩ := hlog.connections
    rw [e, Function.update_self]
    exact hp
  | ouch _ _ ho =>
    rw [(Translates.of_eq ho h.entry).connections]
    exact hp
  | logout => exact disconnect_partialBytes _ slot hp

/-- The packets of a segment, when nothing is held of one. -/
theorem takePackets_eq (retainedFrom : ℕ → ℕ) {fuel : ℕ} (h : t.Sessions) (ht : t.takesInput slot)
    (hp : (t.connections slot).partialBytes = []) (hs : Short stream) (hfuel : stream.length ≤ fuel) :
    takePackets retainedFrom slot fuel t stream = handleStream slot (fun _ => retainedFrom) t stream := by
  induction fuel generalizing t stream with
  | zero =>
    obtain rfl := List.length_eq_zero_iff.mp (Nat.le_zero.mp hfuel)
    rw [handleStream_incomplete (by rfl), setPartial_self hp]
    rfl
  | succ fuel ih =>
    unfold takePackets
    split
    · next e => rw [e, handleStream_incomplete (by rfl), setPartial_self hp]
    · cases hparse : parseSoupPacket stream with
      | packet packet n =>
        obtain ⟨h3, hn, -⟩ := parseSoupPacket_take hparse
        obtain ⟨t₁, ht₁, ha⟩ := handleSoupPacket_acts retainedFrom h ht packet
        show (t.handleSoupPacket retainedFrom slot packet).bind _ = _
        rw [handleStream_packet hparse, ht₁, Option.bind_some, Option.bind_some]
        split
        · next ht' =>
          exact ih (h.acts ha) ht' (handleSoupPacket_partialBytes h hp ht₁) (upTo_drop hs hparse)
            (by rw [List.length_drop]; omega)
        · rfl
      | malformed => exact (handleStream_malformed hparse).symm
      | incomplete =>
        have hshort : ¬ (2 ≤ stream.length ∧ tooLong stream) := by
          rintro ⟨h2, hlong⟩
          rw [tooLong, decide_eq_true_eq] at hlong
          exact absurd (packetLen_le_of_upTo hs h2) (Nat.not_le.mpr hlong)
        have hfit : ([] : List UInt8).length + stream.length ≤ maxInboundSoupPacket := by
          have hle : 2 ≤ stream.length → packetLen stream ≤ maxInboundSoupPacket := packetLen_le_of_upTo hs
          rw [List.length_nil, Nat.zero_add]
          rcases parseSoupPacket_eq_incomplete.mp hparse with hlt | ⟨-, hlt⟩
          · exact Nat.le_trans (Nat.le_of_lt hlt) (by decide)
          · by_cases h2 : 2 ≤ stream.length
            · exact Nat.le_trans (Nat.le_of_lt hlt) (hle h2)
            · exact Nat.le_trans (by omega : stream.length ≤ 2) (by decide)
        dsimp only
        rw [if_neg hshort, hold_eq hfit, handleStream_incomplete hparse]
        rfl

/-- The packet whose beginning is held is finished. -/
theorem finishPacket_stream (retainedFrom : ℕ → ℕ) (h : t.Sessions) (ht : t.takesInput slot) (held : List UInt8)
    (h2 : 2 ≤ held.length) (hle : held.length ≤ packetLen held) {bytes : List UInt8} (hs : Short (held ++ bytes)) :
    (t.setPartial slot held).finishPacket retainedFrom slot bytes =
      handleStream slot (fun _ => retainedFrom) (t.setPartial slot []) (held ++ bytes) := by
  have hlen := packetLen_append h2
  have hmax : packetLen held ≤ maxInboundSoupPacket := by
    rw [← hlen bytes]
    exact packetLen_le_of_upTo hs (by rw [List.length_append]; omega)
  have hempty := h.acts (setPartial_acts t slot pending_nil)
  have htakes : (t.setPartial slot []).takesInput slot := by rwa [takesInput_setPartial]
  rw [finishPacket_eq retainedFrom (partialBytes_setPartial t slot held) hle hmax]
  simp only [setPartial_setPartial]
  split
  · next hlt =>
    -- the packet goes on in the next segment
    have hinc : parseSoupPacket (held ++ bytes) = .incomplete := by
      refine parseSoupPacket_eq_incomplete.mpr (.inr ?_)
      have e := hlen bytes
      rw [packetLen] at e
      rw [List.length_append]
      omega
    rw [handleStream_incomplete hinc, setPartial_setPartial]
  · next hge =>
    have hsplit : held ++ bytes = (held ++ bytes.take (packetLen held - held.length)) ++
        bytes.drop (packetLen held - held.length) := by
      rw [List.append_assoc, List.take_append_drop]
    have hlength : (held ++ bytes.take (packetLen held - held.length)).length = packetLen held := by
      rw [List.length_append, List.length_take]
      omega
    have htake := hlen (bytes.take (packetLen held - held.length))
    cases hparse : parseSoupPacket (held ++ bytes.take (packetLen held - held.length)) with
    | packet packet n =>
      have hwhole := parseSoupPacket_append hparse (bytes.drop (packetLen held - held.length))
      rw [← hsplit] at hwhole
      obtain ⟨length, -, -, hl, -, -, hn⟩ := parseSoupPacket_eq_packet.mp hparse
      have hn' : n = packetLen held := by rw [← htake, packetLen, hl, hn]
      have hdrop : (held ++ bytes).drop n = bytes.drop (packetLen held - held.length) := by
        rw [hsplit]
        exact List.drop_left' (hlength.trans hn'.symm)
      obtain ⟨t₁, ht₁, ha⟩ := handleSoupPacket_acts retainedFrom hempty htakes packet
      show ((t.setPartial slot []).handleSoupPacket retainedFrom slot packet).bind _ = _
      rw [handleStream_packet hwhole, ht₁, hdrop, Option.bind_some, Option.bind_some]
      split
      · next ht' =>
        refine takePackets_eq retainedFrom (hempty.acts ha) ht' ?_ ?_ (Nat.le_refl _)
        · exact handleSoupPacket_partialBytes hempty (partialBytes_setPartial t slot []) ht₁
        · rw [← hdrop]
          exact upTo_drop hs hwhole
      · rfl
    | malformed =>
      have hwhole := parseSoupPacket_malformed_append hparse (bytes.drop (packetLen held - held.length))
      rw [← hsplit] at hwhole
      exact (handleStream_malformed hwhole).symm
    | incomplete =>
      rcases parseSoupPacket_eq_incomplete.mp hparse with hlt | ⟨-, hlt⟩
      · rw [List.length_append] at hlt
        omega
      · have hlt : _ < packetLen (held ++ bytes.take (packetLen held - held.length)) := hlt
        rw [hlength, htake] at hlt
        exact absurd hlt (Nat.lt_irrefl _)

/-- A segment comes to what `partial` has and the segment together do. -/
theorem onData_eq (retainedFrom : ℕ → ℕ) (h : t.Steady) (ht : t.takesInput slot) {bytes : List UInt8}
    (hs : Short ((t.connections slot).partialBytes ++ bytes)) :
    t.onData retainedFrom slot bytes =
      handleStream slot (fun _ => retainedFrom) (t.setPartial slot []) ((t.connections slot).partialBytes ++ bytes) := by
  have hpending := h.buffered slot
  match hheld : (t.connections slot).partialBytes, hpending with
  | [], _ =>
    rw [hheld] at hs
    rw [onData_eq_of_nil retainedFrom hheld, setPartial_self hheld]
    exact takePackets_eq retainedFrom h.sessions ht hheld hs (Nat.le_refl _)
  | [first], _ =>
    rw [hheld] at hs
    rw [onData_eq_of_one retainedFrom hheld]
    cases bytes with
    | nil =>
      dsimp only
      rw [handleStream_incomplete (by rfl), setPartial_setPartial]
      exact congrArg some (setPartial_self hheld).symm
    | cons second bytes =>
      have hshort : ¬ tooLong [first, second] = true := by
        have hle : packetLen ([first] ++ second :: bytes) ≤ _ := packetLen_le_of_upTo hs (Nat.le_add_left 2 _)
        rw [tooLong, decide_eq_true_eq, Nat.not_lt]
        exact hle
      dsimp only
      rw [if_neg hshort]
      exact finishPacket_stream retainedFrom h.sessions ht [first, second] (Nat.le_refl 2) (Nat.le_add_right 2 _) hs
  | first :: second :: held, hpending =>
    rw [hheld] at hs
    obtain ⟨hlt, -⟩ := hpending.resolve_left (by simp)
    rw [onData_eq_of_two retainedFrom hheld]
    have hfinish := finishPacket_stream retainedFrom h.sessions ht (first :: second :: held) (Nat.le_add_left 2 _)
      (Nat.le_of_lt hlt) hs
    rwa [setPartial_self hheld] at hfinish

/-! ## One segment after the other -/

theorem takesInput_disconnect (t : InboundThread) (slot : ℕ) : ¬ (t.disconnect slot).takesInput slot := fun h =>
  disconnect_not_open t slot (takesInput_iff.mp h).1

/-- `retained_from_` for one packet, and for those after it. -/
def consRetained (first : ℕ → ℕ) (rest : ℕ → ℕ → ℕ) : ℕ → ℕ → ℕ
  | 0 => first
  | i + 1 => rest i

/-- What a stream comes to, in two parts: what is left of the first goes before the second. -/
theorem handleStream_append (h : t.Sessions) (ht : t.takesInput slot) (hp : (t.connections slot).partialBytes = [])
    {first : List UInt8} {retained : ℕ → ℕ → ℕ} {t₁ : InboundThread}
    (h₁ : handleStream slot retained t first = some t₁) (retained' : ℕ → ℕ → ℕ) (second : List UInt8) :
    ∃ both : ℕ → ℕ → ℕ, (∀ i, (∃ j, both i = retained j) ∨ ∃ j, both i = retained' j) ∧
      handleStream slot both t (first ++ second) =
        if t₁.takesInput slot then
          handleStream slot retained' (t₁.setPartial slot []) ((t₁.connections slot).partialBytes ++ second)
        else some t₁ := by
  induction hlen : first.length using Nat.strong_induction_on generalizing first t retained with
  | _ len ih =>
    cases hparse : parseSoupPacket first with
    | packet packet n =>
      obtain ⟨h3, hn, -⟩ := parseSoupPacket_take hparse
      obtain ⟨t', ht', ha⟩ := handleSoupPacket_acts (retained 0) h ht packet
      rw [handleStream_packet hparse, ht', Option.bind_some] at h₁
      have hboth : ∀ both, handleStream slot (consRetained (retained 0) both) t (first ++ second) =
          if t'.takesInput slot then handleStream slot both t' (first.drop n ++ second) else some t' := fun both => by
        rw [handleStream_packet (parseSoupPacket_append hparse second), List.drop_append_of_le_length hn]
        show (t.handleSoupPacket (retained 0) slot packet).bind _ = _
        rw [ht', Option.bind_some]
        rfl
      split at h₁
      · next htakes =>
        obtain ⟨both, hfrom, e⟩ := ih _ (by rw [List.length_drop]; omega) (h.acts ha) htakes
          (handleSoupPacket_partialBytes h hp ht') h₁ rfl
        refine ⟨_, fun i => ?_, (hboth both).trans ((if_pos htakes).trans e)⟩
        cases i with
        | zero => exact .inl ⟨0, rfl⟩
        | succ i => exact (hfrom i).imp_left fun ⟨j, hj⟩ => ⟨j + 1, hj⟩
      · next htakes =>
        cases h₁
        refine ⟨_, fun i => ?_, (hboth fun i => retained (i + 1)).trans ?_⟩
        · cases i with
          | zero => exact .inl ⟨0, rfl⟩
          | succ i => exact .inl ⟨i + 1, rfl⟩
        · rw [if_neg htakes, if_neg htakes]
    | malformed =>
      rw [handleStream_malformed hparse] at h₁
      cases h₁
      refine ⟨retained, fun i => .inl ⟨i, rfl⟩, ?_⟩
      rw [handleStream_malformed (parseSoupPacket_malformed_append hparse second),
        if_neg (takesInput_disconnect t slot)]
    | incomplete =>
      rw [handleStream_incomplete hparse] at h₁
      cases h₁
      refine ⟨retained', fun i => .inr ⟨i, rfl⟩, ?_⟩
      rw [if_pos (by rwa [takesInput_setPartial]), setPartial_setPartial, setPartial_self hp, partialBytes_setPartial]

/-! ## When segments arrive -/

theorem touch_setConnection (t : InboundThread) (slot recvTsc : ℕ) (x : InboundConnection) :
    (t.setConnection slot x).touch slot recvTsc = t.setConnection slot { x with lastRecvTsc := recvTsc } := by
  rw [touch, connections_setConnection, setConnection_setConnection]

theorem connections_touch (t : InboundThread) (slot recvTsc : ℕ) :
    (t.touch slot recvTsc).connections slot = { t.connections slot with lastRecvTsc := recvTsc } :=
  connections_setConnection ..

theorem touch_touch (t : InboundThread) (slot recvTsc recvTsc' : ℕ) :
    (t.touch slot recvTsc).touch slot recvTsc' = t.touch slot recvTsc' := touch_setConnection ..

theorem takesInput_touch (t : InboundThread) (slot recvTsc : ℕ) :
    (t.touch slot recvTsc).takesInput slot = t.takesInput slot := by
  rw [takesInput, connections_touch]
  rfl

theorem setPartial_touch (t : InboundThread) (slot recvTsc : ℕ) (bytes : List UInt8) :
    (t.touch slot recvTsc).setPartial slot bytes = (t.setPartial slot bytes).touch slot recvTsc := by
  rw [setPartial, connections_touch, touch, setConnection_setConnection, setPartial, touch_setConnection]

theorem rejectLogin_touch (t : InboundThread) (slot recvTsc : ℕ) (reason : SoupReject) :
    (t.touch slot recvTsc).rejectLogin slot reason = (t.rejectLogin slot reason).touch slot recvTsc := by
  unfold rejectLogin
  rw [connections_touch]
  show ((t.setConnection slot _).setConnection slot _).pushNote _ = ((t.setConnection slot _).touch slot recvTsc).pushNote _
  rw [setConnection_setConnection, touch_setConnection]

theorem disconnect_touch (t : InboundThread) (slot recvTsc : ℕ) (ho : (t.connections slot).isOpen) :
    (t.touch slot recvTsc).disconnect slot = (t.disconnect slot).touch slot recvTsc := by
  rw [disconnect_eq ho, disconnect_eq (by rw [connections_touch]; exact ho), connections_touch, touch_setConnection]
  unfold touch setConnection pushNote
  split <;> dsimp only <;> rw [Function.update_idem]

theorem loginTo_touch (retainedFrom : ℕ → ℕ) (t : InboundThread) (slot recvTsc c sequence : ℕ) :
    (t.touch slot recvTsc).loginTo retainedFrom slot c sequence =
      (t.loginTo retainedFrom slot c sequence).touch slot recvTsc := by
  unfold loginTo
  show (if t.connected c then _ else _) = _
  split
  · exact rejectLogin_touch t slot recvTsc _
  · split
    · exact rejectLogin_touch t slot recvTsc _
    · unfold letIn touch setConnection pushNote
      simp only [Function.update_self, Function.update_idem]

theorem findClient_touch (t : InboundThread) (slot recvTsc : ℕ) (u : UInt64) :
    (t.touch slot recvTsc).findClient u = (t.findClient u).map fun found => (found.1, found.2.touch slot recvTsc) := by
  unfold findClient
  rw [show (t.touch slot recvTsc).usernames = t.usernames from rfl]
  cases t.usernames.lookup u with
  | some c => rfl
  | none =>
    dsimp only
    rw [show (t.touch slot recvTsc).nextClientId = t.nextClientId from rfl]
    split <;> rfl

theorem login_touch (retainedFrom : ℕ → ℕ) (t : InboundThread) (slot recvTsc : ℕ) (payload : List UInt8) :
    (t.touch slot recvTsc).login retainedFrom slot payload = (t.login retainedFrom slot payload).touch slot recvTsc := by
  unfold login
  split
  · exact rejectLogin_touch t slot recvTsc _
  · next login _ =>
    dsimp only
    split
    · exact rejectLogin_touch t slot recvTsc _
    · split
      · exact rejectLogin_touch t slot recvTsc _
      · rw [findClient_touch]
        cases t.findClient (pack (normalize login.username)) with
        | none => exact rejectLogin_touch t slot recvTsc _
        | some found => exact loginTo_touch retainedFrom found.2 slot recvTsc found.1 _

theorem handleOuch_touch (t : InboundThread) (slot recvTsc c : ℕ) (msg : OuchInboundFrame) :
    (t.touch slot recvTsc).handleOuch c msg = (t.handleOuch c msg).map (·.touch slot recvTsc) := by
  unfold handleOuch
  split
  · rfl
  · show (t.entry.translate c msg).bind _ = ((t.entry.translate c msg).bind _).map _
    cases t.entry.translate c msg with
    | none => rfl
    | some result =>
      obtain ⟨entry, translation⟩ := result
      cases hn : translation.note <;> simp only [Option.bind_some, hn] <;> rfl

theorem handleSoupPacket_touch (retainedFrom : ℕ → ℕ) (ho : (t.connections slot).isOpen) (recvTsc : ℕ)
    (packet : SoupPacket) : (t.touch slot recvTsc).handleSoupPacket retainedFrom slot packet =
      (t.handleSoupPacket retainedFrom slot packet).map (·.touch slot recvTsc) := by
  have hrecord : (t.touch slot recvTsc).recordPacket slot packet = (t.recordPacket slot packet).touch slot recvTsc := by
    unfold recordPacket
    rw [connections_touch]
    rfl
  have hcall : ∀ t : InboundThread, (t.touch slot recvTsc).recordCall slot = (t.recordCall slot).touch slot recvTsc :=
    fun t => by
      unfold recordCall
      rw [connections_touch]
      rfl
  unfold handleSoupPacket
  rw [hrecord]
  dsimp only
  rw [connections_touch]
  split
  · split
    · rfl
    · exact congrArg some (login_touch retainedFrom _ slot recvTsc _)
  · split
    · rw [hcall]
      exact handleOuch_touch _ slot recvTsc _ _
    · rfl
  · exact congrArg some (disconnect_touch _ slot recvTsc ho)
  · rfl

theorem handleStream_touch (h : t.Sessions) (ht : t.takesInput slot) (retained : ℕ → ℕ → ℕ) (recvTsc : ℕ)
    (stream : List UInt8) : handleStream slot retained (t.touch slot recvTsc) stream =
      (handleStream slot retained t stream).map (·.touch slot recvTsc) := by
  have ho := (takesInput_iff.mp ht).1
  induction hlen : stream.length using Nat.strong_induction_on generalizing stream t retained with
  | _ len ih =>
    cases hparse : parseSoupPacket stream with
    | packet packet n =>
      obtain ⟨h3, hn, -⟩ := parseSoupPacket_take hparse
      obtain ⟨t', ht', ha⟩ := handleSoupPacket_acts (retained 0) h ht packet
      rw [handleStream_packet hparse, handleStream_packet hparse, handleSoupPacket_touch _ ho, ht', Option.map_some,
        Option.bind_some, Option.bind_some, takesInput_touch]
      split
      · next htakes =>
        exact ih _ (by rw [List.length_drop]; omega) (h.acts ha) htakes _ _ (takesInput_iff.mp htakes).1 rfl
      · rfl
    | malformed =>
      rw [handleStream_malformed hparse, handleStream_malformed hparse, disconnect_touch t slot recvTsc ho]
      rfl
    | incomplete =>
      rw [handleStream_incomplete hparse, handleStream_incomplete hparse, setPartial_touch]
      rfl

/-! ## What has been passed on -/

theorem LogsIn.history {payload : List UInt8} (h : LogsIn t slot payload t') : t'.history = t.history := by
  cases h <;> rfl

theorem disconnect_history (t : InboundThread) (slot : ℕ) : (t.disconnect slot).history = t.history := by
  unfold disconnect
  dsimp only
  split
  · rfl
  · split <;> rfl

theorem handleSoupPacket_history {retainedFrom : ℕ → ℕ} (h : t.Sessions)
    (ht' : t.handleSoupPacket retainedFrom slot packet = some t') :
    t'.history.packets = t.history.packets ++ [((t.connections slot).conn, packet)] := by
  cases handleSoupPacket_handles ht' with
  | ignored => rfl
  | login _ _ hlog =>
    rw [hlog.history]
    rfl
  | ouch _ _ ho =>
    rw [(Translates.of_eq ho h.entry).history]
    rfl
  | logout =>
    rw [disconnect_history]
    rfl

/-- The packets that were passed on are the first of the stream; all of them, if the
connection still takes input, and then the rest is held. -/
theorem handleStream_packets (h : t.Sessions) (ht : t.takesInput slot) {retained : ℕ → ℕ → ℕ} {t₁ : InboundThread}
    (h₁ : handleStream slot retained t stream = some t₁) :
    ∃ k ≤ (packetsIn stream).length, t₁.history.packets =
        t.history.packets ++ ((packetsIn stream).take k).map (fun packet => ((t.connections slot).conn, packet)) ∧
      (t₁.takesInput slot → k = (packetsIn stream).length ∧ (t₁.connections slot).partialBytes = restOf stream) := by
  induction hlen : stream.length using Nat.strong_induction_on generalizing stream t retained with
  | _ len ih =>
    by_cases hparse : ∃ packet n, parseSoupPacket stream = .packet packet n
    · obtain ⟨packet, n, hparse⟩ := hparse
      obtain ⟨h3, hn, -⟩ := parseSoupPacket_take hparse
      obtain ⟨t', ht', ha⟩ := handleSoupPacket_acts (retained 0) h ht packet
      have hpackets : packetsIn stream = packet :: packetsIn (stream.drop n) := by
        rw [packetsIn, cut_length_packet hparse]
        rfl
      have hconn := (Keeps.of_acts h ha).conn slot
      have hhistory := handleSoupPacket_history h ht'
      rw [handleStream_packet hparse, ht', Option.bind_some] at h₁
      rw [hpackets, restOf_packet hparse]
      split at h₁
      · next htakes =>
        obtain ⟨k, hk, hpassed, hall⟩ := ih _ (by rw [List.length_drop]; omega) (h.acts ha) htakes h₁ rfl
        refine ⟨k + 1, Nat.succ_le_succ hk, ?_, fun htakes₁ => ?_⟩
        · rw [hpassed, hhistory, hconn, List.take_succ_cons, List.map_cons, List.append_assoc]
          rfl
        · obtain ⟨rfl, hbytes⟩ := hall htakes₁
          exact ⟨rfl, hbytes⟩
      · next htakes =>
        cases h₁
        exact ⟨1, Nat.le_add_left 1 _, by rw [hhistory]; rfl, fun htakes₁ => absurd htakes₁ htakes⟩
    · have hnone := cut_of_not_packet (fun packet n he => hparse ⟨packet, n, he⟩) stream.length
      have hpackets : packetsIn stream = [] := by rw [packetsIn, hnone, List.map_nil]
      have hrest : restOf stream = stream := by rw [restOf, hnone]
      rw [hpackets]
      rw [handleStream, hpackets] at h₁
      refine ⟨0, Nat.le_refl 0, ?_⟩
      unfold handleAll at h₁
      split at h₁
      · cases h₁
        exact ⟨by rw [disconnect_history]; simp, fun htakes => absurd htakes (takesInput_disconnect t slot)⟩
      · cases h₁
        refine ⟨by simp [setConnection], fun _ => ⟨rfl, ?_⟩⟩
        rw [connections_setConnection]

/-- What is left of a stream and what comes after it are short packets if the whole is. -/
theorem short_restOf {first second : List UInt8} (h : Short (first ++ second)) : Short (restOf first ++ second) := by
  induction hlen : first.length using Nat.strong_induction_on generalizing first with
  | _ len ih =>
    by_cases hparse : ∃ packet n, parseSoupPacket first = .packet packet n
    · obtain ⟨packet, n, hparse⟩ := hparse
      obtain ⟨h3, hn, -⟩ := parseSoupPacket_take hparse
      have hdrop := upTo_drop h (parseSoupPacket_append hparse second)
      rw [List.drop_append_of_le_length hn] at hdrop
      rw [restOf_packet hparse]
      exact ih _ (by rw [List.length_drop]; omega) hdrop rfl
    · have hrest : restOf first = first := by
        rw [restOf, cut_of_not_packet fun packet n he => hparse ⟨packet, n, he⟩]
      rwa [hrest]

/-! ## All segments -/

/-- The bytes of the segments, one after the other. -/
def bytesOf (segments : List Segment) : List UInt8 := (segments.map (·.bytes)).flatten

/-- A connection that does not take input is not read from. -/
theorem run_ignored (clock : Clock) {conn : ConnId} (ht : ¬ t.takesInput conn.slot) (segments : List Segment) :
    run clock t (segments.map (·.step conn)) = some t := by
  induction segments with
  | nil => rfl
  | cons segment segments ih =>
    have hstep : t.step clock (segment.step conn) = some t := if_pos (.inr (by simpa using ht))
    rw [List.map_cons, run, hstep]
    exact ih

theorem incomplete_of_pending {held : List UInt8} (h : Pending held) : parseSoupPacket held = .incomplete := by
  refine parseSoupPacket_eq_incomplete.mpr ?_
  by_cases h2 : held.length < 2
  · exact .inl h2
  · obtain ⟨hlt, -⟩ := h.resolve_left h2
    rw [packetLen] at hlt
    exact .inr ⟨by omega, hlt⟩

theorem touch_self (t : InboundThread) (slot : ℕ) : t.touch slot (t.connections slot).lastRecvTsc = t :=
  congrArg (fun connections => { t with connections := connections }) (Function.update_eq_self slot t.connections)

/-- One segment, on a connection that takes input. -/
theorem step_segment (clock : Clock) {conn : ConnId} (h : t.Steady) (hconn : (t.connections conn.slot).conn = conn)
    (ht : t.takesInput conn.slot) (segment : Segment)
    (hs : Short ((t.connections conn.slot).partialBytes ++ segment.bytes)) :
    ∃ t₁, handleStream conn.slot (fun _ => segment.retainedFrom) (t.setPartial conn.slot [])
        ((t.connections conn.slot).partialBytes ++ segment.bytes) = some t₁ ∧
      t.step clock (segment.step conn) = some (t₁.touch conn.slot segment.recvTsc) ∧
      Acts t (t₁.touch conn.slot segment.recvTsc) := by
  have ha : Acts t (t.touch conn.slot segment.recvTsc) := touch_acts t conn.slot segment.recvTsc
  have htouch : (t.touch conn.slot segment.recvTsc).takesInput conn.slot := by rwa [takesInput_touch]
  have hbytes : ((t.touch conn.slot segment.recvTsc).connections conn.slot).partialBytes =
      (t.connections conn.slot).partialBytes := by rw [connections_touch]
  have hempty : t.Acts (t.setPartial conn.slot []) := setPartial_acts t conn.slot pending_nil
  obtain ⟨t', ht', ha'⟩ := onData_acts segment.retainedFrom (h.acts ha) htouch segment.bytes
  have hdata := onData_eq segment.retainedFrom (h.acts ha) htouch (hbytes ▸ hs)
  rw [hbytes, ht', setPartial_touch, handleStream_touch (h.sessions.acts hempty) (by rwa [takesInput_setPartial])] at hdata
  obtain ⟨t₁, ht₁, rfl⟩ := Option.map_eq_some_iff.mp hdata.symm
  have hstep : t.step clock (segment.step conn) =
      (t.touch conn.slot segment.recvTsc).onData segment.retainedFrom conn.slot segment.bytes :=
    if_neg (by simp [hconn, ht])
  exact ⟨t₁, ht₁, hstep.trans ht', ha.trans ha'⟩

/-- What the segments come to, when something of a packet may be held. -/
theorem run_segments (clock : Clock) {conn : ConnId} (h : t.Steady) (hconn : (t.connections conn.slot).conn = conn)
    (ht : t.takesInput conn.slot) (segments : List Segment)
    (hs : Short ((t.connections conn.slot).partialBytes ++ bytesOf segments)) (before : ℕ → ℕ) :
    ∃ retained t₁ recvTsc, (∀ i, retained i = before ∨ ∃ segment ∈ segments, retained i = segment.retainedFrom) ∧
      handleStream conn.slot retained (t.setPartial conn.slot [])
        ((t.connections conn.slot).partialBytes ++ bytesOf segments) = some t₁ ∧
      run clock t (segments.map (·.step conn)) = some (t₁.touch conn.slot recvTsc) := by
  induction segments generalizing t before with
  | nil =>
    refine ⟨fun _ => before, t, (t.connections conn.slot).lastRecvTsc, fun _ => .inl rfl, ?_, ?_⟩
    · rw [show bytesOf [] = [] from rfl, List.append_nil, handleStream_incomplete (incomplete_of_pending (h.buffered _)),
        setPartial_setPartial, setPartial_self rfl]
    · rw [touch_self]
      rfl
  | cons segment segments ih =>
    have hbytes : (t.connections conn.slot).partialBytes ++ bytesOf (segment :: segments) =
        ((t.connections conn.slot).partialBytes ++ segment.bytes) ++ bytesOf segments := by
      rw [List.append_assoc]
      rfl
    rw [hbytes] at hs ⊢
    obtain ⟨t₁, ht₁, hstep, ha⟩ := step_segment clock h hconn ht segment (upTo_of_append hs)
    have hempty : t.Acts (t.setPartial conn.slot []) := setPartial_acts t conn.slot pending_nil
    have hempty_takes : (t.setPartial conn.slot []).takesInput conn.slot := by rwa [takesInput_setPartial]
    have happend := handleStream_append (h.sessions.acts hempty) hempty_takes (partialBytes_setPartial t _ _) ht₁
    have hrun : run clock t ((segment :: segments).map (·.step conn)) =
        run clock (t₁.touch conn.slot segment.recvTsc) (segments.map (·.step conn)) := by
      rw [List.map_cons, run, hstep]
      rfl
    by_cases htakes : t₁.takesInput conn.slot
    · -- the connection goes on with what is left
      obtain ⟨k, -, -, hall⟩ := handleStream_packets (h.sessions.acts hempty) hempty_takes ht₁
      have hbytes := (hall htakes).2
      have hbytes' : ((t₁.touch conn.slot segment.recvTsc).connections conn.slot).partialBytes =
          (t₁.connections conn.slot).partialBytes := by rw [connections_touch]
      obtain ⟨retained, t₂, recvTsc, hfrom, hstream, hrest⟩ := ih (h.acts ha)
        (((Keeps.of_acts h.sessions ha).conn _).trans hconn) (by rwa [takesInput_touch])
        (by rw [hbytes', hbytes]; exact short_restOf hs) segment.retainedFrom
      have hs₁ : t₁.Sessions := (h.acts ha).sessions.congr (erase_touch t₁ _ _).symm
      have hempty₁ : t₁.Acts (t₁.setPartial conn.slot []) := setPartial_acts t₁ conn.slot pending_nil
      rw [hbytes', setPartial_touch,
        handleStream_touch (hs₁.acts hempty₁) (by rwa [takesInput_setPartial])] at hstream
      obtain ⟨t₂, ht₂, rfl⟩ := Option.map_eq_some_iff.mp hstream
      rw [touch_touch] at hrest
      obtain ⟨both, hboth, e⟩ := happend retained (bytesOf segments)
      refine ⟨both, t₂, recvTsc, fun i => .inr ?_, by rw [e, if_pos htakes, ht₂], hrun.trans hrest⟩
      rcases hboth i with ⟨_, hi⟩ | ⟨j, hi⟩
      · exact ⟨segment, List.mem_cons_self, hi⟩
      · rcases hfrom j with hj | ⟨s, hs, hj⟩
        · exact ⟨segment, List.mem_cons_self, hi.trans hj⟩
        · exact ⟨s, List.mem_cons_of_mem _ hs, hi.trans hj⟩
    · obtain ⟨both, hfrom, e⟩ := happend (fun _ => segment.retainedFrom) (bytesOf segments)
      refine ⟨both, t₁, segment.recvTsc, fun i => .inr ⟨segment, List.mem_cons_self, ?_⟩, ?_, ?_⟩
      · rcases hfrom i with ⟨_, hi⟩ | ⟨_, hi⟩ <;> exact hi
      · rw [e, if_neg htakes]
      · rw [hrun, run_ignored clock (by rwa [takesInput_touch])]

/-- However the bytes of a connection are cut into segments, they are handled as the whole
stream is: the same packets are passed on, the connection stops or ends after the same
packet, and what is held is the rest of the stream. No copy goes past the end of `partial`. -/
theorem segments_reassembled (clock : Clock) (before : List Step) (hreported : Reported (fun _ => none) before)
    (hrun : run clock {} before = some t) (conn : ConnId) (hconn : (t.connections conn.slot).conn = conn)
    (ht : t.takesInput conn.slot) (hbytes : (t.connections conn.slot).partialBytes = []) (segments : List Segment)
    (hs : Short (bytesOf segments)) :
    ∃ retained t₁ recvTsc k, (segments ≠ [] → ∀ i, ∃ segment ∈ segments, retained i = segment.retainedFrom) ∧
      handleStream conn.slot retained t (bytesOf segments) = some t₁ ∧
      run clock t (segments.map (·.step conn)) = some (t₁.touch conn.slot recvTsc) ∧
      k ≤ (packetsIn (bytesOf segments)).length ∧
      t₁.history.packets =
        t.history.packets ++ ((packetsIn (bytesOf segments)).take k).map (fun packet => (conn, packet)) ∧
      (t₁.takesInput conn.slot → k = (packetsIn (bytesOf segments)).length ∧
        (t₁.connections conn.slot).partialBytes = restOf (bytesOf segments)) := by
  have hnone : Follows (fun _ => none) {} := fun _ ho => nomatch ho
  obtain ⟨t', ht', hsteady, -⟩ := run_ok clock .new hnone hreported
  cases hrun.symm.trans ht'
  have hstart : t.setPartial conn.slot [] = t := setPartial_self hbytes
  obtain ⟨retained, t₁, recvTsc, hfrom, hstream, hsegments⟩ := run_segments clock hsteady hconn ht segments
    (by rwa [hbytes]) (segments.head?.elim (fun _ => 0) (·.retainedFrom))
  rw [hbytes, List.nil_append, hstart] at hstream
  obtain ⟨k, hk, hpassed, hall⟩ := handleStream_packets hsteady.sessions ht hstream
  rw [hconn] at hpassed
  refine ⟨retained, t₁, recvTsc, k, fun hne i => ?_, hstream, hsegments, hk, hpassed, hall⟩
  rcases hfrom i with hi | hi
  · obtain ⟨segment, rest, rfl⟩ := List.exists_cons_of_ne_nil hne
    exact ⟨segment, List.mem_cons_self, hi⟩
  · exact hi

/-- A heartbeat and the beginning of a packet, in four segments. -/
def sampleSegments : List Segment :=
  [⟨fun _ => 0, 1, [0]⟩, ⟨fun _ => 0, 2, []⟩, ⟨fun _ => 0, 3, [1, chr 'R', 0]⟩, ⟨fun _ => 0, 4, [9, chr 'U']⟩]

theorem segments_reassembled_sample :
    Short (bytesOf sampleSegments) ∧
    ∃ retained t₁ recvTsc, handleStream 3 retained (({} : InboundThread).accept ⟨3, 1⟩ 0) (bytesOf sampleSegments) = some t₁ ∧
      run ⟨id, id, UInt64.ofNat⟩ (({} : InboundThread).accept ⟨3, 1⟩ 0) (sampleSegments.map (·.step ⟨3, 1⟩)) =
        some (t₁.touch 3 recvTsc) := by
  have hshort : Short (bytesOf sampleSegments) := by
    refine ⟨?_, ?_⟩ <;> decide
  obtain ⟨retained, t₁, recvTsc, k, -, hstream, hrun, -⟩ := segments_reassembled ⟨id, id, UInt64.ofNat⟩
    [.tcp (fun _ => 0) 0 (.accepted ⟨3, 1⟩)] (t := ({} : InboundThread).accept ⟨3, 1⟩ 0)
    (by simp [Reported, acceptOf]) rfl ⟨3, 1⟩ rfl rfl rfl sampleSegments hshort
  exact ⟨hshort, retained, t₁, recvTsc, hstream, hrun⟩

end InboundThread

end Exchange
