import Exchange.Proof.Server.Gateway
import Exchange.Proof.Server.Identity

/-!
# Every Enter Order is answered once

A client's Enter Order with a new UserRefNum is answered by exactly one Order Accepted or
Order Rejected, the first message the client gets under that UserRefNum; one with a used
UserRefNum is not answered at all (`enter_answered_once`).

Both follow from two facts of one message. Whatever a client is told about is an order
whose UserRefNum it has used (`Outcome.used`); and an Order Accepted or Order Rejected is
about a UserRefNum that was new (`Outcome.fresh`).
-/

namespace Exchange

open Spec (answer report told toldUnder About AnswersEnter consumed noteRefNum userRefNum)

/-! ## Order entry -/

namespace OrderEntry

variable {s s' : OrderEntry} {c : ℕ} {msg : OuchInboundFrame} {t : Translation}

/-- An Enter Order with a new UserRefNum is rejected, or entered. -/
theorem translate_fresh {m : OuchEnterOrder} (hu : ¬ m.userRefNum ≤ s.lastUserRefNum c)
    (ht : s.translate c (.enterOrder m) = some (s', t)) :
    (∃ reason, t = { note := some (.rejected reason (enterRecord c m)) }) ∨
      ∃ check, t = {
        note := some (.orderEntered s.nextOrderId (enterRecord c m))
        request := some (enterRequest s.nextOrderId c m check) } := by
  cases hcheck : Validation.checkEnter m s.band with
  | error reason =>
    rw [translate_rejected hu hcheck] at ht
    exact .inl ⟨reason, (congrArg Prod.snd (Option.some.inj ht)).symm⟩
  | ok check =>
    rw [translate_entered hu hcheck] at ht
    exact .inr ⟨check, (congrArg Prod.snd (Option.some.inj ht)).symm⟩

/-- A message consumes its UserRefNum, or none. -/
theorem Becomes.last_cases (hb : Becomes s c msg s' t) :
    t.note = none ∧ s'.clients = s.clients ∨
    ∃ note, t.note = some note ∧ noteRefNum note = userRefNum msg ∧ ¬ userRefNum msg ≤ s.lastUserRefNum c ∧
      ∀ c', s'.lastUserRefNum c' = if c' = c then userRefNum msg else s.lastUserRefNum c' := by
  cases hb with
  | ignored => exact .inl ⟨rfl, rfl⟩
  | canceling => exact .inl ⟨rfl, rfl⟩
  | rejected _ hu => exact .inr ⟨_, rfl, rfl, hu, fun c' => lastUserRefNum_consume ..⟩
  | entered hu => exact .inr ⟨_, rfl, rfl, hu, fun c' => lastUserRefNum_consume ..⟩
  | replacing _ hu => exact .inr ⟨_, rfl, rfl, hu, fun c' => lastUserRefNum_consume ..⟩

end OrderEntry

/-! ## One message -/

/-- What the answer to an event is about. -/
theorem Names.about {P : ℕ → ℕ → UInt32 → Prop} {e : Event} {ouch : OuchOutboundFrame} {u : UInt32}
    (h : Names P e ouch) (ha : About u ouch) : ∃ id, P e.clientId id u := by
  cases ouch with
  | none => exact ha.elim
  | orderReplaced m =>
    rcases ha with rfl | rfl
    · exact ⟨_, h.2.1⟩
    · exact ⟨_, h.2.2⟩
  | _ m =>
    obtain rfl : _ = u := ha
    exact ⟨_, h.2⟩

/-- An event is answered by an Order Accepted or an Order Rejected if it accepts or rejects
the order. -/
theorem answersEnter_iff {recs : ℕ → Option OrderRecord} {e : Event} {ouch : OuchOutboundFrame}
    (h : Names (Recorded recs) e ouch) : AnswersEnter ouch ↔ e.type = .accepted ∨ e.type = .rejected := by
  cases ouch with
  | none => exact h.elim
  | _ m => simp [AnswersEnter, h.1]

theorem Names.order {P : ℕ → ℕ → UInt32 → Prop} {e : Event} {ouch : OuchOutboundFrame} {u : UInt32}
    (h : Names P e ouch) (hans : AnswersEnter ouch) (ha : About u ouch) : P e.clientId e.orderId u := by
  cases ouch with
  | orderAccepted m =>
    obtain rfl : _ = u := ha
    exact h.2
  | orderRejected m =>
    obtain rfl : _ = u := ha
    exact h.2
  | _ => exact hans.elim

theorem AnswersEnter.about {ouch : OuchOutboundFrame} (h : AnswersEnter ouch) : ∃ u, About u ouch := by
  cases ouch with
  | orderAccepted m => exact ⟨m.userRefNum, rfl⟩
  | orderRejected m => exact ⟨m.userRefNum, rfl⟩
  | _ => exact h.elim

theorem mem_told {hd : Handled} {r : OuchResponse} :
    r ∈ told hd ↔ hd.noteResponse = some r ∨ ∃ d ∈ hd.deliveries, d.response = some r := by
  rw [told, List.mem_append, Option.mem_toList, List.mem_filterMap]

variable {n : ℕ} {g g' : Gateway} {v v' : GatewayView} {m : Inbound} {hd : Handled} {r : OuchResponse} {u : UInt32}

/-- The response to a note is the Order Rejected of an Enter Order that was not let in. -/
theorem Outcome.rejected (ho : Outcome n g v m g' v' hd) (hr : hd.noteResponse = some r) :
    ∃ e reason, hd.msg = .enterOrder e ∧ ¬ e.userRefNum ≤ g.entry.lastUserRefNum hd.clientId ∧
      Spec.rejection m.noteTimestamp (.rejected reason (OrderEntry.enterRecord hd.clientId e)) = some r ∧
      g'.entry.lastUserRefNum hd.clientId = e.userRefNum := by
  rw [ho.noted] at hr
  obtain ⟨note, hnote, hrej⟩ := Option.bind_eq_some_iff.mp hr
  have hb := ho.becomes
  generalize hd.translation = t at hb hnote
  generalize hd.msg = msg at hb
  generalize g'.entry = entry at hb
  cases hb with
  | ignored => cases hnote
  | canceling => cases hnote
  | entered =>
    cases hnote
    cases hrej
  | replacing =>
    cases hnote
    cases hrej
  | @rejected e reason hu =>
    cases hnote
    exact ⟨e, reason, rfl, hu, hrej, (OrderEntry.lastUserRefNum_consume ..).trans (if_pos rfl)⟩

/-- What a client is told about has a UserRefNum that it has used. -/
theorem Outcome.used (ho : Outcome n g v m g' v' hd) (hok : g'.Ok n v') (hr : r ∈ told hd) (ha : About u r.ouch) :
    u ≤ g'.entry.lastUserRefNum r.clientId := by
  rcases mem_told.mp hr with hr | ⟨d, hd', hr⟩
  · obtain ⟨e, reason, -, -, hrej, hlast⟩ := ho.rejected hr
    cases hrej
    obtain rfl : e.userRefNum = u := ha
    exact UInt32.le_of_eq hlast.symm
  · obtain ⟨r', hr', ⟨hc, hnames⟩, -⟩ := ho.delivered d hd'
    cases hr'.symm.trans hr
    obtain ⟨id, record, hrec, hclient, rfl⟩ := hnames.about ha
    rw [hc, ← hclient]
    exact hok.entry.used _ _ ((hok.recs_iff id record).mp hrec)

/-- An event that accepts or rejects an order is of a NEW request, for that order. -/
theorem Outcome.begins (ho : Outcome n g v m g' v' hd) {d : Delivery} (hd' : d ∈ hd.deliveries)
    (ht : d.event.type = .accepted ∨ d.event.type = .rejected) :
    ∃ req, hd.translation.request = some req ∧ req.type = .new ∧ d.event.orderId = req.orderId := by
  have hmem : d.event ∈ (hd.step n v.resting).events := ho.events ▸ List.mem_map_of_mem hd'
  unfold Handled.step at hmem
  split at hmem
  · cases hmem
  · next req hreq =>
    refine ⟨req, hreq, ?_⟩
    have hbegins : ∀ e ∈ (Spec.process n v.resting req).events, e.type = .accepted ∨ e.type = .rejected →
        req.type = .new ∧ e.orderId = req.orderId :=
      Spec.forall_flagFirst (fun _ h => h) fun e he ht => by
        rcases Spec.begins_cases n he (by rcases ht with h | h <;> simp [h]) with ⟨hnew, hid, -⟩ | ⟨-, -, hrep, -⟩
        · exact ⟨hnew, hid⟩
        · rcases ht with h | h <;> cases h.symm.trans hrep
    exact hbegins _ hmem ht

theorem Outcome.record_entered (ho : Outcome n g v m g' v' hd) {id : ℕ} {record : OrderRecord}
    (hnote : hd.translation.note = some (.orderEntered id record)) : v'.recs id = some record := by
  rw [ho.recs, hnote]
  exact Function.update_self ..

/-- An Order Accepted or an Order Rejected is about a UserRefNum that was new. -/
theorem Outcome.fresh (ho : Outcome n g v m g' v' hd) (hr : r ∈ told hd) (hans : AnswersEnter r.ouch)
    (ha : About u r.ouch) : ¬ u ≤ g.entry.lastUserRefNum r.clientId := by
  rcases mem_told.mp hr with hr | ⟨d, hd', hr⟩
  · obtain ⟨e, reason, -, hu, hrej, -⟩ := ho.rejected hr
    cases hrej
    obtain rfl : e.userRefNum = u := ha
    exact hu
  · obtain ⟨r', hr', ⟨hc, hnames⟩, -⟩ := ho.delivered d hd'
    cases hr'.symm.trans hr
    obtain ⟨req, hreq, hnew, hid⟩ := ho.begins hd' ((answersEnter_iff hnames).mp hans)
    obtain ⟨record, hrec, hclient, rfl⟩ := hnames.order hans ha
    rw [hc, ← hclient]
    have hb := ho.becomes
    generalize ht : hd.translation = t at hb hreq
    generalize hd.msg = msg at hb
    generalize g'.entry = entry at hb
    cases hb with
    | ignored => cases hreq
    | rejected => cases hreq
    | canceling =>
      cases hreq
      cases hnew
    | replacing =>
      cases hreq
      cases hnew
    | entered hu =>
      cases hreq
      rw [hid] at hrec
      obtain rfl := Option.some.inj ((ho.record_entered (congrArg Translation.note ht)).symm.trans hrec)
      exact hu

/-- The answer to an Enter Order with a new UserRefNum comes first. -/
theorem Outcome.answered (ho : Outcome n g v m g' v' hd) (hok : g.Ok n v) {e : OuchEnterOrder}
    (hmsg : hd.msg = .enterOrder e) (hu : ¬ e.userRefNum ≤ g.entry.lastUserRefNum hd.clientId) :
    ∃ first rest, told hd = first :: rest ∧ first.clientId = hd.clientId ∧ About e.userRefNum first.ouch ∧
      AnswersEnter first.ouch ∧ (∀ r ∈ rest, ¬ AnswersEnter r.ouch) ∧
      e.userRefNum ≤ g'.entry.lastUserRefNum hd.clientId := by
  have htr := ho.translated
  rw [hmsg] at htr
  have hlast : e.userRefNum ≤ g'.entry.lastUserRefNum hd.clientId := by
    have hent : (g.entry.enter hd.clientId e).1 = g'.entry := congrArg Prod.fst (Option.some.inj htr)
    exact hent ▸ OrderEntry.enter_last g.entry hd.clientId e
  have hnoted := ho.noted
  have hevents := ho.events
  rcases OrderEntry.translate_fresh hu htr with ⟨reason, ht⟩ | ⟨check, ht⟩
  · -- rejected at the gateway: no request, no event
    have hnil : hd.deliveries = [] := by
      rw [Handled.step, ht] at hevents
      exact List.map_eq_nil_iff.mp hevents
    rw [ht] at hnoted
    obtain ⟨r, hr, hc, ha, hans⟩ : ∃ r, hd.noteResponse = some r ∧ r.clientId = hd.clientId ∧
      About e.userRefNum r.ouch ∧ AnswersEnter r.ouch := ⟨_, hnoted, rfl, rfl, trivial⟩
    refine ⟨r, [], ?_, hc, ha, hans, fun _ hr => absurd hr List.not_mem_nil, hlast⟩
    rw [told, hr, hnil]
    rfl
  · -- entered: the engine's first event accepts or rejects the order
    have hnone : hd.noteResponse = none := by
      rw [hnoted, ht]
      rfl
    have hnew : (OrderEntry.enterRequest g.entry.nextOrderId hd.clientId e check).type = .new := rfl
    obtain ⟨event, events, hproc, hid, ht₁, hrest⟩ := Spec.process_new n hnew hok.next_notMem
    have hrecs := ho.record_entered (congrArg Translation.note ht)
    rw [Handled.step, ht] at hevents
    obtain ⟨d, ds, hds, rfl, rfl⟩ := List.map_eq_cons_iff.mp (hevents.trans hproc)
    obtain ⟨r, hr, ⟨hc, hnames⟩, -⟩ := ho.delivered d (hds ▸ List.mem_cons_self)
    have hans := (answersEnter_iff hnames).mpr ht₁
    obtain ⟨u, ha⟩ := AnswersEnter.about hans
    obtain ⟨record, hrec, hclient, rfl⟩ := hnames.order hans ha
    rw [hid] at hrec
    obtain rfl := Option.some.inj (hrecs.symm.trans hrec)
    refine ⟨r, ds.filterMap (·.response), ?_, hc.trans hclient.symm, ha, hans, fun r' hr' hans' => ?_, hlast⟩
    · rw [told, hnone, hds, List.filterMap_cons_some hr]
      rfl
    · obtain ⟨d', hd', hr'⟩ := List.mem_filterMap.mp hr'
      obtain ⟨r'', hr'', ⟨-, hnames'⟩, -⟩ := ho.delivered d' (hds ▸ List.mem_cons_of_mem _ hd')
      cases hr''.symm.trans hr'
      rcases hrest _ (List.mem_map_of_mem hd') with h | h <;>
        rcases (answersEnter_iff hnames').mp hans' with h' | h' <;> cases h.symm.trans h'

/-- An Enter Order with a used UserRefNum comes to nothing. -/
theorem Outcome.ignored (ho : Outcome n g v m g' v' hd) {e : OuchEnterOrder} (hmsg : hd.msg = .enterOrder e)
    (hu : e.userRefNum ≤ g.entry.lastUserRefNum hd.clientId) : told hd = [] ∧ hd.translation.request = none := by
  have htr := ho.translated
  rw [hmsg, OrderEntry.translate_used (.inl ⟨e, rfl⟩) hu] at htr
  have ht : hd.translation = {} := (congrArg Prod.snd (Option.some.inj htr)).symm
  have hnoted := ho.noted
  have hevents := ho.events
  rw [ht] at hnoted
  rw [Handled.step, ht] at hevents
  rw [told, hnoted, List.map_eq_nil_iff.mp hevents, ht]
  exact ⟨rfl, rfl⟩

/-! ## Runs -/

namespace Gateway

variable {ms : List Inbound} {handled : List Handled} {c : ℕ}

theorem Trail.last_le (h : Trail n g v ms g' v' handled) (c : ℕ) :
    g.entry.lastUserRefNum c ≤ g'.entry.lastUserRefNum c := by
  induction h with
  | nil => exact UInt32.le_refl _
  | cons _ ho _ ih => exact UInt32.le_trans (ho.becomes.last_le c) ih

/-- A client has used the UserRefNums it has consumed, and those below. -/
theorem Trail.le_last_iff (h : Trail n g v ms g' v' handled) :
    u ≤ g'.entry.lastUserRefNum c ↔ ∃ u' ∈ g.entry.lastUserRefNum c :: consumed c handled, u ≤ u' := by
  induction h with
  | nil => simp [consumed]
  | @cons g g₁ g' v v₁ v' m ms hd handled _ ho _ ih =>
    rw [ih]
    rcases ho.becomes.last_cases with ⟨hnone, hclients⟩ | ⟨note, hnote, href, hu, hlast⟩
    · have hcons : consumed c (hd :: handled) = consumed c handled := by
        by_cases hc : hd.clientId = c <;> simp [consumed, hc, hnone]
      rw [hcons, OrderEntry.lastUserRefNum, hclients]
      rfl
    · by_cases hc : hd.clientId = c
      · -- the new last UserRefNum is above the old one
        have hcons : consumed c (hd :: handled) = userRefNum hd.msg :: consumed c handled := by
          simp [consumed, hc, hnote, href]
        have hlt := UInt32.not_le.mp hu
        rw [hc] at hlt
        rw [hcons, hlast, if_pos hc.symm]
        simp only [List.mem_cons, exists_eq_or_imp]
        exact ⟨.inr, fun h => h.elim (fun h => .inl (UInt32.le_trans h (UInt32.le_of_lt hlt))) id⟩
      · have hcons : consumed c (hd :: handled) = consumed c handled := by simp [consumed, hc]
        rw [hcons, hlast, if_neg (Ne.symm hc)]

theorem Trail.calls (h : Trail n g v ms g' v' handled) :
    (handled.map fun hd => (hd.clientId, hd.msg)) = ms.map fun m => (m.clientId, m.msg) := by
  induction h with
  | nil => rfl
  | cons _ ho _ ih => rw [List.map_cons, List.map_cons, ih, ho.call.1, ho.call.2]

theorem mem_toldUnder {f : OuchOutboundFrame} :
    f ∈ toldUnder c u handled ↔ ∃ hd ∈ handled, ∃ r ∈ told hd, r.clientId = c ∧ About u r.ouch ∧ r.ouch = f := by
  simp only [toldUnder, List.mem_map, List.mem_filter, List.mem_flatMap, decide_eq_true_eq]
  constructor
  · rintro ⟨r, ⟨⟨hd, hm, hr⟩, hc, ha⟩, rfl⟩
    exact ⟨hd, hm, r, hr, hc, ha, rfl⟩
  · rintro ⟨hd, hm, r, hr, hc, ha, rfl⟩
    exact ⟨r, ⟨⟨hd, hm, hr⟩, hc, ha⟩, rfl⟩

theorem toldUnder_append (c : ℕ) (u : UInt32) (hs hs' : List Handled) :
    toldUnder c u (hs ++ hs') = toldUnder c u hs ++ toldUnder c u hs' := by
  simp only [toldUnder, List.flatMap_append, List.filter_append, List.map_append]

/-- Nothing is told under a UserRefNum that was not used. -/
theorem Trail.toldUnder_eq_nil (h : Trail n g v ms g' v' handled) (hu : ¬ u ≤ g'.entry.lastUserRefNum c) :
    toldUnder c u handled = [] := by
  refine List.eq_nil_iff_forall_not_mem.mpr fun f hf => hu ?_
  obtain ⟨hd, hm, r, hr, rfl, ha, -⟩ := mem_toldUnder.mp hf
  obtain ⟨pre, post, rfl⟩ := List.append_of_mem hm
  obtain ⟨_, _, _, _, g₂, _, _, -, -, ho, hpost⟩ := h.split
  exact UInt32.le_trans (ho.used hpost.ok.1 hr ha) (hpost.last_le r.clientId)

/-- No Enter Order is answered under a UserRefNum that was used before. -/
theorem Trail.not_answersEnter (h : Trail n g v ms g' v' handled) (hu : u ≤ g.entry.lastUserRefNum c) :
    ∀ f ∈ toldUnder c u handled, ¬ AnswersEnter f := by
  intro f hf hans
  obtain ⟨hd, hm, r, hr, rfl, ha, rfl⟩ := mem_toldUnder.mp hf
  obtain ⟨pre, post, rfl⟩ := List.append_of_mem hm
  obtain ⟨_, _, _, _, _, _, _, -, hpre, ho, -⟩ := h.split
  exact ho.fresh hr hans ha (UInt32.le_trans hu (hpre.last_le r.clientId))

/-- An Enter Order with a new UserRefNum: its answer is the first message under it. -/
theorem Trail.answered {pre post : List Handled} {e : OuchEnterOrder} {g₁ g₂ : Gateway} {v₁ v₂ : GatewayView}
    {ms₁ ms₂ : List Inbound} (hpre : Trail n g v ms₁ g₁ v₁ pre) (ho : Outcome n g₁ v₁ m g₂ v₂ hd)
    (hpost : Trail n g₂ v₂ ms₂ g' v' post) (hmsg : hd.msg = .enterOrder e)
    (hu : ¬ e.userRefNum ≤ g₁.entry.lastUserRefNum hd.clientId) :
    ∃ first rest, toldUnder hd.clientId e.userRefNum (pre ++ hd :: post) = first :: rest ∧ AnswersEnter first ∧
      (∀ f ∈ rest, ¬ AnswersEnter f) ∧ ∃ r ∈ told hd, r.ouch = first := by
  obtain ⟨first, rest, htold, hc, ha, hans, hrest, hlast⟩ := ho.answered hpre.ok.2 hmsg hu
  have hself : toldUnder hd.clientId e.userRefNum [hd] =
      first.ouch :: (rest.filter fun r => r.clientId = hd.clientId ∧ About e.userRefNum r.ouch).map (·.ouch) := by
    rw [toldUnder, List.flatMap_singleton, htold, List.filter_cons_of_pos (by simp [hc, ha]), List.map_cons]
  have hall : toldUnder hd.clientId e.userRefNum (pre ++ hd :: post) = first.ouch ::
      ((rest.filter fun r => r.clientId = hd.clientId ∧ About e.userRefNum r.ouch).map (·.ouch) ++
        toldUnder hd.clientId e.userRefNum post) := by
    rw [toldUnder_append, hpre.toldUnder_eq_nil hu, List.nil_append, ← List.singleton_append, toldUnder_append, hself,
      List.cons_append]
  refine ⟨_, _, hall, hans, fun f hf => ?_, first, htold ▸ List.mem_cons_self, rfl⟩
  rcases List.mem_append.mp hf with hf | hf
  · obtain ⟨r, hr, rfl⟩ := List.mem_map.mp hf
    exact hrest r (List.mem_filter.mp hr).1
  · exact hpost.not_answersEnter hlast f hf

end Gateway

/-- Every Enter Order with a UserRefNum above all its client has consumed is answered once:
over the whole run the client gets exactly one Order Accepted or Order Rejected under that
UserRefNum, on account of that message, and it is the first message it gets under it. Any
other Enter Order comes to no message and no request. UserRefNums start at 1, so 0 counts
as consumed. -/
theorem enter_answered_once (capacity soupReplayBytes : ℕ) (env : Env) (clock : ℕ → UInt64) (ms : List Inbound) :
    ∃ g handled, (∀ a, Gateway.run a clock (Gateway.new capacity soupReplayBytes env) ms = some (g, handled)) ∧
      (handled.map fun h => (h.clientId, h.msg)) = (ms.map fun m => (m.clientId, m.msg)) ∧
      ∀ pre h post e, handled = pre ++ h :: post → h.msg = .enterOrder e →
        ((∀ u ∈ 0 :: consumed h.clientId pre, u < e.userRefNum) →
          ∃ first rest, toldUnder h.clientId e.userRefNum handled = first :: rest ∧ AnswersEnter first ∧
            (∀ f ∈ rest, ¬ AnswersEnter f) ∧ ∃ r ∈ told h, r.ouch = first) ∧
        ((∃ u ∈ 0 :: consumed h.clientId pre, e.userRefNum ≤ u) → told h = [] ∧ h.translation.request = none) := by
  obtain ⟨g, v, handled, hrun, ht⟩ := (Gateway.Ok.new capacity soupReplayBytes env).trail clock ms
  refine ⟨g, handled, hrun, ht.calls, ?_⟩
  rintro pre h post e rfl hmsg
  obtain ⟨ms₁, g₁, v₁, m, g₂, v₂, ms₂, -, hpre, ho, hpost⟩ := ht.split
  refine ⟨fun hu => hpre.answered ho hpost hmsg fun hle => ?_, fun hu => ho.ignored hmsg (hpre.le_last_iff.mpr hu)⟩
  obtain ⟨u, hm, hle⟩ := hpre.le_last_iff.mp hle
  exact UInt32.not_le.mpr (hu u hm) hle

end Exchange
