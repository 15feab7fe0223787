import Exchange.Impl.Server.Gateway
import Exchange.Proof.Book.Invariant

/-!
# Order entry

`OrderEntry.Ok`: every order that was entered has its own id, and is found under its
client and UserRefNum. `translate_becomes` says once what a message can become.
-/

namespace Exchange

namespace OrderEntry

open Validation

variable {s : OrderEntry} {c : ℕ}

theorem key_inj {c c' : ℕ} {u u' : UInt32} (h : key c u = key c' u') : c = c' ∧ u = u' := by
  have hu := u.toNat_lt
  have hu' := u'.toNat_lt
  rw [key, key, ← Nat.shiftLeft_add_eq_or_of_lt hu, ← Nat.shiftLeft_add_eq_or_of_lt hu', Nat.shiftLeft_eq,
    Nat.shiftLeft_eq] at h
  exact ⟨by omega, UInt32.toNat_inj.mp (by omega)⟩

/-- The orders entered: each is found under its record's client and UserRefNum, has a
side, an id that was handed out, and no other order has that id. -/
structure Ok (s : OrderEntry) : Prop where
  keyed : ∀ k o, s.orders.lookup k = some o → key o.record.clientId o.record.userRefNum = k
  id_lt : ∀ k o, s.orders.lookup k = some o → o.orderId < s.nextOrderId
  side : ∀ k o, s.orders.lookup k = some o → (toEngineSide o.record.side).isSome
  used : ∀ k o, s.orders.lookup k = some o → o.record.userRefNum ≤ s.lastUserRefNum o.record.clientId
  inj : ∀ k o k' o', s.orders.lookup k = some o → s.orders.lookup k' = some o' → o.orderId = o'.orderId → k = k'

theorem Ok.new (band : PriceBand) : Ok { band := band } := by
  constructor <;> intros <;> simp_all

/-- The order with id `id`. -/
def Assigned (s : OrderEntry) (id : ℕ) (record : OrderRecord) : Prop :=
  s.orders.lookup (key record.clientId record.userRefNum) = some ⟨id, record⟩

theorem lastUserRefNum_consume (s : OrderEntry) (c c' : ℕ) (u : UInt32) :
    (s.consume c u).lastUserRefNum c' = if c' = c then u else s.lastUserRefNum c' := by
  unfold lastUserRefNum consume
  by_cases h : c' = c
  · subst h; simp
  · simp [AList.lookup_insert_ne h, h]

/-- A message that uses up a UserRefNum. -/
theorem Ok.consume (h : s.Ok) {u : UInt32} (hu : s.lastUserRefNum c ≤ u) : (s.consume c u).Ok where
  keyed := h.keyed
  id_lt := h.id_lt
  side := h.side
  used k o ho := by
    have hle := h.used k o ho
    rw [lastUserRefNum_consume]
    split
    · next e => exact UInt32.le_trans hle (e ▸ hu)
    · exact hle
  inj := h.inj

/-- An order that has not been entered is found under its key once it is. -/
theorem lookup_assign {record : OrderRecord} (hfree : key c record.userRefNum ∉ s.orders) (k : ℕ) :
    (s.assign c record).orders.lookup k =
      if k = key c record.userRefNum then some ⟨s.nextOrderId, record⟩ else s.orders.lookup k := by
  unfold assign
  dsimp only
  rw [AList.emplace_of_notMem hfree]
  split
  · next e => subst e; exact AList.lookup_insert _
  · next e => exact AList.lookup_insert_ne e

/-- A new UserRefNum of a client is free. -/
theorem Ok.free (h : s.Ok) {u : UInt32} (hu : ¬ u ≤ s.lastUserRefNum c) : key c u ∉ s.orders := fun hm => by
  obtain ⟨o, ho⟩ := AList.exists_lookup_of_mem hm
  have hk := key_inj (h.keyed _ o ho)
  have hle := h.used _ o ho
  rw [hk.1, hk.2] at hle
  exact hu hle

theorem Ok.assign (h : s.Ok) {record : OrderRecord} (hc : record.clientId = c)
    (hfree : key c record.userRefNum ∉ s.orders) (hs : (toEngineSide record.side).isSome)
    (hu : record.userRefNum ≤ s.lastUserRefNum c) : (s.assign c record).Ok := by
  have hcases : ∀ k o, (s.assign c record).orders.lookup k = some o →
      k = key c record.userRefNum ∧ o = ⟨s.nextOrderId, record⟩ ∨ s.orders.lookup k = some o := fun k o ho => by
    rw [lookup_assign hfree] at ho
    split at ho
    · next e => exact .inl ⟨e, (Option.some.inj ho).symm⟩
    · exact .inr ho
  refine ⟨fun k o ho => ?_, fun k o ho => ?_, fun k o ho => ?_, fun k o ho => ?_, fun k o k' o' ho ho' e => ?_⟩
  · rcases hcases k o ho with ⟨rfl, rfl⟩ | ho
    · rw [hc]
    · exact h.keyed k o ho
  · rcases hcases k o ho with ⟨-, rfl⟩ | ho
    · exact Nat.lt_succ_self _
    · exact Nat.lt_succ_of_lt (h.id_lt k o ho)
  · rcases hcases k o ho with ⟨-, rfl⟩ | ho
    · exact hs
    · exact h.side k o ho
  · rcases hcases k o ho with ⟨-, rfl⟩ | ho
    · exact hc ▸ hu
    · exact h.used k o ho
  · rcases hcases k o ho with ⟨rfl, rfl⟩ | ho₁ <;> rcases hcases k' o' ho' with ⟨rfl, rfl⟩ | ho₂
    · rfl
    · exact absurd (h.id_lt k' o' ho₂) (by rw [← e]; exact Nat.lt_irrefl _)
    · exact absurd (h.id_lt k o ho₁) (by rw [e]; exact Nat.lt_irrefl _)
    · exact h.inj k o k' o' ho₁ ho₂ e

/-- The orders after a new one. -/
theorem assigned_assign {record : OrderRecord} (hc : record.clientId = c)
    (hfree : key c record.userRefNum ∉ s.orders) {id : ℕ} {r : OrderRecord} :
    (s.assign c record).Assigned id r ↔ id = s.nextOrderId ∧ r = record ∨ s.Assigned id r := by
  unfold Assigned
  rw [lookup_assign hfree]
  split
  · next e =>
    rw [e, AList.lookup_eq_none.mpr hfree]
    simp [eq_comm]
  · next e =>
    refine ⟨.inr, fun h => h.resolve_left fun ⟨_, hr⟩ => e ?_⟩
    rw [hr, hc]

/-! ## Checks -/

theorem toEnginePrice_limit {p : UInt64} {band : PriceBand} {e : EnginePrice} (h : toEnginePrice p band = some e)
    (ht : e.type = .limit) : band.min ≤ e.price ∧ e.price ≤ band.max := by
  unfold toEnginePrice at h
  dsimp only at h
  split_ifs at h with h₁ h₂ h₃
  · obtain rfl := Option.some.inj h
    cases ht
  · obtain rfl := Option.some.inj h
    dsimp only
    omega

/-- A limit price is in cents what the message has in ticks. -/
theorem toEnginePrice_eq {p : UInt64} {band : PriceBand} {price : ℕ} (h : toEnginePrice p band = some ⟨.limit, price⟩) :
    p.toNat = price * 100 := by
  unfold toEnginePrice at h
  dsimp only at h
  split_ifs at h with h₁ h₂ h₃
  · cases h
  · cases h
    simp only [ouchTicksPerCent, not_or, ne_eq, not_not] at h₂ ⊢
    omega

theorem toEngineSide_eq {x : UInt8} {side : Side} (h : toEngineSide x = some side) : x = toOuchSide side := by
  unfold toEngineSide at h
  split_ifs at h with hb hs
  · obtain rfl := Option.some.inj h
    exact hb
  · obtain rfl := Option.some.inj h
    exact hs

/-- What an accepted Enter Order is known to be. -/
theorem checkEnter_ok {m : OuchEnterOrder} {band : PriceBand} {check : EnterCheck}
    (h : checkEnter m band = .ok check) : toEngineSide m.side = some check.side ∧ 0 < m.quantity.toNat ∧
      toEnginePrice m.price band = some ⟨check.orderType, check.price⟩ := by
  unfold checkEnter at h
  cases hs : toEngineSide m.side with
  | none => rw [hs] at h; cases h
  | some side =>
    cases hp : toEnginePrice m.price band with
    | none => simp only [hs, hp] at h; split_ifs at h
    | some price =>
      cases ht : toEngineTif m.timeInForce with
      | none => simp only [hs, hp, ht] at h; split_ifs at h
      | some tif =>
        simp only [hs, hp, ht] at h
        split_ifs at h with hq
        split at h
        · cases h
        · obtain rfl := Except.ok.inj h
          refine ⟨rfl, ?_, rfl⟩
          simp only [validQuantity, Bool.not_eq_true', Bool.and_eq_false_iff, not_or, Bool.not_eq_false,
            decide_eq_true_eq] at hq
          exact hq.1

/-- What a valid Replace Order is known to be. -/
theorem checkReplace_some {m : OuchReplaceOrder} {side : UInt8} {band : PriceBand} {check : ReplaceCheck}
    (h : checkReplace m side band = some check) :
    0 < m.quantity.toNat ∧ toEnginePrice m.price band = some ⟨.limit, check.price⟩ := by
  simp only [checkReplace, guard, Option.bind_eq_bind, Option.bind_eq_some_iff] at h
  obtain ⟨_, hq, price, hp, _, hl, tif, -, _, -, _, -, _, -, e⟩ := h
  obtain rfl := Option.some.inj e
  have hq' : validQuantity m.quantity = true := by
    by_contra hn
    rw [if_neg hn] at hq
    cases hq
  have hl' : price.type = .limit := by
    by_contra hn
    rw [if_neg hn] at hl
    cases hl
  simp only [validQuantity, Bool.and_eq_true, decide_eq_true_eq] at hq'
  exact ⟨hq'.1, by rw [hp, ← hl']⟩

/-! ## Translation -/

/-- What a message of client `c` can become. -/
inductive Becomes (s : OrderEntry) (c : ℕ) : OuchInboundFrame → OrderEntry → Translation → Prop
  | ignored (msg : OuchInboundFrame) : Becomes s c msg s {}
  | rejected {msg : OuchEnterOrder} (reason : OuchReject) (hu : ¬ msg.userRefNum ≤ s.lastUserRefNum c) :
      Becomes s c (.enterOrder msg) (s.consume c msg.userRefNum)
        { note := some (.rejected reason (enterRecord c msg)) }
  | entered {msg : OuchEnterOrder} {check : EnterCheck} (hu : ¬ msg.userRefNum ≤ s.lastUserRefNum c)
      (hcheck : checkEnter msg s.band = .ok check) :
      Becomes s c (.enterOrder msg) ((s.consume c msg.userRefNum).assign c (enterRecord c msg)) {
        note := some (.orderEntered s.nextOrderId (enterRecord c msg))
        request := some (enterRequest s.nextOrderId c msg check) }
  | canceling {msg : OuchInboundFrame} (hmsg : ∀ m, msg ≠ .enterOrder m) {o : EntryOrder} {u : UInt32}
      (ho : s.orders.lookup (key c u) = some o) (side : Side) (quantity : UInt32) :
      Becomes s c msg s { request := some (cancelRequest o.orderId c side quantity) }
  | replacing {msg : OuchReplaceOrder} {orig : EntryOrder} {check : ReplaceCheck}
      (ho : s.orders.lookup (key c msg.origUserRefNum) = some orig)
      (hu : ¬ msg.userRefNum ≤ s.lastUserRefNum c) (side : Side)
      (hcheck : checkReplace msg orig.record.side s.band = some check) :
      Becomes s c (.replaceOrder msg) ((s.consume c msg.userRefNum).assign c (replaceRecord orig.record msg)) {
        note := some (.orderReplacing s.nextOrderId (replaceRecord orig.record msg))
        request := some (replaceRequest orig.orderId s.nextOrderId c side msg check) }

/-- An Enter Order with a new UserRefNum that does not pass the check. -/
theorem translate_rejected {msg : OuchEnterOrder} {reason : OuchReject} (hu : ¬ msg.userRefNum ≤ s.lastUserRefNum c)
    (hcheck : checkEnter msg s.band = .error reason) :
    s.translate c (.enterOrder msg) =
      some (s.consume c msg.userRefNum, { note := some (.rejected reason (enterRecord c msg)) }) := by
  have hcheck' : checkEnter msg (s.consume c msg.userRefNum).band = .error reason := hcheck
  simp only [translate, enter, if_neg hu, hcheck']

/-- One that passes it. -/
theorem translate_entered {msg : OuchEnterOrder} {check : EnterCheck} (hu : ¬ msg.userRefNum ≤ s.lastUserRefNum c)
    (hcheck : checkEnter msg s.band = .ok check) :
    s.translate c (.enterOrder msg) = some ((s.consume c msg.userRefNum).assign c (enterRecord c msg), {
        note := some (.orderEntered s.nextOrderId (enterRecord c msg))
        request := some (enterRequest s.nextOrderId c msg check) }) := by
  have hcheck' : checkEnter msg (s.consume c msg.userRefNum).band = .ok check := hcheck
  simp only [translate, enter, if_neg hu, hcheck']
  rfl

theorem translate_becomes (h : s.Ok) (c : ℕ) (msg : OuchInboundFrame) :
    ∃ s' t, s.translate c msg = some (s', t) ∧ Becomes s c msg s' t := by
  cases msg with
  | none => exact ⟨s, {}, rfl, .ignored _⟩
  | enterOrder m =>
    by_cases hu : m.userRefNum ≤ s.lastUserRefNum c
    · exact ⟨s, {}, congrArg some (if_pos hu), .ignored _⟩
    · cases hcheck : checkEnter m s.band with
      | error reason => exact ⟨_, _, translate_rejected hu hcheck, .rejected reason hu⟩
      | ok check => exact ⟨_, _, translate_entered hu hcheck, .entered hu hcheck⟩
  | cancelOrder m =>
    unfold translate cancel
    dsimp only
    cases ho : s.orders.lookup (key c m.userRefNum) with
    | none => exact ⟨s, {}, rfl, .ignored _⟩
    | some o =>
      obtain ⟨side, hs⟩ := Option.isSome_iff_exists.mp (h.side _ o ho)
      simp only [hs, Option.bind_eq_bind, Option.bind_some, Option.map_some]
      exact ⟨_, _, rfl, .canceling (fun _ h => by cases h) ho side m.quantity⟩
  | replaceOrder m =>
    unfold translate replace
    dsimp only
    cases ho : s.orders.lookup (key c m.origUserRefNum) with
    | none => exact ⟨s, {}, rfl, .ignored _⟩
    | some orig =>
      dsimp only
      split
      · exact ⟨s, {}, rfl, .ignored _⟩
      · next hu =>
        obtain ⟨side, hs⟩ := Option.isSome_iff_exists.mp (h.side _ orig ho)
        simp only [hs, Option.bind_eq_bind, Option.bind_some]
        cases hcheck : checkReplace m orig.record.side s.band with
        | none => exact ⟨_, _, rfl, .canceling (fun _ h => by cases h) ho side 0⟩
        | some check => exact ⟨_, _, rfl, .replacing ho hu side hcheck⟩

theorem Becomes.ok {msg : OuchInboundFrame} {s' : OrderEntry} {t : Translation} (hb : Becomes s c msg s' t)
    (h : s.Ok) : s'.Ok := by
  cases hb with
  | ignored => exact h
  | canceling => exact h
  | rejected _ hu => exact h.consume (UInt32.le_of_lt (UInt32.not_le.mp hu))
  | @entered m check hu hcheck =>
    refine (h.consume (UInt32.le_of_lt (UInt32.not_le.mp hu))).assign rfl (h.free hu) ?_ ?_
    · exact Option.isSome_iff_exists.mpr ⟨_, (checkEnter_ok hcheck).1⟩
    · rw [lastUserRefNum_consume, if_pos rfl]
      exact UInt32.le_refl _
  | @replacing m orig check ho hu side hcheck =>
    refine (h.consume (UInt32.le_of_lt (UInt32.not_le.mp hu))).assign ?_ (h.free hu) (h.side _ orig ho) ?_
    · exact (key_inj (h.keyed _ orig ho)).1
    · rw [lastUserRefNum_consume, if_pos rfl]
      exact UInt32.le_refl _

theorem Becomes.band_eq {msg : OuchInboundFrame} {s' : OrderEntry} {t : Translation}
    (hb : Becomes s c msg s' t) : s'.band = s.band := by
  cases hb <;> rfl

/-- The request a message becomes has a price in the band if it needs one. -/
theorem Becomes.priceOk {msg : OuchInboundFrame} {s' : OrderEntry} {t : Translation}
    (hb : Becomes s c msg s' t) (hband : s.band = Gateway.band) {req : EngineRequest}
    (hr : t.request = some req) : Spec.PriceOk req := by
  cases hb with
  | ignored => cases hr
  | rejected => cases hr
  | entered hu hcheck =>
    cases hr
    obtain ⟨-, -, hprice⟩ := checkEnter_ok hcheck
    rw [hband] at hprice
    rintro (⟨-, hl⟩ | ht)
    · exact toEnginePrice_limit hprice hl
    · cases ht
  | canceling =>
    cases hr
    rintro (⟨ht, -⟩ | ht) <;> cases ht
  | replacing ho hu side hcheck =>
    cases hr
    obtain ⟨-, hprice⟩ := checkReplace_some hcheck
    rw [hband] at hprice
    exact fun _ => toEnginePrice_limit hprice rfl

end OrderEntry

end Exchange
