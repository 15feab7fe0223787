import Exchange.Proof.Server.Entry
import Exchange.Spec.Entry

/-!
# Identities are handed out once

Over any calls of `translate`: the ids handed out are 1, 2, 3 and so on, a client's
UserRefNums are used in increasing order, and a message sent again does nothing
(`identities_once`). `Runs` is what calls of `translate` come to, one `Becomes` after the
other.
-/

namespace Exchange

open Spec (userRefNum newId Identity identities IsEnter)

namespace OrderEntry

variable {s s' : OrderEntry} {c : ℕ} {msg : OuchInboundFrame} {t : Translation}
  {calls : List (ℕ × OuchInboundFrame)} {ts : List Translation}

/-- Calls of `translate` from a state that is `Ok`. -/
inductive Runs : OrderEntry → List (ℕ × OuchInboundFrame) → OrderEntry → List Translation → Prop
  | nil {s : OrderEntry} (h : s.Ok) : Runs s [] s []
  | cons {s s₁ s' : OrderEntry} {c : ℕ} {msg : OuchInboundFrame} {t : Translation}
      {calls : List (ℕ × OuchInboundFrame)} {ts : List Translation} (h : s.Ok)
      (ht : s.translate c msg = some (s₁, t)) (hb : Becomes s c msg s₁ t) (hr : Runs s₁ calls s' ts) :
      Runs s ((c, msg) :: calls) s' (t :: ts)

theorem Runs.eq (h : Runs s calls s' ts) : s.translateAll calls = some (s', ts) := by
  induction h with
  | nil => rfl
  | @cons s s₁ s' c msg t calls ts _ ht _ _ ih =>
    rw [translateAll, ht]
    show (s₁.translateAll calls).bind _ = _
    rw [ih]
    rfl

theorem Ok.runs (h : s.Ok) (calls : List (ℕ × OuchInboundFrame)) : ∃ s' ts, Runs s calls s' ts := by
  induction calls generalizing s with
  | nil => exact ⟨s, [], .nil h⟩
  | cons call calls ih =>
    obtain ⟨c, msg⟩ := call
    obtain ⟨s₁, t, ht, hb⟩ := translate_becomes h c msg
    obtain ⟨s', ts, hr⟩ := ih (hb.ok h)
    exact ⟨s', t :: ts, .cons h ht hb hr⟩

/-- A run up to one of its calls, the call, and the rest of the run. -/
theorem Runs.split {pre post : List (ℕ × OuchInboundFrame)} (h : Runs s (pre ++ (c, msg) :: post) s' ts) :
    ∃ s₁ ts₁ s₂ t ts₂, Runs s pre s₁ ts₁ ∧ s₁.translate c msg = some (s₂, t) ∧ Becomes s₁ c msg s₂ t ∧
      Runs s₂ post s' ts₂ := by
  induction pre generalizing s ts with
  | nil =>
    cases h with
    | cons h ht hb hr => exact ⟨s, [], _, _, _, .nil h, ht, hb, hr⟩
  | cons call pre ih =>
    cases h with
    | cons h ht hb hr =>
      obtain ⟨s₁, ts₁, s₂, t, ts₂, hpre, hcall⟩ := ih hr
      exact ⟨s₁, _ :: ts₁, s₂, t, ts₂, .cons h ht hb hpre, hcall⟩

theorem Runs.ok (h : Runs s calls s' ts) : s.Ok ∧ s'.Ok := by
  induction h with
  | nil h => exact ⟨h, h⟩
  | cons h _ _ _ ih => exact ⟨h, ih.2⟩

/-! ## One call -/

/-- What one call hands out: nothing, or the next id, for a UserRefNum that is new. -/
theorem Becomes.newId_cases (hb : Becomes s c msg s' t) (h : s.Ok) :
    newId t = none ∧ s'.nextOrderId = s.nextOrderId ∧ s'.orders = s.orders ∨
    newId t = some s.nextOrderId ∧ s'.nextOrderId = s.nextOrderId + 1 ∧ ¬ userRefNum msg ≤ s.lastUserRefNum c ∧
      s'.lastUserRefNum c = userRefNum msg ∧ key c (userRefNum msg) ∉ s.orders ∧
      ∃ record, s'.orders = s.orders.insert (key c (userRefNum msg)) ⟨s.nextOrderId, record⟩ := by
  cases hb with
  | ignored => exact .inl ⟨rfl, rfl, rfl⟩
  | rejected => exact .inl ⟨rfl, rfl, rfl⟩
  | canceling => exact .inl ⟨rfl, rfl, rfl⟩
  | entered hu hcheck =>
    have hfree := h.free hu
    exact .inr ⟨rfl, rfl, hu, (lastUserRefNum_consume ..).trans (if_pos rfl), hfree, _, AList.emplace_of_notMem hfree⟩
  | replacing ho hu side hcheck =>
    have hfree := h.free hu
    exact .inr ⟨rfl, rfl, hu, (lastUserRefNum_consume ..).trans (if_pos rfl), hfree, _, AList.emplace_of_notMem hfree⟩

theorem lastUserRefNum_consume_le {u : UInt32} (hu : ¬ u ≤ s.lastUserRefNum c) (c' : ℕ) :
    s.lastUserRefNum c' ≤ (s.consume c u).lastUserRefNum c' := by
  rw [lastUserRefNum_consume]
  split
  · next e => exact e ▸ UInt32.le_of_lt (UInt32.not_le.mp hu)
  · exact UInt32.le_refl _

/-- UserRefNums are not given back. -/
theorem Becomes.last_le (hb : Becomes s c msg s' t) (c' : ℕ) : s.lastUserRefNum c' ≤ s'.lastUserRefNum c' := by
  cases hb with
  | ignored => exact UInt32.le_refl _
  | canceling => exact UInt32.le_refl _
  | rejected _ hu => exact lastUserRefNum_consume_le hu c'
  | entered hu => exact lastUserRefNum_consume_le hu c'
  | replacing _ hu => exact lastUserRefNum_consume_le hu c'

/-- After an Enter Order its UserRefNum is used, whatever became of it. -/
theorem enter_last (s : OrderEntry) (c : ℕ) (msg : OuchEnterOrder) :
    msg.userRefNum ≤ (s.enter c msg).1.lastUserRefNum c := by
  have hconsume : msg.userRefNum ≤ (s.consume c msg.userRefNum).lastUserRefNum c := by
    rw [lastUserRefNum_consume, if_pos rfl]
    exact UInt32.le_refl _
  unfold enter
  split
  · assumption
  · dsimp only
    split
    · exact hconsume
    · exact hconsume

/-- A message whose UserRefNum is used does nothing. -/
theorem translate_used (hmsg : IsEnter msg ∨ ∃ m, msg = .replaceOrder m) (hu : userRefNum msg ≤ s.lastUserRefNum c) :
    s.translate c msg = some (s, {}) := by
  rcases hmsg with ⟨m, rfl⟩ | ⟨m, rfl⟩
  · exact congrArg some (if_pos hu)
  · show s.replace c m = _
    unfold replace
    split
    · rfl
    · exact if_pos hu

/-! ## Runs -/

theorem Runs.last_le (h : Runs s calls s' ts) (c' : ℕ) : s.lastUserRefNum c' ≤ s'.lastUserRefNum c' := by
  induction h with
  | nil => exact UInt32.le_refl _
  | cons _ _ hb _ ih => exact UInt32.le_trans (hb.last_le c') ih

theorem Runs.next_le (h : Runs s calls s' ts) : s.nextOrderId ≤ s'.nextOrderId := by
  induction h with
  | nil => exact Nat.le_refl _
  | cons h _ hb _ ih =>
    rcases hb.newId_cases h with ⟨-, e, -⟩ | ⟨-, e, -⟩ <;> omega

/-- Ids are handed out in order. -/
theorem Runs.orderIds (h : Runs s calls s' ts) :
    (identities calls ts).map (·.orderId) = List.range' s.nextOrderId (s'.nextOrderId - s.nextOrderId) := by
  induction h with
  | nil => rw [Nat.sub_self]; rfl
  | cons h _ hb hr ih =>
    have hle := hr.next_le
    rw [identities, List.map_append, ih]
    rcases hb.newId_cases h with ⟨hn, e, -⟩ | ⟨hn, e, -⟩
    · rw [hn, e]
      rfl
    · rw [hn, e, Option.map_some, Option.toList_some, List.map_singleton, List.singleton_append]
      rw [e] at hle
      rw [← List.range'_succ]
      congr 1
      omega

/-- A client's UserRefNums are used in increasing order. -/
theorem Runs.refNums (h : Runs s calls s' ts) (c : ℕ) :
    (((identities calls ts).filter (·.clientId = c)).map (·.userRefNum)).Pairwise (· < ·) ∧
      ∀ u ∈ ((identities calls ts).filter (·.clientId = c)).map (·.userRefNum), s.lastUserRefNum c < u := by
  induction h with
  | nil => exact ⟨.nil, nofun⟩
  | @cons s s₁ s' c' msg t calls ts h _ hb hr ih =>
    rw [identities, List.filter_append, List.map_append]
    have hmono := hb.last_le c
    have hrest : ∀ u ∈ ((identities calls ts).filter (·.clientId = c)).map (·.userRefNum), s.lastUserRefNum c < u :=
      fun u hu => UInt32.lt_of_le_of_lt hmono (ih.2 u hu)
    rcases hb.newId_cases h with ⟨hn, -⟩ | ⟨hn, -, hnew, hlast, -⟩
    · rw [hn]
      exact ⟨ih.1, hrest⟩
    · rw [hn, Option.map_some, Option.toList_some]
      by_cases e : c' = c
      · subst e
        rw [List.filter_cons_of_pos (by simp), List.filter_nil, List.map_singleton, List.singleton_append]
        refine ⟨List.pairwise_cons.mpr ⟨fun u hu => hlast ▸ ih.2 u hu, ih.1⟩, fun u hu => ?_⟩
        rcases List.mem_cons.mp hu with rfl | hu
        · exact UInt32.not_le.mp hnew
        · exact hrest u hu
      · rw [List.filter_cons_of_neg (by simpa using e)]
        exact ⟨ih.1, hrest⟩

/-- A message that used its UserRefNum does nothing when it is sent again. -/
theorem Runs.resend {s₁ s₂ : OrderEntry} {post : List (ℕ × OuchInboundFrame)}
    (ht : s₁.translate c msg = some (s₂, t)) (hb : Becomes s₁ c msg s₂ t) (h₁ : s₁.Ok) (hr : Runs s₂ post s' ts)
    (hmsg : IsEnter msg ∨ newId t ≠ none) : s'.translate c msg = some (s', {}) := by
  have hle := hr.last_le c
  have henter : ∀ m, msg = .enterOrder m → s'.translate c msg = some (s', {}) := by
    rintro m rfl
    obtain rfl : (s₁.enter c m).1 = s₂ := congrArg Prod.fst (Option.some.inj ht)
    exact translate_used (.inl ⟨m, rfl⟩) (UInt32.le_trans (enter_last s₁ c m) hle)
  rcases hmsg with ⟨m, rfl⟩ | hnew
  · exact henter m rfl
  · rcases hb.newId_cases h₁ with ⟨hn, -⟩ | ⟨-, -, -, hlast, -⟩
    · exact absurd hn hnew
    · have hu : userRefNum msg ≤ s'.lastUserRefNum c := hlast ▸ hle
      cases msg with
      | enterOrder m => exact henter m rfl
      | replaceOrder m => exact translate_used (.inr ⟨m, rfl⟩) hu
      | cancelOrder m =>
        cases hb with
        | ignored => exact absurd rfl hnew
        | canceling => exact absurd rfl hnew
      | none =>
        cases hb with
        | ignored => exact absurd rfl hnew
        | canceling => exact absurd rfl hnew

theorem nodup_of_increasing {ids : List Identity}
    (h : ∀ c, ((ids.filter (·.clientId = c)).map (·.userRefNum)).Pairwise (· < ·)) :
    (ids.map fun x => (x.clientId, x.userRefNum)).Nodup := by
  induction ids with
  | nil => exact List.nodup_nil
  | cons x ids ih =>
    refine List.nodup_cons.mpr ⟨fun hm => ?_, ih fun c => ?_⟩
    · obtain ⟨y, hy, e⟩ := List.mem_map.mp hm
      injection e with hc hu
      have hx := h x.clientId
      rw [List.filter_cons_of_pos (by simp), List.map_cons, List.pairwise_cons] at hx
      have hlt := hx.1 y.userRefNum (List.mem_map_of_mem (List.mem_filter.mpr ⟨hy, by simpa using hc⟩))
      rw [hu] at hlt
      exact UInt32.lt_irrefl _ hlt
    · exact (h c).sublist (((List.sublist_cons_self x ids).filter _).map _)

end OrderEntry

open OrderEntry (key)

/-- Over any calls of `translate`: the ids of NEW and REPLACE requests are 1, 2, 3 and so
on; no client uses a UserRefNum for two of them, and its UserRefNums increase; no two
orders have the same id; each order is really inserted; and an Enter Order, or a Replace
Order that replaced something, does nothing when it is sent again. -/
theorem identities_once (band : Validation.PriceBand) (calls : List (ℕ × OuchInboundFrame)) :
    ∃ s ts, OrderEntry.translateAll { band := band } calls = some (s, ts) ∧
      (identities calls ts).map (·.orderId) = List.range' 1 (identities calls ts).length ∧
      ((identities calls ts).map fun x => (x.clientId, x.userRefNum)).Nodup ∧
      (∀ c, (((identities calls ts).filter (·.clientId = c)).map (·.userRefNum)).Pairwise (· < ·)) ∧
      (∀ c u o c' u' o', s.orders.lookup (key c u) = some o → s.orders.lookup (key c' u') = some o' →
        o.orderId = o'.orderId → c = c' ∧ u = u') ∧
      ∀ pre c msg post s₁ ts₁ s₂ t, calls = pre ++ (c, msg) :: post →
        OrderEntry.translateAll { band := band } pre = some (s₁, ts₁) → s₁.translate c msg = some (s₂, t) →
        (∀ id, newId t = some id → key c (userRefNum msg) ∉ s₁.orders ∧
          ∃ record, s₂.orders = s₁.orders.insert (key c (userRefNum msg)) ⟨id, record⟩) ∧
        (IsEnter msg ∨ newId t ≠ none → s.translate c msg = some (s, {})) := by
  obtain ⟨s, ts, hr⟩ := (OrderEntry.Ok.new band).runs calls
  have hids := hr.orderIds
  have hlen : (identities calls ts).length = s.nextOrderId - 1 := by
    have := congrArg List.length hids
    rwa [List.length_map, List.length_range'] at this
  have hinc := fun c => (hr.refNums c).1
  refine ⟨s, ts, hr.eq, hlen ▸ hids, OrderEntry.nodup_of_increasing hinc, hinc, fun c u o c' u' o' ho ho' e => ?_, ?_⟩
  · exact OrderEntry.key_inj (hr.ok.2.inj _ o _ o' ho ho' e)
  · rintro pre c msg post s₁ ts₁ s₂ t rfl hpre ht
    obtain ⟨s₁', ts₁', s₂', t', ts₂, hpre', ht', hb, hpost⟩ := hr.split
    cases hpre'.eq.symm.trans hpre
    cases ht'.symm.trans ht
    refine ⟨fun id hid => ?_, hpost.resend ht hb hpre'.ok.2⟩
    rcases hb.newId_cases hpre'.ok.2 with ⟨hn, -⟩ | ⟨hn, -, -, -, hfree, record, horders⟩
    · cases hn.symm.trans hid
    · cases hn.symm.trans hid
      exact ⟨hfree, record, horders⟩

end Exchange
