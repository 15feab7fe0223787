import Exchange.Proof.Server.Identity
import Mathlib.Data.Set.Finite.List
import Mathlib.Logic.Equiv.Fintype

/-!
# Clients are isolated in order entry

What a client is answered does not depend on the messages of others, up to a renaming of
order ids (`entry_isolated`). Any calls are compared to the calls of the client alone:
`Sim` relates the two states, with the pairs of ids that correspond.
-/

namespace Exchange

open Spec (userRefNum newId own answers renameNote renameRequest rename)

namespace OrderEntry

open Validation

/-! ## Two states with the same view of a client -/

/-- The states `s` and `v` have the same orders of client `c`, under the ids of `pairs`. -/
structure Sim (c : ℕ) (pairs : List (ℕ × ℕ)) (v s : OrderEntry) : Prop where
  band : v.band = s.band
  last : v.lastUserRefNum c = s.lastUserRefNum c
  orders : ∀ u, Option.Rel (fun o o' => o.record = o'.record ∧ (o.orderId, o'.orderId) ∈ pairs)
    (v.orders.lookup (key c u)) (s.orders.lookup (key c u))
  lt : ∀ p ∈ pairs, p.1 < v.nextOrderId ∧ p.2 < s.nextOrderId
  left : (pairs.map Prod.fst).Nodup
  right : (pairs.map Prod.snd).Nodup

variable {c : ℕ} {pairs : List (ℕ × ℕ)} {v v' s s' : OrderEntry} {msg : OuchInboundFrame} {t : Translation}
  {calls : List (ℕ × OuchInboundFrame)} {ts : List Translation}

theorem Sim.new (c : ℕ) (band : PriceBand) : Sim c [] { band := band } { band := band } :=
  ⟨rfl, rfl, fun _ => .none, nofun, List.nodup_nil, List.nodup_nil⟩

theorem Sim.consume (h : Sim c pairs v s) (u : UInt32) : Sim c pairs (v.consume c u) (s.consume c u) :=
  { h with last := by rw [lastUserRefNum_consume, lastUserRefNum_consume, if_pos rfl, if_pos rfl] }

/-- A new order of the client. -/
theorem Sim.assign (h : Sim c pairs v s) {record : OrderRecord} (hv : key c record.userRefNum ∉ v.orders)
    (hs : key c record.userRefNum ∉ s.orders) :
    Sim c (pairs ++ [(v.nextOrderId, s.nextOrderId)]) (v.assign c record) (s.assign c record) where
  band := h.band
  last := h.last
  orders u := by
    rw [lookup_assign hv, lookup_assign hs]
    split
    · exact .some ⟨rfl, List.mem_append_right _ (List.mem_singleton_self _)⟩
    · have ho := h.orders u
      generalize v.orders.lookup (key c u) = o, s.orders.lookup (key c u) = o' at ho ⊢
      cases ho with
      | none => exact .none
      | some ho => exact .some ⟨ho.1, List.mem_append_left _ ho.2⟩
  lt p hp := by
    rcases List.mem_append.mp hp with hp | hp
    · exact (h.lt p hp).imp Nat.lt_succ_of_lt Nat.lt_succ_of_lt
    · obtain rfl := List.mem_singleton.mp hp
      exact ⟨Nat.lt_succ_self _, Nat.lt_succ_self _⟩
  left := by
    rw [List.map_append, List.map_singleton, List.nodup_append]
    refine ⟨h.left, List.nodup_singleton _, fun a ha b hb => ?_⟩
    obtain ⟨p, hp, rfl⟩ := List.mem_map.mp ha
    obtain rfl := List.mem_singleton.mp hb
    exact Nat.ne_of_lt (h.lt p hp).1
  right := by
    rw [List.map_append, List.map_singleton, List.nodup_append]
    refine ⟨h.right, List.nodup_singleton _, fun a ha b hb => ?_⟩
    obtain ⟨p, hp, rfl⟩ := List.mem_map.mp ha
    obtain rfl := List.mem_singleton.mp hb
    exact Nat.ne_of_lt (h.lt p hp).2

/-- An order of the client is in both states or in none. -/
theorem Sim.lookup_none (h : Sim c pairs v s) {u : UInt32} (hs : s.orders.lookup (key c u) = none) :
    v.orders.lookup (key c u) = none := by
  have ho := h.orders u
  rw [hs] at ho
  generalize v.orders.lookup (key c u) = o at ho ⊢
  cases ho
  rfl

theorem Sim.lookup_some (h : Sim c pairs v s) {u : UInt32} {o : EntryOrder}
    (hs : s.orders.lookup (key c u) = some o) :
    ∃ id, v.orders.lookup (key c u) = some ⟨id, o.record⟩ ∧ (id, o.orderId) ∈ pairs := by
  have ho := h.orders u
  rw [hs] at ho
  generalize v.orders.lookup (key c u) = o' at ho ⊢
  cases ho with
  | @some o' _ ho => exact ⟨o'.orderId, by rw [← ho.1], ho.2⟩

theorem Sim.free (h : Sim c pairs v s) {u : UInt32} (hs : key c u ∉ s.orders) : key c u ∉ v.orders :=
  AList.lookup_eq_none.mp (h.lookup_none (AList.lookup_eq_none.mpr hs))

/-! ## Calls of other clients -/

/-- A call of another client changes nothing of the client's orders. -/
theorem Becomes.frame {c' : ℕ} (hb : Becomes s c' msg s' t) (hs : s.Ok) (hne : c' ≠ c) :
    s'.band = s.band ∧ s'.lastUserRefNum c = s.lastUserRefNum c ∧ s.nextOrderId ≤ s'.nextOrderId ∧
      ∀ u, s'.orders.lookup (key c u) = s.orders.lookup (key c u) := by
  have hlast : ∀ u, (s.consume c' u).lastUserRefNum c = s.lastUserRefNum c := fun u =>
    (lastUserRefNum_consume ..).trans (if_neg hne.symm)
  have hkey : ∀ u u', key c u ≠ key c' u' := fun u u' e => hne (key_inj e).1.symm
  cases hb with
  | ignored => exact ⟨rfl, rfl, Nat.le_refl _, fun _ => rfl⟩
  | canceling => exact ⟨rfl, rfl, Nat.le_refl _, fun _ => rfl⟩
  | rejected => exact ⟨rfl, hlast _, Nat.le_refl _, fun _ => rfl⟩
  | entered hu =>
    exact ⟨rfl, hlast _, Nat.le_succ _, fun u => (lookup_assign (hs.free hu) _).trans (if_neg (hkey u _))⟩
  | replacing _ hu =>
    exact ⟨rfl, hlast _, Nat.le_succ _, fun u => (lookup_assign (hs.free hu) _).trans (if_neg (hkey u _))⟩

theorem Sim.other {c' : ℕ} (h : Sim c pairs v s) (hs : s.Ok) (hb : Becomes s c' msg s' t) (hne : c' ≠ c) :
    Sim c pairs v s' := by
  obtain ⟨hband, hlast, hnext, horders⟩ := hb.frame hs hne
  refine ⟨h.band.trans hband.symm, h.last.trans hlast.symm, fun u => ?_, fun p hp => ?_, h.left, h.right⟩
  · rw [horders]
    exact h.orders u
  · exact (h.lt p hp).imp_right fun hlt => Nat.lt_of_lt_of_le hlt hnext

/-! ## Calls of the client -/

/-- The translations are the same under renamings that `pairs` are of. -/
def Same (pairs : List (ℕ × ℕ)) (t t' : Translation) : Prop :=
  ∀ f : ℕ → ℕ, (∀ p ∈ pairs, f p.1 = p.2) → rename f t = t'

/-- The same message of the client, in both states. -/
def Steps (c : ℕ) (pairs : List (ℕ × ℕ)) (v s : OrderEntry) (msg : OuchInboundFrame) : Prop :=
  ∃ pairs' v' t s' t', v.translate c msg = some (v', t) ∧ s.translate c msg = some (s', t') ∧
    Sim c (pairs ++ pairs') v' s' ∧ Same (pairs ++ pairs') t t'

theorem Sim.ignored (h : Sim c pairs v s) (hv : v.translate c msg = some (v, {}))
    (hs : s.translate c msg = some (s, {})) : Steps c pairs v s msg :=
  ⟨[], v, {}, s, {}, hv, hs, (List.append_nil pairs).symm ▸ h, fun _ _ => rfl⟩

theorem Sim.enter (h : Sim c pairs v s) (hok : s.Ok) (m : OuchEnterOrder) : Steps c pairs v s (.enterOrder m) := by
  by_cases hu : m.userRefNum ≤ s.lastUserRefNum c
  · exact h.ignored (translate_used (.inl ⟨m, rfl⟩) (h.last ▸ hu)) (translate_used (.inl ⟨m, rfl⟩) hu)
  · have huv : ¬ m.userRefNum ≤ v.lastUserRefNum c := h.last ▸ hu
    cases hcheck : checkEnter m s.band with
    | error reason =>
      have hv := translate_rejected huv (h.band ▸ hcheck)
      have hs := translate_rejected hu hcheck
      exact ⟨[], _, _, _, _, hv, hs, (List.append_nil pairs).symm ▸ h.consume _, fun _ _ => rfl⟩
    | ok check =>
      have hv := translate_entered huv (h.band ▸ hcheck)
      have hs := translate_entered hu hcheck
      have hfree := hok.free hu
      refine ⟨_, _, _, _, _, hv, hs, (h.consume m.userRefNum).assign (h.free hfree) hfree, fun f hf => ?_⟩
      have hid : f v.nextOrderId = s.nextOrderId := hf _ (List.mem_append_right _ (List.mem_singleton_self _))
      simp only [rename, Option.map_some, renameNote, renameRequest, enterRequest, hid]
      rfl

/-- A cancel of an order the client has. -/
theorem Sim.canceled (h : Sim c pairs v s) {id id' : ℕ} (hp : (id, id') ∈ pairs) (side : Side) (quantity : UInt32)
    (hv : v.translate c msg = some (v, { request := some (cancelRequest id c side quantity) }))
    (hs : s.translate c msg = some (s, { request := some (cancelRequest id' c side quantity) })) :
    Steps c pairs v s msg := by
  refine ⟨[], _, _, _, _, hv, hs, (List.append_nil pairs).symm ▸ h, fun f hf => ?_⟩
  have hid : f id = id' := hf _ (List.mem_append_left _ hp)
  simp only [rename, Option.map_none, Option.map_some, renameRequest, cancelRequest, hid]
  rfl

theorem Sim.cancel (h : Sim c pairs v s) (hok : s.Ok) (m : OuchCancelOrder) : Steps c pairs v s (.cancelOrder m) := by
  cases ho : s.orders.lookup (key c m.userRefNum) with
  | none =>
    have ho' := h.lookup_none ho
    refine h.ignored ?_ ?_
    · simp only [translate, OrderEntry.cancel, ho', Option.map_some]
    · simp only [translate, OrderEntry.cancel, ho, Option.map_some]
  | some o =>
    obtain ⟨id, ho', hp⟩ := h.lookup_some ho
    obtain ⟨side, hside⟩ := Option.isSome_iff_exists.mp (hok.side _ o ho)
    refine h.canceled hp side m.quantity ?_ ?_
    · simp only [translate, OrderEntry.cancel, ho', hside, Option.bind_eq_bind, Option.bind_some, Option.map_some]
    · simp only [translate, OrderEntry.cancel, ho, hside, Option.bind_eq_bind, Option.bind_some, Option.map_some]

theorem Sim.replace (h : Sim c pairs v s) (hok : s.Ok) (m : OuchReplaceOrder) :
    Steps c pairs v s (.replaceOrder m) := by
  by_cases hu : m.userRefNum ≤ s.lastUserRefNum c
  · exact h.ignored (translate_used (.inr ⟨m, rfl⟩) (h.last ▸ hu)) (translate_used (.inr ⟨m, rfl⟩) hu)
  · cases ho : s.orders.lookup (key c m.origUserRefNum) with
    | none =>
      have ho' := h.lookup_none ho
      refine h.ignored ?_ ?_
      · simp only [translate, OrderEntry.replace, ho']
      · simp only [translate, OrderEntry.replace, ho]
    | some o =>
      obtain ⟨id, ho', hp⟩ := h.lookup_some ho
      obtain ⟨side, hside⟩ := Option.isSome_iff_exists.mp (hok.side _ o ho)
      have hu' : ¬ m.userRefNum ≤ v.lastUserRefNum c := h.last ▸ hu
      cases hcheck : checkReplace m o.record.side s.band with
      | none =>
        refine h.canceled hp side 0 ?_ ?_
        · simp only [translate, OrderEntry.replace, ho', if_neg hu', hside, h.band, hcheck, Option.bind_eq_bind,
            Option.bind_some]
        · simp only [translate, OrderEntry.replace, ho, if_neg hu, hside, hcheck, Option.bind_eq_bind, Option.bind_some]
      | some check =>
        have hfree := hok.free hu
        have hv : v.translate c (.replaceOrder m) = some
            ((v.consume c m.userRefNum).assign c (replaceRecord o.record m), {
              note := some (.orderReplacing v.nextOrderId (replaceRecord o.record m))
              request := some (replaceRequest id v.nextOrderId c side m check) }) := by
          simp only [translate, OrderEntry.replace, ho', if_neg hu', hside, h.band, hcheck, Option.bind_eq_bind,
            Option.bind_some]
          rfl
        have hs : s.translate c (.replaceOrder m) = some
            ((s.consume c m.userRefNum).assign c (replaceRecord o.record m), {
              note := some (.orderReplacing s.nextOrderId (replaceRecord o.record m))
              request := some (replaceRequest o.orderId s.nextOrderId c side m check) }) := by
          simp only [translate, OrderEntry.replace, ho, if_neg hu, hside, hcheck, Option.bind_eq_bind, Option.bind_some]
          rfl
        refine ⟨_, _, _, _, _, hv, hs, (h.consume m.userRefNum).assign (h.free hfree) hfree, fun f hf => ?_⟩
        have hid : f v.nextOrderId = s.nextOrderId := hf _ (List.mem_append_right _ (List.mem_singleton_self _))
        have horig : f id = o.orderId := hf _ (List.mem_append_left _ hp)
        simp only [rename, Option.map_some, renameNote, renameRequest, replaceRequest, hid, horig, if_true]

/-- The same message of the client, in states with the same view of it. -/
theorem Sim.step (h : Sim c pairs v s) (hok : s.Ok) (msg : OuchInboundFrame) : Steps c pairs v s msg := by
  cases msg with
  | enterOrder m => exact h.enter hok m
  | cancelOrder m => exact h.cancel hok m
  | replaceOrder m => exact h.replace hok m
  | none => exact h.ignored rfl rfl

/-! ## Runs -/

theorem translateAll_cons {s₁ : OrderEntry} (ht : s.translate c msg = some (s₁, t))
    (hts : s₁.translateAll calls = some (s', ts)) : s.translateAll ((c, msg) :: calls) = some (s', t :: ts) := by
  rw [translateAll, ht]
  show (s₁.translateAll calls).bind _ = _
  rw [hts]
  rfl

/-- Any calls, and the client's calls alone. -/
theorem Runs.sim (hr : Runs s calls s' ts) (h : Sim c pairs v s) :
    ∃ pairs' v' us, v.translateAll ((own c calls).map (c, ·)) = some (v', us) ∧ Sim c (pairs ++ pairs') v' s' ∧
      ∀ f : ℕ → ℕ, (∀ p ∈ pairs ++ pairs', f p.1 = p.2) → us.map (rename f) = answers c calls ts := by
  induction hr generalizing pairs v with
  | nil => exact ⟨[], v, [], rfl, (List.append_nil pairs).symm ▸ h, fun _ _ => rfl⟩
  | @cons s s₁ s' c' msg t calls ts hok ht hb hr ih =>
    by_cases e : c' = c
    · subst e
      obtain ⟨new, v₁, u, s₁', t', hu, ht', hsim, hsame⟩ := h.step hok msg
      cases ht.symm.trans ht'
      obtain ⟨pairs', v', us, hus, hsim', hrename⟩ := ih hsim
      rw [List.append_assoc] at hsim'
      have hown : own c' ((c', msg) :: calls) = msg :: own c' calls := by simp [own]
      have hans : answers c' ((c', msg) :: calls) (t :: ts) = t :: answers c' calls ts := if_pos rfl
      rw [hown, hans]
      refine ⟨new ++ pairs', v', u :: us, translateAll_cons hu hus, hsim', fun f hf => ?_⟩
      rw [← List.append_assoc] at hf
      rw [List.map_cons, hsame f fun p hp => hf p (List.mem_append_left _ hp), hrename f hf]
    · have hown : own c ((c', msg) :: calls) = own c calls := by simp [own, e]
      have hans : answers c ((c', msg) :: calls) (t :: ts) = answers c calls ts := if_neg e
      rw [hown, hans]
      exact ih (h.other hok hb e)

/-- Requests about an order name one the client has. -/
theorem Becomes.names_own (hb : Becomes s c msg s' t) {request : EngineRequest} (hreq : t.request = some request)
    (htype : request.type ≠ .new) : ∃ u o, s.orders.lookup (key c u) = some o ∧ o.orderId = request.orderId := by
  cases hb with
  | ignored => cases hreq
  | rejected => cases hreq
  | entered =>
    cases hreq
    exact absurd rfl htype
  | canceling _ ho =>
    cases hreq
    exact ⟨_, _, ho, rfl⟩
  | replacing ho =>
    cases hreq
    exact ⟨_, _, ho, rfl⟩

/-- Requests about an order name one that the client entered before: `ids` has those
entered before the run. -/
theorem Runs.names_own (hr : Runs s calls s' ts) (ids : List ℕ)
    (hids : ∀ u o, s.orders.lookup (key c u) = some o → o.orderId ∈ ids) {before after : List Translation}
    (e : answers c calls ts = before ++ t :: after) {request : EngineRequest} (hreq : t.request = some request)
    (htype : request.type ≠ .new) : request.orderId ∈ ids ++ before.filterMap newId := by
  induction hr generalizing ids before with
  | nil => exact absurd e.symm (List.append_ne_nil_of_right_ne_nil _ (List.cons_ne_nil _ _))
  | @cons s s₁ s' c' msg t₁ calls ts hok ht hb hr ih =>
    by_cases hc : c' = c
    · subst hc
      have hans : answers c' ((c', msg) :: calls) (t₁ :: ts) = t₁ :: answers c' calls ts := if_pos rfl
      rw [hans] at e
      cases before with
      | nil =>
        obtain ⟨rfl, -⟩ := List.cons.inj e
        obtain ⟨u, o, ho, hid⟩ := hb.names_own hreq htype
        exact List.mem_append_left _ (hid ▸ hids u o ho)
      | cons t₀ before =>
        obtain ⟨rfl, e'⟩ := List.cons.inj e
        have hstep : ∀ u o, s₁.orders.lookup (key c' u) = some o → o.orderId ∈ ids ++ (newId t₁).toList := by
          intro u o ho
          rcases hb.newId_cases hok with ⟨-, -, horders⟩ | ⟨hn, -, -, -, -, record, horders⟩
          · rw [horders] at ho
            exact List.mem_append_left _ (hids u o ho)
          · rw [horders] at ho
            by_cases hk : key c' u = key c' (userRefNum msg)
            · rw [hk, AList.lookup_insert] at ho
              obtain rfl := Option.some.inj ho
              rw [hn]
              exact List.mem_append_right _ (List.mem_singleton_self _)
            · rw [AList.lookup_insert_ne hk] at ho
              exact List.mem_append_left _ (hids u o ho)
        have hbefore : (t₁ :: before).filterMap newId = (newId t₁).toList ++ before.filterMap newId := by
          cases hn : newId t₁ <;> simp [hn]
        rw [hbefore, ← List.append_assoc]
        exact ih _ hstep e'
    · have hans : answers c ((c', msg) :: calls) (t₁ :: ts) = answers c calls ts := if_neg hc
      rw [hans] at e
      refine ih ids (fun u o ho => hids u o ?_) e
      rw [← (hb.frame hok hc).2.2.2 u]
      exact ho

/-- A renaming under which pairs of ids correspond. -/
theorem Sim.exists_perm (h : Sim c pairs v s) : ∃ f : Equiv.Perm ℕ, ∀ p ∈ pairs, f p.1 = p.2 := by
  have : Finite { p // p ∈ pairs } := List.finite_toSet pairs
  have hleft : Function.Injective fun p : { p // p ∈ pairs } => p.1.1 := fun p q e =>
    Subtype.ext (List.inj_on_of_nodup_map h.left p.2 q.2 e)
  have hright : Function.Injective fun p : { p // p ∈ pairs } => p.1.2 := fun p q e =>
    Subtype.ext (List.inj_on_of_nodup_map h.right p.2 q.2 e)
  obtain ⟨f, hf⟩ := Equiv.Perm.exists_extending_pair _ _ hleft hright
  exact ⟨f, fun p hp => hf ⟨p, hp⟩⟩

end OrderEntry

theorem rename_rename (f g : ℕ → ℕ) (t : Translation) : rename f (rename g t) = rename (f ∘ g) t := by
  obtain ⟨note, request⟩ := t
  have hnote : ∀ n, renameNote f (renameNote g n) = renameNote (f ∘ g) n := fun n => by cases n <;> rfl
  have hrequest : ∀ r, renameRequest f (renameRequest g r) = renameRequest (f ∘ g) r := fun r => by
    unfold renameRequest
    dsimp only
    split <;> rfl
  simp only [rename, Option.map_map, Translation.mk.injEq]
  exact ⟨congrArg (note.map ·) (funext hnote), congrArg (request.map ·) (funext hrequest)⟩

/-- Two sequences of calls with the same messages of client `c` answer them alike, up to
one renaming of order ids, and a request about an order is about one that the client
entered before. -/
theorem entry_isolated (band : Validation.PriceBand) (c : ℕ) (calls calls' : List (ℕ × OuchInboundFrame))
    (h : own c calls = own c calls') :
    ∃ s ts s' ts', OrderEntry.translateAll { band := band } calls = some (s, ts) ∧
      OrderEntry.translateAll { band := band } calls' = some (s', ts') ∧
      (∃ f : Equiv.Perm ℕ, (answers c calls ts).map (rename f) = answers c calls' ts') ∧
      ∀ before t after request, answers c calls ts = before ++ t :: after → t.request = some request →
        request.type ≠ .new → request.orderId ∈ before.filterMap newId := by
  obtain ⟨s, ts, hr⟩ := (OrderEntry.Ok.new band).runs calls
  obtain ⟨s', ts', hr'⟩ := (OrderEntry.Ok.new band).runs calls'
  refine ⟨s, ts, s', ts', hr.eq, hr'.eq, ?_, fun before t after request e hreq htype => ?_⟩
  · -- both are compared to the client's calls alone
    obtain ⟨pairs, v, us, hus, hsim, hrename⟩ := hr.sim (OrderEntry.Sim.new c band)
    obtain ⟨pairs', v', us', hus', hsim', hrename'⟩ := hr'.sim (OrderEntry.Sim.new c band)
    rw [h, hus'] at hus
    cases hus
    obtain ⟨f, hf⟩ := hsim.exists_perm
    obtain ⟨g, hg⟩ := hsim'.exists_perm
    refine ⟨f.symm.trans g, ?_⟩
    rw [← hrename f hf, ← hrename' g hg, List.map_map]
    refine List.map_congr_left fun u _ => ?_
    rw [Function.comp_apply, rename_rename]
    congr 1
    funext id
    exact congrArg g (f.symm_apply_apply id)
  · have := hr.names_own [] (fun _ _ ho => nomatch ho) e hreq htype
    rwa [List.nil_append] at this

/-- 100 shares bought at 1.00 dollar, under UserRefNum 1. -/
def isolatedEnter : OuchInboundFrame := .enterOrder {
  userRefNum := 1, side := chr 'B', quantity := 100, symbol := alpha 8 [], price := 10000, timeInForce := chr '0',
  display := chr 'Y', capacity := chr 'A', intermarketSweepEligibility := chr 'N', crossType := chr 'N',
  clOrdId := alpha 14 [] }

/-- That order canceled. -/
def isolatedCancel : OuchInboundFrame := .cancelOrder { userRefNum := 1, quantity := 0 }

/-- Client 1 enters an order and cancels it, with or without client 2 doing the same. -/
theorem entry_isolated_sample :
    own 1 [(1, isolatedEnter), (1, isolatedCancel)] =
      own 1 [(2, isolatedEnter), (1, isolatedEnter), (2, isolatedCancel), (1, isolatedCancel)] ∧
    ∃ s ts s' ts', OrderEntry.translateAll { band := ⟨1, 100000⟩ } [(1, isolatedEnter), (1, isolatedCancel)] =
        some (s, ts) ∧
      OrderEntry.translateAll { band := ⟨1, 100000⟩ }
        [(2, isolatedEnter), (1, isolatedEnter), (2, isolatedCancel), (1, isolatedCancel)] = some (s', ts') ∧
      (∃ f : Equiv.Perm ℕ, (answers 1 [(1, isolatedEnter), (1, isolatedCancel)] ts).map (rename f) =
        answers 1 [(2, isolatedEnter), (1, isolatedEnter), (2, isolatedCancel), (1, isolatedCancel)] ts') ∧
      ∀ before t after request, answers 1 [(1, isolatedEnter), (1, isolatedCancel)] ts = before ++ t :: after →
        t.request = some request → request.type ≠ .new → request.orderId ∈ before.filterMap newId :=
  ⟨rfl, entry_isolated _ 1 _ _ rfl⟩

end Exchange
