import Exchange.Proof.Client.Books
import Exchange.Proof.Conversation
import Exchange.Proof.Server.Identity

/-!
# What order entry makes of a client's messages

A client of the load generator keeps its session when it connects again, and goes on with its
UserRefNums. So whatever is lost on the way, and whatever other clients send in between, none of
its Enters is taken for one that was sent before, each is a NEW order, and a Cancel or a Replace
is dropped only when its target is no order of the client (`client_orders_enter`).

Two facts of any calls of `translate` carry this: an order is found under a UserRefNum exactly
when an id was handed out for it (`Runs.numbers_iff`), and the last UserRefNum of a client is that
of one of its messages (`Runs.last_from`).
-/

namespace Exchange

open Spec (Identity identities newId userRefNum ownRefNum targetRef own Taken Passes messagesQueued newUserRefNums
  eventsLogged)

/-! ## Order entry -/

namespace OrderEntry

variable {s s' : OrderEntry} {c : ℕ} {msg : OuchInboundFrame} {t : Translation}
  {calls : List (ℕ × OuchInboundFrame)} {ts : List Translation}

/-- The order of a client's UserRefNum has this id. -/
def Numbers (s : OrderEntry) (c : ℕ) (u : UInt32) (id : ℕ) : Prop :=
  ∃ o, s.orders.lookup (key c u) = some o ∧ o.orderId = id

theorem Becomes.numbers_iff (hb : Becomes s c msg s' t) (h : s.Ok) (c' : ℕ) (u : UInt32) (id : ℕ) :
    s'.Numbers c' u id ↔ (⟨c', u, id⟩ : Identity) ∈ ((newId t).map fun id => ⟨c, userRefNum msg, id⟩).toList ∨
      s.Numbers c' u id := by
  unfold Numbers
  rcases hb.newId_cases h with ⟨hn, -, e⟩ | ⟨hn, -, -, -, hfree, record, e⟩
  · rw [hn, e]
    simp
  · rw [hn, e]
    by_cases hk : key c' u = key c (userRefNum msg)
    · obtain ⟨rfl, rfl⟩ := key_inj hk
      rw [AList.lookup_insert, AList.lookup_eq_none.mpr hfree]
      simp [eq_comm]
    · rw [AList.lookup_insert_ne hk]
      simp only [Option.map_some, Option.toList_some, List.mem_singleton, Identity.mk.injEq]
      refine (or_iff_right ?_).symm
      rintro ⟨rfl, rfl, -⟩
      exact hk rfl

/-- The orders after any calls: those there were, and those an id was handed out for. -/
theorem Runs.numbers_iff (hr : Runs s calls s' ts) (c' : ℕ) (u : UInt32) (id : ℕ) :
    s'.Numbers c' u id ↔ ⟨c', u, id⟩ ∈ identities calls ts ∨ s.Numbers c' u id := by
  induction hr with
  | nil => exact ⟨.inr, fun h => h.resolve_left List.not_mem_nil⟩
  | cons h _ hb _ ih =>
    rw [ih, hb.numbers_iff h, identities, List.mem_append, or_left_comm, or_assoc]

/-- A message leaves a client's last UserRefNum, or it is one of its own. -/
theorem Becomes.last_from (hb : Becomes s c msg s' t) (c' : ℕ) :
    s'.lastUserRefNum c' = s.lastUserRefNum c' ∨ c = c' ∧ ownRefNum msg = some (s'.lastUserRefNum c') := by
  have hconsume : ∀ u, (s.consume c u).lastUserRefNum c' = s.lastUserRefNum c' ∨
      c = c' ∧ some u = some ((s.consume c u).lastUserRefNum c') := fun u => by
    rw [lastUserRefNum_consume]
    split
    · next e => exact .inr ⟨e.symm, rfl⟩
    · exact .inl rfl
  cases hb with
  | ignored => exact .inl rfl
  | canceling => exact .inl rfl
  | rejected => exact hconsume _
  | entered => exact hconsume _
  | replacing => exact hconsume _

theorem Runs.last_from (hr : Runs s calls s' ts) (c : ℕ) :
    s'.lastUserRefNum c = s.lastUserRefNum c ∨
      ∃ msg ∈ own c calls, ownRefNum msg = some (s'.lastUserRefNum c) := by
  induction hr with
  | nil => exact .inl rfl
  | @cons s s₁ s' c' msg t calls ts _ _ hb _ ih =>
    have hsub : own c calls ⊆ own c ((c', msg) :: calls) :=
      List.map_subset _ (List.filter_subset _ (List.subset_cons_self _ _))
    rcases ih with e | ⟨msg', hmem, hu⟩
    · rcases hb.last_from c with e' | ⟨rfl, hu⟩
      · exact .inl (e.trans e')
      · refine .inr ⟨msg, ?_, e ▸ hu⟩
        simp [own]
    · exact .inr ⟨msg', hsub hmem, hu⟩

/-- From nothing, the next id is one more than there are. -/
theorem Runs.nextOrderId_eq {band : Validation.PriceBand} (hr : Runs { band := band } calls s' ts) :
    s'.nextOrderId = (identities calls ts).length + 1 := by
  have hids := congrArg List.length hr.orderIds
  have hle : 1 ≤ s'.nextOrderId := hr.next_le
  rw [List.length_map, List.length_range'] at hids
  rw [hids]
  exact (Nat.sub_add_cancel hle).symm

theorem Runs.band_eq (hr : Runs s calls s' ts) : s'.band = s.band := by
  induction hr with
  | nil => rfl
  | cons _ _ hb _ ih => exact ih.trans hb.band_eq

/-- A message with a new UserRefNum that passes the checks is taken. -/
theorem translate_taken {known : List Identity} (h : s.Ok) (hband : s.band = Gateway.band)
    (hnext : s.nextOrderId = known.length + 1)
    (hknown : ∀ u id, s.Numbers c u id ↔ (⟨c, u, id⟩ : Identity) ∈ known) (hpass : Passes msg)
    (hnew : ∀ u, ownRefNum msg = some u → s.lastUserRefNum c < u) :
    ∃ s' t, s.translate c msg = some (s', t) ∧ Taken Gateway.band c known msg t := by
  cases msg with
  | none => exact ⟨s, {}, rfl, rfl⟩
  | enterOrder m =>
    obtain ⟨check, hcheck⟩ := hpass
    have hu : ¬ m.userRefNum ≤ s.lastUserRefNum c := UInt32.not_le.mpr (hnew _ rfl)
    refine ⟨_, _, translate_entered hu (hband ▸ hcheck), check, hcheck, ?_⟩
    rw [hnext]
  | cancelOrder m =>
    unfold translate cancel
    dsimp only
    cases ho : s.orders.lookup (key c m.userRefNum) with
    | none =>
      refine ⟨s, {}, rfl, fun id hid => ?_, fun _ => rfl⟩
      obtain ⟨o, ho', -⟩ := (hknown _ _).mpr hid
      cases ho.symm.trans ho'
    | some o =>
      obtain ⟨side, hs⟩ := Option.isSome_iff_exists.mp (h.side _ o ho)
      simp only [hs, Option.bind_eq_bind, Option.bind_some, Option.map_some]
      refine ⟨_, _, rfl, fun id hid => ⟨side, ?_⟩, fun hno => absurd ((hknown _ _).mp ⟨o, ho, rfl⟩) (hno _)⟩
      obtain ⟨o', ho', rfl⟩ := (hknown _ _).mpr hid
      cases ho.symm.trans ho'
      rfl
  | replaceOrder m =>
    unfold translate replace
    dsimp only
    cases ho : s.orders.lookup (key c m.origUserRefNum) with
    | none =>
      refine ⟨s, {}, rfl, fun id hid => ?_, fun _ => rfl⟩
      obtain ⟨o, ho', -⟩ := (hknown _ _).mpr hid
      cases ho.symm.trans ho'
    | some orig =>
      obtain ⟨side, hs⟩ := Option.isSome_iff_exists.mp (h.side _ orig ho)
      obtain ⟨check, hcheck⟩ := Option.isSome_iff_exists.mp (hpass orig.record.side)
      have hu : ¬ m.userRefNum ≤ s.lastUserRefNum c := UInt32.not_le.mpr (hnew _ rfl)
      rw [← hband] at hcheck
      simp only [if_neg hu, hs, Option.bind_eq_bind, Option.bind_some, hcheck]
      refine ⟨_, _, rfl, fun id hid => ⟨side, check, replaceRecord orig.record m, ?_⟩,
        fun hno => absurd ((hknown _ _).mp ⟨orig, ho, rfl⟩) (hno _)⟩
      obtain ⟨o', ho', rfl⟩ := (hknown _ _).mpr hid
      cases ho.symm.trans ho'
      rw [← hnext]
      rfl

end OrderEntry

/-! ## The client -/

namespace LoadClient

theorem newUserRefNums_eq (events : List ClientEvent) :
    newUserRefNums events = (messagesQueued events).filterMap ownRefNum := by
  rw [newUserRefNums, messagesQueued, List.filterMap_filterMap]
  congr 1
  funext e
  cases e with
  | queued item packet => cases item <;> rfl
  | _ => rfl

/-- UserRefNums begin with 1. -/
theorem Numbered.pos {refs : List UInt32} {next : UInt32} (h : Numbered refs next) (hlen : refs.length < 2 ^ 32) :
    ∀ u ∈ refs, 0 < u := by
  obtain ⟨n, rfl, -⟩ := h
  rw [List.length_map, List.length_range] at hlen
  intro u hu
  obtain ⟨i, hi, rfl⟩ := List.mem_map.mp hu
  have hi := List.mem_range.mp hi
  have hsize : UInt32.size = 2 ^ 32 := rfl
  rw [UInt32.lt_iff_toNat_lt, UInt32.toNat_ofNat_of_lt' (by omega)]
  exact Nat.succ_pos i

end LoadClient

/-! ## A client and order entry -/

/-- However often a client of the load generator connects, whatever is lost with a connection and
whatever other clients send in between: when `translate` gets a message of the client, after
others of them in the order they were queued, it takes it. Each Enter is a NEW order, with the
next id. A Cancel or a Replace is a request about the order of the UserRefNum it names, if an id
was handed out for that, and else it is dropped. None is rejected, and none is taken for one that
was sent before. -/
theorem client_orders_enter (numClients interArrivalNs n : ℕ) (k : Kernel) (c : LoadClient)
    (hc : c ∈ ((LoadGenerator.new numClients interArrivalNs).run n k).1.clients)
    (hfew : (newUserRefNums (eventsLogged c.log)).length < 2 ^ 32) (session : ℕ)
    (calls : List (ℕ × OuchInboundFrame)) (msg : OuchInboundFrame)
    (hqueued : (own session calls ++ [msg]).Sublist (messagesQueued (eventsLogged c.log))) :
    ∃ s ts s' t, OrderEntry.translateAll { band := Gateway.band } calls = some (s, ts) ∧
      s.translate session msg = some (s', t) ∧ Taken Gateway.band session (identities calls ts) msg t := by
  obtain ⟨time, hr, -⟩ := LoadGenerator.run_reached n numClients interArrivalNs k c hc
  obtain ⟨s, ts, hruns⟩ := (OrderEntry.Ok.new Gateway.band).runs calls
  have hrefs : ((own session calls ++ [msg]).filterMap ownRefNum).Sublist (newUserRefNums c.events) := by
    rw [LoadClient.newUserRefNums_eq]
    exact hqueued.filterMap ownRefNum
  have hincreasing := (hr.outgoing.numbered.increasing hfew).sublist hrefs
  have hpos := hr.outgoing.numbered.pos hfew
  have hmem := hqueued.subset (List.mem_append_right _ List.mem_cons_self)
  have hpass : Passes msg := LoadClient.passes_of_genuine hr.genuine msg hmem
  have hknown : ∀ u id, s.Numbers session u id ↔ ⟨session, u, id⟩ ∈ identities calls ts := fun u id => by
    rw [hruns.numbers_iff]
    refine or_iff_left ?_
    rintro ⟨o, ho, -⟩
    cases ho
  -- the client's last UserRefNum is 0, or that of a message before this one
  have hnew : ∀ u, ownRefNum msg = some u → s.lastUserRefNum session < u := by
    intro u hu
    rw [List.filterMap_append, List.filterMap_cons_some hu, List.filterMap_nil] at hincreasing hrefs
    rcases hruns.last_from session with e | ⟨msg', hmem, hu'⟩
    · rw [e]
      exact hpos u (hrefs.subset (List.mem_append_right _ List.mem_cons_self))
    · have hbefore := (List.pairwise_append.mp hincreasing).2.2
      exact hbefore _ (List.mem_filterMap.mpr ⟨msg', hmem, hu'⟩) u List.mem_cons_self
  obtain ⟨s', t, ht, htaken⟩ :=
    OrderEntry.translate_taken hruns.ok.2 hruns.band_eq hruns.nextOrderId_eq hknown hpass hnew
  exact ⟨s, ts, s', t, hruns.eq, ht, htaken⟩

/-- A client logs in and sends two Enters, the first is accepted, and it sends a Replace for it and a
Cancel, for which it knows no other order. The connection ends, and the client logs in again and
sends two more Enters. -/
def LoadGenerator.changing : Kernel where
  clock i := i * 1000000000
  clock_mono := monotone_seconds
  epollWait
    | 0 | 4 => .ready [(0, { output := true })]
    | _ => .ready [(0, { input := true })]
  send _ := .sent WriteBuffer.writeBufBytes
  recv
    | 0 => .bytes (Outbound.loginAcceptedPacket 1)
    | 1 => .bytes LoadGenerator.firstAccepted
    | 2 => .bytes []
    | _ => .bytes (Outbound.loginAcceptedPacket 2)
  draw
    | 2 => { roll := 5 }
    | 3 => { roll := 15 }
    | _ => {}

/-- The server gets an Enter of another client and then the messages of `changing` without the second
Enter: the Replace is taken, and so is the first Enter of the second connection. -/
theorem client_orders_enter_changing :
    ∃ c ∈ ((LoadGenerator.new 1 4).run 6 LoadGenerator.changing).1.clients, ∃ enter lost replace cancel enter' last,
      messagesQueued (eventsLogged c.log) = [enter, lost, replace, cancel, enter', last] ∧
      targetRef replace = some 1 ∧ ownRefNum replace = some 3 ∧ targetRef cancel = some 0 ∧ ownRefNum enter' = some 4 ∧
      (∃ s ts s' t, OrderEntry.translateAll { band := Gateway.band } [(2, enter), (1, enter)] = some (s, ts) ∧
        s.translate 1 replace = some (s', t) ∧
        Taken Gateway.band 1 (identities [(2, enter), (1, enter)] ts) replace t) ∧
      ∃ s ts s' t, OrderEntry.translateAll { band := Gateway.band }
          [(2, enter), (1, enter), (1, replace), (1, cancel)] = some (s, ts) ∧
        s.translate 1 enter' = some (s', t) ∧
        Taken Gateway.band 1 (identities [(2, enter), (1, enter), (1, replace), (1, cancel)] ts) enter' t := by
  have hrun : ∃ c ∈ ((LoadGenerator.new 1 4).run 6 LoadGenerator.changing).1.clients,
      (messagesQueued (eventsLogged c.log)).map (fun msg => (targetRef msg, ownRefNum msg)) =
        [(none, some 1), (none, some 2), (some 1, some 3), (some 0, none), (none, some 4), (none, some 5)] ∧
      (newUserRefNums (eventsLogged c.log)).length < 2 ^ 32 := by
    decide +kernel
  obtain ⟨c, hc, hmessages, hfew⟩ := hrun
  simp only [List.map_eq_cons_iff, List.map_eq_nil_iff, Prod.mk.injEq] at hmessages
  obtain ⟨enter, _, hqueued, -, lost, _, rfl, -, replace, _, rfl, ⟨htarget, hown⟩, cancel, _, rfl, ⟨htarget', -⟩,
    enter', _, rfl, ⟨-, hown'⟩, last, _, rfl, -, rfl⟩ := hmessages
  have htaken := client_orders_enter 1 4 6 LoadGenerator.changing c hc hfew 1
  rw [hqueued] at htaken
  refine ⟨c, hc, enter, lost, replace, cancel, enter', last, hqueued, htarget, hown, htarget', hown',
    htaken _ replace ?_, htaken _ enter' ?_⟩
  · exact ((List.nil_sublist _).cons_cons replace |>.cons lost).cons_cons enter
  · exact ((((List.nil_sublist _).cons_cons enter').cons_cons cancel).cons_cons replace |>.cons lost).cons_cons enter

end Exchange
