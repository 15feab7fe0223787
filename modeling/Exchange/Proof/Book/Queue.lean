import Exchange.Spec.Queue
import Exchange.Proof.Book.Invariant

/-!
# The reference book's sides as queues

A queue sorts a side of the book (`Sorts`) if it has the same orders at each price, in the same
order, and no order behind a worse one. Its front is then the order an incoming order trades
with, so trading with the best order again and again is one sweep of the queue (`fills_sweep`);
and every request keeps the two accounts together (`Queued.process`), so any run does
(`Queued.steps`).
-/

namespace Exchange.Spec

open Queue (sweep enqueue)

/-- The queue `q` is the orders `l` of a side, sorted. -/
structure Sorts (s : Side) (l q : List Resting) : Prop where
  sorted : q.Pairwise fun r r' => s.better r'.price r.price = false
  level : ∀ p, q.filter (·.price == p) = l.filter (·.price == p)

namespace Sorts

variable {s : Side} {l q : List Resting}

theorem nil : Sorts s [] [] := ⟨.nil, fun _ => rfl⟩

theorem perm (h : Sorts s l q) : q.Perm l := by
  refine List.perm_iff_count.mpr fun r => ?_
  have hcount : ∀ l : List Resting, l.count r = (l.filter (·.price == r.price)).count r := fun l =>
    (List.count_filter (by simp)).symm
  rw [hcount, hcount l, h.level]

/-- The front of the queue is the order to trade with. -/
theorem head (h : Sorts s l q) : best s l = q.head? := by
  cases q with
  | nil => rw [← h.perm.nil_eq]; exact best_eq_none.mpr rfl
  | cons r q =>
    refine best_of_level (p := r.price) (fun r' hr' => ?_) ?_
    · rcases List.mem_cons.mp (h.perm.mem_iff.mpr hr') with rfl | hr'
      · cases s <;> simp [Side.better]
      · exact (List.pairwise_cons.mp h.sorted).1 r' hr'
    · rw [← h.level, List.filter_cons_of_pos (by simp)]
      rfl

/-- Orders that leave or change, at the prices they have. -/
theorem filterMap (h : Sorts s l q) {f : Resting → Option Resting} (hf : ∀ r r', f r = some r' → r'.price = r.price) :
    Sorts s (l.filterMap f) (q.filterMap f) where
  sorted := h.sorted.filterMap f fun r r' hr a ha a' ha' => by rwa [hf r a ha, hf r' a' ha']
  level p := by
    rw [List.filter_filterMap_comm fun r _ r' e => by rw [hf r r' e],
      List.filter_filterMap_comm fun r _ r' e => by rw [hf r r' e], h.level]

end Sorts

/-! ## Joining the queue -/

variable {s : Side}

theorem better_trans {p p' p'' : ℕ} (h : s.better p' p = false) (h' : s.better p'' p' = false) :
    s.better p'' p = false := by
  cases s <;> simp only [Side.better, decide_eq_false_iff_not] at * <;> omega

theorem better_asymm {p p' : ℕ} (h : s.better p p' = true) : s.better p' p = false := by
  cases s <;> simp only [Side.better, decide_eq_false_iff_not, decide_eq_true_eq] at * <;> omega

theorem better_irrefl (s : Side) (p : ℕ) : s.better p p = false := by
  cases s <;> simp [Side.better]

theorem enqueue_cons (r r' : Resting) (q : List Resting) :
    enqueue s r (r' :: q) = if s.better r.price r'.price then r :: r' :: q else r' :: enqueue s r q := rfl

theorem perm_enqueue (r : Resting) (q : List Resting) : (enqueue s r q).Perm (r :: q) :=
  List.perm_orderedInsert _ r q

theorem sorted_enqueue (r : Resting) {q : List Resting}
    (h : q.Pairwise fun r r' => s.better r'.price r.price = false) :
    (enqueue s r q).Pairwise fun r r' => s.better r'.price r.price = false := by
  induction q with
  | nil => exact List.pairwise_singleton ..
  | cons r' q ih =>
    obtain ⟨hr', hq⟩ := List.pairwise_cons.mp h
    rw [enqueue_cons]
    split
    · next hb =>
      refine List.pairwise_cons.mpr ⟨fun a ha => ?_, h⟩
      rcases List.mem_cons.mp ha with rfl | ha
      · exact better_asymm hb
      · exact better_trans (better_asymm hb) (hr' a ha)
    · next hb =>
      refine List.pairwise_cons.mpr ⟨fun a ha => ?_, ih hq⟩
      rcases List.mem_cons.mp ((perm_enqueue r q).mem_iff.mp ha) with rfl | ha
      · exact Bool.eq_false_iff.mpr hb
      · exact hr' a ha

/-- It is the last at its price. -/
theorem level_enqueue (r : Resting) {q : List Resting}
    (h : q.Pairwise fun r r' => s.better r'.price r.price = false) (p : ℕ) :
    (enqueue s r q).filter (·.price == p) = (q ++ [r]).filter (·.price == p) := by
  induction q with
  | nil => rfl
  | cons r' q ih =>
    rw [enqueue_cons, List.cons_append]
    split
    · next hb =>
      -- everything behind `r` is at a worse price
      have hworse : ∀ a ∈ r' :: q, a.price ≠ r.price := fun a ha e => by
        rcases List.mem_cons.mp ha with rfl | ha
        · rw [e, better_irrefl] at hb
          exact absurd hb Bool.false_ne_true
        · rw [← e, (List.pairwise_cons.mp h).1 a ha] at hb
          exact absurd hb Bool.false_ne_true
      rw [← List.cons_append, List.filter_append]
      by_cases hp : r.price = p
      · have hnil : (r' :: q).filter (·.price == p) = [] :=
          List.filter_eq_nil_iff.mpr fun a ha => by simpa [hp] using hworse a ha
        rw [List.filter_cons_of_pos (by simpa using hp), hnil, List.filter_cons_of_pos (by simpa using hp)]
        rfl
      · have hnil : [r].filter (·.price == p) = [] := List.filter_cons_of_neg (by simpa using hp)
        rw [List.filter_cons_of_neg (by simpa using hp), hnil, List.append_nil]
    · rw [List.filter_cons, List.filter_cons, ih (List.pairwise_cons.mp h).2]

theorem Sorts.enqueue {l q : List Resting} (h : Sorts s l q) (r : Resting) : Sorts s (l ++ [r]) (enqueue s r q) where
  sorted := sorted_enqueue r h.sorted
  level p := by rw [level_enqueue r h.sorted, List.filter_append, List.filter_append, h.level]

/-! ## Sweeping the queue -/

/-- Trading with the order at the front. -/
theorem Sorts.execute {l q : List Resting} {r : Resting} (h : Sorts s l (r :: q)) (hid : (l.map (·.id)).Nodup) (n : ℕ) :
    Sorts s (execute l r n) (if n < r.openQuantity then r.trade n :: q else q) := by
  have hother : ∀ r' ∈ q, r'.id ≠ r.id := fun r' hr' e => by
    have hq := (h.perm.map (·.id)).nodup_iff.mpr hid
    exact (List.nodup_cons.mp hq).1 (List.mem_map.mpr ⟨r', hr', e⟩)
  have hf := h.filterMap (f := executeOne r n) fun a a' e => by
    unfold executeOne at e
    split_ifs at e <;> cases e <;> rfl
  have hsame : ∀ r' ∈ q, executeOne r n r' = some r' := fun r' hr' => if_neg (hother r' hr')
  have hq : q.filterMap (executeOne r n) = q := by rw [List.filterMap_congr (g := some) hsame, List.filterMap_some]
  rw [execute_eq_filterMap]
  convert hf using 1
  rw [List.filterMap_cons, hq]
  by_cases hn : n < r.openQuantity <;> simp [executeOne, hn]

/-- Trading with the best order again and again is one sweep of the queue. -/
theorem fills_sweep {side : Side} {limit : Option ℕ} {l q : List Resting} {fuel : ℕ} (h : Sorts side.opposite l q)
    (hid : (l.map (·.id)).Nodup) (hfuel : l.length ≤ fuel) (quantity : ℕ) :
    (fills side limit fuel quantity l).1 = (sweep side limit quantity q).1 ∧
      Sorts side.opposite (fills side limit fuel quantity l).2 (sweep side limit quantity q).2 := by
  induction q generalizing l fuel quantity with
  | nil =>
    have hnone : best side.opposite l = none := h.head
    cases fuel with
    | zero => exact ⟨rfl, h⟩
    | succ fuel => simpa only [fills, hnone, sweep, true_and] using h
  | cons r q ih =>
    obtain ⟨fuel, rfl⟩ : ∃ k, fuel = k + 1 := by
      rw [← h.perm.length_eq, List.length_cons] at hfuel
      exact ⟨fuel - 1, by omega⟩
    have hbest : best side.opposite l = some r := h.head
    simp only [fills, hbest, sweep]
    by_cases hstop : quantity = 0 ∨ allows side limit r.price = false
    · have hc : ¬ (0 < quantity ∧ allows side limit r.price = true) := by
        rcases hstop with e | e <;> simp [e]
      rw [if_neg hc, if_pos hstop]
      exact ⟨rfl, h⟩
    · obtain ⟨hq, ha⟩ := not_or.mp hstop
      rw [if_pos ⟨Nat.pos_of_ne_zero hq, by simpa using ha⟩, if_neg hstop]
      have hex := h.execute hid (min quantity r.openQuantity)
      by_cases hlt : quantity < r.openQuantity
      · rw [Nat.min_eq_left hlt.le, if_pos hlt] at hex
        rw [Nat.min_eq_left hlt.le, Nat.sub_self, fills_zero, if_pos hlt]
        exact ⟨rfl, hex⟩
      · rw [Nat.min_eq_right (Nat.le_of_not_lt hlt), if_neg (Nat.lt_irrefl _)] at hex
        rw [Nat.min_eq_right (Nat.le_of_not_lt hlt), if_neg hlt]
        have hid' := (hex.perm.map (·.id)).nodup_iff.mp
          (List.nodup_cons.mp ((h.perm.map (·.id)).nodup_iff.mpr hid)).2
        have hlen : (execute l r r.openQuantity).length ≤ fuel := by
          rw [← hex.perm.length_eq]
          rw [← h.perm.length_eq, List.length_cons] at hfuel
          omega
        obtain ⟨hfs, hleft⟩ := ih hex hid' hlen (quantity - r.openQuantity)
        exact ⟨by rw [hfs], hleft⟩

theorem available_cons {side : Side} {limit : Option ℕ} {r : Resting} (h : ¬ allows side limit r.price = false)
    (q : List Resting) : Queue.available side limit (r :: q) = r.openQuantity + Queue.available side limit q := by
  simp only [Queue.available, List.filter_cons, Bool.eq_true_of_not_eq_false h, if_true, List.map_cons, List.sum_cons]

/-- An incoming order gets what there is for it, up to its quantity. -/
theorem filled_sweep {side : Side} {limit : Option ℕ} {q : List Resting}
    (h : q.Pairwise fun r r' => side.opposite.better r'.price r.price = false) (quantity : ℕ) :
    filled (sweep side limit quantity q).1 = min quantity (Queue.available side limit q) := by
  induction q generalizing quantity with
  | nil => simp [sweep, filled, Queue.available]
  | cons r q ih =>
    obtain ⟨hr, hq⟩ := List.pairwise_cons.mp h
    rw [sweep]
    split_ifs with hstop hlt
    · rcases hstop with rfl | ha
      · exact (Nat.zero_min _).symm
      · -- what the front does not allow, no order behind it does
        have hnil : (r :: q).filter (fun r => allows side limit r.price) = [] := by
          refine List.filter_eq_nil_iff.mpr fun r' hr' ha' => ?_
          rcases List.mem_cons.mp hr' with rfl | hr'
          · exact absurd (ha.symm.trans ha') Bool.false_ne_true
          · exact absurd (ha.symm.trans (allows_of_not_better (hr r' hr') ha')) Bool.false_ne_true
        rw [Queue.available, hnil]
        exact (Nat.min_zero _).symm
    · rw [available_cons (not_or.mp hstop).2]
      simp only [filled, List.map_cons, List.map_nil, List.sum_cons, List.sum_nil]
      omega
    · rw [available_cons (not_or.mp hstop).2]
      have hi := ih hq (quantity - r.openQuantity)
      simp only [filled] at hi
      simp only [filled, List.map_cons, List.sum_cons, hi]
      omega

/-- What it gets is gone. -/
theorem available_sweep (side : Side) (limit : Option ℕ) (quantity : ℕ) (q : List Resting) :
    filled (sweep side limit quantity q).1 + Queue.available side limit (sweep side limit quantity q).2 =
      Queue.available side limit q := by
  induction q generalizing quantity with
  | nil => rfl
  | cons r q ih =>
    rw [sweep]
    split_ifs with hstop hlt
    · exact Nat.zero_add _
    · have hcut : (r.trade quantity).openQuantity = r.openQuantity - quantity := rfl
      rw [available_cons (not_or.mp hstop).2, available_cons (r := r.trade quantity) (not_or.mp hstop).2]
      simp only [filled, List.map_cons, List.map_nil, List.sum_cons, List.sum_nil, hcut]
      omega
    · have hi := ih (quantity - r.openQuantity)
      simp only [filled] at hi
      rw [available_cons (not_or.mp hstop).2]
      simp only [filled, List.map_cons, List.sum_cons]
      omega

theorem sharesTaken_tradeEvents (id clientId k : ℕ) (fs : List (Resting × ℕ)) :
    Queue.sharesTaken (tradeEvents id clientId k fs) = filled fs := by
  induction fs generalizing k with
  | nil => rfl
  | cons f fs ih =>
    have hi := ih (k + 1)
    simp only [Queue.sharesTaken, taken, filled] at hi ⊢
    simp [tradeEvents, hi]

theorem sharesTaken_append (es es' : List Event) :
    Queue.sharesTaken (es ++ es') = Queue.sharesTaken es + Queue.sharesTaken es' := by
  simp [Queue.sharesTaken, taken]

theorem sharesTaken_events (i : Incoming) (b : Book) : Queue.sharesTaken (i.events b) = filled (i.trades b).1 := by
  rw [Incoming.events, sharesTaken_append, sharesTaken_tradeEvents]
  split_ifs <;> rfl

/-- An incoming order changes the other side by its trades only. -/
theorem side_arrive (i : Incoming) (b : Book) :
    (Queue.arrive i b).side i.side.opposite = (Queue.trades i b).2 := by
  unfold Queue.arrive
  split_ifs
  · rw [Book.side_setSide_of_ne _ _ i.side.opposite_ne]
    exact Book.side_setSide_self ..
  · exact Book.side_setSide_self ..

/-! ## Requests -/

/-- Ids being unique, what is found under one does not depend on the order. -/
theorem find?_perm {l l' : List Resting} (h : l.Perm l') (hid : (l'.map (·.id)).Nodup) (id : ℕ) :
    l.find? (·.id == id) = l'.find? (·.id == id) := by
  cases hf : l.find? (·.id == id) with
  | none =>
    refine (List.find?_eq_none.mpr fun r hr => ?_).symm
    exact List.find?_eq_none.mp hf r (h.mem_iff.mpr hr)
  | some o =>
    have ho := h.mem_iff.mp (List.mem_of_find?_eq_some hf)
    cases hf' : l'.find? (·.id == id) with
    | none => exact absurd (List.find?_some hf) (List.find?_eq_none.mp hf' o ho)
    | some o' =>
      have e : o.id = id := by simpa using List.find?_some hf
      have e' : o'.id = id := by simpa using List.find?_some hf'
      rw [List.inj_on_of_nodup_map hid ho (List.mem_of_find?_eq_some hf') (e.trans e'.symm)]

/-- The sides of `Q` are those of the book `A` as queues. -/
structure Queued (A Q : Book) : Prop where
  side : ∀ s, Sorts s (A.side s) (Q.side s)
  next : Q.nextMatchNumber = A.nextMatchNumber

namespace Queued

variable {A Q : Book} {req : EngineRequest}

theorem new : Queued {} {} := ⟨fun s => by cases s <;> exact .nil, rfl⟩

theorem orders_perm (h : Queued A Q) : Q.orders.Perm A.orders := (h.side .bid).perm.append (h.side .ask).perm

theorem mem_ids (h : Queued A Q) {id : ℕ} : id ∈ Q.ids ↔ id ∈ A.ids := (h.orders_perm.map _).mem_iff

theorem find?_eq (h : Queued A Q) (hA : A.WF) (id : ℕ) : Q.find? id = A.find? id := find?_perm h.orders_perm hA.nodup id

theorem update (h : Queued A Q) {f : Resting → Option Resting} (hf : ∀ r r', f r = some r' → r'.price = r.price) :
    Queued (A.update f) (Q.update f) where
  side s := by rw [Book.side_update, Book.side_update]; exact (h.side s).filterMap hf
  next := h.next

theorem remove (h : Queued A Q) (id : ℕ) : Queued (A.remove id) (Q.remove id) := by
  rw [Book.remove_eq_update, Book.remove_eq_update]
  refine h.update fun r r' e => ?_
  split_ifs at e
  cases e
  rfl

theorem reduce (h : Queued A Q) (id n : ℕ) : Queued (A.reduce id n) (Q.reduce id n) := by
  rw [Book.reduce_eq_update, Book.reduce_eq_update]
  refine h.update fun r r' e => ?_
  obtain rfl := Option.some.inj e
  split_ifs <;> rfl

theorem numbered (h : Queued A Q) (k : ℕ) : Queued (A.numbered k) (Q.numbered k) := ⟨h.side, rfl⟩

theorem setSide (h : Queued A Q) {s : Side} {l q : List Resting} (hs : Sorts s l q) :
    Queued (A.setSide l s) (Q.setSide q s) where
  side s' := by
    by_cases e : s' = s
    · subst e
      rw [Book.side_setSide_self, Book.side_setSide_self]
      exact hs
    · rw [Book.side_setSide_of_ne _ _ e, Book.side_setSide_of_ne _ _ e]
      exact h.side s'
  next := by rw [Book.setSide_nextMatchNumber, Book.setSide_nextMatchNumber, h.next]

theorem trades_eq (h : Queued A Q) (hA : A.WF) (i : Incoming) :
    (i.trades A).1 = (Queue.trades i Q).1 ∧ Sorts i.side.opposite (i.trades A).2 (Queue.trades i Q).2 :=
  fills_sweep (h.side i.side.opposite) (hA.side_nodup _) le_rfl i.quantity

theorem remaining_eq (h : Queued A Q) (hA : A.WF) (i : Incoming) : i.remaining A = Queue.remaining i Q := by
  rw [Incoming.remaining, (h.trades_eq hA i).1, Queue.remaining]

theorem traded (h : Queued A Q) (hA : A.WF) (i : Incoming) : Queued (i.traded A) (Queue.traded i Q) := by
  obtain ⟨hfs, hleft⟩ := h.trades_eq hA i
  rw [Queue.traded, h.next, ← hfs]
  exact (h.setSide hleft).numbered _

/-- An incoming order leaves queues. -/
theorem arrive (h : Queued A Q) (hA : A.WF) (i : Incoming) : Queued (i.book A) (Queue.arrive i Q) := by
  have hrest : i.resting A = Queue.resting i Q := by
    rw [Incoming.resting, h.remaining_eq hA, (h.trades_eq hA i).1, Queue.resting]
  have hown : (i.traded A).side i.side = A.side i.side := Book.side_setSide_of_ne _ _ i.side.opposite_ne.symm
  unfold Incoming.book Incoming.comesToRest Queue.arrive
  rw [h.remaining_eq hA, hrest, hown]
  split_ifs
  · exact (h.traded hA i).setSide ((h.side i.side).enqueue _)
  · exact h.traded hA i

theorem filled_eq (h : Queued A Q) (hA : A.WF) (i : Incoming) :
    filled (i.trades A).1 = min i.quantity (Queue.available i.side i.limit (Q.side i.side.opposite)) := by
  rw [(h.trades_eq hA i).1, Queue.trades, filled_sweep (h.side _).sorted]

/-- It causes the same events. -/
theorem events_eq (h : Queued A Q) (hA : A.WF) (i : Incoming) : i.events A = Queue.events i Q := by
  rw [Incoming.events, (h.trades_eq hA i).1, h.remaining_eq hA, ← h.next, Queue.events]

theorem itch_eq (h : Queued A Q) (hA : A.WF) (i : Incoming) : i.itch A = Queue.itch i Q := by
  rw [Incoming.itch, Incoming.add, Incoming.comesToRest, (h.trades_eq hA i).1, h.remaining_eq hA, ← h.next, Queue.itch]

end Queued

/-- The steps of the two accounts agree. -/
structure SameStep (s t : Step) : Prop where
  handled : s.handled = t.handled
  events : s.events = t.events
  itch : s.itch = t.itch
  book : Queued s.book t.book

namespace Queued

variable {A Q : Book} {req : EngineRequest}

theorem ignored (h : Queued A Q) : SameStep (ignored A) (ignored Q) := ⟨rfl, rfl, rfl, h⟩

theorem cancelAll (h : Queued A Q) (o : Resting) : SameStep (cancelAll A o) (cancelAll Q o) :=
  ⟨rfl, rfl, rfl, h.remove o.id⟩

theorem enter (h : Queued A Q) (hA : A.WF) (capacity : ℕ) :
    SameStep (enter capacity A req) (Queue.enter capacity Q req) := by
  simp only [Spec.enter, Queue.enter, h.mem_ids, h.orders_perm.length_eq]
  split_ifs
  · exact h.ignored
  · exact ⟨rfl, rfl, rfl, h⟩
  · exact ⟨rfl, congrArg (_ :: ·) (h.events_eq hA _), h.itch_eq hA _, h.arrive hA _⟩

theorem cancel (h : Queued A Q) (hA : A.WF) : SameStep (cancel A req) (cancel Q req) := by
  simp only [Spec.cancel, h.find?_eq hA]
  cases A.find? req.orderId with
  | none => exact h.ignored
  | some o =>
    dsimp only
    split_ifs
    · exact h.ignored
    · exact h.cancelAll o
    · exact ⟨rfl, rfl, rfl, h.reduce _ _⟩

theorem replace (h : Queued A Q) (hA : A.WF) : SameStep (replace A req) (Queue.replace Q req) := by
  simp only [Spec.replace, Queue.replace, h.find?_eq hA, h.mem_ids]
  cases A.find? req.orderId with
  | none => exact h.ignored
  | some o =>
    have hr := h.remove o.id
    have hA' := hA.remove o.id
    simp only [(hr.trades_eq hA' _).1, hr.itch_eq hA', hr.events_eq hA']
    split_ifs
    · exact h.ignored
    · exact h.cancelAll o
    · exact ⟨rfl, rfl, rfl, hr.arrive hA' _⟩
    · exact ⟨rfl, rfl, rfl, hr.arrive hA' _⟩

/-- Every request does the same to both. -/
theorem process (h : Queued A Q) (hA : A.WF) (capacity : ℕ) (req : EngineRequest) :
    SameStep (process capacity A req) (Queue.process capacity Q req) := by
  have hh : SameStep (handle capacity A req) (Queue.handle capacity Q req) := by
    unfold handle Queue.handle
    cases req.type with
    | new => exact h.enter hA capacity
    | cancel => exact h.cancel hA
    | replace => exact h.replace hA
  exact ⟨hh.handled, congrArg flagFirst hh.events, hh.itch, hh.book⟩

/-- And so does every run. -/
theorem steps (h : Queued A Q) (hA : A.WF) (capacity : ℕ) {reqs : List EngineRequest} (hp : ∀ req ∈ reqs, PriceOk req) :
    let s := steps capacity A reqs
    let t := Queue.steps capacity Q reqs
    s.map (·.handled) = t.map (·.handled) ∧ s.flatMap (·.events) = t.flatMap (·.events) ∧
      s.flatMap (·.itch) = t.flatMap (·.itch) ∧ Queued (after capacity A reqs) (Queue.after capacity Q reqs) := by
  induction reqs generalizing A Q with
  | nil => exact ⟨rfl, rfl, rfl, h⟩
  | cons req reqs ih =>
    have hs := h.process hA capacity req
    obtain ⟨hhandled, hevents, hitch, hafter⟩ := ih hs.book (process_wf capacity hA (hp req List.mem_cons_self))
      fun req' hr => hp req' (List.mem_cons_of_mem _ hr)
    simp only [Spec.steps, Queue.steps, List.map_cons, List.flatMap_cons]
    exact ⟨by rw [hs.handled, hhandled], by rw [hs.events, hevents], by rw [hs.itch, hitch], hafter⟩

end Queued

end Exchange.Spec
