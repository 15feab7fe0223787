import Exchange.Proof.Book.Invariant
import Exchange.Spec.Feed

/-!
# The feed reconstructs the book

`Shows f b`: the subscriber's book `f` displays the orders of `b`, side by side in
arrival order. Each message of a request applies and takes a book that shows the one
before to a book that shows the one after (`handle_brings`, `steps_brings`).
-/

namespace Exchange.Spec

/-- How the feed displays a resting order. -/
def display (r : Resting) : Displayed where
  orderReferenceNumber := r.id
  side := toOuchSide r.side
  shares := r.openQuantity
  price := toItchPrice r.price

theorem toOuchSide_inj {s s' : Side} : toOuchSide s = toOuchSide s' ↔ s = s' := by
  cases s <;> cases s' <;> decide

/-- The feed displays the orders of the book. -/
structure Shows (f : Feed) (b : Book) : Prop where
  side : ∀ s, f.filter (·.side == toOuchSide s) = (b.side s).map display
  some_side : ∀ d ∈ f, ∃ s, d.side = toOuchSide s

namespace Shows

variable {f : Feed} {b : Book}

theorem new : Shows [] {} := ⟨fun s => by cases s <;> rfl, fun _ hd => by cases hd⟩

theorem congr (h : Shows f b) {b' : Book} (hs : ∀ s, b'.side s = b.side s) : Shows f b' :=
  ⟨fun s => by rw [hs, h.side], h.some_side⟩

theorem mem_iff (h : Shows f b) {d : Displayed} : d ∈ f ↔ ∃ r ∈ b.orders, display r = d := by
  constructor
  · intro hd
    obtain ⟨s, hs⟩ := h.some_side d hd
    have hm : d ∈ f.filter (·.side == toOuchSide s) := List.mem_filter.mpr ⟨hd, by simp [hs]⟩
    rw [h.side] at hm
    obtain ⟨r, hr, e⟩ := List.mem_map.mp hm
    exact ⟨r, Book.mem_orders.mpr ⟨s, hr⟩, e⟩
  · rintro ⟨r, hr, rfl⟩
    obtain ⟨s, hs⟩ := Book.mem_orders.mp hr
    have hm : display r ∈ f.filter (·.side == toOuchSide s) := by
      rw [h.side]; exact List.mem_map.mpr ⟨r, hs, rfl⟩
    exact (List.mem_filter.mp hm).1

theorem find_eq (h : Shows f b) (hb : b.WF) {r : Resting} (hr : r ∈ b.orders) :
    f.find r.id = some (display r) := by
  cases hf : f.find r.id with
  | none =>
    have := List.find?_eq_none.mp hf (display r) (h.mem_iff.mpr ⟨r, hr, rfl⟩)
    exact absurd (beq_self_eq_true r.id) this
  | some d =>
    obtain ⟨r', hr', rfl⟩ := h.mem_iff.mp (List.mem_of_find?_eq_some hf)
    have hid : r'.id = r.id := by simpa [display] using List.find?_some hf
    rw [hb.eq_of_id hr' hr hid]

theorem find_eq_none (h : Shows f b) {id : ℕ} (hid : id ∉ b.ids) : f.find id = none := by
  refine List.find?_eq_none.mpr fun d hd e => hid ?_
  obtain ⟨r, hr, rfl⟩ := h.mem_iff.mp hd
  exact Book.mem_ids.mpr ⟨r, hr, by simpa [display] using e⟩

/-! ## Changing the book -/

theorem update (h : Shows f b) {g : Displayed → Option Displayed} {φ : Resting → Option Resting}
    (hg : ∀ d ∈ f, ∀ d', g d = some d' → d'.side = d.side)
    (hφ : ∀ r ∈ b.orders, g (display r) = (φ r).map display) : Shows (f.filterMap g) (b.update φ) where
  side s := by
    have hp : ∀ d ∈ f, ∀ d', g d = some d' → (d'.side == toOuchSide s) = (d.side == toOuchSide s) :=
      fun d hd d' e => by rw [hg d hd d' e]
    rw [List.filter_filterMap_comm hp, h.side, Book.side_update, List.filterMap_map, List.map_filterMap]
    exact List.filterMap_congr fun r hr => hφ r (Book.mem_orders.mpr ⟨s, hr⟩)
  some_side d' hd' := by
    obtain ⟨d, hd, e⟩ := List.mem_filterMap.mp hd'
    rw [hg d hd d' e]
    exact h.some_side d hd

theorem append (h : Shows f b) (r : Resting) : Shows (f ++ [display r]) (b.append r) where
  side s := by
    rw [List.filter_append, h.side]
    by_cases e : s = r.side
    · subst e
      rw [Book.append, Book.side_setSide_self, List.map_append]
      simp [display]
    · have e' : ¬ toOuchSide r.side = toOuchSide s := fun h => e (toOuchSide_inj.mp h).symm
      rw [Book.append, Book.side_setSide_of_ne _ _ e]
      simp [display, e']
  some_side d hd := by
    rcases List.mem_append.mp hd with hd | hd
    · exact h.some_side d hd
    · rw [List.mem_singleton.mp hd]; exact ⟨r.side, rfl⟩

theorem delete (h : Shows f b) (id : ℕ) : Shows (f.delete id) (b.remove id) := by
  rw [Book.remove_eq_update, Feed.delete, ← List.filterMap_eq_filter]
  refine h.update (fun d _ d' e => ?_) fun r _ => ?_
  · rw [Option.guard_eq_some_iff.mp e |>.1]
  · by_cases e : r.id = id <;> simp [Option.guard, display, e]

/-- Shares taken off one order, `n` of them. -/
theorem subtract (h : Shows f b) (hb : b.WF) {r : Resting} (hr : r ∈ b.orders) {n : ℕ}
    {φ : Resting → Option Resting} (hφ : (φ r).map display =
      if r.openQuantity - n = 0 then none else some { display r with shares := r.openQuantity - n })
    (hne : ∀ r' ∈ b.orders, r'.id ≠ r.id → φ r' = some r') : Shows (f.subtract r.id n) (b.update φ) := by
  refine h.update (fun d _ d' e => ?_) fun r' hr' => ?_
  · split_ifs at e
    · rw [← Option.some.inj e]
    · rw [← Option.some.inj e]
  · by_cases e : r'.id = r.id
    · obtain rfl := hb.eq_of_id hr' hr e
      rw [hφ]
      exact if_pos rfl
    · rw [hne r' hr' e]
      exact if_neg e

/-! ## The messages -/

theorem apply_executed (h : Shows f b) (hb : b.WF) {r : Resting} (hr : r ∈ b.orders) {n : ℕ}
    (hn : n ≤ r.openQuantity) (k : ℕ) :
    ∃ f', f.apply (.orderExecuted r.id n k) = some f' ∧ Shows f' (b.trade r n) := by
  refine ⟨f.subtract r.id n, ?_, ?_⟩
  · simp only [Feed.apply, h.find_eq hb hr, Option.bind_eq_bind, Option.bind_some]
    exact if_pos hn
  · rw [Book.trade_eq_update hb hr]
    refine (h.subtract hb hr (φ := executeOne r n) ?_ fun r' _ e => if_neg e).congr fun s => Book.side_numbered _ _ s
    by_cases hlt : n < r.openQuantity
    · have hz : ¬ r.openQuantity - n = 0 := by omega
      simp [executeOne, hlt, hz, display, Resting.trade]
    · have hz : r.openQuantity - n = 0 := by omega
      simp [executeOne, hlt, hz]

theorem apply_cancel (h : Shows f b) (hb : b.WF) {r : Resting} (hr : r ∈ b.orders) {target : ℕ}
    (hpos : 0 < target) (hlt : target < r.openQuantity) :
    ∃ f', f.apply (.orderCancel r.id (r.openQuantity - target)) = some f' ∧ Shows f' (b.reduce r.id target) := by
  refine ⟨f.subtract r.id (r.openQuantity - target), ?_, ?_⟩
  · simp only [Feed.apply, h.find_eq hb hr, Option.bind_eq_bind, Option.bind_some]
    exact if_pos (show r.openQuantity - target < r.openQuantity by omega)
  · rw [Book.reduce_eq_update]
    refine h.subtract hb hr ?_ fun r' _ e => by rw [if_neg e]
    have hz : ¬ r.openQuantity - (r.openQuantity - target) = 0 := by omega
    have ht : r.openQuantity - (r.openQuantity - target) = target := by omega
    rw [if_neg hz, ht]
    simp [display]

theorem apply_delete (h : Shows f b) (hb : b.WF) {r : Resting} (hr : r ∈ b.orders) :
    ∃ f', f.apply (.orderDelete r.id) = some f' ∧ Shows f' (b.remove r.id) :=
  ⟨f.delete r.id, by simp [Feed.apply, h.find_eq hb hr], h.delete r.id⟩

theorem apply_add (h : Shows f b) {r : Resting} (hid : r.id ∉ b.ids) (stock : Vector UInt8 8) :
    ∃ f', f.apply (.addOrder r.id (toOuchSide r.side) r.openQuantity stock (toItchPrice r.price)) = some f' ∧
      Shows f' (b.append r) :=
  ⟨f ++ [display r], by simp [Feed.apply, h.find_eq_none hid, display], h.append r⟩

theorem apply_replace (h : Shows f b) (hb : b.WF) {o r : Resting} (ho : o ∈ b.orders) (hid : r.id ∉ b.ids)
    (hs : r.side = o.side) :
    ∃ f', f.apply (.orderReplace o.id r.id r.openQuantity (toItchPrice r.price)) = some f' ∧
      Shows f' ((b.remove o.id).append r) :=
  ⟨f.delete o.id ++ [display r], by simp [Feed.apply, h.find_eq hb ho, h.find_eq_none hid, display, hs],
    (h.delete o.id).append r⟩

end Shows

/-! ## Requests -/

variable {f : Feed} {b : Book} {req : EngineRequest}

theorem Feed.replay_append (f : Feed) (ms ms' : List ItchBody) :
    f.replay (ms ++ ms') = (f.replay ms).bind fun f' => f'.replay ms' := by
  simp only [Feed.replay, List.foldlM_append, Option.bind_eq_bind]

theorem Feed.replay_singleton (f : Feed) (m : ItchBody) : f.replay [m] = f.apply m := by
  simp [Feed.replay]

theorem Feed.replay_cons (f : Feed) (m : ItchBody) (ms : List ItchBody) :
    f.replay (m :: ms) = (f.apply m).bind fun f' => f'.replay ms := by
  simp only [Feed.replay, List.foldlM_cons, Option.bind_eq_bind]

/-- The messages, applied to the subscriber's book `f`, leave one that shows `b`. -/
def Brings (f : Feed) (messages : List ItchBody) (b : Book) : Prop :=
  ∃ f', f.replay messages = some f' ∧ Shows f' b

theorem Brings.append {ms ms' : List ItchBody} {b' : Book} (h : Brings f ms b)
    (h' : ∀ f', Shows f' b → Brings f' ms' b') : Brings f (ms ++ ms') b' := by
  obtain ⟨f₁, hr₁, hs₁⟩ := h
  obtain ⟨f₂, hr₂, hs₂⟩ := h' f₁ hs₁
  exact ⟨f₂, by rw [Feed.replay_append, hr₁]; exact hr₂, hs₂⟩

theorem tradeItch_append (k : ℕ) (fs : List (Resting × ℕ)) (r : Resting) (n : ℕ) :
    tradeItch k (fs ++ [(r, n)]) = tradeItch k fs ++ [.orderExecuted r.id n (k + fs.length)] := by
  induction fs generalizing k with
  | nil => rfl
  | cons f fs ih =>
    obtain ⟨r', n'⟩ := f
    simp only [List.cons_append, tradeItch, ih, List.length_cons, Nat.add_assoc, Nat.add_comm 1]

theorem trades_brings (h : Shows f b) (hb : b.WF) (i : Incoming) :
    Brings f (tradeItch b.nextMatchNumber (i.trades b).1) (i.traded b) := by
  refine (i.trades_induct (P := fun fs b' => Brings f (tradeItch b.nextMatchNumber fs) b') hb ⟨f, rfl, h⟩ ?_).1
  intro fs b' r n hP hb' hr _ hn _
  rw [tradeItch_append]
  refine hP.append fun f' hf' => ?_
  obtain ⟨f'', ha, hs⟩ := hf'.apply_executed hb' (Book.mem_orders.mpr ⟨_, hr⟩) hn (b.nextMatchNumber + fs.length)
  exact ⟨f'', by rw [Feed.replay_singleton, ha], hs⟩

theorem incoming_brings (h : Shows f b) (hb : b.WF) {i : Incoming} (hi : i.Ok b) :
    Brings f (i.itch b) (i.book b) := by
  refine (trades_brings h hb i).append fun f' hf' => ?_
  rw [Incoming.book_eq, Incoming.add]
  split
  · obtain ⟨f'', ha, hs⟩ := hf'.apply_add (r := i.resting b) (fun hid => hi.fresh (i.mem_ids_of_traded hb hid))
      bookSymbol
    exact ⟨f'', (Feed.replay_singleton _ _).trans ha, hs⟩
  · exact ⟨f', rfl, hf'⟩

theorem cancelAll_brings (h : Shows f b) (hb : b.WF) {o : Resting} (ho : o ∈ b.orders) :
    Brings f (cancelAll b o).itch (cancelAll b o).book := by
  obtain ⟨f', ha, hs⟩ := h.apply_delete hb ho
  exact ⟨f', (Feed.replay_singleton _ _).trans ha, hs⟩

theorem ignored_brings (h : Shows f b) : Brings f (ignored b).itch (ignored b).book := ⟨f, rfl, h⟩

/-- A replacement that rests without trading is the original removed and itself
appended. -/
theorem book_of_trades_eq_nil {i : Incoming} (hb : b.WF) (ht : (i.trades b).1 = []) (hr : i.rests = true)
    (hz : i.quantity ≠ 0) : i.book b = b.append (i.resting b) ∧ (i.resting b).openQuantity = i.quantity := by
  have hrem : i.remaining b = i.quantity := by rw [Incoming.remaining, ht]; rfl
  have hc : i.comesToRest b = true := by simp [Incoming.comesToRest, hr, hrem, hz]
  refine ⟨?_, hrem⟩
  rw [Incoming.book_eq, if_pos hc, i.traded_of_trades_eq_nil hb ht]

/-- The messages of every request apply, and bring the book the request leaves. -/
theorem handle_brings (capacity : ℕ) (h : Shows f b) (hb : b.WF) (hp : PriceOk req) :
    Brings f (handle capacity b req).itch (handle capacity b req).book := by
  unfold handle
  cases ht : req.type with
  | new =>
    dsimp only [enter]
    split_ifs with hid
    · exact ignored_brings h
    · exact ⟨f, rfl, h⟩
    · exact incoming_brings h hb (newOrder_ok ht hp hid)
  | cancel =>
    dsimp only [cancel]
    cases hf : b.find? req.orderId with
    | none => exact ignored_brings h
    | some o =>
      obtain ⟨ho, -⟩ := find?_mem hf
      dsimp only
      split_ifs with hign hz
      · exact ignored_brings h
      · exact cancelAll_brings h hb ho
      · obtain ⟨f', ha, hs⟩ := h.apply_cancel hb ho (Nat.pos_of_ne_zero hz) (by omega)
        exact ⟨f', (Feed.replay_singleton _ _).trans ha, hs⟩
  | replace =>
    dsimp only [replace]
    cases hf : b.find? req.orderId with
    | none => exact ignored_brings h
    | some o =>
      obtain ⟨ho, -⟩ := find?_mem hf
      dsimp only
      split
      · exact ignored_brings h
      next hign =>
      split
      · exact cancelAll_brings h hb ho
      next hz =>
      have hid : req.newOrderId ∉ b.ids := fun hid => hign (.inr hid)
      have hi := replacement_ok ht hp hid hz
      dsimp only
      split
      · next hc =>
        obtain ⟨hbook, hq⟩ := book_of_trades_eq_nil (hb.remove o.id) hc.2 hc.1 hz
        obtain ⟨f', ha, hs⟩ := h.apply_replace hb ho
          (r := (replacement req o).resting (b.remove o.id)) hid rfl
        rw [hq] at ha
        exact ⟨f', (Feed.replay_singleton _ _).trans ha, hbook ▸ hs⟩
      · obtain ⟨f', ha, hs⟩ := h.apply_delete hb ho
        obtain ⟨f'', hr', hs'⟩ := incoming_brings hs (hb.remove o.id) hi
        exact ⟨f'', by rw [Feed.replay_cons, ha]; exact hr', hs'⟩

/-- The messages of a run apply, and bring the book the run leaves. -/
theorem steps_brings (capacity : ℕ) (h : Shows f b) (hb : b.WF) {reqs : List EngineRequest}
    (hp : ∀ req ∈ reqs, PriceOk req) :
    Brings f ((steps capacity b reqs).flatMap (·.itch)) (after capacity b reqs) := by
  induction reqs generalizing f b with
  | nil => exact ⟨f, rfl, h⟩
  | cons req reqs ih =>
    have hreq := hp req List.mem_cons_self
    rw [steps, List.flatMap_cons]
    exact (handle_brings capacity h hb hreq).append fun f' hf' =>
      ih hf' (process_wf capacity hb hreq) fun r hr => hp r (List.mem_cons_of_mem _ hr)

end Exchange.Spec
