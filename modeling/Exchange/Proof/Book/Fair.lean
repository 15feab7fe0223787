import Exchange.Proof.Book.Trace
import Exchange.Spec.Fills

/-!
# The fills of the reference book

`seen_fair`: on any requests whose limit prices are in the band, the EXECUTED events are
fair fills, numbered one after the other, and on both sides as many shares are traded.
-/

namespace Exchange.Spec

variable {b : Book} {req : EngineRequest} {es es' : List Event} {fs : List (Resting × ℕ)}

/-! ## Events two by two -/

theorem fillsIn_cons_of_ne {e : Event} (h : e.type ≠ .executed) (es : List Event) :
    fillsIn (e :: es) = fillsIn es := by
  cases es with
  | nil => exact if_neg h
  | cons e' es => exact if_neg h

theorem fillsIn_of_ne (h : ∀ e ∈ es, e.type ≠ .executed) : fillsIn es = some [] := by
  induction es with
  | nil => rfl
  | cons e es ih =>
    rw [fillsIn_cons_of_ne (h e List.mem_cons_self)]
    exact ih fun e' he' => h e' (List.mem_cons_of_mem e he')

theorem fillsIn_append {fills : List Fill} (h : fillsIn es = some fills) (es' : List Event) :
    fillsIn (es ++ es') = (fillsIn es').map (fills ++ ·) := by
  induction es using fillsIn.induct generalizing fills with
  | case1 =>
    cases h
    simp
  | case2 e he => simp [fillsIn, he] at h
  | case3 e he =>
    cases h.symm.trans (if_neg he)
    rw [List.singleton_append, fillsIn_cons_of_ne he]
    simp
  | case4 e e' es he he' ih =>
    rw [fillsIn, if_pos he, if_pos he'] at h
    obtain ⟨rest, hrest, rfl⟩ := Option.map_eq_some_iff.mp h
    rw [List.cons_append, List.cons_append, fillsIn, if_pos he, if_pos he', ih hrest, Option.map_map]
    rfl
  | case5 e e' es he he' => simp [fillsIn, he, he'] at h
  | case6 e e' es he ih =>
    rw [fillsIn_cons_of_ne he] at h
    rw [List.cons_append, fillsIn_cons_of_ne he]
    exact ih h

/-- The EXECUTED events are those of the fills. -/
theorem filter_executed {fills : List Fill} (h : fillsIn es = some fills) :
    es.filter (·.type = .executed) = fills.flatMap fun f => [f.removed, f.added] := by
  induction es using fillsIn.induct generalizing fills with
  | case1 =>
    cases h
    rfl
  | case2 e he => simp [fillsIn, he] at h
  | case3 e he =>
    cases h.symm.trans (if_neg he)
    simp [he]
  | case4 e e' es he he' ih =>
    rw [fillsIn, if_pos he, if_pos he'] at h
    obtain ⟨rest, hrest, rfl⟩ := Option.map_eq_some_iff.mp h
    simp [he, he', ih hrest]
  | case5 e e' es he he' => simp [fillsIn, he, he'] at h
  | case6 e e' es he ih =>
    rw [fillsIn_cons_of_ne he] at h
    rw [List.filter_cons_of_neg (by simpa using he)]
    exact ih h

/-- The fills of the trades of an incoming order, numbered from `k`. -/
def fillsOf (id clientId : ℕ) : ℕ → List (Resting × ℕ) → List Fill
  | _, [] => []
  | k, (r, n) :: fs =>
    { removed := {
        orderId := id, matchNumber := k, clientId := clientId, price := r.price, quantity := n, type := .executed,
        reason := .removedLiquidity }
      added := {
        orderId := r.id, matchNumber := k, clientId := r.clientId, price := r.price, quantity := n,
        type := .executed, reason := .addedLiquidity } } :: fillsOf id clientId (k + 1) fs

theorem fillsIn_tradeEvents (id clientId k : ℕ) (fs : List (Resting × ℕ)) :
    fillsIn (tradeEvents id clientId k fs) = some (fillsOf id clientId k fs) := by
  induction fs generalizing k with
  | nil => rfl
  | cons f fs ih =>
    obtain ⟨r, n⟩ := f
    rw [tradeEvents, fillsIn, if_pos rfl, if_pos rfl, ih]
    rfl

theorem length_fillsOf (id clientId k : ℕ) (fs : List (Resting × ℕ)) :
    (fillsOf id clientId k fs).length = fs.length := by
  induction fs generalizing k with
  | nil => rfl
  | cons f fs ih => rw [fillsOf, List.length_cons, ih, List.length_cons]

theorem matchNumber_fillsOf (id clientId k : ℕ) (fs : List (Resting × ℕ)) :
    (fillsOf id clientId k fs).map (·.removed.matchNumber) = List.range' k fs.length := by
  induction fs generalizing k with
  | nil => rfl
  | cons f fs ih => rw [fillsOf, List.map_cons, ih, List.length_cons, List.range'_succ]

/-- Each fill is a trade. -/
theorem mem_fillsOf {id clientId k : ℕ} {f : Fill} (hf : f ∈ fillsOf id clientId k fs) : ∃ t ∈ fs, ∃ j,
    f = { removed := {
            orderId := id, matchNumber := j, clientId := clientId, price := t.1.price, quantity := t.2,
            type := .executed, reason := .removedLiquidity }
          added := {
            orderId := t.1.id, matchNumber := j, clientId := t.1.clientId, price := t.1.price, quantity := t.2,
            type := .executed, reason := .addedLiquidity } } := by
  induction fs generalizing k with
  | nil => cases hf
  | cons t fs ih =>
    rcases List.mem_cons.mp hf with rfl | hf
    · exact ⟨t, List.mem_cons_self, k, rfl⟩
    · obtain ⟨t', ht', j, e⟩ := ih hf
      exact ⟨t', List.mem_cons_of_mem t ht', j, e⟩

theorem pairwise_fillsOf {R : ℕ → ℕ → Prop} {id clientId k : ℕ} (h : fs.Pairwise fun t t' => R t.1.price t'.1.price) :
    (fillsOf id clientId k fs).Pairwise fun f f' => R f.removed.price f'.removed.price := by
  induction fs generalizing k with
  | nil => exact .nil
  | cons t fs ih =>
    obtain ⟨hfirst, hrest⟩ := List.pairwise_cons.mp h
    refine List.pairwise_cons.mpr ⟨fun f hf => ?_, ih hrest⟩
    obtain ⟨t', ht', j, rfl⟩ := mem_fillsOf hf
    exact hfirst t' ht'

/-! ## Prices -/

theorem noBetter_of_allows {side : Side} {l p : ℕ} (h : allows side (some l) p = true) : NoBetter side l p := by
  cases side <;> simpa [allows, Side.reaches, NoBetter] using h

theorem noBetter_of_not_better {side : Side} {p p' : ℕ} (h : side.opposite.better p p' = false) :
    NoBetter side p p' := by
  cases side <;> simpa [Side.opposite, Side.better, NoBetter] using h

/-- Trading with an order changes no price. -/
theorem exists_price_of_mem_execute {l : List Resting} {r : Resting} {n : ℕ} {r' : Resting}
    (h : r' ∈ execute l r n) : ∃ r₀ ∈ l, r₀.price = r'.price := by
  unfold execute at h
  split at h
  · obtain ⟨r₀, hr₀, rfl⟩ := List.mem_map.mp h
    refine ⟨r₀, hr₀, ?_⟩
    split <;> rfl
  · exact ⟨r', (List.mem_filter.mp h).1, rfl⟩

theorem exists_price_of_mem_fills {side : Side} {limit : Option ℕ} {fuel quantity : ℕ} {l : List Resting}
    {t : Resting × ℕ} (h : t ∈ (fills side limit fuel quantity l).1) : ∃ r ∈ l, r.price = t.1.price := by
  induction fuel generalizing quantity l with
  | zero => cases h
  | succ fuel ih =>
    rw [fills] at h
    split at h
    · cases h
    · next r hr =>
      split at h
      · rcases List.mem_cons.mp h with rfl | h
        · exact ⟨r, best_mem hr, rfl⟩
        · obtain ⟨r', hr', e⟩ := ih h
          obtain ⟨r₀, hr₀, e'⟩ := exists_price_of_mem_execute hr'
          exact ⟨r₀, hr₀, e'.trans e⟩
      · cases h

/-- The prices an incoming order trades at never improve. -/
theorem fills_pairwise (side : Side) (limit : Option ℕ) (fuel quantity : ℕ) (l : List Resting) :
    (fills side limit fuel quantity l).1.Pairwise fun t t' => NoBetter side t'.1.price t.1.price := by
  induction fuel generalizing quantity l with
  | zero => exact .nil
  | succ fuel ih =>
    rw [fills]
    split
    · exact .nil
    · next r hr =>
      split
      · refine List.pairwise_cons.mpr ⟨fun t ht => ?_, ih _ _⟩
        obtain ⟨r', hr', e⟩ := exists_price_of_mem_fills ht
        obtain ⟨r₀, hr₀, e'⟩ := exists_price_of_mem_execute hr'
        rw [← e, ← e']
        exact noBetter_of_not_better (not_better_best hr hr₀)
      · exact .nil

/-! ## One request -/

/-- What the trades of an incoming order come to, when the orders it meets are those that
rested before the request. -/
theorem Incoming.fair (i : Incoming) (hb : b.WF) {s : Seen} (hi : s.aggressor = some ⟨i.id, i.side, i.limit⟩)
    (hs : ∀ r ∈ b.side i.side.opposite, s.resting r.id = some r) (k : ℕ)
    (he : fillsIn s.events = some (fillsOf i.id i.clientId k (i.trades b).1)) :
    Fair s (fillsOf i.id i.clientId k (i.trades b).1) := by
  refine ⟨he, fun _ => ⟨_, hi, fun f hf => ?_, pairwise_fillsOf (R := fun p p' => NoBetter i.side p' p)
    (fills_pairwise ..)⟩⟩
  obtain ⟨t, ht, j, rfl⟩ := mem_fillsOf hf
  obtain ⟨hpos, hallow, r, hr, n, hrt, -⟩ := (i.trades_ok hb).trade t ht
  refine ⟨⟨rfl, rfl, rfl⟩, ⟨rfl, rfl⟩, rfl, rfl, ⟨rfl, hpos⟩, ⟨r, ?_, hb.side_eq _ r hr, ?_⟩, fun l hl => ?_⟩
  · show s.resting t.1.id = some r
    rw [hrt]
    exact hs r hr
  · show r.price = t.1.price
    rw [hrt]
    rfl
  · have hl : i.limit = some l := hl
    rw [hl] at hallow
    exact noBetter_of_allows hallow

theorem Incoming.fillsIn_events (i : Incoming) (b : Book) :
    fillsIn (i.events b) = some (fillsOf i.id i.clientId b.nextMatchNumber (i.trades b).1) := by
  rw [Incoming.events, fillsIn_append (fillsIn_tradeEvents ..)]
  split
  · rw [fillsIn_of_ne (by simp)]
    simp
  · simp [fillsIn]

theorem Incoming.nextMatchNumber_book (i : Incoming) (b : Book) :
    (i.book b).nextMatchNumber = b.nextMatchNumber + (i.trades b).1.length := by
  have htraded : (i.traded b).nextMatchNumber = b.nextMatchNumber + (i.trades b).1.length := rfl
  rw [Incoming.book, ← htraded]
  split
  · cases i.side <;> rfl
  · rfl

/-- No fills. -/
theorem fair_nil {s : Seen} (h : ∀ e ∈ s.events, e.type ≠ .executed) : Fair s [] :=
  ⟨fillsIn_of_ne h, fun hne => absurd rfl hne⟩

/-- The fills of a request, numbered on from the number of the next trade. -/
def Numbered (b : Book) (step : Step) (s : Seen) : Prop :=
  ∃ fills, Fair s fills ∧ fills.map (·.removed.matchNumber) = List.range' b.nextMatchNumber fills.length ∧
    step.book.nextMatchNumber = b.nextMatchNumber + fills.length

theorem numbered_nil {step : Step} {s : Seen} (h : ∀ e ∈ s.events, e.type ≠ .executed)
    (hn : step.book.nextMatchNumber = b.nextMatchNumber) : Numbered b step s := ⟨[], fair_nil h, rfl, hn⟩

/-- The answer of the request does not trade; then come the trades of an order, on the
book `b'`. -/
theorem Incoming.numbered (i : Incoming) {b' : Book} (hb : b'.WF) {s : Seen}
    (hi : s.aggressor = some ⟨i.id, i.side, i.limit⟩) (hs : ∀ r ∈ b'.side i.side.opposite, s.resting r.id = some r)
    {answer : Event} (he : s.events = answer :: i.events b') (ha : answer.type ≠ .executed)
    (hn : b'.nextMatchNumber = b.nextMatchNumber) {step : Step} (hstep : step.book = i.book b') :
    Numbered b step s := by
  refine ⟨_, i.fair hb hi hs b'.nextMatchNumber ?_, ?_, ?_⟩
  · rw [he, fillsIn_cons_of_ne ha, i.fillsIn_events]
  · rw [matchNumber_fillsOf, length_fillsOf, hn]
  · rw [hstep, i.nextMatchNumber_book, length_fillsOf, hn]

theorem enter_numbered (capacity : ℕ) (hb : b.WF) (ht : req.type = .new) :
    Numbered b (enter capacity b req) ⟨b.find?, req, flagFirst (enter capacity b req).events⟩ := by
  unfold enter
  dsimp only
  split
  · exact numbered_nil nofun rfl
  · split
    · refine numbered_nil (fun e he => ?_) rfl
      rw [List.mem_singleton.mp he]
      exact nofun
    · refine (newOrder req).numbered hb ?_ (fun r hr => ?_) rfl (by exact nofun) rfl rfl
      · unfold Seen.aggressor
        rw [ht]
        rfl
      · exact hb.find?_eq_some (Book.mem_orders.mpr ⟨_, hr⟩)

theorem cancelAll_numbered {s : Seen} {o : Resting} (he : s.events = flagFirst (cancelAll b o).events) :
    Numbered b (cancelAll b o) s := by
  refine numbered_nil (fun e hm => ?_) rfl
  rw [he] at hm
  rw [List.mem_singleton.mp hm]
  exact nofun

theorem cancel_numbered : Numbered b (cancel b req) ⟨b.find?, req, flagFirst (cancel b req).events⟩ := by
  unfold cancel
  split
  · exact numbered_nil nofun rfl
  · dsimp only
    split
    · exact numbered_nil nofun rfl
    · split
      · exact cancelAll_numbered rfl
      · refine numbered_nil (fun e he => ?_) rfl
        rw [List.mem_singleton.mp he]
        exact nofun

theorem replace_numbered (hb : b.WF) (ht : req.type = .replace) :
    Numbered b (replace b req) ⟨b.find?, req, flagFirst (replace b req).events⟩ := by
  unfold replace
  split
  · exact numbered_nil nofun rfl
  · next o hfind =>
    dsimp only
    split
    · exact numbered_nil nofun rfl
    · split
      · exact cancelAll_numbered rfl
      · refine (replacement req o).numbered (hb.remove o.id) ?_ (fun r hr => ?_) rfl (by exact nofun) rfl rfl
        · unfold Seen.aggressor
          rw [ht]
          exact congrArg (Option.map _) hfind
        · exact hb.find?_eq_some (Book.mem_orders_remove.mp (Book.mem_orders.mpr ⟨_, hr⟩)).1

theorem process_numbered (capacity : ℕ) (hb : b.WF) (req : EngineRequest) :
    Numbered b (process capacity b req) ⟨b.find?, req, (process capacity b req).events⟩ := by
  unfold process handle
  cases ht : req.type with
  | new => exact enter_numbered capacity hb ht
  | cancel => exact cancel_numbered
  | replace => exact replace_numbered hb ht

/-- What trades was open, at a price of the band. -/
theorem process_executed (capacity : ℕ) (hb : b.WF) (req : EngineRequest) :
    ∀ e ∈ (process capacity b req).events, e.type = .executed → InBand e.price ∧ 0 < e.quantity := by
  intro e he ht
  obtain ⟨fills, ⟨hin, hfair⟩, -⟩ := process_numbered capacity hb req
  have hmem : e ∈ fills.flatMap fun f => [f.removed, f.added] := by
    rw [← filter_executed hin]
    exact List.mem_filter.mpr ⟨he, by simpa using ht⟩
  obtain ⟨f, hf, hfe⟩ := List.mem_flatMap.mp hmem
  obtain ⟨i, -, hfills, -⟩ := hfair (List.ne_nil_of_mem hf)
  have h := hfills f hf
  obtain ⟨r, hr, -, hprice⟩ := h.resting
  have hband : InBand f.added.price := hprice ▸ hb.inBand r (find?_mem hr).1
  rcases List.mem_pair.mp hfe with rfl | rfl
  · exact ⟨h.price ▸ hband, h.quantity.2⟩
  · exact ⟨hband, h.quantity.1 ▸ h.quantity.2⟩

/-! ## Shares -/

/-- In a fill one side buys what the other sells. -/
theorem Fair.shares_eq {s : Seen} {fills : List Fill} (h : Fair s fills) (side : Side) :
    s.shares side = (fills.map (·.removed.quantity)).sum := by
  have hfilter : s.events.filter (fun e => e.type = .executed ∧ s.sideOf e = some side) =
      (fills.flatMap fun f => [f.removed, f.added]).filter fun e => s.sideOf e = some side := by
    rw [← filter_executed h.1, List.filter_filter]
    simp only [Bool.decide_and, Bool.and_comm]
  rw [Seen.shares, hfilter]
  by_cases hne : fills = []
  · rw [hne]
    rfl
  · obtain ⟨i, hi, hfair, -⟩ := h.2 hne
    clear hfilter h hne
    induction fills with
    | nil => rfl
    | cons f fills ih =>
      have hf := hfair f List.mem_cons_self
      obtain ⟨r, hr, hside, -⟩ := hf.resting
      have hremoved : s.sideOf f.removed = some i.side := by
        rw [Seen.sideOf, if_pos hf.removed.2.1, hi]
        rfl
      have hadded : s.sideOf f.added = some i.side.opposite := by
        rw [Seen.sideOf, if_neg (by rw [hf.added.2]; nofun), hr, Option.map_some, hside]
      rw [List.flatMap_cons, List.filter_append, List.map_append, List.sum_append,
        ih fun f' hf' => hfair f' (List.mem_cons_of_mem f hf'), List.map_cons, List.sum_cons]
      congr 1
      -- exactly one of the two events is for an order on `side`
      by_cases hs : i.side = side
      · rw [List.filter_cons_of_pos (by simp [hremoved, hs]), List.filter_cons_of_neg (by
          rw [hadded, ← hs]
          simpa using i.side.opposite_ne)]
        rfl
      · have hs' : i.side.opposite = side := by
          cases hi' : i.side <;> cases side <;> simp_all [Side.opposite]
        rw [List.filter_cons_of_neg (by simp [hremoved, hs]), List.filter_cons_of_pos (by simp [hadded, hs'])]
        simpa using hf.quantity.1.symm

/-! ## Runs -/

/-- The fills of a run: numbered without gap, and as many shares are bought as sold. -/
theorem seen_fair (capacity : ℕ) (hb : b.WF) (reqs : List EngineRequest) (hp : ∀ req ∈ reqs, PriceOk req) :
    ∃ fills : List (List Fill), List.Forall₂ Fair (seen capacity b reqs) fills ∧
      fillsIn ((seen capacity b reqs).flatMap (·.events)) = some fills.flatten ∧
      fills.flatten.map (·.removed.matchNumber) = List.range' b.nextMatchNumber fills.flatten.length ∧
      ∀ side, ((seen capacity b reqs).map (·.shares side)).sum = (fills.flatten.map (·.removed.quantity)).sum := by
  induction reqs generalizing b with
  | nil => exact ⟨[], .nil, rfl, rfl, fun _ => rfl⟩
  | cons req reqs ih =>
    obtain ⟨first, hfirst, hnumber, hnext⟩ := process_numbered capacity hb req
    obtain ⟨rest, hrest, hin, hnumbers, hshares⟩ := ih (process_wf capacity hb (hp req List.mem_cons_self))
      fun r hr => hp r (List.mem_cons_of_mem _ hr)
    refine ⟨first :: rest, .cons hfirst hrest, ?_, ?_, fun side => ?_⟩
    · rw [seen, List.flatMap_cons, fillsIn_append hfirst.1, hin]
      rfl
    · rw [List.flatten_cons, List.map_append, hnumber, hnumbers, hnext, List.length_append, List.range'_append_1]
    · rw [seen, List.map_cons, List.sum_cons, hshares, hfirst.shares_eq, List.flatten_cons, List.map_append,
        List.sum_append]

theorem steps_executed (capacity : ℕ) (hb : b.WF) {reqs : List EngineRequest} (hp : ∀ req ∈ reqs, PriceOk req) :
    ∀ e ∈ (steps capacity b reqs).flatMap (·.events), e.type = .executed → InBand e.price ∧ 0 < e.quantity := by
  induction reqs generalizing b with
  | nil => exact nofun
  | cons req reqs ih =>
    intro e he
    rw [steps, List.flatMap_cons] at he
    rcases List.mem_append.mp he with he | he
    · exact process_executed capacity hb req e he
    · exact ih (process_wf capacity hb (hp req List.mem_cons_self)) (fun r hr => hp r (List.mem_cons_of_mem _ hr)) e he

end Exchange.Spec
