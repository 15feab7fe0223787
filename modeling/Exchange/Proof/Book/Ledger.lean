import Exchange.Proof.Book.Trace
import Exchange.Spec.Ledger

/-!
# The ledger and the book

`Ledger.Keeps`: what the ledger has of a chain is what the book has of the chain's
resting order. `Ledger.Within` bounds what a chain has executed and may yet execute.
`posted` says what one request does to both, `Ready.keeps_after` and
`Ready.within_after` what a run does.
-/

namespace Exchange.Spec

namespace Ledger

variable {l l' : Ledger} {b b' : Book} {c : ℕ}

/-! ## Events -/

theorem events_append (l : Ledger) (es es' : List Event) : l.events (es ++ es') = (l.events es).events es' :=
  List.foldl_append

theorem events_cons (l : Ledger) (e : Event) (es : List Event) : l.events (e :: es) = (l.event e).events es := rfl

/-- `n` shares of a chain executed. -/
def execute (l : Ledger) (c n : ℕ) : Ledger :=
  { l with executed := Function.update l.executed c (l.executed c + n) }

theorem executed_execute_self (l : Ledger) (c n : ℕ) : (l.execute c n).executed c = l.executed c + n :=
  Function.update_self ..

theorem executed_execute_of_ne (l : Ledger) {c c' : ℕ} (h : c' ≠ c) (n : ℕ) :
    (l.execute c n).executed c' = l.executed c' :=
  Function.update_of_ne h ..

/-! ## The book -/

/-- The ledger has of every resting order's chain what the book has. -/
structure Keeps (l : Ledger) (b : Book) : Prop where
  executed : ∀ r ∈ b.orders, l.executed (l.chain r.id) = r.executedQuantity
  liability : ∀ r ∈ b.orders, r.executedQuantity + r.openQuantity = l.liability (l.chain r.id)
  unique : ∀ r ∈ b.orders, ∀ r' ∈ b.orders, l.chain r.id = l.chain r'.id → r.id = r'.id

/-- Chain `c` has executed at most `n` shares, and will have at most `n` if all its
resting order has open is executed. -/
structure Within (l : Ledger) (b : Book) (c n : ℕ) : Prop where
  executed : l.executed c ≤ n
  resting : ∀ r ∈ b.orders, l.chain r.id = c → r.executedQuantity + r.openQuantity ≤ n

/-- What a part of a request does to the ledger and the book while an order of chain `c`
comes in: `n` shares of it are executed, and no other chain has more to execute. -/
structure Moves (l : Ledger) (b : Book) (c n : ℕ) (l' : Ledger) (b' : Book) : Prop where
  chain : l'.chain = l.chain
  liability : l'.liability = l.liability
  keeps : l'.Keeps b'
  other : ∀ r ∈ b'.orders, l'.chain r.id ≠ c
  executed : l'.executed c = l.executed c + n
  within : ∀ c' k, c' ≠ c → l.Within b c' k → l'.Within b' c' k

/-- One trade. -/
theorem Moves.trade {k n : ℕ} (h : Moves l b c k l' b') (hb' : b'.WF) {r : Resting} (hr : r ∈ b'.orders)
    (hn : n ≤ r.openQuantity) :
    Moves l b c (k + n) ((l'.execute c n).execute (l'.chain r.id) n) (b'.trade r n) := by
  have hc := h.other r hr
  have hne : ∀ r' ∈ b'.orders, r'.id ≠ r.id → l'.chain r'.id ≠ l'.chain r.id :=
    fun r' hr' hid e => hid (h.keeps.unique r' hr' r hr e)
  have hself : ((l'.execute c n).execute (l'.chain r.id) n).executed (l'.chain r.id) = r.executedQuantity + n := by
    rw [executed_execute_self, executed_execute_of_ne _ hc, h.keeps.executed r hr]
  have hother : ∀ r' ∈ b'.orders, r'.id ≠ r.id →
      ((l'.execute c n).execute (l'.chain r.id) n).executed (l'.chain r'.id) = r'.executedQuantity := by
    intro r' hr' hid
    rw [executed_execute_of_ne _ (hne r' hr' hid), executed_execute_of_ne _ (h.other r' hr'),
      h.keeps.executed r' hr']
  refine ⟨h.chain, h.liability, ⟨fun r' hr' => ?_, fun r' hr' => ?_, fun r₁ h₁ r₂ h₂ e => ?_⟩,
    fun r' hr' => ?_, ?_, fun c' m hc' hw => ?_⟩
  · rcases (Book.mem_orders_trade hb' hr).mp hr' with ⟨h', hid⟩ | ⟨-, rfl⟩
    · exact hother r' h' hid
    · exact hself
  · rcases (Book.mem_orders_trade hb' hr).mp hr' with ⟨h', -⟩ | ⟨-, rfl⟩
    · exact h.keeps.liability r' h'
    · have := h.keeps.liability r hr
      show r.executedQuantity + n + (r.openQuantity - n) = l'.liability (l'.chain r.id)
      omega
  · -- a traded order keeps its id
    have hpast : ∀ r' ∈ (b'.trade r n).orders, ∃ r₀ ∈ b'.orders, r₀.id = r'.id := fun r' hr' => by
      rcases (Book.mem_orders_trade hb' hr).mp hr' with ⟨h', -⟩ | ⟨-, rfl⟩
      · exact ⟨r', h', rfl⟩
      · exact ⟨r, hr, rfl⟩
    obtain ⟨s₁, hs₁, e₁⟩ := hpast r₁ h₁
    obtain ⟨s₂, hs₂, e₂⟩ := hpast r₂ h₂
    rw [← e₁, ← e₂] at e ⊢
    exact h.keeps.unique s₁ hs₁ s₂ hs₂ e
  · rcases (Book.mem_orders_trade hb' hr).mp hr' with ⟨h', -⟩ | ⟨-, rfl⟩
    · exact h.other r' h'
    · exact hc
  · rw [executed_execute_of_ne _ hc.symm, executed_execute_self, h.executed, Nat.add_assoc]
  · obtain ⟨hle, hrest⟩ := h.within c' m hc' hw
    refine ⟨?_, fun r' hr' e => ?_⟩
    · by_cases e : c' = l'.chain r.id
      · have := hrest r hr e.symm
        rw [e, hself]
        omega
      · rw [executed_execute_of_ne _ e, executed_execute_of_ne _ hc']
        exact hle
    · rcases (Book.mem_orders_trade hb' hr).mp hr' with ⟨h', -⟩ | ⟨-, rfl⟩
      · exact hrest r' h' e
      · have := hrest r hr e
        show r.executedQuantity + n + (r.openQuantity - n) ≤ m
        omega

theorem Moves.trades (i : Incoming) (hb : b.WF) (h : l.Keeps b)
    (hc : ∀ r ∈ b.orders, l.chain r.id ≠ l.chain i.id) :
    Moves l b (l.chain i.id) (filled (i.trades b).1)
      (l.events (tradeEvents i.id i.clientId b.nextMatchNumber (i.trades b).1)) (i.traded b) := by
  refine (i.trades_induct (P := fun fs b' => Moves l b (l.chain i.id) (filled fs)
    (l.events (tradeEvents i.id i.clientId b.nextMatchNumber fs)) b') hb
    ⟨rfl, rfl, h, hc, rfl, fun _ _ _ hw => hw⟩ ?_).1
  intro fs b' r n hm hb' hr hpos hn hle
  have hmem : r ∈ b'.orders := Book.mem_orders.mpr ⟨_, hr⟩
  have htwo : ∀ l' : Ledger, l'.events (tradeEvents i.id i.clientId (b.nextMatchNumber + fs.length) [(r, n)]) =
      (l'.execute (l'.chain i.id) n).execute (l'.chain r.id) n := fun _ => rfl
  have htaker := congrFun hm.chain i.id
  rw [tradeEvents_append, events_append, htwo, filled_append, htaker]
  exact hm.trade hb' hmem hn

/-- An order comes to rest. -/
theorem Keeps.append (h : l.Keeps b) {r : Resting} (hc : ∀ r' ∈ b.orders, l.chain r'.id ≠ l.chain r.id)
    (he : l.executed (l.chain r.id) = r.executedQuantity)
    (hl : r.executedQuantity + r.openQuantity = l.liability (l.chain r.id)) : l.Keeps (b.append r) := by
  refine ⟨fun r' hr' => ?_, fun r' hr' => ?_, fun r₁ h₁ r₂ h₂ e => ?_⟩
  · rcases Book.mem_orders_append.mp hr' with hr' | rfl
    · exact h.executed r' hr'
    · exact he
  · rcases Book.mem_orders_append.mp hr' with hr' | rfl
    · exact h.liability r' hr'
    · exact hl
  · rcases Book.mem_orders_append.mp h₁ with h₁' | e₁ <;> rcases Book.mem_orders_append.mp h₂ with h₂' | e₂
    · exact h.unique r₁ h₁' r₂ h₂' e
    · rw [e₂] at e
      exact absurd e (hc r₁ h₁')
    · rw [e₁] at e
      exact absurd e.symm (hc r₂ h₂')
    · rw [e₁, e₂]

/-- The cancellation of a remainder is in no account. -/
theorem events_incoming (i : Incoming) (b : Book) (l : Ledger) :
    l.events (i.events b) = l.events (tradeEvents i.id i.clientId b.nextMatchNumber (i.trades b).1) := by
  rw [Incoming.events, events_append]
  split <;> rfl

/-- An order of chain `c` comes in with as many shares as the chain's liability leaves. -/
theorem Keeps.incoming (i : Incoming) (hb : b.WF) (h : l.Keeps b)
    (hc : ∀ r ∈ b.orders, l.chain r.id ≠ l.chain i.id) (he : l.executed (l.chain i.id) = i.executed)
    (hl : l.liability (l.chain i.id) = i.executed + i.quantity) :
    (l.events (i.events b)).Keeps (i.book b) ∧
      (∀ c k, c ≠ l.chain i.id → l.Within b c k → (l.events (i.events b)).Within (i.book b) c k) ∧
      (l.events (i.events b)).Within (i.book b) (l.chain i.id) (i.executed + i.quantity) := by
  rw [events_incoming]
  have hm := Moves.trades i hb h hc
  have hq := i.filled_add_remaining hb
  have hexec := hm.executed
  rw [he] at hexec
  set l' := l.events (tradeEvents i.id i.clientId b.nextMatchNumber (i.trades b).1)
  have hle : l'.executed (l.chain i.id) ≤ i.executed + i.quantity := by omega
  rw [Incoming.book_eq]
  split
  · have hchain : l'.chain (i.resting b).id = l.chain i.id := by rw [hm.chain]; rfl
    refine ⟨hm.keeps.append (fun r' hr' => ?_) ?_ ?_, fun c k hne hw => ⟨(hm.within c k hne hw).executed, ?_⟩,
      hle, ?_⟩
    · rw [hchain]; exact hm.other r' hr'
    · rw [hchain]; exact hexec
    · rw [hchain, hm.liability, hl]
      show i.executed + filled (i.trades b).1 + i.remaining b = i.executed + i.quantity
      omega
    · intro r hr e
      rcases Book.mem_orders_append.mp hr with hr | rfl
      · exact (hm.within c k hne hw).resting r hr e
      · exact absurd (e.symm.trans hchain) hne
    · intro r hr e
      rcases Book.mem_orders_append.mp hr with hr | rfl
      · exact absurd e (hm.other r hr)
      · show i.executed + filled (i.trades b).1 + i.remaining b ≤ i.executed + i.quantity
        omega
  · exact ⟨hm.keeps, hm.within, hle, fun r hr e => absurd e (hm.other r hr)⟩

/-! ## Requests -/

theorem Keeps.remove (h : l.Keeps b) (id : ℕ) : l.Keeps (b.remove id) where
  executed r hr := h.executed r (Book.mem_orders_remove.mp hr).1
  liability r hr := h.liability r (Book.mem_orders_remove.mp hr).1
  unique r hr r' hr' := h.unique r (Book.mem_orders_remove.mp hr).1 r' (Book.mem_orders_remove.mp hr').1

/-- The other orders are of other chains. -/
theorem Keeps.chain_ne (h : l.Keeps b) {o r : Resting} (ho : o ∈ b.orders) (hr : r ∈ (b.remove o.id).orders) :
    l.chain r.id ≠ l.chain o.id := fun e =>
  (Book.mem_orders_remove.mp hr).2 (h.unique r (Book.mem_orders_remove.mp hr).1 o ho e)

theorem Within.remove {k : ℕ} (h : l.Within b c k) (id : ℕ) : l.Within (b.remove id) c k :=
  ⟨h.executed, fun r hr => h.resting r (Book.mem_orders_remove.mp hr).1⟩

@[simp] theorem chain_request (l : Ledger) (t : Entry) : (l.request t).chain = l.chain := by
  unfold request
  split <;> rfl

@[simp] theorem executed_request (l : Ledger) (t : Entry) : (l.request t).executed = l.executed := by
  unfold request
  split <;> rfl

theorem liability_request {t : Entry} (h : t.SetsLiability) :
    (l.request t).liability (l.chain t.req.orderId) = t.req.quantity := by
  unfold request
  rw [if_pos h]
  exact Function.update_self ..

theorem liability_request_of_ne (l : Ledger) {t : Entry} (h : c ≠ l.chain t.req.orderId) :
    (l.request t).liability c = l.liability c := by
  unfold request
  split
  · exact Function.update_of_ne h ..
  · rfl

/-- A request sets the liability of no other chain. -/
theorem Keeps.request (h : l.Keeps b) {t : Entry} (hc : ∀ r ∈ b.orders, l.chain r.id ≠ l.chain t.req.orderId) :
    (l.request t).Keeps b := by
  refine ⟨fun r hr => ?_, fun r hr => ?_, fun r hr r' hr' e => ?_⟩
  · rw [executed_request, chain_request]; exact h.executed r hr
  · rw [chain_request, liability_request_of_ne l (hc r hr)]; exact h.liability r hr
  · rw [chain_request] at e; exact h.unique r hr r' hr' e

theorem within_request {t : Entry} {k : ℕ} : (l.request t).Within b c k ↔ l.Within b c k := by
  constructor <;> rintro ⟨h₁, h₂⟩
  · rw [executed_request] at h₁
    rw [chain_request] at h₂
    exact ⟨h₁, h₂⟩
  · refine ⟨?_, ?_⟩
    · rw [executed_request]; exact h₁
    · rw [chain_request]; exact h₂

/-- What a request does: the ledger keeps up with the book, a chain that the request
does not open or replace has no more to execute than before, and the chain it caps has
at most the request's quantity or what it had executed. -/
structure Posted (l : Ledger) (b : Book) (t : Entry) (b' : Book) : Prop where
  keeps : (l.post t).Keeps b'
  within : ∀ c k, (t.req.type = .new → c ≠ t.req.orderId) → ¬ l.Replaces c t → l.Within b c k →
    (l.post t).Within b' c k
  caps : t.Caps → (l.post t).Within b' (l.chain t.req.orderId)
    (max t.req.quantity (l.executed (l.chain t.req.orderId)))

variable {req : EngineRequest} {owned : Bool}

theorem Posted.ignored (h : l.Keeps b) (hcaps : (Entry.mk req owned []).Caps →
      l.Within b (l.chain req.orderId) (max req.quantity (l.executed (l.chain req.orderId)))) :
    Posted l b ⟨req, owned, []⟩ b := by
  have hpost : l.post ⟨req, owned, []⟩ = l := by
    rw [post, request, if_neg (by simp [Entry.SetsLiability, Entry.answer])]
    rfl
  refine ⟨?_, fun c k _ _ hw => ?_, fun hc => ?_⟩
  · rw [hpost]; exact h
  · rw [hpost]; exact hw
  · rw [hpost]; exact hcaps hc

/-- A chain without a resting order executes nothing more. -/
theorem Within.of_removed (h : l.Keeps b) {o : Resting} (ho : o ∈ b.orders) {k : ℕ}
    (hk : l.executed (l.chain o.id) ≤ k) : l.Within (b.remove o.id) (l.chain o.id) k :=
  ⟨hk, fun _ hr e => absurd e (h.chain_ne ho hr)⟩

theorem Posted.cancelAll (h : l.Keeps b) {o : Resting} (ho : o ∈ b.orders) (hid : o.id = req.orderId) :
    Posted l b ⟨req, owned, (Spec.cancelAll b o).events⟩ (b.remove o.id) := by
  set t : Entry := ⟨req, owned, (Spec.cancelAll b o).events⟩
  have hpost : l.post t = l.request t := rfl
  refine ⟨?_, fun c k _ _ hw => ?_, fun _ => ?_⟩
  · rw [hpost]
    refine (h.remove o.id).request fun r hr => ?_
    show l.chain r.id ≠ l.chain req.orderId
    rw [← hid]
    exact h.chain_ne ho hr
  · rw [hpost, within_request]
    exact hw.remove o.id
  · rw [hpost, within_request]
    show l.Within _ (l.chain req.orderId) _
    rw [← hid]
    exact .of_removed h ho (Nat.le_max_right _ _)

/-- An order id that nothing has named: its chain is empty and its own. -/
structure Fresh (l : Ledger) (id : ℕ) : Prop where
  chain : l.chain id = id
  executed : l.executed id = 0
  other : ∀ id', id' ≠ id → l.chain id' ≠ id

theorem posted_enter (capacity : ℕ) (h : l.Keeps b) (hb : b.WF) (ht : req.type = .new) (hf : l.Fresh req.orderId) :
    Posted l b ⟨req, owned, (enter capacity b req).events⟩ (enter capacity b req).book := by
  have hnocaps : ∀ es, ¬ (Entry.mk req owned es).Caps := fun es hc => by
    rcases hc.1 with e | e <;> rw [show (Entry.mk req owned es).req.type = .new from ht] at e <;> cases e
  unfold enter
  dsimp only
  split_ifs with hid hfull
  · exact .ignored h fun hc => absurd hc (hnocaps _)
  · set t : Entry := ⟨req, owned, [{
      orderId := req.orderId, clientId := req.clientId, type := .rejected, reason := .bookFull }]⟩
    have hpost : l.post t = l := by
      rw [post, request, if_neg (by simp [t, Entry.SetsLiability, Entry.answer])]
      rfl
    exact ⟨by rw [hpost]; exact h, fun c k _ _ hw => by rw [hpost]; exact hw, fun hc => absurd hc (hnocaps _)⟩
  · set t : Entry := ⟨req, owned, {
      orderId := req.orderId, clientId := req.clientId, price := req.price, quantity := req.quantity,
      type := .accepted } :: (newOrder req).events b⟩
    have hpost : l.post t = (l.request t).events ((newOrder req).events b) := rfl
    have hset : t.SetsLiability := .inl ⟨ht, rfl⟩
    have hc : ∀ r ∈ b.orders, l.chain r.id ≠ l.chain req.orderId := fun r hr => by
      rw [hf.chain]
      exact hf.other r.id fun e => hid (Book.mem_ids.mpr ⟨r, hr, e⟩)
    obtain ⟨hk, hw, -⟩ := (h.request (t := t) hc).incoming (newOrder req) hb
      (by rw [chain_request]; exact hc)
      (by rw [chain_request, executed_request]; exact (congrArg l.executed hf.chain).trans hf.executed)
      (by rw [chain_request]; exact (liability_request hset).trans (Nat.zero_add _).symm)
    refine ⟨by rw [hpost]; exact hk, fun c k hne _ hwc => ?_, fun hc => absurd hc (hnocaps _)⟩
    rw [hpost]
    refine hw c k ?_ (within_request.mpr hwc)
    rw [chain_request]
    exact fun e => hne ht (e.trans hf.chain)

/-- Every order of a reduced book has a past in `b`. -/
theorem exists_of_mem_reduce (hb : b.WF) {o : Resting} (ho : o ∈ b.orders) {q : ℕ} (hq : q ≤ o.openQuantity)
    {r : Resting} (hr : r ∈ (b.reduce o.id q).orders) : ∃ r' ∈ b.orders,
      r'.id = r.id ∧ r'.executedQuantity = r.executedQuantity ∧ r.openQuantity ≤ r'.openQuantity := by
  rcases Book.mem_orders_reduce.mp hr with ⟨hr, -⟩ | ⟨r', hr', hid', rfl⟩
  · exact ⟨r, hr, rfl, rfl, Nat.le_refl _⟩
  · obtain rfl := hb.eq_of_id hr' ho hid'
    exact ⟨r', hr', rfl, rfl, hq⟩

/-- A request that sets the liability of `o`, which is then open for what is left of it. -/
theorem Keeps.reduce (h : l.Keeps b) (hb : b.WF) {o : Resting} (ho : o ∈ b.orders) {t : Entry}
    (hset : t.SetsLiability) (hchain : l.chain t.req.orderId = l.chain o.id) {q : ℕ} (hq : q ≤ o.openQuantity)
    (hsum : o.executedQuantity + q = t.req.quantity) : (l.request t).Keeps (b.reduce o.id q) := by
  refine ⟨fun r hr => ?_, fun r hr => ?_, fun r hr r' hr' e => ?_⟩
  · obtain ⟨r₀, hr₀, e, he, -⟩ := exists_of_mem_reduce hb ho hq hr
    rw [executed_request, chain_request, ← e, ← he]
    exact h.executed r₀ hr₀
  · rw [chain_request]
    rcases Book.mem_orders_reduce.mp hr with ⟨hr, hne⟩ | ⟨r', hr', hid', rfl⟩
    · rw [liability_request_of_ne l (hchain ▸ fun e => hne (h.unique r hr o ho e))]
      exact h.liability r hr
    · obtain rfl := hb.eq_of_id hr' ho hid'
      show r'.executedQuantity + q = (l.request t).liability (l.chain r'.id)
      rw [← hchain, liability_request hset]
      exact hsum
  · obtain ⟨r₁, hr₁, e₁, -⟩ := exists_of_mem_reduce hb ho hq hr
    obtain ⟨r₂, hr₂, e₂, -⟩ := exists_of_mem_reduce hb ho hq hr'
    rw [chain_request, ← e₁, ← e₂] at e
    rw [← e₁, ← e₂]
    exact h.unique r₁ hr₁ r₂ hr₂ e

theorem posted_cancel (h : l.Keeps b) (hb : b.WF) (ht : req.type = .cancel) :
    Posted l b ⟨req, b.owns req, (cancel b req).events⟩ (cancel b req).book := by
  unfold cancel
  cases hf : b.find? req.orderId with
  | none =>
    refine .ignored h fun hc => absurd hc.2 ?_
    simp [Book.owns, hf]
  | some o =>
    obtain ⟨ho, hid⟩ := find?_mem hf
    have hopen := hb.open_pos o ho
    dsimp only
    split_ifs with hig hz
    · -- a CANCEL that would not lower the liability
      refine .ignored h fun hc => ?_
      have hown : o.clientId = req.clientId := by
        have := hc.2
        simpa [Book.owns, hf] using this
      have hle := hig.resolve_left fun e => e hown
      rw [← hid]
      refine ⟨Nat.le_max_right _ _, fun r hr e => ?_⟩
      obtain rfl := hb.eq_of_id hr ho (h.unique r hr o ho e)
      omega
    · exact .cancelAll h ho hid
    · have hlt : o.executedQuantity < req.quantity := by omega
      set t : Entry := ⟨req, b.owns req, [{
        orderId := o.id, clientId := o.clientId, price := o.price,
        quantity := o.openQuantity - (req.quantity - o.executedQuantity), type := .canceled,
        reason := .userRequested }]⟩
      have hpost : l.post t = l.request t := rfl
      have hset : t.SetsLiability := .inr (.inl ⟨ht, rfl⟩)
      have hchain : l.chain t.req.orderId = l.chain o.id := by rw [hid]
      have hq : req.quantity - o.executedQuantity ≤ o.openQuantity := by omega
      refine ⟨?_, fun c k _ _ hw => ?_, fun _ => ?_⟩
      · rw [hpost]
        exact h.reduce hb ho hset hchain hq (show _ = req.quantity by omega)
      · rw [hpost, within_request]
        refine ⟨hw.executed, fun r hr e => ?_⟩
        obtain ⟨r₀, hr₀, e₀, he, hle⟩ := exists_of_mem_reduce hb ho hq hr
        have := hw.resting r₀ hr₀ (e₀ ▸ e)
        omega
      · rw [hpost, within_request, hchain]
        refine ⟨Nat.le_max_right _ _, fun r hr e => ?_⟩
        rcases Book.mem_orders_reduce.mp hr with ⟨hr, hne⟩ | ⟨r', hr', hid', rfl⟩
        · exact absurd (h.unique r hr o ho e) hne
        · obtain rfl := hb.eq_of_id hr' ho hid'
          show r'.executedQuantity + (req.quantity - r'.executedQuantity) ≤ max req.quantity _
          omega

/-- Order `id` put on chain `c`. -/
def join (l : Ledger) (id c : ℕ) : Ledger := { l with chain := Function.update l.chain id c }

theorem chain_join_of_mem {id : ℕ} (hid : id ∉ b.ids) {r : Resting} (hr : r ∈ b.orders) (c : ℕ) :
    (l.join id c).chain r.id = l.chain r.id :=
  Function.update_of_ne (fun e => hid (Book.mem_ids.mpr ⟨r, hr, e⟩)) ..

theorem Keeps.join (h : l.Keeps b) {id : ℕ} (hid : id ∉ b.ids) (c : ℕ) : (l.join id c).Keeps b := by
  refine ⟨fun r hr => ?_, fun r hr => ?_, fun r hr r' hr' e => ?_⟩
  · rw [chain_join_of_mem hid hr]; exact h.executed r hr
  · rw [chain_join_of_mem hid hr]; exact h.liability r hr
  · rw [chain_join_of_mem hid hr, chain_join_of_mem hid hr'] at e
    exact h.unique r hr r' hr' e

theorem Within.join {c' k : ℕ} (h : l.Within b c' k) {id : ℕ} (hid : id ∉ b.ids) (c : ℕ) :
    (l.join id c).Within b c' k :=
  ⟨h.executed, fun r hr e => h.resting r hr ((chain_join_of_mem hid hr c).symm.trans e)⟩

theorem Within.mono {k k' : ℕ} (h : l.Within b c k) (hk : k ≤ k') : l.Within b c k' :=
  ⟨h.executed.trans hk, fun r hr e => (h.resting r hr e).trans hk⟩

theorem posted_replace (h : l.Keeps b) (hb : b.WF) (ht : req.type = .replace) (hnew : req.newOrderId ∉ b.ids) :
    Posted l b ⟨req, b.owns req, (replace b req).events⟩ (replace b req).book := by
  unfold replace
  cases hf : b.find? req.orderId with
  | none =>
    refine .ignored h fun hc => absurd hc.2 ?_
    simp [Book.owns, hf]
  | some o =>
    obtain ⟨ho, hid⟩ := find?_mem hf
    dsimp only
    split
    · next hig =>
      refine .ignored h fun hc => absurd hig ?_
      have hown := hc.2
      simp only [Book.owns, hf, beq_iff_eq] at hown
      exact fun e => e.elim (fun e => e hown) hnew
    split
    · exact .cancelAll h ho hid
    · next hq =>
      set i := replacement req o
      have hsum : i.executed + i.quantity = req.quantity := by
        have hq' : req.quantity - o.executedQuantity ≠ 0 := hq
        show o.executedQuantity + (req.quantity - o.executedQuantity) = req.quantity
        omega
      set t : Entry := ⟨req, b.owns req, {
        orderId := i.id, origOrderId := o.id, clientId := i.clientId, price := i.price, quantity := i.quantity,
        type := .replaced } :: i.events (b.remove o.id)⟩
      have hset : t.SetsLiability := .inr (.inr ⟨ht, rfl⟩)
      have hchain : l.chain t.req.orderId = l.chain o.id := by rw [hid]
      have hfresh : i.id ∉ (b.remove o.id).ids := fun hm => hnew (Book.mem_ids_remove.mp hm).1
      set l₁ := (l.request t).join i.id (l.chain o.id)
      have hpost : l.post t = l₁.events (i.events (b.remove o.id)) := by
        rw [post, show t.events = _ :: _ from rfl, events_cons]
        refine congrArg (fun l' => events l' _) ?_
        show (l.request t).join i.id ((l.request t).chain o.id) = l₁
        rw [chain_request]
      have hjoin : l₁.chain i.id = l.chain o.id := Function.update_self ..
      have hother : ∀ r ∈ (b.remove o.id).orders, l₁.chain r.id ≠ l.chain o.id := fun r hr => by
        rw [show l₁.chain r.id = l.chain r.id by
          rw [← chain_request l t]; exact chain_join_of_mem hfresh hr _]
        exact h.chain_ne ho hr
      have hkeeps : l₁.Keeps (b.remove o.id) := by
        refine Keeps.join ((h.remove o.id).request fun r hr => ?_) hfresh _
        rw [hchain]
        exact h.chain_ne ho hr
      obtain ⟨hk, hw, hcap⟩ := hkeeps.incoming i (hb.remove o.id) (by rw [hjoin]; exact hother)
        (by rw [hjoin]; show (l.request t).executed _ = _; rw [executed_request]; exact h.executed o ho)
        (by rw [hjoin, hsum, ← hchain]; exact liability_request hset)
      rw [hjoin] at hw hcap
      refine ⟨by rw [hpost]; exact hk, fun c k _ hnr hwc => ?_, fun _ => ?_⟩
      · rw [hpost]
        exact hw c k (fun e => hnr ⟨ht, rfl, hchain.trans e.symm⟩)
          ((within_request.mpr (hwc.remove o.id)).join hfresh _)
      · rw [hpost, hchain]
        rw [hsum] at hcap
        exact hcap.mono (Nat.le_max_left _ _)

theorem Posted.flagFirst {es : List Event} (h : Posted l b ⟨req, owned, es⟩ b') :
    Posted l b ⟨req, owned, Spec.flagFirst es⟩ b' := by
  cases es with
  | nil => exact h
  | cons e es => exact ⟨h.keeps, h.within, h.caps⟩

/-- What one request does. -/
theorem posted (capacity : ℕ) (h : l.Keeps b) (hb : b.WF) (hfresh : req.type = .new → l.Fresh req.orderId)
    (hnew : req.type = .replace → req.newOrderId ∉ b.ids) :
    Posted l b (entry capacity b req) (process capacity b req).book := by
  refine Posted.flagFirst ?_
  unfold process handle
  cases ht : req.type with
  | new => exact posted_enter capacity h hb ht (hfresh ht)
  | cancel => exact posted_cancel h hb ht
  | replace => exact posted_replace h hb ht (hnew ht)

/-! ## Runs -/

theorem Fresh.event {id : ℕ} (h : l.Fresh id) {e : Event} (hid : e.orderId ≠ id)
    (hr : ¬ (e.type = .replaced ∧ e.origOrderId = id)) : (l.event e).Fresh id := by
  unfold Ledger.event
  split
  · next ht =>
    refine ⟨(Function.update_of_ne hid.symm ..).trans h.chain, h.executed, fun id' hne => ?_⟩
    show Function.update l.chain e.orderId (l.chain e.origOrderId) id' ≠ id
    by_cases e' : id' = e.orderId
    · subst e'
      rw [Function.update_self]
      exact h.other _ fun e'' => hr ⟨ht, e''⟩
    · rw [Function.update_of_ne e']
      exact h.other id' hne
  · refine ⟨h.chain, (Function.update_of_ne (fun e' => ?_) ..).trans h.executed, h.other⟩
    exact h.other e.orderId hid e'.symm
  · exact h

theorem Fresh.events {id : ℕ} (h : l.Fresh id) {es : List Event}
    (hes : ∀ e ∈ es, e.orderId ≠ id ∧ ¬ (e.type = .replaced ∧ e.origOrderId = id)) : (l.events es).Fresh id := by
  induction es generalizing l with
  | nil => exact h
  | cons e es ih =>
    obtain ⟨hid, hr⟩ := hes e List.mem_cons_self
    exact ih (h.event hid hr) fun e' he' => hes e' (List.mem_cons_of_mem _ he')

/-- An id that a request does not introduce stays fresh. -/
theorem Fresh.post (capacity : ℕ) {id : ℕ} (h : l.Fresh id) (hb : b.WF) (hid : id ∉ b.ids)
    (hnew : id ∉ introduces req) : (l.post (entry capacity b req)).Fresh id := by
  have hdesc := Life.follow_spec (Life.describes_nil id) (follow_process_unborn capacity hb hid hnew).1
  obtain ⟨htrace, hnr⟩ := hdesc
  rw [List.nil_append] at htrace hnr
  have hreq : (l.request (entry capacity b req)).Fresh id :=
    ⟨by rw [chain_request]; exact h.chain, by rw [executed_request]; exact h.executed,
      by rw [chain_request]; exact h.other⟩
  refine hreq.events fun e he => ⟨fun e' => ?_, fun hr => hnr ⟨e, he, hr⟩⟩
  have hmem : e ∈ trace id (process capacity b req).events := List.mem_filter.mpr ⟨he, by simpa using e'⟩
  rw [htrace] at hmem
  cases hmem

/-- A ledger and a book before requests whose ids are all new. -/
structure Ready (l : Ledger) (b : Book) (reqs : List EngineRequest) : Prop where
  keeps : l.Keeps b
  wf : b.WF
  prices : ∀ req ∈ reqs, PriceOk req
  nodup : (reqs.flatMap introduces).Nodup
  fresh : ∀ id ∈ reqs.flatMap introduces, l.Fresh id ∧ id ∉ b.ids

variable {reqs : List EngineRequest}

theorem Ready.new (hp : ∀ req ∈ reqs, PriceOk req) (hnd : (reqs.flatMap introduces).Nodup) :
    Ready {} {} reqs where
  keeps := ⟨fun _ hr => absurd hr List.not_mem_nil, fun _ hr => absurd hr List.not_mem_nil,
    fun _ hr => absurd hr List.not_mem_nil⟩
  wf := .new
  prices := hp
  nodup := hnd
  fresh _ _ := ⟨⟨rfl, rfl, fun _ h => h⟩, fun h => by cases h⟩

theorem Ready.step (capacity : ℕ) (h : Ready l b (req :: reqs)) :
    Posted l b (entry capacity b req) (process capacity b req).book ∧
      Ready (l.post (entry capacity b req)) (process capacity b req).book reqs := by
  have hnd := h.nodup
  rw [List.flatMap_cons] at hnd
  obtain ⟨-, hnd', hdisj⟩ := List.nodup_append.mp hnd
  have hposted := @posted l b req capacity h.keeps h.wf
    (fun ht => (h.fresh _ (List.mem_append_left _ (by simp [introduces, ht]))).1)
    (fun ht => (h.fresh _ (List.mem_append_left _ (by simp [introduces, ht]))).2)
  refine ⟨hposted, hposted.keeps, process_wf capacity h.wf (h.prices req List.mem_cons_self),
    fun r hr => h.prices r (List.mem_cons_of_mem _ hr), hnd', fun id hid => ?_⟩
  obtain ⟨hf, hn⟩ := h.fresh id (List.mem_append_right _ hid)
  have hni : id ∉ introduces req := fun hm => hdisj id hm id hid rfl
  exact ⟨hf.post capacity h.wf hn hni, (follow_process_unborn capacity h.wf hn hni).2⟩

theorem Ready.keeps_after (capacity : ℕ) (h : Ready l b reqs) :
    (l.posts (transcript capacity b reqs)).Keeps (after capacity b reqs) := by
  induction reqs generalizing l b with
  | nil => exact h.keeps
  | cons req reqs ih => exact ih (h.step capacity).2

/-- A bound on a chain holds until the chain is replaced. -/
theorem Ready.within_after (capacity : ℕ) (h : Ready l b reqs) {k : ℕ} (hw : l.Within b c k)
    (hc : c ∉ reqs.flatMap introduces) (hu : Unreplaced c l (transcript capacity b reqs)) :
    (l.posts (transcript capacity b reqs)).Within (after capacity b reqs) c k := by
  induction reqs generalizing l b with
  | nil => exact hw
  | cons req reqs ih =>
    obtain ⟨hposted, hready⟩ := h.step capacity
    rw [List.flatMap_cons, List.mem_append, not_or] at hc
    refine ih hready (hposted.within c k (fun ht e => hc.1 ?_) hu.1 hw) hc.2 hu.2
    have ht' : req.type = .new := ht
    have e' : c = req.orderId := e
    simp [introduces, ht', e']

theorem mem_ids_of_owns (h : b.owns req = true) : req.orderId ∈ b.ids := by
  unfold Book.owns at h
  split at h
  · next o ho =>
    obtain ⟨hm, e⟩ := find?_mem ho
    exact Book.mem_ids.mpr ⟨o, hm, e⟩
  · cases h

/-- After a request that caps its chain the chain's executed shares stay below the
cap until it is replaced. -/
theorem Ready.capped (capacity : ℕ) (h : Ready l b reqs) {t₁ t₂ : List Entry} {s : Entry}
    (ht : transcript capacity b reqs = t₁ ++ s :: t₂) (hs : s.Caps)
    (hu : Unreplaced ((l.posts t₁).chain s.req.orderId) ((l.posts t₁).post s) t₂) :
    (l.posts (transcript capacity b reqs)).executed ((l.posts t₁).chain s.req.orderId) ≤
      max s.req.quantity ((l.posts t₁).executed ((l.posts t₁).chain s.req.orderId)) := by
  induction t₁ generalizing l b reqs with
  | nil =>
    cases reqs with
    | nil => cases ht
    | cons req reqs =>
      obtain ⟨rfl, rfl⟩ := List.cons.inj ht
      obtain ⟨hposted, hready⟩ := h.step capacity
      refine (hready.within_after capacity (hposted.caps hs) (fun hm => ?_) hu).executed
      -- the chain of a resting order is not named by a later request
      obtain ⟨hf, hn⟩ := h.fresh _ (List.mem_append_right _ hm)
      exact hf.other req.orderId (fun e => hn (e ▸ mem_ids_of_owns hs.2)) rfl
  | cons t t₁ ih =>
    cases reqs with
    | nil => cases ht
    | cons req reqs =>
      obtain ⟨rfl, ht'⟩ := List.cons.inj ht
      exact ih (h.step capacity).2 ht' hu

end Ledger

end Exchange.Spec
