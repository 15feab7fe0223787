import Exchange.Proof.Engine.Run

/-!
# What is written when

`process` writes the events and messages of the reference book under the context of its request
(`process_written`): the market data of a run comes in groups, one for each request and each with
the time at which its request was taken (`handleMatching_stamps`).

A market data ring that has no room loses a message and changes nothing else that is written
(`Thins`), so a run is compared with the run in which there is always room
(`full_ring_loses_messages_only`).
-/

namespace Exchange

open Spec (Resting Book)

variable {n : ℕ} {b b' : Orderbook} {q : Side → ℕ → List ℕ} {A : Book}

namespace Output

theorem publish_stamped (o : Output) (ctx : Context) (m : ItchBody) :
    ∃ new, (o.publish ctx m).marketData = o.marketData ++ new ∧ ∀ m ∈ new, m.header = itchHeader ctx := by
  unfold publish
  split_ifs
  · exact ⟨_, rfl, List.forall_mem_singleton.mpr rfl⟩
  · exact ⟨[], (List.append_nil _).symm, fun _ hm => absurd hm List.not_mem_nil⟩

theorem publishAll_stamped (o : Output) (ctx : Context) (itch : List ItchBody) :
    ∃ new, (o.publishAll ctx itch).marketData = o.marketData ++ new ∧ ∀ m ∈ new, m.header = itchHeader ctx := by
  induction itch generalizing o with
  | nil => exact ⟨[], (List.append_nil _).symm, fun _ hm => absurd hm List.not_mem_nil⟩
  | cons m itch ih =>
    obtain ⟨new, hnew, hall⟩ := o.publish_stamped ctx m
    obtain ⟨new', hnew', hall'⟩ := ih (o.publish ctx m)
    refine ⟨new ++ new', ?_, List.forall_mem_append.mpr ⟨hall, hall'⟩⟩
    rw [← List.append_assoc, ← hnew, ← hnew']
    rfl

/-- What a request publishes has its time. -/
theorem write_stamped (o : Output) (ctx : Context) (events : List Event) (itch : List ItchBody) :
    (∃ new, (o.write ctx events itch).marketData = o.marketData ++ new ∧ ∀ m ∈ new, m.header = itchHeader ctx) ∧
      (o.write ctx events itch).env = o.env := by
  obtain ⟨hdata, -, henv⟩ := o.emitAll_marketData ctx events
  obtain ⟨new, hnew, hall⟩ := (o.emitAll ctx events).publishAll_stamped ctx itch
  exact ⟨⟨new, by rw [write, hnew, hdata], hall⟩, (publishAll_outRing _ ctx itch).2.trans henv⟩

end Output

/-- The context of a request. -/
def Orderbook.context (b : Orderbook) (req : EngineRequest) (enginePopTsc : ℕ) : Context where
  req := req
  enginePopTsc := enginePopTsc
  itchTimestamp := b.out.env.nsSinceMidnight enginePopTsc

/-- `process` writes what the reference book says, and nothing else. -/
theorem process_written (h : Rep n b q A) (hA : A.WF) {req : EngineRequest} (hp : Spec.PriceOk req)
    (enginePopTsc : ℕ) : ∃ b' q', (∀ a, b.process a req enginePopTsc = some ((Spec.process n A req).handled, b')) ∧
      Rep n b' q' (Spec.process n A req).book ∧
      b'.out = ({ b.out with answered := false } : Output).write (b.context req enginePopTsc)
        (Spec.handle n A req).events (Spec.process n A req).itch := by
  have h₀ : Rep n { b with out := { b.out with answered := false } } q A := h.congr rfl rfl rfl rfl rfl
  have hdoes : Does n (b.context req enginePopTsc) { b with out := { b.out with answered := false } }
      (fun a => b.process a req enginePopTsc) (Spec.handle n A req) := by
    unfold Orderbook.process Spec.handle
    cases ht : req.type with
    | new => exact enter_ok _ h₀ hA ht hp
    | cancel => exact cancel_ok _ h₀ hA
    | replace => exact replace_ok _ h₀ hA ht hp
  exact hdoes

/-- The messages of a group have the header of their request. -/
def Stamped (env : Env) (r : EngineRequest × ℕ) (g : List ITCH) : Prop :=
  ∀ m ∈ g, m.header = ⟨bookStockLocate, 0, env.nsSinceMidnight r.2⟩

/-- Market data, in groups: one for each request, under the time it was taken at. -/
theorem handleMatching_stamps (h : Rep n b q A) (hA : A.WF) {reqs : List (EngineRequest × ℕ)}
    (hp : ∀ r ∈ reqs, Spec.PriceOk r.1) {a : Arith} {returned : List Bool}
    (hrun : Engine.handleMatching a b reqs = some (returned, b')) :
    ∃ groups : List (List ITCH), b'.out.marketData = b.out.marketData ++ groups.flatten ∧
      List.Forall₂ (Stamped b.out.env) reqs groups := by
  induction reqs generalizing b q A returned with
  | nil =>
    cases hrun
    exact ⟨[], (List.append_nil _).symm, .nil⟩
  | cons r reqs ih =>
    obtain ⟨hr, hp⟩ := List.forall_mem_cons.mp hp
    obtain ⟨b₁, q₁, hres, hrep, hout⟩ := process_written h hA hr r.2
    obtain ⟨⟨new, hnew, hall⟩, henv⟩ := Output.write_stamped { b.out with answered := false }
      (b.context r.1 r.2) (Spec.handle n A r.1).events (Spec.process n A r.1).itch
    rw [← hout] at hnew henv
    rw [Engine.handleMatching, Engine.executeRequest, hres, Option.bind_eq_bind, Option.bind_some] at hrun
    obtain ⟨⟨rest, b₂⟩, hrest, hrun⟩ := Option.bind_eq_some_iff.mp hrun
    cases hrun
    obtain ⟨groups, hgroups, hstamps⟩ := ih hrep (Spec.process_wf n hA hr) hp hrest
    refine ⟨new :: groups, ?_, .cons hall ?_⟩
    · rw [hgroups, hnew, List.flatten_cons, List.append_assoc]
    · rw [henv] at hstamps
      exact hstamps

theorem exists_stamped {env : Env} {reqs : List (EngineRequest × ℕ)} {groups : List (List ITCH)}
    (h : List.Forall₂ (Stamped env) reqs groups) :
    ∀ m ∈ groups.flatten, ∃ r ∈ reqs, m.header = ⟨bookStockLocate, 0, env.nsSinceMidnight r.2⟩ := by
  induction h with
  | nil => exact fun m hm => absurd hm List.not_mem_nil
  | @cons r g reqs groups hg _ ih =>
    rw [List.flatten_cons]
    refine List.forall_mem_append.mpr ⟨fun m hm => ⟨r, List.mem_cons_self, hg m hm⟩, fun m hm => ?_⟩
    obtain ⟨r', hr', hheader⟩ := ih m hm
    exact ⟨r', List.mem_cons_of_mem _ hr', hheader⟩

/-- The times of the messages do not go back if those of the requests do not. -/
theorem pairwise_stamped {env : Env} {reqs : List (EngineRequest × ℕ)} {groups : List (List ITCH)}
    (h : List.Forall₂ (Stamped env) reqs groups)
    (hreqs : reqs.Pairwise fun r r' => env.nsSinceMidnight r.2 ≤ env.nsSinceMidnight r'.2) :
    groups.flatten.Pairwise fun m m' => m.header.timestamp ≤ m'.header.timestamp := by
  induction h with
  | nil => exact .nil
  | @cons r g reqs groups hg htail ih =>
    obtain ⟨hr, hreqs⟩ := List.pairwise_cons.mp hreqs
    rw [List.flatten_cons, List.pairwise_append]
    refine ⟨List.pairwise_of_forall_mem_list fun m hm m' hm' => ?_, ih hreqs, fun m hm m' hm' => ?_⟩
    · rw [hg m hm, hg m' hm']
    · obtain ⟨r', hr', hheader⟩ := exists_stamped htail m' hm'
      rw [hg m hm, hheader]
      exact hr r' hr'

/-! ## A ring without room -/

/-- The same surroundings, with a market data ring that always has room. -/
def Env.withRoom (env : Env) : Env := { env with marketDataRoom := fun _ => true }

namespace Output

/-- `o` is `o₀` without the market data that `o` counts as dropped. -/
structure Thins (o o₀ : Output) : Prop where
  env : o₀.env = o.env.withRoom
  outRing : o.outRing = o₀.outRing
  answered : o.answered = o₀.answered
  marketData : o.marketData.Sublist o₀.marketData
  drops : o.marketData.length + o.marketDataDrops = o₀.marketData.length
  noDrops : o₀.marketDataDrops = 0

variable {o o₀ : Output} {ctx : Context}

theorem Thins.emit (h : Thins o o₀) (e : Event) : Thins (o.emit ctx e) (o₀.emit ctx e) := by
  have hring : (o.emit ctx e).outRing = (o₀.emit ctx e).outRing := by
    unfold Output.emit
    rw [h.env, h.outRing, h.answered]
    rfl
  exact ⟨h.env, hring, rfl, h.marketData, h.drops, h.noDrops⟩

theorem Thins.publish (h : Thins o o₀) (m : ItchBody) : Thins (o.publish ctx m) (o₀.publish ctx m) := by
  have hroom : o₀.publish ctx m =
      { o₀ with marketData := o₀.marketData ++ [{ header := itchHeader ctx, body := m }] } := by
    rw [Output.publish, h.env]
    exact if_pos rfl
  have hdrops := h.drops
  rw [hroom]
  unfold Output.publish
  split
  · refine ⟨h.env, h.outRing, h.answered, h.marketData.append (.refl _), ?_, h.noDrops⟩
    simp only [List.length_append, List.length_singleton]
    omega
  · refine ⟨h.env, h.outRing, h.answered, h.marketData.trans (List.sublist_append_left _ _), ?_, h.noDrops⟩
    simp only [List.length_append, List.length_singleton]
    omega

theorem Thins.write (h : Thins o o₀) (events : List Event) (itch : List ItchBody) :
    Thins (o.write ctx events itch) (o₀.write ctx events itch) := by
  have hemit : Thins (o.emitAll ctx events) (o₀.emitAll ctx events) := by
    induction events generalizing o o₀ with
    | nil => exact h
    | cons e events ih => exact ih (h.emit e)
  unfold Output.write
  generalize o.emitAll ctx events = p at hemit ⊢
  generalize o₀.emitAll ctx events = p₀ at hemit ⊢
  induction itch generalizing p p₀ with
  | nil => exact hemit
  | cons m itch ih => exact ih _ _ (hemit.publish m)

end Output

/-- Two runs, of which one always has room for market data. -/
theorem handleMatching_thins {b₀ : Orderbook} {q₀ : Side → ℕ → List ℕ} (h : Rep n b q A) (h₀ : Rep n b₀ q₀ A)
    (hA : A.WF) (ht : Output.Thins b.out b₀.out) {reqs : List (EngineRequest × ℕ)}
    (hp : ∀ r ∈ reqs, Spec.PriceOk r.1) :
    ∃ returned b' b₀' q' q₀' A', (∀ a, Engine.handleMatching a b reqs = some (returned, b')) ∧
      (∀ a, Engine.handleMatching a b₀ reqs = some (returned, b₀')) ∧ Rep n b' q' A' ∧ Rep n b₀' q₀' A' ∧
      Output.Thins b'.out b₀'.out := by
  induction reqs generalizing b b₀ q q₀ A with
  | nil => exact ⟨[], b, b₀, q, q₀, A, fun _ => rfl, fun _ => rfl, h, h₀, ht⟩
  | cons r reqs ih =>
    obtain ⟨hr, hp⟩ := List.forall_mem_cons.mp hp
    obtain ⟨b₁, q₁, hres, hrep, hout⟩ := process_written h hA hr r.2
    obtain ⟨b₂, q₂, hres₀, hrep₀, hout₀⟩ := process_written h₀ hA hr r.2
    have hctx : b₀.context r.1 r.2 = b.context r.1 r.2 := by
      unfold Orderbook.context
      rw [ht.env]
      rfl
    have hfresh : Output.Thins { b.out with answered := false } { b₀.out with answered := false } :=
      ⟨ht.env, ht.outRing, rfl, ht.marketData, ht.drops, ht.noDrops⟩
    have ht₁ : Output.Thins b₁.out b₂.out := by
      rw [hout, hout₀, hctx]
      exact hfresh.write _ _
    obtain ⟨returned, b', b₀', q', q₀', A', hrun, hrun₀, hreps⟩ := ih hrep hrep₀ (Spec.process_wf n hA hr) ht₁ hp
    refine ⟨(Spec.process n A r.1).handled :: returned, b', b₀', q', q₀', A', fun a => ?_, fun a => ?_, hreps⟩
    · simp only [Engine.handleMatching, Engine.executeRequest, hres, hrun, Option.bind_eq_bind, Option.bind_some]
    · simp only [Engine.handleMatching, Engine.executeRequest, hres₀, hrun₀, Option.bind_eq_bind, Option.bind_some]

/-- However often the market data ring is full, on any requests with limit prices in the band: the
matching thread returns, answers and keeps what it would with a ring that always has room, down to
the time stamps of its events. The ring has the messages that one would have, in their order,
without as many as are counted as dropped. -/
theorem full_ring_loses_messages_only (capacity : ℕ) (env : Env) (reqs : List (EngineRequest × ℕ))
    (hp : ∀ r ∈ reqs, Spec.PriceOk r.1) :
    ∃ returned b b₀, Reaches capacity env reqs returned b ∧ Reaches capacity env.withRoom reqs returned b₀ ∧
      b.out.outRing = b₀.out.outRing ∧ (∀ s p, InBand p → b.levelOrders s p = b₀.levelOrders s p) ∧
      b.out.marketData.Sublist b₀.out.marketData ∧
      b.out.marketData.length + b.out.marketDataDrops = b₀.out.marketData.length ∧ b₀.out.marketDataDrops = 0 := by
  have hnew : Output.Thins (Orderbook.new capacity env).out (Orderbook.new capacity env.withRoom).out :=
    ⟨rfl, rfl, rfl, .refl _, rfl, rfl⟩
  obtain ⟨returned, b, b₀, q, q₀, A, hrun, hrun₀, hrep, hrep₀, ht⟩ :=
    handleMatching_thins (.new capacity env) (.new capacity env.withRoom) .new hnew hp
  refine ⟨returned, b, b₀, hrun .wrapping, hrun₀ .wrapping, ht.outRing, fun s p hb => ?_, ht.marketData, ht.drops,
    ht.noDrops⟩
  rw [hrep.levelOrders_eq s hb, hrep₀.levelOrders_eq s hb]

/-- A ring that is full at every other message. -/
def tightEnv : Env := { marketDataRoom := fun i => i % 2 = 0, nsSinceMidnight := id, rdtsc := id }

theorem full_ring_loses_messages_only_tight : (∀ r ∈ sampleRequests, Spec.PriceOk r.1) ∧
    ∃ returned b b₀, Reaches 2 tightEnv sampleRequests returned b ∧
      Reaches 2 tightEnv.withRoom sampleRequests returned b₀ ∧ 0 < b.out.marketDataDrops ∧
      b.out.marketData.Sublist b₀.out.marketData := by
  have hp : ∀ r ∈ sampleRequests, Spec.PriceOk r.1 := by decide
  obtain ⟨returned, b, b₀, hres, hres₀, -, -, hsub, -⟩ := full_ring_loses_messages_only 2 tightEnv sampleRequests hp
  have hrun : (Engine.handleMatching .wrapping (Orderbook.new 2 tightEnv) sampleRequests).map
      (fun r => decide (0 < r.2.out.marketDataDrops)) = some true := by decide
  rw [show Engine.handleMatching .wrapping (Orderbook.new 2 tightEnv) sampleRequests = some (returned, b)
    from hres] at hrun
  exact ⟨hp, returned, b, b₀, hres, hres₀, of_decide_eq_true (Option.some.inj hrun), hsub⟩

end Exchange
