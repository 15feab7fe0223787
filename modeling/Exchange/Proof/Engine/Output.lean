import Exchange.Framework.Filter
import Exchange.Spec.Book

/-!
# What a request writes

`Output.write`: the events and the messages of a request, in their own order. The two
rings do not depend on each other, so every interleaving of `emit` and `publish` is a
`write` (`emit_publish`), and what a request writes can be read off ring by ring.
-/

namespace Exchange.Output

variable (o : Output) (ctx : Context)

def emitAll (events : List Event) : Output := events.foldl (fun o e => o.emit ctx e) o

def publishAll (itch : List ItchBody) : Output := itch.foldl (fun o m => o.publish ctx m) o

/-- The events pushed to `out_ring_` and the messages published. -/
def write (events : List Event) (itch : List ItchBody) : Output := (o.emitAll ctx events).publishAll ctx itch

theorem emit_publish (e : Event) (m : ItchBody) : (o.publish ctx m).emit ctx e = (o.emit ctx e).publish ctx m := by
  unfold publish emit
  split <;> rfl

theorem emit_publishAll (e : Event) (itch : List ItchBody) :
    (o.publishAll ctx itch).emit ctx e = (o.emit ctx e).publishAll ctx itch := by
  induction itch generalizing o with
  | nil => rfl
  | cons m itch ih => exact (ih (o.publish ctx m)).trans (by rw [emit_publish]; rfl)

theorem emitAll_publishAll (events : List Event) (itch : List ItchBody) :
    (o.publishAll ctx itch).emitAll ctx events = (o.emitAll ctx events).publishAll ctx itch := by
  induction events generalizing o with
  | nil => rfl
  | cons e events ih =>
    show ((o.publishAll ctx itch).emit ctx e).emitAll ctx events = _
    rw [emit_publishAll, ih]; rfl

theorem write_write (events events' : List Event) (itch itch' : List ItchBody) :
    (o.write ctx events itch).write ctx events' itch' = o.write ctx (events ++ events') (itch ++ itch') := by
  show ((((o.emitAll ctx events).publishAll ctx itch).emitAll ctx events').publishAll ctx itch') = _
  rw [emitAll_publishAll, write, emitAll, emitAll, ← List.foldl_append, publishAll, publishAll,
    ← List.foldl_append]
  rfl

theorem emit_eq_write (e : Event) : o.emit ctx e = o.write ctx [e] [] := rfl

theorem publish_eq_write (m : ItchBody) : o.publish ctx m = o.write ctx [] [m] := rfl

/-! ## The rings -/

@[simp] theorem publish_outRing (m : ItchBody) : (o.publish ctx m).outRing = o.outRing := by
  unfold publish; split <;> rfl
@[simp] theorem publish_env (m : ItchBody) : (o.publish ctx m).env = o.env := by
  unfold publish; split <;> rfl

theorem publishAll_outRing (itch : List ItchBody) :
    (o.publishAll ctx itch).outRing = o.outRing ∧ (o.publishAll ctx itch).env = o.env := by
  induction itch generalizing o with
  | nil => exact ⟨rfl, rfl⟩
  | cons m itch ih =>
    obtain ⟨h₁, h₂⟩ := ih (o.publish ctx m)
    exact ⟨h₁.trans (publish_outRing o ctx m), h₂.trans (publish_env o ctx m)⟩

/-- The events after the first do not answer the request. -/
theorem emitAll_of_answered {events : List Event} (he : ∀ e ∈ events, e.answersRequest = false)
    {o : Output} (ho : o.answered = true) :
    (o.emitAll ctx events).outRing.map (·.toEvent) = o.outRing.map (·.toEvent) ++ events := by
  induction events generalizing o with
  | nil => simp [emitAll]
  | cons e events ih =>
    have h := ih (fun e' he' => he e' (List.mem_cons_of_mem _ he')) (o := o.emit ctx e) rfl
    have he' : e.answersRequest = false := he e List.mem_cons_self
    show (emitAll (o.emit ctx e) ctx events).outRing.map _ = _
    rw [h]
    cases e
    simp only at he'
    simp [emit, ho, he']

/-- The events of a request: the first answers it. -/
theorem write_events {events : List Event} (he : ∀ e ∈ events, e.answersRequest = false) {o : Output}
    (ho : o.answered = false) (itch : List ItchBody) :
    (o.write ctx events itch).outRing.map (·.toEvent) = o.outRing.map (·.toEvent) ++ Spec.flagFirst events := by
  rw [write, (publishAll_outRing _ ctx itch).1]
  cases events with
  | nil => simp [emitAll, Spec.flagFirst]
  | cons e events =>
    have h := emitAll_of_answered ctx (fun e' he' => he e' (List.mem_cons_of_mem _ he')) (o := o.emit ctx e) rfl
    show (emitAll (o.emit ctx e) ctx events).outRing.map _ = _
    rw [h]
    simp [emit, ho, Spec.flagFirst]

theorem emitAll_marketData (events : List Event) :
    (o.emitAll ctx events).marketData = o.marketData ∧
      (o.emitAll ctx events).marketDataDrops = o.marketDataDrops ∧ (o.emitAll ctx events).env = o.env := by
  induction events generalizing o with
  | nil => exact ⟨rfl, rfl, rfl⟩
  | cons e events ih => exact ih (o.emit ctx e)

/-- Of the messages `itch` published between `o` and `o'` the ring took `kept`, in their
order, and the others are counted as dropped. -/
def Kept (o o' : Output) (itch kept : List ItchBody) : Prop :=
  kept.Sublist itch ∧ o'.marketData.map (·.body) = o.marketData.map (·.body) ++ kept ∧
    o'.marketDataDrops + kept.length = o.marketDataDrops + itch.length

def Published (o o' : Output) (itch : List ItchBody) : Prop := ∃ kept, Kept o o' itch kept

/-- What was kept is what is new in the ring. -/
theorem Published.kept {o o' : Output} {itch : List ItchBody} (h : Published o o' itch) :
    Kept o o' itch ((o'.marketData.drop o.marketData.length).map (·.body)) := by
  obtain ⟨kept, hsub, hdata, hdrops⟩ := h
  rw [List.map_drop_left hdata]
  exact ⟨hsub, hdata, hdrops⟩

theorem Published.nil (o : Output) : Published o o [] := ⟨[], .slnil, (List.append_nil _).symm, rfl⟩

theorem Published.trans {o o' o'' : Output} {itch itch' : List ItchBody} (h : Published o o' itch)
    (h' : Published o' o'' itch') : Published o o'' (itch ++ itch') := by
  obtain ⟨kept, hsub, hdata, hdrops⟩ := h
  obtain ⟨kept', hsub', hdata', hdrops'⟩ := h'
  refine ⟨kept ++ kept', hsub.append hsub', by rw [hdata', hdata, List.append_assoc], ?_⟩
  rw [List.length_append, List.length_append]
  omega

/-- Nothing dropped, everything kept. -/
theorem Kept.eq_of_drops {o o' : Output} {itch kept : List ItchBody} (h : Kept o o' itch kept)
    (hd : o'.marketDataDrops = o.marketDataDrops) : kept = itch := by
  obtain ⟨hsub, -, hdrops⟩ := h
  exact hsub.eq_of_length (by omega)

theorem Kept.drops_le {o o' : Output} {itch kept : List ItchBody} (h : Kept o o' itch kept) :
    o.marketDataDrops ≤ o'.marketDataDrops := by
  obtain ⟨hsub, -, hdrops⟩ := h
  have := hsub.length_le
  omega

theorem Published.eq_of_drops {o o' : Output} {itch : List ItchBody} (h : Published o o' itch)
    (hd : o'.marketDataDrops = o.marketDataDrops) :
    o'.marketData.map (·.body) = o.marketData.map (·.body) ++ itch := by
  obtain ⟨kept, hk⟩ := h
  rw [hk.2.1, hk.eq_of_drops hd]

/-- Into an empty ring. -/
theorem Published.of_empty {o o' : Output} {itch : List ItchBody} (h : Published o o' itch)
    (hdata : o.marketData = []) (hdrops : o.marketDataDrops = 0) :
    (o'.marketData.map (·.body)).Sublist itch ∧ o'.marketData.length + o'.marketDataDrops = itch.length := by
  obtain ⟨kept, hsub, hkept, hcount⟩ := h
  rw [hdata, List.map_nil, List.nil_append] at hkept
  rw [← List.length_map (f := (·.body)), hkept]
  exact ⟨hsub, by omega⟩

theorem published_publish (m : ItchBody) : Published o (o.publish ctx m) [m] := by
  unfold publish
  split
  · exact ⟨[m], .refl _, by rw [List.map_append]; rfl, rfl⟩
  · exact ⟨[], List.nil_sublist _, (List.append_nil _).symm, rfl⟩

theorem published_publishAll (itch : List ItchBody) : Published o (o.publishAll ctx itch) itch := by
  induction itch generalizing o with
  | nil => exact .nil o
  | cons m itch ih => exact (o.published_publish ctx m).trans (ih (o.publish ctx m))

theorem published_write (events : List Event) (itch : List ItchBody) :
    Published o (o.write ctx events itch) itch := by
  obtain ⟨h₁, h₂, -⟩ := o.emitAll_marketData ctx events
  have h := published_publishAll (o.emitAll ctx events) ctx itch
  unfold Published Kept at h ⊢
  rwa [h₁, h₂] at h

end Exchange.Output
