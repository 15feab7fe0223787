import Exchange.Proof.Server.Gateway
import Exchange.Spec.Interleaving

/-!
# The run that handles one message after the other

What such a run leaves to compare another run with: the notes, the requests and the events
of its messages (`notesOf`, `plainRequests`, `eventsOf`). `Trail.known` says that the orders of
an event have their records from the notes of the messages so far, whatever other notes
follow, and `Trail.response` that its answer is the one these records give.
-/

namespace Exchange

open Spec (Life record recordsOf noteId rejection answer untimed timeless outcome deliveries rejections)

/-! ## Records -/

theorem recordsOf_append (notes notes' : List GatewayNote) :
    recordsOf (notes ++ notes') = notes'.foldl record (recordsOf notes) := List.foldl_append

theorem recordsOf_concat (notes : List GatewayNote) (note : GatewayNote) :
    recordsOf (notes ++ [note]) = record (recordsOf notes) note := recordsOf_append notes [note]

theorem record_of_ne {recs : ℕ → Option OrderRecord} {note : GatewayNote} {id : ℕ} (h : noteId note ≠ some id) :
    record recs note id = recs id := by
  cases note with
  | orderEntered id' r => exact Function.update_of_ne (fun e => h (congrArg some e.symm)) _ _
  | orderReplacing id' r => exact Function.update_of_ne (fun e => h (congrArg some e.symm)) _ _
  | rejected _ _ => rfl

theorem record_of_eq {recs : ℕ → Option OrderRecord} {note : GatewayNote} {id : ℕ} (h : noteId note = some id) :
    (record recs note id).isSome := by
  cases note with
  | orderEntered id' r =>
    cases h
    simp [record]
  | orderReplacing id' r =>
    cases h
    simp [record]
  | rejected _ _ => cases h

theorem foldl_record_of_notMem {recs : ℕ → Option OrderRecord} {notes : List GatewayNote} {id : ℕ}
    (h : id ∉ notes.filterMap noteId) : notes.foldl record recs id = recs id := by
  induction notes generalizing recs with
  | nil => rfl
  | cons note notes ih =>
    rw [List.foldl_cons, ih fun hm => h ?_, record_of_ne fun e => h ?_]
    · rw [List.filterMap_cons_some e]
      exact List.mem_cons_self
    · obtain ⟨note', hn, e⟩ := List.mem_filterMap.mp hm
      exact List.mem_filterMap.mpr ⟨note', List.mem_cons_of_mem _ hn, e⟩

/-- An order has a record if there is a note for it. -/
theorem recordsOf_isSome {notes : List GatewayNote} {id : ℕ} :
    (recordsOf notes id).isSome ↔ id ∈ notes.filterMap noteId := by
  induction notes using List.reverseRecOn with
  | nil => simp [recordsOf]
  | append_singleton notes note ih =>
    rw [recordsOf_concat, List.filterMap_append, List.mem_append, ← ih]
    by_cases h : noteId note = some id
    · simp [record_of_eq h, h]
    · rw [record_of_ne h]
      simp [h]

/-- Notes that follow leave a record, when no order has two notes. -/
theorem recordsOf_mono {notes notes' all : List GatewayNote} (hall : (all.filterMap noteId).Nodup)
    (h : notes <+: notes') (h' : notes' <+: all) {id : ℕ} {r : OrderRecord} (hr : recordsOf notes id = some r) :
    recordsOf notes' id = some r := by
  obtain ⟨rest, rfl⟩ := h
  have hnodup := hall.sublist (h'.sublist.filterMap noteId)
  rw [List.filterMap_append, List.nodup_append] at hnodup
  have hid := recordsOf_isSome.mp (Option.isSome_iff_exists.mpr ⟨r, hr⟩)
  rw [recordsOf_append, foldl_record_of_notMem fun hm => hnodup.2.2 _ hid _ hm rfl, hr]

section

variable {recs recs' : ℕ → Option OrderRecord} {e : Event}

theorem Known.mono (h : Known recs e) (hm : ∀ id r, recs id = some r → recs' id = some r) : Known recs' e where
  record := h.record.imp fun _ hr => ⟨hm _ _ hr.1, hr.2⟩
  orig ht := (h.orig ht).imp fun _ hr => ⟨hm _ _ hr.1, hr.2⟩
  pos := h.pos

/-- Other orders' records do not matter to the answer. -/
theorem Known.answer_eq (h : Known recs e) (hm : ∀ id r, recs id = some r → recs' id = some r) (timestamp : UInt64) :
    answer recs' e timestamp = answer recs e timestamp := by
  obtain ⟨r, hr, -⟩ := h.record
  refine answer_congr ((hm _ _ hr).trans hr.symm) (fun ht => ?_) timestamp
  obtain ⟨orig, ho, -⟩ := h.orig ht
  exact (hm _ _ ho).trans ho.symm

end

/-! ## Timestamps -/

theorem timeless_answer (recs : ℕ → Option OrderRecord) (e : Event) (t t' : UInt64) :
    (answer recs e t).map timeless = (answer recs e t').map timeless := by
  unfold answer
  cases recs e.orderId with
  | none => rfl
  | some r =>
    simp only [Option.bind_eq_bind, Option.bind_some]
    cases Spec.original recs e r with
    | none => rfl
    | some orig =>
      simp only [Option.bind_some, Option.map_some]
      unfold Spec.report timeless
      cases e.type <;> rfl

theorem timeless_rejection (note : GatewayNote) (t t' : UInt64) :
    (rejection t note).map timeless = (rejection t' note).map timeless := by
  cases note <;> rfl

/-! ## Messages -/

/-- The notes of the messages. -/
def notesOf (handled : List Handled) : List GatewayNote := handled.filterMap (·.translation.note)

/-- A request without its latency stamps. -/
def plain (req : EngineRequest) : EngineRequest := { req with readBeginTsc := 0, recvTsc := 0, serverPushTsc := 0 }

/-- The requests of the messages. -/
def plainRequests (handled : List Handled) : List EngineRequest :=
  handled.filterMap fun h => h.translation.request.map plain

/-- The events of the messages. -/
def eventsOf (handled : List Handled) : List Event := handled.flatMap fun h => h.deliveries.map (·.event)

@[simp] theorem notesOf_append (hs hs' : List Handled) : notesOf (hs ++ hs') = notesOf hs ++ notesOf hs' :=
  List.filterMap_append

@[simp] theorem plainRequests_append (hs hs' : List Handled) : plainRequests (hs ++ hs') = plainRequests hs ++ plainRequests hs' :=
  List.filterMap_append

@[simp] theorem eventsOf_append (hs hs' : List Handled) : eventsOf (hs ++ hs') = eventsOf hs ++ eventsOf hs' :=
  List.flatMap_append

variable {n : ℕ} {g g' : Gateway} {v v' : GatewayView} {m : Inbound} {ms : List Inbound} {hd : Handled}
  {handled : List Handled}

theorem notesOf_singleton (hd : Handled) : notesOf [hd] = hd.translation.note.toList := by
  unfold notesOf
  cases h : hd.translation.note <;> simp [h]

theorem Outcome.recs_eq (ho : Outcome n g v m g' v' hd) : v'.recs = (notesOf [hd]).foldl record v.recs := by
  rw [ho.recs, notesOf_singleton]
  cases hd.translation.note <;> rfl

/-- The order a note is for is new. -/
theorem Outcome.noteId_new (ho : Outcome n g v m g' v' hd) {id : ℕ} (h : id ∈ (notesOf [hd]).filterMap noteId) :
    g.entry.nextOrderId ≤ id ∧ id < g'.entry.nextOrderId := by
  rw [notesOf_singleton] at h
  have hb := ho.becomes
  generalize hd.translation = t at hb h
  generalize hd.msg = msg at hb
  generalize g'.entry = entry at hb
  cases hb with
  | ignored => cases h
  | canceling => cases h
  | rejected => cases h
  | entered =>
    obtain rfl := List.mem_singleton.mp h
    exact ⟨Nat.le_refl _, Nat.lt_succ_self _⟩
  | replacing =>
    obtain rfl := List.mem_singleton.mp h
    exact ⟨Nat.le_refl _, Nat.lt_succ_self _⟩

namespace Gateway

theorem Trail.recs (h : Trail n g v ms g' v' handled) : v'.recs = (notesOf handled).foldl record v.recs := by
  induction h with
  | nil => rfl
  | @cons g g₁ g' v v₁ v' m ms hd handled _ ho _ ih =>
    rw [ih, ho.recs_eq, ← List.foldl_append, ← notesOf_append]
    rfl

/-- No order has two notes. -/
theorem Trail.noteIds (h : Trail n g v ms g' v' handled) :
    (∀ id ∈ (notesOf handled).filterMap noteId, g.entry.nextOrderId ≤ id) ∧
      ((notesOf handled).filterMap noteId).Nodup := by
  induction h with
  | nil => exact ⟨nofun, List.nodup_nil⟩
  | @cons g g₁ g' v v₁ v' m ms hd handled _ ho _ ih =>
    rw [← List.singleton_append, notesOf_append, List.filterMap_append]
    refine ⟨fun id hid => ?_, List.nodup_append.mpr ⟨?_, ih.2, fun id hid id' hid' e => ?_⟩⟩
    · rcases List.mem_append.mp hid with hid | hid
      · exact (ho.noteId_new hid).1
      · exact Nat.le_trans ho.next (ih.1 id hid)
    · rw [notesOf_singleton]
      cases hd.translation.note with
      | none => exact List.nodup_nil
      | some note => cases h : noteId note <;> simp [h]
    · have hlt := (ho.noteId_new hid).2
      have hle := ih.1 id' hid'
      omega

theorem Trail.lives (h : Trail n g v ms g' v' handled) (id : ℕ) :
    Life.follow id (v.lives id) (eventsOf handled) = some (v'.lives id) := by
  induction h with
  | nil => rfl
  | @cons g g₁ g' v v₁ v' m ms hd handled _ ho _ ih =>
    rw [eventsOf, List.flatMap_cons, ho.events, Life.follow_append, ho.lives id]
    exact ih

/-- Messages without requests do nothing to the book. -/
theorem Trail.quiet (h : Trail n g v ms g' v' handled) (hreq : plainRequests handled = []) :
    v'.resting = v.resting ∧ eventsOf handled = [] := by
  induction h with
  | nil => exact ⟨rfl, rfl⟩
  | @cons g g₁ g' v v₁ v' m ms hd handled _ ho _ ih =>
    rw [← List.singleton_append, plainRequests_append, List.append_eq_nil_iff] at hreq
    have hnone : hd.translation.request = none := by
      cases h : hd.translation.request with
      | none => rfl
      | some req => simp [plainRequests, h] at hreq
    have hstep : hd.step n v.resting = Spec.ignored v.resting := by rw [Handled.step, hnone]
    obtain ⟨hrest, hevents⟩ := ih hreq.2
    refine ⟨hrest.trans (ho.resting.trans (by rw [hstep]; rfl)), ?_⟩
    rw [eventsOf, List.flatMap_cons, ho.events, hstep]
    exact hevents

/-! ## From a new exchange -/

/-- One of the messages, with the records of the notes up to it. -/
theorem Trail.at {pre post : List Handled} (h : Trail n g v ms g' v' (pre ++ hd :: post))
    (hrecs : v.recs = fun _ => none) : ∃ g₁ v₁ m g₂ v₂, Outcome n g₁ v₁ m g₂ v₂ hd ∧
      v₂.recs = recordsOf (notesOf (pre ++ [hd])) := by
  obtain ⟨_, g₁, v₁, m, g₂, v₂, _, -, hpre, ho, -⟩ := h.split
  refine ⟨g₁, v₁, m, g₂, v₂, ho, ?_⟩
  rw [ho.recs_eq, hpre.recs, hrecs, notesOf_append, recordsOf_append]
  rfl

theorem notesOf_isPrefix (pre post : List Handled) (hd : Handled) :
    notesOf (pre ++ [hd]) <+: notesOf (pre ++ hd :: post) :=
  ⟨notesOf post, by rw [← notesOf_append, ← List.append_cons]⟩

/-- The orders of an event have their records from the notes so far. -/
theorem Trail.known {past rest : List Handled} (h : Trail n g v ms g' v' (past ++ rest))
    (hrecs : v.recs = fun _ => none) {notes : List GatewayNote} (hpast : notesOf past <+: notes)
    (hnotes : notes <+: notesOf (past ++ rest)) {e : Event} (he : e ∈ eventsOf past) : Known (recordsOf notes) e := by
  obtain ⟨hd, hm, he⟩ := List.mem_flatMap.mp he
  obtain ⟨d, hd', rfl⟩ := List.mem_map.mp he
  obtain ⟨pre, post, rfl⟩ := List.append_of_mem hm
  have hnodup := h.noteIds.2
  rw [List.append_assoc, List.cons_append] at h
  obtain ⟨_, _, _, _, v₂, ho, hv₂⟩ := h.at hrecs
  refine (ho.known d hd').mono fun id r hr => ?_
  rw [hv₂] at hr
  exact recordsOf_mono hnodup ((notesOf_isPrefix pre post hd).trans hpast) hnotes hr

theorem Trail.response (h : Trail n g v ms g' v' handled) (hrecs : v.recs = fun _ => none) (hm : hd ∈ handled)
    {d : Delivery} (hd' : d ∈ hd.deliveries) :
    ∃ timestamp, d.response = answer (recordsOf (notesOf handled)) d.event timestamp := by
  obtain ⟨pre, post, rfl⟩ := List.append_of_mem hm
  obtain ⟨_, _, _, _, v₂, ho, hv₂⟩ := h.at hrecs
  obtain ⟨r, hr, -, -, -, timestamp, hans⟩ := ho.delivered d hd'
  refine ⟨timestamp, hr.trans (hans.symm.trans ((ho.known d hd').answer_eq (fun id r hr => ?_) _).symm)⟩
  rw [hv₂] at hr
  exact recordsOf_mono h.noteIds.2 (notesOf_isPrefix pre post hd) List.prefix_rfl hr

/-- The answers, timestamps aside. -/
theorem Trail.deliveries_eq (h : Trail n g v ms g' v' handled) (hrecs : v.recs = fun _ => none) :
    (deliveries handled).map outcome =
      (eventsOf handled).map fun e => (e, (answer (recordsOf (notesOf handled)) e 0).map timeless) := by
  unfold deliveries eventsOf
  rw [List.map_flatMap, List.map_flatMap]
  refine List.flatMap_congr fun hd hm => ?_
  rw [List.map_map, List.map_map]
  refine List.map_congr_left fun d hd' => ?_
  obtain ⟨timestamp, hr⟩ := h.response hrecs hm hd'
  simp only [Function.comp_apply, outcome, hr, timeless_answer _ _ timestamp 0]

theorem Trail.rejections_eq (h : Trail n g v ms g' v' handled) :
    (rejections handled).map timeless = (notesOf handled).filterMap fun note => (rejection 0 note).map timeless := by
  induction h with
  | nil => rfl
  | @cons g g₁ g' v v₁ v' m ms hd handled _ ho _ ih =>
    rw [← List.singleton_append, notesOf_append, List.filterMap_append, ← ih, notesOf_singleton]
    unfold rejections
    rw [List.filterMap_append, List.map_append, List.filterMap_cons, List.filterMap_nil, ho.noted]
    cases hd.translation.note with
    | none => rfl
    | some note => cases note <;> rfl

end Gateway

end Exchange
