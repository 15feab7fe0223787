import Exchange.Impl.Engine.Matching

/-!
# The matching loop

What the loop has popped and not executed is in `cur` and `nxt` (`held`), in that order, at
every point of it; so it executes the requests in the order they were pushed, and is at any
moment where `Engine::step` is after the same requests.
-/

namespace Exchange

/-! ## One request after the other -/

theorem Engine.step_concat (a : Arith) (b : Orderbook) (reqs : List (EngineRequest × ℕ)) (req : EngineRequest × ℕ) :
    step a b (reqs ++ [req]) = (step a b reqs).bind fun b => (executeRequest a b req).map (·.2) := by
  induction reqs generalizing b with
  | nil =>
    show (executeRequest a b req).bind (fun r => some r.2) = (executeRequest a b req).map (·.2)
    cases executeRequest a b req <;> rfl
  | cons r reqs ih =>
    show (executeRequest a b r).bind (fun r => step a r.2 (reqs ++ [req])) =
      ((executeRequest a b r).bind fun r => step a r.2 reqs).bind _
    cases executeRequest a b r with
    | none => rfl
    | some r => exact ih r.2

/-- `handleMatching` on the requests of a ring is `step`, with what `process` returned. -/
theorem Engine.step_eq_handleMatching (a : Arith) (b : Orderbook) (reqs : List (EngineRequest × ℕ)) :
    step a b reqs = (handleMatching a b reqs).map (·.2) := by
  induction reqs generalizing b with
  | nil => rfl
  | cons r reqs ih =>
    show (executeRequest a b r).bind (fun r => step a r.2 reqs) =
      ((executeRequest a b r).bind fun r => (handleMatching a r.2 reqs).bind fun rest => some _).map _
    cases executeRequest a b r with
    | none => rfl
    | some r =>
      show step a r.2 reqs = ((handleMatching a r.2 reqs).bind fun rest => some (r.1 :: rest.1, rest.2)).map _
      rw [ih]
      cases handleMatching a r.2 reqs <;> rfl

namespace MatchingLoop

variable {a : Arith} {b : Orderbook} {s s' : MatchingLoop}

/-- What was popped and not executed. Where `nxt` was moved from it holds nothing. -/
def held (s : MatchingLoop) : List EngineRequest :=
  match s.pc with
  | .head | .stopped | .pollNxt => s.cur.toList
  | .pollCur => []
  | .execute => s.cur.toList ++ s.nxt.toList
  | .shift => s.nxt.toList

/-- The loop started with book `b` and is where `step` is after the requests executed. -/
structure Ok (a : Arith) (b : Orderbook) (s : MatchingLoop) : Prop where
  pushed : s.pushed = s.popped ++ s.ring
  popped : s.popped = s.executed.map Prod.fst ++ s.held
  book : Engine.step a b s.executed = some s.book
  full : s.pc = .pollNxt ∨ s.pc = .execute → s.cur ≠ none

theorem Ok.new (a : Arith) (b : Orderbook) : Ok a b { book := b } := ⟨rfl, rfl, rfl, nofun⟩

/-- What a pop returns is the next request, if there is one. -/
theorem pop_eq (s : MatchingLoop) :
    s.pop = (s.ring.head?, { s with ring := s.ring.tail, popped := s.popped ++ s.ring.head?.toList }) := by
  unfold pop
  cases hr : s.ring with
  | nil =>
    cases s
    simp_all
  | cons req ring => rfl

theorem ring_split (ring : List EngineRequest) : ring.head?.toList ++ ring.tail = ring := by
  cases ring <;> rfl

/-- The next request, if there is one, goes from the ring to those that were popped. -/
theorem Ok.pushed_pop (h : Ok a b s) : s.pushed = s.popped ++ s.ring.head?.toList ++ s.ring.tail := by
  rw [List.append_assoc, ring_split]
  exact h.pushed

/-- Executing `*cur`. It is undefined where `step` is. -/
theorem Ok.execute (h : Ok a b s) (hpc : s.pc = .execute) (rdtsc : ℕ) :
    (∃ s', s.loopStep a rdtsc = some s' ∧ Ok a b s' ∧ s'.pushed = s.pushed) ∨
      s.loopStep a rdtsc = none ∧ ∃ req, s.executed.map Prod.fst ++ [req] <+: s.pushed ∧
        Engine.step a b (s.executed ++ [(req, rdtsc)]) = none := by
  have hpopped := h.popped
  obtain ⟨cur, hcur⟩ := Option.ne_none_iff_exists'.mp (h.full (.inr hpc))
  rw [held, hpc, hcur] at hpopped
  have hstep := Engine.step_concat a b s.executed (cur, rdtsc)
  rw [h.book, Option.bind_some] at hstep
  rw [MatchingLoop.loopStep, hpc, hcur]
  dsimp only
  cases hexec : Engine.executeRequest a s.book (cur, rdtsc) with
  | none =>
    rw [hexec] at hstep
    refine .inr ⟨rfl, cur, ?_, hstep⟩
    rw [h.pushed, hpopped, List.append_assoc, List.append_assoc]
    exact (List.prefix_append_right_inj _).mpr (List.prefix_append _ _)
  | some r =>
    rw [hexec] at hstep
    refine .inl ⟨_, rfl, ⟨h.pushed, ?_, hstep, by rintro (e | e) <;> cases e⟩, rfl⟩
    show s.popped = (s.executed ++ [(cur, rdtsc)]).map Prod.fst ++ s.nxt.toList
    rw [hpopped, List.map_append, List.append_assoc]
    rfl

/-- One access of the loop. It is undefined where `step` is. -/
theorem Ok.loopStep (h : Ok a b s) (rdtsc : ℕ) :
    (∃ s', s.loopStep a rdtsc = some s' ∧ Ok a b s' ∧ s'.pushed = s.pushed) ∨
      s.loopStep a rdtsc = none ∧ ∃ req, s.executed.map Prod.fst ++ [req] <+: s.pushed ∧
        Engine.step a b (s.executed ++ [(req, rdtsc)]) = none := by
  by_cases hexec : s.pc = .execute
  · exact h.execute hexec rdtsc
  -- only executing can be undefined
  left
  have hpopped := h.popped
  unfold MatchingLoop.loopStep
  cases hpc : s.pc with
  | head =>
    rw [held, hpc] at hpopped
    dsimp only
    split
    · exact ⟨_, rfl, ⟨h.pushed, hpopped, h.book, nofun⟩, rfl⟩
    · cases hcur : s.cur with
      | none =>
        rw [hcur] at hpopped
        exact ⟨_, rfl, ⟨h.pushed, hpopped, h.book, by rintro (e | e) <;> cases e⟩, rfl⟩
      | some req =>
        rw [hcur] at hpopped
        exact ⟨_, rfl, ⟨h.pushed, hpopped, h.book, fun _ => Option.some_ne_none req⟩, rfl⟩
  | pollCur =>
    rw [held, hpc] at hpopped
    rw [pop_eq]
    dsimp only
    have hpushed := h.pushed_pop
    have hpopped' : s.popped ++ s.ring.head?.toList = s.executed.map Prod.fst ++ s.ring.head?.toList := by
      rw [hpopped, List.append_nil]
    cases hring : s.ring.head? with
    | none =>
      rw [hring] at hpushed hpopped'
      exact ⟨_, rfl, ⟨hpushed, hpopped', h.book, by rintro (e | e) <;> cases e⟩, rfl⟩
    | some req =>
      rw [hring] at hpushed hpopped'
      exact ⟨_, rfl, ⟨hpushed, hpopped', h.book, fun _ => Option.some_ne_none req⟩, rfl⟩
  | pollNxt =>
    rw [held, hpc] at hpopped
    rw [pop_eq]
    refine ⟨_, rfl, ⟨h.pushed_pop, ?_, h.book, fun _ => h.full (.inl hpc)⟩, rfl⟩
    show s.popped ++ s.ring.head?.toList = s.executed.map Prod.fst ++ (s.cur.toList ++ s.ring.head?.toList)
    rw [hpopped, List.append_assoc]
  | execute => exact absurd hpc hexec
  | shift =>
    rw [held, hpc] at hpopped
    exact ⟨_, rfl, ⟨h.pushed, hpopped, h.book, by rintro (e | e) <;> cases e⟩, rfl⟩
  | stopped => exact ⟨s, rfl, h, rfl⟩

/-! ## Runs -/

/-- The requests that were pushed. -/
def arrivals (actions : List MatchingAction) : List EngineRequest :=
  actions.filterMap fun
    | .arrive req => some req
    | _ => none

/-- Some requests that were pushed, in order, are undefined for `step`. -/
def StepUndefined (a : Arith) (b : Orderbook) (pushed : List EngineRequest) : Prop :=
  ∃ executed : List (EngineRequest × ℕ), executed.map Prod.fst <+: pushed ∧ Engine.step a b executed = none

theorem Ok.step (h : Ok a b s) (action : MatchingAction) :
    (∃ s', s.step a action = some s' ∧ Ok a b s' ∧ s'.pushed = s.pushed ++ arrivals [action]) ∨
      s.step a action = none ∧ StepUndefined a b s.pushed := by
  cases action with
  | arrive req =>
    refine .inl ⟨_, rfl, ⟨?_, h.popped, h.book, h.full⟩, rfl⟩
    show s.pushed ++ [req] = s.popped ++ (s.ring ++ [req])
    rw [h.pushed, List.append_assoc]
  | stop => exact .inl ⟨_, rfl, { h with }, (List.append_nil _).symm⟩
  | loop rdtsc =>
    rcases h.loopStep rdtsc with ⟨s', hs, hok, hpushed⟩ | ⟨hs, req, hreq, hstep⟩
    · exact .inl ⟨s', hs, hok, hpushed.trans (List.append_nil _).symm⟩
    · exact .inr ⟨hs, s.executed ++ [(req, rdtsc)], by rw [List.map_append]; exact hreq, hstep⟩

theorem Ok.run (h : Ok a b s) (actions : List MatchingAction) :
    (∃ s', s.run a actions = some s' ∧ Ok a b s' ∧ s'.pushed = s.pushed ++ arrivals actions) ∨
      s.run a actions = none ∧ StepUndefined a b (s.pushed ++ arrivals actions) := by
  induction actions generalizing s with
  | nil => exact .inl ⟨s, rfl, h, (List.append_nil _).symm⟩
  | cons action actions ih =>
    have hsplit : arrivals (action :: actions) = arrivals [action] ++ arrivals actions := by
      rw [← List.singleton_append, arrivals, List.filterMap_append]
      rfl
    rw [hsplit, ← List.append_assoc, MatchingLoop.run, List.foldlM_cons]
    rcases h.step action with ⟨s₁, hs, h₁, hpushed⟩ | ⟨hs, executed, hexec, hstep⟩
    · rw [hs, ← hpushed]
      exact ih h₁
    · refine .inr ⟨by rw [hs]; rfl, executed, hexec.trans ?_, hstep⟩
      rw [List.append_assoc]
      exact List.prefix_append _ _

theorem held_length (s : MatchingLoop) : s.held.length ≤ 2 ∧ (s.pc ≠ .execute → s.held.length ≤ 1) := by
  have hle : ∀ o : Option EngineRequest, o.toList.length ≤ 1 := fun o => by
    cases o with
    | none => exact Nat.zero_le 1
    | some _ => exact Nat.le_refl 1
  have hcur := hle s.cur
  have hnxt := hle s.nxt
  unfold held
  cases s.pc <;> simp <;> omega

end MatchingLoop

/-- The loop of the matching thread, at any moment and with the requests arriving in any way
in between: what it executed is what was pushed, up to the request it holds (two where it is
about to execute one), and its book and events are those of `step` on the same requests. It
is undefined only where `step` is. -/
theorem matchingLoop_equals_step (a : Arith) (b : Orderbook) (actions : List MatchingAction) :
    (∃ s, MatchingLoop.run a { book := b } actions = some s ∧ s.pushed = MatchingLoop.arrivals actions ∧
      s.pushed = s.popped ++ s.ring ∧ s.popped = s.executed.map Prod.fst ++ s.held ∧
      s.executed.map Prod.fst <+: s.pushed ∧ s.held.length ≤ 2 ∧ (s.pc ≠ .execute → s.held.length ≤ 1) ∧
      Engine.step a b s.executed = some s.book) ∨
    MatchingLoop.run a { book := b } actions = none ∧
      MatchingLoop.StepUndefined a b (MatchingLoop.arrivals actions) := by
  rcases (MatchingLoop.Ok.new a b).run actions with ⟨s, hs, h, hpushed⟩ | hundef
  · obtain ⟨htwo, hone⟩ := s.held_length
    refine .inl ⟨s, hs, hpushed, h.pushed, h.popped, ?_, htwo, hone, h.book⟩
    rw [h.pushed, h.popped, List.append_assoc]
    exact List.prefix_append _ _
  · exact .inr hundef

end Exchange
