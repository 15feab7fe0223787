import Exchange.Framework.Filter
import Exchange.Spec.Book

/-!
# Trading in the reference book

`fills_induct` is the induction over the trades of an incoming order. Its main use is
`fills_ok`: the orders left are the orders before, each lowered by the shares it
traded (`settle`), in the same order, and with enough fuel the trading ends for one of
its two reasons.
-/

namespace Exchange.Spec

@[simp] theorem Resting.trade_id (r : Resting) (n : ℕ) : (r.trade n).id = r.id := rfl
@[simp] theorem Resting.trade_clientId (r : Resting) (n : ℕ) : (r.trade n).clientId = r.clientId := rfl
@[simp] theorem Resting.trade_side (r : Resting) (n : ℕ) : (r.trade n).side = r.side := rfl
@[simp] theorem Resting.trade_price (r : Resting) (n : ℕ) : (r.trade n).price = r.price := rfl

theorem Resting.trade_zero (r : Resting) : r.trade 0 = r := rfl

theorem Resting.trade_trade (r : Resting) (n k : ℕ) : (r.trade n).trade k = r.trade (n + k) := by
  simp only [Resting.trade, Resting.mk.injEq, true_and]
  omega

/-! ## The best order -/

theorem best_eq_none {s : Side} {l : List Resting} : best s l = none ↔ l = [] := by
  cases s
  · exact List.argmax_eq_none
  · exact List.argmin_eq_none

theorem best_mem {s : Side} {l : List Resting} {r : Resting} (h : best s l = some r) : r ∈ l := by
  cases s
  · exact List.argmax_mem h
  · exact List.argmin_mem h

theorem not_better_best {s : Side} {l : List Resting} {r : Resting} (h : best s l = some r) {r' : Resting}
    (h' : r' ∈ l) : s.better r'.price r.price = false := by
  cases s
  · simpa [Side.better] using List.le_of_mem_argmax h' h
  · simpa [Side.better] using List.le_of_mem_argmin h' h

/-- The best order is the first one at the best price. -/
theorem best_of_level {s : Side} {l : List Resting} {p : ℕ} {r : Resting}
    (hp : ∀ r' ∈ l, s.better r'.price p = false) (hr : (l.filter (·.price == p)).head? = some r) :
    best s l = some r := by
  obtain ⟨t, ht⟩ : ∃ t, l.filter (·.price == p) = r :: t := by
    cases hl : l.filter (·.price == p) with
    | nil => rw [hl] at hr; cases hr
    | cons a t => rw [hl] at hr; exact ⟨t, by rw [Option.some.inj hr]⟩
  obtain ⟨l₁, l₂, rfl, h₁, h₂, -⟩ := List.filter_eq_cons_iff.mp ht
  rw [beq_iff_eq] at h₂
  -- whatever has the best price is not before `r`
  have hidx : ∀ a ∈ l₁ ++ r :: l₂, a.price = p → (l₁ ++ r :: l₂).idxOf r ≤ (l₁ ++ r :: l₂).idxOf a := by
    intro a _ hap
    have hn : ∀ a : Resting, a.price = p → a ∉ l₁ := fun a ha hm => h₁ a hm (beq_iff_eq.mpr ha)
    rw [List.idxOf_append_of_notMem (hn r h₂), List.idxOf_append_of_notMem (hn a hap)]
    simp
  cases s with
  | bid =>
    simp only [Side.better, decide_eq_false_iff_not, not_lt] at hp
    refine List.mem_argmax_iff.mpr ⟨by simp, fun a ha => by rw [h₂]; exact hp a ha, fun a ha hle => ?_⟩
    exact hidx a ha (Nat.le_antisymm (hp a ha) (h₂ ▸ hle))
  | ask =>
    simp only [Side.better, decide_eq_false_iff_not, not_lt] at hp
    refine List.mem_argmin_iff.mpr ⟨by simp, fun a ha => by rw [h₂]; exact hp a ha, fun a ha hle => ?_⟩
    exact hidx a ha (Nat.le_antisymm (h₂ ▸ hle) (hp a ha))

/-- A limit that does not reach the best price reaches none. -/
theorem allows_of_not_better {side : Side} {limit : Option ℕ} {p p' : ℕ}
    (h : side.opposite.better p' p = false) (ha : allows side limit p' = true) : allows side limit p = true := by
  cases limit with
  | none => rfl
  | some l =>
    cases side <;>
      simp only [allows, Side.reaches, Side.opposite, Side.better, decide_eq_true_eq,
        decide_eq_false_iff_not] at * <;> omega

/-! ## The trades of an incoming order -/

section

variable {side : Side} {limit : Option ℕ}

/-- Induction over the trades of an incoming order: `P` of the trades made, the shares
left to fill and the orders left holds at the start and each trade preserves it. -/
theorem fills_induct {P : List (Resting × ℕ) → ℕ → List Resting → Prop} {fuel quantity : ℕ} {l : List Resting}
    (h : P [] quantity l)
    (step : ∀ fs k l r, P fs k l → best side.opposite l = some r → 0 < k → allows side limit r.price = true →
      P (fs ++ [(r, min k r.openQuantity)]) (k - min k r.openQuantity) (execute l r (min k r.openQuantity))) :
    P (fills side limit fuel quantity l).1 (quantity - filled (fills side limit fuel quantity l).1)
      (fills side limit fuel quantity l).2 := by
  -- generalised to the trades `fs` made before
  suffices hs : ∀ fuel fs quantity l, P fs quantity l →
      P (fs ++ (fills side limit fuel quantity l).1) (quantity - filled (fills side limit fuel quantity l).1)
        (fills side limit fuel quantity l).2 by simpa using hs fuel [] quantity l h
  intro fuel
  induction fuel with
  | zero => intro fs quantity l h; simpa [fills, filled] using h
  | succ fuel ih =>
    intro fs quantity l h
    simp only [fills]
    split
    · simpa [filled] using h
    · next r hr =>
      split
      · next hc =>
        have hi := ih _ _ _ (step fs quantity l r h hr hc.1 hc.2)
        simp only [filled, List.map_cons, List.sum_cons, List.append_assoc, List.singleton_append,
          Nat.sub_sub] at hi ⊢
        exact hi
      · simpa [filled] using h

theorem filled_append (fs fs' : List (Resting × ℕ)) : filled (fs ++ fs') = filled fs + filled fs' := by
  simp [filled]

/-- The shares of order `id` that were traded. -/
def sharesOf (id : ℕ) (fs : List (Resting × ℕ)) : ℕ := (fs.map fun f => if f.1.id = id then f.2 else 0).sum

@[simp] theorem sharesOf_nil (id : ℕ) : sharesOf id [] = 0 := rfl

@[simp] theorem sharesOf_append (id : ℕ) (fs fs' : List (Resting × ℕ)) :
    sharesOf id (fs ++ fs') = sharesOf id fs + sharesOf id fs' := by
  simp [sharesOf]

@[simp] theorem sharesOf_singleton (id : ℕ) (f : Resting × ℕ) :
    sharesOf id [f] = if f.1.id = id then f.2 else 0 := by
  simp [sharesOf]

/-- An order after the trades `fs`. -/
def settle (fs : List (Resting × ℕ)) (r : Resting) : Option Resting :=
  if sharesOf r.id fs < r.openQuantity then some (r.trade (sharesOf r.id fs)) else none

theorem settle_eq_some {fs : List (Resting × ℕ)} {r r' : Resting} (h : settle fs r = some r') :
    r' = r.trade (sharesOf r.id fs) ∧ sharesOf r.id fs < r.openQuantity := by
  unfold settle at h
  split at h
  · next hlt => exact ⟨(Option.some.inj h).symm, hlt⟩
  · cases h

theorem settle_of_sharesOf_eq_zero {fs : List (Resting × ℕ)} {r : Resting} (h : sharesOf r.id fs = 0)
    (ho : 0 < r.openQuantity) : settle fs r = some r := by
  rw [settle, h, if_pos ho, Resting.trade_zero]

/-- One more trade. -/
theorem execute_settle {l : List Resting} (hid : (l.map (·.id)).Nodup) {fs : List (Resting × ℕ)} {r : Resting}
    (hr : r ∈ l.filterMap (settle fs)) {n : ℕ} (hn : n ≤ r.openQuantity) :
    execute (l.filterMap (settle fs)) r n = l.filterMap (settle (fs ++ [(r, n)])) := by
  obtain ⟨r₀, hr₀, hs⟩ := List.mem_filterMap.mp hr
  obtain ⟨rfl, hlt⟩ := settle_eq_some hs
  have huniq : ∀ r' ∈ l, r'.id = r₀.id → r' = r₀ := fun r' hr' e => List.inj_on_of_nodup_map hid hr' hr₀ e
  have hopen : (r₀.trade (sharesOf r₀.id fs)).openQuantity = r₀.openQuantity - sharesOf r₀.id fs := rfl
  unfold execute
  split
  · rw [List.map_filterMap]
    refine List.filterMap_congr fun r' hr' => ?_
    by_cases e : r'.id = r₀.id
    · obtain rfl := huniq r' hr' e
      have hlt' : sharesOf r'.id fs + n < r'.openQuantity := by omega
      simp [settle, hlt, hlt', Resting.trade_trade]
    · have e' : ¬ r₀.id = r'.id := fun e' => e e'.symm
      by_cases hlt' : sharesOf r'.id fs < r'.openQuantity <;> simp [settle, hlt', e, e']
  · rw [List.filter_filterMap]
    refine List.filterMap_congr fun r' hr' => ?_
    by_cases e : r'.id = r₀.id
    · obtain rfl := huniq r' hr' e
      have hlt' : ¬ sharesOf r'.id fs + n < r'.openQuantity := by omega
      simp [settle, hlt, hlt']
    · have e' : ¬ r₀.id = r'.id := fun e' => e e'.symm
      by_cases hlt' : sharesOf r'.id fs < r'.openQuantity <;> simp [settle, hlt', e, e']

/-- What trading does: `fs` are the trades of an incoming order for `quantity` shares
against the orders `l`, and `l'` the orders left. -/
structure Trading (side : Side) (limit : Option ℕ) (quantity : ℕ) (l : List Resting)
    (fs : List (Resting × ℕ)) (l' : List Resting) : Prop where
  left : l' = l.filterMap (settle fs)
  shares_le : ∀ r ∈ l, sharesOf r.id fs ≤ r.openQuantity
  filled_le : filled fs ≤ quantity
  trade : ∀ f ∈ fs, 0 < f.2 ∧ allows side limit f.1.price = true ∧
    ∃ r ∈ l, ∃ n, f.1 = r.trade n ∧ n + f.2 ≤ r.openQuantity

theorem fills_ok {l : List Resting} (hid : (l.map (·.id)).Nodup) (hpos : ∀ r ∈ l, 0 < r.openQuantity)
    (fuel quantity : ℕ) :
    Trading side limit quantity l (fills side limit fuel quantity l).1 (fills side limit fuel quantity l).2 := by
  have h := @fills_induct side limit
    (fun fs k l' => l' = l.filterMap (settle fs) ∧ (∀ r ∈ l, sharesOf r.id fs ≤ r.openQuantity) ∧
      k + filled fs = quantity ∧ ∀ f ∈ fs, 0 < f.2 ∧ allows side limit f.1.price = true ∧
        ∃ r ∈ l, ∃ n, f.1 = r.trade n ∧ n + f.2 ≤ r.openQuantity) fuel quantity l ?_ ?_
  · obtain ⟨h₁, h₂, h₃, h₄⟩ := h
    exact ⟨h₁, h₂, by omega, h₄⟩
  · refine ⟨?_, by simp, by simp [filled], by simp⟩
    rw [List.filterMap_congr (g := some) fun r hr => settle_of_sharesOf_eq_zero (sharesOf_nil _) (hpos r hr)]
    simp
  · rintro fs k l' r ⟨rfl, h₂, h₃, h₄⟩ hr hk ha
    obtain ⟨r₀, hr₀, hs⟩ := List.mem_filterMap.mp (best_mem hr)
    obtain ⟨rfl, hlt⟩ := settle_eq_some hs
    have hopen : (r₀.trade (sharesOf r₀.id fs)).openQuantity = r₀.openQuantity - sharesOf r₀.id fs := rfl
    refine ⟨execute_settle hid (best_mem hr) (Nat.min_le_right _ _), fun r' hr' => ?_, ?_, fun f hf => ?_⟩
    · rw [sharesOf_append, sharesOf_singleton]
      split
      · next e =>
        obtain rfl := List.inj_on_of_nodup_map hid hr₀ hr' e
        show _ + min k _ ≤ _
        omega
      · exact h₂ r' hr'
    · simp only [filled, List.map_append, List.sum_append, List.map_cons, List.map_nil, List.sum_cons,
        List.sum_nil] at h₃ ⊢
      omega
    · rcases List.mem_append.mp hf with hf | hf
      · exact h₄ f hf
      · obtain rfl := List.mem_singleton.mp hf
        exact ⟨by show 0 < min k _; omega, ha, r₀, hr₀, _, rfl, by show _ + min k _ ≤ _; omega⟩

/-! ## Enough fuel -/

theorem length_execute_lt {l : List Resting} {r : Resting} (hr : r ∈ l) {n : ℕ} (hn : ¬ n < r.openQuantity) :
    (execute l r n).length < l.length := by
  rw [execute, if_neg hn]
  exact List.length_filter_lt_length_iff_exists.mpr ⟨r, hr, by simp⟩

theorem fills_zero (fuel : ℕ) (l : List Resting) : fills side limit fuel 0 l = ([], l) := by
  cases fuel with
  | zero => rfl
  | succ fuel =>
    rw [fills]
    split
    · rfl
    · simp

/-- More fuel than orders makes no difference. -/
theorem fills_fuel {l : List Resting} {fuel fuel' : ℕ} (h : l.length ≤ fuel) (h' : l.length ≤ fuel')
    (quantity : ℕ) : fills side limit fuel quantity l = fills side limit fuel' quantity l := by
  induction fuel generalizing fuel' quantity l with
  | zero =>
    obtain rfl := List.length_eq_zero_iff.mp (Nat.le_zero.mp h)
    cases fuel' <;> simp [fills, best_eq_none.mpr]
  | succ fuel ih =>
    cases fuel' with
    | zero =>
      obtain rfl := List.length_eq_zero_iff.mp (Nat.le_zero.mp h')
      simp [fills, best_eq_none.mpr]
    | succ fuel' =>
      simp only [fills]
      split
      · rfl
      · next r hr =>
        split
        · by_cases hn : min quantity r.openQuantity < r.openQuantity
          · rw [show quantity - min quantity r.openQuantity = 0 by omega, fills_zero, fills_zero]
          · have hlt := length_execute_lt (best_mem hr) hn
            rw [ih (by omega) (Nat.le_of_lt_succ (Nat.lt_of_lt_of_le hlt h'))]
        · rfl

/-- With enough fuel an incoming order trades until it is filled or its limit allows
no more. -/
theorem fills_done {l : List Resting} {fuel : ℕ} (h : l.length ≤ fuel) (quantity : ℕ) :
    quantity ≤ filled (fills side limit fuel quantity l).1 ∨
      ∀ r ∈ (fills side limit fuel quantity l).2, allows side limit r.price = false := by
  induction fuel generalizing quantity l with
  | zero =>
    obtain rfl := List.length_eq_zero_iff.mp (Nat.le_zero.mp h)
    exact .inr (by simp [fills])
  | succ fuel ih =>
    simp only [fills]
    split
    · next hr => exact .inr (by simp [best_eq_none.mp hr])
    · next r hr =>
      split
      · simp only [filled, List.map_cons, List.sum_cons]
        by_cases hn : min quantity r.openQuantity < r.openQuantity
        · exact .inl (by omega)
        · have hlt := length_execute_lt (best_mem hr) hn
          refine (ih (by omega) (quantity - min quantity r.openQuantity)).imp_left fun hd => ?_
          simp only [filled] at hd
          omega
      · next hc =>
        by_cases hq : 0 < quantity
        · refine .inr fun r' hr' => ?_
          by_contra ha
          exact hc ⟨hq, allows_of_not_better (not_better_best hr hr') (by simpa using ha)⟩
        · exact .inl (by simp; omega)

end

end Exchange.Spec
