import Exchange.Proof.Engine.Level
import Mathlib.Data.Finset.Card
import Mathlib.Order.Interval.Finset.Nat

/-!
# One side of the book

`LadderRep s l m q`: in the arena `m`, the ladder `l` of side `s` holds the slots
`q p` at each price `p`, its counter is the number of non-empty levels and its best
price is the best of them. `rest_ok` and `unlink_ok` say what the side's part of
`rest` and `unlink` do to it; the two scans (`scanDown_spec`, `scanUp_spec`) find the
next non-empty level.
-/

namespace Exchange

open LinkedList

/-- The prices of the non-empty levels. -/
def occupied (q : ℕ → List ℕ) : Finset ℕ := {p ∈ Finset.Icc minPrice maxPrice | q p ≠ []}

/-- `best` is the best price of a non-empty level, or the side's worst price if
there is none. -/
def IsBest (s : Side) (q : ℕ → List ℕ) (best : ℕ) : Prop :=
  (∀ p, q p = []) ∧ best = s.worst ∨ q best ≠ [] ∧ ∀ p, q p ≠ [] → s.better p best = false

/-- The ladder `l` holds the slots `q p` at each price `p`. -/
structure LadderRep (s : Side) (l : Ladder) (m : Arena) (q : ℕ → List ℕ) : Prop where
  level : ∀ p, InBand p → LevelRep m (l.levels p) (q p)
  outside : ∀ p, ¬ InBand p → q p = []
  place : ∀ p, ∀ x ∈ q p, (m x).side = s ∧ (m x).price = p
  nonEmpty : l.nonEmpty = (occupied q).card
  best : IsBest s q l.best

/-! ## The scans -/

theorem scanDown_spec {levels : ℕ → PriceLevelQueue} {r : ℕ} (hr : minPrice ≤ r)
    (he : (levels r).empty = false) {p : ℕ} (hp : r ≤ p) :
    (levels (Ladder.scanDown levels p)).empty = false ∧ r ≤ Ladder.scanDown levels p ∧
      ∀ p', Ladder.scanDown levels p < p' → p' ≤ p → (levels p').empty = true := by
  induction p with
  | zero =>
    obtain rfl : r = 0 := by omega
    exact ⟨he, hp, fun p' h₁ h₂ => by simp only [Ladder.scanDown] at h₁; omega⟩
  | succ p ih =>
    simp only [Ladder.scanDown]
    by_cases h : minPrice < p + 1 ∧ (levels (p + 1)).empty = true
    · rw [if_pos h]
      have hne : r ≠ p + 1 := fun e => by simp [e, h.2] at he
      obtain ⟨h₁, h₂, h₃⟩ := ih (by omega)
      refine ⟨h₁, h₂, fun p' h' hle => ?_⟩
      rcases Nat.lt_or_ge p p' with hlt | hle'
      · obtain rfl : p' = p + 1 := by omega
        exact h.2
      · exact h₃ p' h' hle'
    · rw [if_neg h]
      refine ⟨?_, hp, fun p' h₁ h₂ => by omega⟩
      by_cases e : minPrice < p + 1
      · simpa [e] using h
      · obtain rfl : r = p + 1 := by omega
        exact he

theorem scanUp_spec {levels : ℕ → PriceLevelQueue} {r : ℕ} (hr : r ≤ maxPrice)
    (he : (levels r).empty = false) {fuel p : ℕ} (hf : fuel = maxPrice - p) (hp : p ≤ r) :
    (levels (Ladder.scanUp levels fuel p)).empty = false ∧ Ladder.scanUp levels fuel p ≤ r ∧
      ∀ p', p ≤ p' → p' < Ladder.scanUp levels fuel p → (levels p').empty = true := by
  induction fuel generalizing p with
  | zero =>
    obtain rfl : p = r := by omega
    exact ⟨he, hp, fun p' h₁ h₂ => by simp only [Ladder.scanUp] at h₂; omega⟩
  | succ fuel ih =>
    simp only [Ladder.scanUp]
    by_cases h : p < maxPrice ∧ (levels p).empty = true
    · rw [if_pos h]
      have hne : r ≠ p := fun e => by simp [e, h.2] at he
      obtain ⟨h₁, h₂, h₃⟩ := ih (p := p + 1) (by omega) (by omega)
      refine ⟨h₁, h₂, fun p' hle h' => ?_⟩
      rcases Nat.eq_or_lt_of_le hle with rfl | hlt
      · exact h.2
      · exact h₃ p' hlt h'
    · rw [if_neg h]
      refine ⟨?_, hp, fun p' h₁ h₂ => by omega⟩
      by_cases e : p < maxPrice
      · simpa [e] using h
      · obtain rfl : r = p := by omega
        exact he

theorem scanDown_le (levels : ℕ → PriceLevelQueue) (p : ℕ) : Ladder.scanDown levels p ≤ p := by
  induction p with
  | zero => exact Nat.le_refl 0
  | succ p ih => simp only [Ladder.scanDown]; split <;> omega

theorem le_scanUp (levels : ℕ → PriceLevelQueue) (fuel p : ℕ) : p ≤ Ladder.scanUp levels fuel p := by
  induction fuel generalizing p with
  | zero => exact Nat.le_refl p
  | succ fuel ih =>
    simp only [Ladder.scanUp]
    split
    · exact Nat.le_trans (Nat.le_succ p) (ih (p + 1))
    · exact Nat.le_refl p

/-- A scan from a price no level improves on ends at the best level. -/
theorem isBest_updateBest {s : Side} {l : Ladder} {q : ℕ → List ℕ}
    (hlev : ∀ p, InBand p → ((l.levels p).empty = true ↔ q p = [])) (hout : ∀ p, ¬ InBand p → q p = [])
    (hub : ∀ p, q p ≠ [] → s.better p l.best = false) (hb : InBand l.best) {r : ℕ} (hr : q r ≠ []) :
    IsBest s q (l.updateBest s).best := by
  have hin : ∀ p, q p ≠ [] → InBand p := fun p hp => by by_contra hb; exact hp (hout p hb)
  have hne : ∀ p, InBand p → ((l.levels p).empty = false ↔ q p ≠ []) := fun p hp => by
    rw [← not_iff_not, Bool.not_eq_false, not_not]; exact hlev p hp
  have hre := (hne r (hin r hr)).mpr hr
  obtain ⟨hr₁, hr₂⟩ := hin r hr
  obtain ⟨hb₁, hb₂⟩ := hb
  have hrb := hub r hr
  right
  cases s with
  | bid =>
    simp only [Side.better, gt_iff_lt, decide_eq_false_iff_not, not_lt] at hrb hub ⊢
    simp only [Ladder.updateBest, Ladder.updateBestBid]
    obtain ⟨h₁, h₂, h₃⟩ := scanDown_spec hr₁ hre hrb
    have hle := scanDown_le l.levels l.best
    refine ⟨(hne _ ⟨by omega, by omega⟩).mp h₁, fun p hp => ?_⟩
    by_contra hlt
    exact hp ((hlev p (hin p hp)).mp (h₃ p (by omega) (hub p hp)))
  | ask =>
    simp only [Side.better, decide_eq_false_iff_not, not_lt] at hrb hub ⊢
    simp only [Ladder.updateBest, Ladder.updateBestAsk]
    obtain ⟨h₁, h₂, h₃⟩ := scanUp_spec hr₂ hre rfl hrb
    have hle := le_scanUp l.levels (maxPrice - l.best) l.best
    refine ⟨(hne _ ⟨by omega, by omega⟩).mp h₁, fun p hp => ?_⟩
    by_contra hlt
    exact hp ((hlev p (hin p hp)).mp (h₃ p (hub p hp) (by omega)))

/-! ## Occupied levels -/

theorem mem_occupied {q : ℕ → List ℕ} {p : ℕ} : p ∈ occupied q ↔ InBand p ∧ q p ≠ [] := by
  simp only [occupied, Finset.mem_filter, Finset.mem_Icc, InBand]

/-- A level that stays empty or stays occupied does not change the occupied levels. -/
theorem occupied_update_of_iff {q : ℕ → List ℕ} {p : ℕ} {l : List ℕ} (h : l = [] ↔ q p = []) :
    occupied (Function.update q p l) = occupied q := by
  ext p'
  rw [mem_occupied, mem_occupied]
  by_cases e : p' = p
  · subst e; simp [h]
  · rw [Function.update_of_ne e]

theorem occupied_update_of_nil {q : ℕ → List ℕ} {p : ℕ} {l : List ℕ} (hp : InBand p) (h : q p = [])
    (hl : l ≠ []) : occupied (Function.update q p l) = insert p (occupied q) := by
  ext p'
  rw [mem_occupied, Finset.mem_insert, mem_occupied]
  by_cases e : p' = p
  · subst e; simp [hl, hp]
  · rw [Function.update_of_ne e]; simp [e]

theorem occupied_update_nil {q : ℕ → List ℕ} {p : ℕ} :
    occupied (Function.update q p []) = (occupied q).erase p := by
  ext p'
  rw [mem_occupied, Finset.mem_erase, mem_occupied]
  by_cases e : p' = p
  · subst e; simp
  · rw [Function.update_of_ne e]; simp [e]

theorem occupied_eq_empty {q : ℕ → List ℕ} (ho : ∀ p, ¬ InBand p → q p = []) :
    occupied q = ∅ ↔ ∀ p, q p = [] := by
  constructor
  · intro h p
    by_contra hp
    have hb : InBand p := by by_contra hb; exact hp (ho p hb)
    have := mem_occupied.mpr ⟨hb, hp⟩
    simp [h] at this
  · intro h
    ext p
    simp [mem_occupied, h p]

/-! ## Order of prices on a side -/

theorem Side.better_irrefl (s : Side) (p : ℕ) : s.better p p = false := by
  cases s <;> simp [Side.better]

theorem Side.not_better_trans {s : Side} {p q r : ℕ} (h₁ : s.better p q = false) (h₂ : s.better q r = false) :
    s.better p r = false := by
  cases s <;> simp only [Side.better, decide_eq_false_iff_not] at * <;> omega

theorem Side.not_better_of_better {s : Side} {p q : ℕ} (h : s.better p q = true) : s.better q p = false := by
  cases s <;> simp only [Side.better, decide_eq_false_iff_not, decide_eq_true_eq] at * <;> omega

theorem Side.better_worst {s : Side} {p : ℕ} (h : InBand p) (hn : s.better p s.worst = false) : p = s.worst := by
  obtain ⟨h₁, h₂⟩ := h
  cases s <;> simp only [Side.better, decide_eq_false_iff_not] at hn <;>
    simp only [Side.worst] at hn ⊢ <;> omega

namespace LadderRep

variable {s : Side} {l : Ladder} {m m' : Arena} {q : ℕ → List ℕ}

theorem new (s : Side) (m : Arena) : LadderRep s { best := s.worst } m fun _ => [] where
  level _ _ := .new m
  outside _ _ := rfl
  place _ _ hx := absurd hx List.not_mem_nil
  nonEmpty := ((Finset.card_eq_zero).mpr ((occupied_eq_empty fun _ _ => rfl).mpr fun _ => rfl)).symm
  best := .inl ⟨fun _ => rfl, rfl⟩

theorem congr (h : LadderRep s l m q)
    (hm : ∀ p, ∀ x ∈ q p, (m' x).prev = (m x).prev ∧ (m' x).next = (m x).next ∧
      (m' x).side = (m x).side ∧ (m' x).price = (m x).price) : LadderRep s l m' q where
  level p hp := (h.level p hp).congr fun x hx => ⟨(hm p x hx).1, (hm p x hx).2.1⟩
  outside := h.outside
  place p x hx := by
    obtain ⟨-, -, h₁, h₂⟩ := hm p x hx
    rw [h₁, h₂]; exact h.place p x hx
  nonEmpty := h.nonEmpty
  best := h.best

theorem inBand (h : LadderRep s l m q) {p : ℕ} (hp : q p ≠ []) : InBand p := by
  by_contra hb
  exact hp (h.outside p hb)

theorem nonEmpty_eq_zero (h : LadderRep s l m q) : l.nonEmpty = 0 ↔ ∀ p, q p = [] := by
  rw [h.nonEmpty, Finset.card_eq_zero, occupied_eq_empty h.outside]

/-- The best level of a side with orders. -/
theorem best_of_ne (h : LadderRep s l m q) (hne : l.nonEmpty ≠ 0) :
    q l.best ≠ [] ∧ ∀ p, q p ≠ [] → s.better p l.best = false := by
  rcases h.best with ⟨h₁, -⟩ | h₁
  · exact absurd (h.nonEmpty_eq_zero.mpr h₁) hne
  · exact h₁

theorem level?_eq (h : LadderRep s l m q) {p : ℕ} (hp : q p ≠ []) : l.level? p = some (l.levels p) := by
  rw [Ladder.level?, if_pos (h.inBand hp)]

/-! ## Resting and unlinking -/

/-- The best price after an order rests at `p`. -/
theorem isBest_push {p best : ℕ} {x : List ℕ} (h : IsBest s q best) (hp : InBand p) (hx : x ≠ []) :
    IsBest s (Function.update q p x) (if s.better p best then p else best) := by
  right
  rcases h with ⟨h₁, rfl⟩ | ⟨h₁, h₂⟩
  · have hb : (if s.better p s.worst then p else s.worst) = p := by
      split
      · rfl
      · next hb => exact (Side.better_worst hp (by simpa using hb)).symm
    rw [hb]
    refine ⟨by simpa using hx, fun p' hp' => ?_⟩
    obtain rfl : p' = p := by
      by_contra e
      rw [Function.update_of_ne e] at hp'
      exact hp' (h₁ p')
    exact s.better_irrefl p'
  · split
    · next hb =>
      refine ⟨by simpa using hx, fun p' hp' => ?_⟩
      by_cases e : p' = p
      · rw [e]; exact s.better_irrefl p
      · rw [Function.update_of_ne e] at hp'
        exact Side.not_better_trans (h₂ p' hp') (Side.not_better_of_better hb)
    · next hb =>
      refine ⟨?_, fun p' hp' => ?_⟩
      · by_cases e : best = p
        · rw [e]; simpa using hx
        · rwa [Function.update_of_ne e]
      · by_cases e : p' = p
        · rw [e]; simpa using hb
        · rw [Function.update_of_ne e] at hp'
          exact h₂ p' hp'

/-- Replacing the level at `p` by one that holds the slots `k`, relinking no others. -/
theorem setLevel_ok (h : LadderRep s l m q) {p : ℕ} (hp : InBand p) {lv : PriceLevelQueue} {k : List ℕ}
    (hlev : LevelRep m' lv k) (hrel : Relinked k m m') (hk : ∀ y ∈ k, (m y).side = s ∧ (m y).price = p)
    {l' : Ladder} (e₁ : l'.levels = Function.update l.levels p lv)
    (e₂ : l'.nonEmpty = (occupied (Function.update q p k)).card)
    (e₃ : IsBest s (Function.update q p k) l'.best) : LadderRep s l' m' (Function.update q p k) := by
  refine ⟨fun p' hp' => ?_, fun p' hp' => ?_, fun p' y hy => ?_, e₂, e₃⟩
  · rw [e₁]
    by_cases e : p' = p
    · subst e; simpa using hlev
    · rw [Function.update_of_ne e, Function.update_of_ne e]
      refine (h.level p' hp').congr fun y hy => ?_
      -- the slots of another level are not among `k`
      rw [hrel.other y fun hmem => e ((h.place p' y hy).2.symm.trans (hk y hmem).2)]
      exact ⟨rfl, rfl⟩
  · have e : p' ≠ p := fun e => hp' (e ▸ hp)
    rw [Function.update_of_ne e]; exact h.outside p' hp'
  · obtain ⟨-, -, hside, hprice, -⟩ := Order.view_eq (hrel.view y)
    rw [hside, hprice]
    by_cases e : p' = p
    · rw [e, Function.update_self] at hy
      rw [e]; exact hk y hy
    · rw [Function.update_of_ne e] at hy
      exact h.place p' y hy

/-- The side's part of `rest`: slot `x` goes to the back of the level at its price. -/
theorem rest_ok (h : LadderRep s l m q) {x : ℕ} (hp : InBand (m x).price) (hs : (m x).side = s)
    (hx : x ∉ q (m x).price) (hprev : (m x).prev = none) (hnext : (m x).next = none) :
    ∃ l' m', l.rest s m x = some (l', m') ∧
      LadderRep s l' m' (Function.update q (m x).price (q (m x).price ++ [x])) ∧
      Relinked (q (m x).price ++ [x]) m m' := by
  set p := (m x).price with hpe
  obtain ⟨hlev, hrel⟩ := (h.level p hp).push_ok hx hprev hnext
  refine ⟨_, _, by simp only [Ladder.rest, Ladder.level?, ← hpe, if_pos hp, Option.bind_eq_bind,
    Option.bind_some]; rfl, ?_, hrel⟩
  have hne : q p ++ [x] ≠ [] := by simp
  have hk : ∀ y ∈ q p ++ [x], (m y).side = s ∧ (m y).price = p := by
    intro y hy
    rcases List.mem_append.mp hy with hy | hy
    · exact h.place p y hy
    · rw [List.mem_singleton.mp hy]; exact ⟨hs, hpe.symm⟩
  set l₁ : Ladder := if (l.levels p).empty then { l with nonEmpty := l.nonEmpty + 1 } else l with hl₁
  have hlv : l₁.levels = l.levels := by rw [hl₁]; split <;> rfl
  have hbest : l₁.best = l.best := by rw [hl₁]; split <;> rfl
  have hnum : l₁.nonEmpty = (occupied (Function.update q p (q p ++ [x]))).card := by
    rw [hl₁]
    by_cases he : (l.levels p).empty = true
    · have hq := (h.level p hp).empty_iff.mp he
      rw [if_pos he, occupied_update_of_nil hp hq hne, Finset.card_insert_of_notMem, h.nonEmpty]
      simp [mem_occupied, hq]
    · have hq : q p ≠ [] := fun e => he ((h.level p hp).empty_iff.mpr e)
      rw [if_neg he, occupied_update_of_iff (by simp [hq]), h.nonEmpty]
  have hb := isBest_push h.best hp hne
  simp only [Ladder.setLevel, hlv, hbest]
  split
  · next hbt => exact h.setLevel_ok hp hlev hrel hk rfl hnum (by simpa [hbt] using hb)
  · next hbt => exact h.setLevel_ok hp hlev hrel hk rfl hnum (by simpa [hbt] using hb)

/-- The best price of a side when an order leaves a level that still holds others. -/
theorem isBest_of_iff {p : ℕ} {k : List ℕ} {best : ℕ} (h : IsBest s q best) (hk : k = [] ↔ q p = []) :
    IsBest s (Function.update q p k) best := by
  have hiff : ∀ p', Function.update q p k p' = [] ↔ q p' = [] := fun p' => by
    by_cases e : p' = p
    · rw [e, Function.update_self]; exact hk
    · rw [Function.update_of_ne e]
  simpa only [IsBest, ne_eq, hiff] using h

/-- The side's part of `unlink`: slot `x` leaves the level at its price. -/
theorem unlink_ok (h : LadderRep s l m q) {p x : ℕ} (hx : x ∈ q p) :
    ∃ l' m', l.unlink s m x = some (l', m') ∧
      LadderRep s l' m' (Function.update q p ((q p).erase x)) ∧ Relinked ((q p).erase x) m m' := by
  have hpx : (m x).price = p := (h.place p x hx).2
  have hqp : q p ≠ [] := List.ne_nil_of_mem hx
  have hp : InBand p := h.inBand hqp
  have hocc : p ∈ occupied q := mem_occupied.mpr ⟨hp, hqp⟩
  obtain ⟨hb, hub⟩ := h.best_of_ne (by rw [h.nonEmpty]; exact Finset.card_ne_zero_of_mem hocc)
  have hk : ∀ y ∈ (q p).erase x, (m y).side = s ∧ (m y).price = p := fun y hy =>
    h.place p y (List.mem_of_mem_erase hy)
  obtain ⟨hlev, hrel⟩ : LevelRep ((l.levels p).remove m x).2 ((l.levels p).remove m x).1 ((q p).erase x) ∧
      Relinked ((q p).erase x) m ((l.levels p).remove m x).2 := by
    obtain ⟨l₁, l₂, hq⟩ := List.append_of_mem hx
    have hnd := (h.level p hp).linked.nodup
    rw [hq] at hnd
    have hx₁ : x ∉ l₁ := fun hx₁ => (List.nodup_append.mp hnd).2.2 x hx₁ x List.mem_cons_self rfl
    rw [hq, List.erase_append_right _ hx₁, List.erase_cons_head]
    exact (hq ▸ h.level p hp : LevelRep m (l.levels p) (l₁ ++ x :: l₂)).remove_ok
  simp only [Ladder.unlink, hpx, Ladder.level?, if_pos hp, Option.bind_eq_bind, Option.bind_some]
  generalize (l.levels p).remove m x = r at hlev hrel ⊢
  generalize (q p).erase x = k at hlev hrel hk ⊢
  by_cases he : r.1.empty = true
  · -- the level is empty now: another one may be the best
    obtain rfl : k = [] := hlev.empty_iff.mp he
    have hcard : l.nonEmpty - 1 = (occupied (Function.update q p [])).card := by
      rw [occupied_update_nil, Finset.card_erase_of_mem hocc, h.nonEmpty]
    have hsub : ∀ p', Function.update q p [] p' ≠ [] → q p' ≠ [] := by
      intro p' hp'
      have e : p' ≠ p := fun e => hp' (by rw [e, Function.update_self])
      rwa [Function.update_of_ne e] at hp'
    have hout : ∀ p', ¬ InBand p' → Function.update q p [] p' = [] := fun p' hp' => by
      by_contra hne
      exact hsub p' hne (h.outside p' hp')
    simp only [if_pos he]
    by_cases hz : l.nonEmpty - 1 = 0
    · refine ⟨_, _, if_pos hz, h.setLevel_ok hp hlev hrel hk rfl hcard ?_, hrel⟩
      exact .inl ⟨(occupied_eq_empty hout).mp (Finset.card_eq_zero.mp (hcard.symm.trans hz)), rfl⟩
    · obtain ⟨r', hr'⟩ : ∃ r', Function.update q p [] r' ≠ [] := by
        by_contra hall
        exact hz (hcard.trans (Finset.card_eq_zero.mpr ((occupied_eq_empty hout).mpr fun p' => by
          by_contra hne; exact hall ⟨p', hne⟩)))
      by_cases hpb : p = l.best
      · refine ⟨_, _, (if_neg hz).trans (if_pos hpb), h.setLevel_ok hp hlev hrel hk ?_ ?_ ?_, hrel⟩
        · cases s <;> rfl
        · rw [← hcard]; cases s <;> rfl
        · refine isBest_updateBest (fun p' hp' => ?_) hout (fun p' hp' => hub p' (hsub p' hp')) (hpb ▸ hp) hr'
          by_cases e : p' = p
          · subst e; simp [Ladder.setLevel, he]
          · simp only [Ladder.setLevel, Function.update_of_ne e]
            exact (h.level p' hp').empty_iff
      · refine ⟨_, _, (if_neg hz).trans (if_neg hpb), h.setLevel_ok hp hlev hrel hk rfl hcard ?_, hrel⟩
        refine .inr ⟨?_, fun p' hp' => hub p' (hsub p' hp')⟩
        show Function.update q p [] l.best ≠ []
        rwa [Function.update_of_ne (Ne.symm hpb)]
  · -- the level still holds orders
    have hiff : k = [] ↔ q p = [] := iff_of_false (fun e => he (hlev.empty_iff.mpr e)) hqp
    refine ⟨_, _, by simp only [if_neg he]; rfl, h.setLevel_ok hp hlev hrel hk rfl ?_ ?_, hrel⟩
    · rw [occupied_update_of_iff hiff]; exact h.nonEmpty
    · exact isBest_of_iff h.best hiff

end LadderRep

end Exchange
