import Exchange.Proof.Server.Entry
import Exchange.Proof.Wire.Fields
import Exchange.Spec.Options

/-!
# Unsupported options

`check_enter` and `check_replace` accept what is supported, except that they do not look at
SharesLocated and LocateBroker.
-/

namespace Exchange

open Spec Validation

/-! ## Core fields -/

theorem toEngineSide_ne_none {side : UInt8} : toEngineSide side ≠ none ↔ side = chr 'B' ∨ side = chr 'S' := by
  unfold toEngineSide
  split_ifs <;> simp [*]

theorem toEngineTif_ne_none {tif : UInt8} : toEngineTif tif ≠ none ↔ tif = chr '0' ∨ tif = chr '3' := by
  unfold toEngineTif
  split_ifs <;> simp [*]

theorem validQuantity_iff {quantity : UInt32} :
    validQuantity quantity = true ↔ 1 ≤ quantity.toNat ∧ quantity.toNat ≤ 999999 := by
  rw [validQuantity, ouchMaxQuantity, Bool.and_eq_true, decide_eq_true_iff, decide_eq_true_iff]
  rfl

/-- Between the last limit price and the first market price there are no whole cents. -/
theorem toEnginePrice_eq_limit {price : UInt64} {band : PriceBand} :
    (∃ cents, toEnginePrice price band = some ⟨.limit, cents⟩) ↔ CentsInBand price band ∧ ¬ IsMarket price := by
  have hticks : ouchTicksPerCent = 100 := rfl
  have hmax : ouchMaxLimitPrice = 1999999900 := rfl
  have hfloor : ouchMarketPriceFloor = 2000000000 := rfl
  unfold toEnginePrice CentsInBand IsMarket
  dsimp only
  constructor
  · rintro ⟨cents, h⟩
    split_ifs at h with h₁ h₂ h₃
    · cases h
    · rw [hticks] at h₂ h₃
      rw [hticks]
      exact ⟨⟨price.toNat / 100, by omega⟩, h₁⟩
  · rintro ⟨⟨cents, hprice, hcents⟩, hmarket⟩
    rw [hticks] at hprice
    have hdiv : price.toNat / 100 = cents := by omega
    refine ⟨cents, ?_⟩
    rw [if_neg hmarket, hticks, if_neg (by omega), hdiv, if_neg (by omega)]

theorem toEnginePrice_ne_none {price : UInt64} {band : PriceBand} :
    toEnginePrice price band ≠ none ↔ CentsInBand price band ∨ IsMarket price := by
  by_cases hmarket : IsMarket price
  · have hsome : toEnginePrice price band = some ⟨.market, 0⟩ := if_pos hmarket
    simp [hsome, hmarket]
  · rw [or_iff_left hmarket, ← and_iff_left_of_imp (a := CentsInBand price band) fun _ => hmarket,
      ← toEnginePrice_eq_limit]
    constructor
    · intro h
      obtain ⟨⟨type, cents⟩, h⟩ := Option.ne_none_iff_exists'.mp h
      cases type with
      | limit => exact ⟨cents, h⟩
      | market =>
        have hlimit : ¬ price.toNat ≥ ouchMarketPriceFloor := hmarket
        unfold toEnginePrice at h
        dsimp only at h
        rw [if_neg hlimit] at h
        split_ifs at h
        cases h
    · rintro ⟨cents, h⟩
      rw [h]
      exact Option.some_ne_none _

/-! ## Options -/

/-- The options that are looked at have their defaults. -/
theorem unsupportedOptionReason_eq_none {m : Options} : unsupportedOptionReason m = none ↔
    m.minQty = 0 ∧ m.maxFloor = 0 ∧ m.priceType = chr 'L' ∧ m.pegOffset = 0 ∧ m.discretionPrice = 0 ∧
      m.discretionPriceType = chr 'L' ∧ m.discretionPegOffset = 0 ∧ m.postOnly = chr 'N' ∧ m.randomReserves = 0 ∧
      m.expireTime = 0 ∧ m.tradeNow = chr 'N' ∧ m.handleInst = chr ' ' ∧ m.aiqStrategy = chr '*' ∧
      m.aiqGroupId = alpha 2 ['*', '*'] ∧ m.appendage.has .userRefIdx = false := by
  unfold unsupportedOptionReason
  split_ifs <;> grind

theorem not_has_userRefIdx {m : Options} (h : unsupportedOptionReason m = none) :
    m.appendage.has .userRefIdx = false := by
  obtain ⟨-, -, -, -, -, -, -, -, -, -, -, -, -, -, hidx⟩ := unsupportedOptionReason_eq_none.mp h
  exact hidx

/-- The tags that are neither free nor looked at are those of located shares. -/
theorem atDefault_enter {m : OuchEnterOrder} (h : m.appendage.has .userRefIdx = false) :
    AtDefault (.userRefIdx :: (enterFree ++ located)) m ↔ unsupportedOptionReason (enterOptions m) = none := by
  rw [unsupportedOptionReason_eq_none]
  simp [AtDefault, OuchMessage.tags, OuchMessage.blank, hook, enterFree, located, enterOptions, h]

theorem atDefault_replace {m : OuchReplaceOrder} (h : m.appendage.has .userRefIdx = false) :
    AtDefault (.userRefIdx :: .side :: located) m ↔ unsupportedOptionReason (replaceOptions m) = none := by
  rw [unsupportedOptionReason_eq_none]
  simp [AtDefault, OuchMessage.tags, OuchMessage.blank, hook, located, replaceOptions, h]

/-! ## The checks -/

theorem supportedEnter_of_ok {m : OuchEnterOrder} {band : PriceBand} {check : EnterCheck}
    (h : checkEnter m band = .ok check) : SupportedEnter (enterFree ++ located) m band := by
  unfold checkEnter at h
  cases hs : toEngineSide m.side with
  | none => rw [hs] at h; cases h
  | some side =>
    cases hp : toEnginePrice m.price band with
    | none => simp only [hs, hp] at h; split_ifs at h
    | some price =>
      cases ht : toEngineTif m.timeInForce with
      | none => simp only [hs, hp, ht] at h; split_ifs at h
      | some tif =>
        simp only [hs, hp, ht] at h
        split_ifs at h with hq hd hc hi hx
        split at h
        · cases h
        · next ho =>
          have hidx := not_has_userRefIdx ho
          exact {
            side := toEngineSide_ne_none.mp (hs ▸ Option.some_ne_none side)
            quantity := validQuantity_iff.mp (by simpa using hq)
            price := toEnginePrice_ne_none.mp (hp ▸ Option.some_ne_none price)
            timeInForce := toEngineTif_ne_none.mp (ht ▸ Option.some_ne_none tif)
            display := not_not.mp hd
            capacity := by grind
            intermarketSweepEligibility := not_not.mp hi
            crossType := not_not.mp hx
            userRefIdx := hidx
            options := (atDefault_enter hidx).mpr ho }

theorem checkEnter_of_supported {m : OuchEnterOrder} {band : PriceBand}
    (h : SupportedEnter (enterFree ++ located) m band) : ∃ check, checkEnter m band = .ok check := by
  obtain ⟨side, hs⟩ := Option.ne_none_iff_exists'.mp (toEngineSide_ne_none.mpr h.side)
  obtain ⟨price, hp⟩ := Option.ne_none_iff_exists'.mp (toEnginePrice_ne_none.mpr h.price)
  obtain ⟨tif, ht⟩ := Option.ne_none_iff_exists'.mp (toEngineTif_ne_none.mpr h.timeInForce)
  have ho := (atDefault_enter h.userRefIdx).mp h.options
  have hcap : ¬ (m.capacity ≠ chr 'A' ∧ m.capacity ≠ chr 'P' ∧ m.capacity ≠ chr 'R' ∧ m.capacity ≠ chr 'O') := by
    have := h.capacity
    grind
  refine ⟨⟨side, price.type, price.price, tif⟩, ?_⟩
  unfold checkEnter
  simp only [hs, hp, ht, ho, validQuantity_iff.mpr h.quantity, h.display, h.intermarketSweepEligibility, h.crossType,
    if_neg hcap]
  rfl

theorem checkEnter_ok_iff {m : OuchEnterOrder} {band : PriceBand} :
    (∃ check, checkEnter m band = .ok check) ↔ SupportedEnter (enterFree ++ located) m band :=
  ⟨fun ⟨_, h⟩ => supportedEnter_of_ok h, checkEnter_of_supported⟩

theorem checkReplace_isSome_iff {m : OuchReplaceOrder} {origSide : UInt8} {band : PriceBand} :
    (checkReplace m origSide band).isSome ↔ SupportedReplace located m origSide band := by
  simp only [checkReplace, Option.bind_eq_bind, Option.isSome_iff_exists, Option.bind_eq_some_iff,
    Option.guard_eq_some']
  constructor
  · rintro ⟨check, _, hq, ⟨type, cents⟩, hp, _, hl, tif, ht, _, hd, _, hside, _, ho, -⟩
    obtain rfl : type = .limit := hl
    have ho := Option.isNone_iff_eq_none.mp ho
    have hidx := not_has_userRefIdx ho
    exact {
      quantity := validQuantity_iff.mp hq
      price := toEnginePrice_eq_limit.mp ⟨cents, hp⟩
      timeInForce := toEngineTif_ne_none.mp (ht ▸ Option.some_ne_none tif)
      display := hd.1
      intermarketSweepEligibility := hd.2
      side := by grind
      userRefIdx := hidx
      options := (atDefault_replace hidx).mpr ho }
  · intro h
    obtain ⟨cents, hp⟩ := toEnginePrice_eq_limit.mpr h.price
    obtain ⟨tif, ht⟩ := Option.ne_none_iff_exists'.mp (toEngineTif_ne_none.mpr h.timeInForce)
    have ho := (atDefault_replace h.userRefIdx).mp h.options
    have hside := h.side
    exact ⟨⟨cents, tif⟩, (), validQuantity_iff.mpr h.quantity, ⟨.limit, cents⟩, hp, (), rfl, tif, ht, (),
      ⟨h.display, h.intermarketSweepEligibility⟩, (), by grind, (), by rw [ho]; rfl, rfl⟩

/-! ## Located shares -/

section Located

variable {M : Type} [OuchMessage M] {m : M}

/-- What is left to ask is that no shares were located. -/
theorem atDefault_and_unlocated (free : List OuchTag) (hfree : ∀ tag ∈ located, tag ∉ free) :
    AtDefault (free ++ located) m ∧ Unlocated m ↔ AtDefault free m := by
  constructor
  · rintro ⟨h, hl⟩ t ht hnot
    by_cases hloc : t.1 ∈ located
    · exact hl t ht hloc
    · exact h t ht fun hmem => (List.mem_append.mp hmem).elim hnot hloc
  · intro h
    exact ⟨fun t ht hnot => h t ht fun hmem => hnot (List.mem_append_left _ hmem),
      fun t ht hloc => h t ht (hfree t.1 hloc)⟩

end Located

theorem supportedEnter_and_unlocated {m : OuchEnterOrder} {band : PriceBand} :
    SupportedEnter (enterFree ++ located) m band ∧ Unlocated m ↔ SupportedEnter enterFree m band := by
  have hoptions : AtDefault (.userRefIdx :: (enterFree ++ located)) m ∧ Unlocated m ↔
      AtDefault (.userRefIdx :: enterFree) m := atDefault_and_unlocated (.userRefIdx :: enterFree) (by decide)
  constructor
  · rintro ⟨h, hl⟩
    exact { h with options := hoptions.mp ⟨h.options, hl⟩ }
  · intro h
    obtain ⟨ho, hl⟩ := hoptions.mpr h.options
    exact ⟨{ h with options := ho }, hl⟩

theorem supportedReplace_and_unlocated {m : OuchReplaceOrder} {origSide : UInt8} {band : PriceBand} :
    SupportedReplace located m origSide band ∧ Unlocated m ↔ SupportedReplace [] m origSide band := by
  have hoptions : AtDefault (.userRefIdx :: .side :: located) m ∧ Unlocated m ↔
      AtDefault [.userRefIdx, .side] m := atDefault_and_unlocated [.userRefIdx, .side] (by decide)
  constructor
  · rintro ⟨h, hl⟩
    exact { h with options := hoptions.mp ⟨h.options, hl⟩ }
  · intro h
    obtain ⟨ho, hl⟩ := hoptions.mpr h.options
    exact ⟨{ h with options := ho }, hl⟩

/-- The checks accept the messages that are supported but for what shares they locate, at which
they do not look. So they do what they should, which is to accept those that are supported and no
others, on the messages that locate no shares or ask for something else that is not supported, and
on these alone. -/
theorem unsupported_rejected (band : PriceBand) :
    (∀ m : OuchEnterOrder,
      ((∃ check, checkEnter m band = .ok check) ↔ SupportedEnter (enterFree ++ located) m band) ∧
      (((∃ check, checkEnter m band = .ok check) ↔ SupportedEnter enterFree m band) ↔
        (SupportedEnter (enterFree ++ located) m band → Unlocated m))) ∧
    ∀ (m : OuchReplaceOrder) (origSide : UInt8),
      ((checkReplace m origSide band).isSome ↔ SupportedReplace located m origSide band) ∧
      (((checkReplace m origSide band).isSome ↔ SupportedReplace [] m origSide band) ↔
        (SupportedReplace located m origSide band → Unlocated m)) := by
  refine ⟨fun m => ⟨checkEnter_ok_iff, ?_⟩, fun m origSide => ⟨checkReplace_isSome_iff, ?_⟩⟩
  · rw [checkEnter_ok_iff, ← supportedEnter_and_unlocated]
    exact iff_self_and
  · rw [checkReplace_isSome_iff, ← supportedReplace_and_unlocated]
    exact iff_self_and

/-- An order with SharesLocated 'Y', which is not the default. -/
def locatingEnter : OuchEnterOrder where
  userRefNum := 1
  side := chr 'S'
  quantity := 100
  symbol := alpha 8 ['S', 'I', 'M']
  price := 10000
  timeInForce := chr '0'
  display := chr 'Y'
  capacity := chr 'A'
  intermarketSweepEligibility := chr 'N'
  crossType := chr 'N'
  clOrdId := alpha 14 []
  sharesLocated := chr 'Y'
  appendage := OuchTagSet.set {} .sharesLocated

def locatingReplace : OuchReplaceOrder where
  origUserRefNum := 1
  userRefNum := 2
  quantity := 100
  price := 10000
  timeInForce := chr '0'
  display := chr 'Y'
  intermarketSweepEligibility := chr 'N'
  clOrdId := alpha 14 []
  sharesLocated := chr 'Y'
  appendage := OuchTagSet.set {} .sharesLocated

/-- Without it the order is supported, and accepted; with it and no shares to trade it is
rejected, as it should be. -/
theorem unsupported_rejected_plain :
    (Unlocated { locatingEnter with sharesLocated := chr 'N', appendage := {} } ∧
      SupportedEnter enterFree { locatingEnter with sharesLocated := chr 'N', appendage := {} } ⟨minPrice, maxPrice⟩) ∧
    ¬ Unlocated { locatingEnter with quantity := 0 } ∧
      ((∃ check, checkEnter { locatingEnter with quantity := 0 } ⟨minPrice, maxPrice⟩ = .ok check) ↔
        SupportedEnter enterFree { locatingEnter with quantity := 0 } ⟨minPrice, maxPrice⟩) := by
  obtain ⟨henter, -⟩ := unsupported_rejected ⟨minPrice, maxPrice⟩
  refine ⟨?_, ?_, ?_⟩
  · have hl : Unlocated { locatingEnter with sharesLocated := chr 'N', appendage := {} } := by
      simp [Unlocated, OuchMessage.tags, OuchMessage.blank, located, hook, locatingEnter]
    exact ⟨hl, ((henter _).2.mpr fun _ => hl).mp ⟨⟨.ask, .limit, 100, .day⟩, rfl⟩⟩
  · intro h
    have hdefault := h (.sharesLocated, hook (·.sharesLocated) ({ · with sharesLocated := · }))
      (by simp [OuchMessage.tags]) (by decide)
    exact absurd hdefault (by decide)
  · exact (henter _).2.mpr fun h => absurd h.quantity.1 (by decide)

/-- SharesLocated is accepted with any value. -/
theorem located_shares_accepted :
    ((∃ check, checkEnter locatingEnter ⟨minPrice, maxPrice⟩ = .ok check) ∧
      ¬ SupportedEnter enterFree locatingEnter ⟨minPrice, maxPrice⟩) ∧
    (checkReplace locatingReplace (chr 'S') ⟨minPrice, maxPrice⟩).isSome ∧
      ¬ SupportedReplace [] locatingReplace (chr 'S') ⟨minPrice, maxPrice⟩ := by
  refine ⟨⟨⟨⟨.ask, .limit, 100, .day⟩, rfl⟩, fun h => ?_⟩, by decide, fun h => ?_⟩
  · have hdefault := h.options (.sharesLocated, hook (·.sharesLocated) ({ · with sharesLocated := · }))
      (by simp [OuchMessage.tags]) (by decide)
    exact absurd hdefault (by decide)
  · have hdefault := h.options (.sharesLocated, hook (·.sharesLocated) ({ · with sharesLocated := · }))
      (by simp [OuchMessage.tags]) (by decide)
    exact absurd hdefault (by decide)

end Exchange
