import Exchange.Impl.TscClock
import Mathlib.Data.Nat.Basic

/-!
# The clock keeps the order of its stamps

Whatever the calibration gave, a stamp is below a day, so it fits the 48 bits it has on the wire.
Until midnight stamps do not go back, and the time between two of them is that of the ticks
between them, up to the one nanosecond that rounding down can take.
-/

namespace Exchange.TscClock

variable {clock : TscClock} {tsc tsc' : UInt64}

/-- The nanoseconds from the anchor to a stamp, unbounded; 0 before the anchor. -/
def elapsed (clock : TscClock) (tsc : UInt64) : ℕ :=
  (tsc.toNat - clock.anchorTsc.toNat) * clock.nsPerTickQ32.toNat / 2 ^ 32

/-- The day of the anchor has not ended. -/
def SameDay (clock : TscClock) (tsc : UInt64) : Prop :=
  clock.anchorNsSinceMidnight.toNat + clock.elapsed tsc < nsPerDay.toNat

theorem toNat_ticksToNs (clock : TscClock) (ticks : UInt64) :
    (clock.ticksToNs ticks).toNat = ticks.toNat * clock.nsPerTickQ32.toNat / 2 ^ 32 % 2 ^ 64 := by
  rw [ticksToNs, UInt64.toNat_ofNat', Nat.shiftRight_eq_div_pow]

theorem nsSinceMidnight_lt (clock : TscClock) (tsc : UInt64) :
    (clock.nsSinceMidnight tsc).toNat < nsPerDay.toNat := by
  unfold nsSinceMidnight
  dsimp only
  generalize clock.anchorNsSinceMidnight + (if tsc > clock.anchorTsc then _ else 0) = ns
  split_ifs with hge
  · rw [UInt64.toNat_mod]
    exact Nat.mod_lt _ (by decide)
  · exact UInt64.lt_iff_toNat_lt.mp (UInt64.not_le.mp hge)

theorem elapsed_mono (h : tsc ≤ tsc') : clock.elapsed tsc ≤ clock.elapsed tsc' := by
  have h := UInt64.le_iff_toNat_le.mp h
  unfold elapsed
  gcongr

theorem SameDay.mono (hday : clock.SameDay tsc') (h : tsc ≤ tsc') : clock.SameDay tsc :=
  Nat.lt_of_le_of_lt (Nat.add_le_add_left (elapsed_mono h) _) hday

/-- Until midnight nothing wraps. -/
theorem toNat_nsSinceMidnight (hday : clock.SameDay tsc) :
    (clock.nsSinceMidnight tsc).toNat = clock.anchorNsSinceMidnight.toNat + clock.elapsed tsc := by
  have hday' : clock.anchorNsSinceMidnight.toNat + clock.elapsed tsc < 86400000000000 := hday
  have helapsed : (if tsc > clock.anchorTsc then clock.ticksToNs (tsc - clock.anchorTsc) else 0).toNat =
      clock.elapsed tsc := by
    split_ifs with hgt
    · rw [toNat_ticksToNs, UInt64.toNat_sub_of_le _ _ (UInt64.le_of_lt hgt)]
      exact Nat.mod_eq_of_lt (by unfold elapsed at hday'; omega)
    · have hle := UInt64.le_iff_toNat_le.mp (UInt64.not_lt.mp hgt)
      rw [elapsed, Nat.sub_eq_zero_of_le hle, Nat.zero_mul]
      rfl
  have hsum : (clock.anchorNsSinceMidnight +
      if tsc > clock.anchorTsc then clock.ticksToNs (tsc - clock.anchorTsc) else 0).toNat =
      clock.anchorNsSinceMidnight.toNat + clock.elapsed tsc := by
    rw [UInt64.toNat_add, helapsed]
    exact Nat.mod_eq_of_lt (by omega)
  have hlt : ¬ (clock.anchorNsSinceMidnight +
      if tsc > clock.anchorTsc then clock.ticksToNs (tsc - clock.anchorTsc) else 0) ≥ nsPerDay := fun hge => by
    have := UInt64.le_iff_toNat_le.mp hge
    rw [hsum] at this
    exact absurd hday (Nat.not_lt.mpr this)
  unfold nsSinceMidnight
  dsimp only
  rw [if_neg hlt, hsum]

/-- The time to a stamp, from that to an earlier one and the ticks between them. -/
theorem elapsed_add (hanchor : clock.anchorTsc ≤ tsc) (hle : tsc ≤ tsc') :
    clock.elapsed tsc' = clock.elapsed tsc + (tsc'.toNat - tsc.toNat) * clock.nsPerTickQ32.toNat / 2 ^ 32 ∨
    clock.elapsed tsc' = clock.elapsed tsc + (tsc'.toNat - tsc.toNat) * clock.nsPerTickQ32.toNat / 2 ^ 32 + 1 := by
  have ha := UInt64.le_iff_toNat_le.mp hanchor
  have hl := UInt64.le_iff_toNat_le.mp hle
  have hsplit : tsc'.toNat - clock.anchorTsc.toNat = tsc.toNat - clock.anchorTsc.toNat + (tsc'.toNat - tsc.toNat) := by
    omega
  unfold elapsed
  rw [hsplit, Nat.add_mul]
  omega

/-- Stamps are below a day; until midnight they do not go back, and once the clock is anchored the
time between two is that of the ticks between them, or a nanosecond more. -/
theorem clock_keeps_order (clock : TscClock) :
    (∀ tsc, (clock.nsSinceMidnight tsc).toNat < nsPerDay.toNat) ∧
    ∀ tsc tsc', tsc ≤ tsc' → clock.SameDay tsc' →
      clock.nsSinceMidnight tsc ≤ clock.nsSinceMidnight tsc' ∧
      (clock.anchorTsc ≤ tsc →
        (clock.nsSinceMidnight tsc').toNat - (clock.nsSinceMidnight tsc).toNat = (clock.ticksToNs (tsc' - tsc)).toNat ∨
        (clock.nsSinceMidnight tsc').toNat - (clock.nsSinceMidnight tsc).toNat =
          (clock.ticksToNs (tsc' - tsc)).toNat + 1) := by
  refine ⟨clock.nsSinceMidnight_lt, fun tsc tsc' hle hday => ?_⟩
  have hns := toNat_nsSinceMidnight (hday.mono hle)
  have hns' := toNat_nsSinceMidnight hday
  have hmono : clock.elapsed tsc ≤ clock.elapsed tsc' := elapsed_mono hle
  refine ⟨UInt64.le_iff_toNat_le.mpr (by omega), fun hanchor => ?_⟩
  have hday' : clock.anchorNsSinceMidnight.toNat + clock.elapsed tsc' < 86400000000000 := hday
  have hadd := elapsed_add hanchor hle
  have hticks : (clock.ticksToNs (tsc' - tsc)).toNat =
      (tsc'.toNat - tsc.toNat) * clock.nsPerTickQ32.toNat / 2 ^ 32 := by
    rw [toNat_ticksToNs, UInt64.toNat_sub_of_le _ _ hle]
    exact Nat.mod_eq_of_lt (by omega)
  omega

/-! ## Calibration -/

/-- The ticks a reading took. -/
def Reading.width (reading : Reading) : UInt64 := reading.after - reading.before

/-- The sample of a reading, and its width. -/
def Reading.sampled (reading : Reading) : Sample × UInt64 :=
  (⟨reading.before + reading.width / 2, toNs reading.ts, reading.ts⟩, reading.width)

theorem better_cases (best : Sample × UInt64) (reading : Reading) :
    (better best reading = best ∨ better best reading = reading.sampled) ∧ (better best reading).2 ≤ best.2 ∧
      (better best reading).2 ≤ reading.width := by
  unfold better
  dsimp only
  split_ifs with hlt
  · exact ⟨.inr rfl, UInt64.le_of_lt hlt, UInt64.le_refl _⟩
  · exact ⟨.inl rfl, UInt64.le_refl _, UInt64.not_lt.mp hlt⟩

/-- After some readings the best is one of the tightest of them, or the one from before. -/
theorem foldl_better (best : Sample × UInt64) (readings : List Reading) :
    (readings.foldl better best = best ∨ ∃ reading ∈ readings, readings.foldl better best = reading.sampled) ∧
      (readings.foldl better best).2 ≤ best.2 ∧
      ∀ reading ∈ readings, (readings.foldl better best).2 ≤ reading.width := by
  induction readings generalizing best with
  | nil => exact ⟨.inl rfl, UInt64.le_refl _, fun _ h => absurd h List.not_mem_nil⟩
  | cons reading readings ih =>
    obtain ⟨hfrom, hle, hall⟩ := ih (better best reading)
    obtain ⟨hstep, hbest, hwidth⟩ := better_cases best reading
    rw [List.foldl_cons]
    refine ⟨?_, UInt64.le_trans hle hbest, List.forall_mem_cons.mpr ⟨UInt64.le_trans hle hwidth, hall⟩⟩
    rcases hfrom with e | ⟨r, hr, e⟩
    · exact hstep.imp e.trans fun e' => ⟨reading, List.mem_cons_self, e.trans e'⟩
    · exact .inr ⟨r, List.mem_cons_of_mem _ hr, e⟩

/-- The middle of a reading is in it. -/
theorem Reading.middle_mem {reading : Reading} (h : reading.before ≤ reading.after) :
    reading.before ≤ reading.sampled.1.tsc ∧ reading.sampled.1.tsc ≤ reading.after := by
  have hle := UInt64.le_iff_toNat_le.mp h
  have hlt := reading.after.toNat_lt
  have hmiddle : reading.sampled.1.tsc.toNat =
      reading.before.toNat + (reading.after.toNat - reading.before.toNat) / 2 := by
    show (reading.before + (reading.after - reading.before) / 2).toNat = _
    rw [UInt64.toNat_add, UInt64.toNat_div, UInt64.toNat_sub_of_le _ _ h]
    exact Nat.mod_eq_of_lt (by simp only [UInt64.reduceToNat]; omega)
  exact ⟨UInt64.le_iff_toNat_le.mpr (by omega), UInt64.le_iff_toNat_le.mpr (by omega)⟩

/-- The nanoseconds since midnight of a time of day. -/
def timeOfDay (tm : Tm) (nsec : UInt64) : ℕ :=
  (tm.hour.toNat * 3600 + tm.min.toNat * 60 + tm.sec.toNat) * 10 ^ 9 + nsec.toNat

/-- A time of day, as `localtime_r` gives it without leap seconds. -/
def Tm.Valid (tm : Tm) : Prop := tm.hour.toNat < 24 ∧ tm.min.toNat < 60 ∧ tm.sec.toNat < 60

theorem toNat_timeOfDay {tm : Tm} {nsec : UInt64} (htm : tm.Valid) (hnsec : nsec.toNat < 10 ^ 9) :
    ((tm.hour * 3600 + tm.min * 60 + tm.sec) * nsPerSec + nsec).toNat = timeOfDay tm nsec ∧
      timeOfDay tm nsec < nsPerDay.toNat := by
  obtain ⟨hhour, hmin, hsec⟩ := htm
  have hday : timeOfDay tm nsec < 86400000000000 := by
    unfold timeOfDay
    omega
  refine ⟨?_, hday⟩
  unfold timeOfDay at hday ⊢
  simp only [nsPerSec, UInt64.toNat_add, UInt64.toNat_mul, UInt64.reduceToNat]
  omega

theorem nsSinceMidnight_anchor (h : clock.anchorNsSinceMidnight.toNat < nsPerDay.toNat) :
    (clock.nsSinceMidnight clock.anchorTsc).toNat = clock.anchorNsSinceMidnight.toNat := by
  have hzero : clock.elapsed clock.anchorTsc = 0 := by simp [elapsed]
  have hday : clock.SameDay clock.anchorTsc := by
    rw [SameDay, hzero]
    exact h
  rw [toNat_nsSinceMidnight hday, hzero, Nat.add_zero]

/-- The anchor is in a reading that no other one is tighter than, and at the anchor the clock shows
the local time of that reading. -/
theorem calibrate_anchors (nsPerTickQ32 : UInt64) (readings : List Reading) (localtime : UInt64 → Tm)
    (hordered : ∀ reading ∈ readings, reading.before ≤ reading.after)
    (hquick : ∃ reading ∈ readings, reading.width.toNat < 2 ^ 64 - 1) (hlocal : ∀ sec, (localtime sec).Valid)
    (hnsec : ∀ reading ∈ readings, reading.ts.nsec.toNat < 10 ^ 9) :
    ∃ reading ∈ readings, (∀ other ∈ readings, reading.width ≤ other.width) ∧
      reading.before ≤ (calibrate nsPerTickQ32 readings localtime).anchorTsc ∧
      (calibrate nsPerTickQ32 readings localtime).anchorTsc ≤ reading.after ∧
      ((calibrate nsPerTickQ32 readings localtime).nsSinceMidnight
          (calibrate nsPerTickQ32 readings localtime).anchorTsc).toNat =
        timeOfDay (localtime reading.ts.sec) reading.ts.nsec := by
  obtain ⟨hfrom, -, hall⟩ := foldl_better ({}, UInt64.ofNat (2 ^ 64 - 1)) readings
  obtain ⟨reading, hmem, hbest⟩ : ∃ reading ∈ readings,
      readings.foldl better ({}, UInt64.ofNat (2 ^ 64 - 1)) = reading.sampled := by
    refine hfrom.resolve_left fun e => ?_
    obtain ⟨quick, hq, hlt⟩ := hquick
    have hle := UInt64.le_iff_toNat_le.mp (hall quick hq)
    rw [e] at hle
    exact absurd hle (Nat.not_le.mpr hlt)
  have hsample : sample readings = reading.sampled.1 := congrArg Prod.fst hbest
  have htightest : ∀ other ∈ readings, reading.width ≤ other.width := fun other ho => by
    have := hall other ho
    rwa [hbest] at this
  obtain ⟨hbefore, hafter⟩ := Reading.middle_mem (hordered reading hmem)
  obtain ⟨htime, hday⟩ := toNat_timeOfDay (hlocal reading.ts.sec) (hnsec reading hmem)
  have hns : (calibrate nsPerTickQ32 readings localtime).anchorNsSinceMidnight.toNat =
      timeOfDay (localtime reading.ts.sec) reading.ts.nsec := by
    unfold calibrate
    rw [hsample]
    exact htime
  have htsc : (calibrate nsPerTickQ32 readings localtime).anchorTsc = reading.sampled.1.tsc := by
    unfold calibrate
    rw [hsample]
  refine ⟨reading, hmem, htightest, htsc ▸ hbefore, htsc ▸ hafter, ?_⟩
  rw [nsSinceMidnight_anchor (hns ▸ hday), hns]

/-- Two readings at noon, the second one tighter. -/
def sampleReadings : List Reading :=
  [⟨1000, ⟨1700000000, 0⟩, 1400⟩, ⟨2000, ⟨1700000000, 250⟩, 2100⟩]

theorem calibrate_anchors_noon :
    ∃ reading ∈ sampleReadings, (∀ other ∈ sampleReadings, reading.width ≤ other.width) ∧
      ((calibrate 1431655765 sampleReadings fun _ => ⟨12, 0, 0⟩).nsSinceMidnight
        (calibrate 1431655765 sampleReadings fun _ => ⟨12, 0, 0⟩).anchorTsc).toNat =
      timeOfDay ⟨12, 0, 0⟩ reading.ts.nsec := by
  obtain ⟨reading, hmem, hmin, -, -, htime⟩ := calibrate_anchors 1431655765 sampleReadings (fun _ => ⟨12, 0, 0⟩)
    (by decide) ⟨_, List.mem_cons_self, by decide⟩ (fun _ => ⟨by decide, by decide, by decide⟩) (by decide)
  exact ⟨reading, hmem, hmin, htime⟩

end Exchange.TscClock
