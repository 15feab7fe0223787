import Mathlib.Data.UInt

/-!
# The clock

`tsc_clock.hpp`: nanoseconds since midnight from the time stamp counter. `calibrate` has the
readings the constructor takes; the rate it computes from two of them, in floating point, is a
parameter.
-/

namespace Exchange

/-- `TscClock`, without `tsc_hz_`. -/
structure TscClock where
  anchorTsc : UInt64
  anchorNsSinceMidnight : UInt64
  /-- Nanoseconds per tick, 32.32 fixed point. -/
  nsPerTickQ32 : UInt64

namespace TscClock

/-- `kNsPerSec`. -/
def nsPerSec : UInt64 := 1000000000

/-- `kNsPerDay`. -/
def nsPerDay : UInt64 := 86400 * nsPerSec

/-- `TscClock::ticks_to_ns`: the product has 128 bits. -/
def ticksToNs (clock : TscClock) (ticks : UInt64) : UInt64 :=
  UInt64.ofNat ((ticks.toNat * clock.nsPerTickQ32.toNat) >>> 32)

/-- `TscClock::ns_since_midnight`. -/
def nsSinceMidnight (clock : TscClock) (tsc : UInt64) : UInt64 :=
  let elapsed := if tsc > clock.anchorTsc then clock.ticksToNs (tsc - clock.anchorTsc) else 0
  let ns := clock.anchorNsSinceMidnight + elapsed
  if ns ≥ nsPerDay then ns % nsPerDay else ns

/-! ## Calibration -/

/-- `timespec`. -/
structure Timespec where
  sec : UInt64
  nsec : UInt64

/-- A call of `clock_gettime` between two reads of the counter. -/
structure Reading where
  before : UInt64
  ts : Timespec
  after : UInt64

/-- `TscClock::to_ns`. -/
def toNs (ts : Timespec) : UInt64 := ts.sec * nsPerSec + ts.nsec

/-- `TscClock::sample`: the tightest of the readings, with the middle of its reads; `out` has
its time as well. -/
structure Sample where
  tsc : UInt64 := 0
  ns : UInt64 := 0
  out : Timespec := ⟨0, 0⟩

/-- One turn of the loop of `sample`: the best so far and `best_width`. -/
def better (best : Sample × UInt64) (reading : Reading) : Sample × UInt64 :=
  let width := reading.after - reading.before
  if width < best.2 then (⟨reading.before + width / 2, toNs reading.ts, reading.ts⟩, width) else best

def sample (readings : List Reading) : Sample := (readings.foldl better ({}, UInt64.ofNat (2 ^ 64 - 1))).1

/-- `tm`, as far as it is read. -/
structure Tm where
  hour : UInt64
  min : UInt64
  sec : UInt64

/-- The constructor, from its last readings; `localtime` is `localtime_r`. -/
def calibrate (nsPerTickQ32 : UInt64) (readings : List Reading) (localtime : UInt64 → Tm) : TscClock :=
  let anchor := sample readings
  let tm := localtime anchor.out.sec
  { anchorTsc := anchor.tsc
    anchorNsSinceMidnight := (tm.hour * 3600 + tm.min * 60 + tm.sec) * nsPerSec + anchor.out.nsec
    nsPerTickQ32 := nsPerTickQ32 }

end TscClock

end Exchange
