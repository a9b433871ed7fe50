import Mathlib

/-!
# Two-line element sets

The elements as `tle.rs` stores them. The numbers that stand for its `f64` fields are a parameter: the
parser produces unchecked floats, everything else computes exactly.
-/

namespace Zenith.Orbit

inductive OrbitError
  | invalidLineCount (lines : ℕ)
  | invalidLineLength (len : ℕ)
  | checksumMismatch (computed expected : UInt8)
  | parseField (field : String) (value : String)
  | invalidEpoch (epoch : String)
  | timeOutOfRange (what : String)
  deriving DecidableEq, Repr

structure Tle (F : Type) where
  name : Option String
  satelliteNumber : UInt32
  internationalDesignator : String
  epochYear : UInt32
  epochDay : F
  meanMotionDot : F
  meanMotionDdot : F
  bstar : F
  elementSetNumber : UInt32
  inclinationDeg : F
  raanDeg : F
  eccentricity : F
  argPerigeeDeg : F
  meanAnomalyDeg : F
  meanMotion : F
  revNumberAtEpoch : UInt32
  deriving DecidableEq, Repr

/-! ## The epoch -/

def isLeap (y : ℕ) : Bool := (4 ∣ y ∧ ¬100 ∣ y) ∨ 400 ∣ y

/-- The days of a year as the loops of `mjd_at_year_start` count them. -/
def yearDays (y : ℕ) : ℤ := if isLeap y then 366 else 365

/-- The loops of `mjd_at_year_start`, forward and backward from 2000. -/
def daysFrom2000 (year : ℕ) : ℤ :=
  if 2000 ≤ year then (List.range' 2000 (year - 2000)).foldl (fun d y ↦ d + yearDays y) 0
  else (List.range' year (2000 - year)).foldl (fun d y ↦ d - yearDays y) 0

def mjdAtYearStart (year : UInt32) : ℚ := (51544 - 1) + daysFrom2000 year.toNat

namespace Tle

def epochMjd (tle : Tle ℚ) : ℚ := mjdAtYearStart tle.epochYear + (tle.epochDay - 1)

end Tle

/-- `epoch_days_1950`. -/
def epochDays1950 (mjd : ℚ) : ℚ := mjd - 33280

/-- The epoch that `from_tle` computes and hands to `dsinit`. -/
def initlEpoch (tle : Tle ℚ) : ℚ := epochDays1950 tle.epochMjd

/-- What `from_tle` calls `gstime` with. -/
def gstimeArgument (tle : Tle ℚ) : ℚ := initlEpoch tle + 24332815 / 10

end Zenith.Orbit
