import Zenith.Data.Calendar
import Zenith.Orbit.Tle

/-!
# The epoch of an element set

The loops over years count as the calendar does. The start of the year is taken a day early although the
day of the year starts at one, and the zero point of the days since 1950 a day early as well, so that the
Modified Julian Date is off by a day and the Julian Date is not.
-/

namespace Zenith.Orbit

open Calendar

/-- The date of which the Modified Julian Date is zero. -/
def mjdOrigin : Date := ⟨1858, 11, 17, by decide, by decide⟩

/-- The date at noon of which the Julian Date is zero. -/
def julianOrigin : Date := ⟨-4713, 11, 24, by decide, by decide⟩

/-- 1950 January 0. -/
def dayZero1950 : Date := ⟨1949, 12, 31, by decide, by decide⟩

/-! ## Years -/

theorem yearDays_eq (y : ℕ) : yearDays y = yearLength y := by
  have hleap : isLeap y = true ↔ IsLeap y := by
    unfold isLeap IsLeap
    rw [decide_eq_true_iff]
    omega
  unfold yearDays yearLength
  by_cases h : IsLeap y
  · rw [if_pos (hleap.mpr h), if_pos h]
    rfl
  · rw [if_neg (mt hleap.mp h), if_neg h]
    rfl

theorem daysBeforeYear_succ_eq (y : ℕ) :
    daysBeforeYear (y + 1 : ℕ) = daysBeforeYear y + yearDays y := by
  rw [yearDays_eq, ← daysBeforeYear_succ, Nat.cast_succ]

/-- A loop that adds the increments of a function ends with its difference. -/
theorem foldl_telescope (total increment : ℕ → ℤ) (h : ∀ y, total (y + 1) = total y + increment y)
    (start n : ℕ) (d : ℤ) :
    (List.range' start n).foldl (fun d y ↦ d + increment y) d =
      d + (total (start + n) - total start) := by
  induction n with
  | zero => simp
  | succ n ih =>
    rw [List.range'_1_concat, List.foldl_concat, ih, ← Nat.add_assoc, h]
    ring

theorem daysFrom2000_eq (year : ℕ) :
    daysFrom2000 year = daysBeforeYear year - daysBeforeYear 2000 := by
  unfold daysFrom2000
  split_ifs with h
  · rw [foldl_telescope (fun y ↦ daysBeforeYear y) yearDays daysBeforeYear_succ_eq,
      Nat.add_sub_cancel' h, zero_add]
    rfl
  · have hincrement (y : ℕ) : -daysBeforeYear (y + 1 : ℕ) = -daysBeforeYear y + -yearDays y := by
      rw [daysBeforeYear_succ_eq, neg_add]
    simp only [sub_eq_add_neg]
    rw [foldl_telescope (fun y ↦ -daysBeforeYear y) (-yearDays ·) hincrement,
      Nat.add_sub_cancel' (by omega)]
    push_cast
    ring

/-! ## Epochs -/

/-- The days before the year in which the element set was taken, counted from another date. -/
theorem apart_newYear {origin : Date} {tle : Tle ℚ} {days : ℤ}
    (h : Apart origin (newYear tle.epochYear.toNat) days) :
    days = daysBeforeYear tle.epochYear.toNat - origin.dayNumber := by
  rw [apart_iff, dayNumber_newYear] at h
  rw [h, add_sub_cancel_left]

/-- The Modified Julian Date of the epoch, a day early. -/
theorem epochMjd_add_one (tle : Tle ℚ) : tle.epochMjd + 1 =
    (daysBeforeYear tle.epochYear.toNat - mjdOrigin.dayNumber : ℤ) + (tle.epochDay - 1) := by
  have hmillennium : daysBeforeYear 2000 = mjdOrigin.dayNumber + 51544 := by decide
  unfold Tle.epochMjd mjdAtYearStart
  rw [daysFrom2000_eq, hmillennium]
  push_cast
  ring

/-- `epoch_mjd` is never the Modified Julian Date of the epoch. -/
theorem epochMjd_ne (tle : Tle ℚ) {days : ℤ}
    (h : Apart mjdOrigin (newYear tle.epochYear.toNat) days) :
    tle.epochMjd ≠ days + (tle.epochDay - 1) := by
  rw [apart_newYear h, ← epochMjd_add_one]
  exact (lt_add_one tle.epochMjd).ne

/-- An element set of the first instant of 2000. -/
def millennium : Tle ℚ where
  name := none
  satelliteNumber := 0
  internationalDesignator := ""
  epochYear := 2000
  epochDay := 1
  meanMotionDot := 0
  meanMotionDdot := 0
  bstar := 0
  elementSetNumber := 0
  inclinationDeg := 0
  raanDeg := 0
  eccentricity := 0
  argPerigeeDeg := 0
  meanAnomalyDeg := 0
  meanMotion := 15
  revNumberAtEpoch := 0

theorem epochMjd_ne_millennium : millennium.epochMjd ≠ (51544 : ℤ) + (millennium.epochDay - 1) :=
  epochMjd_ne millennium (apart_iff.mpr (by decide))

theorem epochMjd_not_modifiedJulianDate : ¬∀ (tle : Tle ℚ) (days : ℤ), 1 ≤ tle.epochDay →
    Apart mjdOrigin (newYear tle.epochYear.toNat) days →
      tle.epochMjd = days + (tle.epochDay - 1) := by
  intro hall
  have hmjd := hall millennium 51544 (by decide) (apart_iff.mpr (by decide))
  have hactual : millennium.epochMjd = 51543 := by decide +kernel
  rw [hactual] at hmjd
  norm_num [millennium] at hmjd

/-- `gstime` is called with the Julian Date of the epoch, which starts at noon, and `dsinit` with the
days since 1950 January 0. -/
theorem sidereal_instant (tle : Tle ℚ) {julianDays days : ℤ}
    (hjulian : Apart julianOrigin (newYear tle.epochYear.toNat) julianDays)
    (hdays : Apart dayZero1950 (newYear tle.epochYear.toNat) days) :
    gstimeArgument tle = julianDays - 1 / 2 + (tle.epochDay - 1) ∧
      initlEpoch tle = days + (tle.epochDay - 1) := by
  have horigin : julianOrigin.dayNumber = mjdOrigin.dayNumber - 2400001 := by decide
  have hzero : dayZero1950.dayNumber = mjdOrigin.dayNumber + 33281 := by decide
  have hmjd := epochMjd_add_one tle
  rw [apart_newYear hjulian, apart_newYear hdays, horigin, hzero]
  unfold gstimeArgument initlEpoch epochDays1950
  push_cast at hmjd ⊢
  constructor
  · linarith
  · linarith

theorem sidereal_instant_millennium :
    gstimeArgument millennium = (2451545 : ℤ) - 1 / 2 + (millennium.epochDay - 1) ∧
      initlEpoch millennium = (18263 : ℤ) + (millennium.epochDay - 1) :=
  sidereal_instant millennium (apart_iff.mpr (by decide)) (apart_iff.mpr (by decide))

end Zenith.Orbit
