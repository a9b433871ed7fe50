import Zenith.Orbit.LookAngles

/-!
# Angular separation

The error of a dish as `angular_separation_deg` measures it. It is the angle between the two directions,
and so a distance: it converges with the lines of azimuth near the zenith, and what it says of two look
angles of one station is the angle between the lines of sight in space. These are equations of real
numbers, which doubles meet but for the last places.
-/

namespace Zenith.Antenna

open Rust Real Sphere InnerProductGeometry

noncomputable section

local instance instNeZeroThree : NeZero 3 := inferInstance

/-- A unit vector in the frame of east, north and up. -/
def unitVector (azDeg elDeg : ℝ) : Fin 3 → ℝ :=
  let az := toRadians azDeg
  let el := toRadians elDeg
  ![cos el * sin az, cos el * cos az, sin el]

def angularSeparationDeg (az1Deg el1Deg az2Deg el2Deg : ℝ) : ℝ :=
  let v1 := unitVector az1Deg el1Deg
  let v2 := unitVector az2Deg el2Deg
  let dot := v1 0 * v2 0 + v1 1 * v2 1 + v1 2 * v2 2
  let cross := ![v1 1 * v2 2 - v1 2 * v2 1, v1 2 * v2 0 - v1 0 * v2 2, v1 0 * v2 1 - v1 1 * v2 0]
  let sinAngle := √(cross 0 * cross 0 + cross 1 * cross 1 + cross 2 * cross 2)
  toDegrees (atan2 sinAngle dot)

/-- The direction of a dish. -/
def boresight (azDeg elDeg : ℝ) : EuclideanSpace ℝ (Fin 3) :=
  direction (toRadians azDeg) (toRadians elDeg)

theorem norm_boresight (azDeg elDeg : ℝ) : ‖boresight azDeg elDeg‖ = 1 := norm_direction _ _

theorem boresight_ne_zero (azDeg elDeg : ℝ) : boresight azDeg elDeg ≠ 0 := direction_ne_zero _ _

theorem boresight_add_turns (azDeg elDeg : ℝ) (z : ℤ) :
    boresight (azDeg + z * 360) elDeg = boresight azDeg elDeg := by
  have hturns : toRadians (azDeg + z * 360) = toRadians azDeg + z * (2 * π) := by
    rw [toRadians_eq, toRadians_eq]
    ring
  rw [boresight, hturns, direction_add_zsmul, boresight]

/-- The code computes the angle between the two directions. -/
theorem angularSeparationDeg_eq (a e a' e' : ℝ) :
    angularSeparationDeg a e a' e' = toDegrees (angle (boresight a e) (boresight a' e')) := by
  have hcross := sqrt_cross (boresight a e) (boresight a' e')
  have hdot := inner_eq (boresight a e) (boresight a' e')
  have harg := arg_inner_cross (boresight_ne_zero a e) (boresight_ne_zero a' e')
  rw [← hcross, hdot] at harg
  rw [← harg]
  rfl

/-! ## A distance between directions -/

theorem angularSeparationDeg_comm (a e a' e' : ℝ) :
    angularSeparationDeg a e a' e' = angularSeparationDeg a' e' a e := by
  rw [angularSeparationDeg_eq, angularSeparationDeg_eq, angle_comm]

theorem angularSeparationDeg_nonneg (a e a' e' : ℝ) : 0 ≤ angularSeparationDeg a e a' e' := by
  rw [angularSeparationDeg_eq, ← toDegrees_eq_zero.mpr rfl]
  exact toDegrees_mono (angle_nonneg _ _)

theorem angularSeparationDeg_le_halfTurn (a e a' e' : ℝ) : angularSeparationDeg a e a' e' ≤ 180 := by
  rw [angularSeparationDeg_eq, ← toDegrees_pi]
  exact toDegrees_mono (angle_le_pi _ _)

theorem angularSeparationDeg_eq_zero_iff (a e a' e' : ℝ) :
    angularSeparationDeg a e a' e' = 0 ↔ unitVector a e = unitVector a' e' := by
  have hnorm : ‖boresight a e‖ = ‖boresight a' e'‖ := by rw [norm_boresight, norm_boresight]
  rw [angularSeparationDeg_eq, toDegrees_eq_zero]
  constructor
  · intro hzero
    exact WithLp.toLp_injective _ (eq_of_angle_eq_zero_of_norm_eq hzero hnorm)
  · intro hsame
    have hdirection : boresight a e = boresight a' e' := congrArg (WithLp.toLp _) hsame
    rw [hdirection, angle_self (boresight_ne_zero a' e')]

theorem angularSeparationDeg_triangle (a e a' e' a'' e'' : ℝ) :
    angularSeparationDeg a e a'' e'' ≤
      angularSeparationDeg a e a' e' + angularSeparationDeg a' e' a'' e'' := by
  rw [angularSeparationDeg_eq, angularSeparationDeg_eq, angularSeparationDeg_eq, ← toDegrees_add]
  exact toDegrees_mono (angle_le_angle_add_angle _ _ _)

/-- The separation is at most the difference of the coordinates, either way around. -/
theorem angularSeparationDeg_le (a e a' e' : ℝ) (z : ℤ) :
    angularSeparationDeg a e a' e' ≤ |a + z * 360 - a'| + |e - e'| := by
  have hscale (x y : ℝ) : |toRadians x - toRadians y| = toRadians |x - y| := by
    have hpi := pi_pos
    rw [toRadians_eq, toRadians_eq, toRadians_eq, ← sub_div, ← sub_mul, mul_div_assoc, mul_div_assoc,
      abs_mul, abs_of_pos (show 0 < π / 180 by positivity)]
  rw [angularSeparationDeg_eq, ← boresight_add_turns a e z]
  calc
    toDegrees (angle (boresight (a + z * 360) e) (boresight a' e')) ≤
        toDegrees (|toRadians (a + z * 360) - toRadians a'| + |toRadians e - toRadians e'|) :=
      toDegrees_mono (angle_direction_le _ _ _ _)
    _ = |a + z * 360 - a'| + |e - e'| := by
      rw [hscale, hscale, toDegrees_add, toDegrees_toRadians, toDegrees_toRadians]

/-- The error is a distance on the directions, with all pairs of angles that stand for one direction at
distance zero, and never more than what the angles differ by. -/
theorem angularSeparationDeg_metric (a e a' e' a'' e'' : ℝ) (z : ℤ) :
    angularSeparationDeg a e a' e' = angularSeparationDeg a' e' a e ∧
    angularSeparationDeg a e a' e' ∈ Set.Icc 0 180 ∧
    (angularSeparationDeg a e a' e' = 0 ↔ unitVector a e = unitVector a' e') ∧
    angularSeparationDeg a e a'' e'' ≤
      angularSeparationDeg a e a' e' + angularSeparationDeg a' e' a'' e'' ∧
    angularSeparationDeg a e a' e' ≤ |a + z * 360 - a'| + |e - e'| :=
  ⟨angularSeparationDeg_comm a e a' e',
    ⟨angularSeparationDeg_nonneg a e a' e', angularSeparationDeg_le_halfTurn a e a' e'⟩,
    angularSeparationDeg_eq_zero_iff a e a' e', angularSeparationDeg_triangle a e a' e' a'' e'',
    angularSeparationDeg_le a e a' e' z⟩

/-! ## Lines of sight -/

section LineOfSight

open Orbit Sgp4

variable {station : GroundStation} {state state' : Sgp4.StateVector} {gmstRad gmstRad' : ℝ}

theorem angle_boresight_lookAngles (h : lineOfSight station state gmstRad ≠ 0)
    (h' : lineOfSight station state' gmstRad' ≠ 0) :
    angle (lookAngles station state gmstRad).direction (lookAngles station state' gmstRad').direction =
      angle (lineOfSight station state gmstRad) (lineOfSight station state' gmstRad') := by
  have hleads := lookAngles_leads h
  have hleads' := lookAngles_leads h'
  rw [← angle_toEnu station (lineOfSight station state gmstRad), ← hleads.leads, ← hleads'.leads,
    angle_smul_left_of_pos _ _ hleads.range, angle_smul_right_of_pos _ _ hleads'.range]

/-- What the dish is off by is the angle in space at which the station sees the two places. -/
theorem angularSeparationDeg_lookAngles (h : lineOfSight station state gmstRad ≠ 0)
    (h' : lineOfSight station state' gmstRad' ≠ 0) :
    angularSeparationDeg (lookAngles station state gmstRad).azimuthDeg
      (lookAngles station state gmstRad).elevationDeg
      (lookAngles station state' gmstRad').azimuthDeg
      (lookAngles station state' gmstRad').elevationDeg =
    toDegrees (angle (lineOfSight station state gmstRad) (lineOfSight station state' gmstRad')) := by
  rw [angularSeparationDeg_eq, ← angle_boresight_lookAngles h h']
  rfl

/-- The station of the Gulf of Guinea sees a satellite over each pole. -/
theorem angularSeparationDeg_lookAngles_poles :
    angularSeparationDeg (lookAngles ⟨0, 0, 0, 0⟩ ⟨![0, 0, 42164], ![0, 0, 0]⟩ 0).azimuthDeg
      (lookAngles ⟨0, 0, 0, 0⟩ ⟨![0, 0, 42164], ![0, 0, 0]⟩ 0).elevationDeg
      (lookAngles ⟨0, 0, 0, 0⟩ ⟨![0, 0, -42164], ![0, 0, 0]⟩ 0).azimuthDeg
      (lookAngles ⟨0, 0, 0, 0⟩ ⟨![0, 0, -42164], ![0, 0, 0]⟩ 0).elevationDeg =
    toDegrees (angle (lineOfSight ⟨0, 0, 0, 0⟩ ⟨![0, 0, 42164], ![0, 0, 0]⟩ 0)
      (lineOfSight ⟨0, 0, 0, 0⟩ ⟨![0, 0, -42164], ![0, 0, 0]⟩ 0)) := by
  have hheight (z : ℝ) (hz : z ≠ 0) : lineOfSight ⟨0, 0, 0, 0⟩ ⟨![0, 0, z], ![0, 0, 0]⟩ 0 ≠ 0 := by
    intro hzero
    have hcomponent : lineOfSight ⟨0, 0, 0, 0⟩ ⟨![0, 0, z], ![0, 0, 0]⟩ 0 2 = 0 := by
      rw [hzero, PiLp.zero_apply]
    apply hz
    simpa [lineOfSight, rho, toEcef, GroundStation.ecefKm, GroundStation.lat] using hcomponent
  apply angularSeparationDeg_lookAngles
  · exact hheight _ (by norm_num)
  · exact hheight _ (by norm_num)

end LineOfSight

end

end Zenith.Antenna
