import Zenith.Data.Sphere
import Zenith.Orbit.Propagate
import Zenith.Orbit.Visibility

/-!
# Look angles

Where a station on the ellipsoid sees a satellite. `look_angles` turns the position of the satellite to
the ground and to the horizon of the station and takes azimuth, elevation and range of it there: together
they point along the line of sight and are as long as it. Angles are real numbers: in doubles the azimuth of
a satellite just west of north rounds to 360.
-/

namespace Zenith.Orbit

open Rust Real Sphere InnerProductGeometry

noncomputable section

local instance instNeZeroThree : NeZero 3 := inferInstance

/-- `EARTH_FLATTENING`. -/
def earthFlattening : ℝ := 1.0 / 298.26

/-- `DEG2RAD`. -/
def deg2rad : ℝ := π / 180.0

/-- `RAD2DEG`. -/
def rad2deg : ℝ := 180.0 / π

/-- The geodetic latitude in radians. -/
def GroundStation.lat (station : GroundStation) : ℝ := station.latitudeDeg * deg2rad

def GroundStation.lon (station : GroundStation) : ℝ := station.longitudeDeg * deg2rad

def GroundStation.ecefKm (station : GroundStation) : Fin 3 → ℝ :=
  let lat := station.lat
  let lon := station.lon
  let f := earthFlattening
  let sinLat := sin lat
  let cosLat := cos lat
  let n := Sgp4.earthRadiusKm / √(1.0 - f * (2.0 - f) * sinLat * sinLat)
  let h : ℝ := station.altitudeKm
  let x := (n + h) * cosLat * cos lon
  let y := (n + h) * cosLat * sin lon
  let z := (n * (1.0 - f * (2.0 - f)) + h) * sinLat
  ![x, y, z]

namespace Sgp4

@[ext]
structure LookAngles where
  azimuthDeg : ℝ
  elevationDeg : ℝ
  rangeKm : ℝ

/-- The rotation to the ground by the sidereal time. -/
def toEcef (r : Fin 3 → ℝ) (gmstRad : ℝ) : Fin 3 → ℝ :=
  let sinG := sin gmstRad
  let cosG := cos gmstRad
  ![cosG * r 0 + sinG * r 1, -sinG * r 0 + cosG * r 1, r 2]

/-- From the station to the satellite, `rho`. -/
def rho (station : GroundStation) (state : StateVector) (gmstRad : ℝ) : Fin 3 → ℝ :=
  let rSatEcef := toEcef state.positionKm gmstRad
  let rs := station.ecefKm
  ![rSatEcef 0 - rs 0, rSatEcef 1 - rs 1, rSatEcef 2 - rs 2]

/-- South, east and zenith components at the station, `r_sez`. -/
def toSez (station : GroundStation) (rho : Fin 3 → ℝ) : Fin 3 → ℝ :=
  let sinLat := sin station.lat
  let cosLat := cos station.lat
  let sinLon := sin station.lon
  let cosLon := cos station.lon
  ![sinLat * cosLon * rho 0 + sinLat * sinLon * rho 1 - cosLat * rho 2,
    -sinLon * rho 0 + cosLon * rho 1,
    cosLat * cosLon * rho 0 + cosLat * sinLon * rho 1 + sinLat * rho 2]

def lookAngles (station : GroundStation) (state : StateVector) (gmstRad : ℝ) : LookAngles :=
  let rSez := toSez station (rho station state gmstRad)
  let range := √(rSez 0 * rSez 0 + rSez 1 * rSez 1 + rSez 2 * rSez 2)
  let elev := arcsin (rSez 2 / range)
  let az := atan2 (rSez 1) (-rSez 0)
  let az := if az < 0.0 then az + 2.0 * π else az
  { azimuthDeg := az * rad2deg, elevationDeg := elev * rad2deg, rangeKm := range }

/-- `gmst_rad`. -/
def Propagator.gmstRad (p : Propagator) (tsinceMin : ℝ) : ℝ :=
  remEuclidReal (p.gsto + tsinceMin * rptim) twoPi

/-! ## The line of sight -/

variable (station : GroundStation) (state : StateVector) (gmstRad : ℝ)

/-- The line of sight in the frame that turns with the Earth. -/
def lineOfSight : EuclideanSpace ℝ (Fin 3) :=
  WithLp.toLp _ (rho station state gmstRad)

/-- East, north and up components at the station. -/
def toEnu (v : EuclideanSpace ℝ (Fin 3)) : EuclideanSpace ℝ (Fin 3) :=
  let sez := toSez station v
  WithLp.toLp _ ![sez 1, -sez 0, sez 2]

/-- The horizon of a station is turned, not distorted. -/
theorem inner_toEnu (v w : EuclideanSpace ℝ (Fin 3)) :
    inner ℝ (toEnu station v) (toEnu station w) = inner ℝ v w := by
  have hlat := sin_sq_add_cos_sq station.lat
  have hlon := sin_sq_add_cos_sq station.lon
  rw [inner_eq, inner_eq]
  simp only [toEnu, toSez, PiLp.toLp_apply, Matrix.cons_val]
  linear_combination
    ((cos station.lon * v 0 + sin station.lon * v 1) * (cos station.lon * w 0 + sin station.lon * w 1) +
      v 2 * w 2) * hlat + (v 0 * w 0 + v 1 * w 1) * hlon

theorem norm_toEnu (v : EuclideanSpace ℝ (Fin 3)) : ‖toEnu station v‖ = ‖v‖ := by
  rw [← pow_left_inj₀ (norm_nonneg _) (norm_nonneg _) two_ne_zero, ← real_inner_self_eq_norm_sq,
    ← real_inner_self_eq_norm_sq, inner_toEnu]

/-- Angles at the station are those in space. -/
theorem angle_toEnu (v w : EuclideanSpace ℝ (Fin 3)) :
    angle (toEnu station v) (toEnu station w) = angle v w := by
  rw [angle, inner_toEnu, norm_toEnu, norm_toEnu, angle]

/-! ## Azimuth, elevation and range -/

/-- The direction of look angles, in radians. -/
def LookAngles.direction (look : LookAngles) : EuclideanSpace ℝ (Fin 3) :=
  Sphere.direction (look.azimuthDeg * deg2rad) (look.elevationDeg * deg2rad)

theorem deg2rad_eq : deg2rad = π / 180 := by
  unfold deg2rad
  norm_num

theorem deg2rad_pos : 0 < deg2rad := by
  rw [deg2rad_eq]
  positivity

theorem rad2deg_eq : rad2deg = deg2rad⁻¹ := by
  rw [deg2rad_eq, inv_div, rad2deg]
  norm_num

theorem rad2deg_pos : 0 < rad2deg := by
  rw [rad2deg_eq]
  exact inv_pos.mpr deg2rad_pos

theorem turn_mul_deg2rad : 360 * deg2rad = 2 * π := by
  rw [deg2rad_eq]
  ring

theorem quarter_mul_deg2rad : 90 * deg2rad = π / 2 := by
  rw [deg2rad_eq]
  ring

theorem mul_rad2deg_mul_deg2rad (x : ℝ) : x * rad2deg * deg2rad = x := by
  rw [rad2deg_eq, inv_mul_cancel_right₀ deg2rad_pos.ne']

theorem mul_deg2rad_mul_rad2deg (x : ℝ) : x * deg2rad * rad2deg = x := by
  rw [rad2deg_eq, mul_inv_cancel_right₀ deg2rad_pos.ne']

theorem rangeKm_eq : (lookAngles station state gmstRad).rangeKm = ‖lineOfSight station state gmstRad‖ := by
  rw [← norm_toEnu station, ← sqrt_sq (norm_nonneg (toEnu station _)), norm_sq_eq]
  simp only [lookAngles, toEnu, lineOfSight, PiLp.toLp_apply, Matrix.cons_val]
  congr 1
  ring

theorem azimuthDeg_mem : (lookAngles station state gmstRad).azimuthDeg ∈ Set.Ico 0 360 := by
  have harg := atan2_mem (toSez station (rho station state gmstRad) 1)
    (-toSez station (rho station state gmstRad) 0)
  have hturn : 2 * π * rad2deg = 360 := by rw [← turn_mul_deg2rad, mul_deg2rad_mul_rad2deg]
  have hpos := rad2deg_pos
  unfold lookAngles
  dsimp only
  rw [← hturn]
  norm_num only
  split_ifs with hneg
  · constructor
    · have hpi := pi_pos
      exact mul_nonneg (by linarith [harg.1]) hpos.le
    · exact mul_lt_mul_of_pos_right (by linarith) hpos
  · constructor
    · exact mul_nonneg (not_lt.mp hneg) hpos.le
    · exact mul_lt_mul_of_pos_right (by linarith [harg.2, pi_pos]) hpos

theorem elevationDeg_mem : (lookAngles station state gmstRad).elevationDeg ∈ Set.Icc (-90) 90 := by
  have hlow := neg_pi_div_two_le_arcsin (toSez station (rho station state gmstRad) 2 /
    (lookAngles station state gmstRad).rangeKm)
  have hhigh := arcsin_le_pi_div_two (toSez station (rho station state gmstRad) 2 /
    (lookAngles station state gmstRad).rangeKm)
  have hquarter : π / 2 * rad2deg = 90 := by rw [← quarter_mul_deg2rad, mul_deg2rad_mul_rad2deg]
  have hpos := rad2deg_pos
  constructor
  · calc
      (-90 : ℝ) = -(π / 2) * rad2deg := by rw [neg_mul, hquarter]
      _ ≤ _ := mul_le_mul_of_nonneg_right hlow hpos.le
  · calc
      _ ≤ π / 2 * rad2deg := mul_le_mul_of_nonneg_right hhigh hpos.le
      _ = 90 := hquarter

/-- The look angles are the polar coordinates of the line of sight at the station. -/
theorem rangeKm_smul_direction (h : lineOfSight station state gmstRad ≠ 0) :
    (lookAngles station state gmstRad).rangeKm • (lookAngles station state gmstRad).direction =
      toEnu station (lineOfSight station state gmstRad) := by
  have hne : toEnu station (lineOfSight station state gmstRad) ≠ 0 := by
    rwa [← norm_ne_zero_iff, norm_toEnu, norm_ne_zero_iff]
  have hpolar := norm_smul_direction hne
  have helev : (lookAngles station state gmstRad).elevationDeg * deg2rad =
      arcsin (toEnu station (lineOfSight station state gmstRad) 2 /
        ‖toEnu station (lineOfSight station state gmstRad)‖) := by
    rw [norm_toEnu, ← rangeKm_eq]
    exact mul_rad2deg_mul_deg2rad _
  have haz : ∃ z : ℤ, (lookAngles station state gmstRad).azimuthDeg * deg2rad =
      Complex.arg ⟨toEnu station (lineOfSight station state gmstRad) 1,
        toEnu station (lineOfSight station state gmstRad) 0⟩ + z * (2 * π) := by
    unfold lookAngles
    dsimp only
    norm_num only
    rw [mul_rad2deg_mul_deg2rad]
    split_ifs with hneg
    · exact ⟨1, by rw [Int.cast_one, one_mul]; rfl⟩
    · exact ⟨0, by rw [Int.cast_zero, zero_mul, add_zero]; rfl⟩
  obtain ⟨z, hz⟩ := haz
  rw [LookAngles.direction, hz, helev, direction_add_zsmul, rangeKm_eq, ← norm_toEnu station]
  exact hpolar

/-- Look angles in their ranges that lead to `v`. -/
structure LookAngles.Polar (look : LookAngles) (v : EuclideanSpace ℝ (Fin 3)) : Prop where
  azimuth : look.azimuthDeg ∈ Set.Ico 0 360
  elevation : look.elevationDeg ∈ Set.Icc (-90) 90
  range : 0 < look.rangeKm
  leads : look.rangeKm • look.direction = v

variable {station state gmstRad}

theorem LookAngles.Polar.azimuth_mem {look : LookAngles} {v : EuclideanSpace ℝ (Fin 3)}
    (h : look.Polar v) : look.azimuthDeg * deg2rad ∈ Set.Ico 0 (2 * π) := by
  rw [← turn_mul_deg2rad]
  exact ⟨mul_nonneg h.azimuth.1 deg2rad_pos.le, mul_lt_mul_of_pos_right h.azimuth.2 deg2rad_pos⟩

theorem LookAngles.Polar.elevation_mem {look : LookAngles} {v : EuclideanSpace ℝ (Fin 3)}
    (h : look.Polar v) : look.elevationDeg * deg2rad ∈ Set.Icc (-(π / 2)) (π / 2) := by
  rw [← quarter_mul_deg2rad, ← neg_mul]
  exact ⟨mul_le_mul_of_nonneg_right h.elevation.1 deg2rad_pos.le,
    mul_le_mul_of_nonneg_right h.elevation.2 deg2rad_pos.le⟩

/-- Only straight up and down two look angles lead to the same place. -/
theorem LookAngles.Polar.unique {look look' : LookAngles} {v : EuclideanSpace ℝ (Fin 3)}
    (h : look.Polar v) (h' : look'.Polar v) : look.rangeKm = look'.rangeKm ∧
      look.elevationDeg = look'.elevationDeg ∧ (|look.elevationDeg| < 90 → look = look') := by
  obtain ⟨hrange, hdirection⟩ := eq_of_smul_direction_eq h.range h'.range (h.leads.trans h'.leads.symm)
  obtain ⟨helevation, hazimuth⟩ := eq_of_direction_eq h.azimuth_mem h'.azimuth_mem h.elevation_mem
    h'.elevation_mem hdirection
  have helevation' := mul_right_cancel₀ deg2rad_pos.ne' helevation
  refine ⟨hrange, helevation', fun hlevel ↦ ?_⟩
  have hcos : cos (look.elevationDeg * deg2rad) ≠ 0 := by
    apply (cos_pos_of_mem_Ioo _).ne'
    rw [← quarter_mul_deg2rad, ← neg_mul]
    exact ⟨mul_lt_mul_of_pos_right (abs_lt.mp hlevel).1 deg2rad_pos,
      mul_lt_mul_of_pos_right (abs_lt.mp hlevel).2 deg2rad_pos⟩
  have hazimuth' := mul_right_cancel₀ deg2rad_pos.ne' (hazimuth hcos)
  exact LookAngles.ext hazimuth' helevation' hrange

theorem lookAngles_leads (h : lineOfSight station state gmstRad ≠ 0) :
    (lookAngles station state gmstRad).Polar (toEnu station (lineOfSight station state gmstRad)) where
  azimuth := azimuthDeg_mem station state gmstRad
  elevation := elevationDeg_mem station state gmstRad
  range := by
    rw [rangeKm_eq]
    exact norm_pos_iff.mpr h
  leads := rangeKm_smul_direction station state gmstRad h

/-- The look angles of a satellite lead to it from the station, and no other ones in their ranges do,
but for the azimuth of a satellite straight above or below. -/
theorem lookAngles_polar (h : lineOfSight station state gmstRad ≠ 0) :
    (lookAngles station state gmstRad).Polar (toEnu station (lineOfSight station state gmstRad)) ∧
    ∀ look : LookAngles, look.Polar (toEnu station (lineOfSight station state gmstRad)) →
      look.rangeKm = (lookAngles station state gmstRad).rangeKm ∧
      look.elevationDeg = (lookAngles station state gmstRad).elevationDeg ∧
      (|look.elevationDeg| < 90 → look = lookAngles station state gmstRad) :=
  ⟨lookAngles_leads h, fun _ hlook ↦ hlook.unique (lookAngles_leads h)⟩

/-- A satellite over the North Pole, seen from the Gulf of Guinea. -/
theorem lookAngles_polar_pole :
    (lookAngles ⟨0, 0, 0, 0⟩ ⟨![0, 0, 42164], ![0, 0, 0]⟩ 0).Polar
        (toEnu ⟨0, 0, 0, 0⟩ (lineOfSight ⟨0, 0, 0, 0⟩ ⟨![0, 0, 42164], ![0, 0, 0]⟩ 0)) ∧
    ∀ look : LookAngles, look.Polar
        (toEnu ⟨0, 0, 0, 0⟩ (lineOfSight ⟨0, 0, 0, 0⟩ ⟨![0, 0, 42164], ![0, 0, 0]⟩ 0)) →
      look.rangeKm = (lookAngles ⟨0, 0, 0, 0⟩ ⟨![0, 0, 42164], ![0, 0, 0]⟩ 0).rangeKm ∧
      look.elevationDeg = (lookAngles ⟨0, 0, 0, 0⟩ ⟨![0, 0, 42164], ![0, 0, 0]⟩ 0).elevationDeg ∧
      (|look.elevationDeg| < 90 →
        look = lookAngles ⟨0, 0, 0, 0⟩ ⟨![0, 0, 42164], ![0, 0, 0]⟩ 0) := by
  apply lookAngles_polar
  intro hzero
  have hheight : lineOfSight ⟨0, 0, 0, 0⟩ ⟨![0, 0, 42164], ![0, 0, 0]⟩ 0 2 = 0 := by
    rw [hzero, PiLp.zero_apply]
  simp [lineOfSight, rho, toEcef, GroundStation.ecefKm, GroundStation.lat] at hheight

end Sgp4

end

end Zenith.Orbit
