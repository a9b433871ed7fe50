import Mathlib

/-!
# Floats that transcendental functions are taken of

Where the source computes sines, cosines and arctangents, an `f64` is the real number that it stands
for. `sin` and `cos` are those of Mathlib, and the angle of a point is the argument of a complex
number: the origin has the angle zero, and the cut runs along the negative axis.
-/

namespace Zenith.Rust

open Real

noncomputable section

/-- `f64::rem_euclid` on reals. -/
def remEuclidReal (x y : ℝ) : ℝ := x - |y| * ⌊x / |y|⌋

/-- `f64::trunc`, towards zero. -/
def truncReal (x : ℝ) : ℤ := if 0 ≤ x then ⌊x⌋ else ⌈x⌉

/-- The operator `%`, whose result has the sign of the left operand. -/
def remReal (x y : ℝ) : ℝ := x - y * truncReal (x / y)

/-- `f64::atan2`, with the receiver first. -/
def atan2 (y x : ℝ) : ℝ := Complex.arg ⟨x, y⟩

/-- `f64::to_radians`. -/
def toRadians (x : ℝ) : ℝ := x * (π / 180.0)

/-- `f64::to_degrees`. -/
def toDegrees (x : ℝ) : ℝ := x * (180.0 / π)

theorem toRadians_eq (x : ℝ) : toRadians x = x * π / 180 := by
  unfold toRadians
  norm_num
  ring

theorem toDegrees_toRadians (x : ℝ) : toDegrees (toRadians x) = x := by
  have hpi := pi_ne_zero
  unfold toDegrees toRadians
  field_simp

theorem toDegrees_mono : Monotone toDegrees := by
  intro x y hxy
  have hpi := pi_pos
  unfold toDegrees
  exact mul_le_mul_of_nonneg_right hxy (by positivity)

theorem toDegrees_add (x y : ℝ) : toDegrees (x + y) = toDegrees x + toDegrees y := add_mul _ _ _

theorem toDegrees_pi : toDegrees π = 180 := by
  have hpi := pi_ne_zero
  unfold toDegrees
  field_simp
  norm_num

theorem toDegrees_eq_zero {x : ℝ} : toDegrees x = 0 ↔ x = 0 := by
  have hpi := pi_pos
  have hpos : (0 : ℝ) < 180.0 / π := by positivity
  exact mul_eq_zero_iff_right hpos.ne'

theorem remEuclidReal_eq_toIcoMod (x : ℝ) {y : ℝ} (hy : 0 < y) :
    remEuclidReal x y = toIcoMod hy 0 x := by
  have hfloor : toIcoDiv hy 0 x = ⌊x / y⌋ := by rw [toIcoDiv_eq_floor, sub_zero]
  unfold remEuclidReal toIcoMod
  rw [abs_of_pos hy, hfloor, zsmul_eq_mul, mul_comm]

theorem remEuclidReal_mem (x : ℝ) {y : ℝ} (hy : 0 < y) : remEuclidReal x y ∈ Set.Ico 0 y := by
  rw [remEuclidReal_eq_toIcoMod x hy]
  exact toIcoMod_mem_Ico' hy x

theorem remEuclidReal_modEq (x : ℝ) {y : ℝ} (hy : 0 < y) : remEuclidReal x y ≡ x [PMOD y] := by
  rw [remEuclidReal_eq_toIcoMod x hy, AddCommGroup.modEq_iff_zsmul]
  exact ⟨toIcoDiv hy 0 x, (self_sub_toIcoMod hy 0 x).symm⟩

theorem remEuclidReal_eq_self {x y : ℝ} (hx : x ∈ Set.Ico 0 y) : remEuclidReal x y = x := by
  have hy : 0 < y := hx.1.trans_lt hx.2
  rw [remEuclidReal_eq_toIcoMod x hy, toIcoMod_eq_self, zero_add]
  exact hx

theorem atan2_mem (y x : ℝ) : atan2 y x ∈ Set.Ioc (-π) π := Complex.arg_mem_Ioc _

theorem atan2_zero_of_nonneg {x : ℝ} (hx : 0 ≤ x) : atan2 0 x = 0 := Complex.arg_ofReal_of_nonneg hx

/-- Turning a point about the origin turns its angle. -/
theorem atan2_rotate {y x : ℝ} (h : ¬(x = 0 ∧ y = 0)) (θ : ℝ) :
    atan2 (x * sin θ + y * cos θ) (x * cos θ - y * sin θ) ≡ θ + atan2 y x [PMOD 2 * π] := by
  have hpoint : (⟨x, y⟩ : ℂ) ≠ 0 := by
    rw [Ne, Complex.ext_iff]
    exact h
  have hunit : (Complex.cos θ + Complex.sin θ * Complex.I : ℂ) ≠ 0 := by
    rw [← Complex.exp_mul_I]
    exact Complex.exp_ne_zero _
  have hturned : (⟨x * cos θ - y * sin θ, x * sin θ + y * cos θ⟩ : ℂ) =
      (Complex.cos θ + Complex.sin θ * Complex.I) * ⟨x, y⟩ := by
    rw [Complex.ext_iff]
    simp [Complex.cos_ofReal_re, Complex.sin_ofReal_re]
    constructor <;> ring
  have hangle : (atan2 (x * sin θ + y * cos θ) (x * cos θ - y * sin θ) : Real.Angle) =
      θ + atan2 y x := by
    unfold atan2
    rw [hturned, Complex.arg_mul_coe_angle hunit hpoint]
    congr 1
    simpa using Complex.arg_cos_add_sin_mul_I_coe_angle (θ : Real.Angle)
  rw [← Real.Angle.coe_add, Real.Angle.angle_eq_iff_two_pi_dvd_sub] at hangle
  obtain ⟨k, hk⟩ := hangle
  rw [AddCommGroup.modEq_iff_zsmul]
  refine ⟨-k, ?_⟩
  rw [← neg_sub, hk, zsmul_eq_mul]
  push_cast
  ring

end

end Zenith.Rust
