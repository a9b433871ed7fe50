import Mathlib

/-!
# The part of the Rust standard library the modelled code depends on

Floats are exact: an `f64` that the source computes with is the rational number that it stands for.
Only an argument that the source itself checks with `is_finite` may be something else. A call that
panics has no result.
-/

namespace Zenith.Rust

/-- An `f64` that has not been checked. -/
inductive F64
  | finite (value : ℚ)
  | infinite (negative : Bool)
  | nan
  deriving DecidableEq, Repr

/-- A `std::time::Duration` as its `as_secs_f64`. -/
abbrev Duration := ℚ≥0

/-- `f64::rem_euclid`. -/
def remEuclid (x y : ℚ) : ℚ := x - |y| * ⌊x / |y|⌋

theorem remEuclid_eq_toIcoMod (x : ℚ) {y : ℚ} (hy : 0 < y) : remEuclid x y = toIcoMod hy 0 x := by
  have hfloor : toIcoDiv hy 0 x = ⌊x / y⌋ := by rw [toIcoDiv_eq_floor, sub_zero]
  unfold remEuclid toIcoMod
  rw [abs_of_pos hy, hfloor, zsmul_eq_mul, mul_comm]

/-- Remainders are equal exactly up to full turns. -/
theorem remEuclid_inj {x z y : ℚ} (hy : 0 < y) :
    remEuclid x y = remEuclid z y ↔ x ≡ z [PMOD y] := by
  rw [remEuclid_eq_toIcoMod x hy, remEuclid_eq_toIcoMod z hy, toIcoMod_inj]

theorem remEuclid_modEq (x : ℚ) {y : ℚ} (hy : 0 < y) : remEuclid x y ≡ x [PMOD y] := by
  rw [← remEuclid_inj hy, remEuclid_eq_toIcoMod _ hy, remEuclid_eq_toIcoMod _ hy,
    toIcoMod_toIcoMod]

/-- `f64::clamp`, which panics if the bounds are in the wrong order. -/
def clamp (x min max : ℚ) : Option ℚ :=
  if min ≤ max then some (if x < min then min else if max < x then max else x) else none

theorem clamp_eq {x min max : ℚ} (h : min ≤ max) :
    clamp x min max = some (if x < min then min else if max < x then max else x) := if_pos h

/-- Below the upper bound only the lower one acts. -/
theorem clamp_of_le {x lo hi : ℚ} (h : lo ≤ hi) (hx : x ≤ hi) : clamp x lo hi = some (max lo x) := by
  rw [clamp_eq h]
  split_ifs with hlow hhigh
  · rw [max_eq_left hlow.le]
  · exact absurd hx (not_le.mpr hhigh)
  · rw [max_eq_right (not_lt.mp hlow)]

theorem clamp_mem {x y min max : ℚ} (h : clamp x min max = some y) : y ∈ Set.Icc min max := by
  unfold clamp at h
  split_ifs at h with hle hlow hhigh
  · rw [← Option.some.inj h]
    exact ⟨le_rfl, hle⟩
  · rw [← Option.some.inj h]
    exact ⟨hle, le_rfl⟩
  · rw [← Option.some.inj h]
    exact ⟨not_lt.mp hlow, not_lt.mp hhigh⟩

end Zenith.Rust
