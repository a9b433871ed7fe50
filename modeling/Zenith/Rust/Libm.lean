import Mathlib

/-!
# The functions of the platform

The logarithm, the root, the cosine and the power that an `f64` is given to are those of the platform.
They are not specified to the last bit. What a program may rely on is that their results are near those
of the functions on the reals.
-/

namespace Zenith.Rust

structure Libm where
  ln : ℚ → ℚ
  sqrt : ℚ → ℚ
  cos : ℚ → ℚ
  powf : ℚ → ℚ → ℚ

namespace Libm

/-- Two billion units in the last place. -/
def tolerance : ℚ := 1 / 2 ^ 21

/-- The relative error of the results, of a cosine the absolute one. A power has to be in range. -/
structure Accurate (lib : Libm) : Prop where
  ln : ∀ x : ℚ, 0 < x → |(lib.ln x : ℝ) - Real.log x| ≤ tolerance * |Real.log x|
  sqrt : ∀ x : ℚ, 0 ≤ x → |(lib.sqrt x : ℝ) - √x| ≤ tolerance * √x
  cos : ∀ x : ℚ, |(lib.cos x : ℝ) - Real.cos x| ≤ tolerance
  powf : ∀ x y : ℚ, 0 < x → |y * Real.log x| ≤ 700 →
    |(lib.powf x y : ℝ) - (x : ℝ) ^ (y : ℝ)| ≤ tolerance * (x : ℝ) ^ (y : ℝ)

variable {lib : Libm}

/-- No argument from `(0, 1]` has a positive logarithm. -/
theorem Accurate.ln_nonpos (h : lib.Accurate) {x : ℚ} (hx : 0 < x) (hle : x ≤ 1) : lib.ln x ≤ 0 := by
  have hlog : Real.log x ≤ 0 :=
    Real.log_nonpos (by exact_mod_cast hx.le) (by exact_mod_cast hle)
  have hnear := (abs_le.mp (h.ln x hx)).2
  have htolerance : (tolerance : ℝ) ≤ 1 := by norm_num [tolerance]
  rw [abs_of_nonpos hlog] at hnear
  have hln : (lib.ln x : ℝ) ≤ 0 := by nlinarith
  exact_mod_cast hln

theorem Accurate.neg_ln_le (h : lib.Accurate) {x : ℚ} (hx : 0 < x) (hle : x ≤ 1) :
    -(lib.ln x : ℝ) ≤ (1 + tolerance) * -Real.log x := by
  have hlog : Real.log x ≤ 0 :=
    Real.log_nonpos (by exact_mod_cast hx.le) (by exact_mod_cast hle)
  have hnear := (abs_le.mp (h.ln x hx)).1
  rw [abs_of_nonpos hlog] at hnear
  linarith

theorem Accurate.le_neg_ln (h : lib.Accurate) {x : ℚ} (hx : 0 < x) (hle : x ≤ 1) :
    (1 - tolerance) * -Real.log x ≤ -(lib.ln x : ℝ) := by
  have hlog : Real.log x ≤ 0 :=
    Real.log_nonpos (by exact_mod_cast hx.le) (by exact_mod_cast hle)
  have hnear := (abs_le.mp (h.ln x hx)).2
  rw [abs_of_nonpos hlog] at hnear
  linarith

theorem Accurate.sqrt_nonneg (h : lib.Accurate) {x : ℚ} (hx : 0 ≤ x) : 0 ≤ lib.sqrt x := by
  have hroot := Real.sqrt_nonneg x
  have hnear := (abs_le.mp (h.sqrt x hx)).1
  have htolerance : (tolerance : ℝ) ≤ 1 := by norm_num [tolerance]
  have hsqrt : (0 : ℝ) ≤ lib.sqrt x := by nlinarith
  exact_mod_cast hsqrt

theorem Accurate.sqrt_le (h : lib.Accurate) {x : ℚ} (hx : 0 ≤ x) :
    (lib.sqrt x : ℝ) ≤ (1 + tolerance) * √x := by
  have hnear := (abs_le.mp (h.sqrt x hx)).2
  linarith

/-- The root of what is below a square. -/
theorem Accurate.abs_sqrt_le (h : lib.Accurate) {x y : ℚ} (hx : 0 ≤ x) (hy : 0 ≤ y)
    (hroot : (1 + tolerance) ^ 2 * x ≤ y ^ 2) : |lib.sqrt x| ≤ y := by
  have htolerance : (0 : ℝ) ≤ 1 + tolerance := by norm_num [tolerance]
  have hcast : (1 + tolerance : ℝ) ^ 2 * x ≤ y ^ 2 := by exact_mod_cast hroot
  have hbound : (lib.sqrt x : ℝ) ≤ y := by
    calc
      (lib.sqrt x : ℝ) ≤ (1 + tolerance) * √x := h.sqrt_le hx
      _ = √((1 + tolerance) ^ 2 * x) := by
        rw [Real.sqrt_mul (by positivity), Real.sqrt_sq htolerance]
      _ ≤ √(y ^ 2) := Real.sqrt_le_sqrt hcast
      _ = y := Real.sqrt_sq (by exact_mod_cast hy)
  rw [abs_of_nonneg (h.sqrt_nonneg hx)]
  exact_mod_cast hbound

/-- The root of what is above a square. -/
theorem Accurate.le_sqrt (h : lib.Accurate) {x y : ℚ} (hle : y ^ 2 ≤ x) :
    (1 - tolerance) * y ≤ lib.sqrt x := by
  have hx : 0 ≤ x := (sq_nonneg y).trans hle
  have hnear := (abs_le.mp (h.sqrt x hx)).1
  have hroot : (y : ℝ) ≤ √x := Real.le_sqrt_of_sq_le (by exact_mod_cast hle)
  have htolerance : (0 : ℝ) ≤ 1 - tolerance := by norm_num [tolerance]
  have hcast : ((1 - tolerance) * y : ℝ) ≤ lib.sqrt x := by
    calc
      ((1 - tolerance) * y : ℝ) ≤ (1 - tolerance) * √x := mul_le_mul_of_nonneg_left hroot htolerance
      _ ≤ lib.sqrt x := by linarith
  exact_mod_cast hcast

/-- An angle of up to `θ` has a cosine near one. -/
theorem Accurate.le_cos (h : lib.Accurate) {x θ : ℚ} (hx : |x| ≤ θ) :
    1 - θ ^ 2 / 2 - tolerance ≤ lib.cos x := by
  have hnear := (abs_le.mp (h.cos x)).1
  have hcos := Real.one_sub_sq_div_two_le_cos (x := x)
  have hsquare : (x : ℝ) ^ 2 ≤ θ ^ 2 := by exact_mod_cast sq_le_sq' (neg_le_of_abs_le hx) (le_of_abs_le hx)
  have hcast : (1 - θ ^ 2 / 2 - tolerance : ℝ) ≤ lib.cos x := by linarith
  exact_mod_cast hcast

theorem Accurate.abs_cos_le (h : lib.Accurate) (x : ℚ) : |lib.cos x| ≤ 1 + tolerance := by
  have hnear := h.cos x
  have hcos := Real.abs_cos_le_one x
  have hle : |(lib.cos x : ℝ)| ≤ 1 + tolerance := by
    calc
      |(lib.cos x : ℝ)| = |(lib.cos x - Real.cos x) + Real.cos x| := by rw [sub_add_cancel]
      _ ≤ |lib.cos x - Real.cos x| + |Real.cos x| := abs_add_le _ _
      _ ≤ 1 + tolerance := by linarith
  exact_mod_cast hle

theorem Accurate.le_powf (h : lib.Accurate) {x y : ℚ} (hx : 0 < x) (hy : |y * Real.log x| ≤ 700) :
    (1 - tolerance) * (x : ℝ) ^ (y : ℝ) ≤ lib.powf x y := by
  have hnear := (abs_le.mp (h.powf x y hx hy)).1
  linarith

/-! ## Results to 53 digits -/

noncomputable section

/-- The number of 53 digits below a real. -/
def truncate (r : ℝ) : ℚ := ⌊r / ((2 ^ (Int.log 2 |r| - 52) : ℚ) : ℝ)⌋ * 2 ^ (Int.log 2 |r| - 52)

theorem abs_truncate_sub_le (r : ℝ) : |(truncate r : ℝ) - r| ≤ tolerance * |r| := by
  rcases eq_or_ne r 0 with rfl | hr
  · simp [truncate]
  · have hpow : (0 : ℝ) < 2 ^ (Int.log 2 |r| - 52) := by positivity
    have hlog : (2 : ℝ) ^ Int.log 2 |r| ≤ |r| := by
      exact_mod_cast Int.zpow_log_le_self one_lt_two (abs_pos.mpr hr)
    have hfloor := Int.floor_le (r / 2 ^ (Int.log 2 |r| - 52))
    have hlt := Int.lt_floor_add_one (r / 2 ^ (Int.log 2 |r| - 52))
    rw [le_div_iff₀ hpow] at hfloor
    rw [div_lt_iff₀ hpow] at hlt
    have hcast : (truncate r : ℝ) =
        ⌊r / 2 ^ (Int.log 2 |r| - 52)⌋ * 2 ^ (Int.log 2 |r| - 52) := by
      rw [truncate]
      push_cast
      rfl
    have hplace : (2 : ℝ) ^ (Int.log 2 |r| - 52) ≤ tolerance * |r| := by
      rw [zpow_sub₀ two_ne_zero, tolerance]
      push_cast
      norm_num
      nlinarith [abs_nonneg r]
    rw [hcast, abs_le]
    constructor
    · linarith
    · linarith [abs_nonneg r]

theorem abs_truncate_sub_le_of_nonneg {r : ℝ} (hr : 0 ≤ r) :
    |(truncate r : ℝ) - r| ≤ tolerance * r := by
  have hnear := abs_truncate_sub_le r
  rwa [abs_of_nonneg hr] at hnear

/-- The functions on the reals, truncated. -/
def truncated : Libm where
  ln x := truncate (Real.log x)
  sqrt x := truncate √x
  cos x := truncate (Real.cos x)
  powf x y := truncate ((x : ℝ) ^ (y : ℝ))

theorem accurate_truncated : truncated.Accurate where
  ln x _ := abs_truncate_sub_le _
  sqrt x _ := abs_truncate_sub_le_of_nonneg (Real.sqrt_nonneg x)
  cos x := by
    have htolerance : (0 : ℝ) ≤ tolerance := by norm_num [tolerance]
    calc
      |(truncated.cos x : ℝ) - Real.cos x| ≤ tolerance * |Real.cos x| := abs_truncate_sub_le _
      _ ≤ tolerance := mul_le_of_le_one_right htolerance (Real.abs_cos_le_one x)
  powf x y hx _ := abs_truncate_sub_le_of_nonneg (by positivity)

end

end Libm

end Zenith.Rust
