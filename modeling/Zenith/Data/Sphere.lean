import Mathlib

/-!
# Directions

Directions in space by an azimuth and an elevation. Every vector but zero points in one; the angle
between two vectors is that of the point whose coordinates are their inner product and the length of
their cross product, and between two directions it is at most what their coordinates differ by.
-/

namespace Zenith.Sphere

open Real InnerProductGeometry

noncomputable section

/-- The unit vector of an azimuth, measured from the second axis to the first, and of an elevation over
the plane of both. -/
def direction (az el : ℝ) : EuclideanSpace ℝ (Fin 3) :=
  WithLp.toLp _ ![cos el * sin az, cos el * cos az, sin el]

theorem inner_eq (v w : EuclideanSpace ℝ (Fin 3)) :
    inner ℝ v w = v 0 * w 0 + v 1 * w 1 + v 2 * w 2 := by
  rw [EuclideanSpace.inner_eq_star_dotProduct, star_trivial, dotProduct, Fin.sum_univ_three]
  ring

theorem norm_sq_eq (v : EuclideanSpace ℝ (Fin 3)) : ‖v‖ ^ 2 = v 0 ^ 2 + v 1 ^ 2 + v 2 ^ 2 := by
  rw [← real_inner_self_eq_norm_sq, inner_eq]
  ring

theorem inner_direction (a e a' e' : ℝ) : inner ℝ (direction a e) (direction a' e') =
    cos e * cos e' * cos (a - a') + sin e * sin e' := by
  rw [inner_eq, cos_sub]
  simp only [direction, PiLp.toLp_apply, Matrix.cons_val]
  ring

theorem norm_direction (a e : ℝ) : ‖direction a e‖ = 1 := by
  have hself := inner_direction a e a e
  rw [real_inner_self_eq_norm_sq, sub_self, cos_zero] at hself
  have hsquare : ‖direction a e‖ ^ 2 = 1 ^ 2 := by
    linear_combination hself + sin_sq_add_cos_sq e
  exact (pow_left_inj₀ (norm_nonneg _) zero_le_one two_ne_zero).mp hsquare

theorem direction_ne_zero (a e : ℝ) : direction a e ≠ 0 := by
  rw [← norm_ne_zero_iff, norm_direction]
  exact one_ne_zero

/-- Full turns of the azimuth do not matter. -/
theorem direction_add_zsmul (a e : ℝ) (z : ℤ) : direction (a + z * (2 * π)) e = direction a e := by
  unfold direction
  rw [sin_add_int_mul_two_pi, cos_add_int_mul_two_pi]

theorem eq_of_sin_eq_of_cos_eq {a a' : ℝ} (ha : a ∈ Set.Ico 0 (2 * π)) (ha' : a' ∈ Set.Ico 0 (2 * π))
    (hsin : sin a = sin a') (hcos : cos a = cos a') : a = a' := by
  have hangle : (a : Angle) = a' := Angle.cos_sin_inj hcos hsin
  rw [Angle.angle_eq_iff_two_pi_dvd_sub] at hangle
  obtain ⟨z, hz⟩ := hangle
  have hpi := two_pi_pos
  have hlow : (-1 : ℝ) < z := by
    apply lt_of_mul_lt_mul_left _ hpi.le
    linarith [ha.1, ha'.2]
  have hhigh : (z : ℝ) < 1 := by
    apply lt_of_mul_lt_mul_left _ hpi.le
    linarith [ha.2, ha'.1]
  have hzero : z = 0 := by
    have hlow' : -1 < z := by exact_mod_cast hlow
    have hhigh' : z < 1 := by exact_mod_cast hhigh
    omega
  rw [hzero, Int.cast_zero, mul_zero] at hz
  exact sub_eq_zero.mp hz

/-- A direction determines its coordinates, except for the azimuth straight up and down. -/
theorem eq_of_direction_eq {a e a' e' : ℝ} (ha : a ∈ Set.Ico 0 (2 * π)) (ha' : a' ∈ Set.Ico 0 (2 * π))
    (he : e ∈ Set.Icc (-(π / 2)) (π / 2)) (he' : e' ∈ Set.Icc (-(π / 2)) (π / 2))
    (h : direction a e = direction a' e') : e = e' ∧ (cos e ≠ 0 → a = a') := by
  have hcomponent (i : Fin 3) : direction a e i = direction a' e' i := by rw [h]
  have hx := hcomponent 0
  have hy := hcomponent 1
  have hz := hcomponent 2
  simp only [direction, Matrix.cons_val] at hx hy hz
  have helevation : e = e' := injOn_sin he he' hz
  subst helevation
  refine ⟨rfl, fun hcos ↦ ?_⟩
  exact eq_of_sin_eq_of_cos_eq ha ha' (mul_left_cancel₀ hcos hx) (mul_left_cancel₀ hcos hy)

/-! ## Vectors and their directions -/

/-- Vectors are equal if and only if their lengths and their directions are. -/
theorem eq_of_smul_direction_eq {r a e r' a' e' : ℝ} (hr : 0 < r) (hr' : 0 < r')
    (h : r • direction a e = r' • direction a' e') : r = r' ∧ direction a e = direction a' e' := by
  have hnorm := congrArg norm h
  rw [norm_smul, norm_smul, norm_direction, norm_direction, mul_one, mul_one, norm_of_nonneg hr.le,
    norm_of_nonneg hr'.le] at hnorm
  rw [hnorm] at h
  exact ⟨hnorm, smul_right_injective _ hr'.ne' h⟩

theorem sqrt_one_sub_sq_mul {r x h : ℝ} (hr : 0 < r) (hh : 0 ≤ h) (hsum : r ^ 2 = h ^ 2 + x ^ 2) :
    r * √(1 - (x / r) ^ 2) = h := by
  have hsquare : 1 - (x / r) ^ 2 = (h / r) ^ 2 := by
    field_simp
    linarith
  rw [hsquare, Real.sqrt_sq (div_nonneg hh hr.le), mul_div_cancel₀ _ hr.ne']

/-- The direction that a vector points in. -/
theorem norm_smul_direction {v : EuclideanSpace ℝ (Fin 3)} (hv : v ≠ 0) :
    ‖v‖ • direction (Complex.arg ⟨v 1, v 0⟩) (arcsin (v 2 / ‖v‖)) = v := by
  have hpos : 0 < ‖v‖ := norm_pos_iff.mpr hv
  have hnorm := norm_sq_eq v
  have hplane : ‖(⟨v 1, v 0⟩ : ℂ)‖ ^ 2 = v 0 ^ 2 + v 1 ^ 2 := by
    rw [← Complex.normSq_eq_norm_sq, Complex.normSq_mk]
    ring
  have hcos : ‖v‖ * cos (arcsin (v 2 / ‖v‖)) = ‖(⟨v 1, v 0⟩ : ℂ)‖ := by
    rw [cos_arcsin]
    apply sqrt_one_sub_sq_mul hpos (norm_nonneg _)
    rw [hplane, hnorm]
  have hsin : ‖v‖ * sin (arcsin (v 2 / ‖v‖)) = v 2 := by
    have habs : |v 2 / ‖v‖| ≤ 1 := by
      rw [abs_div, abs_of_pos hpos, div_le_one hpos]
      apply abs_le_of_sq_le_sq _ hpos.le
      nlinarith [sq_nonneg (v 0), sq_nonneg (v 1)]
    rw [sin_arcsin (abs_le.mp habs).1 (abs_le.mp habs).2, mul_div_cancel₀ _ hpos.ne']
  have heast := Complex.norm_mul_sin_arg ⟨v 1, v 0⟩
  have hnorth := Complex.norm_mul_cos_arg ⟨v 1, v 0⟩
  ext i
  fin_cases i
  · simp only [direction, PiLp.smul_apply, Matrix.cons_val, smul_eq_mul, Fin.zero_eta]
    rw [← mul_assoc, hcos, heast]
  · simp only [direction, PiLp.smul_apply, Matrix.cons_val, smul_eq_mul, Fin.mk_one]
    rw [← mul_assoc, hcos, hnorth]
  · simp only [direction, PiLp.smul_apply, Matrix.cons_val, smul_eq_mul,
      Fin.reduceFinMk]
    exact hsin

/-! ## Angles -/

/-- The length of the cross product. -/
theorem sqrt_cross (v w : EuclideanSpace ℝ (Fin 3)) :
    √((v 1 * w 2 - v 2 * w 1) * (v 1 * w 2 - v 2 * w 1) +
      (v 2 * w 0 - v 0 * w 2) * (v 2 * w 0 - v 0 * w 2) +
      (v 0 * w 1 - v 1 * w 0) * (v 0 * w 1 - v 1 * w 0)) = ‖v‖ * ‖w‖ * sin (angle v w) := by
  rw [mul_comm (‖v‖ * ‖w‖), sin_angle_mul_norm_mul_norm, inner_eq, inner_eq, inner_eq]
  congr 1
  ring

/-- The angle of the inner product and the length of the cross product. -/
theorem arg_inner_cross {v w : EuclideanSpace ℝ (Fin 3)} (hv : v ≠ 0) (hw : w ≠ 0) :
    Complex.arg ⟨inner ℝ v w, ‖v‖ * ‖w‖ * sin (angle v w)⟩ = angle v w := by
  have hpos : 0 < ‖v‖ * ‖w‖ := mul_pos (norm_pos_iff.mpr hv) (norm_pos_iff.mpr hw)
  have hpolar : (⟨inner ℝ v w, ‖v‖ * ‖w‖ * sin (angle v w)⟩ : ℂ) =
      ((‖v‖ * ‖w‖ : ℝ) : ℂ) * (Complex.cos (angle v w) + Complex.sin (angle v w) * Complex.I) := by
    rw [← cos_angle_mul_norm_mul_norm v w]
    apply Complex.ext
    · simp [Complex.cos_ofReal_re]
      ring
    · simp [Complex.sin_ofReal_re]
  rw [hpolar]
  apply Complex.arg_mul_cos_add_sin_mul_I hpos
  exact ⟨(neg_lt_zero.mpr pi_pos).trans_le (angle_nonneg v w), angle_le_pi v w⟩

/-- An angle is bounded by one with a smaller cosine. -/
theorem angle_le_of_cos_le {v w : EuclideanSpace ℝ (Fin 3)} (hv : ‖v‖ = 1) (hw : ‖w‖ = 1) {t : ℝ}
    (ht : 0 ≤ t) (h : cos t ≤ inner ℝ v w) : angle v w ≤ t := by
  rcases le_total t π with hpi | hpi
  · rw [angle, hv, hw, one_mul, div_one, ← arccos_cos ht hpi]
    exact arccos_le_arccos h
  · exact (angle_le_pi v w).trans hpi

theorem angle_direction_azimuth_le (a a' e : ℝ) : angle (direction a e) (direction a' e) ≤ |a - a'| := by
  apply angle_le_of_cos_le (norm_direction _ _) (norm_direction _ _) (abs_nonneg _)
  rw [cos_abs, inner_direction]
  nlinarith [sin_sq_add_cos_sq e, cos_le_one (a - a'), sq_nonneg (sin e)]

theorem angle_direction_elevation_le (a e e' : ℝ) :
    angle (direction a e) (direction a e') ≤ |e - e'| := by
  apply angle_le_of_cos_le (norm_direction _ _) (norm_direction _ _) (abs_nonneg _)
  rw [cos_abs, inner_direction, sub_self, cos_zero, cos_sub]
  linarith

/-- Two directions are no further apart than their coordinates together. -/
theorem angle_direction_le (a e a' e' : ℝ) :
    angle (direction a e) (direction a' e') ≤ |a - a'| + |e - e'| :=
  calc
    angle (direction a e) (direction a' e') ≤
        angle (direction a e) (direction a' e) + angle (direction a' e) (direction a' e') :=
      angle_le_angle_add_angle _ _ _
    _ ≤ |a - a'| + |e - e'| :=
      add_le_add (angle_direction_azimuth_le a a' e) (angle_direction_elevation_le a' e e')

end

end Zenith.Sphere
