import Mathlib

/-!
# Newton's method

Where the slope of a function is bounded from below and does not change too fast, a step of Newton's
method from a point leaves an error of the order of the square of the error before it. Errors that are
squared, and start below one, vanish at the rate of a power of a power.
-/

namespace Zenith.Newton

variable {f f' : ℝ → ℝ} {K m r : ℝ}

noncomputable def step (f f' : ℝ → ℝ) (x : ℝ) : ℝ := x - f x / f' x

/-- A tangent leaves a function by half the square of the distance at most. -/
theorem abs_sub_tangent_le (hf : ∀ t, HasDerivAt f (f' t) t)
    (hlip : ∀ s t, |f' s - f' t| ≤ K * |s - t|) (x y : ℝ) :
    |f y - f x - f' x * (y - x)| ≤ K / 2 * (y - x) ^ 2 := by
  have hgap : ∀ t, HasDerivAt (fun t ↦ f t - f x - f' x * (t - x)) (f' t - f' x) t := by
    intro t
    have hlinear := ((hasDerivAt_id t).sub_const x).const_mul (f' x)
    rw [mul_one] at hlinear
    exact ((hf t).sub_const (f x)).sub hlinear
  have hsquare : ∀ t, HasDerivAt (fun t ↦ (t - x) ^ 2) (2 * (t - x)) t := by
    intro t
    have hpow := ((hasDerivAt_id t).sub_const x).pow 2
    apply hpow.congr_deriv
    simp
  -- Cauchy's mean value theorem, on the interval between the two points
  have hmean : x ≠ y → ∃ c, c ≠ x ∧
      (y - x) ^ 2 * (f' c - f' x) = (f y - f x - f' x * (y - x)) * (2 * (c - x)) := by
    intro hne
    rcases lt_or_gt_of_ne hne with hlt | hlt
    · obtain ⟨c, hc, heq⟩ := exists_ratio_hasDerivAt_eq_ratio_slope _ _ hlt
        (fun t _ ↦ (hgap t).continuousAt.continuousWithinAt) (fun t _ ↦ hgap t) _ _
        (fun t _ ↦ (hsquare t).continuousAt.continuousWithinAt) (fun t _ ↦ hsquare t)
      refine ⟨c, hc.1.ne', ?_⟩
      linear_combination heq
    · obtain ⟨c, hc, heq⟩ := exists_ratio_hasDerivAt_eq_ratio_slope _ _ hlt
        (fun t _ ↦ (hgap t).continuousAt.continuousWithinAt) (fun t _ ↦ hgap t) _ _
        (fun t _ ↦ (hsquare t).continuousAt.continuousWithinAt) (fun t _ ↦ hsquare t)
      refine ⟨c, hc.2.ne, ?_⟩
      linear_combination -heq
  rcases eq_or_ne x y with rfl | hne
  · simp
  · obtain ⟨c, hc, heq⟩ := hmean hne
    have hpos : 0 < 2 * |c - x| := by
      have hdistance := abs_pos.mpr (sub_ne_zero.mpr hc)
      linarith
    apply le_of_mul_le_mul_right _ hpos
    calc
      |f y - f x - f' x * (y - x)| * (2 * |c - x|) =
          |(f y - f x - f' x * (y - x)) * (2 * (c - x))| := by rw [abs_mul, abs_mul, abs_two]
      _ = (y - x) ^ 2 * |f' c - f' x| := by rw [← heq, abs_mul, abs_of_nonneg (sq_nonneg _)]
      _ ≤ (y - x) ^ 2 * (K * |c - x|) := mul_le_mul_of_nonneg_left (hlip c x) (sq_nonneg _)
      _ = K / 2 * (y - x) ^ 2 * (2 * |c - x|) := by ring

/-- The error after a step, from the error before it. -/
theorem abs_step_sub_le (hf : ∀ t, HasDerivAt f (f' t) t)
    (hlip : ∀ s t, |f' s - f' t| ≤ K * |s - t|) (hm : 0 < m) (hslope : ∀ t, m ≤ f' t) (hr : f r = 0)
    (x : ℝ) : |step f f' x - r| ≤ K / (2 * m) * (x - r) ^ 2 := by
  have hpos : 0 < f' x := hm.trans_le (hslope x)
  have htangent := abs_sub_tangent_le hf hlip x r
  have herror : step f f' x - r = (f r - f x - f' x * (r - x)) / f' x := by
    rw [step, hr, eq_div_iff hpos.ne', sub_right_comm, sub_mul, div_mul_cancel₀ _ hpos.ne']
    ring
  calc
    |step f f' x - r| = |f r - f x - f' x * (r - x)| / f' x := by
      rw [herror, abs_div, abs_of_pos hpos]
    _ ≤ K / 2 * (r - x) ^ 2 / m :=
      div_le_div₀ ((abs_nonneg _).trans htangent) htangent hm (hslope x)
    _ = K / (2 * m) * (x - r) ^ 2 := by
      rw [← neg_sub x r, neg_sq]
      field_simp

/-- Errors of which each is at most the square of the one before. -/
theorem le_pow_two_pow {e : ℕ → ℝ} (hnonneg : ∀ n, 0 ≤ e n) {n : ℕ}
    (h : ∀ k < n, e (k + 1) ≤ e k ^ 2) : e n ≤ e 0 ^ 2 ^ n := by
  induction n with
  | zero => simp
  | succ n ih =>
    have hle := ih fun k hk ↦ h k (Nat.lt_succ_of_lt hk)
    calc
      e (n + 1) ≤ e n ^ 2 := h n n.lt_succ_self
      _ ≤ (e 0 ^ 2 ^ n) ^ 2 := pow_le_pow_left₀ (hnonneg n) hle 2
      _ = e 0 ^ 2 ^ (n + 1) := by rw [← pow_mul, pow_succ]

end Zenith.Newton
