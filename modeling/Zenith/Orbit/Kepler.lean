import Zenith.Data.Loop
import Zenith.Data.Newton

/-!
# Kepler's equation

The loop of `propagate` that solves Kepler's equation, in the form that a zero eccentricity does no
harm to. Newton's method is damped by a bound on its steps and stops after ten of them. Up to an
eccentricity of two thirds neither the bound nor the limit is ever reached, and the loop ends next to the
one solution. Doubles are real numbers here: the bound on the error is that of the method, and the rounding
of the double arithmetic is not part of it.
-/

namespace Zenith.Orbit.Sgp4

open Real

noncomputable section

structure KeplerState where
  eo1 : ℝ
  tem5 : ℝ
  ktr : ℕ

variable (axnl aynl u : ℝ)

/-- The body of the loop. -/
def keplerStep (s : KeplerState) : KeplerState :=
  let sineo1 := sin s.eo1
  let coseo1 := cos s.eo1
  let tem5 := 1.0 - coseo1 * axnl - sineo1 * aynl
  let tem5 := (u - aynl * coseo1 + axnl * sineo1 - s.eo1) / tem5
  let tem5 := if |tem5| ≥ 0.95 then if tem5 > 0.0 then 0.95 else -0.95 else tem5
  { eo1 := s.eo1 + tem5, tem5, ktr := s.ktr + 1 }

def KeplerMore (s : KeplerState) : Prop := |s.tem5| ≥ 1.0e-12 ∧ s.ktr ≤ 10

instance : DecidablePred KeplerMore := fun s ↦
  inferInstanceAs (Decidable (|s.tem5| ≥ 1.0e-12 ∧ s.ktr ≤ 10))

def keplerStart : KeplerState := { eo1 := u, tem5 := 9999.9, ktr := 1 }

def kepler : Option KeplerState := Loop.run KeplerMore (keplerStep axnl aynl u) 10 (keplerStart u)

/-! ## The equation -/

/-- What the solution makes vanish. -/
def keplerGap (x : ℝ) : ℝ := x - axnl * sin x + aynl * cos x - u

def keplerSlope (x : ℝ) : ℝ := 1 - axnl * cos x - aynl * sin x

variable {axnl aynl u}

theorem hasDerivAt_keplerGap (x : ℝ) :
    HasDerivAt (keplerGap axnl aynl u) (keplerSlope axnl aynl x) x := by
  have hsin := (hasDerivAt_sin x).const_mul axnl
  have hcos := (hasDerivAt_cos x).const_mul aynl
  apply ((((hasDerivAt_id x).sub hsin).add hcos).sub_const u).congr_deriv
  unfold keplerSlope
  ring

/-- A point on the circle of radius `e`, seen along any direction. -/
theorem sq_sum_turned (axnl aynl x : ℝ) : (axnl * sin x - aynl * cos x) ^ 2 +
    (axnl * cos x + aynl * sin x) ^ 2 = axnl ^ 2 + aynl ^ 2 := by
  linear_combination (axnl ^ 2 + aynl ^ 2) * sin_sq_add_cos_sq x

theorem abs_mul_cos_add_le {e : ℝ} (he : 0 ≤ e) (h : axnl ^ 2 + aynl ^ 2 ≤ e ^ 2) (x : ℝ) :
    |axnl * cos x + aynl * sin x| ≤ e := by
  apply abs_le_of_sq_le_sq _ he
  nlinarith [sq_sum_turned axnl aynl x, sq_nonneg (axnl * sin x - aynl * cos x)]

theorem abs_mul_sin_sub_le {e : ℝ} (he : 0 ≤ e) (h : axnl ^ 2 + aynl ^ 2 ≤ e ^ 2) (x : ℝ) :
    |axnl * sin x - aynl * cos x| ≤ e := by
  apply abs_le_of_sq_le_sq _ he
  nlinarith [sq_sum_turned axnl aynl x, sq_nonneg (axnl * cos x + aynl * sin x)]

theorem le_keplerSlope {e : ℝ} (he : 0 ≤ e) (h : axnl ^ 2 + aynl ^ 2 ≤ e ^ 2) (x : ℝ) :
    1 - e ≤ keplerSlope axnl aynl x := by
  have hle := (abs_le.mp (abs_mul_cos_add_le he h x)).2
  unfold keplerSlope
  linarith

/-- The slope changes by the eccentricity times the distance at most. -/
theorem abs_keplerSlope_sub_le {e : ℝ} (he : 0 ≤ e) (h : axnl ^ 2 + aynl ^ 2 ≤ e ^ 2) (s t : ℝ) :
    |keplerSlope axnl aynl s - keplerSlope axnl aynl t| ≤ e * |s - t| := by
  have hslope : ∀ x, HasDerivAt (keplerSlope axnl aynl) (axnl * sin x - aynl * cos x) x := by
    intro x
    have hcos := (hasDerivAt_cos x).const_mul axnl
    have hsin := (hasDerivAt_sin x).const_mul aynl
    apply (((hasDerivAt_const x 1).sub hcos).sub hsin).congr_deriv
    ring
  have hbound := Convex.norm_image_sub_le_of_norm_hasDerivWithin_le (s := Set.univ)
    (fun x _ ↦ (hslope x).hasDerivWithinAt) (fun x _ ↦ abs_mul_sin_sub_le he h x) convex_univ
    (Set.mem_univ t) (Set.mem_univ s)
  exact hbound

theorem keplerGap_strictMono {e : ℝ} (he : 0 ≤ e) (hlt : e < 1) (h : axnl ^ 2 + aynl ^ 2 ≤ e ^ 2) :
    StrictMono (keplerGap axnl aynl u) := by
  apply strictMono_of_deriv_pos
  intro x
  rw [(hasDerivAt_keplerGap x).deriv]
  linarith [le_keplerSlope he h x]

/-- There is a solution, no further from the mean anomaly than the eccentricity. -/
theorem exists_keplerGap_eq_zero {e : ℝ} (he : 0 ≤ e) (h : axnl ^ 2 + aynl ^ 2 ≤ e ^ 2) :
    ∃ r, keplerGap axnl aynl u r = 0 ∧ |u - r| ≤ e := by
  have hcontinuous : ContinuousOn (keplerGap axnl aynl u) (Set.Icc (u - e) (u + e)) :=
    fun x _ ↦ (hasDerivAt_keplerGap x).continuousAt.continuousWithinAt
  have hlow : keplerGap axnl aynl u (u - e) ≤ 0 := by
    have hle := (abs_le.mp (abs_mul_sin_sub_le he h (u - e))).1
    unfold keplerGap
    linarith
  have hhigh : 0 ≤ keplerGap axnl aynl u (u + e) := by
    have hle := (abs_le.mp (abs_mul_sin_sub_le he h (u + e))).2
    unfold keplerGap
    linarith
  obtain ⟨r, hr, hzero⟩ := intermediate_value_Icc (by linarith) hcontinuous ⟨hlow, hhigh⟩
  refine ⟨r, hzero, ?_⟩
  rw [abs_le]
  constructor
  · linarith [hr.2]
  · linarith [hr.1]

/-! ## Steps -/

theorem keplerStep_eo1 (s : KeplerState) :
    (keplerStep axnl aynl u s).eo1 = s.eo1 + (keplerStep axnl aynl u s).tem5 := rfl

/-- A step of Newton's method that is not too long is taken as it is. -/
theorem keplerStep_tem5 {s : KeplerState}
    (h : |keplerGap axnl aynl u s.eo1| < 0.95 * keplerSlope axnl aynl s.eo1)
    (hpos : 0 < keplerSlope axnl aynl s.eo1) : (keplerStep axnl aynl u s).eo1 =
      Newton.step (keplerGap axnl aynl u) (keplerSlope axnl aynl) s.eo1 := by
  have hquotient : (u - aynl * cos s.eo1 + axnl * sin s.eo1 - s.eo1) /
      (1.0 - cos s.eo1 * axnl - sin s.eo1 * aynl) =
        -(keplerGap axnl aynl u s.eo1 / keplerSlope axnl aynl s.eo1) := by
    rw [← neg_div]
    congr 1
    · unfold keplerGap
      ring
    · unfold keplerSlope
      norm_num
      ring
  have hsmall : ¬|-(keplerGap axnl aynl u s.eo1 / keplerSlope axnl aynl s.eo1)| ≥ 0.95 := by
    rw [abs_neg, abs_div, abs_of_pos hpos, ge_iff_le, not_le, div_lt_iff₀ hpos]
    exact h
  have htem5 : (keplerStep axnl aynl u s).tem5 =
      -(keplerGap axnl aynl u s.eo1 / keplerSlope axnl aynl s.eo1) := by
    unfold keplerStep
    dsimp only
    rw [hquotient, if_neg hsmall]
  rw [keplerStep_eo1, htem5, Newton.step, sub_eq_add_neg]

/-- The states of the loop, were it to go on. -/
def keplerRun (axnl aynl u : ℝ) (n : ℕ) : KeplerState := (keplerStep axnl aynl u)^[n] (keplerStart u)

theorem keplerRun_succ (n : ℕ) :
    keplerRun axnl aynl u (n + 1) = keplerStep axnl aynl u (keplerRun axnl aynl u n) :=
  Function.iterate_succ_apply' _ _ _

theorem keplerRun_ktr (axnl aynl u : ℝ) (n : ℕ) : (keplerRun axnl aynl u n).ktr = n + 1 := by
  induction n with
  | zero => rfl
  | succ n ih =>
    rw [keplerRun_succ]
    change (keplerRun axnl aynl u n).ktr + 1 = _
    rw [ih]

/-- The limit ends the loop if nothing else does. -/
theorem kepler_ne_none (axnl aynl u : ℝ) : kepler axnl aynl u ≠ none := by
  have hend : ¬KeplerMore (keplerRun axnl aynl u 10) := by
    intro hmore
    have hktr := hmore.2
    rw [keplerRun_ktr] at hktr
    omega
  obtain ⟨k, -, hkepler, -⟩ := Loop.exists_run_eq hend le_rfl
  exact Option.ne_none_iff_exists'.mpr ⟨_, hkepler⟩

section Convergence

variable {r : ℝ}

/-- The first step is short: the sine of an angle over its distance from a circle of radius `e`. -/
theorem abs_keplerGap_start_lt (h : axnl ^ 2 + aynl ^ 2 ≤ (2 / 3) ^ 2) :
    |keplerGap axnl aynl u u| < 0.95 * keplerSlope axnl aynl u := by
  have hcircle := sq_sum_turned axnl aynl u
  have hslope := le_keplerSlope (by norm_num) h u
  have hgap : keplerGap axnl aynl u u = -(axnl * sin u - aynl * cos u) := by
    unfold keplerGap
    ring
  have hcos : keplerSlope axnl aynl u = 1 - (axnl * cos u + aynl * sin u) := by
    unfold keplerSlope
    ring
  rw [hgap, abs_neg, hcos]
  rw [hcos] at hslope
  generalize axnl * sin u - aynl * cos u = y at hcircle ⊢
  generalize axnl * cos u + aynl * sin u = x at hcircle hslope ⊢
  apply abs_lt_of_sq_lt_sq
  · nlinarith [sq_nonneg (x - 361 / 761)]
  · nlinarith

theorem abs_newton_sub_le (h : axnl ^ 2 + aynl ^ 2 ≤ (2 / 3) ^ 2) (hr : keplerGap axnl aynl u r = 0)
    (x : ℝ) : |Newton.step (keplerGap axnl aynl u) (keplerSlope axnl aynl) x - r| ≤ |x - r| ^ 2 := by
  have hstep := Newton.abs_step_sub_le (K := 2 / 3) (m := 1 / 3) hasDerivAt_keplerGap
    (abs_keplerSlope_sub_le (by norm_num) h) (by norm_num)
    (fun t ↦ by linarith [le_keplerSlope (by norm_num) h t]) hr x
  rw [sq_abs]
  linarith

/-- Close to the solution no step is cut. -/
theorem abs_keplerGap_lt (h : axnl ^ 2 + aynl ^ 2 ≤ (2 / 3) ^ 2) (hr : keplerGap axnl aynl u r = 0)
    {x : ℝ} (hx : |x - r| ≤ 4 / 9) :
    |keplerGap axnl aynl u x| < 0.95 * keplerSlope axnl aynl x := by
  have hslope := le_keplerSlope (by norm_num) h x
  have hpos : 0 < keplerSlope axnl aynl x := by linarith
  have hnewton := abs_newton_sub_le h hr x
  have hlength : |keplerGap axnl aynl u x / keplerSlope axnl aynl x| ≤ 4 / 9 + (4 / 9) ^ 2 := by
    calc
      |keplerGap axnl aynl u x / keplerSlope axnl aynl x| =
          |(x - r) - (Newton.step (keplerGap axnl aynl u) (keplerSlope axnl aynl) x - r)| := by
        unfold Newton.step
        congr 1
        ring
      _ ≤ |x - r| + |Newton.step (keplerGap axnl aynl u) (keplerSlope axnl aynl) x - r| :=
        abs_sub _ _
      _ ≤ 4 / 9 + (4 / 9) ^ 2 := by
        apply add_le_add hx
        exact hnewton.trans (pow_le_pow_left₀ (abs_nonneg _) hx 2)
  rw [abs_div, abs_of_pos hpos, div_le_iff₀ hpos] at hlength
  nlinarith

/-- The error of a round is at most the square of the one before. -/
theorem keplerRun_error (h : axnl ^ 2 + aynl ^ 2 ≤ (2 / 3) ^ 2) (hr : keplerGap axnl aynl u r = 0)
    (hstart : |u - r| ≤ 2 / 3) (n : ℕ) :
    |(keplerRun axnl aynl u (n + 1)).eo1 - r| ≤ |(keplerRun axnl aynl u n).eo1 - r| ^ 2 ∧
      |(keplerRun axnl aynl u (n + 1)).eo1 - r| ≤ 4 / 9 := by
  have hround {s : KeplerState}
      (hshort : |keplerGap axnl aynl u s.eo1| < 0.95 * keplerSlope axnl aynl s.eo1) :
      |(keplerStep axnl aynl u s).eo1 - r| ≤ |s.eo1 - r| ^ 2 := by
    have hslope := le_keplerSlope (by norm_num) h s.eo1
    rw [keplerStep_tem5 hshort (by linarith)]
    exact abs_newton_sub_le h hr _
  induction n with
  | zero =>
    have hfirst : |(keplerRun axnl aynl u 1).eo1 - r| ≤ |u - r| ^ 2 :=
      hround (s := keplerStart u) (abs_keplerGap_start_lt h)
    refine ⟨hfirst, hfirst.trans ?_⟩
    calc
      |u - r| ^ 2 ≤ (2 / 3) ^ 2 := pow_le_pow_left₀ (abs_nonneg _) hstart 2
      _ = 4 / 9 := by norm_num
  | succ n ih =>
    have hnext := hround (abs_keplerGap_lt h hr ih.2)
    rw [← keplerRun_succ] at hnext
    refine ⟨hnext, hnext.trans ?_⟩
    calc
      |(keplerRun axnl aynl u (n + 1)).eo1 - r| ^ 2 ≤ (4 / 9) ^ 2 :=
        pow_le_pow_left₀ (abs_nonneg _) ih.2 2
      _ ≤ 4 / 9 := by norm_num

theorem keplerRun_le (h : axnl ^ 2 + aynl ^ 2 ≤ (2 / 3) ^ 2) (hr : keplerGap axnl aynl u r = 0)
    (hstart : |u - r| ≤ 2 / 3) (n : ℕ) :
    |(keplerRun axnl aynl u n).eo1 - r| ≤ (2 / 3) ^ 2 ^ n := by
  have hsquares := Newton.le_pow_two_pow (e := fun n ↦ |(keplerRun axnl aynl u n).eo1 - r|) (n := n)
    (fun n ↦ abs_nonneg _) (fun k _ ↦ (keplerRun_error h hr hstart k).1)
  exact hsquares.trans (pow_le_pow_left₀ (abs_nonneg _) hstart _)

/-- How far a round moves tells how close it ends. -/
theorem keplerRun_tem5 (h : axnl ^ 2 + aynl ^ 2 ≤ (2 / 3) ^ 2) (hr : keplerGap axnl aynl u r = 0)
    (hstart : |u - r| ≤ 2 / 3) (n : ℕ) :
    |(keplerRun axnl aynl u (n + 1)).tem5| ≤ 2 * (2 / 3) ^ 2 ^ n ∧
      |(keplerRun axnl aynl u (n + 1)).eo1 - r| ≤ (3 * |(keplerRun axnl aynl u (n + 1)).tem5|) ^ 2 := by
  have hmove : (keplerRun axnl aynl u (n + 1)).tem5 =
      ((keplerRun axnl aynl u (n + 1)).eo1 - r) - ((keplerRun axnl aynl u n).eo1 - r) := by
    rw [keplerRun_succ, keplerStep_eo1]
    ring
  have herror := (keplerRun_error h hr hstart n).1
  have hle := keplerRun_le h hr hstart n
  have hsmall : |(keplerRun axnl aynl u n).eo1 - r| ≤ 2 / 3 :=
    hle.trans (pow_le_of_le_one (by norm_num) (by norm_num) (by positivity))
  have hnonneg := abs_nonneg ((keplerRun axnl aynl u n).eo1 - r)
  have hlow := abs_sub_abs_le_abs_sub ((keplerRun axnl aynl u n).eo1 - r)
    ((keplerRun axnl aynl u (n + 1)).eo1 - r)
  have hhigh := abs_sub ((keplerRun axnl aynl u (n + 1)).eo1 - r) ((keplerRun axnl aynl u n).eo1 - r)
  rw [abs_sub_comm (_ - r), ← hmove] at hlow
  rw [← hmove] at hhigh
  constructor
  · nlinarith
  · apply herror.trans
    apply pow_le_pow_left₀ hnonneg
    nlinarith

/-- The loop ends by itself, and not by the limit. -/
theorem exists_kepler_eq (h : axnl ^ 2 + aynl ^ 2 ≤ (2 / 3) ^ 2) (hr : keplerGap axnl aynl u r = 0)
    (hstart : |u - r| ≤ 2 / 3) : ∃ n < 8, kepler axnl aynl u = some (keplerRun axnl aynl u (n + 1)) ∧
      |(keplerRun axnl aynl u (n + 1)).tem5| < 1.0e-12 := by
  have hend : ¬KeplerMore (keplerRun axnl aynl u 8) := by
    intro hmore
    have htem5 := hmore.1.trans (keplerRun_tem5 h hr hstart 7).1
    norm_num at htem5
  obtain ⟨k, hk, hkepler, hspec⟩ := Loop.exists_run_eq hend (show 8 ≤ 10 by decide)
  have hne : k ≠ 0 := by
    rintro rfl
    apply hspec
    exact ⟨by norm_num [keplerStart, abs_of_pos], Nat.le_of_ble_eq_true rfl⟩
  obtain ⟨n, rfl⟩ := Nat.exists_eq_succ_of_ne_zero hne
  refine ⟨n, hk, hkepler, ?_⟩
  by_contra hlarge
  apply hspec
  have hktr := keplerRun_ktr axnl aynl u (n + 1)
  refine ⟨not_lt.mp hlarge, hktr.le.trans ?_⟩
  omega

end Convergence

/-- Up to an eccentricity of two thirds the loop ends within eight rounds, next to the one solution of
the equation. -/
theorem kepler_solves (h : axnl ^ 2 + aynl ^ 2 ≤ (2 / 3) ^ 2) : ∃ s r, kepler axnl aynl u = some s ∧
    s.ktr ≤ 9 ∧ (∀ x, x - axnl * sin x + aynl * cos x = u ↔ x = r) ∧ |s.eo1 - r| ≤ 1.0e-23 := by
  obtain ⟨r, hr, hstart⟩ := exists_keplerGap_eq_zero (u := u) (by norm_num) h
  obtain ⟨n, hn, hkepler, htem5⟩ := exists_kepler_eq h hr hstart
  refine ⟨_, r, hkepler, ?_, ?_, ?_⟩
  · rw [keplerRun_ktr]
    omega
  · intro x
    rw [← (keplerGap_strictMono (by norm_num) (by norm_num) h).injective.eq_iff (b := r), hr,
      keplerGap, sub_eq_zero]
  · calc
      |(keplerRun axnl aynl u (n + 1)).eo1 - r| ≤ (3 * |(keplerRun axnl aynl u (n + 1)).tem5|) ^ 2 :=
        (keplerRun_tem5 h hr hstart n).2
      _ ≤ (3 * 1.0e-12) ^ 2 := by
        apply pow_le_pow_left₀ (by positivity)
        linarith
      _ ≤ 1.0e-23 := by norm_num

/-- An orbit of eccentricity 0.64. -/
theorem kepler_solves_eccentric : ∃ s r, kepler 0.4 0.5 1.0 = some s ∧ s.ktr ≤ 9 ∧
    (∀ x, x - 0.4 * sin x + 0.5 * cos x = 1.0 ↔ x = r) ∧ |s.eo1 - r| ≤ 1.0e-23 :=
  kepler_solves (by norm_num)

end

end Zenith.Orbit.Sgp4
