import Zenith.Orbit.Constellation
import Zenith.Orbit.Initialize

/-!
# The altitude of a synthetic constellation

The generator takes the mean motion of its satellites from Kepler's third law, and the initialisation
takes it apart again: what the flattening has to do with it is removed, and a near-earth orbit without
drag keeps the rest for good. Each satellite then stays within 32 kilometers of the altitude that was
asked for, at every time. This is about real numbers: the double arithmetic breaks down for times beyond
all use, when the angles no longer have digits after the point.
-/

namespace Zenith.Orbit.Sgp4

open Rust Real

noncomputable section

/-- `MU_EARTH`. -/
def muEarth : ℝ := 398600.79964

/-- `mean_motion_for_altitude`. -/
def meanMotionForAltitude (altitudeKm : ℝ) : ℝ :=
  let a := earthRadiusKm + altitudeKm
  let nRadS := √(muEarth / (a * a * a))
  nRadS * 86400.0 / (2.0 * π)

theorem abs_rpow_sub_one_le {x y : ℝ} (hx : 0 ≤ x) (hy : 0 ≤ y) (hle : y ≤ 1) :
    |x ^ y - 1| ≤ |x - 1| := by
  by_cases hone : 1 ≤ x
  · have hpow : 1 ≤ x ^ y := Real.one_le_rpow hone hy
    rw [abs_of_nonneg (sub_nonneg.mpr hpow), abs_of_nonneg (sub_nonneg.mpr hone)]
    exact sub_le_sub_right (Real.rpow_le_self_of_one_le hone hle) 1
  · have hpow : x ^ y ≤ 1 := Real.rpow_le_one hx (le_of_not_ge hone) hy
    rw [abs_of_nonpos (sub_nonpos.mpr hpow), abs_of_nonpos (sub_nonpos.mpr (le_of_not_ge hone))]
    apply neg_le_neg
    exact sub_le_sub_right (Real.self_le_rpow_of_le_one hx (le_of_not_ge hone) hle) 1

/-! ## Orbits without drag -/

namespace Propagator

/-- The atmosphere takes nothing from the orbit, and neither do the Moon and the Sun. -/
structure Dragless (p : Propagator) : Prop where
  bstar : p.bstar = 0
  cc1 : p.cc1 = 0
  d2 : p.d2 = 0
  d3 : p.d3 = 0
  d4 : p.d4 = 0
  near : p.method ≠ 'd'

variable {p : Propagator}

theorem Dragless.drag (h : p.Dragless) (tsince : ℝ) :
    (p.drag tsince).tempa = 1 ∧ (p.drag tsince).tempe = 0 := by
  unfold Propagator.drag
  split_ifs
  · norm_num [h.bstar, h.cc1, h.d2, h.d3, h.d4]
  · norm_num [h.bstar, h.cc1]

theorem Dragless.dragPowers (h : p.Dragless) (i : Initl) : (p.dragPowers i).Dragless where
  bstar := h.bstar
  cc1 := h.cc1
  d2 := by norm_num [Propagator.dragPowers, h.cc1]
  d3 := by norm_num [Propagator.dragPowers, h.cc1]
  d4 := by norm_num [Propagator.dragPowers, h.cc1]
  near := h.near

/-- What the initialisation leaves of an element set without drag whose orbit is not a deep-space one. -/
structure Near (p : Propagator) (tle : Tle ℚ) (i : Initl) : Prop extends Dragless p where
  noKozai : p.noKozai = i.no
  ecco : p.ecco = tle.eccentricity
  aycof : p.aycof = (xlcofAycof i.sinio i.cosio).2
  con41 : p.con41 = i.con41
  x1mth2 : p.x1mth2 = 1.0 - i.cosio2

theorem near_sgp4init {tle : Tle ℚ} (hbstar : tle.bstar = 0) {i : Initl}
    (hi : (blank tle).initl (initlEpoch tle) = i) (hno : 0 ≤ i.no) (hperiod : twoPi / i.no < 225.0) :
    (sgp4init tle).Near tle i := by
  have hzero : ((tle.bstar : ℚ) : ℝ) = 0 := by rw [hbstar, Rat.cast_zero]
  have hbranch : i.omeosq ≥ 0.0 ∨ i.no ≥ 0.0 := by
    norm_num
    exact .inr hno
  unfold sgp4init
  extract_lets p₀ epoch i' no p₁ p₂ xpidot p₃
  obtain rfl : i' = i := hi
  have hnear : p₂.Near tle i' :=
    { bstar := hzero
      cc1 := mul_eq_zero_of_left hzero _
      d2 := rfl
      d3 := rfl
      d4 := rfl
      near := show 'n' ≠ 'd' by decide
      noKozai := rfl
      ecco := rfl
      aycof := rfl
      con41 := rfl
      x1mth2 := rfl }
  have hsame : p₃ = p₂ := if_neg (not_le.mpr hperiod)
  have hnear' : p₃.Near tle i' := by
    rw [hsame]
    exact hnear
  rw [if_pos hbranch]
  split_ifs
  · exact ⟨hnear'.toDragless.dragPowers i', hnear'.noKozai, hnear'.ecco, hnear'.aycof, hnear'.con41,
      hnear'.x1mth2⟩
  · exact hnear'

theorem coefficients_of_solve {tsince am : ℝ} {e : MeanElements} {o : Conic} (hnear : p.method ≠ 'd')
    (h : p.solve tsince am e = .ok o) : o.con41 = p.con41 ∧ o.x1mth2 = p.x1mth2 := by
  unfold solve at h
  dsimp only at h
  split at h
  · cases h
  · rw [← Outcome.ok.inj h]
    exact ⟨if_neg hnear, if_neg hnear⟩

/-- An orbit without drag stays on an ellipse of the same axis; only its perigee moves. -/
theorem Dragless.exists_conicAt (h : p.Dragless) (hnm : 0 < p.noKozai)
    (hecco : 1.0e-6 ≤ p.ecco ∧ p.ecco < 1.0) (fuel : ℕ) (tsince : ℝ) : ∃ o angle,
      p.conicAt fuel tsince = .ok o ∧ o.am = (xke / p.noKozai) ^ x2o3 ∧
      o.axnl = p.ecco * cos angle ∧
      o.aynl = p.ecco * sin angle + 1.0 / (o.am * (1.0 - p.ecco * p.ecco)) * p.aycof ∧
      o.con41 = p.con41 ∧ o.x1mth2 = p.x1mth2 := by
  obtain ⟨htempa, htempe⟩ := h.drag tsince
  have hpositive : ¬p.noKozai ≤ 0.0 := by
    norm_num
    exact hnm
  have hrange : -0.001 ≤ p.ecco ∧ p.ecco < 1.0 := by
    norm_num at hecco ⊢
    exact ⟨by linarith, hecco.2⟩
  unfold conicAt resonances
  dsimp only
  rw [if_neg h.near, Outcome.ok_bind, if_neg hpositive, htempa, htempe, mul_one, mul_one, sub_zero,
    if_neg (not_not.mpr hrange), if_neg (not_lt.mpr hecco.1)]
  generalize hsolve : p.solve tsince _ _ = outcome
  obtain ⟨o, ho, ham, haxnl, haynl⟩ := exists_solve p tsince _ _
  rw [hsolve] at ho
  rw [ho] at hsolve ⊢
  unfold longPeriod at haxnl haynl
  rw [if_neg h.near] at haxnl haynl
  rw [← ham] at haynl
  exact ⟨o, _, rfl, ham, haxnl, haynl, coefficients_of_solve h.near hsolve⟩

end Propagator

/-! ## The shape of the orbit -/

namespace Conic

variable {o : Conic}

theorem sqrt_el2_le {e angle k : ℝ} (he : 0 ≤ e) (haxnl : o.axnl = e * cos angle)
    (haynl : o.aynl = e * sin angle + k) : √o.el2 ≤ e + |k| := by
  have hcircle := sin_sq_add_cos_sq angle
  have hcross : k * sin angle ≤ |k| := by
    calc
      k * sin angle ≤ |k| * |sin angle| := (le_abs_self _).trans_eq (abs_mul _ _)
      _ ≤ |k| := mul_le_of_le_one_right (abs_nonneg k) (abs_sin_le_one angle)
  have hel2 : o.el2 = e ^ 2 + 2 * e * (k * sin angle) + k ^ 2 := by
    rw [el2, haxnl, haynl]
    linear_combination e ^ 2 * hcircle
  rw [Real.sqrt_le_iff]
  constructor
  · positivity
  · rw [hel2, add_sq, sq_abs]
    linarith [mul_le_mul_of_nonneg_left hcross (mul_nonneg zero_le_two he)]

/-- An orbit that is nearly a circle. -/
structure Round (o : Conic) : Prop where
  am : 0.998 ≤ o.am
  el2 : √o.el2 ≤ 0.0013
  con41 : |o.con41| ≤ 2
  x1mth2 : |o.x1mth2| ≤ 1

theorem Round.el2_le (h : o.Round) : o.el2 ≤ 0.0013 ^ 2 :=
  (Real.sqrt_le_left (by norm_num)).mp h.el2

theorem Round.flattening_le (h : o.Round) : o.flattening ≤ 0.00191 := by
  have ham : 0 < o.am := by linarith only [h.am]
  have hel2 := h.el2_le
  have hlt : o.el2 < 1 := by norm_num at hel2; linarith
  have hpl : o.am * (1 - 0.0013 ^ 2) ≤ o.pl := by
    apply mul_le_mul_of_nonneg_left _ ham.le
    norm_num at hel2 ⊢
    linarith
  have hplpos := pl_pos ham hlt
  have hrl : o.rl ≤ o.am * 1.0013 := by
    apply (rl_mem ham).2.trans
    apply mul_le_mul_of_nonneg_left _ ham.le
    linarith only [h.el2]
  have hratio : o.rl / o.pl ≤ 1.0014 := by
    rw [div_le_iff₀ hplpos]
    linarith only [hpl, hrl, ham]
  have hscale : j2 / (2.0 * o.pl) ≤ 0.000543 := by
    have hbelow : 0.99799 ≤ o.pl := by linarith only [hpl, h.am]
    rw [div_le_iff₀ (by positivity), j2]
    linarith only [hbelow]
  have hrlpos := rl_pos ham hlt
  have hsum : 1.5 * (o.rl / o.pl) * |o.con41| + 0.5 * |o.x1mth2| ≤ 1.5 * 1.0014 * 2 + 0.5 * 1 := by
    have hcon41 := h.con41
    have hx1mth2 := h.x1mth2
    gcongr
  calc
    o.flattening ≤ 0.000543 * (1.5 * 1.0014 * 2 + 0.5 * 1) :=
      mul_le_mul hscale hsum (by positivity) (by norm_num)
    _ ≤ 0.00191 := by norm_num

/-- A satellite on a round orbit keeps its distance. -/
theorem Round.exists_state (h : o.Round) {offset : ℝ} (hoffset : o.am * √o.el2 ≤ offset) :
    ∃ v, o.state = .ok v ∧ |v.radiusKm - earthRadiusKm * o.am| ≤ earthRadiusKm * (offset + 0.00191) := by
  have ham : 0 < o.am := by linarith only [h.am]
  have hlt : o.el2 < 1 := by
    have hel2 := h.el2_le
    norm_num at hel2
    linarith
  have hpl : ¬o.pl < 0.0 := by
    norm_num
    exact (pl_pos ham hlt).le
  obtain ⟨v, hv⟩ := Conic.exists_state hpl
  have hflies := flies_of_state ham hlt hv
  have hradius : 0 < earthRadiusKm := by norm_num [earthRadiusKm]
  have haxis : |earthRadiusKm * o.rl - earthRadiusKm * o.am| ≤ earthRadiusKm * offset := by
    rw [← mul_sub, abs_mul, abs_of_pos hradius]
    apply mul_le_mul_of_nonneg_left _ hradius.le
    obtain ⟨hlow, hhigh⟩ := hflies.ellipse
    rw [abs_le]
    constructor
    · linarith only [hlow, hoffset]
    · linarith only [hhigh, hoffset]
  refine ⟨v, hv, ?_⟩
  calc
    |v.radiusKm - earthRadiusKm * o.am| ≤
        |v.radiusKm - earthRadiusKm * o.rl| + |earthRadiusKm * o.rl - earthRadiusKm * o.am| :=
      abs_sub_le _ _ _
    _ ≤ earthRadiusKm * o.flattening + earthRadiusKm * offset := add_le_add hflies.radius haxis
    _ ≤ earthRadiusKm * (offset + 0.00191) := by
      rw [← mul_add, add_comm]
      apply mul_le_mul_of_nonneg_left _ hradius.le
      exact add_le_add_right h.flattening_le offset

end Conic

/-! ## The mean motion of the initialisation -/

namespace Propagator

variable (p : Propagator) (epoch : ℝ)

theorem abs_aycof_le : |(xlcofAycof (p.initl epoch).sinio (p.initl epoch).cosio).2| ≤ 0.001173 := by
  have hsin : |sin p.inclo| ≤ 1 := abs_sin_le_one _
  have hhalf : |(-0.5 : ℝ) * j3oj2| ≤ 0.001173 := by
    rw [abs_le]
    norm_num [j3oj2, j2]
  calc
    |(xlcofAycof (p.initl epoch).sinio (p.initl epoch).cosio).2| =
        |-0.5 * j3oj2| * |sin p.inclo| := abs_mul _ _
    _ ≤ |-0.5 * j3oj2| := mul_le_of_le_one_right (abs_nonneg _) hsin
    _ ≤ 0.001173 := hhalf

theorem cosio2_mem : (p.initl epoch).cosio2 ∈ Set.Icc 0 1 := by
  have hcos : (p.initl epoch).cosio2 = cos p.inclo ^ 2 := (sq _).symm
  rw [hcos]
  exact ⟨sq_nonneg _, cos_sq_le_one _⟩

theorem abs_con41_le : |(p.initl epoch).con41| ≤ 2 := by
  obtain ⟨hnonneg, hle⟩ := p.cosio2_mem epoch
  have hcon41 : (p.initl epoch).con41 = 3 * (p.initl epoch).cosio2 - 1 := by
    change -(1.0 - 5.0 * (p.initl epoch).cosio2) - (p.initl epoch).cosio2 - (p.initl epoch).cosio2 = _
    norm_num
    ring
  rw [hcon41, abs_le]
  constructor
  · linarith
  · linarith

theorem abs_x1mth2_le : |1.0 - (p.initl epoch).cosio2| ≤ 1 := by
  obtain ⟨hnonneg, hle⟩ := p.cosio2_mem epoch
  rw [abs_le]
  norm_num
  constructor
  · linarith
  · linarith

/-- Two rounds of the correction for the flattening. -/
theorem correction_le {ak d1 del adel : ℝ} (hak : 0.999 ≤ ak) (hd1 : |d1| ≤ 0.001625)
    (hdel : del = d1 / (ak * ak))
    (hadel : adel = ak * (1.0 - del * del - del * (1.0 / 3.0 + 134.0 * del * del / 81.0))) :
    |d1 / (adel * adel)| * ak ^ 2 ≤ 0.00164 := by
  have hpos : 0 < ak := by linarith
  have hsmall : |del| ≤ 0.00163 := by
    rw [hdel, abs_div, abs_mul_self, div_le_iff₀ (by positivity)]
    nlinarith
  have hsquare : del * del ≤ 0.00163 ^ 2 := by
    rw [← sq, ← sq_abs]
    gcongr
  have hterm : del * (1.0 / 3.0 + 134.0 * del * del / 81.0) ≤ 0.00163 * (1 / 3 + 134 / 81) := by
    have hself := mul_self_nonneg del
    have hle : 1.0 / 3.0 + 134.0 * del * del / 81.0 ≤ (1 / 3 + 134 / 81 : ℝ) := by
      norm_num at hsquare ⊢
      linarith
    have hnonneg : 0 ≤ 1.0 / 3.0 + 134.0 * del * del / 81.0 := by
      norm_num
      linarith
    exact mul_le_mul ((le_abs_self del).trans hsmall) hle hnonneg (by norm_num)
  have hfactor : 0.9955 ≤ 1.0 - del * del - del * (1.0 / 3.0 + 134.0 * del * del / 81.0) := by
    norm_num at hterm hsquare ⊢
    linarith
  generalize 1.0 - del * del - del * (1.0 / 3.0 + 134.0 * del * del / 81.0) = factor at hadel hfactor
  have hcancel : |d1 / (adel * adel)| * ak ^ 2 = |d1| / factor ^ 2 := by
    rw [hadel, abs_div, abs_mul_self]
    field_simp
  rw [hcancel, div_le_iff₀ (by positivity)]
  nlinarith

theorem abs_d1_le (hecco : p.ecco = 0.0001) :
    |0.75 * j2 * (3.0 * (cos p.inclo * cos p.inclo) - 1.0) /
      (√(1.0 - p.ecco * p.ecco) * (1.0 - p.ecco * p.ecco))| ≤ 0.001625 := by
  have hcos := cos_sq_le_one p.inclo
  have hnonneg := sq_nonneg (cos p.inclo)
  have homeosq : 1.0 - p.ecco * p.ecco = 0.99999999 := by
    rw [hecco]
    norm_num
  have hroot : 0.9999 ≤ √(0.99999999 : ℝ) := by
    apply Real.le_sqrt_of_sq_le
    norm_num
  have hshape : |3.0 * (cos p.inclo * cos p.inclo) - 1.0| ≤ 2 := by
    rw [← sq, abs_le]
    constructor
    · linarith
    · linarith
  have hpos : 0 < √(0.99999999 : ℝ) * 0.99999999 := by positivity
  have hj2 : |0.75 * j2| = 0.75 * j2 := abs_of_nonneg (by norm_num [j2])
  rw [homeosq, abs_div, abs_mul, hj2, abs_of_pos hpos, div_le_iff₀ hpos]
  calc
    0.75 * j2 * |3.0 * (cos p.inclo * cos p.inclo) - 1.0| ≤ 0.75 * j2 * 2 :=
      mul_le_mul_of_nonneg_left hshape (by norm_num [j2])
    _ ≤ 0.001625 * (0.9999 * 0.99999999) := by norm_num [j2]
    _ ≤ 0.001625 * (√0.99999999 * 0.99999999) := by gcongr

/-- What the flattening has to do with the mean motion. -/
theorem exists_correction (hecco : p.ecco = 0.0001) (hak : 0.999 ≤ (xke / p.noKozai) ^ x2o3) :
    ∃ del, (p.initl epoch).no = p.noKozai / (1 + del) ∧
      |del| * ((xke / p.noKozai) ^ x2o3) ^ 2 ≤ 0.00164 := by
  have hone : (1.0 : ℝ) = 1 := by norm_num
  refine ⟨_, ?_, correction_le hak (p.abs_d1_le hecco) rfl rfl⟩
  rw [← hone]
  rfl

end Propagator

/-! ## Kepler's third law -/

/-- The semi-major axis that belongs to an altitude, in radii of the Earth. -/
def axis (altitudeKm : ℝ) : ℝ := (earthRadiusKm + altitudeKm) / earthRadiusKm

/-- The time that a turn takes on an axis, where it is one on the surface of the Earth. -/
def turnTime (b : ℝ) : ℝ := √(b * b * b)

theorem turnTime_rpow {b : ℝ} (hb : 0 ≤ b) : turnTime b ^ x2o3 = b := by
  have hcube : b * b * b = b ^ (3 : ℝ) := by
    rw [show (3 : ℝ) = (3 : ℕ) by norm_num, Real.rpow_natCast]
    ring
  have hexponent : (3 : ℝ) * (1 / 2) * x2o3 = 1 := by norm_num [x2o3]
  rw [turnTime, Real.sqrt_eq_rpow, hcube, ← Real.rpow_mul hb, ← Real.rpow_mul hb, hexponent,
    Real.rpow_one]

theorem axis_mem {altitudeKm : ℝ} (h : 0 ≤ altitudeKm ∧ altitudeKm ≤ 5000) :
    axis altitudeKm ∈ Set.Icc 1 1.784 := by
  obtain ⟨hnonneg, hle⟩ := h
  unfold axis earthRadiusKm
  constructor
  · rw [le_div_iff₀ (by norm_num)]
    linarith
  · rw [div_le_iff₀ (by norm_num)]
    linarith

theorem turnTime_mem {b : ℝ} (hb : b ∈ Set.Icc 1 1.784) : turnTime b ∈ Set.Icc 1 2.4 := by
  obtain ⟨hlow, hhigh⟩ := hb
  have hsquare : 1 ≤ b * b := by nlinarith
  constructor
  · apply Real.le_sqrt_of_sq_le
    nlinarith
  · apply Real.sqrt_le_iff.mpr
    refine ⟨by norm_num, ?_⟩
    have hsquare' : b * b ≤ 1.784 * 1.784 := mul_le_mul hhigh hhigh (by linarith) (by norm_num)
    have hcube : b * b * b ≤ 1.784 * 1.784 * 1.784 :=
      mul_le_mul hsquare' hhigh (by linarith) (by norm_num)
    norm_num at hcube ⊢
    linarith

/-- The law has the constant that the propagator uses. -/
theorem third_law {altitudeKm : ℝ} (h : 0 ≤ altitudeKm) :
    |meanMotionForAltitude altitudeKm / (1440.0 / twoPi) * turnTime (axis altitudeKm) - xke| ≤ 1e-12 := by
  have hradius : 0 < earthRadiusKm := by norm_num [earthRadiusKm]
  have ha : 0 < earthRadiusKm + altitudeKm := by linarith
  have hpi := Real.pi_pos
  have hmu : 0 ≤ muEarth := by norm_num [muEarth]
  have hspeed : meanMotionForAltitude altitudeKm / (1440.0 / twoPi) * turnTime (axis altitudeKm) =
      60 * √(muEarth / earthRadiusKm ^ 3) := by
    have hproduct : √(muEarth / ((earthRadiusKm + altitudeKm) * (earthRadiusKm + altitudeKm) *
        (earthRadiusKm + altitudeKm))) * turnTime (axis altitudeKm) =
          √(muEarth / earthRadiusKm ^ 3) := by
      rw [turnTime, ← Real.sqrt_mul (by positivity), axis]
      congr 1
      field_simp
    rw [← hproduct, meanMotionForAltitude, twoPi]
    field_simp
    norm_num
    ring
  have hlow : (xke - 1e-12) / 60 ≤ √(muEarth / earthRadiusKm ^ 3) := by
    apply Real.le_sqrt_of_sq_le
    norm_num [xke, muEarth, earthRadiusKm]
  have hhigh : √(muEarth / earthRadiusKm ^ 3) ≤ (xke + 1e-12) / 60 := by
    apply Real.sqrt_le_iff.mpr
    norm_num [xke, muEarth, earthRadiusKm]
  rw [hspeed, abs_le]
  constructor
  · linarith
  · linarith

/-- A mean motion close to the one of an altitude. -/
def Orbits (n altitudeKm : ℝ) : Prop :=
  (0 ≤ altitudeKm ∧ altitudeKm ≤ 5000) ∧ |n - meanMotionForAltitude altitudeKm| ≤ 1e-6

section Orbits

variable {n altitudeKm : ℝ}

theorem Orbits.third_law (h : Orbits n altitudeKm) :
    |n / (1440.0 / twoPi) * turnTime (axis altitudeKm) - xke| ≤ 2e-8 := by
  obtain ⟨haltitude, hn⟩ := h
  obtain ⟨-, hturn⟩ := turnTime_mem (axis_mem haltitude)
  have hnonneg : 0 ≤ turnTime (axis altitudeKm) := Real.sqrt_nonneg _
  have hscale : twoPi / 1440 * turnTime (axis altitudeKm) ≤ 0.0044 * 2.4 := by
    have hpi := Real.pi_lt_d2
    apply mul_le_mul _ hturn hnonneg (by norm_num)
    rw [twoPi_eq]
    linarith
  have htwoPi : 0 ≤ twoPi / 1440 * turnTime (axis altitudeKm) := by
    have hpi := Real.pi_pos
    rw [twoPi_eq]
    positivity
  have hdiff : n / (1440.0 / twoPi) * turnTime (axis altitudeKm) -
      meanMotionForAltitude altitudeKm / (1440.0 / twoPi) * turnTime (axis altitudeKm) =
        (n - meanMotionForAltitude altitudeKm) * (twoPi / 1440 * turnTime (axis altitudeKm)) := by
    rw [div_div_eq_mul_div, div_div_eq_mul_div]
    norm_num
    ring
  calc
    _ ≤ |n / (1440.0 / twoPi) * turnTime (axis altitudeKm) -
          meanMotionForAltitude altitudeKm / (1440.0 / twoPi) * turnTime (axis altitudeKm)| +
        |meanMotionForAltitude altitudeKm / (1440.0 / twoPi) * turnTime (axis altitudeKm) - xke| :=
      abs_sub_le _ _ _
    _ ≤ 1e-6 * (0.0044 * 2.4) + 1e-12 := by
      apply add_le_add _ (Sgp4.third_law haltitude.1)
      rw [hdiff, abs_mul, abs_of_nonneg htwoPi]
      exact mul_le_mul hn hscale htwoPi (by norm_num)
    _ ≤ 2e-8 := by norm_num

/-- The axis that a mean motion belongs to. -/
theorem exists_ratio {no b : ℝ} (hb : b ∈ Set.Icc 1 1.784) (hno : |no * turnTime b - xke| ≤ 2e-8) :
    0.0309 ≤ no ∧ ∃ q, |q - 1| ≤ 3e-7 ∧ xke / no = q * turnTime b := by
  obtain ⟨hone, hturn⟩ := turnTime_mem hb
  have hpos : 0 < turnTime b := by linarith
  have hbelow : 0.07436 ≤ no * turnTime b := by
    have hlow := (abs_le.mp hno).1
    norm_num [xke] at hlow ⊢
    linarith
  have hnopos : 0 < no := by
    by_contra hneg
    nlinarith
  refine ⟨by nlinarith, xke / (no * turnTime b), ?_, by field_simp⟩
  have hproduct : 0 < no * turnTime b := by positivity
  rw [div_sub_one hproduct.ne', abs_div, abs_of_pos hproduct, div_le_iff₀ hproduct, abs_sub_comm]
  norm_num at hno hbelow ⊢
  linarith

theorem abs_ratio_rpow_sub_le {q b : ℝ} (hq : 0 ≤ q) (hb : 0 ≤ b) :
    |(q * turnTime b) ^ x2o3 - b| ≤ |q - 1| * b := by
  have hexponent : 0 ≤ x2o3 ∧ x2o3 ≤ 1 := by norm_num [x2o3]
  have hturn : 0 ≤ turnTime b := Real.sqrt_nonneg _
  rw [Real.mul_rpow hq hturn, turnTime_rpow hb]
  calc
    |q ^ x2o3 * b - b| = |q ^ x2o3 - 1| * b := by
      rw [← sub_one_mul, abs_mul, abs_of_nonneg hb]
    _ ≤ |q - 1| * b :=
      mul_le_mul_of_nonneg_right (abs_rpow_sub_one_le hq hexponent.1 hexponent.2) hb

/-- The correction in terms of the axis itself. -/
theorem correction_mul_le {del a b : ℝ} (hb : 1 ≤ b) (ha : (1 - 3e-7) * b ≤ a)
    (hdel : |del| * a ^ 2 ≤ 0.00164) : |del| * b ≤ 0.00165 := by
  have hbpos : 0 ≤ b := zero_le_one.trans hb
  have hsquare : ((1 - 3e-7) * b) ^ 2 ≤ a ^ 2 := by
    apply pow_le_pow_left₀ _ ha
    apply mul_nonneg _ hbpos
    norm_num
  have hscaled := mul_le_mul_of_nonneg_left hsquare (abs_nonneg del)
  have hdelb : |del| * b ^ 2 ≤ 0.00165 := by
    rw [mul_pow] at hscaled
    nlinarith [abs_nonneg del, sq_nonneg b]
  have hb2 : b ≤ b ^ 2 := by nlinarith
  exact (mul_le_mul_of_nonneg_left hb2 (abs_nonneg del)).trans hdelb

/-- Two errors, one after the other. -/
theorem abs_mul_one_add_sub_one_le {q del : ℝ} (hq : |q - 1| ≤ 3e-7) (hdel : |del| ≤ 0.00165) :
    |q * (1 + del) - 1| ≤ 3e-7 * 1.00165 + |del| := by
  obtain ⟨hlow, hhigh⟩ := abs_le.mp hdel
  have hpos : 0 ≤ 1 + del := by linarith
  calc
    |q * (1 + del) - 1| = |(q - 1) * (1 + del) + del| := by ring_nf
    _ ≤ |q - 1| * |1 + del| + |del| := (abs_add_le _ _).trans_eq (by rw [abs_mul])
    _ ≤ 3e-7 * 1.00165 + |del| := by
      apply add_le_add_left
      rw [abs_of_nonneg hpos]
      exact mul_le_mul hq (by linarith) hpos (by norm_num)

/-- The axis of the initialisation is that of the altitude but for the flattening. -/
theorem Orbits.axis (h : Orbits n altitudeKm) {p : Propagator} (hecco : p.ecco = 0.0001)
    (hnoKozai : p.noKozai = n / (1440.0 / twoPi)) (epoch : ℝ) :
    0.03 ≤ (p.initl epoch).no ∧
      |(xke / (p.initl epoch).no) ^ x2o3 - Sgp4.axis altitudeKm| ≤ 0.00166 := by
  have hb := axis_mem h.1
  have hlaw := h.third_law
  rw [← hnoKozai] at hlaw
  obtain ⟨hno, q, hq, hratio⟩ := exists_ratio hb hlaw
  generalize Sgp4.axis altitudeKm = b at hb hratio ⊢
  obtain ⟨hlow, hhigh⟩ := hb
  obtain ⟨hqlow, hqhigh⟩ := abs_le.mp hq
  have hqpos : 0 ≤ q := by linarith
  have hbpos : 0 ≤ b := by linarith
  have hak : (1 - 3e-7) * b ≤ (xke / p.noKozai) ^ x2o3 := by
    have hclose := abs_le.mp (abs_ratio_rpow_sub_le hqpos hbpos)
    have hscaled : |q - 1| * b ≤ 3e-7 * b := mul_le_mul_of_nonneg_right hq hbpos
    rw [hratio]
    linarith [hclose.1]
  obtain ⟨del, hno', hdel⟩ := p.exists_correction epoch hecco (by linarith)
  have hdelb : |del| * b ≤ 0.00165 := correction_mul_le hlow hak hdel
  have hdelsmall : |del| ≤ 0.00165 := (le_mul_of_one_le_right (abs_nonneg del) hlow).trans hdelb
  obtain ⟨hdlow, hdhigh⟩ := abs_le.mp hdelsmall
  have hdelpos : 0 < 1 + del := by linarith
  have hratio' : xke / (p.initl epoch).no = q * (1 + del) * turnTime b := by
    rw [hno', div_div_eq_mul_div, mul_div_right_comm, hratio]
    ring
  constructor
  · rw [hno', le_div_iff₀ hdelpos]
    linarith
  · rw [hratio']
    apply (abs_ratio_rpow_sub_le (by positivity) hbpos).trans
    calc
      |q * (1 + del) - 1| * b ≤ (3e-7 * 1.00165 + |del|) * b :=
        mul_le_mul_of_nonneg_right (abs_mul_one_add_sub_one_le hq hdelsmall) hbpos
      _ ≤ 0.00166 := by
        rw [add_mul]
        norm_num at hhigh hdelb ⊢
        linarith

end Orbits

/-! ## Flight at an altitude -/

namespace Propagator

variable {p : Propagator} {tle : Tle ℚ}

/-- The distance is that of the axis, whatever the time. -/
theorem Near.exists_propagate {q : Propagator} {epoch : ℝ} (h : p.Near tle (q.initl epoch))
    (hecco : p.ecco = 0.0001) (hnm : 0 < p.noKozai)
    (ham : (xke / p.noKozai) ^ x2o3 ∈ Set.Icc 0.998 1.8) (fuel : ℕ) (tsince : ℝ) :
    ∃ v, p.propagate fuel tsince = .ok v ∧
      |v.radiusKm - earthRadiusKm * (xke / p.noKozai) ^ x2o3| ≤ earthRadiusKm * 0.00327 := by
  have hrange : 1.0e-6 ≤ p.ecco ∧ p.ecco < 1.0 := by
    rw [hecco]
    norm_num
  obtain ⟨o, angle, ho, haxis, haxnl, haynl, hcon41, hx1mth2⟩ :=
    h.toDragless.exists_conicAt hnm hrange fuel tsince
  rw [← haxis] at ham ⊢
  obtain ⟨hlow, hhigh⟩ := ham
  have hpos : 0 < o.am := by linarith
  have hk : o.am * |1.0 / (o.am * (1.0 - p.ecco * p.ecco)) * p.aycof| ≤ 0.00118 := by
    have haycof : |p.aycof| ≤ 0.001173 := h.aycof ▸ q.abs_aycof_le epoch
    have hcancel : o.am * |1.0 / (o.am * (1.0 - p.ecco * p.ecco)) * p.aycof| =
        |p.aycof| / 0.99999999 := by
      rw [abs_mul, abs_div, abs_mul, abs_of_pos hpos, hecco]
      norm_num
      field_simp
    rw [hcancel, div_le_iff₀ (by norm_num)]
    linarith
  have hel2 := Conic.sqrt_el2_le (by rw [hecco]; norm_num) haxnl haynl
  generalize |1.0 / (o.am * (1.0 - p.ecco * p.ecco)) * p.aycof| = k at hk hel2
  rw [hecco] at hel2
  have hround : o.Round :=
    { am := hlow
      el2 := by nlinarith
      con41 := by
        rw [hcon41, h.con41]
        exact q.abs_con41_le epoch
      x1mth2 := by
        rw [hx1mth2, h.x1mth2]
        exact q.abs_x1mth2_le epoch }
  have hoffset : o.am * √o.el2 ≤ 0.00136 := by
    have hscaled := mul_le_mul_of_nonneg_left hel2 hpos.le
    norm_num at hscaled hk hhigh ⊢
    linarith
  obtain ⟨v, hv, hle⟩ := hround.exists_state hoffset
  refine ⟨v, ?_, ?_⟩
  · rw [propagate, ho, Outcome.ok_bind, hv]
  · norm_num at hle ⊢
    exact hle

/-- An element set without drag for an altitude. -/
theorem exists_fromTle {altitudeKm : ℝ} (hbstar : tle.bstar = 0)
    (hecco : tle.eccentricity = 1 / 10000) (h : Orbits tle.meanMotion altitudeKm) :
    ∃ p, fromTle tle 0 = .ok p ∧ ∀ tsince, ∃ v, p.propagate 0 tsince = .ok v ∧
      |v.radiusKm - (earthRadiusKm + altitudeKm)| ≤ 32 := by
  have hecco' : ((tle.eccentricity : ℚ) : ℝ) = 0.0001 := by
    rw [hecco]
    norm_num
  obtain ⟨hno, haxis⟩ := h.axis (p := blank tle) hecco' rfl (initlEpoch tle)
  obtain ⟨hblow, hbhigh⟩ := axis_mem h.1
  have hpos : 0 < ((blank tle).initl (initlEpoch tle)).no := by linarith
  have hperiod : twoPi / ((blank tle).initl (initlEpoch tle)).no < 225.0 := by
    have hpi := Real.pi_lt_d2
    rw [div_lt_iff₀ hpos, twoPi_eq]
    linarith
  have hnear := near_sgp4init hbstar rfl hpos.le hperiod
  have hnoKozai := hnear.noKozai
  rw [← hnoKozai] at hno haxis hpos
  obtain ⟨hlow, hhigh⟩ := abs_le.mp haxis
  have hpropagate := hnear.exists_propagate (hnear.ecco.trans hecco') hpos
    ⟨by linarith, by linarith⟩ 0
  refine ⟨sgp4init tle, ?_, ?_⟩
  · obtain ⟨v, hv, -⟩ := hpropagate 0.0
    rw [fromTle, hv, Outcome.ok_bind]
  · intro tsince
    obtain ⟨v, hv, hradius⟩ := hpropagate tsince
    refine ⟨v, hv, ?_⟩
    have hscale : earthRadiusKm + altitudeKm = earthRadiusKm * axis altitudeKm := by
      rw [axis, mul_div_cancel₀]
      norm_num [earthRadiusKm]
    have hshift : |earthRadiusKm * (xke / (sgp4init tle).noKozai) ^ x2o3 -
        earthRadiusKm * axis altitudeKm| ≤ earthRadiusKm * 0.00166 := by
      have hnonneg : 0 ≤ earthRadiusKm := by norm_num [earthRadiusKm]
      rw [← mul_sub, abs_mul, abs_of_nonneg hnonneg]
      exact mul_le_mul_of_nonneg_left haxis hnonneg
    rw [hscale]
    calc
      _ ≤ |v.radiusKm - earthRadiusKm * (xke / (sgp4init tle).noKozai) ^ x2o3| +
          |earthRadiusKm * (xke / (sgp4init tle).noKozai) ^ x2o3 - earthRadiusKm * axis altitudeKm| :=
        abs_sub_le _ _ _
      _ ≤ earthRadiusKm * 0.00327 + earthRadiusKm * 0.00166 := add_le_add hradius hshift
      _ ≤ 32 := by norm_num [earthRadiusKm]

/-- Every satellite of a synthetic constellation starts, and at every time it is within 32 kilometers of
the altitude that was asked for, whatever the inclination and the phasing. -/
theorem generate_flies {motionForAltitude : ℚ → ℚ} {spec : ConstellationSpec} {tles : List (Tle ℚ)}
    (hgenerate : spec.generate motionForAltitude = some tles) (hderived : spec.meanMotion ≤ 0)
    -- Lower down the coefficients of the atmosphere come to a division by zero.
    (haltitude : 100 ≤ spec.altitudeKm ∧ spec.altitudeKm ≤ 5000)
    (hrounded : |(motionForAltitude spec.altitudeKm : ℝ) - meanMotionForAltitude spec.altitudeKm| ≤
      1e-6) :
    ∀ tle ∈ tles, ∃ p, fromTle tle 0 = .ok p ∧ ∀ tsince, ∃ v, p.propagate 0 tsince = .ok v ∧
      |v.radiusKm - (earthRadiusKm + spec.altitudeKm)| ≤ 32 := by
  intro tle htle
  have hplanes : spec.planes ≠ 0 := by
    intro hnone
    rw [ConstellationSpec.generate, if_pos hnone] at hgenerate
    cases hgenerate
  rw [spec.generate_eq motionForAltitude hplanes, Option.some.injEq] at hgenerate
  rw [← hgenerate] at htle
  obtain ⟨i, -, rfl⟩ := List.mem_map.mp htle
  have hmotion : (spec.satellite motionForAltitude i).meanMotion = motionForAltitude spec.altitudeKm :=
    if_neg (not_lt.mpr hderived)
  have hnonneg : 0 ≤ spec.altitudeKm := by linarith only [haltitude.1]
  apply exists_fromTle rfl rfl
  rw [hmotion]
  exact ⟨⟨by exact_mod_cast hnonneg, by exact_mod_cast haltitude.2⟩, hrounded⟩

/-- The sixty satellites at 550 kilometers. -/
theorem generate_flies_default : ∃ tles,
    ConstellationSpec.default.generate (fun _ ↦ 15054913217 / 10 ^ 9) = some tles ∧
      tles.length = 60 ∧ ∀ tle ∈ tles, ∃ p, fromTle tle 0 = .ok p ∧ ∀ tsince, ∃ v,
        p.propagate 0 tsince = .ok v ∧ |v.radiusKm - (earthRadiusKm + 550)| ≤ 32 := by
  have hgenerate := ConstellationSpec.default.generate_eq (fun _ ↦ 15054913217 / 10 ^ 9) (by decide)
  have haltitude : ((ConstellationSpec.default.altitudeKm : ℚ) : ℝ) = 550 := by
    norm_num [ConstellationSpec.default]
  have hrounded : |((15054913217 / 10 ^ 9 : ℚ) : ℝ) -
      meanMotionForAltitude (ConstellationSpec.default.altitudeKm : ℚ)| ≤ 1e-6 := by
    have hlow : 0.001094824184 ≤ √(muEarth / ((earthRadiusKm + 550) * (earthRadiusKm + 550) *
        (earthRadiusKm + 550))) := by
      apply Real.le_sqrt_of_sq_le
      norm_num [muEarth, earthRadiusKm]
    have hhigh : √(muEarth / ((earthRadiusKm + 550) * (earthRadiusKm + 550) *
        (earthRadiusKm + 550))) ≤ 0.001094824185 := by
      apply Real.sqrt_le_iff.mpr
      norm_num [muEarth, earthRadiusKm]
    have hpilow := Real.pi_gt_d20
    have hpihigh := Real.pi_lt_d20
    have hpi : 0 < 2.0 * π := by positivity
    rw [haltitude, meanMotionForAltitude, abs_le]
    generalize √(muEarth / _) = speed at hlow hhigh ⊢
    push_cast
    constructor
    · rw [neg_le_sub_iff_le_add, div_le_iff₀ hpi]
      norm_num at hpilow hlow hhigh ⊢
      linarith
    · rw [sub_le_iff_le_add, ← sub_le_iff_le_add', le_div_iff₀ hpi]
      norm_num at hpihigh hlow hhigh ⊢
      linarith
  refine ⟨_, hgenerate, by simp [ConstellationSpec.default], ?_⟩
  have hflies := generate_flies hgenerate (by decide) (by decide) hrounded
  rw [haltitude] at hflies
  exact hflies

end Propagator

end

end Zenith.Orbit.Sgp4
