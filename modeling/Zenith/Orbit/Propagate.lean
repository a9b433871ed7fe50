import Zenith.Orbit.Kepler
import Zenith.Orbit.Resonance
import Zenith.Orbit.Tle
import Zenith.Rust.Outcome

/-!
# Propagation

`propagate` takes the elements of a satellite to a time in four stages: secular rates and drag, the
periodics of the Moon and the Sun, Kepler's equation, and the periodics of the flattened Earth. The last
stage turns the orbit into a position and a velocity: both lie in the plane of the orbit, and the
distance is that on the ellipse but for a correction of the order of the flattening. Doubles are real
numbers: nothing rounds, overflows or is not a number.
-/

namespace Zenith.Orbit.Sgp4

open Rust Real

noncomputable section

/-! ## Constants -/

/-- `EARTH_RADIUS_KM`. -/
def earthRadiusKm : ℝ := 6378.137

/-- `XKE`. -/
def xke : ℝ := 7.43668811206102e-02

/-- `J2`. -/
def j2 : ℝ := 1.082616e-3

/-- `J3OJ2`. -/
def j3oj2 : ℝ := -2.53881e-6 / j2

/-- `X2O3`. -/
def x2o3 : ℝ := 2.0 / 3.0

structure StateVector where
  positionKm : Fin 3 → ℝ
  velocityKms : Fin 3 → ℝ

/-- `radius_km`. -/
def StateVector.radiusKm (s : StateVector) : ℝ :=
  √(s.positionKm 0 * s.positionKm 0 + s.positionKm 1 * s.positionKm 1 +
    s.positionKm 2 * s.positionKm 2)

/-- `speed_kms`. -/
def StateVector.speedKms (s : StateVector) : ℝ :=
  √(s.velocityKms 0 * s.velocityKms 0 + s.velocityKms 1 * s.velocityKms 1 +
    s.velocityKms 2 * s.velocityKms 2)

def xlcofAycof (sini cosi : ℝ) : ℝ × ℝ :=
  let xlcof := if |cosi + 1.0| > 1.5e-12 then -0.25 * j3oj2 * sini * (3.0 + 5.0 * cosi) / (1.0 + cosi)
    else -0.25 * j3oj2 * sini * (3.0 + 5.0 * cosi) / 1.5e-12
  let aycof := -0.5 * j3oj2 * sini
  (xlcof, aycof)

/-! ## Secular rates -/

/-- What the first stage of `propagate` leaves. -/
structure Secular where
  (argpm nodem mm tempa tempe templ : ℝ)

/-- The elements after the periodics of the Moon and the Sun, and the coefficients that go with their
inclination. -/
structure LongPeriod where
  (ep xincp nodep argpp mp sinip cosip xlcof aycof : ℝ)

/-- The ellipse and the place on it at the end of the loop for Kepler's equation: what the last stage
reads. -/
structure Conic where
  (am nm axnl aynl eo1 nodep xincp sinip cosip con41 x1mth2 x7thm1 : ℝ)

namespace Propagator

variable (p : Propagator)

/-- Gravity and atmospheric drag. -/
def drag (tsince : ℝ) : Secular :=
  let xmdf := p.mo + p.mdot * tsince
  let argpdf := p.argpo + p.argpdot * tsince
  let nodedf := p.nodeo + p.nodedot * tsince
  let t2 := tsince * tsince
  let nodem := nodedf + p.nodecf * t2
  let tempa := 1.0 - p.cc1 * tsince
  let tempe := p.bstar * p.cc4 * tsince
  let templ := p.t2cof * t2
  if p.isimp ≠ 1 then
    let delomg := p.omgcof * tsince
    let delm := p.xmcof * ((1.0 + p.eta * cos xmdf) ^ 3 - p.delmo)
    let temp := delomg + delm
    let mm := xmdf + temp
    let argpm := argpdf - temp
    let t3 := t2 * tsince
    let t4 := t3 * tsince
    { argpm, nodem, mm, tempa := tempa - p.d2 * t2 - p.d3 * t3 - p.d4 * t4
      tempe := tempe + p.bstar * p.cc5 * (sin mm - p.sinmao)
      templ := templ + p.t3cof * t3 + t4 * (p.t4cof + tsince * p.t5cof) }
  else { argpm := argpdf, nodem, mm := xmdf, tempa, tempe, templ }

/-- The call of `dspace`. -/
def resonances (fuel : ℕ) (tsince : ℝ) (s : Secular) : Outcome OrbitError MeanElements :=
  let e : MeanElements :=
    { em := p.ecco, argpm := s.argpm, inclm := p.inclo, nodem := s.nodem, nm := p.noKozai, mm := s.mm }
  if p.method = 'd' then
    match p.dspace fuel tsince e with
    | some (_, e) => .ok e
    | none => .outOfFuel
  else .ok e

/-- The call of `dpper` and what follows it. -/
def longPeriod (tsince : ℝ) (e : MeanElements) : LongPeriod :=
  if p.method = 'd' then
    let d := p.dpper tsince
      { ep := e.em, inclp := e.inclm, nodep := e.nodem, argpp := e.argpm, mp := e.mm }
    let xincp := if d.inclp < 0.0 then -d.inclp else d.inclp
    let nodep := if d.inclp < 0.0 then d.nodep + π else d.nodep
    let argpp := if d.inclp < 0.0 then d.argpp - π else d.argpp
    let ep := if d.ep < 1.0e-6 then 1.0e-6 else if d.ep ≥ 1.0 then 1.0 - 1.0e-6 else d.ep
    let sinip := sin xincp
    let cosip := cos xincp
    let (xlcof, aycof) := xlcofAycof sinip cosip
    { ep, xincp, nodep, argpp, mp := d.mp, sinip, cosip, xlcof, aycof }
  else
    { ep := e.em, xincp := e.inclm, nodep := e.nodem, argpp := e.argpm, mp := e.mm
      sinip := sin e.inclm, cosip := cos e.inclm, xlcof := p.xlcof, aycof := p.aycof }

/-- Kepler's equation, for elements whose angles are reduced. -/
def solve (tsince am : ℝ) (e : MeanElements) : Outcome OrbitError Conic :=
  let l := p.longPeriod tsince e
  let axnl := l.ep * cos l.argpp
  let temp := 1.0 / (am * (1.0 - l.ep * l.ep))
  let aynl := l.ep * sin l.argpp + temp * l.aycof
  let xl := l.mp + l.argpp + l.nodep + temp * l.xlcof * axnl
  let u := remEuclidReal (xl - l.nodep) twoPi
  match kepler axnl aynl u with
  | none => .outOfFuel
  | some k =>
    let cosisq := l.cosip * l.cosip
    .ok
      { am, nm := e.nm, axnl, aynl, eo1 := k.eo1, nodep := l.nodep, xincp := l.xincp
        sinip := l.sinip, cosip := l.cosip
        con41 := if p.method = 'd' then 3.0 * cosisq - 1.0 else p.con41
        x1mth2 := if p.method = 'd' then 1.0 - cosisq else p.x1mth2
        x7thm1 := if p.method = 'd' then 7.0 * cosisq - 1.0 else p.x7thm1 }

/-- The first three stages. -/
def conicAt (fuel : ℕ) (tsince : ℝ) : Outcome OrbitError Conic := do
  let s := p.drag tsince
  let e ← p.resonances fuel tsince s
  if e.nm ≤ 0.0 then
    .error (.timeOutOfRange "mean motion <= 0")
  else
    let am := (xke / e.nm) ^ x2o3 * s.tempa * s.tempa
    let nm := xke / am ^ (1.5 : ℝ)
    let em := e.em - s.tempe
    if ¬(-0.001 ≤ em ∧ em < 1.0) then
      .error (.timeOutOfRange "eccentricity out of range")
    else
      let em := if em < 1.0e-6 then 1.0e-6 else em
      let mm := e.mm + p.noKozai * s.templ
      let xlm := mm + e.argpm + e.nodem
      let nodem := remEuclidReal e.nodem twoPi
      let argpm := remEuclidReal e.argpm twoPi
      let xlm := remEuclidReal xlm twoPi
      let mm := remEuclidReal (xlm - argpm - nodem) twoPi
      p.solve tsince am { em, argpm, inclm := e.inclm, nodem, nm, mm }

end Propagator

/-! ## Short periods -/

namespace Conic

variable (o : Conic)

def ecose : ℝ := o.axnl * cos o.eo1 + o.aynl * sin o.eo1

def esine : ℝ := o.axnl * sin o.eo1 - o.aynl * cos o.eo1

def el2 : ℝ := o.axnl * o.axnl + o.aynl * o.aynl

def pl : ℝ := o.am * (1.0 - o.el2)

def rl : ℝ := o.am * (1.0 - o.ecose)

def rdotl : ℝ := √o.am * o.esine / o.rl

def rvdotl : ℝ := √o.pl / o.rl

def betal : ℝ := √(1.0 - o.el2)

def sinu : ℝ :=
  let temp := o.esine / (1.0 + o.betal)
  o.am / o.rl * (sin o.eo1 - o.aynl - o.axnl * temp)

def cosu : ℝ :=
  let temp := o.esine / (1.0 + o.betal)
  o.am / o.rl * (cos o.eo1 - o.axnl + o.aynl * temp)

def sin2u : ℝ := (o.cosu + o.cosu) * o.sinu

def cos2u : ℝ := 1.0 - 2.0 * o.sinu * o.sinu

def temp1 : ℝ := 0.5 * j2 * (1.0 / o.pl)

def temp2 : ℝ := o.temp1 * (1.0 / o.pl)

def mrt : ℝ :=
  o.rl * (1.0 - 1.5 * o.temp2 * o.betal * o.con41) + 0.5 * o.temp1 * o.x1mth2 * o.cos2u

def su : ℝ := atan2 o.sinu o.cosu - 0.25 * o.temp2 * o.x7thm1 * o.sin2u

def xnode : ℝ := o.nodep + 1.5 * o.temp2 * o.cosip * o.sin2u

def xinc : ℝ := o.xincp + 1.5 * o.temp2 * o.cosip * o.sinip * o.cos2u

def mvt : ℝ := o.rdotl - o.nm * o.temp1 * o.x1mth2 * o.sin2u / xke

def rvdot : ℝ := o.rvdotl + o.nm * o.temp1 * (o.x1mth2 * o.cos2u + 1.5 * o.con41) / xke

/-- The unit vectors `u`, towards the satellite, and `v`, ahead of it. -/
def ux : Fin 3 → ℝ :=
  let sinsu := sin o.su
  let cossu := cos o.su
  let snod := sin o.xnode
  let cnod := cos o.xnode
  let xmx := -snod * cos o.xinc
  let xmy := cnod * cos o.xinc
  ![xmx * sinsu + cnod * cossu, xmy * sinsu + snod * cossu, sin o.xinc * sinsu]

def vx : Fin 3 → ℝ :=
  let sinsu := sin o.su
  let cossu := cos o.su
  let snod := sin o.xnode
  let cnod := cos o.xnode
  let xmx := -snod * cos o.xinc
  let xmy := cnod * cos o.xinc
  ![xmx * cossu - cnod * sinsu, xmy * cossu - snod * sinsu, sin o.xinc * cossu]

def vkmpersec : ℝ := earthRadiusKm * xke / 60.0

/-- The last stage of `propagate`. -/
def state : Outcome OrbitError StateVector :=
  if o.pl < 0.0 then .error (.timeOutOfRange "semi-latus rectum < 0")
  else
    .ok
      { positionKm := fun i ↦ o.mrt * o.ux i * earthRadiusKm
        velocityKms := fun i ↦ (o.mvt * o.ux i + o.rvdot * o.vx i) * vkmpersec }

end Conic

/-- `propagate`, on a copy of the propagator: the step that `dspace` keeps is dropped. -/
def Propagator.propagate (p : Propagator) (fuel : ℕ) (tsince : ℝ) : Outcome OrbitError StateVector := do
  let o ← p.conicAt fuel tsince
  o.state

/-! ## The frame of the orbit -/

namespace Conic

variable (o : Conic)

/-- The unit vector across the plane of the orbit. -/
def normal : Fin 3 → ℝ := ![sin o.xnode * sin o.xinc, -cos o.xnode * sin o.xinc, cos o.xinc]

theorem dotProduct_ux_ux : dotProduct o.ux o.ux = 1 := by
  have hsu := sin_sq_add_cos_sq o.su
  have hnode := sin_sq_add_cos_sq o.xnode
  have hinc := sin_sq_add_cos_sq o.xinc
  simp only [ux, dotProduct, Fin.sum_univ_three, Matrix.cons_val]
  linear_combination hsu + (cos o.su ^ 2 + cos o.xinc ^ 2 * sin o.su ^ 2) * hnode +
    sin o.su ^ 2 * hinc

theorem dotProduct_vx_vx : dotProduct o.vx o.vx = 1 := by
  have hsu := sin_sq_add_cos_sq o.su
  have hnode := sin_sq_add_cos_sq o.xnode
  have hinc := sin_sq_add_cos_sq o.xinc
  simp only [vx, dotProduct, Fin.sum_univ_three, Matrix.cons_val]
  linear_combination hsu + (sin o.su ^ 2 + cos o.xinc ^ 2 * cos o.su ^ 2) * hnode +
    cos o.su ^ 2 * hinc

theorem dotProduct_ux_vx : dotProduct o.ux o.vx = 0 := by
  have hnode := sin_sq_add_cos_sq o.xnode
  have hinc := sin_sq_add_cos_sq o.xinc
  simp only [ux, vx, dotProduct, Fin.sum_univ_three, Matrix.cons_val]
  linear_combination (cos o.xinc ^ 2 - 1) * sin o.su * cos o.su * hnode +
    sin o.su * cos o.su * hinc

theorem cross_ux_vx : crossProduct o.ux o.vx = o.normal := by
  have hsu := sin_sq_add_cos_sq o.su
  have hnode := sin_sq_add_cos_sq o.xnode
  rw [cross_apply]
  ext i
  fin_cases i
  · simp only [ux, vx, normal, Matrix.cons_val, Fin.zero_eta]
    linear_combination sin o.xnode * sin o.xinc * hsu
  · simp only [ux, vx, normal, Matrix.cons_val, Fin.mk_one]
    linear_combination -cos o.xnode * sin o.xinc * hsu
  · simp only [ux, vx, normal, Matrix.cons_val, Fin.reduceFinMk]
    linear_combination cos o.xinc * (sin o.su ^ 2 + cos o.su ^ 2) * hnode + cos o.xinc * hsu

theorem dotProduct_ux_normal : dotProduct o.ux o.normal = 0 := by
  rw [← cross_ux_vx, dot_self_cross]

theorem dotProduct_vx_normal : dotProduct o.vx o.normal = 0 := by
  rw [← cross_ux_vx, dot_cross_self]

/-! ## The ellipse -/

theorem ecose_sq_add_esine_sq : o.ecose ^ 2 + o.esine ^ 2 = o.el2 := by
  have hcircle := sq_sum_turned o.axnl o.aynl o.eo1
  unfold ecose esine el2
  linear_combination hcircle

theorem el2_nonneg : 0 ≤ o.el2 := by
  rw [← ecose_sq_add_esine_sq]
  positivity

theorem abs_ecose_le : |o.ecose| ≤ √o.el2 := by
  apply Real.abs_le_sqrt
  nlinarith [o.ecose_sq_add_esine_sq, sq_nonneg o.esine]

variable {o}

theorem ecose_lt_one (h : o.el2 < 1) : o.ecose < 1 := by
  have hroot : √o.el2 < 1 := by
    rw [Real.sqrt_lt' one_pos]
    linarith
  exact (le_abs_self _).trans_lt (o.abs_ecose_le.trans_lt hroot)

theorem rl_pos (ham : 0 < o.am) (h : o.el2 < 1) : 0 < o.rl := by
  apply mul_pos ham
  have hlt := ecose_lt_one h
  norm_num
  exact hlt

/-- The distance is between those of the perigee and of the apogee. -/
theorem rl_mem (ham : 0 < o.am) :
    o.am * (1 - √o.el2) ≤ o.rl ∧ o.rl ≤ o.am * (1 + √o.el2) := by
  have hle := abs_le.mp o.abs_ecose_le
  unfold rl
  norm_num
  constructor
  · apply mul_le_mul_of_nonneg_left _ ham.le
    linarith
  · apply mul_le_mul_of_nonneg_left _ ham.le
    linarith

theorem pl_pos (ham : 0 < o.am) (h : o.el2 < 1) : 0 < o.pl := by
  apply mul_pos ham
  norm_num
  exact h

theorem betal_sq (h : o.el2 < 1) : o.betal ^ 2 = 1 - o.el2 := by
  unfold betal
  rw [Real.sq_sqrt]
  · norm_num
  · norm_num
    exact h.le

/-- The argument of latitude is that of a point on the unit circle, whatever the eccentric anomaly. -/
theorem sinu_sq_add_cosu_sq (ham : 0 < o.am) (h : o.el2 < 1) : o.sinu ^ 2 + o.cosu ^ 2 = 1 := by
  have hbetal := betal_sq h
  have hpos : 0 < 1 + o.betal := by
    have hnonneg : 0 ≤ o.betal := Real.sqrt_nonneg _
    linarith
  have hne : 1 - o.ecose ≠ 0 := by
    have hlt := ecose_lt_one h
    linarith
  have hratio : o.am / o.rl = 1 / (1 - o.ecose) := by
    unfold rl
    norm_num
    field_simp
  have htemp : o.esine / (1.0 + o.betal) * (1 + o.betal) = o.esine := by
    norm_num
    exact div_mul_cancel₀ _ hpos.ne'
  have hcircle := o.ecose_sq_add_esine_sq
  have hanomaly := sin_sq_add_cos_sq o.eo1
  unfold sinu cosu
  dsimp only
  rw [hratio, mul_pow, mul_pow, ← mul_add, div_pow, one_pow, one_div, inv_mul_eq_one₀ (pow_ne_zero 2 hne)]
  generalize o.esine / (1.0 + o.betal) = temp at htemp ⊢
  generalize o.betal = betal at hbetal htemp
  unfold ecose esine el2 at *
  linear_combination -hanomaly + hcircle - temp ^ 2 * hbetal +
    (temp * (1 + betal) + (o.axnl * sin o.eo1 - o.aynl * cos o.eo1) - 2 * temp) * htemp

/-- The energy of the unperturbed motion is that of the ellipse. -/
theorem energy (ham : 0 < o.am) (h : o.el2 < 1) :
    o.rdotl ^ 2 + o.rvdotl ^ 2 = 2 / o.rl - 1 / o.am := by
  have hrl := rl_pos ham h
  have hpl := pl_pos ham h
  have hcircle := o.ecose_sq_add_esine_sq
  have hrlam : o.rl = o.am * (1 - o.ecose) := by
    unfold rl
    norm_num
  unfold rdotl rvdotl
  rw [div_pow, div_pow, mul_pow, Real.sq_sqrt ham.le, Real.sq_sqrt hpl.le, ← add_div]
  have hplam : o.pl = o.am * (1 - o.el2) := by
    unfold pl
    norm_num
  rw [hplam, div_sub_div _ _ hrl.ne' ham.ne', div_eq_div_iff (by positivity) (by positivity), hrlam]
  linear_combination o.am ^ 3 * (1 - o.ecose) * hcircle

theorem abs_cos2u_le (ham : 0 < o.am) (h : o.el2 < 1) : |o.cos2u| ≤ 1 := by
  have hcircle := sinu_sq_add_cosu_sq ham h
  have hcos2u : o.cos2u = 1 - 2 * o.sinu ^ 2 := by
    unfold cos2u
    norm_num
    ring
  rw [hcos2u, abs_le]
  constructor
  · nlinarith [sq_nonneg o.cosu]
  · nlinarith [sq_nonneg o.sinu]

variable (o)

/-- What the flattening can add to the distance. -/
def flattening : ℝ :=
  j2 / (2.0 * o.pl) * (1.5 * (o.rl / o.pl) * |o.con41| + 0.5 * |o.x1mth2|)

variable {o}

/-- The corrected distance is that on the ellipse but for the flattening. -/
theorem abs_mrt_sub_rl_le (ham : 0 < o.am) (h : o.el2 < 1) : |o.mrt - o.rl| ≤ o.flattening := by
  have hrl := rl_pos ham h
  have hpl := pl_pos ham h
  have hj2 : 0 < j2 := by norm_num [j2]
  have hbetal : |o.betal| ≤ 1 := by
    rw [betal, abs_of_nonneg (Real.sqrt_nonneg _)]
    apply Real.sqrt_le_one.mpr
    have hnonneg := o.el2_nonneg
    norm_num
    exact hnonneg
  have hcos2u := abs_cos2u_le ham h
  have hcorrection : o.mrt - o.rl = j2 / (2.0 * o.pl) *
      (-(1.5 * (o.rl / o.pl) * o.con41) * o.betal + 0.5 * o.x1mth2 * o.cos2u) := by
    unfold mrt temp2 temp1
    norm_num
    field_simp
    ring
  rw [hcorrection, flattening, abs_mul, abs_of_pos (by positivity)]
  apply mul_le_mul_of_nonneg_left _ (by positivity)
  calc
    |-(1.5 * (o.rl / o.pl) * o.con41) * o.betal + 0.5 * o.x1mth2 * o.cos2u| ≤
        |-(1.5 * (o.rl / o.pl) * o.con41) * o.betal| + |0.5 * o.x1mth2 * o.cos2u| :=
      abs_add_le _ _
    _ = 1.5 * (o.rl / o.pl) * |o.con41| * |o.betal| + 0.5 * |o.x1mth2| * |o.cos2u| := by
      rw [abs_mul, abs_neg, abs_mul, abs_mul (0.5 * o.x1mth2), abs_mul 0.5,
        abs_of_pos (show 0 < 1.5 * (o.rl / o.pl) by positivity),
        abs_of_pos (show (0 : ℝ) < 0.5 by norm_num)]
    _ ≤ 1.5 * (o.rl / o.pl) * |o.con41| + 0.5 * |o.x1mth2| := by
      apply add_le_add
      · exact mul_le_of_le_one_right (by positivity) hbetal
      · exact mul_le_of_le_one_right (by positivity) hcos2u

/-! ## Position and velocity -/

/-- A satellite on a conic: its position and velocity lie in one plane, it circles the normal of that
plane, and its distance is between perigee and apogee but for the flattening of the Earth. -/
structure Flies (o : Conic) (v : StateVector) : Prop where
  position : dotProduct v.positionKm o.normal = 0
  velocity : dotProduct v.velocityKms o.normal = 0
  momentum : crossProduct v.positionKm v.velocityKms =
    (o.mrt * o.rvdot * (earthRadiusKm * vkmpersec)) • o.normal
  speed : v.speedKms = √(o.mvt ^ 2 + o.rvdot ^ 2) * vkmpersec
  radius : |v.radiusKm - earthRadiusKm * o.rl| ≤ earthRadiusKm * o.flattening
  ellipse : o.am * (1 - √o.el2) ≤ o.rl ∧ o.rl ≤ o.am * (1 + √o.el2)
  energy : o.rdotl ^ 2 + o.rvdotl ^ 2 = 2 / o.rl - 1 / o.am

theorem state_returns (o : Conic) : o.state.Returns := by
  unfold state
  split_ifs
  · exact trivial
  · exact trivial

theorem exists_state (h : ¬o.pl < 0.0) : ∃ v, o.state = .ok v := ⟨_, if_neg h⟩

theorem state_eq_ok {v : StateVector} (hv : o.state = .ok v) :
    v.positionKm = (o.mrt * earthRadiusKm) • o.ux ∧
      v.velocityKms = (o.mvt * vkmpersec) • o.ux + (o.rvdot * vkmpersec) • o.vx := by
  unfold state at hv
  split_ifs at hv with hpl
  rw [← Outcome.ok.inj hv]
  constructor
  · ext i
    simp only [Pi.smul_apply, smul_eq_mul]
    ring
  · ext i
    simp only [Pi.add_apply, Pi.smul_apply, smul_eq_mul]
    ring

theorem radiusKm_eq {v : StateVector} (hv : o.state = .ok v) :
    v.radiusKm = |o.mrt| * earthRadiusKm := by
  have hsquare : v.positionKm 0 * v.positionKm 0 + v.positionKm 1 * v.positionKm 1 +
      v.positionKm 2 * v.positionKm 2 = (o.mrt * earthRadiusKm) ^ 2 := by
    calc
      _ = dotProduct v.positionKm v.positionKm := (Fin.sum_univ_three _).symm
      _ = (o.mrt * earthRadiusKm) ^ 2 := by
        rw [(state_eq_ok hv).1, smul_dotProduct, dotProduct_smul, dotProduct_ux_ux, smul_eq_mul,
          smul_eq_mul]
        ring
  have hradius : 0 < earthRadiusKm := by norm_num [earthRadiusKm]
  rw [StateVector.radiusKm, hsquare, Real.sqrt_sq_eq_abs, abs_mul, abs_of_pos hradius]

theorem speedKms_eq {v : StateVector} (hv : o.state = .ok v) :
    v.speedKms = √(o.mvt ^ 2 + o.rvdot ^ 2) * vkmpersec := by
  have hsquare : v.velocityKms 0 * v.velocityKms 0 + v.velocityKms 1 * v.velocityKms 1 +
      v.velocityKms 2 * v.velocityKms 2 = (o.mvt ^ 2 + o.rvdot ^ 2) * vkmpersec ^ 2 := by
    calc
      _ = dotProduct v.velocityKms v.velocityKms := (Fin.sum_univ_three _).symm
      _ = (o.mvt ^ 2 + o.rvdot ^ 2) * vkmpersec ^ 2 := by
        rw [(state_eq_ok hv).2]
        simp only [add_dotProduct, dotProduct_add, smul_dotProduct, dotProduct_smul, smul_eq_mul,
          dotProduct_ux_ux, dotProduct_vx_vx, dotProduct_ux_vx, dotProduct_comm o.vx o.ux]
        ring
  have hspeed : 0 ≤ vkmpersec := by norm_num [vkmpersec, earthRadiusKm, xke]
  rw [StateVector.speedKms, hsquare, Real.sqrt_mul (by positivity), Real.sqrt_sq hspeed]

theorem flies_of_state (ham : 0 < o.am) (h : o.el2 < 1) {v : StateVector} (hv : o.state = .ok v) :
    o.Flies v where
  position := by
    rw [(state_eq_ok hv).1, smul_dotProduct, dotProduct_ux_normal, smul_zero]
  velocity := by
    rw [(state_eq_ok hv).2, add_dotProduct, smul_dotProduct, smul_dotProduct, dotProduct_ux_normal,
      dotProduct_vx_normal, smul_zero, smul_zero, add_zero]
  momentum := by
    rw [(state_eq_ok hv).1, (state_eq_ok hv).2]
    simp only [map_add, map_smul, LinearMap.smul_apply, cross_self, cross_ux_vx, smul_zero, zero_add,
      smul_smul]
    congr 1
    ring
  speed := speedKms_eq hv
  radius := by
    have hradius : 0 < earthRadiusKm := by norm_num [earthRadiusKm]
    calc
      |v.radiusKm - earthRadiusKm * o.rl| = earthRadiusKm * |(|o.mrt| - |o.rl|)| := by
        rw [radiusKm_eq hv, abs_of_pos (rl_pos ham h), mul_comm, ← mul_sub, abs_mul,
          abs_of_pos hradius]
      _ ≤ earthRadiusKm * |o.mrt - o.rl| :=
        mul_le_mul_of_nonneg_left (abs_abs_sub_abs_le_abs_sub _ _) hradius.le
      _ ≤ earthRadiusKm * o.flattening :=
        mul_le_mul_of_nonneg_left (abs_mrt_sub_rl_le ham h) hradius.le
  ellipse := rl_mem ham
  energy := energy ham h

end Conic

/-! ## From the elements to the state -/

namespace Propagator

variable {p : Propagator} {fuel : ℕ} {tsince : ℝ} {o : Conic} {v : StateVector}

/-- The loop for Kepler's equation always ends. -/
theorem exists_solve (p : Propagator) (tsince am : ℝ) (e : MeanElements) :
    ∃ o, p.solve tsince am e = .ok o ∧ o.am = am ∧
      o.axnl = (p.longPeriod tsince e).ep * cos (p.longPeriod tsince e).argpp ∧
      o.aynl = (p.longPeriod tsince e).ep * sin (p.longPeriod tsince e).argpp +
        1.0 / (am * (1.0 - (p.longPeriod tsince e).ep * (p.longPeriod tsince e).ep)) *
          (p.longPeriod tsince e).aycof := by
  unfold solve
  dsimp only
  generalize hkepler : kepler _ _ _ = solution
  cases solution with
  | none => exact absurd hkepler (kepler_ne_none _ _ _)
  | some k => exact ⟨_, rfl, rfl, rfl, rfl⟩

/-- The orbit that a propagation comes to: its axis is what drag has left of it. -/
theorem conicAt_eq_ok (h : p.conicAt fuel tsince = .ok o) :
    ∃ nm, 0 < nm ∧ o.am = (xke / nm) ^ x2o3 * (p.drag tsince).tempa * (p.drag tsince).tempa := by
  unfold conicAt at h
  obtain ⟨e, -, hrest⟩ := Outcome.bind_eq_ok.mp h
  dsimp only at hrest
  by_cases hnm : e.nm ≤ 0.0
  · rw [if_pos hnm] at hrest
    cases hrest
  · rw [if_neg hnm] at hrest
    by_cases hem : -0.001 ≤ e.em - (p.drag tsince).tempe ∧ e.em - (p.drag tsince).tempe < 1.0
    · rw [if_neg (not_not.mpr hem)] at hrest
      obtain ⟨o', hsolve, ham, -⟩ := exists_solve p tsince _ _
      rw [hsolve] at hrest
      rw [← Outcome.ok.inj hrest]
      refine ⟨e.nm, ?_, ham⟩
      have hlt := not_le.mp hnm
      norm_num at hlt
      exact hlt
    · rw [if_pos hem] at hrest
      cases hrest

theorem am_pos (h : p.conicAt fuel tsince = .ok o) (htempa : (p.drag tsince).tempa ≠ 0) :
    0 < o.am := by
  obtain ⟨nm, hnm, ham⟩ := conicAt_eq_ok h
  have hxke : 0 < xke := by norm_num [xke]
  rw [ham, mul_assoc]
  exact mul_pos (Real.rpow_pos_of_pos (div_pos hxke hnm) _) (mul_self_pos.mpr htempa)

/-- A state that is returned is a flight on a conic, but where drag has shrunk it to a point or where it
is a parabola. -/
theorem propagate_flies (h : p.propagate fuel tsince = .ok v) (htempa : (p.drag tsince).tempa ≠ 0) :
    ∃ o, p.conicAt fuel tsince = .ok o ∧ o.el2 ≤ 1 ∧ (o.el2 ≠ 1 → o.Flies v) := by
  obtain ⟨o, ho, hstate⟩ := Outcome.bind_eq_ok.mp h
  have ham := am_pos ho htempa
  have hel2 : o.el2 ≤ 1 := by
    have hpl : ¬o.pl < 0.0 := by
      intro hneg
      rw [Conic.state, if_pos hneg] at hstate
      cases hstate
    by_contra hgt
    apply hpl
    unfold Conic.pl
    norm_num
    exact mul_neg_of_pos_of_neg ham (by linarith)
  exact ⟨o, ho, hel2, fun hne ↦ Conic.flies_of_state ham (lt_of_le_of_ne hel2 hne) hstate⟩

theorem resonances_returns (hstart : p.atime = 0) (hfuel : |tsince| < (fuel + 1) * stepp)
    (s : Secular) : ∃ e, p.resonances fuel tsince s = .ok e := by
  unfold resonances
  dsimp only
  by_cases hmethod : p.method = 'd'
  · rw [if_pos hmethod]
    obtain ⟨e', hcall⟩ := exists_dspace (p := p)
      { em := p.ecco, argpm := s.argpm, inclm := p.inclo, nodem := s.nodem, nm := p.noKozai, mm := s.mm }
      (steps_le_of_lt hfuel)
    obtain ⟨s', hdspace, -⟩ := hcall p.toIntegrator (.inl hstart)
    change p.dspace fuel tsince _ = _ at hdspace
    rw [hdspace]
    exact ⟨e', rfl⟩
  · rw [if_neg hmethod]
    exact ⟨_, rfl⟩

/-- Enough fuel for the steps from the epoch is enough for the call. -/
theorem propagate_returns (hstart : p.atime = 0) (hfuel : |tsince| < (fuel + 1) * stepp) :
    (p.propagate fuel tsince).Returns := by
  obtain ⟨e, he⟩ := resonances_returns hstart hfuel (p.drag tsince)
  unfold propagate conicAt
  dsimp only
  rw [he, Outcome.ok_bind]
  by_cases hnm : e.nm ≤ 0.0
  · rw [if_pos hnm]
    exact trivial
  · rw [if_neg hnm]
    by_cases hem : -0.001 ≤ e.em - (p.drag tsince).tempe ∧ e.em - (p.drag tsince).tempe < 1.0
    · rw [if_neg (not_not.mpr hem)]
      obtain ⟨o, hsolve, -⟩ := exists_solve p tsince _ _
      rw [hsolve, Outcome.ok_bind]
      exact o.state_returns
    · rw [if_pos hem]
      exact trivial

/-- A circular orbit that nothing perturbs. -/
def circular : Propagator := { geostationary with method := 'n', irez := 0 }

theorem drag_circular (tsince : ℝ) :
    (circular.drag tsince).tempa = 1 ∧ (circular.drag tsince).tempe = 0 := by
  have hisimp : ¬circular.isimp ≠ 1 := not_not.mpr rfl
  unfold drag
  dsimp only
  rw [if_neg hisimp]
  norm_num [circular, geostationary]

theorem conicAt_circular (tsince : ℝ) :
    ∃ o, circular.conicAt 0 tsince = .ok o ∧ o.el2 = 1.0e-6 ^ 2 := by
  have hmethod : ¬circular.method = 'd' := by
    change 'n' ≠ 'd'
    decide
  have hnm : ¬circular.noKozai ≤ 0.0 := by norm_num [circular, geostationary, rptim]
  have hem : circular.ecco - (circular.drag tsince).tempe = 0 := by
    rw [(drag_circular tsince).2, sub_zero]
    rfl
  unfold conicAt resonances
  dsimp only
  rw [if_neg hmethod, Outcome.ok_bind, if_neg hnm, hem, if_neg (by norm_num),
    if_pos (show (0 : ℝ) < 1.0e-6 by norm_num)]
  obtain ⟨o, hsolve, -, haxnl, haynl⟩ := exists_solve circular tsince _ _
  refine ⟨o, hsolve, ?_⟩
  unfold longPeriod at haxnl haynl
  rw [if_neg hmethod] at haxnl haynl
  have haycof : circular.aycof = 0 := rfl
  rw [haycof, mul_zero, add_zero] at haynl
  rw [Conic.el2, haxnl, haynl]
  linear_combination 1.0e-6 ^ 2 * sin_sq_add_cos_sq _

theorem propagate_flies_circular : ∃ v o, circular.propagate 0 60.0 = .ok v ∧
    circular.conicAt 0 60.0 = .ok o ∧ o.el2 ≤ 1 ∧ (o.el2 ≠ 1 → o.Flies v) := by
  obtain ⟨o, ho, hel2⟩ := conicAt_circular 60.0
  have htempa : (circular.drag 60.0).tempa ≠ 0 := by
    rw [(drag_circular 60.0).1]
    exact one_ne_zero
  have hpl : ¬o.pl < 0.0 := by
    have ham := am_pos ho htempa
    unfold Conic.pl
    rw [hel2]
    norm_num
    positivity
  have hv : circular.propagate 0 60.0 = o.state := by
    rw [propagate, ho, Outcome.ok_bind]
  obtain ⟨v, hstate⟩ := Conic.exists_state hpl
  rw [hstate] at hv
  obtain ⟨o', ho', hflies⟩ := propagate_flies hv htempa
  exact ⟨v, o', hv, ho', hflies⟩

end Propagator

end

end Zenith.Orbit.Sgp4
