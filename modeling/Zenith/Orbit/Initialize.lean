import Zenith.Orbit.Propagate

/-!
# Initialisation

`from_tle` takes the mean motion of an element set apart from its secular part, computes the coefficients
of gravity and drag, and for an orbit of 225 minutes or more those of the Moon, the Sun and the resonances
with the Earth. It ends with a propagation to the epoch, at which drag has not yet changed anything. The
element sets are rational, and the arithmetic on them is that of the real numbers.
-/

namespace Zenith.Orbit.Sgp4

open Rust Real

noncomputable section

/-- `J4`. -/
def j4 : ℝ := -1.65597e-6

/-- `gstime`. -/
def gstime (jdut1 : ℝ) : ℝ :=
  let deg2rad := π / 180.0
  let tut1 := (jdut1 - 2451545.0) / 36525.0
  let temp := -6.2e-6 * tut1 * tut1 * tut1 + 0.093104 * tut1 * tut1 +
    (876600.0 * 3600.0 + 8640184.812866) * tut1 + 67310.54841
  let temp := remReal (temp * deg2rad / 240.0) twoPi
  if temp < 0.0 then temp + twoPi else temp

/-- What the block of `initl` leaves. -/
structure Initl where
  (ao con42 cosio cosio2 omeosq rp rteosq sinio gsto con41 no : ℝ)

/-- The terms of the Sun or the Moon, `lsflg` being one or two. -/
structure Body where
  (s1 s2 s3 s4 s5 s6 s7 z1 z2 z3 z11 z12 z13 z21 z22 z23 z31 z32 z33 : ℝ)

/-- How the orbit of the body lies, and its mass. -/
structure Orientation where
  (zcosg zsing zcosi zsini zcosh zsinh cc : ℝ)

namespace Propagator

/-- The propagator that `from_tle` sets out with. -/
def blank (tle : Tle ℚ) : Propagator where
  toDeepSpace := quiet
  toIntegrator := ⟨0, 0, 0⟩
  isimp := 0
  method := 'n'
  aycof := 0
  con41 := 0
  cc1 := 0
  cc4 := 0
  cc5 := 0
  d2 := 0
  d3 := 0
  d4 := 0
  delmo := 0
  eta := 0
  argpdot := 0
  omgcof := 0
  sinmao := 0
  t2cof := 0
  t3cof := 0
  t4cof := 0
  t5cof := 0
  x1mth2 := 0
  x7thm1 := 0
  mdot := 0
  nodecf := 0
  nodedot := 0
  xlcof := 0
  xmcof := 0
  noKozai := tle.meanMotion / (1440.0 / twoPi)
  bstar := tle.bstar
  ecco := tle.eccentricity
  argpo := tle.argPerigeeDeg * π / 180.0
  inclo := tle.inclinationDeg * π / 180.0
  mo := tle.meanAnomalyDeg * π / 180.0
  nodeo := tle.raanDeg * π / 180.0
  irez := 0
  d2201 := 0
  d2211 := 0
  d3210 := 0
  d3222 := 0
  d4410 := 0
  d4422 := 0
  d5220 := 0
  d5232 := 0
  d5421 := 0
  d5433 := 0
  dedt := 0
  del1 := 0
  del2 := 0
  del3 := 0
  didt := 0
  dmdt := 0
  dnodt := 0
  domdt := 0
  gsto := 0
  xfact := 0
  xlamo := 0

variable (p : Propagator)

/-- The block of `initl`; `no_kozai` is still that of the element set. -/
def initl (epoch : ℝ) : Initl :=
  let no := p.noKozai
  let eccsq := p.ecco * p.ecco
  let omeosq := 1.0 - eccsq
  let rteosq := √omeosq
  let cosio := cos p.inclo
  let cosio2 := cosio * cosio
  let ak := (xke / no) ^ x2o3
  let d1 := 0.75 * j2 * (3.0 * cosio2 - 1.0) / (rteosq * omeosq)
  let del := d1 / (ak * ak)
  let adel := ak * (1.0 - del * del - del * (1.0 / 3.0 + 134.0 * del * del / 81.0))
  let del := d1 / (adel * adel)
  let no := no / (1.0 + del)
  let ao := adel / (1.0 - del)
  let sinio := sin p.inclo
  let con42 := 1.0 - 5.0 * cosio2
  let con41 := -con42 - cosio2 - cosio2
  let rp := ao * (1.0 - p.ecco)
  let gsto := gstime (epoch + 2433281.5)
  { ao, con42, cosio, cosio2, omeosq, rp, rteosq, sinio, gsto, con41, no }

/-! ## Gravity and drag -/

/-- The bounds of the atmosphere, `sfour` and `qzms24`. -/
def atmosphere (rp : ℝ) : ℝ × ℝ :=
  let perige := (rp - 1.0) * earthRadiusKm
  if perige < 156.0 then
    let sfour := if perige < 98.0 then 20.0 else perige - 78.0
    (sfour / earthRadiusKm + 1.0, ((120.0 - sfour) / earthRadiusKm) ^ 4)
  else (78.0 / earthRadiusKm + 1.0, ((120.0 - 78.0) / earthRadiusKm) ^ 4)

/-- The coefficients of a near-earth orbit but for the higher powers of the time. -/
def secularCoefficients (i : Initl) : Propagator :=
  let no := p.noKozai
  let ao := i.ao
  let omeosq := i.omeosq
  let cosio2 := i.cosio2
  let isimp := if i.rp < 220.0 / earthRadiusKm + 1.0 then 1 else 0
  let sfour := (atmosphere i.rp).1
  let qzms24 := (atmosphere i.rp).2
  let pinvsq := 1.0 / (ao * ao * omeosq * omeosq)
  let tsi := 1.0 / (ao - sfour)
  let eta := ao * p.ecco * tsi
  let etasq := eta * eta
  let eeta := p.ecco * eta
  let psisq := |1.0 - etasq|
  let coef := qzms24 * tsi ^ 4
  let coef1 := coef / psisq ^ (3.5 : ℝ)
  let cc2 := coef1 * no * (ao * (1.0 + 1.5 * etasq + eeta * (4.0 + etasq)) +
    0.375 * j2 * tsi / psisq * i.con41 * (8.0 + 3.0 * etasq * (8.0 + etasq)))
  let cc1 := p.bstar * cc2
  let cc3 := if p.ecco > 1.0e-4 then -2.0 * coef * tsi * j3oj2 * no * i.sinio / p.ecco else 0
  let x1mth2 := 1.0 - cosio2
  let cc4 := 2.0 * no * coef1 * ao * omeosq *
    (eta * (2.0 + 0.5 * etasq) + p.ecco * (0.5 + 2.0 * etasq) -
      j2 * tsi / (ao * psisq) *
        (-3.0 * i.con41 * (1.0 - 2.0 * eeta + etasq * (1.5 - 0.5 * eeta)) +
          0.75 * x1mth2 * (2.0 * etasq - eeta * (1.0 + etasq)) * cos (2.0 * p.argpo)))
  let cc5 := 2.0 * coef1 * ao * omeosq * (1.0 + 2.75 * (etasq + eeta) + eeta * etasq)
  let cosio4 := cosio2 * cosio2
  let temp1 := 1.5 * j2 * pinvsq * no
  let temp2 := 0.5 * temp1 * j2 * pinvsq
  let temp3 := -0.46875 * j4 * pinvsq * pinvsq * no
  let xhdot1 := -temp1 * i.cosio
  { p with
    isimp
    aycof := (xlcofAycof i.sinio i.cosio).2
    con41 := i.con41
    cc1
    cc4
    cc5
    delmo := (1.0 + eta * cos p.mo) ^ 3
    eta
    argpdot := -0.5 * temp1 * i.con42 + 0.0625 * temp2 * (7.0 - 114.0 * cosio2 + 395.0 * cosio4) +
      temp3 * (3.0 - 36.0 * cosio2 + 49.0 * cosio4)
    omgcof := p.bstar * cc3 * cos p.argpo
    sinmao := sin p.mo
    t2cof := 1.5 * cc1
    x1mth2
    x7thm1 := 7.0 * cosio2 - 1.0
    mdot := no + 0.5 * temp1 * i.rteosq * i.con41 +
      0.0625 * temp2 * i.rteosq * (13.0 - 78.0 * cosio2 + 137.0 * cosio4)
    nodecf := 3.5 * omeosq * xhdot1 * cc1
    nodedot := xhdot1 +
      (0.5 * temp2 * (4.0 - 19.0 * cosio2) + 2.0 * temp3 * (3.0 - 7.0 * cosio2)) * i.cosio
    xlcof := (xlcofAycof i.sinio i.cosio).1
    xmcof := if p.ecco > 1.0e-4 then -x2o3 * coef * p.bstar / eeta else 0 }

/-- The higher powers of the time, for an orbit that does not come close to the ground. -/
def dragPowers (i : Initl) : Propagator :=
  let ao := i.ao
  let sfour := (atmosphere i.rp).1
  let tsi := 1.0 / (ao - sfour)
  let cc1sq := p.cc1 * p.cc1
  let d2 := 4.0 * ao * tsi * cc1sq
  let temp := d2 * tsi * p.cc1 / 3.0
  let d3 := (17.0 * ao + sfour) * temp
  let d4 := 0.5 * temp * ao * tsi * (221.0 * ao + 31.0 * sfour) * p.cc1
  { p with
    d2
    d3
    d4
    t3cof := d2 + 2.0 * cc1sq
    t4cof := 0.25 * (3.0 * d3 + p.cc1 * (12.0 * d2 + 10.0 * cc1sq))
    t5cof := 0.2 * (3.0 * d4 + 12.0 * p.cc1 * d3 + 6.0 * d2 * d2 +
      15.0 * cc1sq * (2.0 * d2 + cc1sq)) }

/-! ## Deep space -/

/-- A round of the loop of `dscom`. -/
def body (nm : ℝ) (o : Orientation) : Body :=
  let em := p.ecco
  let emsq := em * em
  let betasq := 1.0 - emsq
  let sinomm := sin p.argpo
  let cosomm := cos p.argpo
  let sinim := sin p.inclo
  let cosim := cos p.inclo
  let xnoi := 1.0 / nm
  let a1 := o.zcosg * o.zcosh + o.zsing * o.zcosi * o.zsinh
  let a3 := -o.zsing * o.zcosh + o.zcosg * o.zcosi * o.zsinh
  let a7 := -o.zcosg * o.zsinh + o.zsing * o.zcosi * o.zcosh
  let a8 := o.zsing * o.zsini
  let a9 := o.zsing * o.zsinh + o.zcosg * o.zcosi * o.zcosh
  let a10 := o.zcosg * o.zsini
  let a2 := cosim * a7 + sinim * a8
  let a4 := cosim * a9 + sinim * a10
  let a5 := -sinim * a7 + cosim * a8
  let a6 := -sinim * a9 + cosim * a10
  let x1 := a1 * cosomm + a2 * sinomm
  let x2 := a3 * cosomm + a4 * sinomm
  let x3 := -a1 * sinomm + a2 * cosomm
  let x4 := -a3 * sinomm + a4 * cosomm
  let x5 := a5 * sinomm
  let x6 := a6 * sinomm
  let x7 := a5 * cosomm
  let x8 := a6 * cosomm
  let z31 := 12.0 * x1 * x1 - 3.0 * x3 * x3
  let z32 := 24.0 * x1 * x2 - 6.0 * x3 * x4
  let z33 := 12.0 * x2 * x2 - 3.0 * x4 * x4
  let z1 := 3.0 * (a1 * a1 + a2 * a2) + z31 * emsq
  let z2 := 6.0 * (a1 * a3 + a2 * a4) + z32 * emsq
  let z3 := 3.0 * (a3 * a3 + a4 * a4) + z33 * emsq
  let z11 := -6.0 * a1 * a5 + emsq * (-24.0 * x1 * x7 - 6.0 * x3 * x5)
  let z12 := -6.0 * (a1 * a6 + a3 * a5) +
    emsq * (-24.0 * (x2 * x7 + x1 * x8) - 6.0 * (x3 * x6 + x4 * x5))
  let z13 := -6.0 * a3 * a6 + emsq * (-24.0 * x2 * x8 - 6.0 * x4 * x6)
  let z21 := 6.0 * a2 * a5 + emsq * (24.0 * x1 * x5 - 6.0 * x3 * x7)
  let z22 := 6.0 * (a4 * a5 + a2 * a6) +
    emsq * (24.0 * (x2 * x5 + x1 * x6) - 6.0 * (x4 * x7 + x3 * x8))
  let z23 := 6.0 * a4 * a6 + emsq * (24.0 * x2 * x6 - 6.0 * x4 * x8)
  let z1 := z1 + z1 + betasq * z31
  let z2 := z2 + z2 + betasq * z32
  let z3 := z3 + z3 + betasq * z33
  let s3 := o.cc * xnoi
  let s2 := -0.5 * s3 / √(1.0 - emsq)
  let s4 := s3 * √(1.0 - emsq)
  let s1 := -15.0 * em * s4
  let s5 := x1 * x3 + x2 * x4
  let s6 := x2 * x3 + x1 * x4
  let s7 := x2 * x4 - x1 * x3
  { s1, s2, s3, s4, s5, s6, s7, z1, z2, z3, z11, z12, z13, z21, z22, z23, z31, z32, z33 }

/-- The Sun. -/
def sun : Orientation where
  zcosg := 0.1945905
  zsing := -0.98088458
  zcosi := 0.91744867
  zsini := 0.39785416
  zcosh := cos p.nodeo
  zsinh := sin p.nodeo
  cc := 2.9864797e-6

/-- `gam`. -/
def gam (day : ℝ) : ℝ := 5.8351514 + 0.0019443680 * day

/-- The Moon on a day. -/
def moon (day : ℝ) : Orientation :=
  let xnodce := remReal (4.5236020 - 9.2422029e-4 * day) twoPi
  let stem := sin xnodce
  let ctem := cos xnodce
  let zcosil := 0.91375164 - 0.03568096 * ctem
  let zsinil := √(1.0 - zcosil * zcosil)
  let zsinhl := 0.089683511 * stem / zsinil
  let zcoshl := √(1.0 - zsinhl * zsinhl)
  let zx := 0.39785416 * stem / zsinil
  let zy := zcoshl * ctem + 0.91744867 * zsinhl * stem
  let zx := atan2 zx zy
  let zx := gam day + zx - xnodce
  { zcosg := cos zx
    zsing := sin zx
    zcosi := zcosil
    zsini := zsinil
    zcosh := zcoshl * cos p.nodeo + zsinhl * sin p.nodeo
    zsinh := sin p.nodeo * zcoshl - cos p.nodeo * zsinhl
    cc := 4.7968065e-7 }

/-- The periodic coefficients. -/
def periodicCoefficients (day : ℝ) (sun moon : Body) : DeepSpace :=
  let zes := 0.01675
  let zel := 0.05490
  let emsq := p.ecco * p.ecco
  { zmos := remReal (6.2565837 + 0.017201977 * day) twoPi
    se2 := 2.0 * sun.s1 * sun.s6
    se3 := 2.0 * sun.s1 * sun.s7
    si2 := 2.0 * sun.s2 * sun.z12
    si3 := 2.0 * sun.s2 * (sun.z13 - sun.z11)
    sl2 := -2.0 * sun.s3 * sun.z2
    sl3 := -2.0 * sun.s3 * (sun.z3 - sun.z1)
    sl4 := -2.0 * sun.s3 * (-21.0 - 9.0 * emsq) * zes
    sgh2 := 2.0 * sun.s4 * sun.z32
    sgh3 := 2.0 * sun.s4 * (sun.z33 - sun.z31)
    sgh4 := -18.0 * sun.s4 * zes
    sh2 := -2.0 * sun.s2 * sun.z22
    sh3 := -2.0 * sun.s2 * (sun.z23 - sun.z21)
    zmol := remReal (4.7199672 + 0.22997150 * day - gam day) twoPi
    ee2 := 2.0 * moon.s1 * moon.s6
    e3 := 2.0 * moon.s1 * moon.s7
    xi2 := 2.0 * moon.s2 * moon.z12
    xi3 := 2.0 * moon.s2 * (moon.z13 - moon.z11)
    xl2 := -2.0 * moon.s3 * moon.z2
    xl3 := -2.0 * moon.s3 * (moon.z3 - moon.z1)
    xl4 := -2.0 * moon.s3 * (-21.0 - 9.0 * emsq) * zel
    xgh2 := 2.0 * moon.s4 * moon.z32
    xgh3 := 2.0 * moon.s4 * (moon.z33 - moon.z31)
    xgh4 := -18.0 * moon.s4 * zel
    xh2 := -2.0 * moon.s2 * moon.z22
    xh3 := -2.0 * moon.s2 * (moon.z23 - moon.z21)
    peo := 0
    pinco := 0
    plo := 0
    pgho := 0
    pho := 0 }

/-- The coefficients of an orbit of half a day. -/
def halfDay (nm theta dmdt dnodt : ℝ) : Propagator :=
  let em := p.ecco
  let emsq := em * em
  let eoc := em * emsq
  let sinim := sin p.inclo
  let cosim := cos p.inclo
  let cosisq := cosim * cosim
  let aonv := (nm / xke) ^ x2o3
  let g201 := -0.306 - (em - 0.64) * 0.440
  let g211 :=
    if em ≤ 0.65 then 3.616 - 13.2470 * em + 16.2900 * emsq
    else -72.099 + 331.819 * em - 508.738 * emsq + 266.724 * eoc
  let g310 :=
    if em ≤ 0.65 then -19.302 + 117.3900 * em - 228.4190 * emsq + 156.5910 * eoc
    else -346.844 + 1582.851 * em - 2415.925 * emsq + 1246.113 * eoc
  let g322 :=
    if em ≤ 0.65 then -18.9068 + 109.7927 * em - 214.6334 * emsq + 146.5816 * eoc
    else -342.585 + 1554.908 * em - 2366.899 * emsq + 1215.972 * eoc
  let g410 :=
    if em ≤ 0.65 then -41.122 + 242.6940 * em - 471.0940 * emsq + 313.9530 * eoc
    else -1052.797 + 4758.686 * em - 7193.992 * emsq + 3651.957 * eoc
  let g422 :=
    if em ≤ 0.65 then -146.407 + 841.8800 * em - 1629.014 * emsq + 1083.4350 * eoc
    else -3581.690 + 16178.110 * em - 24462.770 * emsq + 12422.520 * eoc
  let g520 :=
    if em ≤ 0.65 then -532.114 + 3017.977 * em - 5740.032 * emsq + 3708.2760 * eoc
    else if em > 0.715 then -5149.66 + 29936.92 * em - 54087.36 * emsq + 31324.56 * eoc
    else 1464.74 - 4664.75 * em + 3763.64 * emsq
  let g533 :=
    if em < 0.7 then -919.22770 + 4988.6100 * em - 9064.7700 * emsq + 5542.21 * eoc
    else -37995.780 + 161616.52 * em - 229838.20 * emsq + 109377.94 * eoc
  let g521 :=
    if em < 0.7 then -822.71072 + 4568.6173 * em - 8491.4146 * emsq + 5337.524 * eoc
    else -51752.104 + 218913.95 * em - 309468.16 * emsq + 146349.42 * eoc
  let g532 :=
    if em < 0.7 then -853.66600 + 4690.2500 * em - 8624.7700 * emsq + 5341.4 * eoc
    else -40023.880 + 170470.89 * em - 242699.48 * emsq + 115605.82 * eoc
  let sini2 := sinim * sinim
  let f220 := 0.75 * (1.0 + 2.0 * cosim + cosisq)
  let f221 := 1.5 * sini2
  let f321 := 1.875 * sinim * (1.0 - 2.0 * cosim - 3.0 * cosisq)
  let f322 := -1.875 * sinim * (1.0 + 2.0 * cosim - 3.0 * cosisq)
  let f441 := 35.0 * sini2 * f220
  let f442 := 39.3750 * sini2 * sini2
  let f522 := 9.84375 * sinim *
    (sini2 * (1.0 - 2.0 * cosim - 5.0 * cosisq) + 0.33333333 * (-2.0 + 4.0 * cosim + 6.0 * cosisq))
  let f523 := sinim * (4.92187512 * sini2 * (-2.0 - 4.0 * cosim + 10.0 * cosisq) +
    6.56250012 * (1.0 + 2.0 * cosim - 3.0 * cosisq))
  let f542 := 29.53125 * sinim *
    (2.0 - 8.0 * cosim + cosisq * (-12.0 + 8.0 * cosim + 10.0 * cosisq))
  let f543 := 29.53125 * sinim *
    (-2.0 - 8.0 * cosim + cosisq * (12.0 + 8.0 * cosim - 10.0 * cosisq))
  let xno2 := nm * nm
  let ainv2 := aonv * aonv
  let temp1 := 3.0 * xno2 * ainv2
  let temp := temp1 * √7.3636953e-9
  let d2201 := temp * f220 * g201
  let d2211 := temp * f221 * g211
  let temp1 := temp1 * aonv
  let temp := temp1 * √3.7393792e-7
  let d3210 := temp * f321 * g310
  let d3222 := temp * f322 * g322
  let temp1 := temp1 * aonv
  let temp := 2.0 * temp1 * √7.3636953e-9
  let d4410 := temp * f441 * g410
  let d4422 := temp * f442 * g422
  let temp1 := temp1 * aonv
  let temp := temp1 * √1.1428639e-7
  let d5220 := temp * f522 * g520
  let d5232 := temp * f523 * g532
  let temp := 2.0 * temp1 * √2.1765803e-9
  let d5421 := temp * f542 * g521
  let d5433 := temp * f543 * g533
  { p with
    d2201
    d2211
    d3210
    d3222
    d4410
    d4422
    d5220
    d5232
    d5421
    d5433
    xlamo := remReal (p.mo + p.nodeo + p.nodeo - theta - theta) twoPi
    xfact := p.mdot + dmdt + 2.0 * (p.nodedot + dnodt - rptim) - nm }

/-- The coefficients of an orbit of a day. -/
def oneDay (nm theta xpidot dmdt domdt dnodt : ℝ) : Propagator :=
  let emsq := p.ecco * p.ecco
  let sinim := sin p.inclo
  let cosim := cos p.inclo
  let aonv := (nm / xke) ^ x2o3
  let g200 := 1.0 + emsq * (-2.5 + 0.8125 * emsq)
  let g310 := 1.0 + 2.0 * emsq
  let g300 := 1.0 + emsq * (-6.0 + 6.60937 * emsq)
  let f220 := 0.75 * (1.0 + cosim) * (1.0 + cosim)
  let f311 := 0.9375 * sinim * sinim * (1.0 + 3.0 * cosim) - 0.75 * (1.0 + cosim)
  let f330 := 1.0 + cosim
  let f330 := 1.875 * f330 * f330 * f330
  let del1 := 3.0 * nm * nm * aonv * aonv
  let del2 := 2.0 * del1 * f220 * g200 * 1.7891679e-6
  let del3 := 3.0 * del1 * f330 * g300 * 2.2123015e-7 * aonv
  let del1 := del1 * f311 * g310 * 2.1460748e-6 * aonv
  { p with
    del1
    del2
    del3
    xlamo := remReal (p.mo + p.nodeo + p.argpo - theta) twoPi
    xfact := p.mdot + xpidot - rptim + dmdt + domdt + dnodt - nm }

/-- `irez`: one for a period of about a day, two for an eccentric orbit of about half a day. -/
def resonance (nm em : ℝ) : ℤ :=
  let irez := if nm < 0.0052359877 ∧ nm > 0.0034906585 then 1 else 0
  if (8.26e-3 ≤ nm ∧ nm ≤ 9.24e-3) ∧ em ≥ 0.5 then 2 else irez

/-- The resonance of the orbit, and the integrator at the epoch. -/
def resonate (irez : ℤ) (no theta xpidot dmdt domdt dnodt : ℝ) : Propagator :=
  if irez ≠ 0 then
    let p := if irez = 2 then p.halfDay no theta dmdt dnodt else p
    let p := if irez = 1 then p.oneDay no theta xpidot dmdt domdt dnodt else p
    { p with
      xli := p.xlamo
      xni := no
      atime := 0.0
      irez }
  else p

def dsinit (epoch no xpidot : ℝ) : Propagator :=
  let zns := 1.19459e-5
  let znl := 1.5835218e-4
  let inclp := p.inclo
  let sinim := sin inclp
  let cosim := cos inclp
  let em := p.ecco
  let emsq := em * em
  let nm := no
  let day := epoch + 18261.5
  let ss := p.body nm p.sun
  let s := p.body nm (p.moon day)
  let irez := resonance nm em
  let ses := ss.s1 * zns * ss.s5
  let sis := ss.s2 * zns * (ss.z11 + ss.z13)
  let sls := -zns * ss.s3 * (ss.z1 + ss.z3 - 14.0 - 6.0 * emsq)
  let sghs := ss.s4 * zns * (ss.z31 + ss.z33 - 6.0)
  let inclined := 5.2359877e-2 ≤ inclp ∧ inclp ≤ π - 5.2359877e-2
  let shs := if inclined then -zns * ss.s2 * (ss.z21 + ss.z23) else 0
  let shs := if sinim ≠ 0 then shs / sinim else shs
  let sgs := sghs - cosim * shs
  let dedt := ses + s.s1 * znl * s.s5
  let didt := sis + s.s2 * znl * (s.z11 + s.z13)
  let dmdt := sls - znl * s.s3 * (s.z1 + s.z3 - 14.0 - 6.0 * emsq)
  let sghl := s.s4 * znl * (s.z31 + s.z33 - 6.0)
  let shll := if inclined then -znl * s.s2 * (s.z21 + s.z23) else 0
  let domdt := sgs + sghl
  let domdt := if sinim ≠ 0 then domdt - cosim / sinim * shll else domdt
  let dnodt := if sinim ≠ 0 then shs + shll / sinim else shs
  let theta := remReal (p.gsto + 0.0 * rptim) twoPi
  { p.resonate irez no theta xpidot dmdt domdt dnodt with
    toDeepSpace := p.periodicCoefficients day ss s
    dedt
    didt
    dmdt
    dnodt
    domdt }

def toDeep : Propagator := { p with method := 'd', isimp := 1 }

/-! ## The element set -/

/-- The propagator before it is tried at the epoch. -/
def sgp4init (tle : Tle ℚ) : Propagator :=
  let p := blank tle
  let epoch : ℝ := initlEpoch tle
  let i := p.initl epoch
  let no := i.no
  let p := { p with con41 := i.con41, noKozai := no, gsto := i.gsto }
  if i.omeosq ≥ 0.0 ∨ no ≥ 0.0 then
    let p := p.secularCoefficients i
    let xpidot := p.argpdot + p.nodedot
    let p :=
      if twoPi / no ≥ 225.0 then p.toDeep.dsinit epoch no xpidot else p
    if p.isimp ≠ 1 then p.dragPowers i else p
  else p

def fromTle (tle : Tle ℚ) (fuel : ℕ) : Outcome OrbitError Propagator := do
  let p := sgp4init tle
  let _ ← p.propagate fuel 0.0
  .ok p

/-! ## What the initialisation leaves -/

/-- The propagator has the orbit of the element set. -/
structure Carries (p : Propagator) (tle : Tle ℚ) : Prop where
  bstar : p.bstar = tle.bstar
  ecco : p.ecco = tle.eccentricity
  argpo : p.argpo = tle.argPerigeeDeg * π / 180.0
  inclo : p.inclo = tle.inclinationDeg * π / 180.0
  mo : p.mo = tle.meanAnomalyDeg * π / 180.0
  nodeo : p.nodeo = tle.raanDeg * π / 180.0

/-- An update that leaves the orbit as it is, and what the epoch is measured by. -/
structure Keeps (p q : Propagator) : Prop where
  bstar : q.bstar = p.bstar
  ecco : q.ecco = p.ecco
  argpo : q.argpo = p.argpo
  inclo : q.inclo = p.inclo
  mo : q.mo = p.mo
  nodeo : q.nodeo = p.nodeo
  noKozai : q.noKozai = p.noKozai
  gsto : q.gsto = p.gsto
  eta : q.eta = p.eta
  delmo : q.delmo = p.delmo
  sinmao : q.sinmao = p.sinmao
  method : q.method = p.method
  isimp : q.isimp = p.isimp

/-- The Greenwich angle at the epoch. -/
def theta : ℝ := remReal (p.gsto + 0.0 * rptim) twoPi

/-- The integrator stands at the epoch, where the resonant longitude is that of the element set. -/
structure Resonant (p : Propagator) : Prop where
  atime : p.atime = 0
  kind : p.irez = 0 ∨ p.irez = resonance p.noKozai p.ecco
  day : p.irez = 1 → p.xlamo = remReal (p.mo + p.nodeo + p.argpo - p.theta) twoPi
  half : p.irez = 2 → p.xlamo = remReal (p.mo + p.nodeo + p.nodeo - p.theta - p.theta) twoPi

variable {p}

theorem keeps_dragPowers (i : Initl) : p.Keeps (p.dragPowers i) := by
  constructor <;> rfl

theorem keeps_resonate (irez : ℤ) (no theta xpidot dmdt domdt dnodt : ℝ) :
    p.Keeps (p.resonate irez no theta xpidot dmdt domdt dnodt) := by
  unfold resonate
  split_ifs <;> constructor <;> rfl

/-- Apart from the resonance, `dsinit` only adds the terms of the Moon and the Sun. -/
theorem dsinit_eq (epoch no xpidot : ℝ) : ∃ d dedt didt dmdt domdt dnodt,
    p.dsinit epoch no xpidot =
      { p.resonate (resonance no p.ecco) no p.theta xpidot dmdt domdt dnodt with
        toDeepSpace := d
        dedt
        didt
        dmdt
        domdt
        dnodt } :=
  ⟨_, _, _, _, _, _, rfl⟩

theorem keeps_dsinit (epoch no xpidot : ℝ) : p.Keeps (p.dsinit epoch no xpidot) := by
  obtain ⟨d, dedt, didt, dmdt, domdt, dnodt, heq⟩ := p.dsinit_eq epoch no xpidot
  have hkeeps := p.keeps_resonate (resonance no p.ecco) no p.theta xpidot dmdt domdt dnodt
  rw [heq]
  exact ⟨hkeeps.bstar, hkeeps.ecco, hkeeps.argpo, hkeeps.inclo, hkeeps.mo, hkeeps.nodeo, hkeeps.noKozai,
    hkeeps.gsto, hkeeps.eta, hkeeps.delmo, hkeeps.sinmao, hkeeps.method, hkeeps.isimp⟩

theorem Carries.congr {tle : Tle ℚ} {q : Propagator} (h : p.Carries tle) (hkeeps : p.Keeps q) :
    q.Carries tle where
  bstar := hkeeps.bstar.trans h.bstar
  ecco := hkeeps.ecco.trans h.ecco
  argpo := hkeeps.argpo.trans h.argpo
  inclo := hkeeps.inclo.trans h.inclo
  mo := hkeeps.mo.trans h.mo
  nodeo := hkeeps.nodeo.trans h.nodeo

theorem Resonant.congr {q : Propagator} (h : p.Resonant) (hkeeps : p.Keeps q)
    (hintegrator : q.toIntegrator = p.toIntegrator) (hirez : q.irez = p.irez)
    (hxlamo : q.xlamo = p.xlamo) : q.Resonant where
  atime := (congrArg Integrator.atime hintegrator).trans h.atime
  kind := by
    rw [hirez, hkeeps.noKozai, hkeeps.ecco]
    exact h.kind
  day hday := by
    rw [hxlamo, hkeeps.mo, hkeeps.nodeo, hkeeps.argpo, theta, hkeeps.gsto]
    exact h.day (hirez ▸ hday)
  half hhalf := by
    rw [hxlamo, hkeeps.mo, hkeeps.nodeo, theta, hkeeps.gsto]
    exact h.half (hirez ▸ hhalf)

theorem resonance_cases (nm em : ℝ) :
    resonance nm em = 0 ∨ resonance nm em = 1 ∨ resonance nm em = 2 := by
  unfold resonance
  dsimp only
  split_ifs
  · exact .inr (.inr rfl)
  · exact .inr (.inl rfl)
  · exact .inl rfl

theorem resonate_zero (no theta xpidot dmdt domdt dnodt : ℝ) :
    p.resonate 0 no theta xpidot dmdt domdt dnodt = p := rfl

theorem resonate_one (no theta xpidot dmdt domdt dnodt : ℝ) :
    p.resonate 1 no theta xpidot dmdt domdt dnodt =
      { p.oneDay no theta xpidot dmdt domdt dnodt with
        xli := (p.oneDay no theta xpidot dmdt domdt dnodt).xlamo
        xni := no
        atime := 0.0
        irez := 1 } := rfl

theorem resonate_two (no theta xpidot dmdt domdt dnodt : ℝ) :
    p.resonate 2 no theta xpidot dmdt domdt dnodt =
      { p.halfDay no theta dmdt dnodt with
        xli := (p.halfDay no theta dmdt dnodt).xlamo
        xni := no
        atime := 0.0
        irez := 2 } := rfl

theorem resonant_resonate (hatime : p.atime = 0) (hirez : p.irez = 0)
    (xpidot dmdt domdt dnodt : ℝ) :
    (p.resonate (resonance p.noKozai p.ecco) p.noKozai p.theta xpidot dmdt domdt dnodt).Resonant := by
  have hepoch : (0.0 : ℝ) = 0 := by norm_num
  rcases resonance_cases p.noKozai p.ecco with hkind | hkind | hkind
  · rw [hkind, resonate_zero]
    exact ⟨hatime, .inl hirez, fun hday ↦ absurd (hirez.symm.trans hday) (by decide),
      fun hhalf ↦ absurd (hirez.symm.trans hhalf) (by decide)⟩
  · rw [hkind, resonate_one]
    exact ⟨hepoch, .inr hkind.symm, fun _ ↦ rfl, fun hhalf ↦ absurd hhalf (show (1 : ℤ) ≠ 2 by decide)⟩
  · rw [hkind, resonate_two]
    exact ⟨hepoch, .inr hkind.symm, fun hday ↦ absurd hday (show (2 : ℤ) ≠ 1 by decide), fun _ ↦ rfl⟩

/-- What `from_tle` makes sure of before it tries the propagator at the epoch. -/
structure Started (p : Propagator) : Prop extends Resonant p where
  delmo : p.delmo = (1.0 + p.eta * cos p.mo) ^ 3
  sinmao : p.sinmao = sin p.mo
  method : p.method = 'd' ↔ twoPi / p.noKozai ≥ 225.0
  near : p.method ≠ 'd' → p.irez = 0
  deep : p.method = 'd' → p.isimp = 1

theorem Started.congr {q : Propagator} (h : p.Started) (hkeeps : p.Keeps q)
    (hintegrator : q.toIntegrator = p.toIntegrator) (hirez : q.irez = p.irez)
    (hxlamo : q.xlamo = p.xlamo) : q.Started where
  toResonant := h.toResonant.congr hkeeps hintegrator hirez hxlamo
  delmo := by rw [hkeeps.delmo, hkeeps.eta, hkeeps.mo, h.delmo]
  sinmao := by rw [hkeeps.sinmao, hkeeps.mo, h.sinmao]
  method := by rw [hkeeps.method, hkeeps.noKozai, h.method]
  near hnear := by
    rw [hirez]
    exact h.near (hkeeps.method ▸ hnear)
  deep hdeep := by
    rw [hkeeps.isimp]
    exact h.deep (hkeeps.method ▸ hdeep)

/-- A deep-space orbit. -/
theorem started_dsinit (hatime : p.atime = 0) (hirez : p.irez = 0)
    (hdelmo : p.delmo = (1.0 + p.eta * cos p.mo) ^ 3) (hsinmao : p.sinmao = sin p.mo)
    (hperiod : twoPi / p.noKozai ≥ 225.0) (epoch xpidot : ℝ) :
    (p.toDeep.dsinit epoch p.noKozai xpidot).Started := by
  obtain ⟨d, dedt, didt, dmdt, domdt, dnodt, heq⟩ := p.toDeep.dsinit_eq epoch p.noKozai xpidot
  have hkeeps := p.toDeep.keeps_dsinit epoch p.noKozai xpidot
  have hresonant := resonant_resonate (p := p.toDeep) hatime hirez xpidot dmdt domdt dnodt
  constructor
  · rw [heq]
    exact hresonant.congr ⟨rfl, rfl, rfl, rfl, rfl, rfl, rfl, rfl, rfl, rfl, rfl, rfl, rfl⟩ rfl rfl rfl
  · rw [hkeeps.delmo, hkeeps.eta, hkeeps.mo]
    exact hdelmo
  · rw [hkeeps.sinmao, hkeeps.mo]
    exact hsinmao
  · rw [hkeeps.method, hkeeps.noKozai]
    exact iff_of_true rfl hperiod
  · intro hnear
    exact absurd hkeeps.method hnear
  · intro _
    exact hkeeps.isimp

theorem sgp4init_spec (tle : Tle ℚ) : (sgp4init tle).Carries tle ∧ (sgp4init tle).atime = 0 ∧
    ((sgp4init tle).Started ∨ (sgp4init tle).method ≠ 'd' ∧ (sgp4init tle).noKozai < 0) := by
  unfold sgp4init
  extract_lets p₀ epoch i no p₁ p₂ xpidot p₃
  have hcarries : p₂.Carries tle := ⟨rfl, rfl, rfl, rfl, rfl, rfl⟩
  by_cases hbranch : i.omeosq ≥ 0.0 ∨ no ≥ 0.0
  · rw [if_pos hbranch]
    have hstarted : p₃.Carries tle ∧ p₃.Started := by
      by_cases hperiod : twoPi / no ≥ 225.0
      · have hdeep : p₃ = p₂.toDeep.dsinit epoch no xpidot := if_pos hperiod
        have hcarriesDeep : p₂.toDeep.Carries tle := ⟨rfl, rfl, rfl, rfl, rfl, rfl⟩
        rw [hdeep]
        exact ⟨hcarriesDeep.congr (keeps_dsinit epoch no xpidot),
          started_dsinit rfl rfl rfl rfl hperiod epoch xpidot⟩
      · have hnear : p₃ = p₂ := if_neg hperiod
        rw [hnear]
        refine ⟨hcarries, ⟨rfl, .inl rfl, fun hday ↦ ?_, fun hhalf ↦ ?_⟩, rfl, rfl, ?_, fun _ ↦ rfl,
          fun hdeep ↦ ?_⟩
        · exact absurd hday (show (0 : ℤ) ≠ 1 by decide)
        · exact absurd hhalf (show (0 : ℤ) ≠ 2 by decide)
        · exact iff_of_false (show 'n' ≠ 'd' by decide) hperiod
        · exact absurd hdeep (show 'n' ≠ 'd' by decide)
    have hpowers := hstarted.2.congr (keeps_dragPowers i) rfl rfl rfl
    split_ifs
    · exact ⟨hstarted.1.congr (keeps_dragPowers i), hpowers.atime, .inl hpowers⟩
    · exact ⟨hstarted.1, hstarted.2.atime, .inl hstarted.2⟩
  · rw [if_neg hbranch]
    push Not at hbranch
    norm_num at hbranch
    exact ⟨⟨rfl, rfl, rfl, rfl, rfl, rfl⟩, rfl, .inr ⟨show 'n' ≠ 'd' by decide, hbranch.2⟩⟩

/-! ## The epoch -/

/-- At the epoch gravity and drag have not changed anything. -/
theorem Started.drag_zero (h : p.Started) : p.drag 0 =
    { argpm := p.argpo, nodem := p.nodeo, mm := p.mo, tempa := 1, tempe := 0, templ := 0 } := by
  unfold drag
  split_ifs
  · norm_num [h.delmo, h.sinmao]
  · norm_num

/-- The elements that the loop for Kepler's equation starts from are those of the element set, but for
full turns. -/
structure AtEpoch (p : Propagator) (e : MeanElements) : Prop where
  em : e.em = p.ecco
  argpm : e.argpm = p.argpo
  inclm : e.inclm = p.inclo
  nodem : e.nodem = p.nodeo
  nm : e.nm = p.noKozai
  mm : e.mm ≡ p.mo [PMOD twoPi]

theorem remReal_modEq (x y : ℝ) : remReal x y ≡ x [PMOD y] := by
  rw [AddCommGroup.modEq_iff_zsmul]
  refine ⟨truncReal (x / y), ?_⟩
  rw [remReal, zsmul_eq_mul]
  ring

theorem theta_eq : p.theta = remReal p.gsto twoPi := by norm_num [theta]

/-- The resonant longitude gives the mean anomaly back. -/
theorem Resonant.interpolate_zero (h : p.Resonant) (hirez : p.irez ≠ 0) {e : MeanElements}
    (hargpm : e.argpm = p.argpo) (hnodem : e.nodem = p.nodeo) :
    (p.interpolate 0 e p.epochState).nm = p.noKozai ∧
      (p.interpolate 0 e p.epochState).mm ≡ p.mo [PMOD twoPi] := by
  have hft : (0 : ℝ) - p.epochState.atime = 0 := sub_zero 0
  have hxni : p.epochState.xni = p.noKozai := rfl
  have hxli : p.epochState.xli = p.xlamo := rfl
  unfold interpolate
  simp only [hft, mul_zero, zero_mul, add_zero, hxni, hxli, hargpm, hnodem, ← theta_eq]
  refine ⟨trivial, ?_⟩
  by_cases hday : p.irez = 1
  · have hmod := remReal_modEq (p.mo + p.nodeo + p.argpo - p.theta) twoPi
    have hmo := (hmod.sub_right (p.nodeo + p.argpo)).add_right p.theta
    have hback : p.mo + p.nodeo + p.argpo - p.theta - (p.nodeo + p.argpo) + p.theta = p.mo := by ring
    rw [hback, ← sub_sub] at hmo
    rw [if_neg (not_not.mpr hday), h.day hday]
    exact hmo
  · have hhalf : p.irez = 2 := by
      have hkind := h.kind.resolve_left hirez
      rcases resonance_cases p.noKozai p.ecco with hnone | hone | htwo
      · exact absurd (hkind.trans hnone) hirez
      · exact absurd (hkind.trans hone) hday
      · exact hkind.trans htwo
    have hmod := remReal_modEq (p.mo + p.nodeo + p.nodeo - p.theta - p.theta) twoPi
    have hmo := (hmod.sub_right (2 * p.nodeo)).add_right (2 * p.theta)
    have hback : p.mo + p.nodeo + p.nodeo - p.theta - p.theta - 2 * p.nodeo + 2 * p.theta = p.mo := by
      ring
    rw [hback] at hmo
    rw [if_pos hday, h.half hhalf]
    norm_num only
    exact hmo

theorem Started.resonances_zero (h : p.Started) (fuel : ℕ) :
    ∃ e, p.resonances fuel 0 (p.drag 0) = .ok e ∧ p.AtEpoch e := by
  have hsecular (e : MeanElements) : p.secular 0 e = e := by
    cases e
    simp [secular]
  have hsteps : steps 0 = 0 := by simp [steps]
  unfold resonances
  rw [h.drag_zero]
  dsimp only
  by_cases hmethod : p.method = 'd'
  · rw [if_pos hmethod]
    by_cases hirez : p.irez = 0
    · rw [dspace_of_not_resonant _ hirez, hsecular]
      exact ⟨_, rfl, rfl, rfl, rfl, rfl, rfl, AddCommGroup.modEq_rfl⟩
    · have hinterpolate := h.toResonant.interpolate_zero hirez
        (e := { em := p.ecco, argpm := p.argpo, inclm := p.inclo, nodem := p.nodeo, nm := p.noKozai
                mm := p.mo }) rfl rfl
      rw [dspace_of_resonant _ hirez (.inl h.atime) (hsteps ▸ Nat.zero_le fuel), hsecular, hsteps]
      exact ⟨_, rfl, rfl, rfl, rfl, rfl, hinterpolate.1, hinterpolate.2⟩
  · rw [if_neg hmethod]
    exact ⟨_, rfl, rfl, rfl, rfl, rfl, rfl, AddCommGroup.modEq_rfl⟩

theorem xke_pos : 0 < xke := by norm_num [xke]

theorem xke_div_rpow {nm : ℝ} (hnm : 0 < nm) : xke / ((xke / nm) ^ x2o3) ^ (1.5 : ℝ) = nm := by
  have hbase : 0 ≤ xke / nm := (div_pos xke_pos hnm).le
  have hexponent : x2o3 * 1.5 = 1 := by norm_num [x2o3]
  rw [← rpow_mul hbase, hexponent, rpow_one, div_div_cancel₀ xke_pos.ne']

theorem nm_of_solve {tsince am : ℝ} {e : MeanElements} {o : Conic} (h : p.solve tsince am e = .ok o) :
    o.nm = e.nm := by
  unfold solve at h
  dsimp only at h
  split at h
  · cases h
  · rw [← Outcome.ok.inj h]

/-- The ellipse at the epoch. -/
theorem Started.conicAt_zero (h : p.Started) (fuel : ℕ) (hnm : 0 < p.noKozai)
    (hecco : -0.001 ≤ p.ecco ∧ p.ecco < 1.0) :
    ∃ o, p.conicAt fuel 0 = .ok o ∧ o.am = (xke / p.noKozai) ^ x2o3 ∧ o.nm = p.noKozai := by
  obtain ⟨e, he, hepoch⟩ := h.resonances_zero fuel
  have hpositive : ¬e.nm ≤ 0.0 := by
    rw [hepoch.nm]
    norm_num
    exact hnm
  unfold conicAt
  dsimp only
  rw [he, Outcome.ok_bind, if_neg hpositive, h.drag_zero]
  dsimp only
  rw [sub_zero, hepoch.em, if_neg (not_not.mpr hecco), hepoch.nm, mul_one, mul_one, xke_div_rpow hnm]
  obtain ⟨o, hsolve, ham, -⟩ := exists_solve p 0 _ _
  exact ⟨o, hsolve, ham, nm_of_solve hsolve⟩

/-- A propagator that `from_tle` returns has been tried at the epoch. -/
theorem fromTle_eq_ok {tle : Tle ℚ} {fuel : ℕ} (h : fromTle tle fuel = .ok p) :
    p = sgp4init tle ∧ ∃ v, p.propagate fuel 0 = .ok v := by
  obtain ⟨v, hv, hp⟩ := Outcome.bind_eq_ok.mp h
  have hzero : (0.0 : ℝ) = 0 := by norm_num
  rw [← Outcome.ok.inj hp, ← hzero]
  exact ⟨rfl, v, hv⟩

/-- The elements at the epoch are in the ranges that a propagation checks. -/
theorem Started.ranges (h : p.Started) {o : Conic} {fuel : ℕ} (ho : p.conicAt fuel 0 = .ok o) :
    0 < p.noKozai ∧ -0.001 ≤ p.ecco ∧ p.ecco < 1.0 := by
  obtain ⟨e, he, hepoch⟩ := h.resonances_zero fuel
  unfold conicAt at ho
  dsimp only at ho
  rw [he, Outcome.ok_bind, hepoch.nm, hepoch.em, h.drag_zero, sub_zero] at ho
  by_cases hnm : p.noKozai ≤ 0.0
  · rw [if_pos hnm] at ho
    cases ho
  · rw [if_neg hnm] at ho
    by_cases hecco : -0.001 ≤ p.ecco ∧ p.ecco < 1.0
    · norm_num at hnm
      exact ⟨hnm, hecco⟩
    · rw [if_pos hecco] at ho
      cases ho

/-- Without the initialisation the mean motion is refused. -/
theorem conicAt_ne_ok (hmethod : p.method ≠ 'd') (hnm : p.noKozai < 0) (fuel : ℕ) (o : Conic) :
    p.conicAt fuel 0 ≠ .ok o := by
  have hle : p.noKozai ≤ 0.0 := by
    norm_num
    exact hnm.le
  intro ho
  unfold conicAt resonances at ho
  dsimp only at ho
  rw [if_neg hmethod, Outcome.ok_bind, if_pos hle] at ho
  cases ho

/-- An element set never makes the initialisation hang. A propagator that it returns has the elements of
the set, on an ellipse and with a mean motion; at the epoch its axis is that of the mean motion, and the
anomaly is given back up to full turns whatever the resonance; and no propagation with it hangs. -/
theorem fromTle_starts (tle : Tle ℚ) : (fromTle tle 0).Returns ∧
    ∀ p, fromTle tle 0 = .ok p → p.Carries tle ∧ p.Started ∧
      (0 < p.noKozai ∧ -0.001 ≤ p.ecco ∧ p.ecco < 1.0) ∧
      (∃ e, p.resonances 0 0 (p.drag 0) = .ok e ∧ p.AtEpoch e) ∧
      (∃ o, p.conicAt 0 0 = .ok o ∧ o.am = (xke / p.noKozai) ^ x2o3 ∧ o.nm = p.noKozai) ∧
      ∀ (fuel : ℕ) (tsince : ℝ), |tsince| < (fuel + 1) * stepp →
        (p.propagate fuel tsince).Returns := by
  obtain ⟨hcarries, hatime, hinit⟩ := sgp4init_spec tle
  constructor
  · have hfuel : |(0.0 : ℝ)| < ((0 : ℕ) + 1) * stepp := by norm_num [stepp]
    rw [fromTle, Outcome.returns_bind_iff]
    exact ⟨propagate_returns hatime hfuel, fun _ _ ↦ trivial⟩
  · intro p hp
    obtain ⟨rfl, v, hv⟩ := fromTle_eq_ok hp
    obtain ⟨o, ho, -⟩ := Outcome.bind_eq_ok.mp hv
    have hstarted : (sgp4init tle).Started :=
      hinit.resolve_right fun hrefused ↦ conicAt_ne_ok hrefused.1 hrefused.2 0 o ho
    have hranges := hstarted.ranges ho
    exact ⟨hcarries, hstarted, hranges, hstarted.resonances_zero 0,
      hstarted.conicAt_zero 0 hranges.1 hranges.2,
      fun fuel tsince hfuel ↦ propagate_returns hatime hfuel⟩

end Propagator

end

end Zenith.Orbit.Sgp4
