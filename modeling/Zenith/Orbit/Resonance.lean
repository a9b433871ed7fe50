import Zenith.Data.Loop
import Zenith.Orbit.Lyddane

/-!
# Resonances

`dspace` integrates the mean motion and the mean longitude of a resonant deep-space orbit in steps of
720 minutes from the epoch, and keeps the last step for the next call. A later call goes on from there
if the step is on its way and starts over if it is not. No call depends on those before it. Times are real
numbers, so that a step always gets on; a double would stand still from `2 ^ 63` minutes on.
-/

namespace Zenith.Orbit.Sgp4

open Rust Real

noncomputable section

/-- The fields that `dspace` keeps between calls. -/
structure Integrator where
  xli : ℝ
  xni : ℝ
  atime : ℝ

/-- The element set, as `from_tle` leaves it. -/
structure Propagator extends DeepSpace, Integrator where
  isimp : ℤ
  method : Char
  (aycof con41 cc1 cc4 cc5 d2 d3 d4 delmo eta argpdot omgcof sinmao : ℝ)
  (t2cof t3cof t4cof t5cof x1mth2 x7thm1 mdot nodecf nodedot xlcof xmcof noKozai : ℝ)
  (bstar ecco argpo inclo mo nodeo : ℝ)
  irez : ℤ
  (d2201 d2211 d3210 d3222 d4410 d4422 d5220 d5232 d5421 d5433 : ℝ)
  (dedt del1 del2 del3 didt dmdt dnodt domdt : ℝ)
  (gsto xfact xlamo : ℝ)

/-- The elements that `dspace` updates in place. -/
structure MeanElements where
  (em argpm inclm nodem nm mm : ℝ)

/-- The derivatives in the loop of `dspace`. -/
structure Rates where
  (xndt xldot xnddt : ℝ)

/-- The rotation of the Earth in radians a minute, `rptim` and `EARTH_ROTATION_RAD_PER_MIN`. -/
def rptim : ℝ := 4.3752690880113e-3

def stepp : ℝ := 720.0

def stepn : ℝ := -720.0

def step2 : ℝ := 259200.0

namespace Propagator

variable (p : Propagator)

/-- With `irez` equal to two the orbit takes half a day, else a day. -/
def rates (s : Integrator) : Rates :=
  if p.irez ≠ 2 then
    let fasx2 := 0.13130908
    let fasx4 := 2.8843198
    let fasx6 := 0.37448087
    let xndt := p.del1 * sin (s.xli - fasx2) + p.del2 * sin (2.0 * (s.xli - fasx4)) +
      p.del3 * sin (3.0 * (s.xli - fasx6))
    let xldot := s.xni + p.xfact
    let xnddt := p.del1 * cos (s.xli - fasx2) + 2.0 * p.del2 * cos (2.0 * (s.xli - fasx4)) +
      3.0 * p.del3 * cos (3.0 * (s.xli - fasx6))
    ⟨xndt, xldot, xnddt * xldot⟩
  else
    let g22 := 5.7686396
    let g32 := 0.95240898
    let g44 := 1.8014998
    let g52 := 1.0508330
    let g54 := 4.4108898
    let xomi := p.argpo + p.argpdot * s.atime
    let x2omi := xomi + xomi
    let x2li := s.xli + s.xli
    let xndt := p.d2201 * sin (x2omi + s.xli - g22) + p.d2211 * sin (s.xli - g22) +
      p.d3210 * sin (xomi + s.xli - g32) + p.d3222 * sin (-xomi + s.xli - g32) +
      p.d4410 * sin (x2omi + x2li - g44) + p.d4422 * sin (x2li - g44) +
      p.d5220 * sin (xomi + s.xli - g52) + p.d5232 * sin (-xomi + s.xli - g52) +
      p.d5421 * sin (xomi + x2li - g54) + p.d5433 * sin (-xomi + x2li - g54)
    let xldot := s.xni + p.xfact
    let xnddt := p.d2201 * cos (x2omi + s.xli - g22) + p.d2211 * cos (s.xli - g22) +
      p.d3210 * cos (xomi + s.xli - g32) + p.d3222 * cos (-xomi + s.xli - g32) +
      p.d5220 * cos (xomi + s.xli - g52) + p.d5232 * cos (-xomi + s.xli - g52) +
      2.0 * (p.d4410 * cos (x2omi + x2li - g44) + p.d4422 * cos (x2li - g44) +
        p.d5421 * cos (xomi + x2li - g54) + p.d5433 * cos (-xomi + x2li - g54))
    ⟨xndt, xldot, xnddt * xldot⟩

/-- A step of the integrator. -/
def advance (delt : ℝ) (s : Integrator) : Integrator :=
  let r := p.rates s
  ⟨s.xli + r.xldot * delt + r.xndt * step2, s.xni + r.xndt * delt + r.xnddt * step2, s.atime + delt⟩

/-- Where the integrator is at the epoch. -/
def epochState : Integrator := ⟨p.xlamo, p.noKozai, 0⟩

/-- The state that a call goes on from. -/
def resume (tc : ℝ) : Integrator :=
  if p.atime = 0 ∨ tc * p.atime ≤ 0 ∨ |tc| < |p.atime| then p.epochState else p.toIntegrator

def delt (tc : ℝ) : ℝ := if tc > 0 then stepp else stepn

/-- The loop makes another step while the time is not within one of them. -/
def More (tc : ℝ) (s : Integrator) : Prop := stepp ≤ |tc - s.atime|

instance (tc : ℝ) : DecidablePred (More tc) := fun s ↦ inferInstanceAs (Decidable (stepp ≤ |tc - s.atime|))

/-- The propagator with another step kept. -/
def keep (s : Integrator) : Propagator := { p with toIntegrator := s }

/-- The updates at the head of `dspace`. -/
def secular (tc : ℝ) (e : MeanElements) : MeanElements where
  em := e.em + p.dedt * tc
  inclm := e.inclm + p.didt * tc
  argpm := e.argpm + p.domdt * tc
  nodem := e.nodem + p.dnodt * tc
  nm := e.nm
  mm := e.mm + p.dmdt * tc

/-- What is left of the time after the last step. -/
def interpolate (tc : ℝ) (e : MeanElements) (s : Integrator) : MeanElements :=
  let theta := remReal (p.gsto + tc * rptim) twoPi
  let r := p.rates s
  let ft := tc - s.atime
  let nm := s.xni + r.xndt * ft + r.xnddt * ft * ft * 0.5
  let xl := s.xli + r.xldot * ft + r.xndt * ft * ft * 0.5
  let mm := if p.irez ≠ 1 then xl - 2.0 * e.nodem + 2.0 * theta else xl - e.nodem - e.argpm + theta
  { e with nm, mm }

/-- `none` stands for more than `fuel` steps. -/
def dspace (fuel : ℕ) (tc : ℝ) (e : MeanElements) : Option (Propagator × MeanElements) :=
  let e := p.secular tc e
  if p.irez ≠ 0 then
    (Loop.run (More tc) (p.advance (delt tc)) fuel (p.resume tc)).map fun s ↦
      (p.keep s, p.interpolate tc e s)
  else some (p, e)

/-- Calls in a row on one propagator. -/
def dspaces (fuel : ℕ) : Propagator → List (ℝ × MeanElements) → Option (List MeanElements)
  | _, [] => some []
  | p, c :: calls => do
    let (p, e) ← p.dspace fuel c.1 c.2
    let rest ← dspaces fuel p calls
    return e :: rest

/-! ## Steps -/

theorem stepp_pos : 0 < stepp := by norm_num [stepp]

theorem delt_eq (tc : ℝ) : delt tc = if tc > 0 then stepp else -stepp := by
  unfold delt stepp stepn
  norm_num

variable {p}

theorem atime_advance_iterate (δ : ℝ) (s : Integrator) (n : ℕ) :
    ((p.advance δ)^[n] s).atime = s.atime + n * δ := by
  induction n with
  | zero => simp
  | succ n ih =>
    rw [Function.iterate_succ_apply']
    change ((p.advance δ)^[n] s).atime + δ = _
    rw [ih]
    push_cast
    ring

/-- The number of whole steps up to a time. -/
def steps (tc : ℝ) : ℕ := ⌊|tc| / stepp⌋₊

theorem steps_mul_le (tc : ℝ) : steps tc * stepp ≤ |tc| :=
  (le_div_iff₀ stepp_pos).mp (Nat.floor_le (div_nonneg (abs_nonneg tc) stepp_pos.le))

theorem lt_steps_succ_mul (tc : ℝ) : |tc| < (steps tc + 1) * stepp :=
  (div_lt_iff₀ stepp_pos).mp (Nat.lt_floor_add_one _)

/-- Steps towards a time bring it closer, as long as there are no more than it has. -/
theorem abs_sub_steps {tc : ℝ} {n : ℕ} (hn : n ≤ steps tc) : |tc - n * delt tc| = |tc| - n * stepp := by
  have hle := steps_mul_le tc
  have hmul : (n : ℝ) * stepp ≤ steps tc * stepp :=
    mul_le_mul_of_nonneg_right (Nat.cast_le.mpr hn) stepp_pos.le
  rw [delt_eq]
  split_ifs with htc
  · rw [abs_of_pos htc] at hle ⊢
    rw [abs_of_nonneg (by linarith)]
  · rw [abs_of_nonpos (not_lt.mp htc)] at hle ⊢
    rw [abs_of_nonpos (by linarith)]
    ring

theorem more_iterate {tc : ℝ} {s : Integrator} (hs : s.atime = 0) {n : ℕ} (hn : n < steps tc) :
    More tc ((p.advance (delt tc))^[n] s) := by
  have hle := steps_mul_le tc
  have hsucc : ((n : ℝ) + 1) * stepp ≤ steps tc * stepp := by
    apply mul_le_mul_of_nonneg_right _ stepp_pos.le
    exact_mod_cast hn
  unfold More
  rw [atime_advance_iterate, hs, zero_add, abs_sub_steps hn.le]
  linarith

theorem not_more_iterate {tc : ℝ} {s : Integrator} (hs : s.atime = 0) :
    ¬More tc ((p.advance (delt tc))^[steps tc] s) := by
  have hlt := lt_steps_succ_mul tc
  unfold More
  rw [atime_advance_iterate, hs, zero_add, abs_sub_steps le_rfl]
  linarith

/-! ## The kept step -/

/-- The kept step is one that a call from the epoch makes. -/
def Kept (p : Propagator) : Prop :=
  p.atime = 0 ∨ ∃ t n, p.toIntegrator = (p.advance (delt t))^[n] p.epochState

/-- A step that is on the way to `tc` has been made in the direction of `tc`. -/
theorem delt_eq_of_onWay {t tc : ℝ} {n : ℕ} (hway : 0 < tc * (n * delt t)) : delt t = delt tc := by
  have hn : (0 : ℝ) ≤ n := n.cast_nonneg
  have hpos := stepp_pos
  rw [delt_eq, delt_eq] at *
  split_ifs at * with ht htc htc
  · rfl
  · exact absurd hway (not_lt.mpr (mul_nonpos_of_nonpos_of_nonneg (not_lt.mp htc) (by positivity)))
  · have hneg : (n : ℝ) * -stepp ≤ 0 := mul_nonpos_of_nonneg_of_nonpos hn (by linarith)
    exact absurd hway (not_lt.mpr (mul_nonpos_of_nonneg_of_nonpos htc.le hneg))
  · rfl

/-- From where a call resumes it gets to the same step as from the epoch. -/
theorem run_resume (hkept : p.Kept) {tc : ℝ} {fuel : ℕ} (hfuel : steps tc ≤ fuel) :
    Loop.run (More tc) (p.advance (delt tc)) fuel (p.resume tc) =
      some ((p.advance (delt tc))^[steps tc] p.epochState) := by
  have hstart : p.epochState.atime = 0 := rfl
  unfold resume
  split_ifs with hreset
  · exact Loop.run_eq (fun k hk ↦ more_iterate hstart hk) (not_more_iterate hstart) hfuel
  · push Not at hreset
    obtain ⟨hne, hway, hfar⟩ := hreset
    obtain ⟨t, n, hmemo⟩ := hkept.resolve_left hne
    have hatime : p.atime = n * delt t := by
      have hiterate := atime_advance_iterate (p := p) (delt t) p.epochState n
      rw [← hmemo, hstart, zero_add] at hiterate
      exact hiterate
    rw [hatime] at hway hfar
    have hdelt := delt_eq_of_onWay hway
    rw [hdelt] at hmemo hfar
    have hn : n ≤ steps tc := by
      apply Nat.le_floor
      rw [le_div_iff₀ stepp_pos]
      have habs : |(n : ℝ) * delt tc| = n * stepp := by
        rw [abs_mul, Nat.abs_cast, delt_eq]
        split_ifs
        · rw [abs_of_pos stepp_pos]
        · rw [abs_neg, abs_of_pos stepp_pos]
      rwa [← habs]
    have hjoin (k : ℕ) : (p.advance (delt tc))^[k] p.toIntegrator =
        (p.advance (delt tc))^[k + n] p.epochState := by
      rw [hmemo, Function.iterate_add_apply]
    rw [← Nat.sub_add_cancel hn, ← hjoin]
    apply Loop.run_eq
    · intro k hk
      rw [hjoin]
      exact more_iterate hstart (by omega)
    · rw [hjoin, Nat.sub_add_cancel hn]
      exact not_more_iterate hstart
    · omega

/-! ## Runs -/

variable (s : Integrator) (tc : ℝ) (e : MeanElements)

@[simp] theorem keep_keep (s' : Integrator) : (p.keep s).keep s' = p.keep s' := rfl

@[simp] theorem irez_keep : (p.keep s).irez = p.irez := rfl

@[simp] theorem epochState_keep : (p.keep s).epochState = p.epochState := rfl

@[simp] theorem rates_keep : (p.keep s).rates = p.rates := rfl

@[simp] theorem advance_keep (δ : ℝ) : (p.keep s).advance δ = p.advance δ := by
  funext s'
  rw [advance, advance, rates_keep]

@[simp] theorem secular_keep : (p.keep s).secular tc e = p.secular tc e := rfl

@[simp] theorem interpolate_keep (s' : Integrator) :
    (p.keep s).interpolate tc e s' = p.interpolate tc e s' := by
  unfold interpolate
  rw [rates_keep, irez_keep]
  rfl

variable {s tc}

theorem dspace_of_resonant (hirez : p.irez ≠ 0) (hkept : p.Kept) {fuel : ℕ}
    (hfuel : steps tc ≤ fuel) : p.dspace fuel tc e =
      some (p.keep ((p.advance (delt tc))^[steps tc] p.epochState),
        p.interpolate tc (p.secular tc e) ((p.advance (delt tc))^[steps tc] p.epochState)) := by
  unfold dspace
  dsimp only
  rw [if_pos hirez, run_resume hkept hfuel, Option.map_some]

theorem dspace_of_not_resonant (hirez : p.irez = 0) (fuel : ℕ) :
    p.dspace fuel tc e = some (p, p.secular tc e) := if_neg (not_not.mpr hirez)

/-- What a call returns does not depend on the kept step, and the step it keeps is again one from the
epoch. -/
theorem exists_dspace {fuel : ℕ} (hfuel : steps tc ≤ fuel) :
    ∃ e', ∀ s, (p.keep s).Kept →
      ∃ s', (p.keep s).dspace fuel tc e = some (p.keep s', e') ∧ (p.keep s').Kept := by
  by_cases hirez : p.irez = 0
  · refine ⟨p.secular tc e, fun s hkept ↦ ⟨s, ?_, hkept⟩⟩
    rw [dspace_of_not_resonant e (by rwa [irez_keep]), secular_keep]
  · refine ⟨p.interpolate tc (p.secular tc e) ((p.advance (delt tc))^[steps tc] p.epochState),
      fun s hkept ↦ ⟨(p.advance (delt tc))^[steps tc] p.epochState, ?_, ?_⟩⟩
    · rw [dspace_of_resonant e (by rwa [irez_keep]) hkept hfuel, advance_keep, epochState_keep,
        keep_keep, secular_keep, interpolate_keep]
    · refine .inr ⟨tc, steps tc, ?_⟩
      rw [advance_keep, epochState_keep]
      rfl

omit e

theorem steps_le_of_lt {fuel : ℕ} (h : |tc| < (fuel + 1) * stepp) : steps tc ≤ fuel := by
  have hle := steps_mul_le tc
  have hlt : (steps tc : ℝ) < fuel + 1 := lt_of_mul_lt_mul_right (hle.trans_lt h) stepp_pos.le
  exact Nat.lt_succ_iff.mp (by exact_mod_cast hlt)

theorem forall₂_dspaces {fuel : ℕ} {calls : List (ℝ × MeanElements)}
    (hfuel : ∀ c ∈ calls, |c.1| < (fuel + 1) * stepp) (hkept : (p.keep s).Kept)
    (hstart : p.Kept) : ∃ results, (p.keep s).dspaces fuel calls = some results ∧
      List.Forall₂ (fun c e ↦ ∃ p', p.dspace fuel c.1 c.2 = some (p', e)) calls results := by
  induction calls generalizing s with
  | nil => exact ⟨[], rfl, .nil⟩
  | cons c calls ih =>
    have hsteps := steps_le_of_lt (hfuel c List.mem_cons_self)
    obtain ⟨e, hcall⟩ := exists_dspace (p := p) c.2 hsteps
    obtain ⟨s', hdspace, hkept'⟩ := hcall s hkept
    obtain ⟨s₀, hfirst, -⟩ := hcall p.toIntegrator hstart
    obtain ⟨rest, hrest, hall⟩ := ih (fun c' hc' ↦ hfuel c' (List.mem_cons_of_mem _ hc')) hkept'
    refine ⟨e :: rest, ?_, .cons ⟨_, hfirst⟩ hall⟩
    rw [dspaces, hdspace]
    change ((p.keep s').dspaces fuel calls).bind _ = _
    rw [hrest]
    rfl

/-- Any calls in any order: all end, and each returns what it would return as the first one. -/
theorem dspaces_history (hstart : p.atime = 0) {fuel : ℕ} (calls : List (ℝ × MeanElements))
    (hfuel : ∀ c ∈ calls, |c.1| < (fuel + 1) * stepp) :
    ∃ results, p.dspaces fuel calls = some results ∧
      List.Forall₂ (fun c e ↦ ∃ p', p.dspace fuel c.1 c.2 = some (p', e)) calls results :=
  forall₂_dspaces (s := p.toIntegrator) hfuel (.inl hstart) (.inl hstart)

/-- A geostationary orbit in resonance with the Earth. -/
def geostationary : Propagator where
  toDeepSpace := quiet
  toIntegrator := ⟨0, 0, 0⟩
  isimp := 1
  method := 'd'
  aycof := 0
  con41 := 2.0
  cc1 := 0
  cc4 := 0
  cc5 := 0
  d2 := 0
  d3 := 0
  d4 := 0
  delmo := 1
  eta := 0
  argpdot := 0
  omgcof := 0
  sinmao := 0
  t2cof := 0
  t3cof := 0
  t4cof := 0
  t5cof := 0
  x1mth2 := 0
  x7thm1 := 6.0
  mdot := rptim
  nodecf := 0
  nodedot := 0
  xlcof := 0
  xmcof := 0
  noKozai := rptim
  bstar := 0
  ecco := 0
  argpo := 0
  inclo := 0
  mo := 0
  nodeo := 0
  irez := 1
  d2201 := 0
  d2211 := 0
  d3210 := 0
  d3222 := 0
  d4410 := 0
  d4422 := 0
  d5220 := 0
  d5232 := 0
  d5421 := 0
  d5433 := 0
  dedt := 0
  del1 := 3.0e-12
  del2 := 2.0e-11
  del3 := 2.0e-12
  didt := 0
  dmdt := 0
  dnodt := 0
  domdt := 0
  gsto := 1
  xfact := 0
  xlamo := 1

def atEpoch : MeanElements := ⟨0, 0, 0, 0, rptim, 0⟩

/-- Times out of order, on both sides of the epoch. -/
def outOfOrder : List (ℝ × MeanElements) :=
  [(1000.0, atEpoch), (5000.0, atEpoch), (-800.0, atEpoch), (4000.0, atEpoch)]

theorem dspaces_history_outOfOrder : ∃ results,
    geostationary.dspaces 6 outOfOrder = some results ∧
      List.Forall₂ (fun c e ↦ ∃ p', geostationary.dspace 6 c.1 c.2 = some (p', e)) outOfOrder
        results := by
  apply dspaces_history rfl
  intro c hc
  simp only [outOfOrder, List.mem_cons, List.not_mem_nil, or_false] at hc
  rcases hc with rfl | rfl | rfl | rfl <;> norm_num [stepp, abs_of_pos, abs_of_neg]

end Propagator

end

end Zenith.Orbit.Sgp4
