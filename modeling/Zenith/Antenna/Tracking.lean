import Zenith.Antenna.Contract
import Zenith.Antenna.Separation
import Zenith.Data.BinaryFloat

/-!
# The tracking loop

`Tracker::track` slews a dish to where a satellite rises and then follows it to where it sets. What a
run reports is a function of the times of its ticks; how far a simulated dish is off depends on how fast
the satellite moves across the sky. The times and angles of a run are rational numbers, which the ticks add
up without rounding; only the errors, with their sines and roots, are real.
-/

namespace Zenith.Rust

/-- `Duration::from_secs_f64`, which panics if a duration cannot be negative or so long. -/
def Duration.fromSecsF64 (secs : ℚ) : Option Duration :=
  if secs < 0 then none
  else
    let nanos := (BinaryFloat.nearestEven (secs * 10 ^ 9)).toNat
    if nanos < 2 ^ 64 * 10 ^ 9 then some (nanos / 10 ^ 9) else none

/-- `(x / y).ceil() as usize`. A quotient by zero is infinite or not a number. -/
def ceilUsize (x y : ℚ) : ℕ :=
  if y = 0 then if 0 < x then 2 ^ 64 - 1 else 0 else min ⌈x / y⌉.toNat (2 ^ 64 - 1)

end Zenith.Rust

namespace Zenith.Antenna

open Rust Orbit Slew

/-- What a backend answers. A tick may panic. -/
class DishBackend (β : Type) where
  command : β → PointingCommand → Except DishError Unit × β
  tick : β → Duration → Option β
  state : β → DishState
  limits : β → DishLimits

instance : DishBackend SimulatedDish where
  command := SimulatedDish.command
  tick := SimulatedDish.tick
  state := SimulatedDish.state
  limits := SimulatedDish.limits

structure TrackSample where
  tsinceMin : ℚ
  targetAzimuthDeg : ℚ
  targetElevationDeg : ℚ
  actualAzimuthDeg : ℚ
  actualElevationDeg : ℚ
  errorDeg : ℝ

structure TrackingReport where
  samples : List TrackSample
  maxErrorDeg : ℝ
  rmsErrorDeg : ℝ
  acquired : Bool

structure TrackConfig where
  tickSecs : ℚ
  acquireToleranceDeg : ℚ
  acquireTimeoutSecs : ℚ
  deriving DecidableEq, Repr

/-- `TrackConfig::default`. -/
def TrackConfig.default : TrackConfig := ⟨1 / 2, 1 / 10, 120⟩

/-- `dt_min`. -/
def TrackConfig.dtMin (config : TrackConfig) : ℚ := config.tickSecs / 60

structure Tracker where
  sat : Propagator
  station : GroundStation
  leadMin : ℚ

/-- The local variables of the tracking phase. -/
structure Following (β : Type) where
  dish : β
  t : ℚ
  samples : List TrackSample
  sumSq : ℝ
  maxError : ℝ

namespace Tracker

def new (sat : Propagator) (station : GroundStation) : Tracker := ⟨sat, station, 0⟩

def withLead (tracker : Tracker) (leadMin : ℚ) : Tracker := { tracker with leadMin }

variable (lookAngles : GroundStation → StateVector → ℚ → LookAngles) (tracker : Tracker)

def desiredPointing (tsinceMin : ℚ) : Except OrbitError LookAngles :=
  lookAt lookAngles tracker.sat tracker.station tsinceMin

noncomputable section

variable {β : Type} [DishBackend β]

/-- The acquisition phase, for at most so many ticks. -/
def acquire (dt : Duration) (target : LookAngles) (toleranceDeg : ℚ) : ℕ → β → Option (Bool × β)
  | 0, dish => some (false, dish)
  | ticks + 1, dish => do
    let dish ← DishBackend.tick dish dt
    let s := DishBackend.state dish
    let err := angularSeparationDeg s.azimuthDeg s.elevationDeg target.azimuthDeg target.elevationDeg
    if err ≤ toleranceDeg then some (true, dish) else acquire dt target toleranceDeg ticks dish

/-- The sample of a dish and of the true position at a time. -/
def sample (s : DishState) (truth : LookAngles) (tsinceMin : ℚ) : TrackSample where
  tsinceMin := tsinceMin
  targetAzimuthDeg := truth.azimuthDeg
  targetElevationDeg := truth.elevationDeg
  actualAzimuthDeg := s.azimuthDeg
  actualElevationDeg := s.elevationDeg
  errorDeg := angularSeparationDeg s.azimuthDeg s.elevationDeg truth.azimuthDeg truth.elevationDeg

/-- The body of the tracking loop. -/
def followStep (dt : Duration) (dtMin losMin : ℚ) (s : Following β) :
    Outcome OrbitError (Following β) := do
  let leadT := min (s.t + tracker.leadMin) losMin
  let cmd ← .ofExcept (tracker.desiredPointing lookAngles leadT)
  let dish := (DishBackend.command s.dish ⟨.finite cmd.azimuthDeg, .finite cmd.elevationDeg⟩).2
  let dish ← .ofOption (DishBackend.tick dish dt)
  let t := s.t + dtMin
  let truth ← .ofExcept (tracker.desiredPointing lookAngles (min t losMin))
  let taken := sample (DishBackend.state dish) truth (min t losMin)
  .ok { dish
        t
        samples := s.samples ++ [taken]
        sumSq := s.sumSq + taken.errorDeg * taken.errorDeg
        maxError := max s.maxError taken.errorDeg }

/-- The tracking loop, for as long as the fuel lasts. -/
def follow (dt : Duration) (dtMin losMin : ℚ) : ℕ → Following β → Outcome OrbitError (Following β)
  | fuel, s =>
    if s.t ≤ losMin + 1 / 10 ^ 9 then
      match fuel with
      | 0 => .outOfFuel
      | fuel + 1 => do
        let s ← tracker.followStep lookAngles dt dtMin losMin s
        follow dt dtMin losMin fuel s
    else .ok s

def track (dish : β) (aosMin losMin : ℚ) (config : TrackConfig) (fuel : ℕ) :
    Outcome OrbitError (TrackingReport × β) := do
  let dt ← .ofOption (Duration.fromSecsF64 config.tickSecs)
  let acquisition ← .ofExcept (tracker.desiredPointing lookAngles aosMin)
  let dish :=
    (DishBackend.command dish ⟨.finite acquisition.azimuthDeg, .finite acquisition.elevationDeg⟩).2
  let maxAcquireTicks := ceilUsize config.acquireTimeoutSecs config.tickSecs
  let (acquired, dish) ← .ofOption
    (acquire dt acquisition config.acquireToleranceDeg maxAcquireTicks dish)
  let s ← tracker.follow lookAngles dt config.dtMin losMin fuel
    { dish, t := aosMin, samples := [], sumSq := 0, maxError := 0 }
  let rms := if s.samples.isEmpty then 0 else √(s.sumSq / s.samples.length)
  .ok ({ samples := s.samples
         maxErrorDeg := s.maxError
         rmsErrorDeg := rms
         acquired }, s.dish)

/-! ## Runs -/

variable {lookAngles tracker} {dt : Duration} {dtMin aosMin losMin : ℚ} {s s' : Following β}

/-- The setpoint that a position of the satellite gives. -/
def aimed (dish : β) (look : LookAngles) : β :=
  (DishBackend.command dish ⟨.finite look.azimuthDeg, .finite look.elevationDeg⟩).2

/-- The variables of the loop after a tick that ends with the dish and the true position given. -/
def ticked (dtMin losMin : ℚ) (s : Following β) (dish : β) (truth : LookAngles) : Following β :=
  let taken := sample (DishBackend.state dish) truth (min (s.t + dtMin) losMin)
  { dish
    t := s.t + dtMin
    samples := s.samples ++ [taken]
    sumSq := s.sumSq + taken.errorDeg * taken.errorDeg
    maxError := max s.maxError taken.errorDeg }

/-- Everything that the body of the loop does when it gets to its end. -/
theorem followStep_eq_ok : tracker.followStep lookAngles dt dtMin losMin s = .ok s' ↔
    ∃ cmd dish truth,
      tracker.desiredPointing lookAngles (min (s.t + tracker.leadMin) losMin) = .ok cmd ∧
      DishBackend.tick (aimed s.dish cmd) dt = some dish ∧
      tracker.desiredPointing lookAngles (min (s.t + dtMin) losMin) = .ok truth ∧
      s' = ticked dtMin losMin s dish truth := by
  constructor
  · intro h
    obtain ⟨cmd, hcmd, h⟩ := Outcome.bind_eq_ok.mp h
    obtain ⟨dish, hdish, h⟩ := Outcome.bind_eq_ok.mp h
    obtain ⟨truth, htruth, h⟩ := Outcome.bind_eq_ok.mp h
    exact ⟨cmd, dish, truth, Outcome.ofExcept_eq_ok.mp hcmd, Outcome.ofOption_eq_ok.mp hdish,
      Outcome.ofExcept_eq_ok.mp htruth, (Outcome.ok.inj h).symm⟩
  · rintro ⟨cmd, dish, truth, hcmd, hdish, htruth, rfl⟩
    unfold aimed at hdish
    unfold followStep
    simp only [hcmd, Outcome.ofExcept_ok, Outcome.ok_bind, hdish, Outcome.ofOption_some, htruth]
    rfl

theorem time_of_followStep (h : tracker.followStep lookAngles dt dtMin losMin s = .ok s') :
    s'.t = s.t + dtMin := by
  obtain ⟨cmd, dish, truth, -, -, -, rfl⟩ := followStep_eq_ok.mp h
  rfl

omit [DishBackend β] in
/-- The loop goes on as long as there are samples to take. -/
theorem more_iff (hdt : 0 < dtMin) {k : ℕ} (ht : s.t = sampleTime aosMin dtMin k) :
    s.t ≤ losMin + 1 / 10 ^ 9 ↔ k < sampleCount aosMin losMin dtMin := by
  rw [ht, sampleTime_le_iff hdt]

/-- The variables that the loop starts with. -/
def followStart (dish : β) (aosMin : ℚ) : Following β where
  dish := dish
  t := aosMin
  samples := []
  sumSq := 0
  maxError := 0

/-- The report on the variables that the loop leaves. -/
def reportOf (acquired : Bool) (s : Following β) : TrackingReport where
  samples := s.samples
  maxErrorDeg := s.maxError
  rmsErrorDeg := if s.samples.isEmpty then 0 else √(s.sumSq / s.samples.length)
  acquired := acquired

theorem track_eq (dish : β) (config : TrackConfig) (fuel : ℕ) :
    tracker.track lookAngles dish aosMin losMin config fuel =
      .ofOption (Duration.fromSecsF64 config.tickSecs) >>= fun dt ↦
      .ofExcept (tracker.desiredPointing lookAngles aosMin) >>= fun acquisition ↦
      .ofOption (acquire dt acquisition config.acquireToleranceDeg
        (ceilUsize config.acquireTimeoutSecs config.tickSecs) (aimed dish acquisition)) >>= fun r ↦
      tracker.follow lookAngles dt config.dtMin losMin fuel (followStart r.2 aosMin) >>= fun s ↦
      .ok (reportOf r.1 s, s.dish) := rfl

/-- What follows the acquisition. -/
theorem track_eq_of_acquire {dish start : β} {config : TrackConfig} {fuel : ℕ} {dt : Duration}
    {look : LookAngles} {acquired : Bool} (hdt : Duration.fromSecsF64 config.tickSecs = some dt)
    (hpointing : tracker.desiredPointing lookAngles aosMin = .ok look)
    (hacquire : acquire dt look config.acquireToleranceDeg
      (ceilUsize config.acquireTimeoutSecs config.tickSecs) (aimed dish look) =
        some (acquired, start)) :
    tracker.track lookAngles dish aosMin losMin config fuel =
      tracker.follow lookAngles dt config.dtMin losMin fuel (followStart start aosMin) >>= fun s ↦
      .ok (reportOf acquired s, s.dish) := by
  rw [track_eq, hdt, Outcome.ofOption_some, Outcome.ok_bind, hpointing, Outcome.ofExcept_ok,
    Outcome.ok_bind, hacquire, Outcome.ofOption_some, Outcome.ok_bind]

section Induction

variable {P : ℕ → Following β → Prop} (hdt : 0 < dtMin)
include hdt

/-- A loop whose rounds all get to their end gets to its own. -/
theorem exists_follow {k : ℕ} (ht : s.t = sampleTime aosMin dtMin k) (hP : P k s)
    (hk : k ≤ sampleCount aosMin losMin dtMin)
    (hstep : ∀ k s, s.t = sampleTime aosMin dtMin k → k < sampleCount aosMin losMin dtMin → P k s →
      ∃ s', tracker.followStep lookAngles dt dtMin losMin s = .ok s' ∧ P (k + 1) s')
    {fuel : ℕ} (hfuel : sampleCount aosMin losMin dtMin ≤ k + fuel) :
    ∃ s', tracker.follow lookAngles dt dtMin losMin fuel s = .ok s' ∧
      P (sampleCount aosMin losMin dtMin) s' := by
  induction fuel generalizing k s with
  | zero =>
    have hlast : k = sampleCount aosMin losMin dtMin := le_antisymm hk hfuel
    have hmore : ¬s.t ≤ losMin + 1 / 10 ^ 9 := by
      rw [more_iff hdt ht, hlast]
      exact lt_irrefl _
    exact ⟨s, by rw [follow, if_neg hmore], hlast ▸ hP⟩
  | succ fuel ih =>
    by_cases hmore : s.t ≤ losMin + 1 / 10 ^ 9
    · have hlt := (more_iff hdt ht).mp hmore
      obtain ⟨next, hnext, hPnext⟩ := hstep k s ht hlt hP
      have htime : next.t = sampleTime aosMin dtMin (k + 1) := by
        rw [time_of_followStep hnext, ht, sampleTime_succ]
      obtain ⟨s', hs', hPs'⟩ := ih htime hPnext hlt (by omega)
      exact ⟨s', by rw [follow, if_pos hmore, hnext, Outcome.ok_bind, hs'], hPs'⟩
    · have hlast : k = sampleCount aosMin losMin dtMin :=
        le_antisymm hk (not_lt.mp (mt (more_iff hdt ht).mpr hmore))
      exact ⟨s, by rw [follow, if_neg hmore], hlast ▸ hP⟩

end Induction

/-- What holds of the samples before a tick and of its own holds of all samples after it. -/
theorem forall_getElem?_concat {α : Type} {P : ℕ → α → Prop} {l : List α} {y : α}
    (hl : ∀ i x, l[i]? = some x → P i x) (hy : P l.length y) :
    ∀ i x, (l ++ [y])[i]? = some x → P i x := by
  intro i x hx
  rcases Nat.lt_trichotomy i l.length with hlt | heq | hgt
  · rw [List.getElem?_append_left hlt] at hx
    exact hl i x hx
  · rw [heq, List.getElem?_concat_length, Option.some.injEq] at hx
    rwa [heq, ← hx]
  · rw [List.getElem?_eq_none (by rw [List.length_append, List.length_singleton]; omega)] at hx
    cases hx

end

end Tracker

end Zenith.Antenna
