import Zenith.Antenna.Tracking

/-!
# Following a satellite

A simulated dish that turns faster than the satellite crosses the sky catches up with its setpoint and
stays on it. From then on the error is only how far the satellite is from the place that was commanded:
nothing if the command leads by one tick. The times of the ticks are added up exactly.
-/

namespace Zenith.Antenna

open Rust Orbit Slew

/-! ## One tick -/

theorem shortestArc_wrap360 (start finish : ℚ) :
    shortestArc start (wrap360 finish) = shortestArc start finish := by
  rw [shortestArc_eq, shortestArc_eq, wrap360, remEuclid_eq, arc_add_zsmul_right]

theorem abs_shortestArc_triangle (x y z : ℚ) :
    |shortestArc x z| ≤ |shortestArc x y| + |shortestArc y z| := by
  rw [shortestArc_eq, shortestArc_eq, shortestArc_eq]
  exact abs_arc_triangle halfTurn_pos x y z

theorem abs_shortestArc_le (x y : ℚ) : |shortestArc x y| ≤ 180 := by
  have hmem := arc_mem halfTurn_pos x y
  rw [shortestArc_eq]
  exact abs_le.mpr ⟨hmem.1.le, hmem.2⟩

/-- The arc and the difference of the elevations bound the error. -/
theorem angularSeparationDeg_le_shortestArc (a e a' e' : ℚ) :
    angularSeparationDeg a e a' e' ≤ (|shortestArc a a'| + |e' - e| : ℚ) := by
  obtain ⟨-, z, hz⟩ := (arc_eq_iff halfTurn_pos).mp (Eq.refl (arc halfTurn_pos a a'))
  have hturns : (a : ℝ) + z * 360 - a' = -(shortestArc a a' : ℚ) := by
    have hcast := congrArg (Rat.cast : ℚ → ℝ) hz
    rw [← shortestArc_eq, zsmul_eq_mul] at hcast
    push_cast at hcast
    linarith
  calc
    angularSeparationDeg a e a' e' ≤ |(a : ℝ) + z * 360 - a'| + |(e : ℝ) - e'| :=
      angularSeparationDeg_le a e a' e' z
    _ = (|shortestArc a a'| + |e' - e| : ℚ) := by
      rw [hturns, abs_neg, abs_sub_comm]
      push_cast
      rfl

namespace SimulatedDish

variable {dish : SimulatedDish} {look : LookAngles}

theorem command_eq (azimuthDeg : ℚ) {elevationDeg : ℚ}
    (h : elevationDeg ∈ Set.Icc dish.limits.minElevationDeg dish.limits.maxElevationDeg) :
    dish.command ⟨.finite azimuthDeg, .finite elevationDeg⟩ = (.ok (), { dish with
      targetAzimuthDeg := wrap360 azimuthDeg
      targetElevationDeg := elevationDeg }) := by
  simp only [command, if_neg (not_lt.mpr h.1), gt_iff_lt, if_neg (not_lt.mpr h.2)]

theorem aimed_eq
    (h : look.elevationDeg ∈ Set.Icc dish.limits.minElevationDeg dish.limits.maxElevationDeg) :
    Tracker.aimed dish look = { dish with
      targetAzimuthDeg := wrap360 look.azimuthDeg
      targetElevationDeg := look.elevationDeg } :=
  congrArg Prod.snd (command_eq look.azimuthDeg h)

/-- A dish that is sent to a place in its range approaches it. -/
theorem Oriented.chase (h : dish.Oriented) (dt : Duration)
    (hlook : look.elevationDeg ∈ Set.Icc dish.limits.minElevationDeg dish.limits.maxElevationDeg) :
    ∃ dish', (Tracker.aimed dish look).tick dt = some dish' ∧ dish'.Oriented ∧
      dish'.limits = dish.limits ∧
      |shortestArc dish'.azimuthDeg look.azimuthDeg| = |shortestArc dish.azimuthDeg look.azimuthDeg| -
        min |shortestArc dish.azimuthDeg look.azimuthDeg| (dish.azimuthReach dt) ∧
      |look.elevationDeg - dish'.elevationDeg| = |look.elevationDeg - dish.elevationDeg| -
        min |look.elevationDeg - dish.elevationDeg| (dish.elevationReach dt) := by
  have haimed := aimed_eq hlook
  have horiented : (Tracker.aimed dish look).Oriented := (h.command _).1
  obtain ⟨dish', htick, hdish', hlimits⟩ := horiented.tick dt
  have happroached := (moved_of_tick horiented.limits htick).toApproached
  have hazimuth := happroached.azimuth
  have helevation := happroached.elevation
  unfold azimuthArc at hazimuth
  unfold elevationGap at helevation
  rw [happroached.targetAzimuth, haimed, shortestArc_wrap360, shortestArc_wrap360] at hazimuth
  rw [happroached.targetElevation, haimed] at helevation
  refine ⟨dish', htick, hdish', ?_, hazimuth, helevation⟩
  rw [hlimits, haimed]

theorem acquire_succ {next : SimulatedDish} {dt : Duration} (htick : dish.tick dt = some next)
    (target : LookAngles) (toleranceDeg : ℚ) (ticks : ℕ) :
    Tracker.acquire dt target toleranceDeg (ticks + 1) dish =
      if angularSeparationDeg next.azimuthDeg next.elevationDeg target.azimuthDeg
          target.elevationDeg ≤ toleranceDeg then some (true, next)
      else Tracker.acquire dt target toleranceDeg ticks next := by
  have htick' : DishBackend.tick dish dt = some next := htick
  rw [Tracker.acquire, htick', Option.bind_eq_bind, Option.bind_some]
  rfl

theorem Oriented.exists_acquire (h : dish.Oriented) (dt : Duration) (target : LookAngles)
    (toleranceDeg : ℚ) (ticks : ℕ) : ∃ acquired dish',
      Tracker.acquire dt target toleranceDeg ticks dish = some (acquired, dish') ∧ dish'.Oriented ∧
        dish'.limits = dish.limits := by
  induction ticks generalizing dish with
  | zero => exact ⟨false, dish, rfl, h, rfl⟩
  | succ ticks ih =>
    obtain ⟨next, htick, hnext, hlimits⟩ := h.tick dt
    rw [acquire_succ htick]
    split_ifs with hclose
    · exact ⟨true, next, rfl, hnext, hlimits⟩
    · obtain ⟨acquired, dish', hrest, hdish', hlimits'⟩ := ih hnext
      exact ⟨acquired, dish', hrest, hdish', hlimits'.trans hlimits⟩

end SimulatedDish

/-! ## Passes -/

/-- What is left to the setpoint after tick `k`: the dish starts anywhere in the span, and gains each
tick what its reach is above the step of the satellite. -/
def leftAfter (reach step span : ℚ) (k : ℕ) : ℚ := max 0 (lag reach step span k - reach)

section Pass

variable (lookAngles : GroundStation → StateVector → ℚ → LookAngles) (tracker : Tracker)
  (limits : DishLimits) (dt : Duration) (aosMin losMin dtMin azStep elStep : ℚ) (look : ℚ → LookAngles)

/-- A pass in the range of a dish that turns at least as fast as the satellite moves while a tick
lasts. -/
structure Trackable : Prop where
  pass : aosMin ≤ losMin
  period : 0 < dtMin
  lead : 0 ≤ tracker.leadMin
  pointing : ∀ t ∈ Set.Icc aosMin losMin, tracker.desiredPointing lookAngles t = .ok (look t)
  range : ∀ t ∈ Set.Icc aosMin losMin,
    (look t).elevationDeg ∈ Set.Icc limits.minElevationDeg limits.maxElevationDeg
  azimuthStep : ∀ t ∈ Set.Icc aosMin losMin, ∀ t' ∈ Set.Icc aosMin losMin, |t' - t| ≤ dtMin →
    |shortestArc (look t).azimuthDeg (look t').azimuthDeg| ≤ azStep
  elevationStep : ∀ t ∈ Set.Icc aosMin losMin, ∀ t' ∈ Set.Icc aosMin losMin, |t' - t| ≤ dtMin →
    |(look t').elevationDeg - (look t).elevationDeg| ≤ elStep
  azimuthReach : azStep ≤ limits.maxAzimuthRateDegS * dt
  elevationReach : elStep ≤ limits.maxElevationRateDegS * dt

/-- Where tick `k` sends the dish. -/
def commanded (k : ℕ) : LookAngles := look (min (sampleTime aosMin dtMin k + tracker.leadMin) losMin)

/-- Where the satellite is at the end of tick `k`. -/
def truth (k : ℕ) : LookAngles := look (min (sampleTime aosMin dtMin (k + 1)) losMin)

/-- What the dish is off its setpoint after tick `k`. -/
def offAfter (k : ℕ) : ℚ :=
  leftAfter (limits.maxAzimuthRateDegS * dt) azStep 180 k +
    leftAfter (limits.maxElevationRateDegS * dt) elStep
      (limits.maxElevationDeg - limits.minElevationDeg) k

/-- The variables of the loop after `k` rounds: what is left of the way to the next position, and how
far the dish has been off in each sample. -/
structure Pursuing (k : ℕ) (s : Following SimulatedDish) : Prop where
  oriented : s.dish.Oriented
  unchanged : s.dish.limits = limits
  azimuth : |shortestArc s.dish.azimuthDeg (commanded tracker aosMin losMin dtMin look k).azimuthDeg| ≤
    lag (limits.maxAzimuthRateDegS * dt) azStep 180 k
  elevation : |(commanded tracker aosMin losMin dtMin look k).elevationDeg - s.dish.elevationDeg| ≤
    lag (limits.maxElevationRateDegS * dt) elStep (limits.maxElevationDeg - limits.minElevationDeg) k
  length : s.samples.length = k
  errors : ∀ i x, s.samples[i]? = some x →
    0 ≤ x.errorDeg ∧ x.errorDeg ≤ offAfter limits dt azStep elStep i +
      angularSeparationDeg (commanded tracker aosMin losMin dtMin look i).azimuthDeg
        (commanded tracker aosMin losMin dtMin look i).elevationDeg
        (truth aosMin losMin dtMin look i).azimuthDeg (truth aosMin losMin dtMin look i).elevationDeg

variable {lookAngles tracker limits dt aosMin losMin dtMin azStep elStep look}

theorem Trackable.le_sampleTime
    (h : Trackable lookAngles tracker limits dt aosMin losMin dtMin azStep elStep look) (k : ℕ) :
    aosMin ≤ sampleTime aosMin dtMin k :=
  le_add_of_nonneg_right (mul_nonneg (Nat.cast_nonneg k) h.period.le)

theorem Trackable.commandTime_mem
    (h : Trackable lookAngles tracker limits dt aosMin losMin dtMin azStep elStep look) (k : ℕ) :
    min (sampleTime aosMin dtMin k + tracker.leadMin) losMin ∈ Set.Icc aosMin losMin :=
  ⟨le_min ((h.le_sampleTime k).trans (le_add_of_nonneg_right h.lead)) h.pass, min_le_right _ _⟩

theorem Trackable.truthTime_mem
    (h : Trackable lookAngles tracker limits dt aosMin losMin dtMin azStep elStep look) (k : ℕ) :
    min (sampleTime aosMin dtMin (k + 1)) losMin ∈ Set.Icc aosMin losMin :=
  ⟨le_min (h.le_sampleTime (k + 1)) h.pass, min_le_right _ _⟩

/-- From one command to the next the satellite moves by a step. -/
theorem Trackable.abs_commandTime_sub_le
    (h : Trackable lookAngles tracker limits dt aosMin losMin dtMin azStep elStep look) (k : ℕ) :
    |min (sampleTime aosMin dtMin (k + 1) + tracker.leadMin) losMin -
      min (sampleTime aosMin dtMin k + tracker.leadMin) losMin| ≤ dtMin := by
  rw [sampleTime_succ]
  calc
    |min (sampleTime aosMin dtMin k + dtMin + tracker.leadMin) losMin -
        min (sampleTime aosMin dtMin k + tracker.leadMin) losMin| ≤
        |sampleTime aosMin dtMin k + dtMin + tracker.leadMin -
          (sampleTime aosMin dtMin k + tracker.leadMin)| :=
      abs_inf_sub_inf_le_abs _ _ _
    _ = dtMin := by
      rw [add_sub_add_right_eq_sub, add_sub_cancel_left, abs_of_pos h.period]

/-- The dish may start anywhere in its range. -/
theorem Trackable.start {dish : SimulatedDish}
    (h : Trackable lookAngles tracker limits dt aosMin losMin dtMin azStep elStep look)
    (hdish : dish.Oriented) (hlimits : dish.limits = limits) :
    Pursuing tracker limits dt aosMin losMin dtMin azStep elStep look 0
      (Tracker.followStart dish aosMin) where
  oriented := hdish
  unchanged := hlimits
  azimuth := (abs_shortestArc_le _ _).trans le_lag_zero
  elevation := by
    have hlook := h.range _ (h.commandTime_mem 0)
    have hrange := hdish.elevation
    have hstart : (Tracker.followStart dish aosMin).dish = dish := rfl
    rw [hlimits] at hrange
    apply le_trans _ le_lag_zero
    rw [hstart, abs_le, commanded]
    constructor
    · linarith [hlook.1, hrange.2]
    · linarith [hlook.2, hrange.1]
  length := rfl
  errors i x hx := by cases hx

theorem Trackable.azimuth_commanded
    (h : Trackable lookAngles tracker limits dt aosMin losMin dtMin azStep elStep look) (k : ℕ) :
    |shortestArc (commanded tracker aosMin losMin dtMin look k).azimuthDeg
      (commanded tracker aosMin losMin dtMin look (k + 1)).azimuthDeg| ≤ azStep :=
  h.azimuthStep _ (h.commandTime_mem k) _ (h.commandTime_mem (k + 1)) (h.abs_commandTime_sub_le k)

theorem Trackable.elevation_commanded
    (h : Trackable lookAngles tracker limits dt aosMin losMin dtMin azStep elStep look) (k : ℕ) :
    |(commanded tracker aosMin losMin dtMin look (k + 1)).elevationDeg -
      (commanded tracker aosMin losMin dtMin look k).elevationDeg| ≤ elStep :=
  h.elevationStep _ (h.commandTime_mem k) _ (h.commandTime_mem (k + 1)) (h.abs_commandTime_sub_le k)

/-- The next position is a step further than what is left to this one. -/
theorem Trackable.azimuth_le_lag
    (h : Trackable lookAngles tracker limits dt aosMin losMin dtMin azStep elStep look) {k : ℕ}
    {azimuthDeg : ℚ}
    (hleft : |shortestArc azimuthDeg (commanded tracker aosMin losMin dtMin look k).azimuthDeg| ≤
      leftAfter (limits.maxAzimuthRateDegS * dt) azStep 180 k) :
    |shortestArc azimuthDeg (commanded tracker aosMin losMin dtMin look (k + 1)).azimuthDeg| ≤
      lag (limits.maxAzimuthRateDegS * dt) azStep 180 (k + 1) :=
  calc
    |shortestArc azimuthDeg (commanded tracker aosMin losMin dtMin look (k + 1)).azimuthDeg| ≤
        |shortestArc azimuthDeg (commanded tracker aosMin losMin dtMin look k).azimuthDeg| +
          |shortestArc (commanded tracker aosMin losMin dtMin look k).azimuthDeg
            (commanded tracker aosMin losMin dtMin look (k + 1)).azimuthDeg| :=
      abs_shortestArc_triangle _ _ _
    _ ≤ leftAfter (limits.maxAzimuthRateDegS * dt) azStep 180 k + azStep :=
      add_le_add hleft (h.azimuth_commanded k)
    _ ≤ lag (limits.maxAzimuthRateDegS * dt) azStep 180 (k + 1) := lag_succ h.azimuthReach k

theorem Trackable.elevation_le_lag
    (h : Trackable lookAngles tracker limits dt aosMin losMin dtMin azStep elStep look) {k : ℕ}
    {elevationDeg : ℚ}
    (hleft : |(commanded tracker aosMin losMin dtMin look k).elevationDeg - elevationDeg| ≤
      leftAfter (limits.maxElevationRateDegS * dt) elStep
        (limits.maxElevationDeg - limits.minElevationDeg) k) :
    |(commanded tracker aosMin losMin dtMin look (k + 1)).elevationDeg - elevationDeg| ≤
      lag (limits.maxElevationRateDegS * dt) elStep
        (limits.maxElevationDeg - limits.minElevationDeg) (k + 1) :=
  calc
    |(commanded tracker aosMin losMin dtMin look (k + 1)).elevationDeg - elevationDeg| ≤
        |(commanded tracker aosMin losMin dtMin look (k + 1)).elevationDeg -
          (commanded tracker aosMin losMin dtMin look k).elevationDeg| +
        |(commanded tracker aosMin losMin dtMin look k).elevationDeg - elevationDeg| :=
      abs_sub_le _ _ _
    _ ≤ elStep + leftAfter (limits.maxElevationRateDegS * dt) elStep
          (limits.maxElevationDeg - limits.minElevationDeg) k :=
      add_le_add (h.elevation_commanded k) hleft
    _ = leftAfter (limits.maxElevationRateDegS * dt) elStep
          (limits.maxElevationDeg - limits.minElevationDeg) k + elStep := add_comm _ _
    _ ≤ lag (limits.maxElevationRateDegS * dt) elStep
          (limits.maxElevationDeg - limits.minElevationDeg) (k + 1) := lag_succ h.elevationReach k

/-- The error is at most what is left of the way to a place and how far this is from the target. -/
theorem angularSeparationDeg_le_offAfter {azimuthDeg elevationDeg : ℚ} {place : LookAngles} {k : ℕ}
    (hazimuth : |shortestArc azimuthDeg place.azimuthDeg| ≤
      leftAfter (limits.maxAzimuthRateDegS * dt) azStep 180 k)
    (helevation : |place.elevationDeg - elevationDeg| ≤
      leftAfter (limits.maxElevationRateDegS * dt) elStep
        (limits.maxElevationDeg - limits.minElevationDeg) k) (target : LookAngles) :
    angularSeparationDeg azimuthDeg elevationDeg target.azimuthDeg target.elevationDeg ≤
      offAfter limits dt azStep elStep k + angularSeparationDeg place.azimuthDeg place.elevationDeg
        target.azimuthDeg target.elevationDeg := by
  have hplace : angularSeparationDeg azimuthDeg elevationDeg place.azimuthDeg place.elevationDeg ≤
      offAfter limits dt azStep elStep k := by
    apply (angularSeparationDeg_le_shortestArc _ _ _ _).trans
    exact_mod_cast add_le_add hazimuth helevation
  exact (angularSeparationDeg_triangle _ _ _ _ _ _).trans (add_le_add_left hplace _)

/-- One round: the command is accepted, the dish approaches it, and the next one is a step away. -/
theorem Trackable.step {k : ℕ} {s : Following SimulatedDish}
    (h : Trackable lookAngles tracker limits dt aosMin losMin dtMin azStep elStep look)
    (ht : s.t = sampleTime aosMin dtMin k)
    (hs : Pursuing tracker limits dt aosMin losMin dtMin azStep elStep look k s) :
    ∃ s', tracker.followStep lookAngles dt dtMin losMin s = .ok s' ∧
      Pursuing tracker limits dt aosMin losMin dtMin azStep elStep look (k + 1) s' := by
  have hrange := h.range _ (h.commandTime_mem k)
  rw [← hs.unchanged] at hrange
  obtain ⟨dish, htick, hdish, hlimits, hazimuth, helevation⟩ := hs.oriented.chase dt hrange
  have hazimuthLeft : |shortestArc dish.azimuthDeg
      (commanded tracker aosMin losMin dtMin look k).azimuthDeg| ≤
        leftAfter (limits.maxAzimuthRateDegS * dt) azStep 180 k := by
    rw [commanded, hazimuth, SimulatedDish.azimuthReach, hs.unchanged]
    exact sub_min_le hs.azimuth
  have helevationLeft : |(commanded tracker aosMin losMin dtMin look k).elevationDeg -
      dish.elevationDeg| ≤ leftAfter (limits.maxElevationRateDegS * dt) elStep
        (limits.maxElevationDeg - limits.minElevationDeg) k := by
    rw [commanded, helevation, SimulatedDish.elevationReach, hs.unchanged]
    exact sub_min_le hs.elevation
  refine ⟨Tracker.ticked dtMin losMin s dish (truth aosMin losMin dtMin look k),
    Tracker.followStep_eq_ok.mpr ⟨_, dish, _, ?_, htick, ?_, rfl⟩, ?_⟩
  · rw [ht]
    exact h.pointing _ (h.commandTime_mem k)
  · rw [ht, ← sampleTime_succ]
    exact h.pointing _ (h.truthTime_mem k)
  · constructor
    · exact hdish
    · exact hlimits.trans hs.unchanged
    · exact h.azimuth_le_lag hazimuthLeft
    · exact h.elevation_le_lag helevationLeft
    · rw [Tracker.ticked, List.length_append, hs.length, List.length_singleton]
    · apply Tracker.forall_getElem?_concat hs.errors
      rw [hs.length]
      exact ⟨angularSeparationDeg_nonneg _ _ _ _,
        angularSeparationDeg_le_offAfter hazimuthLeft helevationLeft _⟩

theorem Trackable.exists_track {dish : SimulatedDish} {config : TrackConfig} {fuel : ℕ}
    (h : Trackable lookAngles tracker dish.limits dt aosMin losMin config.dtMin azStep elStep look)
    (hdish : dish.Oriented) (hdt : Duration.fromSecsF64 config.tickSecs = some dt)
    (hfuel : sampleCount aosMin losMin config.dtMin ≤ fuel) :
    ∃ acquired s, tracker.track lookAngles dish aosMin losMin config fuel =
        .ok (Tracker.reportOf acquired s, s.dish) ∧
      Pursuing tracker dish.limits dt aosMin losMin config.dtMin azStep elStep look
        (sampleCount aosMin losMin config.dtMin) s := by
  have hrise : aosMin ∈ Set.Icc aosMin losMin := ⟨le_rfl, h.pass⟩
  have haimed : (Tracker.aimed dish (look aosMin)).Oriented ∧
      (Tracker.aimed dish (look aosMin)).limits = dish.limits := hdish.command _
  obtain ⟨acquired, start, hacquire, hstart, hlimits⟩ := haimed.1.exists_acquire dt (look aosMin)
    config.acquireToleranceDeg (ceilUsize config.acquireTimeoutSecs config.tickSecs)
  have hfirst : (Tracker.followStart start aosMin).t = sampleTime aosMin config.dtMin 0 := by
    rw [sampleTime, Nat.cast_zero, zero_mul, add_zero]
    rfl
  obtain ⟨s, hfollow, hs⟩ := Tracker.exists_follow h.period hfirst
    (h.start hstart (hlimits.trans haimed.2)) (Nat.zero_le _) (fun k s ht _ hP ↦ h.step ht hP)
    (hfuel.trans_eq (Nat.zero_add fuel).symm)
  refine ⟨acquired, s, ?_, hs⟩
  rw [Tracker.track_eq_of_acquire hdt (h.pointing _ hrise) hacquire, hfollow, Outcome.ok_bind]

/-- A command that leads by up to two ticks is at most a step off. -/
theorem Trackable.separation_le
    (h : Trackable lookAngles tracker limits dt aosMin losMin dtMin azStep elStep look)
    (hlead : tracker.leadMin ≤ 2 * dtMin) (k : ℕ) :
    angularSeparationDeg (commanded tracker aosMin losMin dtMin look k).azimuthDeg
      (commanded tracker aosMin losMin dtMin look k).elevationDeg
      (truth aosMin losMin dtMin look k).azimuthDeg
      (truth aosMin losMin dtMin look k).elevationDeg ≤ (azStep + elStep : ℚ) := by
  have hnear : |min (sampleTime aosMin dtMin (k + 1)) losMin -
      min (sampleTime aosMin dtMin k + tracker.leadMin) losMin| ≤ dtMin := by
    apply (abs_inf_sub_inf_le_abs _ _ _).trans
    rw [sampleTime_succ, add_sub_add_left_eq_sub, abs_le]
    constructor
    · linarith
    · linarith [h.lead]
  apply (angularSeparationDeg_le_shortestArc _ _ _ _).trans
  exact_mod_cast add_le_add (h.azimuthStep _ (h.commandTime_mem k) _ (h.truthTime_mem k) hnear)
    (h.elevationStep _ (h.commandTime_mem k) _ (h.truthTime_mem k) hnear)

/-- Look angles that cross the sky at a degree per second, and climb. -/
def crossingAngles : GroundStation → StateVector → ℚ → LookAngles :=
  fun _ _ gmstRad ↦ ⟨60 * gmstRad, 10 + gmstRad, 1000⟩

def crossing : Tracker where
  sat := ⟨fun _ ↦ .ok ⟨.replicate 3 0, .replicate 3 0⟩, id⟩
  station := ⟨0, 0, 0, 10⟩
  leadMin := 1 / 120

/-- What the station sees of it. -/
def crossingLook (t : ℚ) : LookAngles := ⟨60 * t, 10 + t, 1000⟩

theorem oriented_default : (SimulatedDish.new .default).Oriented := by
  obtain ⟨dish, hmake, hdish, -⟩ := SimulatedDish.oriented_make DishLimits.valid_default .new
  rwa [← Option.some.inj hmake] at hdish

theorem fromSecsF64_default :
    Duration.fromSecsF64 TrackConfig.default.tickSecs = some (1 / 2) := by decide +kernel

theorem sampleCount_crossing : sampleCount 0 5 TrackConfig.default.dtMin = 601 := by decide +kernel

theorem dtMin_default : TrackConfig.default.dtMin = 1 / 120 := by
  norm_num [TrackConfig.default, TrackConfig.dtMin]

theorem trackable_crossing : Trackable crossingAngles crossing (SimulatedDish.new .default).limits
    (1 / 2) 0 5 TrackConfig.default.dtMin (1 / 2) (1 / 120) crossingLook where
  pass := by norm_num
  period := by norm_num [dtMin_default]
  lead := by norm_num [crossing]
  pointing t _ := rfl
  range t ht := by
    have hlow : (0 : ℚ) ≤ 10 + t := by linarith [ht.1]
    have hhigh : 10 + t ≤ 90 := by linarith [ht.2]
    exact ⟨hlow, hhigh⟩
  azimuthStep t _ t' _ hnear := by
    have harc : |shortestArc (60 * t) (60 * t')| ≤ |60 * (t' - t)| := by
      rw [shortestArc_eq]
      exact abs_arc_le halfTurn_pos (z := 0) (by rw [zero_smul]; ring)
    rw [dtMin_default] at hnear
    rw [abs_mul, abs_of_pos (show (0 : ℚ) < 60 by norm_num)] at harc
    have hstep : 60 * |t' - t| ≤ 1 / 2 := by linarith
    exact harc.trans hstep
  elevationStep t _ t' _ hnear := by
    rw [dtMin_default] at hnear
    rwa [crossingLook, crossingLook, add_sub_add_left_eq_sub]
  azimuthReach := by norm_num [SimulatedDish.new, DishLimits.default]
  elevationReach := by norm_num [SimulatedDish.new, DishLimits.default]

end Pass

end Zenith.Antenna
