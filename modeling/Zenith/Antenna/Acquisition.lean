import Zenith.Antenna.Following

/-!
# Acquiring a satellite

Before a pass the dish is sent to where the satellite will rise. It keeps this setpoint, so that each tick
brings it nearer by its reach; if the timeout lasts for half a turn and for the whole range of
elevations, the dish is there in time from wherever it starts. Angles are exact: doubles can add up to just
less than the way, which a tolerance above zero makes up for.
-/

namespace Zenith.Antenna

open Rust Orbit Slew

namespace SimulatedDish

variable {dish : SimulatedDish} {look : LookAngles}

/-- The dish is on its way to a place, for at most so many ticks more. -/
structure Nearing (dish : SimulatedDish) (look : LookAngles) (dt : Duration) (ticks : ℕ) : Prop
    extends Oriented dish where
  azimuthTarget : dish.targetAzimuthDeg = wrap360 look.azimuthDeg
  elevationTarget : dish.targetElevationDeg = look.elevationDeg
  azimuthWay : |dish.azimuthArc| ≤ ticks * dish.azimuthReach dt
  elevationWay : |dish.elevationGap| ≤ ticks * dish.elevationReach dt

/-- What is left to the setpoint bounds the error. -/
theorem Nearing.separation_le {dt : Duration} {ticks : ℕ} (h : dish.Nearing look dt ticks) :
    angularSeparationDeg dish.azimuthDeg dish.elevationDeg look.azimuthDeg look.elevationDeg ≤
      (|dish.azimuthArc| + |dish.elevationGap| : ℚ) := by
  have hbound := angularSeparationDeg_le_shortestArc dish.azimuthDeg dish.elevationDeg look.azimuthDeg
    look.elevationDeg
  unfold azimuthArc elevationGap
  rw [h.azimuthTarget, h.elevationTarget, shortestArc_wrap360]
  exact hbound

theorem Nearing.tick {dt : Duration} {ticks : ℕ} (h : dish.Nearing look dt (ticks + 1)) :
    ∃ dish', dish.tick dt = some dish' ∧ dish'.Nearing look dt ticks := by
  have hshorter {way reach : ℚ} (hway : way ≤ ((ticks + 1 : ℕ) : ℚ) * reach) (hreach : 0 ≤ reach) :
      way - min way reach ≤ ticks * reach := by
    apply (sub_min_le hway).trans
    push_cast
    rw [add_one_mul, add_sub_cancel_right]
    exact max_le (mul_nonneg (Nat.cast_nonneg _) hreach) le_rfl
  obtain ⟨dish', htick, hdish', hlimits⟩ := h.toOriented.tick dt
  have happroached := (moved_of_tick h.limits htick).toApproached
  have hazimuth : dish'.azimuthReach dt = dish.azimuthReach dt := by
    unfold azimuthReach
    rw [hlimits]
  have helevation : dish'.elevationReach dt = dish.elevationReach dt := by
    unfold elevationReach
    rw [hlimits]
  refine ⟨dish', htick, hdish', ?_, ?_, ?_, ?_⟩
  · rw [happroached.targetAzimuth, h.azimuthTarget]
  · rw [happroached.targetElevation, h.elevationTarget]
  · rw [happroached.azimuth, hazimuth]
    exact hshorter h.azimuthWay (azimuthReach_nonneg h.limits dt)
  · rw [happroached.elevation, helevation]
    exact hshorter h.elevationWay (elevationReach_nonneg h.limits dt)

/-- The loop ends with the dish on the place: at the last tick there is nothing left of the way. -/
theorem Nearing.acquire {dt : Duration} {toleranceDeg : ℚ} (htolerance : 0 ≤ toleranceDeg) {ticks : ℕ}
    (hticks : 0 < ticks) (h : dish.Nearing look dt ticks) : ∃ dish',
      Tracker.acquire dt look toleranceDeg ticks dish = some (true, dish') ∧
      angularSeparationDeg dish'.azimuthDeg dish'.elevationDeg look.azimuthDeg look.elevationDeg ≤
        toleranceDeg := by
  induction ticks generalizing dish with
  | zero => exact absurd hticks (lt_irrefl 0)
  | succ ticks ih =>
    obtain ⟨next, htick, hnext⟩ := h.tick
    rw [acquire_succ htick]
    split_ifs with hclose
    · exact ⟨next, rfl, hclose⟩
    · apply ih _ hnext
      by_contra hlast
      have hnone : ticks = 0 := Nat.eq_zero_of_not_pos hlast
      have hazimuth := hnext.azimuthWay
      have helevation := hnext.elevationWay
      rw [hnone, Nat.cast_zero, zero_mul] at hazimuth helevation
      apply hclose
      apply hnext.separation_le.trans
      exact_mod_cast (add_nonpos hazimuth helevation).trans htolerance

/-- The command to a place in the range sets the dish on its way there. -/
theorem Oriented.nearing (h : dish.Oriented) (dt : Duration) {ticks : ℕ}
    (hlook : look.elevationDeg ∈ Set.Icc dish.limits.minElevationDeg dish.limits.maxElevationDeg)
    (hazimuth : 180 ≤ ticks * dish.azimuthReach dt)
    (helevation : dish.limits.maxElevationDeg - dish.limits.minElevationDeg ≤
      ticks * dish.elevationReach dt) :
    (Tracker.aimed dish look).Nearing look dt ticks := by
  have haimed := aimed_eq hlook
  have horiented : (Tracker.aimed dish look).Oriented := (h.command _).1
  have hrange := h.elevation
  refine ⟨horiented, ?_, ?_, ?_, ?_⟩
  · rw [haimed]
  · rw [haimed]
  · rw [haimed]
    exact (abs_shortestArc_le _ _).trans hazimuth
  · rw [haimed]
    apply le_trans _ helevation
    unfold elevationGap
    rw [abs_le]
    dsimp only
    constructor
    · linarith [hlook.1, hrange.2]
    · linarith [hlook.2, hrange.1]

end SimulatedDish

/-- Every run whose timeout lasts for the longest way of the dish acquires the satellite, whatever the
dish was doing before. -/
theorem track_acquires {lookAngles : GroundStation → StateVector → ℚ → LookAngles} {tracker : Tracker}
    {dish dish' : SimulatedDish} {aosMin losMin : ℚ} {config : TrackConfig} {fuel : ℕ}
    {report : TrackingReport} {dt : Duration} {look : LookAngles} {ticks : ℕ}
    (h : tracker.track lookAngles dish aosMin losMin config fuel = .ok (report, dish'))
    (hdish : dish.Oriented) (hdt : Duration.fromSecsF64 config.tickSecs = some dt)
    (hpointing : tracker.desiredPointing lookAngles aosMin = .ok look)
    (hlook : look.elevationDeg ∈ Set.Icc dish.limits.minElevationDeg dish.limits.maxElevationDeg)
    (htolerance : 0 ≤ config.acquireToleranceDeg)
    (hticks : ceilUsize config.acquireTimeoutSecs config.tickSecs = ticks)
    (hazimuth : 180 ≤ ticks * (dish.limits.maxAzimuthRateDegS * dt))
    (helevation : dish.limits.maxElevationDeg - dish.limits.minElevationDeg ≤
      ticks * (dish.limits.maxElevationRateDegS * dt)) :
    report.acquired = true := by
  have hpos : 0 < ticks := by
    rw [Nat.pos_iff_ne_zero]
    intro hzero
    rw [hzero, Nat.cast_zero, zero_mul] at hazimuth
    linarith
  obtain ⟨start, hacquire, -⟩ :=
    (hdish.nearing dt hlook hazimuth helevation).acquire htolerance hpos
  rw [← hticks] at hacquire
  rw [Tracker.track_eq_of_acquire hdt hpointing hacquire] at h
  obtain ⟨s, -, hreport⟩ := Outcome.bind_eq_ok.mp h
  rw [← (Prod.mk.inj (Outcome.ok.inj hreport)).1]
  rfl

/-- The default dish, parked at the horizon, and the crossing satellite. -/
theorem track_acquires_crossing : ∃ report dish',
    crossing.track crossingAngles (SimulatedDish.new .default) 0 5 .default 601 = .ok (report, dish') ∧
      report.acquired = true := by
  have hrise : crossing.desiredPointing crossingAngles 0 = .ok (crossingLook 0) := rfl
  have hlook : (crossingLook 0).elevationDeg ∈ Set.Icc (SimulatedDish.new .default).limits.minElevationDeg
      (SimulatedDish.new .default).limits.maxElevationDeg := by
    norm_num [crossingLook, SimulatedDish.new, DishLimits.default]
  have hticks : ceilUsize TrackConfig.default.acquireTimeoutSecs TrackConfig.default.tickSecs = 240 := by
    decide +kernel
  obtain ⟨acquired, s, htrack, -⟩ := trackable_crossing.exists_track oriented_default
    fromSecsF64_default sampleCount_crossing.le
  refine ⟨_, _, htrack, track_acquires htrack oriented_default fromSecsF64_default hrise hlook ?_ hticks
    ?_ ?_⟩
  · norm_num [TrackConfig.default]
  · norm_num [SimulatedDish.new, DishLimits.default]
  · norm_num [SimulatedDish.new, DishLimits.default]

end Zenith.Antenna
