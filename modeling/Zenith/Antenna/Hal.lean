import Zenith.Data.Slew
import Zenith.Rust.Runtime

/-!
# The simulated dish

The positioner of `hal.rs` with the calls of a `DishBackend`. Each tick moves along the shortest arc,
which is found anew from the wrapped azimuths; over a run of ticks these moves add up as on a line.
-/

namespace Zenith.Antenna

open Rust Slew

structure PointingCommand where
  azimuthDeg : F64
  elevationDeg : F64
  deriving DecidableEq, Repr

structure DishState where
  azimuthDeg : ℚ
  elevationDeg : ℚ
  slewing : Bool
  deriving DecidableEq, Repr

structure DishLimits where
  maxAzimuthRateDegS : ℚ
  maxElevationRateDegS : ℚ
  minElevationDeg : ℚ
  maxElevationDeg : ℚ
  deriving DecidableEq, Repr

/-- `DishLimits::default`. -/
def DishLimits.default : DishLimits := ⟨8, 8, 0, 90⟩

inductive DishError
  | belowHorizon (commandedDeg minDeg : ℚ)
  | aboveCeiling (commandedDeg maxDeg : ℚ)
  | notFinite
  | fault (msg : String)
  deriving DecidableEq, Repr

def wrap360 (deg : ℚ) : ℚ := remEuclid deg 360

def shortestArc (start finish : ℚ) : ℚ :=
  let d := remEuclid (finish - start) 360
  if d > 180 then d - 360 else d

structure SimulatedDish where
  azimuthDeg : ℚ
  elevationDeg : ℚ
  targetAzimuthDeg : ℚ
  targetElevationDeg : ℚ
  limits : DishLimits
  deriving DecidableEq, Repr

namespace SimulatedDish

def new (limits : DishLimits) : SimulatedDish :=
  ⟨0, limits.minElevationDeg, 0, limits.minElevationDeg, limits⟩

def parkedAt (azimuthDeg elevationDeg : ℚ) (limits : DishLimits) : Option SimulatedDish := do
  let az := wrap360 azimuthDeg
  let el ← clamp elevationDeg limits.minElevationDeg limits.maxElevationDeg
  some ⟨az, el, az, el, limits⟩

def command (dish : SimulatedDish) (cmd : PointingCommand) :
    Except DishError Unit × SimulatedDish :=
  match cmd.azimuthDeg, cmd.elevationDeg with
  | .finite azimuthDeg, .finite elevationDeg =>
    if elevationDeg < dish.limits.minElevationDeg then
      (.error (.belowHorizon elevationDeg dish.limits.minElevationDeg), dish)
    else if elevationDeg > dish.limits.maxElevationDeg then
      (.error (.aboveCeiling elevationDeg dish.limits.maxElevationDeg), dish)
    else
      (.ok (), { dish with
        targetAzimuthDeg := wrap360 azimuthDeg
        targetElevationDeg := elevationDeg })
  | _, _ => (.error .notFinite, dish)

def tick (dish : SimulatedDish) (dt : Duration) : Option SimulatedDish := do
  let secs : ℚ := dt
  let maxAzStep := dish.limits.maxAzimuthRateDegS * secs
  let maxElStep := dish.limits.maxElevationRateDegS * secs
  let daz := shortestArc dish.azimuthDeg dish.targetAzimuthDeg
  let azStep ← clamp daz (-maxAzStep) maxAzStep
  let del := dish.targetElevationDeg - dish.elevationDeg
  let elStep ← clamp del (-maxElStep) maxElStep
  some { dish with
    azimuthDeg := wrap360 (dish.azimuthDeg + azStep)
    elevationDeg := dish.elevationDeg + elStep }

def state (dish : SimulatedDish) : DishState :=
  let azRemaining := |shortestArc dish.azimuthDeg dish.targetAzimuthDeg|
  let elRemaining := |dish.targetElevationDeg - dish.elevationDeg|
  { azimuthDeg := dish.azimuthDeg
    elevationDeg := dish.elevationDeg
    slewing := azRemaining > 1 / 10 ^ 9 || elRemaining > 1 / 10 ^ 9 }

end SimulatedDish

/-! ## Angles -/

theorem halfTurn_pos : (0 : ℚ) < 180 := by norm_num

theorem remEuclid_mem (x : ℚ) : remEuclid x 360 ∈ Set.Ico 0 360 := by
  have hlow := Int.sub_floor_div_mul_nonneg x (show (0 : ℚ) < 360 by norm_num)
  have hhigh := Int.sub_floor_div_mul_lt x (show (0 : ℚ) < 360 by norm_num)
  have habs : |(360 : ℚ)| = 360 := by norm_num
  unfold remEuclid
  rw [habs, mul_comm]
  exact ⟨hlow, hhigh⟩

theorem remEuclid_eq (x : ℚ) : remEuclid x 360 = x + (-⌊x / 360⌋) • (2 * 180 : ℚ) := by
  have habs : |(360 : ℚ)| = 360 := by norm_num
  unfold remEuclid
  rw [habs, zsmul_eq_mul]
  push_cast
  ring

theorem wrap360_mem (deg : ℚ) : wrap360 deg ∈ Set.Ico 0 360 := remEuclid_mem deg

/-- The code's arc is the signed shorter arc of the circle. -/
theorem shortestArc_eq (start finish : ℚ) :
    shortestArc start finish = arc halfTurn_pos start finish := by
  obtain ⟨hlow, hhigh⟩ := remEuclid_mem (finish - start)
  have hturns := remEuclid_eq (finish - start)
  symm
  rw [arc_eq_iff]
  unfold shortestArc
  dsimp only
  split_ifs with hfar
  · refine ⟨⟨by linarith, by linarith⟩, ⌊(finish - start) / 360⌋ + 1, ?_⟩
    rw [hturns, add_smul, neg_smul, one_smul]
    ring
  · refine ⟨⟨by linarith, not_lt.mp hfar⟩, ⌊(finish - start) / 360⌋, ?_⟩
    rw [hturns, neg_smul]
    ring

/-- Wrapping the end of a move along the shortest arc does not change what is left. -/
theorem shortestArc_rest {start finish reach : ℚ} (hreach : 0 ≤ reach) :
    shortestArc (wrap360 (start + toward (shortestArc start finish) reach)) finish =
      shortestArc start finish - toward (shortestArc start finish) reach := by
  rw [shortestArc_eq, shortestArc_eq, wrap360, remEuclid_eq, arc_add_zsmul_left,
    arc_add_toward halfTurn_pos hreach]

theorem shortestArc_move {start finish reach : ℚ} (hreach : 0 ≤ reach) :
    shortestArc start (wrap360 (start + toward (shortestArc start finish) reach)) =
      toward (shortestArc start finish) reach := by
  rw [shortestArc_eq, shortestArc_eq, wrap360, remEuclid_eq, arc_add_zsmul_right,
    arc_self_add halfTurn_pos (toward_arc_mem halfTurn_pos hreach)]

theorem eq_of_shortestArc_eq_zero {start finish : ℚ} (hstart : start ∈ Set.Ico 0 360)
    (hfinish : finish ∈ Set.Ico 0 360) (h : shortestArc start finish = 0) : start = finish := by
  have hturn : (2 * 180 : ℚ) = 360 := by norm_num
  rw [shortestArc_eq] at h
  exact eq_of_arc_eq_zero halfTurn_pos (hturn ▸ hstart) (hturn ▸ hfinish) h

theorem clamp_eq_toward {d r : ℚ} (hr : 0 ≤ r) : clamp d (-r) r = some (toward d r) := by
  have hneg : -r ≤ r := neg_le_self hr
  rw [clamp_eq hneg, toward]
  split_ifs with hlow hhigh
  · rw [min_eq_right (hlow.le.trans hneg), max_eq_left hlow.le]
  · rw [min_eq_left hhigh.le, max_eq_right hneg]
  · rw [min_eq_right (not_lt.mp hhigh), max_eq_right (not_lt.mp hlow)]

end Zenith.Antenna
