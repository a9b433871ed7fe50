import Zenith.Data.Runs
import Zenith.Orbit.Tle
import Zenith.Rust.Outcome
import Zenith.Rust.Runtime

/-!
# Visibility windows

The scan of `visibility.rs` over the samples of a track. The propagator and the trigonometry of
`look_angles` are parameters: what the scan sees of them is an elevation that depends on the time.
-/

namespace Zenith.Orbit

open Rust Data

structure GroundStation where
  latitudeDeg : ℚ
  longitudeDeg : ℚ
  altitudeKm : ℚ
  minElevationDeg : ℚ
  deriving DecidableEq, Repr

structure StateVector where
  positionKm : Vector ℚ 3
  velocityKms : Vector ℚ 3
  deriving DecidableEq, Repr

structure LookAngles where
  azimuthDeg : ℚ
  elevationDeg : ℚ
  rangeKm : ℚ
  deriving DecidableEq, Repr

structure VisibilityWindow where
  aosTsinceMin : ℚ
  losTsinceMin : ℚ
  maxElevationDeg : ℚ
  maxElevationLook : LookAngles
  deriving DecidableEq, Repr

/-- A propagator is what its methods answer. -/
structure Propagator where
  propagate : ℚ → Except OrbitError StateVector
  gmstRad : ℚ → ℚ

/-- The look angles toward the satellite at an instant. -/
def lookAt (lookAngles : GroundStation → StateVector → ℚ → LookAngles) (sat : Propagator)
    (station : GroundStation) (t : ℚ) : Except OrbitError LookAngles := do
  let state ← sat.propagate t
  .ok (lookAngles station state (sat.gmstRad t))

/-- What a station sees of a satellite: `lookAt` for both, which the source hands on instead. -/
abbrev Track := ℚ → Except OrbitError LookAngles

variable (track : Track)

def refineCrossing (t0 t1 mask e0 e1 : ℚ) : Option ℚ :=
  if |e1 - e0| < 1 / 10 ^ 12 then some t1
  else
    let frac := (mask - e0) / (e1 - e0)
    let guess := t0 + frac * (t1 - t0)
    let h := 1 / 2
    match track (guess - h), track (guess + h) with
    | .ok minus, .ok plus =>
      let deriv := (plus.elevationDeg - minus.elevationDeg) / (2 * h)
      if 1 / 10 ^ 9 < |deriv| then clamp (guess - (e1 - mask) / deriv) t0 t1 else some guess
    | _, _ => some guess

/-- The highest elevation among 201 samples of a pass, and its time. -/
def highest (aos los : ℚ) : Option (ℚ × ℚ) :=
  (List.range 201).foldlM (fun (maxElev, bestT) (k : ℕ) ↦ do
    let tt := aos + (los - aos) * k / 200
    let la ← (track tt).toOption
    some (if maxElev < la.elevationDeg then (la.elevationDeg, tt) else (maxElev, bestT))) (-90, aos)

def buildWindow (aos los : ℚ) : Option VisibilityWindow := do
  let (maxElev, bestT) ← highest track aos los
  let bestLook ← (track bestT).toOption
  some { aosTsinceMin := aos
         losTsinceMin := los
         maxElevationDeg := maxElev
         maxElevationLook := bestLook }

/-- The local variables of the loop. -/
structure Scan where
  windows : List VisibilityWindow
  t : ℚ
  prevT : ℚ
  prevVisible : Bool
  prevElev : ℚ
  openAos : Option ℚ
  deriving DecidableEq, Repr

variable (mask startMin endMin stepMin : ℚ)

/-- The body of the loop. -/
def scanStep (s : Scan) : Outcome OrbitError Scan := do
  let la ← .ofExcept (track s.t)
  let crossing := refineCrossing track s.prevT s.t mask s.prevElev la.elevationDeg
  let visible := decide (mask ≤ la.elevationDeg)
  let openAos ← (if visible && !s.prevVisible then do
      let aos ← .ofOption crossing
      .ok (some aos)
    else .ok s.openAos)
  let (openAos, windows) ← (if !visible && s.prevVisible then
      match openAos with
      | some aos => do
        let los ← .ofOption crossing
        .ok (none, s.windows ++ (buildWindow track aos los).toList)
      | none => .ok (none, s.windows)
    else .ok (openAos, s.windows))
  .ok { windows
        t := s.t + stepMin
        prevT := s.t
        prevVisible := visible
        prevElev := la.elevationDeg
        openAos }

/-- The loop, for as long as the fuel lasts. -/
def scan : ℕ → Scan → Outcome OrbitError (List VisibilityWindow)
  | fuel, s =>
    if s.t ≤ endMin + 1 / 10 ^ 9 then
      match fuel with
      | 0 => .outOfFuel
      | fuel + 1 => do
        let s ← scanStep track mask stepMin s
        scan fuel s
    else .ok s.windows

/-- The variables before the loop. -/
def scanStart : Scan where
  windows := []
  t := startMin
  prevT := startMin
  prevVisible := false
  prevElev := -90
  openAos := none

def visibilityWindows (lookAngles : GroundStation → StateVector → ℚ → LookAngles) (sat : Propagator)
    (station : GroundStation) (startMin endMin stepMin : ℚ) (fuel : ℕ) :
    Outcome OrbitError (List VisibilityWindow) :=
  scan (lookAt lookAngles sat station) station.minElevationDeg endMin stepMin fuel
    (scanStart startMin)

/-! ## Samples -/

/-- The elevation of the satellite, where it can be propagated. -/
def elevation (t : ℚ) : Option ℚ := (track t).toOption.map (·.elevationDeg)

def Visible (t : ℚ) : Prop := ∃ e ∈ elevation track t, mask ≤ e

instance (t : ℚ) : Decidable (Visible track mask t) :=
  inferInstanceAs (Decidable (∃ e ∈ elevation track t, mask ≤ e))

def sampleTime (k : ℕ) : ℚ := startMin + k * stepMin

/-- The number of times that the loop runs. -/
def sampleCount : ℕ := (⌊(endMin + 1 / 10 ^ 9 - startMin) / stepMin⌋ + 1).toNat

variable {track mask startMin endMin stepMin}

theorem elevation_eq_some {t e : ℚ} :
    elevation track t = some e ↔ ∃ la, track t = .ok la ∧ la.elevationDeg = e := by
  unfold elevation
  cases track t <;> simp [Except.toOption]

theorem visible_iff {t e : ℚ} (h : elevation track t = some e) : Visible track mask t ↔ mask ≤ e := by
  simp [Visible, h]

theorem sampleTime_succ (k : ℕ) :
    sampleTime startMin stepMin (k + 1) = sampleTime startMin stepMin k + stepMin := by
  unfold sampleTime
  push_cast
  ring

theorem sampleTime_le_iff (hstep : 0 < stepMin) (k : ℕ) :
    sampleTime startMin stepMin k ≤ endMin + 1 / 10 ^ 9 ↔
      k < sampleCount startMin endMin stepMin := by
  calc
    sampleTime startMin stepMin k ≤ endMin + 1 / 10 ^ 9 ↔
        (k : ℚ) ≤ (endMin + 1 / 10 ^ 9 - startMin) / stepMin := by
      rw [le_div_iff₀ hstep, sampleTime, le_sub_iff_add_le']
    _ ↔ (k : ℤ) ≤ ⌊(endMin + 1 / 10 ^ 9 - startMin) / stepMin⌋ := by
      rw [Int.le_floor, Int.cast_natCast]
    _ ↔ k < sampleCount startMin endMin stepMin := by
      rw [sampleCount, Int.lt_toNat, Int.lt_add_one_iff]

theorem sampleTime_strictMono (hstep : 0 < stepMin) : StrictMono (sampleTime startMin stepMin) := by
  apply strictMono_nat_of_lt_succ
  intro k
  rw [sampleTime_succ]
  exact lt_add_of_pos_right _ hstep

end Zenith.Orbit
