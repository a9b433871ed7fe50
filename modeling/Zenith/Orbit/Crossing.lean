import Zenith.Orbit.Windows

/-!
# Crossings of a straight elevation

The refinement interpolates between the samples and then takes a Newton step. The step starts at the
interpolated time with the elevation of the later sample, so that it leaves a crossing that was found.
-/

namespace Zenith.Orbit

open Rust Data Runs

variable {track : Track} {mask t0 t1 a b : ℚ}

/-- The elevation is affine around a bracket, and neither the derivative nor the difference of its ends
is too small to be used. -/
structure Straight (track : Track) (t0 t1 a b : ℚ) : Prop where
  lt : t0 < t1
  affine : ∀ t ∈ Set.Icc (t0 - 1 / 2) (t1 + 1 / 2), elevation track t = some (a + b * t)
  steep : 1 / 10 ^ 9 < |b|
  apart : 1 / 10 ^ 12 ≤ |a + b * t1 - (a + b * t0)|

theorem Straight.slope_ne_zero (h : Straight track t0 t1 a b) : b ≠ 0 := by
  rintro rfl
  have hsteep := h.steep
  norm_num at hsteep

theorem Straight.elevation_eq (h : Straight track t0 t1 a b) {t : ℚ} (ht : t ∈ Set.Icc t0 t1) :
    elevation track t = some (a + b * t) :=
  h.affine t ⟨(sub_le_self t0 (by norm_num)).trans ht.1, ht.2.trans (le_add_of_nonneg_right (by norm_num))⟩

/-- The time at which the elevation equals the mask. -/
def crossing (mask a b : ℚ) : ℚ := (mask - a) / b

theorem eq_crossing_iff (hb : b ≠ 0) {t : ℚ} : mask = a + b * t ↔ t = crossing mask a b := by
  unfold crossing
  rw [eq_div_iff hb, eq_sub_iff_add_eq', mul_comm t b, eq_comm]

/-- Linear interpolation finds the crossing. -/
theorem Straight.interpolate_eq (h : Straight track t0 t1 a b) :
    t0 + (mask - (a + b * t0)) / (a + b * t1 - (a + b * t0)) * (t1 - t0) = crossing mask a b := by
  have hb := h.slope_ne_zero
  have hspan : t1 - t0 ≠ 0 := sub_ne_zero.mpr h.lt.ne'
  have hdiff : a + b * t1 - (a + b * t0) = b * (t1 - t0) := by ring
  unfold crossing
  rw [hdiff]
  field_simp
  ring

theorem Straight.crossing_mem (h : Straight track t0 t1 a b)
    (hmask : mask ∈ Set.uIcc (a + b * t0) (a + b * t1)) : crossing mask a b ∈ Set.Icc t0 t1 := by
  rw [← h.interpolate_eq]
  exact interpolate_mem h.lt.le hmask

/-- The step moves away from the crossing by as much as that lies before the end of the bracket. -/
theorem Straight.refineCrossing_eq (h : Straight track t0 t1 a b)
    (hmask : mask ∈ Set.uIcc (a + b * t0) (a + b * t1)) :
    refineCrossing track t0 t1 mask (a + b * t0) (a + b * t1) =
      some (max t0 (2 * crossing mask a b - t1)) := by
  have hb := h.slope_ne_zero
  have hmem := h.crossing_mem hmask
  obtain ⟨minus, hminus, helevMinus⟩ := elevation_eq_some.mp (h.affine (crossing mask a b - 1 / 2)
    ⟨sub_le_sub_right hmem.1 _, by linarith only [hmem.2]⟩)
  obtain ⟨plus, hplus, helevPlus⟩ := elevation_eq_some.mp (h.affine (crossing mask a b + 1 / 2)
    ⟨by linarith only [hmem.1], add_le_add_left hmem.2 _⟩)
  have hderiv : (plus.elevationDeg - minus.elevationDeg) / (2 * (1 / 2)) = b := by
    rw [helevMinus, helevPlus]
    ring
  have hstep : crossing mask a b - (a + b * t1 - mask) / b = 2 * crossing mask a b - t1 := by
    unfold crossing
    field_simp
    ring
  unfold refineCrossing
  dsimp only
  rw [if_neg (not_lt.mpr h.apart), h.interpolate_eq, hminus, hplus]
  dsimp only
  rw [hderiv, if_pos h.steep, hstep]
  exact clamp_of_le h.lt.le (by linarith only [hmem.2])

/-- The refinement returns the crossing only if that is an end of the bracket. -/
theorem Straight.refineCrossing_exact_iff (h : Straight track t0 t1 a b)
    (hmask : mask ∈ Set.uIcc (a + b * t0) (a + b * t1)) :
    (∃ t, refineCrossing track t0 t1 mask (a + b * t0) (a + b * t1) = some t ∧
      elevation track t = some mask) ↔ mask = a + b * t0 ∨ mask = a + b * t1 := by
  have hmem := h.crossing_mem hmask
  have hrefined : max t0 (2 * crossing mask a b - t1) ∈ Set.Icc t0 t1 :=
    ⟨le_max_left _ _, max_le h.lt.le (by linarith only [hmem.2])⟩
  simp only [h.refineCrossing_eq hmask, Option.some.injEq, exists_eq_left']
  rw [h.elevation_eq hrefined, Option.some.injEq, eq_comm, eq_crossing_iff h.slope_ne_zero,
    eq_crossing_iff h.slope_ne_zero, eq_crossing_iff h.slope_ne_zero]
  constructor
  · intro heq
    rcases max_choice t0 (2 * crossing mask a b - t1) with hmax | hmax
    · left
      rw [← hmax, heq]
    · right
      linarith only [heq, hmax]
  · rintro (heq | heq)
    · rw [← heq]
      exact max_eq_left (by linarith only [h.lt])
    · rw [← heq]
      rw [max_eq_right (by linarith only [h.lt])]
      ring

/-! ## Crossings in a search -/

variable {startMin stepMin : ℚ}

theorem Straight.crossingAt_exact_iff {m : ℕ} {t : ℚ}
    (h : Straight track (sampleTime startMin stepMin m) (sampleTime startMin stepMin (m + 1)) a b)
    (hchange : ¬(Visible track mask (sampleTime startMin stepMin m) ↔
      Visible track mask (sampleTime startMin stepMin (m + 1))))
    (ht : crossingAt track mask startMin stepMin (m + 1) = some t) :
    elevation track t = some mask ↔
      elevation track (sampleTime startMin stepMin m) = some mask ∨
        elevation track (sampleTime startMin stepMin (m + 1)) = some mask := by
  have h0 := h.elevation_eq ⟨le_rfl, h.lt.le⟩
  have h1 := h.elevation_eq ⟨h.lt.le, le_rfl⟩
  rw [visible_iff h0, visible_iff h1] at hchange
  have hmask : mask ∈ Set.uIcc (a + b * sampleTime startMin stepMin m)
      (a + b * sampleTime startMin stepMin (m + 1)) := by
    rw [Set.mem_uIcc]
    by_cases hfirst : mask ≤ a + b * sampleTime startMin stepMin m
    · right
      exact ⟨le_of_not_ge fun hnext ↦ hchange (iff_of_true hfirst hnext), hfirst⟩
    · left
      exact ⟨le_of_not_ge hfirst, not_lt.mp fun hnext ↦
        hchange (iff_of_false hfirst (not_le.mpr hnext))⟩
  have hexact := h.refineCrossing_exact_iff hmask
  rw [crossingAt, elevAfter, elevAfter, h0, h1, Nat.add_sub_cancel, Option.getD_some,
    Option.getD_some] at ht
  rw [ht] at hexact
  simpa only [Option.some.injEq, exists_eq_left', h0, h1, eq_comm] using hexact

theorem ne_of_not_visible {t : ℚ} (h : ¬Visible track mask t) : elevation track t ≠ some mask :=
  fun helev ↦ h ((visible_iff helev).mpr le_rfl)

theorem RunOf.aos_exact_iff {w : VisibilityWindow} {i j : ℕ}
    (h : RunOf track mask startMin stepMin w i j)
    (hstraight : Straight track (sampleTime startMin stepMin (i - 1))
      (sampleTime startMin stepMin i) a b) :
    elevation track w.aosTsinceMin = some mask ↔
      elevation track (sampleTime startMin stepMin i) = some mask := by
  cases i with
  | zero => exact absurd hstraight.lt (lt_irrefl _)
  | succ m =>
    have hbefore : ¬Visible track mask (sampleTime startMin stepMin m) := h.run.before m rfl
    have hfirst : Visible track mask (sampleTime startMin stepMin (m + 1)) :=
      h.run.all _ le_rfl h.run.lt
    rw [hstraight.crossingAt_exact_iff (fun hiff ↦ hbefore (hiff.mpr hfirst)) h.aos]
    exact or_iff_right (ne_of_not_visible hbefore)

theorem RunOf.los_exact_iff {w : VisibilityWindow} {i j : ℕ}
    (h : RunOf track mask startMin stepMin w i j)
    (hstraight : Straight track (sampleTime startMin stepMin (j - 1))
      (sampleTime startMin stepMin j) a b) :
    elevation track w.losTsinceMin = some mask ↔
      elevation track (sampleTime startMin stepMin (j - 1)) = some mask := by
  cases j with
  | zero => exact absurd hstraight.lt (lt_irrefl _)
  | succ m =>
    have hlast : Visible track mask (sampleTime startMin stepMin m) :=
      h.run.all m (Nat.lt_succ_iff.mp h.run.lt) (Nat.lt_succ_self m)
    have hafter : ¬Visible track mask (sampleTime startMin stepMin (m + 1)) := h.run.after
    rw [hstraight.crossingAt_exact_iff (fun hiff ↦ hafter (hiff.mp hlast)) h.los]
    exact or_iff_left (ne_of_not_visible hafter)

/-- The refinement finds a straight crossing exactly if it is an end of the bracket: the endpoints of a
window are exact only if the run starts or ends at the mask itself. -/
theorem crossings_exact_iff (lookAngles : GroundStation → StateVector → ℚ → LookAngles)
    (sat : Propagator) (station : GroundStation) :
    (∀ t0 t1 mask a b, Straight (lookAt lookAngles sat station) t0 t1 a b →
      mask ∈ Set.uIcc (a + b * t0) (a + b * t1) →
      ((∃ t, refineCrossing (lookAt lookAngles sat station) t0 t1 mask (a + b * t0) (a + b * t1) =
          some t ∧ elevation (lookAt lookAngles sat station) t = some mask) ↔
        mask = a + b * t0 ∨ mask = a + b * t1)) ∧
    ∀ (startMin endMin stepMin : ℚ) (fuel : ℕ) (windows : List VisibilityWindow),
      visibilityWindows lookAngles sat station startMin endMin stepMin fuel = .ok windows →
      ∀ w ∈ windows, ∃ i j,
        RunOf (lookAt lookAngles sat station) station.minElevationDeg startMin stepMin w i j ∧
        (∀ a b, Straight (lookAt lookAngles sat station) (sampleTime startMin stepMin (i - 1))
            (sampleTime startMin stepMin i) a b →
          (elevation (lookAt lookAngles sat station) w.aosTsinceMin = some station.minElevationDeg ↔
            elevation (lookAt lookAngles sat station) (sampleTime startMin stepMin i) =
              some station.minElevationDeg)) ∧
        ∀ a b, Straight (lookAt lookAngles sat station) (sampleTime startMin stepMin (j - 1))
            (sampleTime startMin stepMin j) a b →
          (elevation (lookAt lookAngles sat station) w.losTsinceMin = some station.minElevationDeg ↔
            elevation (lookAt lookAngles sat station) (sampleTime startMin stepMin (j - 1)) =
              some station.minElevationDeg) := by
  constructor
  · intro t0 t1 mask a b hstraight hmask
    exact hstraight.refineCrossing_exact_iff hmask
  · intro startMin endMin stepMin fuel windows hwindows w hw
    rcases windows_of_scan hwindows with rfl | ⟨_, n, _, rfl⟩
    · cases hw
    · obtain ⟨i, j, _, hrun⟩ := mem_windowsAfter hw
      exact ⟨i, j, hrun, fun _ _ hstraight ↦ hrun.aos_exact_iff hstraight,
        fun _ _ hstraight ↦ hrun.los_exact_iff hstraight⟩

/-- Of an elevation that rises by a degree each minute through a mask of five degrees, the refinement
reports the start of the bracket. -/
theorem not_crossings_exact :
    ¬∀ (lookAngles : GroundStation → StateVector → ℚ → LookAngles) (sat : Propagator)
      (station : GroundStation) (t0 t1 mask a b : ℚ),
      Straight (lookAt lookAngles sat station) t0 t1 a b →
      mask ∈ Set.uIcc (a + b * t0) (a + b * t1) →
      ∃ t, refineCrossing (lookAt lookAngles sat station) t0 t1 mask (a + b * t0) (a + b * t1) =
          some t ∧ elevation (lookAt lookAngles sat station) t = some mask := by
  intro h
  have hstraight : Straight (lookAt profileLook (profile id) (seaLevel 5)) 0 10 0 1 :=
    ⟨by norm_num, fun t _ ↦ by simp [elevation_profile], by norm_num, by norm_num⟩
  obtain ⟨t, ht, hmask⟩ := h _ _ _ 0 10 5 0 1 hstraight (by norm_num)
  have hstart : refineCrossing (lookAt profileLook (profile id) (seaLevel 5)) 0 10 5 (0 + 1 * 0)
      (0 + 1 * 10) = some 0 := by decide +kernel
  rw [hstart, Option.some.injEq] at ht
  rw [← ht] at hmask
  exact absurd hmask (by decide)

end Zenith.Orbit
