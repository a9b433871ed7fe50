import Zenith.Antenna.Following

/-!
# Tracking reports

What the samples, the largest error and the root mean square of a report say about a run, for any dish
and any satellite, with the times of the ticks added up exactly.
-/

namespace Zenith.Antenna

open Rust Orbit

namespace Tracker

noncomputable section

variable {β : Type} [DishBackend β] {dt : Duration} {s s' : Following β}

variable (lookAngles : GroundStation → StateVector → ℚ → LookAngles) (tracker : Tracker)
  (dtMin aosMin losMin : ℚ)

/-- A sample says where the satellite is at the end of tick `k` and how far the dish is off then. -/
structure Taken (k : ℕ) (x : TrackSample) : Prop where
  time : x.tsinceMin = min (sampleTime aosMin dtMin (k + 1)) losMin
  target : ∃ truth, tracker.desiredPointing lookAngles x.tsinceMin = .ok truth ∧
    truth.azimuthDeg = x.targetAzimuthDeg ∧ truth.elevationDeg = x.targetElevationDeg
  error : x.errorDeg = angularSeparationDeg x.actualAzimuthDeg x.actualElevationDeg
    x.targetAzimuthDeg x.targetElevationDeg

/-- The variables of the loop after `k` rounds. -/
structure Recorded (k : ℕ) (s : Following β) : Prop where
  length : s.samples.length = k
  taken : ∀ i x, s.samples[i]? = some x → Taken lookAngles tracker dtMin aosMin losMin i x
  sumSq : s.sumSq = (s.samples.map fun x ↦ x.errorDeg ^ 2).sum
  maxError : IsGreatest (insert 0 {e | ∃ x ∈ s.samples, x.errorDeg = e}) s.maxError

variable {lookAngles tracker dtMin aosMin losMin}

omit [DishBackend β] in
theorem recorded_start (dish : β) :
    Recorded lookAngles tracker dtMin aosMin losMin 0 (followStart dish aosMin) where
  length := rfl
  taken i x hx := by cases hx
  sumSq := rfl
  maxError := by simp [followStart]

theorem Recorded.step {k : ℕ} (h : Recorded lookAngles tracker dtMin aosMin losMin k s)
    (ht : s.t = sampleTime aosMin dtMin k)
    (hstep : tracker.followStep lookAngles dt dtMin losMin s = .ok s') :
    Recorded lookAngles tracker dtMin aosMin losMin (k + 1) s' := by
  obtain ⟨cmd, dish, truth, -, -, htruth, rfl⟩ := followStep_eq_ok.mp hstep
  have htime : s.t + dtMin = sampleTime aosMin dtMin (k + 1) := by rw [ht, sampleTime_succ]
  constructor
  · rw [ticked, List.length_append, h.length, List.length_singleton]
  · apply forall_getElem?_concat h.taken
    refine ⟨?_, ⟨truth, htruth, rfl, rfl⟩, rfl⟩
    rw [h.length, ← htime]
    rfl
  · rw [ticked, List.map_append, List.sum_append, ← h.sumSq, List.map_singleton, List.sum_singleton, sq]
  · have herrors (y : TrackSample) : insert 0 {e | ∃ x ∈ s.samples ++ [y], x.errorDeg = e} =
        insert y.errorDeg (insert 0 {e | ∃ x ∈ s.samples, x.errorDeg = e}) := by
      ext e
      simp [or_and_right, exists_or, or_left_comm, or_comm, eq_comm]
    rw [ticked, herrors, max_comm]
    exact h.maxError.insert _

/-- The root of the mean of the squares is at most the largest of the numbers. -/
theorem sqrt_mean_mem {l : List ℝ} {m : ℝ} (hl : ∀ e ∈ l, 0 ≤ e ∧ e ≤ m) (hm : 0 ≤ m) :
    √((l.map (· ^ 2)).sum / l.length) ∈ Set.Icc 0 m := by
  refine ⟨Real.sqrt_nonneg _, Real.sqrt_le_iff.mpr ⟨hm, ?_⟩⟩
  have hsquares : ∀ x ∈ l.map (· ^ 2), x ≤ m ^ 2 := by
    intro x hx
    obtain ⟨e, he, rfl⟩ := List.mem_map.mp hx
    exact pow_le_pow_left₀ (hl e he).1 (hl e he).2 2
  have hsum := List.sum_le_card_nsmul _ _ hsquares
  rw [List.length_map, nsmul_eq_mul] at hsum
  apply div_le_of_le_mul₀ (Nat.cast_nonneg _) (sq_nonneg m)
  rwa [mul_comm]

omit [DishBackend β] in
theorem Recorded.rms {k : ℕ} (h : Recorded lookAngles tracker dtMin aosMin losMin k s) (acquired : Bool) :
    s.samples.length * (reportOf acquired s).rmsErrorDeg ^ 2 =
      (s.samples.map fun x ↦ x.errorDeg ^ 2).sum ∧
    (reportOf acquired s).rmsErrorDeg ∈ Set.Icc 0 s.maxError := by
  have hzero : 0 ≤ s.maxError := h.maxError.2 (Set.mem_insert _ _)
  have herror : ∀ e ∈ s.samples.map TrackSample.errorDeg, 0 ≤ e ∧ e ≤ s.maxError := by
    intro e he
    obtain ⟨x, hx, rfl⟩ := List.mem_map.mp he
    obtain ⟨i, hi⟩ := List.getElem?_of_mem hx
    refine ⟨?_, h.maxError.2 (Set.mem_insert_of_mem _ ⟨x, hx, rfl⟩)⟩
    rw [(h.taken i x hi).error]
    exact angularSeparationDeg_nonneg _ _ _ _
  cases hsamples : s.samples with
  | nil => simp [reportOf, hsamples, hzero]
  | cons x l =>
    have hrms : (reportOf acquired s).rmsErrorDeg = √(s.sumSq / s.samples.length) := by
      simp [reportOf, hsamples]
    have hmean := sqrt_mean_mem herror hzero
    rw [List.map_map, List.length_map] at hmean
    have hlength : (s.samples.length : ℝ) ≠ 0 := by
      rw [hsamples]
      exact Nat.cast_ne_zero.mpr (Nat.succ_ne_zero _)
    have hnonneg : 0 ≤ s.sumSq / s.samples.length := by
      rw [h.sumSq]
      refine div_nonneg (List.sum_nonneg ?_) (Nat.cast_nonneg _)
      intro y hy
      obtain ⟨z, -, rfl⟩ := List.mem_map.mp hy
      exact sq_nonneg _
    rw [← hsamples, hrms, Real.sq_sqrt hnonneg, mul_div_cancel₀ _ hlength, h.sumSq]
    exact ⟨rfl, hmean⟩

end

end Tracker

end Zenith.Antenna
