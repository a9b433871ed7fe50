import Zenith.Orbit.Visibility

/-!
# Windows and runs

The loop reports one window for each run of visible samples that ends within the search. Its variables
after `n` samples are functions of the first `n` samples alone.
-/

namespace Zenith.Orbit

open Rust Data Runs

variable (track : Track) (mask startMin endMin stepMin : ℚ)

/-! ## Crossings -/

section Crossing

variable {mask} {t0 t1 e0 e1 : ℚ}

theorem interpolate_mem (ht : t0 ≤ t1) (hmask : mask ∈ Set.uIcc e0 e1) :
    t0 + (mask - e0) / (e1 - e0) * (t1 - t0) ∈ Set.Icc t0 t1 := by
  have hfrac : (mask - e0) / (e1 - e0) ∈ Set.Icc (0 : ℚ) 1 := by
    rcases Set.mem_uIcc.mp hmask with ⟨h0, h1⟩ | ⟨h1, h0⟩
    · exact ⟨div_nonneg (sub_nonneg.mpr h0) (sub_nonneg.mpr (h0.trans h1)),
        div_le_one_of_le₀ (sub_le_sub_right h1 e0) (sub_nonneg.mpr (h0.trans h1))⟩
    · exact ⟨div_nonneg_of_nonpos (sub_nonpos.mpr h0) (sub_nonpos.mpr (h1.trans h0)),
        div_le_one_of_ge (sub_le_sub_right h1 e0) (sub_nonpos.mpr (h1.trans h0))⟩
  have hspan : 0 ≤ t1 - t0 := sub_nonneg.mpr ht
  constructor
  · exact le_add_of_nonneg_right (mul_nonneg hfrac.1 hspan)
  · calc
      t0 + (mask - e0) / (e1 - e0) * (t1 - t0) ≤ t0 + 1 * (t1 - t0) := by
        gcongr
        exact hfrac.2
      _ = t1 := by ring

/-- The clamp hides no panic, and the refined time does not leave the bracket. -/
theorem refineCrossing_mem (ht : t0 ≤ t1) (hmask : mask ∈ Set.uIcc e0 e1) :
    ∃ t ∈ Set.Icc t0 t1, refineCrossing track t0 t1 mask e0 e1 = some t := by
  have hguess := interpolate_mem ht hmask
  unfold refineCrossing
  dsimp only
  split_ifs
  · exact ⟨t1, ⟨ht, le_rfl⟩, rfl⟩
  · split
    · split_ifs
      · exact ⟨_, clamp_mem (clamp_eq ht), clamp_eq ht⟩
      · exact ⟨_, hguess, rfl⟩
    · exact ⟨_, hguess, rfl⟩

theorem isSome_refineCrossing (ht : t0 ≤ t1) :
    (refineCrossing track t0 t1 mask e0 e1).isSome = true := by
  unfold refineCrossing
  dsimp only
  split_ifs
  · rfl
  · split
    · split_ifs
      · rw [clamp_eq ht]
        rfl
      · rfl
    · rfl

end Crossing

/-! ## The variables of the loop -/

def SampleVisible (k : ℕ) : Prop := Visible track mask (sampleTime startMin stepMin k)

instance : DecidablePred (SampleVisible track mask startMin stepMin) :=
  fun k ↦ inferInstanceAs (Decidable (Visible track mask (sampleTime startMin stepMin k)))

/-- The elevation that `n` samples leave behind. -/
def elevAfter : ℕ → ℚ
  | 0 => -90
  | n + 1 => (elevation track (sampleTime startMin stepMin n)).getD (-90)

/-- The crossing refined between sample `n` and the one before it. -/
def crossingAt (n : ℕ) : Option ℚ :=
  refineCrossing track (sampleTime startMin stepMin (n - 1)) (sampleTime startMin stepMin n) mask
    (elevAfter track startMin stepMin n) (elevAfter track startMin stepMin (n + 1))

/-- The window of a run of visible samples. -/
def runWindow (run : ℕ × ℕ) : Option VisibilityWindow := do
  let aos ← crossingAt track mask startMin stepMin run.1
  let los ← crossingAt track mask startMin stepMin run.2
  buildWindow track aos los

/-- The windows of the runs that ended within `n` samples. -/
def windowsAfter (n : ℕ) : List VisibilityWindow :=
  (closedRuns (SampleVisible track mask startMin stepMin) n).filterMap
    (runWindow track mask startMin stepMin)

def scanAfter (n : ℕ) : Scan where
  windows := windowsAfter track mask startMin stepMin n
  t := sampleTime startMin stepMin n
  prevT := sampleTime startMin stepMin (n - 1)
  prevVisible := (openRun (SampleVisible track mask startMin stepMin) n).isSome
  prevElev := elevAfter track startMin stepMin n
  openAos := (openRun (SampleVisible track mask startMin stepMin) n).bind
    (crossingAt track mask startMin stepMin)

theorem scanAfter_zero : scanAfter track mask startMin stepMin 0 = scanStart startMin := by
  have htime : sampleTime startMin stepMin 0 = startMin := by simp [sampleTime]
  unfold scanAfter scanStart windowsAfter
  rw [htime]
  rfl

variable {track mask startMin endMin stepMin}

theorem windowsAfter_succ_of {n : ℕ} (h : SampleVisible track mask startMin stepMin n) :
    windowsAfter track mask startMin stepMin (n + 1) = windowsAfter track mask startMin stepMin n := by
  unfold windowsAfter
  rw [closedRuns_succ_of h]

theorem windowsAfter_succ_of_not {n : ℕ} (h : ¬SampleVisible track mask startMin stepMin n) :
    windowsAfter track mask startMin stepMin (n + 1) =
      windowsAfter track mask startMin stepMin n ++
        ((openRun (SampleVisible track mask startMin stepMin) n).toList.map (·, n)).filterMap
          (runWindow track mask startMin stepMin) := by
  unfold windowsAfter
  rw [closedRuns_succ_of_not h, List.filterMap_append]

theorem sampleTime_pred_le (hstep : 0 < stepMin) (n : ℕ) :
    sampleTime startMin stepMin (n - 1) ≤ sampleTime startMin stepMin n :=
  (sampleTime_strictMono hstep).monotone (Nat.sub_le n 1)

theorem exists_crossingAt (hstep : 0 < stepMin) (n : ℕ) :
    ∃ t, crossingAt track mask startMin stepMin n = some t :=
  Option.isSome_iff_exists.mp (isSome_refineCrossing track (sampleTime_pred_le hstep n))

/-- One pass through the body takes in one sample. -/
theorem scanStep_scanAfter (hstep : 0 < stepMin) {n : ℕ} {la : LookAngles}
    (hla : track (sampleTime startMin stepMin n) = .ok la) :
    scanStep track mask stepMin (scanAfter track mask startMin stepMin n) =
      .ok (scanAfter track mask startMin stepMin (n + 1)) := by
  have helev : elevAfter track startMin stepMin (n + 1) = la.elevationDeg := by
    simp [elevAfter, elevation, hla, Except.toOption]
  have hvisible : SampleVisible track mask startMin stepMin n ↔ mask ≤ la.elevationDeg := by
    simp [SampleVisible, Visible, elevation, hla, Except.toOption]
  obtain ⟨crossing, hcrossing⟩ : ∃ t, crossingAt track mask startMin stepMin n = some t :=
    exists_crossingAt hstep n
  have hrefine : refineCrossing track (sampleTime startMin stepMin (n - 1))
      (sampleTime startMin stepMin n) mask (elevAfter track startMin stepMin n) la.elevationDeg =
        some crossing := by
    rw [← helev]
    exact hcrossing
  unfold scanStep
  simp only [scanAfter, hla, Outcome.ofExcept_ok, Outcome.ok_bind, hrefine, Outcome.ofOption_some,
    ← sampleTime_succ, helev, Nat.add_sub_cancel]
  by_cases hp : SampleVisible track mask startMin stepMin n
  · rw [windowsAfter_succ_of hp, openRun_succ_of hp]
    cases hopen : openRun (SampleVisible track mask startMin stepMin) n with
    | none => simp [hvisible.mp hp, hcrossing]
    | some i => simp [hvisible.mp hp]
  · rw [windowsAfter_succ_of_not hp, openRun_succ_of_not hp]
    have hbelow : ¬mask ≤ la.elevationDeg := fun h ↦ hp (hvisible.mpr h)
    cases hopen : openRun (SampleVisible track mask startMin stepMin) n with
    | none => simp [hbelow]
    | some i =>
      obtain ⟨aos, haos⟩ : ∃ t, crossingAt track mask startMin stepMin i = some t :=
        exists_crossingAt hstep i
      have hwindow : runWindow track mask startMin stepMin (i, n) = buildWindow track aos crossing := by
        simp only [runWindow, haos, hcrossing, Option.bind_eq_bind, Option.bind_some]
      cases hbuild : buildWindow track aos crossing <;> simp [hbelow, haos, hwindow, hbuild]

/-! ## Runs of the loop -/

theorem scan_zero {s : Scan} (h : s.t ≤ endMin + 1 / 10 ^ 9) :
    scan track mask endMin stepMin 0 s = .outOfFuel := by
  rw [scan, if_pos h]

theorem scan_succ {s : Scan} (h : s.t ≤ endMin + 1 / 10 ^ 9) (fuel : ℕ) :
    scan track mask endMin stepMin (fuel + 1) s =
      scanStep track mask stepMin s >>= scan track mask endMin stepMin fuel := by
  rw [scan, if_pos h]

theorem scan_of_lt {s : Scan} (h : endMin + 1 / 10 ^ 9 < s.t) (fuel : ℕ) :
    scan track mask endMin stepMin fuel s = .ok s.windows := by
  cases fuel with
  | zero => rw [scan, if_neg (not_le.mpr h)]
  | succ fuel => rw [scan, if_neg (not_le.mpr h)]

/-- The samples of a search lie in it. -/
theorem sampleTime_mem (hstep : 0 < stepMin) {k : ℕ} (hk : k < sampleCount startMin endMin stepMin) :
    sampleTime startMin stepMin k ∈ Set.Icc startMin (endMin + 1 / 10 ^ 9) :=
  ⟨le_add_of_nonneg_right (mul_nonneg (Nat.cast_nonneg k) hstep.le), (sampleTime_le_iff hstep k).mpr hk⟩

/-- The first `n` samples can be propagated. -/
def Sampled (track : Track) (startMin stepMin : ℚ) (n : ℕ) : Prop :=
  ∀ k < n, ∃ la, track (sampleTime startMin stepMin k) = .ok la

theorem Sampled.succ {n : ℕ} {la : LookAngles} (h : Sampled track startMin stepMin n)
    (hla : track (sampleTime startMin stepMin n) = .ok la) : Sampled track startMin stepMin (n + 1) := by
  intro k hk
  rcases Nat.lt_succ_iff_lt_or_eq.mp hk with hk | rfl
  · exact h k hk
  · exact ⟨la, hla⟩

/-- The loop ends after the samples that lie in the search, unless one cannot be propagated or the fuel
runs out. -/
theorem scan_cases (hstep : 0 < stepMin) (fuel : ℕ) {k : ℕ}
    (hk : k ≤ sampleCount startMin endMin stepMin) (hsampled : Sampled track startMin stepMin k) :
    (Sampled track startMin stepMin (sampleCount startMin endMin stepMin) ∧
      scan track mask endMin stepMin fuel (scanAfter track mask startMin stepMin k) =
        .ok (windowsAfter track mask startMin stepMin (sampleCount startMin endMin stepMin))) ∨
    (∃ t ∈ Set.Icc startMin (endMin + 1 / 10 ^ 9), ∃ err, track t = .error err ∧
      scan track mask endMin stepMin fuel (scanAfter track mask startMin stepMin k) = .error err) ∨
    (scan track mask endMin stepMin fuel (scanAfter track mask startMin stepMin k) = .outOfFuel ∧
      k + fuel < sampleCount startMin endMin stepMin) := by
  have htime (k : ℕ) : (scanAfter track mask startMin stepMin k).t ≤ endMin + 1 / 10 ^ 9 ↔
      k < sampleCount startMin endMin stepMin := sampleTime_le_iff hstep k
  induction fuel generalizing k with
  | zero =>
    rcases hk.eq_or_lt with rfl | hlt
    · left
      exact ⟨hsampled, scan_of_lt (not_le.mp fun hle ↦ lt_irrefl _ ((htime _).mp hle)) 0⟩
    · exact .inr (.inr ⟨scan_zero ((htime k).mpr hlt), hlt⟩)
  | succ fuel ih =>
    rcases hk.eq_or_lt with rfl | hlt
    · left
      exact ⟨hsampled, scan_of_lt (not_le.mp fun hle ↦ lt_irrefl _ ((htime _).mp hle)) _⟩
    · rw [scan_succ ((htime k).mpr hlt)]
      cases hla : track (sampleTime startMin stepMin k) with
      | ok la =>
        rw [scanStep_scanAfter hstep hla, Outcome.ok_bind, Nat.add_comm fuel, ← Nat.add_assoc]
        exact ih hlt (hsampled.succ hla)
      | error err =>
        have herror : scanStep track mask stepMin (scanAfter track mask startMin stepMin k) =
            .error err := by
          calc
            _ = Outcome.ofExcept (track (sampleTime startMin stepMin k)) >>= _ := rfl
            _ = .error err := by rw [hla, Outcome.ofExcept_error, Outcome.error_bind]
        rw [herror]
        exact .inr (.inl ⟨_, sampleTime_mem hstep hlt, err, hla, rfl⟩)

/-- The cases of a whole search. -/
theorem scan_scanStart_cases (hstep : 0 < stepMin) (fuel : ℕ) :
    (Sampled track startMin stepMin (sampleCount startMin endMin stepMin) ∧
      scan track mask endMin stepMin fuel (scanStart startMin) =
        .ok (windowsAfter track mask startMin stepMin (sampleCount startMin endMin stepMin))) ∨
    (∃ t ∈ Set.Icc startMin (endMin + 1 / 10 ^ 9), ∃ err, track t = .error err ∧
      scan track mask endMin stepMin fuel (scanStart startMin) = .error err) ∨
    (scan track mask endMin stepMin fuel (scanStart startMin) = .outOfFuel ∧
      fuel < sampleCount startMin endMin stepMin) := by
  rw [← scanAfter_zero track mask startMin stepMin]
  simpa only [Nat.zero_add] using scan_cases hstep fuel (Nat.zero_le _)
    fun k hk ↦ absurd hk (Nat.not_lt_zero k)

/-! A search that does not advance ends only if there is nothing to sample. -/

theorem scanStep_t {s s' : Scan} (h : scanStep track mask stepMin s = .ok s') :
    s'.t = s.t + stepMin := by
  obtain ⟨la, _, h⟩ := Outcome.bind_eq_ok.mp h
  obtain ⟨openAos, _, h⟩ := Outcome.bind_eq_ok.mp h
  obtain ⟨⟨_, windows⟩, _, h⟩ := Outcome.bind_eq_ok.mp h
  cases h
  rfl

theorem scan_ne_ok (hstep : stepMin ≤ 0) (fuel : ℕ) {s : Scan} (ht : s.t ≤ endMin + 1 / 10 ^ 9)
    (windows : List VisibilityWindow) : scan track mask endMin stepMin fuel s ≠ .ok windows := by
  induction fuel generalizing s with
  | zero =>
    rw [scan_zero ht]
    intro h
    cases h
  | succ fuel ih =>
    rw [scan_succ ht]
    intro h
    obtain ⟨s', hs', hscan⟩ := Outcome.bind_eq_ok.mp h
    refine ih ?_ hscan
    rw [scanStep_t hs']
    exact (add_le_of_nonpos_right hstep).trans ht

/-- The windows that a search returns are those of its runs. -/
theorem windows_of_scan {fuel : ℕ} {windows : List VisibilityWindow}
    (h : scan track mask endMin stepMin fuel (scanStart startMin) = .ok windows) :
    windows = [] ∨ 0 < stepMin ∧ ∃ n, Sampled track startMin stepMin n ∧
      windows = windowsAfter track mask startMin stepMin n := by
  rcases lt_or_ge 0 stepMin with hstep | hstep
  · right
    rcases scan_scanStart_cases hstep fuel with
      ⟨hsampled, hok⟩ | ⟨t, _, err, _, herror⟩ | ⟨hfuel, _⟩
    · rw [hok] at h
      cases h
      exact ⟨hstep, _, hsampled, rfl⟩
    · rw [herror] at h
      cases h
    · rw [hfuel] at h
      cases h
  · left
    rcases le_or_gt startMin (endMin + 1 / 10 ^ 9) with hle | hlt
    · exact absurd h (scan_ne_ok hstep fuel hle windows)
    · rw [scan_of_lt hlt] at h
      cases h
      rfl

/-! ## Windows of runs -/

theorem le_elevAfter {k : ℕ} (h : SampleVisible track mask startMin stepMin k) :
    mask ≤ elevAfter track startMin stepMin (k + 1) := by
  obtain ⟨e, he, hle⟩ := h
  rw [elevAfter, Option.mem_def.mp he]
  exact hle

theorem elevAfter_lt {n k : ℕ} (hsampled : Sampled track startMin stepMin n) (hk : k < n)
    (h : ¬SampleVisible track mask startMin stepMin k) :
    elevAfter track startMin stepMin (k + 1) < mask := by
  obtain ⟨la, hla⟩ := hsampled k hk
  have helev : elevation track (sampleTime startMin stepMin k) = some la.elevationDeg :=
    elevation_eq_some.mpr ⟨la, hla, rfl⟩
  rw [elevAfter, helev, Option.getD_some]
  exact lt_of_not_ge fun hle ↦ h ((visible_iff helev).mpr hle)

/-- A window as the loop reports it for a run of samples. -/
structure RunOf (track : Track) (mask startMin stepMin : ℚ) (w : VisibilityWindow) (i j : ℕ) :
    Prop where
  run : IsRun (SampleVisible track mask startMin stepMin) i j
  aos : crossingAt track mask startMin stepMin i = some w.aosTsinceMin
  los : crossingAt track mask startMin stepMin j = some w.losTsinceMin

/-- The window of a run begins before its first sample and ends after its last one, and reaches no other
sample than the next. -/
structure Spans (track : Track) (mask startMin stepMin : ℚ) (w : VisibilityWindow) (i j : ℕ) :
    Prop where
  run : IsRun (SampleVisible track mask startMin stepMin) i j
  aos : w.aosTsinceMin ∈
    Set.Icc (sampleTime startMin stepMin (i - 1)) (sampleTime startMin stepMin i)
  los : w.losTsinceMin ∈
    Set.Icc (sampleTime startMin stepMin (j - 1)) (sampleTime startMin stepMin j)

theorem runOf_runWindow {i j : ℕ} {w : VisibilityWindow}
    (hrun : IsRun (SampleVisible track mask startMin stepMin) i j)
    (h : runWindow track mask startMin stepMin (i, j) = some w) :
    RunOf track mask startMin stepMin w i j := by
  obtain ⟨aos, haos, h⟩ := Option.bind_eq_some_iff.mp h
  obtain ⟨los, hlos, h⟩ := Option.bind_eq_some_iff.mp h
  obtain ⟨best, _, h⟩ := Option.bind_eq_some_iff.mp h
  obtain ⟨look, _, h⟩ := Option.bind_eq_some_iff.mp h
  cases h
  exact ⟨hrun, haos, hlos⟩

theorem mem_windowsAfter {n : ℕ} {w : VisibilityWindow}
    (hw : w ∈ windowsAfter track mask startMin stepMin n) :
    ∃ i j, j < n ∧ RunOf track mask startMin stepMin w i j := by
  obtain ⟨⟨i, j⟩, hmem, hwindow⟩ := List.mem_filterMap.mp hw
  have h := mem_closedRuns hmem
  exact ⟨i, j, h.2, runOf_runWindow h.1 hwindow⟩

theorem crossingAt_mem (hstep : 0 < stepMin) {n : ℕ} {t : ℚ}
    (hmask : mask ∈ Set.uIcc (elevAfter track startMin stepMin n)
      (elevAfter track startMin stepMin (n + 1)))
    (ht : crossingAt track mask startMin stepMin n = some t) :
    t ∈ Set.Icc (sampleTime startMin stepMin (n - 1)) (sampleTime startMin stepMin n) := by
  obtain ⟨refined, hmem, hrefined⟩ := refineCrossing_mem track (sampleTime_pred_le hstep n) hmask
  rw [crossingAt, hrefined, Option.some.injEq] at ht
  exact ht ▸ hmem

/-- The elevation rises through the mask before a run. -/
theorem mask_mem_rising (hmask : -90 < mask) {n i j : ℕ} (hsampled : Sampled track startMin stepMin n)
    (hj : j < n) (h : IsRun (SampleVisible track mask startMin stepMin) i j) :
    mask ∈ Set.uIcc (elevAfter track startMin stepMin i) (elevAfter track startMin stepMin (i + 1)) := by
  have hbefore : elevAfter track startMin stepMin i < mask := by
    cases i with
    | zero => exact hmask
    | succ m =>
      exact elevAfter_lt hsampled ((Nat.lt_succ_self m).trans (h.lt.trans hj)) (h.before m rfl)
  exact Set.mem_uIcc.mpr (.inl ⟨hbefore.le, le_elevAfter (h.all i le_rfl h.lt)⟩)

/-- The elevation sets through the mask after a run. -/
theorem mask_mem_setting {n i j : ℕ} (hsampled : Sampled track startMin stepMin n) (hj : j < n)
    (h : IsRun (SampleVisible track mask startMin stepMin) i j) :
    mask ∈ Set.uIcc (elevAfter track startMin stepMin j) (elevAfter track startMin stepMin (j + 1)) := by
  have hlast : mask ≤ elevAfter track startMin stepMin j := by
    cases j with
    | zero => exact absurd h.lt (Nat.not_lt_zero i)
    | succ m => exact le_elevAfter (h.all m (Nat.lt_succ_iff.mp h.lt) (Nat.lt_succ_self m))
  exact Set.mem_uIcc.mpr (.inr ⟨(elevAfter_lt hsampled hj h.after).le, hlast⟩)

theorem RunOf.los_mem (hstep : 0 < stepMin) {n i j : ℕ} {w : VisibilityWindow}
    (hsampled : Sampled track startMin stepMin n) (hj : j < n)
    (h : RunOf track mask startMin stepMin w i j) :
    w.losTsinceMin ∈
      Set.Icc (sampleTime startMin stepMin (j - 1)) (sampleTime startMin stepMin j) :=
  crossingAt_mem hstep (mask_mem_setting hsampled hj h.run) h.los

theorem RunOf.spans (hstep : 0 < stepMin) (hmask : -90 < mask) {n i j : ℕ} {w : VisibilityWindow}
    (hsampled : Sampled track startMin stepMin n) (hj : j < n)
    (h : RunOf track mask startMin stepMin w i j) : Spans track mask startMin stepMin w i j where
  run := h.run
  aos := crossingAt_mem hstep (mask_mem_rising hmask hsampled hj h.run) h.aos
  los := h.los_mem hstep hsampled hj

/-- What holds of the windows of two runs in order holds along the list. -/
theorem pairwise_windowsAfter {R : VisibilityWindow → VisibilityWindow → Prop} {n : ℕ}
    (h : ∀ {i j i' j' : ℕ} {w next : VisibilityWindow}, j < n → j' < n → j < i' →
      RunOf track mask startMin stepMin w i j → RunOf track mask startMin stepMin next i' j' →
        R w next) :
    (windowsAfter track mask startMin stepMin n).Pairwise R := by
  unfold windowsAfter
  rw [List.pairwise_filterMap]
  apply (pairwise_closedRuns n).imp_of_mem
  intro (i, j) (i', j') hr hs hlt w hw next hnext
  have hr := mem_closedRuns hr
  have hs := mem_closedRuns hs
  exact h hr.2 hs.2 hlt (runOf_runWindow hr.1 hw) (runOf_runWindow hs.1 hnext)

/-- A later window is lost later. -/
theorem pairwise_los (hstep : 0 < stepMin) {n : ℕ} (hsampled : Sampled track startMin stepMin n) :
    (windowsAfter track mask startMin stepMin n).Pairwise
      fun w next ↦ w.losTsinceMin < next.losTsinceMin := by
  apply pairwise_windowsAfter
  intro i j i' j' w next hj hj' hlt hw hnext
  calc
    w.losTsinceMin ≤ sampleTime startMin stepMin j := (hw.los_mem hstep hsampled hj).2
    _ < sampleTime startMin stepMin (j' - 1) :=
      sampleTime_strictMono hstep (hlt.trans_le (Nat.le_sub_one_of_lt hnext.run.lt))
    _ ≤ next.losTsinceMin := (hnext.los_mem hstep hsampled hj').1

/-- A window is lost before the next one begins. -/
theorem pairwise_aos (hstep : 0 < stepMin) (hmask : -90 < mask) {n : ℕ}
    (hsampled : Sampled track startMin stepMin n) :
    (windowsAfter track mask startMin stepMin n).Pairwise
      fun w next ↦ w.losTsinceMin ≤ next.aosTsinceMin := by
  apply pairwise_windowsAfter
  intro i j i' j' w next hj hj' hlt hw hnext
  calc
    w.losTsinceMin ≤ sampleTime startMin stepMin j := (hw.los_mem hstep hsampled hj).2
    _ ≤ sampleTime startMin stepMin (i' - 1) :=
      (sampleTime_strictMono hstep).monotone (Nat.le_sub_one_of_lt hlt)
    _ ≤ next.aosTsinceMin := (hnext.spans hstep hmask hsampled hj').aos.1

/-! A satellite that can be propagated throughout the search loses no window. -/

theorem exists_foldlM {α β : Type} {f : β → α → Option β} {I : β → Prop} {l : List α}
    (hf : ∀ acc, I acc → ∀ x ∈ l, ∃ next, f acc x = some next ∧ I next) {acc : β} (hacc : I acc) :
    ∃ result, l.foldlM f acc = some result ∧ I result := by
  induction l generalizing acc with
  | nil => exact ⟨acc, rfl, hacc⟩
  | cons x l ih =>
    obtain ⟨next, hnext, hI⟩ := hf acc hacc x List.mem_cons_self
    rw [List.foldlM_cons, hnext]
    exact ih (fun acc hacc y hy ↦ hf acc hacc y (List.mem_cons_of_mem x hy)) hI

theorem exists_highest {aos los : ℚ} (hle : aos ≤ los)
    (htrack : ∀ t ∈ Set.Icc aos los, ∃ la, track t = .ok la) :
    ∃ best, highest track aos los = some best ∧ best.2 ∈ Set.Icc aos los := by
  apply exists_foldlM
  · rintro ⟨maxElev, bestT⟩ hbest k hk
    have hfrac : (k : ℚ) ≤ 200 := by exact_mod_cast Nat.lt_succ_iff.mp (List.mem_range.mp hk)
    have hspan : 0 ≤ los - aos := sub_nonneg.mpr hle
    have hmem : aos + (los - aos) * k / 200 ∈ Set.Icc aos los := by
      constructor
      · exact le_add_of_nonneg_right (by positivity)
      · linarith [mul_le_mul_of_nonneg_left hfrac hspan]
    obtain ⟨la, hla⟩ := htrack _ hmem
    dsimp only
    rw [hla]
    refine ⟨_, rfl, ?_⟩
    split_ifs
    · exact hmem
    · exact hbest
  · exact ⟨le_rfl, hle⟩

/-- The look angles of a window are those at a time of the pass. -/
theorem exists_buildWindow {aos los : ℚ} (hle : aos ≤ los)
    (htrack : ∀ t ∈ Set.Icc aos los, ∃ la, track t = .ok la) : ∃ w, buildWindow track aos los = some w ∧
      ∃ t ∈ Set.Icc aos los, track t = .ok w.maxElevationLook := by
  obtain ⟨⟨maxElev, bestT⟩, hbest, hmem⟩ := exists_highest hle htrack
  obtain ⟨la, hla⟩ := htrack bestT hmem
  refine ⟨⟨aos, los, maxElev, la⟩, ?_, bestT, hmem, hla⟩
  unfold buildWindow
  rw [hbest, Option.bind_eq_bind, Option.bind_some]
  dsimp only
  rw [hla]
  rfl

/-- The run of a search has a window. -/
theorem exists_runWindow (hstep : 0 < stepMin) (hmask : -90 < mask)
    (htrack : ∀ t ∈ Set.Icc startMin (endMin + 1 / 10 ^ 9), ∃ la, track t = .ok la) {i j : ℕ}
    (hj : j < sampleCount startMin endMin stepMin)
    (hrun : IsRun (SampleVisible track mask startMin stepMin) i j) :
    ∃ w, runWindow track mask startMin stepMin (i, j) = some w ∧
      ∃ t ∈ Set.Icc startMin (endMin + 1 / 10 ^ 9), track t = .ok w.maxElevationLook := by
  have hsampled : Sampled track startMin stepMin (sampleCount startMin endMin stepMin) :=
    fun k hk ↦ htrack _ (sampleTime_mem hstep hk)
  have hmono : Monotone (sampleTime startMin stepMin) := (sampleTime_strictMono hstep).monotone
  obtain ⟨aos, haos⟩ : ∃ t, crossingAt track mask startMin stepMin i = some t :=
    exists_crossingAt hstep i
  obtain ⟨los, hlos⟩ : ∃ t, crossingAt track mask startMin stepMin j = some t :=
    exists_crossingAt hstep j
  have haosMem := crossingAt_mem hstep (mask_mem_rising hmask hsampled hj hrun) haos
  have hlosMem := crossingAt_mem hstep (mask_mem_setting hsampled hj hrun) hlos
  have hlow : startMin ≤ aos := by
    calc
      startMin = sampleTime startMin stepMin 0 := by simp [sampleTime]
      _ ≤ sampleTime startMin stepMin (i - 1) := hmono (Nat.zero_le _)
      _ ≤ aos := haosMem.1
  have hle : aos ≤ los := by
    calc
      aos ≤ sampleTime startMin stepMin i := haosMem.2
      _ ≤ sampleTime startMin stepMin (j - 1) := hmono (Nat.le_sub_one_of_lt hrun.lt)
      _ ≤ los := hlosMem.1
  have hhigh : los ≤ endMin + 1 / 10 ^ 9 := hlosMem.2.trans (sampleTime_mem hstep hj).2
  have hinside : Set.Icc aos los ⊆ Set.Icc startMin (endMin + 1 / 10 ^ 9) :=
    Set.Icc_subset_Icc hlow hhigh
  obtain ⟨w, hw, t, ht, hlook⟩ := exists_buildWindow hle fun t ht ↦ htrack t (hinside ht)
  refine ⟨w, ?_, t, hinside ht, hlook⟩
  simpa only [runWindow, haos, hlos, Option.bind_eq_bind, Option.bind_some] using hw

/-! ## The cover -/

/-- Windows that lie in order among the samples of a search and account for the visible ones. -/
structure Cover (track : Track) (mask startMin endMin stepMin : ℚ) (windows : List VisibilityWindow) :
    Prop where
  bounds : ∀ w ∈ windows, startMin ≤ w.aosTsinceMin ∧ w.aosTsinceMin ≤ w.losTsinceMin ∧
    ∃ k, sampleTime startMin stepMin k ≤ endMin + 1 / 10 ^ 9 ∧
      w.losTsinceMin ≤ sampleTime startMin stepMin k
  ordered : windows.Pairwise fun w next ↦ w.losTsinceMin ≤ next.aosTsinceMin
  /-- A visible sample is in a window, unless the pass is still open at the end of the search. -/
  covers : ∀ k, sampleTime startMin stepMin k ≤ endMin + 1 / 10 ^ 9 →
    Visible track mask (sampleTime startMin stepMin k) →
    (∃ w ∈ windows, sampleTime startMin stepMin k ∈ Set.Icc w.aosTsinceMin w.losTsinceMin) ∨
      ∀ m ≥ k, sampleTime startMin stepMin m ≤ endMin + 1 / 10 ^ 9 →
        Visible track mask (sampleTime startMin stepMin m)
  clear : ∀ w ∈ windows, ∀ k,
    sampleTime startMin stepMin k ∈ Set.Ioo w.aosTsinceMin w.losTsinceMin →
    Visible track mask (sampleTime startMin stepMin k)

theorem Spans.mem_Icc (hstep : 0 < stepMin) {w : VisibilityWindow} {i j k : ℕ}
    (h : Spans track mask startMin stepMin w i j) (hi : i ≤ k) (hj : k < j) :
    sampleTime startMin stepMin k ∈ Set.Icc w.aosTsinceMin w.losTsinceMin := by
  have hmono : Monotone (sampleTime startMin stepMin) := (sampleTime_strictMono hstep).monotone
  exact ⟨h.aos.2.trans (hmono hi), (hmono (Nat.le_sub_one_of_lt hj)).trans h.los.1⟩

theorem Spans.visible (hstep : 0 < stepMin) {w : VisibilityWindow} {i j k : ℕ}
    (h : Spans track mask startMin stepMin w i j)
    (hk : sampleTime startMin stepMin k ∈ Set.Ioo w.aosTsinceMin w.losTsinceMin) :
    Visible track mask (sampleTime startMin stepMin k) := by
  have hmono : StrictMono (sampleTime startMin stepMin) := sampleTime_strictMono hstep
  have hi : i - 1 < k := hmono.lt_iff_lt.mp (h.aos.1.trans_lt hk.1)
  have hj : k < j := hmono.lt_iff_lt.mp (hk.2.trans_le h.los.2)
  exact h.run.all k (by omega) hj

theorem cover_windowsAfter (hstep : 0 < stepMin) (hmask : -90 < mask)
    (htrack : ∀ t ∈ Set.Icc startMin (endMin + 1 / 10 ^ 9), ∃ la, track t = .ok la) :
    Cover track mask startMin endMin stepMin
      (windowsAfter track mask startMin stepMin (sampleCount startMin endMin stepMin)) := by
  have hsampled : Sampled track startMin stepMin (sampleCount startMin endMin stepMin) :=
    fun k hk ↦ htrack _ (sampleTime_mem hstep hk)
  have hspans {i j : ℕ} {w : VisibilityWindow} (hj : j < sampleCount startMin endMin stepMin)
      (h : RunOf track mask startMin stepMin w i j) : Spans track mask startMin stepMin w i j :=
    h.spans hstep hmask hsampled hj
  constructor
  case bounds =>
    intro w hw
    obtain ⟨i, j, hj, hrun⟩ := mem_windowsAfter hw
    have hfirst := (hspans hj hrun).mem_Icc hstep le_rfl hrun.run.lt
    have hstart : startMin ≤ sampleTime startMin stepMin (i - 1) := by
      calc
        startMin = sampleTime startMin stepMin 0 := by simp [sampleTime]
        _ ≤ sampleTime startMin stepMin (i - 1) :=
          (sampleTime_strictMono hstep).monotone (Nat.zero_le _)
    exact ⟨hstart.trans (hspans hj hrun).aos.1, hfirst.1.trans hfirst.2, j,
      (sampleTime_le_iff hstep j).mpr hj, (hspans hj hrun).los.2⟩
  case ordered => exact pairwise_aos hstep hmask hsampled
  case covers =>
    intro k hk hvisible
    rw [sampleTime_le_iff hstep] at hk
    rcases exists_mem_closedRuns (p := SampleVisible track mask startMin stepMin) hk hvisible with
      ⟨⟨i, j⟩, hmem, hi, hj⟩ | ⟨i, hi, hopen⟩
    · left
      have hrun := mem_closedRuns hmem
      obtain ⟨w, hw, -⟩ := exists_runWindow hstep hmask htrack hrun.2 hrun.1
      exact ⟨w, List.mem_filterMap.mpr ⟨_, hmem, hw⟩,
        (hspans hrun.2 (runOf_runWindow hrun.1 hw)).mem_Icc hstep hi hj⟩
    · right
      intro m hm htime
      rw [sampleTime_le_iff hstep] at htime
      exact (isOpen_of_openRun hopen).all m (hi.trans hm) htime
  case clear =>
    intro w hw k hk
    obtain ⟨i, j, hj, hrun⟩ := mem_windowsAfter hw
    exact (hspans hj hrun).visible hstep hk

/-- A search throughout which the satellite can be propagated does not end early. -/
theorem scan_scanStart_eq_ok (hstep : 0 < stepMin)
    (htrack : ∀ t ∈ Set.Icc startMin (endMin + 1 / 10 ^ 9), ∃ la, track t = .ok la) {fuel : ℕ}
    (hfuel : sampleCount startMin endMin stepMin ≤ fuel) :
    scan track mask endMin stepMin fuel (scanStart startMin) =
      .ok (windowsAfter track mask startMin stepMin (sampleCount startMin endMin stepMin)) := by
  rcases scan_scanStart_cases hstep fuel with ⟨_, hok⟩ | ⟨t, ht, err, herror, _⟩ | ⟨_, hshort⟩
  · exact hok
  · obtain ⟨la, hla⟩ := htrack t ht
    rw [hla] at herror
    cases herror
  · omega

theorem lookAt_eq_ok (lookAngles : GroundStation → StateVector → ℚ → LookAngles) {sat : Propagator}
    (station : GroundStation) (hsat : ∀ t, ∃ state, sat.propagate t = .ok state) (t : ℚ) :
    ∃ la, lookAt lookAngles sat station t = .ok la := by
  obtain ⟨state, hstate⟩ := hsat t
  refine ⟨lookAngles station state (sat.gmstRad t), ?_⟩
  unfold lookAt
  rw [hstate]
  rfl

/-- A search with a satellite that can always be propagated ends with windows that cover the visible
samples. -/
theorem visibilityWindows_cover (lookAngles : GroundStation → StateVector → ℚ → LookAngles)
    (sat : Propagator) (station : GroundStation) (startMin endMin stepMin : ℚ)
    (hsat : ∀ t, ∃ state, sat.propagate t = .ok state) (hmask : -90 < station.minElevationDeg)
    (hstep : 0 < stepMin) :
    ∃ windows fuel, (∀ more ≥ fuel,
      visibilityWindows lookAngles sat station startMin endMin stepMin more = .ok windows) ∧
      Cover (lookAt lookAngles sat station) station.minElevationDeg startMin endMin stepMin windows := by
  have htrack := lookAt_eq_ok lookAngles station hsat
  exact ⟨_, sampleCount startMin endMin stepMin,
    fun more hmore ↦ scan_scanStart_eq_ok hstep (fun t _ ↦ htrack t) hmore,
    cover_windowsAfter hstep hmask fun t _ ↦ htrack t⟩

/-! A satellite whose elevation is a given function of the time. -/

def profile (elev : ℚ → ℚ) : Propagator where
  propagate _ := .ok ⟨#v[0, 0, 0], #v[0, 0, 0]⟩
  gmstRad := elev

def profileLook (_ : GroundStation) (_ : StateVector) (gmstRad : ℚ) : LookAngles := ⟨0, gmstRad, 0⟩

def seaLevel (minElevationDeg : ℚ) : GroundStation := ⟨0, 0, 0, minElevationDeg⟩

theorem elevation_profile (elev : ℚ → ℚ) (station : GroundStation) (t : ℚ) :
    elevation (lookAt profileLook (profile elev) station) t = some (elev t) := rfl

theorem visibilityWindows_cover_overflight :
    ∃ windows fuel, (∀ more ≥ fuel,
      visibilityWindows profileLook (profile fun t ↦ 80 - |t - 100|) (seaLevel 10) 0 1440 1 more =
        .ok windows) ∧
      Cover (lookAt profileLook (profile fun t ↦ 80 - |t - 100|) (seaLevel 10)) 10 0 1440 1 windows :=
  visibilityWindows_cover profileLook _ (seaLevel 10) 0 1440 1 (fun _ ↦ ⟨_, rfl⟩) (by decide)
    (by decide)

end Zenith.Orbit
