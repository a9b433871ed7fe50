import Zenith.Orbit.Windows

/-!
# Handoffs

The planner of `handoff.rs`. It takes a satellite for visible at the end of another one's pass if one of
its precomputed windows contains that instant.
-/

namespace Zenith.Orbit

open Rust

structure Handoff where
  fromIndex : ℕ
  toIndex : ℕ
  atTsinceMin : ℚ
  incomingElevationDeg : ℚ
  deriving DecidableEq, Repr

def VisibilityWindow.contains (w : VisibilityWindow) (t : ℚ) : Bool :=
  w.aosTsinceMin ≤ t ∧ t ≤ w.losTsinceMin

variable (lookAngles : GroundStation → StateVector → ℚ → LookAngles)
variable (satellites : List Propagator) (station : GroundStation)

/-- A pass through the inner loop: the satellite with its elevation, unless the loop continues. -/
def candidate (los : ℚ) (fromIndex : ℕ) :
    (Propagator × List VisibilityWindow) × ℕ → Option (ℕ × ℚ)
  | ((sat, toWindows), toIndex) =>
    if toIndex = fromIndex then none
    else if !toWindows.any (·.contains los) then none
    else
      match lookAt lookAngles sat station los with
      | .error _ => none
      | .ok la => some (toIndex, la.elevationDeg)

/-- The inner loop; a later candidate replaces `best` only if it is higher. -/
def best (sky : List (Propagator × List VisibilityWindow)) (los : ℚ) (fromIndex : ℕ) :
    Option (ℕ × ℚ) :=
  (sky.zipIdx.filterMap (candidate lookAngles station los fromIndex)).argmax (·.2)

def handoffAt (sky : List (Propagator × List VisibilityWindow)) (los : ℚ) (fromIndex : ℕ) :
    Option Handoff :=
  (best lookAngles station sky los fromIndex).map fun (toIndex, elev) ↦
    { fromIndex
      toIndex
      atTsinceMin := los
      incomingElevationDeg := elev }

/-- The outer loops. -/
def handoffs (sky : List (Propagator × List VisibilityWindow)) : List Handoff :=
  sky.zipIdx.flatMap fun ((_, fromWindows), fromIndex) ↦
    fromWindows.filterMap fun w ↦ handoffAt lookAngles station sky w.losTsinceMin fromIndex

def planHandoffs (startMin endMin stepMin : ℚ) (fuel : ℕ) : Outcome Empty (List Handoff) := do
  let windows ← satellites.mapM' fun sat ↦
    (visibilityWindows lookAngles sat station startMin endMin stepMin fuel).unwrapOrDefault
  let handoffs := handoffs lookAngles station (satellites.zip windows)
  .ok (handoffs.insertionSort (·.atTsinceMin ≤ ·.atTsinceMin))

/-! ## One handoff for each lost window -/

section Lists

variable {α β κ : Type}

theorem flatMap_zipIdx_eq {g : α × ℕ → List β} {l : List α} {i k : ℕ} {x : α} (hx : l[i]? = some x)
    (hg : ∀ y j, j ≠ k + i → g (y, j) = []) : (l.zipIdx k).flatMap g = g (x, k + i) := by
  induction l generalizing i k with
  | nil => cases hx
  | cons y l ih =>
    rw [List.zipIdx_cons, List.flatMap_cons]
    cases i with
    | zero =>
      have hrest : (l.zipIdx (k + 1)).flatMap g = [] := by
        rw [List.flatMap_eq_nil_iff]
        intro (z, j) hz
        apply hg
        have hj := List.le_snd_of_mem_zipIdx hz
        dsimp only at hj
        omega
      cases hx
      rw [hrest, List.append_nil]
      rfl
    | succ i =>
      rw [hg y k (by omega), List.nil_append, ih hx fun z j hj ↦ hg z j (by omega)]
      rw [Nat.add_assoc, Nat.add_comm 1 i]

theorem filterMap_eq_toList {f : α → Option β} {key : α → κ} {l : List α} {x : α} (hx : x ∈ l)
    (hkeys : l.Pairwise fun y z ↦ key y ≠ key z) (hf : ∀ y, key y ≠ key x → f y = none) :
    l.filterMap f = (f x).toList := by
  induction l with
  | nil => cases hx
  | cons y l ih =>
    rw [List.pairwise_cons] at hkeys
    rcases List.mem_cons.mp hx with rfl | hx
    · have hrest : l.filterMap f = [] := by
        rw [List.filterMap_eq_nil_iff]
        intro z hz
        exact hf z (hkeys.1 z hz).symm
      rw [List.filterMap_cons, hrest]
      cases f x <;> rfl
    · rw [List.filterMap_cons, hf y (hkeys.1 x hx)]
      exact ih hx hkeys.2

end Lists

/-- The handoffs of a plan away from a satellite at an instant. -/
def handoffsFrom (plan : List Handoff) (fromIndex : ℕ) (t : ℚ) : List Handoff :=
  plan.filter fun h ↦ h.fromIndex = fromIndex ∧ h.atTsinceMin = t

variable {lookAngles satellites station}

theorem filter_handoffAt (sky : List (Propagator × List VisibilityWindow)) (los t : ℚ)
    (fromIndex i : ℕ) :
    (handoffAt lookAngles station sky los fromIndex).filter
        (fun h ↦ h.fromIndex = i ∧ h.atTsinceMin = t) =
      if fromIndex = i ∧ los = t then handoffAt lookAngles station sky los fromIndex else none := by
  unfold handoffAt
  cases best lookAngles station sky los fromIndex with
  | none => simp
  | some choice => simp [Option.filter_some]

/-- A plan has the handoff of each window of a satellite once, as long as no two are lost together. -/
theorem handoffsFrom_handoffs {sky : List (Propagator × List VisibilityWindow)} {i : ℕ}
    {sat : Propagator} {windows : List VisibilityWindow} (hi : sky[i]? = some (sat, windows))
    (hlos : windows.Pairwise fun w next ↦ w.losTsinceMin ≠ next.losTsinceMin) {w : VisibilityWindow}
    (hw : w ∈ windows) :
    handoffsFrom (handoffs lookAngles station sky) i w.losTsinceMin =
      (handoffAt lookAngles station sky w.losTsinceMin i).toList := by
  unfold handoffsFrom handoffs
  rw [List.filter_flatMap]
  simp only [List.filter_filterMap, filter_handoffAt]
  rw [flatMap_zipIdx_eq hi, Nat.zero_add]
  · dsimp only
    rw [filterMap_eq_toList hw hlos, if_pos ⟨rfl, rfl⟩]
    intro other hother
    exact if_neg fun hsame ↦ hother hsame.2
  · intro (_, otherWindows) j hj
    dsimp only
    rw [List.filterMap_eq_nil_iff]
    intro other _
    exact if_neg fun hsame ↦ hj (hsame.1.trans (Nat.zero_add i).symm)

/-! ## The highest of the alternatives -/

/-- Exactly one handoff, to the highest of the alternatives, or none without alternatives. -/
def ToHighest (alternative : ℕ → ℚ → Prop) (handoffs : List Handoff) : Prop :=
  ((∃ j elev, alternative j elev) → ∃ h elev, handoffs = [h] ∧ alternative h.toIndex elev ∧
    ∀ j elev', alternative j elev' → elev' ≤ elev) ∧
  ((¬∃ j elev, alternative j elev) → handoffs = [])

/-- The candidates reach as high as the alternatives, and there are none without alternatives. -/
def Agree (alternative candidate : ℕ → ℚ → Prop) : Prop :=
  ((∃ j elev, alternative j elev) →
    ∃ i elev, candidate i elev ∧ ∀ j elev', alternative j elev' → elev' ≤ elev) ∧
  ((¬∃ j elev, alternative j elev) → ¬∃ i elev, candidate i elev)

/-- Taking the highest candidate is right exactly if the candidates agree with the alternatives. -/
theorem toHighest_iff_agree {alternative candidate : ℕ → ℚ → Prop} {chosen : Option Handoff}
    (hnone : chosen = none → ¬∃ i elev, candidate i elev)
    (hsome : ∀ h, chosen = some h → ∃ elev, candidate h.toIndex elev ∧
      ∀ i elev', candidate i elev' → elev' ≤ elev)
    (hhigher : ∀ i elev j elev', candidate i elev → alternative j elev' → elev' ≤ elev →
      alternative i elev)
    (hsame : ∀ i elev elev', alternative i elev → candidate i elev' → elev = elev') :
    ToHighest alternative chosen.toList ↔ Agree alternative candidate := by
  cases chosen with
  | none =>
    have hempty := hnone rfl
    constructor
    · intro ⟨hbest, _⟩
      refine ⟨fun halt ↦ ?_, fun _ ↦ hempty⟩
      obtain ⟨h, _, hlist, _⟩ := hbest halt
      cases hlist
    · intro ⟨hbest, _⟩
      refine ⟨fun halt ↦ ?_, fun _ ↦ rfl⟩
      obtain ⟨i, elev, hcandidate, _⟩ := hbest halt
      exact absurd ⟨i, elev, hcandidate⟩ hempty
  | some h =>
    obtain ⟨elev, hcandidate, hmax⟩ := hsome h rfl
    constructor
    · intro ⟨hbest, hnot⟩
      refine ⟨fun halt ↦ ?_, fun halt ↦ absurd (hnot halt) (List.cons_ne_nil h [])⟩
      obtain ⟨h', elev', hlist, halternative, hhighest⟩ := hbest halt
      cases hlist
      obtain rfl := hsame _ _ _ halternative hcandidate
      exact ⟨_, _, hcandidate, hhighest⟩
    · intro ⟨hbest, hnot⟩
      refine ⟨fun halt ↦ ?_, fun halt ↦ absurd ⟨_, _, hcandidate⟩ (hnot halt)⟩
      obtain ⟨i, top, htop, hhighest⟩ := hbest halt
      obtain ⟨j, elev', halternative⟩ := halt
      have hle : top ≤ elev := hmax i top htop
      have hall (j : ℕ) (elev' : ℚ) (hj : alternative j elev') : elev' ≤ elev :=
        (hhighest j elev' hj).trans hle
      exact ⟨h, elev, rfl, hhigher _ _ j elev' hcandidate halternative (hall j elev' halternative), hall⟩

/-! ## Satellites at an instant -/

variable (lookAngles satellites station)

/-- The elevation of a satellite of the constellation. -/
def elevationOf (i : ℕ) (t : ℚ) : Option ℚ :=
  satellites[i]?.bind fun sat ↦ elevation (lookAt lookAngles sat station) t

/-- Another satellite, at or above the mask. -/
structure Alternative (fromIndex : ℕ) (t : ℚ) (i : ℕ) (elev : ℚ) : Prop where
  ne : i ≠ fromIndex
  elev_eq : elevationOf lookAngles satellites station i t = some elev
  above : station.minElevationDeg ≤ elev

/-- The instant lies in a window that the search finds for the satellite. -/
def InWindow (startMin endMin stepMin : ℚ) (fuel : ℕ) (i : ℕ) (t : ℚ) : Prop :=
  ∃ sat windows, satellites[i]? = some sat ∧
    visibilityWindows lookAngles sat station startMin endMin stepMin fuel = .ok windows ∧
    ∃ w ∈ windows, t ∈ Set.Icc w.aosTsinceMin w.losTsinceMin

/-- Another satellite, in a window. -/
structure Candidate (startMin endMin stepMin : ℚ) (fuel : ℕ) (fromIndex : ℕ) (t : ℚ) (i : ℕ)
    (elev : ℚ) : Prop where
  ne : i ≠ fromIndex
  elev_eq : elevationOf lookAngles satellites station i t = some elev
  inWindow : InWindow lookAngles satellites station startMin endMin stepMin fuel i t

variable {lookAngles satellites station} {startMin endMin stepMin : ℚ} {fuel : ℕ}

theorem candidate_eq_some {los elev : ℚ} {fromIndex i j : ℕ} {sat : Propagator}
    {windows : List VisibilityWindow} :
    candidate lookAngles station los fromIndex ((sat, windows), j) = some (i, elev) ↔
      j = i ∧ j ≠ fromIndex ∧ (∃ w ∈ windows, los ∈ Set.Icc w.aosTsinceMin w.losTsinceMin) ∧
        elevation (lookAt lookAngles sat station) los = some elev := by
  have hany : windows.any (·.contains los) = true ↔
      ∃ w ∈ windows, los ∈ Set.Icc w.aosTsinceMin w.losTsinceMin := by
    simp [VisibilityWindow.contains]
  unfold candidate elevation
  dsimp only
  rw [← hany]
  generalize windows.any (·.contains los) = covered
  by_cases hself : j = fromIndex
  · simp [hself]
  cases covered with
  | false => simp
  | true => cases lookAt lookAngles sat station los <;> simp [hself, Except.toOption]

/-- What the planner has computed before it looks for handoffs. -/
abbrev Precomputed (lookAngles : GroundStation → StateVector → ℚ → LookAngles)
    (satellites : List Propagator) (station : GroundStation) (startMin endMin stepMin : ℚ) (fuel : ℕ)
    (windows : List (List VisibilityWindow)) : Prop :=
  List.Forall₂ (fun sat found ↦
    (visibilityWindows lookAngles sat station startMin endMin stepMin fuel).unwrapOrDefault =
      (.ok found : Outcome Empty _)) satellites windows

theorem Precomputed.eq_ok {windows : List (List VisibilityWindow)}
    (h : Precomputed lookAngles satellites station startMin endMin stepMin fuel windows) {i : ℕ}
    {sat : Propagator} {found : List VisibilityWindow} (hsat : satellites[i]? = some sat)
    (hfound : windows[i]? = some found) :
    (visibilityWindows lookAngles sat station startMin endMin stepMin fuel).unwrapOrDefault =
      (.ok found : Outcome Empty _) := by
  obtain ⟨hi, rfl⟩ := List.getElem?_eq_some_iff.mp hsat
  obtain ⟨hi', rfl⟩ := List.getElem?_eq_some_iff.mp hfound
  exact h.get hi hi'

theorem Precomputed.getElem?_eq {windows : List (List VisibilityWindow)}
    (h : Precomputed lookAngles satellites station startMin endMin stepMin fuel windows) {i : ℕ}
    {sat : Propagator} {found : List VisibilityWindow} (hsat : satellites[i]? = some sat)
    (hfound : visibilityWindows lookAngles sat station startMin endMin stepMin fuel = .ok found) :
    windows[i]? = some found := by
  obtain ⟨hi, _⟩ := List.getElem?_eq_some_iff.mp hsat
  have hi' : i < windows.length := h.length_eq ▸ hi
  have hget : windows[i]? = some windows[i] := List.getElem?_eq_getElem hi'
  have hwindows := h.eq_ok hsat hget
  rw [hfound] at hwindows
  cases hwindows
  exact hget

theorem mem_candidates {windows : List (List VisibilityWindow)}
    (h : Precomputed lookAngles satellites station startMin endMin stepMin fuel windows)
    {los elev : ℚ} {fromIndex i : ℕ} :
    (i, elev) ∈
        (satellites.zip windows).zipIdx.filterMap (candidate lookAngles station los fromIndex) ↔
      Candidate lookAngles satellites station startMin endMin stepMin fuel fromIndex los i elev := by
  rw [List.mem_filterMap]
  constructor
  · rintro ⟨⟨⟨sat, found⟩, j⟩, hmem, hcandidate⟩
    rw [List.mem_zipIdx_iff_getElem?, List.getElem?_zip_eq_some] at hmem
    obtain ⟨rfl, hne, ⟨w, hw, hlos⟩, helev⟩ := candidate_eq_some.mp hcandidate
    refine ⟨hne, ?_, sat, found, hmem.1, ?_, w, hw, hlos⟩
    · unfold elevationOf
      rw [hmem.1]
      exact helev
    · rcases Outcome.unwrapOrDefault_eq_ok (h.eq_ok hmem.1 hmem.2) with hok | ⟨_, rfl⟩
      · exact hok
      · cases hw
  · rintro ⟨hne, helev, sat, found, hsat, hfound, hwindow⟩
    refine ⟨((sat, found), i), ?_, candidate_eq_some.mpr ⟨rfl, hne, hwindow, ?_⟩⟩
    · rw [List.mem_zipIdx_iff_getElem?, List.getElem?_zip_eq_some]
      exact ⟨hsat, h.getElem?_eq hsat hfound⟩
    · unfold elevationOf at helev
      rwa [hsat] at helev

/-! ## Plans -/

theorem handoffAt_toHighest_iff {windows : List (List VisibilityWindow)}
    (h : Precomputed lookAngles satellites station startMin endMin stepMin fuel windows)
    (fromIndex : ℕ) (t : ℚ) :
    ToHighest (Alternative lookAngles satellites station fromIndex t)
        (handoffAt lookAngles station (satellites.zip windows) t fromIndex).toList ↔
      Agree (Alternative lookAngles satellites station fromIndex t)
        (Candidate lookAngles satellites station startMin endMin stepMin fuel fromIndex t) := by
  apply toHighest_iff_agree
  · intro hnone ⟨i, elev, hcandidate⟩
    rw [← mem_candidates h] at hcandidate
    rw [handoffAt, Option.map_eq_none_iff, best, List.argmax_eq_none] at hnone
    rw [hnone] at hcandidate
    cases hcandidate
  · intro handoff hsome
    obtain ⟨⟨i, elev⟩, hbest, rfl⟩ := Option.map_eq_some_iff.mp hsome
    refine ⟨elev, (mem_candidates h).mp (List.argmax_mem hbest), fun j elev' hj ↦ ?_⟩
    exact List.le_of_mem_argmax ((mem_candidates h).mpr hj) hbest
  · intro i elev j elev' hcandidate halternative hle
    exact ⟨hcandidate.ne, hcandidate.elev_eq, halternative.above.trans hle⟩
  · intro i elev elev' halternative hcandidate
    exact Option.some.inj (halternative.elev_eq.symm.trans hcandidate.elev_eq)

theorem pairwise_los_ne {sat : Propagator} {windows : List VisibilityWindow}
    (h : visibilityWindows lookAngles sat station startMin endMin stepMin fuel = .ok windows) :
    windows.Pairwise fun w next ↦ w.losTsinceMin ≠ next.losTsinceMin := by
  rcases windows_of_scan h with rfl | ⟨hstep, n, hsampled, rfl⟩
  · exact .nil
  · exact (pairwise_los hstep hsampled).imp fun hlt ↦ hlt.ne

/-- Sorting a plan does not change which handoffs it has at an instant if there is at most one. -/
theorem handoffsFrom_insertionSort {unsorted : List Handoff} {i : ℕ} {t : ℚ} {chosen : Option Handoff}
    (h : handoffsFrom unsorted i t = chosen.toList) :
    handoffsFrom (unsorted.insertionSort (·.atTsinceMin ≤ ·.atTsinceMin)) i t = chosen.toList := by
  have hperm : (handoffsFrom (unsorted.insertionSort (·.atTsinceMin ≤ ·.atTsinceMin)) i t).Perm
      chosen.toList := by
    rw [← h]
    exact (List.perm_insertionSort _ unsorted).filter _
  cases chosen with
  | none => exact List.perm_nil.mp hperm
  | some handoff => exact List.perm_singleton.mp hperm

theorem pairwise_insertionSort_at (unsorted : List Handoff) :
    (unsorted.insertionSort (·.atTsinceMin ≤ ·.atTsinceMin)).Pairwise
      (·.atTsinceMin ≤ ·.atTsinceMin) := by
  have htotal : Std.Total fun a b : Handoff ↦ a.atTsinceMin ≤ b.atTsinceMin :=
    ⟨fun a b ↦ le_total a.atTsinceMin b.atTsinceMin⟩
  have htrans : IsTrans Handoff fun a b ↦ a.atTsinceMin ≤ b.atTsinceMin :=
    ⟨fun _ _ _ hab hbc ↦ hab.trans hbc⟩
  exact List.pairwise_insertionSort _ unsorted

/-- A search that advances ends, with windows or with an error. -/
theorem exists_unwrapOrDefault (hstep : 0 < stepMin) (sat : Propagator)
    (hfuel : sampleCount startMin endMin stepMin ≤ fuel) :
    ∃ windows, (visibilityWindows lookAngles sat station startMin endMin stepMin fuel).unwrapOrDefault =
      (.ok windows : Outcome Empty _) := by
  unfold visibilityWindows
  rcases scan_scanStart_cases hstep fuel with ⟨_, hok⟩ | ⟨_, _, err, _, herror⟩ | ⟨_, hlt⟩
  · exact ⟨_, by rw [hok]; rfl⟩
  · exact ⟨[], by rw [herror]; rfl⟩
  · omega

/-- A plan is sorted, and hands a satellite over to the best visible one exactly if the windows agree
with what is visible at the end of its pass. -/
theorem planHandoffs_best_iff (lookAngles : GroundStation → StateVector → ℚ → LookAngles)
    (satellites : List Propagator) (station : GroundStation) (startMin endMin stepMin : ℚ) :
    (∀ fuel plan,
      planHandoffs lookAngles satellites station startMin endMin stepMin fuel = .ok plan →
      (∀ i sat windows, satellites[i]? = some sat →
        visibilityWindows lookAngles sat station startMin endMin stepMin fuel = .ok windows →
        ∀ w ∈ windows,
          (ToHighest (Alternative lookAngles satellites station i w.losTsinceMin)
              (handoffsFrom plan i w.losTsinceMin) ↔
            Agree (Alternative lookAngles satellites station i w.losTsinceMin)
              (Candidate lookAngles satellites station startMin endMin stepMin fuel i
                w.losTsinceMin))) ∧
      plan.Pairwise (·.atTsinceMin ≤ ·.atTsinceMin)) ∧
    (0 < stepMin → ∃ fuel, ∀ more ≥ fuel, ∃ plan,
      planHandoffs lookAngles satellites station startMin endMin stepMin more = .ok plan) := by
  constructor
  · intro fuel plan hplan
    obtain ⟨windows, hwindows, hplan⟩ := Outcome.bind_eq_ok.mp hplan
    have h : Precomputed lookAngles satellites station startMin endMin stepMin fuel windows :=
      Outcome.forall₂_of_mapM' hwindows
    cases hplan
    refine ⟨fun i sat found hsat hfound w hw ↦ ?_, pairwise_insertionSort_at _⟩
    have hsky : (satellites.zip windows)[i]? = some (sat, found) :=
      List.getElem?_zip_eq_some.mpr ⟨hsat, h.getElem?_eq hsat hfound⟩
    rw [handoffsFrom_insertionSort (handoffsFrom_handoffs hsky (pairwise_los_ne hfound) hw)]
    exact handoffAt_toHighest_iff h i w.losTsinceMin
  · intro hstep
    refine ⟨sampleCount startMin endMin stepMin, fun more hmore ↦ ?_⟩
    have hall (sat : Propagator) (_ : sat ∈ satellites) : ∃ windows,
        (visibilityWindows lookAngles sat station startMin endMin stepMin more).unwrapOrDefault =
          (.ok windows : Outcome Empty _) := exists_unwrapOrDefault hstep sat hmore
    obtain ⟨windows, hwindows⟩ := Outcome.exists_mapM' hall
    unfold planHandoffs
    rw [hwindows]
    exact ⟨_, rfl⟩

/-- The second satellite is overhead all the time, but its pass does not end within the search. The first
one sets without a handoff. -/
theorem not_planHandoffs_best :
    ¬∀ (lookAngles : GroundStation → StateVector → ℚ → LookAngles) (satellites : List Propagator)
      (station : GroundStation) (startMin endMin stepMin : ℚ) (fuel : ℕ) (plan : List Handoff),
      planHandoffs lookAngles satellites station startMin endMin stepMin fuel = .ok plan →
      ∀ i sat windows, satellites[i]? = some sat →
        visibilityWindows lookAngles sat station startMin endMin stepMin fuel = .ok windows →
        ∀ w ∈ windows, ToHighest (Alternative lookAngles satellites station i w.losTsinceMin)
          (handoffsFrom plan i w.losTsinceMin) := by
  intro h
  let setting := profile fun t ↦ 20 - 20 * t
  let overhead := profile fun _ ↦ 50
  have hplan : planHandoffs profileLook [setting, overhead] (seaLevel 10) 0 1 1 2 = .ok [] := by
    decide +kernel
  have hwindows : visibilityWindows profileLook setting (seaLevel 10) 0 1 1 2 =
      .ok [⟨0, 0, 20, ⟨0, 20, 0⟩⟩] := by
    decide +kernel
  have hbest := h _ _ _ _ _ _ _ _ hplan 0 setting _ rfl hwindows _ List.mem_cons_self
  have halternative :
      Alternative profileLook [setting, overhead] (seaLevel 10) 0 0 1 50 :=
    ⟨by decide, rfl, by decide⟩
  obtain ⟨handoff, _, hlist, _⟩ := hbest.1 ⟨1, 50, halternative⟩
  cases hlist

end Zenith.Orbit
