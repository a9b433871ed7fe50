import Zenith.Orbit.Tle
import Zenith.Rust.Runtime

/-!
# Synthetic constellations

The nested loops of `generate` number the satellites through, so that each element set is a function of
its index. The phasing follows the slot within a plane where a Walker-delta constellation phases the
planes against each other.
-/

namespace Zenith.Orbit

open Rust

structure ConstellationSpec where
  total : ℕ
  planes : ℕ
  inclinationDeg : ℚ
  altitudeKm : ℚ
  phaseFactor : ℕ
  meanMotion : ℚ
  epochYear : UInt32
  epochDay : ℚ
  deriving DecidableEq, Repr

/-- `ConstellationSpec::default`. -/
def ConstellationSpec.default : ConstellationSpec := ⟨60, 6, 53, 550, 1, 0, 2026, 1⟩

/-- The format `{:0width}` of an unsigned integer. -/
def zeroPadded (width n : ℕ) : String := "".pushn '0' (width - n.repr.length) ++ n.repr

namespace ConstellationSpec

section Generate

-- `mean_motion_for_altitude` is a parameter: Kepler's third law takes a root.
variable (meanMotionForAltitude : ℚ → ℚ) (spec : ConstellationSpec)

def makeTle (index : ℕ) (raan meanAnomaly meanMotion : ℚ) : Tle ℚ :=
  let yy := spec.epochYear % 100
  let satnum := 90000 + index
  { name := some s!"ZENITH-{spec.planes}-{index}"
    satelliteNumber := UInt32.ofNat satnum
    internationalDesignator := zeroPadded 2 yy.toNat ++ zeroPadded 3 index ++ "A"
    epochYear := spec.epochYear
    epochDay := spec.epochDay
    meanMotionDot := 0
    meanMotionDdot := 0
    bstar := 0
    elementSetNumber := 1
    inclinationDeg := spec.inclinationDeg
    raanDeg := raan
    eccentricity := 1 / 10000
    argPerigeeDeg := 0
    meanAnomalyDeg := meanAnomaly
    meanMotion := meanMotion
    revNumberAtEpoch := 1 }

/-- `total.div_ceil(planes)`. -/
def perPlane : ℕ := spec.total / spec.planes + if spec.total % spec.planes > 0 then 1 else 0

def raan (p : ℕ) : ℚ := 360 * p / spec.planes

/-- The mean anomaly that the inner loop computes. -/
def slotAnomaly (s : ℕ) : ℚ :=
  let planeOffset : ℚ := 360 * s / spec.perPlane
  let phaseOffset : ℚ := 360 * spec.phaseFactor * s / spec.total
  remEuclid (planeOffset + phaseOffset) 360

def motion : ℚ :=
  if spec.meanMotion > 0 then spec.meanMotion else meanMotionForAltitude spec.altitudeKm

/-- The loop over the slots of a plane, with the sets made so far and their number. -/
def generateSlots (raan : ℚ) : List ℕ → List (Tle ℚ) × ℕ → List (Tle ℚ) × ℕ
  | [], acc => acc
  | s :: rest, (tles, count) =>
    if count ≥ spec.total then (tles, count)
    else
      let tle := spec.makeTle count raan (spec.slotAnomaly s) (spec.motion meanMotionForAltitude)
      generateSlots raan rest (tles ++ [tle], count + 1)

/-- `generate`; `div_ceil` panics if there are no planes. -/
def generate : Option (List (Tle ℚ)) :=
  if spec.planes = 0 then none
  else
    some ((List.range spec.planes).foldl (fun acc p ↦ spec.generateSlots meanMotionForAltitude
      (spec.raan p) (List.range spec.perPlane) acc) ([], 0)).1

/-! ## The element set of an index -/

/-- The element set that `generate` puts at an index. -/
def satellite (i : ℕ) : Tle ℚ :=
  spec.makeTle i (spec.raan (i / spec.perPlane)) (spec.slotAnomaly (i % spec.perPlane))
    (spec.motion meanMotionForAltitude)

/-- The accumulators when `count` satellites should have been made. -/
def made (count : ℕ) : List (Tle ℚ) × ℕ :=
  let done := min spec.total count
  ((List.range done).map (spec.satellite meanMotionForAltitude), done)

theorem total_le (h : spec.planes ≠ 0) : spec.total ≤ spec.planes * spec.perPlane := by
  have hdiv := Nat.div_add_mod spec.total spec.planes
  have hmod := Nat.mod_lt spec.total (Nat.pos_of_ne_zero h)
  unfold perPlane
  split_ifs with hrest
  · rw [Nat.mul_add]
    omega
  · rw [Nat.add_zero]
    omega

theorem generateSlots_made (p s n : ℕ) (hn : s + n = spec.perPlane) :
    spec.generateSlots meanMotionForAltitude (spec.raan p) (List.range' s n)
      (spec.made meanMotionForAltitude (p * spec.perPlane + s)) =
        spec.made meanMotionForAltitude ((p + 1) * spec.perPlane) := by
  induction n generalizing s with
  | zero =>
    rw [← hn]
    simp only [List.range'_zero, generateSlots, Nat.add_zero]
    congr 1
    ring
  | succ n ih =>
    rw [List.range'_succ]
    by_cases hfull : spec.total ≤ p * spec.perPlane + s
    · have hend : spec.total ≤ (p + 1) * spec.perPlane := by
        rw [Nat.add_one_mul]
        omega
      simp only [made, generateSlots, Nat.min_eq_left hfull, Nat.min_eq_left hend, ge_iff_le, le_refl,
        if_true]
    · have hcount : min spec.total (p * spec.perPlane + s) = p * spec.perPlane + s := by omega
      have hnext : min spec.total (p * spec.perPlane + (s + 1)) = p * spec.perPlane + s + 1 := by omega
      have hplane : (p * spec.perPlane + s) / spec.perPlane = p := by
        rw [Nat.mul_comm, Nat.mul_add_div (by omega), Nat.div_eq_of_lt (by omega), Nat.add_zero]
      have hslot : (p * spec.perPlane + s) % spec.perPlane = s := by
        rw [Nat.mul_comm, Nat.mul_add_mod, Nat.mod_eq_of_lt (by omega)]
      have hmade : spec.made meanMotionForAltitude (p * spec.perPlane + (s + 1)) =
          ((List.range (p * spec.perPlane + s)).map (spec.satellite meanMotionForAltitude) ++
            [spec.satellite meanMotionForAltitude (p * spec.perPlane + s)],
              p * spec.perPlane + s + 1) := by
        simp only [made, hnext, List.range_succ, List.map_append, List.map_singleton]
      have hgo := ih (s + 1) (by omega)
      rw [hmade] at hgo
      simp only [made, hcount, generateSlots, ge_iff_le, if_neg hfull]
      rw [satellite, hplane, hslot] at hgo
      exact hgo

/-- The satellites are numbered through, plane by plane. -/
theorem generate_eq (h : spec.planes ≠ 0) : spec.generate meanMotionForAltitude =
    some ((List.range spec.total).map (spec.satellite meanMotionForAltitude)) := by
  have hplanes (planes : ℕ) : (List.range planes).foldl (fun acc p ↦
      spec.generateSlots meanMotionForAltitude (spec.raan p) (List.range spec.perPlane) acc) ([], 0) =
        spec.made meanMotionForAltitude (planes * spec.perPlane) := by
    induction planes with
    | zero => simp [made]
    | succ planes ih =>
      rw [List.range_succ, List.foldl_concat, ih, List.range_eq_range']
      exact spec.generateSlots_made meanMotionForAltitude planes 0 _ (Nat.zero_add _)
  unfold generate
  rw [if_neg h, hplanes, made, Nat.min_eq_left (spec.total_le h)]

end Generate

/-! ## Walker-delta constellations -/

/-- The slots of a plane where the planes divide the satellites. -/
def slots (spec : ConstellationSpec) : ℕ := spec.total / spec.planes

/-- The angle of a satellite within its plane before it is wrapped. -/
def walkerAngle (spec : ConstellationSpec) (p s : ℕ) : ℚ :=
  360 * s / spec.slots + 360 * spec.phaseFactor * p / spec.total

/-- Element sets of a Walker-delta constellation: planes evenly around the pole, satellites evenly in each
of them, and adjacent planes phased by the same angle, so that no two satellites are in one place. -/
structure IsWalkerDelta (spec : ConstellationSpec) (tles : List (Tle ℚ)) : Prop where
  length_eq : tles.length = spec.total
  placed : ∀ p < spec.planes, ∀ s < spec.slots, ∃ tle, tles[p * spec.slots + s]? = some tle ∧
    tle.raanDeg = 360 * p / spec.planes ∧ tle.meanAnomalyDeg = remEuclid (spec.walkerAngle p s) 360
  even : ∀ p < spec.planes, ∀ s, s + 1 < spec.slots → ∀ a b : Tle ℚ, tles[p * spec.slots + s]? = some a →
    tles[p * spec.slots + (s + 1)]? = some b →
      b.meanAnomalyDeg ≡ a.meanAnomalyDeg + 360 / spec.slots [PMOD 360]
  phased : ∀ p, p + 1 < spec.planes → ∀ s < spec.slots, ∀ a b : Tle ℚ,
    tles[p * spec.slots + s]? = some a → tles[(p + 1) * spec.slots + s]? = some b →
      b.meanAnomalyDeg ≡ a.meanAnomalyDeg + 360 * spec.phaseFactor / spec.total [PMOD 360]
  distinct : ∀ (i j : ℕ) (a b : Tle ℚ), tles[i]? = some a → tles[j]? = some b → i ≠ j →
    ¬(a.raanDeg = b.raanDeg ∧ a.meanAnomalyDeg = b.meanAnomalyDeg)

theorem fullTurn_pos : (0 : ℚ) < 360 := by norm_num

/-- Slots of one plane are apart by less than a turn. -/
theorem slot_inj {slots s s' : ℕ} (hs : s < slots) (hs' : s' < slots)
    (h : (360 * s / slots : ℚ) ≡ 360 * s' / slots [PMOD 360]) : s = s' := by
  obtain ⟨turns, hturns⟩ := AddCommGroup.modEq_iff_zsmul'.mp h
  have hslots : (slots : ℚ) ≠ 0 := by
    have := Nat.pos_of_ne_zero (Nat.ne_zero_of_lt hs)
    positivity
  have hdiff : ((s' : ℤ) - s : ℤ) = slots * turns := by
    have hrat : (s' : ℚ) - s = slots * turns := by
      rw [zsmul_eq_mul] at hturns
      field_simp at hturns
      linarith
    exact_mod_cast hrat
  have hzero := Int.eq_zero_of_abs_lt_dvd (Dvd.intro turns hdiff.symm) (by
    rw [abs_lt]
    omega)
  omega

theorem walkerAngle_slot_succ (spec : ConstellationSpec) (p s : ℕ) :
    spec.walkerAngle p (s + 1) = spec.walkerAngle p s + 360 / spec.slots := by
  unfold walkerAngle
  push_cast
  ring

theorem walkerAngle_plane_succ (spec : ConstellationSpec) (p s : ℕ) :
    spec.walkerAngle (p + 1) s = spec.walkerAngle p s + 360 * spec.phaseFactor / spec.total := by
  unfold walkerAngle
  push_cast
  ring

/-- An index below the total is that of a slot of a plane. -/
theorem plane_slot_lt {spec : ConstellationSpec} (hdvd : spec.planes ∣ spec.total) {i : ℕ}
    (hi : i < spec.total) : i / spec.slots < spec.planes ∧ i % spec.slots < spec.slots := by
  have htotal : spec.slots * spec.planes = spec.total := Nat.div_mul_cancel hdvd
  have hslots : 0 < spec.slots := Nat.pos_of_ne_zero fun hzero ↦ by
    rw [hzero, Nat.zero_mul] at htotal
    omega
  rw [← htotal] at hi
  exact ⟨Nat.div_lt_of_lt_mul hi, Nat.mod_lt i hslots⟩

section Placed

variable {spec : ConstellationSpec} {tles : List (Tle ℚ)}

/-- Every satellite is in its slot. -/
def Placed (spec : ConstellationSpec) (tles : List (Tle ℚ)) : Prop :=
  ∀ p < spec.planes, ∀ s < spec.slots, ∃ tle, tles[p * spec.slots + s]? = some tle ∧
    tle.raanDeg = 360 * p / spec.planes ∧ tle.meanAnomalyDeg = remEuclid (spec.walkerAngle p s) 360

theorem Placed.angles (h : Placed spec tles) {p s : ℕ} (hp : p < spec.planes) (hs : s < spec.slots)
    {tle : Tle ℚ} (htle : tles[p * spec.slots + s]? = some tle) :
    tle.raanDeg = 360 * p / spec.planes ∧
      tle.meanAnomalyDeg = remEuclid (spec.walkerAngle p s) 360 := by
  obtain ⟨tle', htle', hraan, hmean⟩ := h p hp s hs
  rw [htle, Option.some.injEq] at htle'
  exact htle' ▸ ⟨hraan, hmean⟩

theorem Placed.meanAnomaly_modEq (h : Placed spec tles) {p s : ℕ} (hp : p < spec.planes)
    (hs : s < spec.slots) {tle : Tle ℚ} (htle : tles[p * spec.slots + s]? = some tle) :
    tle.meanAnomalyDeg ≡ spec.walkerAngle p s [PMOD 360] := by
  rw [(h.angles hp hs htle).2]
  exact remEuclid_modEq _ fullTurn_pos

/-- The plane and the mean anomaly tell satellites apart. -/
theorem Placed.index_eq (h : Placed spec tles) (hdvd : spec.planes ∣ spec.total)
    (hlength : tles.length = spec.total) {i j : ℕ} {a b : Tle ℚ} (ha : tles[i]? = some a)
    (hb : tles[j]? = some b) (hraan : a.raanDeg = b.raanDeg)
    (hmean : a.meanAnomalyDeg = b.meanAnomalyDeg) : i = j := by
  obtain ⟨hpi, hsi⟩ := plane_slot_lt hdvd (hlength ▸ (List.getElem?_eq_some_iff.mp ha).1)
  obtain ⟨hpj, hsj⟩ := plane_slot_lt hdvd (hlength ▸ (List.getElem?_eq_some_iff.mp hb).1)
  have hplanes : (spec.planes : ℚ) ≠ 0 := by exact_mod_cast (Nat.zero_lt_of_lt hpi).ne'
  rw [← Nat.div_add_mod' i spec.slots] at ha
  rw [← Nat.div_add_mod' j spec.slots] at hb
  obtain ⟨hraani, hmeani⟩ := h.angles hpi hsi ha
  obtain ⟨hraanj, hmeanj⟩ := h.angles hpj hsj hb
  have hplane : i / spec.slots = j / spec.slots := by
    rw [hraani, hraanj, div_left_inj' hplanes] at hraan
    exact_mod_cast mul_left_cancel₀ fullTurn_pos.ne' hraan
  rw [hmeani, hmeanj, remEuclid_inj fullTurn_pos, hplane] at hmean
  have hslot : i % spec.slots = j % spec.slots :=
    slot_inj hsi hsj (AddCommGroup.ModEq.add_right_cancel' _ hmean)
  calc
    i = i / spec.slots * spec.slots + i % spec.slots := (Nat.div_add_mod' i spec.slots).symm
    _ = j / spec.slots * spec.slots + j % spec.slots := by rw [hplane, hslot]
    _ = j := Nat.div_add_mod' j spec.slots

/-- Where the satellites are decides the rest. -/
theorem Placed.isWalkerDelta (h : Placed spec tles) (hdvd : spec.planes ∣ spec.total)
    (hlength : tles.length = spec.total) : IsWalkerDelta spec tles where
  length_eq := hlength
  placed := h
  even p hp s hs a b ha hb := by
    have hsecond := h.meanAnomaly_modEq hp hs hb
    rw [walkerAngle_slot_succ] at hsecond
    exact hsecond.trans ((h.meanAnomaly_modEq hp (Nat.lt_of_succ_lt hs) ha).symm.add_right _)
  phased p hp s hs a b ha hb := by
    have hsecond := h.meanAnomaly_modEq hp hs hb
    rw [walkerAngle_plane_succ] at hsecond
    exact hsecond.trans ((h.meanAnomaly_modEq (Nat.lt_of_succ_lt hp) hs ha).symm.add_right _)
  distinct i j a b ha hb hne := fun ⟨hraan, hmean⟩ ↦ hne (h.index_eq hdvd hlength ha hb hraan hmean)

end Placed

/-! ## Where the phasing is right -/

theorem perPlane_eq {spec : ConstellationSpec} (hdvd : spec.planes ∣ spec.total) :
    spec.perPlane = spec.slots := by
  unfold perPlane slots
  rw [Nat.mod_eq_zero_of_dvd hdvd, if_neg (lt_irrefl 0), Nat.add_zero]

section Phasing

variable {meanMotionForAltitude : ℚ → ℚ} {spec : ConstellationSpec}

/-- The satellite in a slot of a plane. -/
theorem getElem?_satellites (hdvd : spec.planes ∣ spec.total) {p s : ℕ} (hp : p < spec.planes)
    (hs : s < spec.slots) :
    ((List.range spec.total).map (spec.satellite meanMotionForAltitude))[p * spec.slots + s]? =
      some (spec.makeTle (p * spec.slots + s) (spec.raan p) (spec.slotAnomaly s)
        (spec.motion meanMotionForAltitude)) := by
  have htotal : spec.slots * spec.planes = spec.total := Nat.div_mul_cancel hdvd
  have hlt : p * spec.slots + s < spec.total := by
    calc
      p * spec.slots + s < p * spec.slots + spec.slots := Nat.add_lt_add_left hs _
      _ = spec.slots * (p + 1) := by ring
      _ ≤ spec.total := htotal ▸ Nat.mul_le_mul_left _ hp
  have hplane : (p * spec.slots + s) / spec.slots = p := by
    rw [Nat.mul_comm, Nat.mul_add_div (by omega), Nat.div_eq_of_lt hs, Nat.add_zero]
  have hslot : (p * spec.slots + s) % spec.slots = s := by
    rw [Nat.mul_comm, Nat.mul_add_mod, Nat.mod_eq_of_lt hs]
  rw [List.getElem?_map, List.getElem?_range hlt, Option.map_some, satellite, perPlane_eq hdvd,
    hplane, hslot]

/-- The first satellite of the second plane shows the missing phasing. -/
theorem phaseFactor_eq_zero (hle : spec.planes ≤ spec.total) (hphase : spec.phaseFactor < spec.planes)
    (hturn : spec.slotAnomaly 0 = remEuclid (spec.walkerAngle 1 0) 360) : spec.phaseFactor = 0 := by
  have hpos : (spec.total : ℚ) ≠ 0 := by
    have htotal : spec.total ≠ 0 := by omega
    exact_mod_cast htotal
  unfold slotAnomaly walkerAngle at hturn
  rw [remEuclid_inj fullTurn_pos] at hturn
  obtain ⟨turns, hturns⟩ := AddCommGroup.modEq_iff_zsmul'.mp hturn
  have hrat : (spec.phaseFactor : ℚ) = spec.total * turns := by
    simp only [Nat.cast_zero, mul_zero, zero_div, add_zero, Nat.cast_one, mul_one, zero_add,
      sub_zero, zsmul_eq_mul] at hturns
    field_simp at hturns
    exact hturns
  have hint : (spec.phaseFactor : ℤ) = spec.total * turns := by exact_mod_cast hrat
  have hzero := Int.eq_zero_of_abs_lt_dvd (Dvd.intro turns hint.symm) (by
    rw [abs_lt]
    omega)
  omega

/-- `generate` makes a Walker-delta constellation exactly if no phasing is asked for. -/
theorem generate_isWalkerDelta_iff (hplanes : 1 ≤ spec.planes) (hdvd : spec.planes ∣ spec.total)
    (hphase : spec.phaseFactor < spec.planes) :
    (∃ tles, spec.generate meanMotionForAltitude = some tles ∧ IsWalkerDelta spec tles) ↔
      spec.phaseFactor = 0 ∨ spec.total = 0 := by
  rw [spec.generate_eq meanMotionForAltitude (by omega)]
  constructor
  · rintro ⟨tles, htles, hwalker⟩
    obtain rfl := Option.some.inj htles
    by_contra hne
    rw [not_or] at hne
    have hle : spec.planes ≤ spec.total := Nat.le_of_dvd (Nat.pos_of_ne_zero hne.2) hdvd
    have hslots : 0 < spec.slots := Nat.div_pos hle hplanes
    have hsecond : 1 < spec.planes := by omega
    obtain ⟨tle, htle, -, hmean⟩ := hwalker.placed 1 hsecond 0 hslots
    rw [getElem?_satellites hdvd hsecond hslots, Option.some.injEq] at htle
    subst htle
    exact hne.1 (phaseFactor_eq_zero hle hphase hmean)
  · intro hright
    have hplaced : Placed spec
        ((List.range spec.total).map (spec.satellite meanMotionForAltitude)) := by
      intro p hp s hs
      refine ⟨_, getElem?_satellites hdvd hp hs, rfl, ?_⟩
      have hzero : spec.phaseFactor = 0 := hright.resolve_right fun hnone ↦ by
        rw [slots, hnone, Nat.zero_div] at hs
        omega
      change spec.slotAnomaly s = _
      simp [slotAnomaly, walkerAngle, perPlane_eq hdvd, hzero]
    exact ⟨_, rfl, hplaced.isWalkerDelta hdvd (by simp)⟩

end Phasing

/-- Two planes of two satellites each. -/
def smallSpec (phaseFactor : ℕ) : ConstellationSpec :=
  { default with total := 4, planes := 2, phaseFactor }

theorem generate_isWalkerDelta_iff_smallSpec :
    (∃ tles, (smallSpec 0).generate (fun _ ↦ 15) = some tles ∧ IsWalkerDelta (smallSpec 0) tles) ↔
      (smallSpec 0).phaseFactor = 0 ∨ (smallSpec 0).total = 0 :=
  generate_isWalkerDelta_iff (by decide) (by decide) (by decide)

/-- The second plane is not phased against the first one. -/
theorem generate_not_isWalkerDelta : ¬∀ (meanMotionForAltitude : ℚ → ℚ) (spec : ConstellationSpec),
    1 ≤ spec.planes → spec.planes ∣ spec.total → spec.phaseFactor < spec.planes →
      ∃ tles, spec.generate meanMotionForAltitude = some tles ∧ IsWalkerDelta spec tles := by
  intro hall
  obtain ⟨tles, htles, hwalker⟩ :=
    hall (fun _ ↦ 15) (smallSpec 1) (by decide) (by decide) (by decide)
  obtain ⟨tle, htle, -, hmean⟩ := hwalker.placed 1 (by decide) 0 (by decide)
  rw [generate_eq _ _ (by decide), Option.some.injEq] at htles
  subst htles
  rw [getElem?_satellites (by decide) (by decide) (by decide), Option.some.injEq] at htle
  subst htle
  exact absurd hmean (by decide +kernel)

end ConstellationSpec

end Zenith.Orbit
