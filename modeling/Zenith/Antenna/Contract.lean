import Zenith.Antenna.Hal

/-!
# The interface contract of the simulated dish

Every dish that can be reached stays within its ranges, ignores what it rejects, approaches the setpoint
at its rates and gets there. What one tick leaves of the two distances, a run of ticks with the same
total duration leaves as well, so that a run between accepted commands is like a single tick.
-/

namespace Zenith.Antenna

open Rust Slew

/-- Positive rates and a range of elevations. -/
structure DishLimits.Valid (limits : DishLimits) : Prop where
  azimuthRate : 0 < limits.maxAzimuthRateDegS
  elevationRate : 0 < limits.maxElevationRateDegS
  elevations : limits.minElevationDeg ≤ limits.maxElevationDeg

theorem DishLimits.valid_default : default.Valid := by
  constructor <;> norm_num [DishLimits.default]

/-- A call that changes a dish. -/
inductive Call
  | command (cmd : PointingCommand)
  | tick (dt : Duration)
  deriving DecidableEq

def Call.duration : Call → Duration
  | command _ => 0
  | tick dt => dt

/-- The simulated time of a sequence of calls. -/
def elapsed (calls : List Call) : Duration := (calls.map Call.duration).sum

/-- How a dish is made. -/
inductive Origin
  | new
  | parkedAt (azimuthDeg elevationDeg : ℚ)
  deriving DecidableEq, Repr

def Origin.make (limits : DishLimits) : Origin → Option SimulatedDish
  | new => some (.new limits)
  | parkedAt azimuthDeg elevationDeg => SimulatedDish.parkedAt azimuthDeg elevationDeg limits

namespace SimulatedDish

def call (dish : SimulatedDish) : Call → Option SimulatedDish
  | .command cmd => some (dish.command cmd).2
  | .tick dt => dish.tick dt

/-- The dish after the calls; nothing if one of them panics. -/
def run (dish : SimulatedDish) (calls : List Call) : Option SimulatedDish := calls.foldlM call dish

/-- None of the calls is a command that is accepted when it is made. -/
def Keeps (dish : SimulatedDish) : List Call → Prop
  | [] => True
  | c :: calls => (∀ cmd, c = .command cmd → (dish.command cmd).1 ≠ .ok ()) ∧
      ∀ dish', dish.call c = some dish' → dish'.Keeps calls

/-- The signed way to the setpoint in azimuth. -/
def azimuthArc (dish : SimulatedDish) : ℚ := shortestArc dish.azimuthDeg dish.targetAzimuthDeg

/-- The signed way to the setpoint in elevation. -/
def elevationGap (dish : SimulatedDish) : ℚ := dish.targetElevationDeg - dish.elevationDeg

def azimuthReach (dish : SimulatedDish) (t : Duration) : ℚ := dish.limits.maxAzimuthRateDegS * t

def elevationReach (dish : SimulatedDish) (t : Duration) : ℚ :=
  dish.limits.maxElevationRateDegS * t

/-- The later dish has gone on for `t` toward the same setpoint. -/
structure Approached (dish dish' : SimulatedDish) (t : Duration) : Prop where
  limits : dish'.limits = dish.limits
  targetAzimuth : dish'.targetAzimuthDeg = dish.targetAzimuthDeg
  targetElevation : dish'.targetElevationDeg = dish.targetElevationDeg
  azimuth : |dish'.azimuthArc| = |dish.azimuthArc| - min |dish.azimuthArc| (dish.azimuthReach t)
  elevation : |dish'.elevationGap| =
    |dish.elevationGap| - min |dish.elevationGap| (dish.elevationReach t)

/-- One move of at most the reach of `dt`, neither past the setpoint nor away from it. -/
structure Moved (dish dish' : SimulatedDish) (dt : Duration) : Prop
    extends Approached dish dish' dt where
  azimuthMove : shortestArc dish.azimuthDeg dish'.azimuthDeg = dish.azimuthArc - dish'.azimuthArc
  azimuthBound : |shortestArc dish.azimuthDeg dish'.azimuthDeg| ≤ dish.azimuthReach dt
  azimuthSide : dish'.azimuthArc ∈ Set.uIcc 0 dish.azimuthArc
  elevationBound : |dish'.elevationDeg - dish.elevationDeg| ≤ dish.elevationReach dt
  elevationSide : dish'.elevationGap ∈ Set.uIcc 0 dish.elevationGap

/-- What the tracking loop may rely on. -/
structure Contract (dish : SimulatedDish) : Prop where
  azimuth : dish.state.azimuthDeg ∈ Set.Ico 0 360
  elevation : dish.state.elevationDeg ∈
    Set.Icc dish.limits.minElevationDeg dish.limits.maxElevationDeg
  rejected : ∀ cmd err dish', dish.command cmd = (.error err, dish') → dish' = dish
  accepted : ∀ cmd dish', dish.command cmd = (.ok (), dish') →
    ∃ azimuthDeg elevationDeg, cmd = ⟨.finite azimuthDeg, .finite elevationDeg⟩ ∧
      dish' = { dish with
        targetAzimuthDeg := wrap360 azimuthDeg
        targetElevationDeg := elevationDeg }
  tick : ∀ dt, ∃ dish', dish.tick dt = some dish' ∧ dish.Moved dish' dt
  settles : ∀ calls, dish.Keeps calls →
    max (|dish.azimuthArc| / dish.limits.maxAzimuthRateDegS)
      (|dish.elevationGap| / dish.limits.maxElevationRateDegS) ≤ elapsed calls →
    (dish.run calls).map state = some ⟨dish.targetAzimuthDeg, dish.targetElevationDeg, false⟩

/-- The ranges of the dish and of its setpoint. -/
structure Oriented (dish : SimulatedDish) : Prop where
  limits : dish.limits.Valid
  azimuth : dish.azimuthDeg ∈ Set.Ico 0 360
  elevation : dish.elevationDeg ∈ Set.Icc dish.limits.minElevationDeg dish.limits.maxElevationDeg
  targetAzimuth : dish.targetAzimuthDeg ∈ Set.Ico 0 360
  targetElevation : dish.targetElevationDeg ∈
    Set.Icc dish.limits.minElevationDeg dish.limits.maxElevationDeg

/-! ## One call -/

theorem azimuthReach_nonneg {dish : SimulatedDish} (h : dish.limits.Valid) (t : Duration) :
    0 ≤ dish.azimuthReach t := mul_nonneg h.azimuthRate.le t.2

theorem elevationReach_nonneg {dish : SimulatedDish} (h : dish.limits.Valid) (t : Duration) :
    0 ≤ dish.elevationReach t := mul_nonneg h.elevationRate.le t.2

theorem tick_eq {dish : SimulatedDish} (h : dish.limits.Valid) (dt : Duration) :
    dish.tick dt = some { dish with
      azimuthDeg := wrap360 (dish.azimuthDeg + toward dish.azimuthArc (dish.azimuthReach dt))
      elevationDeg := dish.elevationDeg + toward dish.elevationGap (dish.elevationReach dt) } := by
  have hazimuth := clamp_eq_toward (d := dish.azimuthArc) (azimuthReach_nonneg h dt)
  have helevation := clamp_eq_toward (d := dish.elevationGap) (elevationReach_nonneg h dt)
  simp only [azimuthArc, azimuthReach] at hazimuth
  simp only [elevationGap, elevationReach] at helevation
  simp only [tick, hazimuth, helevation, Option.bind_eq_bind, Option.bind_some]
  rfl

theorem command_cases (dish : SimulatedDish) (cmd : PointingCommand) :
    (∃ err, dish.command cmd = (.error err, dish)) ∨
    ∃ azimuthDeg elevationDeg, cmd = ⟨.finite azimuthDeg, .finite elevationDeg⟩ ∧
      elevationDeg ∈ Set.Icc dish.limits.minElevationDeg dish.limits.maxElevationDeg ∧
      dish.command cmd = (.ok (), { dish with
        targetAzimuthDeg := wrap360 azimuthDeg
        targetElevationDeg := elevationDeg }) := by
  rcases cmd with ⟨az, el⟩
  cases az with
  | finite az =>
    cases el with
    | finite el =>
      by_cases hlow : el < dish.limits.minElevationDeg
      · exact .inl ⟨_, by simp only [command, if_pos hlow]; rfl⟩
      · by_cases hhigh : el > dish.limits.maxElevationDeg
        · exact .inl ⟨_, by simp only [command, if_neg hlow, if_pos hhigh]; rfl⟩
        · refine .inr ⟨az, el, rfl, ⟨not_lt.mp hlow, not_lt.mp hhigh⟩, ?_⟩
          simp only [command, if_neg hlow, if_neg hhigh]
    | infinite negative => exact .inl ⟨_, rfl⟩
    | nan => exact .inl ⟨_, rfl⟩
  | infinite negative => exact .inl ⟨_, rfl⟩
  | nan => exact .inl ⟨_, rfl⟩

theorem moved_of_tick {dish dish' : SimulatedDish} {dt : Duration} (h : dish.limits.Valid)
    (htick : dish.tick dt = some dish') : dish.Moved dish' dt := by
  have hazimuth := azimuthReach_nonneg h dt
  have helevation := elevationReach_nonneg h dt
  rw [tick_eq h, Option.some.injEq] at htick
  have hrest : dish'.azimuthArc =
      dish.azimuthArc - toward dish.azimuthArc (dish.azimuthReach dt) := by
    rw [← htick]
    exact shortestArc_rest hazimuth
  have hmove : shortestArc dish.azimuthDeg dish'.azimuthDeg =
      toward dish.azimuthArc (dish.azimuthReach dt) := by
    rw [← htick]
    exact shortestArc_move hazimuth
  have hgap : dish'.elevationGap =
      dish.elevationGap - toward dish.elevationGap (dish.elevationReach dt) := by
    rw [← htick]
    exact sub_add_eq_sub_sub _ _ _
  have hclimb : dish'.elevationDeg - dish.elevationDeg =
      toward dish.elevationGap (dish.elevationReach dt) := by
    rw [← htick]
    exact add_sub_cancel_left _ _
  constructor
  · constructor
    · rw [← htick]
    · rw [← htick]
    · rw [← htick]
    · rw [hrest, abs_sub_toward hazimuth]
    · rw [hgap, abs_sub_toward helevation]
  · rw [hmove, hrest, sub_sub_cancel]
  · rw [hmove, abs_toward hazimuth]
    exact min_le_right _ _
  · rw [hrest]
    exact sub_toward_mem hazimuth
  · rw [hclimb, abs_toward helevation]
    exact min_le_right _ _
  · rw [hgap]
    exact sub_toward_mem helevation

theorem Oriented.tick {dish : SimulatedDish} (h : dish.Oriented) (dt : Duration) :
    ∃ dish', dish.tick dt = some dish' ∧ dish'.Oriented ∧ dish'.limits = dish.limits := by
  refine ⟨_, tick_eq h.limits dt, ⟨h.limits, wrap360_mem _, ?_, h.targetAzimuth,
    h.targetElevation⟩, rfl⟩
  -- the new elevation lies between the old one and the setpoint
  have hbetween := sub_toward_mem (d := dish.elevationGap) (elevationReach_nonneg h.limits dt)
  obtain ⟨hlow, hhigh⟩ := h.elevation
  obtain ⟨hlow', hhigh'⟩ := h.targetElevation
  have hgap : dish.elevationGap = dish.targetElevationDeg - dish.elevationDeg := rfl
  dsimp only
  rw [Set.mem_uIcc] at hbetween
  rcases hbetween with ⟨hleft, hright⟩ | ⟨hleft, hright⟩
  · exact ⟨by linarith, by linarith⟩
  · exact ⟨by linarith, by linarith⟩

theorem Oriented.command {dish : SimulatedDish} (h : dish.Oriented) (cmd : PointingCommand) :
    (dish.command cmd).2.Oriented ∧ (dish.command cmd).2.limits = dish.limits := by
  rcases dish.command_cases cmd with ⟨err, heq⟩ | ⟨az, el, -, hel, heq⟩
  · rw [heq]
    exact ⟨h, rfl⟩
  · rw [heq]
    exact ⟨⟨h.limits, h.azimuth, h.elevation, wrap360_mem az, hel⟩, rfl⟩

theorem Oriented.call {dish : SimulatedDish} (h : dish.Oriented) (c : Call) :
    ∃ dish', dish.call c = some dish' ∧ dish'.Oriented ∧ dish'.limits = dish.limits := by
  cases c with
  | command cmd => exact ⟨_, rfl, h.command cmd⟩
  | tick dt => exact h.tick dt

/-! ## Runs -/

theorem run_cons (dish : SimulatedDish) (c : Call) (calls : List Call) :
    dish.run (c :: calls) = dish.call c >>= fun dish' ↦ dish'.run calls := rfl

theorem Oriented.run {dish : SimulatedDish} (h : dish.Oriented) (calls : List Call) :
    ∃ dish', dish.run calls = some dish' ∧ dish'.Oriented ∧ dish'.limits = dish.limits := by
  induction calls generalizing dish with
  | nil => exact ⟨dish, rfl, h, rfl⟩
  | cons c calls ih =>
    obtain ⟨next, hcall, hnext, hlimits⟩ := h.call c
    obtain ⟨dish', hrun, hdish', hlimits'⟩ := ih hnext
    rw [run_cons, hcall]
    exact ⟨dish', hrun, hdish', hlimits'.trans hlimits⟩

theorem Approached.refl (dish : SimulatedDish) : dish.Approached dish 0 := by
  refine ⟨rfl, rfl, rfl, ?_, ?_⟩
  · simp [azimuthReach]
  · simp [elevationReach]

theorem Approached.trans {dish dish' dish'' : SimulatedDish} {t t' : Duration}
    (h : dish.Approached dish' t) (h' : dish'.Approached dish'' t') (hvalid : dish.limits.Valid) :
    dish.Approached dish'' (t + t') := by
  have hazimuth : dish'.azimuthReach t' = dish.azimuthReach t' := by
    rw [azimuthReach, h.limits, azimuthReach]
  have helevation : dish'.elevationReach t' = dish.elevationReach t' := by
    rw [elevationReach, h.limits, elevationReach]
  have hazimuthSum : dish.azimuthReach (t + t') = dish.azimuthReach t + dish.azimuthReach t' := by
    unfold azimuthReach
    push_cast
    ring
  have helevationSum : dish.elevationReach (t + t') =
      dish.elevationReach t + dish.elevationReach t' := by
    unfold elevationReach
    push_cast
    ring
  constructor
  · exact h'.limits.trans h.limits
  · exact h'.targetAzimuth.trans h.targetAzimuth
  · exact h'.targetElevation.trans h.targetElevation
  · rw [h'.azimuth, h.azimuth, hazimuth, hazimuthSum,
      sub_min_sub_min (azimuthReach_nonneg hvalid t')]
  · rw [h'.elevation, h.elevation, helevation, helevationSum,
      sub_min_sub_min (elevationReach_nonneg hvalid t')]

theorem Approached.of_call {dish dish' : SimulatedDish} {c : Call} (h : dish.limits.Valid)
    (hkept : ∀ cmd, c = .command cmd → (dish.command cmd).1 ≠ .ok ())
    (hcall : dish.call c = some dish') : dish.Approached dish' c.duration := by
  cases c with
  | command cmd =>
    rcases dish.command_cases cmd with ⟨err, heq⟩ | ⟨az, el, -, -, heq⟩
    · rw [call, heq, Option.some.injEq] at hcall
      rw [← hcall]
      exact .refl dish
    · exact absurd (congrArg Prod.fst heq) (hkept cmd rfl)
  | tick dt => exact (moved_of_tick h hcall).toApproached

/-- Between accepted commands only the total duration of the ticks counts. -/
theorem Approached.of_run {dish dish' : SimulatedDish} {calls : List Call} (h : dish.limits.Valid)
    (hkeeps : dish.Keeps calls) (hrun : dish.run calls = some dish') :
    dish.Approached dish' (elapsed calls) := by
  induction calls generalizing dish with
  | nil =>
    rw [← Option.some.inj hrun]
    exact .refl dish
  | cons c calls ih =>
    rw [run_cons, Option.bind_eq_bind, Option.bind_eq_some_iff] at hrun
    obtain ⟨next, hcall, hrest⟩ := hrun
    have hstep := Approached.of_call h hkeeps.1 hcall
    have hvalid : next.limits.Valid := hstep.limits ▸ h
    exact hstep.trans (ih hvalid (hkeeps.2 next hcall) hrest) h

/-- A dish on its setpoint. -/
theorem state_of_arrived {dish : SimulatedDish} (h : dish.Oriented) (hazimuth : |dish.azimuthArc| = 0)
    (helevation : |dish.elevationGap| = 0) :
    dish.state = ⟨dish.targetAzimuthDeg, dish.targetElevationDeg, false⟩ := by
  have harrived := eq_of_shortestArc_eq_zero h.azimuth h.targetAzimuth (abs_eq_zero.mp hazimuth)
  have hlevel : dish.targetElevationDeg = dish.elevationDeg :=
    sub_eq_zero.mp (abs_eq_zero.mp helevation)
  unfold azimuthArc at hazimuth
  unfold elevationGap at helevation
  unfold state
  rw [hazimuth, helevation, harrived, hlevel]
  norm_num

theorem Oriented.settles {dish : SimulatedDish} (h : dish.Oriented) {calls : List Call}
    (hkeeps : dish.Keeps calls)
    (htime : max (|dish.azimuthArc| / dish.limits.maxAzimuthRateDegS)
      (|dish.elevationGap| / dish.limits.maxElevationRateDegS) ≤ elapsed calls) :
    (dish.run calls).map state =
      some ⟨dish.targetAzimuthDeg, dish.targetElevationDeg, false⟩ := by
  obtain ⟨dish', hrun, hdish', -⟩ := h.run calls
  have happroached := Approached.of_run h.limits hkeeps hrun
  obtain ⟨hazimuth, helevation⟩ := max_le_iff.mp htime
  have hazimuthReach : |dish.azimuthArc| ≤ dish.azimuthReach (elapsed calls) :=
    (div_le_iff₀' h.limits.azimuthRate).mp hazimuth
  have helevationReach : |dish.elevationGap| ≤ dish.elevationReach (elapsed calls) :=
    (div_le_iff₀' h.limits.elevationRate).mp helevation
  have hazimuthRest : |dish'.azimuthArc| = 0 := by
    rw [happroached.azimuth, min_eq_left hazimuthReach, sub_self]
  have helevationRest : |dish'.elevationGap| = 0 := by
    rw [happroached.elevation, min_eq_left helevationReach, sub_self]
  rw [hrun, Option.map_some, state_of_arrived hdish' hazimuthRest helevationRest,
    happroached.targetAzimuth, happroached.targetElevation]

/-! ## The contract -/

theorem Oriented.contract {dish : SimulatedDish} (h : dish.Oriented) : dish.Contract where
  azimuth := h.azimuth
  elevation := h.elevation
  rejected cmd err dish' hcommand := by
    rcases dish.command_cases cmd with ⟨err', heq⟩ | ⟨az, el, -, -, heq⟩
    · rw [heq] at hcommand
      exact (Prod.mk.inj hcommand).2.symm
    · rw [heq] at hcommand
      cases (Prod.mk.inj hcommand).1
  accepted cmd dish' hcommand := by
    rcases dish.command_cases cmd with ⟨err', heq⟩ | ⟨az, el, hcmd, -, heq⟩
    · rw [heq] at hcommand
      cases (Prod.mk.inj hcommand).1
    · rw [heq] at hcommand
      exact ⟨az, el, hcmd, (Prod.mk.inj hcommand).2.symm⟩
  tick dt := by
    obtain ⟨dish', htick, -⟩ := h.tick dt
    exact ⟨dish', htick, moved_of_tick h.limits htick⟩
  settles _ := h.settles

theorem oriented_make {limits : DishLimits} (h : limits.Valid) (origin : Origin) :
    ∃ dish, origin.make limits = some dish ∧ dish.Oriented ∧ dish.limits = limits := by
  cases origin with
  | new =>
    have hzero : (0 : ℚ) ∈ Set.Ico 0 360 := by norm_num
    have hlow := Set.left_mem_Icc.mpr h.elevations
    exact ⟨_, rfl, ⟨h, hzero, hlow, hzero, hlow⟩, rfl⟩
  | parkedAt az el =>
    obtain ⟨el', hclamp⟩ : ∃ el', clamp el limits.minElevationDeg limits.maxElevationDeg = some el' :=
      ⟨_, clamp_eq h.elevations⟩
    have hmem := clamp_mem hclamp
    refine ⟨⟨wrap360 az, el', wrap360 az, el', limits⟩, ?_,
      ⟨h, wrap360_mem az, hmem, wrap360_mem az, hmem⟩, rfl⟩
    simp only [Origin.make, parkedAt, hclamp, Option.bind_eq_bind, Option.bind_some]

/-- After any calls on any dish, made in any way, the contract holds. -/
theorem run_contract {limits : DishLimits} (h : limits.Valid) (origin : Origin)
    (calls : List Call) : ∃ dish, (origin.make limits >>= fun made ↦ made.run calls) = some dish ∧
      dish.limits = limits ∧ dish.Contract := by
  obtain ⟨made, hmake, hmade, hlimits⟩ := oriented_make h origin
  obtain ⟨dish, hrun, hdish, hlimits'⟩ := hmade.run calls
  rw [hmake]
  exact ⟨dish, hrun, hlimits'.trans hlimits, hdish.contract⟩

/-- A dish parked at 350 degrees is sent to 10 degrees and follows for a second. -/
theorem run_contract_default : ∃ dish,
    ((Origin.parkedAt 350 10).make .default >>= fun made ↦
      made.run [.command ⟨.finite 10, .finite 10⟩, .tick 1]) = some dish ∧
      dish.limits = .default ∧ dish.Contract :=
  run_contract DishLimits.valid_default _ _

end SimulatedDish

end Zenith.Antenna
