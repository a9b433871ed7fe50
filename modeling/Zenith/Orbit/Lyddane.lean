import Zenith.Rust.Transcendental

/-!
# Lunar and solar periodics

`dpper` adds the periodic perturbations of the Moon and the Sun to the elements of a deep-space
orbit. At a low inclination the node is badly determined, and the Lyddane branch perturbs the vector
of the node instead. The branch always moves the angle of that vector by a full turn, which takes it
next to the incoming node only where the perturbed node lies past the half turn.
-/

namespace Zenith.Orbit

open Rust Real

noncomputable section

/-- `TWO_PI`. -/
def twoPi : ℝ := 2.0 * π

theorem twoPi_eq : twoPi = 2 * π := by norm_num [twoPi]

/-- The lunar and solar coefficients of `Propagator`, and its baseline at the epoch. -/
structure DeepSpace where
  (zmos se2 se3 si2 si3 sl2 sl3 sl4 sgh2 sgh3 sgh4 sh2 sh3 : ℝ)
  (zmol ee2 e3 xi2 xi3 xl2 xl3 xl4 xgh2 xgh3 xgh4 xh2 xh3 : ℝ)
  (peo pinco plo pgho pho : ℝ)

/-- The periodics of eccentricity, inclination, mean longitude, argument of perigee and node. -/
@[ext] structure PeriodicSums where
  pe : ℝ
  pinc : ℝ
  pl : ℝ
  pgh : ℝ
  ph : ℝ

instance : Zero PeriodicSums := ⟨⟨0, 0, 0, 0, 0⟩⟩

/-- The elements that `dpper` updates in place. -/
structure Elements where
  ep : ℝ
  inclp : ℝ
  nodep : ℝ
  argpp : ℝ
  mp : ℝ

namespace DeepSpace

def dpperSums (p : DeepSpace) (t : ℝ) : PeriodicSums :=
  let zns := 1.19459e-5
  let zes := 0.01675
  let znl := 1.5835218e-4
  let zel := 0.05490
  let zm := p.zmos + zns * t
  let zm := zm + 2.0 * zes * sin zm
  let sinzf := sin zm
  let f2 := 0.5 * sinzf * sinzf - 0.25
  let f3 := -0.5 * sinzf * cos zm
  let ses := p.se2 * f2 + p.se3 * f3
  let sis := p.si2 * f2 + p.si3 * f3
  let sls := p.sl2 * f2 + p.sl3 * f3 + p.sl4 * sinzf
  let sghs := p.sgh2 * f2 + p.sgh3 * f3 + p.sgh4 * sinzf
  let shs := p.sh2 * f2 + p.sh3 * f3
  let zm := p.zmol + znl * t
  let zm := zm + 2.0 * zel * sin zm
  let sinzf := sin zm
  let f2 := 0.5 * sinzf * sinzf - 0.25
  let f3 := -0.5 * sinzf * cos zm
  let sel := p.ee2 * f2 + p.e3 * f3
  let sil := p.xi2 * f2 + p.xi3 * f3
  let sll := p.xl2 * f2 + p.xl3 * f3 + p.xl4 * sinzf
  let sghl := p.xgh2 * f2 + p.xgh3 * f3 + p.xgh4 * sinzf
  let shll := p.xh2 * f2 + p.xh3 * f3
  { pe := ses + sel, pinc := sis + sil, pl := sls + sll, pgh := sghs + sghl, ph := shs + shll }

/-- The sums less their baseline: what `dpper` perturbs the elements by. -/
def periodics (p : DeepSpace) (t : ℝ) : PeriodicSums :=
  let raw := p.dpperSums t
  { pe := raw.pe - p.peo, pinc := raw.pinc - p.pinco, pl := raw.pl - p.plo,
    pgh := raw.pgh - p.pgho, ph := raw.ph - p.pho }

end DeepSpace

namespace PeriodicSums

variable (s : PeriodicSums) (inclp nodep : ℝ)

/-- The perturbed vector of the node, `inclp` being corrected already. -/
def alfdp : ℝ :=
  let dalf := s.ph * cos nodep + s.pinc * cos inclp * sin nodep
  sin inclp * sin nodep + dalf

def betdp : ℝ :=
  let dbet := -s.ph * sin nodep + s.pinc * cos inclp * cos nodep
  sin inclp * cos nodep + dbet

/-- The node that the Lyddane branch writes back. -/
def lyddaneNode : ℝ :=
  let xnoh := remEuclidReal nodep twoPi
  let nodep := atan2 (s.alfdp inclp nodep) (s.betdp inclp nodep)
  if nodep < xnoh then nodep + twoPi else nodep - twoPi

/-- The update of the elements by the periodics. -/
def perturb (e : Elements) : Elements :=
  let inclp := e.inclp + s.pinc
  let ep := e.ep + s.pe
  let sinip := sin inclp
  let cosip := cos inclp
  if inclp ≥ 0.2 then
    let ph := s.ph / sinip
    let pgh := s.pgh - cosip * ph
    { ep, inclp, nodep := e.nodep + ph, argpp := e.argpp + pgh, mp := e.mp + s.pl }
  else
    let xnoh := remEuclidReal e.nodep twoPi
    let nodep := s.lyddaneNode inclp e.nodep
    let mp := e.mp + s.pl
    { ep, inclp, nodep, argpp := (mp + e.argpp + cosip * xnoh) - mp - cosip * nodep, mp }

end PeriodicSums

def DeepSpace.dpper (p : DeepSpace) (t : ℝ) (e : Elements) : Elements := (p.periodics t).perturb e

/-! ## An angle by its two representatives -/

section Representatives

variable {h a x δ : ℝ}

/-- The representative up to the half turn of an angle `δ` past `x`. -/
theorem eq_of_modEq (ha : a ∈ Set.Ioc (-h) h) (hx : x ∈ Set.Ico 0 (2 * h))
    (hδ : δ ∈ Set.Ioc (-h) h) (hmod : a ≡ x + δ [PMOD 2 * h]) :
    a = if x + δ ≤ h then x + δ else x + δ - 2 * h := by
  have hh : 0 < 2 * h := hx.1.trans_lt hx.2
  have htop : -h + 2 * h = h := by ring
  have hrepresents {b : ℝ} (hb : b ∈ Set.Ioc (-h) h) (hturns : ∃ z : ℤ, x + δ = b + z • (2 * h)) :
      toIocMod hh (-h) (x + δ) = b := by
    rw [toIocMod_eq_iff, htop]
    exact ⟨hb, hturns⟩
  obtain ⟨z, hz⟩ := AddCommGroup.modEq_iff_zsmul.mp hmod
  rw [← hrepresents ha ⟨z, by rw [hz, add_sub_cancel]⟩]
  split_ifs with hle
  · exact hrepresents ⟨by linarith [hx.1, hδ.1], hle⟩ ⟨0, by simp⟩
  · exact hrepresents ⟨by linarith, by linarith [hx.2, hδ.2]⟩ ⟨1, by simp⟩

/-- The full turn of `dpper`, on an angle that is at `x + δ`: it ends at `x + δ` exactly where that
lies past the half turn. -/
theorem turned_eq (ha : a ∈ Set.Ioc (-h) h) (hx : x ∈ Set.Ico 0 (2 * h)) (hδ : δ ∈ Set.Ioc (-h) h)
    (hmod : a ≡ x + δ [PMOD 2 * h]) (hpast : h < x + δ) :
    (if a < x then a + 2 * h else a - 2 * h) = x + δ := by
  have haeq := eq_of_modEq ha hx hδ hmod
  rw [if_neg (not_le.mpr hpast)] at haeq
  have hlt : a < x := by linarith [hδ.2, hx.1, hx.2]
  rw [if_pos hlt, haeq, sub_add_cancel]

theorem abs_turned_sub_le_iff (ha : a ∈ Set.Ioc (-h) h) (hx : x ∈ Set.Ico 0 (2 * h))
    (hδ : δ ∈ Set.Ioc (-h) h) (hmod : a ≡ x + δ [PMOD 2 * h]) :
    |(if a < x then a + 2 * h else a - 2 * h) - x| ≤ h ↔ h < x + δ ∨ x = 0 ∧ δ = h := by
  obtain ⟨hδlow, hδhigh⟩ := hδ
  rcases lt_or_ge h (x + δ) with hpast | hle
  · rw [turned_eq ha hx ⟨hδlow, hδhigh⟩ hmod hpast, add_sub_cancel_left, abs_le]
    exact iff_of_true ⟨hδlow.le, hδhigh⟩ (.inl hpast)
  · have haeq := eq_of_modEq ha hx ⟨hδlow, hδhigh⟩ hmod
    rw [if_pos hle] at haeq
    rw [haeq, abs_le]
    split_ifs with hneg
    · refine iff_of_false (fun hnear ↦ ?_) ?_
      · linarith [hnear.2]
      · rintro (hpast | ⟨rfl, rfl⟩) <;> linarith [hx.2]
    · constructor
      · rintro ⟨hnear, -⟩
        exact .inr ⟨by linarith [hx.1], by linarith [hx.1]⟩
      · rintro (hpast | ⟨rfl, rfl⟩)
        · linarith
        · constructor <;> linarith [hx.2]

end Representatives

/-! ## The node of the Lyddane branch -/

namespace PeriodicSums

variable (s : PeriodicSums) (inclp nodep : ℝ)

/-- The perturbed vector of the node along the incoming node; `ph` is its part across. -/
def along : ℝ := sin inclp + s.pinc * cos inclp

/-- The angle by which the periodics turn the vector of the node. -/
def nodeTurn : ℝ := atan2 s.ph (s.along inclp)

/-- The node of the first turn, perturbed, lies past the half turn. The last two cases are borders:
a node at zero that is turned by a half turn, and a node at the half turn whose vector vanishes. -/
def PastHalfTurn : Prop :=
  π < remEuclidReal nodep twoPi + s.nodeTurn inclp ∨
    remEuclidReal nodep twoPi = 0 ∧ s.nodeTurn inclp = π ∨
    remEuclidReal nodep twoPi = π ∧ s.along inclp = 0 ∧ s.ph = 0

theorem alfdp_eq : s.alfdp inclp nodep = s.along inclp * sin nodep + s.ph * cos nodep := by
  unfold alfdp along
  ring

theorem betdp_eq : s.betdp inclp nodep = s.along inclp * cos nodep - s.ph * sin nodep := by
  unfold betdp along
  ring

variable {s inclp nodep}

/-- A vector that does not vanish is the vector of the node, turned. -/
theorem atan2_modEq (h : ¬(s.along inclp = 0 ∧ s.ph = 0)) :
    atan2 (s.alfdp inclp nodep) (s.betdp inclp nodep) ≡
      remEuclidReal nodep (2 * π) + s.nodeTurn inclp [PMOD 2 * π] := by
  rw [alfdp_eq, betdp_eq]
  apply (atan2_rotate h nodep).trans
  exact (remEuclidReal_modEq nodep two_pi_pos).symm.add_right _

theorem lyddaneNode_eq : s.lyddaneNode inclp nodep =
    if atan2 (s.alfdp inclp nodep) (s.betdp inclp nodep) < remEuclidReal nodep (2 * π) then
      atan2 (s.alfdp inclp nodep) (s.betdp inclp nodep) + 2 * π
    else atan2 (s.alfdp inclp nodep) (s.betdp inclp nodep) - 2 * π := by
  rw [lyddaneNode, twoPi_eq]

theorem lyddaneNode_modEq : s.lyddaneNode inclp nodep ≡
    atan2 (s.alfdp inclp nodep) (s.betdp inclp nodep) [PMOD 2 * π] := by
  rw [lyddaneNode_eq, AddCommGroup.modEq_iff_zsmul]
  split_ifs
  · exact ⟨-1, by simp⟩
  · exact ⟨1, by simp⟩

/-- The node that the branch writes back is next to the incoming one exactly past the half turn. -/
theorem abs_lyddaneNode_sub_le_iff :
    |s.lyddaneNode inclp nodep - remEuclidReal nodep (2 * π)| ≤ π ↔ s.PastHalfTurn inclp nodep := by
  have hx := remEuclidReal_mem nodep two_pi_pos
  rw [lyddaneNode_eq, PastHalfTurn, twoPi_eq]
  by_cases hvanish : s.along inclp = 0 ∧ s.ph = 0
  · have hangle : atan2 (s.alfdp inclp nodep) (s.betdp inclp nodep) = 0 := by
      rw [alfdp_eq, betdp_eq, hvanish.1, hvanish.2]
      simp [atan2_zero_of_nonneg]
    have hturn : s.nodeTurn inclp = 0 := by
      rw [nodeTurn, hvanish.1, hvanish.2, atan2_zero_of_nonneg le_rfl]
    have hpi := pi_pos
    rw [hangle, hturn, abs_le]
    generalize remEuclidReal nodep (2 * π) = x at hx ⊢
    rcases le_or_gt π x with hle | hlt
    · apply iff_of_true
      · rw [if_pos (hpi.trans_le hle)]
        constructor <;> linarith [hx.2]
      · rcases hle.eq_or_lt with heq | hgt
        · exact .inr (.inr ⟨heq.symm, hvanish⟩)
        · exact .inl (by linarith)
    · apply iff_of_false
      · split_ifs with hnode
        · intro hnear
          linarith [hnear.2]
        · intro hnear
          linarith [hnear.1, hx.1]
      · rintro (hpast | ⟨-, hturn⟩ | ⟨hhalf, -⟩) <;> linarith
  · rw [abs_turned_sub_le_iff (atan2_mem _ _) hx (atan2_mem _ _) (atan2_modEq hvanish)]
    apply or_congr_right
    exact ⟨.inl, fun hborder ↦ hborder.resolve_right fun h ↦ hvanish h.2⟩

/-! ### Without periodics -/

section Zero

theorem along_zero : (0 : PeriodicSums).along inclp = sin inclp := by
  change sin inclp + 0 * cos inclp = sin inclp
  rw [zero_mul, add_zero]

variable (hsin : 0 < sin inclp)
include hsin

theorem nodeTurn_zero : (0 : PeriodicSums).nodeTurn inclp = 0 := by
  rw [nodeTurn, along_zero]
  exact atan2_zero_of_nonneg hsin.le

theorem atan2_modEq_zero :
    atan2 ((0 : PeriodicSums).alfdp inclp nodep) ((0 : PeriodicSums).betdp inclp nodep) ≡
      remEuclidReal nodep (2 * π) + 0 [PMOD 2 * π] := by
  rw [← nodeTurn_zero hsin]
  exact atan2_modEq fun h ↦ hsin.ne' (along_zero.symm.trans h.1)

theorem pastHalfTurn_zero_iff :
    (0 : PeriodicSums).PastHalfTurn inclp nodep ↔ π < remEuclidReal nodep (2 * π) := by
  rw [PastHalfTurn, twoPi_eq, along_zero, nodeTurn_zero hsin, add_zero]
  apply or_iff_left
  rintro (⟨-, hpi⟩ | ⟨-, hzero, -⟩)
  · exact pi_ne_zero hpi.symm
  · exact hsin.ne' hzero

/-- Past the half turn the branch writes back the node in the first turn. -/
theorem lyddaneNode_zero (hpast : π < remEuclidReal nodep (2 * π)) :
    (0 : PeriodicSums).lyddaneNode inclp nodep = remEuclidReal nodep (2 * π) := by
  rw [lyddaneNode_eq]
  calc
    _ = remEuclidReal nodep (2 * π) + 0 :=
      turned_eq (atan2_mem _ _) (remEuclidReal_mem nodep two_pi_pos)
        ⟨neg_lt_zero.mpr pi_pos, pi_pos.le⟩ (atan2_modEq_zero hsin) (by rwa [add_zero])
    _ = remEuclidReal nodep (2 * π) := add_zero _

/-- Up to the half turn the branch takes a full turn off the node. -/
theorem lyddaneNode_zero_of_le (hle : remEuclidReal nodep (2 * π) ≤ π) :
    (0 : PeriodicSums).lyddaneNode inclp nodep = remEuclidReal nodep (2 * π) - 2 * π := by
  have hangle := eq_of_modEq (atan2_mem _ _) (remEuclidReal_mem nodep two_pi_pos)
    ⟨neg_lt_zero.mpr pi_pos, pi_pos.le⟩ (atan2_modEq_zero hsin)
  rw [add_zero, if_pos hle] at hangle
  rw [lyddaneNode_eq, hangle]
  exact if_neg (lt_irrefl _)

end Zero

/-! ## The branch as a whole -/

variable {e : Elements}

theorem perturb_inclp : (s.perturb e).inclp = e.inclp + s.pinc := by
  unfold perturb
  dsimp only
  split <;> rfl

theorem perturb_of_lt (hlow : e.inclp + s.pinc < 0.2) :
    s.perturb e =
      { ep := e.ep + s.pe
        inclp := e.inclp + s.pinc
        nodep := s.lyddaneNode (e.inclp + s.pinc) e.nodep
        argpp := e.mp + s.pl + e.argpp + cos (e.inclp + s.pinc) * remEuclidReal e.nodep (2 * π) -
          (e.mp + s.pl) - cos (e.inclp + s.pinc) * s.lyddaneNode (e.inclp + s.pinc) e.nodep
        mp := e.mp + s.pl } := by
  rw [← twoPi_eq]
  exact if_neg (not_le.mpr hlow)

/-- Without periodics the elements stay, but for full turns of the node and what they do to the
argument of perigee. -/
theorem perturb_zero (hlow : e.inclp < 0.2) :
    (0 : PeriodicSums).perturb e =
      { e with
        nodep := (0 : PeriodicSums).lyddaneNode e.inclp e.nodep
        argpp := e.argpp + cos e.inclp *
          (remEuclidReal e.nodep (2 * π) - (0 : PeriodicSums).lyddaneNode e.inclp e.nodep) } := by
  have hinclp : e.inclp + (0 : PeriodicSums).pinc = e.inclp := add_zero _
  have hmp : e.mp + (0 : PeriodicSums).pl = e.mp := add_zero _
  have hep : e.ep + (0 : PeriodicSums).pe = e.ep := add_zero _
  rw [perturb_of_lt (by rwa [hinclp]), hinclp, hmp, hep]
  congr 1
  ring

/-- A node in the first half turn takes the argument of perigee along, by less than a full turn. -/
theorem argpp_perturb_zero_of_le (hpos : 0 < e.inclp) (hlow : e.inclp < 0.2)
    (hle : remEuclidReal e.nodep (2 * π) ≤ π) :
    ((0 : PeriodicSums).perturb e).argpp = e.argpp + cos e.inclp * (2 * π) ∧
      ¬((0 : PeriodicSums).perturb e).argpp ≡ e.argpp [PMOD 2 * π] := by
  have hsin : 0 < sin e.inclp := by
    apply sin_pos_of_pos_of_lt_pi hpos
    linarith [pi_gt_three]
  have hargpp : ((0 : PeriodicSums).perturb e).argpp = e.argpp + cos e.inclp * (2 * π) := by
    rw [perturb_zero hlow, lyddaneNode_zero_of_le hsin hle, sub_sub_cancel]
  have hcos_pos : 0 < cos e.inclp := by
    apply cos_pos_of_mem_Ioo
    constructor <;> linarith [pi_gt_three]
  have hcos_lt : cos e.inclp < 1 := by
    rw [← cos_zero]
    exact cos_lt_cos_of_nonneg_of_le_pi le_rfl (by linarith [pi_gt_three]) hpos
  refine ⟨hargpp, ?_⟩
  rw [hargpp, AddCommGroup.add_modEq_left, AddCommGroup.modEq_iff_zsmul]
  rintro ⟨m, hm⟩
  rw [zsmul_eq_mul, zero_sub, ← neg_mul, mul_left_inj' two_pi_pos.ne'] at hm
  have hlow : (-1 : ℝ) < m := by linarith
  have hhigh : (m : ℝ) < 0 := by linarith
  norm_cast at hlow hhigh
  omega

end PeriodicSums

/-- At a low inclination `dpper` writes back a node at the perturbed angle. It is next to the
incoming node, and elements without periodics keep their angles, exactly where the perturbed node
lies past the half turn. -/
theorem DeepSpace.dpper_lyddane_iff (p : DeepSpace) (t : ℝ) (e : Elements)
    (hpos : 0 < (p.dpper t e).inclp) (hlow : (p.dpper t e).inclp < 0.2) :
    ((p.dpper t e).nodep ≡ atan2 ((p.periodics t).alfdp (p.dpper t e).inclp e.nodep)
        ((p.periodics t).betdp (p.dpper t e).inclp e.nodep) [PMOD 2 * π] ∧
      |(p.dpper t e).nodep - remEuclidReal e.nodep (2 * π)| ≤ π ∧
      (p.periodics t = 0 →
        (p.dpper t e).ep = e.ep ∧ (p.dpper t e).inclp = e.inclp ∧
        (p.dpper t e).nodep ≡ e.nodep [PMOD 2 * π] ∧
        (p.dpper t e).argpp ≡ e.argpp [PMOD 2 * π] ∧
        (p.dpper t e).mp ≡ e.mp [PMOD 2 * π])) ↔
      (p.periodics t).PastHalfTurn (p.dpper t e).inclp e.nodep := by
  unfold dpper at hpos hlow ⊢
  generalize p.periodics t = s at hpos hlow ⊢
  have hnode : (s.perturb e).nodep = s.lyddaneNode (s.perturb e).inclp e.nodep := by
    rw [PeriodicSums.perturb_inclp] at hlow ⊢
    rw [PeriodicSums.perturb_of_lt hlow]
  rw [hnode, PeriodicSums.abs_lyddaneNode_sub_le_iff]
  constructor
  · exact fun h ↦ h.2.1
  · intro hpast
    refine ⟨PeriodicSums.lyddaneNode_modEq, hpast, ?_⟩
    rintro rfl
    have hinclp : ((0 : PeriodicSums).perturb e).inclp = e.inclp :=
      PeriodicSums.perturb_inclp.trans (add_zero _)
    rw [hinclp] at hpos hlow hpast ⊢
    have hsin : 0 < sin e.inclp := by
      apply sin_pos_of_pos_of_lt_pi hpos
      linarith [pi_gt_three]
    rw [PeriodicSums.pastHalfTurn_zero_iff hsin] at hpast
    rw [PeriodicSums.perturb_zero hlow, PeriodicSums.lyddaneNode_zero hsin hpast]
    rw [sub_self, mul_zero, add_zero]
    exact ⟨rfl, rfl, remEuclidReal_modEq _ two_pi_pos, AddCommGroup.modEq_refl _,
      AddCommGroup.modEq_refl _⟩

/-- No Moon and no Sun. -/
def quiet : DeepSpace :=
  ⟨0, 0, 0, 0, 0, 0, 0, 0, 0, 0, 0, 0, 0, 0, 0, 0, 0, 0, 0, 0, 0, 0, 0, 0, 0, 0, 0, 0, 0, 0, 0⟩

theorem periodics_quiet (t : ℝ) : quiet.periodics t = 0 := by
  ext <;> simp [quiet, DeepSpace.periodics, DeepSpace.dpperSums] <;> rfl

theorem dpper_quiet (t : ℝ) (e : Elements) : quiet.dpper t e = (0 : PeriodicSums).perturb e := by
  rw [DeepSpace.dpper, periodics_quiet]

/-- An orbit inclined by a tenth of a radian. -/
def nearEquatorial (nodep : ℝ) : Elements := ⟨0.01, 0.1, nodep, 0, 0⟩

theorem inclp_nearEquatorial (t nodep : ℝ) :
    (quiet.dpper t (nearEquatorial nodep)).inclp = 0.1 := by
  rw [dpper_quiet, PeriodicSums.perturb_inclp]
  exact add_zero _

theorem sin_tenth_pos : 0 < sin 0.1 := by
  apply sin_pos_of_pos_of_lt_pi (by norm_num)
  linarith [pi_gt_three]

/-- A node past the half turn stays. -/
theorem dpper_lyddane_iff_pastHalfTurn :
    |(quiet.dpper 0 (nearEquatorial 5)).nodep - remEuclidReal (nearEquatorial 5).nodep (2 * π)| ≤
      π := by
  have hinclp := inclp_nearEquatorial 0 5
  have hnode : remEuclidReal (nearEquatorial 5).nodep (2 * π) = 5 := by
    apply remEuclidReal_eq_self
    constructor
    · norm_num [nearEquatorial]
    · linarith [pi_gt_three, show (nearEquatorial 5).nodep = 5 from rfl]
  have hpast : (quiet.periodics 0).PastHalfTurn (quiet.dpper 0 (nearEquatorial 5)).inclp
      (nearEquatorial 5).nodep := by
    rw [hinclp, periodics_quiet, PeriodicSums.pastHalfTurn_zero_iff sin_tenth_pos, hnode]
    linarith [pi_le_four]
  have hall := (DeepSpace.dpper_lyddane_iff quiet 0 (nearEquatorial 5)
    (by rw [hinclp]; norm_num) (by rw [hinclp]; norm_num)).mpr hpast
  exact hall.2.1

/-- A node at one radian is moved by a full turn, and the argument of perigee by 6.25 radians. -/
theorem dpper_moves_quiet :
    quiet.periodics 0 = 0 ∧ (quiet.dpper 0 (nearEquatorial 1)).inclp = 0.1 ∧
      ¬|(quiet.dpper 0 (nearEquatorial 1)).nodep -
        remEuclidReal (nearEquatorial 1).nodep (2 * π)| ≤ π ∧
      ¬(quiet.dpper 0 (nearEquatorial 1)).argpp ≡ (nearEquatorial 1).argpp [PMOD 2 * π] := by
  have hlow : (nearEquatorial 1).inclp < 0.2 := by norm_num [nearEquatorial]
  have hnode : remEuclidReal (nearEquatorial 1).nodep (2 * π) = 1 := by
    apply remEuclidReal_eq_self
    constructor
    · norm_num [nearEquatorial]
    · linarith [pi_gt_three, show (nearEquatorial 1).nodep = 1 from rfl]
  have hle : remEuclidReal (nearEquatorial 1).nodep (2 * π) ≤ π := by
    linarith [pi_gt_three]
  refine ⟨periodics_quiet 0, inclp_nearEquatorial 0 1, ?_, ?_⟩
  · have hsin : 0 < sin (nearEquatorial 1).inclp := sin_tenth_pos
    rw [dpper_quiet, PeriodicSums.perturb_zero hlow, PeriodicSums.abs_lyddaneNode_sub_le_iff,
      PeriodicSums.pastHalfTurn_zero_iff hsin]
    exact not_lt.mpr hle
  · rw [dpper_quiet]
    exact (PeriodicSums.argpp_perturb_zero_of_le (by norm_num [nearEquatorial]) hlow hle).2

end

end Zenith.Orbit
