import Mathlib

/-!
# Moving toward a target at a bounded rate

A move toward a point at the signed distance `d` covers at most `r` of it and does not pass the point.
On a circle the signed distance is that along the shorter arc; the move that a point of the line makes
along it leaves the rest of the same arc, wherever on the line the point and the target are.
-/

namespace Zenith.Slew

/-! ## On a line -/

section Line

variable {α : Type*} [AddCommGroup α] [LinearOrder α] [IsOrderedAddMonoid α] {d r : α}

/-- The move of at most `r` toward a point at the signed distance `d`. -/
def toward (d r : α) : α := max (-r) (min r d)

theorem toward_of_nonneg (hr : 0 ≤ r) (hd : 0 ≤ d) : toward d r = min d r := by
  have hmin : 0 ≤ min r d := le_min hr hd
  have hneg : -r ≤ min r d := (neg_nonpos.mpr hr).trans hmin
  rw [toward, max_eq_right hneg, min_comm]

theorem toward_neg (hr : 0 ≤ r) : toward (-d) r = -toward d r := by
  have hneg : -r ≤ r := neg_le_self hr
  calc
    toward (-d) r = min r (max (-r) (-d)) := by
      rw [toward, max_min_distrib_left, max_eq_right hneg]
    _ = -toward d r := by
      rw [toward, ← min_neg_neg, ← max_neg_neg, neg_neg]

/-- A move toward a point in one direction is the mirror image of one in the other. -/
theorem abs_toward (hr : 0 ≤ r) : |toward d r| = min |d| r := by
  have hpos {x : α} (hx : 0 ≤ x) : |toward x r| = min |x| r := by
    rw [toward_of_nonneg hr hx, abs_of_nonneg (le_min hx hr), abs_of_nonneg hx]
  rcases le_total 0 d with hd | hd
  · exact hpos hd
  · have hmirror := hpos (neg_nonneg.mpr hd)
    rwa [toward_neg hr, abs_neg, abs_neg] at hmirror

/-- What is left lies between the point and the start. -/
theorem sub_toward_mem (hr : 0 ≤ r) : d - toward d r ∈ Set.uIcc 0 d := by
  rw [Set.mem_uIcc]
  rcases le_total 0 d with hd | hd
  · rw [toward_of_nonneg hr hd]
    exact .inl ⟨sub_nonneg.mpr (min_le_left _ _), sub_le_self _ (le_min hd hr)⟩
  · have hd' : 0 ≤ -d := neg_nonneg.mpr hd
    have hmove : toward d r = -min (-d) r := by
      rw [← neg_neg d, toward_neg hr, neg_neg, toward_of_nonneg hr hd']
    have hmin : 0 ≤ min (-d) r := le_min hd' hr
    have hle : min (-d) r ≤ -d := min_le_left _ _
    rw [hmove, sub_neg_eq_add]
    exact .inr ⟨le_add_of_nonneg_right hmin, by simpa using add_le_add_right hle d⟩

theorem abs_sub_toward (hr : 0 ≤ r) : |d - toward d r| = |d| - min |d| r := by
  have hpos {x : α} (hx : 0 ≤ x) : |x - toward x r| = |x| - min |x| r := by
    rw [toward_of_nonneg hr hx, abs_of_nonneg hx, abs_of_nonneg (sub_nonneg.mpr (min_le_left _ _))]
  rcases le_total 0 d with hd | hd
  · exact hpos hd
  · have hmirror := hpos (neg_nonneg.mpr hd)
    rwa [toward_neg hr, sub_neg_eq_add, neg_add_eq_sub, abs_sub_comm, abs_neg] at hmirror

/-- A move makes a distance smaller by its length, until it is used up. -/
theorem sub_min_le {x a : α} (h : x ≤ a) : x - min x r ≤ max 0 (a - r) := by
  rcases le_total x r with hx | hx
  · rw [min_eq_left hx, sub_self]
    exact le_max_left _ _
  · rw [min_eq_right hx]
    exact le_max_of_le_right (sub_le_sub_right h r)

/-- The distance left by one move is left by two moves that are as long together. -/
theorem sub_min_sub_min {x s : α} (hr : 0 ≤ r) :
    (x - min x s) - min (x - min x s) r = x - min x (s + r) := by
  rcases le_total x s with hx | hx
  · have hsum : x ≤ s + r := hx.trans (le_add_of_nonneg_right hr)
    rw [min_eq_left hx, sub_self, min_eq_left hr, min_eq_left hsum, sub_zero, sub_self]
  · rw [min_eq_right hx, sub_sub, ← min_add_add_left, add_sub_cancel]

end Line

/-! ## On a circle -/

section Circle

variable {α : Type*} [Field α] [LinearOrder α] [IsStrictOrderedRing α] [Archimedean α]
  {h : α} (hh : 0 < h) {x y : α}

/-- The signed shorter arc from `x` to `y` on the circle with the half turn `h`. -/
noncomputable def arc (x y : α) : α := toIocMod (mul_pos two_pos hh) (-h) (y - x)

theorem arc_mem (x y : α) : arc hh x y ∈ Set.Ioc (-h) h := by
  have hmem := toIocMod_mem_Ioc (mul_pos two_pos hh) (-h) (y - x)
  have htop : -h + 2 * h = h := by ring
  rwa [htop] at hmem

theorem arc_eq_iff {d : α} :
    arc hh x y = d ↔ d ∈ Set.Ioc (-h) h ∧ ∃ z : ℤ, y - x = d + z • (2 * h) := by
  have htop : -h + 2 * h = h := by ring
  rw [arc, toIocMod_eq_iff, htop]

/-- Turns do not change the arc. -/
theorem arc_add_zsmul_left (z : ℤ) : arc hh (x + z • (2 * h)) y = arc hh x y := by
  unfold arc
  rw [← sub_sub, toIocMod_sub_zsmul]

theorem arc_add_zsmul_right (z : ℤ) : arc hh x (y + z • (2 * h)) = arc hh x y := by
  unfold arc
  rw [add_sub_right_comm, toIocMod_add_zsmul]

/-- Moving along the arc leaves the rest of it. -/
theorem arc_add_toward {r : α} (hr : 0 ≤ r) :
    arc hh (x + toward (arc hh x y) r) y = arc hh x y - toward (arc hh x y) r := by
  have hmem := arc_mem hh x y
  have hzero : (0 : α) ∈ Set.Ioc (-h) h := ⟨neg_lt_zero.mpr hh, hh.le⟩
  obtain ⟨-, z, hz⟩ := (arc_eq_iff hh).mp (Eq.refl (arc hh x y))
  rw [arc_eq_iff]
  constructor
  · exact Set.ordConnected_Ioc.uIcc_subset hzero hmem (sub_toward_mem hr)
  · exact ⟨z, by rw [← sub_sub, hz, add_sub_right_comm]⟩

/-- The move along the arc is the arc to where it ends. -/
theorem arc_self_add {s : α} (hs : s ∈ Set.Ioc (-h) h) : arc hh x (x + s) = s := by
  rw [arc_eq_iff]
  exact ⟨hs, 0, by rw [add_sub_cancel_left, zero_smul, add_zero]⟩

theorem toward_arc_mem {r : α} (hr : 0 ≤ r) : toward (arc hh x y) r ∈ Set.Ioc (-h) h := by
  have hmem := arc_mem hh x y
  have hzero : (0 : α) ∈ Set.Ioc (-h) h := ⟨neg_lt_zero.mpr hh, hh.le⟩
  apply Set.ordConnected_Ioc.uIcc_subset hzero hmem
  have hrest := sub_toward_mem (d := arc hh x y) hr
  rw [Set.mem_uIcc] at hrest ⊢
  rcases hrest with ⟨hlow, hhigh⟩ | ⟨hlow, hhigh⟩
  · exact .inl ⟨by linarith, by linarith⟩
  · exact .inr ⟨by linarith, by linarith⟩

/-- No way around the circle is shorter than the arc. -/
theorem abs_arc_le {d : α} {z : ℤ} (hd : y - x = d + z • (2 * h)) : |arc hh x y| ≤ |d| := by
  have hmem := arc_mem hh x y
  obtain ⟨-, z', hz'⟩ := (arc_eq_iff hh).mp (Eq.refl (arc hh x y))
  by_cases hshort : d ∈ Set.Ioc (-h) h
  · rw [(arc_eq_iff hh).mpr ⟨hshort, z, hd⟩]
  · have hlong : h ≤ |d| := by
      by_contra hlt
      have hbounds := abs_lt.mp (not_le.mp hlt)
      exact hshort ⟨hbounds.1, hbounds.2.le⟩
    exact (abs_le.mpr ⟨hmem.1.le, hmem.2⟩).trans hlong

theorem abs_arc_triangle (x y z : α) : |arc hh x z| ≤ |arc hh x y| + |arc hh y z| := by
  obtain ⟨-, m, hm⟩ := (arc_eq_iff hh).mp (Eq.refl (arc hh x y))
  obtain ⟨-, n, hn⟩ := (arc_eq_iff hh).mp (Eq.refl (arc hh y z))
  have hsum : z - x = (arc hh x y + arc hh y z) + (m + n) • (2 * h) := by
    calc
      z - x = (y - x) + (z - y) := by ring
      _ = (arc hh x y + m • (2 * h)) + (arc hh y z + n • (2 * h)) := by rw [hm, hn]
      _ = (arc hh x y + arc hh y z) + (m + n) • (2 * h) := by
        rw [add_smul]
        ring
  exact (abs_arc_le hh hsum).trans (abs_add_le _ _)

/-- Points of one turn that no arc separates are equal. -/
theorem eq_of_arc_eq_zero (hx : x ∈ Set.Ico 0 (2 * h)) (hy : y ∈ Set.Ico 0 (2 * h))
    (harc : arc hh x y = 0) : x = y := by
  obtain ⟨-, z, hz⟩ := (arc_eq_iff hh).mp harc
  have hturn : (0 : α) < 2 * h := mul_pos two_pos hh
  have hx' : Set.Ico (0 : α) (0 + 2 * h) = Set.Ico 0 (2 * h) := by rw [zero_add]
  have hself (w : α) (hw : w ∈ Set.Ico 0 (2 * h)) : toIcoMod hturn 0 w = w :=
    (toIcoMod_eq_self hturn).mpr (hx' ▸ hw)
  have hmod : toIcoMod hturn 0 x = toIcoMod hturn 0 y :=
    (toIcoMod_eq_toIcoMod hturn).mpr ⟨z, by rw [hz, zero_add]⟩
  rwa [hself x hx, hself y hy] at hmod

end Circle

/-! ## Pursuit -/

section Pursuit

variable {α : Type*} [Field α] [LinearOrder α] {r m b : α}

/-- What is left before move `k` of length `r` to a target that steps away by `m` between the moves,
where at first it was `b`. -/
def lag (r m b : α) (k : ℕ) : α := max m (b - k * (r - m))

theorem le_lag_zero : b ≤ lag r m b 0 := by
  unfold lag
  rw [Nat.cast_zero, zero_mul, sub_zero]
  exact le_max_right _ _

variable [IsStrictOrderedRing α]

/-- A pursuer that is no slower than its target gains on it. -/
theorem lag_succ (hm : m ≤ r) (k : ℕ) : max 0 (lag r m b k - r) + m ≤ lag r m b (k + 1) := by
  unfold lag
  rw [← max_sub_sub_right, max_comm (m - r), ← max_assoc, max_eq_left
    ((sub_nonpos.mpr hm).trans (le_max_left _ _)), ← max_add_add_right, zero_add]
  apply max_le_max_left
  push_cast
  linarith

end Pursuit

end Zenith.Slew
