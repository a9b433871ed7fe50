import Zenith.Data.Rounding
import Zenith.Rf.Channel
import Zenith.Rf.Link
import Zenith.Rust.Libm

/-!
# The noisy channel

The Gaussian samples of `channel.rs` and the channel that adds two of them to every symbol. A uniform
sample has 53 bits, so that the logarithm of Box and Muller is never taken of a number below `2⁻⁵³`: no
sample is further out than nine standard deviations, whatever the seed.
-/

namespace Zenith.Rf

open BinaryFloat Rust

/-! ## Samples -/

namespace Rng

/-- `f64::MIN_POSITIVE`. -/
def minPositive : ℚ := 2 ^ (-1022 : ℤ)

/-- `std::f64::consts::PI`. -/
def pi : ℚ := 884279719003555 / 2 ^ 48

def nextGaussian (lib : Libm) (r : Rng) : ℚ × Rng :=
  let (x, r) := r.nextF64
  let u1 := max (binary64.round (1 - x)) minPositive
  let (u2, r) := r.nextF64
  (binary64.round (lib.sqrt (binary64.round (-2 * lib.ln u1)) *
    lib.cos (binary64.round (binary64.round (2 * pi) * u2))), r)

@[simp] theorem nextGaussian_snd (lib : Libm) (r : Rng) : (r.nextGaussian lib).2 = r.step.step := rfl

/-- One less a sample is a number of the format: a multiple of `2⁻⁵³` in `(0, 1]`. -/
theorem round_one_sub_nextF64 (r : Rng) : ∃ k : ℕ, 0 < k ∧ k ≤ 2 ^ 53 ∧
    binary64.round (1 - r.nextF64.1) = k * 2 ^ (-53 : ℤ) := by
  have hlt := toNat_upper_lt r.nextU64.1
  rw [nextF64_fst]
  generalize (r.nextU64.1 >>> 11).toNat = n at hlt ⊢
  have hexact : (1 : ℚ) - n / 2 ^ 53 = ((2 ^ 53 - n : ℕ) : ℤ) * 2 ^ (-53 : ℤ) := by
    rw [Int.cast_natCast, Nat.cast_sub hlt.le, zpow_neg]
    push_cast
    norm_num
    ring
  refine ⟨2 ^ 53 - n, Nat.sub_pos_of_lt hlt, Nat.sub_le _ _, ?_⟩
  rcases Nat.eq_zero_or_pos n with rfl | hpos
  · have hone := binary64_round_natCast (n := 1) (by norm_num)
    norm_num at hone ⊢
    exact hone
  · rw [hexact, Format.round_eq_self]
    · rw [Int.cast_natCast]
    · rw [Nat.abs_cast]
      change ((2 ^ 53 - n : ℕ) : ℤ) < 2 ^ 53
      omega
    · decide

/-- The first sample as the logarithm gets it: the bound from below is never reached. -/
theorem max_one_sub_nextF64 (r : Rng) :
    max (binary64.round (1 - r.nextF64.1)) minPositive = binary64.round (1 - r.nextF64.1) ∧
      1 / 2 ^ 53 ≤ binary64.round (1 - r.nextF64.1) ∧ binary64.round (1 - r.nextF64.1) ≤ 1 := by
  obtain ⟨k, hpos, hle, heq⟩ := round_one_sub_nextF64 r
  have hone : (1 : ℚ) ≤ k := by exact_mod_cast hpos
  have htop : (k : ℚ) ≤ 2 ^ 53 := by exact_mod_cast hle
  have hscale : (k : ℚ) * 2 ^ (-53 : ℤ) = k / 2 ^ 53 := by
    rw [zpow_neg, ← div_eq_mul_inv]
    norm_cast
  have hlow : (1 : ℚ) / 2 ^ 53 ≤ k / 2 ^ 53 := div_le_div_of_nonneg_right hone (by positivity)
  have hmin : minPositive ≤ 1 / 2 ^ 53 := by
    calc
      minPositive ≤ (2 : ℚ) ^ (-53 : ℤ) := zpow_le_zpow_right₀ one_le_two (by decide)
      _ = 1 / 2 ^ 53 := by norm_num
  rw [heq, hscale]
  refine ⟨max_eq_left (hmin.trans hlow), hlow, ?_⟩
  rw [div_le_one (by positivity)]
  exact htop

variable {lib : Libm}

/-- How far out a sample is if the logarithm is taken of a number from `2 ^ (-m)` on: `x` bounds what the root
is taken of, `y` the root. -/
structure Reach (m : ℕ) (x y bound : ℚ) : Prop where
  representable_x : binary64.Representable x
  log : 2 * (1 + Libm.tolerance) * (m * (6931472 / 10 ^ 7)) ≤ x
  y_nonneg : 0 ≤ y
  root : (1 + Libm.tolerance) ^ 2 * x ≤ y ^ 2
  representable : binary64.Representable bound
  le_bound : y * (1 + Libm.tolerance) ≤ bound

/-- A root can be taken of the scaled logarithm. -/
theorem Reach.neg_two_mul_ln_mem {m : ℕ} {x y bound : ℚ} (hreach : Reach m x y bound) (h : lib.Accurate)
    {u : ℚ} (hlow : 1 / 2 ^ m ≤ u) (hhigh : u ≤ 1) : -2 * lib.ln u ∈ Set.Icc 0 x := by
  have hpos : 0 < u := lt_of_lt_of_le (by positivity) hlow
  have hneg := h.ln_nonpos hpos hhigh
  have hle := h.neg_ln_le hpos hhigh
  have hlog : -Real.log u ≤ m * Real.log 2 := by
    have hcast := (Rat.cast_le (K := ℝ)).mpr hlow
    push_cast at hcast
    have hmono := Real.log_le_log (by positivity) hcast
    rw [one_div, Real.log_inv, Real.log_pow] at hmono
    linarith
  have htwo : m * Real.log 2 ≤ m * (6931472 / 10 ^ 7) := by
    apply mul_le_mul_of_nonneg_left _ (Nat.cast_nonneg m)
    have hlt := Real.log_two_lt_d9
    norm_num
    linarith
  have htolerance : (0 : ℝ) ≤ 1 + Libm.tolerance := by norm_num [Libm.tolerance]
  have hx := (Rat.cast_le (K := ℝ)).mpr hreach.log
  push_cast at hx
  have hbound : ((-2 * lib.ln u : ℚ) : ℝ) ≤ (x : ℝ) := by
    push_cast
    calc
      -2 * (lib.ln u : ℝ) = 2 * -(lib.ln u : ℝ) := by ring
      _ ≤ 2 * ((1 + Libm.tolerance) * (m * (6931472 / 10 ^ 7))) := by
        apply mul_le_mul_of_nonneg_left _ zero_le_two
        exact hle.trans (mul_le_mul_of_nonneg_left (hlog.trans htwo) htolerance)
      _ ≤ x := by linarith
  exact ⟨by linarith, by exact_mod_cast hbound⟩

theorem Reach.abs_nextGaussian_le {m : ℕ} {x y bound : ℚ} (hreach : Reach m x y bound)
    (h : lib.Accurate) {r : Rng} (hlow : 1 / 2 ^ m ≤ binary64.round (1 - r.nextF64.1)) :
    |(r.nextGaussian lib).1| ≤ bound := by
  obtain ⟨hmax, -, hhigh⟩ := max_one_sub_nextF64 r
  have hmem := hreach.neg_two_mul_ln_mem h hlow hhigh
  rw [← hmax] at hmem
  have hround : |binary64.round
      (-2 * lib.ln (max (binary64.round (1 - r.nextF64.1)) minPositive))| ≤ x := by
    apply Format.abs_round_le hreach.representable_x
    rw [abs_of_nonneg hmem.1]
    exact hmem.2
  have hsqrt : |lib.sqrt (binary64.round
      (-2 * lib.ln (max (binary64.round (1 - r.nextF64.1)) minPositive)))| ≤ y := by
    have htolerance : (0 : ℚ) ≤ (1 + Libm.tolerance) ^ 2 := sq_nonneg _
    apply h.abs_sqrt_le (Format.round_nonneg _ hmem.1) hreach.y_nonneg
    exact (mul_le_mul_of_nonneg_left (le_of_abs_le hround) htolerance).trans hreach.root
  have hcos := h.abs_cos_le (binary64.round (binary64.round (2 * pi) * r.step.nextF64.1))
  apply Format.abs_round_le hreach.representable
  calc
    |lib.sqrt _ * lib.cos _| = |lib.sqrt _| * |lib.cos _| := abs_mul _ _
    _ ≤ y * (1 + Libm.tolerance) := mul_le_mul hsqrt hcos (abs_nonneg _) hreach.y_nonneg
    _ ≤ bound := hreach.le_bound

/-- No sample is further out. -/
def gaussianBound : ℚ := 275 / 32

theorem abs_nextGaussian_le (h : lib.Accurate) (r : Rng) :
    |(r.nextGaussian lib).1| ≤ gaussianBound := by
  have hreach : Reach 53 (147 / 2) (549 / 64) gaussianBound :=
    { representable_x := ⟨147, -1, by decide, by decide, by norm_num⟩
      log := by norm_num [Libm.tolerance]
      y_nonneg := by norm_num
      root := by norm_num [Libm.tolerance]
      representable := ⟨275, -5, by decide, by decide, by norm_num [gaussianBound]⟩
      le_bound := by norm_num [Libm.tolerance, gaussianBound] }
  exact hreach.abs_nextGaussian_le h (max_one_sub_nextF64 r).2.1

/-- Half of the samples are nearer than this. -/
theorem reach_half : Reach 1 (89 / 64) (151 / 128) (19 / 16) where
  representable_x := ⟨89, -6, by decide, by decide, by norm_num⟩
  log := by norm_num [Libm.tolerance]
  y_nonneg := by norm_num
  root := by norm_num [Libm.tolerance]
  representable := ⟨19, -4, by decide, by decide, by norm_num⟩
  le_bound := by norm_num [Libm.tolerance]

/-- A sample that is far out: a small number under the logarithm, and a small angle. -/
theorem le_nextGaussian (h : lib.Accurate) {r : Rng} (hu : binary64.round (1 - r.nextF64.1) ≤ 1 / 8)
    (hangle : |binary64.round (binary64.round (2 * pi) * r.step.nextF64.1)| ≤ 1 / 2) :
    3 / 2 ≤ (r.nextGaussian lib).1 := by
  obtain ⟨hmax, hlow, hhigh⟩ := max_one_sub_nextF64 r
  have hpos : 0 < binary64.round (1 - r.nextF64.1) := lt_of_lt_of_le (by positivity) hlow
  have hln : 4 ≤ -2 * lib.ln (binary64.round (1 - r.nextF64.1)) := by
    have hlog : 3 * Real.log 2 ≤ -Real.log (binary64.round (1 - r.nextF64.1)) := by
      have hcast := (Rat.cast_le (K := ℝ)).mpr hu
      have hmono := Real.log_le_log (by exact_mod_cast hpos) hcast
      have height : ((1 / 8 : ℚ) : ℝ) = (2 ^ 3)⁻¹ := by norm_num
      rw [height, Real.log_inv, Real.log_pow] at hmono
      push_cast at hmono
      linarith
    have hle := h.le_neg_ln hpos hhigh
    have htwo := Real.log_two_gt_d9
    norm_num [Libm.tolerance] at hle
    have hcast : ((4 : ℚ) : ℝ) ≤ ((-2 * lib.ln (binary64.round (1 - r.nextF64.1)) : ℚ) : ℝ) := by
      push_cast
      linarith
    exact_mod_cast hcast
  have hround : 2 ^ 2 ≤ binary64.round (-2 * lib.ln (binary64.round (1 - r.nextF64.1))) := by
    have hfour : binary64.Representable 4 := ⟨4, 0, by decide, by decide, by norm_num⟩
    calc
      (2 : ℚ) ^ 2 = binary64.round 4 := by
        rw [hfour.round_eq]
        norm_num
      _ ≤ _ := Format.round_mono (by norm_num) hln
  have hsqrt := h.le_sqrt hround
  have hcos := h.le_cos hangle
  have hfar : 15 / 8 ≤ lib.sqrt (binary64.round (-2 * lib.ln (binary64.round (1 - r.nextF64.1)))) :=
    le_trans (by norm_num [Libm.tolerance]) hsqrt
  have hahead : 4 / 5 ≤ lib.cos (binary64.round (binary64.round (2 * pi) * r.step.nextF64.1)) :=
    le_trans (by norm_num [Libm.tolerance]) hcos
  have hproduct : 3 / 2 ≤ lib.sqrt (binary64.round (-2 * lib.ln (binary64.round (1 - r.nextF64.1)))) *
      lib.cos (binary64.round (binary64.round (2 * pi) * r.step.nextF64.1)) := by
    calc
      (3 : ℚ) / 2 = 15 / 8 * (4 / 5) := by norm_num
      _ ≤ _ := mul_le_mul hfar hahead (by norm_num) (le_trans (by norm_num) hfar)
  have hthree : binary64.Representable (3 / 2) := ⟨3, -1, by decide, by decide, by norm_num⟩
  rw [← hmax] at hproduct
  rw [← hthree.round_eq]
  exact Format.round_mono (by norm_num) hproduct

end Rng

/-! ## The channel -/

/-- Both sums are rounded. -/
def Complex.add (s t : Complex) : Complex := ⟨binary64.round (s.re + t.re), binary64.round (s.im + t.im)⟩

structure AwgnChannel where
  noiseStd : ℚ
  rng : Rng

namespace AwgnChannel

def new (noiseStd : ℚ) (seed : UInt64) : AwgnChannel := ⟨noiseStd, Rng.new seed⟩

/-- The noise for one symbol, in the closure of `transmit`. -/
def noise (lib : Libm) (c : AwgnChannel) : Complex × AwgnChannel :=
  let (i, r) := c.rng.nextGaussian lib
  let (q, r) := r.nextGaussian lib
  (⟨binary64.round (c.noiseStd * i), binary64.round (c.noiseStd * q)⟩, { c with rng := r })

def transmit (lib : Libm) : List Complex → AwgnChannel → List Complex × AwgnChannel
  | [], c => ([], c)
  | s :: symbols, c =>
    let (noise, c) := c.noise lib
    let (noisy, c) := transmit lib symbols c
    (s.add noise :: noisy, c)

variable {lib : Libm} {c : AwgnChannel}

/-- The noise for `n` symbols in a row. -/
def noises (lib : Libm) : ℕ → AwgnChannel → List Complex
  | 0, _ => []
  | n + 1, c => (c.noise lib).1 :: noises lib n (c.noise lib).2

/-- The channel after `n` symbols: each takes four samples. -/
def skip (n : ℕ) (c : AwgnChannel) : AwgnChannel := { c with rng := Rng.step^[4 * n] c.rng }

theorem noise_snd (lib : Libm) (c : AwgnChannel) : (c.noise lib).2 = c.skip 1 := rfl

theorem skip_skip (m n : ℕ) (c : AwgnChannel) : (c.skip m).skip n = c.skip (m + n) := by
  unfold skip
  rw [Nat.mul_add, Nat.add_comm (4 * m), Function.iterate_add_apply]

@[simp] theorem length_noises (lib : Libm) (n : ℕ) (c : AwgnChannel) :
    (noises lib n c).length = n := by
  induction n generalizing c with
  | zero => rfl
  | succ n ih => exact congrArg Nat.succ (ih _)

/-- The noise does not depend on what is sent. -/
theorem transmit_eq (lib : Libm) (symbols : List Complex) (c : AwgnChannel) :
    transmit lib symbols c =
      (List.zipWith Complex.add symbols (noises lib symbols.length c), c.skip symbols.length) := by
  induction symbols generalizing c with
  | nil => rfl
  | cons s symbols ih =>
    have hrest := ih (c.noise lib).2
    rw [noise_snd, skip_skip, Nat.add_comm 1] at hrest
    calc
      transmit lib (s :: symbols) c = (s.add (c.noise lib).1 :: (transmit lib symbols (c.skip 1)).1,
        (transmit lib symbols (c.skip 1)).2) := rfl
      _ = _ := by
        rw [hrest]
        rfl

theorem length_transmit (lib : Libm) (symbols : List Complex) (c : AwgnChannel) :
    (transmit lib symbols c).1.length = symbols.length := by
  rw [transmit_eq]
  simp

/-- Both components of every symbol's noise stay within a bound that the largest sample stays within. -/
theorem noise_mem (h : lib.Accurate) {bound : ℚ} (hbound : binary64.Representable bound)
    (hstd : |c.noiseStd| * Rng.gaussianBound ≤ bound) :
    |(c.noise lib).1.re| ≤ bound ∧ |(c.noise lib).1.im| ≤ bound := by
  have hsample (r : Rng) : |binary64.round (c.noiseStd * (r.nextGaussian lib).1)| ≤ bound := by
    apply Format.abs_round_le hbound
    rw [abs_mul]
    exact (mul_le_mul_of_nonneg_left (Rng.abs_nextGaussian_le h r) (abs_nonneg _)).trans hstd
  exact ⟨hsample c.rng, hsample c.rng.step.step⟩

theorem noises_mem (h : lib.Accurate) {bound : ℚ} (hbound : binary64.Representable bound)
    (hstd : |c.noiseStd| * Rng.gaussianBound ≤ bound) (n : ℕ) :
    ∀ s ∈ noises lib n c, |s.re| ≤ bound ∧ |s.im| ≤ bound := by
  induction n generalizing c with
  | zero => exact fun s hs ↦ absurd hs List.not_mem_nil
  | succ n ih =>
    intro s hs
    rcases List.mem_cons.mp hs with rfl | hs
    · exact noise_mem h hbound hstd
    · exact ih (c := (c.noise lib).2) hstd s hs

/-- All components are results of a rounding. -/
theorem onGrid_noises (lib : Libm) (n : ℕ) (c : AwgnChannel) :
    ∀ s ∈ noises lib n c, binary64.OnGrid s.re ∧ binary64.OnGrid s.im := by
  induction n generalizing c with
  | zero => exact fun s hs ↦ absurd hs List.not_mem_nil
  | succ n ih =>
    intro s hs
    rcases List.mem_cons.mp hs with rfl | hs
    · exact ⟨Format.onGrid_round _ _, Format.onGrid_round _ _⟩
    · exact ih _ s hs

end AwgnChannel

end Zenith.Rf
