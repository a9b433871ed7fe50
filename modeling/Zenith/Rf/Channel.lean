import Zenith.Data.BinaryFloat
import Zenith.Data.Xorshift

/-!
# The noise generator

The xorshift64* generator of `channel.rs`. Its step is injective and fixes the zero state, which no
seed starts from, so that no run ever reaches it. The upper 53 bits of an output are scaled to a
sample without any rounding.
-/

namespace Zenith.Rf

open BinaryFloat

structure Rng where
  state : UInt64
  deriving DecidableEq, Repr

namespace Rng

def new (seed : UInt64) : Rng := ⟨if seed = 0 then 0x9E3779B97F4A7C15 else seed⟩

def nextU64 (r : Rng) : UInt64 × Rng :=
  let x := r.state
  let x := x ^^^ x <<< 13
  let x := x ^^^ x >>> 7
  let x := x ^^^ x <<< 17
  (x * 0x2545F4914F6CDD1D, ⟨x⟩)

/-- The conversion `x as f64`. -/
def asF64 (x : UInt64) : ℚ := binary64.round x.toNat

/-- The quotient and the product are rounded like the conversions. -/
def nextF64 (r : Rng) : ℚ × Rng :=
  let (x, r) := r.nextU64
  let scale := binary64.round ((1 : ℚ) / asF64 ((1 : UInt64) <<< 53))
  (binary64.round (asF64 (x >>> 11) * scale), r)

/-! ## The step -/

/-- The state that either call leaves behind. -/
def step (r : Rng) : Rng := r.nextU64.2

@[simp] theorem nextF64_snd (r : Rng) : r.nextF64.2 = r.step := rfl

theorem toBitVec_state_step (r : Rng) :
    r.step.state.toBitVec = Xorshift.step 13 7 17 r.state.toBitVec := by
  simp only [step, nextU64, Xorshift.step, Xorshift.left, Xorshift.right, UInt64.toBitVec_xor,
    UInt64.toBitVec_shiftLeft, UInt64.toBitVec_shiftRight]
  rfl

theorem step_injective : Function.Injective step := by
  intro r r' heq
  have hstate : Xorshift.step 13 7 17 r.state.toBitVec = Xorshift.step 13 7 17 r'.state.toBitVec := by
    rw [← toBitVec_state_step, ← toBitVec_state_step, heq]
  have hbits := Xorshift.step_injective (by decide) (by decide) (by decide) hstate
  cases r
  cases r'
  exact congrArg Rng.mk (UInt64.toBitVec_inj.mp hbits)

theorem step_zero : step ⟨0⟩ = ⟨0⟩ := by decide

/-! ## Runs -/

/-- The generator after `n` calls. -/
def after (seed : UInt64) (n : ℕ) : Rng := step^[n] (new seed)

theorem new_ne_zero (seed : UInt64) : new seed ≠ ⟨0⟩ := by
  unfold new
  split_ifs with hseed
  · decide
  · exact fun h ↦ hseed (Rng.mk.inj h)

theorem after_ne_zero (seed : UInt64) (n : ℕ) : (after seed n).state ≠ 0 := by
  intro h
  apply Xorshift.iterate_ne_of_fixed step_injective step_zero (new_ne_zero seed) n
  exact congrArg Rng.mk h

/-! ## Samples -/

theorem toNat_upper_lt (x : UInt64) : (x >>> 11).toNat < 2 ^ 53 := by
  have hx := x.toNat_lt
  rw [UInt64.toNat_shiftRight, Nat.shiftRight_eq_div_pow]
  apply Nat.div_lt_of_lt_mul
  exact hx

theorem asF64_eq {x : UInt64} (h : x.toNat < 2 ^ 53) : asF64 x = x.toNat := by
  have hround := @Format.round_eq_self binary64 x.toNat 0
    (by rw [Nat.abs_cast]; exact_mod_cast h) (by decide)
  simpa [asF64] using hround

theorem asF64_two_pow : asF64 ((1 : UInt64) <<< 53) = 2 ^ 53 := by
  have hround := @Format.round_eq_self binary64 1 53 (by decide) (by decide)
  rw [Int.cast_one, one_mul] at hround
  have hnat : (((1 : UInt64) <<< 53).toNat : ℚ) = 2 ^ (53 : ℤ) := by
    rw [show ((1 : UInt64) <<< 53).toNat = 2 ^ 53 by decide]
    norm_cast
  rw [asF64, hnat, hround]
  rfl

/-- The upper 53 bits of the output, scaled by a power of two: none of the four operations rounds. -/
theorem nextF64_fst (r : Rng) : r.nextF64.1 = (r.nextU64.1 >>> 11).toNat / 2 ^ 53 := by
  have hscale : binary64.round ((1 : ℚ) / asF64 ((1 : UInt64) <<< 53)) = 1 / 2 ^ 53 := by
    have hround := @Format.round_eq_self binary64 1 (-53) (by decide) (by decide)
    rw [asF64_two_pow, show (1 : ℚ) / 2 ^ 53 = 1 * 2 ^ (-53 : ℤ) by norm_num]
    exact_mod_cast hround
  have hproduct := @Format.round_eq_self binary64 (r.nextU64.1 >>> 11).toNat (-53)
    (by rw [Nat.abs_cast]; exact_mod_cast toNat_upper_lt _) (by decide)
  calc
    r.nextF64.1 = binary64.round (asF64 (r.nextU64.1 >>> 11) *
        binary64.round ((1 : ℚ) / asF64 ((1 : UInt64) <<< 53))) := rfl
    _ = binary64.round ((r.nextU64.1 >>> 11).toNat * 2 ^ (-53 : ℤ)) := by
      rw [hscale, asF64_eq (toNat_upper_lt _)]
      norm_num
    _ = (r.nextU64.1 >>> 11).toNat * 2 ^ (-53 : ℤ) := by exact_mod_cast hproduct
    _ = (r.nextU64.1 >>> 11).toNat / 2 ^ 53 := by
      rw [div_eq_mul_inv]
      norm_num

/-- A sample is an integer multiple of `2⁻⁵³` in `[0, 1)`. -/
theorem exists_nextF64 (r : Rng) :
    ∃ k : ℕ, r.nextF64.1 = k * 2 ^ (-53 : ℤ) ∧ 0 ≤ r.nextF64.1 ∧ r.nextF64.1 < 1 := by
  have hlt : ((r.nextU64.1 >>> 11).toNat : ℚ) < 2 ^ 53 := by exact_mod_cast toNat_upper_lt _
  refine ⟨(r.nextU64.1 >>> 11).toNat, ?_, ?_, ?_⟩
  · rw [nextF64_fst, div_eq_mul_inv]
    norm_num
  · rw [nextF64_fst]
    positivity
  · rw [nextF64_fst, div_lt_one (by positivity)]
    exact hlt

/-- The generator never dies: no run reaches the zero state or joins two states, and every sample is
a multiple of `2⁻⁵³` in `[0, 1)`. -/
theorem neverDies (seed : UInt64) (n : ℕ) :
    (after seed n).state ≠ 0 ∧ Function.Injective step ∧
      ∃ k : ℕ, (after seed n).nextF64.1 = k * 2 ^ (-53 : ℤ) ∧
        0 ≤ (after seed n).nextF64.1 ∧ (after seed n).nextF64.1 < 1 :=
  ⟨after_ne_zero seed n, step_injective, exists_nextF64 _⟩

end Rng

end Zenith.Rf
