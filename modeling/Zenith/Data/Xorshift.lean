import Mathlib

/-!
# Words xored with their own shifts

A map on words is injective if every bit can be recovered from the same bit of the result and from
bits that come earlier in some order. A left shift moves up the bits below, a right shift moves down
those above, so that a word xored with either can be recovered from one end to the other. A generator
that steps by an injective map cannot run into a fixed point from outside.
-/

namespace Zenith.Xorshift

variable {w : ℕ}

/-- Each bit of `x` follows from the same bit of `f x` and from the bits of `x` of a lower rank. -/
def Triangular (rank : ℕ → ℕ) (f : BitVec w → BitVec w) : Prop :=
  ∀ x y i, (∀ j, rank j < rank i → x.getLsbD j = y.getLsbD j) →
    (f x).getLsbD i = (f y).getLsbD i → x.getLsbD i = y.getLsbD i

theorem Triangular.injective {rank : ℕ → ℕ} {f : BitVec w → BitVec w} (h : Triangular rank f) :
    Function.Injective f := by
  intro x y heq
  have hbit (r : ℕ) : ∀ i, rank i = r → x.getLsbD i = y.getLsbD i := by
    induction r using Nat.strong_induction_on with
    | _ r ih =>
      intro i hi
      apply h x y i
      · intro j hj
        exact ih (rank j) (hi ▸ hj) j rfl
      · rw [heq]
  apply BitVec.eq_of_getLsbD_eq
  intro i _
  exact hbit (rank i) i rfl

/-- `x ^= x << s`. -/
def left (s : ℕ) (x : BitVec w) : BitVec w := x ^^^ x <<< s

/-- `x ^= x >> s`. -/
def right (s : ℕ) (x : BitVec w) : BitVec w := x ^^^ x >>> s

theorem left_triangular {s : ℕ} (hs : 0 < s) : Triangular id (left s : BitVec w → BitVec w) := by
  intro x y i hlower hbit
  simp only [left, BitVec.getLsbD_xor, BitVec.getLsbD_shiftLeft] at hbit
  by_cases hi : i < s
  · simpa [hi] using hbit
  · have hbelow : x.getLsbD (i - s) = y.getLsbD (i - s) := hlower (i - s) (by dsimp only [id]; omega)
    rw [hbelow] at hbit
    exact Bool.xor_left_inj.mp hbit

theorem right_triangular {s : ℕ} (hs : 0 < s) :
    Triangular (w - ·) (right s : BitVec w → BitVec w) := by
  intro x y i hhigher hbit
  simp only [right, BitVec.getLsbD_xor, BitVec.getLsbD_ushiftRight] at hbit
  by_cases hi : i < w
  · have habove : x.getLsbD (s + i) = y.getLsbD (s + i) := hhigher (s + i) (by dsimp only; omega)
    rw [habove] at hbit
    exact Bool.xor_left_inj.mp hbit
  · rw [BitVec.getLsbD_of_ge x i (by omega), BitVec.getLsbD_of_ge y i (by omega)]

/-- The three layers of a generator. -/
def step (a b c : ℕ) (x : BitVec w) : BitVec w := left c (right b (left a x))

theorem step_injective {a b c : ℕ} (ha : 0 < a) (hb : 0 < b) (hc : 0 < c) :
    Function.Injective (step a b c : BitVec w → BitVec w) :=
  (left_triangular hc).injective.comp
    ((right_triangular hb).injective.comp (left_triangular ha).injective)

@[simp] theorem step_zero (a b c : ℕ) : step a b c (0 : BitVec w) = 0 := by
  simp [step, left, right]

/-- No run of an injective map enters a fixed point. -/
theorem iterate_ne_of_fixed {α : Type} {f : α → α} (hf : Function.Injective f) {z : α} (hz : f z = z)
    {x : α} (hx : x ≠ z) (n : ℕ) : f^[n] x ≠ z := by
  intro h
  apply hx
  apply hf.iterate n
  rw [h, Function.iterate_fixed hz]

end Zenith.Xorshift
