import Mathlib

/-!
# Binary interchange formats

A word of a format holds, from the top, a sign bit, a biased exponent and a fraction, and `number`
is what the word denotes. A wider format has every number of a narrower one: its word for a normal
number has the same fraction, its word for a subnormal number the fraction shifted up to the hidden
bit. An operation rounds its exact result to the nearest number, and a result that has no more digits
than the fraction is left as it is.
-/

namespace Zenith.BinaryFloat

/-- What a word denotes. A zero has a sign, and all NaNs are one. -/
inductive Number
  | finite (negative : Bool) (magnitude : ℚ)
  | infinite (negative : Bool)
  | nan

/-- The widths of the two fields below the sign bit. -/
structure Format where
  exponentBits : ℕ
  fractionBits : ℕ
  exponentBits_pos : 0 < exponentBits

@[simps] def binary16 : Format := ⟨5, 10, by decide⟩

@[simps] def binary32 : Format := ⟨8, 23, by decide⟩

@[simps] def binary64 : Format := ⟨11, 52, by decide⟩

namespace Format

variable (f g : Format)

def bias : ℕ := 2 ^ (f.exponentBits - 1) - 1

/-- The exponent of the infinities and NaNs. -/
def special : ℕ := 2 ^ f.exponentBits - 1

/-- The magnitude of a finite number. A zero exponent stands for subnormal numbers, which lack the
hidden bit. -/
def magnitude (exponent fraction : ℕ) : ℚ :=
  if exponent = 0 then fraction * 2 ^ (1 - f.bias - f.fractionBits : ℤ)
  else (2 ^ f.fractionBits + fraction) * 2 ^ (exponent - f.bias - f.fractionBits : ℤ)

def denote (negative : Bool) (exponent fraction : ℕ) : Number :=
  if exponent = f.special then if fraction = 0 then .infinite negative else .nan
  else .finite negative (f.magnitude exponent fraction)

def negative (bits : ℕ) : Bool := bits.testBit (f.exponentBits + f.fractionBits)

def exponent (bits : ℕ) : ℕ := bits / 2 ^ f.fractionBits % 2 ^ f.exponentBits

def fraction (bits : ℕ) : ℕ := bits % 2 ^ f.fractionBits

def number (bits : ℕ) : Number := f.denote (f.negative bits) (f.exponent bits) (f.fraction bits)

/-- A nonzero number below the normal ones. -/
def Subnormal (bits : ℕ) : Prop := f.exponent bits = 0 ∧ f.fraction bits ≠ 0

instance (bits : ℕ) : Decidable (f.Subnormal bits) := inferInstanceAs (Decidable (_ ∧ _))

/-- The word with the given fields. -/
def pack (negative : Bool) (exponent fraction : ℕ) : ℕ :=
  2 ^ f.fractionBits * (2 ^ f.exponentBits * negative.toNat + exponent) + fraction

/-! ## Fields -/

variable {f g} {negative : Bool} {exponent fraction : ℕ}

/-- Fields that do not overlap are packed by a bitwise or. -/
theorem lor_fields (hexponent : exponent < 2 ^ f.exponentBits)
    (hfraction : fraction < 2 ^ f.fractionBits) :
    negative.toNat <<< (f.exponentBits + f.fractionBits) ||| exponent <<< f.fractionBits |||
      fraction = f.pack negative exponent fraction := by
  have hhigh : negative.toNat <<< (f.exponentBits + f.fractionBits) |||
      exponent <<< f.fractionBits =
        2 ^ f.fractionBits * (2 ^ f.exponentBits * negative.toNat + exponent) := by
    rw [Nat.shiftLeft_add, ← Nat.shiftLeft_or_distrib, ← Nat.shiftLeft_add_eq_or_of_lt hexponent,
      Nat.shiftLeft_eq, Nat.shiftLeft_eq, mul_comm negative.toNat,
      mul_comm _ (2 ^ f.fractionBits)]
  rw [hhigh, ← Nat.two_pow_add_eq_or_of_lt hfraction]
  rfl

theorem number_pack (hexponent : exponent < 2 ^ f.exponentBits)
    (hfraction : fraction < 2 ^ f.fractionBits) :
    f.number (f.pack negative exponent fraction) = f.denote negative exponent fraction := by
  have hhigh : f.pack negative exponent fraction / 2 ^ f.fractionBits =
      2 ^ f.exponentBits * negative.toNat + exponent := by
    rw [pack, Nat.mul_add_div (by positivity), Nat.div_eq_of_lt hfraction, add_zero]
  have hsign : f.negative (f.pack negative exponent fraction) = negative := by
    rw [Format.negative, Nat.testBit_eq_decide_div_mod_eq, add_comm f.exponentBits, pow_add,
      ← Nat.div_div_eq_div_mul, hhigh, Nat.mul_add_div (by positivity),
      Nat.div_eq_of_lt hexponent]
    cases negative <;> rfl
  have hexp : f.exponent (f.pack negative exponent fraction) = exponent := by
    rw [Format.exponent, hhigh, Nat.mul_add_mod, Nat.mod_eq_of_lt hexponent]
  have hfrac : f.fraction (f.pack negative exponent fraction) = fraction := by
    rw [Format.fraction, pack, Nat.mul_add_mod, Nat.mod_eq_of_lt hfraction]
  rw [number, hsign, hexp, hfrac]

/-- The number of a word that is put together by shifts. -/
theorem number_lor (hexponent : exponent < 2 ^ f.exponentBits)
    (hfraction : fraction < 2 ^ f.fractionBits) :
    f.number (negative.toNat <<< (f.exponentBits + f.fractionBits) |||
      exponent <<< f.fractionBits ||| fraction) = f.denote negative exponent fraction := by
  rw [lor_fields hexponent hfraction, number_pack hexponent hfraction]

/-! ## Widening -/

theorem special_eq (f : Format) : f.special = 2 * f.bias + 1 := by
  have hpow : 2 ^ f.exponentBits = 2 * 2 ^ (f.exponentBits - 1) := by
    rw [← pow_succ', Nat.sub_add_cancel f.exponentBits_pos]
  have hpos : 0 < 2 ^ (f.exponentBits - 1) := by positivity
  rw [special, bias, hpow]
  omega

theorem denote_finite (h : exponent ≠ f.special) :
    f.denote negative exponent fraction = .finite negative (f.magnitude exponent fraction) :=
  if_neg h

/-- `g` has at least the exponents and the fractions of `f`. -/
structure Embeds (f g : Format) : Prop where
  exponentBits_le : f.exponentBits ≤ g.exponentBits
  fractionBits_le : f.fractionBits ≤ g.fractionBits

theorem Embeds.bias_le (h : f.Embeds g) : f.bias ≤ g.bias :=
  Nat.sub_le_sub_right
    (Nat.pow_le_pow_right (by decide) (Nat.sub_le_sub_right h.exponentBits_le 1)) 1

/-- A scaled fraction: the shift into the wider field and the exponent make up for each other. -/
theorem Embeds.scale (h : f.Embeds g) (q : ℚ) (k : ℤ) :
    q * 2 ^ (g.fractionBits - f.fractionBits) * 2 ^ (k - g.fractionBits : ℤ) =
      q * 2 ^ (k - f.fractionBits : ℤ) := by
  rw [mul_assoc, ← zpow_natCast, ← zpow_add₀ two_ne_zero, Nat.cast_sub h.fractionBits_le]
  congr 2
  ring

theorem Embeds.two_pow_fractionBits (h : f.Embeds g) : (2 : ℚ) ^ g.fractionBits =
    2 ^ f.fractionBits * 2 ^ (g.fractionBits - f.fractionBits) := by
  rw [← pow_add, Nat.add_sub_cancel' h.fractionBits_le]

theorem Embeds.magnitude_normal (h : f.Embeds g) (hexponent : 0 < exponent) :
    g.magnitude (exponent + (g.bias - f.bias)) (fraction * 2 ^ (g.fractionBits - f.fractionBits)) =
      f.magnitude exponent fraction := by
  rw [magnitude, if_neg (by omega), magnitude, if_neg hexponent.ne']
  push_cast [h.bias_le]
  rw [h.two_pow_fractionBits, ← add_mul, h.scale]
  congr 2
  ring

/-- `k` doublings take the fraction of a subnormal number to the hidden bit. -/
theorem Embeds.magnitude_subnormal (h : f.Embeds g) {k : ℕ} (hk : k ≤ g.bias - f.bias)
    (hhidden : 2 ^ f.fractionBits ≤ fraction * 2 ^ k) :
    g.magnitude (g.bias - f.bias + 1 - k)
      ((fraction * 2 ^ k - 2 ^ f.fractionBits) * 2 ^ (g.fractionBits - f.fractionBits)) =
      f.magnitude 0 fraction := by
  have hexponent : ((g.bias - f.bias + 1 - k : ℕ) : ℤ) = g.bias - f.bias + 1 - k := by
    have := h.bias_le
    omega
  rw [magnitude, if_neg (by omega), magnitude, if_pos rfl, hexponent]
  push_cast [hhidden]
  rw [h.two_pow_fractionBits, ← add_mul, add_sub_cancel, h.scale, mul_assoc, ← zpow_natCast,
    ← zpow_add₀ two_ne_zero]
  congr 2
  ring

theorem magnitude_succ (hexponent : 0 < exponent) :
    f.magnitude (exponent + 1) fraction = 2 * f.magnitude exponent fraction := by
  rw [magnitude, if_neg exponent.succ_ne_zero, magnitude, if_neg hexponent.ne']
  push_cast
  rw [add_sub_right_comm, add_sub_right_comm, zpow_add_one₀ two_ne_zero]
  ring

theorem magnitude_subnormal_pos (hfraction : fraction ≠ 0) : 0 < f.magnitude 0 fraction := by
  rw [magnitude, if_pos rfl]
  positivity

/-! ### Words of the wider format -/

theorem Embeds.denote_normal (h : f.Embeds g) (hpos : 0 < exponent)
    (hexponent : exponent < f.special) : g.denote negative (exponent + (g.bias - f.bias))
      (fraction * 2 ^ (g.fractionBits - f.fractionBits)) = f.denote negative exponent fraction := by
  have hwide : exponent + (g.bias - f.bias) ≠ g.special := by
    have := h.bias_le
    rw [special_eq] at hexponent ⊢
    omega
  rw [denote_finite hwide, denote_finite hexponent.ne, h.magnitude_normal hpos]

/-- Every fraction other than zero is a NaN's. -/
theorem denote_special {fraction' : ℕ} (h : fraction' = 0 ↔ fraction = 0) :
    g.denote negative g.special fraction' = f.denote negative f.special fraction := by
  rw [denote, if_pos rfl, denote, if_pos rfl]
  exact if_congr h rfl rfl

theorem denote_zero : g.denote negative 0 0 = f.denote negative 0 0 := by
  have hne (f : Format) : 0 ≠ f.special := by
    rw [special_eq]
    omega
  simp [denote_finite (hne g), denote_finite (hne f), magnitude]

end Format

/-! ## Rounding -/

/-- The integer nearest to `q`, and the even one of two that are equally near. -/
def nearestEven (q : ℚ) : ℤ :=
  let low := ⌊q⌋
  if q - low < 1 / 2 then low
  else if 1 / 2 < q - low then low + 1
  else if low % 2 = 0 then low else low + 1

@[simp] theorem nearestEven_intCast (n : ℤ) : nearestEven n = n := by
  unfold nearestEven
  dsimp only
  rw [Int.floor_intCast, sub_self, if_pos (by norm_num)]

namespace Format

variable (f : Format)

/-- The exponent of the last place of the numbers around `q`. The subnormal numbers share theirs with
the least normal ones. -/
def lastPlace (q : ℚ) : ℤ := max (Int.log 2 |q| - f.fractionBits) (1 - f.bias - f.fractionBits)

/-- What an operation with the exact result `q` returns, short of an overflow. -/
def round (q : ℚ) : ℚ := nearestEven (q / 2 ^ f.lastPlace q) * 2 ^ f.lastPlace q

variable {f}

theorem lastPlace_le {m e : ℤ} (hm : m ≠ 0) (hdigits : |m| < 2 ^ (f.fractionBits + 1))
    (he : 1 - f.bias - f.fractionBits ≤ e) : f.lastPlace (m * 2 ^ e) ≤ e := by
  have hpow : (0 : ℚ) < 2 ^ e := by positivity
  have habs : |(m * 2 ^ e : ℚ)| = |(m : ℚ)| * 2 ^ e := by rw [abs_mul, abs_of_pos hpow]
  have hpos : 0 < |(m : ℚ)| * 2 ^ e := mul_pos (abs_pos.mpr (Int.cast_ne_zero.mpr hm)) hpow
  have hlog : Int.log 2 |(m * 2 ^ e : ℚ)| < f.fractionBits + 1 + e := by
    rw [habs, ← Int.lt_zpow_iff_log_lt one_lt_two hpos]
    calc
      |(m : ℚ)| * 2 ^ e < 2 ^ (f.fractionBits + 1) * 2 ^ e :=
        mul_lt_mul_of_pos_right (by exact_mod_cast hdigits) hpow
      _ = ((2 : ℕ) : ℚ) ^ (f.fractionBits + 1 + e : ℤ) := by
        rw [Nat.cast_ofNat, zpow_add₀ two_ne_zero, ← zpow_natCast, Nat.cast_add, Nat.cast_one]
  apply max_le
  · omega
  · exact he

/-- What has no more digits than a number of the format is not rounded. -/
theorem round_eq_self {m e : ℤ} (hdigits : |m| < 2 ^ (f.fractionBits + 1))
    (he : 1 - f.bias - f.fractionBits ≤ e) : f.round (m * 2 ^ e) = m * 2 ^ e := by
  by_cases hm : m = 0
  · have hzero : nearestEven 0 = 0 := by exact_mod_cast nearestEven_intCast 0
    simp [round, hm, hzero]
  · have hle := lastPlace_le hm hdigits he
    have hplaces : (m * 2 ^ e : ℚ) / 2 ^ f.lastPlace (m * 2 ^ e) =
        (m * 2 ^ (e - f.lastPlace (m * 2 ^ e)).toNat : ℤ) := by
      push_cast
      rw [mul_div_assoc, ← zpow_sub₀ two_ne_zero, ← zpow_natCast, Int.toNat_of_nonneg (by omega)]
    rw [round, hplaces, nearestEven_intCast, ← hplaces]
    exact div_mul_cancel₀ _ (by positivity)

end Format

end Zenith.BinaryFloat
