import Zenith.Cbor.RoundTrip
import Zenith.Data.BinaryFloat

/-!
# The numbers of float items

`decodeSimple` widens a half to a single and a single to a double, field by field. Normal numbers,
zeros, infinities and NaNs keep their number. A subnormal half is normalized by a loop whose
exponent starts one too low, so it comes out at half its number.
-/

namespace Zenith.Cbor

open Go BinaryFloat

theorem embeds_binary16 : binary16.Embeds binary32 := ⟨by decide, by decide⟩

theorem embeds_binary32 : binary32.Embeds binary64 := ⟨by decide, by decide⟩

/-! ## Packing words -/

section Pack

variable {negative : Bool}

theorem number_pack32 {sign e mant : UInt32} (hsign : sign.toNat = negative.toNat <<< 31)
    (he : e.toNat < 2 ^ 8) (hmant : mant.toNat < 2 ^ 23) :
    binary32.number (sign ||| e <<< 23 ||| mant).toNat =
      binary32.denote negative e.toNat mant.toNat := by
  have hshift : (e <<< 23).toNat = e.toNat <<< 23 := by
    rw [UInt32.toNat_shiftLeft, Nat.mod_eq_of_lt]
    · rfl
    · rw [Nat.shiftLeft_eq]
      simp
      omega
  have he' : e.toNat < 2 ^ binary32.exponentBits := by rwa [binary32_exponentBits]
  have hmant' : mant.toNat < 2 ^ binary32.fractionBits := by rwa [binary32_fractionBits]
  have hnumber := @Format.number_lor _ negative _ _ he' hmant'
  rw [binary32_exponentBits, binary32_fractionBits] at hnumber
  rw [UInt32.toNat_or, UInt32.toNat_or, hsign, hshift]
  exact hnumber

theorem number_pack64 {sign e mant : UInt64} (hsign : sign.toNat = negative.toNat <<< 63)
    (he : e.toNat < 2 ^ 11) (hmant : mant.toNat < 2 ^ 52) :
    binary64.number (sign ||| e <<< 52 ||| mant).toNat =
      binary64.denote negative e.toNat mant.toNat := by
  have hshift : (e <<< 52).toNat = e.toNat <<< 52 := by
    rw [UInt64.toNat_shiftLeft, Nat.mod_eq_of_lt]
    · rfl
    · rw [Nat.shiftLeft_eq]
      simp
      omega
  have he' : e.toNat < 2 ^ binary64.exponentBits := by rwa [binary64_exponentBits]
  have hmant' : mant.toNat < 2 ^ binary64.fractionBits := by rwa [binary64_fractionBits]
  have hnumber := @Format.number_lor _ negative _ _ he' hmant'
  rw [binary64_exponentBits, binary64_fractionBits] at hnumber
  rw [UInt64.toNat_or, UInt64.toNat_or, hsign, hshift]
  exact hnumber

end Pack

/-! ## Half to single -/

theorem halfSign_toNat (h : UInt16) : ((h &&& 0x8000).toUInt32 <<< 16).toNat =
    (binary16.negative h.toNat).toNat <<< 31 := by
  have hbit : h.toNat &&& 2 ^ 15 = 2 ^ 15 * (h.toNat.testBit 15).toNat := by
    rw [Nat.and_comm, Nat.two_pow_and]
  have hand : (h &&& 0x8000).toUInt32.toNat = 2 ^ 15 * (h.toNat.testBit 15).toNat := by
    rw [UInt16.toNat_toUInt32, UInt16.toNat_and, ← hbit]
    rfl
  rw [UInt32.toNat_shiftLeft, hand]
  change _ = (h.toNat.testBit 15).toNat <<< 31
  cases h.toNat.testBit 15 <;> rfl

theorem halfExponent_toNat (h : UInt16) : ((h >>> 10).toUInt32 &&& 0x1f).toNat =
    binary16.exponent h.toNat := by
  rw [UInt32.toNat_and, UInt16.toNat_toUInt32, UInt16.toNat_shiftRight]
  change h.toNat >>> 10 &&& 2 ^ 5 - 1 = h.toNat / 2 ^ 10 % 2 ^ 5
  rw [Nat.and_two_pow_sub_one_eq_mod, Nat.shiftRight_eq_div_pow]

theorem halfFraction_toNat (h : UInt16) : (h &&& 0x3ff).toUInt32.toNat =
    binary16.fraction h.toNat := by
  rw [UInt16.toNat_toUInt32, UInt16.toNat_and]
  change h.toNat &&& 2 ^ 10 - 1 = h.toNat % 2 ^ 10
  rw [Nat.and_two_pow_sub_one_eq_mod]

/-- The loop stops when a doubling reaches the hidden bit, and counts the doublings. -/
theorem normalizeHalf_spec (fuel : ℕ) (mant : UInt32) (e : Int32) (hhigh : mant.toNat < 2 ^ 11)
    (hfuel : 2 ^ 10 ≤ mant.toNat * 2 ^ fuel) :
    ∃ k ≤ fuel, (normalizeHalf fuel mant e).1.toNat = mant.toNat * 2 ^ k ∧
      (normalizeHalf fuel mant e).2 = e - Int32.ofNat k ∧
      2 ^ 10 ≤ mant.toNat * 2 ^ k ∧ mant.toNat * 2 ^ k < 2 ^ 11 := by
  induction fuel generalizing mant e with
  | zero => exact ⟨0, le_rfl, by simp [normalizeHalf], by simp [normalizeHalf], hfuel, by simpa⟩
  | succ fuel ih =>
    have hbit : mant &&& 0x400 = 0 ↔ mant.toNat < 2 ^ 10 := by
      have hand : (mant &&& 0x400).toNat = 2 ^ 10 * (mant.toNat.testBit 10).toNat := by
        rw [UInt32.toNat_and]
        change mant.toNat &&& 2 ^ 10 = _
        rw [Nat.and_comm, Nat.two_pow_and]
      rw [← UInt32.toNat_inj, hand, Nat.testBit_eq_decide_div_mod_eq]
      have hdigit : mant.toNat / 2 ^ 10 % 2 = 0 ↔ mant.toNat < 2 ^ 10 := by omega
      simpa using hdigit
    rw [normalizeHalf]
    by_cases hlow : mant.toNat < 2 ^ 10
    · have hdouble : (mant <<< 1).toNat = mant.toNat * 2 := by
        rw [UInt32.toNat_shiftLeft, Nat.mod_eq_of_lt]
        · simp [Nat.shiftLeft_eq]
        · simp [Nat.shiftLeft_eq]
          omega
      obtain ⟨k, hk, hmant, he, hlo, hhi⟩ := ih (mant <<< 1) (e - 1) (by omega) (by
        rw [hdouble, mul_assoc, ← pow_succ']
        exact hfuel)
      rw [hdouble, mul_assoc, ← pow_succ'] at hmant hlo hhi
      rw [if_pos (hbit.mpr hlow)]
      refine ⟨k + 1, by omega, hmant, ?_, hlo, hhi⟩
      rw [he, Int32.ofNat_add, Int32.sub_sub, Int32.add_comm]
      rfl
    · rw [if_neg (mt hbit.mp hlow)]
      exact ⟨0, by omega, by simp, by simp, by omega, by simpa⟩

/-- The fields of a half, put into a single with a new exponent. -/
theorem number_rebias (h : UInt16) {exp mant : UInt32} (hexp : exp.toNat < 2 ^ 8)
    (hmant : mant.toNat < 2 ^ 10) :
    binary32.number ((h &&& 0x8000).toUInt32 <<< 16 ||| exp <<< 23 ||| mant <<< 13).toNat =
      binary32.denote (binary16.negative h.toNat) exp.toNat
        (mant.toNat * 2 ^ (binary32.fractionBits - binary16.fractionBits)) := by
  have hshift : (mant <<< 13).toNat = mant.toNat * 2 ^ 13 := by
    rw [UInt32.toNat_shiftLeft, Nat.mod_eq_of_lt]
    · exact Nat.shiftLeft_eq _ _
    · change mant.toNat <<< 13 < 2 ^ 32
      rw [Nat.shiftLeft_eq]
      omega
  rw [number_pack32 (halfSign_toNat h) hexp (by omega), hshift]
  rfl

theorem rebias_toNat {exp : UInt32} (hexp : exp.toNat < 2 ^ 5) :
    (exp + (127 - 15)).toNat = exp.toNat + (binary32.bias - binary16.bias) ∧
      (exp + (127 - 15)).toNat < 2 ^ 8 := by
  have hadd : (exp + (127 - 15)).toNat = exp.toNat + 112 := by
    rw [UInt32.toNat_add]
    change (exp.toNat + 112) % 2 ^ 32 = exp.toNat + 112
    omega
  exact ⟨hadd, by omega⟩

/-- A half that is not subnormal becomes the single of the same number. -/
theorem number_halfToFloat32bits {h : UInt16} (hh : ¬binary16.Subnormal h.toNat) :
    binary32.number (halfToFloat32bits h).toNat = binary16.number h.toNat := by
  have hrebias (exp : UInt32) (hexp : exp.toNat < 2 ^ 8) :=
    number_rebias h hexp (show (h &&& 0x3ff).toUInt32.toNat < 2 ^ 10 by
      rw [halfFraction_toNat]
      exact Nat.mod_lt _ (by decide))
  have hexp := halfExponent_toNat h
  have hmant := halfFraction_toNat h
  change _ = binary16.denote (binary16.negative h.toNat) (binary16.exponent h.toNat)
    (binary16.fraction h.toNat)
  rw [halfToFloat32bits]
  generalize (h &&& 0x8000).toUInt32 <<< 16 = sign at hrebias ⊢
  generalize (h >>> 10).toUInt32 &&& 0x1f = exp at hexp ⊢
  generalize (h &&& 0x3ff).toUInt32 = mant at hmant hrebias ⊢
  dsimp only
  split_ifs with hzero hmant_zero hspecial
  · have hempty : sign = sign ||| (0 : UInt32) <<< 23 ||| mant <<< 13 := by simp [hmant_zero]
    rw [hempty, hrebias 0 (by decide), ← hexp, ← hmant, hzero, hmant_zero]
    simpa using Format.denote_zero
  · refine absurd ⟨?_, ?_⟩ hh
    · rw [← hexp, hzero]
      rfl
    · rw [← hmant]
      exact fun h0 ↦ hmant_zero (UInt32.toNat_inj.mp h0)
  · rw [hrebias 0xff (by decide), ← hexp, ← hmant, hspecial]
    apply Format.denote_special
    simp
  · have hexp_lt : exp.toNat < 2 ^ 5 := by
      rw [hexp]
      exact Nat.mod_lt _ (by decide)
    obtain ⟨hadd, hadd_lt⟩ := rebias_toNat hexp_lt
    have hne : exp.toNat ≠ 0 := fun h0 ↦ hzero (UInt32.toNat_inj.mp h0)
    have hne' : exp.toNat ≠ 31 := fun h31 ↦ hspecial (UInt32.toNat_inj.mp h31)
    rw [hrebias _ hadd_lt, hadd, ← hexp, ← hmant]
    exact embeds_binary16.denote_normal (by omega) (show _ < 31 by omega)

/-- A subnormal half comes out at half its number. -/
theorem number_halfToFloat32bits_subnormal {h : UInt16} (hh : binary16.Subnormal h.toNat) :
    binary32.number (halfToFloat32bits h).toNat = .finite (binary16.negative h.toNat)
      (binary16.magnitude 0 (binary16.fraction h.toNat) / 2) := by
  obtain ⟨hzero, hfraction⟩ := hh
  have hexp : (h >>> 10).toUInt32 &&& 0x1f = 0 := by
    rw [← UInt32.toNat_inj, halfExponent_toNat, hzero]
    rfl
  have hmant := halfFraction_toNat h
  have hlt : binary16.fraction h.toNat < 2 ^ 10 := Nat.mod_lt _ (by decide)
  have hne : (h &&& 0x3ff).toUInt32 ≠ 0 := by
    rw [Ne, ← UInt32.toNat_inj, hmant]
    exact hfraction
  obtain ⟨k, hk, hnormal, he, hlo, hhi⟩ := normalizeHalf_spec 10 (h &&& 0x3ff).toUInt32 (-1)
    (by omega) (by omega)
  rw [hmant] at hnormal hlo hhi
  have hhidden : ((normalizeHalf 10 (h &&& 0x3ff).toUInt32 (-1)).1 &&& 0x3ff).toNat =
      binary16.fraction h.toNat * 2 ^ k - 2 ^ 10 := by
    rw [UInt32.toNat_and, hnormal]
    change _ &&& 2 ^ 10 - 1 = _
    rw [Nat.and_two_pow_sub_one_eq_mod]
    omega
  have hexp32 : ((127 - 15 : Int32) + (normalizeHalf 10 (h &&& 0x3ff).toUInt32 (-1)).2
      + 1).toUInt32.toNat = 112 - k := by
    rw [he]
    clear * - hk
    interval_cases k <;> rfl
  have hsucc : 112 - k + 1 = binary32.bias - binary16.bias + 1 - k := by
    change _ = 112 + 1 - k
    omega
  have hwide : 112 - k ≠ binary32.special := by
    change _ ≠ 255
    omega
  rw [halfToFloat32bits]
  dsimp only
  rw [if_pos hexp, if_neg hne, number_rebias h (by omega) (by omega), hexp32, hhidden,
    Format.denote_finite hwide, ← embeds_binary16.magnitude_subnormal
      (show k ≤ 112 by omega) hlo, ← hsucc, Format.magnitude_succ (by omega)]
  exact congrArg _ (mul_div_cancel_left₀ _ two_ne_zero).symm

/-! ## Single to double -/

theorem singleSign_toNat (x : UInt32) : ((x >>> 31).toUInt64 <<< 63).toNat =
    (binary32.negative x.toNat).toNat <<< 63 := by
  have hbit : (x >>> 31).toUInt64.toNat = (x.toNat.testBit 31).toNat := by
    have hlt : x.toNat / 2 ^ 31 < 2 := by
      have := x.toNat_lt
      omega
    rw [UInt32.toNat_toUInt64, UInt32.toNat_shiftRight, Nat.testBit_eq_decide_div_mod_eq,
      Nat.mod_eq_of_lt hlt]
    change x.toNat >>> 31 = _
    rw [Nat.shiftRight_eq_div_pow]
    interval_cases x.toNat / 2 ^ 31 <;> rfl
  rw [UInt64.toNat_shiftLeft, hbit]
  change _ = (x.toNat.testBit 31).toNat <<< 63
  cases x.toNat.testBit 31 <;> rfl

theorem singleExponent_toNat (x : UInt32) : (x >>> 23 &&& 0xff).toUInt64.toNat =
    binary32.exponent x.toNat := by
  rw [UInt32.toNat_toUInt64, UInt32.toNat_and, UInt32.toNat_shiftRight]
  change x.toNat >>> 23 &&& 2 ^ 8 - 1 = x.toNat / 2 ^ 23 % 2 ^ 8
  rw [Nat.and_two_pow_sub_one_eq_mod, Nat.shiftRight_eq_div_pow]

theorem singleFraction_toNat (x : UInt32) : (x &&& 0x7fffff).toUInt64.toNat =
    binary32.fraction x.toNat := by
  rw [UInt32.toNat_toUInt64, UInt32.toNat_and]
  change x.toNat &&& 2 ^ 23 - 1 = x.toNat % 2 ^ 23
  rw [Nat.and_two_pow_sub_one_eq_mod]

theorem toNat_shiftLeft_fraction {mant : UInt64} (h : mant.toNat < 2 ^ 23) :
    (mant <<< 29).toNat = mant.toNat * 2 ^ (binary64.fractionBits - binary32.fractionBits) := by
  rw [UInt64.toNat_shiftLeft, Nat.mod_eq_of_lt]
  · exact Nat.shiftLeft_eq _ _
  · change mant.toNat <<< 29 < 2 ^ 64
    rw [Nat.shiftLeft_eq]
    omega

/-- The quiet bit and the rest of a NaN's fraction. -/
theorem quiet_toNat {mant : UInt64} (h : mant.toNat < 2 ^ 23) :
    ((1 : UInt64) <<< 51 ||| mant <<< 29).toNat < 2 ^ 52 ∧
      ((1 : UInt64) <<< 51 ||| mant <<< 29).toNat ≠ 0 := by
  rw [UInt64.toNat_or, toNat_shiftLeft_fraction h]
  change 2 ^ 51 ||| mant.toNat * 2 ^ 29 < 2 ^ 52 ∧ 2 ^ 51 ||| mant.toNat * 2 ^ 29 ≠ 0
  constructor
  · apply Nat.or_lt_two_pow (by decide)
    omega
  · intro hzero
    exact absurd (Nat.or_eq_zero_iff.mp hzero).1 (by decide)

section Subnormal

variable {mant : ℕ}

/-- The leading bit of a fraction goes to the hidden bit of a single and on to that of a double. -/
theorem leadingBit_fraction (hne : mant ≠ 0) (h : mant < 2 ^ 23) :
    2 ^ 23 ≤ mant * 2 ^ (23 - mant.log2) ∧
      (mant - 2 ^ mant.log2) * 2 ^ (52 - mant.log2) =
        (mant * 2 ^ (23 - mant.log2) - 2 ^ 23) * 2 ^ 29 ∧
      (mant - 2 ^ mant.log2) * 2 ^ (52 - mant.log2) < 2 ^ 52 := by
  have hlog : mant.log2 < 23 := (Nat.log2_lt hne).mpr h
  have hhigh : mant < 2 ^ mant.log2 * 2 := Nat.lt_log2_self
  have hhidden : 2 ^ mant.log2 * 2 ^ (23 - mant.log2) = 2 ^ 23 := by
    rw [← pow_add, Nat.add_sub_cancel' hlog.le]
  have hshift : 2 ^ (52 - mant.log2) = 2 ^ (23 - mant.log2) * 2 ^ 29 := by
    rw [← pow_add]
    congr 1
    omega
  have hsplit : 2 ^ mant.log2 * 2 ^ (52 - mant.log2) = 2 ^ 52 := by
    rw [hshift, ← mul_assoc, hhidden]
    rfl
  refine ⟨?_, ?_, ?_⟩
  · rw [← hhidden]
    exact Nat.mul_le_mul_right _ (Nat.log2_self_le hne)
  · rw [hshift, ← mul_assoc, Nat.sub_mul, hhidden]
  · rw [← hsplit]
    apply Nat.mul_lt_mul_of_pos_right _ (by positivity)
    omega

theorem denote_subnormal (hne : mant ≠ 0) (h : mant < 2 ^ 23) (negative : Bool) :
    binary64.denote negative (874 + mant.log2)
      ((mant - 2 ^ mant.log2) * 2 ^ (52 - mant.log2)) = binary32.denote negative 0 mant := by
  have hlog : mant.log2 < 23 := (Nat.log2_lt hne).mpr h
  obtain ⟨hhidden, hfrac, -⟩ := leadingBit_fraction hne h
  have hexp : 874 + mant.log2 = binary64.bias - binary32.bias + 1 - (23 - mant.log2) := by
    change _ = 896 + 1 - (23 - mant.log2)
    omega
  have hwide : 874 + mant.log2 ≠ binary64.special := by
    change _ ≠ 2047
    omega
  rw [Format.denote_finite hwide, hexp, hfrac, Format.denote_finite (by decide)]
  exact congrArg _
    (embeds_binary32.magnitude_subnormal (show 23 - mant.log2 ≤ 896 by omega) hhidden)

end Subnormal

section Widen

variable {negative : Bool} {sign exp mant : UInt64} (hsign : sign.toNat = negative.toNat <<< 63)
include hsign

theorem number_widen_zero : binary64.number sign.toNat = binary32.denote negative 0 0 := by
  have hempty : sign = sign ||| (0 : UInt64) <<< 52 ||| (0 : UInt64) := by simp
  rw [hempty, number_pack64 hsign (by decide) (by decide)]
  exact Format.denote_zero

theorem number_widen_infinite : binary64.number (sign ||| (0x7ff : UInt64) <<< 52).toNat =
    binary32.denote negative 255 0 := by
  have hempty : sign ||| (0x7ff : UInt64) <<< 52 =
      sign ||| (0x7ff : UInt64) <<< 52 ||| (0 : UInt64) := by simp
  rw [hempty, number_pack64 hsign (by decide) (by decide)]
  exact Format.denote_special Iff.rfl

theorem number_widen_nan (hne : mant ≠ 0) (hlt : mant.toNat < 2 ^ 23) :
    binary64.number (sign ||| (0xfff : UInt64) <<< 51 ||| mant <<< 29).toNat =
      binary32.denote negative 255 mant.toNat := by
  have hones : (0xfff : UInt64) <<< 51 = (0x7ff : UInt64) <<< 52 ||| (1 : UInt64) <<< 51 := by
    decide
  have hquiet : sign ||| (0xfff : UInt64) <<< 51 ||| mant <<< 29 =
      sign ||| (0x7ff : UInt64) <<< 52 ||| ((1 : UInt64) <<< 51 ||| mant <<< 29) := by
    rw [hones]
    simp only [UInt64.or_assoc]
  obtain ⟨hfraction, hnonzero⟩ := quiet_toNat hlt
  rw [hquiet, number_pack64 hsign (by decide) hfraction]
  apply Format.denote_special
  exact iff_of_false hnonzero fun h0 ↦ hne (UInt64.toNat_inj.mp h0)

theorem number_widen_subnormal (hne : mant ≠ 0) (hlt : mant.toNat < 2 ^ 23) :
    binary64.number (sign ||| UInt64.ofNat (874 + mant.toNat.log2) <<< 52 |||
      UInt64.ofNat ((mant.toNat - 2 ^ mant.toNat.log2) * 2 ^ (52 - mant.toNat.log2))).toNat =
        binary32.denote negative 0 mant.toNat := by
  have hne' : mant.toNat ≠ 0 := fun h0 ↦ hne (UInt64.toNat_inj.mp h0)
  have htop : mant.toNat.log2 < 23 := (Nat.log2_lt hne').mpr hlt
  obtain ⟨-, -, hfraction⟩ := leadingBit_fraction hne' hlt
  have hexp : (UInt64.ofNat (874 + mant.toNat.log2)).toNat = 874 + mant.toNat.log2 :=
    UInt64.toNat_ofNat_of_lt (show _ < 2 ^ 64 by omega)
  have hfrac : (UInt64.ofNat ((mant.toNat - 2 ^ mant.toNat.log2) *
      2 ^ (52 - mant.toNat.log2))).toNat =
        (mant.toNat - 2 ^ mant.toNat.log2) * 2 ^ (52 - mant.toNat.log2) :=
    UInt64.toNat_ofNat_of_lt (show _ < 2 ^ 64 by omega)
  rw [number_pack64 hsign (by omega) (by omega), hexp, hfrac]
  exact denote_subnormal hne' hlt _

theorem number_widen_normal (hpos : exp ≠ 0) (hspecial : exp ≠ 0xff) (hexp : exp.toNat < 2 ^ 8)
    (hlt : mant.toNat < 2 ^ 23) :
    binary64.number (sign ||| (exp + 896) <<< 52 ||| mant <<< 29).toNat =
      binary32.denote negative exp.toNat mant.toNat := by
  have hpos' : exp.toNat ≠ 0 := fun h0 ↦ hpos (UInt64.toNat_inj.mp h0)
  have hspecial' : exp.toNat ≠ 255 := fun h255 ↦ hspecial (UInt64.toNat_inj.mp h255)
  have hadd : (exp + 896).toNat = exp.toNat + (binary64.bias - binary32.bias) := by
    rw [UInt64.toNat_add]
    change (exp.toNat + 896) % 2 ^ 64 = exp.toNat + 896
    omega
  have hadd_lt : (exp + 896).toNat < 2 ^ 11 := by
    rw [hadd]
    change exp.toNat + 896 < 2 ^ 11
    omega
  have hshift := toNat_shiftLeft_fraction hlt
  have hshift_lt : (mant <<< 29).toNat < 2 ^ 52 := by
    rw [hshift]
    change mant.toNat * 2 ^ 29 < 2 ^ 52
    omega
  rw [number_pack64 hsign hadd_lt hshift_lt, hadd, hshift]
  exact embeds_binary32.denote_normal (by omega) (show _ < 255 by omega)

end Widen

/-- The number of a single does not change. -/
theorem number_widenFloat32 (x : UInt32) :
    binary64.number (widenFloat32 x).toNat = binary32.number x.toNat := by
  have hsign := singleSign_toNat x
  have hexp := singleExponent_toNat x
  have hmant := singleFraction_toNat x
  have hexp_lt : binary32.exponent x.toNat < 2 ^ 8 := Nat.mod_lt _ (by decide)
  have hmant_lt : binary32.fraction x.toNat < 2 ^ 23 := Nat.mod_lt _ (by decide)
  change _ = binary32.denote (binary32.negative x.toNat) (binary32.exponent x.toNat)
    (binary32.fraction x.toNat)
  rw [widenFloat32, ← hexp, ← hmant]
  rw [← hexp] at hexp_lt
  rw [← hmant] at hmant_lt
  dsimp only
  split_ifs with hspecial hmant_zero hzero hmant_zero
  · rw [hspecial, hmant_zero]
    exact number_widen_infinite hsign
  · rw [hspecial]
    exact number_widen_nan hsign hmant_zero hmant_lt
  · rw [hzero, hmant_zero]
    exact number_widen_zero hsign
  · rw [hzero]
    exact number_widen_subnormal hsign hmant_zero hmant_lt
  · exact number_widen_normal hsign hzero hspecial hexp_lt hmant_lt

/-! ## Float items -/

/-- The bit pattern that a float item holds. -/
inductive FloatPattern
  | half (bits : UInt16)
  | single (bits : UInt32)
  | double (bits : UInt64)

namespace FloatPattern

/-- Major type 7 with additional information 25, 26 or 27, and the pattern. -/
def bytes : FloatPattern → List UInt8
  | half bits => 0xf9 :: putUint16 bits
  | single bits => 0xfa :: putUint32 bits
  | double bits => 0xfb :: putUint64 bits

/-- What the pattern denotes in its own format. -/
def number : FloatPattern → Number
  | half bits => binary16.number bits.toNat
  | single bits => binary32.number bits.toNat
  | double bits => binary64.number bits.toNat

def HalfSubnormal : FloatPattern → Prop
  | half bits => binary16.Subnormal bits.toNat
  | _ => False

/-- The `float64` that `decodeSimple` returns. -/
def decoded : FloatPattern → UInt64
  | half bits => widenFloat32 (halfToFloat32bits bits)
  | single bits => widenFloat32 bits
  | double bits => bits

theorem info_simple {info : UInt8} (hinfo : info.toNat < 32) {argument : List UInt8} :
    (Head.mk (majorSimple <<< 5 ||| info) argument).info = info :=
  (Head.fields_of_initial (by decide) hinfo argument).2

/-- A leaf of major type 7 is read off the front of whatever follows it. -/
theorem unmarshal_simple {info : UInt8} {argument tail : List UInt8} (hinfo : info.toNat < 32)
    (hwidth : Head.argumentWidth info = some argument.length) (hsupported : SupportedSimple info)
    (hdefinite : info ≠ 31) (hlen : 1 + argument.length + tail.length < 2 ^ 63) :
    unmarshal ((majorSimple <<< 5 ||| info) :: argument ++ tail) =
      (.ok (simpleValue ⟨majorSimple <<< 5 ||| info, argument⟩), argument.length + 1) := by
  have hm : (Head.mk (majorSimple <<< 5 ||| info) argument).major = majorSimple :=
    (Head.fields_of_initial (by decide) hinfo argument).1
  have haccepted := Item.accepted_simple (by rw [Head.Valid, info_simple hinfo, hwidth]) hm
    (by rwa [info_simple hinfo])
  have hbytes : (Item.node ⟨majorSimple <<< 5 ||| info, argument⟩ [] []).bytes =
      (majorSimple <<< 5 ||| info) :: argument := by
    rw [Item.bytes_of_definite (by rwa [Head.Indefinite, info_simple hinfo])]
    simp [Head.bytes]
  have hlength : (Item.node ⟨majorSimple <<< 5 ||| info, argument⟩ [] []).bytes.length +
      tail.length < 2 ^ 63 := by
    rw [hbytes, List.length_cons]
    omega
  have hread := unmarshal_append haccepted hlength
  rw [hbytes, Item.value_simple hm, List.length_cons] at hread
  exact hread

theorem unmarshal_bytes (p : FloatPattern) {tail : List UInt8}
    (hlen : p.bytes.length + tail.length < 2 ^ 63) :
    unmarshal (p.bytes ++ tail) = (.ok (.float64 p.decoded), p.bytes.length) := by
  cases p with
  | half bits =>
    have hvalue : simpleValue ⟨majorSimple <<< 5 ||| 25, putUint16 bits⟩ =
        .float64 (decoded (half bits)) := by
      rw [simpleValue, info_simple (by decide), if_neg (by decide), if_neg (by decide),
        if_neg (by decide), if_neg (by decide), if_pos rfl,
        bigEndianUint16_putUint16, decoded]
    have hbytes : bytes (half bits) = (majorSimple <<< 5 ||| 25) :: putUint16 bits := rfl
    rw [hbytes, List.length_cons] at hlen ⊢
    rw [unmarshal_simple (by decide) (by rw [length_putUint16]; rfl) (by simp [SupportedSimple])
      (by decide) (by omega), hvalue]
  | single bits =>
    have hvalue : simpleValue ⟨majorSimple <<< 5 ||| 26, putUint32 bits⟩ =
        .float64 (decoded (single bits)) := by
      rw [simpleValue, info_simple (by decide), if_neg (by decide), if_neg (by decide),
        if_neg (by decide), if_neg (by decide), if_neg (by decide), if_pos rfl,
        bigEndianUint32_putUint32, decoded]
    have hbytes : bytes (single bits) = (majorSimple <<< 5 ||| 26) :: putUint32 bits := rfl
    rw [hbytes, List.length_cons] at hlen ⊢
    rw [unmarshal_simple (by decide) (by rw [length_putUint32]; rfl) (by simp [SupportedSimple])
      (by decide) (by omega), hvalue]
  | double bits =>
    have hencodable : (Value.float64 bits).Encodable := .float64 bits
    have hread := hencodable.unmarshal_bytes tail
    rw [bytes_ofValue_float64] at hread
    exact hread hlen

/-- The `float64` has the number of the pattern exactly where that is not a subnormal half. -/
theorem number_decoded_iff (p : FloatPattern) :
    binary64.number p.decoded.toNat = p.number ↔ ¬p.HalfSubnormal := by
  cases p with
  | half bits =>
    change binary64.number (widenFloat32 (halfToFloat32bits bits)).toNat =
      binary16.number bits.toNat ↔ ¬binary16.Subnormal bits.toNat
    rw [number_widenFloat32]
    refine ⟨fun hnumber hsub ↦ ?_, number_halfToFloat32bits⟩
    rw [number_halfToFloat32bits_subnormal hsub, Format.number, hsub.1,
      Format.denote_finite (by decide), Number.finite.injEq] at hnumber
    have hpos := Format.magnitude_subnormal_pos (f := binary16) hsub.2
    linarith [hnumber.2]
  | single bits => exact iff_of_true (number_widenFloat32 bits) id
  | double bits => exact iff_of_true rfl id

end FloatPattern

/-- A float item is read as a `float64` that `marshal` writes back to the same bits. It is the
number of the item's pattern, unless the pattern is a subnormal half. -/
theorem unmarshal_float_iff (p : FloatPattern) (tail : List UInt8)
    (hlen : p.bytes.length + tail.length < 2 ^ 63) :
    ∃ bits : UInt64, unmarshal (p.bytes ++ tail) = (.ok (.float64 bits), p.bytes.length) ∧
      (∃ bs, marshal (.float64 bits) = .ok bs ∧
        unmarshal bs = (.ok (.float64 bits), bs.length)) ∧
      (binary64.number bits.toNat = p.number ↔ ¬p.HalfSubnormal) := by
  refine ⟨p.decoded, p.unmarshal_bytes hlen, ?_, p.number_decoded_iff⟩
  have hencodable : (Value.float64 p.decoded).Encodable := .float64 _
  refine ⟨_, hencodable.marshal_eq, ?_⟩
  have hread := hencodable.unmarshal_bytes [] (by
    rw [length_bytes_float64]
    decide)
  rwa [List.append_nil] at hread

/-- The least positive half. -/
theorem unmarshal_float_iff_least :
    ∃ bits : UInt64, unmarshal ([0xf9, 0x00, 0x01] ++ [0xf6]) = (.ok (.float64 bits), 3) ∧
      (∃ bs, marshal (.float64 bits) = .ok bs ∧
        unmarshal bs = (.ok (.float64 bits), bs.length)) ∧
      (binary64.number bits.toNat = (FloatPattern.half 1).number ↔
        ¬(FloatPattern.half 1).HalfSubnormal) :=
  unmarshal_float_iff (.half 1) [0xf6] (by decide)

/-- The least positive half is 2 to the power -24, and what is read is 2 to the power -25. -/
theorem unmarshal_least_halved :
    unmarshal [0xf9, 0x00, 0x01] = (.ok (.float64 0x3e60000000000000), 3) ∧
      binary16.number 0x0001 = .finite false (1 / 2 ^ 24) ∧
      binary64.number 0x3e60000000000000 = .finite false (1 / 2 ^ 25) ∧
      ¬∀ p : FloatPattern, ∃ bits : UInt64,
        unmarshal p.bytes = (.ok (.float64 bits), p.bytes.length) ∧
          binary64.number bits.toNat = p.number := by
  have hread : unmarshal [0xf9, 0x00, 0x01] = (.ok (.float64 0x3e60000000000000), 3) := rfl
  have hleast : binary16.number 0x0001 = .finite false (1 / 2 ^ 24) := by
    rw [Format.number, show binary16.negative 0x0001 = false by decide,
      show binary16.exponent 0x0001 = 0 by decide,
      show binary16.fraction 0x0001 = 1 by decide, Format.denote_finite (by decide),
      Format.magnitude, if_pos rfl]
    norm_num [Format.bias]
  have hhalf : binary64.number 0x3e60000000000000 = .finite false (1 / 2 ^ 25) := by
    rw [Format.number, show binary64.negative 0x3e60000000000000 = false by decide,
      show binary64.exponent 0x3e60000000000000 = 998 by decide,
      show binary64.fraction 0x3e60000000000000 = 0 by decide, Format.denote_finite (by decide),
      Format.magnitude, if_neg (by decide)]
    norm_num [Format.bias]
  refine ⟨hread, hleast, hhalf, fun hall ↦ ?_⟩
  obtain ⟨bits, hbits, hnumber⟩ := hall (.half 1)
  have hsame := hread.symm.trans hbits
  rw [Prod.mk.injEq, Outcome.ok.injEq, Value.float64.injEq] at hsame
  rw [← hsame.1] at hnumber
  have hne := hhalf.symm.trans (hnumber.trans hleast)
  norm_num at hne

end Zenith.Cbor
