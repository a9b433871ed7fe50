import Zenith.Data.BinaryFloat

/-!
# Rounding to the numbers of a format

Rounding moves a number by half a unit in its last place at most and keeps the order and, of a sum of
numbers, the sign. What comes of it has as many digits as the format holds, so that there is a word for
it.
-/

namespace Zenith.BinaryFloat

/-! ## The nearest integer -/

theorem abs_nearestEven_sub_le (q : ℚ) : |(nearestEven q : ℚ) - q| ≤ 1 / 2 := by
  have hlow := Int.floor_le q
  have hhigh := Int.lt_floor_add_one q
  unfold nearestEven
  dsimp only
  split_ifs <;> push_cast <;> rw [abs_le] <;> constructor <;> linarith

theorem nearestEven_le {q : ℚ} {n : ℤ} (h : q ≤ n) : nearestEven q ≤ n := by
  have hnear := (abs_le.mp (abs_nearestEven_sub_le q)).2
  have hlt : (nearestEven q : ℚ) < n + 1 := by linarith
  exact Int.lt_add_one_iff.mp (by exact_mod_cast hlt)

theorem le_nearestEven {q : ℚ} {n : ℤ} (h : n ≤ q) : n ≤ nearestEven q := by
  have hnear := (abs_le.mp (abs_nearestEven_sub_le q)).1
  have hlt : (n : ℚ) < nearestEven q + 1 := by linarith
  exact Int.lt_add_one_iff.mp (by exact_mod_cast hlt)

/-- Numbers that are rounded past each other would both lie in the middle. -/
theorem nearestEven_mono {q q' : ℚ} (h : q ≤ q') : nearestEven q ≤ nearestEven q' := by
  by_contra hlt
  have hnear := (abs_le.mp (abs_nearestEven_sub_le q)).2
  have hnear' := (abs_le.mp (abs_nearestEven_sub_le q')).1
  have hgap : (nearestEven q' : ℚ) + 1 ≤ nearestEven q := by
    exact_mod_cast Int.add_one_le_iff.mpr (not_le.mp hlt)
  have heq : q = q' := by linarith
  exact hlt (heq ▸ le_rfl)

theorem nearestEven_eq {q : ℚ} {n : ℤ} (h : |q - n| < 1 / 2) : nearestEven q = n := by
  have hnear := abs_le.mp (abs_nearestEven_sub_le q)
  have hclose := abs_lt.mp h
  have hlow : nearestEven q < n + 1 := by
    have hlt : (nearestEven q : ℚ) < n + 1 := by linarith
    exact_mod_cast hlt
  have hhigh : n - 1 < nearestEven q := by
    have hlt : (n : ℚ) - 1 < nearestEven q := by linarith
    exact_mod_cast hlt
  omega

/-- Ties go to the even one, from both sides. -/
theorem nearestEven_neg (q : ℚ) : nearestEven (-q) = -nearestEven q := by
  have hlow := Int.floor_le q
  have hhigh := Int.lt_floor_add_one q
  by_cases hhalf : q - ⌊q⌋ = 1 / 2
  · have hfloor : ⌊-q⌋ = -⌊q⌋ - 1 := by
      rw [Int.floor_eq_iff]
      push_cast
      constructor
      · linarith
      · linarith
    have hhalf' : -q - ((-⌊q⌋ - 1 : ℤ) : ℚ) = 1 / 2 := by
      push_cast
      linarith
    unfold nearestEven
    dsimp only
    rw [hfloor, hhalf', hhalf, if_neg (lt_irrefl _), if_neg (lt_irrefl _), if_neg (lt_irrefl _),
      if_neg (lt_irrefl _)]
    split_ifs <;> omega
  · apply nearestEven_eq
    have hnear := abs_nearestEven_sub_le q
    have hne : |(nearestEven q : ℚ) - q| ≠ 1 / 2 := by
      intro heq
      unfold nearestEven at heq
      dsimp only at heq
      split_ifs at heq with hbelow habove
      · rw [abs_of_nonpos (by linarith)] at heq
        linarith
      · push_cast at heq
        rw [abs_of_nonneg (by linarith)] at heq
        linarith
      all_goals exact hhalf (le_antisymm (not_lt.mp habove) (not_lt.mp hbelow))
    calc
      |-q - ((-nearestEven q : ℤ) : ℚ)| = |(nearestEven q : ℚ) - q| := by
        push_cast
        congr 1
        ring
      _ < 1 / 2 := lt_of_le_of_ne hnear hne

namespace Format

variable {f : Format} {q q' : ℚ}

/-! ## The last place -/

theorem lastPlace_of_pos (hq : 0 < q) : f.lastPlace q =
    max (Int.log 2 q - f.fractionBits) (1 - f.bias - f.fractionBits) := by
  rw [lastPlace, abs_of_pos hq]

theorem min_le_lastPlace (f : Format) (q : ℚ) : 1 - f.bias - f.fractionBits ≤ f.lastPlace q :=
  le_max_right _ _

theorem lastPlace_mono (hq : 0 < q) (h : q ≤ q') : f.lastPlace q ≤ f.lastPlace q' := by
  rw [lastPlace_of_pos hq, lastPlace_of_pos (hq.trans_le h)]
  exact max_le_max_right _ (sub_le_sub_right (Int.log_mono_right hq h) _)

/-- A number below a power of two has its last place below it. -/
theorem lastPlace_le_of_lt {k : ℤ} (hq : 0 < q) (hlt : q < 2 ^ (k + 1))
    (hk : 1 - f.bias ≤ k) : f.lastPlace q ≤ k - f.fractionBits := by
  have hlog : Int.log 2 q < k + 1 := (Int.lt_zpow_iff_log_lt one_lt_two hq).mp (by exact_mod_cast hlt)
  rw [lastPlace_of_pos hq]
  apply max_le
  · omega
  · omega

theorem lt_two_pow_lastPlace (hq : 0 < q) :
    q < 2 ^ (f.fractionBits + 1) * 2 ^ f.lastPlace q := by
  have hlog : Int.log 2 q + 1 ≤ (f.fractionBits + 1 : ℕ) + f.lastPlace q := by
    have hle := le_max_left (Int.log 2 q - f.fractionBits) (1 - f.bias - f.fractionBits : ℤ)
    rw [lastPlace_of_pos hq]
    push_cast
    omega
  calc
    q < ((2 : ℕ) : ℚ) ^ (Int.log 2 q + 1) := Int.lt_zpow_succ_log_self one_lt_two q
    _ ≤ 2 ^ (((f.fractionBits + 1 : ℕ) : ℤ) + f.lastPlace q) := by
      rw [Nat.cast_ofNat]
      exact zpow_le_zpow_right₀ one_le_two hlog
    _ = 2 ^ (f.fractionBits + 1) * 2 ^ f.lastPlace q := by
      rw [zpow_add₀ two_ne_zero, zpow_natCast]

/-! ## Rounding -/

@[simp] theorem round_zero (f : Format) : f.round 0 = 0 := by
  have hzero : nearestEven 0 = 0 := by exact_mod_cast nearestEven_intCast 0
  simp [round, hzero]

/-- Rounding moves a number by half a unit in the last place at most. -/
theorem abs_round_sub_le (f : Format) (q : ℚ) : |f.round q - q| ≤ 2 ^ f.lastPlace q / 2 := by
  have hpow : (0 : ℚ) < 2 ^ f.lastPlace q := by positivity
  have hnear := abs_nearestEven_sub_le (q / 2 ^ f.lastPlace q)
  calc
    |f.round q - q| =
        |((nearestEven (q / 2 ^ f.lastPlace q) : ℚ) - q / 2 ^ f.lastPlace q) * 2 ^ f.lastPlace q| := by
      rw [sub_mul, div_mul_cancel₀ _ hpow.ne']
      rfl
    _ = |(nearestEven (q / 2 ^ f.lastPlace q) : ℚ) - q / 2 ^ f.lastPlace q| * 2 ^ f.lastPlace q := by
      rw [abs_mul, abs_of_pos hpow]
    _ ≤ 1 / 2 * 2 ^ f.lastPlace q := mul_le_mul_of_nonneg_right hnear hpow.le
    _ = 2 ^ f.lastPlace q / 2 := by ring

/-- In units of a lower place a number with fewer places is an integer. -/
theorem div_two_pow_eq {m e place : ℤ} (he : place ≤ e) :
    (m * 2 ^ e : ℚ) / 2 ^ place = (m * 2 ^ (e - place).toNat : ℤ) := by
  push_cast
  rw [mul_div_assoc, ← zpow_sub₀ two_ne_zero, ← zpow_natCast, Int.toNat_of_nonneg (by omega)]

/-- A number is not rounded past a number with no more places. -/
theorem round_le {m e : ℤ} (he : f.lastPlace q ≤ e) (h : q ≤ m * 2 ^ e) : f.round q ≤ m * 2 ^ e := by
  have hpow : (0 : ℚ) < 2 ^ f.lastPlace q := by positivity
  have hunits : q / 2 ^ f.lastPlace q ≤ (m * 2 ^ (e - f.lastPlace q).toNat : ℤ) := by
    rw [← div_two_pow_eq he]
    exact div_le_div_of_nonneg_right h hpow.le
  calc
    f.round q ≤ ((m * 2 ^ (e - f.lastPlace q).toNat : ℤ) : ℚ) * 2 ^ f.lastPlace q :=
      mul_le_mul_of_nonneg_right (by exact_mod_cast nearestEven_le hunits) hpow.le
    _ = m * 2 ^ e := by rw [← div_two_pow_eq he, div_mul_cancel₀ _ hpow.ne']

theorem le_round {m e : ℤ} (he : f.lastPlace q ≤ e) (h : m * 2 ^ e ≤ q) : m * 2 ^ e ≤ f.round q := by
  have hpow : (0 : ℚ) < 2 ^ f.lastPlace q := by positivity
  have hunits : ((m * 2 ^ (e - f.lastPlace q).toNat : ℤ) : ℚ) ≤ q / 2 ^ f.lastPlace q := by
    rw [← div_two_pow_eq he]
    exact div_le_div_of_nonneg_right h hpow.le
  calc
    m * 2 ^ e = ((m * 2 ^ (e - f.lastPlace q).toNat : ℤ) : ℚ) * 2 ^ f.lastPlace q := by
      rw [← div_two_pow_eq he, div_mul_cancel₀ _ hpow.ne']
    _ ≤ f.round q :=
      mul_le_mul_of_nonneg_right (by exact_mod_cast le_nearestEven hunits) hpow.le

theorem round_nonneg (f : Format) (hq : 0 ≤ q) : 0 ≤ f.round q := by
  have hle := le_round (f := f) (m := 0) (e := f.lastPlace q) le_rfl (by simpa using hq)
  simpa using hle

/-- Rounding keeps the order: where the last places differ there is a power of two in between. -/
theorem round_mono (hq : 0 < q) (h : q ≤ q') : f.round q ≤ f.round q' := by
  have hpow : (0 : ℚ) < 2 ^ f.lastPlace q := by positivity
  have hq' : 0 < q' := hq.trans_le h
  rcases (lastPlace_mono hq h (f := f)).eq_or_lt with hsame | hlt
  · unfold round
    rw [← hsame]
    apply mul_le_mul_of_nonneg_right _ hpow.le
    exact_mod_cast nearestEven_mono (div_le_div_of_nonneg_right h hpow.le)
  · have hplace := lastPlace_of_pos hq (f := f)
    have hplace' := lastPlace_of_pos hq' (f := f)
    have hbelow : q ≤ (1 : ℤ) * 2 ^ Int.log 2 q' := by
      have hlog : Int.log 2 q < Int.log 2 q' := by omega
      have hpower := (Int.lt_zpow_iff_log_lt one_lt_two hq).mpr hlog
      rw [Int.cast_one, one_mul]
      exact_mod_cast hpower.le
    have habove : (1 : ℤ) * 2 ^ Int.log 2 q' ≤ q' := by
      rw [Int.cast_one, one_mul]
      exact_mod_cast Int.zpow_log_le_self one_lt_two hq'
    exact (round_le (by omega) hbelow).trans (le_round (by omega) habove)

/-- Numbers that are further apart than a unit in the last place are rounded apart. -/
theorem round_lt_round (hq : 0 ≤ q) (h : q + 2 ^ f.lastPlace q' < q') : f.round q < f.round q' := by
  have hpow : (0 : ℚ) < 2 ^ f.lastPlace q' := by positivity
  have hnear' := (abs_le.mp (f.abs_round_sub_le q')).1
  rcases hq.eq_or_lt with rfl | hpos
  · rw [round_zero]
    linarith
  · have hnear := (abs_le.mp (f.abs_round_sub_le q)).2
    have hplaces : (2 : ℚ) ^ f.lastPlace q ≤ 2 ^ f.lastPlace q' :=
      zpow_le_zpow_right₀ one_le_two (lastPlace_mono hpos (by linarith))
    linarith

/-! ## Words -/

/-- What a word of the format can denote without its sign, but for the range of the exponent. -/
def Representable (f : Format) (q : ℚ) : Prop :=
  ∃ m e : ℤ, |m| < 2 ^ (f.fractionBits + 1) ∧ 1 - f.bias - f.fractionBits ≤ e ∧ q = m * 2 ^ e

theorem representable_round (hq : 0 ≤ q) : f.Representable (f.round q) := by
  rcases hq.eq_or_lt with rfl | hpos
  · refine ⟨0, 1 - f.bias - f.fractionBits, by positivity, le_rfl, ?_⟩
    rw [round_zero, Int.cast_zero, zero_mul]
  · have hpow : (0 : ℚ) < 2 ^ f.lastPlace q := by positivity
    have hunits : q / 2 ^ f.lastPlace q ≤ (2 ^ (f.fractionBits + 1) : ℤ) := by
      rw [div_le_iff₀ hpow]
      push_cast
      exact (lt_two_pow_lastPlace hpos).le
    have hnonneg : 0 ≤ nearestEven (q / 2 ^ f.lastPlace q) :=
      le_nearestEven (by rw [Int.cast_zero]; positivity)
    rcases (nearestEven_le hunits).lt_or_eq with hlt | hcarry
    · exact ⟨_, _, by rwa [abs_of_nonneg hnonneg], f.min_le_lastPlace q, rfl⟩
    -- the carry leaves a power of two, with one place less
    · refine ⟨2 ^ f.fractionBits, f.lastPlace q + 1, ?_, ?_, ?_⟩
      · rw [abs_of_pos (by positivity)]
        exact pow_lt_pow_right₀ one_lt_two (Nat.lt_succ_self _)
      · have hmin := f.min_le_lastPlace q
        omega
      · rw [round, hcarry, zpow_add_one₀ two_ne_zero]
        push_cast
        ring

/-- The word of a number that has one. -/
def word (f : Format) (q : ℚ) : ℕ :=
  let m := ⌊q / 2 ^ f.lastPlace q⌋.toNat
  if m < 2 ^ f.fractionBits then f.pack false 0 m
  else f.pack false (f.lastPlace q + f.bias + f.fractionBits).toNat (m - 2 ^ f.fractionBits)

theorem Representable.eq_units (h : f.Representable q) (hq : 0 ≤ q) :
    q = (⌊q / 2 ^ f.lastPlace q⌋.toNat : ℚ) * 2 ^ f.lastPlace q := by
  have hpow : (0 : ℚ) < 2 ^ f.lastPlace q := by positivity
  obtain ⟨m, e, hdigits, he, rfl⟩ := h
  by_cases hm : m = 0
  · simp [hm]
  · have hunits := div_two_pow_eq (m := m) (lastPlace_le hm hdigits he)
    have hnonneg := div_nonneg hq hpow.le
    rw [hunits] at hnonneg
    have hnat : ((m * 2 ^ (e - f.lastPlace (m * 2 ^ e)).toNat : ℤ).toNat : ℚ) =
        (m * 2 ^ (e - f.lastPlace (m * 2 ^ e)).toNat : ℤ) := by
      exact_mod_cast Int.toNat_of_nonneg (by exact_mod_cast hnonneg)
    rw [hunits, Int.floor_intCast, hnat, ← hunits, div_mul_cancel₀ _ hpow.ne']

/-- What would be a fraction without the hidden bit is at the lowest place. -/
theorem lastPlace_eq_of_lt (hq : 0 < q) (hlt : q < 2 ^ f.fractionBits * 2 ^ f.lastPlace q) :
    f.lastPlace q = 1 - f.bias - f.fractionBits := by
  have hplace := lastPlace_of_pos hq (f := f)
  rcases max_cases (Int.log 2 q - f.fractionBits) (1 - f.bias - f.fractionBits : ℤ) with
    ⟨heq, -⟩ | ⟨heq, -⟩
  · rw [hplace, heq, ← zpow_natCast, ← zpow_add₀ two_ne_zero, add_sub_cancel] at hlt
    have hle := Int.zpow_log_le_self (R := ℚ) one_lt_two hq
    rw [Nat.cast_ofNat] at hle
    exact absurd hlt (not_lt.mpr hle)
  · rw [hplace, heq]

/-- The fields of a word. -/
theorem Representable.word_eq_pack (h : f.Representable q) (hq : 0 ≤ q)
    (hlt : q < 2 ^ (f.bias + 1 : ℤ)) : ∃ exponent fraction,
      f.word q = f.pack false exponent fraction ∧ exponent < f.special ∧
        fraction < 2 ^ f.fractionBits ∧ f.magnitude exponent fraction = q := by
  have hunits := h.eq_units hq
  have hspecial := f.special_eq
  unfold word
  dsimp only
  generalize ⌊q / 2 ^ f.lastPlace q⌋.toNat = m at hunits ⊢
  split_ifs with hsubnormal
  · refine ⟨0, m, rfl, by omega, hsubnormal, ?_⟩
    rw [magnitude, if_pos rfl]
    by_cases hm : m = 0
    · rw [hunits, hm, Nat.cast_zero, zero_mul, zero_mul]
    · have hq' : 0 < q := by
        rw [hunits]
        positivity
      have hplace : f.lastPlace q = 1 - f.bias - f.fractionBits := by
        apply lastPlace_eq_of_lt hq'
        calc
          q = m * 2 ^ f.lastPlace q := hunits
          _ < 2 ^ f.fractionBits * 2 ^ f.lastPlace q :=
            mul_lt_mul_of_pos_right (by exact_mod_cast hsubnormal) (by positivity)
      rw [← hplace]
      exact hunits.symm
  · have hhidden : (2 ^ f.fractionBits : ℚ) ≤ m := by exact_mod_cast not_lt.mp hsubnormal
    have hscaled : (2 : ℚ) ^ (f.fractionBits + f.lastPlace q) ≤ q := by
      calc
        (2 : ℚ) ^ (f.fractionBits + f.lastPlace q) = 2 ^ f.fractionBits * 2 ^ f.lastPlace q := by
          rw [zpow_add₀ two_ne_zero, zpow_natCast]
        _ ≤ m * 2 ^ f.lastPlace q := mul_le_mul_of_nonneg_right hhidden (by positivity)
        _ = q := hunits.symm
    have hq' : 0 < q := lt_of_lt_of_le (by positivity) hscaled
    have htop := (zpow_lt_zpow_iff_right₀ (one_lt_two (α := ℚ))).mp (hscaled.trans_lt hlt)
    have hmin := f.min_le_lastPlace q
    have hdigits : m < 2 ^ f.fractionBits + 2 ^ f.fractionBits := by
      have hless := hunits.symm.trans_lt (lt_two_pow_lastPlace hq' (f := f))
      have hless' := lt_of_mul_lt_mul_right hless (by positivity)
      rw [← two_mul, ← pow_succ']
      exact_mod_cast hless'
    have hplace : f.lastPlace q + f.bias + f.fractionBits - f.bias - f.fractionBits =
        f.lastPlace q := by ring
    refine ⟨_, _, rfl, by omega, by omega, ?_⟩
    rw [magnitude, if_neg (by omega), Int.toNat_of_nonneg (by omega),
      Nat.cast_sub (not_lt.mp hsubnormal)]
    push_cast
    rw [add_sub_cancel, hplace, ← hunits]

theorem special_lt (f : Format) : f.special < 2 ^ f.exponentBits :=
  Nat.sub_lt (by positivity) Nat.one_pos

/-- A word denotes its number. -/
theorem Representable.number_word (h : f.Representable q) (hq : 0 ≤ q)
    (hlt : q < 2 ^ (f.bias + 1 : ℤ)) : f.number (f.word q) = .finite false q := by
  obtain ⟨exponent, fraction, hword, hexponent, hfraction, hmagnitude⟩ := h.word_eq_pack hq hlt
  rw [hword, number_pack (hexponent.trans f.special_lt) hfraction, denote_finite hexponent.ne,
    hmagnitude]

/-- The sign bit of a word is clear. -/
theorem Representable.word_lt (h : f.Representable q) (hq : 0 ≤ q) (hlt : q < 2 ^ (f.bias + 1 : ℤ)) :
    f.word q < 2 ^ (f.fractionBits + f.exponentBits) := by
  obtain ⟨exponent, fraction, hword, hexponent, hfraction, -⟩ := h.word_eq_pack hq hlt
  have hfield : exponent + 1 ≤ 2 ^ f.exponentBits := hexponent.trans f.special_lt
  rw [hword, pack]
  calc
    2 ^ f.fractionBits * (2 ^ f.exponentBits * false.toNat + exponent) + fraction <
        2 ^ f.fractionBits * (exponent + 1) := by
      rw [Bool.toNat_false, mul_zero, zero_add, mul_add, mul_one]
      exact Nat.add_lt_add_left hfraction _
    _ ≤ 2 ^ f.fractionBits * 2 ^ f.exponentBits := Nat.mul_le_mul_left _ hfield
    _ = 2 ^ (f.fractionBits + f.exponentBits) := (pow_add _ _ _).symm

/-! ## Signs -/

theorem lastPlace_neg (f : Format) (q : ℚ) : f.lastPlace (-q) = f.lastPlace q := by
  rw [lastPlace, lastPlace, abs_neg]

theorem round_neg (f : Format) (q : ℚ) : f.round (-q) = -f.round q := by
  rw [round, lastPlace_neg, neg_div, nearestEven_neg, Int.cast_neg, neg_mul]
  rfl

theorem abs_round (f : Format) (q : ℚ) : |f.round q| = f.round |q| := by
  rcases abs_cases q with ⟨heq, hq⟩ | ⟨heq, hq⟩
  · rw [heq, abs_of_nonneg (f.round_nonneg hq)]
  · have hnonneg := f.round_nonneg (q := -q) (by linarith)
    rw [heq, ← abs_neg, ← round_neg, abs_of_nonneg hnonneg]

theorem Representable.round_eq (h : f.Representable q) : f.round q = q := by
  obtain ⟨m, e, hdigits, he, rfl⟩ := h
  exact round_eq_self hdigits he

/-- A bound that is a number of the format outlasts rounding. -/
theorem abs_round_le {bound : ℚ} (hbound : f.Representable bound) (h : |q| ≤ bound) :
    |f.round q| ≤ bound := by
  rw [abs_round]
  rcases (abs_nonneg q).eq_or_lt with hzero | hpos
  · rw [← hzero, round_zero, hzero]
    exact h
  · rw [← hbound.round_eq]
    exact round_mono hpos h

/-- A multiple of the least number, as all results are and their sums. -/
def OnGrid (f : Format) (q : ℚ) : Prop := ∃ m : ℤ, q = m * 2 ^ (1 - f.bias - f.fractionBits : ℤ)

theorem Representable.onGrid (h : f.Representable q) : f.OnGrid q := by
  obtain ⟨m, e, -, he, rfl⟩ := h
  refine ⟨m * 2 ^ (e - (1 - f.bias - f.fractionBits)).toNat, ?_⟩
  push_cast
  rw [mul_assoc, ← zpow_natCast, Int.toNat_of_nonneg (by omega), ← zpow_add₀ two_ne_zero,
    sub_add_cancel]

theorem onGrid_round (f : Format) (q : ℚ) : f.OnGrid (f.round q) := by
  have hplace := f.min_le_lastPlace q
  refine ⟨nearestEven (q / 2 ^ f.lastPlace q) *
    2 ^ (f.lastPlace q - (1 - f.bias - f.fractionBits)).toNat, ?_⟩
  push_cast
  rw [mul_assoc, ← zpow_natCast, Int.toNat_of_nonneg (by omega), ← zpow_add₀ two_ne_zero,
    sub_add_cancel]
  rfl

theorem OnGrid.neg (h : f.OnGrid q) : f.OnGrid (-q) := by
  obtain ⟨m, rfl⟩ := h
  exact ⟨-m, by push_cast; ring⟩

theorem OnGrid.add {q' : ℚ} (h : f.OnGrid q) (h' : f.OnGrid q') : f.OnGrid (q + q') := by
  obtain ⟨m, rfl⟩ := h
  obtain ⟨m', rfl⟩ := h'
  exact ⟨m + m', by push_cast; ring⟩

theorem OnGrid.round_pos (h : f.OnGrid q) (hq : 0 < q) : 0 < f.round q := by
  have hpow : (0 : ℚ) < 2 ^ (1 - f.bias - f.fractionBits : ℤ) := by positivity
  obtain ⟨m, rfl⟩ := h
  have hm : 0 < m := by
    have hcast : (0 : ℚ) < m := (mul_pos_iff_of_pos_right hpow).mp hq
    exact_mod_cast hcast
  have hleast : f.round (2 ^ (1 - f.bias - f.fractionBits : ℤ)) =
      2 ^ (1 - f.bias - f.fractionBits : ℤ) := by
    have hself := round_eq_self (f := f) (m := 1) (e := 1 - f.bias - f.fractionBits)
      (by rw [abs_one]; exact one_lt_pow₀ one_lt_two (Nat.succ_ne_zero _)) le_rfl
    simpa using hself
  calc
    0 < 2 ^ (1 - f.bias - f.fractionBits : ℤ) := hpow
    _ = f.round (2 ^ (1 - f.bias - f.fractionBits : ℤ)) := hleast.symm
    _ ≤ f.round (m * 2 ^ (1 - f.bias - f.fractionBits : ℤ)) := by
      apply round_mono hpow
      apply le_mul_of_one_le_left hpow.le
      exact_mod_cast hm

/-- Rounding does not change the sign of a sum of numbers. -/
theorem OnGrid.round_neg_iff (h : f.OnGrid q) : f.round q < 0 ↔ q < 0 := by
  constructor
  · intro hround
    by_contra hq
    exact absurd (f.round_nonneg (not_lt.mp hq)) (not_le.mpr hround)
  · intro hq
    have hpos := h.neg.round_pos (neg_pos.mpr hq)
    rw [round_neg] at hpos
    exact neg_pos.mp hpos

end Format

/-! ## Shares of doubles -/

section Binary64

/-- Counts of less than 54 bits are numbers of the format. -/
theorem binary64_round_natCast {n : ℕ} (hn : n < 2 ^ 53) : binary64.round n = n := by
  have hself := Format.round_eq_self (f := binary64) (m := n) (e := 0)
    (by rw [Nat.abs_cast]; exact_mod_cast hn) (by decide)
  simpa using hself

variable {q : ℚ}

theorem round_le_one (hq : 0 ≤ q) (hle : q ≤ 1) : binary64.round q ≤ 1 := by
  have hone : binary64.round 1 = 1 := by exact_mod_cast binary64_round_natCast (n := 1) (by norm_num)
  rcases hq.eq_or_lt with rfl | hpos
  · rw [Format.round_zero]
    exact zero_le_one
  · rw [← hone]
    exact Format.round_mono hpos hle

/-- A share is off by one part in 2^53 at most. -/
theorem abs_round_share_sub_le (hq : 0 ≤ q) (hle : q ≤ 1) :
    |binary64.round q - q| ≤ 1 / 2 ^ 53 := by
  rcases hq.eq_or_lt with rfl | hpos
  · rw [Format.round_zero, sub_zero, abs_zero]
    positivity
  · have hplace : binary64.lastPlace q ≤ -52 :=
      Format.lastPlace_le_of_lt (f := binary64) (k := 0) hpos (by norm_num; linarith) (by decide)
    calc
      |binary64.round q - q| ≤ 2 ^ binary64.lastPlace q / 2 := Format.abs_round_sub_le _ _
      _ ≤ 2 ^ (-52 : ℤ) / 2 := by
        apply div_le_div_of_nonneg_right _ two_pos.le
        exact zpow_le_zpow_right₀ one_le_two hplace
      _ = 1 / 2 ^ 53 := by norm_num

end Binary64

end Zenith.BinaryFloat
