import Zenith.Rf.Noise

/-!
# The link budget

What the noise of a channel does to the link. A modem decides every bit by the sign of one component
of a symbol, so that a bit can only be wrong if the noise in that component outweighs the symbol. The
code repairs one such bit in each codeword, and above a certain ratio of energy to noise there is none.
-/

namespace Zenith.Rf

open BlockCode BinaryFloat Rust

/-! ## Error rates -/

def bitErrorRate (a b : List Bool) : ℚ :=
  let n := min a.length b.length
  if n = 0 then 0
  else
    let errors := (((a.zip b).take n).filter fun p ↦ p.1 != p.2).length
    binary64.round (binary64.round errors / binary64.round n)

theorem bitErrorRate_append_right (bits padding : List Bool) :
    bitErrorRate bits (bits ++ padding) = 0 := by
  have hnone : ((bits.zip (bits ++ padding)).take (min bits.length (bits ++ padding).length)).filter
      (fun p ↦ p.1 != p.2) = [] := by
    rw [List.filter_eq_nil_iff]
    intro p hp
    obtain ⟨i, hi⟩ := List.mem_iff_getElem?.mp (List.mem_of_mem_take hp)
    rw [List.getElem?_zip_eq_some] at hi
    have hlt : i < bits.length := (List.getElem?_eq_some_iff.mp hi.1).1
    rw [List.getElem?_append_left hlt, hi.1] at hi
    simp [Option.some.inj hi.2]
  unfold bitErrorRate
  dsimp only
  rw [hnone]
  simp

/-! ## Decisions -/

/-- The sign that stands for a bit, `distance` away from where it is decided. -/
def level (distance : ℚ) (b : Bool) : ℚ := if b then -distance else distance

/-- How a modem lays its bits out in the components of symbols. -/
structure Keying (modem : Modem) where
  distance : ℚ
  components : List Complex → List ℚ
  onGrid_distance : binary64.OnGrid distance
  length_components : ∀ symbols, (components symbols).length = modem.bitsPerSymbol * symbols.length
  mem_components : ∀ symbols, ∀ x ∈ components symbols, ∃ s ∈ symbols, x = s.re ∨ x = s.im
  components_zipWith : ∀ symbols noise,
    components (List.zipWith Complex.add symbols noise) =
      List.zipWith (fun x y ↦ binary64.round (x + y)) (components symbols) (components noise)
  components_modulate : ∀ bits, ∃ padding,
    components (modem.modulate bits) = (bits ++ padding).map (level distance)
  demodulate_eq : ∀ symbols, modem.demodulate symbols = (components symbols).map fun x ↦ decide (x < 0)
  lawful : modem.Lawful
  bitsPerSymbol_le : modem.bitsPerSymbol ≤ 7

def keyingBpsk : Keying Bpsk where
  distance := 1
  components symbols := symbols.map (·.re)
  onGrid_distance := Format.Representable.onGrid ⟨1, 0, by decide, by decide, by norm_num⟩
  length_components symbols := by
    rw [List.length_map]
    exact (Nat.one_mul _).symm
  mem_components symbols x hx := by
    obtain ⟨s, hs, rfl⟩ := List.mem_map.mp hx
    exact ⟨s, hs, .inl rfl⟩
  components_zipWith symbols noise := by
    rw [List.map_zipWith, List.zipWith_map]
    rfl
  components_modulate bits := by
    refine ⟨[], ?_⟩
    rw [List.append_nil]
    change (Bpsk.modulate bits).map (·.re) = _
    rw [Bpsk.modulate, List.map_map]
    rfl
  demodulate_eq symbols := by
    rw [List.map_map]
    rfl
  lawful := lawful_bpsk
  bitsPerSymbol_le := by decide

theorem Qpsk.components_symbol {pair : List Bool} (h : pair.length = 2) :
    [(symbol pair).re, (symbol pair).im] = pair.map (level invSqrt2) := by
  obtain ⟨i, q, rfl⟩ := List.length_eq_two.mp h
  rfl

def keyingQpsk : Keying Qpsk where
  distance := invSqrt2
  components symbols := symbols.flatMap fun s ↦ [s.re, s.im]
  onGrid_distance :=
    Format.Representable.onGrid ⟨0x16A09E667F3BCD, -53, by decide, by decide, by norm_num [invSqrt2]⟩
  length_components symbols := by
    rw [List.length_flatMap]
    simp [Qpsk, Nat.mul_comm]
  mem_components symbols x hx := by
    obtain ⟨s, hs, hx⟩ := List.mem_flatMap.mp hx
    simp only [List.mem_cons, List.not_mem_nil, or_false] at hx
    exact ⟨s, hs, hx⟩
  components_zipWith symbols noise := by
    induction symbols generalizing noise with
    | nil => rfl
    | cons s symbols ih =>
      cases noise with
      | nil => simp
      | cons y noise => simpa [Complex.add] using ih noise
  components_modulate bits := by
    obtain ⟨pairs, hpairs, hflatten⟩ := exists_blocks_padToMultiple (n := 2) (by decide) bits
    refine ⟨List.replicate ((2 - bits.length % 2) % 2) false, ?_⟩
    change (Qpsk.modulate bits).flatMap (fun s ↦ [s.re, s.im]) = _
    rw [← padToMultiple_eq (by decide), ← hflatten, Qpsk.modulate, ← hflatten,
      chunks_flatten (by decide) hpairs, List.flatMap_map, List.flatMap_def, List.map_flatten]
    congr 1
    apply List.map_congr_left
    intro pair hpair
    exact Qpsk.components_symbol (hpairs pair hpair)
  demodulate_eq symbols := by
    rw [List.map_flatMap]
    rfl
  lawful := lawful_qpsk
  bitsPerSymbol_le := by decide

/-- A component keeps its sign if the noise is smaller than the distance. -/
theorem decide_level {distance x : ℚ} (hdistance : binary64.OnGrid distance) (hx : binary64.OnGrid x)
    (h : |x| < distance) (b : Bool) : decide (binary64.round (level distance b + x) < 0) = b := by
  obtain ⟨hlow, hhigh⟩ := abs_lt.mp h
  cases b with
  | false =>
    have hsum : ¬binary64.round (level distance false + x) < 0 := by
      change ¬binary64.round (distance + x) < 0
      rw [(hdistance.add hx).round_neg_iff]
      linarith
    exact decide_eq_false hsum
  | true =>
    have hsum : binary64.round (level distance true + x) < 0 := by
      change binary64.round (-distance + x) < 0
      rw [(hdistance.neg.add hx).round_neg_iff]
      linarith
    exact decide_eq_true hsum

/-! ## Noise and wrong bits -/

/-- The noise in the component that carries bit `p` reaches the distance. -/
def Keying.Loud {modem : Modem} (k : Keying modem) (noise : List Complex) (p : ℕ) : Prop :=
  (k.components noise)[p]?.any (fun x ↦ k.distance ≤ |x|) = true

instance {modem : Modem} (k : Keying modem) (noise : List Complex) (p : ℕ) :
    Decidable (k.Loud noise p) := inferInstanceAs (Decidable (_ = true))

namespace AwgnChannel

/-- What the channel makes of the symbols of a packet. -/
def carry (lib : Libm) (c : AwgnChannel) (symbols : List Complex) : List Complex :=
  (transmit lib symbols c).1

variable {modem : Modem} {lib : Libm} {c : AwgnChannel}

/-- A bit is received as it was sent unless the noise in its component is loud. -/
theorem getElem?_demodulate (k : Keying modem) {bits : List Bool} {p : ℕ} (hp : p < bits.length)
    (hquiet : ¬k.Loud (noises lib (modem.modulate bits).length c) p) :
    (modem.demodulate (c.carry lib (modem.modulate bits)))[p]? = bits[p]? := by
  obtain ⟨padding, hcomponents⟩ := k.components_modulate bits
  have hsent : (k.components (modem.modulate bits))[p]? = some (level k.distance bits[p]) := by
    rw [hcomponents, List.getElem?_map, List.getElem?_append_left hp, List.getElem?_eq_getElem hp]
    rfl
  have hlength : p < (k.components (noises lib (modem.modulate bits).length c)).length := by
    rw [k.length_components, length_noises, ← k.length_components]
    exact (List.getElem?_eq_some_iff.mp hsent).1
  have hnoise := List.getElem?_eq_getElem hlength
  generalize (k.components (noises lib (modem.modulate bits).length c))[p] = x at hnoise
  have hx : |x| < k.distance := by
    unfold Keying.Loud at hquiet
    rw [hnoise] at hquiet
    simpa using hquiet
  have hgrid : binary64.OnGrid x := by
    obtain ⟨s, hs, hcomponent⟩ := k.mem_components _ x (List.mem_of_getElem? hnoise)
    obtain ⟨hre, him⟩ := onGrid_noises lib _ c s hs
    rcases hcomponent with rfl | rfl
    · exact hre
    · exact him
  rw [carry, transmit_eq, k.demodulate_eq, k.components_zipWith, List.getElem?_map,
    List.getElem?_zipWith, hsent, hnoise, List.getElem?_eq_getElem hp]
  exact congrArg some (decide_level k.onGrid_distance hgrid hx _)

/-- A codeword has as many wrong bits as loud components at most. -/
theorem errors_le (k : Keying modem) {bits : List Bool} {n i : ℕ} (hi : n * (i + 1) ≤ bits.length) :
    errors n bits (modem.demodulate (c.carry lib (modem.modulate bits))) i ≤
      ((Finset.range n).filter fun j ↦
        k.Loud (noises lib (modem.modulate bits).length c) (n * i + j)).card := by
  apply Finset.card_le_card
  intro j hj
  rw [Finset.mem_filter, Finset.mem_range] at hj ⊢
  refine ⟨hj.1, ?_⟩
  by_contra hquiet
  apply hj.2
  apply getElem?_demodulate k _ hquiet
  rw [Nat.mul_succ] at hi
  omega

/-- A deviation that the largest sample cannot bring to the distance leaves every component quiet. -/
theorem not_loud (h : lib.Accurate) (k : Keying modem) {bound : ℚ}
    (hbound : binary64.Representable bound) (hlt : bound < k.distance)
    (hstd : |c.noiseStd| * Rng.gaussianBound ≤ bound) (n p : ℕ) : ¬k.Loud (noises lib n c) p := by
  intro hloud
  unfold Keying.Loud at hloud
  rw [Option.any_eq_true] at hloud
  obtain ⟨x, hx, hle⟩ := hloud
  obtain ⟨s, hs, hcomponent⟩ := k.mem_components _ x (List.mem_of_getElem? hx)
  obtain ⟨hre, him⟩ := noises_mem h hbound hstd n s hs
  have hsmall : |x| ≤ bound := by
    rcases hcomponent with rfl | rfl
    · exact hre
    · exact him
  exact absurd (hsmall.trans_lt hlt) (not_lt.mpr (of_decide_eq_true hle))

theorem card_loud (h : lib.Accurate) (k : Keying modem) {bound : ℚ}
    (hbound : binary64.Representable bound) (hlt : bound < k.distance)
    (hstd : |c.noiseStd| * Rng.gaussianBound ≤ bound) (n i : ℕ) :
    ((Finset.range 7).filter fun j ↦ k.Loud (noises lib n c) (7 * i + j)).card ≤ 1 := by
  rw [Finset.filter_false_of_mem fun j _ ↦ not_loud h k hbound hlt hstd n _]
  exact Nat.zero_le 1

theorem simulateLink_carry (k : Keying modem) (lib : Libm) (c : AwgnChannel) (bits : List Bool)
    (hquiet : ∀ i < (Hamming74.encode bits).length / 7,
      ((Finset.range 7).filter fun j ↦
        k.Loud (noises lib (modem.modulate (Hamming74.encode bits)).length c) (7 * i + j)).card ≤ 1) :
    simulateLink bits modem Hamming74 (c.carry lib) = padToMultiple bits 4 := by
  apply simulateLink_eq k.lawful k.bitsPerSymbol_le
  · exact fun symbols ↦ length_transmit lib symbols c
  · intro i hi
    apply (errors_le k _).trans (hquiet i hi)
    omega

/-- The link returns the bits it was given, and the padding of the last block, if the noise is loud in
one component of each codeword at most. -/
theorem link_corrects (k : Keying modem) (lib : Libm) (c : AwgnChannel) (bits : List Bool)
    (hquiet : ∀ i < (Hamming74.encode bits).length / 7,
      ((Finset.range 7).filter fun j ↦
        k.Loud (noises lib (modem.modulate (Hamming74.encode bits)).length c) (7 * i + j)).card ≤ 1) :
    simulateLink bits modem Hamming74 (c.carry lib) =
      bits ++ List.replicate ((4 - bits.length % 4) % 4) false := by
  rw [simulateLink_carry k lib c bits hquiet, padToMultiple_eq (by decide)]

/-- The components of a symbol get the samples of the generator in turn. -/
theorem getElem?_components_noises (lib : Libm) (n : ℕ) (c : AwgnChannel) {p : ℕ} (hp : p < 2 * n) :
    (keyingQpsk.components (noises lib n c))[p]? =
      some (binary64.round (c.noiseStd * ((Rng.step^[2 * p] c.rng).nextGaussian lib).1)) := by
  induction n generalizing c p with
  | zero => omega
  | succ n ih =>
    rcases p with _ | _ | p
    · rfl
    · rfl
    · have hrest := ih (c.noise lib).2 (p := p) (by omega)
      have hsteps : 2 * (p + 1 + 1) = 2 * p + 4 * 1 := by ring
      rw [noise_snd, skip] at hrest
      rw [hsteps, Function.iterate_add_apply, ← hrest]
      rfl

/-- A channel whose second sample is far out and whose other samples for a codeword are near. -/
def jarred : AwgnChannel := new (1 / 2) 13433

theorem loud_jarred : keyingQpsk.Loud (noises Libm.truncated 4 jarred) 1 := by
  have hsample : 3 / 2 ≤ ((Rng.step^[2 * 1] jarred.rng).nextGaussian Libm.truncated).1 :=
    Rng.le_nextGaussian Libm.accurate_truncated (by decide +kernel) (by decide +kernel)
  have hthree : binary64.Representable (3 / 4) := ⟨3, -2, by decide, by decide, by norm_num⟩
  have hnoise : 3 / 4 ≤
      binary64.round (jarred.noiseStd * ((Rng.step^[2 * 1] jarred.rng).nextGaussian Libm.truncated).1) := by
    rw [← hthree.round_eq]
    apply Format.round_mono (by norm_num)
    change 3 / 4 ≤ 1 / 2 * _
    linarith
  unfold Keying.Loud
  rw [getElem?_components_noises _ _ _ (by decide)]
  apply decide_eq_true
  calc
    keyingQpsk.distance ≤ 3 / 4 := by norm_num [keyingQpsk, invSqrt2]
    _ ≤ _ := hnoise.trans (le_abs_self _)

theorem quiet_jarred {p : ℕ} (hp : p < 7) (hne : p ≠ 1) :
    ¬keyingQpsk.Loud (noises Libm.truncated 4 jarred) p := by
  have hnear : ∀ p < 7, p ≠ 1 →
      1 / 2 ^ 1 ≤ binary64.round (1 - (Rng.step^[2 * p] jarred.rng).nextF64.1) := by decide +kernel
  have hsample := Rng.reach_half.abs_nextGaussian_le Libm.accurate_truncated (hnear p hp hne)
  have hbound : binary64.Representable (19 / 32) := ⟨19, -5, by decide, by decide, by norm_num⟩
  intro hloud
  unfold Keying.Loud at hloud
  rw [getElem?_components_noises _ _ _ (by omega)] at hloud
  have hle : |binary64.round
      (jarred.noiseStd * ((Rng.step^[2 * p] jarred.rng).nextGaussian Libm.truncated).1)| ≤ 19 / 32 := by
    apply Format.abs_round_le hbound
    rw [abs_mul]
    change |(1 : ℚ) / 2| * _ ≤ _
    norm_num
    linarith
  have hdistance : (19 : ℚ) / 32 < keyingQpsk.distance := by norm_num [keyingQpsk, invSqrt2]
  exact absurd ((of_decide_eq_true hloud).trans hle) (not_le.mpr hdistance)

theorem link_corrects_jarred : keyingQpsk.Loud (noises Libm.truncated 4 jarred) 1 ∧
    simulateLink [true, false, true] Qpsk Hamming74 (jarred.carry Libm.truncated) =
      [true, false, true, false] := by
  refine ⟨loud_jarred, link_corrects keyingQpsk Libm.truncated jarred [true, false, true] fun i hi ↦ ?_⟩
  have hblocks : (Hamming74.encode [true, false, true]).length / 7 = 1 := by decide
  have hsymbols : (Modem.modulate Qpsk (Hamming74.encode [true, false, true])).length = 4 := by decide
  obtain rfl : i = 0 := by omega
  rw [hsymbols]
  calc
    _ ≤ ({1} : Finset ℕ).card := by
      apply Finset.card_le_card
      intro j hj
      rw [Finset.mem_filter, Finset.mem_range] at hj
      by_contra hne
      exact quiet_jarred hj.1 (Finset.mem_singleton.not.mp hne) (by simpa using hj.2)
    _ = 1 := rfl

/-! ## Budgets -/

/-- The ratio `Es/N0` is given in decibels, for symbols of unit energy. -/
def fromEsN0Db (lib : Libm) (esN0Db : ℚ) (seed : UInt64) : AwgnChannel :=
  let esN0 := lib.powf 10 (binary64.round (esN0Db / 10))
  let n0 := binary64.round (1 / esN0)
  new (lib.sqrt (binary64.round (n0 / 2))) seed

theorem log_ten_le : Real.log 10 ≤ 7 / 3 := by
  have htwo := Real.log_two_lt_d9
  have hpow : Real.log (10 ^ 3) ≤ Real.log (2 ^ 10) := Real.log_le_log (by norm_num) (by norm_num)
  rw [Real.log_pow, Real.log_pow] at hpow
  push_cast at hpow
  linarith

/-- The ratio of energies, from a bound `low` on its exponent and the power `gain` below ten to it. -/
theorem le_powf_ten (h : lib.Accurate) {low gain y : ℚ} (hlow : 0 < low) (hy : low ≤ y)
    (hfinite : y ≤ 300) (hpower : (gain : ℝ) ≤ (10 : ℝ) ^ (low : ℝ)) :
    (1 - Libm.tolerance) * gain ≤ lib.powf 10 y := by
  have hlowy : (low : ℝ) ≤ y := by exact_mod_cast hy
  have hlowpos : (0 : ℝ) < low := by exact_mod_cast hlow
  have hbound := (Rat.cast_le (K := ℝ)).mpr hfinite
  push_cast at hbound
  have hten : (0 : ℝ) ≤ Real.log 10 := Real.log_nonneg (by norm_num)
  have hlog : |(y : ℝ) * Real.log (10 : ℚ)| ≤ 700 := by
    push_cast
    rw [abs_of_nonneg (mul_nonneg (by linarith) hten)]
    calc
      (y : ℝ) * Real.log 10 ≤ 300 * (7 / 3) :=
        mul_le_mul hbound log_ten_le hten (by norm_num)
      _ = 700 := by norm_num
  have hpowf := h.le_powf (by norm_num) hlog
  push_cast at hpowf
  have hmono : (10 : ℝ) ^ (low : ℝ) ≤ (10 : ℝ) ^ (y : ℝ) :=
    Real.rpow_le_rpow_of_exponent_le (by norm_num) hlowy
  have htolerance : (0 : ℝ) ≤ 1 - Libm.tolerance := by norm_num [Libm.tolerance]
  have hcast : ((1 - Libm.tolerance) * gain : ℝ) ≤ lib.powf 10 y := by
    calc
      ((1 - Libm.tolerance) * gain : ℝ) ≤ (1 - Libm.tolerance) * (10 : ℝ) ^ (y : ℝ) :=
        mul_le_mul_of_nonneg_left (hpower.trans hmono) htolerance
      _ ≤ lib.powf 10 y := hpowf
  exact_mod_cast hcast

/-- What makes `std` a bound on the deviation from `low` tenths of a decibel on: the power `gain` is
below ten to it, and the energy `n0` above the inverse. -/
structure Budget (low gain n0 std : ℚ) : Prop where
  representable_low : binary64.Representable low
  low_pos : 0 < low
  gain_pos : 0 < gain
  power : (gain : ℝ) ≤ (10 : ℝ) ^ (low : ℝ)
  representable_n0 : binary64.Representable n0
  inverse : 1 ≤ n0 * ((1 - Libm.tolerance) * gain)
  representable_half : binary64.Representable (n0 / 2)
  std_nonneg : 0 ≤ std
  root : (1 + Libm.tolerance) ^ 2 * (n0 / 2) ≤ std ^ 2

theorem Budget.noiseStd_le {low gain n0 std : ℚ} (hbudget : Budget low gain n0 std)
    (h : lib.Accurate) {esN0Db : ℚ} (hrange : low ≤ esN0Db / 10) (hfinite : esN0Db ≤ 3000)
    (seed : UInt64) : |(fromEsN0Db lib esN0Db seed).noiseStd| ≤ std := by
  have hlow : low ≤ binary64.round (esN0Db / 10) := by
    rw [← hbudget.representable_low.round_eq]
    exact Format.round_mono hbudget.low_pos hrange
  have hhigh : binary64.round (esN0Db / 10) ≤ 300 := by
    have hthreehundred : binary64.Representable 300 := ⟨300, 0, by decide, by decide, by norm_num⟩
    rw [← hthreehundred.round_eq]
    exact Format.round_mono (hbudget.low_pos.trans_le hrange) (by linarith)
  have hesN0 := le_powf_ten h hbudget.low_pos hlow hhigh hbudget.power
  have htolerance : (0 : ℚ) < 1 - Libm.tolerance := by norm_num [Libm.tolerance]
  have hpos : 0 < lib.powf 10 (binary64.round (esN0Db / 10)) :=
    (mul_pos htolerance hbudget.gain_pos).trans_le hesN0
  have hinverse : 1 / lib.powf 10 (binary64.round (esN0Db / 10)) ≤ n0 := by
    rw [div_le_iff₀ hpos]
    have hn0 : 0 ≤ n0 := by
      by_contra hneg
      have hproduct := mul_pos htolerance hbudget.gain_pos
      have hone := hbudget.inverse
      nlinarith
    exact hbudget.inverse.trans (mul_le_mul_of_nonneg_left hesN0 hn0)
  have hn0 : |binary64.round (1 / lib.powf 10 (binary64.round (esN0Db / 10)))| ≤ n0 := by
    apply Format.abs_round_le hbudget.representable_n0
    rwa [abs_of_pos (by positivity)]
  have hnonneg : 0 ≤ binary64.round (1 / lib.powf 10 (binary64.round (esN0Db / 10))) :=
    Format.round_nonneg _ (by positivity)
  have hhalf : |binary64.round
      (binary64.round (1 / lib.powf 10 (binary64.round (esN0Db / 10))) / 2)| ≤ n0 / 2 := by
    apply Format.abs_round_le hbudget.representable_half
    rw [abs_div, abs_two]
    exact div_le_div_of_nonneg_right hn0 two_pos.le
  have hhalfnonneg := Format.round_nonneg binary64 (div_nonneg hnonneg (zero_le_two (α := ℚ)))
  apply h.abs_sqrt_le hhalfnonneg hbudget.std_nonneg
  calc
    (1 + Libm.tolerance) ^ 2 * _ ≤ (1 + Libm.tolerance) ^ 2 * (n0 / 2) :=
      mul_le_mul_of_nonneg_left (le_of_abs_le hhalf) (by positivity)
    _ ≤ std ^ 2 := hbudget.root

/-- Ten to a fraction, by whole powers. -/
theorem le_ten_rpow {g : ℚ} {m n : ℕ} (hn : n ≠ 0) (hpow : g ^ n ≤ 10 ^ m) :
    (g : ℝ) ≤ (10 : ℝ) ^ ((m / n : ℚ) : ℝ) := by
  have hpos : (0 : ℝ) ≤ (10 : ℝ) ^ ((m / n : ℚ) : ℝ) := by positivity
  apply le_of_pow_le_pow_left₀ hn hpos
  have hcast : (g : ℝ) ^ n ≤ (10 : ℝ) ^ m := by exact_mod_cast hpow
  calc
    (g : ℝ) ^ n ≤ (10 : ℝ) ^ m := hcast
    _ = ((10 : ℝ) ^ ((m / n : ℚ) : ℝ)) ^ n := by
      rw [← Real.rpow_natCast, ← Real.rpow_natCast, ← Real.rpow_mul (by norm_num)]
      congr 1
      push_cast
      field_simp

theorem budget_bpsk : Budget (51 / 32) (196 / 5) (419 / 2 ^ 14) (1131 / 10000) where
  representable_low := ⟨51, -5, by decide, by decide, by norm_num⟩
  low_pos := by norm_num
  gain_pos := by norm_num
  power := by simpa using le_ten_rpow (g := 196 / 5) (m := 51) (n := 32) (by decide) (by norm_num)
  representable_n0 := ⟨419, -14, by decide, by decide, by norm_num⟩
  inverse := by norm_num [Libm.tolerance]
  representable_half := ⟨419, -15, by decide, by decide, by norm_num⟩
  std_nonneg := by norm_num
  root := by norm_num [Libm.tolerance]

theorem budget_qpsk : Budget (15 / 8) (1499 / 20) (219 / 2 ^ 14) (818 / 10000) where
  representable_low := ⟨15, -3, by decide, by decide, by norm_num⟩
  low_pos := by norm_num
  gain_pos := by norm_num
  power := by simpa using le_ten_rpow (g := 1499 / 20) (m := 15) (n := 8) (by decide) (by norm_num)
  representable_n0 := ⟨219, -14, by decide, by decide, by norm_num⟩
  inverse := by norm_num [Libm.tolerance]
  representable_half := ⟨219, -15, by decide, by decide, by norm_num⟩
  std_nonneg := by norm_num
  root := by norm_num [Libm.tolerance]

/-- A channel keeps its deviation. -/
theorem noiseStd_transmit (lib : Libm) (symbols : List Complex) (c : AwgnChannel) :
    (transmit lib symbols c).2.noiseStd = c.noiseStd := by
  rw [transmit_eq]
  rfl

theorem simulateLink_budget (h : lib.Accurate) {esN0Db : ℚ}
    (hbudget : modem = Bpsk ∧ 16 ≤ esN0Db ∨ modem = Qpsk ∧ 19 ≤ esN0Db) (hfinite : esN0Db ≤ 3000)
    (seed : UInt64) (earlier : List Complex) (bits : List Bool) :
    simulateLink bits modem Hamming74
      ((transmit lib earlier (fromEsN0Db lib esN0Db seed)).2.carry lib) = padToMultiple bits 4 := by
  rcases hbudget with ⟨rfl, hrange⟩ | ⟨rfl, hrange⟩
  · have hbound : binary64.Representable (63 / 64) := ⟨63, -6, by decide, by decide, by norm_num⟩
    have hstd := budget_bpsk.noiseStd_le h (by linarith) hfinite seed
    apply simulateLink_carry keyingBpsk
    intro i _
    apply card_loud h keyingBpsk hbound
    · norm_num [keyingBpsk]
    · rw [noiseStd_transmit, Rng.gaussianBound]
      linarith
  · have hbound : binary64.Representable (45 / 64) := ⟨45, -6, by decide, by decide, by norm_num⟩
    have hstd := budget_qpsk.noiseStd_le h (by linarith) hfinite seed
    apply simulateLink_carry keyingQpsk
    intro i _
    apply card_loud h keyingQpsk hbound
    · norm_num [keyingQpsk, invSqrt2]
    · rw [noiseStd_transmit, Rng.gaussianBound]
      linarith

/-- From 16 dB on with one bit in a symbol and from 19 dB on with two, no bit is lost: whatever the seed,
and whatever has been sent over the channel before. -/
theorem link_budget (h : lib.Accurate) {esN0Db : ℚ}
    (hbudget : modem = Bpsk ∧ 16 ≤ esN0Db ∨ modem = Qpsk ∧ 19 ≤ esN0Db) (hfinite : esN0Db ≤ 3000)
    (seed : UInt64) (earlier : List Complex) (bits : List Bool) :
    simulateLink bits modem Hamming74
        ((transmit lib earlier (fromEsN0Db lib esN0Db seed)).2.carry lib) =
      bits ++ List.replicate ((4 - bits.length % 4) % 4) false ∧
    bitErrorRate bits (simulateLink bits modem Hamming74
      ((transmit lib earlier (fromEsN0Db lib esN0Db seed)).2.carry lib)) = 0 := by
  have hlink := simulateLink_budget h hbudget hfinite seed earlier bits
  rw [padToMultiple_eq (by decide)] at hlink
  refine ⟨hlink, ?_⟩
  rw [hlink]
  exact bitErrorRate_append_right bits _

theorem link_budget_twenty :
    simulateLink [true, false, true] Qpsk Hamming74
        ((transmit Libm.truncated (Qpsk.modulate [true, true])
          (fromEsN0Db Libm.truncated 20 7)).2.carry Libm.truncated) = [true, false, true, false] ∧
    bitErrorRate [true, false, true] (simulateLink [true, false, true] Qpsk Hamming74
      ((transmit Libm.truncated (Qpsk.modulate [true, true])
        (fromEsN0Db Libm.truncated 20 7)).2.carry Libm.truncated)) = 0 :=
  link_budget Libm.accurate_truncated (.inr ⟨rfl, by norm_num⟩) (by norm_num) 7
    (Qpsk.modulate [true, true]) [true, false, true]

end AwgnChannel

end Zenith.Rf
