import Zenith.Bridge.SceneStats
import Zenith.Data.Rounding

/-!
# The cloud-mask model

The share of bright pixels is a quotient of two floating-point numbers, and so are the bounds of the
classes. Both are rounded, but a scene of less than 2^52 pixels has no share so close to a bound that
the class could be wrong.
-/

namespace Zenith.Bridge

open Go Cbor BinaryFloat

namespace CloudMask

/-- The constants `0.10` and `0.50`. -/
def clearBelow : ℚ := binary64.round (1 / 10)
def overcastFrom : ℚ := binary64.round (1 / 2)

def classify (fraction : ℚ) : GoString :=
  if fraction < clearBelow then lit "clear"
  else if fraction < overcastFrom then lit "partly-cloudy"
  else lit "overcast"

/-- The loop over the pixels. -/
def cloudy (threshold : UInt8) (scene : List UInt8) : UInt64 :=
  scene.foldl (fun cloudy p ↦ if threshold ≤ p then cloudy + 1 else cloudy) 0

/-- `float64(cloudy) / float64(len(scene))`. -/
def fraction (threshold : UInt8) (scene : List UInt8) : ℚ :=
  binary64.round (binary64.round (cloudy threshold scene).toNat / binary64.round scene.length)

/-- The word of a `float64`. -/
def float64Bits (q : ℚ) : UInt64 := UInt64.ofNat (binary64.word q)

/-- The array that `Infer` marshals. -/
def cover (threshold : UInt8) (scene : List UInt8) : Value :=
  let fraction := fraction threshold scene
  .array [.float64 (float64Bits fraction), .text (classify fraction)]

-- what `%.1f` prints
variable (fixed : UInt64 → GoString)

def summary (threshold : UInt8) (scene : List UInt8) : GoString :=
  let fraction := fraction threshold scene
  lit "cloud-mask: cover=" ++ fixed (float64Bits (binary64.round (fraction * 100))) ++
    lit "% class=" ++ classify fraction

/-- `Infer`. -/
def infer (threshold : UInt8) : Model := fun scene ↦
  if scene = [] then .error (lit "spaceaibridge: empty scene")
  else
    match marshal (cover threshold scene) with
    | .error err => .error (lit err.text)
    | .ok result => .ok (result, summary fixed threshold scene)

/-- `newCloudMask`; the threshold is the first parameter byte, if there is one. -/
def newCloudMask : ModelFactory := fun _ params ↦ .ok (infer fixed (params.head?.getD 190))

/-! ## The share of bright pixels -/

theorem cloudy_eq (threshold : UInt8) (scene : List UInt8) :
    cloudy threshold scene = UInt64.ofNat (scene.countP (threshold ≤ ·)) := by
  unfold cloudy
  induction scene using List.reverseRecOn with
  | nil => rfl
  | append_singleton seen p ih =>
    rw [List.foldl_append, ih, SceneStats.countP_append_singleton (threshold ≤ ·)]
    rfl

theorem fraction_eq {scene : List UInt8} (hlen : scene.length < 2 ^ 53) (threshold : UInt8) :
    fraction threshold scene =
      binary64.round (scene.countP (threshold ≤ ·) / scene.length) := by
  have hle : scene.countP (threshold ≤ ·) ≤ scene.length := List.countP_le_length
  rw [fraction, cloudy_eq, SceneStats.toNat_ofNat_countP (by omega), binary64_round_natCast (by omega),
    binary64_round_natCast hlen]

/-- The class of a scene in exact arithmetic. -/
def exactClass (cloudy pixels : ℕ) : GoString :=
  if 10 * cloudy < pixels then lit "clear"
  else if 2 * cloudy < pixels then lit "partly-cloudy"
  else lit "overcast"

/-- A share with a denominator of less than 52 bits is rounded to the side of a bound it is on. -/
theorem round_lt_round_iff {k c n : ℕ} {e : ℤ} (hk : 0 < k) (hn : 0 < n)
    (he : (1 / k : ℚ) < 2 ^ (e + 1)) (hemin : -1022 ≤ e) (hsmall : (k * n : ℚ) * 2 ^ (e - 52) < 1) :
    binary64.round (c / n) < binary64.round (1 / k) ↔ k * c < n := by
  have hkq : (0 : ℚ) < k := by exact_mod_cast hk
  have hnq : (0 : ℚ) < n := by exact_mod_cast hn
  have hside : (c / n : ℚ) < 1 / k ↔ k * c < n := by
    rw [div_lt_div_iff₀ hnq hkq, one_mul, mul_comm]
    exact_mod_cast Iff.rfl
  rw [← hside]
  constructor
  · intro hlt
    by_contra hge
    have hle := Format.round_mono (f := binary64) (by positivity : (0 : ℚ) < 1 / k) (not_lt.mp hge)
    exact absurd hlt (not_lt.mpr hle)
  · intro hlt
    apply Format.round_lt_round (by positivity)
    have hplace : binary64.lastPlace (1 / k) ≤ e - 52 :=
      Format.lastPlace_le_of_lt (f := binary64) (by positivity) he (by
        have hbias : (binary64.bias : ℤ) = 1023 := by decide
        omega)
    have hgap : (c / n : ℚ) + 1 / (k * n) ≤ 1 / k := by
      have hnat : k * c + 1 ≤ n := hside.mp hlt
      have hq : (k * c + 1 : ℚ) ≤ n := by exact_mod_cast hnat
      calc
        (c / n : ℚ) + 1 / (k * n) = (k * c + 1) / (k * n) := by field_simp
        _ ≤ n / (k * n) := div_le_div_of_nonneg_right hq (by positivity)
        _ = 1 / k := by field_simp
    have hunit : (2 : ℚ) ^ binary64.lastPlace (1 / k) < 1 / (k * n) := by
      rw [lt_div_iff₀ (by positivity), mul_comm]
      refine lt_of_le_of_lt ?_ hsmall
      exact mul_le_mul_of_nonneg_left (zpow_le_zpow_right₀ one_le_two hplace) (by positivity)
    linarith

theorem classify_eq {scene : List UInt8} (hne : scene ≠ []) (hlen : scene.length < 2 ^ 52)
    (threshold : UInt8) : classify (fraction threshold scene) =
      exactClass (scene.countP (threshold ≤ ·)) scene.length := by
  have hpos := List.length_pos_of_ne_nil hne
  have hq : (scene.length : ℚ) < 2 ^ 52 := by exact_mod_cast hlen
  rw [fraction_eq (by omega)]
  unfold classify exactClass clearBelow overcastFrom
  have hclear := round_lt_round_iff (k := 10) (c := scene.countP (threshold ≤ ·)) (e := -4)
    (by norm_num) hpos (by norm_num) (by norm_num) (by norm_num; linarith)
  have hpartly := round_lt_round_iff (k := 2) (c := scene.countP (threshold ≤ ·)) (e := -1)
    (by norm_num) hpos (by norm_num) (by norm_num) (by norm_num; linarith)
  rw [Nat.cast_ofNat] at hclear hpartly
  rw [if_congr hclear rfl (if_congr hpartly rfl rfl)]

/-! ## The result -/

theorem share_le_one {scene : List UInt8} (hne : scene ≠ []) (P : UInt8 → Bool) :
    (scene.countP P / scene.length : ℚ) ≤ 1 := by
  have hpos : (0 : ℚ) < scene.length := by exact_mod_cast List.length_pos_of_ne_nil hne
  rw [div_le_one hpos]
  exact_mod_cast List.countP_le_length

theorem representable_fraction {scene : List UInt8} (hlen : scene.length < 2 ^ 53)
    (threshold : UInt8) : binary64.Representable (fraction threshold scene) := by
  rw [fraction_eq hlen]
  exact Format.representable_round (by positivity)

theorem number_float64Bits {q : ℚ} (h : binary64.Representable q) (hq : 0 ≤ q) (hle : q ≤ 1) :
    binary64.number (float64Bits q).toNat = .finite false q := by
  have hlt : q < 2 ^ (binary64.bias + 1 : ℤ) := by
    have hbias : (binary64.bias : ℤ) = 1023 := by decide
    rw [hbias]
    exact hle.trans_lt (one_lt_zpow₀ one_lt_two (by norm_num))
  have hword : binary64.word q < 2 ^ 64 := (h.word_lt hq hlt).trans (by decide)
  rw [float64Bits, UInt64.toNat_ofNat', Nat.mod_eq_of_lt hword]
  exact h.number_word hq hlt

theorem encodable_cover (threshold : UInt8) (scene : List UInt8) :
    (cover threshold scene).Encodable := by
  apply Value.Encodable.array
  intro v hv
  simp only [List.mem_cons, List.not_mem_nil, or_false] at hv
  rcases hv with rfl | rfl
  · exact .float64 _
  · exact .text _

theorem length_bytes_classify_le (q : ℚ) :
    (Item.ofValue (.text (classify q))).bytes.length ≤ 14 := by
  unfold classify
  split_ifs <;> decide

theorem length_cover_le (threshold : UInt8) (scene : List UInt8) :
    (Item.ofValue (cover threshold scene)).bytes.length ≤ 24 := by
  have hclass := length_bytes_classify_le (fraction threshold scene)
  have hhead : (writeHead majorArray (lenUint64 [Value.float64 (float64Bits
      (fraction threshold scene)), .text (classify (fraction threshold scene))])).length = 1 := rfl
  unfold cover
  dsimp only
  rw [bytes_ofValue_array, List.length_append, hhead]
  simp only [Item.ofValues_cons, Item.ofValues_nil, Item.bytesList_cons, Item.bytesList_nil,
    List.length_append, List.length_nil, length_bytes_float64]
  omega

/-- A success is a share that is off by less than one part in 2^53, and the class that the share has
in exact arithmetic, in 24 bytes. -/
theorem infer_classifies {scene : List UInt8} (hne : scene ≠ []) (hlen : scene.length < 2 ^ 52)
    (threshold : UInt8) : ∃ result text bits share,
      infer fixed threshold scene = .ok (result, text) ∧
        Cbor.unmarshal result = (.ok (.array [.float64 bits,
          .text (exactClass (scene.countP (threshold ≤ ·)) scene.length)]), result.length) ∧
        binary64.number bits.toNat = .finite false share ∧
        |share - scene.countP (threshold ≤ ·) / scene.length| ≤ 1 / 2 ^ 53 ∧
        result.length ≤ 24 := by
  have hencodable := encodable_cover threshold scene
  have hsize := length_cover_le threshold scene
  have hfraction := @fraction_eq scene (by omega) threshold
  have hshare : (0 : ℚ) ≤ scene.countP (threshold ≤ ·) / scene.length := by positivity
  have hone := share_le_one hne (threshold ≤ ·)
  refine ⟨(Item.ofValue (cover threshold scene)).bytes, summary fixed threshold scene, _, _, ?_, ?_,
    number_float64Bits (representable_fraction (by omega) threshold)
      (hfraction ▸ Format.round_nonneg _ hshare) (hfraction ▸ round_le_one hshare hone),
    hfraction ▸ abs_round_share_sub_le hshare hone, hsize⟩
  · unfold infer
    rw [if_neg hne, hencodable.marshal_eq]
  · have hread := hencodable.unmarshal_bytes [] (by
      rw [List.length_nil]
      omega)
    rw [List.append_nil] at hread
    rw [hread, ← classify_eq hne hlen]
    rfl

/-- One cloudy pixel in ten. -/
theorem infer_classifies_oneInTen : ∃ result text bits share,
    infer (fun _ ↦ []) 190 (200 :: List.replicate 9 0) = .ok (result, text) ∧
      Cbor.unmarshal result = (.ok (.array [.float64 bits, .text (lit "partly-cloudy")]),
        result.length) ∧
      binary64.number bits.toNat = .finite false share ∧ |share - 1 / 10| ≤ 1 / 2 ^ 53 ∧
      result.length ≤ 24 := by
  have hne : (200 :: List.replicate 9 0 : List UInt8) ≠ [] := by simp
  have hcount : (200 :: List.replicate 9 0 : List UInt8).countP (190 ≤ ·) = 1 := by decide
  obtain ⟨result, text, bits, share, hinfer, hread, hbits, hnear, hsize⟩ :=
    infer_classifies (fun _ ↦ []) hne (by simp) 190
  rw [hcount] at hread hnear
  refine ⟨result, text, bits, share, hinfer, hread, hbits, ?_, hsize⟩
  norm_num at hnear ⊢
  exact hnear

end CloudMask

/-! ## The built-in kinds -/

section Factories

-- the mean and the standard deviation of a scene, and what `%.1f` prints
variable (moments : List UInt8 → UInt64 × UInt64) (fixed : UInt64 → GoString)

def BuiltinFactories : GoMap GoString ModelFactory :=
  (GoMap.empty.insert (lit "scene-stats") (SceneStats.newSceneStats moments fixed)).insert
    (lit "cloud-mask") (CloudMask.newCloudMask fixed)

/-- `NewComputeNode`. -/
def NewComputeNode : ComputeNode := ComputeNode.newComputeNode (BuiltinFactories moments fixed)

end Factories

end Zenith.Bridge
