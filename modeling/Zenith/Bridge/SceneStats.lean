import Zenith.Bridge.ComputeNode

/-!
# The scene-stats model

One pass over the pixels of a scene keeps the extremes, the number of bright pixels and a histogram of
sixteen bins; the result is an array of CBOR numbers. The mean and the standard deviation are computed
in floating point and are parameters here. The counts are those of the scene, and the result takes at
most 186 bytes, however large the scene is.
-/

namespace Zenith.Bridge

open Go Cbor Bpv7

namespace SceneStats

theorem toNat_shiftRight_four (p : UInt8) : (p >>> 4).toNat = p.toNat / 16 := by
  rw [UInt8.toNat_shiftRight]
  exact Nat.shiftRight_eq_div_pow _ _

/-- The bin of a pixel, `p>>4`. -/
def bin (p : UInt8) : Fin 16 := ⟨(p >>> 4).toNat, by
  have hlt := p.toNat_lt
  rw [toNat_shiftRight_four]
  omega⟩

/-- The variables of the loop that are no floating-point numbers. -/
structure Tally where
  min : UInt8
  max : UInt8
  hot : UInt64
  hist : Fin 16 → UInt64

def Tally.start : Tally := ⟨255, 0, 0, fun _ ↦ 0⟩

/-- One turn of the loop over the pixels. -/
def Tally.add (threshold : UInt8) (t : Tally) (p : UInt8) : Tally where
  min := if p < t.min then p else t.min
  max := if t.max < p then p else t.max
  hot := if threshold ≤ p then t.hot + 1 else t.hot
  hist := fun i ↦ if i = bin p then t.hist i + 1 else t.hist i

def tally (threshold : UInt8) (scene : List UInt8) : Tally :=
  scene.foldl (Tally.add threshold) Tally.start

/-- The bins as CBOR numbers. -/
def histVals (t : Tally) : List Value := List.ofFn fun i ↦ .uint64 (t.hist i)

section Infer

-- the mean and the standard deviation of a scene, and what `%.1f` prints
variable (moments : List UInt8 → UInt64 × UInt64) (fixed : UInt64 → GoString)

/-- The array that `Infer` marshals. -/
def stats (threshold : UInt8) (scene : List UInt8) : Value :=
  let t := tally threshold scene
  .array [.uint64 (lenUint64 scene), .uint64 t.min.toUInt64, .uint64 t.max.toUInt64,
    .float64 (moments scene).1, .float64 (moments scene).2, .uint64 t.hot, .array (histVals t)]

def summary (threshold : UInt8) (scene : List UInt8) : GoString :=
  let t := tally threshold scene
  lit "scene-stats: n=" ++ decimal scene.length ++ lit " min=" ++ decimal t.min.toNat ++
    lit " max=" ++ decimal t.max.toNat ++ lit " mean=" ++ fixed (moments scene).1 ++
    lit " std=" ++ fixed (moments scene).2 ++ lit " hot(>=" ++ decimal threshold.toNat ++
    lit ")=" ++ decimal t.hot.toNat

/-- `Infer`. -/
def infer (threshold : UInt8) : Model := fun scene ↦
  if scene = [] then .error (lit "spaceaibridge: empty scene")
  else
    match marshal (stats moments threshold scene) with
    | .error err => .error (lit err.text)
    | .ok result => .ok (result, summary moments fixed threshold scene)

/-- `newSceneStats`; the threshold is the first parameter byte, if there is one. -/
def newSceneStats : ModelFactory := fun _ params ↦
  .ok (infer moments fixed (params.head?.getD 200))

end Infer

/-! ## The invariant of the loop -/

/-- What the variables of the loop say about the pixels seen. -/
structure Tally.Counts (threshold : UInt8) (seen : List UInt8) (t : Tally) : Prop where
  min_le : ∀ p ∈ seen, t.min ≤ p
  min_mem : t.min ∈ seen ∨ t.min = 255
  le_max : ∀ p ∈ seen, p ≤ t.max
  max_mem : t.max ∈ seen ∨ t.max = 0
  hot : t.hot = UInt64.ofNat (seen.countP (threshold ≤ ·))
  hist : ∀ i, t.hist i = UInt64.ofNat (seen.countP (bin · = i))

theorem counts_start (threshold : UInt8) : Tally.start.Counts threshold [] where
  min_le := by simp
  min_mem := .inr rfl
  le_max := by simp
  max_mem := .inr rfl
  hot := rfl
  hist := fun _ ↦ rfl

theorem countP_append_singleton (P : UInt8 → Prop) [DecidablePred P] (seen : List UInt8) (p : UInt8) :
    UInt64.ofNat ((seen ++ [p]).countP (P ·)) =
      if P p then UInt64.ofNat (seen.countP (P ·)) + 1 else UInt64.ofNat (seen.countP (P ·)) := by
  rw [List.countP_append]
  by_cases hp : P p
  · rw [if_pos hp, List.countP_singleton, decide_eq_true hp, if_pos rfl, UInt64.ofNat_add]
    rfl
  · rw [if_neg hp, List.countP_singleton, decide_eq_false hp]
    rfl

/-- One more pixel: the one that `better` prefers is extreme among all, in either order `r`. -/
theorem extreme_add {r : UInt8 → UInt8 → Prop} (hrefl : ∀ p, r p p)
    (htrans : ∀ {p q o}, r p q → r q o → r p o) {better : Prop} [Decidable better]
    {seen : List UInt8} {m p : UInt8} (hbetter : better → r p m) (hworse : ¬better → r m p)
    (hextreme : ∀ q ∈ seen, r m q) : ∀ q ∈ seen ++ [p], r (if better then p else m) q := by
  intro q hq
  rcases List.mem_append.mp hq with hold | hnew
  · split_ifs with h
    · exact htrans (hbetter h) (hextreme q hold)
    · exact hextreme q hold
  · rw [List.mem_singleton.mp hnew]
    split_ifs with h
    · exact hrefl p
    · exact hworse h

theorem attained_add {better : Prop} [Decidable better] {seen : List UInt8} {m p start : UInt8}
    (hattained : m ∈ seen ∨ m = start) :
    (if better then p else m) ∈ seen ++ [p] ∨ (if better then p else m) = start := by
  split_ifs with h
  · exact .inl (List.mem_append_right _ List.mem_cons_self)
  · exact hattained.imp_left (List.mem_append_left _)

theorem Tally.Counts.add {threshold : UInt8} {seen : List UInt8} {t : Tally}
    (h : t.Counts threshold seen) (p : UInt8) :
    (t.add threshold p).Counts threshold (seen ++ [p]) where
  min_le := extreme_add UInt8.le_refl UInt8.le_trans UInt8.le_of_lt UInt8.not_lt.mp h.min_le
  min_mem := attained_add h.min_mem
  le_max := extreme_add (r := fun p q ↦ q ≤ p) UInt8.le_refl
    (fun hqp hoq ↦ UInt8.le_trans hoq hqp) UInt8.le_of_lt UInt8.not_lt.mp h.le_max
  max_mem := attained_add h.max_mem
  hot := by
    unfold Tally.add
    rw [countP_append_singleton (threshold ≤ ·), ← h.hot]
  hist := by
    intro i
    unfold Tally.add
    rw [countP_append_singleton (bin · = i), ← h.hist]
    simp only [eq_comm]

theorem counts_tally (threshold : UInt8) (scene : List UInt8) :
    (tally threshold scene).Counts threshold scene := by
  unfold tally
  induction scene using List.reverseRecOn with
  | nil => exact counts_start threshold
  | append_singleton seen p ih =>
    rw [List.foldl_append]
    exact ih.add p

/-! ## The counts of the result -/

/-- Every pixel is in one bin. -/
theorem sum_countP_bin (scene : List UInt8) :
    ∑ i : Fin 16, scene.countP (bin · = i) = scene.length := by
  induction scene with
  | nil => simp
  | cons p scene ih =>
    calc
      ∑ i : Fin 16, (p :: scene).countP (bin · = i) =
          ∑ i : Fin 16, (scene.countP (bin · = i) + if bin p = i then 1 else 0) := by
        apply Finset.sum_congr rfl
        intro i _
        rw [List.countP_cons]
        simp only [decide_eq_true_eq]
      _ = scene.length + 1 := by
        rw [Finset.sum_add_distrib, ih, Finset.sum_ite_eq]
        simp

/-- What the result says: the number of pixels, the extremes, the bright pixels and the bins. -/
structure Describes (threshold : UInt8) (scene : List UInt8) (n min max hot : UInt64)
    (hist : List UInt64) : Prop where
  count : n.toNat = scene.length
  min : ∃ p ∈ scene, min = p.toUInt64 ∧ ∀ q ∈ scene, p ≤ q
  max : ∃ p ∈ scene, max = p.toUInt64 ∧ ∀ q ∈ scene, q ≤ p
  hot : hot.toNat = scene.countP (threshold ≤ ·)
  bins : hist.map (·.toNat) = List.ofFn fun i ↦ scene.countP (bin · = i)
  total : (hist.map (·.toNat)).sum = scene.length

theorem toNat_ofNat_countP {scene : List UInt8} (hlen : scene.length < 2 ^ 63) (P : UInt8 → Bool) :
    (UInt64.ofNat (scene.countP P)).toNat = scene.countP P := by
  have hle : scene.countP P ≤ scene.length := List.countP_le_length
  rw [UInt64.toNat_ofNat']
  omega

theorem describes_tally {scene : List UInt8} (hne : scene ≠ []) (hlen : scene.length < 2 ^ 63)
    (threshold : UInt8) : Describes threshold scene (lenUint64 scene)
      (tally threshold scene).min.toUInt64 (tally threshold scene).max.toUInt64
      (tally threshold scene).hot (List.ofFn (tally threshold scene).hist) := by
  have h := counts_tally threshold scene
  have hbins : (List.ofFn (tally threshold scene).hist).map (·.toNat) =
      List.ofFn fun i ↦ scene.countP (bin · = i) := by
    rw [List.map_ofFn]
    congr 1
    funext i
    rw [Function.comp_apply, h.hist, toNat_ofNat_countP hlen]
  obtain ⟨p, hp⟩ := List.exists_mem_of_ne_nil scene hne
  have hmin : (tally threshold scene).min ∈ scene := by
    rcases h.min_mem with hmem | htop
    · exact hmem
    · have hle := h.min_le p hp
      rw [htop] at hle ⊢
      have heq : p = 255 := UInt8.le_antisymm (UInt8.le_iff_toNat_le.mpr (by
        have hlt := p.toNat_lt
        exact Nat.le_of_lt_succ hlt)) hle
      exact heq ▸ hp
  have hmax : (tally threshold scene).max ∈ scene := by
    rcases h.max_mem with hmem | hbottom
    · exact hmem
    · have hle := h.le_max p hp
      rw [hbottom] at hle ⊢
      have heq : p = 0 := UInt8.le_antisymm hle (UInt8.le_iff_toNat_le.mpr (Nat.zero_le _))
      exact heq ▸ hp
  refine ⟨?_, ⟨_, hmin, rfl, h.min_le⟩, ⟨_, hmax, rfl, h.le_max⟩, ?_, hbins, ?_⟩
  · rw [lenUint64, UInt64.toNat_ofNat']
    omega
  · rw [h.hot, toNat_ofNat_countP hlen]
  · rw [hbins, List.sum_ofFn, sum_countP_bin]

/-! ## The size of the result -/

variable (moments : List UInt8 → UInt64 × UInt64) (fixed : UInt64 → GoString)

@[simp] theorem length_histVals (t : Tally) : (histVals t).length = 16 := List.length_ofFn

theorem mem_histVals {t : Tally} {v : Value} : v ∈ histVals t ↔ ∃ i, v = .uint64 (t.hist i) := by
  unfold histVals
  rw [List.mem_ofFn']
  simp only [Set.mem_range, eq_comm]

theorem encodable_stats (threshold : UInt8) (scene : List UInt8) :
    (stats moments threshold scene).Encodable := by
  apply Value.Encodable.array
  intro v hv
  simp only [List.mem_cons, List.not_mem_nil, or_false] at hv
  rcases hv with rfl | rfl | rfl | rfl | rfl | rfl | rfl
  · exact .uint64 _
  · exact .uint64 _
  · exact .uint64 _
  · exact .float64 _
  · exact .float64 _
  · exact .uint64 _
  · apply Value.Encodable.array
    intro v hv
    obtain ⟨i, rfl⟩ := mem_histVals.mp hv
    exact .uint64 _

theorem definite_stats (threshold : UInt8) (scene : List UInt8) :
    (stats moments threshold scene).definite = stats moments threshold scene := by
  have hhist : (histVals (tally threshold scene)).map Value.definite =
      histVals (tally threshold scene) := by
    unfold histVals
    rw [List.map_ofFn]
    rfl
  unfold stats
  dsimp only
  simp only [Value.definite_array, List.map_cons, List.map_nil, hhist]
  rfl

/-- The parts of the result that vary in length are the four counts and extremes and the bins. -/
theorem length_stats_le (threshold : UInt8) (scene : List UInt8) (width : ℕ)
    (hcount : (Item.ofValue (.uint64 (lenUint64 scene))).bytes.length ≤ width)
    (hhot : (Item.ofValue (.uint64 (tally threshold scene).hot)).bytes.length ≤ width)
    (hhist : ∀ i, (Item.ofValue (.uint64 ((tally threshold scene).hist i))).bytes.length ≤ width) :
    (Item.ofValue (stats moments threshold scene)).bytes.length ≤ 24 + 18 * width := by
  have hpixel (p : UInt8) : (Item.ofValue (.uint64 p.toUInt64)).bytes.length ≤ 2 := by
    have hlt : p.toUInt64.toNat < 2 ^ 8 := p.toNat_lt
    rw [length_bytes_uint64]
    split_ifs <;> omega
  have hbins : (Item.ofValue (.array (histVals (tally threshold scene)))).bytes.length ≤
      1 + width * 16 := by
    rw [← length_histVals (tally threshold scene)]
    apply length_bytes_array_le (by simp)
    intro v hv
    obtain ⟨i, rfl⟩ := mem_histVals.mp hv
    exact hhist i
  have hmin := hpixel (tally threshold scene).min
  have hmax := hpixel (tally threshold scene).max
  unfold stats
  dsimp only
  rw [bytes_ofValue_array, List.length_append, length_writeHead]
  simp only [Item.ofValues_cons, Item.ofValues_nil, Item.bytesList_cons, Item.bytesList_nil,
    List.length_append, List.length_nil, length_bytes_float64]
  have hseven : (lenUint64 [Value.uint64 (lenUint64 scene),
      .uint64 (tally threshold scene).min.toUInt64, .uint64 (tally threshold scene).max.toUInt64,
      .float64 (moments scene).1, .float64 (moments scene).2, .uint64 (tally threshold scene).hot,
      .array (histVals (tally threshold scene))]).toNat = 7 := rfl
  rw [hseven, if_pos (by norm_num)]
  omega

/-- For a scene that is not empty, the result decodes to an array of seven elements that describe the
scene, and is at most 186 bytes long, or 114 where the scene has less than 2^32 pixels. -/
theorem infer_describes {scene : List UInt8} (hne : scene ≠ []) (hlen : scene.length < 2 ^ 63)
    (threshold : UInt8) :
    ∃ (result : List UInt8) (text : GoString) (n min max mean std hot : UInt64)
      (hist : List UInt64),
      infer moments fixed threshold scene = .ok (result, text) ∧
        Cbor.unmarshal result = (.ok (.array [.uint64 n, .uint64 min, .uint64 max, .float64 mean,
          .float64 std, .uint64 hot, .array (hist.map .uint64)]), result.length) ∧
        Describes threshold scene n min max hot hist ∧ hist.length = 16 ∧
        result.length ≤ 186 ∧ (scene.length < 2 ^ 32 → result.length ≤ 114) := by
  have hencodable := encodable_stats moments threshold scene
  have hdescribes := describes_tally hne hlen threshold
  have hwide (x : UInt64) : (Item.ofValue (.uint64 x)).bytes.length ≤ 9 := by
    rw [length_bytes_uint64]
    split_ifs <;> omega
  have hnarrow {x : UInt64} (hx : x.toNat < 2 ^ 32) :
      (Item.ofValue (.uint64 x)).bytes.length ≤ 5 := by
    rw [length_bytes_uint64]
    split_ifs <;> omega
  have h186 : (Item.ofValue (stats moments threshold scene)).bytes.length ≤ 186 :=
    length_stats_le moments threshold scene 9 (hwide _) (hwide _) fun i ↦ hwide _
  refine ⟨(Item.ofValue (stats moments threshold scene)).bytes,
    summary moments fixed threshold scene, _, _, _, (moments scene).1, (moments scene).2, _, _,
    ?_, ?_, hdescribes, by rw [List.length_ofFn], h186, fun hsmall ↦ ?_⟩
  · unfold infer
    rw [if_neg hne, hencodable.marshal_eq]
  · have hread := hencodable.unmarshal_bytes [] (by
      rw [List.length_nil]
      omega)
    rw [List.append_nil, definite_stats] at hread
    rw [hread, List.map_ofFn]
    rfl
  · have hcounts := counts_tally threshold scene
    have hcountP (P : UInt8 → Bool) : (UInt64.ofNat (scene.countP P)).toNat < 2 ^ 32 := by
      rw [toNat_ofNat_countP hlen]
      exact List.countP_le_length.trans_lt hsmall
    apply length_stats_le moments threshold scene 5
    · exact hnarrow (hdescribes.count.trans_lt hsmall)
    · exact hnarrow (hcounts.hot ▸ hcountP _)
    · intro i
      exact hnarrow (hcounts.hist i ▸ hcountP _)

def threePixels : List UInt8 := [10, 200, 255]

/-- The mean of the three pixels, 155, and their standard deviation, 104.96. -/
def threePixelsMoments (_ : List UInt8) : UInt64 × UInt64 := (0x4063600000000000, 0x405a3d75b7e6ddb0)

/-- What `%.1f` prints of the two. -/
def threePixelsFixed (bits : UInt64) : GoString :=
  if bits = (threePixelsMoments threePixels).1 then lit "155.0" else lit "105.0"

theorem infer_describes_threePixels : ∃ (result : List UInt8) (n min max mean std hot : UInt64)
    (hist : List UInt64),
    infer threePixelsMoments threePixelsFixed 200 threePixels = .ok (result,
      lit "scene-stats: n=3 min=10 max=255 mean=155.0 std=105.0 hot(>=200)=2") ∧
    Cbor.unmarshal result = (.ok (.array [.uint64 n, .uint64 min, .uint64 max, .float64 mean,
      .float64 std, .uint64 hot, .array (hist.map .uint64)]), result.length) ∧
    Describes 200 threePixels n min max hot hist ∧ result.length ≤ 114 := by
  have hne : threePixels ≠ [] := by decide
  have htext : (infer threePixelsMoments threePixelsFixed 200 threePixels).map (·.2) =
      .ok (lit "scene-stats: n=3 min=10 max=255 mean=155.0 std=105.0 hot(>=200)=2") := by decide +kernel
  obtain ⟨result, text, n, min, max, mean, std, hot, hist, hinfer, hread, hdescribes, -, -, hsize⟩ :=
    infer_describes threePixelsMoments threePixelsFixed hne (by decide) 200
  rw [hinfer, Except.map, Except.ok.injEq] at htext
  subst htext
  exact ⟨result, n, min, max, mean, std, hot, hist, hinfer, hread, hdescribes, hsize (by decide)⟩

end SceneStats

end Zenith.Bridge
