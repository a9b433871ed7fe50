import Zenith.Cbor.Meaning

/-!
# What the decoder accepts

Whenever `decode` returns a value, an accepted item stands between the two positions of the cursor
and denotes that value. Each container decoder is treated for an arbitrary recursive call with this
property; the induction on the fuel then only puts the pieces together.
-/

namespace Zenith.Cbor

open Go

/-! ## Major type 7 -/

/-- The additional informations of major type 7 that the decoder supports. -/
def SupportedSimple (info : UInt8) : Prop :=
  info = 20 ∨ info = 21 ∨ info = 22 ∨ info = 23 ∨ info = 25 ∨ info = 26 ∨ info = 27 ∨
    info = indefinite

/-- A float: `width` argument bytes and their conversion. -/
theorem decodeFloat_eq_ok {d d' : Decoder} (hd : d.Valid) {initial : UInt8} {width : ℕ}
    (hwidth : Head.argumentWidth (initial &&& 0x1f) = some width) (hsmall : width < 2 ^ 63)
    (hsupported : SupportedSimple (initial &&& 0x1f)) (convert : List UInt8 → Value)
    (hconvert : ∀ argument, simpleValue ⟨initial, argument⟩ = convert argument) {v : Value} :
    (do let b ← readN width; pure (convert b) : DecodeM Value) d = (.ok v, d') ↔
      ∃ argument, (Head.mk initial argument).Valid ∧ SupportedSimple (initial &&& 0x1f) ∧
        d.Sees argument ∧ d' = d.advance argument.length ∧ v = simpleValue ⟨initial, argument⟩ := by
  rw [Action.bind_eq_ok]
  constructor
  · rintro ⟨b, d₁, hread, hpure⟩
    obtain ⟨hlen, hsees, rfl⟩ := (readN_eq_ok hd (by exact_mod_cast hsmall)).mp hread
    simp only [Action.pure_apply, Prod.mk.injEq, Outcome.ok.injEq] at hpure
    obtain ⟨rfl, rfl⟩ := hpure
    refine ⟨b, ?_, hsupported, hsees, rfl, (hconvert b).symm⟩
    have hlen' : width = b.length := by exact_mod_cast hlen
    rw [Head.Valid, Head.info, hwidth, hlen']
  · rintro ⟨argument, hvalid, -, hsees, rfl, rfl⟩
    have hlen : width = argument.length := by
      rw [Head.Valid, Head.info, hwidth] at hvalid
      exact Option.some.inj hvalid
    refine ⟨argument, d.advance argument.length, ?_, by rw [hconvert]; rfl⟩
    rw [hlen]
    exact readN_of_sees hd hsees

/-- A simple value: no argument bytes. -/
theorem pureSimple_eq_ok {d d' : Decoder} {initial : UInt8}
    (hwidth : Head.argumentWidth (initial &&& 0x1f) = some 0)
    (hsupported : SupportedSimple (initial &&& 0x1f)) {v w : Value}
    (hvalue : simpleValue ⟨initial, []⟩ = w) :
    (pure w : DecodeM Value) d = (.ok v, d') ↔
      ∃ argument, (Head.mk initial argument).Valid ∧ SupportedSimple (initial &&& 0x1f) ∧
        d.Sees argument ∧ d' = d.advance argument.length ∧ v = simpleValue ⟨initial, argument⟩ := by
  constructor
  · intro h
    simp only [Action.pure_apply, Prod.mk.injEq, Outcome.ok.injEq] at h
    obtain ⟨rfl, rfl⟩ := h
    exact ⟨[], hwidth, hsupported, d.sees_nil, rfl, hvalue.symm⟩
  · rintro ⟨argument, hvalid, -, -, rfl, rfl⟩
    rw [Head.Valid, Head.info, hwidth] at hvalid
    obtain rfl : argument = [] := List.length_eq_zero_iff.mp (Option.some.inj hvalid).symm
    rw [Action.pure_apply, hvalue]
    rfl

theorem decodeSimple_eq_ok {d d' : Decoder} (hd : d.Valid) {initial : UInt8} {v : Value} :
    decodeSimple (initial &&& 0x1f) d = (.ok v, d') ↔
      ∃ argument, (Head.mk initial argument).Valid ∧ SupportedSimple (initial &&& 0x1f) ∧
        d.Sees argument ∧ d' = d.advance argument.length ∧ v = simpleValue ⟨initial, argument⟩ := by
  unfold decodeSimple
  split_ifs with h20 h21 h22 h31 h25 h26 h27
  · exact pureSimple_eq_ok (by rw [h20]; rfl) (by simp [SupportedSimple, h20])
      (by simp [simpleValue, Head.info, h20])
  · exact pureSimple_eq_ok (by rw [h21]; rfl) (by simp [SupportedSimple, h21])
      (by simp [simpleValue, Head.info, h21])
  · rcases h22 with h | h
    · exact pureSimple_eq_ok (by rw [h]; rfl) (by simp [SupportedSimple, h])
        (by simp [simpleValue, Head.info, h])
    · exact pureSimple_eq_ok (by rw [h]; rfl) (by simp [SupportedSimple, h])
        (by simp [simpleValue, Head.info, h])
  · exact pureSimple_eq_ok (by rw [h31]; rfl) (by simp [SupportedSimple, h31])
      (by simp [simpleValue, Head.info, h31, indefinite])
  · exact decodeFloat_eq_ok hd (by rw [h25]; rfl) (by norm_num) (by simp [SupportedSimple, h25])
      (fun b ↦ .float64 (widenFloat32 (halfToFloat32bits (bigEndianUint16 b))))
      (fun _ ↦ by simp [simpleValue, Head.info, h25, indefinite])
  · exact decodeFloat_eq_ok hd (by rw [h26]; rfl) (by norm_num) (by simp [SupportedSimple, h26])
      (fun b ↦ .float64 (widenFloat32 (bigEndianUint32 b)))
      (fun _ ↦ by simp [simpleValue, Head.info, h26, indefinite])
  · exact decodeFloat_eq_ok hd (by rw [h27]; rfl) (by norm_num) (by simp [SupportedSimple, h27])
      (fun b ↦ .float64 (bigEndianUint64 b))
      (fun _ ↦ by simp [simpleValue, Head.info, h27, indefinite])
  · have hunsupported : ¬SupportedSimple (initial &&& 0x1f) := by
      simp_all [SupportedSimple]
    constructor
    · intro h
      simp at h
    · rintro ⟨argument, -, hsupported, -⟩
      exact absurd hsupported hunsupported

/-! ## The container decoders -/

section Containers

variable {decode : DecodeM Value}

/-- A recursive call that only returns values of accepted items. -/
def SoundCall (decode : DecodeM Value) : Prop :=
  ∀ ⦃d : Decoder⦄ ⦃v : Value⦄ ⦃d' : Decoder⦄, d.Valid → decode d = (.ok v, d') →
    ∃ s : Item, d.Takes s d' ∧ v = s.value

theorem decodeArrayItems_sound (hcall : SoundCall decode) (count : ℕ) (out : List Value)
    {d d' : Decoder} (hd : d.Valid) {result : List Value}
    (h : decodeArrayItems decode count out d = (.ok result, d')) :
    ∃ cs, cs.length = count ∧ d.TakesAll cs d' ∧ result = out ++ Item.values cs := by
  induction count generalizing out d with
  | zero =>
    simp only [decodeArrayItems, Action.pure_apply, Prod.mk.injEq, Outcome.ok.injEq] at h
    obtain ⟨rfl, rfl⟩ := h
    exact ⟨[], rfl, Decoder.takesAll_nil.mpr rfl, by simp⟩
  | succ count ih =>
    obtain ⟨v, d₁, hfirst, hrest⟩ := Action.bind_eq_ok.mp h
    obtain ⟨c, htakes, rfl⟩ := hcall hd hfirst
    obtain ⟨cs, rfl, htakesAll, rfl⟩ := ih _ (htakes.valid hd) hrest
    exact ⟨c :: cs, rfl, Decoder.takesAll_cons.mpr ⟨d₁, htakes, htakesAll⟩, by simp⟩

/-- A recursive call that returned a break left one break code behind the cursor. -/
theorem Decoder.Takes.of_break {d d' : Decoder} {s : Item} (h : d.Takes s d')
    (hbreak : s.value.isBreakMarker = true) : d.Sees [0xff] ∧ d' = d.advance 1 := by
  obtain ⟨haccepted, hsees, rfl⟩ := h
  rw [haccepted.1.bytes_of_isBreak (Item.isBreakMarker_value.mp hbreak)] at hsees ⊢
  exact ⟨hsees, rfl⟩

theorem decodeArrayUntilBreak_sound (hcall : SoundCall decode) (fuel : ℕ) (out : List Value)
    {d d' : Decoder} (hd : d.Valid) {result : List Value}
    (h : decodeArrayUntilBreak decode fuel out d = (.ok result, d')) :
    ∃ cs d₁, (∀ c ∈ cs, ¬c.IsBreak) ∧ d.TakesAll cs d₁ ∧ d₁.Sees [0xff] ∧ d' = d₁.advance 1 ∧
      result = out ++ Item.values cs := by
  induction fuel generalizing out d with
  | zero => simp [decodeArrayUntilBreak] at h
  | succ fuel ih =>
    obtain ⟨v, d₁, hfirst, hrest⟩ := Action.bind_eq_ok.mp h
    obtain ⟨c, htakes, rfl⟩ := hcall hd hfirst
    split_ifs at hrest with hbreak
    · simp only [Action.pure_apply, Prod.mk.injEq, Outcome.ok.injEq] at hrest
      obtain ⟨rfl, rfl⟩ := hrest
      obtain ⟨hsees, rfl⟩ := htakes.of_break hbreak
      exact ⟨[], d, by simp, Decoder.takesAll_nil.mpr rfl, hsees, rfl, by simp⟩
    · obtain ⟨cs, d₂, hopen, htakesAll, hsees, rfl, rfl⟩ := ih _ (htakes.valid hd) hrest
      refine ⟨c :: cs, d₂, ?_, Decoder.takesAll_cons.mpr ⟨d₁, htakes, htakesAll⟩, hsees, rfl,
        by simp⟩
      simpa [Item.isBreakMarker_value] using ⟨mt Item.isBreakMarker_value.mpr hbreak, hopen⟩

/-- One key-value pair of either map loop. -/
theorem assignPair_sound {γ : Type} (hcall : SoundCall decode) (out : List (Value × Value))
    (k : Value) (next : List (Value × Value) → DecodeM γ) {d d' : Decoder} (hd : d.Valid)
    {result : γ}
    (h : (do let v ← decode; let out ← assign out k v; next out : DecodeM γ) d =
      (.ok result, d')) :
    ∃ c d₁, k.hashable = true ∧ d.Takes c d₁ ∧
      next (Value.upsert out k c.value) d₁ = (.ok result, d') := by
  obtain ⟨v, d₁, hsecond, hrest⟩ := Action.bind_eq_ok.mp h
  obtain ⟨c, htakes, rfl⟩ := hcall hd hsecond
  obtain ⟨out', d₂, hassign, hnext⟩ := Action.bind_eq_ok.mp hrest
  unfold assign at hassign
  split_ifs at hassign with hhash
  · simp only [Action.pure_apply, Prod.mk.injEq, Outcome.ok.injEq] at hassign
    obtain ⟨rfl, rfl⟩ := hassign
    exact ⟨c, d₁, hhash, htakes, hnext⟩
  · simp at hassign

theorem decodeMapEntries_sound (hcall : SoundCall decode) (count : ℕ)
    (out : List (Value × Value)) {d d' : Decoder} (hd : d.Valid) {result : List (Value × Value)}
    (h : decodeMapEntries decode count out d = (.ok result, d')) :
    ∃ cs, cs.length = 2 * count ∧ d.TakesAll cs d' ∧ KeysHashable (Item.values cs) ∧
      result = assignAll out (Item.values cs) := by
  induction count generalizing out d with
  | zero =>
    simp only [decodeMapEntries, Action.pure_apply, Prod.mk.injEq, Outcome.ok.injEq] at h
    obtain ⟨rfl, rfl⟩ := h
    exact ⟨[], rfl, Decoder.takesAll_nil.mpr rfl, by simp [KeysHashable], by simp [assignAll]⟩
  | succ count ih =>
    obtain ⟨k, d₁, hfirst, hrest⟩ := Action.bind_eq_ok.mp h
    obtain ⟨key, hkey, rfl⟩ := hcall hd hfirst
    obtain ⟨val, d₂, hhash, hval, hnext⟩ := assignPair_sound hcall out _ _ (hkey.valid hd) hrest
    obtain ⟨cs, hlen, htakesAll, hkeys, rfl⟩ := ih _ (hval.valid (hkey.valid hd)) hnext
    refine ⟨key :: val :: cs, by simp [hlen, Nat.mul_succ], ?_, ?_, by simp [assignAll]⟩
    · exact Decoder.takesAll_cons.mpr ⟨d₁, hkey, Decoder.takesAll_cons.mpr ⟨d₂, hval, htakesAll⟩⟩
    · simpa [KeysHashable] using ⟨hhash, hkeys⟩

/-- In a map a break code only closes the content where a key is expected. -/
theorem open_cons_cons {key val : Item} {cs : List Item} (hkey : ¬key.IsBreak)
    (h : ∀ i c, cs[i]? = some c → i % 2 = 0 → ¬c.IsBreak) :
    ∀ i c, (key :: val :: cs)[i]? = some c → i % 2 = 0 → ¬c.IsBreak := by
  intro i c hc heven
  match i with
  | 0 => exact Option.some.inj hc ▸ hkey
  | 1 => omega
  | i + 2 => exact h i c (by simpa using hc) (by omega)

theorem decodeMapUntilBreak_sound (hcall : SoundCall decode) (fuel : ℕ)
    (out : List (Value × Value)) {d d' : Decoder} (hd : d.Valid) {result : List (Value × Value)}
    (h : decodeMapUntilBreak decode fuel out d = (.ok result, d')) :
    ∃ cs d₁, cs.length % 2 = 0 ∧ (∀ i c, cs[i]? = some c → i % 2 = 0 → ¬c.IsBreak) ∧
      d.TakesAll cs d₁ ∧ d₁.Sees [0xff] ∧ d' = d₁.advance 1 ∧
      KeysHashable (Item.values cs) ∧ result = assignAll out (Item.values cs) := by
  induction fuel generalizing out d with
  | zero => simp [decodeMapUntilBreak] at h
  | succ fuel ih =>
    obtain ⟨k, d₁, hfirst, hrest⟩ := Action.bind_eq_ok.mp h
    obtain ⟨key, hkey, rfl⟩ := hcall hd hfirst
    split_ifs at hrest with hbreak
    · simp only [Action.pure_apply, Prod.mk.injEq, Outcome.ok.injEq] at hrest
      obtain ⟨rfl, rfl⟩ := hrest
      obtain ⟨hsees, rfl⟩ := hkey.of_break hbreak
      exact ⟨[], d, rfl, by simp, Decoder.takesAll_nil.mpr rfl, hsees, rfl, by simp [KeysHashable],
        by simp [assignAll]⟩
    · obtain ⟨val, d₂, hhash, hval, hnext⟩ := assignPair_sound hcall out _ _ (hkey.valid hd) hrest
      obtain ⟨cs, d₃, heven, hopen, htakesAll, hsees, rfl, hkeys, rfl⟩ :=
        ih _ (hval.valid (hkey.valid hd)) hnext
      have heven' : (key :: val :: cs).length % 2 = 0 := by simp only [List.length_cons]; omega
      refine ⟨key :: val :: cs, d₃, heven', ?_, ?_, hsees, rfl, ?_, by simp [assignAll]⟩
      · exact open_cons_cons (mt Item.isBreakMarker_value.mpr hbreak) hopen
      · exact Decoder.takesAll_cons.mpr ⟨d₁, hkey, Decoder.takesAll_cons.mpr ⟨d₂, hval, htakesAll⟩⟩
      · simpa [KeysHashable] using ⟨hhash, hkeys⟩

theorem decodeChunks_sound (hcall : SoundCall decode) {major : UInt8}
    (hmajor : major = majorBytes ∨ major = majorText) (invalid : DecodeError) (fuel : ℕ)
    (out : List UInt8) {d d' : Decoder} (hd : d.Valid) {result : List UInt8}
    (h : decodeChunks decode major invalid fuel out d = (.ok result, d')) :
    ∃ cs d₁, (∀ c ∈ cs, c.head.major = major) ∧ d.TakesAll cs d₁ ∧ d₁.Sees [0xff] ∧
      d' = d₁.advance 1 ∧ result = out ++ (Item.values cs).flatMap chunkData := by
  induction fuel generalizing out d with
  | zero => simp [decodeChunks] at h
  | succ fuel ih =>
    obtain ⟨v, d₁, hfirst, hrest⟩ := Action.bind_eq_ok.mp h
    obtain ⟨c, htakes, rfl⟩ := hcall hd hfirst
    split_ifs at hrest with hbreak
    · simp only [Action.pure_apply, Prod.mk.injEq, Outcome.ok.injEq] at hrest
      obtain ⟨rfl, rfl⟩ := hrest
      obtain ⟨hsees, rfl⟩ := htakes.of_break hbreak
      exact ⟨[], d, by simp, Decoder.takesAll_nil.mpr rfl, hsees, rfl, by simp⟩
    · cases hchunk : chunkOf major c.value with
      | none => simp [hchunk] at hrest
      | some chunk =>
        simp only [hchunk] at hrest
        obtain ⟨hmajor', rfl⟩ := (Item.chunkOf_value hmajor).mp hchunk
        obtain ⟨cs, d₂, hmajors, htakesAll, hsees, rfl, rfl⟩ := ih _ (htakes.valid hd) hrest
        refine ⟨c :: cs, d₂, ?_, Decoder.takesAll_cons.mpr ⟨d₁, htakes, htakesAll⟩, hsees, rfl,
          by simp⟩
        simpa using ⟨hmajor', hmajors⟩

/-! ## Heads and their content -/

/-- The bytes between a head and the end of its item. -/
def Head.tail (h : Head) (content : List UInt8) (children : List Item) : List UInt8 :=
  content ++ Item.bytesList children ++ (if h.childCount = none then [0xff] else [])

theorem Item.bytes_node (h : Head) (content : List UInt8) (children : List Item) :
    (Item.node h content children).bytes = h.bytes ++ h.tail content children := by
  simp [Item.bytes, Head.tail]

/-- The content that belongs to a head stands between two positions of the cursor. -/
structure Decoder.TakesContent (d : Decoder) (h : Head) (content : List UInt8)
    (children : List Item) (d' : Decoder) : Prop where
  skeleton : Item.SkeletonRule h content children
  readable : Item.ReadableRule h content children
  accepted : ∀ c ∈ children, c.Accepted
  sees : d.Sees (h.tail content children)
  advances : d' = d.advance (h.tail content children).length

/-- An item without nested items. -/
theorem takesContent_leaf {d d' : Decoder} {h : Head} (hv : h.Valid) (hm : h.major ≠ majorSimple)
    {content : List UInt8} (hlength : content.length = h.contentLength)
    (hcount : h.childCount = some 0) (hsees : d.Sees content)
    (hadvance : d' = d.advance content.length) : d.TakesContent h content [] d' := by
  have htail : h.tail content [] = content := by simp [Head.tail, hcount]
  refine ⟨⟨hv, hlength, by simp [hcount], by simp [Head.ClosesAt], by simp⟩,
    ⟨fun h7 ↦ absurd h7 hm, by simp, by simp [KeysHashable]⟩, by simp, ?_, ?_⟩
  · rwa [htail]
  · rwa [htail]

/-- An item with a fixed number of nested items. -/
theorem takesContent_counted {d d' : Decoder} {h : Head} (hv : h.Valid)
    (hm : h.major = majorArray ∨ h.major = majorMap ∨ h.major = majorTag) {cs : List Item}
    (hcount : h.childCount = some cs.length) (hcloses : h.ClosesAt cs.length)
    (htakes : d.TakesAll cs d')
    (hkeys : h.major = majorMap → KeysHashable (Item.values cs)) : d.TakesContent h [] cs d' := by
  obtain ⟨haccepted, hsees, hadvance⟩ := htakes
  have htail : h.tail [] cs = Item.bytesList cs := by simp [Head.tail, hcount]
  have hlength : h.contentLength = 0 := by
    rcases hm with hm | hm | hm <;> simp [Head.contentLength, hm, majorArray, majorMap, majorTag]
  have hnotSimple : h.major ≠ majorSimple := by
    rcases hm with hm | hm | hm <;> rw [hm] <;> decide
  have hnotString : ¬(h.major = majorBytes ∨ h.major = majorText) := by
    rcases hm with hm | hm | hm <;> rw [hm] <;> decide
  refine ⟨⟨hv, by simp [hlength], by simp [hcount], hcloses, by simp [hcount]⟩,
    ⟨fun h7 ↦ absurd h7 hnotSimple, fun h23 ↦ absurd h23 hnotString, hkeys⟩, haccepted, ?_, ?_⟩
  · rwa [htail]
  · rwa [htail]

/-- An item whose nested items end with a break. -/
theorem takesContent_untilBreak {d d₁ d' : Decoder} {h : Head} (hv : h.Valid)
    (hm : h.major ≠ majorSimple) (hindef : h.Indefinite) {cs : List Item}
    (hcount : h.childCount = none) (hcloses : h.ClosesAt cs.length)
    (hopen : ∀ i c, cs[i]? = some c → h.ClosesAt i → ¬c.IsBreak)
    (htakes : d.TakesAll cs d₁) (hsees : d₁.Sees [0xff]) (hadvance : d' = d₁.advance 1)
    (hchunks : h.major = majorBytes ∨ h.major = majorText → ∀ c ∈ cs, c.head.major = h.major)
    (hkeys : h.major = majorMap → KeysHashable (Item.values cs)) : d.TakesContent h [] cs d' := by
  obtain ⟨haccepted, hseesAll, rfl⟩ := htakes
  have htail : h.tail [] cs = Item.bytesList cs ++ [0xff] := by simp [Head.tail, hcount]
  refine ⟨⟨hv, by simp [Head.contentLength, hindef], by simp [hcount], hcloses, fun _ ↦ hopen⟩,
    ⟨fun h7 ↦ absurd h7 hm, hchunks, hkeys⟩, haccepted, ?_, ?_⟩
  · rw [htail, Decoder.sees_append]
    exact ⟨hseesAll, hsees⟩
  · rw [hadvance, htail]
    simp

/-- A definite-length string: `int(arg)` cannot come out negative, or `readN` would have failed. -/
theorem readN_arg_eq_ok {d d' : Decoder} (hd : d.Valid) {h : Head} (hv : h.Valid)
    {raw : List UInt8} (hread : readN (wrapInt64 h.arg.toNat) d = (.ok raw, d')) :
    raw.length = h.count ∧ d.Sees raw ∧ d' = d.advance raw.length := by
  obtain ⟨hlen, hsees, hadvance⟩ := (readN_eq_ok hd (wrapInt64_lt _)).mp hread
  refine ⟨?_, hsees, hadvance⟩
  rw [Head.toNat_arg hv] at hlen
  have hlt := h.count_lt hv
  rcases lt_or_ge (h.count : ℤ) (2 ^ 63) with hsmall | hbig
  · rw [wrapInt64_of_fits (by omega) hsmall] at hlen
    exact_mod_cast hlen.symm
  · rw [wrapInt64_of_overflow hbig (by omega)] at hlen
    omega

theorem takesContent_string {d d' : Decoder} (hd : d.Valid) {h : Head} (hv : h.Valid)
    (hm : h.major = majorBytes ∨ h.major = majorText) (hindef : ¬h.Indefinite) {raw : List UInt8}
    (hread : readN (wrapInt64 h.arg.toNat) d = (.ok raw, d')) : d.TakesContent h raw [] d' := by
  obtain ⟨hlen, hsees, hadvance⟩ := readN_arg_eq_ok hd hv hread
  apply takesContent_leaf hv _ _ _ hsees hadvance
  · rcases hm with hm | hm <;> rw [hm] <;> decide
  · rcases hm with hm | hm <;> simp [Head.contentLength, hm, hindef, hlen, majorBytes, majorText]
  · rcases hm with hm | hm <;> simp [Head.childCount, hm, hindef, majorBytes, majorText]

/-- A string in chunks. -/
theorem takesContent_chunks (hcall : SoundCall decode) {h : Head} (hv : h.Valid)
    (hm : h.major = majorBytes ∨ h.major = majorText) (hindef : h.Indefinite) {d d' : Decoder}
    (hd : d.Valid) {invalid : DecodeError} {fuel : ℕ} {out : List UInt8}
    (hchunks : decodeChunks decode h.major invalid fuel [] d = (.ok out, d')) :
    ∃ cs, d.TakesContent h [] cs d' ∧ out = (Item.values cs).flatMap chunkData := by
  obtain ⟨cs, d₁, hmajors, htakes, hsees, hadvance, rfl⟩ :=
    decodeChunks_sound hcall hm _ _ _ hd hchunks
  have hnotSimple : h.major ≠ majorSimple := by
    rcases hm with hm | hm <;> rw [hm] <;> decide
  have hnotMap : h.major ≠ majorMap := by
    rcases hm with hm | hm <;> rw [hm] <;> decide
  refine ⟨cs, takesContent_untilBreak hv hnotSimple hindef ?_ (fun h5 ↦ absurd h5 hnotMap) ?_ htakes
    hsees hadvance (fun _ ↦ hmajors) (fun h5 ↦ absurd h5 hnotMap), rfl⟩
  · rcases hm with hm | hm <;> simp [Head.childCount, hm, hindef, majorBytes, majorText]
  · intro i c hc _ hbreak
    have hmajor := hmajors c (List.mem_of_getElem? hc)
    rw [hbreak.major] at hmajor
    exact hnotSimple hmajor.symm

theorem decodeArray_sound (hcall : SoundCall decode) (fuel : ℕ) {h : Head} (hv : h.Valid)
    (hm : h.major = majorArray) {d d' : Decoder} (hd : d.Valid) {v : Value}
    (hdecode : decodeArray decode fuel h.arg (decide h.Indefinite) d = (.ok v, d')) :
    ∃ cs, d.TakesContent h [] cs d' ∧ v = .array (Item.values cs) := by
  have hcloses (n : ℕ) : h.ClosesAt n := by simp [Head.ClosesAt, hm, majorArray]
  have hnotMap : ¬h.major = majorMap := by rw [hm]; decide
  unfold decodeArray at hdecode
  split_ifs at hdecode with hi
  · have hindef : h.Indefinite := of_decide_eq_true hi
    obtain ⟨out, hloop, rfl⟩ := Action.bind_pure_eq_ok.mp hdecode
    obtain ⟨cs, d₁, hopen, htakes, hsees, hadvance, rfl⟩ :=
      decodeArrayUntilBreak_sound hcall _ _ hd hloop
    refine ⟨cs, takesContent_untilBreak hv (by rw [hm]; decide) hindef ?_ (hcloses _) ?_ htakes hsees
      hadvance ?_ (fun h5 ↦ absurd h5 hnotMap), rfl⟩
    · simp [Head.childCount, hm, hindef, majorArray]
    · exact fun i c hc _ ↦ hopen c (List.mem_of_getElem? hc)
    · simp [hm, majorBytes, majorText, majorArray]
  · have hindef : ¬h.Indefinite := fun hi' ↦ hi (decide_eq_true hi')
    obtain ⟨out, hloop, rfl⟩ := Action.bind_pure_eq_ok.mp hdecode
    obtain ⟨cs, hlen, htakes, rfl⟩ := decodeArrayItems_sound hcall _ _ hd hloop
    rw [Head.toNat_arg hv] at hlen
    refine ⟨cs, takesContent_counted hv (.inl hm) ?_ (hcloses _) htakes
      (fun h5 ↦ absurd h5 hnotMap), rfl⟩
    simp [Head.childCount, hm, hindef, hlen, majorArray]

theorem decodeMap_sound (hcall : SoundCall decode) (fuel : ℕ) {h : Head} (hv : h.Valid)
    (hm : h.major = majorMap) {d d' : Decoder} (hd : d.Valid) {v : Value}
    (hdecode : decodeMap decode fuel h.arg (decide h.Indefinite) d = (.ok v, d')) :
    ∃ cs, d.TakesContent h [] cs d' ∧ v = .map (assignAll [] (Item.values cs)) := by
  unfold decodeMap at hdecode
  split_ifs at hdecode with hi
  · have hindef : h.Indefinite := of_decide_eq_true hi
    obtain ⟨out, hloop, rfl⟩ := Action.bind_pure_eq_ok.mp hdecode
    obtain ⟨cs, d₁, heven, hopen, htakes, hsees, hadvance, hkeys, rfl⟩ :=
      decodeMapUntilBreak_sound hcall _ _ hd hloop
    refine ⟨cs, takesContent_untilBreak hv (by rw [hm]; decide) hindef ?_ (fun _ ↦ heven) ?_ htakes
      hsees hadvance ?_ (fun _ ↦ hkeys), rfl⟩
    · simp [Head.childCount, hm, hindef, majorMap]
    · exact fun i c hc hclose ↦ hopen i c hc (hclose hm)
    · simp [hm, majorBytes, majorText, majorMap]
  · have hindef : ¬h.Indefinite := fun hi' ↦ hi (decide_eq_true hi')
    obtain ⟨out, hloop, rfl⟩ := Action.bind_pure_eq_ok.mp hdecode
    obtain ⟨cs, hlen, htakes, hkeys, rfl⟩ := decodeMapEntries_sound hcall _ _ hd hloop
    rw [Head.toNat_arg hv] at hlen
    refine ⟨cs, takesContent_counted hv (.inr (.inl hm)) ?_ ?_ htakes (fun _ ↦ hkeys), rfl⟩
    · simp [Head.childCount, hm, hindef, hlen, majorMap]
    · intro _
      omega

/-- The two string types differ in the constructor `make` and in the error of a wrong chunk. -/
theorem decodeString_sound (hcall : SoundCall decode) (fuel : ℕ) {h : Head} (hv : h.Valid)
    {major : UInt8} (hmajor : major = majorBytes ∨ major = majorText) (hm : h.major = major)
    (invalid : DecodeError) (make : List UInt8 → Value) {d d' : Decoder} (hd : d.Valid) {v : Value}
    (hdecode : (if decide h.Indefinite then do
        let out ← decodeChunks decode major invalid fuel []
        pure (make out)
      else do
        let raw ← readN (wrapInt64 h.arg.toNat)
        pure (make raw) : DecodeM Value) d = (.ok v, d')) :
    ∃ content children, d.TakesContent h content children d' ∧
      v = make (if h.Indefinite then (Item.values children).flatMap chunkData else content) := by
  subst hm
  by_cases hindef : h.Indefinite
  · rw [decide_eq_true hindef, if_pos rfl] at hdecode
    obtain ⟨out, hchunks, rfl⟩ := Action.bind_pure_eq_ok.mp hdecode
    obtain ⟨cs, htakes, rfl⟩ := takesContent_chunks hcall hv hmajor hindef hd hchunks
    exact ⟨[], cs, htakes, by rw [if_pos hindef]⟩
  · rw [decide_eq_false hindef, if_neg Bool.false_ne_true] at hdecode
    obtain ⟨raw, hread, rfl⟩ := Action.bind_pure_eq_ok.mp hdecode
    exact ⟨raw, [], takesContent_string hd hv hmajor hindef hread, by rw [if_neg hindef]⟩

theorem decodeContent_sound (hcall : SoundCall decode) (fuel : ℕ) {h : Head} (hv : h.Valid)
    (hm : h.major ≠ majorSimple) {d d' : Decoder} (hd : d.Valid) {v : Value}
    (hdecode : decodeContent decode fuel h.major h.arg (decide h.Indefinite) d = (.ok v, d')) :
    ∃ content children, d.TakesContent h content children d' ∧
      v = contentValue h content (Item.values children) := by
  rcases Item.major_cases h with h0 | h1 | h2 | h3 | h4 | h5 | h6 | h7
  · rw [h0, decodeContent_uint, Action.pure_apply, Prod.mk.injEq, Outcome.ok.injEq] at hdecode
    obtain ⟨rfl, rfl⟩ := hdecode
    refine ⟨[], [], takesContent_leaf hv hm ?_ ?_ d.sees_nil rfl, (contentValue_uint h0 _ _).symm⟩
    · simp [Head.contentLength, h0, majorUint]
    · simp [Head.childCount, h0, majorUint]
  · rw [h1, decodeContent_nint, Action.pure_apply, Prod.mk.injEq, Outcome.ok.injEq] at hdecode
    obtain ⟨rfl, rfl⟩ := hdecode
    refine ⟨[], [], takesContent_leaf hv hm ?_ ?_ d.sees_nil rfl, (contentValue_nint h1 _ _).symm⟩
    · simp [Head.contentLength, h1, majorNint]
    · simp [Head.childCount, h1, majorNint]
  · rw [h2, decodeContent_bytes] at hdecode
    simp only [contentValue_bytes h2]
    exact decodeString_sound hcall fuel hv (.inl rfl) h2 .invalidBytesChunk .bytes hd hdecode
  · rw [h3, decodeContent_text] at hdecode
    simp only [contentValue_text h3]
    exact decodeString_sound hcall fuel hv (.inr rfl) h3 .invalidTextChunk .text hd hdecode
  · rw [h4, decodeContent_array] at hdecode
    obtain ⟨cs, htakes, rfl⟩ := decodeArray_sound hcall fuel hv h4 hd hdecode
    exact ⟨[], cs, htakes, (contentValue_array h4 _ _).symm⟩
  · rw [h5, decodeContent_map] at hdecode
    obtain ⟨cs, htakes, rfl⟩ := decodeMap_sound hcall fuel hv h5 hd hdecode
    exact ⟨[], cs, htakes, (contentValue_map h5 _ _).symm⟩
  · rw [h6, decodeContent_tag] at hdecode
    obtain ⟨content, hnested, rfl⟩ := Action.bind_pure_eq_ok.mp hdecode
    obtain ⟨c, htakes, rfl⟩ := hcall hd hnested
    refine ⟨[], [c], takesContent_counted hv (.inr (.inr h6)) ?_ ?_ ?_ ?_, ?_⟩
    · simp [Head.childCount, h6, majorTag]
    · simp [Head.ClosesAt, h6, majorTag]
    · exact Decoder.takesAll_cons.mpr ⟨_, htakes, Decoder.takesAll_nil.mpr rfl⟩
    · simp [h6, majorTag, majorMap]
    · rw [contentValue_tag h6, Item.values_cons, List.headD_cons]
  · exact absurd h7 hm

end Containers

/-! ## The whole decoder -/

/-- Everything `decode` returns is the value of an accepted item that it has read. -/
theorem decode_sound (fuel : ℕ) : SoundCall (decode fuel) := by
  induction fuel with
  | zero =>
    intro d v d' _ h
    simp [decode] at h
  | succ fuel ih =>
    intro d v d' hd h
    obtain ⟨initial, d₁, hbyte, hrest⟩ := Action.bind_eq_ok.mp h
    obtain ⟨hfirst, rfl⟩ := readByte_eq_ok.mp hbyte
    have hd₁ : (d.advance 1).Valid := hd.advance hfirst
    have assemble {argument content : List UInt8} {children : List Item}
        (haccepted : (Item.node ⟨initial, argument⟩ content children).Accepted)
        (hargument : (d.advance 1).Sees argument)
        (htail : ((d.advance 1).advance argument.length).Sees
          (Head.tail ⟨initial, argument⟩ content children))
        (hadvance : d' = ((d.advance 1).advance argument.length).advance
          (Head.tail ⟨initial, argument⟩ content children).length) :
        d.Takes (Item.node ⟨initial, argument⟩ content children) d' := by
      refine ⟨haccepted, ?_, ?_⟩
      · rw [Item.bytes_node, Head.bytes, List.cons_append, Decoder.sees_cons, Decoder.sees_append]
        exact ⟨hfirst, hargument, htail⟩
      · rw [hadvance, Item.bytes_node]
        simp [Nat.add_assoc]
    split_ifs at hrest with hsimple
    · obtain ⟨argument, hv, hsupported, hargument, rfl, rfl⟩ :=
        (decodeSimple_eq_ok hd₁).mp hrest
      have hmajor : (Head.mk initial argument).major = majorSimple := hsimple
      have hcount : (Head.mk initial argument).childCount = some 0 := by
        simp [Head.childCount, hmajor, majorSimple]
      have hlength : (Head.mk initial argument).contentLength = 0 := by
        simp [Head.contentLength, hmajor, majorSimple]
      have htail : Head.tail ⟨initial, argument⟩ [] [] = [] := by simp [Head.tail, hcount]
      refine ⟨.node ⟨initial, argument⟩ [] [], assemble (.intro ?_ ?_ (by simp)) hargument ?_ ?_, ?_⟩
      · exact ⟨hv, by simp [hlength], by simp [hcount], by simp [Head.ClosesAt], by simp⟩
      · exact ⟨fun _ ↦ hsupported, by simp, by simp [KeysHashable]⟩
      · rw [htail]
        exact Decoder.sees_nil _
      · simp [htail]
      · rw [Item.value_node, contentValue_simple hmajor]
    · obtain ⟨⟨arg, indef⟩, d₂, harg, hcontent⟩ := Action.bind_eq_ok.mp hrest
      obtain ⟨argument, hv, hargument, rfl, rfl, rfl⟩ := (readArg_eq_ok hd₁).mp harg
      obtain ⟨content, children, htakes, rfl⟩ := decodeContent_sound ih fuel hv hsimple
        (hd₁.advance hargument) hcontent
      refine ⟨.node ⟨initial, argument⟩ content children, assemble ?_ hargument htakes.sees
        htakes.advances, (Item.value_node _ _ _).symm⟩
      exact .intro htakes.skeleton htakes.readable htakes.accepted

end Zenith.Cbor
