import Zenith.Cbor.Soundness

/-!
# The decoder reads every accepted item

With more fuel than the item has bytes, `decode` returns the value of an accepted item in front of
the cursor and moves past it. Together with `decode_sound` this makes `Item.Accepted` and
`Item.value` an exact description of the decoder's successes.
-/

namespace Zenith.Cbor

open Go

section Containers

variable {decode : DecodeM Value}

/-- A recursive call that reads each of the given items. -/
def CompleteCall (decode : DecodeM Value) (cs : List Item) : Prop :=
  ∀ c ∈ cs, ∀ d : Decoder, d.Valid → d.Sees c.bytes →
    decode d = (.ok c.value, d.advance c.bytes.length)

/-- A recursive call that reads a break code. -/
def ReadsBreak (decode : DecodeM Value) : Prop :=
  ∀ d : Decoder, d.Valid → d.Sees [0xff] → decode d = (.ok .breakMarker, d.advance 1)

theorem CompleteCall.head {c : Item} {cs : List Item} (h : CompleteCall decode (c :: cs))
    {d : Decoder} (hd : d.Valid) (hsees : d.Sees c.bytes) :
    decode d = (.ok c.value, d.advance c.bytes.length) := h c (by simp) d hd hsees

theorem CompleteCall.tail {c : Item} {cs : List Item} (h : CompleteCall decode (c :: cs)) :
    CompleteCall decode cs := fun c' hc' ↦ h c' (by simp [hc'])

/-! ### Loops over items that the recursive call reads -/

theorem decodeArrayItems_run {cs : List Item} (hcall : CompleteCall decode cs) (count : ℕ)
    (out : List Value) {d : Decoder} (hd : d.Valid) (hsees : d.Sees (Item.bytesList cs)) :
    decodeArrayItems decode (count + cs.length) out d =
      decodeArrayItems decode count (out ++ Item.values cs)
        (d.advance (Item.bytesList cs).length) := by
  induction cs generalizing out d with
  | nil => simp
  | cons c cs ih =>
    rw [Item.bytesList_cons, Decoder.sees_append] at hsees
    obtain ⟨hfirst, hrest⟩ := hsees
    rw [List.length_cons, ← Nat.add_assoc, decodeArrayItems,
      Action.bind_of_ok (hcall.head hd hfirst), ih hcall.tail _ (hd.advance hfirst) hrest]
    simp

theorem decodeArrayUntilBreak_run {cs : List Item} (hcall : CompleteCall decode cs)
    (hopen : ∀ c ∈ cs, ¬c.IsBreak) (fuel : ℕ) (out : List Value) {d : Decoder} (hd : d.Valid)
    (hsees : d.Sees (Item.bytesList cs)) :
    decodeArrayUntilBreak decode (fuel + cs.length) out d =
      decodeArrayUntilBreak decode fuel (out ++ Item.values cs)
        (d.advance (Item.bytesList cs).length) := by
  induction cs generalizing out d with
  | nil => simp
  | cons c cs ih =>
    rw [Item.bytesList_cons, Decoder.sees_append] at hsees
    obtain ⟨hfirst, hrest⟩ := hsees
    have hnot : ¬c.value.isBreakMarker = true := fun h ↦
      hopen c (by simp) (Item.isBreakMarker_value.mp h)
    rw [List.length_cons, ← Nat.add_assoc, decodeArrayUntilBreak,
      Action.bind_of_ok (hcall.head hd hfirst), if_neg hnot,
      ih hcall.tail (fun c' hc' ↦ hopen c' (by simp [hc'])) _ (hd.advance hfirst) hrest]
    simp

theorem decodeChunks_run {major : UInt8} (hmajor : major = majorBytes ∨ major = majorText)
    (invalid : DecodeError) {cs : List Item} (hcall : CompleteCall decode cs)
    (hmajors : ∀ c ∈ cs, c.head.major = major) (fuel : ℕ) (out : List UInt8) {d : Decoder}
    (hd : d.Valid) (hsees : d.Sees (Item.bytesList cs)) :
    decodeChunks decode major invalid (fuel + cs.length) out d =
      decodeChunks decode major invalid fuel (out ++ (Item.values cs).flatMap chunkData)
        (d.advance (Item.bytesList cs).length) := by
  induction cs generalizing out d with
  | nil => simp
  | cons c cs ih =>
    rw [Item.bytesList_cons, Decoder.sees_append] at hsees
    obtain ⟨hfirst, hrest⟩ := hsees
    have hchunk : chunkOf major c.value = some (chunkData c.value) :=
      (Item.chunkOf_value hmajor).mpr ⟨hmajors c (by simp), rfl⟩
    have hnot : ¬c.value.isBreakMarker = true := by
      intro h
      have hbreakMajor := (Item.isBreakMarker_value.mp h).major
      rw [hmajors c (by simp)] at hbreakMajor
      rcases hmajor with rfl | rfl <;> exact absurd hbreakMajor (by decide)
    rw [List.length_cons, ← Nat.add_assoc, decodeChunks,
      Action.bind_of_ok (hcall.head hd hfirst), if_neg hnot]
    simp only [hchunk]
    rw [ih hcall.tail (fun c' hc' ↦ hmajors c' (by simp [hc'])) _ (hd.advance hfirst) hrest]
    simp

/-- One key-value pair of either map loop. -/
theorem assignPair_complete {γ : Type} {c : Item} (hcall : CompleteCall decode [c])
    (out : List (Value × Value)) {k : Value} (hk : k.hashable = true)
    (next : List (Value × Value) → DecodeM γ) {d : Decoder} (hd : d.Valid)
    (hsees : d.Sees c.bytes) :
    (do let v ← decode; let out ← assign out k v; next out : DecodeM γ) d =
      next (Value.upsert out k c.value) (d.advance c.bytes.length) := by
  rw [Action.bind_of_ok (hcall.head hd hsees)]
  refine Action.bind_of_ok ?_ _
  simp [assign, hk]

theorem CompleteCall.second {key val : Item} {cs : List Item}
    (h : CompleteCall decode (key :: val :: cs)) : CompleteCall decode [val] := by
  intro c hc
  obtain rfl := List.mem_singleton.mp hc
  exact h.tail c (by simp)

theorem exists_pair_cons {cs : List Item} {pairs : ℕ} (hlen : cs.length = 2 * (pairs + 1)) :
    ∃ key val rest, cs = key :: val :: rest ∧ rest.length = 2 * pairs := by
  rcases cs with _ | ⟨key, _ | ⟨val, rest⟩⟩
  · simp at hlen
  · simp at hlen
    omega
  · exact ⟨key, val, rest, rfl, by simp at hlen; omega⟩

theorem decodeMapEntries_run {pairs : ℕ} {cs : List Item} (hlen : cs.length = 2 * pairs)
    (hcall : CompleteCall decode cs) (hkeys : KeysHashable (Item.values cs)) (count : ℕ)
    (out : List (Value × Value)) {d : Decoder} (hd : d.Valid)
    (hsees : d.Sees (Item.bytesList cs)) :
    decodeMapEntries decode (count + pairs) out d =
      decodeMapEntries decode count (assignAll out (Item.values cs))
        (d.advance (Item.bytesList cs).length) := by
  induction pairs generalizing cs out d with
  | zero =>
    obtain rfl : cs = [] := List.length_eq_zero_iff.mp hlen
    simp [assignAll]
  | succ pairs ih =>
    obtain ⟨key, val, tail, rfl, htail⟩ := exists_pair_cons hlen
    simp only [Item.bytesList_cons, Decoder.sees_append] at hsees
    obtain ⟨hkey, hval, hrest⟩ := hsees
    simp only [Item.values_cons, KeysHashable] at hkeys
    rw [← Nat.add_assoc, decodeMapEntries, Action.bind_of_ok (hcall.head hd hkey),
      assignPair_complete hcall.second _ hkeys.1 _ (hd.advance hkey) hval,
      ih htail hcall.tail.tail hkeys.2 _ ((hd.advance hkey).advance hval) hrest]
    simp [assignAll, Nat.add_assoc]

theorem decodeMapUntilBreak_run {pairs : ℕ} {cs : List Item} (hlen : cs.length = 2 * pairs)
    (hopen : ∀ i c, cs[i]? = some c → i % 2 = 0 → ¬c.IsBreak) (hcall : CompleteCall decode cs)
    (hkeys : KeysHashable (Item.values cs)) (fuel : ℕ) (out : List (Value × Value)) {d : Decoder}
    (hd : d.Valid) (hsees : d.Sees (Item.bytesList cs)) :
    decodeMapUntilBreak decode (fuel + pairs) out d =
      decodeMapUntilBreak decode fuel (assignAll out (Item.values cs))
        (d.advance (Item.bytesList cs).length) := by
  induction pairs generalizing cs out d with
  | zero =>
    obtain rfl : cs = [] := List.length_eq_zero_iff.mp hlen
    simp [assignAll]
  | succ pairs ih =>
    obtain ⟨key, val, tail, rfl, htail⟩ := exists_pair_cons hlen
    simp only [Item.bytesList_cons, Decoder.sees_append] at hsees
    obtain ⟨hkey, hval, hrest⟩ := hsees
    simp only [Item.values_cons, KeysHashable] at hkeys
    have hnot : ¬key.value.isBreakMarker = true := fun h ↦
      hopen 0 key rfl rfl (Item.isBreakMarker_value.mp h)
    rw [← Nat.add_assoc, decodeMapUntilBreak, Action.bind_of_ok (hcall.head hd hkey),
      if_neg hnot, assignPair_complete hcall.second _ hkeys.1 _ (hd.advance hkey) hval,
      ih htail (fun i c hc hi ↦ hopen (i + 2) c (by simpa using hc) (by omega)) hcall.tail.tail
        hkeys.2 _ ((hd.advance hkey).advance hval) hrest]
    simp [assignAll, Nat.add_assoc]

/-! ### Loops that come to their end -/

theorem decodeArrayItems_complete {cs : List Item} (hcall : CompleteCall decode cs)
    (out : List Value) {d : Decoder} (hd : d.Valid) (hsees : d.Sees (Item.bytesList cs)) :
    decodeArrayItems decode cs.length out d =
      (.ok (out ++ Item.values cs), d.advance (Item.bytesList cs).length) := by
  have hrun := decodeArrayItems_run hcall 0 out hd hsees
  rwa [Nat.zero_add] at hrun

theorem decodeArrayUntilBreak_complete {cs : List Item} (hcall : CompleteCall decode cs)
    (hbreak : ReadsBreak decode) (hopen : ∀ c ∈ cs, ¬c.IsBreak) {fuel : ℕ}
    (hfuel : cs.length < fuel) (out : List Value) {d : Decoder} (hd : d.Valid)
    (hsees : d.Sees (Item.bytesList cs ++ [0xff])) :
    decodeArrayUntilBreak decode fuel out d =
      (.ok (out ++ Item.values cs), d.advance (Item.bytesList cs ++ [0xff]).length) := by
  obtain ⟨hitems, hend⟩ := Decoder.sees_append.mp hsees
  obtain ⟨left, rfl⟩ : ∃ n, fuel = n + 1 + cs.length := ⟨fuel - 1 - cs.length, by omega⟩
  rw [decodeArrayUntilBreak_run hcall hopen _ _ hd hitems, decodeArrayUntilBreak,
    Action.bind_of_ok (hbreak _ (hd.advance hitems) hend)]
  simp [Value.isBreakMarker]

theorem decodeChunks_complete {major : UInt8} (hmajor : major = majorBytes ∨ major = majorText)
    (invalid : DecodeError) {cs : List Item} (hcall : CompleteCall decode cs)
    (hbreak : ReadsBreak decode) (hmajors : ∀ c ∈ cs, c.head.major = major) {fuel : ℕ}
    (hfuel : cs.length < fuel) (out : List UInt8) {d : Decoder} (hd : d.Valid)
    (hsees : d.Sees (Item.bytesList cs ++ [0xff])) :
    decodeChunks decode major invalid fuel out d =
      (.ok (out ++ (Item.values cs).flatMap chunkData),
        d.advance (Item.bytesList cs ++ [0xff]).length) := by
  obtain ⟨hitems, hend⟩ := Decoder.sees_append.mp hsees
  obtain ⟨left, rfl⟩ : ∃ n, fuel = n + 1 + cs.length := ⟨fuel - 1 - cs.length, by omega⟩
  rw [decodeChunks_run hmajor invalid hcall hmajors _ _ hd hitems, decodeChunks,
    Action.bind_of_ok (hbreak _ (hd.advance hitems) hend)]
  simp [Value.isBreakMarker]

theorem decodeMapEntries_complete (count : ℕ) {cs : List Item} (hlen : cs.length = 2 * count)
    (hcall : CompleteCall decode cs) (hkeys : KeysHashable (Item.values cs))
    (out : List (Value × Value)) {d : Decoder} (hd : d.Valid)
    (hsees : d.Sees (Item.bytesList cs)) :
    decodeMapEntries decode count out d =
      (.ok (assignAll out (Item.values cs)), d.advance (Item.bytesList cs).length) := by
  have hrun := decodeMapEntries_run hlen hcall hkeys 0 out hd hsees
  rwa [Nat.zero_add] at hrun

theorem decodeMapUntilBreak_complete {fuel : ℕ} {cs : List Item} (heven : cs.length % 2 = 0)
    (hopen : ∀ i c, cs[i]? = some c → i % 2 = 0 → ¬c.IsBreak)
    (hcall : CompleteCall decode cs) (hbreak : ReadsBreak decode)
    (hkeys : KeysHashable (Item.values cs)) (hfuel : cs.length < fuel)
    (out : List (Value × Value)) {d : Decoder} (hd : d.Valid)
    (hsees : d.Sees (Item.bytesList cs ++ [0xff])) :
    decodeMapUntilBreak decode fuel out d =
      (.ok (assignAll out (Item.values cs)), d.advance (Item.bytesList cs ++ [0xff]).length) := by
  obtain ⟨hitems, hend⟩ := Decoder.sees_append.mp hsees
  obtain ⟨pairs, hlen⟩ : ∃ n, cs.length = 2 * n := ⟨cs.length / 2, by omega⟩
  obtain ⟨left, rfl⟩ : ∃ n, fuel = n + 1 + pairs := ⟨fuel - 1 - pairs, by omega⟩
  rw [decodeMapUntilBreak_run hlen hopen hcall hkeys _ _ hd hitems, decodeMapUntilBreak,
    Action.bind_of_ok (hbreak _ (hd.advance hitems) hend)]
  simp [Value.isBreakMarker]

theorem readN_arg_of_sees {d : Decoder} (hd : d.Valid) {h : Head} (hv : h.Valid)
    {content : List UInt8} (hlen : content.length = h.count) (hsees : d.Sees content) :
    readN (wrapInt64 h.arg.toNat) d = (.ok content, d.advance content.length) := by
  have hle := hsees.length_le hd.pos_le
  have hlt := hd.length_lt
  rw [Head.toNat_arg hv, ← hlen, wrapInt64_of_fits (by omega) (by omega)]
  exact readN_of_sees hd hsees

/-- A string after its head. -/
theorem readString_complete {h : Head} (hv : h.Valid) (hm : h.major = majorBytes ∨ h.major = majorText)
    (hdef : ¬h.Indefinite) {content : List UInt8} (hlength : content.length = h.contentLength)
    {d : Decoder} (hd : d.Valid) (hsees : d.Sees content) :
    readN (wrapInt64 h.arg.toNat) d = (.ok content, d.advance content.length) := by
  apply readN_arg_of_sees hd hv _ hsees
  rcases hm with hm | hm <;> simpa [Head.contentLength, hm, hdef, majorBytes, majorText] using hlength

theorem decodeArray_complete {h : Head} (hv : h.Valid) (hm : h.major = majorArray)
    {children : List Item} (hskeleton : Item.SkeletonRule h [] children)
    (hcall : CompleteCall decode children) (hbreak : ReadsBreak decode) {fuel : ℕ}
    (hfuel : children.length < fuel) {d : Decoder} (hd : d.Valid)
    (hsees : d.Sees (h.tail [] children)) :
    decodeArray decode fuel h.arg (decide h.Indefinite) d =
      (.ok (.array (Item.values children)), d.advance (h.tail [] children).length) := by
  unfold decodeArray
  by_cases hi : h.Indefinite
  · have hchildCount : h.childCount = none := by simp [Head.childCount, hm, hi, majorArray]
    have htail : h.tail [] children = Item.bytesList children ++ [0xff] := by
      simp [Head.tail, hchildCount]
    have hopen : ∀ c ∈ children, ¬c.IsBreak := by
      intro c hc
      obtain ⟨i, hi⟩ := List.mem_iff_getElem?.mp hc
      exact hskeleton.open_before hchildCount i c hi
        (fun h5 ↦ absurd (hm.symm.trans h5) (by decide))
    rw [htail] at hsees ⊢
    rw [if_pos (decide_eq_true hi), Action.bind_of_ok
      (decodeArrayUntilBreak_complete hcall hbreak hopen hfuel [] hd hsees)]
    rfl
  · have hchildCount : h.childCount = some h.count := by simp [Head.childCount, hm, hi, majorArray]
    have htail : h.tail [] children = Item.bytesList children := by simp [Head.tail, hchildCount]
    rw [htail] at hsees ⊢
    rw [if_neg (by simpa using hi), Head.toNat_arg hv,
      ← hskeleton.length_children _ hchildCount, Action.bind_of_ok
      (decodeArrayItems_complete hcall [] hd hsees)]
    rfl

theorem decodeMap_complete {h : Head} (hv : h.Valid) (hm : h.major = majorMap)
    {children : List Item} (hskeleton : Item.SkeletonRule h [] children)
    (hkeys : KeysHashable (Item.values children))
    (hcall : CompleteCall decode children) (hbreak : ReadsBreak decode) {fuel : ℕ}
    (hfuel : children.length < fuel) {d : Decoder} (hd : d.Valid)
    (hsees : d.Sees (h.tail [] children)) :
    decodeMap decode fuel h.arg (decide h.Indefinite) d =
      (.ok (.map (assignAll [] (Item.values children))), d.advance (h.tail [] children).length) := by
  unfold decodeMap
  by_cases hi : h.Indefinite
  · have hchildCount : h.childCount = none := by simp [Head.childCount, hm, hi, majorMap]
    have htail : h.tail [] children = Item.bytesList children ++ [0xff] := by
      simp [Head.tail, hchildCount]
    rw [htail] at hsees ⊢
    rw [if_pos (decide_eq_true hi), Action.bind_of_ok
      (decodeMapUntilBreak_complete (hskeleton.closes hm)
        (fun i c hc heven ↦ hskeleton.open_before hchildCount i c hc fun _ ↦ heven)
        hcall hbreak hkeys hfuel [] hd hsees)]
    rfl
  · have hchildCount : h.childCount = some (2 * h.count) := by
      simp [Head.childCount, hm, hi, majorMap]
    have htail : h.tail [] children = Item.bytesList children := by simp [Head.tail, hchildCount]
    rw [htail] at hsees ⊢
    rw [if_neg (by simpa using hi), Head.toNat_arg hv, Action.bind_of_ok
      (decodeMapEntries_complete h.count (hskeleton.length_children _ hchildCount) hcall hkeys []
        hd hsees)]
    rfl

/-- The two string types differ in the constructor `make` and in the error of a wrong chunk. -/
theorem decodeString_complete {h : Head} {content : List UInt8} {children : List Item}
    (hskeleton : Item.SkeletonRule h content children) {major : UInt8}
    (hmajor : major = majorBytes ∨ major = majorText) (hm : h.major = major)
    (hmajors : ∀ c ∈ children, c.head.major = major) (invalid : DecodeError)
    (make : List UInt8 → Value) (hcall : CompleteCall decode children) (hbreak : ReadsBreak decode)
    {fuel : ℕ} (hfuel : children.length < fuel) {d : Decoder} (hd : d.Valid)
    (hsees : d.Sees (h.tail content children)) :
    (if decide h.Indefinite then do
        let out ← decodeChunks decode major invalid fuel []
        pure (make out)
      else do
        let raw ← readN (wrapInt64 h.arg.toNat)
        pure (make raw) : DecodeM Value) d =
      (.ok (make (if h.Indefinite then (Item.values children).flatMap chunkData else content)),
        d.advance (h.tail content children).length) := by
  have hstring : h.major = 2 ∨ h.major = 3 := by
    rw [hm]
    exact hmajor
  by_cases hi : h.Indefinite
  · have hchildCount : h.childCount = none := by rw [Head.childCount, if_pos hstring, if_pos hi]
    obtain rfl : content = [] := by
      apply List.length_eq_zero_iff.mp
      rw [hskeleton.length_content]
      simp [Head.contentLength, hi]
    have htail : h.tail [] children = Item.bytesList children ++ [0xff] := by
      simp [Head.tail, hchildCount]
    rw [htail] at hsees ⊢
    have hchunks := decodeChunks_complete hmajor invalid hcall hbreak hmajors hfuel [] hd hsees
    rw [if_pos (decide_eq_true hi), if_pos hi, Action.bind_of_ok hchunks]
    rfl
  · have hchildCount : h.childCount = some 0 := by
      rw [Head.childCount, if_pos hstring, if_neg hi]
    obtain rfl : children = [] :=
      List.length_eq_zero_iff.mp (hskeleton.length_children 0 hchildCount)
    have htail : h.tail content [] = content := by simp [Head.tail, hchildCount]
    rw [htail] at hsees ⊢
    have hread := readString_complete hskeleton.valid (by rwa [hm]) hi hskeleton.length_content hd
      hsees
    rw [if_neg (by simpa using hi), if_neg hi, Action.bind_of_ok hread]
    rfl

theorem decodeContent_complete {h : Head} {content : List UInt8} {children : List Item}
    (hskeleton : Item.SkeletonRule h content children)
    (hreadable : Item.ReadableRule h content children) (hm : h.major ≠ majorSimple)
    (hcall : CompleteCall decode children) (hbreak : ReadsBreak decode) {fuel : ℕ}
    (hfuel : children.length < fuel) {d : Decoder} (hd : d.Valid)
    (hsees : d.Sees (h.tail content children)) :
    decodeContent decode fuel h.major h.arg (decide h.Indefinite) d =
      (.ok (contentValue h content (Item.values children)),
        d.advance (h.tail content children).length) := by
  have hv := hskeleton.valid
  have leaf (hchildCount : h.childCount = some 0) : children = [] ∧ h.tail content [] = content :=
    ⟨List.length_eq_zero_iff.mp (hskeleton.length_children 0 hchildCount),
      by simp [Head.tail, hchildCount]⟩
  have bare (hzero : h.contentLength = 0) : content = [] :=
    List.length_eq_zero_iff.mp (hskeleton.length_content.trans hzero)
  rcases Item.major_cases h with h0 | h1 | h2 | h3 | h4 | h5 | h6 | h7
  · obtain ⟨rfl, htail⟩ := leaf (by simp [Head.childCount, h0, majorUint])
    obtain rfl := bare (by simp [Head.contentLength, h0, majorUint])
    rw [h0, decodeContent_uint, contentValue_uint h0, htail]
    rfl
  · obtain ⟨rfl, htail⟩ := leaf (by simp [Head.childCount, h1, majorNint])
    obtain rfl := bare (by simp [Head.contentLength, h1, majorNint])
    rw [h1, decodeContent_nint, contentValue_nint h1, htail]
    rfl
  · rw [h2, decodeContent_bytes, contentValue_bytes h2]
    exact decodeString_complete hskeleton (.inl rfl) h2
      (fun c hc ↦ (hreadable.chunks (.inl h2) c hc).trans h2) .invalidBytesChunk .bytes hcall hbreak
      hfuel hd hsees
  · rw [h3, decodeContent_text, contentValue_text h3]
    exact decodeString_complete hskeleton (.inr rfl) h3
      (fun c hc ↦ (hreadable.chunks (.inr h3) c hc).trans h3) .invalidTextChunk .text hcall hbreak
      hfuel hd hsees
  · obtain rfl := bare (by simp [Head.contentLength, h4, majorArray])
    rw [h4, decodeContent_array, contentValue_array h4]
    exact decodeArray_complete hv h4 hskeleton hcall hbreak hfuel hd hsees
  · obtain rfl := bare (by simp [Head.contentLength, h5, majorMap])
    rw [h5, decodeContent_map, contentValue_map h5]
    exact decodeMap_complete hv h5 hskeleton (hreadable.keys h5) hcall hbreak hfuel hd hsees
  · obtain rfl := bare (by simp [Head.contentLength, h6, majorTag])
    have hchildCount : h.childCount = some 1 := by simp [Head.childCount, h6, majorTag]
    obtain ⟨c, rfl⟩ := List.length_eq_one_iff.mp (hskeleton.length_children 1 hchildCount)
    have htail : h.tail [] [c] = c.bytes := by simp [Head.tail, hchildCount]
    rw [htail] at hsees ⊢
    rw [h6, decodeContent_tag, contentValue_tag h6, Action.bind_of_ok (hcall.head hd hsees)]
    rfl
  · exact absurd h7 hm

end Containers

/-! ## The whole decoder -/

theorem decode_break {fuel : ℕ} (hfuel : 0 < fuel) : ReadsBreak (decode fuel) := by
  intro d _ hsees
  obtain ⟨fuel, rfl⟩ : ∃ n, fuel = n + 1 := ⟨fuel - 1, by omega⟩
  rw [decode, Action.bind_of_ok (readByte_eq_ok.mpr ⟨hsees, rfl⟩)]
  rfl

theorem Item.length_le_bytesList (cs : List Item) : cs.length ≤ (Item.bytesList cs).length := by
  induction cs with
  | nil => simp
  | cons c cs ih =>
    have hpos := c.length_bytes_pos
    simp only [List.length_cons, Item.bytesList_cons, List.length_append]
    omega

theorem Item.length_bytes_le_of_mem {cs : List Item} {c : Item} (hc : c ∈ cs) :
    c.bytes.length ≤ (Item.bytesList cs).length := by
  induction cs with
  | nil => exact absurd hc List.not_mem_nil
  | cons c' cs ih =>
    rw [Item.bytesList_cons, List.length_append]
    rcases List.mem_cons.mp hc with rfl | hc
    · omega
    · have := ih hc
      omega

/-- With more fuel than the item has bytes, `decode` returns its value and moves past it. -/
theorem decode_complete {s : Item} (hs : s.Accepted) {fuel : ℕ} (hfuel : s.bytes.length < fuel)
    {d : Decoder} (hd : d.Valid) (hsees : d.Sees s.bytes) :
    decode fuel d = (.ok s.value, d.advance s.bytes.length) := by
  induction s generalizing fuel d with
  | node h content children ih =>
    obtain ⟨initial, argument⟩ := h
    obtain ⟨fuel, rfl⟩ : ∃ n, fuel = n + 1 := ⟨fuel - 1, by omega⟩
    have hskeleton := hs.1.rule_holds
    have hreadable := hs.2.rule_holds
    rw [Item.bytes_node, Head.bytes, List.cons_append] at hfuel hsees ⊢
    rw [Decoder.sees_cons, Decoder.sees_append] at hsees
    obtain ⟨hfirst, hargument, htail⟩ := hsees
    have hd₁ : (d.advance 1).Valid := hd.advance hfirst
    rw [decode, Action.bind_of_ok (readByte_eq_ok.mpr ⟨hfirst, rfl⟩)]
    by_cases hsimple : initial >>> 5 = majorSimple
    · have hmajor : (Head.mk initial argument).major = majorSimple := hsimple
      have hchildCount : (Head.mk initial argument).childCount = some 0 := by
        simp [Head.childCount, hmajor, majorSimple]
      obtain rfl : children = [] :=
        List.length_eq_zero_iff.mp (hskeleton.length_children 0 hchildCount)
      obtain rfl : content = [] := by
        simpa [Head.contentLength, hmajor, majorSimple] using hskeleton.length_content
      have hvalue : (Item.node ⟨initial, argument⟩ [] []).value = simpleValue ⟨initial, argument⟩ := by
        rw [Item.value_node, contentValue_simple hmajor]
      rw [if_pos hsimple, (decodeSimple_eq_ok hd₁).mpr
        ⟨argument, hskeleton.valid, hreadable.simple hmajor, hargument, rfl, rfl⟩, hvalue]
      simp [Head.tail, hchildCount, Nat.add_comm]
    · have hlen := Item.length_le_bytesList children
      have htailLength : (Item.bytesList children).length ≤
          (Head.tail ⟨initial, argument⟩ content children).length := by
        simp only [Head.tail, List.length_append]
        omega
      simp only [List.length_cons, List.length_append] at hfuel
      have hcall : CompleteCall (decode fuel) children := by
        intro c hc d' hd' hsees'
        have hle := Item.length_bytes_le_of_mem hc
        exact ih c hc (hs.of_mem c hc) (by omega) hd' hsees'
      rw [if_neg hsimple, Action.bind_of_ok ((readArg_eq_ok hd₁).mpr
        ⟨argument, hskeleton.valid, hargument, rfl, rfl, rfl⟩)]
      have hcontent := decodeContent_complete hskeleton hreadable hsimple hcall
        (decode_break (show 0 < fuel by omega)) (show children.length < fuel by omega)
        (hd₁.advance hargument) htail
      rw [Item.value_node]
      refine hcontent.trans ?_
      simp only [Decoder.advance_advance, List.length_cons, List.length_append]
      congr 2
      omega

end Zenith.Cbor
