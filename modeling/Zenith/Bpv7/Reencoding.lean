import Zenith.Bpv7.RoundTrip

/-!
# Serializing what was parsed

`Unmarshal` accepts more than `Marshal` writes: longer heads, indefinite lengths, numbers spelled as
negative integers, surplus fields, bytes after the bundle. `DeterministicImage` describes the inputs
without any of these, head by head, and these are exactly the ones that `Marshal` reproduces.
-/

namespace Zenith.Bpv7

open Go Cbor

/-! ## Deterministic images -/

/-- A head that only `writeHead` can have written. -/
structure PreferredRule (h : Head) (_content : List UInt8) (_children : List Item) : Prop where
  definite : ¬h.Indefinite
  nonnegative : h.major ≠ majorNint
  shortest : h.bytes = writeHead h.major h.arg

/-- The number that a field of a block holds. -/
def argAt (fields : List Item) (i : ℕ) : UInt64 := (fields[i]?.map fun s ↦ s.head.arg).getD 0

/-- How many fields the flags and the CRC type of a primary block ask for. -/
def primaryArity (fields : List Item) : ℕ :=
  8 + (if argAt fields 1 &&& FlagIsFragment ≠ 0 then 2 else 0)
    + (if argAt fields 2 = CRCNone then 0 else 1)

/-- How many fields the CRC type of a canonical block asks for. -/
def canonicalArity (fields : List Item) : ℕ := 5 + (if argAt fields 3 = CRCNone then 0 else 1)

/-- The items nested directly below. -/
def children : Item → List Item
  | .node _ _ cs => cs

/-- The input is one indefinite-length array, every head below it has its only spelling, and no
block has surplus fields. -/
def DeterministicImage (data : List UInt8) : Prop :=
  ∃ primary blocks, data = 0x9f :: Item.bytesList (primary :: blocks) ++ [0xff] ∧
    (∀ s ∈ primary :: blocks, s.Skeleton ∧ s.All PreferredRule) ∧
    (children primary).length = primaryArity (children primary) ∧
    ∀ s ∈ blocks, (children s).length = canonicalArity (children s)

/-! ## From serialization to deterministic images -/

theorem preferredRule_ofArg {major : UInt8} (hmajor : major.toNat < 8) (hne : major ≠ majorNint)
    (arg : UInt64) (content : List UInt8) (nested : List Item) :
    PreferredRule (.ofArg major arg) content nested := by
  have hs := Head.spells_ofArg hmajor arg
  refine ⟨hs.definite, by rwa [hs.major_eq], ?_⟩
  rw [hs.major_eq, hs.arg_eq, Head.bytes_ofArg]

theorem FieldValue.preferred {v : Value} (hv : FieldValue v) :
    (Item.ofValue v).All PreferredRule := by
  induction hv with
  | uint64 x =>
    rw [Item.ofValue]
    exact .intro (preferredRule_ofArg (by decide) (by decide) _ _ _) (by simp)
  | bytes data =>
    rw [Item.ofValue]
    exact .intro (preferredRule_ofArg (by decide) (by decide) _ _ _) (by simp)
  | text data =>
    rw [Item.ofValue]
    exact .intro (preferredRule_ofArg (by decide) (by decide) _ _ _) (by simp)
  | array _ ih =>
    rw [Item.ofValue]
    refine .intro (preferredRule_ofArg (by decide) (by decide) _ _ _) fun c hc ↦ ?_
    obtain ⟨v, hv, rfl⟩ := Item.exists_of_mem_ofValues hc
    exact ih v hv

theorem children_ofValue_array (items : List Value) :
    children (Item.ofValue (.array items)) = Item.ofValues items := by
  rw [Item.ofValue]
  rfl

theorem ofValues_eq_map (items : List Value) : Item.ofValues items = items.map Item.ofValue := by
  induction items with
  | nil => simp
  | cons item rest ih => simp [ih]

theorem argAt_ofValues {items : List Value} {i : ℕ} {x : UInt64}
    (h : items[i]? = some (.uint64 x)) : argAt (Item.ofValues items) i = x := by
  have hs := Head.spells_ofArg (show majorUint.toNat < 8 by decide) x
  rw [argAt, ofValues_eq_map, List.getElem?_map, h]
  simp only [Option.map_some, Option.getD_some, Item.ofValue, Item.head]
  exact hs.arg_eq

theorem length_crcField (fields : List Value) (crcType : UInt64) :
    (crcField fields crcType).length = if crcType = CRCNone then 0 else 1 := by
  unfold crcField
  split_ifs <;> rfl

theorem PrimaryBlock.length_plainFields (p : PrimaryBlock) :
    p.plainFields.length = 8 + if p.flags &&& FlagIsFragment ≠ 0 then 2 else 0 := by
  by_cases hfragment : p.flags &&& FlagIsFragment ≠ 0
  · simp [plainFields, fragmentFields, isFragment, hfragment]
  · simp [plainFields, fragmentFields, isFragment, hfragment]

theorem PrimaryBlock.length_fields (p : PrimaryBlock) :
    p.fields.length = primaryArity (Item.ofValues p.fields) := by
  have hflags : argAt (Item.ofValues p.fields) 1 = p.flags := argAt_ofValues rfl
  have hcrcType : argAt (Item.ofValues p.fields) 2 = p.crcType := argAt_ofValues rfl
  rw [primaryArity, hflags, hcrcType, fields, List.length_append, length_plainFields,
    length_crcField]

theorem CanonicalBlock.length_fields (c : CanonicalBlock) :
    c.fields.length = canonicalArity (Item.ofValues c.fields) := by
  have hcrcType : argAt (Item.ofValues c.fields) 3 = c.crcType := argAt_ofValues rfl
  rw [canonicalArity, hcrcType, fields, List.length_append, length_crcField]
  rfl

theorem Bundle.image_eq (b : Bundle) :
    b.image = 0x9f :: Item.bytesList (Item.ofValue (.array b.primary.fields) ::
      b.canonical.map fun c ↦ Item.ofValue (.array c.fields)) ++ [0xff] := by
  rw [Bundle.image, Bundle.value, bytes_ofValue_indefArray, Item.ofValues_cons, ofValues_eq_map,
    List.map_map]
  rfl

/-- What `Marshal` writes is a deterministic image. -/
theorem Bundle.deterministicImage {b : Bundle} (hlen : b.image.length < 2 ^ 63) :
    DeterministicImage b.image := by
  have hblocks : ∀ s ∈ Item.ofValue (.array b.primary.fields) ::
      b.canonical.map fun c ↦ Item.ofValue (.array c.fields), s.Skeleton ∧ s.All PreferredRule := by
    have haccepted := (b.encodable_value.denotes hlen).accepted
    rw [Bundle.value, Item.ofValue, Item.ofValues_cons, ofValues_eq_map, List.map_map] at haccepted
    intro s hs
    refine ⟨(haccepted.of_mem s hs).1, ?_⟩
    rcases List.mem_cons.mp hs with rfl | hs
    · exact b.primary.fieldValue_fields.preferred
    · obtain ⟨c, -, rfl⟩ := List.mem_map.mp hs
      exact c.fieldValue_fields.preferred
  refine ⟨_, _, b.image_eq, hblocks, ?_, ?_⟩
  · rw [children_ofValue_array, Item.length_ofValues, PrimaryBlock.length_fields]
  · intro s hs
    obtain ⟨c, -, rfl⟩ := List.mem_map.mp hs
    rw [children_ofValue_array, Item.length_ofValues, CanonicalBlock.length_fields]

/-! ## From deterministic images to serialization -/

theorem major_toNat_lt (h : Head) : h.major.toNat < 8 := by
  have hinitial := Item.initial_toNat h
  have hlt := h.initial.toNat_lt
  omega

theorem PreferredRule.head_eq {h : Head} {content : List UInt8} {nested : List Item}
    (hrule : PreferredRule h content nested) (hv : h.Valid) : h = .ofArg h.major h.arg := by
  have hs := Head.spells_ofArg (major_toNat_lt h) h.arg
  have hbytes : h.bytes ++ [] = (Head.ofArg h.major h.arg).bytes ++ [] := by
    rw [Head.bytes_ofArg, hrule.shortest]
  exact (Head.bytes_append_inj hv hs.valid hbytes).1

/-- The nodes of an item, by what their majors allow. -/
theorem skeleton_leaf {h : Head} {content : List UInt8} {nested : List Item}
    (hskeleton : Item.SkeletonRule h content nested) (hcount : h.childCount = some 0) :
    nested = [] :=
  List.length_eq_zero_iff.mp (hskeleton.length_children 0 hcount)

theorem unsigned_simpleValue (h : Head) : unsigned (simpleValue h) = simpleValue h := by
  unfold simpleValue
  split_ifs <;> simp [unsigned]

/-- Where no number is spelled as a negative integer, reading numbers as unsigned changes nothing. -/
theorem unsigned_value {s : Item} (hpreferred : s.All PreferredRule) :
    unsigned s.value = s.value := by
  induction s with
  | node h content nested ih =>
    have hrule := hpreferred.rule_holds
    rw [Item.value_node]
    rcases Item.major_cases h with hm | hm | hm | hm | hm | hm | hm | hm
    · simp [contentValue_uint hm]
    · exact absurd hm hrule.nonnegative
    · simp [contentValue_bytes hm]
    · simp [contentValue_text hm]
    · have hnested : (Item.values nested).map unsigned = Item.values nested := by
        apply map_eq_self
        intro v hv
        obtain ⟨c, hc, rfl⟩ := Item.mem_values hv
        exact ih c hc (hpreferred.of_mem c hc)
      simp [contentValue_array hm, hnested]
    · simp [contentValue_map hm, unsigned]
    · simp [contentValue_tag hm, unsigned]
    · rw [contentValue_simple hm, unsigned_simpleValue]

theorem lenUint64_eq_arg {α : Type} {x : List α} {h : Head} (hlen : x.length = h.count) :
    lenUint64 x = h.arg := by
  rw [lenUint64, Head.arg, hlen]

theorem ofValues_values {cs : List Item} (h : ∀ c ∈ cs, Item.ofValue c.value = c) :
    Item.ofValues (Item.values cs) = cs := by
  induction cs with
  | nil => simp
  | cons c cs ih => simp [h c (by simp), ih fun c' hc' ↦ h c' (by simp [hc'])]

theorem not_fieldValue_simpleValue (h : Head) : ¬FieldValue (simpleValue h) := by
  unfold simpleValue
  split_ifs <;> (intro hfield; cases hfield)

/-- An item with preferred heads is the item of its value, provided the value is one that `Marshal`
puts into blocks. -/
theorem ofValue_value {s : Item} (haccepted : s.Accepted) (hpreferred : s.All PreferredRule)
    (hfield : FieldValue s.value) : Item.ofValue s.value = s := by
  induction s with
  | node h content nested ih =>
    have hskeleton := haccepted.1.rule_holds
    have hrule := hpreferred.rule_holds
    have hhead := hrule.head_eq hskeleton.valid
    have hdef := hrule.definite
    have hlength := hskeleton.length_content
    rw [Item.value_node] at hfield ⊢
    rcases Item.major_cases h with hm | hm | hm | hm | hm | hm | hm | hm
    · obtain rfl := skeleton_leaf hskeleton (by simp [Head.childCount, hm, majorUint])
      obtain rfl : content = [] := by simpa [Head.contentLength, hm, majorUint] using hlength
      rw [contentValue_uint hm, Item.ofValue, ← hm, ← hhead]
    · exact absurd hm hrule.nonnegative
    · obtain rfl := skeleton_leaf hskeleton (by simp [Head.childCount, hm, hdef, majorBytes])
      have hlen : content.length = h.count := by
        simpa [Head.contentLength, hm, hdef, majorBytes] using hlength
      rw [contentValue_bytes hm, if_neg hdef, Item.ofValue, lenUint64_eq_arg hlen, ← hm, ← hhead]
    · obtain rfl := skeleton_leaf hskeleton (by simp [Head.childCount, hm, hdef, majorText])
      have hlen : content.length = h.count := by
        simpa [Head.contentLength, hm, hdef, majorText] using hlength
      rw [contentValue_text hm, if_neg hdef, Item.ofValue, lenUint64_eq_arg hlen, ← hm, ← hhead]
    · obtain rfl : content = [] := by simpa [Head.contentLength, hm, majorArray] using hlength
      have hlen : nested.length = h.count :=
        hskeleton.length_children _ (by simp [Head.childCount, hm, hdef, majorArray])
      rw [contentValue_array hm] at hfield ⊢
      cases hfield with
      | array hnested =>
        have hvalues := ofValues_values fun c hc ↦ ih c hc (haccepted.of_mem c hc)
          (hpreferred.of_mem c hc) (hnested _ (Item.value_mem_values hc))
        rw [Item.ofValue, hvalues, lenUint64_eq_arg (by rwa [Item.length_values]), ← hm, ← hhead]
    · rw [contentValue_map hm] at hfield
      cases hfield
    · rw [contentValue_tag hm] at hfield
      cases hfield
    · rw [contentValue_simple hm] at hfield
      exact absurd hfield (not_fieldValue_simpleValue h)

theorem contentValue_major {h : Head} {content : List UInt8} {nested : List Value} {v : Value}
    (hvalue : contentValue h content nested = v) :
    (∀ x, v = .uint64 x → h.arg = x) ∧ ∀ items, v = .array items → nested = items := by
  have hsimple : (∀ x, simpleValue h ≠ .uint64 x) ∧ ∀ items, simpleValue h ≠ .array items := by
    unfold simpleValue
    split_ifs <;> simp
  subst hvalue
  rcases Item.major_cases h with hm | hm | hm | hm | hm | hm | hm | hm
  · simp [contentValue_uint hm]
  · simp [contentValue_nint hm]
  · simp [contentValue_bytes hm]
  · simp [contentValue_text hm]
  · simp [contentValue_array hm]
  · simp [contentValue_map hm]
  · simp [contentValue_tag hm]
  · rw [contentValue_simple hm]
    exact ⟨fun x hx ↦ absurd hx (hsimple.1 x), fun items hx ↦ absurd hx (hsimple.2 items)⟩

theorem values_children_of_array {s : Item} {arr : List Value} (h : s.value = .array arr) :
    Item.values (children s) = arr := by
  obtain ⟨head, content, nested⟩ := s
  rw [Item.value_node] at h
  exact (contentValue_major h).2 arr rfl

theorem argAt_of_values {cs : List Item} {i : ℕ} {x : UInt64}
    (h : (Item.values cs)[i]? = some (.uint64 x)) : argAt cs i = x := by
  induction cs generalizing i with
  | nil => simp at h
  | cons c cs ih =>
    rw [Item.values_cons] at h
    cases i with
    | zero =>
      obtain ⟨head, content, nested⟩ := c
      simp only [List.getElem?_cons_zero, Option.some.injEq, Item.value_node] at h
      exact (contentValue_major h).1 x rfl
    | succ i => exact ih (by simpa using h)

theorem arr_eq_of_map_unsigned {arr fields plain rest : List Value}
    (harr : arr.map unsigned = arr) (hfields : fields.map unsigned = plain)
    (happend : arr = fields ++ rest) : arr = plain ++ rest := by
  rw [happend, List.map_append] at harr
  obtain ⟨hfirst, -⟩ := List.append_inj harr (by simp)
  rw [happend, ← hfields, hfirst]

/-- A primary block with preferred heads and no surplus fields has the fields of its serialization. -/
theorem PrimaryBlock.fields_of_preferred {p : PrimaryBlock} {block : Item} {arr : List Value}
    (hpreferred : block.All PreferredRule) (hvalue : block.value = .array arr)
    (hparse : parsePrimary arr = .ok p)
    (harity : (children block).length = primaryArity (children block)) : arr = p.fields := by
  have harr : arr.map unsigned = arr := by
    have hunsigned := unsigned_value hpreferred
    rwa [hvalue, unsigned_array, Value.array.injEq] at hunsigned
  have hvalues := values_children_of_array hvalue
  obtain ⟨-, fields, surplus, hfields, happend⟩ := parsePrimary_eq_ok.mp hparse
  have heq := arr_eq_of_map_unsigned harr hfields happend
  have hflags : argAt (children block) 1 = p.flags :=
    argAt_of_values (by rw [hvalues, heq]; rfl)
  have hcrcType : argAt (children block) 2 = p.crcType :=
    argAt_of_values (by rw [hvalues, heq]; rfl)
  have hlength : (children block).length = arr.length := by rw [← hvalues, Item.length_values]
  rw [primaryArity, hflags, hcrcType, ← p.length_plainFields,
    ← length_crcField p.plainFields p.crcType, hlength, heq, List.length_append,
    List.length_append] at harity
  have hsurplus : surplus = [] := List.length_eq_zero_iff.mp (by omega)
  rw [heq, hsurplus, List.append_nil]
  rfl

theorem CanonicalBlock.fields_of_preferred {c : CanonicalBlock} {block : Item} {arr : List Value}
    (hpreferred : block.All PreferredRule) (hvalue : block.value = .array arr)
    (hparse : parseCanonical arr = .ok c)
    (harity : (children block).length = canonicalArity (children block)) : arr = c.fields := by
  have harr : arr.map unsigned = arr := by
    have hunsigned := unsigned_value hpreferred
    rwa [hvalue, unsigned_array, Value.array.injEq] at hunsigned
  have hvalues := values_children_of_array hvalue
  obtain ⟨-, fields, surplus, hfields, happend⟩ := parseCanonical_eq_ok.mp hparse
  have heq := arr_eq_of_map_unsigned harr hfields happend
  have hcrcType : argAt (children block) 3 = c.crcType :=
    argAt_of_values (by rw [hvalues, heq]; rfl)
  have hlength : (children block).length = arr.length := by rw [← hvalues, Item.length_values]
  have hplain : c.plainFields.length = 5 := rfl
  rw [canonicalArity, hcrcType, ← length_crcField c.plainFields c.crcType, hlength, heq,
    List.length_append, List.length_append] at harity
  have hsurplus : surplus = [] := List.length_eq_zero_iff.mp (by omega)
  rw [heq, hsurplus, List.append_nil]
  rfl

theorem map_ofValue_canonical {blocks : List Item} {cs : List CanonicalBlock}
    (hread : List.Forall₂ ReadsCanonical (Item.values blocks) cs)
    (haccepted : ∀ s ∈ blocks, s.Accepted) (hpreferred : ∀ s ∈ blocks, s.All PreferredRule)
    (harity : ∀ s ∈ blocks, (children s).length = canonicalArity (children s)) :
    (cs.map fun c ↦ Item.ofValue (.array c.fields)) = blocks := by
  induction blocks generalizing cs with
  | nil =>
    rw [Item.values_nil, List.forall₂_nil_left_iff] at hread
    rw [hread]
    rfl
  | cons block blocks ih =>
    rw [Item.values_cons, List.forall₂_cons_left_iff] at hread
    obtain ⟨c, cs, ⟨arr, harr, hparse⟩, hrest, rfl⟩ := hread
    have hfields := CanonicalBlock.fields_of_preferred (hpreferred block (by simp)) harr hparse
      (harity block (by simp))
    have hblock : Item.ofValue (.array c.fields) = block := by
      rw [← hfields, ← harr]
      apply ofValue_value (haccepted block (by simp)) (hpreferred block (by simp))
      rw [harr, hfields]
      exact c.fieldValue_fields
    rw [List.map_cons, hblock, ih hrest (fun s hs ↦ haccepted s (by simp [hs]))
      (fun s hs ↦ hpreferred s (by simp [hs])) fun s hs ↦ harity s (by simp [hs])]

/-- The item of a deterministic image. -/
theorem skeleton_indefArray {blocks : List Item} (hskeleton : ∀ s ∈ blocks, s.Skeleton)
    (hpreferred : ∀ s ∈ blocks, s.All PreferredRule) :
    (Item.node ⟨majorArray <<< 5 ||| Cbor.indefinite, []⟩ [] blocks).Skeleton := by
  refine .intro ⟨rfl, rfl, ?_, ?_, ?_⟩ hskeleton
  · have hcount : (Head.mk (majorArray <<< 5 ||| Cbor.indefinite) []).childCount = none := by decide
    simp [hcount]
  · exact fun h5 ↦ absurd h5 (by decide)
  · intro _ i c hc _ hbreak
    have hall := hpreferred c (List.mem_of_getElem? hc)
    obtain ⟨head, content, nested⟩ := c
    exact hall.rule_holds.definite hbreak.indefinite

theorem bytes_indefArray (blocks : List Item) :
    (Item.node ⟨majorArray <<< 5 ||| Cbor.indefinite, []⟩ [] blocks).bytes =
      0x9f :: Item.bytesList blocks ++ [0xff] := by
  have hcount : (Head.mk (majorArray <<< 5 ||| Cbor.indefinite) []).childCount = none := by decide
  rw [Item.bytes, if_pos hcount]
  rfl

/-- An accepted deterministic image is the image of the bundle read from it. -/
theorem image_of_deterministicImage {data : List UInt8} {b : Bundle} (hdata : data.length < 2 ^ 63)
    (hread : unmarshal data = .ok b) (himage : DeterministicImage data) : b.image = data := by
  obtain ⟨primary, blocks, rfl, hitems, hprimaryArity, hblocksArity⟩ := himage
  obtain ⟨v, n, hvalue, hparse⟩ := unmarshal_eq_ok.mp hread
  obtain ⟨s, haccepted, htake, -, rfl⟩ := (Cbor.unmarshal_eq_ok hdata).mp hvalue
  have hs : s = .node ⟨majorArray <<< 5 ||| Cbor.indefinite, []⟩ [] (primary :: blocks) := by
    have hskeleton := skeleton_indefArray (fun s hs ↦ (hitems s hs).1) fun s hs ↦ (hitems s hs).2
    set data := 0x9f :: Item.bytesList (primary :: blocks) ++ [0xff]
    have hbytes : s.bytes ++ data.drop n =
        (Item.node ⟨majorArray <<< 5 ||| Cbor.indefinite, []⟩ [] (primary :: blocks)).bytes ++ [] := by
      calc
        s.bytes ++ data.drop n = data.take n ++ data.drop n := by rw [htake]
        _ = data := List.take_append_drop n data
        _ = _ := by rw [bytes_indefArray, List.append_nil]
    exact (Item.bytes_append_inj haccepted.1 hskeleton hbytes).1
  subst hs
  have haccepteds := haccepted.of_mem
  rw [Item.value_array (by decide), Item.values_cons] at hparse
  obtain ⟨arr, raws, hblocks, -, hprimary, hcanonical⟩ := parseBundle_eq_ok.mp hparse
  rw [Value.array.injEq, List.cons.injEq] at hblocks
  obtain ⟨harr, rfl⟩ := hblocks
  have hprimaryItem := hitems primary (by simp)
  have hprimaryFields := PrimaryBlock.fields_of_preferred hprimaryItem.2 harr hprimary hprimaryArity
  have hprimaryBytes : Item.ofValue (.array b.primary.fields) = primary := by
    rw [← hprimaryFields, ← harr]
    apply ofValue_value (haccepteds primary (by simp)) hprimaryItem.2
    rw [harr, hprimaryFields]
    exact b.primary.fieldValue_fields
  have hcanonicalBytes := map_ofValue_canonical hcanonical
    (fun s hs ↦ haccepteds s (by simp [hs])) (fun s hs ↦ (hitems s (by simp [hs])).2) hblocksArity
  rw [Bundle.image_eq, hprimaryBytes, hcanonicalBytes]

/-- `Marshal` reproduces an accepted input exactly if that is a deterministic image. -/
theorem marshal_unmarshal_iff {data : List UInt8} {b : Bundle} (hdata : data.length < 2 ^ 63)
    (hread : unmarshal data = .ok b) : b.marshal = .ok data ↔ DeterministicImage data := by
  have hsound := sound_of_unmarshal hread
  rw [Bundle.marshal_eq hsound.primary.crcType hsound.crcTypes, Except.ok.injEq]
  constructor
  · rintro rfl
    exact Bundle.deterministicImage hdata
  · exact image_of_deterministicImage hdata hread

theorem unmarshal_relayedFragment (tail : List UInt8) (hlen : tail.length < 2 ^ 62) :
    unmarshal (relayedFragment.image ++ tail) = .ok relayedFragment := by
  apply sound_relayedFragment.unmarshal_image
  rw [length_image_relayedFragment]
  omega

theorem marshal_unmarshal_relayedFragment : relayedFragment.marshal = .ok relayedFragment.image ∧
    DeterministicImage relayedFragment.image := by
  have hread := unmarshal_relayedFragment [] (by decide)
  rw [List.append_nil] at hread
  have hlen : relayedFragment.image.length < 2 ^ 63 := by
    rw [length_image_relayedFragment]
    decide
  exact ⟨marshal_relayedFragment, (marshal_unmarshal_iff hlen hread).mp marshal_relayedFragment⟩

/-- A byte after the bundle is accepted and lost. -/
theorem marshal_unmarshal_trailing :
    ¬∀ (data : List UInt8) (b : Bundle), data.length < 2 ^ 63 → unmarshal data = .ok b →
      b.marshal = .ok data := by
  intro h
  have hread := unmarshal_relayedFragment [0] (by decide)
  have hmarshal := h _ _ (by simp [length_image_relayedFragment]) hread
  rw [marshal_relayedFragment, Except.ok.injEq] at hmarshal
  have hlength := congrArg List.length hmarshal
  simp at hlength

end Zenith.Bpv7
